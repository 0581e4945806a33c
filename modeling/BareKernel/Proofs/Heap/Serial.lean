import Mathlib.Data.List.Perm.Basic
import BareKernel.Heap.Shared
import BareKernel.Proofs.Heap.Loans
import BareKernel.Proofs.Sync.Protocol

/-! Clients of one heap that call it one call at a time. Each gives back only what it was handed and
reads and writes only there. No call of theirs fails, then; all that they hold is apart; and what
one of them has written stays until it writes again or gives the memory back. -/

namespace BareKernel.Heap.Serial

open Sync

inductive Op where
  | allocate (size : Nat)
  | free (addr : Nat)
  | readByte (addr : Nat)
  | writeByte (addr : Nat) (b : UInt8)

abbrev Reply : Op → Type
  | .allocate _ => Option Nat
  | .readByte _ => UInt8
  | _ => Unit

/-- A call that fails has no reply: who made it goes no further. -/
def perform : (o : Op) → KernelMemory → Option (Reply o) × KernelMemory
  | .allocate size, m =>
    let (r, m) := m.allocate size
    (r.toOption, m)
  | .free addr, m =>
    let (r, m) := m.free addr
    (r.toOption, m)
  | .readByte addr, m => (some (m.byteAt addr), m)
  | .writeByte addr b, m => (some (), m.setByte addr b)

/-- Whole calls as single operations. -/
def machine : Machine KernelMemory where
  Op := Op
  Reply := Reply
  perform := perform

abbrev Code := Program machine Fatal

/-! ## Clients -/

/-- The payload of the smallest block that serves a request. Its client may use all of it, and need
not know whether the block is larger. -/
def capacity (size : Nat) : Nat :=
  match unitsFor size with
  | some units => (units - tagUnits) * unitBytes
  | none => size

/-- What one client holds, and the bytes that it has written there. -/
structure Client where
  loans : List Loan
  written : Nat → Option UInt8 := fun _ => none

namespace Client

def holds (c : Client) (addr : Nat) : Bool :=
  c.loans.any fun loan => loan.addr ≤ addr && addr < loan.addr + loan.bytes

/-- The base of the arena may be given back as null may: nobody is handed either. -/
def Permits (base : Nat) (c : Client) : Op → Prop
  | .allocate _ => True
  | .free addr => addr = 0 ∨ addr = base ∨ addr ∈ c.loans.map (·.addr)
  | .readByte addr => c.holds addr = true
  | .writeByte addr _ => c.holds addr = true

/-- What is handed out is apart from all that the client holds, and what is read is what it has
written. -/
def Foreseen (c : Client) : (o : Op) → Reply o → Prop
  | .allocate size, r => ∀ addr, r = some addr → ∀ loan ∈ c.loans,
    (Loan.mk addr (capacity size)).Apart loan
  | .readByte addr, b => ∀ w, c.written addr = some w → b = w
  | .free _, _ => True
  | .writeByte _ _, _ => True

/-- With memory that is given back goes what was written there. -/
def restrict (c : Client) (loans : List Loan) : Client where
  loans := loans
  written addr := if (Client.mk loans c.written).holds addr then c.written addr else none

def next (c : Client) : (o : Op) → Reply o → Client
  | .allocate size, r => ⟨Session.grant c.loans (capacity size) (.ok r), c.written⟩
  | .free addr, _ => c.restrict (Session.revoke c.loans addr)
  | .readByte _, _ => c
  | .writeByte addr b, _ => ⟨c.loans, fun a => if a = addr then some b else c.written a⟩

end Client

/-- Clients that keep to what is their own. They may stop whenever they like. -/
def protocol (base : Nat) : Protocol machine Fatal where
  Phase := Client
  Permits := Client.Permits base
  Foreseen := Client.Foreseen
  next := Client.next
  MayStop _ := True

/-! ## What clients hold -/

variable {s : Shared.Setting} {m m' : KernelMemory} {cs : List Client} {c d : Client} {i : Nat}
  {o : Op} {h h' : Heap} {p p' : Plan} {addr : Nat} {loan : Loan}

theorem perm_set {β : Type} {l : List β} {x : β} (hi : i < l.length) :
    (l.set i x).Perm (x :: l.eraseIdx i) := by
  have hp := List.getElem_cons_eraseIdx_perm (l := l.set i x) (n := i) (by simpa using hi)
  rw [List.getElem_set_self, List.eraseIdx_set_eq] at hp
  exact hp.symm

theorem perm_of_getElem? {β : Type} {l : List β} {x : β} (hi : l[i]? = some x) :
    l.Perm (x :: l.eraseIdx i) := by
  obtain ⟨hlt, rfl⟩ := List.getElem?_eq_some_iff.mp hi
  exact (List.getElem_cons_eraseIdx_perm hlt).symm

/-- What the clients other than `i` hold. -/
def others (cs : List Client) (i : Nat) : List Loan := (cs.eraseIdx i).flatMap Client.loans

theorem mem_others {j : Nat} (hj : cs[j]? = some d) (hij : j ≠ i) (hl : loan ∈ d.loans) :
    loan ∈ others cs i :=
  List.mem_flatMap_of_mem (List.mem_eraseIdx_iff_getElem?.mpr ⟨j, hij, hj⟩) hl

theorem unitsFor_capacity (size : Nat) : unitsFor (capacity size) = unitsFor size := by
  unfold capacity
  cases hu : unitsFor size with
  | none => exact hu
  | some units =>
    simp only [unitsFor] at hu ⊢
    split at hu
    · obtain rfl := Option.some.inj hu
      rw [if_pos]
      · simp only [minBlockUnits, tagUnits, unitBytes, Option.some.injEq]
        omega
      · simp only [minBlockUnits, tagUnits, unitBytes] at *
        omega
    · cases hu

/-- Who asks for all that the block holds gets the same block. -/
theorem allocate_capacity {size : Nat} (hsize : size ≠ 0) :
    m.allocate (capacity size) = m.allocate size := by
  have hne : capacity size ≠ 0 := by
    unfold capacity
    cases hu : unitsFor size with
    | none => exact hsize
    | some units => exact Nat.ne_of_gt (Nat.lt_of_lt_of_le (by omega) (le_of_unitsFor hu))
  simp only [KernelMemory.allocate, unitsFor_capacity, hne, hsize]

theorem Client.holds_iff :
    c.holds addr = true ↔ ∃ loan ∈ c.loans, ∃ k < loan.bytes, loan.addr + k = addr := by
  simp only [holds, List.any_eq_true, Bool.and_eq_true, decide_eq_true_eq]
  refine exists_congr fun loan => and_congr_right fun _ => ?_
  constructor
  · intro hin
    exact ⟨addr - loan.addr, by omega, by omega⟩
  · rintro ⟨k, hk, rfl⟩
    omega

theorem Client.holds_mono (h : ∀ loan ∈ c.loans, loan ∈ d.loans) (hc : c.holds addr = true) :
    d.holds addr = true := by
  obtain ⟨loan, hl, hk⟩ := holds_iff.mp hc
  exact holds_iff.mpr ⟨loan, h loan hl, hk⟩

/-! ## All clients -/

/-- The heap is in order where the setting says, with the clients holding all that is handed out,
and what each of them has written is there. -/
structure Sound (s : Shared.Setting) (m : KernelMemory) (cs : List Client) : Prop where
  session : ∃ h p, (Session.mk m (cs.flatMap Client.loans)).Follows h p ∧
    s = ⟨m.checks, h.arena.base, h.arena.len⟩
  written : ∀ c ∈ cs, ∀ addr b, c.written addr = some b → c.holds addr = true ∧ m.byteAt addr = b

namespace Sound

/-- One client's loans and those of the others. -/
theorem around (hs : Sound s m cs) (hi : cs[i]? = some c) :
    ∃ h p, (Session.mk m (c.loans ++ others cs i)).Follows h p ∧
      s = ⟨m.checks, h.arena.base, h.arena.len⟩ := by
  obtain ⟨h, p, hf, hsame⟩ := hs.session
  exact ⟨h, p, hf.perm ((perm_of_getElem? hi).flatMap_right Client.loans), hsame⟩

/-- One client moves on, and the bytes of the others stay. -/
theorem set (hs : Sound s m cs) (hi : cs[i]? = some c)
    (hf : (Session.mk m' (d.loans ++ others cs i)).Follows h' p')
    (hsame : s = ⟨m'.checks, h'.arena.base, h'.arena.len⟩)
    (hothers : ∀ loan ∈ others cs i, ∀ k < loan.bytes,
      m'.byteAt (loan.addr + k) = m.byteAt (loan.addr + k))
    (hd : ∀ addr b, d.written addr = some b → d.holds addr = true ∧ m'.byteAt addr = b) :
    Sound s m' (cs.set i d) := by
  obtain ⟨hlt, -⟩ := List.getElem?_eq_some_iff.mp hi
  have hperm := perm_set (x := d) hlt
  refine ⟨⟨h', p', hf.perm (hperm.flatMap_right Client.loans).symm, hsame⟩,
    fun e he addr b hw => ?_⟩
  rcases List.mem_cons.mp (hperm.mem_iff.mp he) with rfl | he
  · exact hd addr b hw
  · have hmem : e ∈ cs := (perm_of_getElem? hi).mem_iff.mpr (List.mem_cons_of_mem c he)
    obtain ⟨hholds, hb⟩ := hs.written e hmem addr b hw
    obtain ⟨loan, hl, k, hk, rfl⟩ := Client.holds_iff.mp hholds
    exact ⟨hholds, (hothers loan (List.mem_flatMap_of_mem he hl) k hk).trans hb⟩

/-! ### Calls -/

/-- What a client may give back is no block of anybody else. -/
theorem revoke_others {live : List Loan}
    (hf : (Session.mk m (c.loans ++ live)).Follows h p)
    (ha : addr = 0 ∨ addr = h.arena.base ∨ addr ∈ c.loans.map (·.addr)) :
    Session.revoke live addr = live := by
  refine List.filter_eq_self.mpr fun loan hl => decide_eq_true fun heq => ?_
  obtain ⟨e, -, hea, -⟩ := hf.exists_lent (List.mem_append_right c.loans hl)
  have hne := KernelMemory.payloadOf_ne h.arena.base e.start
  rw [hea, heq] at hne
  rcases ha with h₀ | hb | hm
  · exact hne.2 h₀
  · exact hne.1 hb
  · have hn := hf.nodup
    rw [List.map_append, List.nodup_append] at hn
    exact hn.2.2 addr hm addr (List.mem_map.mpr ⟨loan, hl, heq⟩) rfl

theorem returnable {live : List Loan} (hf : (Session.mk m (c.loans ++ live)).Follows h p)
    (ha : addr = 0 ∨ addr = h.arena.base ∨ addr ∈ c.loans.map (·.addr)) :
    (Session.mk m (c.loans ++ live)).Returnable addr := by
  refine ha.imp_right (Or.imp (fun hb => ⟨h, hf.heap, hb⟩) fun hm => ?_)
  rw [List.map_append]
  exact List.mem_append_left _ hm

/-- A permitted operation is answered. -/
theorem isSome_perform (hs : Sound s m cs) (hi : cs[i]? = some c) (hp : c.Permits s.base o) :
    (perform o m).1.isSome = true := by
  obtain ⟨h, p, hf, rfl⟩ := hs.around hi
  cases o with
  | allocate size =>
    obtain ⟨h', hm, -⟩ := hf.allocate size
    have hm : m.allocate size = _ := hm
    simp only [perform, hm, Except.toOption, Option.isSome_some]
  | free addr =>
    obtain ⟨h', hm, -⟩ := hf.give (returnable hf hp)
    have hm : m.free addr = _ := KernelMemory.free_of_tryFree hm
    simp only [perform, hm, Except.toOption, Option.isSome_some]
  | readByte addr => rfl
  | writeByte addr b => rfl

theorem allocate {size : Nat} {r : Option Nat} (hs : Sound s m cs) (hi : cs[i]? = some c)
    (hm : m.allocate size = (.ok r, m')) :
    c.Foreseen (.allocate size) r ∧ Sound s m' (cs.set i (c.next (.allocate size) r)) := by
  by_cases hsize : size = 0
  · have hnone : m.allocate size = (.ok none, m) := by simp [KernelMemory.allocate, hsize]
    obtain ⟨rfl, rfl⟩ : none = r ∧ m = m' := by simpa using hnone.symm.trans hm
    refine ⟨fun _ hr => (Option.some_ne_none _ hr.symm).elim, ?_⟩
    change Sound s m (cs.set i c)
    rwa [Crew.set_of_getElem? hi]
  rw [← allocate_capacity hsize] at hm
  obtain ⟨h, p, hf, rfl⟩ := hs.around hi
  obtain ⟨h', -, hmem, hf', hb, hl, -⟩ := hf.step (c := .allocate (capacity size)) trivial
  have hleaves := Session.InOrder.leaves_step (c := .allocate (capacity size)) hf trivial
    (by intro _ _ h; cases h)
  have hgrant : Session.grant (c.loans ++ others cs i) (capacity size) (.ok r) =
      (c.next (.allocate size) r).loans ++ others cs i := by cases r <;> rfl
  simp only [Session.step, hm, hgrant] at hmem hf' hleaves
  have hkeep : ∀ loan ∈ c.loans ++ others cs i,
      loan ∈ (c.next (.allocate size) r).loans ++ others cs i := by
    intro loan hl
    rw [← hgrant]
    cases r with
    | none => exact hl
    | some addr => exact List.mem_cons_of_mem _ hl
  refine ⟨fun addr hr loan hl => ?_, hs.set hi hf' ?_ (fun loan hl k hk => ?_) fun addr b hw => ?_⟩
  · have ha : (m.allocate (capacity size)).1 = .ok (some addr) := by rw [hm, hr]
    exact (hf.allocate_apart ha).2 loan (List.mem_append_left _ hl)
  · rw [hb, hl, hmem]
  · have hl := List.mem_append_right c.loans hl
    exact hleaves loan hl (hkeep loan hl) k hk
  · obtain ⟨hholds, hbyte⟩ := hs.written c (List.mem_of_getElem? hi) addr b hw
    refine ⟨Client.holds_mono (fun loan hl => ?_) hholds, ?_⟩
    · cases r with
      | none => exact hl
      | some addr => exact List.mem_cons_of_mem _ hl
    · obtain ⟨loan, hl, k, hk, rfl⟩ := Client.holds_iff.mp hholds
      have hl := List.mem_append_left (others cs i) hl
      exact (hleaves loan hl (hkeep loan hl) k hk).trans hbyte

theorem free (hs : Sound s m cs) (hi : cs[i]? = some c) (hp : c.Permits s.base (.free addr))
    (hm : m.free addr = (.ok (), m')) : Sound s m' (cs.set i (c.next (.free addr) ())) := by
  obtain ⟨h, p, hf, rfl⟩ := hs.around hi
  have hret := returnable hf hp
  obtain ⟨h', -, hmem, hf', hb, hl, -⟩ := hf.step (c := .free addr) hret
  have hleaves := Session.InOrder.leaves_step (c := .free addr) hf hret (by intro _ _ h; cases h)
  have hrevoke : Session.revoke (c.loans ++ others cs i) addr =
      (c.next (.free addr) ()).loans ++ others cs i := by
    rw [Session.revoke, List.filter_append]
    exact congrArg _ (revoke_others hf hp)
  simp only [Session.step, hm, hrevoke] at hmem hf' hleaves
  refine hs.set hi hf' ?_ (fun loan hl k hk => ?_) fun addr' b hw => ?_
  · rw [hb, hl, hmem]
  · exact hleaves loan (List.mem_append_right _ hl) (List.mem_append_right _ hl) k hk
  · simp only [Client.next, Client.restrict] at hw
    split at hw
    · rename_i hholds
      obtain ⟨loan, hl, k, hk, rfl⟩ := Client.holds_iff.mp hholds
      refine ⟨hholds, ?_⟩
      have hin : loan ∈ c.loans := (List.mem_filter.mp hl).1
      rw [← (hs.written c (List.mem_of_getElem? hi) _ b hw).2]
      exact hleaves loan (List.mem_append_left _ hin) (List.mem_append_left _ hl) k hk
    · cases hw

theorem readByte (hs : Sound s m cs) (hi : cs[i]? = some c) :
    c.Foreseen (.readByte addr) (m.byteAt addr) ∧
      Sound s m (cs.set i (c.next (.readByte addr) (m.byteAt addr))) := by
  refine ⟨fun w hw => (hs.written c (List.mem_of_getElem? hi) addr w hw).2, ?_⟩
  rwa [Client.next, Crew.set_of_getElem? hi]

theorem writeByte {b : UInt8} (hs : Sound s m cs) (hi : cs[i]? = some c)
    (hp : c.holds addr = true) :
    Sound s (m.setByte addr b) (cs.set i (c.next (.writeByte addr b) ())) := by
  obtain ⟨h, p, hf, rfl⟩ := hs.around hi
  obtain ⟨loan, hl, k, hk, rfl⟩ := Client.holds_iff.mp hp
  have hloan : loan ∈ c.loans ++ others cs i := List.mem_append_left _ hl
  have hin := (hf.inside hloan).2
  have hperm : (Session.mk m (c.loans ++ others cs i)).Permitted (.write (loan.addr + k) b) :=
    ⟨loan, hloan, Nat.le_add_right _ _, by omega⟩
  obtain ⟨h', hmem, hf', hb, hlen⟩ := hf.write hperm
  have hmem : m.setByte (loan.addr + k) b = _ := hmem
  refine hs.set hi hf' ?_ (fun other ho j hj => ?_) fun addr' b' hw => ?_
  · rw [hb, hlen, hmem]
  · have hap := (List.pairwise_append.mp hf.apart).2.2 loan hl other ho
    refine KernelMemory.byteAt_setByte_ne ?_ b
    unfold Loan.Apart at hap
    omega
  · simp only [Client.next] at hw
    split at hw
    · rename_i heq
      obtain rfl := Option.some.inj hw
      subst heq
      exact ⟨hp, KernelMemory.byteAt_setByte_self hf.heap (hf.contains hloan hk) b⟩
    · rename_i hne
      obtain ⟨hholds, hbyte⟩ := hs.written c (List.mem_of_getElem? hi) addr' b' hw
      exact ⟨hholds, (KernelMemory.byteAt_setByte_ne (Ne.symm hne) b).trans hbyte⟩

/-- Whatever clients do that keep to the protocol, the heap stays in order. -/
theorem keeps (s : Shared.Setting) : (protocol s.base).Keeps (Sound s) where
  answered := by
    intro m m' cs i c o r hs hi hp hq
    cases o with
    | allocate size =>
      rcases hm : m.allocate size with ⟨_ | r', m₁⟩
      · simp [machine, perform, hm, Except.toOption] at hq
      · simp only [machine, perform, hm, Except.toOption, Prod.mk.injEq] at hq
        obtain ⟨hr, rfl⟩ := hq
        obtain rfl := Option.some.inj hr
        exact hs.allocate hi hm
    | free addr =>
      rcases hm : m.free addr with ⟨_ | _, m₁⟩
      · simp [machine, perform, hm, Except.toOption] at hq
      · simp only [machine, perform, hm, Except.toOption, Prod.mk.injEq] at hq
        obtain ⟨-, rfl⟩ := hq
        exact ⟨trivial, hs.free hi hp hm⟩
    | readByte addr =>
      obtain ⟨hr, rfl⟩ := Prod.mk.inj hq
      obtain rfl := Option.some.inj hr
      exact hs.readByte hi
    | writeByte addr b =>
      obtain ⟨-, rfl⟩ := Prod.mk.inj hq
      exact ⟨trivial, hs.writeByte hi hp⟩
  waiting := by
    intro m m' cs i c o hs hi hp hq
    have hsome := hs.isSome_perform hi hp
    have hq : perform o m = (none, m') := hq
    rw [hq] at hsome
    cases hsome

/-- Once everybody has given everything back, one free block is all there is. -/
theorem initial (hs : Sound s m cs) (hl : minArenaUnits ≤ s.len) (hnone : ∀ c ∈ cs, c.loans = []) :
    ∃ h, m.heap = some h ∧ h.Represents (.initial s.len) := by
  obtain ⟨h, p, hf, rfl⟩ := hs.session
  refine ⟨h, hf.heap, ?_⟩
  have hp : p = .initial h.arena.len := by
    refine hf.represents.valid.eq_initial hl fun e he => ?_
    obtain ⟨loan, hloan, -⟩ := List.mem_map.mp ((hf.live _).mpr ⟨e, he, rfl⟩)
    obtain ⟨c, hc, hin⟩ := List.mem_flatMap.mp hloan
    rw [hnone c hc] at hin
    cases hin
  exact hp ▸ hf.represents

end Sound

end BareKernel.Heap.Serial
