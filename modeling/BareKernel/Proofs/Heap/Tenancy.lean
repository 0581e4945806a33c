import BareKernel.Proofs.Heap.Loans
import BareKernel.Proofs.Heap.Placement

/-! Clients that allocate by layout beside clients that call the heap themselves. Each client gives
back what it was given and writes where it was allowed to. Then the word below a strictly aligned
address survives whatever the others do, and giving that address back frees the block that was taken
for it. -/

namespace BareKernel

open Heap
open KernelMemory (stashBytes)

/-- Memory that was allocated by layout. -/
structure Lease where
  addr : Nat
  layout : Layout
  /-- Where the payload of its block is. -/
  raw : Nat

/-- What the heap has lent for it. -/
def Lease.loan (l : Lease) : Loan := ⟨l.raw, l.layout.request⟩

structure Tenancy where
  memory : KernelMemory
  /-- What was got from the heap itself. -/
  loans : List Loan := []
  /-- What was got by layout. -/
  leases : List Lease := []

namespace Tenancy

inductive Op where
  | init (region : Region)
  | call (c : Session.Call)
  | allocateLayout (layout : Layout)
  | freeLayout (addr : Nat) (layout : Layout)
  /-- A byte of what was got by layout. -/
  | write (addr : Nat) (b : UInt8)

/-- As the clients see it that call the heap themselves. -/
def direct (t : Tenancy) : Session := ⟨t.memory, t.loans⟩

/-- As the heap sees it. -/
def session (t : Tenancy) : Session := ⟨t.memory, t.loans ++ t.leases.map Lease.loan⟩

/-- What is held after an allocation by layout, for which the heap gave this payload. -/
def grant (leases : List Lease) (layout : Layout) :
    Except Fatal Nat → Except Fatal (Option Nat) → List Lease
  | .ok addr, .ok (some raw) => ⟨addr, layout, raw⟩ :: leases
  | _, _ => leases

def step (t : Tenancy) : Op → Tenancy
  | .init region => { t with memory := (t.memory.init region).2 }
  | .call c =>
    let s := (t.direct.step c).2
    ⟨s.memory, s.live, t.leases⟩
  | .allocateLayout layout =>
    let (r, m) := t.memory.allocateLayout layout
    ⟨m, t.loans, grant t.leases layout r (t.memory.allocate layout.request).1⟩
  | .freeLayout addr layout =>
    ⟨(t.memory.freeLayout addr layout).2, t.loans, t.leases.filter (·.addr ≠ addr)⟩
  | .write addr b => { t with memory := t.memory.setByte addr b }

def run (t : Tenancy) (ops : List Op) : Tenancy := ops.foldl step t

/-- What was got by layout is given back with its layout, and only its own bytes are written. -/
def Permitted (t : Tenancy) : Op → Prop
  | .init _ => True
  | .call c => t.direct.Permitted c
  | .allocateLayout _ => True
  | .freeLayout addr layout => addr = 0 ∨ ∃ l ∈ t.leases, l.addr = addr ∧ l.layout = layout
  | .write addr _ => ∃ l ∈ t.leases, l.addr ≤ addr ∧ addr < l.addr + l.layout.size

def Permits (t : Tenancy) : List Op → Prop
  | [] => True
  | o :: ops => t.Permitted o ∧ (t.step o).Permits ops

deriving instance DecidableEq for Layout

instance (t : Tenancy) : (o : Op) → Decidable (t.Permitted o)
  | .init _ => inferInstanceAs (Decidable True)
  | .call c => inferInstanceAs (Decidable (t.direct.Permitted c))
  | .allocateLayout _ => inferInstanceAs (Decidable True)
  | .freeLayout addr layout =>
    inferInstanceAs (Decidable (addr = 0 ∨ ∃ l ∈ t.leases, l.addr = addr ∧ l.layout = layout))
  | .write addr _ =>
    inferInstanceAs (Decidable (∃ l ∈ t.leases, l.addr ≤ addr ∧ addr < l.addr + l.layout.size))

instance decidablePermits (t : Tenancy) : (ops : List Op) → Decidable (t.Permits ops)
  | [] => inferInstanceAs (Decidable True)
  | o :: ops =>
    have := decidablePermits (t.step o) ops
    inferInstanceAs (Decidable (_ ∧ _))

end Tenancy

/-! ## What lasts -/

/-- The address is where the layout places it in its block, and can be traced back to it. -/
structure Lease.Backed (l : Lease) (m : KernelMemory) : Prop where
  placed : l.addr = l.layout.place l.raw
  stashed : payloadAlign < l.layout.align →
    m.numberAt (l.addr - stashBytes) stashBytes = l.raw

namespace Lease.Backed

open KernelMemory

variable {l : Lease} {m m' : KernelMemory}

theorem congr (hb : l.Backed m) (h : payloadAlign < l.layout.align → ∀ k < stashBytes,
      m'.byteAt (l.addr - stashBytes + k) = m.byteAt (l.addr - stashBytes + k)) :
    l.Backed m' := by
  refine ⟨hb.placed, fun ha => ?_⟩
  rw [numberAt_congr (h ha)]
  exact hb.stashed ha

/-- The word below the address is part of the block. -/
theorem of_bytes (hb : l.Backed m) (hraw : l.raw % payloadAlign = 0)
    (h : ∀ k < l.loan.bytes, m'.byteAt (l.raw + k) = m.byteAt (l.raw + k)) : l.Backed m' := by
  refine hb.congr fun ha k hk => ?_
  obtain ⟨h₁, h₂⟩ := Layout.place_slide hraw ha
  rw [← hb.placed] at h₁ h₂
  have hin : l.addr - stashBytes + k - l.raw < l.loan.bytes := by
    simp only [loan, Layout.request, Nat.not_le.mpr ha, if_false]
    simp only [stashBytes, unitBytes] at *
    omega
  have hat : l.raw + (l.addr - stashBytes + k - l.raw) = l.addr - stashBytes + k := by
    simp only [stashBytes, unitBytes] at *
    omega
  rw [← hat]
  exact h _ hin

end Lease.Backed

variable {t : Tenancy} {s : Session} {h : Heap} {p : Plan} {l l' : Lease} {b : Extent}
  {layout : Layout} {addr : Nat}

/-- A heap in the same place that has still lent, of all that `p` lends, what is still held. -/
def Session.Continues (s : Session) (h : Heap) (p : Plan) : Prop :=
  ∃ h' p', s.Follows h' p' ∧ h'.arena.base = h.arena.base ∧
    ∀ b, p.Lent b → payloadOf h.arena.base b.start ∈ s.live.map (·.addr) → p'.Lent b

namespace Session

theorem Follows.continues (hf : s.Follows h p) : s.Continues h p :=
  ⟨h, p, hf, rfl, fun _ hb _ => hb⟩

theorem Follows.continues_step (hf : s.Follows h p) {c : Call} (hc : s.Permitted c) :
    (s.step c).2.Continues h p := by
  obtain ⟨h', -, -, hf', hb, -, hs⟩ := hf.step hc
  refine ⟨h', _, hf', hb, fun b hl hm => ?_⟩
  by_cases hw : ∃ addr v, c = .write addr v
  · obtain ⟨addr, v, rfl⟩ := hw
    exact hl
  · obtain ⟨f, hfl, ha⟩ := (hf'.live _).mp hm
    rw [hb] at ha
    obtain ⟨rfl, -⟩ := (hs fun addr v h => hw ⟨addr, v, h⟩).stays b f hl hfl (payloadOf_inj ha)
    exact hfl

end Session

namespace Tenancy

structure Follows (t : Tenancy) (h : Heap) (p : Plan) : Prop where
  session : t.session.Follows h p
  backed : ∀ l ∈ t.leases, l.Backed t.memory

def Continues (t : Tenancy) (h : Heap) (p : Plan) : Prop :=
  t.session.Continues h p ∧ ∀ l ∈ t.leases, l.Backed t.memory

/-- Before the heap is set up, nothing is held. -/
def Sound (t : Tenancy) : Prop :=
  (t.memory.heap = none ∧ t.loans = [] ∧ t.leases = []) ∨ ∃ h p, t.Follows h p

namespace Follows

/-! ## What is held -/

theorem loan_mem (hl : l ∈ t.leases) : l.loan ∈ t.session.live :=
  List.mem_append_right _ (List.mem_map_of_mem hl)

theorem raw_mod (hf : t.Follows h p) (hl : l ∈ t.leases) : l.raw % payloadAlign = 0 :=
  (hf.session.inside (loan_mem hl)).1.aligned

theorem addr_bounds (hf : t.Follows h p) (hl : l ∈ t.leases) :
    l.raw ≤ l.addr ∧ l.addr + l.layout.size ≤ l.raw + l.layout.request := by
  rw [(hf.backed l hl).placed]
  exact Layout.place_bounds (hf.raw_mod hl)

theorem addr_ne_zero (hf : t.Follows h p) (hl : l ∈ t.leases) : l.addr ≠ 0 := by
  have hin := (hf.session.inside (loan_mem hl)).1.after
  have hle := (hf.addr_bounds hl).1
  change _ < l.raw at hin
  omega

/-- A block is held once. -/
theorem nodup (hf : t.Follows h p) : (t.leases.map Lease.raw).Nodup ∧
    ∀ l ∈ t.leases, l.raw ∉ t.loans.map (·.addr) := by
  have hn := hf.session.nodup
  simp only [Tenancy.session, List.map_append, List.map_map] at hn
  obtain ⟨-, hr, hd⟩ := List.nodup_append.mp hn
  exact ⟨hr, fun l hl hm => hd _ hm _ (List.mem_map_of_mem hl) rfl⟩

theorem eq_of_raw (hf : t.Follows h p) (hl : l ∈ t.leases) (hl' : l' ∈ t.leases)
    (hr : l.raw = l'.raw) : l = l' :=
  List.inj_on_of_nodup_map hf.nodup.1 hl hl' hr

/-- Addresses that were handed out by layout lie in or at the end of their own payloads. -/
theorem eq_of_addr (hf : t.Follows h p) (hl : l ∈ t.leases) (hl' : l' ∈ t.leases)
    (ha : l.addr = l'.addr) : l = l' := by
  by_contra hne
  have hgap := hf.session.gap (loan_mem hl) (loan_mem hl') fun hr => hne (hf.eq_of_raw hl hl' hr)
  have h₁ := hf.addr_bounds hl
  have h₂ := hf.addr_bounds hl'
  have h₃ := (hf.session.inside (loan_mem hl)).2
  have h₄ := (hf.session.inside (loan_mem hl')).2
  simp only [Lease.loan, tagUnits, unitBytes] at *
  omega

/-! ## One operation -/

/-- Bytes that a call leaves in the blocks that stay held keep their leases backed. -/
theorem backed_step (hf : t.Follows h p) {c : Session.Call} (hc : t.session.Permitted c)
    (hw : ∀ addr b, c ≠ .write addr b) (hl : l ∈ t.leases)
    (hl' : l.loan ∈ (t.session.step c).2.live) : l.Backed (t.session.step c).2.memory :=
  (hf.backed l hl).of_bytes (hf.raw_mod hl) fun _ hk =>
    hf.session.byteAt_step hc hw (loan_mem hl) hl'
      (Nat.lt_of_lt_of_le hk (hf.session.inside (loan_mem hl)).2)

/-- A write into another block's payload does not touch the block of a lease. -/
theorem backed_setByte (hf : t.Follows h p) {loan : Loan} {b : UInt8}
    (hloan : loan ∈ t.session.live) (h₁ : loan.addr ≤ addr)
    (h₂ : addr < loan.addr + t.session.payloadBytes loan.addr) (hl : l ∈ t.leases)
    (hne : loan.addr ≠ l.raw) : l.Backed (t.memory.setByte addr b) := by
  refine (hf.backed l hl).of_bytes (hf.raw_mod hl) fun k hk =>
    KernelMemory.byteAt_setByte_ne ?_ b
  have hgap := hf.session.gap hloan (loan_mem hl) hne
  have hin := (hf.session.inside (loan_mem hl)).2
  simp only [Lease.loan] at *
  omega

/-! ## Calls to the heap itself -/

theorem direct_permitted {c : Session.Call} (hc : t.direct.Permitted c) :
    t.session.Permitted c := by
  have hsub : ∀ {addr}, t.direct.Returnable addr → t.session.Returnable addr := by
    rintro addr (h₀ | hb | hm)
    · exact .inl h₀
    · exact .inr (.inl hb)
    · rw [Tenancy.session, Session.Returnable, List.map_append]
      exact .inr (.inr (List.mem_append_left _ hm))
  cases c with
  | allocate size => exact hc
  | free addr => exact hsub hc
  | tryFree addr => exact hsub hc
  | write addr b =>
    obtain ⟨loan, hl, hin⟩ := hc
    exact ⟨loan, List.mem_append_left _ hl, hin⟩

/-- What may be given back directly is no block of a lease. -/
theorem revoke_append (hf : t.Follows h p) (hr : t.direct.Returnable addr) :
    Session.revoke t.session.live addr =
      Session.revoke t.loans addr ++ t.leases.map Lease.loan := by
  have hkeep : Session.revoke (t.leases.map Lease.loan) addr = t.leases.map Lease.loan := by
    refine List.filter_eq_self.mpr fun loan hm => ?_
    obtain ⟨l, hl, rfl⟩ := List.mem_map.mp hm
    obtain ⟨e, -, he, -⟩ := hf.session.exists_lent (loan_mem hl)
    have hne := KernelMemory.payloadOf_ne h.arena.base e.start
    rw [decide_eq_true_eq]
    rcases hr with rfl | ⟨g, hg, rfl⟩ | hm
    · exact he ▸ hne.2
    · obtain rfl := Option.some.inj (hf.session.heap.symm.trans hg)
      exact he ▸ hne.1
    · rintro rfl
      exact hf.nodup.2 l hl hm
  rw [Tenancy.session, Session.revoke, List.filter_append]
  exact congrArg _ hkeep

/-- The heap sees a direct call as it is. -/
theorem session_call (hf : t.Follows h p) {c : Session.Call} (hc : t.direct.Permitted c) :
    (t.step (.call c)).session = (t.session.step c).2 := by
  cases c with
  | allocate size =>
    simp only [Tenancy.step, direct, Tenancy.session, Session.step]
    rcases t.memory.allocate size with ⟨_ | _ | _, _⟩ <;> rfl
  | free addr | tryFree addr =>
    exact congrArg (Session.mk _) (hf.revoke_append hc).symm
  | write addr b => rfl

theorem call (hf : t.Follows h p) {c : Session.Call} (hc : t.direct.Permitted c) :
    (t.step (.call c)).Continues h p := by
  have hs := hf.session_call hc
  have hc' := direct_permitted hc
  refine ⟨hs ▸ hf.session.continues_step hc', fun l hl => ?_⟩
  by_cases hw : ∃ addr b, c = .write addr b
  · obtain ⟨addr, b, rfl⟩ := hw
    obtain ⟨loan, hloan, h₁, h₂⟩ := hc
    refine hf.backed_setByte (List.mem_append_left _ hloan) h₁ h₂ hl fun ha => ?_
    exact hf.nodup.2 l hl (ha ▸ List.mem_map_of_mem hloan)
  · have hl' : l.loan ∈ (t.session.step c).2.live := hs ▸ loan_mem hl
    have hb := hf.backed_step hc' (fun addr b h => hw ⟨addr, b, h⟩) hl hl'
    rwa [← hs] at hb

/-! ## Calls by layout -/

/-- The block is taken, and its address kept below the place. -/
theorem stash (hf : t.Follows h p) {raw : Nat} {m : KernelMemory}
    (hm : t.memory.allocate layout.request = (.ok (some raw), m)) :
    ∃ h', (Tenancy.mk (m.stash layout raw) t.loans
        (⟨layout.place raw, layout, raw⟩ :: t.leases)).Follows h' (p.allocate layout.request).2 ∧
      h'.arena.base = h.arena.base := by
  have hstep : (t.session.step (.allocate layout.request)).2 =
      ⟨m, ⟨raw, layout.request⟩ :: t.session.live⟩ := by
    simp only [Tenancy.session, Session.step, hm, Session.grant]
  obtain ⟨h₁, -, hs, hf₁⟩ := hf.session.allocate layout.request
  rw [hstep] at hf₁
  obtain ⟨h₂, hf₂, hb₂⟩ := hf₁.stash List.mem_cons_self
  refine ⟨h₂, ⟨hf₂.perm List.perm_middle.symm, fun l hl => ?_⟩, hb₂.trans hs.base⟩
  rcases List.mem_cons.mp hl with rfl | hl
  · exact ⟨rfl, fun ha => hf₁.numberAt_stash List.mem_cons_self ha⟩
  · have hmem := List.mem_cons_of_mem (Loan.mk raw layout.request) (loan_mem hl)
    have hold : l.Backed m := by
      have hw : ∀ addr b, Session.Call.allocate layout.request ≠ .write addr b := by
        intro addr b hc
        cases hc
      have hb := hf.backed_step (c := .allocate layout.request) trivial hw hl
      rw [hstep] at hb
      exact hb hmem
    refine hold.of_bytes (hf.raw_mod hl) fun k hk =>
      hf₁.byteAt_stash List.mem_cons_self hmem (fun ha => ?_) hk
    exact (List.nodup_cons.mp hf₁.nodup).1 (List.mem_map.mpr ⟨_, loan_mem hl, ha⟩)

/-- There is no room and nothing changes, or a block is taken. -/
theorem allocateLayout (hf : t.Follows h p) (layout : Layout) :
    (t.memory.allocateLayout layout = (.ok 0, t.memory) ∧
        t.step (.allocateLayout layout) = t) ∨
      ∃ raw m, t.memory.allocate layout.request = (.ok (some raw), m) ∧
        t.memory.allocateLayout layout = (.ok (layout.place raw), m.stash layout raw) ∧
        t.step (.allocateLayout layout) =
          ⟨m.stash layout raw, t.loans, ⟨layout.place raw, layout, raw⟩ :: t.leases⟩ := by
  have heq := t.memory.allocateLayout_eq layout
  obtain ⟨h', hm, -⟩ := hf.session.allocate layout.request
  cases hr : (p.allocate layout.request).1 with
  | none =>
    have hm : t.memory.allocate layout.request = (.ok none, t.memory) :=
      KernelMemory.allocate_none hf.session.heap hf.session.represents hr
    simp only [hm] at heq
    refine .inl ⟨heq, ?_⟩
    simp only [Tenancy.step, heq, hm, grant]
  | some i =>
    rw [hr] at hm
    have hm : t.memory.allocate layout.request = _ := hm
    simp only [hm, Option.map_some] at heq
    refine .inr ⟨_, _, hm, heq, ?_⟩
    simp only [Tenancy.step, heq, hm, Option.map_some, grant]

/-- Giving an address back is giving back the block behind it. -/
theorem freeLayout_eq (hf : t.Follows h p) (hl : l ∈ t.leases) :
    t.memory.freeLayout l.addr l.layout = t.memory.free l.raw := by
  have h₀ := hf.addr_ne_zero hl
  obtain ⟨hp, hs⟩ := hf.backed l hl
  rw [hp] at h₀ hs ⊢
  exact KernelMemory.freeLayout_eq h₀ hs

theorem revoke_raw (hf : t.Follows h p) (hl : l ∈ t.leases) :
    Session.revoke t.session.live l.raw =
      t.loans ++ (t.leases.filter (·.addr ≠ l.addr)).map Lease.loan := by
  have hloans : t.loans.filter (·.addr ≠ l.raw) = t.loans := by
    refine List.filter_eq_self.mpr fun loan hm => ?_
    rw [decide_eq_true_eq]
    exact fun ha => hf.nodup.2 l hl (ha ▸ List.mem_map_of_mem hm)
  have hleases : t.leases.filter (fun k => k.raw ≠ l.raw) =
      t.leases.filter (·.addr ≠ l.addr) := by
    refine List.filter_congr fun k hk => ?_
    rw [decide_eq_decide]
    exact ⟨fun h ha => h (congrArg _ (hf.eq_of_addr hk hl ha)),
      fun h ha => h (congrArg _ (hf.eq_of_raw hk hl ha))⟩
  rw [Tenancy.session, Session.revoke, List.filter_append, hloans, List.filter_map, ← hleases]
  rfl

/-- The heap sees the release of a block. -/
theorem session_freeLayout (hf : t.Follows h p) (hl : l ∈ t.leases) :
    (t.step (.freeLayout l.addr l.layout)).session = (t.session.step (.free l.raw)).2 := by
  simp only [Tenancy.step, hf.freeLayout_eq hl, Session.step, hf.revoke_raw hl]
  rfl

theorem returnable_raw (hl : l ∈ t.leases) : t.session.Returnable l.raw :=
  .inr (.inr (List.mem_map_of_mem (loan_mem hl)))

theorem freeLayout (hf : t.Follows h p) (hl : l ∈ t.leases) :
    (t.step (.freeLayout l.addr l.layout)).Continues h p := by
  have hstep := hf.session_freeLayout hl
  have hret : t.session.Permitted (.free l.raw) := returnable_raw hl
  refine ⟨hstep ▸ hf.session.continues_step hret, fun k hk => ?_⟩
  have hk' : k.loan ∈ (t.session.step (.free l.raw)).2.live := hstep ▸ loan_mem hk
  have hw : ∀ addr b, Session.Call.free l.raw ≠ .write addr b := by
    intro addr b hc
    cases hc
  have hb := hf.backed_step hret hw (List.mem_filter.mp hk).1 hk'
  rwa [← hstep] at hb

/-- A client writes above the word that its address is traced back by. -/
theorem write (hf : t.Follows h p) {b : UInt8} (hl : l ∈ t.leases) (h₁ : l.addr ≤ addr)
    (h₂ : addr < l.addr + l.layout.size) : (t.step (.write addr b)).Continues h p := by
  have hbounds := hf.addr_bounds hl
  have hin := (hf.session.inside (loan_mem hl)).2
  have h₃ : l.loan.addr ≤ addr := hbounds.1.trans h₁
  have h₄ : addr < l.loan.addr + t.session.payloadBytes l.loan.addr := by
    simp only [Lease.loan] at *
    omega
  have hc : t.session.Permitted (.write addr b) := ⟨l.loan, loan_mem hl, h₃, h₄⟩
  refine ⟨hf.session.continues_step hc, fun k hk => ?_⟩
  by_cases hkl : l.raw = k.raw
  · obtain rfl := hf.eq_of_raw hl hk hkl
    refine (hf.backed l hl).congr fun ha j hj => KernelMemory.byteAt_setByte_ne ?_ b
    obtain ⟨hs, -⟩ := Layout.place_slide (hf.raw_mod hl) ha
    rw [← (hf.backed l hl).placed] at hs
    simp only [stashBytes, unitBytes] at *
    omega
  · exact hf.backed_setByte (loan_mem hl) h₃ h₄ hk hkl

/-! ## All operations -/

theorem continues (hf : t.Follows h p) : t.Continues h p := ⟨hf.session.continues, hf.backed⟩

theorem step (hf : t.Follows h p) {o : Op} (ho : t.Permitted o) : (t.step o).Continues h p := by
  cases o with
  | init region =>
    have hsame : t.step (.init region) = t := by
      have hh : t.memory.heap = some h := hf.session.heap
      obtain ⟨⟨ram, checks, heap⟩, loans, leases⟩ := t
      obtain rfl : heap = some h := hh
      rfl
    rw [hsame]
    exact hf.continues
  | call c => exact hf.call ho
  | allocateLayout layout =>
    rcases hf.allocateLayout layout with ⟨-, hs⟩ | ⟨raw, m, hm, -, hs⟩ <;> rw [hs]
    · exact hf.continues
    · obtain ⟨h', hf', hb⟩ := hf.stash hm
      obtain ⟨b, -, -, hlent⟩ := hf.session.exists_lent_of_allocate hm
      exact ⟨⟨h', _, hf'.session, hb, fun f hfl _ => (hlent f).mpr (.inl hfl)⟩, hf'.backed⟩
  | freeLayout addr layout =>
    rcases ho with rfl | ⟨l, hl, rfl, rfl⟩
    · have hsame : t.step (.freeLayout 0 layout) = t := by
        have hleases : t.leases.filter (·.addr ≠ 0) = t.leases :=
          List.filter_eq_self.mpr fun l hl => decide_eq_true (hf.addr_ne_zero hl)
        simp only [Tenancy.step, hleases]
        rfl
      rw [hsame]
      exact hf.continues
    · exact hf.freeLayout hl
  | write addr b =>
    obtain ⟨l, hl, h₁, h₂⟩ := ho
    exact hf.write hl h₁ h₂

end Follows

/-- A block that somebody goes on holding stays lent as it is, whatever the others do. -/
theorem Follows.run (hf : t.Follows h p) {ops : List Op} (hp : t.Permits ops) (hl : l ∈ t.leases)
    (hnot : ∀ layout, .freeLayout l.addr layout ∉ ops) (hb : p.Lent b)
    (hraw : payloadOf h.arena.base b.start = l.raw) :
    ∃ h' p', (t.run ops).Follows h' p' ∧ l ∈ (t.run ops).leases ∧ p'.Lent b ∧
      h'.arena.base = h.arena.base := by
  induction ops generalizing t h p with
  | nil => exact ⟨h, p, hf, hl, hb, rfl⟩
  | cons o ops ih =>
    obtain ⟨⟨h₁, p₁, hf₁, hb₁, hkeep⟩, hbacked⟩ := hf.step hp.1
    have hl₁ : l ∈ (t.step o).leases := by
      cases o with
      | init region => exact hl
      | call c => exact hl
      | allocateLayout layout =>
        rcases hf.allocateLayout layout with ⟨-, hs⟩ | ⟨raw, m, hm, -, hs⟩ <;> rw [hs]
        · exact hl
        · exact List.mem_cons_of_mem _ hl
      | freeLayout addr layout =>
        refine List.mem_filter.mpr ⟨hl, decide_eq_true ?_⟩
        rintro rfl
        exact hnot layout List.mem_cons_self
      | write addr b => exact hl
    have hm : payloadOf h.arena.base b.start ∈ (t.step o).session.live.map (·.addr) :=
      hraw ▸ List.mem_map_of_mem (loan_mem hl₁)
    obtain ⟨h₂, p₂, hf₂, hl₂, hb₂, hbase⟩ := ih ⟨hf₁, hbacked⟩ hp.2 hl₁
      (fun layout hm => hnot layout (List.mem_cons_of_mem _ hm)) (hkeep b hb hm)
      (by rw [hb₁, hraw])
    exact ⟨h₂, p₂, hf₂, hl₂, hb₂, hbase.trans hb₁⟩

/-! ## From the start -/

namespace Sound

theorem start {m : KernelMemory} (hm : m.heap = none) : (Tenancy.mk m [] []).Sound :=
  .inl ⟨hm, rfl, rfl⟩

/-- Without a heap no request gets anything. -/
theorem allocate_of_none {m : KernelMemory} (hm : m.heap = none) (size : Nat) :
    m.allocate size = (.ok none, m) := by
  have hi : m.isInitialised = false := by rw [KernelMemory.isInitialised, hm]; rfl
  simp [KernelMemory.allocate, hi]

theorem allocateLayout_of_none {m : KernelMemory} (hm : m.heap = none) (layout : Layout) :
    m.allocateLayout layout = (.ok 0, m) := by
  rw [KernelMemory.allocateLayout_eq, allocate_of_none hm]

theorem step_of_none {m : KernelMemory} (hm : m.heap = none) {o : Op}
    (ho : (Tenancy.mk m [] []).Permitted o) : ((Tenancy.mk m [] []).step o).Sound := by
  have hnone : ∀ {addr}, (Session.mk m []).Returnable addr → addr = 0 := by
    rintro addr (h₀ | ⟨h, hh, -⟩ | ha)
    · exact h₀
    · cases hm.symm.trans hh
    · cases ha
  cases o with
  | init region =>
    rcases hi : m.init region with ⟨r, m'⟩
    have hstep : (Tenancy.mk m [] []).step (.init region) = ⟨m', [], []⟩ := by
      simp only [Tenancy.step, hi]
    rw [hstep]
    cases r with
    | error e => exact Session.memory_of_init_error hi ▸ start hm
    | ok record =>
      obtain ⟨h, hf, -⟩ := Session.follows_init hi
      exact .inr ⟨h, _, hf, nofun⟩
  | call c =>
    cases c with
    | allocate size =>
      have hstep : (Tenancy.mk m [] []).step (.call (.allocate size)) = ⟨m, [], []⟩ := by
        simp only [Tenancy.step, direct, Session.step, allocate_of_none hm, Session.grant]
      rw [hstep]
      exact start hm
    | free addr | tryFree addr =>
      obtain rfl := hnone ho
      exact start hm
    | write addr b =>
      obtain ⟨loan, hl, -⟩ := ho
      cases hl
  | allocateLayout layout =>
    have hstep : (Tenancy.mk m [] []).step (.allocateLayout layout) = ⟨m, [], []⟩ := by
      simp only [Tenancy.step, allocateLayout_of_none hm, allocate_of_none hm, grant]
    rw [hstep]
    exact start hm
  | freeLayout addr layout =>
    rcases ho with rfl | ⟨l, hl, -⟩
    · exact start hm
    · cases hl
  | write addr b =>
    obtain ⟨l, hl, -⟩ := ho
    cases hl

theorem step (hs : t.Sound) {o : Op} (ho : t.Permitted o) : (t.step o).Sound := by
  rcases hs with ⟨hm, hl, hl'⟩ | ⟨h, p, hf⟩
  · obtain ⟨m, loans, leases⟩ := t
    obtain rfl : loans = [] := hl
    obtain rfl : leases = [] := hl'
    exact step_of_none hm ho
  · obtain ⟨⟨h', p', hf', -⟩, hb⟩ := hf.step ho
    exact .inr ⟨h', p', hf', hb⟩

theorem run (hs : t.Sound) {ops : List Op} (hp : t.Permits ops) : (t.run ops).Sound := by
  induction ops generalizing t with
  | nil => exact hs
  | cons o ops ih => exact ih (hs.step hp.1) hp.2

end Sound

end Tenancy

/-! ## There and back -/

/-- What a client may rely on: an aligned address with room for its bytes inside one payload, and
below a strictly aligned one, in the same payload, the word by which it is given back. The payload
ends before the last 64-bit address, so that nothing in between overflows. -/
structure Lease.Usable (l : Lease) (m : KernelMemory) (stop : Nat) : Prop where
  aligned : l.addr % l.layout.align = 0
  start : l.raw ≤ l.addr
  inside : l.addr + l.layout.size ≤ stop
  bounded : stop < 0x10000000000000000
  stashed : payloadAlign < l.layout.align → l.raw + stashBytes ≤ l.addr ∧
    m.numberAt (l.addr - stashBytes) stashBytes = l.raw

namespace Tenancy

/-- An allocation by layout always comes back. It finds no room and changes nothing, or it takes
exactly one block, inside which the address lies; and after whatever others do and clients write
until then, giving the address back with its layout frees exactly that block. -/
theorem layout_round_trip {m : KernelMemory} (hm : m.heap = none) {before : List Op}
    (hp : (Tenancy.mk m [] []).Permits before) (ht : (Tenancy.mk m [] []).run before = t)
    (layout : Layout) :
    t.memory.allocateLayout layout = (.ok 0, t.memory) ∨
      ∃ addr m' base b, t.memory.allocateLayout layout = (.ok addr, m') ∧ addr ≠ 0 ∧
        t.memory.OneMore m' base b ∧
        (Lease.mk addr layout (payloadOf base b.start)).Usable m'
          (payloadOf base b.start + (b.size - tagUnits) * unitBytes) ∧
        ∀ after, (t.step (.allocateLayout layout)).Permits after →
          (∀ layout', .freeLayout addr layout' ∉ after) →
          ∃ m₂, ((t.step (.allocateLayout layout)).run after).memory.freeLayout addr layout =
              (.ok (), m₂) ∧
            m₂.OneMore ((t.step (.allocateLayout layout)).run after).memory base b := by
  have hs : t.Sound := ht ▸ (Sound.start hm).run hp
  rcases hs with ⟨hm, -⟩ | ⟨h, p, hf⟩
  · exact .inl (Sound.allocateLayout_of_none hm layout)
  rcases hf.allocateLayout layout with ⟨ha, -⟩ | ⟨raw, m', hm', ha, hs⟩
  · exact .inl ha
  obtain ⟨b, hraw, hnew, hlent⟩ := hf.session.exists_lent_of_allocate hm'
  obtain ⟨h₁, hf₁, hb₁⟩ := hf.stash hm'
  have hb : (p.allocate layout.request).2.Lent b := (hlent b).mpr (.inr rfl)
  have hraw₁ : payloadOf h₁.arena.base b.start = raw := hb₁ ▸ hraw
  have hl : Lease.mk (layout.place raw) layout raw ∈
      Lease.mk (layout.place raw) layout raw :: t.leases := List.mem_cons_self
  refine .inr ⟨_, _, h₁.arena.base, b, ha, hf₁.addr_ne_zero hl, ?_, ?_, ?_⟩
  · exact ⟨h, p, h₁, _, hf.session.heap, hf.session.represents, hb₁.symm, hf₁.session.heap,
      hf₁.session.represents, rfl, hnew, hlent⟩
  · rw [hraw₁]
    have hmod := hf₁.raw_mod hl
    obtain ⟨hstart, hin⟩ := hf₁.addr_bounds hl
    have hfit := hf₁.session.fits _ (Follows.loan_mem hl) b hb hraw₁
    refine ⟨Layout.place_mod hmod, hstart, hin.trans (Nat.add_le_add_left hfit raw), ?_,
      fun ha => ⟨(Layout.place_slide hmod ha).1, (hf₁.backed _ hl).stashed ha⟩⟩
    rw [← hraw₁]
    exact hf₁.session.payload_end_lt hb
  · rw [hs]
    intro after hafter hnot
    obtain ⟨h₂, p₂, hf₂, hl₂, hlent₂, hb₂⟩ := hf₁.run hafter hl hnot hb hraw₁
    obtain ⟨m₂, hm₂, ho⟩ := hf₂.session.free_oneMore hlent₂
    rw [hb₂] at hm₂ ho
    rw [hraw₁] at hm₂
    exact ⟨m₂, (hf₂.freeLayout_eq hl₂).trans hm₂, ho⟩

/-- Eight bytes on a multiple of 32, which slide over the word below them only. -/
def smallLayout : Layout := ⟨8, 32, by decide, by decide⟩

/-- A heap with one block in front. -/
def smallArrival : List Op := [.init smallRegion, .call (.allocate 8)]

def smallTenancy : Tenancy := (Tenancy.mk smallMemory [] []).run smallArrival

/-- The client writes, and its neighbour leaves. -/
def smallStay : List Op := [.write 4160 0xFF, .write 4167 0xFF, .call (.free 4120)]

theorem layout_round_trip_small :
    (smallTenancy.memory.allocateLayout smallLayout).1.toOption = some 4160 ∧
      (((smallTenancy.step (.allocateLayout smallLayout)).run smallStay).memory.freeLayout 4160
        smallLayout).1 = .ok () := by
  have haddr : (smallTenancy.memory.allocateLayout smallLayout).1.toOption = some 4160 := by
    decide +kernel
  have hp : (smallTenancy.step (.allocateLayout smallLayout)).Permits smallStay := by
    decide +kernel
  have hbefore : (Tenancy.mk smallMemory [] []).Permits smallArrival :=
    ⟨trivial, trivial, trivial⟩
  refine ⟨haddr, ?_⟩
  rcases layout_round_trip rfl hbefore rfl smallLayout with
      ha | ⟨addr, m', base, b, ha, -, -, -, hback⟩ <;>
    change smallTenancy.memory.allocateLayout smallLayout = _ at ha <;>
    rw [ha] at haddr
  · cases haddr
  · obtain rfl : addr = 4160 := Option.some.inj haddr
    obtain ⟨m₂, hm₂, -⟩ := hback smallStay hp fun layout hm => by simp [smallStay] at hm
    exact congrArg (·.1) hm₂

end Tenancy

end BareKernel
