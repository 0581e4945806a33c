import BareKernel.Proofs.Heap.Operations

/-! A client of the heap: calls one after another, with the memory that the client holds in
between. A call is permitted when a pointer that is given back is one that the client holds, null
or the arena's base, and when a byte is written into a payload that the client holds. A run of
permitted calls gets, answer by answer, what the plan alone answers. -/

namespace BareKernel

open Heap

/-- Memory that a client holds: its address, and how many bytes were asked for. -/
structure Loan where
  addr : Nat
  bytes : Nat
  deriving DecidableEq, Repr

structure Session where
  memory : KernelMemory
  live : List Loan := []

namespace Session

inductive Call where
  | allocate (size : Nat)
  | free (addr : Nat)
  | tryFree (addr : Nat)
  | write (addr : Nat) (b : UInt8)
  deriving DecidableEq, Repr

inductive Answer where
  | allocated (r : Except Fatal (Option Nat))
  | freed (r : Except Fatal Unit)
  | triedFree (r : Except Failure Unit)
  | written

/-- The call came back, and not with an error. -/
def Answer.Succeeded : Answer → Prop
  | .allocated r => ∃ p, r = .ok p
  | .freed r => r = .ok ()
  | .triedFree r => r = .ok ()
  | .written => True

/-- What is held after an allocation with this answer. -/
def grant (live : List Loan) (size : Nat) : Except Fatal (Option Nat) → List Loan
  | .ok (some addr) => ⟨addr, size⟩ :: live
  | _ => live

/-- What is held once the memory at `addr` is given back. -/
def revoke (live : List Loan) (addr : Nat) : List Loan := live.filter (·.addr ≠ addr)

def step (s : Session) : Call → Answer × Session
  | .allocate size =>
    let (r, m) := s.memory.allocate size
    (.allocated r, ⟨m, grant s.live size r⟩)
  | .free addr =>
    let (r, m) := s.memory.free addr
    (.freed r, ⟨m, revoke s.live addr⟩)
  | .tryFree addr =>
    let (r, m) := s.memory.tryFree addr
    (.triedFree r, ⟨m, revoke s.live addr⟩)
  | .write addr b => (.written, ⟨s.memory.setByte addr b, s.live⟩)

def run (s : Session) : List Call → List Answer × Session
  | [] => ([], s)
  | c :: calls =>
    let (a, s) := s.step c
    let (answers, s) := s.run calls
    (a :: answers, s)

/-- The bytes between the tags of the block with its payload at `addr`. -/
def payloadBytes (s : Session) (addr : Nat) : Nat :=
  (sizeOfTag (s.memory.unitAt (addr - unitBytes)) - tagUnits) * unitBytes

/-- A pointer that may be given back. -/
def Returnable (s : Session) (addr : Nat) : Prop :=
  addr = 0 ∨ (∃ h ∈ s.memory.heap, addr = h.arena.base) ∨ addr ∈ s.live.map (·.addr)

def Permitted (s : Session) : Call → Prop
  | .allocate _ => True
  | .free addr => s.Returnable addr
  | .tryFree addr => s.Returnable addr
  | .write addr _ => ∃ loan ∈ s.live, loan.addr ≤ addr ∧
      addr < loan.addr + s.payloadBytes loan.addr

def Permits (s : Session) : List Call → Prop
  | [] => True
  | c :: calls => s.Permitted c ∧ (s.step c).2.Permits calls

instance (s : Session) (addr : Nat) : Decidable (s.Returnable addr) :=
  inferInstanceAs (Decidable (_ ∨ _ ∨ _))

instance (s : Session) : (c : Call) → Decidable (s.Permitted c)
  | .allocate _ => inferInstanceAs (Decidable True)
  | .free addr => inferInstanceAs (Decidable (s.Returnable addr))
  | .tryFree addr => inferInstanceAs (Decidable (s.Returnable addr))
  | .write addr _ => inferInstanceAs (Decidable (∃ loan ∈ s.live, loan.addr ≤ addr ∧
      addr < loan.addr + s.payloadBytes loan.addr))

instance decidablePermits (s : Session) : (calls : List Call) → Decidable (s.Permits calls)
  | [] => inferInstanceAs (Decidable True)
  | c :: calls =>
    have := decidablePermits (s.step c).2 calls
    inferInstanceAs (Decidable (_ ∧ _))

end Session

namespace Heap.Plan

open Session (Call Answer)

/-- Null and the arena's base are no block's. -/
def give (p : Plan) (base addr : Nat) : Plan :=
  if addr = 0 ∨ addr = base then p else p.release ((addr - base) / unitBytes - 1)

/-- A call, answered by the plan of an arena at `base`. -/
def perform (p : Plan) (base : Nat) : Call → Answer × Plan
  | .allocate size =>
    (.allocated (.ok ((p.allocate size).1.map (payloadOf base))), (p.allocate size).2)
  | .free addr => (.freed (.ok ()), p.give base addr)
  | .tryFree addr => (.triedFree (.ok ()), p.give base addr)
  | .write _ _ => (.written, p)

def run (p : Plan) (base : Nat) : List Call → List Answer × Plan
  | [] => ([], p)
  | c :: calls =>
    let (a, p) := p.perform base c
    let (answers, p) := p.run base calls
    (a :: answers, p)

theorem give_ignored {p : Plan} {base addr : Nat} (ha : addr = 0 ∨ addr = base) :
    p.give base addr = p := if_pos ha

theorem give_payload (p : Plan) (base i : Nat) : p.give base (payloadOf base i) = p.release i := by
  have hne := KernelMemory.payloadOf_ne base i
  have hindex : (payloadOf base i - base) / unitBytes - 1 = i := by
    simp only [payloadOf, unitBytes]
    omega
  rw [give, if_neg (not_or.mpr hne.symm), hindex]

end Heap.Plan

/-! ## What a session keeps -/

variable {s : Session} {h h' : Heap} {p : Plan} {e f : Extent} {addr base size units : Nat}

theorem Heap.payloadOf_inj {i j : Nat} (hij : payloadOf base i = payloadOf base j) : i = j := by
  simp only [payloadOf, unitBytes] at hij
  omega

theorem Heap.le_of_unitsFor (hu : unitsFor size = some units) :
    size ≤ (units - tagUnits) * unitBytes := by
  simp only [unitsFor] at hu
  split at hu
  · obtain rfl := Option.some.inj hu
    simp only [minBlockUnits, tagUnits, unitBytes]
    omega
  · contradiction

namespace Session

theorem mem_revoke {live : List Loan} {a : Nat} : a ∈ (revoke live addr).map (·.addr) ↔
    a ∈ live.map (·.addr) ∧ a ≠ addr := by
  simp only [revoke, List.mem_map, List.mem_filter, decide_eq_true_eq]
  grind

/-- The memory holds a heap that represents `p`, and the client holds the payload of every block
that is handed out, none of them twice and none larger than its block. -/
structure Follows (s : Session) (h : Heap) (p : Plan) : Prop where
  heap : s.memory.heap = some h
  represents : h.Represents p
  live : ∀ a, a ∈ s.live.map (·.addr) ↔ ∃ e, p.Lent e ∧ payloadOf h.arena.base e.start = a
  nodup : (s.live.map (·.addr)).Nodup
  fits : ∀ loan ∈ s.live, ∀ e, p.Lent e → payloadOf h.arena.base e.start = loan.addr →
    loan.bytes ≤ (e.size - tagUnits) * unitBytes

namespace Follows

/-- The block that a client holds. -/
theorem exists_lent (hf : s.Follows h p) {loan : Loan} (hl : loan ∈ s.live) :
    ∃ e, p.Lent e ∧ payloadOf h.arena.base e.start = loan.addr ∧
      loan.bytes ≤ (e.size - tagUnits) * unitBytes := by
  obtain ⟨e, he, ha⟩ := (hf.live _).mp (List.mem_map_of_mem hl)
  exact ⟨e, he, ha, hf.fits loan hl e he ha⟩

theorem payloadBytes_eq (hf : s.Follows h p) (he : p.Lent e) :
    s.payloadBytes (payloadOf h.arena.base e.start) = (e.size - tagUnits) * unitBytes := by
  rw [payloadBytes, KernelMemory.unitAt_header hf.heap hf.represents he.1,
    Extent.sizeOfTag_tag (hf.represents.tagged e he.1).size_lt]

/-- A block that is handed out becomes the client's. -/
theorem grant (hf : s.Follows h p) (hs : h.Succeeds p h' (p.take e.start units))
    (he : e ∈ p.blocks) (hfree : e.free = true) (hu : unitsFor size = some units)
    (hle : units ≤ e.size) :
    (Session.mk { s.memory with heap := some h' }
      (⟨payloadOf h.arena.base e.start, size⟩ :: s.live)).Follows h' (p.take e.start units) := by
  have hv := hf.represents.valid
  have hlent := fun f => Plan.lent_take (f := f) hv he hfree (minBlockUnits_le_of_unitsFor hu)
  have hbytes : size ≤ ((e.served units).size - tagUnits) * unitBytes := by
    refine (le_of_unitsFor hu).trans (Nat.mul_le_mul_right _ (Nat.sub_le_sub_right ?_ _))
    unfold Extent.served
    split
    · exact Nat.le_refl _
    · exact hle
  have hnew : ∀ f, p.Lent f → f.start ≠ e.start := by
    intro f hfl hfe
    obtain rfl := hv.eq_of_start hfl.1 he hfe
    exact absurd (hfl.2.1.symm.trans hfree) (by simp)
  have hstart : (e.served units).start = e.start := rfl
  refine ⟨rfl, hs.represents, fun a => ?_, ?_, fun loan hl f hfl ha => ?_⟩
  · rw [hs.base, List.map_cons, List.mem_cons, hf.live]
    constructor
    · rintro (rfl | ⟨f, hfl, rfl⟩)
      · exact ⟨_, (hlent _).mpr (.inr rfl), rfl⟩
      · exact ⟨f, (hlent f).mpr (.inl hfl), rfl⟩
    · rintro ⟨f, hfl, rfl⟩
      rcases (hlent f).mp hfl with hfl | rfl
      · exact .inr ⟨f, hfl, rfl⟩
      · exact .inl rfl
  · refine List.nodup_cons.mpr ⟨fun hm => ?_, hf.nodup⟩
    obtain ⟨f, hfl, ha⟩ := (hf.live _).mp hm
    exact hnew f hfl (payloadOf_inj ha)
  · rw [hs.base] at ha
    rcases List.mem_cons.mp hl with rfl | hl <;> rcases (hlent f).mp hfl with hfl | rfl
    · exact absurd (payloadOf_inj ha) (hnew f hfl)
    · exact hbytes
    · exact hf.fits loan hl f hfl ha
    · obtain ⟨g, hgl, hga, -⟩ := hf.exists_lent hl
      exact absurd (payloadOf_inj (hga.trans ha.symm)) (hnew g hgl)

/-- A block that is given back is the client's no longer. -/
theorem revoke (hf : s.Follows h p) (hs : h.Succeeds p h' (p.release e.start)) (he : p.Lent e) :
    (Session.mk { s.memory with heap := some h' }
      (revoke s.live (payloadOf h.arena.base e.start))).Follows h' (p.release e.start) := by
  have hv := hf.represents.valid
  have hlent := fun f => Plan.lent_release (f := f) hv he
  refine ⟨rfl, hs.represents, fun a => ?_, hf.nodup.sublist (List.filter_sublist.map _),
    fun loan hl f hfl ha => ?_⟩
  · rw [hs.base]
    rw [mem_revoke, hf.live]
    constructor
    · rintro ⟨⟨f, hfl, rfl⟩, hne⟩
      exact ⟨f, (hlent f).mpr ⟨hfl, fun h => hne (h ▸ rfl)⟩, rfl⟩
    · rintro ⟨f, hfl, rfl⟩
      obtain ⟨hfl, hne⟩ := (hlent f).mp hfl
      exact ⟨⟨f, hfl, rfl⟩, fun h => hne (hv.eq_of_start hfl.1 he.1 (payloadOf_inj h))⟩
  · rw [hs.base] at ha
    exact hf.fits loan (List.mem_filter.mp hl).1 f ((hlent f).mp hfl).1 ha

/-- A write into a payload leaves everything but that payload as it was. -/
theorem write (hf : s.Follows h p) {b : UInt8} (hp : s.Permitted (.write addr b)) :
    ∃ h', (s.step (.write addr b)).2.memory = { s.memory with heap := some h' } ∧
      (s.step (.write addr b)).2.Follows h' p ∧ h'.arena.base = h.arena.base ∧
      h'.arena.len = h.arena.len := by
  obtain ⟨loan, hl, h₁, h₂⟩ := hp
  obtain ⟨e, he, ha, -⟩ := hf.exists_lent hl
  rw [← ha] at h₁
  rw [← ha, hf.payloadBytes_eq he] at h₂
  obtain ⟨h', hm, hb, hlen, hr⟩ :=
    KernelMemory.setByte_payload hf.heap hf.represents he.1 he.2.1 h₁ h₂ b
  refine ⟨h', hm, ⟨congrArg (·.heap) hm, hr, ?_, hf.nodup, ?_⟩, hb, hlen⟩
  · rw [hb]
    exact hf.live
  · rw [hb]
    exact hf.fits

/-- A pointer that may be given back belongs to a block that is handed out, or to none. -/
theorem returnable_cases (hf : s.Follows h p) (hp : s.Returnable addr) :
    (addr = 0 ∨ addr = h.arena.base) ∨ ∃ e, p.Lent e ∧ payloadOf h.arena.base e.start = addr := by
  rcases hp with rfl | ⟨g, hg, rfl⟩ | hp
  · exact .inl (.inl rfl)
  · obtain rfl : h = g := Option.some.inj (hf.heap.symm.trans hg)
    exact .inl (.inr rfl)
  · exact .inr ((hf.live addr).mp hp)

theorem revoke_ignored (hf : s.Follows h p) (ha : addr = 0 ∨ addr = h.arena.base) :
    Session.revoke s.live addr = s.live := by
  refine List.filter_eq_self.mpr fun loan hl => ?_
  obtain ⟨e, -, hea, -⟩ := hf.exists_lent hl
  have hne := KernelMemory.payloadOf_ne h.arena.base e.start
  simp only [decide_eq_true_eq, ← hea]
  rcases ha with rfl | rfl
  · exact hne.2
  · exact hne.1

theorem give (hf : s.Follows h p) (hp : s.Returnable addr) :
    ∃ h', s.memory.tryFree addr = (.ok (), { s.memory with heap := some h' }) ∧
      h.Succeeds p h' (p.give h.arena.base addr) ∧
      (Session.mk { s.memory with heap := some h' } (Session.revoke s.live addr)).Follows h'
        (p.give h.arena.base addr) := by
  rcases hf.returnable_cases hp with ha | ⟨e, he, rfl⟩
  · have hm := KernelMemory.tryFree_ignored hf.heap ha
    have hsame : ({ s.memory with heap := some h } : KernelMemory) = s.memory := by
      rw [← hf.heap]
    rw [Plan.give_ignored ha, hf.revoke_ignored ha, hm]
    exact ⟨h, by rw [hsame], .refl hf.represents, by rw [hsame]; exact hf⟩
  · obtain ⟨h', hm, hs, -⟩ := KernelMemory.tryFree_payload hf.heap hf.represents he
    rw [Plan.give_payload]
    exact ⟨h', hm, hs, hf.revoke hs he⟩

/-- The blocks that are handed out afterwards. -/
theorem lent_give (hf : s.Follows h p) (ha : s.Returnable addr) :
    (p.give h.arena.base addr).Lent f ↔ p.Lent f ∧ payloadOf h.arena.base f.start ≠ addr := by
  have hv := hf.represents.valid
  rcases hf.returnable_cases ha with ha | ⟨e, he, rfl⟩
  · have hne := KernelMemory.payloadOf_ne h.arena.base f.start
    rw [Plan.give_ignored ha]
    refine (and_iff_left ?_).symm
    rcases ha with rfl | rfl
    · exact hne.2
    · exact hne.1
  · rw [Plan.give_payload, Plan.lent_release hv he]
    refine and_congr_right fun hfl => not_congr ⟨fun h => h ▸ rfl, fun h => ?_⟩
    exact hv.eq_of_start hfl.1 he.1 (payloadOf_inj h)

theorem allocate (hf : s.Follows h p) (size : Nat) :
    ∃ h', s.memory.allocate size = (.ok ((p.allocate size).1.map (payloadOf h.arena.base)),
        { s.memory with heap := some h' }) ∧
      h.Succeeds p h' (p.allocate size).2 ∧
      (s.step (.allocate size)).2.Follows h' (p.allocate size).2 := by
  obtain ⟨h', hm, hs⟩ := KernelMemory.allocate_eq hf.heap hf.represents size
  refine ⟨h', hm, hs, ?_⟩
  rw [step, hm]
  rcases Plan.allocate_cases hf.represents.valid size with
      ha | ⟨e, he, units, hfree, -, hu, -, hle, ha⟩
  · rw [ha] at hs ⊢
    refine ⟨rfl, hs.represents, ?_, hf.nodup, ?_⟩
    · rw [hs.base]
      exact hf.live
    · rw [hs.base]
      exact hf.fits
  · rw [ha] at hs ⊢
    exact hf.grant hs he hfree hu hle

/-- One call: the client gets the plan's answer, and the plan that follows is in memory. -/
theorem step (hf : s.Follows h p) {c : Call} (hp : s.Permitted c) :
    ∃ h', (s.step c).1 = (p.perform h.arena.base c).1 ∧
      (s.step c).2.memory = { s.memory with heap := some h' } ∧
      (s.step c).2.Follows h' (p.perform h.arena.base c).2 ∧
      h'.arena.base = h.arena.base ∧ h'.arena.len = h.arena.len ∧
      ((∀ addr b, c ≠ .write addr b) → h.Succeeds p h' (p.perform h.arena.base c).2) := by
  cases c with
  | allocate size =>
    obtain ⟨h', hm, hs, hf'⟩ := hf.allocate size
    exact ⟨h', by rw [Session.step, hm]; rfl, by rw [Session.step, hm], hf', hs.base, hs.len,
      fun _ => hs⟩
  | free addr =>
    obtain ⟨h', hm, hs, hf'⟩ := hf.give hp
    have hm := KernelMemory.free_of_tryFree hm
    exact ⟨h', by rw [Session.step, hm]; rfl, by rw [Session.step, hm],
      by rw [Session.step, hm]; exact hf', hs.base, hs.len, fun _ => hs⟩
  | tryFree addr =>
    obtain ⟨h', hm, hs, hf'⟩ := hf.give hp
    exact ⟨h', by rw [Session.step, hm]; rfl, by rw [Session.step, hm],
      by rw [Session.step, hm]; exact hf', hs.base, hs.len, fun _ => hs⟩
  | write addr b =>
    obtain ⟨h', hm, hf', hb, hl⟩ := hf.write hp
    exact ⟨h', rfl, hm, hf', hb, hl, fun hc => absurd rfl (hc addr b)⟩

/-- All calls, one after another. -/
theorem run {calls : List Call} (hf : s.Follows h p) (hp : s.Permits calls) :
    ∃ h', (s.run calls).1 = (p.run h.arena.base calls).1 ∧
      (s.run calls).2.memory = { s.memory with heap := some h' } ∧
      (s.run calls).2.Follows h' (p.run h.arena.base calls).2 ∧
      h'.arena.base = h.arena.base ∧ h'.arena.len = h.arena.len := by
  induction calls generalizing s h p with
  | nil =>
    have hm : s.memory = { s.memory with heap := some h } := by rw [← hf.heap]
    exact ⟨h, rfl, hm, hf, rfl, rfl⟩
  | cons c calls ih =>
    obtain ⟨hc, hp⟩ := hp
    obtain ⟨h₁, ha, hm, hf₁, hb, hl, -⟩ := hf.step hc
    obtain ⟨h₂, ha₂, hm₂, hf₂, hb₂, hl₂⟩ := ih hf₁ hp
    rw [hb] at ha₂ hf₂
    refine ⟨h₂, ?_, ?_, hf₂, hb₂.trans hb, hl₂.trans hl⟩
    · exact congrArg₂ List.cons ha ha₂
    · rw [hm] at hm₂
      exact hm₂

end Follows

/-- A session that starts when the heap is handed its region. -/
theorem follows_init {m m' : KernelMemory} {region : Region} {record : Log.Record}
    (hi : m.init region = (.ok record, m')) :
    ∃ h, (Session.mk m' []).Follows h (.initial h.arena.len) ∧ m' = { m with heap := some h } ∧
      h.arena.base = region.base ∧ h.arena.len = m.ram.bytesWithin region / unitBytes ∧
      minArenaUnits ≤ h.arena.len := by
  obtain ⟨h, hm, hb, hl, hmin, hr⟩ := KernelMemory.init_eq hi
  refine ⟨h, ⟨congrArg (·.heap) hm, hr, fun a => ?_, .nil, by simp⟩, hm, hb, hl, hmin⟩
  refine ⟨fun ha => absurd ha List.not_mem_nil, fun ⟨e, ⟨he, hf, hs⟩, _⟩ => ?_⟩
  simp only [Plan.initial, List.mem_cons, List.not_mem_nil, or_false] at he
  have hne := Extent.not_sentinel hs h.arena.len
  rcases he with rfl | rfl | rfl
  · exact absurd rfl hne.1
  · cases hf
  · exact absurd rfl hne.2

end Session

end BareKernel
