import BareKernel.Proofs.Heap.Tenancy

/-! Memory by layout that is filled when it is handed out: a block of zeros, and a block that takes
over the contents of another one, which is given back. Both are what a client could do itself, one
operation after another: allocate, write the bytes, and give the old block back. Nobody else's
memory is touched by any of these. -/

namespace BareKernel

open Heap

/-- The header of the payload at this address and all its bytes are as they were. -/
def KernelMemory.Retains (m m' : KernelMemory) (addr : Nat) : Prop :=
  m'.unitAt (addr - unitBytes) = m.unitAt (addr - unitBytes) ∧
    ∀ k < (Session.mk m []).payloadBytes addr, m'.byteAt (addr + k) = m.byteAt (addr + k)

theorem KernelMemory.Retains.refl (m : KernelMemory) (addr : Nat) : m.Retains m addr :=
  ⟨rfl, fun _ _ => rfl⟩

theorem KernelMemory.Retains.trans {m₁ m₂ m₃ : KernelMemory} {addr : Nat}
    (h : m₁.Retains m₂ addr) (h' : m₂.Retains m₃ addr) : m₁.Retains m₃ addr := by
  refine ⟨h'.1.trans h.1, fun k hk => (h'.2 k ?_).trans (h.2 k hk)⟩
  rwa [Session.payloadBytes, h.1]

/-- One block is lent in the place of another one. -/
def KernelMemory.Exchanges (m m' : KernelMemory) (base : Nat) (b c : Extent) : Prop :=
  ∃ h p h' p', m.heap = some h ∧ h.Represents p ∧ h.arena.base = base ∧
    m'.heap = some h' ∧ h'.Represents p' ∧ h'.arena.base = base ∧
    p.Lent b ∧ ¬p.Lent c ∧ ∀ f, p'.Lent f ↔ p.Lent f ∧ f ≠ b ∨ f = c

namespace Session.Follows

variable {s : Session} {h : Heap} {p : Plan} {loan other : Loan} {layout : Layout}
  {raw addr : Nat} {bytes : List UInt8} {c : Session.Call}

/-- A call that is no write leaves what stays held. -/
theorem retains_step (hf : s.Follows h p) (hc : s.Permitted c) (hw : ∀ addr b, c ≠ .write addr b)
    (hl : loan ∈ s.live) (hl' : loan ∈ (s.step c).2.live) :
    s.memory.Retains (s.step c).2.memory loan.addr := by
  refine ⟨?_, fun k hk => hf.byteAt_step hc hw hl hl' hk⟩
  obtain ⟨h', -, -, hf', hb, -, hs⟩ := hf.step hc
  obtain ⟨e, he, ha, -⟩ := hf.exists_lent hl
  obtain ⟨f, hfl, ha', -⟩ := hf'.exists_lent hl'
  rw [hb, ← ha] at ha'
  obtain ⟨rfl, -⟩ := (hs hw).stays e f he hfl (payloadOf_inj ha')
  have hafter := KernelMemory.unitAt_header hf'.heap hf'.represents hfl.1
  rw [hb] at hafter
  rw [← ha, KernelMemory.unitAt_header hf.heap hf.represents he.1, hafter]

/-- Bytes that go into a loan leave every other one. -/
theorem retains_setBytes (hf : s.Follows h p) (hl : loan ∈ s.live) (ho : other ∈ s.live)
    (hne : other.addr ≠ loan.addr) (hle : loan.addr ≤ addr)
    (hin : addr + bytes.length ≤ loan.addr + loan.bytes) :
    s.memory.Retains (s.memory.setBytes addr bytes) other.addr := by
  obtain ⟨h', hf', hb⟩ := hf.setBytes hl hle hin
  obtain ⟨e, he, ha, -⟩ := hf.exists_lent ho
  refine ⟨?_, fun k hk => KernelMemory.byteAt_setBytes_ne ?_⟩
  · have hafter := KernelMemory.unitAt_header hf'.heap hf'.represents he.1
    rw [hb, ha] at hafter
    rw [← ha, KernelMemory.unitAt_header hf.heap hf.represents he.1, ha]
    exact hafter
  · have hgap := hf.gap hl ho hne.symm
    have hfit := (hf.inside hl).2
    change k < s.payloadBytes other.addr at hk
    omega

/-- So does the word that is kept below a strictly aligned place. -/
theorem retains_stash (hf : s.Follows h p) (hl : ⟨raw, layout.request⟩ ∈ s.live)
    (ho : other ∈ s.live) (hne : other.addr ≠ raw) :
    s.memory.Retains (s.memory.stash layout raw) other.addr := by
  unfold KernelMemory.stash
  split
  · exact .refl _ _
  · obtain ⟨h₁, h₂⟩ := hf.stash_bounds hl (Nat.not_le.mp ‹_›)
    refine hf.retains_setBytes hl ho hne h₁ ?_
    rwa [KernelMemory.length_bytesOf]

end Session.Follows

namespace Tenancy

variable {t : Tenancy} {h : Heap} {p : Plan} {l : Lease} {loan : Loan} {layout : Layout}
  {m : KernelMemory} {raw addr : Nat} {bytes : List UInt8} {ops ops' : List Op}

/-! ## Writes one byte after another -/

def writes (addr : Nat) : List UInt8 → List Op
  | [] => []
  | b :: bytes => .write addr b :: writes (addr + 1) bytes

theorem run_writes (t : Tenancy) (addr : Nat) (bytes : List UInt8) :
    t.run (writes addr bytes) = { t with memory := t.memory.setBytes addr bytes } := by
  induction bytes generalizing t addr with
  | nil => rfl
  | cons b bytes ih => exact ih (t.step (.write addr b)) (addr + 1)

theorem run_append (t : Tenancy) (ops ops' : List Op) :
    t.run (ops ++ ops') = (t.run ops).run ops' := List.foldl_append

theorem permits_append : t.Permits (ops ++ ops') ↔ t.Permits ops ∧ (t.run ops).Permits ops' := by
  induction ops generalizing t with
  | nil => exact (iff_of_eq (true_and _)).symm
  | cons o ops ih =>
    rw [List.cons_append, Permits, ih, Permits, and_assoc]
    rfl

theorem permits_writes (hl : l ∈ t.leases) (hle : l.addr ≤ addr)
    (hin : addr + bytes.length ≤ l.addr + l.layout.size) : t.Permits (writes addr bytes) := by
  induction bytes generalizing t addr with
  | nil => trivial
  | cons b bytes ih =>
    rw [List.length_cons] at hin
    exact ⟨⟨l, hl, hle, by omega⟩, ih hl (by omega) (by omega)⟩

namespace Follows

theorem setBytes (hf : t.Follows h p) (hl : l ∈ t.leases) (hin : bytes.length ≤ l.layout.size) :
    ∃ h', (Tenancy.mk (t.memory.setBytes l.addr bytes) t.loans t.leases).Follows h' p ∧
      h'.arena.base = h.arena.base := by
  obtain ⟨hle, hstop⟩ := hf.addr_bounds hl
  have hend := (Nat.add_le_add_left hin l.addr).trans hstop
  obtain ⟨h', hf', hb⟩ := hf.session.setBytes (loan_mem hl) hle hend
  refine ⟨h', ⟨hf', fun k hk => ?_⟩, hb⟩
  by_cases hkl : k.raw = l.raw
  · obtain rfl := hf.eq_of_raw hk hl hkl
    refine (hf.backed k hk).congr fun ha j hj => KernelMemory.byteAt_setBytes_ne (.inl ?_)
    -- the stashed word lies below the address, and the bytes go in from there on
    obtain ⟨hs, -⟩ := Layout.place_slide (hf.raw_mod hk) ha
    rw [← (hf.backed k hk).placed] at hs
    simp only [KernelMemory.stashBytes, unitBytes] at *
    omega
  · exact (hf.backed k hk).of_bytes (hf.raw_mod hk) fun j hj =>
      hf.session.byteAt_setBytes (loan_mem hl) (loan_mem hk) hkl hle hend hj

/-- The bytes of a lease are bytes of its block's payload. -/
theorem addr_lt (hf : t.Follows h p) (hl : l ∈ t.leases) {k : Nat} (hk : k < l.layout.size) :
    l.addr + k = l.raw + (l.addr - l.raw + k) ∧ l.addr - l.raw + k < l.loan.bytes := by
  have hbounds := hf.addr_bounds hl
  simp only [Lease.loan]
  omega

theorem bytesAt_setBytes (hf : t.Follows h p) (hl : l ∈ t.leases)
    (hin : bytes.length ≤ l.layout.size) :
    (t.memory.setBytes l.addr bytes).bytesAt l.addr bytes.length = bytes := by
  refine KernelMemory.bytesAt_setBytes hf.session.heap fun k hk => ?_
  obtain ⟨hat, hlt⟩ := hf.addr_lt hl (Nat.lt_of_lt_of_le hk hin)
  rw [hat]
  exact hf.session.contains (loan_mem hl) hlt

theorem bytesAt_of_retains (hf : t.Follows h p) (hl : l ∈ t.leases) {n : Nat}
    (hr : t.memory.Retains m l.raw) (hn : n ≤ l.layout.size) :
    m.bytesAt l.addr n = t.memory.bytesAt l.addr n := by
  refine KernelMemory.bytesAt_congr fun k hk => ?_
  obtain ⟨hat, hlt⟩ := hf.addr_lt hl (Nat.lt_of_lt_of_le hk hn)
  rw [hat]
  exact hr.2 _ (Nat.lt_of_lt_of_le hlt (hf.session.inside (loan_mem hl)).2)

theorem usable (hf : t.Follows h p) (hl : l ∈ t.leases) {b : Extent} (hb : p.Lent b)
    (hraw : payloadOf h.arena.base b.start = l.raw) :
    l.Usable t.memory (l.raw + (b.size - tagUnits) * unitBytes) := by
  have hmod := hf.raw_mod hl
  obtain ⟨hstart, hin⟩ := hf.addr_bounds hl
  obtain ⟨hplace, hstash⟩ := hf.backed l hl
  have hfit := hf.session.fits _ (loan_mem hl) b hb hraw
  refine ⟨hplace ▸ Layout.place_mod hmod, hstart, hin.trans (Nat.add_le_add_left hfit l.raw), ?_,
    fun ha => ⟨hplace ▸ (Layout.place_slide hmod ha).1, hstash ha⟩⟩
  rw [← hraw]
  exact hf.session.payload_end_lt hb

/-- To hand out a block by layout leaves what is held. -/
theorem retains_allocateLayout (hf : t.Follows h p)
    (hm : t.memory.allocate layout.request = (.ok (some raw), m)) (hl : loan ∈ t.session.live) :
    t.memory.Retains (m.stash layout raw) loan.addr := by
  have hstep : (t.session.step (.allocate layout.request)).2 =
      ⟨m, ⟨raw, layout.request⟩ :: t.session.live⟩ := by
    simp only [Tenancy.session, Session.step, hm, Session.grant]
  have hw : ∀ addr b, Session.Call.allocate layout.request ≠ .write addr b := by
    intro addr b hc
    cases hc
  have htaken := hf.session.retains_step (c := .allocate layout.request) trivial hw hl
  obtain ⟨h₁, -, hs, hf₁⟩ := hf.session.allocate layout.request
  rw [hstep] at htaken hf₁
  have hmem := List.mem_cons_of_mem (Loan.mk raw layout.request) hl
  refine (htaken hmem).trans (hf₁.retains_stash List.mem_cons_self hmem fun ha => ?_)
  exact (List.nodup_cons.mp hf₁.nodup).1 (List.mem_map.mpr ⟨_, hl, ha⟩)

theorem retains_setBytes (hf : t.Follows h p) (hl : l ∈ t.leases)
    (hin : bytes.length ≤ l.layout.size) (ho : loan ∈ t.session.live) (hne : loan.addr ≠ l.raw) :
    t.memory.Retains (t.memory.setBytes l.addr bytes) loan.addr := by
  obtain ⟨hle, hstop⟩ := hf.addr_bounds hl
  exact hf.session.retains_setBytes (loan_mem hl) ho hne hle
    ((Nat.add_le_add_left hin l.addr).trans hstop)

end Follows

/-! ## A block that is filled -/

/-- A block that was not lent before is `fresh`, and starts with these bytes. Nothing that was held
has changed, and the clients could have done all of it themselves. -/
structure Filled (t : Tenancy) (fresh : Lease) (bytes : List UInt8) (m : KernelMemory) (base : Nat)
    (c : Extent) : Prop where
  placed : payloadOf base c.start = fresh.raw
  ne_zero : fresh.addr ≠ 0
  taken : t.memory.OneMore m base c
  usable : fresh.Usable m (fresh.raw + (c.size - tagUnits) * unitBytes)
  bytes : m.bytesAt fresh.addr bytes.length = bytes
  retained : ∀ loan ∈ t.session.live, t.memory.Retains m loan.addr
  reached : ∃ ops, t.Permits ops ∧ t.run ops = ⟨m, t.loans, fresh :: t.leases⟩

theorem mem_live_cons (fresh : Lease) (hl : loan ∈ t.session.live) :
    loan ∈ (Tenancy.mk m t.loans (fresh :: t.leases)).session.live := by
  simp only [Tenancy.session, List.map_cons, List.mem_append, List.mem_cons] at hl ⊢
  tauto

/-- The block of a new lease is nobody else's. -/
theorem Follows.raw_ne {fresh : Lease}
    (hf : (Tenancy.mk m t.loans (fresh :: t.leases)).Follows h p) (hl : loan ∈ t.session.live) :
    loan.addr ≠ fresh.raw := by
  have hn := hf.session.nodup
  rw [Tenancy.session, List.map_append, List.map_cons, List.map_cons, List.nodup_middle,
    List.nodup_cons, ← List.map_append] at hn
  exact fun ha => hn.1 (List.mem_map.mpr ⟨loan, hl, ha⟩)

theorem Follows.fill (hf : t.Follows h p)
    (hm : t.memory.allocate layout.request = (.ok (some raw), m))
    (hs : t.step (.allocateLayout layout) =
      ⟨m.stash layout raw, t.loans, ⟨layout.place raw, layout, raw⟩ :: t.leases⟩)
    (hlen : bytes.length ≤ layout.size) :
    ∃ h' p' c, (Tenancy.mk ((m.stash layout raw).setBytes (layout.place raw) bytes) t.loans
        (⟨layout.place raw, layout, raw⟩ :: t.leases)).Follows h' p' ∧
      h'.arena.base = h.arena.base ∧ ¬p.Lent c ∧ (∀ f, p'.Lent f ↔ p.Lent f ∨ f = c) ∧
      t.Filled ⟨layout.place raw, layout, raw⟩ bytes
        ((m.stash layout raw).setBytes (layout.place raw) bytes) h.arena.base c := by
  obtain ⟨c, hraw, hnew, hlent⟩ := hf.session.exists_lent_of_allocate hm
  obtain ⟨h₁, hf₁, hb₁⟩ := hf.stash hm
  have hl : Lease.mk (layout.place raw) layout raw ∈
      Lease.mk (layout.place raw) layout raw :: t.leases := List.mem_cons_self
  obtain ⟨h₂, hf₂, hb₂⟩ := hf₁.setBytes hl hlen
  have hb := hb₂.trans hb₁
  have hc : (p.allocate layout.request).2.Lent c := (hlent c).mpr (.inr rfl)
  refine ⟨h₂, _, c, hf₂, hb, hnew, hlent, hraw, hf₂.addr_ne_zero hl, ?_,
    hf₂.usable hl hc (hb ▸ hraw), hf₁.bytesAt_setBytes hl hlen, fun loan ho => ?_, ?_⟩
  · exact ⟨h, p, h₂, _, hf.session.heap, hf.session.represents, rfl, hf₂.session.heap,
      hf₂.session.represents, hb, hnew, hlent⟩
  · exact (hf.retains_allocateLayout hm ho).trans
      (hf₁.retains_setBytes hl hlen (mem_live_cons _ ho) (hf₁.raw_ne ho))
  · refine ⟨.allocateLayout layout :: writes (layout.place raw) bytes, ⟨trivial, ?_⟩, ?_⟩
    · rw [hs]
      exact permits_writes hl (Nat.le_refl _) (Nat.add_le_add_left hlen _)
    · change (t.step (.allocateLayout layout)).run _ = _
      rw [hs, run_writes]

/-- No room and nothing changes, or a block of zeros. -/
theorem Follows.allocateZeroed (hf : t.Follows h p) (layout : Layout) :
    t.memory.allocateZeroed layout = (.ok 0, t.memory) ∨
      ∃ fresh m base c, fresh.layout = layout ∧
        t.memory.allocateZeroed layout = (.ok fresh.addr, m) ∧
        t.Filled fresh (List.replicate layout.size 0) m base c := by
  rcases hf.allocateLayout layout with ⟨ha, -⟩ | ⟨raw, m, hm, ha, hs⟩
  · refine .inl ?_
    simp only [KernelMemory.allocateZeroed, ha, if_true]
  · have hlen : (List.replicate layout.size (0 : UInt8)).length ≤ layout.size := by simp
    obtain ⟨-, -, c, -, -, -, -, hfill⟩ := hf.fill hm hs hlen
    refine .inr ⟨_, _, _, c, rfl, ?_, hfill⟩
    have h₀ : layout.place raw ≠ 0 := hfill.ne_zero
    simp only [KernelMemory.allocateZeroed, ha, h₀, if_false]

/-! ## A block that is given back -/

theorem Follows.release (hf : t.Follows h p) (hl : l ∈ t.leases) :
    ∃ m h' p', t.memory.freeLayout l.addr l.layout = (.ok (), m) ∧
      (Tenancy.mk m t.loans (t.leases.filter (·.addr ≠ l.addr))).Follows h' p' ∧
      h'.arena.base = h.arena.base ∧
      (∀ f, p'.Lent f ↔ p.Lent f ∧ payloadOf h.arena.base f.start ≠ l.raw) ∧
      ∀ loan ∈ t.session.live, loan.addr ≠ l.raw → t.memory.Retains m loan.addr := by
  have hret := returnable_raw hl
  obtain ⟨m, h', hm, hs, hf'⟩ : ∃ m h', t.memory.tryFree l.raw = (.ok (), m) ∧
      h.Succeeds p h' (p.give h.arena.base l.raw) ∧
      (Session.mk m (Session.revoke t.session.live l.raw)).Follows h'
        (p.give h.arena.base l.raw) :=
    have ⟨h', hm, hs, hf'⟩ := hf.session.give hret
    ⟨_, h', hm, hs, hf'⟩
  have hfree := KernelMemory.free_of_tryFree hm
  have hlayout := (hf.freeLayout_eq hl).trans hfree
  have hstep : t.step (.freeLayout l.addr l.layout) =
      ⟨m, t.loans, t.leases.filter (·.addr ≠ l.addr)⟩ := by
    rw [Tenancy.step, hlayout]
  have hbacked := (hf.freeLayout hl).2
  rw [hf.revoke_raw hl] at hf'
  rw [hstep] at hbacked
  refine ⟨m, h', _, hlayout, ⟨hf', hbacked⟩, hs.base, fun f => hf.session.lent_give hret,
    fun loan ho hne => ?_⟩
  have hcall : t.session.step (.free l.raw) =
      (.freed (.ok ()), ⟨m, Session.revoke t.session.live l.raw⟩) := by
    rw [Session.step, show t.session.memory.free l.raw = _ from hfree]
  have hw : ∀ addr b, Session.Call.free l.raw ≠ .write addr b := by
    intro addr b hc
    cases hc
  have hkept := hf.session.retains_step (c := .free l.raw) hret hw ho
  rw [hcall] at hkept
  exact hkept (List.mem_filter.mpr ⟨ho, decide_eq_true hne⟩)

/-! ## A block that takes over from another -/

/-- The block of `fresh` is lent in the place of the block of `l`, and starts with the bytes that
both have room for. Nothing else that was held has changed, and the clients could have done all of
it themselves. -/
structure Moved (t : Tenancy) (l fresh : Lease) (m : KernelMemory) (base : Nat) (b c : Extent) :
    Prop where
  old : payloadOf base b.start = l.raw
  placed : payloadOf base c.start = fresh.raw
  ne_zero : fresh.addr ≠ 0
  exchanged : t.memory.Exchanges m base b c
  usable : fresh.Usable m (fresh.raw + (c.size - tagUnits) * unitBytes)
  bytes : m.bytesAt fresh.addr (min l.layout.size fresh.layout.size) =
    t.memory.bytesAt l.addr (min l.layout.size fresh.layout.size)
  retained : ∀ loan ∈ t.session.live, loan.addr ≠ l.raw → t.memory.Retains m loan.addr
  reached : ∃ ops, t.Permits ops ∧
    t.run ops = ⟨m, t.loans, fresh :: t.leases.filter (·.addr ≠ l.addr)⟩

/-- Once a block is filled with what the old one holds, the move ends with the old one's release. -/
theorem Follows.move (hf : t.Follows h p) (hl : l ∈ t.leases)
    (hm : t.memory.allocate layout.request = (.ok (some raw), m))
    (hs : t.step (.allocateLayout layout) =
      ⟨m.stash layout raw, t.loans, ⟨layout.place raw, layout, raw⟩ :: t.leases⟩)
    (hkept : bytes = t.memory.bytesAt l.addr (min l.layout.size layout.size)) :
    ∃ m' b c, ((m.stash layout raw).setBytes (layout.place raw) bytes).freeLayout l.addr l.layout =
        (.ok (), m') ∧ t.Moved l ⟨layout.place raw, layout, raw⟩ m' h.arena.base b c := by
  have hlen : bytes.length = min l.layout.size layout.size := by
    rw [hkept, KernelMemory.length_bytesAt]
  have hfits : bytes.length ≤ layout.size := hlen ▸ Nat.min_le_right _ _
  obtain ⟨b, hb, hold, -⟩ := hf.session.exists_lent (loan_mem hl)
  obtain ⟨h₂, p₂, c, hf₂, hb₂, hnew, hlent, hfill⟩ := hf.fill hm hs hfits
  obtain ⟨m', h₃, p₃, hm', hf₃, hb₃, hlent₃, hretain⟩ := hf₂.release (List.mem_cons_of_mem _ hl)
  have hfresh : Lease.mk (layout.place raw) layout raw ∈
      Lease.mk (layout.place raw) layout raw :: t.leases := List.mem_cons_self
  have hraw : l.raw ≠ raw := hf₂.raw_ne (loan_mem hl)
  have haddr : layout.place raw ≠ l.addr := fun ha =>
    hraw (congrArg Lease.raw (hf₂.eq_of_addr hfresh (List.mem_cons_of_mem _ hl) ha)).symm
  have hfilter : (Lease.mk (layout.place raw) layout raw :: t.leases).filter (·.addr ≠ l.addr) =
      ⟨layout.place raw, layout, raw⟩ :: t.leases.filter (·.addr ≠ l.addr) :=
    List.filter_cons_of_pos (decide_eq_true haddr)
  have hplaced : payloadOf h.arena.base c.start = raw := hfill.placed
  have hexchange : ∀ f, p₃.Lent f ↔ p.Lent f ∧ f ≠ b ∨ f = c := by
    intro f
    rw [hlent₃, hlent, hb₂]
    constructor
    · rintro ⟨hfl | rfl, hne⟩
      · exact .inl ⟨hfl, fun hfb => hne (hfb ▸ hold)⟩
      · exact .inr rfl
    · rintro (⟨hfl, hfb⟩ | rfl)
      · refine ⟨.inl hfl, fun ha => hfb ?_⟩
        have hstart := payloadOf_inj (ha.trans hold.symm)
        exact hf.session.represents.valid.eq_of_start hfl.1 hb.1 hstart
      · exact ⟨.inr rfl, fun ha => hraw (ha.symm.trans hplaced)⟩
  have hbase := hb₃.trans hb₂
  rw [hfilter] at hf₃
  refine ⟨m', b, c, hm', hold, hplaced, hfill.ne_zero, ?_, ?_, ?_, fun loan ho hne => ?_, ?_⟩
  · exact ⟨h, p, h₃, p₃, hf.session.heap, hf.session.represents, rfl, hf₃.session.heap,
      hf₃.session.represents, hbase, hb, hnew, hexchange⟩
  · exact hf₃.usable List.mem_cons_self ((hexchange c).mpr (.inr rfl)) (hbase ▸ hplaced)
  · have hsame := hretain _ (loan_mem hfresh) hraw.symm
    have hread := hf₂.bytesAt_of_retains hfresh hsame hfits
    have hfilled := hfill.bytes
    rw [hlen] at hread hfilled
    exact (hread.trans hfilled).trans hkept
  · exact (hfill.retained loan ho).trans (hretain loan (mem_live_cons _ ho) hne)
  · obtain ⟨ops, hp, hr⟩ := hfill.reached
    refine ⟨ops ++ [.freeLayout l.addr l.layout], permits_append.mpr ⟨hp, ?_⟩, ?_⟩
    · rw [hr]
      exact ⟨.inr ⟨l, List.mem_cons_of_mem _ hl, rfl, rfl⟩, trivial⟩
    · rw [run_append, hr]
      simp only [Tenancy.run, List.foldl_cons, List.foldl_nil, Tenancy.step, hm', hfilter]

/-- No room and nothing changes, or the block moves. -/
theorem Follows.reallocate (hf : t.Follows h p) (hl : l ∈ t.leases) (layout : Layout) :
    t.memory.reallocate l.addr l.layout layout = (.ok 0, t.memory) ∨
      ∃ fresh m base b c, fresh.layout = layout ∧
        t.memory.reallocate l.addr l.layout layout = (.ok fresh.addr, m) ∧
        t.Moved l fresh m base b c := by
  rcases hf.allocateLayout layout with ⟨ha, -⟩ | ⟨raw, m, hm, ha, hs⟩
  · refine .inl ?_
    simp only [KernelMemory.reallocate, ha, if_true]
  · have hsame := hf.retains_allocateLayout hm (loan_mem hl)
    have hkept := hf.bytesAt_of_retains hl hsame (Nat.min_le_left l.layout.size layout.size)
    obtain ⟨m', b, c, hfree, hmoved⟩ := hf.move hl hm hs hkept
    refine .inr ⟨_, m', _, b, c, rfl, ?_, hmoved⟩
    have h₀ : layout.place raw ≠ 0 := hmoved.ne_zero
    simp only [KernelMemory.reallocate, ha, h₀, if_false, hfree]
    rfl

/-- After any permitted operations, to reallocate what is held finds no room and changes nothing, or
hands out a usable block that starts with the old contents, in the place of the old block; and to
allocate zeros finds no room or hands out a usable block that starts with them. Both leave whatever
else is held, header and payload, and both are what the clients could have done themselves. -/
theorem reallocate_and_allocateZeroed {m : KernelMemory} (hm : m.heap = none) {before : List Op}
    (hp : (Tenancy.mk m [] []).Permits before) (ht : (Tenancy.mk m [] []).run before = t) :
    (∀ l ∈ t.leases, ∀ layout,
      t.memory.reallocate l.addr l.layout layout = (.ok 0, t.memory) ∨
        ∃ fresh m' base b c, fresh.layout = layout ∧
          t.memory.reallocate l.addr l.layout layout = (.ok fresh.addr, m') ∧
          t.Moved l fresh m' base b c) ∧
    ∀ layout, t.memory.allocateZeroed layout = (.ok 0, t.memory) ∨
      ∃ fresh m' base c, fresh.layout = layout ∧
        t.memory.allocateZeroed layout = (.ok fresh.addr, m') ∧
        t.Filled fresh (List.replicate layout.size 0) m' base c := by
  have hs : t.Sound := ht ▸ (Sound.start hm).run hp
  rcases hs with ⟨hm, -, hn⟩ | ⟨h, p, hf⟩
  · refine ⟨fun l hl => ?_, fun layout => .inl ?_⟩
    · rw [hn] at hl
      cases hl
    · simp only [KernelMemory.allocateZeroed, Sound.allocateLayout_of_none hm, if_true]
  · exact ⟨fun l hl => hf.reallocate hl, hf.allocateZeroed⟩

def eightBytes : Layout := ⟨8, 8, by decide, by decide⟩

def threeWords : Layout := ⟨24, 8, by decide, by decide⟩

/-- The bytes of a block, the first and the last of them written. -/
def smallTenant : List Op :=
  [.init smallRegion, .allocateLayout eightBytes, .write 4120 0xAB, .write 4127 0xCD]

def smallLease : Tenancy := (Tenancy.mk smallMemory [] []).run smallTenant

/-- A block that is given back with a byte left in it. -/
def smallLeaver : List Op :=
  [.init smallRegion, .allocateLayout threeWords, .write 4140 0xAB, .freeLayout 4120 threeWords]

def smallLeft : Tenancy := (Tenancy.mk smallMemory [] []).run smallLeaver

/-- The bytes move into a block of three times their size, and what is left in a block is gone when
zeros are asked for. -/
theorem reallocate_and_allocateZeroed_small :
    (∃ (fresh : Lease) (m : KernelMemory),
      smallLease.memory.reallocate 4120 eightBytes threeWords = (.ok fresh.addr, m) ∧
      m.bytesAt fresh.addr 8 = [0xAB, 0, 0, 0, 0, 0, 0, 0xCD]) ∧
    smallLeft.memory.byteAt 4140 = 0xAB ∧
    ∃ (fresh : Lease) (m : KernelMemory),
      smallLeft.memory.allocateZeroed threeWords = (.ok fresh.addr, m) ∧ fresh.addr ≠ 0 ∧
      m.bytesAt fresh.addr 24 = List.replicate 24 0 := by
  refine ⟨?_, by decide +kernel, ?_⟩
  · have hp : (Tenancy.mk smallMemory [] []).Permits smallTenant := by decide +kernel
    have hread : smallLease.memory.bytesAt 4120 8 = [0xAB, 0, 0, 0, 0, 0, 0, 0xCD] := by
      decide +kernel
    have hroom : (smallLease.memory.reallocate 4120 eightBytes threeWords).1.toOption ≠ some 0 := by
      decide +kernel
    obtain ⟨l, hl, ha, hlayout⟩ :
        ∃ l ∈ smallLease.leases, l.addr = 4120 ∧ l.layout = eightBytes := by decide +kernel
    have hre := (reallocate_and_allocateZeroed rfl hp rfl).1 l hl threeWords
    change smallLease.memory.reallocate _ _ _ = _ ∨ _ at hre
    rcases hre with hnull | ⟨fresh, m, base, b, c, hfresh, hok, hmoved⟩
    · rw [ha, hlayout] at hnull
      exact absurd (congrArg (·.1.toOption) hnull) hroom
    · rw [ha, hlayout] at hok
      have hbytes := hmoved.bytes
      rw [ha, hlayout, hfresh] at hbytes
      exact ⟨fresh, m, hok, hbytes.trans hread⟩
  · have hp : (Tenancy.mk smallMemory [] []).Permits smallLeaver := by decide +kernel
    have hroom : (smallLeft.memory.allocateZeroed threeWords).1.toOption ≠ some 0 := by
      decide +kernel
    have hzero := (reallocate_and_allocateZeroed rfl hp rfl).2 threeWords
    change smallLeft.memory.allocateZeroed _ = _ ∨ _ at hzero
    rcases hzero with hnull | ⟨fresh, m, base, c, -, hok, hfilled⟩
    · exact absurd (congrArg (·.1.toOption) hnull) hroom
    · exact ⟨fresh, m, hok, hfilled.ne_zero, hfilled.bytes⟩

end Tenancy

end BareKernel
