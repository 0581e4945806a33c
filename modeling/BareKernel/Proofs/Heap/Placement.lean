import BareKernel.Proofs.Heap.Bytes

/-! Allocation by layout in terms of the heap's own calls. A layout asks the heap for one block that
leaves its bytes room to slide up to their alignment. What it hands out lies inside that block, and
where the alignment is strict, the word below it tells where the block is. -/

namespace BareKernel

open Heap

/-! ## Alignment -/

namespace Heap.Layout

variable {layout : Layout} {n a raw : Nat}

theorem roundUp_mod (n a : Nat) : roundUp n a % a = 0 := Nat.mul_mod_left _ _

theorem le_roundUp (ha : 0 < a) : n ≤ roundUp n a := by
  have hdiv := Nat.div_add_mod (n + a - 1) a
  have hmod := Nat.mod_lt (n + a - 1) ha
  rw [Nat.mul_comm] at hdiv
  unfold roundUp
  omega

theorem roundUp_lt (ha : 0 < a) : roundUp n a < n + a := by
  have hle := Nat.div_mul_le_self (n + a - 1) a
  unfold roundUp
  omega

theorem align_eq_pow (layout : Layout) : layout.align = 2 ^ layout.align.log2 := by
  rw [← Nat.one_shiftLeft, layout.align_eq]

theorem align_pos (layout : Layout) : 0 < layout.align := by
  rw [align_eq_pow]
  exact Nat.two_pow_pos _

/-- Alignments divide one another, the smaller the larger. -/
theorem align_dvd (h : layout.align ≤ payloadAlign) : layout.align ∣ payloadAlign := by
  rw [align_eq_pow] at h ⊢
  change 2 ^ layout.align.log2 ≤ 2 ^ 3 at h
  exact Nat.pow_dvd_pow 2 ((Nat.pow_le_pow_iff_right (by decide)).mp h)

theorem dvd_align (h : payloadAlign < layout.align) : payloadAlign ∣ layout.align := by
  rw [align_eq_pow] at h ⊢
  change 2 ^ 3 < 2 ^ layout.align.log2 at h
  exact Nat.pow_dvd_pow 2 ((Nat.pow_lt_pow_iff_right (by decide)).mp h).le

/-- How many bytes the heap is asked for. -/
def request (layout : Layout) : Nat :=
  if layout.align ≤ payloadAlign then layout.size else layout.size + layout.align

/-- Where in a payload at `raw` the bytes of the layout start. -/
def place (layout : Layout) (raw : Nat) : Nat :=
  if layout.align ≤ payloadAlign then raw else roundUp (raw + unitBytes) layout.align

/-- The sum that is asked for where the alignment is strict fits into 64 bits. -/
theorem request_lt (layout : Layout) : layout.request < 0x10000000000000000 := by
  have := layout.size_le
  unfold request
  split <;> omega

theorem place_mod (hraw : raw % payloadAlign = 0) : layout.place raw % layout.align = 0 := by
  unfold place
  split
  · exact Nat.mod_eq_zero_of_dvd (Nat.dvd_trans (align_dvd ‹_›) (Nat.dvd_of_mod_eq_zero hraw))
  · exact roundUp_mod _ _

/-- The slide of a strictly aligned layout is at least one word and at most the alignment. -/
theorem place_slide (hraw : raw % payloadAlign = 0) (ha : payloadAlign < layout.align) :
    raw + unitBytes ≤ layout.place raw ∧ layout.place raw ≤ raw + layout.align := by
  have hpos := align_pos layout
  have hle := le_roundUp (n := raw + unitBytes) hpos
  have hlt := roundUp_lt (n := raw + unitBytes) hpos
  obtain ⟨k, hk⟩ := dvd_align ha
  obtain ⟨q, hq⟩ : layout.align ∣ roundUp (raw + unitBytes) layout.align :=
    Nat.dvd_of_mod_eq_zero (roundUp_mod _ _)
  rw [place, if_neg (Nat.not_le.mpr ha)]
  refine ⟨hle, ?_⟩
  -- all three are multiples of the word
  have hword : roundUp (raw + unitBytes) layout.align % payloadAlign = 0 := by
    rw [hq, hk, Nat.mul_assoc]
    exact Nat.mul_mod_right _ _
  have hk : layout.align % payloadAlign = 0 := Nat.mod_eq_zero_of_dvd (dvd_align ha)
  simp only [payloadAlign, unitBytes] at *
  omega

theorem place_bounds (hraw : raw % payloadAlign = 0) :
    raw ≤ layout.place raw ∧ layout.place raw + layout.size ≤ raw + layout.request := by
  by_cases ha : layout.align ≤ payloadAlign
  · rw [place, request, if_pos ha, if_pos ha]
    exact ⟨Nat.le_refl _, Nat.le_refl _⟩
  · obtain ⟨h₁, h₂⟩ := place_slide hraw (Nat.not_le.mp ha)
    rw [request, if_neg ha]
    omega

end Heap.Layout

/-! ## The calls -/

namespace KernelMemory

variable {m : KernelMemory} {layout : Layout} {raw : Nat}

/-- Keep the address of the payload in the word below a strictly aligned place. -/
def stash (m : KernelMemory) (layout : Layout) (raw : Nat) : KernelMemory :=
  if layout.align ≤ payloadAlign then m
  else m.setNumberAt (layout.place raw - stashBytes) stashBytes raw

theorem allocateLayout_eq (m : KernelMemory) (layout : Layout) : m.allocateLayout layout =
    match m.allocate layout.request with
    | (.error e, m) => (.error e, m)
    | (.ok none, m) => (.ok 0, m)
    | (.ok (some raw), m) => (.ok (layout.place raw), m.stash layout raw) := by
  by_cases ha : layout.align ≤ payloadAlign <;>
    simp only [allocateLayout, Layout.request, Layout.place, stash, ha, if_true, if_false] <;>
    rcases m.allocate _ with ⟨_ | _ | _, _⟩ <;> rfl

/-- What is given back is the block that the place belongs to. -/
theorem freeLayout_eq (h₀ : layout.place raw ≠ 0) (hs : payloadAlign < layout.align →
      m.numberAt (layout.place raw - stashBytes) stashBytes = raw) :
    m.freeLayout (layout.place raw) layout = m.free raw := by
  rw [freeLayout, if_neg h₀]
  split
  · rw [Layout.place, if_pos ‹_›]
  · simp only [hs (Nat.not_le.mp ‹_›)]

end KernelMemory

/-! ## Blocks that change hands -/

/-- One of the two memories has lent exactly one block more than the other. -/
def KernelMemory.OneMore (m m' : KernelMemory) (base : Nat) (b : Extent) : Prop :=
  ∃ h p h' p', m.heap = some h ∧ h.Represents p ∧ h.arena.base = base ∧
    m'.heap = some h' ∧ h'.Represents p' ∧ h'.arena.base = base ∧
    ¬p.Lent b ∧ ∀ f, p'.Lent f ↔ p.Lent f ∨ f = b

namespace Heap.Plan.Valid

variable {p : Plan} {len bytes i : Nat}

/-- The block that is found was not lent before, and it is the only one that changes hands. -/
theorem exists_lent_of_allocate (hv : p.Valid len) (ha : (p.allocate bytes).1 = some i) :
    ∃ b, b.start = i ∧ ¬p.Lent b ∧ ∀ f, (p.allocate bytes).2.Lent f ↔ p.Lent f ∨ f = b := by
  rcases allocate_cases hv bytes with hn | ⟨e, he, units, hfree, -, hu, -, -, hs⟩
  · rw [hn] at ha
    cases ha
  · rw [hs] at ha ⊢
    obtain rfl := Option.some.inj ha
    refine ⟨e.served units, rfl, fun hl => ?_, fun f =>
      lent_take hv he hfree (minBlockUnits_le_of_unitsFor hu)⟩
    have := hv.eq_of_start (f := e) hl.1 he rfl
    rw [← this] at hfree
    cases hfree

end Heap.Plan.Valid

namespace Session.Follows

variable {s : Session} {h h' : Heap} {p : Plan} {loan other : Loan} {layout : Layout}
  {raw addr k : Nat} {e : Extent}

/-- Between the payloads of two blocks there are a footer and a header. -/
theorem gap (hf : s.Follows h p) (hl : loan ∈ s.live) (ho : other ∈ s.live)
    (hne : loan.addr ≠ other.addr) :
    loan.addr + s.payloadBytes loan.addr + tagUnits * unitBytes ≤ other.addr ∨
      other.addr + s.payloadBytes other.addr + tagUnits * unitBytes ≤ loan.addr := by
  obtain ⟨e, he, hea, -⟩ := hf.exists_lent hl
  obtain ⟨f, hfl, hfa, -⟩ := hf.exists_lent ho
  have hef : e ≠ f := fun h => hne (hea.symm.trans (h ▸ hfa))
  have hap := (hf.represents.valid.apart he.1 hfl.1).resolve_left hef
  have hes : 4 ≤ e.size := he.2.2
  have hfs : 4 ≤ f.size := hfl.2.2
  rw [← hea, ← hfa, hf.payloadBytes_eq he, hf.payloadBytes_eq hfl]
  simp only [payloadOf, unitBytes, tagUnits, Extent.stop] at *
  omega

/-- A request that is answered takes one block that was not lent before. -/
theorem exists_lent_of_allocate (hf : s.Follows h p) {size : Nat} {m : KernelMemory}
    (ha : s.memory.allocate size = (.ok (some raw), m)) :
    ∃ b, payloadOf h.arena.base b.start = raw ∧ ¬p.Lent b ∧
      ∀ f, (p.allocate size).2.Lent f ↔ p.Lent f ∨ f = b := by
  obtain ⟨h', hm, -⟩ := hf.allocate size
  rw [ha] at hm
  obtain ⟨i, hi, rfl⟩ := Option.map_eq_some_iff.mp (Except.ok.inj (Prod.mk.inj hm).1).symm
  obtain ⟨b, rfl, hnew⟩ := hf.represents.valid.exists_lent_of_allocate hi
  exact ⟨b, rfl, hnew⟩

/-- A payload ends inside the arena. -/
theorem payload_end_lt (hf : s.Follows h p) (he : p.Lent e) :
    payloadOf h.arena.base e.start + (e.size - tagUnits) * unitBytes < 0x10000000000000000 := by
  have hstop := (hf.represents.valid.tiles.bounds he.1).2
  have hsize : 4 ≤ e.size := he.2.2
  have hend := h.arena.end_le
  change _ + 8 * h.arena.len ≤ _ at hend
  simp only [payloadOf, unitBytes, tagUnits, Extent.stop] at *
  omega

/-- Giving a block back takes it from what is lent, and nothing else. -/
theorem free_oneMore (hf : s.Follows h p) (he : p.Lent e) :
    ∃ m, s.memory.free (payloadOf h.arena.base e.start) = (.ok (), m) ∧
      m.OneMore s.memory h.arena.base e := by
  obtain ⟨h', hm, hs, -⟩ := KernelMemory.tryFree_payload hf.heap hf.represents he
  have hlent := fun f => Plan.lent_release (f := f) hf.represents.valid he
  refine ⟨_, KernelMemory.free_of_tryFree hm, h', _, h, p, rfl, hs.represents, hs.base, hf.heap,
    hf.represents, rfl, fun hl => ((hlent e).mp hl).2 rfl, fun f => ?_⟩
  rw [hlent f]
  by_cases hfe : f = e
  · simp only [hfe, he, ne_eq, not_true_eq_false, and_false, or_true]
  · simp only [hfe, ne_eq, not_false_eq_true, and_true, or_false]

/-! ## The word below -/

/-- The word below the place is part of the block. -/
theorem stash_bounds (hf : s.Follows h p) (hl : ⟨raw, layout.request⟩ ∈ s.live)
    (ha : payloadAlign < layout.align) : raw ≤ layout.place raw - KernelMemory.stashBytes ∧
      layout.place raw - KernelMemory.stashBytes + KernelMemory.stashBytes ≤
        raw + layout.request := by
  have hraw : raw % payloadAlign = 0 := (hf.inside hl).1.aligned
  obtain ⟨h₁, -⟩ := Layout.place_slide hraw ha
  have h₂ : layout.place raw + layout.size ≤ raw + layout.request :=
    (Layout.place_bounds hraw).2
  simp only [KernelMemory.stashBytes, unitBytes] at *
  omega

theorem stash (hf : s.Follows h p) (hl : ⟨raw, layout.request⟩ ∈ s.live) :
    ∃ h', (Session.mk (s.memory.stash layout raw) s.live).Follows h' p ∧
      h'.arena.base = h.arena.base := by
  unfold KernelMemory.stash
  split
  · exact ⟨h, hf, rfl⟩
  · obtain ⟨h₁, h₂⟩ := hf.stash_bounds hl (Nat.not_le.mp ‹_›)
    refine hf.setBytes hl h₁ ?_
    rwa [KernelMemory.length_bytesOf]

theorem byteAt_stash (hf : s.Follows h p) (hl : ⟨raw, layout.request⟩ ∈ s.live)
    (ho : other ∈ s.live) (hne : other.addr ≠ raw) (hk : k < other.bytes) :
    (s.memory.stash layout raw).byteAt (other.addr + k) = s.memory.byteAt (other.addr + k) := by
  unfold KernelMemory.stash
  split
  · rfl
  · obtain ⟨h₁, h₂⟩ := hf.stash_bounds hl (Nat.not_le.mp ‹_›)
    refine hf.byteAt_setBytes hl ho hne h₁ ?_ hk
    rwa [KernelMemory.length_bytesOf]

theorem numberAt_stash (hf : s.Follows h p) (hl : ⟨raw, layout.request⟩ ∈ s.live)
    (ha : payloadAlign < layout.align) :
    (s.memory.stash layout raw).numberAt (layout.place raw - KernelMemory.stashBytes)
      KernelMemory.stashBytes = raw := by
  obtain ⟨h₁, h₂⟩ := hf.stash_bounds hl ha
  have hlt : raw < 256 ^ KernelMemory.stashBytes := by
    have hin := (hf.inside hl).1.before
    have hend := h.arena.end_le
    change _ + 8 * h.arena.len ≤ _ at hend
    simp only [KernelMemory.stashBytes, sentinelUnits, unitBytes] at *
    omega
  rw [KernelMemory.stash, if_neg (Nat.not_le.mpr ha),
    KernelMemory.numberAt_setNumberAt hf.heap fun k hk => ?_, Nat.mod_eq_of_lt hlt]
  obtain ⟨j, hj⟩ := Nat.exists_eq_add_of_le h₁
  rw [hj, Nat.add_assoc]
  refine hf.contains hl (k := j + k) ?_
  change j + k < layout.request
  omega

end Session.Follows

end BareKernel
