import BareKernel.Proofs.Heap.Plan

/-! What the steps of a plan do to its blocks. Both keep a plan valid: a block that is handed out
leaves the rest of the free block behind it, and one that is given back takes in its free
neighbours, so that no two free blocks meet. Neither changes any other block that is handed out. -/

namespace BareKernel.Heap.Plan

variable {p : Plan} {len units i : Nat} {pre post : List Extent} {e f l r : Extent}

/-! ## Taking -/

theorem take_blocks (hv : p.Valid len) (hb : p.blocks = pre ++ e :: post) (units : Nat) :
    (p.take e.start units).blocks = pre ++ e.cut units ++ post := by
  have hother : ∀ bs : List Extent, (∀ f ∈ bs, f.start ≠ e.start) →
      (bs.flatMap fun f => if f.start = e.start then f.cut units else [f]) = bs := by
    intro bs hbs
    induction bs with
    | nil => rfl
    | cons f bs ih =>
      rw [List.flatMap_cons, if_neg (hbs f (by simp)), ih fun g hg => hbs g (by simp [hg])]
      rfl
  have hne := hv.start_ne hb
  rw [take, hb]
  simp only [List.flatMap_append, List.flatMap_cons, if_true]
  rw [hother pre fun f hf => hne f (by simp [hf]), hother post fun f hf => hne f (by simp [hf])]
  simp

theorem mem_take (hv : p.Valid len) (he : e ∈ p.blocks) (units : Nat) :
    f ∈ (p.take e.start units).blocks ↔ f ∈ e.cut units ∨ f ∈ p.blocks ∧ f ≠ e := by
  obtain ⟨pre, post, hb⟩ := List.append_of_mem he
  have hne : ∀ g ∈ pre ++ post, g ≠ e := fun g hg h => hv.start_ne hb g hg (h ▸ rfl)
  rw [take_blocks hv hb units, hb]
  simp only [List.mem_append, List.mem_cons] at hne ⊢
  constructor
  · rintro ((h | h) | h)
    · exact .inr ⟨.inl h, hne f (.inl h)⟩
    · exact .inl h
    · exact .inr ⟨.inr (.inr h), hne f (.inr h)⟩
  · tauto

theorem tiles_cut (hu : units ≤ e.size) : Tiles e.start (e.cut units) e.stop := by
  unfold Extent.cut
  split
  · exact ⟨rfl, rfl, by simp [Extent.stop, Tiles]; omega⟩
  · exact ⟨rfl, rfl⟩

theorem tiles_take (hv : p.Valid len) (he : e ∈ p.blocks) (hu : units ≤ e.size) :
    Tiles 0 (p.take e.start units).blocks len := by
  obtain ⟨pre, post, hb⟩ := List.append_of_mem he
  have ht := hv.tiles
  rw [hb] at ht
  obtain ⟨c, hpre, rfl, hpost⟩ := tiles_append.mp ht
  rw [take_blocks hv hb units]
  exact tiles_append.mpr ⟨_, tiles_append.mpr ⟨_, hpre, tiles_cut hu⟩, hpost⟩

/-- The rest of a free block meets what the block met: nothing free. -/
theorem coalesced_take (hv : p.Valid len) (he : e ∈ p.blocks) (hf : e.free = true) :
    (p.take e.start units).blocks.IsChain fun a b => ¬(a.free = true ∧ b.free = true) := by
  obtain ⟨pre, post, hb⟩ := List.append_of_mem he
  have hc := hv.coalesced
  rw [hb, List.isChain_append, List.isChain_cons] at hc
  obtain ⟨hpre, ⟨hnext, hpost⟩, -⟩ := hc
  rw [take_blocks hv hb units]
  unfold Extent.cut
  split <;> simp only [List.append_assoc, List.cons_append, List.nil_append,
    List.isChain_append, List.isChain_cons, List.head?_cons, Option.mem_some_iff] <;> grind

/-- What is left of a block starts where no block did. -/
theorem rest_notMem (hv : p.Valid len) (he : e ∈ p.blocks) (h₄ : minBlockUnits ≤ units)
    (hx : 4 ≤ e.size - units) : e.start + units ∉ p.avail := by
  intro hm
  obtain ⟨f, hf, -, hs⟩ := (hv.mem_avail _).mp hm
  have hpos := hv.sentinelUnits_le hf
  rcases hv.apart he hf with rfl | h | h <;>
    simp only [Extent.stop, minBlockUnits, sentinelUnits] at * <;> omega

theorem free_mem_cut : f ∈ e.cut units ∧ f.free = true ↔
    4 ≤ e.size - units ∧ f = ⟨e.start + units, e.size - units, true⟩ := by
  unfold Extent.cut
  split
  · simp only [List.mem_cons, List.not_mem_nil, or_false]
    grind
  · simp only [List.mem_singleton]
    grind

theorem taken_mem_cut : f ∈ e.cut units ∧ f.free = false ↔ f = e.served units := by
  unfold Extent.cut Extent.served
  split
  · simp only [List.mem_cons, List.not_mem_nil, or_false]
    grind
  · simp only [List.mem_singleton]
    grind

theorem mem_avail_take (hv : p.Valid len) (he : e ∈ p.blocks) :
    i ∈ (p.take e.start units).avail ↔
      ∃ f ∈ (p.take e.start units).blocks, f.free = true ∧ f.start = i := by
  have hold := hv.mem_erase (i := i) he
  have hnew : ∀ x, x ∈ (p.take e.start units).avail ↔
      4 ≤ e.size - units ∧ x = e.start + units ∨ x ∈ p.avail.erase e.start := by
    intro x
    rw [Plan.take, hv.sizeAt_eq he]
    split <;> simp [*]
  rw [hnew, hold]
  constructor
  · rintro (⟨hx, rfl⟩ | ⟨f, hf, hfe, hff, rfl⟩)
    · obtain ⟨hc, hff⟩ := free_mem_cut.mpr ⟨hx, rfl⟩
      exact ⟨_, (mem_take hv he units).mpr (.inl hc), hff, rfl⟩
    · exact ⟨f, (mem_take hv he units).mpr (.inr ⟨hf, hfe⟩), hff, rfl⟩
  · rintro ⟨f, hf, hff, rfl⟩
    rcases (mem_take hv he units).mp hf with hc | ⟨hf, hfe⟩
    · obtain ⟨hx, rfl⟩ := free_mem_cut.mp ⟨hc, hff⟩
      exact .inl ⟨hx, rfl⟩
    · exact .inr ⟨f, hf, hfe, hff, rfl⟩

theorem minBlockUnits_le_of_mem_cut (hf : f ∈ e.cut units) (h₄ : minBlockUnits ≤ units)
    (hmin : minBlockUnits ≤ e.size) : minBlockUnits ≤ f.size := by
  unfold Extent.cut at hf
  split at hf <;> simp only [List.mem_cons, List.not_mem_nil, or_false] at hf
  · rcases hf with rfl | rfl <;> assumption
  · rw [hf]
    exact hmin

theorem Valid.take (hv : p.Valid len) (he : e ∈ p.blocks) (hf : e.free = true)
    (h₄ : minBlockUnits ≤ units) (hu : units ≤ e.size) : (p.take e.start units).Valid len where
  tiles := tiles_take hv he hu
  leading_mem := (mem_take hv he units).mpr
    (.inr ⟨hv.leading_mem, fun h => by simp [← h, Extent.leading] at hf⟩)
  trailing_mem := (mem_take hv he units).mpr
    (.inr ⟨hv.trailing_mem, fun h => by simp [← h, Extent.trailing] at hf⟩)
  inner := by
    intro f hfm
    rcases (mem_take hv he units).mp hfm with hc | ⟨hfb, -⟩
    · exact .inr (.inr (minBlockUnits_le_of_mem_cut hc h₄ (hv.minBlockUnits_le he hf)))
    · exact hv.inner f hfb
  coalesced := coalesced_take hv he hf
  nodup := by
    have hn := hv.nodup.erase e.start
    unfold Plan.take
    rw [hv.sizeAt_eq he]
    split
    · exact List.nodup_cons.mpr ⟨fun h => rest_notMem hv he h₄ ‹_› (List.mem_of_mem_erase h), hn⟩
    · exact hn
  mem_avail := fun _ => mem_avail_take hv he

/-! ## Giving back -/

/-- The blocks of a plan around one that is no sentinel. -/
structure Around (p : Plan) (pre : List Extent) (l e r : Extent) (post : List Extent) : Prop where
  blocks : p.blocks = pre ++ l :: e :: r :: post
  left : l.stop = e.start
  right : e.stop = r.start
  taken : e.free = false

theorem Valid.exists_around (hv : p.Valid len) (he : e ∈ p.blocks)
    (hs : minBlockUnits ≤ e.size) (ht : e.free = false) :
    ∃ pre l r post, p.Around pre l e r post := by
  obtain ⟨pre, l, r, post, hb⟩ := hv.around he hs
  have htiles := hv.tiles
  rw [hb] at htiles
  obtain ⟨c, -, rfl, he, hr, -⟩ := tiles_append.mp htiles
  exact ⟨pre, l, r, post, hb, he.symm, hr.symm, ht⟩

/-- The blocks before the left and after the right one are nobody's neighbours here. -/
theorem Around.neighbours_eq (ha : p.Around pre l e r post) (hv : p.Valid len) :
    p.neighbours e.start = [l, r].filter (·.free) := by
  have he : e ∈ p.blocks := by simp [ha.blocks]
  have hp := hv.tiles.pairwise
  rw [ha.blocks, List.pairwise_append] at hp
  obtain ⟨-, hrun, hpre⟩ := hp
  have hsize : ∀ f ∈ p.blocks, 0 < f.size := fun f hf =>
    Nat.lt_of_lt_of_le (by decide) (hv.sentinelUnits_le hf)
  have hl := hsize l (by simp [ha.blocks])
  have he₀ := hsize e he
  have hr := hsize r (by simp [ha.blocks])
  have h₁ := ha.left
  have h₂ := ha.right
  have hpre₀ : pre.filter (fun f => f.free && (f.stop = e.start || f.start = e.start + e.size))
      = [] := by
    refine List.filter_eq_nil_iff.mpr fun f hf => ?_
    have := hpre f hf l (by simp)
    simp only [Bool.and_eq_true, Bool.or_eq_true, decide_eq_true_eq]
    simp only [Extent.stop] at *
    omega
  have hpost₀ : post.filter (fun f => f.free && (f.stop = e.start || f.start = e.start + e.size))
      = [] := by
    refine List.filter_eq_nil_iff.mpr fun f hf => ?_
    simp only [List.pairwise_cons] at hrun
    have := hrun.2.2.1 f hf
    simp only [Bool.and_eq_true, Bool.or_eq_true, decide_eq_true_eq]
    simp only [Extent.stop] at *
    omega
  rw [neighbours, hv.sizeAt_eq he, ha.blocks, List.filter_append, hpre₀]
  simp only [List.filter_cons, hpost₀, List.nil_append, ha.taken, Bool.false_and, List.filter_nil,
    h₁, show r.start = e.start + e.size from h₂.symm, decide_true, Bool.true_or, Bool.or_true,
    Bool.and_true, Bool.false_eq_true, if_false]

theorem Around.merged_eq (ha : p.Around pre l e r post) (hv : p.Valid len) :
    p.merged e.start = ⟨if l.free then l.start else e.start,
      (if l.free then l.size else 0) + e.size + (if r.free then r.size else 0), true⟩ := by
  have he : e ∈ p.blocks := by simp [ha.blocks]
  have h₁ := ha.left
  have h₂ := ha.right
  unfold merged
  rw [ha.neighbours_eq hv, hv.sizeAt_eq he]
  simp only [Extent.stop] at h₁ h₂
  cases hl : l.free <;> cases hr : r.free <;> simp [hl, hr, Extent.mk.injEq] <;> omega

theorem Around.release_blocks (ha : p.Around pre l e r post) (hv : p.Valid len) :
    (p.release e.start).blocks =
      pre ++ [l].filter (!·.free) ++ p.merged e.start :: ([r].filter (!·.free) ++ post) := by
  have hn := hv.starts_nodup
  rw [ha.blocks] at hn
  simp only [List.map_append, List.map_cons, List.nodup_append, List.nodup_cons, List.mem_cons,
    List.mem_map, not_or, not_exists, not_and] at hn
  obtain ⟨-, ⟨⟨hle, hlr, hlpost⟩, ⟨her, hepost⟩, hrpost, -⟩, hpre⟩ := hn
  -- the blocks at either side stay as they are
  have hsame : ∀ bs : List Extent, (∀ f ∈ bs, f.start ≠ l.start ∧ f.start ≠ e.start ∧
      f.start ≠ r.start) → ((bs.filter (· ∉ [l, r].filter (·.free))).map fun f =>
        if f.start = e.start then p.merged e.start else f) = bs := by
    intro bs hbs
    have hkeep : bs.filter (· ∉ [l, r].filter (·.free)) = bs := by
      refine List.filter_eq_self.mpr fun f hf => ?_
      obtain ⟨h₁, -, h₃⟩ := hbs f hf
      have : f ≠ l ∧ f ≠ r := ⟨fun h => h₁ (h ▸ rfl), fun h => h₃ (h ▸ rfl)⟩
      simp [List.mem_filter, this]
    rw [hkeep]
    exact (List.map_congr_left fun f hf => if_neg (hbs f hf).2.1).trans (List.map_id' bs)
  have hpre₀ := hsame pre fun f hf =>
    ⟨hpre _ ⟨f, hf, rfl⟩ _ (.inl rfl), hpre _ ⟨f, hf, rfl⟩ _ (.inr (.inl rfl)),
      hpre _ ⟨f, hf, rfl⟩ _ (.inr (.inr (.inl rfl)))⟩
  have hpost₀ := hsame post fun f hf => ⟨hlpost f hf, hepost f hf, hrpost f hf⟩
  have hmem : ∀ f, (f ∈ [l, r].filter (·.free)) ↔ (f = l ∨ f = r) ∧ f.free = true := by
    simp [List.mem_filter]
  have hl : decide (l ∉ [l, r].filter (·.free)) = !l.free := by simp [hmem]
  have he : decide (e ∉ [l, r].filter (·.free)) = true := by simp [hmem, ha.taken]
  have hr : decide (r ∉ [l, r].filter (·.free)) = !r.free := by simp [hmem]
  rw [release, ha.neighbours_eq hv, ha.blocks, List.filter_append, List.map_append, hpre₀]
  rw [List.filter_cons, hl, List.filter_cons, he, List.filter_cons, hr]
  generalize [l, r].filter (·.free) = gone at *
  cases hlf : l.free <;> cases hrf : r.free <;> simpa [hlf, hrf, hle, Ne.symm her] using hpost₀

theorem Around.mem_blocks (ha : p.Around pre l e r post) :
    f ∈ p.blocks ↔ f ∈ pre ∨ f = l ∨ f = e ∨ f = r ∨ f ∈ post := by
  simp [ha.blocks]

theorem Around.mem_release (ha : p.Around pre l e r post) (hv : p.Valid len) :
    f ∈ (p.release e.start).blocks ↔
      f = p.merged e.start ∨ f ∈ p.blocks ∧ f ≠ e ∧ f ∉ [l, r].filter (·.free) := by
  have hn := List.Nodup.of_map _ hv.starts_nodup
  rw [ha.blocks] at hn
  simp only [List.nodup_append, List.nodup_cons, List.mem_cons, not_or] at hn
  obtain ⟨-, ⟨⟨hle, hlr, hlpost⟩, ⟨her, hepost⟩, hrpost, -⟩, hpre⟩ := hn
  rw [ha.release_blocks hv, ha.mem_blocks]
  simp only [List.mem_append, List.mem_cons, List.mem_filter, List.not_mem_nil, or_false]
  grind

theorem Around.tiles_release (ha : p.Around pre l e r post) (hv : p.Valid len) :
    Tiles 0 (p.release e.start).blocks len := by
  have ht := hv.tiles
  rw [ha.blocks] at ht
  obtain ⟨c, hpre, rfl, -, -, hpost⟩ := tiles_append.mp ht
  have h₁ := ha.left
  have h₂ := ha.right
  rw [ha.release_blocks hv, ha.merged_eq hv, List.append_assoc]
  refine tiles_append.mpr ⟨_, hpre, ?_⟩
  simp only [Extent.stop] at h₁ h₂ hpost
  cases hlf : l.free <;> cases hrf : r.free <;>
    simp only [Tiles, Extent.stop, List.filter_cons, List.filter_nil, hlf, hrf, Bool.not_true,
      Bool.not_false, Bool.false_eq_true, if_true, if_false, List.nil_append, List.cons_append,
      Nat.zero_add, Nat.add_zero, true_and]
  · exact ⟨h₁.symm, h₂.symm, hpost⟩
  · exact ⟨h₁.symm, by rwa [← Nat.add_assoc, h₂]⟩
  · exact ⟨by omega, hpost⟩
  · rwa [show l.start + (l.size + e.size + r.size) = r.start + r.size by omega]

/-- The block that comes of a release has no free neighbour, for it took them in. -/
theorem Around.coalesced_release (ha : p.Around pre l e r post) (hv : p.Valid len) :
    (p.release e.start).blocks.IsChain fun a b => ¬(a.free = true ∧ b.free = true) := by
  have hc := hv.coalesced
  have hm : (p.merged e.start).free = true := rfl
  rw [ha.blocks] at hc
  rw [ha.release_blocks hv]
  cases hl : l.free <;> cases hr : r.free <;>
    simp [List.isChain_append, List.isChain_cons, hl, hr, hm, ha.taken] at hc ⊢ <;> tauto

theorem Around.mem_avail_diff (ha : p.Around pre l e r post) (hv : p.Valid len) :
    i ∈ p.avail.diff ((p.neighbours e.start).map (·.start)) ↔
      ∃ f ∈ p.blocks, f.free = true ∧ f ∉ [l, r].filter (·.free) ∧ f.start = i := by
  rw [hv.nodup.mem_sdiff_iff, hv.mem_avail, ha.neighbours_eq hv]
  constructor
  · rintro ⟨⟨f, hf, hff, rfl⟩, hn⟩
    exact ⟨f, hf, hff, fun h => hn (List.mem_map_of_mem h), rfl⟩
  · rintro ⟨f, hf, hff, hn, rfl⟩
    refine ⟨⟨f, hf, hff, rfl⟩, fun h => hn ?_⟩
    obtain ⟨g, hg, hs⟩ := List.mem_map.mp h
    have hgb : g ∈ p.blocks := by
      rw [ha.mem_blocks]
      have := (List.mem_filter.mp hg).1
      simp only [List.mem_cons, List.not_mem_nil, or_false] at this
      tauto
    exact hv.eq_of_start hgb hf hs ▸ hg

/-- No other free block starts where the merged one does. -/
theorem Around.merged_start_notMem (ha : p.Around pre l e r post) (hv : p.Valid len) :
    (p.merged e.start).start ∉ p.avail.diff ((p.neighbours e.start).map (·.start)) := by
  rw [ha.mem_avail_diff hv]
  rintro ⟨f, hf, hff, hn, hs⟩
  rw [ha.merged_eq hv] at hs
  by_cases hl : l.free = true
  · simp only [hl, if_true] at hs
    obtain rfl := hv.eq_of_start hf (ha.mem_blocks.mpr (by simp)) hs
    exact hn (by simp [hl])
  · simp only [hl] at hs
    obtain rfl := hv.eq_of_start hf (ha.mem_blocks.mpr (by simp)) hs
    exact absurd hff (by simp [ha.taken])

/-- The merged block lies where the block and its free neighbours were, so the others are away
from it. -/
theorem Around.away_merged (ha : p.Around pre l e r post) (hv : p.Valid len)
    (hf : f ∈ p.blocks) (hg : f ∉ e :: p.neighbours e.start) :
    f.stop ≤ (p.merged e.start).start ∨ (p.merged e.start).stop ≤ f.start := by
  rw [ha.neighbours_eq hv] at hg
  have hfe : f ≠ e := fun h => hg (by simp [h])
  have hfl : l.free = true → f ≠ l := fun hl h => hg (by simp [h, hl])
  have hfr : r.free = true → f ≠ r := fun hr h => hg (by simp [h, hr])
  have he := (hv.apart hf (ha.mem_blocks.mpr (by simp))).resolve_left hfe
  have hl := fun h => (hv.apart hf (ha.mem_blocks.mpr (by simp))).resolve_left (hfl h)
  have hr := fun h => (hv.apart hf (ha.mem_blocks.mpr (by simp))).resolve_left (hfr h)
  have hleft := ha.left
  have hright := ha.right
  have hpos := hv.sentinelUnits_le hf
  rw [ha.merged_eq hv]
  simp only [Extent.stop, sentinelUnits] at *
  cases hlf : l.free <;> cases hrf : r.free <;>
    simp only [hlf, hrf, if_true, Bool.false_eq_true, if_false, forall_const] at hl hr ⊢ <;> omega

theorem Valid.release (hv : p.Valid len) (he : e ∈ p.blocks) (hs : minBlockUnits ≤ e.size)
    (ht : e.free = false) : (p.release e.start).Valid len := by
  obtain ⟨pre, l, r, post, ha⟩ := hv.exists_around he hs ht
  have hne := Extent.not_sentinel hs len
  have hkeep : ∀ f ∈ p.blocks, f.free = false → f ≠ e → f ∈ (p.release e.start).blocks :=
    fun f hf hff hfe => (ha.mem_release hv).mpr (.inr ⟨hf, hfe, by simp [List.mem_filter, hff]⟩)
  refine ⟨ha.tiles_release hv, hkeep _ hv.leading_mem rfl hne.1.symm,
    hkeep _ hv.trailing_mem rfl hne.2.symm, fun f hf => ?_, ha.coalesced_release hv,
    List.nodup_cons.mpr ⟨ha.merged_start_notMem hv, hv.nodup.diff⟩, fun i => ?_⟩
  · rcases (ha.mem_release hv).mp hf with rfl | ⟨hf, -⟩
    · refine .inr (.inr ?_)
      rw [ha.merged_eq hv]
      exact Nat.le_trans (Nat.le_trans hs (Nat.le_add_left _ _)) (Nat.le_add_right _ _)
    · exact hv.inner f hf
  · change i ∈ _ :: _ ↔ _
    rw [List.mem_cons, ha.mem_avail_diff hv]
    constructor
    · rintro (rfl | ⟨f, hf, hff, hn, rfl⟩)
      · exact ⟨_, (ha.mem_release hv).mpr (.inl rfl), rfl, rfl⟩
      · refine ⟨f, (ha.mem_release hv).mpr (.inr ⟨hf, ?_, hn⟩), hff, rfl⟩
        rintro rfl
        simp [ht] at hff
    · rintro ⟨f, hf, hff, rfl⟩
      rcases (ha.mem_release hv).mp hf with rfl | ⟨hf, -, hn⟩
      · exact .inl rfl
      · exact .inr ⟨f, hf, hff, hn, rfl⟩

/-! ## Blocks that are handed out -/

/-- A taken block that is no sentinel. -/
def Lent (p : Plan) (e : Extent) : Prop :=
  e ∈ p.blocks ∧ e.free = false ∧ minBlockUnits ≤ e.size

theorem lent_take (hv : p.Valid len) (he : e ∈ p.blocks) (hf : e.free = true)
    (hu : minBlockUnits ≤ units) :
    (p.take e.start units).Lent f ↔ p.Lent f ∨ f = e.served units := by
  rw [Lent, Lent, mem_take hv he]
  constructor
  · rintro ⟨h | ⟨h, -⟩, hff, hs⟩
    · exact .inr (taken_mem_cut.mp ⟨h, hff⟩)
    · exact .inl ⟨h, hff, hs⟩
  · rintro (⟨h, hff, hs⟩ | rfl)
    · exact ⟨.inr ⟨h, fun hfe => by simp [hfe, hf] at hff⟩, hff, hs⟩
    · obtain ⟨hc, hff⟩ := taken_mem_cut.mpr rfl
      exact ⟨.inl hc, hff, minBlockUnits_le_of_mem_cut hc hu (hv.minBlockUnits_le he hf)⟩

theorem lent_release (hv : p.Valid len) (he : p.Lent e) :
    (p.release e.start).Lent f ↔ p.Lent f ∧ f ≠ e := by
  obtain ⟨pre, l, r, post, ha⟩ := hv.exists_around he.1 he.2.2 he.2.1
  rw [Lent, Lent, ha.mem_release hv]
  constructor
  · rintro ⟨rfl | ⟨h, hfe, -⟩, hff, hs⟩
    · cases hff
    · exact ⟨⟨h, hff, hs⟩, hfe⟩
  · rintro ⟨⟨h, hff, hs⟩, hfe⟩
    exact ⟨.inr ⟨h, hfe, by simp [List.mem_filter, hff]⟩, hff, hs⟩

/-- With nothing handed out, everything between the sentinels is one free block. -/
theorem Valid.eq_initial (hv : p.Valid len) (hl : minArenaUnits ≤ len) (hn : ∀ e, ¬p.Lent e) :
    p = .initial len := by
  obtain ⟨inner, hb, hsize⟩ := hv.exists_inner hl
  have hfree : ∀ e ∈ inner, e.free = true := by
    intro e he
    by_contra hf
    exact hn e ⟨by simp [hb, he], Bool.not_eq_true _ ▸ hf, hsize e he⟩
  have htiles := hv.tiles
  have hchain := hv.coalesced
  rw [hb] at htiles hchain
  simp only [minArenaUnits, minBlockUnits, sentinelUnits] at hl
  rcases inner with _ | ⟨e, _ | ⟨f, rest⟩⟩
  · obtain ⟨-, h₁, -⟩ := htiles
    simp only [Extent.trailing, Extent.leading, Extent.stop, sentinelUnits] at h₁
    omega
  · obtain ⟨-, h₁, h₂, -⟩ := htiles
    have hf := hfree e (by simp)
    have he : e = ⟨sentinelUnits, len - 2 * sentinelUnits, true⟩ := by
      obtain ⟨start, size, free⟩ := e
      simp only [Extent.trailing, Extent.leading, Extent.stop, sentinelUnits] at h₁ h₂ hf
      simp only [Extent.mk.injEq, sentinelUnits]
      exact ⟨h₁, by omega, hf⟩
    have havail : ∀ i, i ∈ p.avail ↔ i ∈ [sentinelUnits] := by
      intro i
      rw [hv.mem_avail, hb, he]
      simp [Extent.leading, Extent.trailing, eq_comm (a := i)]
    have hone : p.avail = [sentinelUnits] :=
      List.perm_singleton.mp ((List.perm_ext_iff_of_nodup hv.nodup (by simp)).mpr havail)
    calc p = ⟨p.blocks, p.avail⟩ := rfl
      _ = .initial len := by rw [hb, he, hone]; rfl
  · have hne := (List.isChain_cons_cons.mp (List.isChain_cons_cons.mp hchain).2).1
    exact absurd ⟨hfree e (by simp), hfree f (by simp)⟩ hne

/-- A request gets nothing when it is empty, too large for any heap, or larger than each of the
free blocks that are looked at. -/
theorem allocate_eq_none {bytes : Nat} : (p.allocate bytes).1 = none ↔
    bytes = 0 ∨ 2 ^ 60 ≤ unitsNeeded bytes ∨
      ∀ i ∈ p.avail.take 20, p.sizeAt i < unitsNeeded bytes := by
  rw [← or_assoc, ← bestFit_eq_none]
  unfold allocate
  split
  · rename_i hbad
    exact ⟨fun _ => .inl hbad, fun _ => rfl⟩
  · rename_i hbad
    cases p.bestFit (unitsNeeded bytes) with
    | none => exact ⟨fun _ => .inr rfl, fun _ => rfl⟩
    | some i => exact ⟨nofun, fun h => absurd (h.resolve_right nofun) hbad⟩

theorem allocate_cases (hv : p.Valid len) (bytes : Nat) :
    p.allocate bytes = (none, p) ∨
      ∃ e ∈ p.blocks, ∃ units, e.free = true ∧ bytes ≠ 0 ∧ unitsFor bytes = some units ∧
        p.bestFit units = some e.start ∧ units ≤ e.size ∧
        p.allocate bytes = (some e.start, p.take e.start units) := by
  by_cases hbad : bytes = 0 ∨ 2 ^ 60 ≤ unitsNeeded bytes
  · exact .inl (if_pos hbad)
  obtain ⟨h₀, hsmall⟩ := not_or.mp hbad
  cases hb : p.bestFit (unitsNeeded bytes) with
  | none => exact .inl (by rw [allocate, if_neg hbad, hb])
  | some i =>
    obtain ⟨hm, hle⟩ := mem_of_bestFit hb
    obtain ⟨e, he, hf, rfl⟩ := (hv.mem_avail i).mp (List.mem_of_mem_take hm)
    refine .inr ⟨e, he, _, hf, h₀, unitsFor_eq_some.mpr ⟨hsmall, rfl⟩, hb, hv.sizeAt_eq he ▸ hle, ?_⟩
    rw [allocate, if_neg hbad, hb]

end BareKernel.Heap.Plan
