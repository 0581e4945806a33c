import BareKernel.Heap.Basic
import BareKernel.Proofs.Heap.Midway

/-! From one plan to the next. Handing out a block, taking one back and laying out the arena end
with a heap that represents the plan that follows, with the checks on or off, and no block is
written to but those that the step is about. -/

namespace BareKernel.Heap

open Heap.Action (Returns)

variable {h h' : Heap} {p : Plan} {e f l r : Extent} {gone : List Extent} {chain : List Nat}
  {i n units : Nat} {checks : Bool}

/-! ## Handing out a block -/

theorem Represents.of_take (hr : h.Represents p) (he : e ∈ p.blocks) (hf : e.free = true)
    (hu : minBlockUnits ≤ units) (hle : units ≤ e.size) (hlen : h'.arena.len = h.arena.len)
    (hk : h.Keeps h' p [e]) (ht : ∀ f ∈ e.cut units, h'.Tagged f)
    (hl : h'.Linked (p.take e.start units).avail) : h'.Represents (p.take e.start units) := by
  refine ⟨hlen ▸ hr.valid.take he hf hu hle, fun f hfm => ?_, hl⟩
  rcases (Plan.mem_take hr.valid he units).mp hfm with hfc | ⟨hfb, hfe⟩
  · exact ht f hfc
  · exact hk.tagged hr hlen hfb (by simpa using hfe)

theorem Represents.takeFit_none (hr : h.Represents p) (hb : p.bestFit units = none)
    (checks : Bool) :
    (takeFit checks h.arena.len units).Returns h none h := by
  have hs := hr.bestFit_returns checks units
  rw [hb] at hs
  exact .bind hs (.pure none h)

/-- A block off the list whose front is marked taken, with the rest back in front of the list. -/
theorem Midway.split (hm : Midway h h' p [] (p.avail.erase e.start)) (hr : h.Represents p)
    (he : e ∈ p.blocks) (hf : e.free = true) (hu : minBlockUnits ≤ units)
    (hx : minBlockUnits ≤ e.size - units) :
    ∃ h₁ h₂, (Block.markTaken ⟨e.start⟩ units).Returns h' () h₁ ∧
      (FreeList.push (e.start + units) (e.size - units)).Returns h₁ () h₂ ∧
      h₂.outline = h.outline ∧ h₂.Represents (p.take e.start units) ∧ h.Keeps h₂ p [e] := by
  have hin := (hr.tagged e he).size_le
  have hu₄ : 4 ≤ units := hu
  have hx₄ : 4 ≤ e.size - units := hx
  have hn : e.start ∉ p.avail.erase e.start := hr.valid.nodup.not_mem_erase
  have hm₁ := hm.setTags hr he hn (takenTag units) (n := units) (by omega) (Nat.le_refl _)
    (by simp only [Extent.stop]; omega)
  have hret := Block.writeTags_returns (h := h') (b := ⟨e.start⟩) (takenTag units) (n := units)
    (by omega) (by rw [hm.len]; change e.start + units ≤ _; omega)
  have ha : ∀ f ∈ p.blocks, f ∉ [e] →
      f.stop ≤ e.start + units ∨ e.start + units + (e.size - units) ≤ f.start := by
    intro f hfb hfe
    have := (hr.valid.apart hfb he).resolve_left (by simpa using hfe)
    simp only [Extent.stop] at *
    omega
  obtain ⟨hpush, hk, ht, hl⟩ := hm₁.push hr hx (by omega) (by omega) ha (by simpa using hn)
  set h₁ := h'.setTags e.start (takenTag units) units
  have hlen : h₁.arena.len = h.arena.len := hm₁.len
  have ho : (h₁.pushed (e.start + units) (e.size - units)).outline = h.outline := by
    rw [outline_pushed, hm₁.outline]
  -- the tags of the front are neither in the new block nor links of a node
  have hfront : ∀ j, e.start ≤ j → j < e.start + units →
      (h₁.pushed (e.start + units) (e.size - units)).unit j = h₁.unit j := by
    intro j hj₁ hj₂
    refine unit_pushed (by omega) (by omega) (by omega) (by omega) fun h₀ => ?_
    obtain ⟨f, hfb, hfs, hf₄, hfa⟩ := hm₁.not_link hr he hn (hm₁.head_mem.resolve_left h₀)
    simp only [Extent.stop, minBlockUnits] at hfa hf₄
    omega
  refine ⟨h₁, _, hret, hpush, ho, ?_, hk⟩
  refine hr.of_take he hf hu (by omega) (by rw [len_pushed, hlen]) hk (fun f hfc => ?_) ?_
  · simp only [Extent.cut, hx₄, if_true, List.mem_cons, List.not_mem_nil, or_false] at hfc
    rcases hfc with rfl | rfl
    · have htag : h₁.Tagged ⟨e.start, units, false⟩ :=
        tagged_setTags (e := ⟨e.start, units, false⟩) (Nat.le_trans (by decide) hu)
          (by simp only [Extent.stop, hm.len]; omega)
      exact htag.congr (len_pushed _ _ _) (hfront _ (Nat.le_refl _) (by simp only; omega))
        (hfront _ (by simp only [Extent.stop]; omega) (by simp only [Extent.stop]; omega))
    · exact ht
  · rw [Plan.take, hr.valid.sizeAt_eq he]
    simpa only [hx₄, if_true] using hl

/-- A block off the list that is marked taken as it is. -/
theorem Midway.whole (hm : Midway h h' p [] (p.avail.erase e.start)) (hr : h.Represents p)
    (he : e ∈ p.blocks) (hf : e.free = true) (hu : minBlockUnits ≤ units) (hle : units ≤ e.size)
    (hx : ¬minBlockUnits ≤ e.size - units) :
    ∃ h₁, (Block.markTaken ⟨e.start⟩ e.size).Returns h' () h₁ ∧ h₁.outline = h.outline ∧
      h₁.Represents (p.take e.start units) ∧ h.Keeps h₁ p [e] := by
  have hx₄ : ¬4 ≤ e.size - units := hx
  have hin := (hr.tagged e he).size_le
  have hpos := (hr.tagged e he).pos
  have hn : e.start ∉ p.avail.erase e.start := hr.valid.nodup.not_mem_erase
  have hm₁ := hm.setTags hr he hn (takenTag e.size) hpos (Nat.le_refl _) (Nat.le_refl _)
  have hret := Block.writeTags_returns (h := h') (b := ⟨e.start⟩) (takenTag e.size)
    (hr.tagged e he).size (by rw [hm.len]; exact hin)
  refine ⟨_, hret, hm₁.outline, ?_, hm₁.keeps⟩
  refine hr.of_take he hf hu hle hm₁.len hm₁.keeps (fun f hfc => ?_) ?_
  · simp only [Extent.cut, hx₄, if_false, List.mem_singleton] at hfc
    subst hfc
    exact tagged_setTags (e := ⟨e.start, e.size, false⟩) (hr.tagged e he).size
      (by rw [hm.len]; exact hin)
  · rw [Plan.take, hr.valid.sizeAt_eq he]
    simpa only [hx₄, if_false] using hm₁.links

/-- The best fit leaves the list, its front is marked taken, and what is left of it, if that is
enough for a block, comes back as one. -/
theorem Represents.takeFit_some (hr : h.Represents p) (hu : minBlockUnits ≤ units)
    (he : e ∈ p.blocks) (hb : p.bestFit units = some e.start) :
    ∃ h', (∀ checks, (takeFit checks h.arena.len units).Returns h (some e.start) h') ∧
      h'.outline = (h.arena.base, h.arena.len, h.allocations + 1, h.frees) ∧
      h'.Represents (p.take e.start units) ∧ h.Keeps h' p [e] := by
  obtain ⟨hmem, hfit⟩ := Plan.mem_of_bestFit hb
  have hav := List.mem_of_mem_take hmem
  rw [hr.valid.sizeAt_eq he] at hfit
  have hf : e.free = true := by
    obtain ⟨f, hfm, hff, hs, -⟩ := hr.valid.exists_of_avail hav
    rwa [← hr.valid.eq_of_start hfm he hs]
  have hin := (hr.tagged e he).size_le
  have hlt := h.arena.len_lt
  have hbest : ∀ checks, (FreeList.bestFit checks h.arena.len units).Returns h (some e.start) h :=
    fun checks => hb ▸ hr.bestFit_returns checks units
  have hsize := (hr.tagged e he).size_returns
  obtain ⟨hret, hm⟩ := (Midway.refl hr).unlink hr hav
  by_cases hx : minBlockUnits ≤ e.size - units
  · obtain ⟨h₁, h₂, hret₁, hret₂, ho, hr₂, hk⟩ := hm.split hr he hf hu hx
    refine ⟨{ h₂ with allocations := h₂.allocations + 1 }, fun checks => ?_, ?_, hr₂.count _ _, hk⟩
    · refine .bind (hbest checks) (.bind hsize (.bind hret ?_))
      simp only [hx, if_true]
      exact .bind hret₁ (.bind (.plus (by omega)) (.bind hret₂ (.countAllocation _ _)))
    · simp only [outline, Prod.mk.injEq] at ho ⊢
      exact ⟨ho.1, ho.2.1, congrArg (· + 1) ho.2.2.1, ho.2.2.2⟩
  · obtain ⟨h₁, hret₁, ho, hr₁, hk⟩ := hm.whole hr he hf hu hfit hx
    refine ⟨{ h₁ with allocations := h₁.allocations + 1 }, fun checks => ?_, ?_, hr₁.count _ _, hk⟩
    · refine .bind (hbest checks) (.bind hsize (.bind hret ?_))
      simp only [hx, if_false]
      exact .bind hret₁ (.countAllocation _ _)
    · simp only [outline, Prod.mk.injEq] at ho ⊢
      exact ⟨ho.1, ho.2.1, congrArg (· + 1) ho.2.2.1, ho.2.2.2⟩

/-! ## Taking a block back -/

theorem indexOfPayload_payloadOf (base : Nat) {len : Nat} (h₀ : 0 < i)
    (hi : i + sentinelUnits < len) : indexOfPayload base len (payloadOf base i) = .ok i := by
  have hoff : payloadOf base i - base = (i + 1) * 8 := by
    simp only [payloadOf, unitBytes]
    omega
  simp only [sentinelUnits] at hi
  have hin : ¬(payloadOf base i ≤ base ∨ base + len * unitBytes ≤ payloadOf base i ∨
      (payloadOf base i - base) % unitBytes ≠ 0) := by
    rw [hoff]
    simp only [payloadOf, unitBytes]
    omega
  have hidx : (payloadOf base i - base) / unitBytes - 1 = i := by
    rw [hoff]
    simp only [unitBytes]
    omega
  rw [indexOfPayload, if_neg hin, hidx]
  exact if_neg (by simp only [sentinelUnits]; omega)

/-- A payload belongs to the block that it lies in. -/
theorem Plan.Valid.indexOfPayload_eq {len : Nat} (hv : p.Valid len) (he : e ∈ p.blocks)
    (hs : minBlockUnits ≤ e.size) (base : Nat) :
    indexOfPayload base len (payloadOf base e.start) = .ok e.start := by
  have hbetween := hv.between he hs
  simp only [sentinelUnits, minBlockUnits, Extent.stop] at *
  exact indexOfPayload_payloadOf _ (by omega) (by simp only [sentinelUnits]; omega)

theorem Represents.start_notMem (hr : h.Represents p) (he : e ∈ p.blocks) (ht : e.free = false) :
    e.start ∉ p.avail := by
  intro hm
  obtain ⟨f, hf, hff, hs, -⟩ := hr.valid.exists_of_avail hm
  obtain rfl := hr.valid.eq_of_start hf he hs
  simp [ht] at hff

variable {pre post : List Extent}

theorem Represents.absorbLeft_returns (hr : h.Represents p) (ha : p.Around pre l e r post) :
    ∃ h', (absorbLeft ⟨e.start⟩ ⟨l.start⟩ e.size).Returns h
        (if l.free then (l.start, e.size + l.size) else (e.start, e.size)) h' ∧
      Midway h h' p (if l.free then [e] else [])
        (p.avail.diff (([l].filter (·.free)).map (·.start))) := by
  have hl : l ∈ p.blocks := ha.mem_blocks.mpr (by simp)
  have he : e ∈ p.blocks := ha.mem_blocks.mpr (by simp)
  have hfree := (hr.tagged l hl).isFree_returns
  cases hlf : l.free with
  | false =>
    rw [hlf] at hfree
    refine ⟨h, .bind hfree (.pure _ h), ?_⟩
    simpa [hlf] using Midway.refl hr
  | true =>
    rw [hlf] at hfree
    have hav : l.start ∈ p.avail := (hr.valid.mem_avail _).mpr ⟨l, hl, hlf, rfl⟩
    obtain ⟨hret, hm⟩ := (Midway.refl hr).unlink hr hav
    obtain ⟨h₁, hret₁, hm₁⟩ := hm.scrub hr he (by simp) fun h =>
      hr.start_notMem he ha.taken (List.mem_of_mem_erase h)
    have hle : l ≠ e := fun h => by simp [h, ha.taken] at hlf
    have hsize := (hm₁.tagged hr hl (by simpa using hle)).size_returns
    have h₁ := (hr.tagged l hl).size_lt
    have h₂ := (hr.tagged e he).size_lt
    refine ⟨_, .bind hfree (.bind hret (.bind hret₁ (.bind hsize (.bind (.plus ?_) (.pure _ _))))),
      ?_⟩
    · omega
    · simpa [hlf, List.diff_cons] using hm₁

theorem Midway.absorbRight_returns (hm : Midway h h' p gone chain) (hr : h.Represents p)
    (hb : r ∈ p.blocks) (hg : r ∉ gone) (hc : r.free = true → r.start ∈ chain)
    (hn : n < 0x4000000000000000) :
    ∃ h₁, (absorbRight ⟨r.start⟩ n).Returns h' (n + if r.free then r.size else 0) h₁ ∧
      Midway h h₁ p (if r.free then r :: gone else gone)
        (chain.diff (([r].filter (·.free)).map (·.start))) := by
  have hfree := (hm.tagged hr hb hg).isFree_returns
  cases hrf : r.free with
  | false =>
    rw [hrf] at hfree
    refine ⟨h', .bind hfree (.pure _ h'), ?_⟩
    simpa [hrf] using hm
  | true =>
    rw [hrf] at hfree
    have hsize := (hm.tagged hr hb hg).size_returns
    obtain ⟨hret, hm₁⟩ := hm.unlink hr (hc hrf)
    obtain ⟨h₁, hret₁, hm₂⟩ := hm₁.scrub hr hb hg (hm.nodes hr).nodup.not_mem_erase
    have := (hr.tagged r hb).size_lt
    refine ⟨h₁, .bind hfree (.bind hsize (.bind hret (.bind hret₁ (.plus ?_)))), ?_⟩
    · omega
    · simpa [hrf, List.diff_cons] using hm₂

/-- Both neighbours together: those that are free leave the list and become part of the block. -/
theorem Represents.absorb_returns (hr : h.Represents p) (ha : p.Around pre l e r post) :
    ∃ n h₁ h₂ gone chain,
      (absorbLeft ⟨e.start⟩ ⟨l.start⟩ e.size).Returns h ((p.merged e.start).start, n) h₁ ∧
      (Midway h h₁ p gone chain ∧ r ∉ gone ∧ (r.free = true → r.start ∈ chain)) ∧
      (absorbRight ⟨r.start⟩ n).Returns h₁ (p.merged e.start).size h₂ ∧
      Midway h h₂ p (e :: p.neighbours e.start)
        (p.avail.diff ((p.neighbours e.start).map (·.start))) := by
  have hv := hr.valid
  have hl : l ∈ p.blocks := ha.mem_blocks.mpr (by simp)
  have he : e ∈ p.blocks := ha.mem_blocks.mpr (by simp)
  have hb : r ∈ p.blocks := ha.mem_blocks.mpr (by simp)
  have hel := (hr.tagged e he).size_lt
  have hll := (hr.tagged l hl).size_lt
  have hlr : l.start ≠ e.start ∧ r.start ≠ e.start ∧ r.start ≠ l.start := by
    have h₁ := ha.left
    have h₂ := ha.right
    have h₃ := (hr.tagged e he).pos
    have h₄ := (hr.tagged l hl).pos
    simp only [Extent.stop] at h₁ h₂
    omega
  have hav : r.free = true → r.start ∈ p.avail := fun h => (hv.mem_avail _).mpr ⟨r, hb, h, rfl⟩
  have hmerged := ha.merged_eq hv
  have hnodes := ha.neighbours_eq hv
  obtain ⟨h₁, hret₁, hm₁⟩ := hr.absorbLeft_returns ha
  cases hlf : l.free with
  | false =>
    simp only [hlf, Bool.false_eq_true, if_false, List.filter_cons, List.filter_nil, List.map_nil,
      List.diff_nil] at hret₁ hm₁ hmerged
    obtain ⟨h₂, hret₂, hm₂⟩ := hm₁.absorbRight_returns hr hb (by simp) hav
      (n := e.size) (by omega)
    refine ⟨e.size, h₁, h₂, _, _, by rwa [hmerged], ⟨hm₁, by simp, hav⟩,
      by rwa [hmerged, Nat.zero_add], ?_⟩
    rw [hnodes, List.filter_cons_of_neg (by simp [hlf])]
    exact hm₂.mono (by cases hrf : r.free <;> simp [hrf])
  | true =>
    simp only [hlf, if_true, List.filter_cons, List.filter_nil, List.map_cons, List.map_nil,
      List.diff_cons, List.diff_nil] at hret₁ hm₁ hmerged
    have hgone : r ∉ [e] := fun h => hlr.2.1 (congrArg Extent.start (List.mem_singleton.mp h))
    have hchain : r.free = true → r.start ∈ p.avail.erase l.start := fun h =>
      hv.nodup.mem_erase_iff.mpr ⟨hlr.2.2, hav h⟩
    obtain ⟨h₂, hret₂, hm₂⟩ := hm₁.absorbRight_returns hr hb (n := e.size + l.size) hgone hchain
      (by omega)
    refine ⟨e.size + l.size, h₁, h₂, _, _, by rwa [hmerged], ⟨hm₁, hgone, hchain⟩,
      by rwa [hmerged, Nat.add_comm l.size], ?_⟩
    rw [hnodes, List.filter_cons_of_pos (by simp [hlf]), List.map_cons, List.diff_cons]
    exact hm₂.mono (by cases hrf : r.free <;> simp [hrf])

theorem Represents.of_release (hr : h.Represents p) (he : e ∈ p.blocks)
    (hs : minBlockUnits ≤ e.size) (ht : e.free = false) (hlen : h'.arena.len = h.arena.len)
    (hk : h.Keeps h' p (e :: p.neighbours e.start)) (hm : h'.Tagged (p.merged e.start))
    (hl : h'.Linked (p.release e.start).avail) : h'.Represents (p.release e.start) := by
  refine ⟨hlen ▸ hr.valid.release he hs ht, fun f hf => ?_, hl⟩
  obtain ⟨pre, l, r, post, ha⟩ := hr.valid.exists_around he hs ht
  rcases (ha.mem_release hr.valid).mp hf with rfl | ⟨hf, hfe, hfn⟩
  · exact hm
  · refine hk.tagged hr hlen hf ?_
    rw [ha.neighbours_eq hr.valid]
    exact List.not_mem_cons_of_ne_of_not_mem hfe hfn

/-- The block and its free neighbours, off the list, become one free block in front of it. -/
theorem Midway.merge (hm : Midway h h' p (e :: p.neighbours e.start)
      (p.avail.diff ((p.neighbours e.start).map (·.start)))) (hr : h.Represents p)
    (ha : p.Around pre l e r post) (hs : minBlockUnits ≤ e.size) :
    ∃ h₁, (FreeList.push (p.merged e.start).start (p.merged e.start).size).Returns h' () h₁ ∧
      h₁.outline = h.outline ∧ h₁.Represents (p.release e.start) ∧
      h.Keeps h₁ p (e :: p.neighbours e.start) := by
  have hv := hr.valid
  have he : e ∈ p.blocks := ha.mem_blocks.mpr (by simp)
  have hvr := hv.release he hs ha.taken
  have hmr := (ha.mem_release hv).mpr (.inl rfl)
  have hsize := hvr.minBlockUnits_le hmr rfl
  have hchain : ∀ f ∈ e :: p.neighbours e.start,
      f.start ∉ p.avail.diff ((p.neighbours e.start).map (·.start)) := by
    intro f hf hmem
    rw [hv.nodup.mem_sdiff_iff] at hmem
    rcases List.mem_cons.mp hf with rfl | hf
    · exact hr.start_notMem he ha.taken hmem.1
    · exact hmem.2 (List.mem_map_of_mem hf)
  obtain ⟨hret, hk, ht, hl⟩ := hm.push hr hsize
    (Nat.lt_of_lt_of_le (by decide) (hvr.between hmr hsize).1)
    (hvr.tiles.bounds hmr).2 (fun f hf hfg => ha.away_merged hv hf hfg) hchain
  refine ⟨_, hret, ?_, hr.of_release he hs ha.taken ?_ hk ht hl, hk⟩
  · rw [outline_pushed, hm.outline]
  · rw [len_pushed, hm.len]

theorem Represents.giveBack_returns (hr : h.Represents p) (he : e ∈ p.blocks)
    (hs : minBlockUnits ≤ e.size) (ht : e.free = false) :
    ∃ h', (∀ checks, (giveBack checks h.arena.base h.arena.len
        (payloadOf h.arena.base e.start)).Returns h () h') ∧
      h'.outline = (h.arena.base, h.arena.len, h.allocations, h.frees + 1) ∧
      h'.Represents (p.release e.start) ∧ h.Keeps h' p (e :: p.neighbours e.start) := by
  have hv := hr.valid
  obtain ⟨pre, l, r, post, ha⟩ := hv.exists_around he hs ht
  have hl : l ∈ p.blocks := ha.mem_blocks.mpr (by simp)
  have hrb : r ∈ p.blocks := ha.mem_blocks.mpr (by simp)
  have htaken := (hr.tagged e he).isTaken_returns
  have hleft := (hr.tagged l hl).left_returns
  have hright := (hr.tagged e he).right_returns
  rw [ht] at htaken
  rw [ha.left] at hleft
  rw [ha.right] at hright
  obtain ⟨n, h₁, h₂, -, -, hret₁, -, hret₂, hm⟩ := hr.absorb_returns ha
  obtain ⟨h₃, hret₃, ho, hr₃, hk⟩ := hm.merge hr ha hs
  refine ⟨{ h₃ with frees := h₃.frees + 1 }, fun checks => ?_, ?_, hr₃.count _ _, hk⟩
  · rw [giveBack, hr.valid.indexOfPayload_eq he hs]
    refine .bind ((hr.tagged e he).guardLink_returns checks) (.bind htaken ?_)
    simp only [Bool.not_false, Bool.not_true, Bool.false_eq_true, if_false]
    have hguard := (hr.tagged l hl).guardLink_returns checks
    have hguard' := (hr.tagged r hrb).guardLink_returns checks
    exact .bind hleft (.bind hright (.bind hguard (.bind hguard'
      (.bind (hr.tagged e he).size_returns (.bind hret₁ (.bind hret₂ (.bind hret₃
        (.countFree _ _))))))))
  · simp only [outline, Prod.mk.injEq] at ho ⊢
    exact ⟨ho.1, ho.2.1, ho.2.2.1, congrArg (· + 1) ho.2.2.2⟩

/-! ## The start -/

theorem linked_nil (h₀ : h.head = 0) : h.Linked [] :=
  List.isChain_pair.mpr ⟨h₀, fun hne => absurd rfl hne⟩

theorem layOut_returns (hl : minArenaUnits ≤ h.arena.len) (h₀ : h.head = 0) :
    ∃ h', (layOut h.arena.len).Returns h () h' ∧ h'.outline = h.outline ∧
      h'.Represents (.initial h.arena.len) := by
  have hl₈ : 8 ≤ h.arena.len := hl
  set len := h.arena.len with hlen
  set h₁ := h.setTags 0 (takenTag sentinelUnits) sentinelUnits
  set h₂ := h₁.pushed sentinelUnits (len - 2 * sentinelUnits)
  set h₃ := h₂.setTags (len - sentinelUnits) (takenTag sentinelUnits) sentinelUnits
  have hlen₁ : h₁.arena.len = len := len_setTags _ _ _ _
  have hlen₂ : h₂.arena.len = len := (len_pushed _ _ _).trans hlen₁
  have hlen₃ : h₃.arena.len = len := (len_setTags _ _ _ _).trans hlen₂
  have hhead : h₁.head = 0 := h₀
  have hfresh : Fresh h₁.arena.len sentinelUnits (len - 2 * sentinelUnits) [] := by
    refine ⟨?_, ?_, ⟨by simp, by decide, ?_, by simp⟩, by simp⟩
    · simp only [sentinelUnits]
      omega
    · simp only [sentinelUnits]
      omega
    · simp only [sentinelUnits, List.mem_singleton, forall_eq]
      omega
  have hret₁ := Block.writeTags_returns (h := h) (b := ⟨0⟩) (takenTag sentinelUnits)
    (n := sentinelUnits) (by decide) (by simp only [sentinelUnits]; omega)
  have hret₂ := push_returns (h := h₁) (by decide) hfresh.inside hfresh.size (absurd hhead)
  have hret₃ := Block.writeTags_returns (h := h₂) (b := ⟨len - sentinelUnits⟩)
    (takenTag sentinelUnits) (n := sentinelUnits) (by decide)
    (by simp only [sentinelUnits]; omega)
  refine ⟨h₃, .bind hret₁ (.bind hret₂ hret₃), ?_, hlen₃.symm ▸ Plan.valid_initial hl, ?_, ?_⟩
  · rw [outline_setTags, outline_pushed, outline_setTags]
  · -- each of the three blocks is written once, away from the others
    have hkeep₂ : ∀ j, j < 2 → h₂.unit j = h₁.unit j := fun j hj =>
      unit_pushed (by simp only [sentinelUnits]; omega) (by simp only [sentinelUnits]; omega)
        (by simp only [sentinelUnits]; omega) (by simp only [sentinelUnits]; omega)
        (absurd hhead)
    have hkeep₃ : ∀ j, j < len - 2 → h₃.unit j = h₂.unit j := fun j hj =>
      unit_setTags _ (by simp only [sentinelUnits]; omega) (by simp only [sentinelUnits]; omega)
    intro e he
    simp only [Plan.initial, List.mem_cons, List.not_mem_nil, or_false] at he
    rcases he with rfl | rfl | rfl
    · have ht : h₁.Tagged .leading :=
        tagged_setTags (e := .leading) (Nat.le_refl _) (Nat.le_trans (by decide) hl₈)
      refine ht.congr (hlen₃.trans hlen₁.symm) ?_ ?_
      · exact (hkeep₃ 0 (by omega)).trans (hkeep₂ 0 (by omega))
      · exact (hkeep₃ 1 (by omega)).trans (hkeep₂ 1 (by omega))
    · refine (hfresh.tagged (.inl hhead)).congr (hlen₃.trans hlen₂.symm) (hkeep₃ _ ?_) (hkeep₃ _ ?_)
      · simp only [sentinelUnits]
        omega
      · simp only [Extent.stop, sentinelUnits]
        omega
    · refine tagged_setTags (e := .trailing len) (Nat.le_refl _) ?_
      simp only [Extent.stop, Extent.trailing, sentinelUnits]
      omega
  · refine ((linked_nil hhead).pushed hfresh).congr rfl fun a ha => ?_
    obtain rfl := List.mem_singleton.mp ha
    constructor <;> refine unit_setTags _ ?_ ?_ <;> simp only [sentinelUnits] <;> omega

theorem represents_ofArena {arena : Memory} (hl : minArenaUnits ≤ arena.len) :
    (ofArena arena).outline = (arena.base, arena.len, 0, 0) ∧
      (ofArena arena).Represents (.initial arena.len) := by
  obtain ⟨h', hret, ho, hr⟩ := layOut_returns (h := ⟨arena, 0, 0, 0⟩) hl rfl
  have hh : ofArena arena = h' := congrArg Prod.snd hret
  exact hh ▸ ⟨ho, hr⟩

end BareKernel.Heap
