import Mathlib.Data.List.Chain
import BareKernel.Proofs.Heap.Links
import BareKernel.Proofs.Heap.PlanSteps

/-! A plan in memory: every block of the plan has its tag in its first and its last unit, and the
free list visits the starts of the free blocks in the plan's order. What the heap code reads from
such a heap is what the plan says, checked or not. -/

namespace BareKernel.Heap

open Heap.Action (Returns)

variable {h h' : Heap} {p : Plan} {e f : Extent} {l : List Nat} {i j len n units : Nat}
  {checks : Bool}

namespace Extent

/-- What the first and the last unit of the block hold. -/
def tag (e : Extent) : Int64 := if e.free then freeTag e.size else takenTag e.size

/-- The units of a block that no link is kept in: its tags, and all of a taken block. -/
def Owns (e : Extent) (j : Nat) : Prop :=
  e.start ≤ j ∧ j < e.stop ∧ (e.free = true → j = e.start ∨ j + 1 = e.stop)

theorem toInt_tag (hs : e.size < 0x2000000000000000) :
    e.tag.toInt = if e.free then (e.size : Int) else -e.size := by
  unfold tag
  split
  · exact toInt_freeTag hs
  · exact toInt_takenTag hs

theorem sizeOfTag_tag (hs : e.size < 0x2000000000000000) : sizeOfTag e.tag = e.size := by
  rw [sizeOfTag, toInt_tag hs]
  split <;> simp

theorem isFreeTag_tag (hs : e.size < 0x2000000000000000) (h₀ : 0 < e.size) :
    isFreeTag e.tag = e.free := by
  rw [isFreeTag, toInt_tag hs]
  cases e.free <;> simp [h₀]

theorem isTakenTag_tag (hs : e.size < 0x2000000000000000) (h₀ : 0 < e.size) :
    isTakenTag e.tag = !e.free := by
  rw [isTakenTag, toInt_tag hs]
  cases e.free <;> simp [h₀]

end Extent

/-! ## Nodes and blocks -/

namespace Plan.Valid

theorem owns_start (hv : p.Valid len) (he : e ∈ p.blocks) : e.Owns e.start := by
  have := hv.sentinelUnits_le he
  simp only [sentinelUnits] at this
  refine ⟨Nat.le_refl _, ?_, fun _ => .inl rfl⟩
  simp only [Extent.stop]
  omega

theorem owns_last (hv : p.Valid len) (he : e ∈ p.blocks) : e.Owns (e.stop - 1) := by
  have := hv.sentinelUnits_le he
  simp only [sentinelUnits] at this
  refine ⟨?_, ?_, fun _ => .inr ?_⟩ <;> simp only [Extent.stop] <;> omega

theorem exists_of_avail (hv : p.Valid len) (hi : i ∈ p.avail) :
    ∃ e ∈ p.blocks, e.free = true ∧ e.start = i ∧ minBlockUnits ≤ e.size := by
  obtain ⟨e, he, hf, rfl⟩ := (hv.mem_avail i).mp hi
  exact ⟨e, he, hf, rfl, hv.minBlockUnits_le he hf⟩

/-- No link of a node is in a unit that a block owns. -/
theorem not_link (hv : p.Valid len) (he : e ∈ p.blocks) (hj : e.Owns j) (hi : i ∈ p.avail) :
    j ≠ i + 1 ∧ j ≠ i + 2 := by
  obtain ⟨f, hf, hff, rfl, hs⟩ := hv.exists_of_avail hi
  obtain ⟨h₁, h₂, h₃⟩ := hj
  rcases hv.apart he hf with rfl | h | h
  · have := h₃ hff
    simp only [Extent.stop, minBlockUnits] at *
    omega
  all_goals simp only [Extent.stop, minBlockUnits] at *; omega

theorem nodes (hv : p.Valid len) : Nodes len p.avail where
  nodup := hv.nodup
  ne_zero := fun h₀ => by
    obtain ⟨e, he, hf, hs, -⟩ := hv.exists_of_avail h₀
    obtain rfl := hv.eq_of_start he hv.leading_mem hs
    cases hf
  inside := fun i hi => by
    obtain ⟨e, he, -, rfl, hs⟩ := hv.exists_of_avail hi
    have := (hv.tiles.bounds he).2
    simp only [Extent.stop, minBlockUnits] at *
    omega
  apart := fun i hi h₁ => by
    obtain ⟨e, he, -, hs, -⟩ := hv.exists_of_avail h₁
    exact (hv.not_link he (hs ▸ hv.owns_start he) hi).1 rfl

end Plan.Valid

/-! ## Blocks in memory -/

/-- A block of the arena with its tag at both ends. -/
structure Tagged (h : Heap) (e : Extent) : Prop where
  size : sentinelUnits ≤ e.size
  inside : e.stop ≤ h.arena.len
  first : h.unit e.start = e.tag
  last : h.unit (e.stop - 1) = e.tag

namespace Tagged

theorem pos (ht : h.Tagged e) : 0 < e.size := Nat.lt_of_lt_of_le (by decide) ht.size

theorem size_le (ht : h.Tagged e) : e.start + e.size ≤ h.arena.len := ht.inside

theorem size_lt (ht : h.Tagged e) : e.size < 0x2000000000000000 := by
  have := ht.size_le
  have := h.arena.len_lt
  omega

theorem start_lt (ht : h.Tagged e) : e.start < h.arena.len := by
  have := ht.size_le
  have := ht.pos
  omega

theorem last_lt (ht : h.Tagged e) : e.stop - 1 < h.arena.len := by
  have := ht.inside
  have := ht.start_lt
  omega

theorem sizeAt_eq (ht : h.Tagged e) : h.sizeAt e.start = e.size := by
  rw [Heap.sizeAt, ht.first, Extent.sizeOfTag_tag ht.size_lt]

theorem isFree_returns (ht : h.Tagged e) : (Block.isFree ⟨e.start⟩).Returns h e.free h := by
  have hb := Block.isFree_returns (b := ⟨e.start⟩) ht.start_lt
  rwa [ht.first, Extent.isFreeTag_tag ht.size_lt ht.pos] at hb

theorem isTaken_returns (ht : h.Tagged e) : (Block.isTaken ⟨e.start⟩).Returns h (!e.free) h := by
  have hb := Block.isTaken_returns (b := ⟨e.start⟩) ht.start_lt
  rwa [ht.first, Extent.isTakenTag_tag ht.size_lt ht.pos] at hb

theorem size_returns (ht : h.Tagged e) : (Block.size ⟨e.start⟩).Returns h e.size h := by
  have hb := Block.size_returns (b := ⟨e.start⟩) ht.start_lt
  rwa [ht.sizeAt_eq] at hb

theorem right_returns (ht : h.Tagged e) : (Block.right ⟨e.start⟩).Returns h ⟨e.stop⟩ h := by
  have hb := Block.right_returns (b := ⟨e.start⟩) ht.start_lt
  rwa [ht.sizeAt_eq] at hb

/-- From the end of a block its start is found through the last unit. -/
theorem left_returns (ht : h.Tagged e) : (Block.left ⟨e.stop⟩).Returns h ⟨e.start⟩ h := by
  have hb := Block.left_returns (b := ⟨e.stop⟩) ht.last_lt
  have hs : h.sizeAt (e.stop - 1) = e.size := by
    rw [Heap.sizeAt, ht.last, Extent.sizeOfTag_tag ht.size_lt]
  have hi : e.stop - 1 + 1 - e.size = e.start := by
    have := ht.pos
    simp only [Extent.stop]
    omega
  change (Block.left _).Returns h ⟨e.stop - 1 + 1 - h.sizeAt (e.stop - 1)⟩ h at hb
  rwa [hs, hi] at hb

theorem scrub_returns (ht : h.Tagged e) :
    (Block.scrub ⟨e.start⟩).Returns h () (h.setTags e.start 0 e.size) := by
  have hb := Block.scrub_returns (b := ⟨e.start⟩) ht.start_lt
    (by rw [ht.sizeAt_eq]; exact ht.last_lt)
  rwa [scrubbed, ht.sizeAt_eq] at hb

/-- No check finds fault with such a block. -/
theorem guardLink_returns (ht : h.Tagged e) (checks : Bool) :
    (Block.guardLink checks h.arena.len e.start).Returns h () h := by
  cases checks with
  | false => exact .pure () h
  | true =>
    change Returns (if e.start = 0 then pure () else Block.check h.arena.len ⟨e.start⟩) h () h
    split
    · exact .pure () h
    · refine Block.check_returns ?_ ?_ ?_ <;> rw [ht.sizeAt_eq]
      · exact ht.pos.ne'
      · exact ht.inside
      · exact ht.first.trans ht.last.symm

theorem congr (ht : h.Tagged e) (hl : h'.arena.len = h.arena.len)
    (h₁ : h'.unit e.start = h.unit e.start)
    (h₂ : h'.unit (e.stop - 1) = h.unit (e.stop - 1)) : h'.Tagged e :=
  ⟨ht.size, hl ▸ ht.inside, h₁.trans ht.first, h₂.trans ht.last⟩

end Tagged

theorem tagged_setTags (hs : sentinelUnits ≤ e.size) (hi : e.stop ≤ h.arena.len) :
    (h.setTags e.start e.tag e.size).Tagged e := by
  have hi' : e.start + e.size ≤ h.arena.len := hi
  simp only [sentinelUnits] at hs
  refine ⟨hs, ?_, unit_setTags_header _ (by omega), unit_setTags_footer _ (by omega)⟩
  rw [len_setTags]
  exact hi

theorem Fresh.tagged (hf : Fresh h.arena.len i n l) (hh : h.head = 0 ∨ h.head ∈ l) :
    (h.pushed i n).Tagged ⟨i, n, true⟩ := by
  have hmem : h.head ≠ 0 → h.head ∈ l := fun h₀ => hh.resolve_left h₀
  refine ⟨Nat.le_trans (by decide) hf.size, ?_, ?_, ?_⟩
  · rw [len_pushed]
    exact hf.inside
  · exact unit_pushed_header hf.inside hf.size fun h₀ => (hf.tags _ (hmem h₀)).2.1
  · exact unit_pushed_footer hf.inside hf.size fun h₀ => (hf.tags _ (hmem h₀)).2.2.2

/-- The heap has the blocks and the free list of the plan. -/
structure Represents (h : Heap) (p : Plan) : Prop where
  valid : p.Valid h.arena.len
  tagged : ∀ e ∈ p.blocks, h.Tagged e
  links : h.Linked p.avail

/-- The counts are no part of the plan. -/
theorem Represents.count (hr : h.Represents p) (allocations frees : Nat) :
    { h with allocations := allocations, frees := frees }.Represents p where
  valid := hr.valid
  tagged := fun e he => ⟨(hr.tagged e he).size, (hr.tagged e he).inside, (hr.tagged e he).first,
    (hr.tagged e he).last⟩
  links := hr.links

/-! ## The search -/

/-- What a scan keeps in mind after one more node. -/
def improve (p : Plan) (units : Nat) (best : Option (Nat × Nat)) (i : Nat) : Option (Nat × Nat) :=
  if FreeList.better units (p.sizeAt i) best then some (i, p.sizeAt i) else best

/-- A scan that starts inside the list sees as many of the nodes from there on as it may. -/
theorem Represents.scan_returns (hr : h.Represents p) (checks : Bool) (units : Nat)
    {before : List Nat} (attempts : Nat) (best : Option (Nat × Nat))
    (hl : p.avail = before ++ l) :
    (FreeList.scan checks h.arena.len units attempts (l.headD 0) best).Returns h
      (((l.take attempts).foldl (improve p units) best).map (·.1)) h := by
  induction attempts generalizing before l best with
  | zero => exact .pure _ h
  | succ attempts ih =>
    cases l with
    | nil => exact .pure _ h
    | cons i l =>
      have hi : i ∈ p.avail := by simp [hl]
      have hi₀ : i ≠ 0 := fun h₀ => hr.valid.nodes.ne_zero (h₀ ▸ hi)
      obtain ⟨e, he, hf, rfl, -⟩ := hr.valid.exists_of_avail hi
      have hnext : h.succ e.start = l.headD 0 := (hl ▸ hr.links : h.Linked _).succ_eq
      simp only [FreeList.scan, List.headD_cons, hi₀, if_false]
      refine .bind ((hr.tagged e he).guardLink_returns checks)
        (.bind (hr.tagged e he).isFree_returns ?_)
      simp only [hf, Bool.not_true, Bool.false_eq_true, if_false]
      refine .bind (hr.tagged e he).size_returns ?_
      have hbest : (if FreeList.better units e.size best then some (e.start, e.size) else best) =
          improve p units best e.start := by
        rw [improve, hr.valid.sizeAt_eq he]
      rw [hbest, List.take_succ_cons, List.foldl_cons]
      cases attempts with
      | zero => exact .pure _ h
      | succ attempts =>
        simp only [Nat.succ_ne_zero, if_false]
        have hn := (hr.valid.nodes.inside e.start hi)
        refine .bind (Block.next_returns hi₀ (by change e.start + 1 < _; omega)) ?_
        change Returns (FreeList.scan _ _ _ _ (h.succ e.start) _) h _ h
        rw [hnext]
        exact ih _ (hl.trans (List.append_cons before e.start l))

/-- The best block so far, by its index alone, is the smallest of those that are large enough. -/
theorem map_foldl_improve (p : Plan) (units : Nat) (l : List Nat) (best : Option (Nat × Nat))
    (hb : ∀ b ∈ best, b.2 = p.sizeAt b.1) :
    (l.foldl (improve p units) best).map (·.1) =
      (l.filter (units ≤ p.sizeAt ·)).foldl
        (List.argAux fun a b => p.sizeAt a < p.sizeAt b) (best.map (·.1)) := by
  induction l generalizing best with
  | nil => rfl
  | cons i l ih =>
    rw [List.foldl_cons, ih]
    · by_cases hu : units ≤ p.sizeAt i
      · rw [List.filter_cons_of_pos (by simpa using hu), List.foldl_cons]
        congr 1
        cases best with
        | none => simp [improve, FreeList.better, hu, List.argAux]
        | some b =>
          have hb := hb b rfl
          by_cases hlt : p.sizeAt i < p.sizeAt b.1 <;>
            simp [improve, FreeList.better, hu, List.argAux, hb, hlt]
      · rw [List.filter_cons_of_neg (by simpa using hu)]
        simp [improve, FreeList.better, hu]
    · intro b hbm
      unfold improve at hbm
      split at hbm
      · cases hbm
        rfl
      · exact hb b hbm

theorem Represents.bestFit_returns (hr : h.Represents p) (checks : Bool) (units : Nat) :
    (FreeList.bestFit checks h.arena.len units).Returns h (p.bestFit units) h := by
  have hs := hr.scan_returns checks units scanLimit none (List.nil_append p.avail).symm
  rw [map_foldl_improve p units _ none (by simp), ← hr.links.head_eq] at hs
  exact .bind (.head h) hs

end BareKernel.Heap
