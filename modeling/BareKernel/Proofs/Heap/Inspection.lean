import BareKernel.KernelMemory
import BareKernel.Proofs.Heap.Outcomes

/-! The check of the whole arena, on arenas that may hold anything. It follows the tags, then the
free list, and compares the two by their numbers alone. -/

namespace BareKernel.Heap

open Heap.Action (Returns Reports Faults)

variable {h : Heap} {e : Extent} {blocks blocks' : List Extent} {l pre : List Nat} {i n x : Nat}
  {b : Bool}

/-! ## Along the tags -/

/-- The block at `i` as its first tag describes it. -/
def extentAt (h : Heap) (i : Nat) : Extent := ⟨i, h.sizeAt i, isFreeTag (h.unit i)⟩

/-- Following the tags from `i` on visits these blocks, all intact, and ends where the arena does. -/
structure TagWalk (h : Heap) (i : Nat) (blocks : List Extent) : Prop where
  tiles : Tiles i blocks h.arena.len
  intact : ∀ e ∈ blocks, h.Intact e.start
  read : ∀ e ∈ blocks, e = h.extentAt e.start

theorem tagWalk_nil : h.TagWalk i [] ↔ i = h.arena.len :=
  ⟨fun hw => hw.tiles, fun hi => ⟨hi, by simp, by simp⟩⟩

theorem tagWalk_cons : h.TagWalk i (e :: blocks) ↔
    e = h.extentAt i ∧ h.Intact i ∧ h.TagWalk (i + h.sizeAt i) blocks := by
  constructor
  · rintro ⟨⟨rfl, ht⟩, hi, hr⟩
    have he := hr e List.mem_cons_self
    have hsize : e.size = h.sizeAt e.start := congrArg Extent.size he
    refine ⟨he, hi e List.mem_cons_self, ?_, fun f hf => hi f (List.mem_cons_of_mem e hf),
      fun f hf => hr f (List.mem_cons_of_mem e hf)⟩
    rw [← hsize]
    exact ht
  · rintro ⟨rfl, hi, hw⟩
    refine ⟨⟨rfl, hw.tiles⟩, ?_, ?_⟩
    · rintro f (_ | ⟨_, hf⟩)
      · exact hi
      · exact hw.intact f hf
    · rintro f (_ | ⟨_, hf⟩)
      · rfl
      · exact hw.read f hf

/-- The tags leave no choice. -/
theorem TagWalk.eq (hw : h.TagWalk i blocks) (hw' : h.TagWalk i blocks') : blocks = blocks' := by
  induction blocks generalizing i blocks' with
  | nil =>
    cases blocks' with
    | nil => rfl
    | cons e' blocks' =>
      have := (tagWalk_cons.mp hw').2.1.lt
      exact absurd (tagWalk_nil.mp hw) this.ne
  | cons e blocks ih =>
    obtain ⟨rfl, hi, hw⟩ := tagWalk_cons.mp hw
    cases blocks' with
    | nil => exact absurd (tagWalk_nil.mp hw') hi.lt.ne
    | cons e' blocks' =>
      obtain ⟨rfl, -, hw'⟩ := tagWalk_cons.mp hw'
      rw [ih hw hw']

/-- No two of these flags in a row are set. -/
def Separated (flags : List Bool) : Prop := flags.IsChain fun x y => ¬(x = true ∧ y = true)

namespace Integrity

open Block (check_intact check_reports isFree_returns size_returns)

theorem countFreeBlocks_returns (hw : h.TagWalk i blocks)
    (hs : Separated (b :: blocks.map (·.free))) (n : Nat) :
    (countFreeBlocks h.arena.len i n b).Returns h (n + blocks.countP (·.free)) h := by
  induction blocks generalizing i n b with
  | nil =>
    have hi := tagWalk_nil.mp hw
    rw [countFreeBlocks, dif_neg hi.not_lt, if_neg (not_not.mpr hi)]
    exact .pure n h
  | cons e blocks ih =>
    obtain ⟨rfl, hi, hw⟩ := tagWalk_cons.mp hw
    obtain ⟨hb, hs⟩ := List.isChain_cons_cons.mp hs
    rw [countFreeBlocks, dif_pos hi.lt]
    refine (check_intact hi).bind ((isFree_returns (b := ⟨i⟩) hi.lt).bind ?_)
    have hfree : (isFreeTag (h.unit i) && b) = false := by
      cases b <;> simp_all [extentAt]
    simp only [hfree, Bool.false_eq_true, if_false]
    refine (size_returns (b := ⟨i⟩) hi.lt).bind ?_
    rw [dif_neg hi.pos]
    have hrest := ih hw hs (if isFreeTag (h.unit i) then n + 1 else n)
    have hcount : n + (h.extentAt i :: blocks).countP (·.free) =
        (if isFreeTag (h.unit i) then n + 1 else n) + blocks.countP (·.free) := by
      rw [List.countP_cons, extentAt]
      dsimp only
      split <;> omega
    rw [hcount]
    exact hrest

theorem countFreeBlocks_cases (i n : Nat) (b : Bool) :
    (∃ blocks, h.TagWalk i blocks ∧ Separated (b :: blocks.map (·.free))) ∨
      (countFreeBlocks h.arena.len i n b).Reports h := by
  induction hk : h.arena.len - i using Nat.strong_induction_on generalizing i n b with
  | _ k ih =>
    rw [countFreeBlocks]
    by_cases hi : i < h.arena.len
    · rw [dif_pos hi]
      by_cases hint : h.Intact i
      · by_cases hfree : (isFreeTag (h.unit i) && b) = true
        · refine .inr ((check_intact hint).reports ((isFree_returns (b := ⟨i⟩) hi).reports ?_))
          rw [if_pos hfree]
          exact .bind (.fail rfl h)
        · have hpos := hint.pos
          rcases ih _ (by omega) (i + h.sizeAt i)
              (if isFreeTag (h.unit i) then n + 1 else n) (isFreeTag (h.unit i)) rfl with
            ⟨blocks, hw, hs⟩ | hr
          · refine .inl ⟨h.extentAt i :: blocks, tagWalk_cons.mpr ⟨rfl, hint, hw⟩, ?_⟩
            exact List.isChain_cons_cons.mpr ⟨by simpa [extentAt, and_comm] using hfree, hs⟩
          · refine .inr ((check_intact hint).reports ((isFree_returns (b := ⟨i⟩) hi).reports ?_))
            rw [if_neg hfree]
            refine (size_returns (b := ⟨i⟩) hi).reports ?_
            rw [dif_neg hpos]
            exact hr
      · exact .inr (.bind (check_reports hint))
    · rw [dif_neg hi]
      by_cases heq : i = h.arena.len
      · exact .inl ⟨[], tagWalk_nil.mpr heq, List.isChain_singleton _⟩
      · rw [if_pos heq]
        exact .inr (.fail rfl h)

/-! ## Along the free list -/

open Block (prev_returns prev_faults next_returns)

/-- A free block with room for both of its links. -/
def Node (h : Heap) (i : Nat) : Prop := h.FreeAt i ∧ i + 2 < h.arena.len

instance (h : Heap) (i : Nat) : Decidable (Node h i) := inferInstanceAs (Decidable (_ ∧ _))

theorem checkNode_returns (hi : Node h i) (hp : h.pred i = x) :
    (checkNode h.arena.len x i).Returns h () h := by
  refine (check_intact hi.1.intact).bind ((isFree_returns (b := ⟨i⟩) hi.1.lt).bind ?_)
  rw [hi.1.free]
  refine (prev_returns (b := ⟨i⟩) hi.2).bind ?_
  rw [if_neg (not_not.mpr hp)]
  exact .pure () h

/-- The link back of a node at the very end of the arena would be outside. -/
theorem checkNode_faults (hi : h.FreeAt i) (ho : h.arena.len ≤ i + 2) :
    (checkNode h.arena.len x i).Faults h .outsideArena := by
  refine (check_intact hi.intact).faults ((isFree_returns (b := ⟨i⟩) hi.lt).faults ?_)
  rw [hi.free]
  exact .bind (prev_faults hi.lt ho)

theorem checkNode_reports (hi : ¬(h.FreeAt i ∧ (i + 2 < h.arena.len → h.pred i = x)))
    (h₀ : i ≠ 0) : (checkNode h.arena.len x i).Reports h := by
  by_cases hint : h.Intact i
  · refine (check_intact hint).reports ((isFree_returns (b := ⟨i⟩) hint.lt).reports ?_)
    by_cases hf : isFreeTag (h.unit i) = true
    · obtain ⟨hroom, hp⟩ := Classical.not_imp.mp (not_and.mp hi ⟨h₀, hint, hf⟩)
      rw [hf]
      refine (prev_returns (b := ⟨i⟩) hroom).reports ?_
      rw [if_pos hp]
      exact .fail rfl h
    · rw [eq_false_of_ne_true hf]
      exact .bind (.fail rfl h)
  · exact .bind (check_reports hint)

theorem checkList_end (n x : Nat) : checkList h.arena.len n x 0 =
    if n ≠ 0 then .fail (.error .freeListCorrupt) else pure () := by
  rw [checkList.eq_def, if_pos rfl]

theorem checkList_node (n x : Nat) (hi : i ≠ 0) : checkList h.arena.len n x i =
    (checkNode h.arena.len x i >>= fun _ => match n with
      | 0 => .fail (.error .freeListCorrupt)
      | n + 1 => Block.next ⟨i⟩ >>= checkList h.arena.len n i) :=
  (checkList.eq_def h.arena.len n x i).trans (if_neg hi)

theorem Node.next_returns (hi : Node h i) : (Block.next ⟨i⟩).Returns h (h.succ i) h := by
  have hroom := hi.2
  exact Block.next_returns (b := ⟨i⟩) hi.1.ne_zero (by change i + 1 < _; omega)

/-- Nodes that are joined up to the end of the list, as many as are expected. -/
theorem checkList_returns (hw : (x :: l ++ [0]).IsChain h.Joined) (hl : ∀ i ∈ l, Node h i) :
    (checkList h.arena.len l.length x (h.succ x)).Returns h () h := by
  induction l generalizing x with
  | nil =>
    rw [(List.isChain_pair.mp hw).1, checkList_end]
    exact .pure () h
  | cons i l ih =>
    obtain ⟨⟨hs, hp⟩, hw⟩ := List.isChain_cons_cons.mp hw
    have hi := hl i List.mem_cons_self
    have h₀ := hi.1.ne_zero
    rw [hs, checkList_node _ _ h₀]
    exact (checkNode_returns hi (hp h₀)).bind (hi.next_returns.bind
      (ih hw fun j hj => hl j (List.mem_cons_of_mem i hj)))

/-- Nodes that are joined up to one at the very end of the arena. -/
theorem checkList_faults (hn : pre.length ≤ n) (hw : (x :: pre).IsChain h.Joined)
    (hl : ∀ i ∈ pre, Node h i) (hi : h.FreeAt i) (hs : h.succ (pre.getLastD x) = i)
    (ho : h.arena.len ≤ i + 2) :
    (checkList h.arena.len n x (h.succ x)).Faults h .outsideArena := by
  induction pre generalizing n x with
  | nil =>
    rw [show h.succ x = i from hs, checkList_node _ _ hi.ne_zero]
    exact .bind (checkNode_faults hi ho)
  | cons j pre ih =>
    obtain ⟨⟨hsj, hp⟩, hw⟩ := List.isChain_cons_cons.mp hw
    have hj := hl j List.mem_cons_self
    have h₀ := hj.1.ne_zero
    obtain ⟨n, rfl⟩ := Nat.exists_eq_add_of_le' (Nat.le_of_add_left_le hn)
    rw [List.getLastD_cons] at hs
    rw [hsj, checkList_node _ _ h₀]
    exact (checkNode_returns hj (hp h₀)).faults (hj.next_returns.faults
      (ih (Nat.le_of_succ_le_succ hn) hw (fun k hk => hl k (List.mem_cons_of_mem j hk)) hs))

theorem checkList_cases (n x : Nat) :
    (∃ l, l.length = n ∧ (x :: l ++ [0]).IsChain h.Joined ∧ ∀ i ∈ l, Node h i) ∨
      (∃ pre i, pre.length ≤ n ∧ (x :: pre).IsChain h.Joined ∧ (∀ i ∈ pre, Node h i) ∧
        h.FreeAt i ∧ h.succ (pre.getLastD x) = i ∧ h.arena.len ≤ i + 2) ∨
      (checkList h.arena.len n x (h.succ x)).Reports h := by
  induction n generalizing x with
  | zero =>
    by_cases h₀ : h.succ x = 0
    · exact .inl ⟨[], rfl, List.isChain_pair.mpr ⟨h₀, absurd rfl⟩, by simp⟩
    rw [checkList_node _ _ h₀]
    by_cases hi : h.FreeAt (h.succ x) ∧ (h.succ x + 2 < h.arena.len → h.pred (h.succ x) = x)
    · by_cases hroom : h.succ x + 2 < h.arena.len
      · exact .inr (.inr ((checkNode_returns ⟨hi.1, hroom⟩ (hi.2 hroom)).reports (.fail rfl h)))
      · exact .inr (.inl ⟨[], _, Nat.le_refl _, List.isChain_singleton _, by simp, hi.1, rfl,
          Nat.not_lt.mp hroom⟩)
    · exact .inr (.inr (.bind (checkNode_reports hi h₀)))
  | succ n ih =>
    by_cases h₀ : h.succ x = 0
    · rw [h₀, checkList_end, if_pos (Nat.succ_ne_zero n)]
      exact .inr (.inr (.fail rfl h))
    rw [checkList_node _ _ h₀]
    by_cases hi : h.FreeAt (h.succ x) ∧ (h.succ x + 2 < h.arena.len → h.pred (h.succ x) = x)
    · by_cases hroom : h.succ x + 2 < h.arena.len
      · have hnode : Node h (h.succ x) := ⟨hi.1, hroom⟩
        have hj : h.Joined x (h.succ x) := ⟨rfl, fun _ => hi.2 hroom⟩
        rcases ih (h.succ x) with ⟨l, hn, hw, hl⟩ | ⟨pre, i, hn, hw, hl, hrest⟩ | hr
        · exact .inl ⟨h.succ x :: l, congrArg (· + 1) hn, .cons_cons hj hw,
            List.forall_mem_cons.mpr ⟨hnode, hl⟩⟩
        · refine .inr (.inl ⟨h.succ x :: pre, i, Nat.succ_le_succ hn, .cons_cons hj hw,
            List.forall_mem_cons.mpr ⟨hnode, hl⟩, ?_⟩)
          rw [List.getLastD_cons]
          exact hrest
        · exact .inr (.inr ((checkNode_returns hnode (hi.2 hroom)).reports
            (hnode.next_returns.reports hr)))
      · exact .inr (.inl ⟨[], _, Nat.zero_le _, List.isChain_singleton _, by simp, hi.1, rfl,
          Nat.not_lt.mp hroom⟩)
    · exact .inr (.inr (.bind (checkNode_reports hi h₀)))

end Integrity

/-! ## The whole arena -/

/-- What the tags have to say for the check to go on to the free list. -/
structure Tiled (h : Heap) (blocks : List Extent) : Prop where
  walk : h.TagWalk 0 blocks
  first : h.unit 0 = takenTag sentinelUnits
  last : h.unit (h.arena.len - sentinelUnits) = takenTag sentinelUnits
  coalesced : blocks.IsChain fun a b => ¬(a.free = true ∧ b.free = true)

/-- What the check establishes when it passes. -/
structure Accepted (h : Heap) (blocks : List Extent) (l : List Nat) : Prop extends
    h.Tiled blocks where
  links : h.Linked l
  nodes : ∀ i ∈ l, Integrity.Node h i
  count : l.length = blocks.countP (·.free)

/-- Behind `pre`, which are no more nodes than there are free blocks, the list leads to a free block
of one unit at the very end of the arena. Its links are outside. -/
structure Overruns (h : Heap) (blocks : List Extent) (pre : List Nat) : Prop extends
    h.Tiled blocks where
  links : (0 :: pre).IsChain h.Joined
  nodes : ∀ i ∈ pre, Integrity.Node h i
  few : pre.length ≤ blocks.countP (·.free)
  next : h.succ (pre.getLastD 0) = h.arena.len - 1
  lone : h.unit (h.arena.len - 1) = freeTag 1

theorem Tiled.separated (ht : h.Tiled blocks) : Separated (false :: blocks.map (·.free)) := by
  refine List.IsChain.cons ((List.isChain_map _).mpr ht.coalesced) ?_
  simp

namespace Integrity

open Block (tag_returns)

/-- Tags in order take the check to the free list. -/
theorem check_of_tiled (ht : h.Tiled blocks) (hl : 2 ≤ h.arena.len) :
    (check h.arena.len).run h =
      (checkList h.arena.len (blocks.countP (·.free)) 0 (h.succ 0)).run h := by
  have hfirst := tag_returns (h := h) (b := ⟨0⟩) (by change 0 < _; omega)
  have hlast := tag_returns (h := h) (b := ⟨h.arena.len - sentinelUnits⟩)
    (by simp only [sentinelUnits]; omega)
  have hcount := countFreeBlocks_returns ht.walk ht.separated 0
  rw [Nat.zero_add] at hcount
  rw [ht.first] at hfirst
  rw [ht.last] at hlast
  unfold check
  rw [Action.run_bind, hfirst]
  simp only [ne_eq, not_true_eq_false, if_false]
  rw [Action.run_bind, hlast]
  simp only [not_true_eq_false, if_false]
  rw [Action.run_bind, hcount]
  rfl

theorem tiled_or_reports (hl : 2 ≤ h.arena.len) :
    (∃ blocks, h.Tiled blocks) ∨ (check h.arena.len).Reports h := by
  have hfirst := tag_returns (h := h) (b := ⟨0⟩) (by change 0 < _; omega)
  have hlast := tag_returns (h := h) (b := ⟨h.arena.len - sentinelUnits⟩)
    (by simp only [sentinelUnits]; omega)
  by_cases h₁ : h.unit 0 = takenTag sentinelUnits
  · by_cases h₂ : h.unit (h.arena.len - sentinelUnits) = takenTag sentinelUnits
    · rcases countFreeBlocks_cases (h := h) 0 0 false with ⟨blocks, hw, hs⟩ | hr
      · exact .inl ⟨blocks, hw, h₁, h₂, (List.isChain_map _).mp hs.tail⟩
      · refine .inr (hfirst.reports ?_)
        rw [if_neg (not_not.mpr h₁)]
        refine hlast.reports ?_
        rw [if_neg (not_not.mpr h₂)]
        exact .bind hr
    · refine .inr (hfirst.reports ?_)
      rw [if_neg (not_not.mpr h₁)]
      refine hlast.reports ?_
      rw [if_pos h₂]
      exact .bind (.fail rfl h)
  · refine .inr (hfirst.reports ?_)
    rw [if_pos h₁]
    exact .bind (.fail rfl h)

theorem check_returns (ha : h.Accepted blocks l) (hl : 2 ≤ h.arena.len) :
    (check h.arena.len).Returns h () h := by
  rw [Returns, check_of_tiled ha.toTiled hl, ← ha.count]
  exact checkList_returns ha.links ha.nodes

theorem check_faults (ho : h.Overruns blocks pre) (hl : 2 ≤ h.arena.len) :
    (check h.arena.len).Faults h .outsideArena := by
  rw [Faults, check_of_tiled ho.toTiled hl]
  exact checkList_faults ho.few ho.links ho.nodes ((freeAt_last_iff hl).mpr ho.lone) ho.next
    (by omega)

/-- The check passes, overruns the arena or reports damage. -/
theorem check_cases (hl : 2 ≤ h.arena.len) :
    (∃ blocks l, h.Accepted blocks l) ∨ (∃ blocks pre, h.Overruns blocks pre) ∨
      (check h.arena.len).Reports h := by
  rcases tiled_or_reports hl with ⟨blocks, ht⟩ | hr
  · rcases checkList_cases (h := h) (blocks.countP (·.free)) 0 with
      ⟨l, hn, hw, hnodes⟩ | ⟨pre, i, hn, hw, hnodes, hi, hs, ho⟩ | hr
    · exact .inl ⟨blocks, l, ht, hw, hnodes, hn⟩
    · -- the unit before the last one is a tag of a taken block, and no node
      have hne : i ≠ h.arena.len - sentinelUnits := by
        rintro rfl
        have hf := hi.free
        rw [ht.last] at hf
        exact absurd hf (by decide)
      have hlt := hi.lt
      simp only [sentinelUnits] at hne
      obtain rfl : i = h.arena.len - 1 := by omega
      exact .inr (.inl ⟨blocks, pre, ht, hw, hnodes, hn, hs, (freeAt_last_iff hl).mp hi⟩)
    · refine .inr (.inr ?_)
      obtain ⟨e, he, hr⟩ := hr
      exact ⟨e, he, (check_of_tiled ht hl).trans hr⟩
  · exact .inr (.inr hr)

end Integrity

end BareKernel.Heap
