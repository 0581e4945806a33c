import BareKernel.KernelMemory
import BareKernel.Proofs.Heap.Outcomes

/-! How far the consistency checks carry on an arena that may hold anything. They look at the tags
of a block before the block is used, and never at the links that a block or the list's head leads
on with. An operation comes back with an answer exactly when the links that it follows or writes
through happen to be in the arena. -/

namespace BareKernel

open Heap

namespace Heap

open Heap.Action (Returns Reports Faults ReturnsIff)

variable {h : Heap} {i r base addr units : Nat}

/-! ## A block and its neighbours -/

/-- The heap once `j` is off the list and the tags of `i` are cleared. -/
def absorbed (h : Heap) (i j : Nat) : Heap := (h.detached j).scrubbed i

structure Absorbable (h : Heap) (i j : Nat) : Prop where
  links : h.Detachable j
  tags : i + (h.detached j).sizeAt i - 1 < h.arena.len

@[simp] theorem len_absorbed (h : Heap) (i j : Nat) :
    (h.absorbed i j).arena.len = h.arena.len := by
  simp [absorbed, scrubbed]

/-- A block on its way back to the list: where it starts, how large it has become, and the heap by
then. -/
structure Merge where
  heap : Heap
  start : Nat
  size : Nat

/-- Where the block that ends before `i` starts, by its last unit. -/
def leftOf (h : Heap) (i : Nat) : Nat := i - h.sizeAt (i - 1)

/-- The block at `i`, merged into a free block on its left. -/
def withLeft (h : Heap) (i : Nat) : Merge :=
  let l := h.leftOf i
  if isFreeTag (h.unit l) then
    ⟨h.absorbed i l, l, h.sizeAt i + (h.absorbed i l).sizeAt l⟩
  else ⟨h, i, h.sizeAt i⟩

/-- A free block on the right, merged into what there is already. -/
def Merge.withRight (m : Merge) (r : Nat) : Merge :=
  if isFreeTag (m.heap.unit r) then
    ⟨m.heap.absorbed r r, m.start, m.size + m.heap.sizeAt r⟩
  else m

theorem len_withLeft (h : Heap) (i : Nat) : (h.withLeft i).heap.arena.len = h.arena.len := by
  unfold withLeft
  dsimp only
  split <;> simp

theorem absorbLeft_returnsIff (hi : h.Intact i) :
    (absorbLeft ⟨i⟩ ⟨h.leftOf i⟩ (h.sizeAt i)).ReturnsIff h
      (isFreeTag (h.unit (h.leftOf i)) = true → h.Absorbable i (h.leftOf i))
      ((h.withLeft i).start, (h.withLeft i).size) (h.withLeft i).heap := by
  have hlen := h.arena.len_lt
  have hlt := hi.lt
  have hl : h.leftOf i < h.arena.len := Nat.lt_of_le_of_lt (Nat.sub_le _ _) hlt
  unfold absorbLeft withLeft
  dsimp only
  refine .after (Block.isFree_returns (b := ⟨h.leftOf i⟩) hl) ?_
  dsimp only
  by_cases hf : isFreeTag (h.unit (h.leftOf i)) = true
  · rw [if_pos hf, if_pos hf]
    have hscrub := Block.scrub_returnsIff (h := h.detached (h.leftOf i)) (i := i)
      (by rwa [len_detached])
    have hsize := Block.size_returns (h := h.absorbed i (h.leftOf i)) (b := ⟨h.leftOf i⟩)
      (by rwa [len_absorbed])
    refine ReturnsIff.congr (.bind (unlink_returnsIff h _) (.bind hscrub (.after hsize
      (.before (.plus _ _) (.pure _ _))))) ?_
    have hsum : h.sizeAt i + (h.absorbed i (h.leftOf i)).sizeAt (h.leftOf i) <
        0x10000000000000000 := by
      have hsize := (h.absorbed i (h.leftOf i)).sizeAt_le (h.leftOf i)
      have hinside := hi.inside
      omega
    rw [len_detached]
    exact ⟨fun ⟨hlinks, htags, _⟩ _ => ⟨hlinks, htags⟩,
      fun h => ⟨(h hf).links, (h hf).tags, hsum⟩⟩
  · rw [if_neg hf, if_neg hf]
    exact (ReturnsIff.of_returns (.pure _ h)).congr (by simp [hf])

theorem absorbRight_returnsIff (m : Merge) (hr : r < m.heap.arena.len) :
    (absorbRight ⟨r⟩ m.size).ReturnsIff m.heap
      (isFreeTag (m.heap.unit r) = true →
        m.heap.Absorbable r r ∧ m.size + m.heap.sizeAt r < 0x10000000000000000)
      (m.withRight r).size (m.withRight r).heap := by
  unfold absorbRight Merge.withRight
  refine .after (Block.isFree_returns (b := ⟨r⟩) hr) ?_
  by_cases hf : isFreeTag (m.heap.unit r) = true
  · rw [if_pos hf, if_pos hf]
    have hscrub := Block.scrub_returnsIff (h := m.heap.detached r) (i := r) (by rwa [len_detached])
    refine ReturnsIff.congr (.after (Block.size_returns (b := ⟨r⟩) hr)
      (.bind (unlink_returnsIff _ r) (.bind hscrub (.plus _ _)))) ?_
    rw [len_detached]
    exact ⟨fun ⟨hlinks, htags, hsum⟩ _ => ⟨⟨hlinks, htags⟩, hsum⟩,
      fun h => ⟨(h hf).1.links, (h hf).1.tags, (h hf).2⟩⟩
  · rw [if_neg hf, if_neg hf]
    exact (ReturnsIff.of_returns (.pure _ _)).congr (by simp [hf])

/-- What the checks look at: the block is intact and taken, and so are its neighbours intact. A left
neighbour at index 0 is not looked at. -/
structure Vetted (h : Heap) (i : Nat) : Prop where
  block : h.Intact i
  taken : isTakenTag (h.unit i) = true
  left : h.leftOf i = 0 ∨ h.Intact (h.leftOf i)
  right : h.Intact (i + h.sizeAt i)

/-- What they do not look at: the links of free neighbours, the tags as they are once those links
are followed, and the block at the head of the list. -/
structure Mends (h : Heap) (i : Nat) : Prop where
  left : isFreeTag (h.unit (h.leftOf i)) = true → h.Absorbable i (h.leftOf i)
  right : isFreeTag ((h.withLeft i).heap.unit (i + h.sizeAt i)) = true →
    (h.withLeft i).heap.Absorbable (i + h.sizeAt i) (i + h.sizeAt i)
  front : ((h.withLeft i).withRight (i + h.sizeAt i)).heap.Pushable (h.withLeft i).start
    ((h.withLeft i).withRight (i + h.sizeAt i)).size

theorem checkLink_cases (h : Heap) (i : Nat) :
    ((i = 0 ∨ h.Intact i) ∧ (Block.guardLink true h.arena.len i).Returns h () h) ∨
      (¬(i = 0 ∨ h.Intact i) ∧ (Block.guardLink true h.arena.len i).Reports h) := by
  change (_ ∧ Returns (if i = 0 then pure () else Block.check h.arena.len ⟨i⟩) h () h) ∨
    (_ ∧ Reports (if i = 0 then pure () else Block.check h.arena.len ⟨i⟩) h)
  by_cases h₀ : i = 0
  · rw [if_pos h₀]
    exact .inl ⟨.inl h₀, .pure () h⟩
  rw [if_neg h₀]
  by_cases hi : h.Intact i
  · exact .inl ⟨.inr hi, Block.check_intact hi⟩
  · exact .inr ⟨not_or.mpr ⟨h₀, hi⟩, Block.check_reports hi⟩

theorem Block.left_returns_leftOf (h₀ : i ≠ 0) (hi : i < h.arena.len) :
    (Block.left ⟨i⟩).Returns h ⟨h.leftOf i⟩ h := by
  have hl := Block.left_returns (h := h) (b := ⟨i⟩) (by change i - 1 < _; omega)
  have hone : i - 1 + 1 = i := Nat.succ_pred_eq_of_ne_zero h₀
  change (Block.left _).Returns h ⟨i - 1 + 1 - h.sizeAt (i - 1)⟩ h at hl
  rwa [hone] at hl

/-- Past the checks nothing is reported any more. -/
theorem merge_returnsIff (hv : h.Vetted i) :
    ∃ h', (do
      let (start, size) ← absorbLeft ⟨i⟩ ⟨h.leftOf i⟩ (← Block.size ⟨i⟩)
      FreeList.push start (← absorbRight ⟨i + h.sizeAt i⟩ size)
      .countFree (pure ()) : Action Unit).ReturnsIff h (h.Mends i) () h' := by
  let m := h.withLeft i
  let m' := m.withRight (i + h.sizeAt i)
  have hlen : m.heap.arena.len = h.arena.len := len_withLeft h i
  have hr : i + h.sizeAt i < m.heap.arena.len := hlen ▸ hv.right.lt
  have hpush := push_returnsIff m'.heap m.start m'.size
  refine ⟨_, ReturnsIff.congr (.after (Block.size_returns (b := ⟨i⟩) hv.block.lt)
    (.bind (absorbLeft_returnsIff hv.block) (.bind (absorbRight_returnsIff m hr)
      (.before hpush (.countFree () _))))) ?_⟩
  constructor
  · rintro ⟨hleft, hright, hfront⟩
    exact ⟨hleft, fun hf => (hright hf).1, hfront⟩
  · rintro ⟨hleft, hright, hfront⟩
    refine ⟨hleft, fun hf => ⟨hright hf, ?_⟩, hfront⟩
    -- a block that is too large for a sum is too large for the arena
    have hsize : m'.size = m.size + m.heap.sizeAt (i + h.sizeAt i) := by
      simp only [m', Merge.withRight, hf, if_true]
    have hinside : m.start + m'.size ≤ m'.heap.arena.len := hfront.inside
    have hlen := m'.heap.arena.len_lt
    omega

theorem ne_zero_of_indexOfPayload {len : Nat} (hx : indexOfPayload base len addr = .ok i) :
    i ≠ 0 := by
  unfold indexOfPayload at hx
  split at hx
  · cases hx
  · dsimp only at hx
    split at hx
    · cases hx
    · cases hx
      exact fun h₀ => absurd (Or.inl h₀) ‹_›

theorem giveBack_cases (hx : indexOfPayload base h.arena.len addr = .ok i) :
    (h.Vetted i ∧ ∃ h', (giveBack true base h.arena.len addr).ReturnsIff h (h.Mends i) () h') ∨
      (¬h.Vetted i ∧ (giveBack true base h.arena.len addr).Reports h) := by
  have h₀ := ne_zero_of_indexOfPayload hx
  rw [giveBack, hx]
  rcases checkLink_cases h i with ⟨hi, hguard⟩ | ⟨hi, hguard⟩
  swap
  · exact .inr ⟨fun hv => hi (.inr hv.block), .bind hguard⟩
  have hi := hi.resolve_left h₀
  have htaken := Block.isTaken_returns (b := ⟨i⟩) hi.lt
  by_cases ht : isTakenTag (h.unit i) = true
  swap
  · refine .inr ⟨fun hv => ht hv.taken, hguard.reports (htaken.reports ?_)⟩
    rw [eq_false_of_ne_true ht]
    exact .bind (.fail rfl h)
  rw [ht] at htaken
  have hleft := Block.left_returns_leftOf h₀ hi.lt
  have hright := Block.right_returns (b := ⟨i⟩) hi.lt
  rcases checkLink_cases h (h.leftOf i) with ⟨hl, hguard₁⟩ | ⟨hl, hguard₁⟩
  swap
  · exact .inr ⟨fun hv => hl hv.left,
      hguard.reports (htaken.reports (hleft.reports (hright.reports (.bind hguard₁))))⟩
  rcases checkLink_cases h (i + h.sizeAt i) with ⟨hr, hguard₂⟩ | ⟨hr, hguard₂⟩
  swap
  · exact .inr ⟨fun hv => hr (.inr hv.right), hguard.reports (htaken.reports (hleft.reports
      (hright.reports (hguard₁.reports (.bind hguard₂)))))⟩
  have hv : h.Vetted i := ⟨hi, ht, hl, hr.resolve_left (by omega)⟩
  obtain ⟨h', hmerge⟩ := merge_returnsIff hv
  exact .inl ⟨hv, h', .after hguard (.after htaken (.after hleft (.after hright
    (.after hguard₁ (.after hguard₂ hmerge)))))⟩

/-! ## The search -/

/-- Free blocks, fewer than the search looks at, lead to one of a single unit at the very end of the
arena. Its link is outside. -/
structure Strays (h : Heap) (pre : List Nat) : Prop where
  links : (0 :: pre ++ [h.arena.len - 1]).IsChain fun x y => h.succ x = y
  nodes : ∀ i ∈ pre, h.FreeAt i
  lone : h.unit (h.arena.len - 1) = freeTag 1
  few : pre.length + 1 < scanLimit

variable {attempts x y : Nat} {pre : List Nat} {best : Option (Nat × Nat)}

namespace FreeList

/-- The best block so far, after one more. -/
def keep (h : Heap) (units : Nat) (best : Option (Nat × Nat)) (i : Nat) : Option (Nat × Nat) :=
  if better units (h.sizeAt i) best then some (i, h.sizeAt i) else best

theorem of_mem_keep {b : Nat} (hb : b ∈ (keep h units best i).map (·.1)) :
    b ∈ best.map (·.1) ∨ b = i ∧ units ≤ h.sizeAt i := by
  unfold keep at hb
  split at hb
  · rename_i hbetter
    simp only [better, Bool.and_eq_true, decide_eq_true_eq] at hbetter
    obtain rfl : i = b := by simpa using hb
    exact .inr ⟨rfl, hbetter.1⟩
  · exact .inl hb

theorem scan_end (attempts : Nat) (best : Option (Nat × Nat)) :
    (scan true h.arena.len units attempts 0 best).Returns h (best.map (·.1)) h := by
  cases attempts <;> exact .pure _ h

/-- One node of the search, up to its link. -/
theorem scan_node (hi : h.FreeAt i) (attempts : Nat) (best : Option (Nat × Nat)) :
    (scan true h.arena.len units (attempts + 1) i best).run h =
      (if attempts = 0 then pure ((keep h units best i).map (·.1))
      else Block.next ⟨i⟩ >>= fun j =>
        scan true h.arena.len units attempts j (keep h units best i)).run h := by
  have hguard : (Block.guardLink true h.arena.len i).Returns h () h := by
    change Returns (if i = 0 then pure () else Block.check h.arena.len ⟨i⟩) h () h
    rw [if_neg hi.ne_zero]
    exact Block.check_intact hi.intact
  have hfree := Block.isFree_returns (b := ⟨i⟩) hi.lt
  have hsize := Block.size_returns (b := ⟨i⟩) hi.lt
  rw [hi.free] at hfree
  simp only [scan, hi.ne_zero, if_false]
  rw [Action.run_bind, hguard]
  dsimp only
  rw [Action.run_bind, hfree]
  simp only [Bool.not_true, Bool.false_eq_true, if_false]
  rw [Action.run_bind, hsize]
  rfl

theorem scan_reports (hi : ¬h.FreeAt i) (h₀ : i ≠ 0) (attempts : Nat)
    (best : Option (Nat × Nat)) :
    (scan true h.arena.len units (attempts + 1) i best).Reports h := by
  simp only [scan, h₀, if_false]
  rcases checkLink_cases h i with ⟨hint, hguard⟩ | ⟨-, hguard⟩
  · have hint := hint.resolve_left h₀
    have hfree : isFreeTag (h.unit i) = false :=
      eq_false_of_ne_true fun hf => hi ⟨h₀, hint, hf⟩
    have hret := Block.isFree_returns (b := ⟨i⟩) hint.lt
    rw [hfree] at hret
    exact hguard.reports (hret.reports (.bind (.fail rfl h)))
  · exact .bind hguard

theorem scan_faults (hi : h.FreeAt y) (ho : h.arena.len ≤ y + 1)
    (hw : (x :: pre ++ [y]).IsChain fun x y => h.succ x = y) (hl : ∀ i ∈ pre, h.FreeAt i)
    (hn : pre.length + 1 < attempts) (best : Option (Nat × Nat)) :
    (scan true h.arena.len units attempts (h.succ x) best).Faults h .outsideArena := by
  obtain ⟨attempts, rfl⟩ := Nat.exists_eq_add_of_le' (Nat.zero_lt_of_lt hn)
  have hmore : attempts ≠ 0 := by omega
  induction pre generalizing attempts x best with
  | nil =>
    rw [List.isChain_pair.mp hw, Faults, scan_node hi, if_neg hmore]
    exact (Block.next_faults hi.lt ho).bind
  | cons i pre ih =>
    obtain ⟨hs, hw⟩ := List.isChain_cons_cons.mp hw
    obtain ⟨hnode, hl⟩ := List.forall_mem_cons.mp hl
    rw [hs, Faults, scan_node hnode, if_neg hmore]
    by_cases hroom : i + 1 < h.arena.len
    · rw [List.length_cons] at hn
      obtain ⟨attempts, rfl⟩ := Nat.exists_eq_add_of_le' (Nat.pos_of_ne_zero hmore)
      exact (Block.next_returns (b := ⟨i⟩) hnode.ne_zero hroom).faults
        (ih hw hl _ _ (by omega) (by omega))
    · exact (Block.next_faults hnode.lt (Nat.not_lt.mp hroom)).bind

theorem scan_cases (h : Heap) (units attempts x : Nat) (best : Option (Nat × Nat)) :
    (∃ pre y, (x :: pre ++ [y]).IsChain (fun x y => h.succ x = y) ∧ (∀ i ∈ pre, h.FreeAt i) ∧
        h.FreeAt y ∧ h.arena.len ≤ y + 1 ∧ pre.length + 1 < attempts) ∨
      (∃ r, (scan true h.arena.len units attempts (h.succ x) best).Returns h r h ∧
        ∀ b ∈ r, b ∈ best.map (·.1) ∨ h.FreeAt b ∧ units ≤ h.sizeAt b) ∨
      (scan true h.arena.len units attempts (h.succ x) best).Reports h := by
  induction attempts generalizing x best with
  | zero => exact .inr (.inl ⟨_, .pure _ h, fun b hb => .inl hb⟩)
  | succ attempts ih =>
    by_cases h₀ : h.succ x = 0
    · rw [h₀]
      exact .inr (.inl ⟨_, scan_end _ best, fun b hb => .inl hb⟩)
    by_cases hi : h.FreeAt (h.succ x)
    swap
    · exact .inr (.inr (scan_reports hi h₀ attempts best))
    have hkept : ∀ b ∈ (keep h units best (h.succ x)).map (·.1),
        b ∈ best.map (·.1) ∨ h.FreeAt b ∧ units ≤ h.sizeAt b := by
      intro b hb
      rcases of_mem_keep hb with hb | ⟨rfl, hle⟩
      · exact .inl hb
      · exact .inr ⟨hi, hle⟩
    unfold Returns Reports
    simp only [scan_node hi]
    by_cases hmore : attempts = 0
    · rw [if_pos hmore]
      exact .inr (.inl ⟨_, Returns.pure _ h, hkept⟩)
    rw [if_neg hmore]
    by_cases hroom : h.succ x + 1 < h.arena.len
    · have hnext := Block.next_returns (b := ⟨h.succ x⟩) h₀ hroom
      rcases ih (h.succ x) (keep h units best (h.succ x)) with
        ⟨pre, y, hw, hl, hy, ho, hn⟩ | ⟨r, hret, hr⟩ | hr
      · exact .inl ⟨h.succ x :: pre, y, .cons_cons rfl hw, List.forall_mem_cons.mpr ⟨hi, hl⟩, hy,
          ho, Nat.succ_lt_succ hn⟩
      · refine .inr (.inl ⟨r, hnext.bind hret, fun b hb => ?_⟩)
        exact (hr b hb).elim (hkept b) .inr
      · exact .inr (.inr (hnext.reports hr))
    · exact .inl ⟨[], h.succ x, List.isChain_pair.mpr rfl, by simp, hi, Nat.not_lt.mp hroom,
        by simp; omega⟩

theorem bestFit_faults (hs : h.Strays pre) (hl : 2 ≤ h.arena.len) (units : Nat) :
    (bestFit true h.arena.len units).Faults h .outsideArena :=
  (Returns.head h).faults (scan_faults ((freeAt_last_iff hl).mpr hs.lone) (by omega) hs.links
    hs.nodes hs.few none)

/-- The search strays, finds a block or none, or reports damage. -/
theorem bestFit_cases (hl : 2 ≤ h.arena.len) (units : Nat) :
    (∃ pre, h.Strays pre) ∨
      (∃ r, (bestFit true h.arena.len units).Returns h r h ∧
        ∀ b ∈ r, h.FreeAt b ∧ units ≤ h.sizeAt b) ∨
      (bestFit true h.arena.len units).Reports h := by
  rcases scan_cases h units scanLimit 0 none with
    ⟨pre, y, hw, hnodes, hy, ho, hn⟩ | ⟨r, hret, hr⟩ | hr
  · have hlt := hy.lt
    obtain rfl : y = h.arena.len - 1 := by omega
    exact .inl ⟨pre, hw, hnodes, (freeAt_last_iff hl).mp hy, hn⟩
  · exact .inr (.inl ⟨r, (Returns.head h).bind hret, fun b hb => (hr b hb).resolve_left (by simp)⟩)
  · exact .inr (.inr ((Returns.head h).reports hr))

end FreeList

/-! ## Handing out what was found -/

/-- The links of the block are in the arena, and so is the block at the head of the list if a rest
goes in front of it. -/
structure Serves (h : Heap) (b units : Nat) : Prop where
  links : h.Detachable b
  head : minBlockUnits ≤ h.sizeAt b - units → (h.detached b).head ≠ 0 →
    (h.detached b).head + 2 < h.arena.len

/-- A block off the list, all of it or its front, is marked taken. -/
theorem serve_returnsIff {b : Nat} (hu : minBlockUnits ≤ units) (hin : b + h.sizeAt b ≤ h.arena.len)
    (hfit : units ≤ h.sizeAt b) :
    ∃ h', (do
      if minBlockUnits ≤ h.sizeAt b - units then
        Block.markTaken ⟨b⟩ units
        FreeList.push (← Action.plus b units) (h.sizeAt b - units)
      else
        Block.markTaken ⟨b⟩ (h.sizeAt b)
      .countAllocation (pure (some b)) : Action (Option Nat)).ReturnsIff (h.detached b)
        (minBlockUnits ≤ h.sizeAt b - units → (h.detached b).head ≠ 0 →
          (h.detached b).head + 2 < h.arena.len) (some b) h' := by
  have hlen := h.arena.len_lt
  have hu₄ : 4 ≤ units := hu
  have hlen' : (h.detached b).arena.len = h.arena.len := len_detached h b
  have htags := fun n => Block.writeTags_returnsIff (h.detached b) b n (takenTag n)
  by_cases hx : minBlockUnits ≤ h.sizeAt b - units
  · have hx₄ : 4 ≤ h.sizeAt b - units := hx
    have hpush := push_returnsIff ((h.detached b).setTags b (takenTag units) units)
      (b + units) (h.sizeAt b - units)
    simp only [hx, if_true]
    refine ⟨_, ReturnsIff.congr (.bind (htags units) (.after (.plus (by omega))
      (.before hpush (.countAllocation _ _)))) ?_⟩
    constructor
    · rintro ⟨-, hp⟩ -
      have hhead := hp.head
      rwa [head_setTags, len_setTags, hlen'] at hhead
    · intro hhead
      refine ⟨⟨by omega, by omega⟩, by omega, ?_, ?_, ?_⟩ <;> rw [len_setTags, hlen']
      · omega
      · omega
      · rw [head_setTags]
        exact hhead trivial
  · simp only [hx, if_false]
    refine ⟨_, ReturnsIff.congr (.before (htags (h.sizeAt b)) (.countAllocation _ _)) ?_⟩
    rw [hlen']
    exact ⟨fun _ hf => hf.elim, fun _ => ⟨by omega, hin⟩⟩

theorem takeFit_returnsIff {b : Nat} (hu : minBlockUnits ≤ units) (hi : h.FreeAt b)
    (hfit : units ≤ h.sizeAt b)
    (hb : (FreeList.bestFit true h.arena.len units).Returns h (some b) h) :
    ∃ h', (takeFit true h.arena.len units).ReturnsIff h (h.Serves b units) (some b) h' := by
  have hsize := Block.size_returns (b := ⟨b⟩) hi.lt
  obtain ⟨h', hserve⟩ := serve_returnsIff hu hi.intact.inside hfit
  refine ⟨h', ReturnsIff.congr (.after hb (.after hsize (.bind (unlink_returnsIff h b) hserve))) ?_⟩
  exact ⟨fun ⟨hlinks, hhead⟩ => ⟨hlinks, hhead⟩, fun hs => ⟨hs.links, hs.head⟩⟩

/-! ## When an answer comes -/

theorem takeFit_answers_iff (hl : 2 ≤ h.arena.len) (hu : minBlockUnits ≤ units) :
    (takeFit true h.arena.len units).Answers h ↔ (¬∃ pre, h.Strays pre) ∧
      ∀ b, (FreeList.bestFit true h.arena.len units).Returns h (some b) h → h.Serves b units := by
  have hstray : (∃ pre, h.Strays pre) →
      ¬(FreeList.bestFit true h.arena.len units).Answers h := fun ⟨pre, hs⟩ hans =>
    hans _ (FreeList.bestFit_faults hs hl units)
  rcases FreeList.bestFit_cases hl units with hs | ⟨r, hret, hr⟩ | hrep
  · refine iff_of_false (fun hans => ?_) fun hno => hno.1 hs
    obtain ⟨pre, hs⟩ := hs
    exact hans _ (FreeList.bestFit_faults hs hl units).bind
  · have hno : ¬∃ pre, h.Strays pre := fun hs => hstray hs hret.answers
    cases r with
    | none =>
      have htake : (takeFit true h.arena.len units).Returns h none h := hret.bind (.pure none h)
      refine iff_of_true htake.answers ⟨hno, fun b hb => ?_⟩
      cases hret.symm.trans hb
    | some b =>
      obtain ⟨hi, hfit⟩ := hr b rfl
      obtain ⟨h', hiff⟩ := takeFit_returnsIff hu hi hfit hret
      rw [hiff.answers_iff]
      refine ⟨fun hs => ⟨hno, fun b' hb => ?_⟩, fun hs => hs.2 b hret⟩
      cases hret.symm.trans hb
      exact hs
  · have htake : (takeFit true h.arena.len units).Reports h := hrep.bind
    exact iff_of_true htake.answers
      ⟨fun hs => hstray hs hrep.answers, fun b hb => absurd hrep hb.not_reports⟩

theorem giveBack_answers_iff (base addr : Nat) :
    (giveBack true base h.arena.len addr).Answers h ↔
      ∀ i, indexOfPayload base h.arena.len addr = .ok i → h.Vetted i → h.Mends i := by
  cases hx : indexOfPayload base h.arena.len addr with
  | error e =>
    have hfail : (giveBack true base h.arena.len addr).run h = (.error (.error e), h) := by
      rw [giveBack, hx]
      rfl
    refine iff_of_true ((Action.answers_iff _ h).mpr (.inr ⟨e, congrArg (·.1) hfail⟩)) ?_
    intro i hi
    cases hi
  | ok i =>
    rcases giveBack_cases hx with ⟨hv, h', hiff⟩ | ⟨hv, hrep⟩
    · rw [hiff.answers_iff]
      refine ⟨fun hm j hj _ => ?_, fun hm => hm i rfl hv⟩
      cases hj
      exact hm
    · refine iff_of_true hrep.answers fun j hj hv' => ?_
      cases hj
      exact absurd hv' hv

end Heap

variable {m : KernelMemory} {h : Heap}

namespace KernelMemory

theorem perform_fst {α : Type} (code : Memory → Action α) (hm : m.heap = some h) :
    (m.perform code).1 = ((code h.arena).run h).1 := by
  obtain ⟨ram, checks, heap⟩ := m
  obtain rfl : heap = some h := hm
  rfl

theorem allocate_answers_iff (hm : m.heap = some h) (hc : m.checks = true)
    (hl : 2 ≤ h.arena.len) (size : Nat) :
    ((∃ p, (m.allocate size).1 = .ok p) ∨
        ∃ e, (m.allocate size).1 = .error (.corruptOnAllocate e)) ↔
      ∀ units, size ≠ 0 → unitsFor size = some units → (¬∃ pre, h.Strays pre) ∧
        ∀ b, (FreeList.bestFit true h.arena.len units).Returns h (some b) h →
          h.Serves b units := by
  have hinit : m.isInitialised = true := by rw [isInitialised, hm]; rfl
  by_cases h₀ : size = 0
  · exact iff_of_true (.inl ⟨none, by simp [allocate, h₀]⟩) fun _ hne => absurd h₀ hne
  cases hu : unitsFor size with
  | none =>
    exact iff_of_true (.inl ⟨none, by simp [allocate, h₀, hinit, hu]⟩) fun _ _ h => by cases h
  | some units =>
    have hans : (takePayload true h.arena.base h.arena.len units).Answers h ↔
        (takeFit true h.arena.len units).Answers h := Action.answers_map
    rw [takeFit_answers_iff hl (minBlockUnits_le_of_unitsFor hu), Action.answers_iff] at hans
    have hrun := perform_fst (fun arena => takePayload m.checks arena.base arena.len units) hm
    simp only [hc] at hrun
    rw [← hrun] at hans
    simp only [forall_const, Option.some.injEq, forall_eq', ne_eq, h₀, not_false_eq_true]
    rw [← hans]
    simp only [allocate, h₀, hinit, hu, hc]
    generalize m.perform _ = q
    obtain ⟨(e | f) | p, m'⟩ := q <;> simp

theorem tryFree_answers_iff (hm : m.heap = some h) (hc : m.checks = true) (addr : Nat) :
    ((m.tryFree addr).1 = .ok () ∨ ∃ e : Error, (m.tryFree addr).1 = .error (.error e)) ↔
      (addr ≠ 0 → addr ≠ h.arena.base → ∀ i,
        indexOfPayload h.arena.base h.arena.len addr = .ok i → h.Vetted i → h.Mends i) := by
  by_cases h₀ : addr = 0
  · exact iff_of_true (.inl (by simp [tryFree, h₀])) fun hne => absurd h₀ hne
  have hrun := perform_fst (fun arena => givePayload m.checks arena.base arena.len addr) hm
  simp only [hc] at hrun
  rw [tryFree, if_neg h₀]
  simp only [hc, hrun]
  by_cases hb : addr = h.arena.base
  · exact iff_of_true (.inl (by rw [givePayload, if_pos hb]; rfl)) fun _ hne => absurd hb hne
  · have hans := giveBack_answers_iff (h := h) h.arena.base addr
    rw [Action.answers_iff] at hans
    simp only [givePayload, hb, if_false, ne_eq, h₀, not_false_eq_true, forall_const, ← hans]
    exact or_congr_left ⟨fun hok => ⟨(), hok⟩, fun ⟨_, hok⟩ => hok⟩

/-- With the checks on, whatever the arena holds: a request is answered exactly when the search does
not stray and the block that it settles on can be taken off the list, with room for what the list
needs of the rest; a block that passes the checks is taken back exactly when its free neighbours can
be taken off the list and it can go in front. Otherwise a link that no check looks at leads outside
the arena. -/
theorem checked_calls_answer_iff (hm : m.heap = some h) (hc : m.checks = true)
    (hl : minArenaUnits ≤ h.arena.len) :
    (∀ size, ((∃ p, (m.allocate size).1 = .ok p) ∨
        ∃ e, (m.allocate size).1 = .error (.corruptOnAllocate e)) ↔
      ∀ units, size ≠ 0 → unitsFor size = some units → (¬∃ pre, h.Strays pre) ∧
        ∀ b, (FreeList.bestFit true h.arena.len units).Returns h (some b) h →
          h.Serves b units) ∧
    ∀ addr, ((m.tryFree addr).1 = .ok () ∨
        ∃ e : Error, (m.tryFree addr).1 = .error (.error e)) ↔
      (addr ≠ 0 → addr ≠ h.arena.base → ∀ i,
        indexOfPayload h.arena.base h.arena.len addr = .ok i → h.Vetted i → h.Mends i) :=
  ⟨allocate_answers_iff hm hc (Nat.le_trans (by decide) hl), tryFree_answers_iff hm hc⟩

/-- A taken block and a free one behind it, whose link back is far outside the arena. -/
def tornHeap : Heap where
  arena := ⟨12288, #[-2, -2, -4, 0, 0, -4, 8, 0, 1000, 0, 0, 0, 0, 8, -2, -2],
    by decide, by decide, by decide⟩
  head := 6
  allocations := 1
  frees := 0

def tornMemory : KernelMemory := ⟨tornHeap.arena, true, tornHeap⟩

theorem checked_calls_answer_iff_torn :
    minArenaUnits ≤ tornHeap.arena.len ∧ tornHeap.Vetted 2 ∧ ¬tornHeap.Mends 2 ∧
      ¬((tornMemory.tryFree 12312).1 = .ok () ∨
        ∃ e : Error, (tornMemory.tryFree 12312).1 = .error (.error e)) := by
  have hv : tornHeap.Vetted 2 :=
    ⟨by decide +kernel, by decide +kernel, .inl (by decide +kernel), by decide +kernel⟩
  have hn : ¬tornHeap.Mends 2 := fun hmends =>
    absurd ((hmends.right (by decide +kernel)).links.before (by decide +kernel)) (by decide +kernel)
  refine ⟨by decide, hv, hn, fun hans => hn ?_⟩
  exact (checked_calls_answer_iff (m := tornMemory) rfl rfl (by decide)).2 12312 |>.mp hans
    (by decide) (by decide) 2 (by decide +kernel) hv

/-- Both the block next to the damage and the damaged one lead the heap outside. -/
theorem checked_calls_torn : tornMemory.checks = true ∧
    (tornMemory.tryFree 12312).1 = .error (.fault .outsideArena) ∧
    (tornMemory.allocate 16).1 = .error (.fault .outsideArena) := by
  decide +kernel

end KernelMemory

end BareKernel
