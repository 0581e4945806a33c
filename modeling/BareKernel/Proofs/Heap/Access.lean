import Mathlib.Tactic.Common
import BareKernel.Heap.Basic

/-! Accesses of heap code, seen as pure functions of the heap. `Returns` says how an action that
runs alone ends; every operation on a block, a tag or a link gets one lemma of that form, and
nothing later unfolds the operation again. Tags are read back as the size and the kind that they
were made of. -/

namespace BareKernel

theorem Memory.len_lt (m : Memory) : m.len < 0x2000000000000000 := by
  have h₀ := m.base_ne_zero
  have he := m.end_le
  change m.base + 8 * m.len ≤ _ at he
  omega

namespace Heap

/-! ## Tags and links -/

theorem sizeOfTag_le (tag : Int64) : sizeOfTag tag ≤ 0x8000000000000000 := by
  have h₁ := tag.le_toInt
  have h₂ := tag.toInt_lt
  unfold sizeOfTag
  omega

theorem toInt_freeTag {n : Nat} (h : n < 0x2000000000000000) : (freeTag n).toInt = n :=
  Int64.toInt_ofNat_of_lt (by omega)

theorem toInt_takenTag {n : Nat} (h : n < 0x2000000000000000) : (takenTag n).toInt = -n :=
  Int64.toInt_neg_ofNat_of_le (by omega)

theorem linkOfUnit_unitOfLink {n : Nat} (h : n < 0x10000000000000000) :
    linkOfUnit (unitOfLink n) = n := by
  have hn : (Int64.ofNat n).toUInt64 = UInt64.ofNat n := Int64.toUInt64_ofNat
  rw [linkOfUnit, unitOfLink, hn]
  exact UInt64.toNat_ofNat_of_lt' h

/-! ## Units -/

/-- The unit at an index, 0 outside the arena. -/
def unit (h : Heap) (i : Nat) : Int64 := h.arena.units.getD i 0

@[simp] theorem len_setUnit (h : Heap) (i : Nat) (v : Int64) :
    (h.setUnit i v).arena.len = h.arena.len := h.arena.len_setUnit i v

@[simp] theorem head_setUnit (h : Heap) (i : Nat) (v : Int64) : (h.setUnit i v).head = h.head := rfl

theorem unit_setUnit_self {h : Heap} {i : Nat} (v : Int64) (hi : i < h.arena.len) :
    (h.setUnit i v).unit i = v := by
  have hu := h.arena.getElem?_setUnit i i v
  simp only [if_true, hi] at hu
  simp [unit, setUnit, Array.getD_eq_getD_getElem?, hu]

theorem unit_setUnit_ne {h : Heap} {i j : Nat} (v : Int64) (hij : i ≠ j) :
    (h.setUnit i v).unit j = h.unit j := by
  have hu := h.arena.getElem?_setUnit i j v
  simp only [hij, if_false] at hu
  simp [unit, setUnit, Array.getD_eq_getD_getElem?, hu]

/-! ## How an action ends -/

namespace Action

variable {α β : Type} {x : Action α} {f : α → Action β} {a : α} {b : β} {h h₁ h₂ : Heap}

/-- Run from `h`, the action ends with the answer `a` and leaves `h'`. -/
def Returns (x : Action α) (h : Heap) (a : α) (h' : Heap) : Prop := x.run h = (.ok a, h')

theorem Returns.pure (a : α) (h : Heap) : Returns (Pure.pure a) h a h := run_pure a h

theorem Returns.bind (hx : x.Returns h a h₁) (hf : (f a).Returns h₁ b h₂) :
    (x >>= f).Returns h b h₂ := by
  unfold Returns at *
  rw [run_bind, hx]
  exact hf

theorem Returns.of_bind (hr : (x >>= f).Returns h b h₂) :
    ∃ a h₁, x.Returns h a h₁ ∧ (f a).Returns h₁ b h₂ := by
  unfold Returns at hr
  rw [run_bind] at hr
  generalize hx : x.run h = r at hr
  obtain ⟨e | a, h₁⟩ := r
  · cases hr
  · exact ⟨a, h₁, hx, hr⟩

theorem Returns.read {i : Nat} (hi : i < h.arena.len) : (read i).Returns h (h.unit i) h := by
  have hg : h.arena.units[i]? = some h.arena.units[i] := Array.getElem?_eq_getElem hi
  simp [Returns, Action.read, run, hg, unit, Array.getD_eq_getD_getElem?]

theorem Returns.write {i : Nat} (v : Int64) (hi : i < h.arena.len) :
    (write i v).Returns h () (h.setUnit i v) := by
  simp [Returns, Action.write, run, hi]

theorem Returns.head (h : Heap) : Action.head.Returns h h.head h := rfl

theorem Returns.setHead (i : Nat) (h : Heap) :
    (Action.setHead i).Returns h () { h with head := i } := rfl

theorem Returns.countAllocation (a : α) (h : Heap) :
    (Action.countAllocation (Pure.pure a)).Returns h a
      { h with allocations := h.allocations + 1 } := rfl

theorem Returns.countFree (a : α) (h : Heap) :
    (Action.countFree (Pure.pure a)).Returns h a { h with frees := h.frees + 1 } := rfl

theorem Returns.plus {i j : Nat} (hij : i + j < 0x10000000000000000) :
    (Action.plus i j).Returns h (i + j) h := by
  simp [Returns, Action.plus, hij]

/-- Run from `h`, the action is stopped by a fault. -/
def Faults (x : Action α) (h : Heap) (fault : Fault) : Prop := (x.run h).1 = .error (.fault fault)

theorem Faults.fail (fault : Fault) (h : Heap) :
    (Action.fail (.fault fault) : Action α).Faults h fault := rfl

theorem Faults.bind {fault : Fault} (hx : x.Faults h fault) : (x >>= f).Faults h fault := by
  unfold Faults at *
  rw [run_bind]
  generalize x.run h = r at hx
  obtain ⟨r, h'⟩ := r
  obtain rfl : r = _ := hx
  rfl

theorem Returns.faults {fault : Fault} (hx : x.Returns h a h₁) (hf : (f a).Faults h₁ fault) :
    (x >>= f).Faults h fault := by
  unfold Faults
  rw [run_bind, hx]
  exact hf

/-- There is no unit outside the arena to read or to write. -/
theorem Faults.read {i : Nat} (hi : h.arena.len ≤ i) : (read i).Faults h .outsideArena := by
  have hg : h.arena.units[i]? = none := Array.getElem?_eq_none hi
  simp [Faults, Action.read, run, hg]

theorem Faults.write {i : Nat} (v : Int64) (hi : h.arena.len ≤ i) :
    (write i v).Faults h .outsideArena := by
  simp [Faults, Action.write, run, Nat.not_lt.mpr hi]

theorem Faults.plus {i j : Nat} (hij : ¬i + j < 0x10000000000000000) :
    (Action.plus i j).Faults h .sumTooLarge := by
  rw [Action.plus, if_neg hij]
  exact .fail _ h

/-- Run from `h`, the action returns `a` and leaves `h'` when `P` holds, and is stopped by a fault
when it does not. -/
structure ReturnsIff (x : Action α) (h : Heap) (P : Prop) (a : α) (h' : Heap) : Prop where
  returns : P → x.Returns h a h'
  faults : ¬P → ∃ fault, x.Faults h fault

namespace ReturnsIff

variable {P Q : Prop}

theorem of_returns (hx : x.Returns h a h₁) : x.ReturnsIff h True a h₁ :=
  ⟨fun _ => hx, fun hn => absurd trivial hn⟩

theorem of_returning {a' : α} (hx : x.ReturnsIff h P a h₁) (hr : x.Returns h a' h₂) :
    P ∧ h₂ = h₁ := by
  by_cases hP : P
  · have hrun := hr.symm.trans (hx.returns hP)
    exact ⟨hP, congrArg (·.2) hrun⟩
  · obtain ⟨f, hf⟩ := hx.faults hP
    rw [Faults, hr] at hf
    cases hf

theorem congr (hx : x.ReturnsIff h P a h₁) (hPQ : P ↔ Q) : x.ReturnsIff h Q a h₁ :=
  ⟨fun hq => hx.returns (hPQ.mpr hq), fun hq => hx.faults fun hp => hq (hPQ.mp hp)⟩

theorem bind (hx : x.ReturnsIff h P a h₁) (hf : (f a).ReturnsIff h₁ Q b h₂) :
    (x >>= f).ReturnsIff h (P ∧ Q) b h₂ := by
  refine ⟨fun ⟨hp, hq⟩ => (hx.returns hp).bind (hf.returns hq), fun hn => ?_⟩
  by_cases hp : P
  · obtain ⟨fault, hf⟩ := hf.faults fun hq => hn ⟨hp, hq⟩
    exact ⟨fault, (hx.returns hp).faults hf⟩
  · obtain ⟨fault, hx⟩ := hx.faults hp
    exact ⟨fault, hx.bind⟩

theorem after (hx : x.Returns h a h₁) (hf : (f a).ReturnsIff h₁ P b h₂) :
    (x >>= f).ReturnsIff h P b h₂ :=
  ((of_returns hx).bind hf).congr (iff_of_eq (true_and P))

theorem before (hx : x.ReturnsIff h P a h₁) (hf : (f a).Returns h₁ b h₂) :
    (x >>= f).ReturnsIff h P b h₂ :=
  (hx.bind (of_returns hf)).congr (iff_of_eq (and_true P))

theorem read (i : Nat) : (Action.read i).ReturnsIff h (i < h.arena.len) (h.unit i) h :=
  ⟨.read, fun hi => ⟨_, .read (Nat.not_lt.mp hi)⟩⟩

theorem write (i : Nat) (v : Int64) :
    (Action.write i v).ReturnsIff h (i < h.arena.len) () (h.setUnit i v) :=
  ⟨.write v, fun hi => ⟨_, .write v (Nat.not_lt.mp hi)⟩⟩

theorem plus (i j : Nat) :
    (Action.plus i j).ReturnsIff h (i + j < 0x10000000000000000) (i + j) h :=
  ⟨.plus, fun hij => ⟨_, .plus hij⟩⟩

end ReturnsIff

end Action

/-! ## Blocks as they are read -/

/-- The units of the block whose header is at `i`. -/
def sizeAt (h : Heap) (i : Nat) : Nat := sizeOfTag (h.unit i)

/-- The link of a block to the next node, as it is read. -/
def nextAt (h : Heap) (i : Nat) : Nat := linkOfUnit (h.unit (i + 1))

/-- The node after `i` on the free list. The node after 0 is the first one. -/
def succ (h : Heap) (i : Nat) : Nat := if i = 0 then h.head else linkOfUnit (h.unit (i + 1))

/-- The node before `i` on the free list, 0 for the first one. -/
def pred (h : Heap) (i : Nat) : Nat := linkOfUnit (h.unit (i + 2))

theorem succ_of_ne {h : Heap} {i : Nat} (hi : i ≠ 0) : h.succ i = linkOfUnit (h.unit (i + 1)) :=
  if_neg hi

theorem sizeAt_le (h : Heap) (i : Nat) : h.sizeAt i ≤ 0x8000000000000000 := sizeOfTag_le _

/-! ## Blocks as they are written -/

/-- Make `z` the node after `x`. -/
def setSucc (h : Heap) (x z : Nat) : Heap :=
  if x = 0 then { h with head := z } else h.setUnit (x + 1) (unitOfLink z)

/-- Make `x` the node before `z`. -/
def setPred (h : Heap) (z x : Nat) : Heap := if z = 0 then h else h.setUnit (z + 2) (unitOfLink x)

def setTags (h : Heap) (i : Nat) (tag : Int64) (size : Nat) : Heap :=
  (h.setUnit i tag).setUnit (i + size - 1) tag

def scrubbed (h : Heap) (i : Nat) : Heap := h.setTags i 0 (h.sizeAt i)

/-- Make `x` and `z` neighbours. -/
def join (h : Heap) (x z : Nat) : Heap := (h.setSucc x z).setPred z x

/-- The heap without `i` on its free list. -/
def unlinked (h : Heap) (i : Nat) : Heap := h.join (h.pred i) (h.succ i)

/-- The heap with a free block of `size` units at `i`, in front of its free list. -/
def pushed (h : Heap) (i size : Nat) : Heap :=
  ((((h.setTags i (freeTag size) size).setSucc i h.head).setPred i 0).setPred h.head i).setSucc 0 i

/-! ## The operations -/

namespace Block

open Heap.Action (Returns ReturnsIff)

variable {h : Heap} {b : Block} {i n : Nat}

theorem tag_returns (hb : b.index < h.arena.len) : b.tag.Returns h (h.unit b.index) h := .read hb

theorem size_returns (hb : b.index < h.arena.len) : b.size.Returns h (h.sizeAt b.index) h :=
  .bind (tag_returns hb) (.pure _ h)

theorem isFree_returns (hb : b.index < h.arena.len) :
    b.isFree.Returns h (isFreeTag (h.unit b.index)) h :=
  .bind (tag_returns hb) (.pure _ h)

theorem isTaken_returns (hb : b.index < h.arena.len) :
    b.isTaken.Returns h (isTakenTag (h.unit b.index)) h :=
  .bind (tag_returns hb) (.pure _ h)

/-- No sum of an index and a size that was read from a tag is too large. -/
theorem plus_size_returns (hb : i < h.arena.len) (j : Nat) :
    (Action.plus i (h.sizeAt j)).Returns h (i + h.sizeAt j) h :=
  .plus (by have := h.arena.len_lt; have := h.sizeAt_le j; omega)

theorem footerIndex_returns (hb : b.index < h.arena.len) :
    b.footerIndex.Returns h (b.index + h.sizeAt b.index - 1) h :=
  .bind (size_returns hb) (.bind (plus_size_returns hb _) (.pure _ h))

theorem footerTag_returns (hb : b.index < h.arena.len)
    (hf : b.index + h.sizeAt b.index - 1 < h.arena.len) :
    b.footerTag.Returns h (h.unit (b.index + h.sizeAt b.index - 1)) h :=
  .bind (footerIndex_returns hb) (.read hf)

theorem left_returns (hb : b.index - 1 < h.arena.len) :
    b.left.Returns h ⟨b.index - 1 + 1 - h.sizeAt (b.index - 1)⟩ h :=
  .bind (.read hb) (.pure _ h)

theorem right_returns (hb : b.index < h.arena.len) :
    b.right.Returns h ⟨b.index + h.sizeAt b.index⟩ h :=
  .bind (size_returns hb) (.bind (plus_size_returns hb _) (.pure _ h))

theorem next_returnsIff (h : Heap) (i : Nat) :
    (next ⟨i⟩).ReturnsIff h (i + 1 < h.arena.len) (h.nextAt i) h := by
  have hlen := h.arena.len_lt
  refine ReturnsIff.congr (.bind (.plus i 1) (.before (.read (i + 1)) (.pure _ h))) ?_
  omega

theorem prev_returnsIff (h : Heap) (i : Nat) :
    (prev ⟨i⟩).ReturnsIff h (i + 2 < h.arena.len) (h.pred i) h := by
  have hlen := h.arena.len_lt
  refine ReturnsIff.congr (.bind (.plus i 2) (.before (.read (i + 2)) (.pure _ h))) ?_
  omega

theorem setNext_returnsIff (h : Heap) (i j : Nat) :
    (setNext ⟨i⟩ j).ReturnsIff h (i + 1 < h.arena.len) ()
      (h.setUnit (i + 1) (unitOfLink j)) := by
  have hlen := h.arena.len_lt
  refine ReturnsIff.congr (.bind (.plus i 1) (.write (i + 1) _)) ?_
  omega

theorem setPrev_returnsIff (h : Heap) (i j : Nat) :
    (setPrev ⟨i⟩ j).ReturnsIff h (i + 2 < h.arena.len) ()
      (h.setUnit (i + 2) (unitOfLink j)) := by
  have hlen := h.arena.len_lt
  refine ReturnsIff.congr (.bind (.plus i 2) (.write (i + 2) _)) ?_
  omega

theorem writeTags_returnsIff (h : Heap) (i n : Nat) (tag : Int64) :
    (writeTags ⟨i⟩ tag n).ReturnsIff h (2 ≤ n ∧ i + n ≤ h.arena.len) () (h.setTags i tag n) := by
  have hlen := h.arena.len_lt
  by_cases hn : n < 2
  · refine ⟨fun hp => absurd hp.1 (Nat.not_le.mpr hn), fun _ => ⟨.blockTooSmall, ?_⟩⟩
    simp only [writeTags, tagUnits, hn, if_true]
    exact (Action.Faults.fail _ h).bind
  · simp only [writeTags, tagUnits, hn, if_false]
    refine ReturnsIff.congr (.bind (.write i tag) (.bind (.plus i n) (.write _ tag))) ?_
    rw [len_setUnit]
    omega

theorem scrub_returnsIff (hi : i < h.arena.len) :
    (scrub ⟨i⟩).ReturnsIff h (i + h.sizeAt i - 1 < h.arena.len) () (h.scrubbed i) := by
  refine ReturnsIff.congr (.after (footerIndex_returns (b := ⟨i⟩) hi)
    (.bind (.write i 0) (.write _ 0))) ?_
  rw [len_setUnit]
  exact and_iff_right hi

theorem next_returns (h₀ : b.index ≠ 0) (hb : b.index + 1 < h.arena.len) :
    b.next.Returns h (h.succ b.index) h := by
  rw [succ_of_ne h₀]
  exact (next_returnsIff h b.index).returns hb

theorem prev_returns (hb : b.index + 2 < h.arena.len) : b.prev.Returns h (h.pred b.index) h :=
  (prev_returnsIff h b.index).returns hb

theorem writeTags_returns (tag : Int64) (hn : 2 ≤ n) (hb : b.index + n ≤ h.arena.len) :
    (b.writeTags tag n).Returns h () (h.setTags b.index tag n) :=
  (writeTags_returnsIff h b.index n tag).returns ⟨hn, hb⟩

theorem scrub_returns (hb : b.index < h.arena.len)
    (hf : b.index + h.sizeAt b.index - 1 < h.arena.len) :
    b.scrub.Returns h () (h.scrubbed b.index) :=
  (scrub_returnsIff hb).returns hf

theorem check_returns (hs : h.sizeAt b.index ≠ 0) (hb : b.index + h.sizeAt b.index ≤ h.arena.len)
    (ht : h.unit b.index = h.unit (b.index + h.sizeAt b.index - 1)) :
    (b.check h.arena.len).Returns h () h := by
  have hi : b.index < h.arena.len := by omega
  simp only [check, Nat.not_le.mpr hi, if_false]
  refine .bind (size_returns hi) ?_
  simp only [hs, if_false]
  refine .bind (plus_size_returns hi _) ?_
  simp only [Nat.not_lt.mpr hb, if_false]
  refine .bind (tag_returns hi) (.bind (footerTag_returns hi (by omega)) ?_)
  rw [if_neg (not_not.mpr ht)]
  exact .pure () h

end Block

end Heap

end BareKernel
