import Mathlib.Data.List.Chain
import BareKernel.Heap.FreeList
import BareKernel.Proofs.Heap.Access

/-! The free list in memory. Index 0 stands before its first node and after its last one, so that
a list `l` of nodes is in memory exactly when neighbours in `0 :: l ++ [0]` are joined both ways.
Taking a node out and putting one in front each join two neighbours anew; the links of all other
nodes lie in units of their own and stay. -/

namespace BareKernel.Heap

open Heap.Action (Returns ReturnsIff)

variable {h h' : Heap} {l : List Nat} {i j n x y z : Nat}

/-- `y` is the node after `x`, and `x` the one before `y`. -/
def Joined (h : Heap) (x y : Nat) : Prop := h.succ x = y ∧ (y ≠ 0 → h.pred y = x)

instance (h : Heap) (x y : Nat) : Decidable (h.Joined x y) := inferInstanceAs (Decidable (_ ∧ _))

/-- Following the free list visits the nodes `l` in order, and going back visits them in reverse. -/
def Linked (h : Heap) (l : List Nat) : Prop := (0 :: l ++ [0]).IsChain h.Joined

/-- Indices that can be nodes together: each has room for two links in the arena, and no link of
one is a link of another. -/
structure Nodes (len : Nat) (l : List Nat) : Prop where
  nodup : l.Nodup
  ne_zero : 0 ∉ l
  inside : ∀ i ∈ l, i + 2 < len
  apart : ∀ i ∈ l, i + 1 ∉ l

theorem Nodes.sublist {len : Nat} {k : List Nat} (hn : Nodes len l) (hk : k.Sublist l) :
    Nodes len k where
  nodup := hn.nodup.sublist hk
  ne_zero := fun h₀ => hn.ne_zero (hk.subset h₀)
  inside := fun i hi => hn.inside i (hk.subset hi)
  apart := fun i hi h₁ => hn.apart i (hk.subset hi) (hk.subset h₁)

/-! ## One link at a time -/

@[simp] theorem len_setSucc (h : Heap) (x z : Nat) :
    (h.setSucc x z).arena.len = h.arena.len := by
  unfold setSucc
  split <;> simp

@[simp] theorem len_setPred (h : Heap) (z x : Nat) :
    (h.setPred z x).arena.len = h.arena.len := by
  unfold setPred
  split <;> simp

@[simp] theorem len_setTags (h : Heap) (i : Nat) (tag : Int64) (n : Nat) :
    (h.setTags i tag n).arena.len = h.arena.len := by simp [setTags]

@[simp] theorem head_setTags (h : Heap) (i : Nat) (tag : Int64) (n : Nat) :
    (h.setTags i tag n).head = h.head := rfl

@[simp] theorem len_pushed (h : Heap) (i n : Nat) : (h.pushed i n).arena.len = h.arena.len := by
  simp [pushed]

theorem unit_setSucc (z : Nat) (hj : x ≠ 0 → j ≠ x + 1) :
    (h.setSucc x z).unit j = h.unit j := by
  unfold setSucc
  split
  · rfl
  · rename_i hx
    exact unit_setUnit_ne _ (hj hx).symm

theorem unit_setPred (x : Nat) (hj : z ≠ 0 → j ≠ z + 2) :
    (h.setPred z x).unit j = h.unit j := by
  unfold setPred
  split
  · rfl
  · rename_i hz
    exact unit_setUnit_ne _ (hj hz).symm

theorem unit_setTags (tag : Int64) (hi : j ≠ i) (hf : j ≠ i + n - 1) :
    (h.setTags i tag n).unit j = h.unit j :=
  (unit_setUnit_ne _ hf.symm).trans (unit_setUnit_ne _ hi.symm)

theorem unit_setTags_header (tag : Int64) (hi : i < h.arena.len) :
    (h.setTags i tag n).unit i = tag := by
  unfold setTags
  by_cases hf : i + n - 1 = i
  · rw [hf, unit_setUnit_self _ (by simpa using hi)]
  · rw [unit_setUnit_ne _ hf, unit_setUnit_self _ hi]

theorem unit_setTags_footer (tag : Int64) (hf : i + n - 1 < h.arena.len) :
    (h.setTags i tag n).unit (i + n - 1) = tag :=
  unit_setUnit_self _ (by simpa using hf)

theorem head_setPred (h : Heap) (z x : Nat) : (h.setPred z x).head = h.head := by
  unfold setPred
  split <;> rfl

theorem head_setSucc (hx : x ≠ 0) (z : Nat) : (h.setSucc x z).head = h.head := by
  simp [setSucc, hx]

/-- What comes after a node depends on the unit after its header alone. -/
theorem succ_congr (h₀ : h'.head = h.head) (hu : y ≠ 0 → h'.unit (y + 1) = h.unit (y + 1)) :
    h'.succ y = h.succ y := by
  unfold succ
  split
  · exact h₀
  · rename_i hy
    rw [hu hy]

theorem succ_setSucc_self (hx : x ≠ 0 → x + 1 < h.arena.len) (hz : z < 0x10000000000000000) :
    (h.setSucc x z).succ x = z := by
  unfold setSucc
  split
  · simp [succ, *]
  · rename_i h₀
    rw [succ_of_ne h₀, unit_setUnit_self _ (hx h₀), linkOfUnit_unitOfLink hz]

theorem succ_setSucc_ne (z : Nat) (hxy : y ≠ x) : (h.setSucc x z).succ y = h.succ y := by
  by_cases hy : y = 0
  · subst hy
    simp only [succ, if_true]
    exact head_setSucc hxy.symm z
  · rw [succ_of_ne hy, succ_of_ne hy, unit_setSucc z (by omega)]

theorem pred_setSucc (z : Nat) (hxy : x ≠ 0 → x ≠ y + 1) : (h.setSucc x z).pred y = h.pred y := by
  unfold pred
  rw [unit_setSucc z (by omega)]

theorem succ_setPred (x : Nat) (hzy : z ≠ 0 → y ≠ 0 → y ≠ z + 1) :
    (h.setPred z x).succ y = h.succ y :=
  succ_congr (head_setPred h z x) fun hy => unit_setPred x (by omega)

theorem pred_setPred_self (h₀ : z ≠ 0) (hz : z + 2 < h.arena.len) (hx : x < 0x10000000000000000) :
    (h.setPred z x).pred z = x := by
  rw [pred, setPred, if_neg h₀, unit_setUnit_self _ hz, linkOfUnit_unitOfLink hx]

theorem pred_setPred_ne (x : Nat) (hzy : y ≠ z) : (h.setPred z x).pred y = h.pred y := by
  unfold pred
  rw [unit_setPred x (by omega)]

@[simp] theorem len_join (h : Heap) (x z : Nat) : (h.join x z).arena.len = h.arena.len := by
  simp [join]

@[simp] theorem len_unlinked (h : Heap) (i : Nat) : (h.unlinked i).arena.len = h.arena.len :=
  len_join h _ _

theorem unit_join (hx : x ≠ 0 → j ≠ x + 1) (hz : z ≠ 0 → j ≠ z + 2) :
    (h.join x z).unit j = h.unit j :=
  (unit_setPred x hz).trans (unit_setSucc z hx)

theorem succ_join (hax : y ≠ x) (hza : z ≠ 0 → y ≠ 0 → y ≠ z + 1) :
    (h.join x z).succ y = h.succ y :=
  (succ_setPred x hza).trans (succ_setSucc_ne z hax)

theorem pred_join (haz : y ≠ z) (hxa : x ≠ 0 → x ≠ y + 1) : (h.join x z).pred y = h.pred y :=
  (pred_setPred_ne x haz).trans (pred_setSucc z hxa)

theorem joined_join (hx : x ≠ 0 → x + 2 < h.arena.len) (hz : z ≠ 0 → z + 2 < h.arena.len)
    (hxz : x ≠ 0 → z ≠ 0 → x ≠ z + 1) : (h.join x z).Joined x z := by
  have hlen := h.arena.len_lt
  refine ⟨?_, fun h₀ => ?_⟩
  · rw [join, succ_setPred x fun hz₀ hx₀ => hxz hx₀ hz₀]
    exact succ_setSucc_self (by omega) (by omega)
  · exact pred_setPred_self h₀ (by simpa using hz h₀) (by omega)

/-! ## Walks along the links -/

/-- A walk stays where its links stay. -/
theorem walk_congr : ∀ {w : List Nat}, w.IsChain h.Joined →
    (∀ a ∈ w.dropLast, h'.succ a = h.succ a) →
    (∀ a ∈ w.tail, a ≠ 0 → h'.pred a = h.pred a) → w.IsChain h'.Joined
  | [], _, _, _ => .nil
  | [_], _, _, _ => .singleton _
  | a :: b :: w, hw, hs, hp => by
    obtain ⟨⟨hab, hba⟩, hw⟩ := List.isChain_cons_cons.mp hw
    refine .cons_cons ⟨(hs a (by simp)).trans hab, fun hb => ?_⟩ (walk_congr hw ?_ ?_)
    · exact (hp b (by simp) hb).trans (hba hb)
    · exact fun c hc => hs c (by simp [hc])
    · exact fun c hc => hp c (List.mem_cons_of_mem b hc)

theorem Linked.congr (hl : h.Linked l) (h₀ : h'.head = h.head)
    (hu : ∀ a ∈ l, h'.unit (a + 1) = h.unit (a + 1) ∧ h'.unit (a + 2) = h.unit (a + 2)) :
    h'.Linked l := by
  refine walk_congr hl (fun a ha => ?_) fun a ha h₀ => ?_
  · rw [List.dropLast_concat] at ha
    refine succ_congr h₀ fun hne => (hu a ?_).1
    simpa [hne] using ha
  · have hm : a ∈ l := by simpa [h₀] using ha
    rw [pred, pred, (hu a hm).2]

/-- The two halves of a walk around one node: both end next to it, and they meet when it goes. -/
theorem exists_around (hi : i ∈ l) : ∃ before after pre x z post,
    l = before ++ i :: after ∧ l.erase i = before ++ after ∧
      0 :: before = pre ++ [x] ∧ after ++ [0] = z :: post := by
  obtain ⟨before, after, -, hl, he⟩ := List.exists_erase_eq hi
  obtain ⟨pre, x, hx⟩ := (List.eq_nil_or_concat (0 :: before)).resolve_left (by simp)
  obtain ⟨z, post, hz⟩ := List.exists_cons_of_ne_nil (show after ++ [0] ≠ [] by simp)
  exact ⟨before, after, pre, x, z, post, hl, he, by simpa using hx, hz⟩

/-- The links of a node name the nodes around it. -/
theorem Linked.around {before after pre post : List Nat} (hl : h.Linked (before ++ i :: after))
    (hx : 0 :: before = pre ++ [x]) (hz : after ++ [0] = z :: post) :
    (pre ++ [x]).IsChain h.Joined ∧ h.Joined x i ∧ h.Joined i z ∧
      (z :: post).IsChain h.Joined := by
  have hw : 0 :: (before ++ i :: after) ++ [0] = pre ++ x :: i :: z :: post := by
    calc 0 :: (before ++ i :: after) ++ [0] = (0 :: before) ++ i :: (after ++ [0]) := by simp
      _ = pre ++ x :: i :: z :: post := by rw [hx, hz]; simp
  rw [Linked, hw, List.isChain_append_cons_cons, List.isChain_cons_cons] at hl
  exact hl

theorem Linked.pred_mem (hl : h.Linked l) (hn : Nodes h.arena.len l) (hi : i ∈ l) :
    h.pred i = 0 ∨ h.pred i ∈ l := by
  obtain ⟨before, after, pre, x, z, post, rfl, -, hx, hz⟩ := exists_around hi
  obtain ⟨-, ⟨-, hp⟩, -, -⟩ := hl.around hx hz
  have hm : x ∈ 0 :: before := by simp [hx]
  rw [hp fun h₀ => hn.ne_zero (by simp [h₀])]
  exact (List.mem_cons.mp hm).imp_right fun hm => by simp [hm]

theorem Linked.succ_mem (hl : h.Linked l) (hi : i ∈ l) : h.succ i = 0 ∨ h.succ i ∈ l := by
  obtain ⟨before, after, pre, x, z, post, rfl, -, hx, hz⟩ := exists_around hi
  obtain ⟨-, -, ⟨hs, -⟩, -⟩ := hl.around hx hz
  have hm : z ∈ after ++ [0] := by simp [hz]
  rw [hs]
  simp only [List.mem_append, List.mem_singleton] at hm
  exact hm.symm.imp_right fun hm => by simp [hm]

theorem Linked.head_eq (hl : h.Linked l) : h.head = l.headD 0 := by
  cases l with
  | nil => exact (List.isChain_pair.mp hl).1
  | cons a l => exact (List.isChain_cons_cons.mp hl).1.1

/-- The node after one inside the list. -/
theorem Linked.succ_eq {before after : List Nat} (hl : h.Linked (before ++ i :: after)) :
    h.succ i = after.headD 0 := by
  have hw : 0 :: (before ++ i :: after) ++ [0] = (0 :: before) ++ i :: (after ++ [0]) := by simp
  rw [Linked, hw] at hl
  have hl := (List.isChain_append.mp hl).2.1
  cases after with
  | nil => exact (List.isChain_cons_cons.mp hl).1.1
  | cons j after => exact (List.isChain_cons_cons.mp hl).1.1

/-! ## Joining two walks -/

/-- A walk whose links can be written one by one: no node is left twice or entered twice, and no
link of one is a link of another. -/
structure Walk (len : Nat) (w : List Nat) : Prop where
  leaves : w.dropLast.Nodup
  enters : w.tail.Nodup
  inside : ∀ a ∈ w, a ≠ 0 → a + 2 < len
  apart : ∀ a ∈ w, a ≠ 0 → a + 1 ∉ w

theorem Nodes.walk_cons {len : Nat} (hn : Nodes len (i :: l)) : Walk len (i :: l ++ [0]) where
  leaves := by
    rw [List.dropLast_concat]
    exact hn.nodup
  enters := by
    have hl := (List.nodup_cons.mp hn.nodup).2
    have h₀ : 0 ∉ l := fun h => hn.ne_zero (List.mem_cons_of_mem i h)
    simpa [List.nodup_append, h₀] using ⟨hl, fun a ha h => h₀ (h ▸ ha)⟩
  inside := fun a ha h₀ => hn.inside a (by simpa [h₀] using ha)
  apart := fun a ha h₀ h₁ => hn.apart a (by simpa [h₀] using ha) (by simpa using h₁)

theorem Nodes.walk {len : Nat} (hn : Nodes len l) : Walk len (0 :: l ++ [0]) where
  leaves := by
    rw [List.dropLast_concat]
    exact List.nodup_cons.mpr ⟨hn.ne_zero, hn.nodup⟩
  enters := by
    have h₀ := hn.ne_zero
    simpa [List.nodup_append, h₀] using ⟨hn.nodup, fun a ha h => h₀ (h ▸ ha)⟩
  inside := fun a ha h₀ => hn.inside a (by simpa [h₀] using ha)
  apart := fun a ha h₀ h₁ => hn.apart a (by simpa [h₀] using ha) (by simpa using h₁)

/-- Two walks become one when the last node of the first and the first of the second are joined. -/
theorem Walk.join {pre post : List Nat} (hw : Walk h.arena.len (pre ++ x :: z :: post))
    (hpre : (pre ++ [x]).IsChain h.Joined) (hpost : (z :: post).IsChain h.Joined) :
    (pre ++ x :: z :: post).IsChain (h.join x z).Joined := by
  have hsplit : pre ++ x :: z :: post = (pre ++ [x]) ++ z :: post := by simp
  have hleaves := hw.leaves
  have henters := hw.enters
  rw [hsplit, List.dropLast_append_of_ne_nil (by simp), List.nodup_append] at hleaves
  rw [hsplit, List.tail_append_of_ne_nil (by simp), List.nodup_append] at henters
  obtain ⟨hl₁, -, hl₂⟩ := hleaves
  obtain ⟨-, ht₁, ht₂⟩ := henters
  have hz : z ≠ 0 → z + 1 ∉ pre ++ x :: z :: post := hw.apart z (by simp)
  have hx : ∀ a ∈ pre ++ x :: z :: post, a ≠ 0 → x ≠ a + 1 := fun a ha h₀ h =>
    hw.apart a ha h₀ (h ▸ by simp)
  refine List.isChain_append_cons_cons.mpr ⟨walk_congr hpre (fun a ha => ?_) fun a ha h₀ => ?_,
    joined_join (hw.inside x (by simp)) (hw.inside z (by simp)) fun _ h₀ => hx z (by simp) h₀,
    walk_congr hpost (fun a ha => ?_) fun a ha h₀ => ?_⟩
  · rw [List.dropLast_concat] at ha
    refine succ_join (fun h => ?_) fun h₀ _ h => hz h₀ (by simp [← h, ha])
    exact (List.nodup_append.mp hl₁).2.2 a ha x (by simp) h
  · refine pred_join (ht₂ a ha z (by simp)) fun _ => hx a ?_ h₀
    rw [hsplit]
    exact List.mem_append_left _ (List.mem_of_mem_tail ha)
  · refine succ_join (fun h => hl₂ x (by simp) a ha h.symm) fun h₀ _ h => hz h₀ ?_
    rw [← h, hsplit]
    exact List.mem_append_right _ ((List.dropLast_sublist _).subset ha)
  · refine pred_join (fun h => ?_) fun _ => hx a ?_ h₀
    · exact (List.nodup_cons.mp ht₁).1 (h ▸ ha)
    · rw [hsplit]
      exact List.mem_append_right _ (List.mem_cons_of_mem z ha)

/-! ## Taking a node out -/

section

variable {α : Type} {k : Action α} {P : Prop} {a : α} {h' : Heap} {x z : Nat}

/-- To make `z` the node after `x` is to write into `x`, unless `x` stands for the head. -/
theorem setSucc_returnsIff (hk : k.ReturnsIff (h.setSucc x z) P a h') :
    (if x = 0 then Action.setHead z >>= fun _ => k
      else Block.setNext ⟨x⟩ z >>= fun _ => k).ReturnsIff h
        ((x ≠ 0 → x + 1 < h.arena.len) ∧ P) a h' := by
  unfold setSucc at hk
  by_cases hx : x = 0
  · rw [if_pos hx] at hk ⊢
    exact (hk.after (.setHead z h)).congr (by simp [hx])
  · rw [if_neg hx] at hk ⊢
    exact ((Block.setNext_returnsIff h x z).bind hk).congr (by simp [hx])

theorem setPred_returnsIff (hk : k.ReturnsIff (h.setPred z x) P a h') :
    (if z ≠ 0 then Block.setPrev ⟨z⟩ x >>= fun _ => k else k).ReturnsIff h
      ((z ≠ 0 → z + 2 < h.arena.len) ∧ P) a h' := by
  unfold setPred at hk
  by_cases hz : z = 0
  · rw [if_pos hz] at hk
    rw [if_neg (not_not.mpr hz)]
    exact hk.congr (by simp [hz])
  · rw [if_neg hz] at hk
    rw [if_pos hz]
    exact ((Block.setPrev_returnsIff h z x).bind hk).congr (by simp [hz])

end

/-- The links of a block, and the blocks that they lead to as far as they are written to, are in the
arena. -/
structure Detachable (h : Heap) (i : Nat) : Prop where
  room : i + 2 < h.arena.len
  before : h.pred i ≠ 0 → h.pred i + 1 < h.arena.len
  after : h.nextAt i ≠ 0 → h.nextAt i + 2 < h.arena.len

/-- The heap once the blocks that `i` links to are linked to each other. -/
def detached (h : Heap) (i : Nat) : Heap := h.join (h.pred i) (h.nextAt i)

@[simp] theorem len_detached (h : Heap) (i : Nat) : (h.detached i).arena.len = h.arena.len :=
  len_join h _ _

theorem unlink_returnsIff (h : Heap) (i : Nat) :
    (FreeList.unlink i).ReturnsIff h (h.Detachable i) () (h.detached i) := by
  have hafter : (if h.nextAt i ≠ 0 then Block.setPrev ⟨h.nextAt i⟩ (h.pred i) else pure
      ()).ReturnsIff (h.setSucc (h.pred i) (h.nextAt i))
      (h.nextAt i ≠ 0 → h.nextAt i + 2 < h.arena.len) () (h.detached i) := by
    have hg : (h.setSucc (h.pred i) (h.nextAt i)).arena.len = h.arena.len := len_setSucc _ _ _
    rw [detached, join, setPred, ← hg]
    by_cases hz : h.nextAt i = 0
    · rw [if_neg (not_not.mpr hz), if_pos hz]
      exact (ReturnsIff.of_returns (.pure () _)).congr (by simp [hz])
    · rw [if_pos hz, if_neg hz]
      exact (Block.setPrev_returnsIff _ _ _).congr (by simp [hz])
  refine ReturnsIff.congr (.bind (Block.next_returnsIff h i) (.bind (Block.prev_returnsIff h i)
    (setSucc_returnsIff hafter))) ?_
  exact ⟨fun ⟨_, hroom, hbefore, hafter⟩ => ⟨hroom, hbefore, hafter⟩,
    fun ⟨hroom, hbefore, hafter⟩ => ⟨Nat.lt_of_succ_lt hroom, hroom, hbefore, hafter⟩⟩

theorem Linked.unlinked (hl : h.Linked l) (hn : Nodes h.arena.len l) (hi : i ∈ l) :
    (h.unlinked i).Linked (l.erase i) := by
  obtain ⟨before, after, pre, x, z, post, rfl, he, hx, hz⟩ := exists_around hi
  obtain ⟨hpre, ⟨-, hp⟩, ⟨hs, -⟩, hpost⟩ := hl.around hx hz
  have hp := hp fun h₀ => hn.ne_zero (by simp [h₀])
  have hwalk : 0 :: (before ++ after) ++ [0] = pre ++ x :: z :: post := by
    rw [← List.cons_append, hx, List.append_assoc, hz]
    simp
  have hw := (hn.sublist (List.erase_sublist (a := i))).walk
  rw [he, hwalk] at hw
  rw [he, Linked, hwalk, Heap.unlinked, hp, hs]
  exact hw.join hpre hpost

/-- Only links of other nodes change. -/
theorem Linked.unit_unlinked (hl : h.Linked l) (hn : Nodes h.arena.len l) (hi : i ∈ l)
    (hj : ∀ a ∈ l, j ≠ a + 1 ∧ j ≠ a + 2) : (h.unlinked i).unit j = h.unit j := by
  refine unit_join (fun h₀ => ?_) fun h₀ => ?_
  · exact (hj _ ((hl.pred_mem hn hi).resolve_left h₀)).1
  · exact (hj _ ((hl.succ_mem hi).resolve_left h₀)).2

theorem Linked.unlink_returns (hl : h.Linked l) (hn : Nodes h.arena.len l) (hi : i ∈ l) :
    (FreeList.unlink i).Returns h () (h.unlinked i) := by
  have h₀ : i ≠ 0 := fun h₀ => hn.ne_zero (h₀ ▸ hi)
  have hnext : h.succ i = h.nextAt i := succ_of_ne h₀
  have hroom := hn.inside i hi
  rw [Heap.unlinked, hnext]
  refine (unlink_returnsIff h i).returns ⟨hroom, fun hp => ?_, fun hs => ?_⟩
  · exact Nat.lt_of_succ_lt (hn.inside _ ((hl.pred_mem hn hi).resolve_left hp))
  · rw [← hnext] at hs ⊢
    exact hn.inside _ ((hl.succ_mem hi).resolve_left hs)

/-! ## Putting a node in front -/

/-- A new node in front of a free list: room for its tags, and none of them a link of a node. -/
structure Fresh (len i n : Nat) (l : List Nat) : Prop where
  size : 4 ≤ n
  inside : i + n ≤ len
  nodes : Nodes len (i :: l)
  tags : ∀ a ∈ l, a + 1 ≠ i ∧ a + 2 ≠ i ∧ a + 1 ≠ i + n - 1 ∧ a + 2 ≠ i + n - 1

theorem unit_pushed (hi : j ≠ i) (hf : j ≠ i + n - 1) (h₁ : j ≠ i + 1) (h₂ : j ≠ i + 2)
    (hh : h.head ≠ 0 → j ≠ h.head + 2) : (h.pushed i n).unit j = h.unit j := by
  calc (h.pushed i n).unit j
      = ((((h.setTags i (freeTag n) n).setSucc i h.head).setPred i 0).setPred h.head i).unit j :=
        unit_setSucc i (absurd rfl)
    _ = (((h.setTags i (freeTag n) n).setSucc i h.head).setPred i 0).unit j := unit_setPred i hh
    _ = ((h.setTags i (freeTag n) n).setSucc i h.head).unit j := unit_setPred 0 fun _ => h₂
    _ = (h.setTags i (freeTag n) n).unit j := unit_setSucc _ fun _ => h₁
    _ = h.unit j := unit_setTags _ hi hf

theorem setUnit_comm {j : Nat} (hij : i ≠ j) (h : Heap) (v w : Int64) :
    (h.setUnit i v).setUnit j w = (h.setUnit j w).setUnit i v := by
  simp only [setUnit, Memory.setUnit, Array.setIfInBounds_comm v w hij]

/-- The writes of `pushed`, in another order: the node is joined to the old list, and the list's
start to the node. -/
theorem pushed_eq_join (h₀ : i ≠ 0) (hh : h.head ≠ i) :
    h.pushed i n = ((h.setTags i (freeTag n) n).join i h.head).join 0 i := by
  have hsucc : ∀ g : Heap, (g.setPred i 0).setSucc 0 i = (g.setSucc 0 i).setPred i 0 := by
    intro g
    simp [setSucc, setPred, h₀, setUnit]
  have hpred : ∀ g : Heap, (g.setPred i 0).setPred h.head i = (g.setPred h.head i).setPred i 0 := by
    intro g
    by_cases hz : h.head = 0
    · simp [setPred, hz]
    · simp only [setPred, h₀, hz, if_false]
      exact setUnit_comm (by omega) g _ _
  rw [pushed, hpred, hsucc]
  rfl

theorem Linked.pushed (hl : h.Linked l) (hf : Fresh h.arena.len i n l) :
    (h.pushed i n).Linked (i :: l) := by
  have hi₀ : i ≠ 0 := fun h₀ => hf.nodes.ne_zero (by simp [h₀])
  have hil := (List.nodup_cons.mp hf.nodes.nodup).1
  obtain ⟨z, post, hz⟩ := List.exists_cons_of_ne_nil (show l ++ [0] ≠ [] by simp)
  have hhead : h.head = z := by
    rw [hl.head_eq]
    cases l <;> simp_all
  have hhi : h.head ≠ i := by
    rw [hhead]
    rintro rfl
    cases l <;> simp_all
  have htags : (h.setTags i (freeTag n) n).Linked l := hl.congr rfl fun a ha => by
    obtain ⟨t₁, t₂, t₃, t₄⟩ := hf.tags a ha
    exact ⟨unit_setTags _ t₁ t₃, unit_setTags _ t₂ t₄⟩
  -- the node goes before the old list first, and 0 before the node then
  have hw₁ : Walk (h.setTags i (freeTag n) n).arena.len ([] ++ i :: z :: post) := by
    rw [len_setTags, List.nil_append, ← hz]
    exact hf.nodes.walk_cons
  have hw₂ : Walk ((h.setTags i (freeTag n) n).join i z).arena.len ([] ++ 0 :: i :: z :: post) := by
    rw [len_join, len_setTags, List.nil_append, ← hz]
    exact hf.nodes.walk
  rw [Linked, List.cons_append, hz] at htags
  rw [Linked, List.cons_append, List.cons_append, hz, pushed_eq_join hi₀ hhi, hhead]
  exact hw₂.join (.singleton 0) (hw₁.join (.singleton i) htags.tail)

theorem unit_pushed_header (hi : i + n ≤ h.arena.len) (hn : 4 ≤ n)
    (hh : h.head ≠ 0 → h.head + 2 ≠ i) : (h.pushed i n).unit i = freeTag n := by
  calc (h.pushed i n).unit i
      = ((((h.setTags i (freeTag n) n).setSucc i h.head).setPred i 0).setPred h.head i).unit i :=
        unit_setSucc i (absurd rfl)
    _ = (((h.setTags i (freeTag n) n).setSucc i h.head).setPred i 0).unit i :=
        unit_setPred i fun h₀ => (hh h₀).symm
    _ = ((h.setTags i (freeTag n) n).setSucc i h.head).unit i := unit_setPred 0 (by omega)
    _ = (h.setTags i (freeTag n) n).unit i := unit_setSucc _ (by omega)
    _ = freeTag n := unit_setTags_header _ (by omega)

theorem unit_pushed_footer (hi : i + n ≤ h.arena.len) (hn : 4 ≤ n)
    (hh : h.head ≠ 0 → h.head + 2 ≠ i + n - 1) :
    (h.pushed i n).unit (i + n - 1) = freeTag n := by
  calc (h.pushed i n).unit (i + n - 1)
      = ((((h.setTags i (freeTag n) n).setSucc i h.head).setPred i 0).setPred h.head i).unit
          (i + n - 1) := unit_setSucc i (absurd rfl)
    _ = (((h.setTags i (freeTag n) n).setSucc i h.head).setPred i 0).unit (i + n - 1) :=
        unit_setPred i fun h₀ => (hh h₀).symm
    _ = ((h.setTags i (freeTag n) n).setSucc i h.head).unit (i + n - 1) :=
        unit_setPred 0 (by omega)
    _ = (h.setTags i (freeTag n) n).unit (i + n - 1) := unit_setSucc _ (by omega)
    _ = freeTag n := unit_setTags_footer _ (by omega)

/-- There is room at `i` for the tags and the links of a block of `n` units, and for a link back to
it in the block at the list's head. -/
structure Pushable (h : Heap) (i n : Nat) : Prop where
  size : 2 ≤ n
  inside : i + n ≤ h.arena.len
  room : i + 2 < h.arena.len
  head : h.head ≠ 0 → h.head + 2 < h.arena.len

/-- The heap once all of it is written. -/
def fronted (h : Heap) (i n : Nat) : Heap :=
  { (((h.setTags i (freeTag n) n).setUnit (i + 1) (unitOfLink h.head)).setUnit (i + 2)
      (unitOfLink 0)).setPred h.head i with head := i }

theorem fronted_eq (hi : i ≠ 0) (n : Nat) : h.fronted i n = h.pushed i n := by
  simp [fronted, pushed, setSucc, setPred, hi]

theorem push_returnsIff (h : Heap) (i n : Nat) :
    (FreeList.push i n).ReturnsIff h (h.Pushable i n) () (h.fronted i n) := by
  let g := h.setTags i (freeTag n) n
  have hhead := setPred_returnsIff (h := (g.setUnit (i + 1) (unitOfLink h.head)).setUnit (i + 2)
    (unitOfLink 0)) (z := h.head) (x := i) (.of_returns (.setHead i _))
  refine ReturnsIff.congr (.bind (Block.writeTags_returnsIff h i n _) (.after (.head _)
    (.bind (Block.setNext_returnsIff g i _) (.bind (Block.setPrev_returnsIff _ i 0) hhead)))) ?_
  simp only [g, len_setTags, len_setUnit]
  exact ⟨fun ⟨⟨hsize, hin⟩, _, hroom, hhead, _⟩ => ⟨hsize, hin, hroom, hhead⟩,
    fun ⟨hsize, hin, hroom, hhead⟩ =>
      ⟨⟨hsize, hin⟩, Nat.lt_of_succ_lt hroom, hroom, hhead, trivial⟩⟩

theorem push_returns (hi₀ : i ≠ 0) (hi : i + n ≤ h.arena.len) (hn : 4 ≤ n)
    (hh : h.head ≠ 0 → h.head + 2 < h.arena.len) :
    (FreeList.push i n).Returns h () (h.pushed i n) := by
  rw [← fronted_eq hi₀]
  exact (push_returnsIff h i n).returns ⟨by omega, hi, by omega, hh⟩

end BareKernel.Heap
