import BareKernel.Proofs.Heap.Transition

/-! Which units heap code touches. Handing out a block and taking one back read and write tags,
links of free blocks and the block itself; the inside of every other block that is handed out stays
out of it. An access to a unit that code does not touch can be made before the code, after it or in
between, and all comes out the same. -/

namespace BareKernel.Heap

open Heap.Action (Returns)

/-! ## Actions -/

namespace Action

variable {α β : Type} {S : Nat → Prop} {x : Action α} {f : α → Action β} {a : α} {h h' : Heap}
  {i j : Nat} {v : Int64}

/-- Run from `h`, the action reads and writes no unit outside `S`. -/
def Within (S : Nat → Prop) : Action α → Heap → Prop
  | done _, _ | fail _, _ => True
  | readUnit i k, h => S i ∧ ∀ v, h.arena.units[i]? = some v → (k v).Within S h
  | writeUnit i v k, h => S i ∧ (i < h.arena.len → k.Within S (h.setUnit i v))
  | readHead k, h => (k h.head).Within S h
  | writeHead i k, h => k.Within S { h with head := i }
  | countAllocation k, h => k.Within S { h with allocations := h.allocations + 1 }
  | countFree k, h => k.Within S { h with frees := h.frees + 1 }

namespace Within

theorem pure (a : α) (h : Heap) : (Pure.pure a : Action α).Within S h := trivial

/-- One piece of code after another. -/
theorem bind (hx : x.Within S h)
    (hf : ∀ a h', x.Returns h a h' → (f a).Within S h') : (x >>= f).Within S h := by
  change (x.bind f).Within S h
  induction x generalizing h with
  | done a => exact hf a h rfl
  | fail e => trivial
  | readUnit i k ih =>
    refine ⟨hx.1, fun v hv => ih v (hx.2 v hv) fun a h' hr => hf a h' ?_⟩
    simpa only [Returns, run, hv] using hr
  | writeUnit i v k ih =>
    refine ⟨hx.1, fun hi => ih (hx.2 hi) fun a h' hr => hf a h' ?_⟩
    simpa only [Returns, run, hi, if_true] using hr
  | readHead k ih => exact ih _ hx hf
  | writeHead i k ih => exact ih hx hf
  | countAllocation k ih => exact ih hx hf
  | countFree k ih => exact ih hx hf

/-- One piece of code after another of which it is known how it ends. -/
theorem andThen (hx : x.Within S h) (hr : x.Returns h a h') (hf : (f a).Within S h') :
    (x >>= f).Within S h := by
  refine hx.bind fun a' h'' hr' => ?_
  obtain ⟨ha, rfl⟩ := Prod.mk.inj (Eq.trans (Eq.symm hr) hr')
  obtain rfl := Except.ok.inj ha
  exact hf

theorem read (hi : S i) : (Action.read i).Within S h := ⟨hi, fun _ _ => trivial⟩

theorem write (hi : S i) : (Action.write i v).Within S h := ⟨hi, fun _ => trivial⟩

theorem head : Action.head.Within S h := trivial

theorem setHead : (Action.setHead i).Within S h := trivial

theorem plus : (Action.plus i j).Within S h := by
  unfold Action.plus
  split <;> trivial

/-! ### Accesses elsewhere -/

/-- A unit that the code does not touch may be written first: the answer is the same, and what is
left has the unit written as well. -/
theorem run_setUnit (hx : x.Within S h) (hj : ¬S j) (v : Int64) : x.Within S (h.setUnit j v) ∧
    x.run (h.setUnit j v) = ((x.run h).1, (x.run h).2.setUnit j v) := by
  induction x generalizing h with
  | done a => exact ⟨trivial, rfl⟩
  | fail e => exact ⟨trivial, rfl⟩
  | readUnit i k ih =>
    have hij : j ≠ i := fun h => hj (h ▸ hx.1)
    have hu : (h.setUnit j v).arena.units[i]? = h.arena.units[i]? := by
      have hu := h.arena.getElem?_setUnit j i v
      rwa [if_neg hij] at hu
    refine ⟨⟨hx.1, fun w hw => (ih w (hx.2 w (hu ▸ hw))).1⟩, ?_⟩
    simp only [run, hu]
    cases hw : h.arena.units[i]? with
    | none => rfl
    | some w => exact (ih w (hx.2 w hw)).2
  | writeUnit i w k ih =>
    have hij : j ≠ i := fun h => hj (h ▸ hx.1)
    refine ⟨⟨hx.1, fun hi => ?_⟩, ?_⟩
    · rw [len_setUnit] at hi
      rw [setUnit_comm hij]
      exact (ih (hx.2 hi)).1
    · simp only [run, len_setUnit]
      by_cases hi : i < h.arena.len
      · simp only [hi, if_true]
        rw [setUnit_comm hij]
        exact (ih (hx.2 hi)).2
      · simp only [hi, if_false]
  | readHead k ih => exact ih _ hx
  | writeHead i k ih => exact ih hx
  | countAllocation k ih => exact ih hx
  | countFree k ih => exact ih hx

/-- One access, and what it leaves to do. -/
theorem step (hx : x.Within S h) : (x.step h).1.Within S (x.step h).2 ∧
    (x.step h).2.arena.base = h.arena.base ∧ (x.step h).2.arena.len = h.arena.len ∧
    ∀ j, ¬S j → (x.step h).2.unit j = h.unit j := by
  cases x with
  | readUnit i k =>
    cases hw : h.arena.units[i]? with
    | none =>
      have hs : (readUnit i k).step h = (fail (.fault .outsideArena), h) := by
        simp only [Action.step, hw]
      rw [hs]
      exact ⟨trivial, rfl, rfl, fun _ _ => rfl⟩
    | some w =>
      have hs : (readUnit i k).step h = (k w, h) := by simp only [Action.step, hw]
      rw [hs]
      exact ⟨hx.2 w hw, rfl, rfl, fun _ _ => rfl⟩
  | writeUnit i w k =>
    by_cases hi : i < h.arena.len
    · have hs : (writeUnit i w k).step h = (k, h.setUnit i w) := by
        simp only [Action.step, hi, if_true]
      rw [hs]
      exact ⟨hx.2 hi, rfl, len_setUnit h i w,
        fun j hj => unit_setUnit_ne w fun hij => hj (hij ▸ hx.1)⟩
    · have hs : (writeUnit i w k).step h = (fail (.fault .outsideArena), h) := by
        simp only [Action.step, hi, if_false]
      rw [hs]
      exact ⟨trivial, rfl, rfl, fun _ _ => rfl⟩
  | _ => exact ⟨hx, rfl, rfl, fun _ _ => rfl⟩

end Within

/-- On the way from `g`, where `x` starts, to where it ends, with `y` still to be run from `h`. What
lies outside `S` is the same in both. -/
structure Underway (S : Nat → Prop) (x y : Action α) (g h : Heap) : Prop where
  ends : y.run h = x.run g
  whole : x.Within S g
  left : y.Within S h
  base : h.arena.base = g.arena.base
  len : h.arena.len = g.arena.len
  same : ∀ j, ¬S j → h.unit j = g.unit j

namespace Underway

variable {y : Action α} {g : Heap}

theorem start (hx : x.Within S g) : Underway S x x g g := ⟨rfl, hx, hx, rfl, rfl, fun _ _ => rfl⟩

theorem step (hu : Underway S x y g h) : Underway S x (y.step h).1 g (y.step h).2 := by
  obtain ⟨hleft, hb, hl, hsame⟩ := hu.left.step
  exact ⟨(run_step y h).trans hu.ends, hu.whole, hleft, hb.trans hu.base, hl.trans hu.len,
    fun j hj => (hsame j hj).trans (hu.same j hj)⟩

/-- An access elsewhere might as well have come first. -/
theorem setUnit (hu : Underway S x y g h) (hj : ¬S j) (hlt : j < g.arena.len) (v : Int64) :
    Underway S x y (g.setUnit j v) (h.setUnit j v) := by
  obtain ⟨hwhole, hx⟩ := hu.whole.run_setUnit hj v
  obtain ⟨hleft, hy⟩ := hu.left.run_setUnit hj v
  refine ⟨by rw [hx, hy, hu.ends], hwhole, hleft, hu.base, ?_, fun i hi => ?_⟩
  · rw [len_setUnit, len_setUnit, hu.len]
  · by_cases hij : j = i
    · subst hij
      rw [unit_setUnit_self v hlt, unit_setUnit_self v (hu.len ▸ hlt)]
    · rw [unit_setUnit_ne v hij, unit_setUnit_ne v hij, hu.same i hi]

end Underway

end Action

open Heap.Action (Within)

variable {S : Nat → Prop} {h h' : Heap} {p : Plan} {e l r : Extent} {gone : List Extent}
  {chain : List Nat} {i n units : Nat} {tag : Int64} {checks : Bool}

/-! ## Operations on a block -/

namespace Block

variable {b : Block}

theorem tag_within (hb : S b.index) : b.tag.Within S h := .read hb

theorem size_within (hb : S b.index) : b.size.Within S h :=
  (tag_within hb).bind fun _ _ _ => trivial

theorem isFree_within (hb : S b.index) : b.isFree.Within S h :=
  (tag_within hb).bind fun _ _ _ => trivial

theorem isTaken_within (hb : S b.index) : b.isTaken.Within S h :=
  (tag_within hb).bind fun _ _ _ => trivial

theorem footerIndex_within (hb : S b.index) : b.footerIndex.Within S h :=
  (size_within hb).bind fun _ _ _ => Within.plus.bind fun _ _ _ => trivial

theorem left_within (hb : S (b.index - 1)) : b.left.Within S h :=
  (Within.read hb).bind fun _ _ _ => trivial

theorem right_within (hb : S b.index) : b.right.Within S h :=
  (size_within hb).bind fun _ _ _ => Within.plus.bind fun _ _ _ => trivial

/-- A link is at a fixed distance from the header. -/
theorem atOffset_within {α : Type} {f : Nat → Action α}
    (hf : (f (i + n)).Within S h) : (Action.plus i n >>= f).Within S h := by
  refine Within.plus.bind fun j h' hr => ?_
  unfold Action.plus at hr
  split at hr
  · obtain ⟨hj, rfl⟩ := Prod.mk.inj hr
    obtain rfl := Except.ok.inj hj
    exact hf
  · cases hr

theorem next_within (hb : S (b.index + 1)) : b.next.Within S h :=
  atOffset_within ((Within.read hb).bind fun _ _ _ => trivial)

theorem prev_within (hb : S (b.index + 2)) : b.prev.Within S h :=
  atOffset_within ((Within.read hb).bind fun _ _ _ => trivial)

theorem setNext_within (hb : S (b.index + 1)) : (b.setNext i).Within S h :=
  atOffset_within (.write hb)

theorem setPrev_within (hb : S (b.index + 2)) : (b.setPrev i).Within S h :=
  atOffset_within (.write hb)

theorem writeTags_within (hb : S b.index) (hf : S (b.index + n - 1)) :
    (b.writeTags tag n).Within S h := by
  unfold writeTags
  split
  · trivial
  · exact (Within.write hb).bind fun _ _ _ => atOffset_within (.write hf)

end Block

namespace Tagged

theorem scrub_within (ht : h.Tagged e) (hs : S e.start) (hl : S (e.stop - 1)) :
    (Block.scrub ⟨e.start⟩).Within S h := by
  have hr := Block.footerIndex_returns (b := ⟨e.start⟩) ht.start_lt
  rw [ht.sizeAt_eq] at hr
  exact (Block.footerIndex_within hs).andThen hr ((Within.write hs).bind fun _ _ _ => .write hl)

theorem guardLink_within (ht : h.Tagged e) (hs : S e.start) (hl : S (e.stop - 1)) :
    (Block.guardLink checks h.arena.len e.start).Within S h := by
  cases checks with
  | false => trivial
  | true =>
    change (if e.start = 0 then Pure.pure () else Block.check h.arena.len ⟨e.start⟩).Within S h
    split
    · trivial
    · have hfooter : (Block.footerTag ⟨e.start⟩).Within S h := by
        have hr := Block.footerIndex_returns (b := ⟨e.start⟩) ht.start_lt
        rw [ht.sizeAt_eq] at hr
        exact (Block.footerIndex_within hs).andThen hr (.read hl)
      have hlt : e.start + e.size < 0x10000000000000000 := by
        have := ht.size_le
        have := h.arena.len_lt
        omega
      unfold Block.check
      split
      · trivial
      refine (Block.size_within hs).andThen ht.size_returns ?_
      split
      · trivial
      refine Within.plus.andThen (.plus hlt) ?_
      split
      · trivial
      refine (Block.tag_within hs).andThen (Block.tag_returns ht.start_lt)
        (hfooter.bind fun _ _ _ => ?_)
      split <;> trivial

end Tagged

/-! ## The free list -/

/-- The links of a node. -/
def Links (S : Nat → Prop) (i : Nat) : Prop := S (i + 1) ∧ S (i + 2)

theorem Linked.unlink_within {l : List Nat} (hl : h.Linked l) (hn : Nodes h.arena.len l)
    (hi : i ∈ l) (hS : ∀ x ∈ l, Links S x) : (FreeList.unlink i).Within S h := by
  have hi₀ : i ≠ 0 := fun h₀ => hn.ne_zero (h₀ ▸ hi)
  have hi₂ := hn.inside i hi
  refine (Block.next_within (hS i hi).1).andThen
    (Block.next_returns hi₀ (by change i + 1 < _; omega))
    ((Block.prev_within (hS i hi).2).andThen (Block.prev_returns hi₂) ?_)
  change Within S (if h.pred i = 0 then _ else _) _
  have hnext : ∀ g, Within S (if h.succ i ≠ 0 then Block.setPrev ⟨h.succ i⟩ (h.pred i)
      else Pure.pure ()) g := by
    intro g
    by_cases hs₀ : h.succ i = 0
    · rw [if_neg (not_not.mpr hs₀)]
      exact .pure () g
    · rw [if_pos hs₀]
      exact Block.setPrev_within (hS _ ((hl.succ_mem hi).resolve_left hs₀)).2
  by_cases hp₀ : h.pred i = 0
  · rw [if_pos hp₀]
    exact Within.setHead.bind fun _ _ _ => hnext _
  · rw [if_neg hp₀]
    exact (Block.setNext_within (hS _ ((hl.pred_mem hn hi).resolve_left hp₀)).1).bind
      fun _ _ _ => hnext _

theorem push_within (hinside : ∀ j, i ≤ j → j < i + n → S j) (hn : 4 ≤ n)
    (hin : i + n ≤ h.arena.len) (hh : h.head ≠ 0 → Links S h.head) :
    (FreeList.push i n).Within S h := by
  have hi : S i := hinside _ (Nat.le_refl i) (by omega)
  have hlast : S (i + n - 1) := hinside _ (by omega) (by omega)
  have hlinks : Links S i := ⟨hinside _ (by omega) (by omega), hinside _ (by omega) (by omega)⟩
  refine (Block.writeTags_within hi hlast).andThen (Block.writeTags_returns _ (by omega) hin)
    (Within.head.andThen (.head _) ((Block.setNext_within hlinks.1).bind fun _ _ _ =>
      (Block.setPrev_within hlinks.2).bind fun _ g _ => ?_))
  change Within S (if h.head ≠ 0 then _ else _) g
  by_cases h₀ : h.head = 0
  · rw [if_neg (not_not.mpr h₀)]
    exact .setHead
  · rw [if_pos h₀]
    exact (Block.setPrev_within (hh h₀).2).bind fun _ _ _ => .setHead

/-! ## The units of a step -/

namespace Plan

/-- Where a step of the plan reads and writes: the tags of all blocks, the inside of free ones, and
of those that change hands. -/
def Touches (p : Plan) (own : List Extent) (j : Nat) : Prop :=
  ∃ e ∈ p.blocks, e.start ≤ j ∧ j < e.stop ∧
    (e.free = true ∨ e ∈ own ∨ j = e.start ∨ j + 1 = e.stop)

variable {own : List Extent} {len j : Nat}

namespace Valid

theorem touches_start (hv : p.Valid len) (he : e ∈ p.blocks) : p.Touches own e.start := by
  obtain ⟨h₁, h₂, -⟩ := hv.owns_start he
  exact ⟨e, he, h₁, h₂, .inr (.inr (.inl rfl))⟩

theorem touches_last (hv : p.Valid len) (he : e ∈ p.blocks) : p.Touches own (e.stop - 1) := by
  obtain ⟨h₁, h₂, -⟩ := hv.owns_last he
  exact ⟨e, he, h₁, h₂, .inr (.inr (.inr (by omega)))⟩

theorem links_touches (hv : p.Valid len) (hi : i ∈ p.avail) : Links (p.Touches own) i := by
  obtain ⟨e, he, hf, rfl, hs⟩ := hv.exists_of_avail hi
  constructor <;> refine ⟨e, he, ?_, ?_, .inl hf⟩ <;>
    simp only [Extent.stop, minBlockUnits] at * <;> omega

/-- The inside of a block that somebody else holds is out of reach. -/
theorem not_touches (hv : p.Valid len) (he : e ∈ p.blocks) (ht : e.free = false) (ho : e ∉ own)
    (h₁ : e.start < j) (h₂ : j + 1 < e.stop) : ¬p.Touches own j := by
  rintro ⟨f, hf, hf₁, hf₂, hcase⟩
  obtain rfl : e = f := by
    refine (hv.apart he hf).resolve_right ?_
    omega
  rcases hcase with hfree | hown | h | h
  · simp [ht] at hfree
  · exact ho hown
  · omega
  · omega

end Valid

end Plan

/-! ## Handing out a block -/

theorem Represents.scan_within (hr : h.Represents p) (checks : Bool) (units : Nat)
    (own : List Extent) {before l : List Nat} (attempts : Nat) (best : Option (Nat × Nat))
    (hl : p.avail = before ++ l) :
    (FreeList.scan checks h.arena.len units attempts (l.headD 0) best).Within
      (p.Touches own) h := by
  induction attempts generalizing before l best with
  | zero => trivial
  | succ attempts ih =>
    cases l with
    | nil => trivial
    | cons i l =>
      have hi : i ∈ p.avail := by simp [hl]
      have hi₀ : i ≠ 0 := fun h₀ => hr.valid.nodes.ne_zero (h₀ ▸ hi)
      have hlinks : Links (p.Touches own) i := hr.valid.links_touches hi
      obtain ⟨e, he, hf, rfl, -⟩ := hr.valid.exists_of_avail hi
      have hnext : h.succ e.start = l.headD 0 := (hl ▸ hr.links : h.Linked _).succ_eq
      have ht := hr.tagged e he
      have hstart : p.Touches own e.start := hr.valid.touches_start he
      simp only [FreeList.scan, List.headD_cons, hi₀, if_false]
      refine (ht.guardLink_within hstart (hr.valid.touches_last he)).andThen
        (ht.guardLink_returns checks)
        ((Block.isFree_within hstart).andThen ht.isFree_returns ?_)
      simp only [hf, Bool.not_true, Bool.false_eq_true, if_false]
      refine (Block.size_within hstart).andThen ht.size_returns ?_
      cases attempts with
      | zero => trivial
      | succ attempts =>
        simp only [Nat.succ_ne_zero, if_false]
        have hn := hr.valid.nodes.inside e.start hi
        refine (Block.next_within hlinks.1).andThen
          (Block.next_returns hi₀ (by change e.start + 1 < _; omega)) ?_
        change Within _ (FreeList.scan _ _ _ _ (h.succ e.start) _) h
        rw [hnext]
        exact ih _ (hl.trans (List.append_cons before e.start l))

theorem Represents.bestFit_within (hr : h.Represents p) (checks : Bool) (units : Nat)
    {own : List Extent} :
    (FreeList.bestFit checks h.arena.len units).Within (p.Touches own) h := by
  have hs := hr.scan_within checks units own scanLimit none (List.nil_append p.avail).symm
  rw [← hr.links.head_eq] at hs
  exact Within.head.andThen (.head h) hs

theorem Midway.links_touches (hm : Midway h h' p gone chain) (hr : h.Represents p)
    {own : List Extent} (hi : i ∈ chain) : Links (p.Touches own) i :=
  hr.valid.links_touches (hm.sublist.subset hi)

theorem Midway.unlink_within (hm : Midway h h' p gone chain) (hr : h.Represents p)
    {own : List Extent} (hi : i ∈ chain) : (FreeList.unlink i).Within (p.Touches own) h' :=
  hm.links.unlink_within (hm.nodes hr) hi fun _ => hm.links_touches hr

/-- Handing out a block keeps off the inside of all that is lent. -/
theorem Represents.takeFit_within (hr : h.Represents p) (hu : minBlockUnits ≤ units)
    (checks : Bool) : (takeFit checks h.arena.len units).Within (p.Touches []) h := by
  refine (hr.bestFit_within checks units).andThen (hr.bestFit_returns checks units) ?_
  cases hb : p.bestFit units with
  | none => trivial
  | some i =>
    obtain ⟨hmem, hfit⟩ := Plan.mem_of_bestFit hb
    have hav := List.mem_of_mem_take hmem
    obtain ⟨e, he, hf, rfl, -⟩ := hr.valid.exists_of_avail hav
    rw [hr.valid.sizeAt_eq he] at hfit
    have ht := hr.tagged e he
    have hin := ht.size_le
    have hlt := h.arena.len_lt
    have hu₄ : 4 ≤ units := hu
    have hstart : p.Touches [] e.start := hr.valid.touches_start he
    have hinside : ∀ j, e.start ≤ j → j < e.start + e.size → p.Touches [] j := fun j h₁ h₂ =>
      ⟨e, he, h₁, h₂, .inl hf⟩
    obtain ⟨hret, hm⟩ := (Midway.refl hr).unlink hr hav
    refine (Block.size_within hstart).andThen ht.size_returns
      (((Midway.refl hr).unlink_within hr hav).andThen hret ?_)
    by_cases hx : minBlockUnits ≤ e.size - units
    · have hx₄ : 4 ≤ e.size - units := hx
      simp only [hx, if_true]
      have hmark := Block.writeTags_returns (h := h.unlinked e.start) (b := ⟨e.start⟩)
        (takenTag units) (n := units) (by omega) (by rw [hm.len]; change e.start + units ≤ _; omega)
      have hpush : ∀ g : Heap, g.head = (h.unlinked e.start).head → g.arena.len = h.arena.len →
          (FreeList.push (e.start + units) (e.size - units)).Within (p.Touches []) g := by
        intro g hg hlen
        refine push_within (fun j h₁ h₂ => hinside j (by omega) (by omega)) hx₄ (by omega)
          fun h₀ => ?_
        rw [hg] at h₀ ⊢
        exact hm.links_touches hr (hm.head_mem.resolve_left h₀)
      have hlast : p.Touches [] (e.start + units - 1) := hinside _ (by omega) (by omega)
      refine (Block.writeTags_within hstart hlast).andThen hmark
        (Within.plus.andThen (.plus (by omega)) (Within.bind ?_ fun _ _ _ => trivial))
      exact hpush _ rfl ((len_setTags _ _ _ _).trans hm.len)
    · simp only [hx, if_false]
      exact (Block.writeTags_within hstart (hr.valid.touches_last he)).bind fun _ _ _ => trivial

/-! ## Taking a block back -/

variable {pre post : List Extent}

theorem Represents.absorbLeft_within (hr : h.Represents p) (ha : p.Around pre l e r post) :
    (absorbLeft ⟨e.start⟩ ⟨l.start⟩ e.size).Within (p.Touches [e]) h := by
  have hl : l ∈ p.blocks := ha.mem_blocks.mpr (by simp)
  have he : e ∈ p.blocks := ha.mem_blocks.mpr (by simp)
  have hstart : p.Touches [e] l.start := hr.valid.touches_start hl
  refine (Block.isFree_within hstart).andThen (hr.tagged l hl).isFree_returns ?_
  cases hlf : l.free with
  | false => trivial
  | true =>
    have hav : l.start ∈ p.avail := (hr.valid.mem_avail _).mpr ⟨l, hl, hlf, rfl⟩
    obtain ⟨hret, hm⟩ := (Midway.refl hr).unlink hr hav
    exact ((Midway.refl hr).unlink_within hr hav).andThen hret
      (((hm.tagged hr he (by simp)).scrub_within (hr.valid.touches_start he)
        (hr.valid.touches_last he)).bind fun _ _ _ =>
          (Block.size_within hstart).bind fun _ _ _ => Within.plus.bind fun _ _ _ => trivial)

theorem Midway.absorbRight_within (hm : Midway h h' p gone chain) (hr : h.Represents p)
    (hb : r ∈ p.blocks) (hg : r ∉ gone) (hc : r.free = true → r.start ∈ chain) :
    (absorbRight ⟨r.start⟩ n).Within (p.Touches [e]) h' := by
  have hstart : p.Touches [e] r.start := hr.valid.touches_start hb
  refine (Block.isFree_within hstart).andThen (hm.tagged hr hb hg).isFree_returns ?_
  cases hrf : r.free with
  | false => trivial
  | true =>
    obtain ⟨hret, hm₁⟩ := hm.unlink hr (hc hrf)
    exact (Block.size_within hstart).andThen (hm.tagged hr hb hg).size_returns
      ((hm.unlink_within hr (hc hrf)).andThen hret
        (((hm₁.tagged hr hb hg).scrub_within hstart (hr.valid.touches_last hb)).bind
          fun _ _ _ => .plus))

/-- The merged block lies in the block that is given back and its free neighbours. -/
theorem Plan.Around.touches_merged {j : Nat} (ha : p.Around pre l e r post) {len : Nat}
    (hv : p.Valid len) (h₁ : (p.merged e.start).start ≤ j) (h₂ : j < (p.merged e.start).stop) :
    p.Touches [e] j := by
  have hinside : ∀ f ∈ p.blocks, f.free = true ∨ f ∈ [e] → f.start ≤ j → j < f.stop →
      p.Touches [e] j := fun f hf hcase h₁ h₂ => ⟨f, hf, h₁, h₂, hcase.imp_right .inl⟩
  have hl : l ∈ p.blocks := ha.mem_blocks.mpr (by simp)
  have he : e ∈ p.blocks := ha.mem_blocks.mpr (by simp)
  have hr : r ∈ p.blocks := ha.mem_blocks.mpr (by simp)
  have hleft := ha.left
  have hright := ha.right
  rw [ha.merged_eq hv] at h₁ h₂
  simp only [Extent.stop] at *
  by_cases hje : j < e.start
  · cases hlf : l.free <;> simp only [hlf, if_true, Bool.false_eq_true, if_false] at h₁
    · omega
    · exact hinside l hl (.inl hlf) h₁ (by omega)
  by_cases hjr : r.start ≤ j
  · cases hrf : r.free
    · cases hlf : l.free <;>
        simp only [hlf, hrf, if_true, Bool.false_eq_true, if_false] at h₂ <;> omega
    · refine hinside r hr (.inl hrf) hjr ?_
      cases hlf : l.free <;>
        simp only [hlf, hrf, if_true, Bool.false_eq_true, if_false] at h₂ <;> omega
  · exact hinside e he (.inr (by simp)) (by omega) (by omega)

/-- Taking a block back keeps off the inside of all that stays lent. -/
theorem Represents.giveBack_within (hr : h.Represents p) (he : e ∈ p.blocks)
    (hs : minBlockUnits ≤ e.size) (ht : e.free = false) (checks : Bool) :
    (giveBack checks h.arena.base h.arena.len (payloadOf h.arena.base e.start)).Within
      (p.Touches [e]) h := by
  have hv := hr.valid
  obtain ⟨pre, l, r, post, ha⟩ := hv.exists_around he hs ht
  have hl : l ∈ p.blocks := ha.mem_blocks.mpr (by simp)
  have hrb : r ∈ p.blocks := ha.mem_blocks.mpr (by simp)
  have htaken := (hr.tagged e he).isTaken_returns
  have hleft := (hr.tagged l hl).left_returns
  have hright := (hr.tagged e he).right_returns
  rw [ht] at htaken
  rw [ha.left] at hleft
  rw [ha.right] at hright
  have hstart : p.Touches [e] e.start := hv.touches_start he
  have hlast : p.Touches [e] (e.start - 1) := ha.left ▸ hv.touches_last hl
  obtain ⟨n, h₁, h₂, gone, chain, hret₁, ⟨hm₁, hg, hc⟩, hret₂, hm₂⟩ := hr.absorb_returns ha
  rw [giveBack, hv.indexOfPayload_eq he hs]
  refine ((hr.tagged e he).guardLink_within hstart (hv.touches_last he)).andThen
    ((hr.tagged e he).guardLink_returns checks) ((Block.isTaken_within hstart).andThen htaken ?_)
  simp only [Bool.not_false, Bool.not_true, Bool.false_eq_true, if_false]
  refine (Block.left_within hlast).andThen hleft ((Block.right_within hstart).andThen hright ?_)
  refine ((hr.tagged l hl).guardLink_within (hv.touches_start hl) (hv.touches_last hl)).andThen
    ((hr.tagged l hl).guardLink_returns checks) ?_
  refine ((hr.tagged r hrb).guardLink_within (hv.touches_start hrb) (hv.touches_last hrb)).andThen
    ((hr.tagged r hrb).guardLink_returns checks) ?_
  refine (Block.size_within hstart).andThen (hr.tagged e he).size_returns
    ((hr.absorbLeft_within ha).andThen hret₁ ((hm₁.absorbRight_within hr hrb hg hc).andThen hret₂
      (Within.bind ?_ fun _ _ _ => trivial)))
  -- what comes back is free, and large enough for its links
  have hmem := (ha.mem_release hv).mpr (.inl rfl)
  have hvr := hv.release he hs ht
  have hsize : 4 ≤ (p.merged e.start).size := hvr.minBlockUnits_le hmem rfl
  have hbound : (p.merged e.start).start + (p.merged e.start).size ≤ h₂.arena.len :=
    hm₂.len ▸ (hvr.tiles.bounds hmem).2
  exact push_within (fun _ => ha.touches_merged hv) hsize hbound fun h₀ =>
    hm₂.links_touches hr (hm₂.head_mem.resolve_left h₀)

end BareKernel.Heap
