import Mathlib.Data.List.Perm.Subperm
import BareKernel.Proofs.Heap.Inspection

/-! What a passed check of the whole arena is worth. The two walks are compared by the number of free
blocks, so a node may be an image of a block inside a payload; the last sentinel is looked at where
it should be and need not be a block; and a block may be too small for links. An arena without any
of these is in order when it passes. The check always comes back, but for a node whose links lie
behind the end of the arena. -/

namespace BareKernel

namespace Heap

open Heap.Action (Returns Reports Faults)

variable {h : Heap} {p : Plan} {e : Extent} {blocks : List Extent} {l l' pre : List Nat}
  {i x : Nat}

/-! ## The free list, read back -/

/-- The links leave no choice. -/
theorem chain_joined_inj (hw : (x :: l ++ [0]).IsChain h.Joined)
    (hw' : (x :: l' ++ [0]).IsChain h.Joined) (h₀ : 0 ∉ l) (h₀' : 0 ∉ l') : l = l' := by
  induction l generalizing x l' with
  | nil =>
    cases l' with
    | nil => rfl
    | cons j l' =>
      have h₁ := (List.isChain_pair.mp hw).1
      have h₂ := (List.isChain_cons_cons.mp hw').1.1
      exact absurd (List.mem_cons.mpr (.inl (h₁.symm.trans h₂))) h₀'
  | cons i l ih =>
    obtain ⟨⟨hi, -⟩, hw⟩ := List.isChain_cons_cons.mp hw
    rw [List.mem_cons, not_or] at h₀
    cases l' with
    | nil =>
      have h₂ := (List.isChain_pair.mp hw').1
      exact absurd (h₂.symm.trans hi) h₀.1
    | cons j l' =>
      obtain ⟨⟨hj, -⟩, hw'⟩ := List.isChain_cons_cons.mp hw'
      rw [List.mem_cons, not_or] at h₀'
      obtain rfl : i = j := hi.symm.trans hj
      rw [ih hw hw' h₀.2 h₀'.2]

/-- No node comes twice: the node before it would, and so on back to the start. -/
theorem chain_joined_nodup (hw : (x :: l).IsChain h.Joined) (hx : x ∉ l) (h₀ : 0 ∉ l) :
    l.Nodup := by
  induction l generalizing x with
  | nil => exact .nil
  | cons i l ih =>
    obtain ⟨⟨-, hp⟩, hw⟩ := List.isChain_cons_cons.mp hw
    rw [List.mem_cons, not_or] at hx h₀
    have hi : i ∉ l := by
      intro hi
      obtain ⟨before, after, rfl⟩ := List.append_of_mem hi
      obtain ⟨pre, y, hy⟩ := (List.eq_nil_or_concat (i :: before)).resolve_left (by simp)
      rw [List.concat_eq_append] at hy
      have hj : h.Joined y i := by
        rw [← List.cons_append, hy, List.append_assoc] at hw
        exact (List.isChain_append_cons_cons.mp hw).2.1
      have hyx : y = x := (hj.2 (Ne.symm h₀.1)).symm.trans (hp (Ne.symm h₀.1))
      have hmem : y ∈ i :: before := by simp [hy]
      rcases List.mem_cons.mp hmem with rfl | hmem
      · exact hx.1 hyx.symm
      · exact hx.2 (hyx ▸ List.mem_append_left _ hmem)
    exact List.nodup_cons.mpr ⟨hi, ih hw hi h₀.2⟩

/-! ## Plans and tags -/

theorem Intact.unit_eq_tag (hi : h.Intact i) : h.unit i = (h.extentAt i).tag := by
  have hlen := h.arena.len_lt
  have hin := hi.inside
  have hsize : (h.extentAt i).size < 0x2000000000000000 := by
    change h.sizeAt i < _
    omega
  rw [← Int64.toInt_inj, Extent.toInt_tag hsize]
  simp only [extentAt, isFreeTag, decide_eq_true_eq, sizeAt, sizeOfTag]
  split <;> omega

theorem Intact.tagged (hi : h.Intact i) (hs : sentinelUnits ≤ h.sizeAt i) :
    h.Tagged (h.extentAt i) :=
  ⟨hs, hi.inside, hi.unit_eq_tag, hi.agree.symm.trans hi.unit_eq_tag⟩

theorem Tagged.extentAt_eq (ht : h.Tagged e) : e = h.extentAt e.start := by
  rw [extentAt, ht.sizeAt_eq, ht.first, Extent.isFreeTag_tag ht.size_lt ht.pos]

/-- The blocks of a plan are those that the tags lead to. -/
theorem Represents.walk (hr : h.Represents p) : h.TagWalk 0 p.blocks where
  tiles := hr.valid.tiles
  intact := fun e he => (hr.tagged e he).intact
  read := fun e he => (hr.tagged e he).extentAt_eq

/-- A heap that represents a plan passes the check. -/
theorem Represents.accepted (hr : h.Represents p) : h.Accepted p.blocks p.avail where
  walk := hr.walk
  first := (hr.tagged _ hr.valid.leading_mem).first
  last := (hr.tagged _ hr.valid.trailing_mem).first
  coalesced := hr.valid.coalesced
  links := hr.links
  nodes := fun i hi => by
    obtain ⟨e, he, hf, rfl, hs⟩ := hr.valid.exists_of_avail hi
    have ht := hr.tagged e he
    refine ⟨⟨fun h₀ => hr.valid.nodes.ne_zero (h₀ ▸ hi), ht.intact, ?_⟩, hr.valid.nodes.inside _ hi⟩
    rw [ht.first, Extent.isFreeTag_tag ht.size_lt ht.pos, hf]
  count := by
    have hperm : p.avail.Perm ((p.blocks.filter (·.free)).map (·.start)) := by
      refine (List.perm_ext_iff_of_nodup hr.valid.nodup ?_).mpr fun i => ?_
      · exact hr.valid.starts_nodup.sublist (List.filter_sublist.map _)
      · rw [hr.valid.mem_avail]
        simp [and_assoc]
    rw [hperm.length_eq, List.length_map, List.countP_eq_length_filter]

/-! ## What the check misses -/

theorem TagWalk.starts_nodup (hw : h.TagWalk i blocks) : (blocks.map (·.start)).Nodup := by
  refine List.pairwise_map.mpr (hw.tiles.pairwise.imp_of_mem fun {e f} he _ hef => ?_)
  have hpos := (hw.intact e he).pos
  have hsize : e.size = h.sizeAt e.start := congrArg Extent.size (hw.read e he)
  simp only [Extent.stop] at hef
  omega

theorem Tiled.leading_mem (ht : h.Tiled blocks) (hl : 2 ≤ h.arena.len) : .leading ∈ blocks := by
  cases blocks with
  | nil =>
    have := tagWalk_nil.mp ht.walk
    omega
  | cons e blocks =>
    obtain ⟨rfl, hi, -⟩ := tagWalk_cons.mp ht.walk
    have h₀ : h.extentAt 0 = .leading := by
      rw [extentAt, sizeAt, ht.first]
      decide
    exact h₀ ▸ List.mem_cons_self

/-- What a heap has to have, beyond passing the check, to be in order: a block of its own for the
last sentinel, room for links in every block between the sentinels, and no node that is not a block
that the tags lead to. -/
structure Unforged (blocks : List Extent) (l : List Nat) (len : Nat) : Prop where
  trailing_mem : .trailing len ∈ blocks
  inner : ∀ e ∈ blocks, e = .leading ∨ e = .trailing len ∨ minBlockUnits ≤ e.size
  nodes : ∀ i ∈ l, ∃ e ∈ blocks, e.start = i

/-- As many nodes as there are free blocks, none of them twice, and all of them free blocks. -/
theorem Accepted.avail_perm (ha : h.Accepted blocks l)
    (hn : ∀ i ∈ l, ∃ e ∈ blocks, e.start = i) :
    l.Perm ((blocks.filter (·.free)).map (·.start)) := by
  have h₀ : 0 ∉ l := fun h₀ => (ha.nodes 0 h₀).1.ne_zero rfl
  have hnodup : l.Nodup := chain_joined_nodup ha.links.left_of_append h₀ h₀
  have hsub : l ⊆ (blocks.filter (·.free)).map (·.start) := by
    intro i hi
    obtain ⟨e, he, rfl⟩ := hn i hi
    have hfree : e.free = isFreeTag (h.unit e.start) := congrArg Extent.free (ha.walk.read e he)
    exact List.mem_map_of_mem (List.mem_filter.mpr ⟨he, hfree.trans (ha.nodes _ hi).1.free⟩)
  refine (hnodup.subperm hsub).perm_of_length_le ?_
  rw [List.length_map, ← List.countP_eq_length_filter, ha.count]

theorem Accepted.represents (ha : h.Accepted blocks l) (hl : 2 ≤ h.arena.len)
    (hu : Unforged blocks l h.arena.len) : h.Represents ⟨blocks, l⟩ := by
  have hperm := ha.avail_perm hu.nodes
  have hv : Plan.Valid ⟨blocks, l⟩ h.arena.len :=
    { tiles := ha.walk.tiles
      leading_mem := ha.leading_mem hl
      trailing_mem := hu.trailing_mem
      inner := hu.inner
      coalesced := ha.coalesced
      nodup := hperm.nodup_iff.mpr (ha.walk.starts_nodup.sublist (List.filter_sublist.map _))
      mem_avail := fun i => by
        rw [hperm.mem_iff]
        simp [and_assoc] }
  refine ⟨hv, fun e he => ?_, ha.links⟩
  have hread := ha.walk.read e he
  have hsize : e.size = h.sizeAt e.start := congrArg Extent.size hread
  rw [hread]
  exact (ha.walk.intact e he).tagged (hsize ▸ hv.sentinelUnits_le he)

theorem Represents.unforged (hr : h.Represents p) : Unforged p.blocks p.avail h.arena.len where
  trailing_mem := hr.valid.trailing_mem
  inner := hr.valid.inner
  nodes := fun i hi => by
    obtain ⟨e, he, -, hs, -⟩ := hr.valid.exists_of_avail hi
    exact ⟨e, he, hs⟩

/-- What the check established is what a plan of the heap would have to be. -/
theorem Accepted.eq_plan (ha : h.Accepted blocks l) (hr : h.Represents p) :
    p = ⟨blocks, l⟩ := by
  have hb : p.blocks = blocks := hr.walk.eq ha.walk
  have hl : p.avail = l := chain_joined_inj hr.links ha.links hr.valid.nodes.ne_zero
    fun h₀ => (ha.nodes 0 h₀).1.ne_zero rfl
  cases p
  simp_all

/-! ## An arena for example -/

/-- Eight units, the fewest there can be. -/
def freshHeap : Heap where
  arena := ⟨8192, #[-2, -2, 4, 0, 0, 4, -2, -2], by decide, by decide, by decide⟩
  head := 2
  allocations := 0
  frees := 0

def freshBlocks : List Extent := [⟨0, 2, false⟩, ⟨2, 4, true⟩, ⟨6, 2, false⟩]

theorem fresh_accepted : freshHeap.Accepted freshBlocks [2] where
  walk := ⟨by decide, by decide +kernel, by decide +kernel⟩
  first := by decide +kernel
  last := by decide +kernel
  coalesced := by decide
  links := by unfold Linked; decide +kernel
  nodes := by decide +kernel
  count := by decide

end Heap

open Heap

variable {h : Heap} {p : Plan} {m : KernelMemory}

namespace KernelMemory

theorem checkIntegrity_eq (hm : m.heap = some h) :
    m.checkIntegrity = ((Integrity.check h.arena.len).run h).1 := by
  rw [checkIntegrity, hm]

/-- The check passes, overruns the arena or reports damage. -/
theorem checkIntegrity_cases (hm : m.heap = some h) (hl : 2 ≤ h.arena.len) :
    (m.checkIntegrity = .ok () ∧ ∃ blocks l, h.Accepted blocks l) ∨
      (m.checkIntegrity = .error (.fault .outsideArena) ∧ ∃ blocks pre, h.Overruns blocks pre) ∨
      ∃ e : Error, m.checkIntegrity = .error (.error e) := by
  rw [checkIntegrity_eq hm]
  rcases Integrity.check_cases hl with ⟨blocks, l, ha⟩ | ⟨blocks, pre, ho⟩ | ⟨e, -, hr⟩
  · exact .inl ⟨by rw [Integrity.check_returns ha hl], blocks, l, ha⟩
  · exact .inr (.inl ⟨Integrity.check_faults ho hl, blocks, pre, ho⟩)
  · exact .inr (.inr ⟨e, by rw [hr]⟩)

theorem checkIntegrity_of_accepted (hm : m.heap = some h) (hl : 2 ≤ h.arena.len)
    {blocks : List Extent} {l : List Nat} (ha : h.Accepted blocks l) : m.checkIntegrity = .ok () := by
  rw [checkIntegrity_eq hm, Integrity.check_returns ha hl]

/-- The check of an arena passes exactly when the tags tile it and the list goes both ways through
free blocks, as many as the tags lead to. The heap is in order exactly when, on top of that, nothing
is forged: the last sentinel is a block, every block between the sentinels has room for links, and
every node is a block that the tags lead to. -/
theorem checkIntegrity_sound_iff_unforged (hm : m.heap = some h) (hl : minArenaUnits ≤ h.arena.len) :
    (m.checkIntegrity = .ok () ↔ ∃ blocks l, h.Accepted blocks l) ∧
      ∀ blocks l, h.Accepted blocks l →
        ((∃ p, h.Represents p) ↔ Unforged blocks l h.arena.len) := by
  have hl : 2 ≤ h.arena.len := Nat.le_trans (by decide) hl
  refine ⟨⟨fun hok => ?_, fun ⟨blocks, l, ha⟩ => checkIntegrity_of_accepted hm hl ha⟩,
    fun blocks l ha => ⟨?_, fun hu => ⟨_, ha.represents hl hu⟩⟩⟩
  · rcases checkIntegrity_cases hm hl with ⟨-, ha⟩ | ⟨hf, -⟩ | ⟨e, he⟩
    · exact ha
    · cases hok.symm.trans hf
    · cases hok.symm.trans he
  · rintro ⟨p, hr⟩
    obtain rfl := ha.eq_plan hr
    exact hr.unforged

/-- A fresh arena passes, and nothing in it is forged. -/
theorem checkIntegrity_sound_iff_unforged_fresh :
    minArenaUnits ≤ freshHeap.arena.len ∧ freshHeap.Accepted freshBlocks [2] ∧
      ∃ p, freshHeap.Represents p :=
  ⟨by decide, fresh_accepted,
    ((checkIntegrity_sound_iff_unforged (m := ⟨freshHeap.arena, true, freshHeap⟩) rfl (by decide)).2
      _ _ fresh_accepted).mpr ⟨by decide, by decide, by decide⟩⟩

/-- A free block that stands in the payload of a taken one is on the list, and the real one behind
it is not. -/
def forgedHeap : Heap where
  arena := ⟨8192, #[-2, -2, 4, 8, 0, 4, -8, 0, 4, 0, 2, 4, 0, -8, 4, 0, 0, 4, -2, -2],
    by decide, by decide, by decide⟩
  head := 2
  allocations := 0
  frees := 0

def forgedBlocks : List Extent :=
  [⟨0, 2, false⟩, ⟨2, 4, true⟩, ⟨6, 8, false⟩, ⟨14, 4, true⟩, ⟨18, 2, false⟩]

theorem forged_accepted : forgedHeap.Accepted forgedBlocks [2, 8] where
  walk := ⟨by decide, by decide +kernel, by decide +kernel⟩
  first := by decide +kernel
  last := by decide +kernel
  coalesced := by decide
  links := by unfold Linked; decide +kernel
  nodes := by decide +kernel
  count := by decide

/-- The check passes and the heap is not in order. -/
theorem checkIntegrity_forged : (KernelMemory.mk forgedHeap.arena true forgedHeap).checkIntegrity =
    .ok () ∧ ¬∃ p, forgedHeap.Represents p := by
  refine ⟨checkIntegrity_of_accepted rfl (by decide) forged_accepted, ?_⟩
  rintro ⟨p, hr⟩
  obtain rfl := forged_accepted.eq_plan hr
  exact absurd (hr.unforged.nodes 8 (by decide)) (by decide)

/-- The check of an arena comes back with an answer exactly when the list does not lead to a block
of one unit at the very end. Otherwise it asks for a unit outside; no sum is ever too large. -/
theorem checkIntegrity_answers_iff_not_overruns (hm : m.heap = some h)
    (hl : minArenaUnits ≤ h.arena.len) :
    ((m.checkIntegrity = .ok () ∨ ∃ e : Error, m.checkIntegrity = .error (.error e)) ↔
        ¬∃ blocks pre, h.Overruns blocks pre) ∧
      ∀ f : Fault, m.checkIntegrity = .error (.fault f) → f = .outsideArena := by
  have hl : 2 ≤ h.arena.len := Nat.le_trans (by decide) hl
  constructor
  · constructor
    · rintro hans ⟨blocks, pre, ho⟩
      have hf : m.checkIntegrity = .error (.fault .outsideArena) :=
        (checkIntegrity_eq hm).trans (Integrity.check_faults ho hl)
      rw [hf] at hans
      simp at hans
    · intro hno
      rcases checkIntegrity_cases hm hl with ⟨hok, -⟩ | ⟨-, ho⟩ | he
      · exact .inl hok
      · exact absurd ho hno
      · exact .inr he
  · intro f hf
    rcases checkIntegrity_cases hm hl with ⟨hok, -⟩ | ⟨ho, -⟩ | ⟨e, he⟩
    · cases hok.symm.trans hf
    · cases ho.symm.trans hf
      rfl
    · cases he.symm.trans hf

/-- The free block before the last sentinel names the unit behind that sentinel as the next node. -/
def loneHeap : Heap where
  arena := ⟨8192, #[-2, -2, 4, 8, 0, 4, -2, -2, 1], by decide, by decide, by decide⟩
  head := 2
  allocations := 0
  frees := 0

def loneBlocks : List Extent :=
  [⟨0, 2, false⟩, ⟨2, 4, true⟩, ⟨6, 2, false⟩, ⟨8, 1, true⟩]

theorem lone_overruns : loneHeap.Overruns loneBlocks [2] where
  walk := ⟨by decide, by decide +kernel, by decide +kernel⟩
  first := by decide +kernel
  last := by decide +kernel
  coalesced := by decide
  links := by decide +kernel
  nodes := by decide +kernel
  few := by decide
  next := by decide +kernel
  lone := by decide +kernel

theorem checkIntegrity_answers_iff_not_overruns_lone :
    minArenaUnits ≤ loneHeap.arena.len ∧ (∃ blocks pre, loneHeap.Overruns blocks pre) ∧
      ¬((KernelMemory.mk loneHeap.arena true loneHeap).checkIntegrity = .ok () ∨
        ∃ e : Error, (KernelMemory.mk loneHeap.arena true loneHeap).checkIntegrity =
          .error (.error e)) :=
  ⟨by decide, ⟨_, _, lone_overruns⟩, fun hans =>
    (checkIntegrity_answers_iff_not_overruns rfl (by decide)).1.mp hans ⟨_, _, lone_overruns⟩⟩

/-- The check neither passes nor reports damage. -/
theorem checkIntegrity_lone : (KernelMemory.mk loneHeap.arena true loneHeap).checkIntegrity =
    .error (.fault .outsideArena) := by
  decide +kernel

end KernelMemory

end BareKernel
