import BareKernel.Proofs.Heap.Accounting

/-! Statistics of an arena that may hold anything, as long as it passes the check. The check and the
statistics follow the same tags but stop for different reasons and treat the ends of the arena
differently: the check counts every free block that the tags lead to, and the statistics leave out
whatever starts where a sentinel should. The tags of the sentinels say that these are the same. -/

namespace BareKernel

namespace Heap

variable {h : Heap} {e : Extent} {blocks : List Extent} {l : List Nat} {len : Nat}

/-- No free block starts where a sentinel should, be the last sentinel a block or not. -/
theorem Tiled.between_of_free (ht : h.Tiled blocks) (he : e ∈ blocks) (hf : e.free = true) :
    e.start ≠ 0 ∧ e.start ≠ h.arena.len - sentinelUnits := by
  have hfree : isFreeTag (h.unit e.start) = true :=
    (congrArg Extent.free (ht.walk.read e he)).symm.trans hf
  have htaken : isFreeTag (takenTag sentinelUnits) = false := by decide
  constructor <;> intro hs
  · rw [hs, ht.first, htaken] at hfree
    cases hfree
  · rw [hs, ht.last, htaken] at hfree
    cases hfree

namespace Stats

/-! ## What one block adds -/

@[simp] theorem totalUnits_count (len index : Nat) (tag : Int64) (s : Stats) :
    (s.count len index tag).totalUnits = s.totalUnits := by
  rw [count]
  split_ifs <;> rfl

theorem largest_le_count {s : Stats} (hs : s.largestFreeUnits ≤ s.freeUnits) (len index : Nat)
    (tag : Int64) :
    (s.count len index tag).largestFreeUnits ≤ (s.count len index tag).freeUnits := by
  rw [count]
  split_ifs
  · exact hs
  · exact max_le (hs.trans (Nat.le_add_right _ _)) (Nat.le_add_left _ _)
  · exact hs

theorem freeBlocks_count (hpos : 0 < e.size) (hlt : e.size < 0x2000000000000000)
    (hb : e.free = true → e.start ≠ 0 ∧ e.start ≠ len - Heap.sentinelUnits) (s : Stats) :
    (s.count len e.start e.tag).freeBlocks = s.freeBlocks + if e.free then 1 else 0 := by
  rw [count, Extent.isFreeTag_tag hlt hpos]
  cases hf : e.free with
  | false =>
    simp only [Bool.false_eq_true, if_false]
    split <;> rfl
  | true =>
    obtain ⟨h₀, h₁⟩ := hb hf
    rw [if_neg (not_or.mpr ⟨h₀, h₁⟩)]
    rfl

/-! ## What all of them add -/

theorem totalUnits_tally (len : Nat) (s : Stats) (blocks : List Extent) :
    (s.tally len blocks).totalUnits = s.totalUnits := by
  induction blocks generalizing s with
  | nil => rfl
  | cons e blocks ih => exact (ih _).trans (totalUnits_count len e.start e.tag s)

/-- The largest free block is one of those that are summed up. -/
theorem largest_le_tally {s : Stats} (hs : s.largestFreeUnits ≤ s.freeUnits) (len : Nat)
    (blocks : List Extent) :
    (s.tally len blocks).largestFreeUnits ≤ (s.tally len blocks).freeUnits := by
  induction blocks generalizing s with
  | nil => exact hs
  | cons e blocks ih => exact ih (largest_le_count hs len e.start e.tag)

theorem freeBlocks_tally (hs : ∀ e ∈ blocks, 0 < e.size ∧ e.size < 0x2000000000000000)
    (hb : ∀ e ∈ blocks, e.free = true → e.start ≠ 0 ∧ e.start ≠ len - Heap.sentinelUnits)
    (s : Stats) : (s.tally len blocks).freeBlocks = s.freeBlocks + blocks.countP (·.free) := by
  induction blocks generalizing s with
  | nil => rfl
  | cons e blocks ih =>
    obtain ⟨⟨hpos, hlt⟩, hs⟩ := List.forall_mem_cons.mp hs
    obtain ⟨hb₀, hb⟩ := List.forall_mem_cons.mp hb
    have hrest : ((s.count len e.start e.tag).tally len blocks).freeBlocks = _ := ih hs hb _
    rw [tally, List.foldl_cons, ← tally, hrest, freeBlocks_count hpos hlt hb₀, List.countP_cons]
    omega

/-! ## Both walks -/

/-- The statistics count as many free blocks as the check did, and therefore see the end of the free
list. -/
theorem collect_of_accepted (ha : h.Accepted blocks l) (allocations frees : Nat) :
    ∃ s, (collect h.arena.len allocations frees).Returns h s h ∧
      s.totalUnits = h.arena.len ∧
      s.freeUnits + s.takenUnits + s.sentinelUnits = s.totalUnits ∧
      s.freeBlocks = blocks.countP (·.free) ∧ s.freeListLen = s.freeBlocks ∧
      s.largestFreeUnits ≤ s.freeUnits := by
  let start : Stats :=
    { totalUnits := h.arena.len, allocations := allocations, frees := frees }
  have hsize : ∀ e ∈ blocks, 0 < e.size ∧ e.size < 0x2000000000000000 := by
    intro e he
    have hread : e.size = h.sizeAt e.start := congrArg Extent.size (ha.walk.read e he)
    exact ⟨hread ▸ Nat.pos_of_ne_zero (ha.walk.intact e he).pos, ha.walk.size_lt he⟩
  have hblocks := countBlocks_returns ha.walk start
  have htotal : (start.tally h.arena.len blocks).totalUnits = h.arena.len :=
    totalUnits_tally h.arena.len start blocks
  have hunits : (start.tally h.arena.len blocks).units = h.arena.len :=
    (units_tally (fun e he => (hsize e he).2) h.arena.len start).trans ha.walk.tiles.sum_size
  have hlargest := largest_le_tally (s := start) (Nat.le_refl 0) h.arena.len blocks
  have hfree : (start.tally h.arena.len blocks).freeBlocks = blocks.countP (·.free) :=
    (freeBlocks_tally hsize (fun e he => ha.between_of_free he) start).trans (Nat.zero_add _)
  generalize start.tally h.arena.len blocks = found at hblocks htotal hunits hlargest hfree
  have hnodes : (countNodes (found.freeBlocks + 1) h.head).Returns h l.length h := by
    refine countNodes_returns ha.links (fun i hi => ?_) ?_
    · exact ⟨(ha.nodes i hi).1.ne_zero, Nat.lt_of_succ_lt (ha.nodes i hi).2⟩
    · rw [hfree, ← ha.count]
      exact Nat.le_succ _
  exact ⟨{ found with freeListLen := l.length },
    hblocks.bind (.bind (.head h) (hnodes.bind (.pure _ h))), htotal, hunits.trans htotal.symm,
    hfree, ha.count.trans hfree.symm, hlargest⟩

end Stats

end Heap

open Heap

/-- Whatever an arena holds and wherever its free list starts, when it passes the check its
statistics can be had and are consistent: every unit is free, taken or a sentinel's, the free list
is as long as there are free blocks, which are those that the check went through, and the largest of
them is no larger than all of them. -/
theorem KernelMemory.stats_of_checkIntegrity {m : KernelMemory} {h : Heap} (hm : m.heap = some h)
    (hl : minArenaUnits ≤ h.arena.len) (hok : m.checkIntegrity = .ok ()) :
    ∃ stats blocks l, m.stats = .ok stats ∧ h.Accepted blocks l ∧
      stats.totalUnits = h.arena.len ∧
      stats.freeUnits + stats.takenUnits + stats.sentinelUnits = stats.totalUnits ∧
      stats.freeBlocks = blocks.countP (·.free) ∧ stats.freeListLen = stats.freeBlocks ∧
      stats.largestFreeUnits ≤ stats.freeUnits := by
  have hl : 2 ≤ h.arena.len := Nat.le_trans (by decide) hl
  rcases checkIntegrity_cases hm hl with ⟨-, blocks, l, ha⟩ | ⟨hf, -⟩ | ⟨e, he⟩
  · obtain ⟨stats, hret, hstats⟩ := Stats.collect_of_accepted ha h.allocations h.frees
    exact ⟨stats, blocks, l, by rw [stats_eq hm, hret], ha, hstats⟩
  · cases hok.symm.trans hf
  · cases hok.symm.trans he

/-- A free block that stands in a payload is on the list in the place of a real one. -/
theorem KernelMemory.stats_of_checkIntegrity_forged :
    (KernelMemory.mk forgedHeap.arena true forgedHeap).checkIntegrity = .ok () ∧
      ∃ stats, (KernelMemory.mk forgedHeap.arena true forgedHeap).stats = .ok stats ∧
        stats.freeListLen = stats.freeBlocks := by
  have hok : (KernelMemory.mk forgedHeap.arena true forgedHeap).checkIntegrity = .ok () :=
    checkIntegrity_of_accepted rfl (by decide) forged_accepted
  obtain ⟨stats, _, _, hs, -, -, -, -, hn, -⟩ := stats_of_checkIntegrity rfl (by decide) hok
  exact ⟨hok, stats, hs, hn⟩

end BareKernel
