import Mathlib.Algebra.Ring.Nat
import BareKernel.Proofs.Heap.Guarantees
import BareKernel.Proofs.Heap.Integrity

/-! The heap's books. The walk along the tags counts every unit of the arena once, the walk along
the free list finds as many nodes as there are free blocks, and the two counters that no walk goes
through say how many blocks clients hold. -/

namespace BareKernel

open Heap

namespace Heap

open Heap.Action (Returns)

variable {h : Heap} {p : Plan} {e : Extent} {blocks inner : List Extent} {l : List Nat}
  {a b i len limit x : Nat} {s : Stats}

/-! ## Along the tags -/

theorem Tiles.sum_size (ht : Tiles a blocks b) : a + (blocks.map (·.size)).sum = b := by
  induction blocks generalizing a with
  | nil => exact ht
  | cons e blocks ih =>
    obtain ⟨rfl, ht⟩ := ht
    rw [← ih ht, List.map_cons, List.sum_cons, Extent.stop, Nat.add_assoc]

theorem TagWalk.size_lt (hw : h.TagWalk i blocks) (he : e ∈ blocks) :
    e.size < 0x2000000000000000 := by
  have hlen := h.arena.len_lt
  have hin := (hw.tiles.bounds he).2
  simp only [Extent.stop] at hin
  omega

namespace Stats

/-- Every unit that is counted. -/
def units (s : Stats) : Nat := s.freeUnits + s.takenUnits + s.sentinelUnits

/-- Count one block after another. -/
def tally (len : Nat) (s : Stats) (blocks : List Extent) : Stats :=
  blocks.foldl (fun s e => s.count len e.start e.tag) s

theorem countBlocks_returns (hw : h.TagWalk i blocks) (s : Stats) :
    (countBlocks h.arena.len i s).Returns h (s.tally h.arena.len blocks) h := by
  induction blocks generalizing i s with
  | nil =>
    rw [countBlocks, dif_neg (tagWalk_nil.mp hw).not_lt]
    exact .pure s h
  | cons e blocks ih =>
    obtain ⟨rfl, hi, hw⟩ := tagWalk_cons.mp hw
    have htag : (h.extentAt i).tag = h.unit i := hi.unit_eq_tag.symm
    have hsize : sizeOfTag (h.unit i) ≠ 0 := hi.pos
    rw [countBlocks, dif_pos hi.lt]
    refine (Block.tag_returns (b := ⟨i⟩) hi.lt).bind ?_
    rw [dif_neg hsize, tally, List.foldl_cons, htag]
    exact ih hw _

theorem units_count (hs : e.size < 0x2000000000000000) (len : Nat) (s : Stats) :
    (s.count len e.start e.tag).units = s.units + e.size := by
  rw [count, Extent.sizeOfTag_tag hs]
  split_ifs <;> simp only [units] <;> omega

/-- No unit is counted twice and none is missed. -/
theorem units_tally (hs : ∀ e ∈ blocks, e.size < 0x2000000000000000) (len : Nat) (s : Stats) :
    (s.tally len blocks).units = s.units + (blocks.map (·.size)).sum := by
  induction blocks generalizing s with
  | nil => rfl
  | cons e blocks ih =>
    obtain ⟨he, hs⟩ := List.forall_mem_cons.mp hs
    have hrest : ((s.count len e.start e.tag).tally len blocks).units = _ := ih hs _
    rw [tally, List.foldl_cons, ← tally, hrest, units_count he, List.map_cons, List.sum_cons,
      Nat.add_assoc]

/-- The counts with those of blocks between the sentinels on top. -/
def plus (s : Stats) (inner : List Extent) : Stats :=
  let free := inner.filter (·.free)
  let taken := inner.filter (!·.free)
  { s with
    freeUnits := s.freeUnits + (free.map (·.size)).sum
    takenUnits := s.takenUnits + (taken.map (·.size)).sum
    freeBlocks := s.freeBlocks + free.length
    takenBlocks := s.takenBlocks + taken.length
    largestFreeUnits := (free.map (·.size)).foldl max s.largestFreeUnits }

theorem tally_inner (hin : ∀ e ∈ inner, 0 < e.size ∧ e.size < 0x2000000000000000 ∧
    e.start ≠ 0 ∧ e.start ≠ len - Heap.sentinelUnits) (s : Stats) :
    s.tally len inner = s.plus inner := by
  induction inner generalizing s with
  | nil => rfl
  | cons e inner ih =>
    obtain ⟨⟨hpos, hlt, h₀, h₁⟩, hin⟩ := List.forall_mem_cons.mp hin
    have hone : s.count len e.start e.tag = s.plus [e] := by
      rw [count, Extent.sizeOfTag_tag hlt, Extent.isFreeTag_tag hlt hpos, if_neg (by tauto)]
      cases hf : e.free <;> simp [plus, hf]
    have hrest : (s.plus [e]).tally len inner = _ := ih hin _
    rw [tally, List.foldl_cons, ← tally, hone, hrest]
    cases hf : e.free <;> simp [plus, hf, Nat.add_assoc, Nat.add_comm 1]

/-! ## Along the free list -/

theorem countNodes_returns (hw : (x :: l ++ [0]).IsChain h.Joined)
    (hl : ∀ i ∈ l, i ≠ 0 ∧ i + 1 < h.arena.len) (hn : l.length ≤ limit) :
    (countNodes limit (h.succ x)).Returns h l.length h := by
  induction l generalizing x limit with
  | nil =>
    rw [(List.isChain_pair.mp hw).1]
    cases limit <;> exact .pure 0 h
  | cons i l ih =>
    obtain ⟨⟨hs, -⟩, hw⟩ := List.isChain_cons_cons.mp hw
    obtain ⟨⟨h₀, hi⟩, hl⟩ := List.forall_mem_cons.mp hl
    obtain ⟨limit, rfl⟩ := Nat.exists_eq_add_of_le' (Nat.le_of_add_left_le hn)
    rw [hs, countNodes, if_neg h₀]
    exact (Block.next_returns (b := ⟨i⟩) h₀ hi).bind
      ((ih hw hl (Nat.le_of_succ_le_succ hn)).bind (.pure _ h))

/-! ## Both together -/

/-- The counts of an arena of `len` units that is laid out as planned. -/
structure Describes (s : Stats) (p : Plan) (len : Nat) : Prop where
  total : s.totalUnits = len
  conserved : s.freeUnits + s.takenUnits + s.sentinelUnits = s.totalUnits
  sentinels : s.sentinelUnits = 2 * Heap.sentinelUnits
  free : s.freeBlocks = p.blocks.countP (·.free)
  taken : s.takenBlocks = p.blocks.countP fun e => !e.free && minBlockUnits ≤ e.size
  listed : s.freeListLen = s.freeBlocks
  largest : s.largestFreeUnits = ((p.blocks.filter (·.free)).map (·.size)).max?.getD 0

theorem count_sentinel (he : e.start = 0 ∨ e.start = len - Heap.sentinelUnits)
    (hs : e.size < 0x2000000000000000) (s : Stats) :
    s.count len e.start e.tag = { s with sentinelUnits := s.sentinelUnits + e.size } := by
  rw [count, if_pos he, Extent.sizeOfTag_tag hs]

theorem tally_plan (hv : p.Valid len) (hlen : len < 0x2000000000000000)
    (hb : p.blocks = .leading :: inner ++ [.trailing len])
    (hin : ∀ e ∈ inner, minBlockUnits ≤ e.size) (s : Stats) :
    s.tally len p.blocks =
      { s.plus inner with sentinelUnits := s.sentinelUnits + 2 * Heap.sentinelUnits } := by
  have hbetween : ∀ e ∈ inner, 0 < e.size ∧ e.size < 0x2000000000000000 ∧
      e.start ≠ 0 ∧ e.start ≠ len - Heap.sentinelUnits := by
    intro e he
    have hsize := hin e he
    have hbounds := hv.between (by simp [hb, he]) hsize
    simp only [Extent.stop, minBlockUnits, Heap.sentinelUnits] at *
    omega
  have hinner : ∀ s : Stats,
      inner.foldl (fun s e => s.count len e.start e.tag) s = s.plus inner := tally_inner hbetween
  have hlead : ∀ s : Stats, s.count len Extent.leading.start Extent.leading.tag = _ :=
    count_sentinel (.inl rfl) (by decide)
  have htrail : ∀ s : Stats, s.count len (Extent.trailing len).start (Extent.trailing len).tag = _ :=
    count_sentinel (.inr rfl) (by change 2 < _; decide)
  rw [hb, tally, List.cons_append, List.foldl_cons, List.foldl_append, hinner, List.foldl_cons,
    List.foldl_nil, hlead, htrail]
  rfl

theorem foldl_max (l : List Nat) : l.foldl max 0 = l.max?.getD 0 := by
  cases l <;> simp [List.max?]

/-- The walks over a heap that represents a plan find what the plan has. -/
theorem collect_returns (hr : h.Represents p) (hl : minArenaUnits ≤ h.arena.len)
    (allocations frees : Nat) :
    ∃ s, (collect h.arena.len allocations frees).Returns h s h ∧ s.Describes p h.arena.len ∧
      s.allocations = allocations ∧ s.frees = frees := by
  obtain ⟨inner, hb, hin⟩ := hr.valid.exists_inner hl
  have hfree : p.blocks.filter (·.free) = inner.filter (·.free) := by
    simp [hb, Extent.leading, Extent.trailing]
  have htaken : (p.blocks.filter fun e => !e.free && minBlockUnits ≤ e.size) =
      inner.filter (!·.free) := by
    have hsize : (inner.filter fun e => !e.free && minBlockUnits ≤ e.size) =
        inner.filter (!·.free) :=
      List.filter_congr fun e he => by simp [hin e he]
    simpa [hb, Extent.leading, Extent.trailing, Heap.sentinelUnits, minBlockUnits] using hsize
  let start : Stats :=
    { totalUnits := h.arena.len, allocations := allocations, frees := frees }
  have hblocks := countBlocks_returns hr.walk start
  have hunits := units_tally (fun e he => hr.walk.size_lt he) h.arena.len start
  have hfound := tally_plan hr.valid h.arena.len_lt hb hin start
  have hsum := hr.walk.tiles.sum_size
  generalize start.tally h.arena.len p.blocks = found at hblocks hunits hfound
  have htotal : found.totalUnits = h.arena.len := by
    rw [hfound]
    rfl
  have hfreeBlocks : found.freeBlocks = p.blocks.countP (·.free) := by
    rw [hfound, List.countP_eq_length_filter, hfree]
    exact Nat.zero_add _
  have hnodes : (countNodes (found.freeBlocks + 1) h.head).Returns h p.avail.length h := by
    refine countNodes_returns hr.links (fun i hi => ?_) ?_
    · have hroom := hr.valid.nodes.inside i hi
      exact ⟨fun h₀ => hr.valid.nodes.ne_zero (h₀ ▸ hi), Nat.lt_of_succ_lt hroom⟩
    · rw [hfreeBlocks, ← hr.accepted.count]
      exact Nat.le_succ _
  refine ⟨{ found with freeListLen := p.avail.length },
    hblocks.bind (.bind (.head h) (hnodes.bind (.pure _ h))), ⟨?_, ?_, ?_, hfreeBlocks, ?_, ?_, ?_⟩,
    ?_, ?_⟩
  · exact htotal
  · exact hunits.trans (hsum.trans htotal.symm)
  · rw [hfound]
    exact Nat.zero_add _
  · rw [hfound, List.countP_eq_length_filter, htaken]
    exact Nat.zero_add _
  · rw [hfreeBlocks, ← hr.accepted.count]
  · rw [hfound, hfree, ← foldl_max]
    rfl
  · rw [hfound]
    rfl
  · rw [hfound]
    rfl

end Stats

end Heap

/-! ## What is held -/

variable {m m' : KernelMemory} {region : Region} {record : Log.Record} {s : Session} {h h' : Heap}
  {p : Plan} {addr size : Nat} {live : List Loan} {calls : List Session.Call} {c : Session.Call}

namespace KernelMemory

/-- The counters start at nothing. -/
theorem counters_init (hi : m.init region = (.ok record, m')) (hm : m'.heap = some h) :
    h.allocations = 0 ∧ h.frees = 0 := by
  obtain ⟨arena, rfl, -, -, hl⟩ := exists_arena_of_init hi
  obtain ⟨ho, -⟩ := represents_ofArena hl
  obtain rfl := Option.some.inj hm
  exact ⟨congrArg (·.2.2.1) ho, congrArg (·.2.2.2) ho⟩

/-- A write is no call of the heap. -/
theorem counters_setByte (hh : m.heap = some h) {b : UInt8}
    (hm : (m.setByte addr b).heap = some h') :
    h'.allocations = h.allocations ∧ h'.frees = h.frees := by
  obtain ⟨ram, checks, heap⟩ := m
  obtain rfl : heap = some h := hh
  simp only [setByte] at hm
  split at hm
  · obtain rfl := Option.some.inj hm
    exact ⟨rfl, rfl⟩
  · obtain rfl : h = h' := Option.some.inj hm
    exact ⟨rfl, rfl⟩

end KernelMemory

namespace Session

theorem length_revoke (hn : (live.map (·.addr)).Nodup) (ha : addr ∈ live.map (·.addr)) :
    (revoke live addr).length + 1 = live.length := by
  obtain ⟨loan, hl, rfl⟩ := List.mem_map.mp ha
  obtain ⟨before, after, rfl⟩ := List.append_of_mem hl
  rw [List.map_append, List.map_cons, List.nodup_middle, List.nodup_cons, ← List.map_append] at hn
  have hrest : revoke (before ++ after) loan.addr = before ++ after := by
    refine List.filter_eq_self.mpr fun other ho => ?_
    have hne : other.addr ≠ loan.addr := fun h => hn.1 (h ▸ List.mem_map_of_mem ho)
    simpa using hne
  have hone : revoke [loan] loan.addr = [] := by simp [revoke]
  have hsplit : revoke (before ++ loan :: after) loan.addr =
      revoke (before ++ after) loan.addr := by
    simp [revoke, List.filter_append]
  rw [hsplit, hrest]
  simp only [List.length_append, List.length_cons]
  omega

/-- Every block that was ever handed out is held or was given back. -/
def Settled (s : Session) (h : Heap) : Prop := s.live.length + h.frees = h.allocations

namespace Follows

theorem settled_allocate (hf : s.Follows h p) (hs : s.Settled h)
    (hm : (s.step (.allocate size)).2.memory.heap = some h') :
    (s.step (.allocate size)).2.Settled h' ∧ h'.allocations ≤ h.allocations + 1 := by
  rcases Plan.allocate_cases hf.represents.valid size with
      ha | ⟨e, he, units, hfree, h₀, hu, hb, -⟩
  · have hsame := KernelMemory.allocate_none hf.heap hf.represents (congrArg (·.1) ha)
    simp only [Session.step, hsame] at hm ⊢
    obtain rfl : h = h' := Option.some.inj (hf.heap.symm.trans hm)
    exact ⟨hs, Nat.le_succ _⟩
  · obtain ⟨h₁, hsome, -, ho⟩ := KernelMemory.allocate_some hf.heap hf.represents h₀ hu he hfree hb
    simp only [Session.step, hsome] at hm ⊢
    obtain rfl : h₁ = h' := Option.some.inj hm
    have ha : h₁.allocations = h.allocations + 1 := congrArg (·.2.2.1) ho
    have hfr : h₁.frees = h.frees := congrArg (·.2.2.2) ho
    refine ⟨?_, ha.le⟩
    rw [Settled, ha, hfr, ← hs, Session.grant, List.length_cons, Nat.add_right_comm]

theorem settled_give (hf : s.Follows h p) (hs : s.Settled h) (hp : s.Returnable addr)
    (hm : (s.memory.tryFree addr).2.heap = some h') :
    (Session.revoke s.live addr).length + h'.frees = h'.allocations ∧
      h'.allocations = h.allocations := by
  rcases hf.returnable_cases hp with ha | ⟨e, he, rfl⟩
  · rw [KernelMemory.tryFree_ignored hf.heap ha] at hm
    obtain rfl : h = h' := Option.some.inj (hf.heap.symm.trans hm)
    rw [hf.revoke_ignored ha]
    exact ⟨hs, rfl⟩
  · obtain ⟨h₁, hfreed, -, ho⟩ := KernelMemory.tryFree_payload hf.heap hf.represents he
    rw [hfreed] at hm
    obtain rfl : h₁ = h' := Option.some.inj hm
    have ha : h₁.allocations = h.allocations := congrArg (·.2.2.1) ho
    have hfr : h₁.frees = h.frees + 1 := congrArg (·.2.2.2) ho
    have hlength := length_revoke hf.nodup ((hf.live _).mpr ⟨e, he, rfl⟩)
    refine ⟨?_, ha⟩
    rw [ha, hfr, ← hs, ← hlength]
    omega

/-- One call: what is handed out is counted and held, what is given back is counted and held no
longer. -/
theorem settled_step (hf : s.Follows h p) (hs : s.Settled h) (hc : s.Permitted c)
    (hm : (s.step c).2.memory.heap = some h') :
    (s.step c).2.Settled h' ∧ h'.allocations ≤ h.allocations + 1 := by
  cases c with
  | allocate size => exact hf.settled_allocate hs hm
  | free addr =>
    obtain ⟨h₁, hfreed, -⟩ := hf.give hc
    have hsame : s.memory.free addr = _ := KernelMemory.free_of_tryFree hfreed
    simp only [Session.step, hsame] at hm ⊢
    have hm' : (s.memory.tryFree addr).2.heap = some h' := by
      rw [hfreed]
      exact hm
    obtain ⟨hlive, ha⟩ := hf.settled_give hs hc hm'
    exact ⟨hlive, ha.le.trans (Nat.le_succ _)⟩
  | tryFree addr =>
    obtain ⟨hlive, ha⟩ := hf.settled_give hs hc hm
    exact ⟨hlive, ha.le.trans (Nat.le_succ _)⟩
  | write addr b =>
    obtain ⟨ha, hfr⟩ := KernelMemory.counters_setByte hf.heap hm
    refine ⟨?_, ha.le.trans (Nat.le_succ _)⟩
    rw [Settled, ha, hfr]
    exact hs

/-- All calls, one after another. -/
theorem settled_run (hf : s.Follows h p) (hs : s.Settled h) (hp : s.Permits calls)
    (hm : (s.run calls).2.memory.heap = some h') :
    (s.run calls).2.Settled h' ∧ h'.allocations ≤ h.allocations + calls.length := by
  induction calls generalizing s h p with
  | nil =>
    obtain rfl : h = h' := Option.some.inj (hf.heap.symm.trans hm)
    exact ⟨hs, Nat.le_refl _⟩
  | cons c calls ih =>
    obtain ⟨hc, hp⟩ := hp
    obtain ⟨h₁, -, -, hf₁, -⟩ := hf.step hc
    obtain ⟨hs₁, hle₁⟩ := hf.settled_step hs hc hf₁.heap
    obtain ⟨hs₂, hle₂⟩ := ih hf₁ hs₁ hp hm
    refine ⟨hs₂, hle₂.trans ?_⟩
    rw [List.length_cons]
    omega

/-- The client holds as many blocks as are handed out. -/
theorem length_live (hf : s.Follows h p) :
    s.live.length = p.blocks.countP fun e => !e.free && minBlockUnits ≤ e.size := by
  have hv := hf.represents.valid
  have hnodup : ((p.blocks.filter fun e => !e.free && minBlockUnits ≤ e.size).map
      fun e => payloadOf h.arena.base e.start).Nodup := by
    refine List.Nodup.map_on (fun e he f hfm hef => ?_)
      ((List.Nodup.of_map _ hv.starts_nodup).filter _)
    exact hv.eq_of_start (List.mem_of_mem_filter he) (List.mem_of_mem_filter hfm)
      (payloadOf_inj hef)
  have hperm : (s.live.map (·.addr)).Perm _ :=
    (List.perm_ext_iff_of_nodup hf.nodup hnodup).mpr fun a => by
      rw [hf.live]
      simp [Plan.Lent]
  have hlength := hperm.length_eq
  rwa [List.length_map, List.length_map, ← List.countP_eq_length_filter] at hlength

end Follows

end Session

/-! ## The books -/

theorem KernelMemory.stats_eq (hm : m.heap = some h) :
    m.stats = ((Stats.collect h.arena.len h.allocations h.frees).run h).1 := by
  rw [stats, hm]

/-- After any permitted calls the statistics can be had, and they balance: all units are free, taken
or in the two sentinels, the free list is as long as there are free blocks, what is taken is what
was handed out and not given back, which is what the client holds, and the largest free block is
known. The check of the arena passes. -/
theorem Session.stats_balance (hi : m.init region = (.ok record, m'))
    (hp : (Session.mk m' []).Permits calls) (hs : ((Session.mk m' []).run calls).2 = s) :
    s.memory.checkIntegrity = .ok () ∧
      ∃ h p stats, s.memory.heap = some h ∧ h.Represents p ∧ s.memory.stats = .ok stats ∧
        stats.Describes p (m.ram.bytesWithin region / unitBytes) ∧
        stats.takenBlocks = stats.allocations - stats.frees ∧ stats.frees ≤ stats.allocations ∧
        stats.takenBlocks = s.live.length ∧ stats.allocations ≤ calls.length := by
  obtain ⟨h₀, hf₀, -, -, hl₀, hmin⟩ := Session.follows_init hi
  obtain ⟨h, -, -, hf, -, hl⟩ := hf₀.run hp
  obtain ⟨ha₀, hfr₀⟩ := KernelMemory.counters_init hi hf₀.heap
  have hsettled : (Session.mk m' []).Settled h₀ := by rw [Settled, ha₀, hfr₀]; rfl
  obtain ⟨hsettled, hle⟩ := hf₀.settled_run hsettled hp hf.heap
  rw [hs] at hf hsettled
  have hr := hf.represents
  rw [← hl] at hmin
  obtain ⟨stats, hret, hdesc, ha, hfr⟩ := Stats.collect_returns hr hmin h.allocations h.frees
  have hlive : stats.takenBlocks = s.live.length := hdesc.taken.trans hf.length_live.symm
  refine ⟨KernelMemory.checkIntegrity_of_accepted hf.heap (Nat.le_trans (by decide) hmin)
    hr.accepted, h, _, stats, hf.heap, hr, ?_, ?_, ?_, ?_, hlive, ?_⟩
  · rw [KernelMemory.stats_eq hf.heap, hret]
  · exact (hl.trans hl₀) ▸ hdesc
  · rw [hlive, ha, hfr, ← hsettled, Nat.add_sub_cancel]
  · rw [ha, hfr, ← hsettled]
    exact Nat.le_add_left _ _
  · rw [ha]
    simpa [ha₀] using hle

/-- Two blocks of four units are free and one is handed out. -/
theorem Session.stats_balance_small : smallSession.Permits smallCalls ∧
    (smallSession.run smallCalls).2.memory.checkIntegrity = .ok () ∧
    ∃ stats, (smallSession.run smallCalls).2.memory.stats = .ok stats ∧
      stats = { totalUnits := 16, freeUnits := 8, takenUnits := 4, sentinelUnits := 4,
                freeBlocks := 2, takenBlocks := 1, largestFreeUnits := 4, freeListLen := 2,
                allocations := 2, frees := 1 } ∧
      stats.freeUnits + stats.takenUnits + stats.sentinelUnits = 16 ∧
      stats.takenBlocks = (smallSession.run smallCalls).2.live.length ∧
      stats.takenBlocks = stats.allocations - stats.frees := by
  have hp : smallSession.Permits smallCalls := by decide +kernel
  obtain ⟨hcheck, h, p, stats, -, -, hstats, hdesc, hnet, -, hlive, -⟩ :=
    stats_balance init_small hp rfl
  have hnumbers : (smallSession.run smallCalls).2.memory.stats.toOption =
      some ⟨16, 8, 4, 4, 2, 1, 4, 2, 2, 1⟩ := by decide +kernel
  have hfound : some stats = some _ := (congrArg Except.toOption hstats).symm.trans hnumbers
  exact ⟨hp, hcheck, stats, hstats, Option.some.inj hfound, hdesc.conserved.trans hdesc.total,
    hlive, hnet⟩

end BareKernel
