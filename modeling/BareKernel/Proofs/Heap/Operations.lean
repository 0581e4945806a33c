import BareKernel.KernelMemory
import BareKernel.Proofs.Heap.Transition

/-! The heap as the kernel calls it. On a heap that represents a plan, an allocation answers what
the plan answers, giving back a block that was handed out succeeds, and bytes may be written
anywhere between the tags of a taken block. Each leaves a heap that represents the plan that
follows, in the same place, with the contents of every other taken block as they were. -/

namespace BareKernel

open Heap

variable {h h' : Heap} {p : Plan} {e f : Extent} {m : KernelMemory} {i j addr : Nat}

namespace Heap

/-- `h'` represents the plan after `p`, in the place of `h`, and a block that stays handed out
keeps its size and its contents. -/
structure Succeeds (h : Heap) (p : Plan) (h' : Heap) (p' : Plan) : Prop where
  base : h'.arena.base = h.arena.base
  len : h'.arena.len = h.arena.len
  represents : h'.Represents p'
  stays : ∀ e f, p.Lent e → p'.Lent f → f.start = e.start →
    f = e ∧ ∀ j, e.start ≤ j → j < e.stop → h'.unit j = h.unit j

theorem Succeeds.refl (hr : h.Represents p) : h.Succeeds p h p :=
  ⟨rfl, rfl, hr, fun _ _ he hf hs => ⟨hr.valid.eq_of_start hf.1 he.1 hs, fun _ _ _ => rfl⟩⟩

theorem Extent.owns_of_taken (ht : e.free = false) (h₁ : e.start ≤ j) (h₂ : j < e.stop) :
    e.Owns j :=
  ⟨h₁, h₂, fun hf => absurd hf (by simp [ht])⟩

end Heap

namespace KernelMemory

theorem perform_run {α : Type} (code : Memory → Action α) (hh : m.heap = some h) :
    m.perform code = (((code h.arena).run h).1,
      { m with heap := some ((code h.arena).run h).2 }) := by
  obtain ⟨ram, checks, heap⟩ := m
  obtain rfl : heap = some h := hh
  rfl

theorem perform_eq {α : Type} (code : Memory → Action α) {a : α} (hh : m.heap = some h)
    (hr : (code h.arena).Returns h a h') :
    m.perform code = (.ok a, { m with heap := some h' }) := by
  rw [perform_run code hh, show (code h.arena).run h = (.ok a, h') from hr]

/-! ## Allocation -/

/-- A request that gets nothing changes nothing. -/
theorem allocate_none (hh : m.heap = some h) (hr : h.Represents p) {size : Nat}
    (hn : (p.allocate size).1 = none) : m.allocate size = (.ok none, m) := by
  have hinit : m.isInitialised = true := by rw [isInitialised, hh]; rfl
  by_cases h₀ : size = 0
  · simp [allocate, h₀]
  cases hu : unitsFor size with
  | none => simp [allocate, h₀, hu, hinit]
  | some units =>
    have hb : p.bestFit units = none := by
      cases hb : p.bestFit units with
      | none => rfl
      | some i =>
        obtain ⟨hsmall, rfl⟩ := Plan.unitsFor_eq_some.mp hu
        rw [Plan.allocate, if_neg (not_or.mpr ⟨h₀, hsmall⟩), hb] at hn
        cases hn
    have hret : (takePayload m.checks h.arena.base h.arena.len units).Returns h none h :=
      .bind (hr.takeFit_none hb m.checks) (.pure _ h)
    have hp := perform_eq
      (fun arena => takePayload m.checks arena.base arena.len units) hh hret
    rw [← hh] at hp
    simp [allocate, h₀, hinit, hu, hp]

theorem allocate_some (hh : m.heap = some h) (hr : h.Represents p) {size units : Nat}
    (h₀ : size ≠ 0) (hu : unitsFor size = some units) (he : e ∈ p.blocks) (hf : e.free = true)
    (hb : p.bestFit units = some e.start) :
    ∃ h', m.allocate size = (.ok (some (payloadOf h.arena.base e.start)),
        { m with heap := some h' }) ∧
      h.Succeeds p h' (p.take e.start units) ∧
      h'.outline = (h.arena.base, h.arena.len, h.allocations + 1, h.frees) := by
  have hinit : m.isInitialised = true := by rw [isInitialised, hh]; rfl
  have hmin := minBlockUnits_le_of_unitsFor hu
  obtain ⟨h', hret, ho, hr', hk⟩ := hr.takeFit_some hmin he hb
  have hret : (takePayload m.checks h.arena.base h.arena.len units).Returns h
      (some (payloadOf h.arena.base e.start)) h' :=
    .bind (hret m.checks) (.pure _ h')
  have hp := perform_eq
    (fun arena => takePayload m.checks arena.base arena.len units) hh hret
  refine ⟨h', ?_, ⟨congrArg (·.1) ho, congrArg (·.2.1) ho, hr', fun f g hfl hgl hs => ?_⟩, ho⟩
  · simp [allocate, h₀, hinit, hu, hp]
  · have hfe : f ≠ e := fun h => absurd (hfl.2.1.symm.trans (h ▸ hf)) (by simp)
    refine ⟨?_, fun j h₁ h₂ => hk f hfl.1 (by simpa using hfe) j
      (Extent.owns_of_taken hfl.2.1 h₁ h₂)⟩
    rcases (Plan.lent_take hr.valid he hf hmin).mp hgl with h | rfl
    · exact hr.valid.eq_of_start h.1 hfl.1 hs
    · exact absurd (hr.valid.eq_of_start he hfl.1 hs).symm hfe

theorem allocate_eq (hh : m.heap = some h) (hr : h.Represents p) (size : Nat) :
    ∃ h', m.allocate size = (.ok ((p.allocate size).1.map (payloadOf h.arena.base)),
        { m with heap := some h' }) ∧
      h.Succeeds p h' (p.allocate size).2 := by
  rcases Plan.allocate_cases hr.valid size with ha | ⟨e, he, units, hf, h₀, hu, hb, -, ha⟩
  · rw [ha]
    have hm : m = { m with heap := some h } := by rw [← hh]
    refine ⟨h, ?_, .refl hr⟩
    rw [allocate_none hh hr (congrArg (·.1) ha), ← hm]
    rfl
  · rw [ha]
    obtain ⟨h', hm, hs, -⟩ := allocate_some hh hr h₀ hu he hf hb
    exact ⟨h', hm, hs⟩

/-! ## Giving back -/

/-- No payload starts at the arena's base or at null. -/
theorem payloadOf_ne (base i : Nat) : payloadOf base i ≠ base ∧ payloadOf base i ≠ 0 := by
  simp only [payloadOf, unitBytes]
  omega

theorem tryFree_payload (hh : m.heap = some h) (hr : h.Represents p) (he : p.Lent e) :
    ∃ h', m.tryFree (payloadOf h.arena.base e.start) = (.ok (), { m with heap := some h' }) ∧
      h.Succeeds p h' (p.release e.start) ∧
      h'.outline = (h.arena.base, h.arena.len, h.allocations, h.frees + 1) := by
  obtain ⟨h', hret, ho, hr', hk⟩ := hr.giveBack_returns he.1 he.2.2 he.2.1
  obtain ⟨pre, l, r, post, ha⟩ := hr.valid.exists_around he.1 he.2.2 he.2.1
  have hne := payloadOf_ne h.arena.base e.start
  have hret : (givePayload m.checks h.arena.base h.arena.len
      (payloadOf h.arena.base e.start)).Returns h () h' := by
    rw [givePayload, if_neg hne.1]
    exact hret m.checks
  refine ⟨h', ?_, ⟨congrArg (·.1) ho, congrArg (·.2.1) ho, hr', fun f g hf hg hs => ?_⟩, ho⟩
  · rw [tryFree, if_neg hne.2]
    exact perform_eq (fun arena => givePayload m.checks arena.base arena.len
      (payloadOf h.arena.base e.start)) hh hret
  · obtain ⟨hg, hge⟩ := (Plan.lent_release hr.valid he).mp hg
    obtain rfl := hr.valid.eq_of_start hg.1 hf.1 hs
    refine ⟨rfl, fun j h₁ h₂ => hk g hg.1 ?_ j (Extent.owns_of_taken hg.2.1 h₁ h₂)⟩
    rw [ha.neighbours_eq hr.valid]
    refine List.not_mem_cons_of_ne_of_not_mem hge fun hm => ?_
    simpa [hg.2.1] using (List.mem_filter.mp hm).2

/-- Null and the arena's base are no block's. -/
theorem tryFree_ignored (hh : m.heap = some h) (ha : addr = 0 ∨ addr = h.arena.base) :
    m.tryFree addr = (.ok (), m) := by
  unfold tryFree
  split
  · rfl
  · have ha := ha.resolve_left ‹_›
    have hret : (givePayload m.checks h.arena.base h.arena.len addr).Returns h () h := by
      rw [givePayload, if_pos ha]
      exact .pure () h
    have hp := perform_eq
      (fun arena => givePayload m.checks arena.base arena.len addr) hh hret
    rwa [← hh] at hp

theorem free_of_tryFree {m' : KernelMemory} (ht : m.tryFree addr = (.ok (), m')) :
    m.free addr = (.ok (), m') := by
  rw [free, ht]

end KernelMemory

/-! ## Bytes -/

namespace Heap

/-- A unit between the tags of a taken block may hold anything. -/
theorem Represents.setUnit (hr : h.Represents p) (he : e ∈ p.blocks) (ht : e.free = false)
    (h₁ : e.start < j) (h₂ : j + 1 < e.stop) (v : Int64) : (h.setUnit j v).Represents p := by
  have hlen : (h.setUnit j v).arena.len = h.arena.len := len_setUnit h j v
  -- neither a tag nor a link
  have htag : ∀ f ∈ p.blocks, j ≠ f.start ∧ j ≠ f.stop - 1 := by
    intro f hf
    have hs := hr.valid.sentinelUnits_le hf
    simp only [sentinelUnits] at hs
    rcases hr.valid.apart he hf with rfl | h | h <;> simp only [Extent.stop] at * <;> omega
  have hlink : ∀ a ∈ p.avail, j ≠ a + 1 ∧ j ≠ a + 2 := fun a ha =>
    hr.valid.not_link he (Extent.owns_of_taken ht h₁.le (Nat.lt_of_succ_lt h₂)) ha
  refine ⟨hlen ▸ hr.valid, fun f hf => ?_, hr.links.congr rfl fun a ha => ?_⟩
  · have htf := hr.tagged f hf
    refine ⟨htf.size, hlen ▸ htf.inside, ?_, ?_⟩
    · rw [unit_setUnit_ne v (htag f hf).1, htf.first]
    · rw [unit_setUnit_ne v (htag f hf).2, htf.last]
  · exact ⟨unit_setUnit_ne v (hlink a ha).1, unit_setUnit_ne v (hlink a ha).2⟩

/-- A byte address between the tags of a block, and the unit that the byte is in. -/
theorem unit_of_payload {base : Nat} (h₁ : payloadOf base e.start ≤ addr)
    (h₂ : addr < payloadOf base e.start + (e.size - tagUnits) * unitBytes) :
    base ≤ addr ∧ e.start < (addr - base) / 8 ∧ (addr - base) / 8 + 1 < e.stop := by
  simp only [payloadOf, unitBytes, tagUnits, Extent.stop] at *
  omega

theorem contains_congr (hb : h'.arena.base = h.arena.base) (hl : h'.arena.len = h.arena.len)
    (addr : Nat) : h'.arena.contains addr = h.arena.contains addr := by
  simp only [Memory.contains, hb, hl]

theorem byteAt_congr (hb : h'.arena.base = h.arena.base) (hl : h'.arena.len = h.arena.len)
    (hu : h'.unit ((addr - h.arena.base) / 8) = h.unit ((addr - h.arena.base) / 8)) :
    h'.arena.byteAt addr = h.arena.byteAt addr := by
  rw [unit, unit] at hu
  simp only [Memory.byteAt, Memory.unitOf, contains_congr hb hl, hb, hu]

/-- To write a byte is to write the unit that it is in. -/
theorem setByte_eq (hc : h.arena.contains addr = true) (b : UInt8) :
    { h with arena := h.arena.setByte addr b } = h.setUnit ((addr - h.arena.base) / 8)
      (Memory.withByte (h.unit ((addr - h.arena.base) / 8)).toUInt64
        ((addr - h.arena.base) % 8) b).toInt64 := by
  simp only [Memory.setByte, hc, if_true]
  rfl

end Heap

namespace KernelMemory

theorem contains_payload (hr : h.Represents p) (he : e ∈ p.blocks)
    (h₁ : payloadOf h.arena.base e.start ≤ addr)
    (h₂ : addr < payloadOf h.arena.base e.start + (e.size - tagUnits) * unitBytes) :
    h.arena.contains addr = true := by
  obtain ⟨h₃, -, h₅⟩ := unit_of_payload h₁ h₂
  have := (hr.valid.tiles.bounds he).2
  simp only [Memory.contains, Bool.and_eq_true, decide_eq_true_eq]
  omega

/-- To write a byte into the arena is to write the unit that it is in. -/
theorem setByte_arena (hh : m.heap = some h) (hc : h.arena.contains addr = true) (b : UInt8) :
    ∃ v, m.setByte addr b = { m with heap := some (h.setUnit ((addr - h.arena.base) / 8) v) } := by
  obtain ⟨ram, checks, heap⟩ := m
  obtain rfl : heap = some h := hh
  exact ⟨_, by rw [setByte, if_pos hc, setByte_eq hc]⟩

theorem setByte_payload (hh : m.heap = some h) (hr : h.Represents p) (he : e ∈ p.blocks)
    (ht : e.free = false) (h₁ : payloadOf h.arena.base e.start ≤ addr)
    (h₂ : addr < payloadOf h.arena.base e.start + (e.size - tagUnits) * unitBytes) (b : UInt8) :
    ∃ h', m.setByte addr b = { m with heap := some h' } ∧ h'.arena.base = h.arena.base ∧
      h'.arena.len = h.arena.len ∧ h'.Represents p := by
  obtain ⟨v, hv⟩ := setByte_arena hh (contains_payload hr he h₁ h₂) b
  obtain ⟨-, h₃, h₄⟩ := unit_of_payload h₁ h₂
  exact ⟨_, hv, rfl, len_setUnit _ _ _, hr.setUnit he ht h₃ h₄ v⟩

/-- A byte of the arena depends on its unit alone. -/
theorem byteAt_congr {m' : KernelMemory} (hh : m.heap = some h) (hh' : m'.heap = some h')
    (hb : h'.arena.base = h.arena.base) (hl : h'.arena.len = h.arena.len)
    (hc : h.arena.contains addr = true)
    (hu : h'.unit ((addr - h.arena.base) / 8) = h.unit ((addr - h.arena.base) / 8)) :
    m'.byteAt addr = m.byteAt addr := by
  have hc' : h'.arena.contains addr = true := (contains_congr hb hl addr).trans hc
  simp only [byteAt, hh, hh', hc, hc', if_true]
  exact Heap.byteAt_congr hb hl hu

/-- The header of a block lies in the unit before its payload. -/
theorem unitAt_header (hh : m.heap = some h) (hr : h.Represents p) (he : e ∈ p.blocks) :
    m.unitAt (payloadOf h.arena.base e.start - unitBytes) = e.tag := by
  have ht := hr.tagged e he
  have hlt := ht.start_lt
  have hoff : payloadOf h.arena.base e.start - unitBytes = h.arena.base + e.start * 8 := by
    simp only [payloadOf, unitBytes]
    omega
  have hc : h.arena.contains (h.arena.base + e.start * 8) = true := by
    simp only [Memory.contains, Bool.and_eq_true, decide_eq_true_eq]
    omega
  have hi : (h.arena.base + e.start * 8 - h.arena.base) / 8 = e.start := by omega
  simp only [hoff, unitAt, hh, hc, if_true, Memory.unitOf, hi]
  exact ht.first

/-! ## The start -/

/-- The arena that a region becomes. -/
theorem exists_arena_of_init {region : Region} {record : Log.Record} {m' : KernelMemory}
    (hi : m.init region = (.ok record, m')) :
    ∃ arena : Memory, m' = { m with heap := some (ofArena arena) } ∧ arena.base = region.base ∧
      arena.len = m.ram.bytesWithin region / unitBytes ∧ minArenaUnits ≤ arena.len := by
  obtain ⟨ram, checks, heap⟩ := m
  cases heap with
  | some h => simp [init] at hi
  | none =>
    simp only [init] at hi
    split at hi
    · simp at hi
    split at hi
    · simp at hi
    rename_i h₀ hl
    simp only [Prod.mk.injEq] at hi
    obtain ⟨-, rfl⟩ := hi
    refine ⟨_, rfl, ?_⟩
    generalize harena : ram.window region.base _ _ _ _ = arena
    have hlen : arena.len = ram.bytesWithin region / unitBytes := by
      rw [← harena, Memory.len_window]
    have hbase : arena.base = region.base := by
      rw [← harena]
      rfl
    exact ⟨hbase, hlen, hlen ▸ Nat.not_lt.mp hl⟩

theorem init_eq {region : Region} {record : Log.Record} {m' : KernelMemory}
    (hi : m.init region = (.ok record, m')) :
    ∃ h, m' = { m with heap := some h } ∧ h.arena.base = region.base ∧
      h.arena.len = m.ram.bytesWithin region / unitBytes ∧ minArenaUnits ≤ h.arena.len ∧
      h.Represents (.initial h.arena.len) := by
  obtain ⟨arena, rfl, hbase, hlen, hl⟩ := exists_arena_of_init hi
  obtain ⟨ho, hr⟩ := represents_ofArena hl
  have hlen' : (ofArena arena).arena.len = arena.len := congrArg (·.2.1) ho
  exact ⟨_, rfl, (congrArg (·.1) ho).trans hbase, hlen'.trans hlen, hlen'.symm ▸ hl,
    hlen'.symm ▸ hr⟩

end KernelMemory

end BareKernel
