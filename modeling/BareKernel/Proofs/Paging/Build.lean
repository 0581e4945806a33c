import BareKernel.Paging.Storage
import BareKernel.Proofs.Paging.Mapping

/-! The tables as they are built from the firmware's answer to the query for the co-processor's
memory. Whatever the answer, everything below the peripherals is mapped as memory, nothing that may
belong to the co-processor is cacheable, and nothing beyond the local peripherals is mapped. -/

namespace BareKernel.Paging

open Firmware (MemoryWindow)

/-! ## The end of cacheable memory -/

/-- The end of the last whole block below both the reported start and the peripherals, and nothing
when the firmware did not say. -/
def cacheableLimit : Except Firmware.Error MemoryWindow → Nat
  | .error _ => 0
  | .ok window => min (window.base / blockBytes * blockBytes) Board.peripheralBase

theorem cacheableBoundary_fst (r : Except Firmware.Error MemoryWindow) :
    (cacheableBoundary r).1 = cacheableLimit r := by
  cases r with
  | error e => rfl
  | ok window =>
    simp only [cacheableBoundary, cacheableLimit]
    split
    · rename_i habove
      exact (Nat.min_eq_right (Nat.le_of_lt habove)).symm
    · rename_i hbelow
      exact (Nat.min_eq_left (Nat.le_of_not_lt hbelow)).symm

/-- Rounding and clamping give an end that the board's layout has room for. -/
theorem AddressSpace.fits_cacheableLimit (r : Except Firmware.Error MemoryWindow) :
    Fits (cacheableLimit r) Board.peripheralBase Board.peripheralSize
      Board.localPeripheralBase := by
  have hperipherals : Board.peripheralBase % blockBytes = 0 := by decide
  have hall : cacheableLimit r % blockBytes = 0 ∧ cacheableLimit r ≤ Board.peripheralBase := by
    cases r with
    | error e => exact ⟨rfl, Nat.zero_le _⟩
    | ok window =>
      refine ⟨?_, Nat.min_le_right _ _⟩
      rw [cacheableLimit, Nat.min_def]
      split
      · exact Nat.mul_mod_left _ _
      · exact hperipherals
  exact ⟨hall.1, hall.2, by decide, by decide⟩

/-- Nothing is cacheable that was not reported as the cores' own. -/
theorem exists_of_lt_cacheableLimit {r : Except Firmware.Error MemoryWindow} {addr : Nat}
    (h : addr < cacheableLimit r) : ∃ window, r = .ok window ∧ addr < window.base := by
  cases r with
  | error e => exact absurd h (Nat.not_lt_zero _)
  | ok window =>
    have hdown : window.base / blockBytes * blockBytes ≤ window.base := Nat.div_mul_le_self _ _
    exact ⟨window, rfl, Nat.lt_of_lt_of_le (Nat.lt_of_lt_of_le h (Nat.min_le_left _ _)) hdown⟩

/-- All whole blocks below both the reported start and the peripherals are cacheable. -/
theorem le_cacheableLimit {window : MemoryWindow} {i : Nat}
    (hbase : (i + 1) * blockBytes ≤ window.base)
    (hperipherals : (i + 1) * blockBytes ≤ Board.peripheralBase) :
    (i + 1) * blockBytes ≤ cacheableLimit (.ok window) := by
  have hblocks : i + 1 ≤ window.base / blockBytes := (Nat.le_div_iff_mul_le (by decide)).mpr hbase
  exact Nat.le_min.mpr ⟨Nat.mul_le_mul_right _ hblocks, hperipherals⟩

/-! ## The board's memory -/

namespace AddressSpace

/-- What the tables guarantee on the board after this answer: all memory is mapped to itself, is
cacheable only below what was reported, and is cacheable in every whole block below it; the
peripherals are devices, up to the end of the local ones; nothing else is mapped. -/
structure Safe (s : AddressSpace) (r : Except Firmware.Error MemoryWindow) : Prop where
  memory : ∀ a : BitVec 64, a.toNat < Board.peripheralBase → s.physicalAddress a = some a ∧
    (s.classify a = some .normalCacheable ∨ s.classify a = some .normalNonCacheable)
  reported : ∀ a : BitVec 64, s.classify a = some .normalCacheable →
    ∃ window, r = .ok window ∧ a.toNat < window.base
  cacheable : ∀ window, r = .ok window → ∀ i, (i + 1) * blockBytes ≤ window.base →
    (i + 1) * blockBytes ≤ Board.peripheralBase → ∀ a : BitVec 64, i * blockBytes ≤ a.toNat →
      a.toNat < (i + 1) * blockBytes → s.classify a = some .normalCacheable
  devices : ∀ a : BitVec 64, Board.peripheralBase ≤ a.toNat →
    a.toNat < Board.localPeripheralBase + blockBytes →
      s.classify a = some .device ∧ s.physicalAddress a = some a
  unmapped : ∀ a : BitVec 64, Board.localPeripheralBase + blockBytes ≤ a.toNat →
    s.lookup a = none ∧ s.classify a = none ∧ s.physicalAddress a = none

/-- The board's peripherals and its local ones follow one another without a gap. -/
theorem classOf_board (cacheableEnd addr : Nat) :
    classOf cacheableEnd Board.peripheralBase Board.peripheralSize Board.localPeripheralBase addr =
      if Board.peripheralBase ≤ addr ∧ addr < Board.localPeripheralBase + blockBytes then
        some .device
      else if addr < cacheableEnd then some .normalCacheable
      else if addr < Board.peripheralBase then some .normalNonCacheable
      else none := by
  have hblock : blockBytes = 0x200000 := rfl
  have hbase : Board.peripheralBase = 0x3F000000 := rfl
  have hsize : Board.peripheralSize = 0x1000000 := rfl
  have hlocal : Board.localPeripheralBase = 0x40000000 := rfl
  simp only [classOf, hblock, hbase, hsize, hlocal]
  split_ifs <;> first | rfl | omega

theorem Maps.safe {s : AddressSpace} {r : Except Firmware.Error MemoryWindow}
    (hm : s.Maps (cacheableLimit r) Board.peripheralBase Board.peripheralSize
      Board.localPeripheralBase) : s.Safe r := by
  have hend : Board.peripheralBase < Board.localPeripheralBase + blockBytes := by decide
  have hordered := (fits_cacheableLimit r).ordered
  have hclass := fun a => (hm.classify a).trans (classOf_board (cacheableLimit r) a.toNat)
  refine ⟨fun a ha => ?_, fun a ha => ?_, fun window hr i hi hi' a h₁ h₂ => ?_,
    fun a h₁ h₂ => ?_, fun a ha => ?_⟩
  · have hc : s.classify a = some .normalCacheable ∨ s.classify a = some .normalNonCacheable := by
      rw [hclass, if_neg fun h => Nat.not_le_of_lt ha h.1, if_pos ha]
      split
      · exact .inl rfl
      · exact .inr rfl
    refine ⟨?_, hc⟩
    rw [hm.translate]
    rcases hc with hc | hc <;> rw [hc] <;> rfl
  · refine exists_of_lt_cacheableLimit ?_
    rw [hclass] at ha
    split_ifs at ha <;> first | assumption | cases ha
  · subst hr
    have hlt := Nat.lt_of_lt_of_le h₂ (le_cacheableLimit hi hi')
    rw [hclass, if_neg fun h => Nat.not_le_of_lt (Nat.lt_of_lt_of_le hlt hordered) h.1, if_pos hlt]
  · have hc : s.classify a = some .device := by rw [hclass, if_pos ⟨h₁, h₂⟩]
    exact ⟨hc, by rw [hm.translate, hc]; rfl⟩
  · have hbase := Nat.le_trans (Nat.le_of_lt hend) ha
    have hc : s.classify a = none := by
      rw [hclass, if_neg fun h => Nat.not_lt_of_le ha h.2,
        if_neg (Nat.not_lt_of_le (Nat.le_trans hordered hbase)), if_neg (Nat.not_lt_of_le hbase)]
    have hl : s.lookup a = none := by
      have hres := hm.resolves a
      rw [hc] at hres
      exact Option.isNone_iff_eq_none.mp (Option.isSome_eq_false_iff.mp hres)
    exact ⟨hl, hc, by rw [hm.translate, hc]; rfl⟩

/-- The board's whole layout is in the five tables, with the end of cacheable memory that this answer
gives; and wherever their entries can name the tables, it is what every address is mapped to. -/
structure Complete (s : AddressSpace) (r : Except Firmware.Error MemoryWindow) : Prop where
  entries : s.LaidOut (blockClass (cacheableLimit r) Board.peripheralBase Board.peripheralSize
    Board.localPeripheralBase)
  aligned : s.origin % pageBytes = 0
  maps : s.Placed → s.Maps (cacheableLimit r) Board.peripheralBase Board.peripheralSize
    Board.localPeripheralBase
  safe : s.Placed → s.Safe r

theorem complete_of_populateBoard {s s' : AddressSpace} {r : Except Firmware.Error MemoryWindow}
    (h : s.populateBoard (cacheableBoundary r).1 = .ok s') : s'.Complete r := by
  rw [cacheableBoundary_fst] at h
  have hf := fits_cacheableLimit r
  have hl := laidOut_of_populate h hf
  have hmaps := fun hp => hl.maps hp hf (by decide) (by decide)
  refine ⟨hl, ?_, hmaps, fun hp => (hmaps hp).safe⟩
  rw [origin_of_populate h]
  exact aligned_of_populate h

/-- The board's layout fits tables in any place that they can name, whatever the firmware says. -/
theorem exists_safe {origin : Nat} (hp : (blank origin).Placed)
    (r : Except Firmware.Error MemoryWindow) :
    ∃ s, (blank origin).populateBoard (cacheableBoundary r).1 = .ok s ∧ s.origin = origin ∧
      s.Safe r := by
  obtain ⟨s, hs, -⟩ := populate_eq hp.aligned (fits_cacheableLimit r)
  rw [← cacheableBoundary_fst] at hs
  have horigin := origin_of_populate hs
  exact ⟨s, hs, horigin, (complete_of_populateBoard hs).safe (hp.of_origin_eq horigin)⟩

end AddressSpace

namespace TableStorage

/-- Records are kept outside the storage that is handed on. -/
theorem run_forM_lift {m : Type → Type} [Monad m] [LawfulMonad m] (log : Log.Record → m Unit)
    (records : List Log.Record) (s : TableStorage) :
    (records.forM fun record => (StateT.lift (log record) : StateT TableStorage m Unit)).run s = do
      records.forM log
      return ((), s) := by
  induction records with
  | nil => simp only [List.forM, StateT.run_pure, pure_bind]
  | cons record records ih =>
    simp only [List.forM, StateT.run_bind, StateT.run_lift, ih, bind_assoc, pure_bind]

/-- A storage that is handed on is built as with any layout, by the one that the firmware's answer
asks for. -/
theorem build_eq {m : Type → Type} [Monad m] [LawfulMonad m] (log : Log.Record → m Unit)
    (channel : Firmware.Channel m) (s : TableStorage) : s.build log channel =
      if s.isBuilt then do
        log keepRecord
        return (.ok (), s)
      else do
        let (boundary, records) := cacheableBoundary (← Firmware.videoMemory channel)
        records.forM log
        match s.buildWith (·.populateBoard boundary) with
        | (.ok _, t) =>
          log (builtRecord boundary)
          return (.ok (), t)
        | (.error e, t) => return (.error e, t) := by
  by_cases hbuilt : s.isBuilt = true
  · simp only [build, buildIn, hbuilt, if_true, StateT.run_bind, StateT.run_lift, StateT.run_pure,
      bind_assoc, pure_bind]
    rfl
  · simp only [build, buildIn, fill, handedOn, buildWith, hbuilt, Firmware.videoMemory,
      Bool.false_eq_true, if_false, StateT.run_bind, StateT.run_lift, run_forM_lift, bind_assoc,
      pure_bind]
    refine congrArg _ (funext fun reply => congrArg _ (funext fun _ => ?_))
    cases s.space.populateBoard (cacheableBoundary (reply.map .ofValues)).1 with
    | ok space =>
      simp only [StateT.run_bind, StateT.run_lift, StateT.run_pure, StateT.run_modify, bind_assoc,
        pure_bind]
      rfl
    | error e =>
      simp only [StateT.run_pure, pure_bind]
      rfl

end TableStorage

end BareKernel.Paging
