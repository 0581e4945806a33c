import BareKernel.Proofs.Paging.Layout
import BareKernel.Proofs.Paging.Walk

/-! The peripheral window when it does not begin and end with blocks. Both ends are rounded down, so
the block in which it begins is a device as a whole, and what it has of the block in which it ends
is left out unless that is the local block. -/

namespace BareKernel.Paging

namespace AddressSpace

variable {s : AddressSpace} {cacheableEnd peripheralBase peripheralSize localBase addr bound : Nat}
  {a : BitVec 64}

/-! ## Starts of blocks -/

/-- Where the block of an address starts. -/
def blockStart (addr : Nat) : Nat := blockIndex addr * blockBytes

theorem blockStart_add_mod (addr : Nat) : blockStart addr + addr % blockBytes = addr :=
  Nat.div_add_mod' addr blockBytes

theorem blockIndex_lt_iff : blockIndex addr < blockIndex bound ↔ addr < blockStart bound :=
  Nat.div_lt_iff_lt_mul (by decide)

theorem blockIndex_le_iff : blockIndex bound ≤ blockIndex addr ↔ blockStart bound ≤ addr :=
  Nat.le_div_iff_mul_le (by decide)

theorem blockIndex_eq (hstart : blockStart bound ≤ addr) (hbound : addr ≤ bound) :
    blockIndex addr = blockIndex bound :=
  Nat.le_antisymm (Nat.div_le_div_right hbound) (blockIndex_le_iff.mpr hstart)

/-! ## Devices -/

/-- Every address from `first` up to `last` is a device. -/
def DevicesIn (s : AddressSpace) (first last : Nat) : Prop :=
  ∀ a : BitVec 64, first ≤ a.toNat → a.toNat < last → s.classify a = some .device

namespace LaidOut

variable (hl : s.LaidOut (blockClass cacheableEnd peripheralBase peripheralSize localBase))
  (hp : s.Placed) (hf : Fits cacheableEnd peripheralBase peripheralSize localBase)

include hl hp hf

/-- From the block in which the window begins on, only devices are mapped: the blocks before the one
in which it ends, and the local one. -/
theorem classify_peripheral (ha : blockStart peripheralBase ≤ a.toNat) : s.classify a =
    if blockIndex a.toNat < blockIndex (peripheralBase + peripheralSize) ∨
      blockIndex a.toNat = blockIndex localBase then some .device else none := by
  obtain ⟨hordered, -, hstop, hlocal⟩ := hf.blockIndex_le
  have hbase := blockIndex_le_iff.mpr ha
  have hall : a.toNat < identityBytes ↔ blockIndex a.toNat < identityBlocks :=
    (Nat.div_lt_iff_lt_mul (by decide)).symm
  simp only [hl.classify_eq hp, hall, blockClass]
  split_ifs <;> first | rfl | omega

theorem devicesIn_whole :
    s.DevicesIn (blockStart peripheralBase) (blockStart (peripheralBase + peripheralSize)) := by
  intro a hfirst hlast
  rw [hl.classify_peripheral hp hf hfirst, if_pos (.inl (blockIndex_lt_iff.mpr hlast))]

/-- What the window has of the block in which it ends. -/
theorem classify_rest (hstart : blockStart (peripheralBase + peripheralSize) ≤ a.toNat)
    (hlast : a.toNat < peripheralBase + peripheralSize) : s.classify a =
      if blockIndex (peripheralBase + peripheralSize) = blockIndex localBase then some .device
      else none := by
  have hbase : blockStart peripheralBase ≤ blockStart (peripheralBase + peripheralSize) :=
    Nat.mul_le_mul_right _ hf.blockIndex_le.2.1
  rw [hl.classify_peripheral hp hf (Nat.le_trans hbase hstart),
    blockIndex_eq hstart (Nat.le_of_lt hlast)]
  simp only [Nat.lt_irrefl, false_or]

theorem devicesIn_iff : s.DevicesIn peripheralBase (peripheralBase + peripheralSize) ↔
    peripheralSize = 0 ∨ (peripheralBase + peripheralSize) % blockBytes = 0 ∨
      blockIndex (peripheralBase + peripheralSize) = blockIndex localBase := by
  have hsplit := blockStart_add_mod (peripheralBase + peripheralSize)
  constructor
  · intro h
    by_contra hnot
    obtain ⟨hsize, hpart, hother⟩ : peripheralSize ≠ 0 ∧
        (peripheralBase + peripheralSize) % blockBytes ≠ 0 ∧
          blockIndex (peripheralBase + peripheralSize) ≠ blockIndex localBase := by
      simpa only [not_or] using hnot
    -- The last address of the window is among the rest.
    have hinside : peripheralBase + peripheralSize < 2 ^ 64 :=
      Nat.lt_of_le_of_lt hf.inside (by decide)
    have hlast : (BitVec.ofNat 64 (peripheralBase + peripheralSize - 1)).toNat =
        peripheralBase + peripheralSize - 1 := by
      rw [BitVec.toNat_ofNat, Nat.mod_eq_of_lt (Nat.lt_of_le_of_lt (Nat.sub_le _ _) hinside)]
    have hdevice := h (.ofNat 64 (peripheralBase + peripheralSize - 1)) (by omega) (by omega)
    rw [hl.classify_rest hp hf (by omega) (by omega), if_neg hother] at hdevice
    cases hdevice
  · intro h a hfirst hlast
    -- Without a rest, the block in which the window ends starts at its end.
    by_cases hwhole : a.toNat < blockStart (peripheralBase + peripheralSize)
    · have hbase := blockStart_add_mod peripheralBase
      exact hl.devicesIn_whole hp hf a (by omega) hwhole
    · rw [hl.classify_rest hp hf (Nat.le_of_not_lt hwhole) hlast]
      refine if_pos ?_
      obtain hempty | haligned | hlocal := h
      · omega
      · omega
      · exact hlocal

end LaidOut

/-- Populating makes devices of the window from the start of its first block to the start of the
block in which it ends. The rest of it is not mapped, unless it is in the local block; so all of the
window is a device exactly when there is no rest or it is in the local block. -/
theorem devicesIn_populate_iff (hp : s.Placed)
    (hf : Fits cacheableEnd peripheralBase peripheralSize localBase) :
    ∃ s', s.populate cacheableEnd peripheralBase peripheralSize localBase = .ok s' ∧
      s'.DevicesIn (blockStart peripheralBase) (blockStart (peripheralBase + peripheralSize)) ∧
      (∀ a : BitVec 64, blockStart (peripheralBase + peripheralSize) ≤ a.toNat →
        a.toNat < peripheralBase + peripheralSize → s'.classify a =
          if blockIndex (peripheralBase + peripheralSize) = blockIndex localBase then some .device
          else none) ∧
      (s'.DevicesIn peripheralBase (peripheralBase + peripheralSize) ↔
        peripheralSize = 0 ∨ (peripheralBase + peripheralSize) % blockBytes = 0 ∨
          blockIndex (peripheralBase + peripheralSize) = blockIndex localBase) := by
  obtain ⟨s', hs', hl⟩ := populate_eq hp.aligned hf
  have hp' := hp.of_origin_eq (origin_of_populate hs')
  exact ⟨s', hs', hl.devicesIn_whole hp' hf, fun _ => hl.classify_rest hp' hf,
    hl.devicesIn_iff hp' hf⟩

/-- A window that begins in the middle of a block and reaches into the local one. -/
theorem devicesIn_populate_local : (blank 0x80000).Placed ∧
    Fits 0x3B400000 0x3F201000 0xEFF100 0x40000000 ∧
    ∃ s', (blank 0x80000).populate 0x3B400000 0x3F201000 0xEFF100 0x40000000 = .ok s' ∧
      s'.DevicesIn 0x3F201000 (0x3F201000 + 0xEFF100) := by
  have hp : (blank 0x80000).Placed := ⟨by decide, by decide⟩
  have hf : Fits 0x3B400000 0x3F201000 0xEFF100 0x40000000 :=
    ⟨by decide, by decide, by decide, by decide⟩
  obtain ⟨s', hs', -, -, hiff⟩ := devicesIn_populate_iff hp hf
  exact ⟨hp, hf, s', hs', hiff.mpr (.inr (.inr (by decide)))⟩

/-- The UART's page is all there is to the window, in the middle of a block. -/
theorem not_devicesIn_page : Fits 0x3B400000 0x3F201000 0x1000 0x40000000 ∧
    ∃ s', (blank 0x80000).populate 0x3B400000 0x3F201000 0x1000 0x40000000 = .ok s' ∧
      s'.classify 0x3F201000 = none ∧ ¬s'.DevicesIn 0x3F201000 (0x3F201000 + 0x1000) := by
  have hp : (blank 0x80000).Placed := ⟨by decide, by decide⟩
  have hf : Fits 0x3B400000 0x3F201000 0x1000 0x40000000 :=
    ⟨by decide, by decide, by decide, by decide⟩
  obtain ⟨s', hs', hl⟩ := populate_eq hp.aligned hf
  have hp' := hp.of_origin_eq (origin_of_populate hs')
  have hnone : s'.classify 0x3F201000 = none :=
    hl.classify_rest hp' hf (a := 0x3F201000) (by decide) (by decide)
  refine ⟨hf, s', hs', hnone, fun h => ?_⟩
  have hdevice := h 0x3F201000 (by decide) (by decide)
  rw [hnone] at hdevice
  cases hdevice

end AddressSpace

end BareKernel.Paging
