import BareKernel.Board.MemoryMap
import BareKernel.Proofs.Paging.Walk

/-! What every address is mapped to once the tables are populated, for any layout that fits them and
any place they have. -/

namespace BareKernel.Paging

namespace AddressSpace

variable {s s' t : AddressSpace} {cacheableEnd peripheralBase peripheralSize localBase : Nat}

/-- The class that an address is to have: a device with the whole block of `localBase` and among the
peripherals, otherwise memory below them, cacheable or not. -/
def classOf (cacheableEnd peripheralBase peripheralSize localBase addr : Nat) :
    Option MemoryClass :=
  if addr / blockBytes = localBase / blockBytes ∨
      peripheralBase ≤ addr ∧ addr < peripheralBase + peripheralSize then
    some .device
  else if addr < cacheableEnd then some .normalCacheable
  else if addr < peripheralBase then some .normalNonCacheable
  else none

/-- The tables map what the layout asks for, each address to itself. Blocks share no entry, and no
walk through the higher half comes to a block, whatever else is in memory. -/
structure Maps (s : AddressSpace) (cacheableEnd peripheralBase peripheralSize localBase : Nat) :
    Prop where
  classify : ∀ a : BitVec 64, s.classify a =
    classOf cacheableEnd peripheralBase peripheralSize localBase a.toNat
  translate : ∀ a : BitVec 64, s.physicalAddress a = if (s.classify a).isSome then some a else none
  resolves : ∀ a : BitVec 64, (s.lookup a).isSome = (s.classify a).isSome
  apart : ∀ (a b : BitVec 64) (i : Nat), s.lookup a = some i → s.lookup b = some i →
    a.toNat / blockBytes = b.toNat / blockBytes
  higherHalf : ∀ (rest : Nat → Descriptor) (d : Descriptor),
    WalksTo (s.memory rest) s.virtualL1Base d → d.kind ≠ .block

/-- When the peripherals are whole blocks, addresses of one block have one class. -/
theorem Fits.classOf_eq (hf : Fits cacheableEnd peripheralBase peripheralSize localBase)
    (hbase : peripheralBase % blockBytes = 0) (hsize : peripheralSize % blockBytes = 0)
    (addr : Nat) : classOf cacheableEnd peripheralBase peripheralSize localBase addr =
      if addr < identityBytes then
        blockClass cacheableEnd peripheralBase peripheralSize localBase (blockIndex addr)
      else none := by
  obtain ⟨hcacheable, hordered, hinside, hlocal⟩ := hf
  have hblock : blockBytes = 2097152 := rfl
  have hall : identityBytes = 2147483648 := rfl
  rw [hblock] at hcacheable hbase hsize
  rw [hall] at hinside hlocal
  simp only [classOf, blockClass, blockIndex, hblock, hall]
  split_ifs <;> first | rfl | omega

/-- Only their place decides what the tables become. -/
theorem populate_congr (h : t.origin = s.origin) :
    t.populate cacheableEnd peripheralBase peripheralSize localBase =
      s.populate cacheableEnd peripheralBase peripheralSize localBase := by
  simp only [populate, Table.clear_eq_blank, virtualL3Base, virtualL2Base, virtualL1Base,
    identityL1Base, identityL2Base, h]

theorem LaidOut.maps (hp : s.Placed)
    (hf : Fits cacheableEnd peripheralBase peripheralSize localBase)
    (hbase : peripheralBase % blockBytes = 0) (hsize : peripheralSize % blockBytes = 0)
    (hl : s.LaidOut (blockClass cacheableEnd peripheralBase peripheralSize localBase)) :
    s.Maps cacheableEnd peripheralBase peripheralSize localBase where
  classify a := by rw [hl.classify_eq hp, hf.classOf_eq hbase hsize]
  translate := hl.physicalAddress_eq hp
  resolves a := by
    rw [hl.lookup_eq hp, hl.classify_eq hp]
    by_cases ha : a.toNat < identityBytes
    · simp only [ha, true_and, if_true]
      generalize blockClass _ _ _ _ _ = c
      cases c <;> rfl
    · simp only [ha, false_and, if_false]
      rfl
  apart a b i ha hb := by
    have ha := hl.blockIndex_eq_of_lookup hp ha
    exact ha.trans (hl.blockIndex_eq_of_lookup hp hb).symm
  higherHalf rest d hw := hl.kind_of_walksTo hp hw 3 (.inl rfl) s.bases.2.1

/-- Populating tables that addresses can name never faults, and it leaves the same tables whatever
was in them before. -/
theorem maps_of_populate (hp : s.Placed)
    (hf : Fits cacheableEnd peripheralBase peripheralSize localBase)
    (hbase : peripheralBase % blockBytes = 0) (hsize : peripheralSize % blockBytes = 0) :
    ∃ s', s.populate cacheableEnd peripheralBase peripheralSize localBase = .ok s' ∧
      s'.origin = s.origin ∧ s'.Maps cacheableEnd peripheralBase peripheralSize localBase ∧
        ∀ t : AddressSpace, t.origin = s.origin →
          t.populate cacheableEnd peripheralBase peripheralSize localBase = .ok s' := by
  obtain ⟨s', hs', hl⟩ := populate_eq hp.aligned hf
  have horigin := origin_of_populate hs'
  have hp' : s'.Placed := ⟨horigin ▸ hp.aligned, horigin ▸ hp.below⟩
  exact ⟨s', hs', horigin, hl.maps hp' hf hbase hsize, fun t ht => (populate_congr ht).trans hs'⟩

/-- The board's own peripherals, with cacheable memory up to 948 MB. -/
theorem maps_board : (blank 0x80000).Placed ∧
    Fits 0x3B400000 Board.peripheralBase Board.peripheralSize Board.localPeripheralBase ∧
    Board.peripheralBase % blockBytes = 0 ∧ Board.peripheralSize % blockBytes = 0 ∧
    ∃ s', (blank 0x80000).populateBoard 0x3B400000 = .ok s' ∧ s'.origin = 0x80000 ∧
      s'.Maps 0x3B400000 Board.peripheralBase Board.peripheralSize Board.localPeripheralBase ∧
        ∀ t : AddressSpace, t.origin = 0x80000 → t.populateBoard 0x3B400000 = .ok s' := by
  have hp : (blank 0x80000).Placed := ⟨by decide, by decide⟩
  have hf : Fits 0x3B400000 Board.peripheralBase Board.peripheralSize Board.localPeripheralBase :=
    ⟨by decide, by decide, by decide, by decide⟩
  have hbase : Board.peripheralBase % blockBytes = 0 := by decide
  have hsize : Board.peripheralSize % blockBytes = 0 := by decide
  exact ⟨hp, hf, hbase, hsize, maps_of_populate hp hf hbase hsize⟩

end AddressSpace

end BareKernel.Paging
