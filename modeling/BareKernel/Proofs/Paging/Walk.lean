import BareKernel.Proofs.Paging.Layout

/-! Walks through populated tables. The identity map takes every address that has a class to itself,
each block by an entry of its own, and no walk through the higher half comes to a block. -/

namespace BareKernel.Paging

namespace AddressSpace

variable {s : AddressSpace} {rest : Nat → Descriptor} {classAt : Nat → Option MemoryClass}
  {a next : BitVec 64} {d : Descriptor} {i j n first : Nat}

/-! ## Entries of the identity map -/

theorem isValid_identityEntry (c : Option MemoryClass) (i : Nat) :
    (identityEntry c i).isValid = c.isSome := by
  cases c with
  | none => rfl
  | some c => exact Descriptor.isValid_block

/-- A block is mapped onto itself. -/
theorem output_identityEntry (c : Option MemoryClass) (hi : i < identityBlocks) :
    (identityEntry c i).output = c.map fun _ => .ofNat 64 (i * blockBytes) := by
  cases c with
  | none => rfl
  | some c =>
    have hblock : blockBytes = 2 ^ 21 := rfl
    have hlt : i * blockBytes < 2 ^ 31 := by
      simp only [identityBlocks, entriesPerTable] at hi
      rw [hblock]
      omega
    have hnat : (BitVec.ofNat 64 (i * blockBytes)).toNat = i * blockBytes := by
      rw [BitVec.toNat_ofNat, Nat.mod_eq_of_lt (Nat.lt_trans hlt (by decide))]
    refine Descriptor.output_block ?_ ?_
    · rw [hnat, hblock]
      omega
    · rw [hnat]
      exact Nat.lt_trans hlt (by decide)

/-! ## Indices -/

/-- The two halves of the second level together count the blocks through. -/
theorem index_eq {n : Nat} (hn : n < identityBytes) :
    entriesPerTable * (n >>> firstLevelShift) + n / blockBytes % entriesPerTable = blockIndex n ∧
      n >>> firstLevelShift < 2 := by
  have hblock : blockBytes = 2097152 := rfl
  have hshift : n >>> firstLevelShift = n / 1073741824 := Nat.shiftRight_eq_div_pow n 30
  rw [blockIndex, hshift, hblock]
  simp only [identityBytes, identityBlocks, entriesPerTable, hblock] at hn ⊢
  omega

theorem not_lt_of_identityBytes_le {n : Nat} (hn : identityBytes ≤ n) :
    ¬n >>> firstLevelShift < 2 := by
  have hblock : blockBytes = 2097152 := rfl
  have hshift : n >>> firstLevelShift = n / 1073741824 := Nat.shiftRight_eq_div_pow n 30
  rw [hshift]
  simp only [identityBytes, identityBlocks, entriesPerTable, hblock] at hn
  omega

theorem blockIndex_lt {n : Nat} (hn : n < identityBytes) : blockIndex n < identityBlocks :=
  (Nat.div_lt_iff_lt_mul (by decide)).mpr hn

/-- A block's start and the distance from it make up an address. -/
theorem output_or (a : BitVec 64) :
    .ofNat 64 (blockIndex a.toNat * blockBytes) ||| (a &&& BitVec.ofNat 64 (blockBytes - 1)) =
      a := by
  have hblock : blockBytes = 2 ^ 21 := rfl
  have hlt : blockIndex a.toNat * blockBytes < 2 ^ 64 :=
    Nat.lt_of_le_of_lt (Nat.div_mul_le_self _ _) a.isLt
  have hmask : (blockBytes - 1) % 2 ^ 64 = 2 ^ 21 - 1 := by decide
  have hrest : a.toNat % 2 ^ 21 < 2 ^ 21 := Nat.mod_lt _ (by decide)
  refine BitVec.eq_of_toNat_eq ?_
  rw [BitVec.toNat_or, BitVec.toNat_and, BitVec.toNat_ofNat, BitVec.toNat_ofNat,
    Nat.mod_eq_of_lt hlt, hmask, Nat.and_two_pow_sub_one_eq_mod, blockIndex, hblock,
    Nat.mul_comm, ← Nat.two_pow_add_eq_or_of_lt hrest]
  exact Nat.div_add_mod _ _

theorem lookup_eq_bind (a : BitVec 64) : s.lookup a =
    ((s.identityL1.entries[a.toNat >>> firstLevelShift]?.bind fun top => top.nextTable).bind
      fun next => (s.firstOf next).bind fun first =>
        s.identityL2.entries[first + a.toNat / blockBytes % entriesPerTable]?.bind fun entry =>
          if entry.isValid then some (first + a.toNat / blockBytes % entriesPerTable)
          else none) := by
  rw [Option.bind_assoc]
  rfl

/-- A pointer is followed to any entry from which on there are as many as a table has. -/
theorem firstOf_eq_some_iff : s.firstOf next = some first ↔
    first + entriesPerTable ≤ identityBlocks ∧
      next.toNat = s.identityL2Base + entryBytes * first := by
  constructor
  · intro h
    simp only [firstOf] at h
    split_ifs at h with hbelow hmod hfits
    cases h
    have hmod : (next.toNat - s.identityL2Base) % entryBytes = 0 := not_not.mp hmod
    have hdiv := Nat.div_add_mod (next.toNat - s.identityL2Base) entryBytes
    exact ⟨hfits, by omega⟩
  · rintro ⟨hfits, hnext⟩
    have hbelow : ¬next.toNat < s.identityL2Base := by omega
    have hoffset : next.toNat - s.identityL2Base = entryBytes * first := by omega
    simp only [firstOf, hbelow, hoffset, hfits, Nat.mul_mod_right,
      Nat.mul_div_cancel_left _ (by decide : 0 < entryBytes), if_false, if_true, ne_eq, not_true]

/-- A first-level entry leads to its own half of the second level. -/
theorem Placed.firstOf_page (hp : s.Placed) (hj : j < 2) :
    s.firstOf (.ofNat 64 (s.page j)) = some (entriesPerTable * j) := by
  rw [firstOf_eq_some_iff, hp.toNat_page (Nat.lt_trans hj (by decide))]
  constructor
  · rw [identityBlocks, ← Nat.mul_succ, Nat.mul_comm 2]
    exact Nat.mul_le_mul_left _ hj
  · rw [page, identityL2Base, ← Nat.mul_assoc]
    rfl

/-! ## Tables in memory -/

/-- All entries, in the order in which they lie in memory. -/
def entries (s : AddressSpace) : List Descriptor :=
  s.identityL2.entries.toList ++ s.identityL1.entries.toList ++ s.virtualL1.entries.toList ++
    s.virtualL2.entries.toList ++ s.virtualL3.entries.toList

/-- The memory around the tables, with them in their place. -/
def memory (s : AddressSpace) (rest : Nat → Descriptor) (addr : Nat) : Descriptor :=
  if addr < s.origin then rest addr
  else s.entries[(addr - s.origin) / entryBytes]?.getD (rest addr)

theorem memory_of_getElem? (h : s.entries[i]? = some d) :
    s.memory rest (s.origin + entryBytes * i) = d := by
  rw [memory, if_neg (Nat.not_lt_of_le (Nat.le_add_right _ _)), Nat.add_sub_cancel_left,
    Nat.mul_div_cancel_left _ (by decide), h, Option.getD_some]

/-- The tables of the higher half come after as many entries as three others have. -/
theorem getElem?_entries (hi : i < entriesPerTable) :
    s.entries[entriesPerTable * 3 + i]? = some s.virtualL1.entries[i] ∧
      s.entries[entriesPerTable * 4 + i]? = some s.virtualL2.entries[i] ∧
        s.entries[entriesPerTable * 5 + i]? = some s.virtualL3.entries[i] := by
  have hblocks : identityBlocks = 2 * entriesPerTable := rfl
  have h3 : entriesPerTable * 3 + i - (identityBlocks + entriesPerTable) = i := by omega
  have h4 : entriesPerTable * 4 + i - (identityBlocks + entriesPerTable + entriesPerTable) = i := by
    omega
  have h5 : entriesPerTable * 5 + i -
      (identityBlocks + entriesPerTable + entriesPerTable + entriesPerTable) = i := by
    omega
  simp only [entries, List.getElem?_append, List.length_append, Vector.length_toList,
    Vector.getElem?_toList]
  simp (disch := omega) only [if_pos, if_neg, h3, h4, h5, Vector.getElem?_eq_getElem, and_self]

/-- A walk from the table at `base` comes to each of its entries, and on from there where an entry
names a next table. -/
inductive WalksTo (mem : Nat → Descriptor) : Nat → Descriptor → Prop
  | entry (base i : Nat) (hi : i < entriesPerTable) :
    WalksTo mem base (mem (base + entryBytes * i))
  | onward {base i : Nat} {next : BitVec 64} {d : Descriptor} (hi : i < entriesPerTable)
    (hnext : (mem (base + entryBytes * i)).nextTable = some next)
    (hrest : WalksTo mem next.toNat d) : WalksTo mem base d

namespace LaidOut

variable (hl : s.LaidOut classAt) (hp : s.Placed)

include hl

theorem getElem?_identityL2 (hi : i < identityBlocks) :
    s.identityL2.entries[i]? = some (identityEntry (classAt i) i) := by
  rw [Vector.getElem?_eq_getElem hi, hl.identityL2 i hi]

include hp

theorem nextTable_identityL1 (j : Nat) :
    (s.identityL1.entries[j]?.bind fun top => top.nextTable) =
      if j < 2 then some (.ofNat 64 (s.page j)) else none := by
  by_cases hj : j < entriesPerTable
  · rw [Vector.getElem?_eq_getElem hj, hl.identityL1 j hj]
    split
    · rename_i h
      exact hp.nextTable_page (Nat.lt_trans h (by decide))
    · exact Descriptor.nextTable_invalid
  · have hout : ¬j < 2 := fun h => hj (Nat.lt_trans h (by decide))
    rw [Vector.getElem?_eq_none (Nat.le_of_not_lt hj), if_neg hout]
    rfl

theorem lookup_eq (a : BitVec 64) : s.lookup a =
    if a.toNat < identityBytes ∧ (classAt (blockIndex a.toNat)).isSome = true then
      some (blockIndex a.toNat)
    else none := by
  rw [lookup_eq_bind, hl.nextTable_identityL1 hp]
  by_cases ha : a.toNat < identityBytes
  · obtain ⟨hindex, hhalf⟩ := index_eq ha
    have hentry := hl.getElem?_identityL2 (blockIndex_lt ha)
    simp only [hhalf, if_true, Option.bind_some, hp.firstOf_page hhalf, hindex, hentry,
      isValid_identityEntry, ha, true_and]
  · have hhalf := not_lt_of_identityBytes_le (Nat.le_of_not_lt ha)
    simp only [hhalf, ha, if_false, Option.bind_none, false_and]

/-- The entry that governs an address. -/
theorem entry_eq (a : BitVec 64) :
    ((s.lookup a).bind fun index => s.identityL2.entries[index]?) =
      if a.toNat < identityBytes then
        (classAt (blockIndex a.toNat)).map fun c => identityBlock c (blockIndex a.toNat)
      else none := by
  rw [hl.lookup_eq hp]
  by_cases ha : a.toNat < identityBytes
  · have hentry := hl.getElem?_identityL2 (blockIndex_lt ha)
    cases hc : classAt (blockIndex a.toNat) with
    | none => simp only [Option.isSome_none, Bool.false_eq_true, and_false, if_false,
        Option.bind_none, Option.map_none, ite_self]
    | some c =>
      simp only [ha, Option.isSome_some, and_self, if_true, Option.bind_some, hentry, hc,
        Option.map_some]
      rfl
  · simp only [ha, if_false, false_and, Option.bind_none]

/-- An address has the class of its block. -/
theorem classify_eq (a : BitVec 64) : s.classify a =
    if a.toNat < identityBytes then classAt (blockIndex a.toNat) else none := by
  have hbind : s.classify a = ((s.lookup a).bind fun index => s.identityL2.entries[index]?).bind
      fun entry => entry.memoryClass := by
    rw [Option.bind_assoc]
    rfl
  rw [hbind, hl.entry_eq hp]
  split
  · cases classAt (blockIndex a.toNat) with
    | none => rfl
    | some c => exact Descriptor.memoryClass_block c
  · rfl

/-- An address with a class is mapped to itself, any other to nothing. -/
theorem physicalAddress_eq (a : BitVec 64) :
    s.physicalAddress a = if (s.classify a).isSome then some a else none := by
  have hbind : s.physicalAddress a =
      ((s.lookup a).bind fun index => s.identityL2.entries[index]?).bind fun entry =>
        entry.output.bind fun output =>
          some (output ||| (a &&& BitVec.ofNat 64 (blockBytes - 1))) := by
    rw [Option.bind_assoc]
    rfl
  rw [hbind, hl.entry_eq hp, hl.classify_eq hp]
  by_cases ha : a.toNat < identityBytes
  · have hout := output_identityEntry (classAt (blockIndex a.toNat)) (blockIndex_lt ha)
    simp only [ha, if_true]
    cases hc : classAt (blockIndex a.toNat) with
    | none => rfl
    | some c =>
      rw [hc] at hout
      change (identityBlock c (blockIndex a.toNat)).output = _ at hout
      simp only [Option.map_some, Option.bind_some, hout, Option.isSome_some, if_true,
        output_or a]
  · simp only [ha, if_false, Option.bind_none, Option.isSome_none, Bool.false_eq_true]

/-- Addresses that the same entry governs are in the same block. -/
theorem blockIndex_eq_of_lookup (ha : s.lookup a = some i) : blockIndex a.toNat = i := by
  rw [hl.lookup_eq hp] at ha
  split at ha
  · exact Option.some.inj ha
  · cases ha

/-! ## The higher half -/

omit hp in
/-- What an entry of the higher half's tables is: an empty one, or the one for the table after its
own. -/
theorem entry_higherHalf (hn : n = 3 ∨ n = 4 ∨ n = 5)
    (hi : i < entriesPerTable) : s.memory rest (s.page n + entryBytes * i) =
      if i = entriesPerTable - 1 ∧ n < 5 then .tableOf (.ofNat 64 (s.page (n + 1)))
      else .invalid := by
  have haddr : s.page n + entryBytes * i = s.origin + entryBytes * (entriesPerTable * n + i) := by
    rw [page, Nat.mul_add, Nat.add_assoc, ← Nat.mul_assoc]
    rfl
  obtain ⟨-, -, hv2, hv3⟩ := s.bases
  obtain ⟨h3, h4, h5⟩ := getElem?_entries (s := s) hi
  rw [haddr]
  obtain rfl | rfl | rfl := hn
  · rw [memory_of_getElem? h3, hl.virtualL1 i hi, hv2]
    simp only [Nat.reduceLT, and_true]
  · rw [memory_of_getElem? h4, hl.virtualL2 i hi, hv3]
    simp only [Nat.reduceLT, and_true]
  · rw [memory_of_getElem? h5, hl.virtualL3 i hi]
    simp only [Nat.lt_irrefl, and_false, if_false]

/-- A walk through the higher half stays among its tables, and they map nothing. -/
theorem kind_of_walksTo {base : Nat} (hw : WalksTo (s.memory rest) base d) :
    ∀ n, n = 3 ∨ n = 4 ∨ n = 5 → base = s.page n → d.kind ≠ .block := by
  induction hw with
  | entry base i hi =>
    intro n hn hbase
    rw [hbase, hl.entry_higherHalf hn hi]
    split
    · rw [Descriptor.kind_tableOf]
      decide
    · decide
  | onward hi hnext _ ih =>
    intro n hn hbase
    rw [hbase, hl.entry_higherHalf hn hi] at hnext
    split at hnext
    · rename_i hlast
      have hn' : n + 1 < 6 := Nat.succ_lt_succ hlast.2
      rw [hp.nextTable_page hn'] at hnext
      refine ih (n + 1) (by omega) ?_
      rw [← Option.some.inj hnext, hp.toNat_page hn']
    · rw [Descriptor.nextTable_invalid] at hnext
      cases hnext

end LaidOut

end AddressSpace

end BareKernel.Paging
