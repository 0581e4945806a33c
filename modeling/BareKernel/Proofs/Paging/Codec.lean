import BareKernel.Proofs.Paging.Entries

/-! Page table entries as a code. A block entry tells the address and the attributes it was made of
and has no other bit; any word that can be read as a block is, in the fields of one, the entry made
of what was read. -/

namespace BareKernel.Paging

/-! ## Masks -/

namespace Field

/-- The bits of the field. -/
def mask (f : Field) : BitVec 64 := f.put (.allOnes f.width)

/-- The bits of any of these fields. -/
def maskOf (fields : List Field) : BitVec 64 := fields.foldr (fun f m => f.mask ||| m) 0#64

/-- Taking a field out of a word and putting it back leaves the bits of the field alone. -/
theorem put_get (f : Field) (x : BitVec 64) : f.put (f.get x) = x &&& f.mask := by
  refine BitVec.eq_of_getLsbD_eq fun i hi => ?_
  rw [getLsbD_put _ hi, BitVec.getLsbD_and, mask, getLsbD_put _ hi, BitVec.getLsbD_allOnes]
  by_cases hle : f.offset ≤ i
  · by_cases hlt : i - f.offset < f.width
    · rw [getLsbD_get hlt, Nat.add_sub_cancel' hle]
      simp only [hle, hlt, decide_true, Bool.and_true]
      exact Bool.true_and _
    · rw [BitVec.getLsbD_of_ge _ _ (Nat.le_of_not_lt hlt)]
      simp only [hlt, decide_false, Bool.and_false]
  · simp only [hle, decide_false, Bool.false_and, Bool.and_false]

/-- The same for several fields, put together again. -/
theorem assemble_get (fields : List Field) (x : BitVec 64) :
    assemble (fields.map fun f => ⟨f, f.get x⟩) = x &&& maskOf fields := by
  induction fields with
  | nil => exact BitVec.and_zero.symm
  | cons f fields ih =>
    rw [maskOf, List.foldr_cons, BitVec.and_or_distrib_left, ← put_get]
    exact congrArg (f.put (f.get x) ||| ·) ih

end Field

/-! ## What an entry says -/

namespace Shareability

theorem bits_of_ofBits? {b : BitVec 2} {s : Shareability} (h : ofBits? b = some s) :
    s.bits = b := by
  revert b
  cases s <;> decide

theorem isSome_ofBits?_iff (b : BitVec 2) : (ofBits? b).isSome = true ↔ b ≠ 0b01 := by
  revert b
  decide

end Shareability

namespace Descriptor

variable {output next : BitVec 64} {a : BlockAttributes} {d : Descriptor}

/-- A field of one bit holds a flag. -/
theorem get_eq_ofBool_iff {offset : Nat} {b : Bool} :
    (Field.mk offset 1).get d.raw = BitVec.ofBool b ↔ d.flag ⟨offset, 1⟩ = b := by
  have hbits : ∀ (v : BitVec 1) (b : Bool), v = BitVec.ofBool b ↔ decide (v ≠ 0) = b := by decide
  exact hbits _ b

theorem kind_eq_block_iff : d.kind = .block ↔ d.isValid = true ∧ d.flag .type = false := by
  rw [kind]
  cases d.isValid <;> cases d.flag .type <;> decide

/-- The bits that a block entry uses. -/
def blockMask : BitVec 64 := Field.maskOf blockFields

example : Field.address.mask = 0x0000FFFFFFFFF000 ∧ blockMask = 0x0060FFFFFFFFFFDF := by decide

/-- The attributes of a block are read as they were written. -/
theorem blockAttributes_block : (block output a).blockAttributes = some a := by
  have hsh : Field.shareability.get (block output a).raw = a.shareability.bits :=
    get_block (by simp [blockParts])
  have hap : (block output a).accessPermissions = a.accessPermissions :=
    get_block (by simp [blockParts])
  have haf : (block output a).accessFlag = a.accessFlag :=
    get_eq_ofBool_iff.mp (get_block (by simp [blockParts, Field.accessFlag]))
  have hng : (block output a).notGlobal = a.notGlobal :=
    get_eq_ofBool_iff.mp (get_block (by simp [blockParts, Field.notGlobal]))
  have hpxn : (block output a).privilegedExecuteNever = a.privilegedExecuteNever :=
    get_eq_ofBool_iff.mp (get_block (by simp [blockParts, Field.privilegedExecuteNever]))
  have hxn : (block output a).executeNever = a.executeNever :=
    get_eq_ofBool_iff.mp (get_block (by simp [blockParts, Field.executeNever]))
  rw [blockAttributes, if_pos kind_block, shareability, hsh, Shareability.ofBits?_bits,
    Option.map_some, slot_block, hap, haf, hng, hpxn, hxn]

theorem isSome_blockAttributes_iff : d.blockAttributes.isSome = true ↔
    d.kind = .block ∧ Field.shareability.get d.raw ≠ 0b01 := by
  rw [blockAttributes]
  split
  · rename_i hkind
    rw [Option.isSome_map, shareability]
    exact (Shareability.isSome_ofBits?_iff _).trans (and_iff_right hkind).symm
  · rename_i hkind
    exact ⟨fun h => (Bool.false_ne_true h).elim, fun h => absurd h.1 hkind⟩

/-- A block made of what was read agrees with the word that it was read from wherever a block entry
has a field. -/
theorem block_of_blockAttributes (h : d.blockAttributes = some a) :
    block d.address a = ⟨d.raw &&& blockMask⟩ := by
  rw [blockAttributes] at h
  split at h
  · rename_i hkind
    obtain ⟨s, hs, rfl⟩ := Option.map_eq_some_iff.mp h
    obtain ⟨hvalid, htype⟩ := kind_eq_block_iff.mp hkind
    have hvalid : Field.valid.get d.raw = BitVec.ofBool true := get_eq_ofBool_iff.mpr hvalid
    have htype : Field.type.get d.raw = BitVec.ofBool false := get_eq_ofBool_iff.mpr htype
    have hsh : s.bits = Field.shareability.get d.raw := Shareability.bits_of_ofBits? hs
    have haf : Field.accessFlag.get d.raw = BitVec.ofBool d.accessFlag := get_eq_ofBool_iff.mpr rfl
    have hng : Field.notGlobal.get d.raw = BitVec.ofBool d.notGlobal := get_eq_ofBool_iff.mpr rfl
    have hpxn : Field.privilegedExecuteNever.get d.raw = BitVec.ofBool d.privilegedExecuteNever :=
      get_eq_ofBool_iff.mpr rfl
    have hxn : Field.executeNever.get d.raw = BitVec.ofBool d.executeNever :=
      get_eq_ofBool_iff.mpr rfl
    have haddress : Field.address.get d.address = Field.address.get d.raw :=
      Field.get_put _ (by decide)
    refine Descriptor.ext ?_
    rw [raw_block, blockMask, ← Field.assemble_get]
    simp only [blockParts, blockFields, List.map_cons, List.map_nil, hvalid, htype, hsh, haf, hng,
      hpxn, hxn, haddress]
    rfl
  · cases h

/-- A block entry has no bit outside its fields: made again from what it says, it is the same. -/
theorem raw_block_and_blockMask : (block output a).raw &&& blockMask = (block output a).raw := by
  have haddress : Field.address.get (block output a).address = Field.address.get output := by
    rw [address_block, Field.get_put _ (by decide)]
  have hself : (block (block output a).address a).raw = (block output a).raw := by
    rw [raw_block, raw_block, blockParts, blockParts, haddress]
  rwa [block_of_blockAttributes blockAttributes_block] at hself

/-! ## Entries as a code -/

/-- A block entry that says this address and these attributes, and nothing else. -/
structure SaysBlock (d : Descriptor) (output : BitVec 64) (a : BlockAttributes) : Prop where
  isValid : d.isValid = true
  kind : d.kind = .block
  address : d.address = output &&& 0x0000FFFFFFFFF000
  attributes : d.blockAttributes = some a
  rest : d.raw &&& ~~~blockMask = 0

/-- A table entry that says this address, and nothing of a block. -/
structure SaysTable (d : Descriptor) (next : BitVec 64) : Prop where
  kind : d.kind = .table
  nextTable : d.nextTable = some (next &&& 0x0000FFFFFFFFF000)
  nonSecure : d.nonSecureTable = true
  attributes : d.blockAttributes = none
  output : d.output = none
  memoryClass : d.memoryClass = none

theorem saysBlock_block (output : BitVec 64) (a : BlockAttributes) :
    (block output a).SaysBlock output a where
  isValid := isValid_block
  kind := kind_block
  address := by
    rw [address_block, Field.put_get]
    rfl
  attributes := blockAttributes_block
  rest := by
    rw [← raw_block_and_blockMask, BitVec.and_assoc, BitVec.and_not_self]
    exact BitVec.and_zero

theorem saysTable_tableOf (next : BitVec 64) : (tableOf next).SaysTable next := by
  have hkind : (tableOf next).kind ≠ .block := by
    rw [kind_tableOf]
    decide
  refine ⟨kind_tableOf, ?_, ?_, if_neg hkind, if_neg hkind, if_neg hkind⟩
  · rw [nextTable, if_pos kind_tableOf, address_tableOf, Field.put_get]
    rfl
  · exact get_eq_ofBool_iff.mp (get_tableOf (by simp [tableParts, Field.nonSecureTable]))

/-- Every block entry says what it is made of, and tells the class that it is made for. A word reads
as a block exactly when it is one and its shareability is not the reserved one; a block made of what
is read is the word without the bits that no block has. An entry for a table on a 4 KB boundary says
where that is, and is no block. -/
theorem encoding_exact :
    (∀ output a, (block output a).SaysBlock output a) ∧
      (∀ output c, (block output (.ofClass c)).memoryClass = some c) ∧
      (∀ d : Descriptor, (d.blockAttributes.isSome = true ↔
          d.kind = .block ∧ Field.shareability.get d.raw ≠ 0b01) ∧
        ∀ a, d.blockAttributes = some a → block d.address a = ⟨d.raw &&& blockMask⟩) ∧
      ∀ next : BitVec 64, next.toNat % 2 ^ 12 = 0 →
        ∃ d, table next = .ok d ∧ d.SaysTable next :=
  ⟨saysBlock_block, fun _ => memoryClass_block,
    fun _ => ⟨isSome_blockAttributes_iff, fun _ => block_of_blockAttributes⟩,
    fun next hlow => ⟨tableOf next, table_eq hlow, saysTable_tableOf next⟩⟩

/-- A block with all other bits set. -/
def crowded : Descriptor := ⟨0xFFFFFFFFFFFFFFFD⟩

def crowdedAttributes : BlockAttributes where
  slot := 7
  shareability := .innerShareable
  accessFlag := true
  accessPermissions := 3
  notGlobal := true
  privilegedExecuteNever := true
  executeNever := true

/-- The crowded block, and a table beyond the addresses that an entry holds. -/
theorem encoding_exact_crowded :
    crowded.blockAttributes = some crowdedAttributes ∧
      block crowded.address crowdedAttributes = ⟨crowded.raw &&& blockMask⟩ ∧
      (0xABCD000000083000 : BitVec 64).toNat % 2 ^ 12 = 0 ∧
      ∃ d, table 0xABCD000000083000 = .ok d ∧ d.SaysTable 0xABCD000000083000 := by
  obtain ⟨-, -, hread, htable⟩ := encoding_exact
  have hattributes : crowded.blockAttributes = some crowdedAttributes := by decide
  exact ⟨hattributes, (hread crowded).2 _ hattributes, by decide, htable _ (by decide)⟩

end Descriptor

end BareKernel.Paging
