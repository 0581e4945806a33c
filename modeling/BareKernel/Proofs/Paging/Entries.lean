import Mathlib.Algebra.Ring.Nat
import Mathlib.Tactic.Common
import BareKernel.Paging.AddressSpace

/-! Fields of a page table entry read back what was put in them, and only that; what a block entry
and a table entry say follows from it. -/

namespace BareKernel.Paging

/-! ## Fields -/

namespace Field

variable {f g : Field} {x y : BitVec 64} {i : Nat}

/-- No bit is in both fields. -/
def Apart (f g : Field) : Prop := f.offset + f.width ≤ g.offset ∨ g.offset + g.width ≤ f.offset

instance : Decidable (f.Apart g) := inferInstanceAs (Decidable (_ ∨ _))

theorem getLsbD_get (hi : i < f.width) : (f.get x).getLsbD i = x.getLsbD (f.offset + i) := by
  rw [get, BitVec.getLsbD_extractLsb', decide_eq_true hi, Bool.true_and]

theorem getLsbD_put (v : BitVec f.width) (hi : i < 64) :
    (f.put v).getLsbD i = (decide (f.offset ≤ i) && v.getLsbD (i - f.offset)) := by
  have hlt : i - f.offset < 64 := by omega
  rw [put, BitVec.getLsbD_shiftLeft, BitVec.getLsbD_setWidth, decide_eq_true hi,
    decide_eq_true hlt, Bool.true_and, Bool.true_and, ← decide_not]
  congr 2
  exact propext Nat.not_lt

theorem get_or : f.get (x ||| y) = f.get x ||| f.get y := by
  refine BitVec.eq_of_getLsbD_eq fun i hi => ?_
  rw [BitVec.getLsbD_or, getLsbD_get hi, getLsbD_get hi, getLsbD_get hi, BitVec.getLsbD_or]

/-- A field reads back what was put in it. -/
theorem get_put (v : BitVec f.width) (hf : f.offset + f.width ≤ 64) : f.get (f.put v) = v := by
  refine BitVec.eq_of_getLsbD_eq fun i hi => ?_
  rw [getLsbD_get hi, getLsbD_put v (by omega), decide_eq_true (Nat.le_add_right _ _),
    Bool.true_and, Nat.add_sub_cancel_left]

/-- A field reads nothing of what was put in another one. -/
theorem get_put_of_apart (v : BitVec g.width) (h : f.Apart g) : f.get (g.put v) = 0#f.width := by
  refine BitVec.eq_of_getLsbD_eq fun i hi => ?_
  rw [getLsbD_get hi, BitVec.getLsbD_zero]
  by_cases hlt : f.offset + i < 64
  · rw [getLsbD_put v hlt]
    unfold Apart at h
    by_cases hle : g.offset ≤ f.offset + i
    · have hout : g.width ≤ f.offset + i - g.offset := by omega
      rw [BitVec.getLsbD_of_ge v _ hout, Bool.and_false]
    · rw [decide_eq_false hle, Bool.false_and]
  · exact BitVec.getLsbD_of_ge _ _ (Nat.le_of_not_lt hlt)

/-- An address on a 4 KB boundary and of at most 48 bits fits its field. -/
theorem put_get_address (hlow : x.toNat % 2 ^ 12 = 0) (hhigh : x.toNat < 2 ^ 48) :
    address.put (address.get x) = x := by
  refine BitVec.eq_of_getLsbD_eq fun i hi => ?_
  rw [getLsbD_put _ hi]
  have hbits : x.getLsbD i = x.toNat.testBit i := BitVec.testBit_toNat x |>.symm
  by_cases hle : address.offset ≤ i
  · rw [decide_eq_true hle, Bool.true_and]
    by_cases hlt : i - address.offset < address.width
    · rw [getLsbD_get hlt, Nat.add_sub_cancel' hle]
    · have hge : 48 ≤ i := by
        simp only [address] at hlt hle
        omega
      rw [BitVec.getLsbD_of_ge _ _ (Nat.le_of_not_lt hlt), hbits]
      exact (Nat.testBit_lt_two_pow
        (Nat.lt_of_lt_of_le hhigh (Nat.pow_le_pow_right (by decide) hge))).symm
  · have hlt : i < 12 := Nat.lt_of_not_le hle
    have hzero := Nat.testBit_mod_two_pow x.toNat 12 i
    rw [hlow, Nat.zero_testBit, decide_eq_true hlt, Bool.true_and] at hzero
    rw [decide_eq_false hle, Bool.false_and, hbits]
    exact hzero

/-! ### Words made of fields -/

/-- A field with a value of its width. -/
abbrev Part := (f : Field) × BitVec f.width

/-- The word that has these values in their fields and zeros elsewhere. -/
def assemble (parts : List Part) : BitVec 64 :=
  parts.foldr (fun p x => p.1.put p.2 ||| x) 0#64

theorem get_zero : f.get 0#64 = 0#f.width := by
  refine BitVec.eq_of_getLsbD_eq fun i hi => ?_
  rw [getLsbD_get hi, BitVec.getLsbD_zero, BitVec.getLsbD_zero]

theorem get_assemble_of_apart {parts : List Part} (h : ∀ g ∈ parts.map Sigma.fst, f.Apart g) :
    f.get (assemble parts) = 0#f.width := by
  induction parts with
  | nil => exact get_zero
  | cons p parts ih =>
    obtain ⟨hp, h⟩ := List.forall_mem_cons.mp h
    rw [assemble, List.foldr_cons, get_or, get_put_of_apart p.2 hp, BitVec.zero_or]
    exact ih h

/-- Fields that are apart keep each its own value. -/
theorem get_assemble {parts : List Part} (h : (parts.map Sigma.fst).Pairwise Apart)
    (hf : f.offset + f.width ≤ 64) {v : BitVec f.width} (hv : ⟨f, v⟩ ∈ parts) :
    f.get (assemble parts) = v := by
  induction parts with
  | nil => cases hv
  | cons p parts ih =>
    obtain ⟨hp, h⟩ := List.pairwise_cons.mp h
    rw [assemble, List.foldr_cons, get_or]
    cases hv with
    | head =>
      have hrest := get_assemble_of_apart hp
      rw [assemble] at hrest
      rw [get_put v hf, hrest, BitVec.or_zero]
    | tail _ hv =>
      have hapart : p.1.Apart f := hp f (List.mem_map_of_mem hv)
      rw [get_put_of_apart p.2 hapart.symm, BitVec.zero_or]
      exact ih h hv

end Field

/-! ## Entries -/

namespace Descriptor

variable {output next : BitVec 64} {a : BlockAttributes} {d : Descriptor} {f : Field}

/-- What a block entry is made of. -/
def blockParts (output : BitVec 64) (a : BlockAttributes) : List Field.Part :=
  [⟨.valid, 1⟩, ⟨.type, 0⟩, ⟨.slot, a.slot⟩, ⟨.accessPermissions, a.accessPermissions⟩,
    ⟨.shareability, a.shareability.bits⟩, ⟨.accessFlag, .ofBool a.accessFlag⟩,
    ⟨.notGlobal, .ofBool a.notGlobal⟩, ⟨.address, Field.address.get output⟩,
    ⟨.privilegedExecuteNever, .ofBool a.privilegedExecuteNever⟩,
    ⟨.executeNever, .ofBool a.executeNever⟩]

/-- The fields of a block entry. -/
def blockFields : List Field :=
  [.valid, .type, .slot, .accessPermissions, .shareability, .accessFlag, .notGlobal, .address,
    .privilegedExecuteNever, .executeNever]

theorem raw_block : (block output a).raw = Field.assemble (blockParts output a) := by
  have htype : Field.type.put 0 = 0#64 := by decide
  simp only [block, Field.assemble, blockParts, List.foldr_cons, List.foldr_nil, htype,
    BitVec.or_assoc, BitVec.zero_or, BitVec.or_zero]

/-- A block entry says what it is made of. -/
theorem get_block {v : BitVec f.width} (hv : ⟨f, v⟩ ∈ blockParts output a) :
    f.get (block output a).raw = v := by
  have hapart : ((blockParts output a).map Sigma.fst).Pairwise Field.Apart := by
    change blockFields.Pairwise Field.Apart
    decide
  have hfits : ∀ f ∈ blockFields, f.offset + f.width ≤ 64 := by decide
  have hf : f ∈ blockFields := List.mem_map_of_mem (f := Sigma.fst) hv
  rw [raw_block]
  exact Field.get_assemble hapart (hfits f hf) hv

theorem isValid_block : (block output a).isValid = true := by
  have hvalid : Field.valid.get (block output a).raw = 1 := get_block (by simp [blockParts])
  rw [isValid, flag, hvalid]
  decide

theorem kind_block : (block output a).kind = .block := by
  have htype : Field.type.get (block output a).raw = 0 := get_block (by simp [blockParts])
  have hflag : (block output a).flag .type = false := by
    rw [flag, htype]
    decide
  simp only [kind, isValid_block, hflag, Bool.not_true, Bool.false_eq_true, if_false]

theorem slot_block : (block output a).slot = a.slot := get_block (by simp [blockParts])

theorem address_block :
    (block output a).address = Field.address.put (Field.address.get output) := by
  have haddress : Field.address.get (block output a).raw = Field.address.get output :=
    get_block (by simp [blockParts])
  rw [address, haddress]

theorem output_block (hlow : output.toNat % 2 ^ 12 = 0) (hhigh : output.toNat < 2 ^ 48) :
    (block output a).output = some output := by
  rw [Descriptor.output, if_pos kind_block, address_block, Field.put_get_address hlow hhigh]

/-- A block's class is the one that it was made for. -/
theorem memoryClass_block (c : MemoryClass) :
    (block output (.ofClass c)).memoryClass = some c := by
  rw [memoryClass, if_pos kind_block, slot_block]
  cases c <;> rfl

/-- The entry for the next table. -/
def tableOf (next : BitVec 64) : Descriptor :=
  ⟨Field.valid.put 1 ||| Field.type.put 1 ||| Field.address.put (Field.address.get next) |||
    Field.nonSecureTable.put 1⟩

theorem table_eq (hlow : next.toNat % 2 ^ 12 = 0) : table next = .ok (tableOf next) := by
  have hzero : next.setWidth 12 = 0 := by
    refine BitVec.eq_of_toNat_eq ?_
    rw [BitVec.toNat_setWidth, hlow]
    rfl
  rw [table, if_neg (not_not.mpr hzero), tableOf]

theorem aligned_of_table {d : Descriptor} (h : table next = .ok d) : next.toNat % 2 ^ 12 = 0 := by
  unfold table at h
  split at h
  · cases h
  · rename_i hzero
    have hlow := congrArg BitVec.toNat (not_not.mp hzero)
    rwa [BitVec.toNat_setWidth] at hlow

/-- What a table entry is made of. -/
def tableParts (next : BitVec 64) : List Field.Part :=
  [⟨.valid, 1⟩, ⟨.type, 1⟩, ⟨.address, Field.address.get next⟩, ⟨.nonSecureTable, 1⟩]

/-- The fields of a table entry. -/
def tableFields : List Field := [.valid, .type, .address, .nonSecureTable]

theorem raw_tableOf : (tableOf next).raw = Field.assemble (tableParts next) := by
  simp only [tableOf, Field.assemble, tableParts, List.foldr_cons, List.foldr_nil,
    BitVec.or_assoc, BitVec.or_zero]

/-- A table entry says what it is made of. -/
theorem get_tableOf {v : BitVec f.width} (hv : ⟨f, v⟩ ∈ tableParts next) :
    f.get (tableOf next).raw = v := by
  have hapart : ((tableParts next).map Sigma.fst).Pairwise Field.Apart := by
    change tableFields.Pairwise Field.Apart
    decide
  have hfits : ∀ f ∈ tableFields, f.offset + f.width ≤ 64 := by decide
  have hf : f ∈ tableFields := List.mem_map_of_mem (f := Sigma.fst) hv
  rw [raw_tableOf]
  exact Field.get_assemble hapart (hfits f hf) hv

theorem kind_tableOf : (tableOf next).kind = .table := by
  have hvalid : Field.valid.get (tableOf next).raw = 1 := get_tableOf (by simp [tableParts])
  have htype : Field.type.get (tableOf next).raw = 1 := get_tableOf (by simp [tableParts])
  have hv : (tableOf next).isValid = true := by
    rw [isValid, flag, hvalid]
    decide
  have ht : (tableOf next).flag .type = true := by
    rw [flag, htype]
    decide
  simp only [kind, hv, ht, Bool.not_true, Bool.false_eq_true, if_false, if_true]

theorem address_tableOf : (tableOf next).address = Field.address.put (Field.address.get next) := by
  have haddress : Field.address.get (tableOf next).raw = Field.address.get next :=
    get_tableOf (by simp [tableParts])
  rw [address, haddress]

theorem nextTable_tableOf (hlow : next.toNat % 2 ^ 12 = 0) (hhigh : next.toNat < 2 ^ 48) :
    (tableOf next).nextTable = some next := by
  rw [nextTable, if_pos kind_tableOf, address_tableOf, Field.put_get_address hlow hhigh]

theorem nextTable_invalid : invalid.nextTable = none := rfl

end Descriptor

end BareKernel.Paging
