import BareKernel.Proofs.Paging.Walk

/-! Lookups in tables of any contents. A walk never leaves the tables and no sum in it is too large,
whatever the entries are; it arrives exactly where the entries lead, and only through entries that
name one of the two halves of the second level. -/

namespace BareKernel.Paging

theorem Table.get_eq {n i : Nat} (t : Table n) (h : i < n) : t.get i = .ok t.entries[i] := dif_pos h

theorem Descriptor.toNat_address (d : Descriptor) :
    d.address.toNat = (Field.address.get d.raw).toNat * 2 ^ 12 := by
  have hlt : (Field.address.get d.raw).toNat < 2 ^ 36 := (Field.address.get d.raw).isLt
  rw [address, Field.put, BitVec.toNat_shiftLeft, BitVec.toNat_setWidth, Nat.shiftLeft_eq]
  change _ % 2 ^ 64 * 2 ^ 12 % 2 ^ 64 = _
  omega

theorem Descriptor.nextTable_eq_some_iff {d : Descriptor} {next : BitVec 64} :
    d.nextTable = some next ↔ d.kind = .table ∧ d.address = next := by
  simp only [nextTable, Option.ite_none_right_eq_some, Option.some.injEq]

theorem Descriptor.output_eq_some_iff {d : Descriptor} {output : BitVec 64} :
    d.output = some output ↔ d.kind = .block ∧ d.address = output := by
  simp only [Descriptor.output, Option.ite_none_right_eq_some, Option.some.injEq]

theorem Descriptor.kind_of_memoryClass {d : Descriptor} {c : MemoryClass}
    (h : d.memoryClass = some c) : d.kind = .block := by
  simp only [memoryClass, Option.ite_none_right_eq_some] at h
  exact h.1

namespace AddressSpace

variable {s : AddressSpace} {a b : BitVec 64} {i first : Nat} {next : BitVec 64}

/-! ## Checked walks -/

namespace Checked

/-- A sum that must fit in a machine word. -/
def sum (x y : Nat) : Except Fault Nat :=
  if x + y < 2 ^ 64 then .ok (x + y) else .error .sumTooLarge

/-- `firstOf` with checked sums. -/
def firstOf (s : AddressSpace) (next : BitVec 64) : Except Fault (Option Nat) := do
  let base := s.identityL2Base + (← s.identityL2.offsetOf 0)
  if next.toNat < base then return none
  let offset := next.toNat - base
  if offset % entryBytes ≠ 0 then return none
  let first := offset / entryBytes
  return if (← sum first entriesPerTable) ≤ identityBlocks then some first else none

/-- `lookup` with checked sums and indices. -/
def lookup (s : AddressSpace) (addr : BitVec 64) : Except Fault (Option Nat) := do
  let top := addr.toNat >>> firstLevelShift
  if entriesPerTable ≤ top then return none
  match (← s.identityL1.get top).nextTable with
  | none => return none
  | some next =>
    match ← firstOf s next with
    | none => return none
    | some first =>
      let index ← sum first (addr.toNat >>> blockShift &&& (entriesPerTable - 1))
      return if (← s.identityL2.get index).isValid then some index else none

/-- What the entry that governs an address has to say, with checked sums and indices. -/
def inspect {α : Type} (s : AddressSpace) (addr : BitVec 64) (view : Descriptor → Option α) :
    Except Fault (Option α) := do
  match ← lookup s addr with
  | none => return none
  | some index => return view (← s.identityL2.get index)

theorem sum_eq {x y : Nat} (h : x + y < 2 ^ 64) : sum x y = .ok (x + y) := if_pos h

end Checked

theorem Checked.firstOf_eq (s : AddressSpace) (next : BitVec 64) :
    Checked.firstOf s next = .ok (s.firstOf next) := by
  have hoffset : s.identityL2.offsetOf 0 = .ok 0 := rfl
  -- A pointer counts so many bytes, so the entries before it are far fewer.
  have hsum : sum ((next.toNat - s.identityL2Base) / entryBytes) entriesPerTable =
      .ok ((next.toNat - s.identityL2Base) / entryBytes + entriesPerTable) := by
    refine sum_eq ?_
    have hlt := next.isLt
    simp only [entryBytes, entriesPerTable]
    omega
  simp only [Checked.firstOf, AddressSpace.firstOf, hoffset, hsum, bind, Except.bind, pure,
    Except.pure, Nat.add_zero]
  split_ifs <;> rfl

/-- The index within a half that an address gives. -/
theorem index_within (n : Nat) :
    n >>> blockShift &&& (entriesPerTable - 1) = n / blockBytes % entriesPerTable := by
  have hshift : n >>> blockShift = n / blockBytes := Nat.shiftRight_eq_div_pow n 21
  rw [hshift]
  exact Nat.and_two_pow_sub_one_eq_mod _ 9

theorem index_lt (hfirst : first + entriesPerTable ≤ identityBlocks) (n : Nat) :
    first + n / blockBytes % entriesPerTable < identityBlocks := by
  have hlt : n / blockBytes % entriesPerTable < entriesPerTable := Nat.mod_lt _ (by decide)
  omega

theorem Checked.lookup_eq (s : AddressSpace) (a : BitVec 64) :
    Checked.lookup s a = .ok (s.lookup a) := by
  rw [lookup_eq_bind, Checked.lookup]
  by_cases htop : entriesPerTable ≤ a.toNat >>> firstLevelShift
  · simp only [htop, if_true, Vector.getElem?_eq_none, Option.bind_none]
    rfl
  · have hlt : a.toNat >>> firstLevelShift < entriesPerTable := Nat.lt_of_not_le htop
    simp only [htop, if_false, Table.get_eq _ hlt, Vector.getElem?_eq_getElem hlt, Option.bind_some,
      Checked.firstOf_eq, bind, Except.bind, pure, Except.pure]
    cases hnext : (s.identityL1.entries[a.toNat >>> firstLevelShift]).nextTable with
    | none => rfl
    | some next =>
      cases hfirst : s.firstOf next with
      | none => simp only [Option.bind_some, hfirst, Option.bind_none]
      | some first =>
        have hin := index_lt (firstOf_eq_some_iff.mp hfirst).1 a.toNat
        have hsum : sum first (a.toNat / blockBytes % entriesPerTable) = _ :=
          sum_eq (Nat.lt_trans hin (by decide))
        simp only [Option.bind_some, hfirst, index_within, hsum, Table.get_eq _ hin,
          Vector.getElem?_eq_getElem hin]

/-- What a walk goes through before it arrives. -/
theorem lookup_eq_some_iff : s.lookup a = some i ↔ ∃ top next first entry,
    s.identityL1.entries[a.toNat >>> firstLevelShift]? = some top ∧ top.nextTable = some next ∧
      s.firstOf next = some first ∧ first + a.toNat / blockBytes % entriesPerTable = i ∧
        s.identityL2.entries[i]? = some entry ∧ entry.isValid = true := by
  rw [lookup_eq_bind]
  simp only [Option.bind_eq_some_iff]
  constructor
  · rintro ⟨next, ⟨top, htop, hnext⟩, first, hfirst, entry, hentry, h⟩
    split at h
    · rename_i hvalid
      cases h
      exact ⟨top, next, first, entry, htop, hnext, hfirst, rfl, hentry, hvalid⟩
    · cases h
  · rintro ⟨top, next, first, entry, htop, hnext, hfirst, rfl, hentry, hvalid⟩
    exact ⟨next, ⟨top, htop, hnext⟩, first, hfirst, entry, hentry, if_pos hvalid⟩

theorem Checked.inspect_eq {α : Type} (s : AddressSpace) (a : BitVec 64)
    (view : Descriptor → Option α) : Checked.inspect s a view =
      .ok ((s.lookup a).bind fun index => s.identityL2.entries[index]?.bind view) := by
  simp only [Checked.inspect, Checked.lookup_eq, bind, Except.bind, pure, Except.pure]
  cases hl : s.lookup a with
  | none => rfl
  | some i =>
    obtain ⟨-, -, -, entry, -, -, -, -, hentry, -⟩ := lookup_eq_some_iff.mp hl
    obtain ⟨hi, -⟩ := Vector.getElem?_eq_some_iff.mp hentry
    simp only [Table.get_eq _ hi, Vector.getElem?_eq_getElem hi, Option.bind_some]

/-! ## Where a walk arrives -/

/-- When the tables lie on a page boundary, an entry leads to a half of the second level or to
none of it. -/
theorem firstOf_address_iff (hs : s.origin % pageBytes = 0) (d : Descriptor) :
    s.firstOf d.address = some first ↔ (first = 0 ∨ first = entriesPerTable) ∧
      d.address.toNat = s.identityL2Base + entryBytes * first := by
  have haddress := d.toNat_address
  rw [firstOf_eq_some_iff]
  -- An entry names a page, and the second level takes up two of them.
  simp only [pageBytes, entriesPerTable, identityBlocks, identityL2Base, entryBytes] at *
  omega

/-- A way through the identity map for an address: a first-level entry that leads to a half of the
second level, and a valid entry there. -/
structure Route (s : AddressSpace) (a : BitVec 64) where
  top : Descriptor
  half : Nat
  entry : Descriptor
  inside : a.toNat < 2 ^ 39
  top_at : s.identityL1.entries[(a >>> 30).toNat]? = some top
  isTable : top.kind = .table
  isHalf : half = 0 ∨ half = entriesPerTable
  address_eq : top.address.toNat = s.identityL2Base + entryBytes * half
  entry_at : s.identityL2.entries[half + (a.extractLsb 29 21).toNat]? = some entry
  isValid : entry.isValid = true

def Route.index (r : s.Route a) : Nat := r.half + (a.extractLsb 29 21).toNat

theorem toNat_extractLsb (a : BitVec 64) :
    (a.extractLsb 29 21).toNat = a.toNat / blockBytes % entriesPerTable := by
  rw [BitVec.extractLsb_toNat, Nat.shiftRight_eq_div_pow]
  rfl

theorem lookup_eq_some_iff_route (hs : s.origin % pageBytes = 0) :
    s.lookup a = some i ↔ ∃ r : s.Route a, r.index = i := by
  rw [lookup_eq_some_iff]
  constructor
  · rintro ⟨top, next, first, entry, htop, hnext, hfirst, rfl, hentry, hvalid⟩
    obtain ⟨htable, rfl⟩ := Descriptor.nextTable_eq_some_iff.mp hnext
    obtain ⟨hhalf, haddress⟩ := (firstOf_address_iff hs top).mp hfirst
    have inside : a.toNat < 2 ^ 39 := by
      obtain ⟨hlt, -⟩ := Vector.getElem?_eq_some_iff.mp htop
      rw [Nat.shiftRight_eq_div_pow] at hlt
      simp only [firstLevelShift, entriesPerTable] at hlt
      omega
    rw [← toNat_extractLsb] at hentry
    exact ⟨⟨top, first, entry, inside, htop, htable, hhalf, haddress, hentry, hvalid⟩,
      congrArg (first + ·) (toNat_extractLsb a)⟩
  · rintro ⟨⟨top, half, entry, inside, htop, htable, hhalf, haddress, hentry, hvalid⟩, rfl⟩
    refine ⟨top, top.address, half, entry, htop, if_pos htable,
      (firstOf_address_iff hs top).mpr ⟨hhalf, haddress⟩, ?_, hentry, hvalid⟩
    rw [Route.index, toNat_extractLsb]

/-- What is found out about an address is what the entry at the end of its way says. -/
theorem bind_lookup_eq_some_iff (hs : s.origin % pageBytes = 0) {α : Type}
    {view : Descriptor → Option α} {x : α} :
    ((s.lookup a).bind fun index => s.identityL2.entries[index]?.bind view) = some x ↔
      ∃ r : s.Route a, view r.entry = some x := by
  simp only [Option.bind_eq_some_iff, lookup_eq_some_iff_route hs]
  constructor
  · rintro ⟨i, ⟨r, rfl⟩, entry, hentry, hview⟩
    obtain rfl : r.entry = entry := Option.some.inj (r.entry_at.symm.trans hentry)
    exact ⟨r, hview⟩
  · rintro ⟨r, hview⟩
    exact ⟨r.index, ⟨r, rfl⟩, r.entry, r.entry_at, hview⟩

/-- An address's entry is that of its block. -/
theorem lookup_congr (h : a.toNat / blockBytes = b.toNat / blockBytes) :
    s.lookup a = s.lookup b := by
  have htop : ∀ n, n >>> firstLevelShift = n / blockBytes / entriesPerTable := fun n => by
    rw [Nat.shiftRight_eq_div_pow, Nat.div_div_eq_div_mul]
    rfl
  rw [lookup_eq_bind, lookup_eq_bind, htop, htop, h]

/-- Where an entry takes an address. -/
def translated (a : BitVec 64) (entry : Descriptor) : Option (BitVec 64) :=
  entry.output.map (· ||| (a &&& BitVec.ofNat 64 (blockBytes - 1)))

theorem translated_eq_some_iff {entry : Descriptor} {p : BitVec 64} :
    translated a entry = some p ↔ entry.kind = .block ∧
      entry.address ||| (a &&& BitVec.ofNat 64 (blockBytes - 1)) = p := by
  simp only [translated, Option.map_eq_some_iff, Descriptor.output_eq_some_iff, and_assoc,
    exists_and_left, exists_eq_left']

theorem physicalAddress_eq_bind (a : BitVec 64) : s.physicalAddress a =
    (s.lookup a).bind fun index => s.identityL2.entries[index]?.bind (translated a) := by
  have hview : translated a = fun entry => entry.output.bind fun output =>
      some (output ||| (a &&& BitVec.ofNat 64 (blockBytes - 1))) :=
    funext fun entry => Option.map_eq_bind
  rw [hview]
  rfl

/-- Lookups in these tables neither leave them nor overflow, and answer what the entries say: an
index exactly when there is a way to it, a class or an address only from a block, and the same for
all addresses of one block. -/
structure Exact (s : AddressSpace) : Prop where
  lookup_checked : ∀ a, Checked.lookup s a = .ok (s.lookup a)
  classify_checked : ∀ a, Checked.inspect s a Descriptor.memoryClass = .ok (s.classify a)
  translate_checked : ∀ a, Checked.inspect s a (translated a) = .ok (s.physicalAddress a)
  lookup_iff : ∀ a i, s.lookup a = some i ↔ ∃ r : s.Route a, r.index = i
  classify_iff : ∀ a c, s.classify a = some c ↔
    ∃ r : s.Route a, r.entry.kind = .block ∧ r.entry.memoryClass = some c
  translate_iff : ∀ a p, s.physicalAddress a = some p ↔ ∃ r : s.Route a,
    r.entry.kind = .block ∧ r.entry.address ||| (a &&& BitVec.ofNat 64 (blockBytes - 1)) = p
  uniform : ∀ a b : BitVec 64, a.toNat / blockBytes = b.toNat / blockBytes →
    s.lookup a = s.lookup b ∧ s.classify a = s.classify b

/-- Tables of any contents are looked up exactly, wherever they lie on a page boundary. -/
theorem exact_of_aligned (hs : s.origin % pageBytes = 0) : s.Exact where
  lookup_checked := Checked.lookup_eq s
  classify_checked a := Checked.inspect_eq s a _
  translate_checked a := by rw [Checked.inspect_eq, physicalAddress_eq_bind]
  lookup_iff _ _ := lookup_eq_some_iff_route hs
  classify_iff a c := by
    refine (bind_lookup_eq_some_iff hs).trans (exists_congr fun r => ?_)
    exact (and_iff_right_of_imp Descriptor.kind_of_memoryClass).symm
  translate_iff a p := by
    rw [physicalAddress_eq_bind]
    exact (bind_lookup_eq_some_iff hs).trans (exists_congr fun r => translated_eq_some_iff)
  uniform a b h := by
    have hl : s.lookup a = s.lookup b := lookup_congr h
    refine ⟨hl, ?_⟩
    rw [classify, classify, hl]

/-- Every entry of the first level leads to the upper half of the second, and all blocks are devices
at one address. -/
def folded : AddressSpace where
  origin := 0x80000
  identityL2 := ⟨Vector.replicate _ (.block 0x3F000000 (.ofClass .device))⟩
  identityL1 := ⟨Vector.replicate _ (.tableOf 0x81000)⟩
  virtualL1 := .blank _
  virtualL2 := .blank _
  virtualL3 := .blank _

/-- The last address that a first-level entry covers, and its block in the upper half. -/
def foldedRoute : folded.Route 0x7FFFFFFFFF where
  top := .tableOf 0x81000
  half := 512
  entry := .block 0x3F000000 (.ofClass .device)
  inside := by decide
  top_at := by rw [folded, Vector.getElem?_replicate, if_pos (by decide)]
  isTable := Descriptor.kind_tableOf
  isHalf := .inr rfl
  address_eq := by decide
  entry_at := by rw [folded, Vector.getElem?_replicate, if_pos (by decide)]
  isValid := Descriptor.isValid_block

/-- Every lookup in the folded tables ends in the upper half of the second level. -/
theorem exact_of_aligned_folded : folded.origin % pageBytes = 0 ∧
    folded.lookup 0x7FFFFFFFFF = some 1023 ∧
    folded.classify 0x7FFFFFFFFF = some .device ∧
    folded.physicalAddress 0x7FFFFFFFFF = some 0x3F1FFFFF := by
  have h : folded.Exact := exact_of_aligned (by decide)
  exact ⟨by decide, (h.lookup_iff _ _).mpr ⟨foldedRoute, by decide⟩,
    (h.classify_iff _ _).mpr ⟨foldedRoute, Descriptor.kind_block, Descriptor.memoryClass_block _⟩,
    (h.translate_iff _ _).mpr ⟨foldedRoute, Descriptor.kind_block, by decide⟩⟩

end AddressSpace

end BareKernel.Paging
