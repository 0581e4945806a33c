import Mathlib.Algebra.Ring.Nat
import Mathlib.Tactic.Common
import BareKernel.Paging.Storage
import BareKernel.Proofs.Paging.Entries

/-! The layout that populating the tables leaves behind, entry by entry. -/

namespace BareKernel.Paging

/-! ## Tables -/

namespace Table

variable {n first last i : Nat} {entry : Nat → Descriptor} {d : Descriptor}

theorem fill_eq (t : Table n) (first : Nat) (entry : Nat → Descriptor) (h : last ≤ n) :
    ∃ t', t.fill first last entry = .ok t' ∧ ∀ (i : Nat) (hi : i < n),
      t'.entries[i] = if first ≤ i ∧ i < last then entry i else t.entries[i] := by
  refine ⟨_, if_neg fun hout => Nat.not_lt_of_le h hout.2, fun i hi => ?_⟩
  exact Vector.getElem_mapIdx hi

theorem set_eq (t : Table n) (d : Descriptor) (h : i < n) :
    ∃ t', t.set i d = .ok t' ∧ ∀ (j : Nat) (hj : j < n),
      t'.entries[j] = if j = i then d else t.entries[j] := by
  refine ⟨_, dif_pos h, fun j hj => ?_⟩
  rw [Vector.getElem_set]
  simp only [eq_comm]

theorem getElem_blank (hi : i < n) : (blank n).entries[i] = .invalid := Vector.getElem_replicate hi

end Table

namespace AddressSpace

variable {s s' : AddressSpace} {cacheableEnd peripheralBase peripheralSize localBase i : Nat}

/-- The tables stay where they are. -/
theorem origin_of_populate
    (h : s.populate cacheableEnd peripheralBase peripheralSize localBase = .ok s') :
    s'.origin = s.origin := by
  simp only [populate, bind, Except.bind, pure, Except.pure] at h
  repeat' split at h
  all_goals first | cases h; done | exact (congrArg origin (Except.ok.inj h)).symm

/-! ## Where the tables are, and what they are to map -/

def pageBytes : Nat := 2 ^ 12

/-- The address of page `n` of the tables. -/
def page (s : AddressSpace) (n : Nat) : Nat := s.origin + pageBytes * n

def spaceBytes : Nat := entryBytes * (identityBlocks + 4 * entriesPerTable)

/-- All tables have addresses that an entry can hold. -/
structure Placed (s : AddressSpace) : Prop where
  aligned : s.origin % pageBytes = 0
  below : s.origin + spaceBytes ≤ 2 ^ 48

theorem Placed.of_origin_eq (hp : s.Placed) (h : s'.origin = s.origin) : s'.Placed :=
  ⟨h ▸ hp.aligned, h ▸ hp.below⟩

/-- What the second level of the identity map covers. -/
def identityBytes : Nat := identityBlocks * blockBytes

/-- What is cacheable ends with a block and before the peripherals, and the identity map covers
everything; the block with `localBase` in it may be any. -/
structure Fits (cacheableEnd peripheralBase peripheralSize localBase : Nat) : Prop where
  cacheable_aligned : cacheableEnd % blockBytes = 0
  ordered : cacheableEnd ≤ peripheralBase
  inside : peripheralBase + peripheralSize ≤ identityBytes
  local_inside : localBase < identityBytes

/-- The class of a block: a device if it is the one with `localBase` in it or a peripheral's,
otherwise memory, cacheable or not. -/
def blockClass (cacheableEnd peripheralBase peripheralSize localBase i : Nat) :
    Option MemoryClass :=
  if i = blockIndex localBase ∨
      blockIndex peripheralBase ≤ i ∧ i < blockIndex (peripheralBase + peripheralSize) then
    some .device
  else if i < blockIndex cacheableEnd then some .normalCacheable
  else if i < blockIndex peripheralBase then some .normalNonCacheable
  else none

/-- The second-level entry of a block. -/
def identityEntry (c : Option MemoryClass) (i : Nat) : Descriptor :=
  c.elim .invalid fun c => identityBlock c i

/-- What is in the tables, when the blocks have these classes. -/
structure LaidOut (s : AddressSpace) (classAt : Nat → Option MemoryClass) : Prop where
  identityL2 : ∀ (i : Nat) (hi : i < identityBlocks),
    s.identityL2.entries[i] = identityEntry (classAt i) i
  identityL1 : ∀ (i : Nat) (hi : i < entriesPerTable),
    s.identityL1.entries[i] =
      if i < 2 then .tableOf (.ofNat 64 (s.page i)) else .invalid
  virtualL1 : ∀ (i : Nat) (hi : i < entriesPerTable),
    s.virtualL1.entries[i] =
      if i = entriesPerTable - 1 then .tableOf (.ofNat 64 s.virtualL2Base) else .invalid
  virtualL2 : ∀ (i : Nat) (hi : i < entriesPerTable),
    s.virtualL2.entries[i] =
      if i = entriesPerTable - 1 then .tableOf (.ofNat 64 s.virtualL3Base) else .invalid
  virtualL3 : ∀ (i : Nat) (hi : i < entriesPerTable), s.virtualL3.entries[i] = .invalid

/-! ## Populating -/

namespace Fits

variable (hf : Fits cacheableEnd peripheralBase peripheralSize localBase)

include hf

theorem blockIndex_le : blockIndex cacheableEnd ≤ blockIndex peripheralBase ∧
    blockIndex peripheralBase ≤ blockIndex (peripheralBase + peripheralSize) ∧
    blockIndex (peripheralBase + peripheralSize) ≤ identityBlocks ∧
    blockIndex localBase + 1 ≤ identityBlocks := by
  obtain ⟨-, hordered, hinside, hlocal⟩ := hf
  have hblock : blockBytes = 2097152 := rfl
  simp only [identityBytes, identityBlocks, entriesPerTable, blockIndex, hblock] at *
  omega

/-- Later fills win, and only the local block can be filled twice. -/
theorem identityLayout_eq :
    ∃ t, identityLayout (.blank _) cacheableEnd peripheralBase (peripheralBase + peripheralSize)
      localBase = .ok t ∧ ∀ (i : Nat) (hi : i < identityBlocks), t.entries[i] =
        identityEntry (blockClass cacheableEnd peripheralBase peripheralSize localBase i) i := by
  obtain ⟨hcb, hbs, hstop, hlocal⟩ := hf.blockIndex_le
  have hbase : blockIndex peripheralBase ≤ identityBlocks := Nat.le_trans hbs hstop
  have hend : blockIndex cacheableEnd ≤ identityBlocks := Nat.le_trans hcb hbase
  obtain ⟨t₁, h₁, e₁⟩ := (Table.blank identityBlocks).fill_eq 0
    (identityBlock .normalCacheable) hend
  obtain ⟨t₂, h₂, e₂⟩ := t₁.fill_eq (blockIndex cacheableEnd)
    (identityBlock .normalNonCacheable) hbase
  obtain ⟨t₃, h₃, e₃⟩ := t₂.fill_eq (blockIndex peripheralBase) (identityBlock .device) hstop
  obtain ⟨t₄, h₄, e₄⟩ := t₃.fill_eq (blockIndex localBase) (identityBlock .device) hlocal
  refine ⟨t₄, ?_, ?_⟩
  · simp only [identityLayout, h₁, h₂, h₃, h₄, bind, Except.bind]
  · intro i hi
    rw [e₄ i hi, e₃ i hi, e₂ i hi, e₁ i hi, Table.getElem_blank hi]
    simp only [blockClass]
    split_ifs <;> first | rfl | omega

end Fits

/-- Where each table starts. -/
theorem bases (s : AddressSpace) : s.identityL1Base = s.page 2 ∧ s.virtualL1Base = s.page 3 ∧
    s.virtualL2Base = s.page 4 ∧ s.virtualL3Base = s.page 5 := by
  simp only [identityL2Base, identityL1Base, virtualL1Base, virtualL2Base, virtualL3Base, page,
    entryBytes, identityBlocks, entriesPerTable, pageBytes, Nat.reduceMul, Nat.reducePow,
    Nat.add_assoc, Nat.reduceAdd, and_self]

/-- A page of aligned tables is aligned, wherever they are. -/
theorem aligned_page (ha : s.origin % pageBytes = 0) (n : Nat) :
    (BitVec.ofNat 64 (s.page n)).toNat % 2 ^ 12 = 0 := by
  rw [BitVec.toNat_ofNat, Nat.mod_mod_of_dvd _ (by decide : 2 ^ 12 ∣ 2 ^ 64)]
  simp only [page, pageBytes] at ha ⊢
  omega

theorem table_page (ha : s.origin % pageBytes = 0) (n : Nat) :
    Descriptor.table (.ofNat 64 (s.page n)) = .ok (.tableOf (.ofNat 64 (s.page n))) :=
  Descriptor.table_eq (aligned_page ha n)

namespace Placed

variable (hp : s.Placed) {n : Nat}

include hp

/-- A page of the tables starts at an address that an entry holds in full. -/
theorem page_fits (hn : n < 6) : s.page n % 2 ^ 12 = 0 ∧ s.page n < 2 ^ 48 := by
  have haligned := hp.aligned
  have hbelow := hp.below
  simp only [page, pageBytes, spaceBytes, entryBytes, identityBlocks, entriesPerTable] at *
  omega

theorem toNat_page (hn : n < 6) : (BitVec.ofNat 64 (s.page n)).toNat = s.page n := by
  rw [BitVec.toNat_ofNat, Nat.mod_eq_of_lt (Nat.lt_trans (hp.page_fits hn).2 (by decide))]

theorem nextTable_page (hn : n < 6) :
    (Descriptor.tableOf (.ofNat 64 (s.page n))).nextTable = some (.ofNat 64 (s.page n)) := by
  obtain ⟨hlow, hhigh⟩ := hp.page_fits hn
  refine Descriptor.nextTable_tableOf ?_ ?_
  · rwa [hp.toNat_page hn]
  · rwa [hp.toNat_page hn]

end Placed

/-- Only aligned tables can be populated. -/
theorem aligned_of_populate
    (h : s.populate cacheableEnd peripheralBase peripheralSize localBase = .ok s') :
    s.origin % pageBytes = 0 := by
  have hpage : (BitVec.ofNat 64 s.identityL2Base).toNat % 2 ^ 12 = 0 := by
    cases hlower : Descriptor.table (.ofNat 64 s.identityL2Base) with
    | ok d => exact Descriptor.aligned_of_table hlower
    | error e =>
      simp only [populate, hlower, bind, Except.bind] at h
      repeat' split at h
      all_goals cases h
  rwa [BitVec.toNat_ofNat, Nat.mod_mod_of_dvd _ (by decide : 2 ^ 12 ∣ 2 ^ 64)] at hpage

/-- Populating aligned tables succeeds, whatever they held before. -/
theorem populate_eq (ha : s.origin % pageBytes = 0)
    (hf : Fits cacheableEnd peripheralBase peripheralSize localBase) :
    ∃ s', s.populate cacheableEnd peripheralBase peripheralSize localBase = .ok s' ∧
      s'.LaidOut (blockClass cacheableEnd peripheralBase peripheralSize localBase) := by
  have hsum : ¬0x10000000000000000 ≤ peripheralBase + peripheralSize :=
    Nat.not_le_of_lt (Nat.lt_of_le_of_lt hf.inside (by decide))
  have hordered := Nat.not_lt_of_le hf.ordered
  obtain ⟨identityL2, hL2, hentries⟩ := hf.identityLayout_eq
  obtain ⟨-, -, hv2, hv3⟩ := s.bases
  have hlower : Descriptor.table (.ofNat 64 s.identityL2Base) = _ :=
    table_page ha 0
  have hupper : Descriptor.table (.ofNat 64 (s.identityL2Base + entryBytes * entriesPerTable)) =
      _ := table_page ha 1
  have hmiddle := table_page ha 4
  have hlast := table_page ha 5
  obtain ⟨t₀, h₀, e₀⟩ := (Table.blank entriesPerTable).set_eq
    (.tableOf (.ofNat 64 (s.page 0))) (i := 0) (by decide)
  obtain ⟨t₁, h₁, e₁⟩ := t₀.set_eq (.tableOf (.ofNat 64 (s.page 1))) (i := 1) (by decide)
  obtain ⟨t₂, h₂, e₂⟩ := (Table.blank entriesPerTable).set_eq
    (.tableOf (.ofNat 64 (s.page 4))) (i := entriesPerTable - 1) (by decide)
  obtain ⟨t₃, h₃, e₃⟩ := (Table.blank entriesPerTable).set_eq
    (.tableOf (.ofNat 64 (s.page 5))) (i := entriesPerTable - 1) (by decide)
  refine ⟨⟨s.origin, identityL2, t₁, t₂, t₃, .blank entriesPerTable⟩, ?_, ?_⟩
  · simp only [populate, Table.clear_eq_blank, hordered, hf.cacheable_aligned, hsum, hL2, hlower,
      hupper, hv2, hv3, hmiddle, hlast, h₀, h₁, h₂, h₃, if_false, ne_eq, not_true, bind,
      Except.bind, pure, Except.pure]
  · refine ⟨hentries, ?_, ?_, ?_, ?_⟩
    · intro i hi
      rw [e₁ i hi, e₀ i hi, Table.getElem_blank hi]
      change _ = if i < 2 then Descriptor.tableOf (.ofNat 64 (s.page i)) else Descriptor.invalid
      match i with
      | 0 => rw [if_neg (by decide), if_pos rfl, if_pos (by decide)]
      | 1 => rw [if_pos rfl, if_pos (by decide)]
      | i + 2 => rw [if_neg (by omega), if_neg (by omega), if_neg (by omega)]
    · intro i hi
      rw [e₂ i hi, Table.getElem_blank hi, ← hv2]
      rfl
    · intro i hi
      rw [e₃ i hi, Table.getElem_blank hi, ← hv3]
      rfl
    · intro i hi
      exact Table.getElem_blank hi

/-- Whenever populating succeeds, the whole layout is in the tables. -/
theorem laidOut_of_populate
    (h : s.populate cacheableEnd peripheralBase peripheralSize localBase = .ok s')
    (hf : Fits cacheableEnd peripheralBase peripheralSize localBase) :
    s'.LaidOut (blockClass cacheableEnd peripheralBase peripheralSize localBase) := by
  obtain ⟨t, ht, hl⟩ := populate_eq (aligned_of_populate h) hf
  obtain rfl := Except.ok.inj (h.symm.trans ht)
  exact hl

end AddressSpace

end BareKernel.Paging
