import Mathlib.Algebra.Ring.Nat
import Mathlib.Data.List.Chain
import Mathlib.Data.List.MinMax
import Mathlib.Data.List.Nodup
import Mathlib.Data.List.Pairwise
import BareKernel.Heap.Size

/-! An allocator without a memory. Its state is a list of blocks in address order, which tile the
arena, and the starts of the free ones in the order in which they are looked at. A request takes
the smallest block among the first few that is large enough; a block that is given back merges
with its free neighbours and comes first. -/

namespace BareKernel.Heap

/-- A block of the arena. -/
structure Extent where
  start : Nat
  size : Nat
  free : Bool
  deriving DecidableEq, Repr

namespace Extent

def stop (e : Extent) : Nat := e.start + e.size

/-- The first and the last block of every arena. -/
def leading : Extent := ⟨0, sentinelUnits, false⟩

def trailing (len : Nat) : Extent := ⟨len - sentinelUnits, sentinelUnits, false⟩

/-- Take `units` units off the front. The rest is a free block if it is large enough for one and
goes with them otherwise. -/
def cut (e : Extent) (units : Nat) : List Extent :=
  if 4 ≤ e.size - units then
    [⟨e.start, units, false⟩, ⟨e.start + units, e.size - units, true⟩]
  else [⟨e.start, e.size, false⟩]

/-- The first of these blocks: what is handed out. -/
def served (e : Extent) (units : Nat) : Extent :=
  ⟨e.start, if 4 ≤ e.size - units then units else e.size, false⟩

end Extent

/-- The blocks follow one another without a gap from `a` to `b`. -/
def Tiles : (a : Nat) → List Extent → (b : Nat) → Prop
  | a, [], b => a = b
  | a, e :: rest, b => e.start = a ∧ Tiles e.stop rest b

instance decidableTiles : (a : Nat) → (blocks : List Extent) → (b : Nat) → Decidable (Tiles a blocks b)
  | a, [], b => inferInstanceAs (Decidable (a = b))
  | a, e :: rest, b =>
    have := decidableTiles e.stop rest b
    inferInstanceAs (Decidable (e.start = a ∧ Tiles e.stop rest b))

structure Plan where
  blocks : List Extent
  /-- Where the free blocks start. -/
  avail : List Nat
  deriving DecidableEq, Repr

namespace Plan

def sizeAt (p : Plan) (i : Nat) : Nat := ((p.blocks.find? (·.start = i)).map (·.size)).getD 0

/-- The smallest of the first twenty free blocks that hold `units` units, the first among equals. -/
def bestFit (p : Plan) (units : Nat) : Option Nat :=
  ((p.avail.take 20).filter (units ≤ p.sizeAt ·)).argmin p.sizeAt

def take (p : Plan) (i units : Nat) : Plan where
  blocks := p.blocks.flatMap fun e => if e.start = i then e.cut units else [e]
  avail :=
    if 4 ≤ p.sizeAt i - units then (i + units) :: p.avail.erase i else p.avail.erase i

/-- The free blocks directly before and after the one at `i`. -/
def neighbours (p : Plan) (i : Nat) : List Extent :=
  p.blocks.filter fun e => e.free && (e.stop = i || e.start = i + p.sizeAt i)

/-- The block at `i` and its free neighbours, as one free block. -/
def merged (p : Plan) (i : Nat) : Extent where
  start := (p.neighbours i).foldl (fun start e => Nat.min start e.start) i
  size := (p.neighbours i).foldl (fun size e => size + e.size) (p.sizeAt i)
  free := true

def release (p : Plan) (i : Nat) : Plan where
  blocks := (p.blocks.filter (· ∉ p.neighbours i)).map fun e =>
    if e.start = i then p.merged i else e
  avail := (p.merged i).start :: p.avail.diff ((p.neighbours i).map (·.start))

/-- One free block between the two at the ends. -/
def initial (len : Nat) : Plan where
  blocks := [.leading, ⟨sentinelUnits, len - 2 * sentinelUnits, true⟩, .trailing len]
  avail := [sentinelUnits]

/-- The units that a request of so many bytes takes: its payload in units of eight bytes, rounded
up, a unit for each of its tags, and at least the four of a free block. -/
def unitsNeeded (bytes : Nat) : Nat := max 4 ((bytes + 7) / 8 + 2)

/-- The start of a block for a request of so many bytes, if there is one in reach. A block of 2⁶⁰
units has 2⁶³ bytes, more than any heap. -/
def allocate (p : Plan) (bytes : Nat) : Option Nat × Plan :=
  if bytes = 0 ∨ 2 ^ 60 ≤ unitsNeeded bytes then (none, p)
  else
    match p.bestFit (unitsNeeded bytes) with
    | none => (none, p)
    | some i => (some i, p.take i (unitsNeeded bytes))

/-- What every operation keeps. -/
structure Valid (p : Plan) (len : Nat) : Prop where
  tiles : Tiles 0 p.blocks len
  leading_mem : .leading ∈ p.blocks
  trailing_mem : .trailing len ∈ p.blocks
  inner : ∀ e ∈ p.blocks, e = .leading ∨ e = .trailing len ∨ minBlockUnits ≤ e.size
  coalesced : p.blocks.IsChain fun a b => ¬(a.free = true ∧ b.free = true)
  nodup : p.avail.Nodup
  mem_avail : ∀ i, i ∈ p.avail ↔ ∃ e ∈ p.blocks, e.free = true ∧ e.start = i

end Plan

/-! ## Tilings -/

variable {a b c i n : Nat} {xs ys : List Extent} {e f l r : Extent}

theorem tiles_append : Tiles a (xs ++ ys) c ↔ ∃ b, Tiles a xs b ∧ Tiles b ys c := by
  induction xs generalizing a with
  | nil => simp [Tiles]
  | cons e xs ih => simp [Tiles, ih, and_assoc]

theorem Tiles.le (ht : Tiles a xs b) : a ≤ b := by
  induction xs generalizing a with
  | nil => exact Nat.le_of_eq ht
  | cons e xs ih =>
    obtain ⟨rfl, ht⟩ := ht
    exact (Nat.le_add_right _ _).trans (ih ht)

theorem Tiles.bounds (ht : Tiles a xs b) (he : e ∈ xs) : a ≤ e.start ∧ e.stop ≤ b := by
  obtain ⟨pre, post, rfl⟩ := List.append_of_mem he
  obtain ⟨c, hpre, rfl, hpost⟩ := tiles_append.mp ht
  exact ⟨hpre.le, hpost.le⟩

theorem Tiles.pairwise (ht : Tiles a xs b) : xs.Pairwise fun e f => e.stop ≤ f.start := by
  induction xs generalizing a with
  | nil => exact .nil
  | cons e xs ih => exact .cons (fun f hf => (ht.2.bounds hf).1) (ih ht.2)

/-- Two blocks of a tiling have no unit in common. -/
theorem Tiles.apart (ht : Tiles a xs b) (he : e ∈ xs) (hf : f ∈ xs) :
    e = f ∨ e.stop ≤ f.start ∨ f.stop ≤ e.start := by
  let R (e f : Extent) : Prop := e = f ∨ e.stop ≤ f.start ∨ f.stop ≤ e.start
  have h₀ : ∀ x ∈ xs, R x x := fun x _ => .inl rfl
  have h₁ : xs.Pairwise R := ht.pairwise.imp fun h => .inr (.inl h)
  have h₂ : xs.Pairwise (flip R) := ht.pairwise.imp fun h => Or.inr (.inr h)
  exact List.Pairwise.forall_of_forall_of_flip h₀ h₁ h₂ he hf

/-- A block with room for links is no sentinel. -/
theorem Extent.not_sentinel (hs : minBlockUnits ≤ e.size) (len : Nat) :
    e ≠ .leading ∧ e ≠ .trailing len := by
  have hsmall : ¬minBlockUnits ≤ sentinelUnits := by decide
  constructor <;> rintro rfl <;> exact hsmall hs

namespace Plan

variable {p : Plan} {len units : Nat} {pre post : List Extent}

namespace Valid

theorem minBlockUnits_le (hv : p.Valid len) (he : e ∈ p.blocks) (hf : e.free = true) :
    minBlockUnits ≤ e.size := by
  rcases hv.inner e he with rfl | rfl | h
  · cases hf
  · cases hf
  · exact h

theorem sentinelUnits_le (hv : p.Valid len) (he : e ∈ p.blocks) : sentinelUnits ≤ e.size := by
  rcases hv.inner e he with rfl | rfl | h
  · exact Nat.le_refl _
  · exact Nat.le_refl _
  · exact Nat.le_trans (by decide) h

theorem apart (hv : p.Valid len) (he : e ∈ p.blocks) (hf : f ∈ p.blocks) :
    e = f ∨ e.stop ≤ f.start ∨ f.stop ≤ e.start := hv.tiles.apart he hf

theorem eq_of_start (hv : p.Valid len) (he : e ∈ p.blocks) (hf : f ∈ p.blocks)
    (h : e.start = f.start) : e = f := by
  have h₁ := hv.sentinelUnits_le he
  have h₂ := hv.sentinelUnits_le hf
  refine (hv.apart he hf).resolve_right ?_
  simp only [Extent.stop, sentinelUnits] at *
  omega

theorem sizeAt_eq (hv : p.Valid len) (he : e ∈ p.blocks) : p.sizeAt e.start = e.size := by
  cases hf : p.blocks.find? (·.start = e.start) with
  | none =>
    have := List.find?_eq_none.mp hf e he
    simp at this
  | some f =>
    have hm := List.mem_of_find?_eq_some hf
    have hs : f.start = e.start := by simpa using List.find?_some hf
    rw [sizeAt, hf, hv.eq_of_start hm he hs]
    rfl

/-- A block with room for links is not at an end of the arena. -/
theorem around (hv : p.Valid len) (he : e ∈ p.blocks) (hs : minBlockUnits ≤ e.size) :
    ∃ pre l r post, p.blocks = pre ++ l :: e :: r :: post := by
  obtain ⟨before, after, hb⟩ := List.append_of_mem he
  have ht := hv.tiles
  rw [hb] at ht
  obtain ⟨c, hbefore, rfl, hafter⟩ := tiles_append.mp ht
  have hne := Extent.not_sentinel hs len
  have hlead : Extent.leading ∈ before := by
    have := hb ▸ hv.leading_mem
    rcases List.mem_append.mp this with h | h
    · exact h
    · rcases List.mem_cons.mp h with h | h
      · exact absurd h.symm hne.1
      · have := (hafter.bounds h).1
        simp only [Extent.leading, Extent.stop, minBlockUnits] at *
        omega
  have htrail : Extent.trailing len ∈ after := by
    have := hb ▸ hv.trailing_mem
    rcases List.mem_append.mp this with h | h
    · have h₁ := (hbefore.bounds h).2
      have h₂ := hafter.le
      have h₃ := (hv.tiles.bounds he).2
      simp only [Extent.trailing, Extent.stop, minBlockUnits, sentinelUnits] at *
      omega
    · exact (List.mem_cons.mp h).resolve_left hne.2.symm
  obtain ⟨pre, l, rfl⟩ := (List.eq_nil_or_concat before).resolve_left (List.ne_nil_of_mem hlead)
  obtain ⟨r, post, rfl⟩ := List.exists_cons_of_ne_nil (List.ne_nil_of_mem htrail)
  exact ⟨pre, l, r, post, by simp [hb]⟩

/-- A block with room for links lies between the sentinels. -/
theorem between (hv : p.Valid len) (he : e ∈ p.blocks) (hs : minBlockUnits ≤ e.size) :
    sentinelUnits ≤ e.start ∧ e.stop ≤ len - sentinelUnits := by
  have hne := Extent.not_sentinel hs len
  have hpos := hv.sentinelUnits_le he
  have hend := (hv.tiles.bounds he).2
  have hl := (hv.apart he hv.leading_mem).resolve_left hne.1
  have ht := (hv.apart he hv.trailing_mem).resolve_left hne.2
  simp only [Extent.stop, Extent.leading, Extent.trailing, sentinelUnits] at *
  omega

/-- The blocks around one of them start elsewhere. -/
theorem start_ne (hv : p.Valid len) (hb : p.blocks = pre ++ e :: post) :
    ∀ f ∈ pre ++ post, f.start ≠ e.start := by
  intro f hf hs
  have he : e ∈ p.blocks := by simp [hb]
  have hf' : f ∈ p.blocks := by
    rw [hb]
    simp only [List.mem_append, List.mem_cons] at hf ⊢
    tauto
  obtain rfl := hv.eq_of_start hf' he hs
  have hp := hv.tiles.pairwise
  have hs₂ := hv.sentinelUnits_le he
  rw [hb, List.pairwise_append, List.pairwise_cons] at hp
  obtain ⟨-, ⟨hpost, -⟩, hpre⟩ := hp
  have hle : f.stop ≤ f.start := by
    rcases List.mem_append.mp hf with h | h
    · exact hpre f h f (by simp)
    · exact hpost f h
  simp only [Extent.stop, sentinelUnits] at hle hs₂
  omega

/-- The free blocks but one start where the other nodes do. -/
theorem mem_erase (hv : p.Valid len) (he : e ∈ p.blocks) :
    i ∈ p.avail.erase e.start ↔ ∃ f ∈ p.blocks, f ≠ e ∧ f.free = true ∧ f.start = i := by
  rw [hv.nodup.mem_erase_iff, hv.mem_avail]
  constructor
  · rintro ⟨hne, f, hf, hfree, rfl⟩
    exact ⟨f, hf, fun h => hne (h ▸ rfl), hfree, rfl⟩
  · rintro ⟨f, hf, hfe, hfree, rfl⟩
    exact ⟨fun h => hfe (hv.eq_of_start hf he h), f, hf, hfree, rfl⟩

theorem starts_nodup (hv : p.Valid len) : (p.blocks.map (·.start)).Nodup := by
  refine List.pairwise_map.mpr (hv.tiles.pairwise.imp_of_mem fun he _ h => ?_)
  have := hv.sentinelUnits_le he
  simp only [Extent.stop, sentinelUnits] at *
  omega

/-- The blocks in order, with the sentinels at the ends. -/
theorem exists_inner (hv : p.Valid len) (hl : minArenaUnits ≤ len) :
    ∃ inner, p.blocks = .leading :: inner ++ [.trailing len] ∧
      ∀ e ∈ inner, minBlockUnits ≤ e.size := by
  have hl₈ : 8 ≤ len := hl
  have ht := hv.tiles
  obtain ⟨a, rest, hb⟩ := List.exists_cons_of_ne_nil (List.ne_nil_of_mem hv.leading_mem)
  obtain rfl : a = .leading :=
    hv.eq_of_start (by simp [hb]) hv.leading_mem (hb ▸ ht : Tiles 0 (a :: rest) len).1
  have hrest : Extent.trailing len ∈ rest := by
    have hm := hb ▸ hv.trailing_mem
    refine (List.mem_cons.mp hm).resolve_left fun h => ?_
    have hs := congrArg Extent.start h
    simp only [Extent.trailing, Extent.leading, sentinelUnits] at hs
    omega
  obtain ⟨inner, z, rfl⟩ := (List.eq_nil_or_concat rest).resolve_left (List.ne_nil_of_mem hrest)
  rw [List.concat_eq_append] at hb
  obtain rfl : z = .trailing len := by
    have hz : z ∈ p.blocks := by simp [hb]
    rw [hb, ← List.cons_append] at ht
    obtain ⟨c, -, rfl, hstop⟩ := tiles_append.mp ht
    have hpos := hv.sentinelUnits_le hz
    refine (hv.apart hz hv.trailing_mem).resolve_right ?_
    change z.stop = len at hstop
    simp only [Extent.stop, Extent.trailing, sentinelUnits] at *
    omega
  refine ⟨inner, hb, fun e he => ?_⟩
  have hn := List.Nodup.of_map _ hv.starts_nodup
  rw [hb, List.nodup_cons, List.nodup_append] at hn
  obtain ⟨hlead, -, -, htrail⟩ := hn
  have h₁ : e ≠ .leading := fun h => hlead (by simp [← h, he])
  have h₂ : e ≠ .trailing len := htrail e he _ (by simp)
  exact ((hv.inner e (by simp [hb, he])).resolve_left h₁).resolve_left h₂

end Valid

/-! ## The start -/

theorem valid_initial (hl : minArenaUnits ≤ len) : (initial len).Valid len := by
  simp only [minArenaUnits, sentinelUnits, minBlockUnits] at hl
  refine ⟨?_, by simp [initial], by simp [initial], fun e he => ?_, ?_, by simp [initial],
    fun i => ?_⟩
  · refine ⟨rfl, rfl, ?_, ?_⟩ <;>
      simp only [Tiles, Extent.stop, Extent.trailing, sentinelUnits] <;> omega
  · simp only [initial, List.mem_cons, List.not_mem_nil, or_false] at he
    rcases he with rfl | rfl | rfl
    · exact .inl rfl
    · refine .inr (.inr ?_)
      simp only [sentinelUnits, minBlockUnits]
      omega
    · exact .inr (.inl rfl)
  · simp [initial, Extent.leading, Extent.trailing]
  · simp [initial, Extent.leading, Extent.trailing, @eq_comm _ sentinelUnits]

/-! ## The search -/

/-- The heap takes the units that are needed, unless they are too many. -/
theorem unitsFor_eq (bytes : Nat) :
    unitsFor bytes = if 2 ^ 60 ≤ unitsNeeded bytes then none else some (unitsNeeded bytes) := by
  have hneeded : unitsNeeded bytes = max 4 ((bytes + 7) / 8 + 2) := rfl
  simp only [unitsFor, maxRequestUnits, minBlockUnits, unitBytes, tagUnits, ← hneeded]
  split <;> split <;> first | rfl | omega

theorem unitsFor_eq_some {bytes : Nat} : unitsFor bytes = some units ↔
    ¬2 ^ 60 ≤ unitsNeeded bytes ∧ unitsNeeded bytes = units := by
  rw [unitsFor_eq]
  split
  · rename_i hlarge
    exact ⟨nofun, fun h => absurd hlarge h.1⟩
  · rename_i hsmall
    exact ⟨fun h => ⟨hsmall, Option.some.inj h⟩, fun h => congrArg some h.2⟩

theorem mem_of_bestFit (h : p.bestFit units = some i) :
    i ∈ p.avail.take 20 ∧ units ≤ p.sizeAt i := by
  have := List.argmin_mem h
  simpa using this

/-- Nothing is found exactly when none of the first few free blocks is large enough. -/
theorem bestFit_eq_none (units : Nat) :
    p.bestFit units = none ↔ ∀ i ∈ p.avail.take 20, p.sizeAt i < units := by
  simp [bestFit, List.argmin_eq_none, List.filter_eq_nil_iff]

end Plan

end BareKernel.Heap
