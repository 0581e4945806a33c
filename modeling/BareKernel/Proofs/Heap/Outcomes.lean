import Mathlib.Data.List.Chain
import BareKernel.Proofs.Heap.Represents

/-! How heap code ends on an arena that may hold anything. It returns, or it reports damage and has
changed nothing, or it faults: it asked for a unit outside the arena, for a sum that is too large or
for a block without room for its tags. The check of one block never faults, and says exactly whether
the block is intact. -/

namespace BareKernel.Heap

namespace Action

variable {α β : Type} {x : Action α} {k : α → Action β} {a : α} {h h' : Heap} {e : Error}
  {f : Fault}

/-- Run from `h`, the action tells its caller of damage, and nothing has changed. -/
def Reports (x : Action α) (h : Heap) : Prop :=
  ∃ e : Error, e.isCorruption = true ∧ x.run h = (.error (.error e), h)

theorem Reports.fail (he : e.isCorruption = true) (h : Heap) :
    (Action.fail (.error e) : Action α).Reports h := ⟨e, he, rfl⟩

theorem Reports.bind (hx : x.Reports h) : (x >>= k).Reports h := by
  obtain ⟨e, he, hx⟩ := hx
  exact ⟨e, he, by rw [run_bind, hx]⟩

theorem Returns.reports (hx : x.Returns h a h) (hk : (k a).Reports h) : (x >>= k).Reports h := by
  obtain ⟨e, he, hk⟩ := hk
  exact ⟨e, he, by rw [run_bind, hx]; exact hk⟩

/-- Run from `h`, the action comes back: no fault stops it. -/
def Answers (x : Action α) (h : Heap) : Prop := ∀ f, ¬x.Faults h f

theorem Returns.answers (hx : x.Returns h a h') : x.Answers h := by
  intro f hf
  rw [Faults, hx] at hf
  cases hf

theorem Reports.answers (hx : x.Reports h) : x.Answers h := by
  obtain ⟨e, -, hx⟩ := hx
  intro f hf
  rw [Faults, hx] at hf
  cases hf

theorem Returns.not_reports (hx : x.Returns h a h') : ¬x.Reports h := by
  rintro ⟨e, -, he⟩
  rw [hx] at he
  cases he

theorem answers_iff (x : Action α) (h : Heap) : x.Answers h ↔
    (∃ a, (x.run h).1 = .ok a) ∨ ∃ e : Error, (x.run h).1 = .error (.error e) := by
  unfold Answers Faults
  rcases (x.run h).1 with (e | f) | a <;> simp

/-- What is made of an answer does not matter. -/
theorem answers_map {f : α → β} : (x >>= fun a => pure (f a)).Answers h ↔ x.Answers h := by
  simp only [answers_iff, run_bind]
  rcases x.run h with ⟨(e | f) | a, h'⟩ <;> simp

theorem ReturnsIff.answers_iff {P : Prop} (hx : x.ReturnsIff h P a h') : x.Answers h ↔ P := by
  refine ⟨fun hans => by_contra fun hn => ?_, fun hp => (hx.returns hp).answers⟩
  obtain ⟨f, hf⟩ := hx.faults hn
  exact hans f hf

end Action

open Heap.Action (Returns Reports Faults ReturnsIff)

variable {h h' : Heap} {i j x : Nat} {l : List Nat} {checks : Bool}

/-! ## One block -/

/-- Both tags of the block at `i` are in the arena and agree. -/
structure Intact (h : Heap) (i : Nat) : Prop where
  pos : h.sizeAt i ≠ 0
  inside : i + h.sizeAt i ≤ h.arena.len
  agree : h.unit i = h.unit (i + h.sizeAt i - 1)

/-- A free block is intact at `i`, which is not the index that stands for no block. -/
structure FreeAt (h : Heap) (i : Nat) : Prop where
  ne_zero : i ≠ 0
  intact : h.Intact i
  free : isFreeTag (h.unit i) = true

instance (h : Heap) (i : Nat) : Decidable (h.Intact i) :=
  decidable_of_iff (h.sizeAt i ≠ 0 ∧ i + h.sizeAt i ≤ h.arena.len ∧
      h.unit i = h.unit (i + h.sizeAt i - 1))
    ⟨fun ⟨h₁, h₂, h₃⟩ => ⟨h₁, h₂, h₃⟩, fun hi => ⟨hi.pos, hi.inside, hi.agree⟩⟩

instance (h : Heap) (i : Nat) : Decidable (h.FreeAt i) :=
  decidable_of_iff (i ≠ 0 ∧ h.Intact i ∧ isFreeTag (h.unit i) = true)
    ⟨fun ⟨h₁, h₂, h₃⟩ => ⟨h₁, h₂, h₃⟩, fun hi => ⟨hi.ne_zero, hi.intact, hi.free⟩⟩

theorem Intact.lt (hi : h.Intact i) : i < h.arena.len := by
  have h₁ := hi.pos
  have h₂ := hi.inside
  omega

theorem FreeAt.lt (hi : h.FreeAt i) : i < h.arena.len := hi.intact.lt

/-- A free block that is the last unit of the arena is that one unit. -/
theorem freeAt_last_iff (hl : 2 ≤ h.arena.len) :
    h.FreeAt (h.arena.len - 1) ↔ h.unit (h.arena.len - 1) = freeTag 1 := by
  have hone : (freeTag 1).toInt = 1 := toInt_freeTag (by decide)
  constructor
  · rintro ⟨-, hi, hf⟩
    have h₁ := hi.pos
    have h₂ := hi.inside
    simp only [isFreeTag, decide_eq_true_eq] at hf
    rw [← Int64.toInt_inj, hone]
    unfold sizeAt sizeOfTag at h₁ h₂
    omega
  · intro hu
    have hs : h.sizeAt (h.arena.len - 1) = 1 := by rw [sizeAt, hu, sizeOfTag, hone]; rfl
    refine ⟨by omega, ⟨by omega, by omega, ?_⟩, ?_⟩
    · rw [hs, Nat.add_sub_cancel]
    · rw [hu, isFreeTag, hone]
      rfl

theorem Tagged.intact {e : Extent} (ht : h.Tagged e) : h.Intact e.start := by
  refine ⟨?_, ?_, ?_⟩ <;> rw [ht.sizeAt_eq]
  · exact ht.pos.ne'
  · exact ht.inside
  · exact ht.first.trans ht.last.symm

namespace Block

theorem check_intact (hi : h.Intact i) : (check h.arena.len ⟨i⟩).Returns h () h :=
  check_returns hi.pos hi.inside hi.agree

/-- A block that is not intact is reported, whatever its tags say. -/
theorem check_reports (hi : ¬h.Intact i) : (check h.arena.len ⟨i⟩).Reports h := by
  unfold check
  by_cases hlt : h.arena.len ≤ i
  · rw [if_pos hlt]
    exact .bind (.fail rfl h)
  rw [if_neg hlt]
  have hlt : i < h.arena.len := Nat.not_le.mp hlt
  refine (size_returns (b := ⟨i⟩) hlt).reports ?_
  change Reports (if h.sizeAt i = 0 then _ else _) h
  by_cases h₀ : h.sizeAt i = 0
  · rw [if_pos h₀]
    exact .bind (.fail rfl h)
  rw [if_neg h₀]
  refine (plus_size_returns hlt i).reports ?_
  by_cases hin : h.arena.len < i + h.sizeAt i
  · rw [if_pos hin]
    exact .bind (.fail rfl h)
  rw [if_neg hin]
  have hlast : i + h.sizeAt i - 1 < h.arena.len := by omega
  refine (tag_returns (b := ⟨i⟩) hlt).reports ((footerTag_returns (b := ⟨i⟩) hlt hlast).reports ?_)
  rw [if_pos fun hu => hi ⟨h₀, Nat.not_lt.mp hin, hu⟩]
  exact .fail rfl h

/-- A link that would be outside the arena cannot be read. -/
theorem next_faults (hi : i < h.arena.len) (ho : h.arena.len ≤ i + 1) :
    (next ⟨i⟩).Faults h .outsideArena := by
  have hlen := h.arena.len_lt
  have hplus : (Action.plus i 1).Returns h (i + 1) h := .plus (by omega)
  exact hplus.faults (.bind (.read ho))

theorem prev_faults (hi : i < h.arena.len) (ho : h.arena.len ≤ i + 2) :
    (prev ⟨i⟩).Faults h .outsideArena := by
  have hlen := h.arena.len_lt
  have hplus : (Action.plus i 2).Returns h (i + 2) h := .plus (by omega)
  exact hplus.faults (.bind (.read ho))

end Block

end BareKernel.Heap
