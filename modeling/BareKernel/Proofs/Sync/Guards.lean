import Mathlib.Tactic.Common
import BareKernel.Sync.SpinLock

/-! Parties at one lock. Each of them takes the lock, tries it, or ends a guard of its own, one move
after another in any order. The lock is held exactly while its one guard is alive for as long as no
try fails: a try that fails ends a guard that it never handed out, and frees the lock. -/

namespace BareKernel.Sync

namespace GuardedLock

variable {g g' : GuardedLock}

theorem tryLock_free (h : g.lock.taken = false) : g.tryLock = (true, ⟨⟨true⟩, g.guards + 1⟩) := by
  simp [tryLock, SpinLock.tryAcquire, h]

/-- The guard that was made before the outcome was known ends, and its end frees the lock. -/
theorem tryLock_held (h : g.lock.taken = true) : g.tryLock = (false, ⟨⟨false⟩, g.guards⟩) := by
  simp [tryLock, SpinLock.tryAcquire, SpinLock.release, h]

/-- Whoever gets past `lock?` found the lock free. -/
theorem of_lock?_eq_some (h : g.lock? = some g') :
    g.lock.taken = false ∧ g' = ⟨⟨true⟩, g.guards + 1⟩ := by
  cases ht : g.lock.taken <;> simp_all [lock?, acquire?, SpinLock.tryAcquire]

end GuardedLock

inductive Move where
  | lock
  | tryLock
  | lockIf (enabled : Bool)
  | drop
  deriving DecidableEq, Repr

/-- A lock and the parties that have a guard of it, one entry for each guard. -/
structure Scene where
  lock : GuardedLock := {}
  owners : List Nat := []
  deriving DecidableEq, Repr

namespace Scene

/-- The guard, if the answer is that there is one, is `who`'s. -/
def award (s : Scene) (who : Nat) (r : Bool × GuardedLock) : Scene :=
  ⟨r.2, if r.1 then who :: s.owners else s.owners⟩

/-- Nothing while the move has to wait, and for a party without a guard to end. -/
def move (s : Scene) (who : Nat) : Move → Option Scene
  | .lock => s.lock.lock?.map fun g => s.award who (true, g)
  | .tryLock => some (s.award who s.lock.tryLock)
  | .lockIf enabled => (s.lock.lockIf? enabled).map (s.award who)
  | .drop =>
    if who ∈ s.owners then some ⟨s.lock.dropGuard.2, s.owners.erase who⟩ else none

/-- There is at most one guard, some party's, and the lock is held exactly while there is one. -/
structure Disciplined (s : Scene) : Prop where
  owned : s.owners.length = s.lock.guards
  one : s.lock.guards ≤ 1
  held : s.lock.lock.taken = true ↔ 0 < s.lock.guards

instance (s : Scene) : Decidable s.Disciplined :=
  decidable_of_iff (s.owners.length = s.lock.guards ∧ s.lock.guards ≤ 1 ∧
      (s.lock.lock.taken = true ↔ 0 < s.lock.guards))
    ⟨fun ⟨h₁, h₂, h₃⟩ => ⟨h₁, h₂, h₃⟩, fun h => ⟨h.owned, h.one, h.held⟩⟩

/-- The move is a try that gets no guard. -/
def Fails (s : Scene) (m : Move) : Prop := m = .tryLock ∧ s.lock.tryLock.1 = false

instance (s : Scene) (m : Move) : Decidable (s.Fails m) := inferInstanceAs (Decidable (_ ∧ _))

/-- At every point of the run there is discipline, and a try that fails leaves the lock as it was.
The run ends early where a party would wait for ever. -/
def Orderly (s : Scene) : List (Nat × Move) → Prop
  | [] => s.Disciplined
  | (who, m) :: rest => s.Disciplined ∧ (s.Fails m → s.lock.tryLock.2.lock = s.lock.lock) ∧
      ∀ t ∈ s.move who m, t.Orderly rest

/-- No try of the run fails. -/
def Unfailing (s : Scene) : List (Nat × Move) → Prop
  | [] => True
  | (who, m) :: rest => ¬s.Fails m ∧ ∀ t ∈ s.move who m, t.Unfailing rest

instance decidableOrderly (s : Scene) : (moves : List (Nat × Move)) → Decidable (s.Orderly moves)
  | [] => inferInstanceAs (Decidable s.Disciplined)
  | (who, m) :: rest =>
    have := fun t => decidableOrderly t rest
    inferInstanceAs (Decidable (s.Disciplined ∧ (s.Fails m → s.lock.tryLock.2.lock = s.lock.lock) ∧
      ∀ t ∈ s.move who m, t.Orderly rest))

variable {s t : Scene} {who : Nat} {m : Move}

/-- A try fails when the lock is held, and then the lock is held no longer. -/
theorem Fails.frees (hf : s.Fails m) :
    s.lock.lock.taken = true ∧ s.lock.tryLock.2.lock.taken = false := by
  cases ht : s.lock.lock.taken with
  | false => simp [Fails, GuardedLock.tryLock_free ht] at hf
  | true => exact ⟨rfl, by rw [GuardedLock.tryLock_held ht]⟩

namespace Disciplined

theorem start : ({} : Scene).Disciplined := by decide

/-- A guard for a party that finds the lock free. -/
theorem acquire (hs : s.Disciplined) (hf : s.lock.lock.taken = false) (who : Nat) :
    (s.award who (true, ⟨⟨true⟩, s.lock.guards + 1⟩)).Disciplined := by
  have h₀ : s.lock.guards = 0 := by
    have := mt hs.held.mpr (by simp [hf])
    omega
  refine ⟨?_, ?_, ?_⟩ <;> simp [award, hs.owned, h₀]

/-- The only guard ends, and with it the lock is free. -/
theorem drop (hs : s.Disciplined) (hw : who ∈ s.owners) :
    (Scene.mk s.lock.dropGuard.2 (s.owners.erase who)).Disciplined := by
  have hpos : 0 < s.owners.length := List.length_pos_of_mem hw
  have h₁ : s.lock.guards = 1 := by
    have := hs.owned
    have := hs.one
    omega
  have hlen := List.length_erase_of_mem hw
  refine ⟨?_, ?_, ?_⟩ <;>
    simp [GuardedLock.dropGuard, SpinLock.release, hlen, hs.owned, h₁]

/-- Every move but a try that fails keeps the discipline. -/
theorem move (hs : s.Disciplined) (hf : ¬s.Fails m) (hm : s.move who m = some t) :
    t.Disciplined := by
  cases m with
  | lock =>
    obtain ⟨g, hg, rfl⟩ := Option.map_eq_some_iff.mp hm
    obtain ⟨ht, rfl⟩ := GuardedLock.of_lock?_eq_some hg
    exact hs.acquire ht who
  | tryLock =>
    have ht : s.lock.lock.taken = false := by
      cases ht : s.lock.lock.taken with
      | false => rfl
      | true => exact absurd ⟨rfl, by rw [GuardedLock.tryLock_held ht]⟩ hf
    rw [Scene.move, GuardedLock.tryLock_free ht] at hm
    exact Option.some.inj hm ▸ hs.acquire ht who
  | lockIf enabled =>
    cases enabled with
    | false => exact Option.some.inj hm ▸ hs
    | true =>
      simp only [Scene.move, GuardedLock.lockIf?, if_true, Option.map_map] at hm
      obtain ⟨g, hg, rfl⟩ := Option.map_eq_some_iff.mp hm
      obtain ⟨ht, rfl⟩ := GuardedLock.of_lock?_eq_some hg
      exact hs.acquire ht who
  | drop =>
    simp only [Scene.move] at hm
    split at hm
    · exact Option.some.inj hm ▸ hs.drop ‹_›
    · cases hm

end Disciplined

theorem orderly_iff_unfailing_of_disciplined (hs : s.Disciplined) (moves : List (Nat × Move)) :
    s.Orderly moves ↔ s.Unfailing moves := by
  induction moves generalizing s with
  | nil => exact ⟨fun _ => trivial, fun _ => hs⟩
  | cons step rest ih =>
    obtain ⟨who, m⟩ := step
    constructor
    · rintro ⟨-, hkeep, hrest⟩
      have hf : ¬s.Fails m := by
        intro hf
        obtain ⟨ht, hfree⟩ := hf.frees
        rw [hkeep hf, ht] at hfree
        cases hfree
      exact ⟨hf, fun t ht => (ih (hs.move hf ht)).mp (hrest t ht)⟩
    · rintro ⟨hf, hrest⟩
      exact ⟨hs, fun h => absurd h hf, fun t ht => (ih (hs.move hf ht)).mpr (hrest t ht)⟩

/-- From a free lock, a run keeps its discipline exactly when none of its tries fails. -/
theorem orderly_iff_unfailing (moves : List (Nat × Move)) :
    Orderly {} moves ↔ Unfailing {} moves :=
  orderly_iff_unfailing_of_disciplined .start moves

/-- A try while somebody else holds the lock, after which a third party gets it as well. -/
theorem not_orderly_of_failed_try : ¬Orderly {} [(0, .lock), (1, .tryLock)] ∧
    ((Scene.move {} 0 .lock).bind fun s => (s.move 1 .tryLock).bind fun s =>
      s.move 2 .lock).map (·.owners) = some [2, 0] := by
  decide

end Scene

end BareKernel.Sync
