import BareKernel.Proofs.Sync.History

/-! Schedules of cores. What a crew comes to when each core in turn runs as far as it gets alone is
one of its interleavings; and a core whose operations are always answered comes to its end within as
many of its own steps, whatever the others do. -/

namespace BareKernel.Sync

variable {σ : Type} {M : Machine σ} {ε α β : Type}

/-! ## One program -/

namespace Program

/-- Where a program of two parts stands is a place in the first or in the second. -/
theorem After.of_bind {p : Program M ε α} {f : α → Program M ε β} {as : List (Answer M)}
    {q : Program M ε β} (h : (p >>= f).After as q) :
    (∃ p', p.After as p' ∧ q = p' >>= f) ∨
      ∃ bs cs a, as = bs ++ cs ∧ p.After bs (done a) ∧ (f a).After cs q := by
  induction p generalizing as with
  | done a => exact .inr ⟨[], as, a, rfl, .nil _, h⟩
  | stop e =>
    cases h with
    | nil => exact .inl ⟨stop e, .nil _, rfl⟩
  | op o k ih =>
    cases h with
    | nil => exact .inl ⟨op o k, .nil _, rfl⟩
    | cons h =>
      rcases ih _ h with ⟨p', hp, rfl⟩ | ⟨bs, cs, a, rfl, hp, hf⟩
      · exact .inl ⟨p', .cons hp, rfl⟩
      · exact .inr ⟨_ :: bs, cs, a, rfl, .cons hp, hf⟩

/-- What comes second is not done before it has started. -/
theorem bind_ne_done {p : Program M ε α} {f : α → Program M ε β} {c : β}
    (hf : ∀ a, f a ≠ done c) : p >>= f ≠ done c := by
  cases p with
  | done a => exact hf a
  | stop e => exact nofun
  | op o k => exact nofun

/-- No operation waits, and whatever the replies, at most `n` of them lead to this end. -/
inductive EndsWithin (a : α) : Nat → Program M ε α → Prop
  | done {n : Nat} : EndsWithin a n (done a)
  | op {n : Nat} {o : M.Op} {k : M.Reply o → Program M ε α} :
      (∀ s, (M.perform o s).1.isSome = true) → (∀ r, EndsWithin a n (k r)) →
      EndsWithin a (n + 1) (op o k)

end Program

namespace Crew

variable {c d e : Crew M ε α} {h h' : List (Attempt M)} {i j : Nat} {p : Program M ε α}

/-! ## Interleavings -/

theorem Reach.trans (hcd : c.Reach d) (hde : d.Reach e) : c.Reach e := by
  induction hde with
  | refl => exact hcd
  | step i _ ih => exact ih.step i

/-- A history goes on from any moment of it. -/
theorem Runs.append (hr : c.Runs h d) (hr' : d.Runs h' e) : c.Runs (h ++ h') e := by
  induction hr' with
  | start => rwa [List.append_nil]
  | step i _ ih =>
    rw [← List.append_assoc]
    exact ih.step i

/-- What the cores do when they take these turns. -/
def historyOf (c : Crew M ε α) : List Nat → List (Attempt M)
  | [] => []
  | j :: js => c.attempt j ++ (c.step j).historyOf js

theorem runs_historyOf (c : Crew M ε α) (js : List Nat) :
    c.Runs (c.historyOf js) (js.foldl step c) := by
  induction js generalizing c with
  | nil => exact .start
  | cons j js ih =>
    have hfirst : c.Runs (c.attempt j) (c.step j) := Runs.start.step j
    exact hfirst.append (ih (c.step j))

/-- Any schedule has its history. -/
theorem exists_runs_foldl (js : List Nat) (c : Crew M ε α) : ∃ h, c.Runs h (js.foldl step c) := by
  induction js generalizing c with
  | nil => exact ⟨[], .start⟩
  | cons j js ih =>
    obtain ⟨h, hr⟩ := ih (c.step j)
    exact ⟨_, (Runs.start.step j).append hr⟩

theorem getElem?_step_self (hp : c.programs[i]? = some p) :
    (c.step i).programs[i]? = some (p.step c.shared).1 := by
  obtain ⟨hi, -⟩ := List.getElem?_eq_some_iff.mp hp
  simp only [step, hp]
  exact List.getElem?_set_self hi

theorem getElem?_step_ne (hij : i ≠ j) : (c.step i).programs[j]? = c.programs[j]? := by
  unfold step
  split
  · rfl
  · exact List.getElem?_set_ne hij

/-- A core that waits for nobody comes to its end in so many steps of its own. -/
theorem done_of_endsWithin {a : α} {n : Nat} {js : List Nat} (hp : c.programs[i]? = some p)
    (he : p.EndsWithin a n) (hn : n ≤ js.count i) :
    (js.foldl step c).programs[i]? = some (.done a) := by
  induction js generalizing c p n with
  | nil =>
    obtain rfl : n = 0 := Nat.le_zero.mp hn
    cases he with
    | done => exact hp
  | cons j js ih =>
    rw [List.foldl_cons]
    by_cases hij : j = i
    · subst hij
      rw [List.count_cons_self] at hn
      cases he with
      | @done n =>
        exact ih (getElem?_step_self hp) (.done (n := 0)) (Nat.zero_le _)
      | @op n o k hsome hk =>
        obtain ⟨r, hr⟩ := Option.isSome_iff_exists.mp (hsome c.shared)
        refine ih (p := k r) ?_ (hk r) (Nat.le_of_succ_le_succ hn)
        rw [getElem?_step_self hp, Program.step]
        generalize M.perform o c.shared = q at hr
        obtain ⟨q, s⟩ := q
        obtain rfl : q = some r := hr
        rfl
    · rw [List.count_cons_of_ne hij] at hn
      exact ih ((getElem?_step_ne hij).trans hp) he hn

/-! ## Each core as far as it gets -/

/-- Tries of one operation. -/
theorem reach_settle {s s' : σ} {programs : List (Program M ε α)} {o : M.Op}
    {k : M.Reply o → Program M ε α} {r : Option (M.Reply o)} (n : Nat)
    (hp : programs[i]? = some (.op o k)) (hs : M.settle o n s = (r, s')) :
    (Crew.mk s programs).Reach ⟨s', programs.set i (r.elim (.op o k) k)⟩ := by
  have hone : ∀ {s s' r}, M.perform o s = (r, s') →
      (Crew.mk s programs).Reach ⟨s', programs.set i (r.elim (.op o k) k)⟩ := by
    intro s s' r hq
    have hstep := Reach.step i (.refl (c := Crew.mk s programs))
    simp only [step, hp, Program.step, hq] at hstep
    cases r <;> exact hstep
  induction n generalizing s with
  | zero => exact hone hs
  | succ n ih =>
    rw [Machine.settle] at hs
    rcases hq : M.perform o s with ⟨_ | q, s₁⟩
    · simp only [hq] at hs
      have h := hone hq
      rw [Option.elim, set_of_getElem? hp] at h
      exact h.trans (ih hs)
    · simp only [hq] at hs
      obtain ⟨rfl, rfl⟩ := Prod.mk.inj hs
      exact hone hq

theorem reach_advance {s : σ} {programs : List (Program M ε α)} (hp : programs[i]? = some p) :
    (Crew.mk s programs).Reach ⟨(p.advance s).2, programs.set i (p.advance s).1⟩ := by
  induction p generalizing s programs with
  | done a =>
    rw [Program.advance, set_of_getElem? hp]
    exact .refl
  | stop e =>
    rw [Program.advance, set_of_getElem? hp]
    exact .refl
  | op o k ih =>
    obtain ⟨hi, -⟩ := List.getElem?_eq_some_iff.mp hp
    rcases hs : M.settle o (M.patience s) s with ⟨_ | r, s'⟩
    · simp only [Program.advance, hs]
      exact reach_settle _ hp hs
    · simp only [Program.advance, hs]
      have hk : (programs.set i (k r))[i]? = some (k r) := List.getElem?_set_self hi
      have hnext := ih r (s := s') hk
      rw [List.set_set] at hnext
      exact (reach_settle _ hp hs).trans hnext

theorem reach_advanceAll (before rest : List (Program M ε α)) (s : σ) :
    (Crew.mk s (before ++ rest)).Reach
      ⟨(advanceAll rest s).2, before ++ (advanceAll rest s).1⟩ := by
  induction rest generalizing before s with
  | nil => exact .refl
  | cons p rest ih =>
    have hp : (before ++ p :: rest)[before.length]? = some p := by simp
    have hone := reach_advance (s := s) hp
    have hset : (before ++ p :: rest).set before.length (p.advance s).1 =
        before ++ [(p.advance s).1] ++ rest := by simp
    rw [hset] at hone
    have hrest := ih (before ++ [(p.advance s).1]) (p.advance s).2
    rw [List.append_assoc, List.append_assoc] at hrest
    rw [List.append_assoc] at hone
    exact hone.trans hrest

theorem reach_sweep (c : Crew M ε α) : c.Reach c.sweep := reach_advanceAll [] c.programs c.shared

/-- Cores that take turns do nothing that an interleaving could not. -/
theorem reach_run (n : Nat) (c : Crew M ε α) : c.Reach (c.run n) := by
  induction n generalizing c with
  | zero => exact .refl
  | succ n ih => exact (reach_sweep c).trans (ih c.sweep)

end Crew

end BareKernel.Sync
