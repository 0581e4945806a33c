import BareKernel.Proofs.Sync.Schedule

/-! Which cores of a crew can go on by themselves. One that cannot, and whose tries leave what is
shared as it is, is an idle one: turns of idle cores lead nowhere. -/

namespace BareKernel.Sync

variable {σ : Type} {M : Machine σ} {ε α : Type}

theorem Machine.settle_of_perform {o : M.Op} {r : M.Reply o} {s s' : σ}
    (h : M.perform o s = (some r, s')) (n : Nat) : M.settle o n s = (some r, s') := by
  cases n with
  | zero => exact h
  | succ n => rw [Machine.settle, h]

theorem Machine.settle_succ {o : M.Op} {s s' : σ} (h : M.perform o s = (none, s')) (n : Nat) :
    M.settle o (n + 1) s = M.settle o n s' := by
  rw [Machine.settle, h]

/-- An operation that gets its reply is gone past. -/
theorem Program.advance_of_settle {o : M.Op} {r : M.Reply o} {s s' : σ}
    (h : M.settle o (M.patience s) s = (some r, s')) (k : M.Reply o → Program M ε α) :
    (Program.op o k).advance s = (k r).advance s' := by
  rw [advance, h]

/-- One that gets none is not. -/
theorem Program.advance_of_settle_none {o : M.Op} {s s' : σ}
    (h : M.settle o (M.patience s) s = (none, s')) (k : M.Reply o → Program M ε α) :
    (Program.op o k).advance s = (Program.op o k, s') := by
  rw [advance, h]

/-- What an operation is followed by is another program than itself. -/
theorem Program.next_ne {o : M.Op} {k : M.Reply o → Program M ε α} (r : M.Reply o) :
    k r ≠ .op o k := by
  have hpart : ∀ (p : Program M ε α) (o : M.Op) (k : M.Reply o → Program M ε α) (r : M.Reply o),
      p = .op o k → k r ≠ p := by
    intro p
    induction p with
    | done a => exact nofun
    | stop e => exact nofun
    | op o' k' ih =>
      rintro o k r h hr
      cases h
      exact ih r _ _ r hr rfl
  exact hpart _ o k r rfl

namespace Crew

variable {d : Crew M ε α} {i j : Nat} {js : List Nat}

/-- The core has an operation to do, and gets its reply before it has to give way. -/
def Moves (d : Crew M ε α) (i : Nat) : Prop :=
  ∃ o k, d.programs[i]? = some (.op o k) ∧
    (M.settle o (M.patience d.shared) d.shared).1.isSome = true

/-- A turn of the core changes nothing, and nobody gets a reply by it. -/
structure Idle (d : Crew M ε α) (i : Nat) : Prop where
  step : d.step i = d
  answers : ∀ j, answersOf (d.attempt i) j = []

theorem idle_of_over (hp : ∀ o k, d.programs[i]? ≠ some (.op o k)) : d.Idle i := by
  obtain ⟨ha, hs⟩ := step_idle hp
  refine ⟨hs, fun j => ?_⟩
  rw [ha]
  rfl

theorem idle_of_perform {o : M.Op} {k : M.Reply o → Program M ε α}
    (hp : d.programs[i]? = some (.op o k)) (hs : M.perform o d.shared = (none, d.shared)) :
    d.Idle i := by
  obtain ⟨ha, hd⟩ := step_waiting hp hs
  refine ⟨hd, fun j => ?_⟩
  rw [ha]
  exact answersOf_unanswered i j o

/-- A core that gets a reply has another program to go on with. -/
theorem step_ne_of_answered {o : M.Op} {k : M.Reply o → Program M ε α} {r : M.Reply o} {s : σ}
    (hp : d.programs[i]? = some (.op o k)) (hs : M.perform o d.shared = (some r, s)) :
    d.step i ≠ d := by
  intro h
  have hq := getElem?_step_self hp
  rw [h, hp, Program.step, hs] at hq
  exact Program.next_ne r (Option.some.inj hq).symm

/-- However often idle cores take turns, nobody gets a reply. -/
theorem answersOf_historyOf (hj : ∀ j ∈ js, d.Idle j) (i : Nat) :
    answersOf (d.historyOf js) i = [] := by
  induction js with
  | nil => rfl
  | cons j js ih =>
    obtain ⟨hidle, hrest⟩ := List.forall_mem_cons.mp hj
    rw [historyOf, answersOf_append, hidle.answers, hidle.step, List.nil_append]
    exact ih hrest

end Crew

end BareKernel.Sync
