import Mathlib.Tactic.Common
import BareKernel.Sync.Program

/-! What cores at work did so far: every try of an operation, in order, with the reply that it got
or none. The replies that one core got decide where its program stands, and a history can be cut
anywhere: what comes first is the history of an earlier moment. -/

namespace BareKernel.Sync

variable {σ : Type} {M : Machine σ} {ε α β : Type}

/-- An operation and the reply that it got. -/
structure Answer (M : Machine σ) where
  op : M.Op
  reply : M.Reply op

/-- A try of an operation by the core at this place in the crew. -/
structure Attempt (M : Machine σ) where
  core : Nat
  op : M.Op
  reply : Option (M.Reply op)

namespace Attempt

def answer? (a : Attempt M) : Option (Answer M) := a.reply.map (Answer.mk a.op)

end Attempt

/-- The replies that core `i` got. -/
def answersOf (h : List (Attempt M)) (i : Nat) : List (Answer M) :=
  h.filterMap fun a => if a.core = i then a.answer? else none

@[simp] theorem answersOf_append (h h' : List (Attempt M)) (i : Nat) :
    answersOf (h ++ h') i = answersOf h i ++ answersOf h' i :=
  List.filterMap_append

theorem answersOf_answered (i j : Nat) (o : M.Op) (r : M.Reply o) :
    answersOf [⟨i, o, some r⟩] j = if i = j then [⟨o, r⟩] else [] := by
  by_cases hij : i = j <;> simp [answersOf, Attempt.answer?, hij]

theorem answersOf_unanswered (i j : Nat) (o : M.Op) :
    answersOf [⟨i, o, none⟩] j = ([] : List (Answer M)) := by
  by_cases hij : i = j <;> simp [answersOf, Attempt.answer?, hij]

namespace Program

/-- With these replies, one after another, the first program becomes the second. -/
inductive After : Program M ε α → List (Answer M) → Program M ε α → Prop
  | nil (p : Program M ε α) : After p [] p
  | cons {o : M.Op} {k : M.Reply o → Program M ε α} {r : M.Reply o} {as : List (Answer M)}
      {q : Program M ε α} : After (k r) as q → After (op o k) (⟨o, r⟩ :: as) q

theorem After.append {p q r : Program M ε α} {as bs : List (Answer M)} (h : p.After as q)
    (h' : q.After bs r) : p.After (as ++ bs) r := by
  induction h with
  | nil p => exact h'
  | cons _ ih => exact .cons (ih h')

theorem After.snoc {p : Program M ε α} {as : List (Answer M)} {o : M.Op}
    {k : M.Reply o → Program M ε α} (h : p.After as (op o k)) (r : M.Reply o) :
    p.After (as ++ [⟨o, r⟩]) (k r) :=
  h.append (.cons (.nil _))

theorem after_done {a : α} {as : List (Answer M)} {q : Program M ε α}
    (h : (done a : Program M ε α).After as q) : as = [] ∧ q = done a := by
  cases h with
  | nil => exact ⟨rfl, rfl⟩

end Program

namespace Crew

variable {c d : Crew M ε α} {h : List (Attempt M)}

/-- What core `i` tries next; nothing once its program is over. -/
def attempt (c : Crew M ε α) (i : Nat) : List (Attempt M) :=
  match c.programs[i]? with
  | some (.op o _) => [⟨i, o, (M.perform o c.shared).1⟩]
  | _ => []

/-- What an interleaving of the cores can lead to, and its history. -/
inductive Runs (c : Crew M ε α) : List (Attempt M) → Crew M ε α → Prop
  | start : Runs c [] c
  | step {h : List (Attempt M)} {d : Crew M ε α} (i : Nat) :
      Runs c h d → Runs c (h ++ d.attempt i) (d.step i)

theorem reach_iff_exists_runs : c.Reach d ↔ ∃ h, c.Runs h d := by
  constructor
  · intro hr
    induction hr with
    | refl => exact ⟨[], .start⟩
    | step i _ ih =>
      obtain ⟨h, hr⟩ := ih
      exact ⟨_, hr.step i⟩
  · rintro ⟨h, hr⟩
    induction hr with
    | start => exact .refl
    | step i _ ih => exact ih.step i

theorem set_of_getElem? {l : List β} {i : Nat} {x : β} (h : l[i]? = some x) : l.set i x = l := by
  obtain ⟨hi, rfl⟩ := List.getElem?_eq_some_iff.mp h
  exact List.set_getElem_self hi

/-- A try that gets a reply. -/
theorem step_answered {i : Nat} {o : M.Op} {k : M.Reply o → Program M ε α} {r : M.Reply o} {s : σ}
    (hp : d.programs[i]? = some (.op o k)) (hs : M.perform o d.shared = (some r, s)) :
    d.attempt i = [⟨i, o, some r⟩] ∧ d.step i = ⟨s, d.programs.set i (k r)⟩ := by
  simp only [attempt, step, hp, Program.step, hs, and_self]

/-- A try in vain. -/
theorem step_waiting {i : Nat} {o : M.Op} {k : M.Reply o → Program M ε α} {s : σ}
    (hp : d.programs[i]? = some (.op o k)) (hs : M.perform o d.shared = (none, s)) :
    d.attempt i = [⟨i, o, none⟩] ∧ d.step i = ⟨s, d.programs⟩ := by
  simp only [attempt, step, hp, Program.step, hs, set_of_getElem? hp, and_self]

/-- A core without a program, or with one that is over, does nothing. -/
theorem step_idle {i : Nat} (hp : ∀ o k, d.programs[i]? ≠ some (.op o k)) :
    d.attempt i = [] ∧ d.step i = d := by
  cases hq : d.programs[i]? with
  | none => simp only [attempt, step, hq, and_self]
  | some p =>
    cases p with
    | done a => simp only [attempt, step, hq, Program.step, set_of_getElem? hq, and_self]
    | stop e => simp only [attempt, step, hq, Program.step, set_of_getElem? hq, and_self]
    | op o k => exact absurd hq (hp o k)

theorem Runs.answered {i : Nat} {o : M.Op} {k : M.Reply o → Program M ε α} {r : M.Reply o} {s : σ}
    (hr : c.Runs h d) (hp : d.programs[i]? = some (.op o k))
    (hs : M.perform o d.shared = (some r, s)) :
    c.Runs (h ++ [⟨i, o, some r⟩]) ⟨s, d.programs.set i (k r)⟩ := by
  obtain ⟨ha, hd⟩ := step_answered hp hs
  rw [← ha, ← hd]
  exact hr.step i

/-- What a step of core `i` can be: nothing, a reply, or a try in vain. -/
inductive Stepped (d : Crew M ε α) (i : Nat) : List (Attempt M) → Crew M ε α → Prop
  | idle : Stepped d i [] d
  | answered {o : M.Op} {k : M.Reply o → Program M ε α} {r : M.Reply o} {s : σ}
      (hp : d.programs[i]? = some (.op o k)) (hs : M.perform o d.shared = (some r, s)) :
      Stepped d i [⟨i, o, some r⟩] ⟨s, d.programs.set i (k r)⟩
  | waiting {o : M.Op} {k : M.Reply o → Program M ε α} {s : σ}
      (hp : d.programs[i]? = some (.op o k)) (hs : M.perform o d.shared = (none, s)) :
      Stepped d i [⟨i, o, none⟩] ⟨s, d.programs⟩

theorem stepped (d : Crew M ε α) (i : Nat) : d.Stepped i (d.attempt i) (d.step i) := by
  by_cases hp : ∃ o k, d.programs[i]? = some (.op o k)
  · obtain ⟨o, k, hp⟩ := hp
    rcases hs : M.perform o d.shared with ⟨_ | r, s⟩
    · obtain ⟨ha, hd⟩ := step_waiting hp hs
      rw [ha, hd]
      exact .waiting hp hs
    · obtain ⟨ha, hd⟩ := step_answered hp hs
      rw [ha, hd]
      exact .answered hp hs
  · obtain ⟨ha, hd⟩ := step_idle fun o k h => hp ⟨o, k, h⟩
    rw [ha, hd]
    exact .idle

/-- A step is one operation on what is shared, or nothing. -/
theorem attempt_cases (d : Crew M ε α) (i : Nat) :
    (d.attempt i = [] ∧ (d.step i).shared = d.shared) ∨
      ∃ o k, d.programs[i]? = some (.op o k) ∧
        d.attempt i = [⟨i, o, (M.perform o d.shared).1⟩] ∧
        (d.step i).shared = (M.perform o d.shared).2 := by
  have hcase := d.stepped i
  generalize d.attempt i = a at hcase
  generalize d.step i = e at hcase
  cases hcase with
  | idle => exact .inl ⟨rfl, rfl⟩
  | answered hp hs => exact .inr ⟨_, _, hp, by rw [hs], by rw [hs]⟩
  | waiting hp hs => exact .inr ⟨_, _, hp, by rw [hs], by rw [hs]⟩

/-- The replies that a core got have led its program to where it stands. -/
theorem Runs.after {c d : Crew M ε α} {i : Nat} {p : Program M ε α} (hr : c.Runs h d)
    (hp : c.programs[i]? = some p) : ∃ q, d.programs[i]? = some q ∧ p.After (answersOf h i) q := by
  induction hr with
  | start => exact ⟨p, hp, .nil p⟩
  | @step h d j _ ih =>
    obtain ⟨q, hq, hafter⟩ := ih
    have hcase := d.stepped j
    generalize d.attempt j = a at hcase
    generalize d.step j = d' at hcase
    cases hcase with
    | idle =>
      rw [List.append_nil]
      exact ⟨q, hq, hafter⟩
    | @answered o k r s hj hs =>
      rw [answersOf_append, answersOf_answered]
      by_cases hij : j = i
      · subst hij
        obtain rfl := Option.some.inj (hq.symm.trans hj)
        obtain ⟨hlt, -⟩ := List.getElem?_eq_some_iff.mp hj
        rw [if_pos rfl]
        exact ⟨k r, List.getElem?_set_self hlt, hafter.snoc r⟩
      · rw [if_neg hij, List.append_nil]
        exact ⟨q, (List.getElem?_set_ne hij).trans hq, hafter⟩
    | waiting hj hs =>
      rw [answersOf_append, answersOf_unanswered, List.append_nil]
      exact ⟨q, hq, hafter⟩

/-- A core that is no part of the crew does nothing. -/
theorem Runs.answersOf_eq_nil {c d : Crew M ε α} {i : Nat} (hr : c.Runs h d)
    (hi : c.programs[i]? = none) : answersOf h i = [] ∧ d.programs[i]? = none := by
  induction hr with
  | start => exact ⟨rfl, hi⟩
  | @step h d j _ ih =>
    obtain ⟨hnil, hnone⟩ := ih
    have hcase := d.stepped j
    generalize d.attempt j = a at hcase
    generalize d.step j = d' at hcase
    cases hcase with
    | idle =>
      rw [List.append_nil]
      exact ⟨hnil, hnone⟩
    | @answered o k r s hj hs =>
      have hij : j ≠ i := fun h => by simp [h, hnone] at hj
      rw [answersOf_append, answersOf_answered, if_neg hij, List.append_nil]
      exact ⟨hnil, (List.getElem?_set_ne hij).trans hnone⟩
    | waiting hj hs =>
      rw [answersOf_append, answersOf_unanswered, List.append_nil]
      exact ⟨hnil, hnone⟩

/-- The moment of a try: what had happened before, who was about to do what, and that the try
came out as the history says. -/
theorem Runs.at_attempt {c d : Crew M ε α} {before after : List (Attempt M)} {a : Attempt M}
    (hr : c.Runs (before ++ a :: after) d) :
    ∃ e k, c.Runs before e ∧ e.programs[a.core]? = some (.op a.op k) ∧
      (M.perform a.op e.shared).1 = a.reply := by
  generalize hh : before ++ a :: after = h at hr
  induction hr generalizing after with
  | start => simp at hh
  | @step h d i hr ih =>
    cases hs : d.attempt i with
    | nil =>
      rw [hs, List.append_nil] at hh
      exact ih hh
    | cons b rest =>
      obtain ⟨o, k, hp, rfl, rfl⟩ : ∃ o k, d.programs[i]? = some (.op o k) ∧
          b = ⟨i, o, (M.perform o d.shared).1⟩ ∧ rest = [] := by
        unfold attempt at hs
        split at hs
        · rename_i o k hp
          obtain ⟨rfl, rfl⟩ := List.cons.inj hs
          exact ⟨o, k, hp, rfl, rfl⟩
        · cases hs
      rw [hs] at hh
      rcases List.eq_nil_or_concat after with rfl | ⟨after, z, rfl⟩
      · obtain ⟨rfl, ha⟩ := List.append_inj' hh rfl
        obtain rfl := List.singleton_inj.mp ha
        exact ⟨d, k, hr, hp, rfl⟩
      · rw [List.concat_eq_append, ← List.cons_append, ← List.append_assoc] at hh
        exact ih (List.append_inj' hh rfl).1

end Crew

end BareKernel.Sync
