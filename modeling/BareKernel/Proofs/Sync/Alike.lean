import BareKernel.Proofs.Sync.Protocol

/-! Programs that cannot be told apart. Two programs may differ in what they do after replies that
never come; among cores whose replies are all foreseen, one then goes for the other, and every
interleaving has the same history. -/

namespace BareKernel.Sync

variable {σ : Type} {M : Machine σ} {ε α β : Type}

namespace Protocol

variable {P : Protocol M ε} {φ : P.Phase} {p q : Program M ε α}

/-- As long as the replies from this phase on are foreseen, the second program does what the first
one does. -/
def Alike (P : Protocol M ε) : P.Phase → Program M ε α → Program M ε α → Prop
  | _, .done a, q => q = .done a
  | _, .stop e, q => q = .stop e
  | φ, .op o k, q =>
    ∃ k', q = .op o k' ∧ ∀ r, P.Foreseen φ o r → P.Alike (P.next φ o r) (k r) (k' r)

namespace Alike

theorem refl (p : Program M ε α) : P.Alike φ p p := by
  induction p generalizing φ with
  | done a => exact rfl
  | stop e => exact rfl
  | op o k ih => exact ⟨k, rfl, fun r _ => ih r⟩

/-- After the same first part, the rest may differ where that part does not lead. -/
theorem bind {f g : α → Program M ε β} (h : P.Follows (fun a ψ => P.Alike ψ (f a) (g a)) φ p) :
    P.Alike φ (p >>= f) (p >>= g) := by
  change P.Alike φ (p.bind f) (p.bind g)
  induction p generalizing φ with
  | done a => exact h
  | stop e => exact rfl
  | op o k ih => exact ⟨_, rfl, fun r hr => ih r (h.2 r hr)⟩

end Alike

variable {I : σ → List P.Phase → Prop} {Q : α → P.Phase → Prop} {start : List P.Phase}
  {h : List (Attempt M)} {c d : Crew M ε α} {qs : List (Program M ε α)} {i : Nat}

/-- Each of these programs is like the one in its place in the crew. -/
structure Beside (P : Protocol M ε) (φs : List P.Phase) (ps qs : List (Program M ε α)) : Prop where
  length : qs.length = ps.length
  alike : ∀ (i : Nat) (φ : P.Phase) (p : Program M ε α), φs[i]? = some φ → ps[i]? = some p →
    ∃ q, qs[i]? = some q ∧ P.Alike φ p q

theorem Beside.set {φs : List P.Phase} {ps : List (Program M ε α)} (hb : P.Beside φs ps qs)
    (ha : P.Alike φ p q) : P.Beside (φs.set i φ) (ps.set i p) (qs.set i q) where
  length := by rw [List.length_set, List.length_set, hb.length]
  alike := by
    intro j ψ p' hψ hp'
    by_cases hij : i = j
    · subst hij
      obtain ⟨hlt, -⟩ := List.getElem?_eq_some_iff.mp hψ
      obtain ⟨hlt', -⟩ := List.getElem?_eq_some_iff.mp hp'
      rw [List.length_set] at hlt hlt'
      rw [List.getElem?_set_self hlt] at hψ
      rw [List.getElem?_set_self hlt'] at hp'
      obtain rfl := Option.some.inj hψ
      obtain rfl := Option.some.inj hp'
      exact ⟨q, List.getElem?_set_self (hb.length ▸ hlt'), ha⟩
    · rw [List.getElem?_set_ne hij] at hψ hp'
      rw [List.getElem?_set_ne hij]
      exact hb.alike j ψ p' hψ hp'

/-- A step of one core is a step of the core beside it. -/
theorem Watched.step_beside (hk : P.Keeps I) (hw : P.Watched I Q start h d)
    (hb : P.Beside (P.phases start h) d.programs qs) (i : Nat) :
    ∃ qs', (Crew.mk d.shared qs).attempt i = d.attempt i ∧
      (Crew.mk d.shared qs).step i = ⟨(d.step i).shared, qs'⟩ ∧
      P.Beside (P.phases start (h ++ d.attempt i)) (d.step i).programs qs' := by
  have hidle : (∀ o k, d.programs[i]? ≠ some (.op o k)) → (∀ o k, qs[i]? ≠ some (.op o k)) →
      ∃ qs', (Crew.mk d.shared qs).attempt i = d.attempt i ∧
        (Crew.mk d.shared qs).step i = ⟨(d.step i).shared, qs'⟩ ∧
        P.Beside (P.phases start (h ++ d.attempt i)) (d.step i).programs qs' := by
    intro hp hq
    obtain ⟨ha, hd⟩ := Crew.step_idle hp
    obtain ⟨ha', hd'⟩ := Crew.step_idle (d := Crew.mk d.shared qs) hq
    rw [ha, hd, ha', hd', List.append_nil]
    exact ⟨qs, rfl, rfl, hb⟩
  cases hp : d.programs[i]? with
  | none =>
    have hq : qs[i]? = none := by
      rw [List.getElem?_eq_none_iff, hb.length]
      exact List.getElem?_eq_none_iff.mp hp
    exact hidle (by rw [hp]; nofun) (by rw [hq]; nofun)
  | some p =>
    obtain ⟨φ, hφ, hfollows⟩ := hw.exists_phase hp
    obtain ⟨q, hq, halike⟩ := hb.alike i φ p hφ hp
    cases p with
    | done a =>
      obtain rfl := halike
      exact hidle (by rw [hp]; nofun) (by rw [hq]; nofun)
    | stop e =>
      obtain rfl := halike
      exact hidle (by rw [hp]; nofun) (by rw [hq]; nofun)
    | op o k =>
      obtain ⟨k', rfl, hnext⟩ := halike
      rcases hs : M.perform o d.shared with ⟨_ | r, s⟩
      · obtain ⟨ha, hd⟩ := Crew.step_waiting hp hs
        obtain ⟨ha', hd'⟩ := Crew.step_waiting (d := Crew.mk d.shared qs) hq hs
        rw [ha, hd, ha', hd', phases_unanswered]
        exact ⟨qs, rfl, rfl, hb⟩
      · obtain ⟨ha, hd⟩ := Crew.step_answered hp hs
        obtain ⟨ha', hd'⟩ := Crew.step_answered (d := Crew.mk d.shared qs) hq hs
        obtain ⟨hf, -⟩ := hk.answered hw.invariant hφ hfollows.1 hs
        rw [ha, hd, ha', hd', phases_answered r hφ]
        exact ⟨_, rfl, rfl, hb.set (hnext r hf)⟩

/-- What an interleaving comes to, it comes to with programs that are alike. -/
theorem Beside.runs (hk : P.Keeps I)
    (hw : ∀ {h : List (Attempt M)} {d : Crew M ε α}, c.Runs h d → P.Watched I Q start h d)
    (hb : P.Beside start c.programs qs) (hr : c.Runs h d) :
    ∃ qs', (Crew.mk c.shared qs).Runs h ⟨d.shared, qs'⟩ := by
  suffices hall : ∃ qs', (Crew.mk c.shared qs).Runs h ⟨d.shared, qs'⟩ ∧
      P.Beside (P.phases start h) d.programs qs' by
    obtain ⟨qs', hr', -⟩ := hall
    exact ⟨qs', hr'⟩
  induction hr with
  | start =>
    rw [phases_nil]
    exact ⟨qs, .start, hb⟩
  | @step h d i hr ih =>
    obtain ⟨qs', hr', hb'⟩ := ih
    obtain ⟨qs'', ha, hd, hb''⟩ := (hw hr).step_beside hk hb' i
    refine ⟨qs'', ?_, hb''⟩
    have hstep := hr'.step i
    rwa [ha, hd] at hstep

end Protocol

end BareKernel.Sync
