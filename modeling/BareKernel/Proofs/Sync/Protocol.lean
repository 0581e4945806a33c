import Mathlib.Data.List.Induction
import BareKernel.Proofs.Sync.History

/-! Protocols among cores. A protocol tells for each phase of a core what the core may do next and
which phase the reply leads to. Whether one program follows a protocol is a matter of that program
alone; whether an invariant of the shared state and of all phases lasts is a matter of the protocol
alone. Together they give what every interleaving of programs that follow it keeps to. -/

namespace BareKernel.Sync

variable {σ : Type} {M : Machine σ} {ε α β : Type}

structure Protocol (M : Machine σ) (ε : Type) where
  Phase : Type
  Permits : Phase → M.Op → Prop
  /-- The replies that a core has to be ready for. -/
  Foreseen : Phase → (o : M.Op) → M.Reply o → Prop
  next : Phase → (o : M.Op) → M.Reply o → Phase
  MayStop : ε → Prop

namespace Protocol

variable {P : Protocol M ε}

/-- From this phase on the program keeps to the protocol, and `Q` holds of its value and of the
phase that it ends in. -/
def Follows (P : Protocol M ε) (Q : α → P.Phase → Prop) : P.Phase → Program M ε α → Prop
  | φ, .done a => Q a φ
  | _, .stop e => P.MayStop e
  | φ, .op o k => P.Permits φ o ∧ ∀ r, P.Foreseen φ o r → P.Follows Q (P.next φ o r) (k r)

/-- The phase after these replies. -/
def trace (P : Protocol M ε) (φ : P.Phase) (as : List (Answer M)) : P.Phase :=
  as.foldl (fun φ a => P.next φ a.op a.reply) φ

/-- Every operation was permitted at its time, and its reply foreseen. -/
def Heeds (P : Protocol M ε) : P.Phase → List (Answer M) → Prop
  | _, [] => True
  | φ, a :: as =>
    P.Permits φ a.op ∧ P.Foreseen φ a.op a.reply ∧ P.Heeds (P.next φ a.op a.reply) as

/-! ## One program -/

namespace Follows

variable {Q Q' : α → P.Phase → Prop} {φ : P.Phase} {p q : Program M ε α} {o : M.Op}
  {k : M.Reply o → Program M ε α} {as : List (Answer M)}

theorem mono (h : P.Follows Q φ p) (hq : ∀ a ψ, Q a ψ → Q' a ψ) : P.Follows Q' φ p := by
  induction p generalizing φ with
  | done a => exact hq a φ h
  | stop e => exact h
  | op o k ih => exact ⟨h.1, fun r hr => ih r (h.2 r hr)⟩

theorem bind {R : β → P.Phase → Prop} {f : α → Program M ε β}
    (h : P.Follows (fun a ψ => P.Follows R ψ (f a)) φ p) : P.Follows R φ (p >>= f) := by
  change P.Follows R φ (p.bind f)
  induction p generalizing φ with
  | done a => exact h
  | stop e => exact h
  | op o k ih => exact ⟨h.1, fun r hr => ih r (h.2 r hr)⟩

/-- A program goes on from the phase that its first part always ends in. -/
theorem andThen {R : β → P.Phase → Prop} {f : α → Program M ε β} {ψ : α → P.Phase}
    (h : P.Follows (fun a χ => χ = ψ a) φ p) (hf : ∀ a, P.Follows R (ψ a) (f a)) :
    P.Follows R φ (p >>= f) := by
  refine bind (h.mono fun a χ hχ => ?_)
  rw [hχ]
  exact hf a

/-- A program goes on from any of the phases that its first part may end in. -/
theorem andThenFrom {ι : Type} {R : β → P.Phase → Prop} {f : α → Program M ε β}
    {ψ : α → ι → P.Phase} (h : P.Follows (fun a χ => ∃ i, χ = ψ a i) φ p)
    (hf : ∀ a i, P.Follows R (ψ a i) (f a)) : P.Follows R φ (p >>= f) := by
  refine bind (h.mono fun a χ hχ => ?_)
  obtain ⟨i, rfl⟩ := hχ
  exact hf a i

theorem pure {a : α} (h : Q a φ) : P.Follows Q φ (Pure.pure a) := h

/-- One operation, and what its replies lead to. -/
theorem call {Q : M.Reply o → P.Phase → Prop} (hp : P.Permits φ o)
    (h : ∀ r, P.Foreseen φ o r → Q r (P.next φ o r)) : P.Follows Q φ (Program.call o) := ⟨hp, h⟩

/-- What is left of a program follows the protocol from the phase that it got to. -/
theorem after (h : P.Follows Q φ p) (ha : p.After as q) (hh : P.Heeds φ as) :
    P.Follows Q (P.trace φ as) q := by
  induction ha generalizing φ with
  | nil p => exact h
  | cons _ ih =>
    obtain ⟨-, hr, hh⟩ := hh
    exact ih (h.2 _ hr) hh

/-- A program that follows one protocol follows another one that permits whatever the first does.
The relation between their phases may depend on what is left of the program. -/
theorem lift (P' : Protocol M ε) (R : P.Phase → Program M ε α → P'.Phase → Prop) {ψ : P'.Phase}
    (h : P.Follows Q φ p) (hr : R φ p ψ)
    (hstep : ∀ φ o k ψ, R φ (.op o k) ψ → P.Permits φ o → P'.Permits ψ o ∧
      ∀ r, P'.Foreseen ψ o r → P.Foreseen φ o r ∧ R (P.next φ o r) (k r) (P'.next ψ o r))
    (hstop : ∀ e, P.MayStop e → P'.MayStop e) :
    P'.Follows (fun a ψ => ∃ φ, R φ (.done a) ψ ∧ Q a φ) ψ p := by
  induction p generalizing φ ψ with
  | done a => exact ⟨φ, hr, h⟩
  | stop e => exact hstop e h
  | op o k ih =>
    obtain ⟨hp, hs⟩ := hstep φ o k ψ hr h.1
    refine ⟨hp, fun r hf => ?_⟩
    obtain ⟨hf, hr⟩ := hs r hf
    exact ih r (h.2 r hf) hr

end Follows

/-! ## One core's replies -/

variable {φ : P.Phase} {as bs : List (Answer M)}

@[simp] theorem trace_nil : P.trace φ [] = φ := rfl

theorem trace_append : P.trace φ (as ++ bs) = P.trace (P.trace φ as) bs := List.foldl_append

theorem trace_snoc {a : Answer M} :
    P.trace φ (as ++ [a]) = P.next (P.trace φ as) a.op a.reply := trace_append

theorem heeds_append : P.Heeds φ (as ++ bs) ↔ P.Heeds φ as ∧ P.Heeds (P.trace φ as) bs := by
  induction as generalizing φ with
  | nil => exact (true_and _).symm.to_iff
  | cons a as ih => simp only [List.cons_append, Heeds, ih, and_assoc, trace, List.foldl_cons]

/-- What one step after another keeps true of a core's replies and its phase. -/
theorem Heeds.induction {T : List (Answer M) → P.Phase → Prop} (hh : P.Heeds φ as) (start : T [] φ)
    (step : ∀ as ψ o r, T as ψ → P.Permits ψ o → P.Foreseen ψ o r →
      T (as ++ [⟨o, r⟩]) (P.next ψ o r)) : T as (P.trace φ as) := by
  induction as using List.reverseRecOn with
  | nil => exact start
  | append_singleton as a ih =>
    obtain ⟨hh, hp, hf, -⟩ := heeds_append.mp hh
    rw [trace_snoc]
    exact step as _ a.op a.reply (ih hh) hp hf

/-! ## All cores -/

/-- The phases of all cores after a history. -/
def phases (P : Protocol M ε) (start : List P.Phase) (h : List (Attempt M)) : List P.Phase :=
  start.mapIdx fun i φ => P.trace φ (answersOf h i)

/-- Every permitted try of an operation, answered or not, keeps the invariant, and no reply comes
that is not foreseen. -/
structure Keeps (P : Protocol M ε) (I : σ → List P.Phase → Prop) : Prop where
  answered : ∀ {s s' : σ} {φs : List P.Phase} {i : Nat} {φ : P.Phase} {o : M.Op} {r : M.Reply o},
    I s φs → φs[i]? = some φ → P.Permits φ o → M.perform o s = (some r, s') →
    P.Foreseen φ o r ∧ I s' (φs.set i (P.next φ o r))
  waiting : ∀ {s s' : σ} {φs : List P.Phase} {i : Nat} {φ : P.Phase} {o : M.Op}, I s φs →
    φs[i]? = some φ → P.Permits φ o → M.perform o s = (none, s') → I s' φs

variable {I : σ → List P.Phase → Prop} {Q : α → P.Phase → Prop} {start : List P.Phase}
  {h : List (Attempt M)} {c d : Crew M ε α} {i : Nat} {o : M.Op}

@[simp] theorem phases_nil : P.phases start [] = start := by
  refine List.ext_getElem? fun i => ?_
  rw [phases, List.getElem?_mapIdx]
  cases start[i]? <;> rfl

@[simp] theorem length_phases : (P.phases start h).length = start.length := List.length_mapIdx

theorem getElem?_phases :
    (P.phases start h)[i]? = start[i]?.map fun φ => P.trace φ (answersOf h i) :=
  List.getElem?_mapIdx

/-- The phase of a core is where its own replies have led it. -/
theorem exists_start (hi : (P.phases start h)[i]? = some φ) :
    ∃ φ₀, start[i]? = some φ₀ ∧ P.trace φ₀ (answersOf h i) = φ := by
  rw [getElem?_phases] at hi
  exact Option.map_eq_some_iff.mp hi

theorem phases_answered (r : M.Reply o) (hi : (P.phases start h)[i]? = some φ) :
    P.phases start (h ++ [⟨i, o, some r⟩]) = (P.phases start h).set i (P.next φ o r) := by
  obtain ⟨φ₀, hs, rfl⟩ := exists_start hi
  refine List.ext_getElem? fun j => ?_
  rw [getElem?_phases, answersOf_append, answersOf_answered, List.getElem?_set, getElem?_phases,
    length_phases]
  by_cases hij : i = j
  · subst hij
    obtain ⟨hlt, -⟩ := List.getElem?_eq_some_iff.mp hs
    simp only [if_true, hs, Option.map_some, hlt, trace_snoc]
  · simp only [hij, if_false, List.append_nil]

theorem phases_unanswered : P.phases start (h ++ [⟨i, o, none⟩]) = P.phases start h := by
  refine List.ext_getElem? fun j => ?_
  rw [getElem?_phases, getElem?_phases, answersOf_append, answersOf_unanswered, List.append_nil]

/-- What holds of a crew after a history: the invariant holds of the phases that the replies have
led to, and the rest of each core's program follows the protocol from there. -/
structure Watched (P : Protocol M ε) (I : σ → List P.Phase → Prop) (Q : α → P.Phase → Prop)
    (start : List P.Phase) (h : List (Attempt M)) (d : Crew M ε α) : Prop where
  invariant : I d.shared (P.phases start h)
  length : d.programs.length = start.length
  heeds : ∀ i φ, start[i]? = some φ → P.Heeds φ (answersOf h i)
  follows : ∀ (i : Nat) (φ : P.Phase) (p : Program M ε α), (P.phases start h)[i]? = some φ →
    d.programs[i]? = some p → P.Follows Q φ p

namespace Watched

theorem exists_phase (hw : P.Watched I Q start h d) {p : Program M ε α}
    (hp : d.programs[i]? = some p) :
    ∃ φ, (P.phases start h)[i]? = some φ ∧ P.Follows Q φ p := by
  obtain ⟨hlt, -⟩ := List.getElem?_eq_some_iff.mp hp
  have hi : i < (P.phases start h).length := by rwa [length_phases, ← hw.length]
  have hφ := List.getElem?_eq_getElem hi
  exact ⟨_, hφ, hw.follows i _ p hφ hp⟩

/-- Both a reply and a try in vain leave the crew watched. -/
theorem step (hk : P.Keeps I) (hw : P.Watched I Q start h d) (i : Nat) :
    P.Watched I Q start (h ++ d.attempt i) (d.step i) := by
  have hcase := d.stepped i
  generalize d.attempt i = a at hcase
  generalize d.step i = d' at hcase
  cases hcase with
  | idle =>
    rw [List.append_nil]
    exact hw
  | @answered o k r s hp hs =>
    obtain ⟨φ, hφ, hperm, hrest⟩ := hw.exists_phase hp
    obtain ⟨hf, hinv⟩ := hk.answered hw.invariant hφ hperm hs
    obtain ⟨hlt, -⟩ := List.getElem?_eq_some_iff.mp hp
    obtain ⟨hlt', -⟩ := List.getElem?_eq_some_iff.mp hφ
    refine ⟨?_, ?_, ?_, ?_⟩
    · rw [phases_answered r hφ]
      exact hinv
    · rw [← hw.length]
      exact List.length_set
    · intro j φ₀ hj
      rw [answersOf_append, answersOf_answered]
      split
      · rename_i hij
        subst hij
        obtain ⟨φ₁, hs₁, htr⟩ := exists_start hφ
        obtain rfl := Option.some.inj (hj.symm.trans hs₁)
        refine heeds_append.mpr ⟨hw.heeds i _ hj, ?_⟩
        rw [htr]
        exact ⟨hperm, hf, trivial⟩
      · rw [List.append_nil]
        exact hw.heeds j φ₀ hj
    · intro j ψ p hψ hp'
      rw [phases_answered r hφ] at hψ
      by_cases hij : i = j
      · subst hij
        rw [List.getElem?_set_self hlt'] at hψ
        rw [List.getElem?_set_self hlt] at hp'
        obtain rfl := Option.some.inj hψ
        obtain rfl := Option.some.inj hp'
        exact hrest r hf
      · rw [List.getElem?_set_ne hij] at hψ hp'
        exact hw.follows j ψ p hψ hp'
  | @waiting o k s hp hs =>
    obtain ⟨φ, hφ, hperm, -⟩ := hw.exists_phase hp
    refine ⟨?_, hw.length, ?_, ?_⟩
    · rw [phases_unanswered]
      exact hk.waiting hw.invariant hφ hperm hs
    · intro j φ₀ hj
      rw [answersOf_append, answersOf_unanswered, List.append_nil]
      exact hw.heeds j φ₀ hj
    · intro j ψ p hψ hp'
      rw [phases_unanswered] at hψ
      exact hw.follows j ψ p hψ hp'

end Watched

/-- Whatever the interleaving, programs that follow the protocol keep its invariant. -/
theorem Keeps.runs (hk : P.Keeps I) (hi : I c.shared start)
    (hl : c.programs.length = start.length)
    (hf : ∀ (i : Nat) (φ : P.Phase) (p : Program M ε α), start[i]? = some φ →
      c.programs[i]? = some p → P.Follows Q φ p)
    (hr : c.Runs h d) : P.Watched I Q start h d := by
  induction hr with
  | start =>
    refine ⟨?_, hl, fun _ _ _ => trivial, ?_⟩
    · rwa [phases_nil]
    · rwa [phases_nil]
  | step i _ ih => exact ih.step hk i

end Protocol

end BareKernel.Sync
