import Mathlib.Algebra.Ring.Nat
import BareKernel.Proofs.Sync.Schedule
import BareKernel.Proofs.Sync.Protocol
import BareKernel.Sync.Counter

/-! Cores that count under one lock. Each of them adds one to a shared number, again and again, in
four operations: it takes the lock, reads, writes and releases. However they interleave, only the
core that took the lock last is between its reading and its writing, so no addition is lost. -/

namespace BareKernel.Sync.Counter

variable {l l' : Lock} {c c' : Counter} {o : Op} {i j n v : Nat} {h : List (Attempt machine)}

/-! ## Who is inside -/

/-- After these replies, the core has taken the lock and not released it since. -/
def Inside (l : Lock) (as : List (Answer machine)) : Prop :=
  ∃ before after, as = before ++ ⟨.take l, ()⟩ :: after ∧ ∀ a ∈ after, a.op ≠ .release l

theorem inside_snoc {as : List (Answer machine)} {r : Reply o} :
    Inside l (as ++ [⟨o, r⟩]) ↔ o = .take l ∨ Inside l as ∧ o ≠ .release l := by
  constructor
  · rintro ⟨before, after, has, hno⟩
    rcases List.eq_nil_or_concat after with rfl | ⟨after, a, rfl⟩
    · obtain ⟨-, ha⟩ := List.append_inj' has rfl
      exact .inl (congrArg Answer.op (List.singleton_inj.mp ha))
    · rw [List.concat_eq_append, ← List.cons_append, ← List.append_assoc] at has
      obtain ⟨rfl, ha⟩ := List.append_inj' has rfl
      obtain rfl := List.singleton_inj.mp ha
      refine .inr ⟨⟨before, after, rfl, fun b hb => hno b ?_⟩, hno ⟨o, r⟩ ?_⟩ <;> simp [*]
  · rintro (rfl | ⟨⟨before, after, rfl, hno⟩, ho⟩)
    · exact ⟨as, [], rfl, nofun⟩
    · refine ⟨before, after ++ [⟨o, r⟩], by simp, fun a ha => ?_⟩
      rcases List.mem_append.mp ha with ha | ha
      · exact hno a ha
      · obtain rfl := List.mem_singleton.mp ha
        exact ho

/-! ## The protocol -/

/-- Where a core is in its additions, of which `left` are to be started still; or that it leaves
the number and its lock alone. -/
inductive Phase where
  | outside (left : Nat)
  | reading (left : Nat)
  | writing (left n : Nat)
  | leaving (left : Nat)
  | apart

namespace Phase

/-- The additions that are not in the number yet. -/
def pending : Phase → Nat
  | outside left | leaving left => left
  | reading left | writing left _ => left + 1
  | apart => 0

def IsInside : Phase → Prop
  | reading _ | writing _ _ | leaving _ => True
  | _ => False

end Phase

/-- An operation of somebody who neither holds the lock nor writes the number. -/
def Spares (l : Lock) : Op → Prop
  | .take l' | .release l' => l' ≠ l
  | .write _ => False
  | _ => True

def Permits (l : Lock) : Phase → Op → Prop
  | .outside (_ + 1), o => o = .take l
  | .reading _, o => o = .read
  | .writing _ n, o => o = .write (n + 1)
  | .leaving _, o => o = .release l
  | .apart, o => Spares l o
  | .outside 0, _ => False

def next : Phase → (o : Op) → Reply o → Phase
  | .outside (left + 1), .take _, _ => .reading left
  | .reading left, .read, n => .writing left n
  | .writing left _, .write _, _ => .leaving left
  | .leaving left, .release _, _ => .outside left
  | φ, _, _ => φ

abbrev protocol (l : Lock) : Protocol machine Empty where
  Phase := Phase
  Permits := Permits l
  Foreseen _ _ _ := True
  next := next
  MayStop := nofun

/-! ## Programs -/

theorem follows_increments (l : Lock) (k : Nat) :
    (protocol l).Follows (fun _ φ => φ = .outside 0) (.outside k)
      ((increment l).repeatTimes k) := by
  induction k with
  | zero => exact rfl
  | succ k ih => exact ⟨rfl, fun _ _ => ⟨rfl, fun _ _ => ⟨rfl, fun _ _ => ⟨rfl, fun _ _ => ih⟩⟩⟩⟩

/-- Whatever replies it gets, the program leaves the lock and the number to others. -/
def LeavesAlone (l : Lock) : Code Unit → Prop
  | .done _ => True
  | .stop e => nomatch e
  | .op o k => Spares l o ∧ ∀ r, LeavesAlone l (k r)

theorem follows_leavesAlone {p : Code Unit} (hp : LeavesAlone l p) :
    (protocol l).Follows (fun _ φ => φ = .apart) .apart p := by
  induction p with
  | done a => exact rfl
  | stop e => exact nomatch e
  | op o k ih => exact ⟨hp.1, fun r _ => by cases o <;> exact ih r (hp.2 r)⟩

/-! ## The invariant -/

/-- The lock is held exactly while a core is inside, and by one core only; what a core has read is
the number still; and what is pending will make up the total. -/
structure Counts (l : Lock) (total : Nat) (c : Counter) (φs : List Phase) : Prop where
  held : (c.lock l).taken = true ↔ ∃ (i : Nat) (φ : Phase), φs[i]? = some φ ∧ φ.IsInside
  alone : ∀ (i j : Nat) (φ ψ : Phase), φs[i]? = some φ → φs[j]? = some ψ → φ.IsInside →
    ψ.IsInside → i = j
  current : ∀ i left n : Nat, φs[i]? = some (.writing left n) → n = c.value
  sum : c.value + (φs.map Phase.pending).sum = total

theorem sum_map_set {α : Type} (f : α → Nat) {xs : List α} {a : α} (b : α)
    (hi : xs[i]? = some a) : ((xs.set i b).map f).sum + f a = (xs.map f).sum + f b := by
  induction xs generalizing i with
  | nil => cases hi
  | cons x xs ih =>
    cases i with
    | zero =>
      obtain rfl := Option.some.inj hi
      simp only [List.set_cons_zero, List.map_cons, List.sum_cons]
      omega
    | succ i =>
      have := ih hi
      simp only [List.set_cons_succ, List.map_cons, List.sum_cons]
      omega

namespace Counts

variable {total : Nat} {φs : List Phase} {φ ψ : Phase}

/-- A core that finds the lock free is the only one inside. -/
theorem enter (hc : Counts l total c φs) (hi : φs[i]? = some (.outside (n + 1)))
    (hfree : (c.lock l).taken = false) (hlock : (c'.lock l).taken = true)
    (hvalue : c'.value = c.value) : Counts l total c' (φs.set i (.reading n)) := by
  have hnone : ∀ (j : Nat) (φ : Phase), φs[j]? = some φ → ¬φ.IsInside := fun j φ hj hin =>
    Bool.noConfusion (hfree.symm.trans (hc.held.mpr ⟨j, φ, hj, hin⟩))
  obtain ⟨hlt, -⟩ := List.getElem?_eq_some_iff.mp hi
  have hset : (φs.set i (.reading n))[i]? = some (.reading n) := List.getElem?_set_self hlt
  have honly : ∀ (j : Nat) (φ : Phase), (φs.set i (.reading n))[j]? = some φ → φ.IsInside →
      i = j := by
    intro j φ hj hin
    by_contra hne
    rw [List.getElem?_set_ne hne] at hj
    exact hnone j φ hj hin
  refine ⟨⟨fun _ => ⟨i, _, hset, trivial⟩, fun _ => hlock⟩, ?_, ?_, ?_⟩
  · intro j k φ ψ hj hk hφ hψ
    exact (honly j φ hj hφ).symm.trans (honly k ψ hk hψ)
  · intro j left v hj
    obtain rfl := honly j _ hj trivial
    rw [hset] at hj
    cases Option.some.inj hj
  · have hsum := sum_map_set Phase.pending (.reading n) hi
    have := hc.sum
    simp only [Phase.pending] at hsum
    omega

/-- What the core inside does while it stays there. -/
theorem within (hc : Counts l total c φs) (hi : φs[i]? = some φ) (hφ : φ.IsInside)
    (hψ : ψ.IsInside) (hlock : c'.lock l = c.lock l)
    (hcurrent : ∀ left n, ψ = .writing left n → n = c'.value)
    (hsum : c'.value + ψ.pending = c.value + φ.pending) : Counts l total c' (φs.set i ψ) := by
  obtain ⟨hlt, -⟩ := List.getElem?_eq_some_iff.mp hi
  have hset : (φs.set i ψ)[i]? = some ψ := List.getElem?_set_self hlt
  have honly : ∀ (j : Nat) (χ : Phase), (φs.set i ψ)[j]? = some χ → χ.IsInside → i = j := by
    intro j χ hj hin
    by_contra hne
    rw [List.getElem?_set_ne hne] at hj
    exact hne (hc.alone i j φ χ hi hj hφ hin)
  refine ⟨⟨fun _ => ⟨i, ψ, hset, hψ⟩, fun _ => ?_⟩, ?_, ?_, ?_⟩
  · rw [hlock]
    exact hc.held.mpr ⟨i, φ, hi, hφ⟩
  · intro j k χ χ' hj hk hχ hχ'
    exact (honly j χ hj hχ).symm.trans (honly k χ' hk hχ')
  · intro j left v hj
    obtain rfl := honly j _ hj trivial
    rw [hset] at hj
    exact hcurrent left v (Option.some.inj hj)
  · have := sum_map_set Phase.pending ψ hi
    have := hc.sum
    omega

/-- The core inside leaves, and then nobody is. -/
theorem leave (hc : Counts l total c φs) (hi : φs[i]? = some (.leaving n))
    (hlock : (c'.lock l).taken = false) (hvalue : c'.value = c.value) :
    Counts l total c' (φs.set i (.outside n)) := by
  obtain ⟨hlt, -⟩ := List.getElem?_eq_some_iff.mp hi
  have hset : (φs.set i (.outside n))[i]? = some (.outside n) := List.getElem?_set_self hlt
  have hnone : ∀ (j : Nat) (φ : Phase), (φs.set i (.outside n))[j]? = some φ → ¬φ.IsInside := by
    intro j φ hj hin
    by_cases hij : i = j
    · subst hij
      rw [hset] at hj
      obtain rfl := Option.some.inj hj
      exact hin
    · rw [List.getElem?_set_ne hij] at hj
      exact hij (hc.alone i j _ φ hi hj trivial hin)
  refine ⟨⟨fun h => Bool.noConfusion (hlock.symm.trans h), ?_⟩, ?_, ?_, ?_⟩
  · rintro ⟨j, φ, hj, hin⟩
    exact absurd hin (hnone j φ hj)
  · intro j k φ ψ hj _ hφ _
    exact absurd hφ (hnone j φ hj)
  · intro j left v hj
    exact absurd trivial (hnone j _ hj)
  · have hsum := sum_map_set Phase.pending (.outside n) hi
    have := hc.sum
    simp only [Phase.pending] at hsum
    omega

/-- What is done elsewhere changes nothing here. -/
theorem elsewhere (hc : Counts l total c φs) (hlock : c'.lock l = c.lock l)
    (hvalue : c'.value = c.value) : Counts l total c' φs := by
  refine ⟨?_, hc.alone, ?_, ?_⟩
  · rw [hlock]
    exact hc.held
  · rw [hvalue]
    exact hc.current
  · rw [hvalue]
    exact hc.sum

end Counts

/-! ## Operations -/

@[simp] theorem lock_setLock_self (c : Counter) (k : SpinLock) (l : Lock) :
    (c.setLock k l).lock l = k := by cases l <;> rfl

theorem lock_setLock_ne (c : Counter) (k : SpinLock) (h : l' ≠ l) :
    (c.setLock k l').lock l = c.lock l := by
  cases l <;> cases l' <;> first | rfl | exact absurd rfl h

@[simp] theorem value_setLock (c : Counter) (k : SpinLock) (l : Lock) :
    (c.setLock k l).value = c.value := by cases l <;> rfl

theorem setLock_lock (c : Counter) (l : Lock) : c.setLock (c.lock l) l = c := by cases l <;> rfl

/-- Only who finds the lock free gets a reply. -/
theorem of_perform_take {r : Unit} (h : perform (.take l) c = (some r, c')) :
    (c.lock l).taken = false ∧ c' = c.setLock ⟨true⟩ l := by
  cases ht : (c.lock l).taken <;> simp_all [perform, SpinLock.tryAcquire]

theorem of_perform_take_none (h : perform (.take l) c = (none, c')) : c' = c := by
  cases ht : (c.lock l).taken with
  | false => simp [perform, SpinLock.tryAcquire, ht] at h
  | true =>
    simp only [perform, SpinLock.tryAcquire, ht, Bool.not_true, Bool.false_eq_true, if_false,
      Prod.mk.injEq, true_and] at h
    rw [← h, ← ht]
    exact setLock_lock c l

/-- Nothing but a lock keeps anybody waiting. -/
theorem of_perform_none (h : perform o c = (none, c')) : c' = c := by
  cases o with
  | take l => exact of_perform_take_none h
  | _ => simp [perform] at h

/-- Somebody who spares the lock and the number changes neither. -/
theorem of_spares {r : Reply o} (ho : Spares l o) (h : perform o c = (some r, c')) :
    c'.lock l = c.lock l ∧ c'.value = c.value := by
  cases o with
  | take l' =>
    obtain ⟨-, rfl⟩ := of_perform_take h
    exact ⟨lock_setLock_ne c _ ho, value_setLock c _ l'⟩
  | release l' =>
    obtain ⟨-, rfl⟩ := Prod.mk.inj h
    exact ⟨lock_setLock_ne c _ ho, value_setLock c _ l'⟩
  | read =>
    obtain ⟨-, rfl⟩ := Prod.mk.inj h
    exact ⟨rfl, rfl⟩
  | write n => exact ho.elim
  | add n =>
    obtain ⟨-, rfl⟩ := Prod.mk.inj h
    cases l <;> exact ⟨rfl, rfl⟩

theorem keeps (l : Lock) (total : Nat) : (protocol l).Keeps (Counts l total) where
  answered := by
    intro c c' φs i φ o r hc hi hp hs
    refine ⟨trivial, ?_⟩
    match φ, hp with
    | .outside (n + 1), hp =>
      subst hp
      obtain ⟨hfree, rfl⟩ := of_perform_take hs
      exact hc.enter hi hfree (by rw [lock_setLock_self]) (value_setLock c _ l)
    | .reading n, hp =>
      subst hp
      obtain ⟨hr, rfl⟩ := Prod.mk.inj hs
      obtain rfl := Option.some.inj hr
      exact hc.within hi trivial trivial rfl (fun _ _ h => (Phase.writing.inj h).2.symm) rfl
    | .writing n v, hp =>
      subst hp
      obtain ⟨-, rfl⟩ := Prod.mk.inj hs
      obtain rfl := hc.current i n v hi
      refine hc.within hi trivial trivial (by cases l <;> rfl) nofun ?_
      change c.value + 1 + n = c.value + (n + 1)
      omega
    | .leaving n, hp =>
      subst hp
      obtain ⟨-, rfl⟩ := Prod.mk.inj hs
      exact hc.leave hi (by rw [lock_setLock_self]; rfl) (value_setLock c _ l)
    | .apart, hp =>
      have hsame : φs.set i (next .apart o r) = φs := by
        cases o <;> exact Crew.set_of_getElem? hi
      obtain ⟨hlock, hvalue⟩ := of_spares hp hs
      exact hsame.symm ▸ hc.elsewhere hlock hvalue
  waiting := by
    intro c c' φs i φ o hc hi hp hs
    obtain rfl := of_perform_none hs
    exact hc

/-! ## All cores -/

/-- Some cores that count under the lock, each so many times, and others that leave the lock and
the number alone. -/
def counting (l : Lock) (ks : List Nat) (others : List (Code Unit)) (c : Counter) :
    Crew machine Empty Unit :=
  ⟨c, ks.map (fun k => (increment l).repeatTimes k) ++ others⟩

def startPhases (ks : List Nat) (others : List (Code Unit)) : List Phase :=
  ks.map .outside ++ others.map fun _ => .apart

section Start

variable {ks : List Nat} {others : List (Code Unit)} {φ : Phase} {d : Crew machine Empty Unit}

theorem mem_startPhases (hφ : φ ∈ startPhases ks others) : φ = .apart ∨ ∃ k, φ = .outside k := by
  rcases List.mem_append.mp hφ with hφ | hφ <;> obtain ⟨x, -, rfl⟩ := List.mem_map.mp hφ
  · exact .inr ⟨x, rfl⟩
  · exact .inl rfl

theorem pending_startPhases :
    ((startPhases ks others).map Phase.pending).sum = ks.sum := by
  have hks : (ks.map Phase.outside).map Phase.pending = ks := by
    rw [List.map_map]
    exact List.map_id ks
  have hothers : ((others.map fun _ => Phase.apart).map Phase.pending).sum = 0 := by
    refine List.sum_eq_zero_iff_forall_eq_nat.mpr fun n hn => ?_
    simp only [List.map_map, List.mem_map] at hn
    obtain ⟨-, -, rfl⟩ := hn
    rfl
  rw [startPhases, List.map_append, List.sum_append, hks, hothers, Nat.add_zero]

theorem counts_start (hfree : (c.lock l).taken = false) :
    Counts l (c.value + ks.sum) c (startPhases ks others) := by
  have hnone : ∀ (i : Nat) (φ : Phase), (startPhases ks others)[i]? = some φ → ¬φ.IsInside ∧
      ∀ left n, φ ≠ .writing left n := by
    intro i φ hi
    rcases mem_startPhases (List.mem_of_getElem? hi) with rfl | ⟨k, rfl⟩
    · exact ⟨id, nofun⟩
    · exact ⟨id, nofun⟩
  refine ⟨⟨fun h => Bool.noConfusion (hfree.symm.trans h), ?_⟩, ?_, ?_, ?_⟩
  · rintro ⟨i, φ, hi, hin⟩
    exact absurd hin (hnone i φ hi).1
  · intro i j φ ψ hi _ hφ _
    exact absurd hφ (hnone i φ hi).1
  · intro i left n hi
    exact absurd rfl ((hnone i _ hi).2 left n)
  · rw [pending_startPhases]

theorem follows_counting (hothers : ∀ p ∈ others, LeavesAlone l p) (i : Nat) (φ : Phase)
    (p : Code Unit) (hφ : (startPhases ks others)[i]? = some φ)
    (hp : (counting l ks others c).programs[i]? = some p) :
    (protocol l).Follows (fun _ φ => φ = .outside 0 ∨ φ = .apart) φ p := by
  by_cases hi : i < ks.length
  · rw [startPhases, List.getElem?_append_left (by simpa using hi), List.getElem?_map] at hφ
    rw [counting, List.getElem?_append_left (by simpa using hi), List.getElem?_map] at hp
    obtain ⟨k, hk, rfl⟩ := Option.map_eq_some_iff.mp hφ
    rw [hk] at hp
    obtain rfl := Option.some.inj hp
    exact (follows_increments l k).mono fun _ _ => .inl
  · have hge := Nat.le_of_not_lt hi
    rw [startPhases, List.getElem?_append_right (by simpa using hge), List.getElem?_map,
      List.length_map] at hφ
    rw [counting, List.getElem?_append_right (by simpa using hge), List.length_map] at hp
    rw [hp] at hφ
    obtain rfl := Option.some.inj hφ
    exact (follows_leavesAlone (hothers p (List.mem_of_getElem? hp))).mono fun _ _ => .inr

theorem watched (hfree : (c.lock l).taken = false) (hothers : ∀ p ∈ others, LeavesAlone l p)
    (hr : (counting l ks others c).Runs h d) :
    (protocol l).Watched (Counts l (c.value + ks.sum))
      (fun _ φ => φ = .outside 0 ∨ φ = .apart) (startPhases ks others) h d :=
  (keeps l _).runs (counts_start hfree)
    (by simp only [counting, startPhases, List.length_append, List.length_map])
    (follows_counting hothers) hr

/-- A permitted operation leads inside as it takes the lock, and outside as it releases it. -/
theorem isInside_next {r : Reply o} (hp : Permits l φ o) :
    (next φ o r).IsInside ↔ o = .take l ∨ φ.IsInside ∧ o ≠ .release l := by
  match φ, hp with
  | .outside (n + 1), hp =>
    subst hp
    exact ⟨fun _ => .inl rfl, fun _ => trivial⟩
  | .reading n, hp | .writing n v, hp =>
    subst hp
    exact ⟨fun _ => .inr ⟨trivial, nofun⟩, fun _ => trivial⟩
  | .leaving n, hp =>
    subst hp
    exact ⟨False.elim, fun h => h.elim nofun fun h => h.2 rfl⟩
  | .apart, hp =>
    have hout : ¬(next .apart o r).IsInside := by cases o <;> exact id
    refine ⟨fun h => (hout h).elim, ?_⟩
    rintro (rfl | ⟨h, -⟩)
    · exact (hp rfl).elim
    · exact h.elim

/-- A core is inside in its phase when it is by its replies. -/
theorem inside_iff (hfree : (c.lock l).taken = false) (hothers : ∀ p ∈ others, LeavesAlone l p)
    (hr : (counting l ks others c).Runs h d) (i : Nat) : Inside l (answersOf h i) ↔
      ∃ φ : Phase, ((protocol l).phases (startPhases ks others) h)[i]? = some φ ∧ φ.IsInside := by
  have hw := watched hfree hothers hr
  have hnil : ¬Inside l [] := by
    rintro ⟨before, after, has, -⟩
    simp at has
  rw [Protocol.getElem?_phases]
  cases hi : (startPhases ks others)[i]? with
  | none =>
    have hlen : (counting l ks others c).programs[i]? = none := by
      rw [List.getElem?_eq_none_iff] at hi ⊢
      simpa only [counting, startPhases, List.length_append, List.length_map] using hi
    rw [(hr.answersOf_eq_nil hlen).1]
    exact ⟨fun h => (hnil h).elim, nofun⟩
  | some φ =>
    have hout : ¬φ.IsInside := by
      rcases mem_startPhases (List.mem_of_getElem? hi) with rfl | ⟨k, rfl⟩ <;> exact id
    have hiff := (hw.heeds i φ hi).induction
      (T := fun as ψ => Inside l as ↔ Phase.IsInside ψ)
      ⟨fun h => (hnil h).elim, fun h => (hout h).elim⟩
      fun as ψ o r ih hp _ =>
        inside_snoc.trans ((or_congr_right (and_congr_left' ih)).trans (isInside_next hp).symm)
    refine hiff.trans ⟨fun h => ⟨_, rfl, h⟩, ?_⟩
    rintro ⟨ψ, hψ, h⟩
    obtain rfl := Option.some.inj hψ
    exact h

/-- The phases of those who leave the number alone never change. -/
theorem trace_apart (as : List (Answer machine)) :
    (protocol l).trace Phase.apart as = Phase.apart := by
  induction as with
  | nil => rfl
  | cons a as ih =>
    obtain ⟨o, r⟩ := a
    cases o <;> exact ih

/-- Cores that are done have nothing pending. -/
theorem pending_of_done (hfree : (c.lock l).taken = false)
    (hothers : ∀ p ∈ others, LeavesAlone l p) (hr : (counting l ks others c).Runs h d)
    (hdone : ∀ i < ks.length, d.programs[i]? = some (.done ())) {i : Nat}
    (hi : ((protocol l).phases (startPhases ks others) h)[i]? = some φ) : φ.pending = 0 := by
  by_cases hlt : i < ks.length
  · rcases (watched hfree hothers hr).follows i φ _ hi (hdone i hlt) with h | h
    · exact h ▸ rfl
    · exact h ▸ rfl
  · obtain ⟨φ₀, h₀, rfl⟩ := Protocol.exists_start hi
    rw [startPhases, List.getElem?_append_right (by simpa using hlt), List.getElem?_map] at h₀
    obtain ⟨-, -, rfl⟩ := Option.map_eq_some_iff.mp h₀
    exact congrArg Phase.pending (trace_apart _)

/-- However they interleave, at most one core is between taking the lock and releasing it, the lock
is held exactly while one is, and once the cores that count are done, the number has grown by all
that they had to add. -/
theorem counted_under_lock (hfree : (c.lock l).taken = false)
    (hothers : ∀ p ∈ others, LeavesAlone l p) (hr : (counting l ks others c).Runs h d) :
    (∀ i j, Inside l (answersOf h i) → Inside l (answersOf h j) → i = j) ∧
      ((d.shared.lock l).taken = true ↔ ∃ i, Inside l (answersOf h i)) ∧
      ((∀ i < ks.length, d.programs[i]? = some (.done ())) →
        d.shared.value = c.value + ks.sum) := by
  have hc := (watched hfree hothers hr).invariant
  have hin := inside_iff hfree hothers hr
  refine ⟨fun i j hi hj => ?_, ?_, fun hdone => ?_⟩
  · obtain ⟨φ, hφ, h₁⟩ := (hin i).mp hi
    obtain ⟨ψ, hψ, h₂⟩ := (hin j).mp hj
    exact hc.alone i j φ ψ hφ hψ h₁ h₂
  · rw [hc.held]
    exact exists_congr fun i => (hin i).symm
  · have hzero : (((protocol l).phases (startPhases ks others) h).map Phase.pending).sum = 0 := by
      refine List.sum_eq_zero_iff_forall_eq_nat.mpr fun n hn => ?_
      obtain ⟨φ, hφ, rfl⟩ := List.mem_map.mp hn
      obtain ⟨i, hi⟩ := List.getElem?_of_mem hφ
      exact pending_of_done hfree hothers hr hdone hi
    have := hc.sum
    omega

end Start

/-- Turns of three cores, one operation each. -/
def turns (n : Nat) : List Nat := (List.replicate n [0, 1, 2]).flatten

/-- Two cores that take turns, and a third that adds to the cell: the lock makes one of the two
wait for the other, and nothing gets lost. -/
theorem counted_under_lock_turns :
    ((turns 3).foldl Crew.step (counting .own [2, 1] [incrementCell] {})).shared.own.taken = true ∧
      ((turns 11).foldl Crew.step (counting .own [2, 1] [incrementCell] {})).shared.value = 3 := by
  have hfree : ((({} : Counter)).lock .own).taken = false := rfl
  have hothers : ∀ p ∈ [incrementCell], LeavesAlone .own p := by
    intro p hp
    obtain rfl := List.mem_singleton.mp hp
    exact ⟨trivial, fun _ => trivial⟩
  obtain ⟨h, hr⟩ := Crew.exists_runs_foldl (turns 11) (counting .own [2, 1] [incrementCell] {})
  refine ⟨rfl, (counted_under_lock hfree hothers hr).2.2 fun i hi => ?_⟩
  match i, hi with
  | 0, _ => rfl
  | 1, _ => rfl

end BareKernel.Sync.Counter
