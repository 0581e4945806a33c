import BareKernel.Proofs.Boot.Sequence

/-! What a core's own replies tell of its way through the boot: whether paging is on, whether and
how often it entered the kernel's body and came back from it, and which locks it holds. -/

namespace BareKernel.Boot

open Kernel Sync

variable {b : Sequencer} {blank : Paging.TableStorage} {body : Nat → Code Unit} {i : Nat}
  {s s' : Stage} {a : Answer machine} {as bs : List (Answer machine)} {φ : Phase} {o : Op}
  {r : Reply o} {l : LockName}

/-! ## Marks -/

/-- The call that turns paging on, with the tables of this space. -/
def enableMark (blank : Paging.TableStorage) (core : Nat) : Answer machine :=
  ⟨.note core (.called (.enable blank.space.identityL1Base blank.space.virtualL1Base)), ()⟩

def enterMark (core : Nat) : Answer machine := ⟨.note core (.reached .kernelRunning), ()⟩

def leaveMark (core : Nat) : Answer machine := ⟨.note core (.reached .stopRendezvous), ()⟩

/-- The core enters the kernel's body. -/
def enters (a : Answer machine) : Bool :=
  match a.op with
  | .note _ (.reached .kernelRunning) => true
  | _ => false

/-- The core called for paging, and the call came back. -/
def PagingOn (b : Sequencer) (blank : Paging.TableStorage) (core : Nat)
    (as : List (Answer machine)) : Prop :=
  ∃ pre bs, as = pre ++ enableMark blank core :: bs ∧ Enabled b blank bs

/-- The core entered the kernel's body, which ran to its end. -/
def Finished (body : Nat → Code Unit) (core : Nat) (as : List (Answer machine)) : Prop :=
  ∃ pre bs post, as = pre ++ enterMark core :: (bs ++ leaveMark core :: post) ∧
    (body core).After bs (.done ())

/-- The core took this lock and has not released it since. -/
def Holds (l : LockName) (as : List (Answer machine)) : Prop :=
  ∃ (pre : List (Answer machine)) (r : Unit) (post : List (Answer machine)),
    as = pre ++ ⟨.take l, r⟩ :: post ∧ ∀ a ∈ post, a.op ≠ .release l

theorem PagingOn.snoc (h : PagingOn b blank i as) (a : Answer machine) :
    PagingOn b blank i (as ++ [a]) := by
  obtain ⟨pre, bs, rfl, h⟩ := h
  refine ⟨pre, bs ++ [a], ?_, h.snoc a⟩
  rw [List.append_assoc, List.cons_append]

theorem Finished.snoc (h : Finished body i as) (a : Answer machine) :
    Finished body i (as ++ [a]) := by
  obtain ⟨pre, bs, post, rfl, h⟩ := h
  refine ⟨pre, bs, post ++ [a], ?_, h⟩
  simp only [List.append_assoc, List.cons_append]

theorem Holds.snoc (h : Holds l as) (ha : a.op ≠ .release l) : Holds l (as ++ [a]) := by
  obtain ⟨pre, r, post, rfl, h⟩ := h
  refine ⟨pre, r, post ++ [a], ?_, ?_⟩
  · rw [List.append_assoc, List.cons_append]
  · exact List.forall_mem_append.mpr ⟨h, List.forall_mem_singleton.mpr ha⟩

/-! ## Moves -/

/-- How a stage can change with a reply: not at all, at one of the marks, or between two of them. -/
inductive Moves (b : Sequencer) (blank : Paging.TableStorage) (body : Nat → Code Unit) (i : Nat) :
    Stage → Answer machine → Stage → Prop
  | stay {s : Stage} {a : Answer machine} : enters a = false → Moves b blank body i s a (s.add a)
  | enable : Moves b blank body i .released (enableMark blank i) (.enabling [])
  | findStart {as : List (Answer machine)} {a : Answer machine} {r : Rendezvous} :
      enters a = false → Enabled b blank as →
      Moves b blank body i (.enabling as) a (.arriving .start r)
  | enter : Moves b blank body i .entering (enterMark i) (.running [])
  | leave {as : List (Answer machine)} : (body i).After as (.done ()) →
      Moves b blank body i (.running as) (leaveMark i) .leaving
  | between {s s' : Stage} {a : Answer machine} : enters a = false →
      s.rank ≤ 2 ∧ s'.rank ≤ 2 ∨ 4 ≤ s.rank ∧ 4 ≤ s'.rank ∧ s'.rank ≤ 6 ∧ s.rank ≤ 6 ∨
        8 ≤ s.rank ∧ 8 ≤ s'.rank →
      Moves b blank body i s a s'

theorem enters_of_permits {c : Client} {scope : Scope} (hc : c.Permits scope o) :
    enters ⟨o, r⟩ = false := by
  cases o with
  | note j e =>
    cases e with
    | asked tag values => rfl
    | _ => exact hc.elim
  | _ => rfl

theorem Permits.moves (hp : Permits b blank body φ o) (hf : Foreseen blank φ.stage o r) :
    Moves b blank body φ.core φ.stage ⟨o, r⟩ (φ.next o r).stage := by
  cases hp with
  | @note i s c e he =>
    have hquiet : enters ⟨.note i e, r⟩ = false := by
      cases e with
      | reached t => cases t <;> first | rfl | exact he.elim
      | _ => rfl
    have hnext : s.next (.note i e) r = s.add ⟨.note i e, r⟩ := Stage.next_note he
    change Moves b blank body i s _ (s.next (.note i e) r)
    rw [hnext]
    exact .stay hquiet
  | @use i s c o scope ha hc =>
    change Moves b blank body i s _ (s.next o r)
    rw [Stage.next_use ha hc r]
    exact .stay (enters_of_permits hc)
  | enable => exact .enable
  | @findStart i c as hen =>
    obtain ⟨rdv, rfl⟩ := Option.isSome_iff_exists.mp hf
    exact .findStart rfl hen
  | enter => exact .enter
  | leave hbody => exact .leave hbody
  | awaitReleased => exact .between rfl (.inl ⟨Nat.zero_le 2, Nat.le_refl 2⟩)
  | readBlank => exact .between rfl (.inl ⟨Nat.le_succ 1, Nat.le_succ 1⟩)
  | writeTables => exact .between rfl (.inl ⟨Nat.le_succ 1, Nat.le_succ 1⟩)
  | markBuilt => exact .between rfl (.inl ⟨Nat.le_succ 1, Nat.le_succ 1⟩)
  | initHeap => exact .between rfl (.inl ⟨Nat.le_succ 1, Nat.le_succ 1⟩)
  | startBarrier => exact .between rfl (.inl ⟨Nat.le_succ 1, Nat.le_succ 1⟩)
  | stopBarrier => exact .between rfl (.inl ⟨Nat.le_succ 1, Nat.le_succ 1⟩)
  | publish => exact .between rfl (.inl ⟨Nat.le_succ 1, Nat.le_succ 1⟩)
  | openGate => exact .between rfl (.inl ⟨Nat.le_succ 1, Nat.le_succ 1⟩)
  | setReleased => exact .between rfl (.inl ⟨Nat.le_succ 1, Nat.le_refl 2⟩)
  | readTables => exact .stay (s := .released) rfl
  | @arrive i c m rdv =>
    refine .between rfl ?_
    cases m <;> simp [Phase.next, Stage.next, Stage.rank]
  | @awaitComplete i c m rdv =>
    refine .between rfl ?_
    cases m <;> simp [Phase.next, Stage.next, Stage.rank]
  | @findStop i c =>
    obtain ⟨rdv, rfl⟩ := Option.isSome_iff_exists.mp hf
    refine .between rfl (.inr (.inr ?_))
    simp [Phase.next, Stage.next, Stage.rank]

/-! ## The way so far -/

/-- What a core's replies have in them at each stage. -/
structure Trail (b : Sequencer) (blank : Paging.TableStorage) (body : Nat → Code Unit) (i : Nat)
    (as : List (Answer machine)) (s : Stage) : Prop where
  enabling : ∀ bs, s = .enabling bs → ∃ pre, as = pre ++ enableMark blank i :: bs
  enabled : 4 ≤ s.rank → PagingOn b blank i as
  outside : s.rank < 7 → as.countP enters = 0
  running : ∀ bs, s = .running bs → ∃ pre, as = pre ++ enterMark i :: bs
  inside : 7 ≤ s.rank → as.countP enters = 1
  left : 8 ≤ s.rank → Finished body i as
  own : ∀ a ∈ as, enters a = true → a = enterMark i

theorem Trail.start (hs : s.rank ≤ 1) : Trail b blank body i [] s where
  enabling := by
    intro bs h
    simp [h, Stage.rank] at hs
  enabled := by omega
  outside _ := rfl
  running := by
    intro bs h
    simp [h, Stage.rank] at hs
  inside := by omega
  left := by omega
  own := by
    intro a ha
    cases ha

theorem countP_snoc {p : Answer machine → Bool} :
    (as ++ [a]).countP p = as.countP p + if p a then 1 else 0 := by
  rw [List.countP_append, List.countP_singleton]

theorem Trail.step (ht : Trail b blank body i as s) (hm : Moves b blank body i s a s') :
    Trail b blank body i (as ++ [a]) s' := by
  have hown : enters a = false → ∀ x ∈ as ++ [a], enters x = true → x = enterMark i := by
    intro hquiet x hx hen
    rcases List.mem_append.mp hx with hx | hx
    · exact ht.own x hx hen
    · obtain rfl := List.mem_singleton.mp hx
      rw [hquiet] at hen
      cases hen
  have hcount : enters a = false → (as ++ [a]).countP enters = as.countP enters := by
    intro hquiet
    rw [countP_snoc, hquiet]
    rfl
  have hlow : ∀ {n : Nat} {t : Stage} {q : Prop}, t.rank < n → n ≤ t.rank → q := by
    intro n t q h₁ h₂
    omega
  cases hm with
  | stay hquiet =>
    refine ⟨?_, ?_, ?_, ?_, ?_, ?_, hown hquiet⟩
    · intro bs h
      cases s with
      | enabling cs =>
        obtain ⟨pre, rfl⟩ := ht.enabling cs rfl
        obtain rfl := Stage.enabling.inj h
        exact ⟨pre, by rw [List.append_assoc, List.cons_append]⟩
      | _ => cases h
    · intro h
      exact (ht.enabled (by rwa [Stage.rank_add] at h)).snoc a
    · intro h
      rw [hcount hquiet]
      exact ht.outside (by rwa [Stage.rank_add] at h)
    · intro bs h
      cases s with
      | running cs =>
        obtain ⟨pre, rfl⟩ := ht.running cs rfl
        obtain rfl := Stage.running.inj h
        exact ⟨pre, by rw [List.append_assoc, List.cons_append]⟩
      | _ => cases h
    · intro h
      rw [hcount hquiet]
      exact ht.inside (by rwa [Stage.rank_add] at h)
    · intro h
      exact (ht.left (by rwa [Stage.rank_add] at h)).snoc a
  | enable =>
    refine ⟨?_, hlow (by decide), ?_, ?_, hlow (by decide), hlow (by decide), hown rfl⟩
    · intro bs h
      obtain rfl := Stage.enabling.inj h
      exact ⟨as, rfl⟩
    · intro _
      rw [hcount rfl]
      exact ht.outside (by decide)
    · intro bs h
      cases h
  | @findStart cs a r hquiet hen =>
    refine ⟨?_, ?_, ?_, ?_, hlow (by simp [Stage.rank]), hlow (by simp [Stage.rank]),
      hown hquiet⟩
    · intro bs h
      cases h
    · intro _
      obtain ⟨pre, rfl⟩ := ht.enabling cs rfl
      exact PagingOn.snoc ⟨pre, cs, rfl, hen⟩ a
    · intro _
      rw [hcount hquiet]
      exact ht.outside (by simp [Stage.rank])
    · intro bs h
      cases h
  | enter =>
    refine ⟨?_, ?_, fun h => absurd h (by decide), ?_, ?_, hlow (by decide), ?_⟩
    · intro bs h
      cases h
    · intro _
      exact (ht.enabled (by decide)).snoc _
    · intro bs h
      obtain rfl := Stage.running.inj h
      exact ⟨as, rfl⟩
    · intro _
      rw [countP_snoc, ht.outside (by decide)]
      rfl
    · intro x hx hen
      rcases List.mem_append.mp hx with hx | hx
      · exact ht.own x hx hen
      · exact List.mem_singleton.mp hx
  | @leave cs hbody =>
    refine ⟨?_, ?_, fun h => absurd h (by decide), ?_, ?_, ?_, hown rfl⟩
    · intro bs h
      cases h
    · intro _
      exact (ht.enabled (by simp [Stage.rank])).snoc _
    · intro bs h
      cases h
    · intro _
      rw [hcount rfl]
      exact ht.inside (by simp [Stage.rank])
    · intro _
      obtain ⟨pre, rfl⟩ := ht.running cs rfl
      exact ⟨pre, cs, [], by rw [List.append_assoc, List.cons_append], hbody⟩
  | between hquiet hrank =>
    refine ⟨?_, ?_, ?_, ?_, ?_, ?_, hown hquiet⟩
    · intro bs h
      simp [h, Stage.rank] at hrank
    · intro h
      exact (ht.enabled (by omega)).snoc a
    · intro h
      rw [hcount hquiet]
      exact ht.outside (by omega)
    · intro bs h
      simp only [h, Stage.rank] at hrank
      omega
    · intro h
      rw [hcount hquiet]
      exact ht.inside (by omega)
    · intro h
      exact (ht.left (by omega)).snoc a

theorem trail_of_heeds (hs : φ.stage.rank ≤ 1) (hh : (protocol b blank body).Heeds φ as) :
    ((protocol b blank body).trace φ as).core = φ.core ∧
      Trail b blank body φ.core as ((protocol b blank body).trace φ as).stage := by
  refine hh.induction (T := fun as (ψ : Phase) => ψ.core = φ.core ∧
    Trail b blank body φ.core as ψ.stage) ⟨rfl, .start hs⟩ ?_
  intro as ψ o r ih hp hf
  obtain ⟨hcore, ht⟩ := ih
  refine ⟨hcore, ht.step ?_⟩
  rw [← hcore]
  exact Permits.moves hp hf

/-! ## Locks -/

theorem holds_of_heeds (hs : φ.client.held = []) (hh : (protocol b blank body).Heeds φ as) :
    ∀ l ∈ ((protocol b blank body).trace φ as).client.held, Holds l as := by
  refine hh.induction (T := fun as (ψ : Phase) => ∀ l ∈ ψ.client.held, Holds l as) ?_ ?_
  · intro l hl
    rw [hs] at hl
    cases hl
  · intro as ψ o r ih _ _ l hl
    have hl : l ∈ (ψ.client.after o r).held := by
      obtain ⟨j, s, c⟩ := ψ
      cases s <;> exact hl
    cases o with
    | take l' =>
      rcases List.mem_cons.mp hl with rfl | hl
      · exact ⟨as, r, [], rfl, nofun⟩
      · exact (ih l hl).snoc nofun
    | release l' =>
      obtain ⟨hl, hne⟩ := List.mem_filter.mp hl
      refine (ih l hl).snoc ?_
      intro h
      obtain rfl := Op.release.inj h
      simp at hne
    | allocateObject align bytes => cases r <;> exact (ih l hl).snoc nofun
    | _ => exact (ih l hl).snoc nofun

end BareKernel.Boot
