import Mathlib.Data.List.Perm.Basic
import BareKernel.Proofs.Boot.Stages
import BareKernel.Proofs.Heap.Loans

/-! The invariant of a boot, and that every permitted operation keeps it. Until the release all
cores but one are parked, and what that one has set up is as its stage says. From the release on the
gate is open, the tables and the barriers are in place, and the count in each barrier is the number
of cores that have still to arrive there. -/

namespace BareKernel

open Sync

/-! ## What most operations leave alone -/

namespace Kernel

/-- The same gate, release, tables and heap. -/
structure Agrees (k' k : Kernel) : Prop where
  gate : k'.gateOpen = k.gateOpen
  release : k'.release = k.release
  tables : k'.tables = k.tables
  memory : k'.memory = k.memory

/-- Not an operation that sets something up or changes the heap. -/
def Op.IsQuiet : Op → Prop
  | .openGate | .writeTables _ | .markBuilt | .initHeap _ | .allocate _ | .allocateObject _ _
  | .free _ | .publish _ | .setReleased | .arrive _ => False
  | _ => True

theorem perform_agrees {o : Op} (ho : o.IsQuiet) (k : Kernel) : (perform o k).2.Agrees k := by
  cases o <;> first | exact ⟨rfl, rfl, rfl, rfl⟩ | exact ho.elim

end Kernel

namespace Boot

open Kernel

variable {b : Sequencer} {blank : Paging.TableStorage} {body : Nat → Code Unit} {k k' : Kernel}
  {φ ψ : Phase} {rest φs ψs : List Phase} {o : Op}

/-! ## The invariant -/

/-- What holds of a phase by itself, with `n` cores taking part. -/
structure Phase.Formed (n : Nat) (φ : Phase) : Prop where
  parked : φ.stage = .parked → φ.client = {}
  setup : ∀ s, φ.stage = .setup s → φ.core = primaryCore ∧ φ.client.loans = []
  past : φ.stage.IsPast → φ.core < n

/-- Both barriers are on the heap, and nobody has come to them yet. -/
def Barriers (n : Nat) (r : Rendezvous) (k : Kernel) : Prop :=
  (Session.mk k.memory [⟨r.stop, 4⟩, ⟨r.start, 4⟩]).InOrder ∧
    ∀ m, k.memory.numberAt (r.at m) 4 = n

/-- Nothing is released yet, and the gate is closed. -/
structure Closed (k : Kernel) : Prop where
  gate : k.gateOpen = false
  release : k.release.isReleased = false

/-- What has been set up by a stage of the setup. -/
def Setup.Holds (blank : Paging.TableStorage) (n : Nat) (k : Kernel) : Setup → Prop
  | .tables | .filling _ => Closed k ∧ k.tables = blank
  | .filled s => Closed k ∧ k.tables = { blank with space := s } ∧
      ∃ r, blank.space.populateBoard (Paging.cacheableBoundary r).1 = .ok s
  | .heap => Closed k ∧ Populated blank k.tables
  | .startBarrier => Closed k ∧ Populated blank k.tables ∧ (Session.mk k.memory []).InOrder
  | .stopBarrier start => Closed k ∧ Populated blank k.tables ∧
      (Session.mk k.memory [⟨start, 4⟩]).InOrder ∧ k.memory.numberAt start 4 = n
  | .publish r => Closed k ∧ Populated blank k.tables ∧ Barriers n r k
  | .openGate r => Closed k ∧ Populated blank k.tables ∧ Barriers n r k ∧
      k.release.rendezvous = some r
  | .setReleased r => (k.gateOpen = true ∧ k.release.isReleased = false) ∧
      Populated blank k.tables ∧ Barriers n r k ∧ k.release.rendezvous = some r

theorem Setup.Holds.unreleased {s : Setup} {n : Nat} (h : s.Holds blank n k) :
    k.release.isReleased = false := by
  cases s with
  | setReleased r => exact h.1.2
  | _ => exact h.1.release

/-- Replies that add up change nothing of it. -/
theorem Setup.holds_add {s : Setup} {n : Nat} {a : Answer machine} (h : s.Holds blank n k) :
    (s.add a).Holds blank n k := by
  cases s <;> exact h

/-- What the heap has handed out: the barriers, and what the cores have allocated. -/
def loans (r : Rendezvous) (φs : List Phase) : List Loan :=
  ⟨r.stop, 4⟩ :: ⟨r.start, 4⟩ :: φs.flatMap (·.client.loans)

/-- What holds from the release on. -/
structure Ready (blank : Paging.TableStorage) (n : Nat) (r : Rendezvous) (k : Kernel)
    (φs : List Phase) : Prop where
  gate : k.gateOpen = true
  tables : Populated blank k.tables
  rendezvous : k.release.rendezvous = some r
  heap : (Session.mk k.memory (loans r φs)).InOrder
  count : ∀ m, k.memory.numberAt (r.at m) 4 +
    φs.countP (fun φ => decide (φ.stage.Arrived m)) = n
  passed : ∀ m, ∀ φ ∈ φs, φ.stage.Passed m → ∀ ψ ∈ φs, ψ.core < n → ψ.stage.Arrived m
  found : ∀ φ ∈ φs, ∀ m r', φ.stage = .arriving m r' ∨ φ.stage = .waiting m r' → r' = r

structure Sound (b : Sequencer) (blank : Paging.TableStorage) (k : Kernel) (φs : List Phase) :
    Prop where
  roster : ∀ i < b.cores.val, (φs.map (·.core)).count i = 1
  formed : ∀ φ ∈ φs, φ.Formed b.cores.val
  reading : ∀ φ ∈ φs, ∀ isOpen, φ.client.reading = some isOpen → k.gateOpen = isOpen
  before : ∀ φ ∈ φs, ∀ s, φ.stage = .setup s → s.Holds blank b.cores.val k
  past : ∀ φ ∈ φs, φ.stage.IsPast → k.release.isReleased = true
  ready : k.release.isReleased = true → ∃ r, Ready blank b.cores.val r k φs

/-! ## The order of the cores does not matter -/

theorem Ready.perm {n : Nat} {r : Rendezvous} (hr : Ready blank n r k φs) (hp : φs.Perm ψs) :
    Ready blank n r k ψs where
  gate := hr.gate
  tables := hr.tables
  rendezvous := hr.rendezvous
  heap := hr.heap.perm (((hp.flatMap_right _).cons _).cons _)
  count m := (hp.countP_eq _) ▸ hr.count m
  passed m φ hφ hpass ψ hψ := hr.passed m φ (hp.mem_iff.mpr hφ) hpass ψ (hp.mem_iff.mpr hψ)
  found φ hφ := hr.found φ (hp.mem_iff.mpr hφ)

theorem Sound.perm (hs : Sound b blank k φs) (hp : φs.Perm ψs) : Sound b blank k ψs where
  roster i hi := ((hp.map _).count_eq i) ▸ hs.roster i hi
  formed φ hφ := hs.formed φ (hp.mem_iff.mpr hφ)
  reading φ hφ := hs.reading φ (hp.mem_iff.mpr hφ)
  before φ hφ := hs.before φ (hp.mem_iff.mpr hφ)
  past φ hφ := hs.past φ (hp.mem_iff.mpr hφ)
  ready h := (hs.ready h).imp fun _ hr => hr.perm hp

/-! ## Counting -/

/-- With every core below `n` listed once, as many are listed. -/
theorem countP_lt {cores : List Nat} {n : Nat} (h : ∀ i < n, cores.count i = 1) :
    cores.countP (fun i => decide (i < n)) = n := by
  suffices hm : ∀ m ≤ n, cores.countP (fun i => decide (i < m)) = m from hm n (Nat.le_refl n)
  intro m
  induction m with
  | zero => simp
  | succ m ih =>
    intro hm
    have hsplit : cores.countP (fun i => decide (i < m + 1)) =
        cores.countP (fun i => decide (i < m)) + cores.count m := by
      clear ih h hm
      induction cores with
      | nil => rfl
      | cons i cores ih =>
        simp only [List.countP_cons, List.count_cons, ih, decide_eq_true_eq, beq_iff_eq]
        split <;> split <;> split <;> omega
    rw [hsplit, ih (by omega), h m hm]

/-- When as many satisfy the stronger property, all that satisfy the weaker one do. -/
theorem forall_of_countP_le {α : Type} {p q : α → Bool} {l : List α}
    (hpq : ∀ x ∈ l, p x = true → q x = true) (hle : l.countP q ≤ l.countP p) :
    ∀ x ∈ l, q x = true → p x = true := by
  induction l with
  | nil => intro x hx; cases hx
  | cons y l ih =>
    have hpq' : ∀ x ∈ l, p x = true → q x = true := fun x hx => hpq x (List.mem_cons_of_mem y hx)
    have hmono := List.countP_mono_left hpq'
    have hy := hpq y List.mem_cons_self
    simp only [List.countP_cons] at hle
    intro x hx hq
    rcases List.mem_cons.mp hx with rfl | hx
    · by_contra hp
      simp only [hp, hq, if_true, if_false] at hle
      omega
    · refine ih hpq' ?_ x hx hq
      by_cases hpy : p y = true
      · simp only [hpy, hy hpy, if_true] at hle
        omega
      · simp only [hpy, Bool.false_eq_true, if_false] at hle
        omega

namespace Sound

variable {r : Rendezvous} {m : Meeting}

theorem countP_core (hs : Sound b blank k φs) :
    φs.countP (fun φ => decide (φ.core < b.cores.val)) = b.cores.val := by
  have h := countP_lt hs.roster
  rwa [List.countP_map] at h

theorem core_lt_of_arrived (hs : Sound b blank k φs) (hφ : φ ∈ φs) (ha : φ.stage.Arrived m) :
    φ.core < b.cores.val := by
  refine (hs.formed φ hφ).past ?_
  unfold Stage.IsPast
  unfold Stage.Arrived at ha
  cases m <;> simp only [Meeting.rank] at ha <;> omega

/-- Nobody is missing at a barrier that has counted down. -/
theorem all_arrived (hs : Sound b blank k φs) (hr : Ready blank b.cores.val r k φs)
    (h₀ : k.memory.numberAt (r.at m) 4 = 0) :
    ∀ ψ ∈ φs, ψ.core < b.cores.val → ψ.stage.Arrived m := by
  intro ψ hψ hcore
  have hcount := hr.count m
  rw [h₀, Nat.zero_add] at hcount
  have hle : φs.countP (fun φ => decide (φ.core < b.cores.val)) ≤
      φs.countP fun φ => decide (φ.stage.Arrived m) := by
    rw [hcount, hs.countP_core]
  have hall := forall_of_countP_le (fun φ hφ ha =>
    decide_eq_true (hs.core_lt_of_arrived hφ (of_decide_eq_true ha))) hle
  exact of_decide_eq_true (hall ψ hψ (decide_eq_true hcore))

/-- A barrier that a core has still to come to has not counted down. -/
theorem number_pos (hs : Sound b blank k φs) (hr : Ready blank b.cores.val r k φs) (hφ : φ ∈ φs)
    (hcore : φ.core < b.cores.val) (ha : ¬φ.stage.Arrived m) :
    0 < k.memory.numberAt (r.at m) 4 := by
  by_contra h
  exact ha (hs.all_arrived hr (Nat.eq_zero_of_not_pos h) φ hφ hcore)

/-- No two cores below the count are the same. -/
theorem core_ne (hs : Sound b blank k (φ :: rest)) (hcore : φ.core < b.cores.val) :
    ∀ ψ ∈ rest, ψ.core ≠ φ.core := by
  intro ψ hψ heq
  have h := hs.roster φ.core hcore
  rw [List.map_cons, List.count_cons_self] at h
  have hmem : φ.core ∈ rest.map (·.core) := List.mem_map.mpr ⟨ψ, hψ, heq⟩
  have := List.count_pos_iff.mpr hmem
  omega

/-- While one core sets up, all others are parked. -/
theorem rest_parked (hs : Sound b blank k (φ :: rest)) {s : Setup} (hφ : φ.stage = .setup s) :
    ∀ ψ ∈ rest, ψ.stage = .parked := by
  have hprimary := ((hs.formed φ List.mem_cons_self).setup s hφ).1
  have hun := (hs.before φ List.mem_cons_self s hφ).unreleased
  intro ψ hψ
  have hmem := List.mem_cons_of_mem φ hψ
  cases hst : ψ.stage with
  | parked => rfl
  | setup s' =>
    have hcore : φ.core < b.cores.val := hprimary ▸ b.cores.pos
    have hne := hs.core_ne hcore ψ hψ
    exact absurd (((hs.formed ψ hmem).setup s' hst).1.trans hprimary.symm) hne
  | _ =>
    have hrel := hs.past ψ hmem (by rw [hst]; unfold Stage.IsPast Stage.rank; grind)
    rw [hun] at hrel
    cases hrel

end Sound

end Boot

end BareKernel
