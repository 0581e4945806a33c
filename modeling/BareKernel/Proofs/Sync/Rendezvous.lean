import Mathlib.Data.List.Count
import BareKernel.Proofs.Sync.Schedule
import BareKernel.Proofs.Sync.Protocol
import BareKernel.Sync.Barrier

/-! Cores that meet at one barrier, each of them once. However their operations interleave, the
counter is the number of participants less the cores that have counted down, so it never wraps, it
is zero only when all of them have, and then it stays zero for whoever still looks at it. -/

namespace BareKernel.Sync.Barrier

variable {n : UInt32} {b b' : Barrier} {m i : Nat} {h h' : List (Attempt machine)}

/-- As many cores as will, each about to meet the others. -/
def meeting (m : Nat) (b : Barrier) : Crew machine Empty Unit := ⟨b, List.replicate m sync⟩

def Op.isArrive : Op → Bool
  | .arrive => true
  | .await => false

/-- Core `i` has counted down. -/
def hasArrived (h : List (Attempt machine)) (i : Nat) : Bool :=
  (answersOf h i).any fun a => Op.isArrive a.op

/-- The cores, of `m`, that have counted down. -/
def arrivals (m : Nat) (h : List (Attempt machine)) : Nat := (List.range m).countP (hasArrived h)

theorem arrivals_le_append : arrivals m h ≤ arrivals m (h ++ h') :=
  List.countP_mono_left fun i _ hi => by
    simp only [hasArrived, answersOf_append, List.any_append, Bool.or_eq_true] at hi ⊢
    exact .inl hi

/-! ## The protocol -/

/-- Where a core is on its way through the barrier. -/
inductive Phase where
  | coming
  | waiting
  | through

def Phase.isCounted : Phase → Bool
  | coming => false
  | _ => true

def Permits : Phase → Op → Prop
  | .coming, o => o = .arrive
  | .waiting, o => o = .await
  | .through, _ => False

def next : Phase → Op → Phase
  | .coming, .arrive => .waiting
  | .waiting, .await => .through
  | φ, _ => φ

abbrev protocol : Protocol machine Empty where
  Phase := Phase
  Permits := Permits
  Foreseen _ _ _ := True
  next φ o _ := next φ o
  MayStop := nofun

theorem follows_sync : protocol.Follows (fun _ φ => φ = .through) .coming sync :=
  ⟨rfl, fun _ _ => ⟨rfl, fun _ _ => rfl⟩⟩

/-- By its replies a core has counted down exactly when it has in its phase. -/
theorem isCounted_trace {as : List (Answer machine)} (hh : protocol.Heeds Phase.coming as) :
    (protocol.trace Phase.coming as).isCounted = as.any fun a => Op.isArrive a.op := by
  refine hh.induction (T := fun as φ => Phase.isCounted φ = as.any fun a => Op.isArrive a.op) rfl ?_
  intro as φ o r ih hp _
  rw [List.any_append, ← ih]
  cases φ with
  | coming =>
    obtain rfl : o = .arrive := hp
    rfl
  | waiting =>
    obtain rfl : o = .await := hp
    rfl
  | through => exact hp.elim

/-! ## The invariant -/

/-- The counter and the cores that have counted down make up the number of participants, and
nobody is through while somebody is missing. -/
structure Counts (n : Nat) (b : Barrier) (φs : List Phase) : Prop where
  room : φs.length ≤ n
  sum : b.remaining.toNat + φs.countP Phase.isCounted = n
  closed : .through ∈ φs → b.remaining = 0

namespace Counts

variable {n : Nat} {φs : List Phase}

/-- Whoever is still to count down finds something left. -/
theorem pos (hc : Counts n b φs) (hi : φs[i]? = some .coming) : 0 < b.remaining.toNat := by
  have hlt : φs.countP Phase.isCounted < φs.length := by
    refine Nat.lt_of_le_of_ne List.countP_le_length fun heq => ?_
    exact Bool.noConfusion (List.countP_eq_length.mp heq _ (List.mem_of_getElem? hi))
  have := hc.room
  have := hc.sum
  omega

theorem arrive (hc : Counts n b φs) (hi : φs[i]? = some .coming) :
    Counts n b.arrive (φs.set i .waiting) := by
  have hpos := hc.pos hi
  have hone : (1 : UInt32) ≤ b.remaining := UInt32.le_iff_toNat_le.mpr hpos
  have hleft : b.arrive.remaining.toNat = b.remaining.toNat - 1 :=
    UInt32.toNat_sub_of_le _ _ hone
  obtain ⟨hlt, hget⟩ := List.getElem?_eq_some_iff.mp hi
  refine ⟨by simpa only [List.length_set] using hc.room, ?_, fun hmem => ?_⟩
  · have hsum := hc.sum
    have hcount : (φs.set i .waiting).countP Phase.isCounted = φs.countP Phase.isCounted + 1 := by
      rw [List.countP_set hlt, hget]
      rfl
    omega
  · rcases List.mem_or_eq_of_mem_set hmem with hmem | hmem
    · have hzero := hc.closed hmem
      rw [hzero] at hpos
      cases hpos
    · cases hmem

theorem await (hc : Counts n b φs) (hi : φs[i]? = some .waiting) (hzero : b.remaining = 0) :
    Counts n b (φs.set i .through) := by
  obtain ⟨hlt, hget⟩ := List.getElem?_eq_some_iff.mp hi
  refine ⟨by simpa only [List.length_set] using hc.room, ?_, fun _ => hzero⟩
  have hcount : (φs.set i .through).countP Phase.isCounted = φs.countP Phase.isCounted := by
    have hpos : 0 < φs.countP Phase.isCounted :=
      List.countP_pos_iff.mpr ⟨_, List.mem_of_getElem? hi, rfl⟩
    rw [List.countP_set hlt, hget]
    exact Nat.sub_add_cancel hpos
  rw [hcount]
  exact hc.sum

end Counts

theorem keeps (n : Nat) : protocol.Keeps (Counts n) where
  answered := by
    intro b b' φs i φ o r hc hi hp hs
    refine ⟨trivial, ?_⟩
    cases φ with
    | coming =>
      obtain rfl : o = .arrive := hp
      obtain ⟨-, rfl⟩ := Prod.mk.inj hs
      exact hc.arrive hi
    | waiting =>
      obtain rfl : o = .await := hp
      obtain ⟨hr, rfl⟩ := Prod.mk.inj hs
      by_cases hzero : b.remaining = 0
      · exact hc.await hi hzero
      · simp [isComplete, hzero] at hr
    | through => exact hp.elim
  waiting := by
    intro b b' φs i φ o hc hi hp hs
    cases o with
    | arrive => cases (Prod.mk.inj hs).1
    | await =>
      obtain ⟨-, rfl⟩ := Prod.mk.inj hs
      exact hc

/-! ## All cores -/

section Meeting

variable {d e : Crew machine Empty Unit}

theorem counts_start (hb : ofParticipants? n = some b) (hm : m ≤ n.toNat) :
    Counts n.toNat b (List.replicate m .coming) := by
  obtain rfl : b = ⟨n⟩ := by
    unfold ofParticipants? at hb
    split at hb
    · cases hb
    · exact (Option.some.inj hb).symm
  refine ⟨by simpa using hm, ?_, fun h => ?_⟩
  · simp [List.countP_replicate, Phase.isCounted]
  · cases (List.mem_replicate.mp h).2

theorem watched (hb : ofParticipants? n = some b) (hm : m ≤ n.toNat)
    (hr : (meeting m b).Runs h d) :
    protocol.Watched (Counts n.toNat) (fun _ φ => φ = .through) (List.replicate m .coming) h d := by
  refine (keeps n.toNat).runs (counts_start hb hm) ?_ (fun i φ p hφ hp => ?_) hr
  · simp only [meeting, List.length_replicate]
  · obtain ⟨-, rfl⟩ := List.mem_replicate.mp (List.mem_of_getElem? hφ)
    obtain ⟨-, rfl⟩ := List.mem_replicate.mp (List.mem_of_getElem? hp)
    exact follows_sync

theorem phases_eq_map : protocol.phases (List.replicate m Phase.coming) h =
    (List.range m).map fun i => protocol.trace Phase.coming (answersOf h i) := by
  refine List.ext_getElem? fun i => ?_
  rw [Protocol.getElem?_phases, List.getElem?_map, List.getElem?_replicate]
  by_cases hi : i < m
  · rw [if_pos hi, List.getElem?_range hi]
    rfl
  · rw [if_neg hi, List.getElem?_eq_none (by simpa using hi)]
    rfl

/-- The phases count the cores as the history does. -/
theorem countP_phases (hheeds : ∀ i < m, protocol.Heeds Phase.coming (answersOf h i)) :
    (protocol.phases (List.replicate m Phase.coming) h).countP Phase.isCounted = arrivals m h := by
  rw [phases_eq_map, List.countP_map]
  exact List.countP_congr fun i hi => by
    rw [Function.comp_apply, isCounted_trace (hheeds i (List.mem_range.mp hi)), hasArrived]

theorem remaining_add_arrivals (hb : ofParticipants? n = some b) (hm : m ≤ n.toNat)
    (hr : (meeting m b).Runs h d) : d.shared.remaining.toNat + arrivals m h = n.toNat := by
  have hw := watched hb hm hr
  rw [← countP_phases fun i hi => hw.heeds i _ (List.getElem?_replicate_of_lt hi)]
  exact hw.invariant.sum

theorem remaining_eq_zero_iff (hb : ofParticipants? n = some b) (hm : m ≤ n.toNat)
    (hr : (meeting m b).Runs h d) : d.shared.remaining = 0 ↔ arrivals m h = n.toNat := by
  have hsum := remaining_add_arrivals hb hm hr
  rw [← UInt32.toNat_inj, UInt32.toNat_zero]
  omega

/-- What a core of the meeting has before it, phase by phase. -/
theorem program_cases (hb : ofParticipants? n = some b) (hm : m ≤ n.toNat)
    (hr : (meeting m b).Runs h d) (hi : i < m) :
    (∃ k, d.programs[i]? = some (.op .arrive k) ∧ 0 < d.shared.remaining.toNat) ∨
      (∃ k, d.programs[i]? = some (.op .await k) ∧ k () = .done ()) ∨
      (d.programs[i]? = some (.done ()) ∧ d.shared.remaining = 0) := by
  have hw := watched hb hm hr
  have hlt : i < d.programs.length := by rwa [hw.length, List.length_replicate]
  have hp := List.getElem?_eq_getElem hlt
  generalize d.programs[i] = p at hp
  obtain ⟨φ, hφ, hfollows⟩ := hw.exists_phase hp
  cases p with
  | done a =>
    obtain rfl : φ = .through := hfollows
    exact .inr (.inr ⟨hp, hw.invariant.closed (List.mem_of_getElem? hφ)⟩)
  | stop e => exact nomatch e
  | op o k =>
    obtain ⟨hperm, hrest⟩ := hfollows
    cases φ with
    | coming =>
      obtain rfl : o = .arrive := hperm
      exact .inl ⟨k, hp, hw.invariant.pos hφ⟩
    | waiting =>
      obtain rfl : o = .await := hperm
      refine .inr (.inl ⟨k, hp, ?_⟩)
      have hthrough := hrest () trivial
      cases hk : k () with
      | done a => rfl
      | stop e => exact nomatch e
      | op o k' =>
        rw [hk] at hthrough
        exact hthrough.1.elim
    | through => exact hperm.elim

/-- A core that looks at a counter of zero is through. -/
theorem step_await {k : Unit → Program machine Empty Unit}
    (hp : d.programs[i]? = some (.op .await k)) (hzero : d.shared.remaining = 0) :
    (d.step i).programs[i]? = some (k ()) := by
  rw [Crew.getElem?_step_self hp]
  simp [Program.step, machine, perform, isComplete, hzero]

theorem through_of_zero (hb : ofParticipants? n = some b) (hm : m ≤ n.toNat)
    (hr : (meeting m b).Runs h d) (hzero : d.shared.remaining = 0) (hi : i < m) :
    (d.step i).programs[i]? = some (.done ()) := by
  rcases program_cases hb hm hr hi with ⟨k, -, hpos⟩ | ⟨k, hp, hk⟩ | ⟨hp, -⟩
  · rw [hzero] at hpos
    cases hpos
  · rw [step_await hp hzero, hk]
  · rw [Crew.getElem?_step_self hp]
    rfl

/-- A core that is not of the meeting is not there. -/
theorem lt_of_getElem? {p : Program machine Empty Unit} (hr : (meeting m b).Runs h d)
    (hp : d.programs[i]? = some p) : i < m := by
  by_contra hge
  have hnone : (meeting m b).programs[i]? = none :=
    List.getElem?_eq_none (by simpa [meeting] using hge)
  rw [(hr.answersOf_eq_nil hnone).2] at hp
  cases hp

theorem pos_of_arrive {k : Unit → Program machine Empty Unit} (hb : ofParticipants? n = some b)
    (hm : m ≤ n.toNat) (hr : (meeting m b).Runs h d)
    (hp : d.programs[i]? = some (.op .arrive k)) : 0 < d.shared.remaining := by
  rcases program_cases hb hm hr (lt_of_getElem? hr hp) with ⟨_, -, hpos⟩ | ⟨_, hq, -⟩ | ⟨hq, -⟩
  · exact UInt32.lt_iff_toNat_lt.mpr hpos
  · cases hp.symm.trans hq
  · cases hp.symm.trans hq

theorem all_arrived_of_done (hb : ofParticipants? n = some b) (hm : m ≤ n.toNat)
    (hr : (meeting m b).Runs h d) (hp : d.programs[i]? = some (.done ())) :
    arrivals m h = n.toNat := by
  rcases program_cases hb hm hr (lt_of_getElem? hr hp) with ⟨_, hq, -⟩ | ⟨_, hq, -⟩ | ⟨-, hzero⟩
  · cases hp.symm.trans hq
  · cases hp.symm.trans hq
  · exact (remaining_eq_zero_iff hb hm hr).mp hzero

theorem remaining_le (hb : ofParticipants? n = some b) (hm : m ≤ n.toNat)
    (hr : (meeting m b).Runs h d) (hr' : d.Runs h' e) :
    e.shared.remaining ≤ d.shared.remaining := by
  have hbefore := remaining_add_arrivals hb hm hr
  have hafter := remaining_add_arrivals hb hm (hr.append hr')
  have hmore : arrivals m h ≤ arrivals m (h ++ h') := arrivals_le_append
  rw [UInt32.le_iff_toNat_le]
  omega

/-- Zero is never left again. -/
theorem zero_of_arrivals (hb : ofParticipants? n = some b) (hm : m ≤ n.toNat)
    (hr : (meeting m b).Runs h d) (hall : arrivals m h = n.toNat) (hr' : d.Runs h' e) :
    e.shared.remaining = 0 := by
  have hzero := (remaining_eq_zero_iff hb hm hr).mpr hall
  have hle := remaining_le hb hm hr hr'
  rw [hzero] at hle
  exact UInt32.le_zero_iff.mp hle

/-- Once all have counted down, nobody looks at the counter in vain. -/
theorem await_answered (hb : ofParticipants? n = some b) (hm : m ≤ n.toNat)
    (hr : (meeting m b).Runs h d) (hall : arrivals m h = n.toNat) (hr' : d.Runs h' e)
    {a : Attempt machine} (ha : a ∈ h') (hop : a.op = .await) : a.reply.isSome = true := by
  obtain ⟨before, after, rfl⟩ := List.append_of_mem ha
  obtain ⟨f, k, hf, -, hreply⟩ := hr'.at_attempt
  have hzero := zero_of_arrivals hb hm hr hall hf
  obtain ⟨j, o, r⟩ := a
  obtain rfl : o = .await := hop
  rw [← hreply]
  simp [machine, perform, isComplete, hzero]

/-- However at most as many cores as a barrier has participants come to it: the counter is the
number of participants less those that have counted down, nobody counts it down from zero and it
never grows; whoever is through, all participants have counted down; and once they have, every
look at the counter, whenever it comes, lets its core through. -/
theorem meeting_is_safe (hb : ofParticipants? n = some b) (hm : m ≤ n.toNat)
    (hr : (meeting m b).Runs h d) :
    (arrivals m h ≤ n.toNat ∧ d.shared.remaining.toNat = n.toNat - arrivals m h) ∧
      (∀ (i : Nat) (k : Unit → Program machine Empty Unit),
        d.programs[i]? = some (.op .arrive k) → 0 < d.shared.remaining) ∧
      (∀ h' e, d.Runs h' e → e.shared.remaining ≤ d.shared.remaining) ∧
      (∀ i : Nat, d.programs[i]? = some (.done ()) → arrivals m h = n.toNat) ∧
      (arrivals m h = n.toNat → ∀ h' e, d.Runs h' e → e.shared.remaining = 0 ∧
        (∀ a ∈ h', a.op = .await → a.reply.isSome = true) ∧
        ∀ i : Nat, i < m → (e.step i).programs[i]? = some (.done ())) := by
  have hsum := remaining_add_arrivals hb hm hr
  refine ⟨⟨by omega, by omega⟩, fun i k => pos_of_arrive hb hm hr,
    fun h' e => remaining_le hb hm hr, fun i => all_arrived_of_done hb hm hr,
    fun hall h' e hr' => ?_⟩
  have hzero := zero_of_arrivals hb hm hr hall hr'
  exact ⟨hzero, fun a ha hop => await_answered hb hm hr hall hr' ha hop,
    fun i hi => through_of_zero hb hm (hr.append hr') hzero hi⟩

end Meeting

/-- Three participants: after two have come, and looked, one is missing; after the third, who has
gone ahead already, the two that wait get through as well. -/
theorem meeting_is_safe_of_three :
    ([0, 1, 0, 1, 1].foldl Crew.step (meeting 3 ⟨3⟩)).shared.remaining = 1 ∧
      ([0, 1, 0, 1, 1, 2, 2].foldl Crew.step (meeting 3 ⟨3⟩)).programs[2]? = some (.done ()) ∧
      ([0, 1, 0, 1, 1, 2, 2, 0].foldl Crew.step (meeting 3 ⟨3⟩)).programs[0]? =
        some (.done ()) := by
  obtain ⟨h, hr⟩ := Crew.exists_runs_foldl [0, 1, 0, 1, 1, 2, 2] (meeting 3 ⟨3⟩)
  have hsafe := meeting_is_safe (n := 3) rfl (by decide) hr
  have hdone : ([0, 1, 0, 1, 1, 2, 2].foldl Crew.step (meeting 3 ⟨3⟩)).programs[2]? =
      some (.done ()) := rfl
  obtain ⟨-, -, -, hall, hfree⟩ := hsafe
  exact ⟨rfl, hdone, (hfree (hall 2 hdone) [] _ .start).2.2 0 (by decide)⟩

end BareKernel.Sync.Barrier
