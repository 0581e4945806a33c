import Mathlib.Data.List.NodupEquivFin
import BareKernel.Proofs.Boot.Crew

/-! Who touches what during a boot. Locks are bypassed while the gate is closed; in that time one
core is alone with everything that the cores share, and no core takes a lock or counts itself down
before its own paging is on. -/

namespace BareKernel.Boot

open Kernel Sync

variable {b : Sequencer} {cores : List Nat} {body : Nat → Code Unit} {k : Kernel}
  {h : List (Attempt machine)} {d : Crew machine Panic State} {i j core : Nat}
  {blank : Paging.TableStorage} {φ : Phase} {φs : List Phase} {o : Op} {l : LockName}
  {as : List (Answer machine)}

inductive Resource where
  | heap
  | console
  | mailbox
  | tables
  | barriers
  deriving DecidableEq, Repr

/-- What an operation touches of what the cores share. -/
def resource? : Op → Option Resource
  | .initHeap _ | .allocate _ | .allocateObject _ _ | .free _ | .heapStats | .heapIntegrity =>
    some .heap
  | .readConsoleReady | .setConsoleReady | .readLogLimit | .setLogLimit _ | .pollUart _
  | .transmit _ | .readPins | .writePins _ | .writeDevice _ _ => some .console
  | .exchange _ _ => some .mailbox
  | .readTables | .writeTables _ | .markBuilt => some .tables
  | .publish _ | .readRendezvous | .arrive _ | .awaitComplete _ => some .barriers
  | _ => none

/-- The lock that goes with an operation, once there is more than one core. -/
def lock? : Op → Option LockName
  | .initHeap _ | .allocate _ | .allocateObject _ _ | .free _ | .heapStats | .heapIntegrity =>
    some .heap
  | .pollUart _ | .transmit _ => some .console
  | .exchange _ _ => some .mailbox
  | _ => none

/-- An atomic read, change and write. -/
def IsExchange : Op → Prop
  | .take _ | .arrive _ | .countEntered => True
  | _ => False

theorem resource?_of_lock? (hl : lock? o = some l) : (resource? o).isSome = true := by
  cases o <;> first | rfl | cases hl

/-! ## The gate -/

theorem Sound.not_past_of_closed (hs : Sound b blank k φs) (hφ : φ ∈ φs)
    (hg : k.gateOpen = false) : ¬φ.stage.IsPast := by
  intro hpast
  obtain ⟨r, hready⟩ := hs.ready (hs.past φ hφ hpast)
  rw [hready.gate] at hg
  cases hg

/-- The gate is closed wherever the setup may use devices. -/
theorem Sound.closed_of_allows {t : Setup} (hs : Sound b blank k φs) (hφ : φ ∈ φs)
    (ht : φ.stage = .setup t) (ha : Allows b blank (.setup t) .setup) : k.gateOpen = false := by
  have hholds := hs.before φ hφ t ht
  cases t with
  | setReleased r => cases ha
  | _ => exact hholds.1.gate

theorem perform_gate (hg : (perform o k).2.gateOpen = false) : k.gateOpen = false := by
  cases o <;> first | exact hg | cases hg

/-! ## What is permitted -/

/-- Before the release only the setup touches anything that is shared. -/
theorem Permits.setup_of_resource (hp : Permits b blank body φ o)
    (ho : (resource? o).isSome = true) (hn : ¬φ.stage.IsPast) : ∃ t, φ.stage = .setup t := by
  have hpast : ∀ {s : Stage}, 2 ≤ s.rank → φ.stage = s → ∃ t, φ.stage = .setup t := by
    intro s hs he
    rw [he] at hn
    exact absurd hs hn
  cases hp with
  | note _ => cases ho
  | @use i s c o scope ha hc =>
    cases s with
    | setup t => exact ⟨t, rfl⟩
    | parked => exact ha.elim
    | released => exact ha.elim
    | arriving _ _ => exact ha.elim
    | waiting _ _ => exact ha.elim
    | entering => exact ha.elim
    | leaving => exact ha.elim
    | enabling _ => exact hpast (by simp [Stage.rank]) rfl
    | running _ => exact hpast (by simp [Stage.rank]) rfl
    | finished => exact hpast (by simp [Stage.rank]) rfl
  | awaitReleased _ _ => cases ho
  | readBlank => exact ⟨_, rfl⟩
  | writeTables _ => exact ⟨_, rfl⟩
  | markBuilt => exact ⟨_, rfl⟩
  | initHeap => exact ⟨_, rfl⟩
  | startBarrier => exact ⟨_, rfl⟩
  | stopBarrier => exact ⟨_, rfl⟩
  | publish => exact ⟨_, rfl⟩
  | openGate => exact ⟨_, rfl⟩
  | setReleased => exact ⟨_, rfl⟩
  | @arrive i c m r => exact hpast (by cases m <;> simp [Stage.rank]) rfl
  | @awaitComplete i c m r => exact hpast (by cases m <;> simp [Stage.rank]) rfl
  | _ => exact hpast (by simp [Stage.rank]) rfl

/-- Code may use what has a lock under it, or behind a gate that it saw closed; the setup's devices
need neither. -/
theorem setup_or_mayUse {c : Client} {scope : Scope} (hc : c.Permits scope o)
    (hl : lock? o = some l) : scope = .setup ∨ c.MayUse l := by
  cases o with
  | pollUart mask =>
    cases hl
    exact hc.imp_right And.right
  | transmit byte =>
    cases hl
    exact hc.imp_right And.right
  | exchange tag values =>
    cases hl
    exact .inr hc.2
  | allocate size =>
    cases hl
    exact .inr hc.2
  | allocateObject align bytes =>
    cases hl
    exact .inr hc.2
  | heapStats =>
    cases hl
    exact .inr hc.2
  | heapIntegrity =>
    cases hl
    exact .inr hc.2
  | free addr =>
    cases hl
    exact .inr hc.2.1
  | initHeap region => exact hc.elim
  | _ => cases hl

/-- Whoever goes without the lock does so behind a closed gate. -/
theorem Permits.closed_of_bypass (hp : Permits b blank body φ o) (hs : Sound b blank k φs)
    (hφ : φ ∈ φs) (hl : lock? o = some l) (hn : l ∉ φ.client.held) : k.gateOpen = false := by
  have hsetup : ∀ {t}, φ.stage = .setup t → Allows b blank (.setup t) .setup →
      k.gateOpen = false := fun ht ha => hs.closed_of_allows hφ ht ha
  cases hp with
  | @use i s c o scope ha hc =>
    rcases setup_or_mayUse hc hl with rfl | hu
    · cases s with
      | setup t => exact hsetup rfl ha
      | enabling _ => rcases ha with ha | ⟨ha, -⟩ <;> cases ha
      | running _ => cases ha
      | finished => cases ha
      | _ => exact ha.elim
    · exact hs.reading _ hφ false (hu.resolve_left hn)
  | initHeap => exact hsetup rfl rfl
  | startBarrier => exact hsetup rfl rfl
  | stopBarrier => exact hsetup rfl rfl
  | _ => cases hl

/-- An exchange comes after the core's own paging. -/
theorem Permits.paged_of_exchange (hp : Permits b blank body φ o) (hs : Sound b blank k φs)
    (hφ : φ ∈ φs) (ht : Trail b blank body i as φ.stage) (ho : IsExchange o) :
    PagingOn b blank i as := by
  cases hp with
  | @use i s c o scope ha hc =>
    cases s with
    | setup t =>
      -- A look at the gate would have shown it closed.
      exfalso
      cases o with
      | take l =>
        have hscope : scope = .setup ∨ scope = .silent := by
          cases t <;> first | exact .inl ha | exact .inr ha
        rcases hscope with rfl | rfl
        · have hclosed := hs.closed_of_allows hφ rfl ha
          rcases hc with hc | ⟨-, hc⟩
          · cases hc
          · have hopen := hs.reading _ hφ true hc
            rw [hclosed] at hopen
            cases hopen
        · rcases hc with hc | ⟨hc, -⟩
          · cases hc
          · exact hc rfl
      | countEntered =>
        cases hc
        cases t <;> cases ha
      | arrive barrier => exact hc.elim
      | _ => exact ho.elim
    | enabling bs =>
      rcases ha with rfl | ⟨rfl, hen⟩
      · exfalso
        cases o with
        | take l =>
          rcases hc with hc | ⟨hc, -⟩
          · cases hc
          · exact hc rfl
        | countEntered => cases hc
        | arrive barrier => exact hc.elim
        | _ => exact ho.elim
      · obtain ⟨pre, rfl⟩ := ht.enabling bs rfl
        exact ⟨pre, bs, rfl, hen⟩
    | running _ => exact ht.enabled (by simp [Stage.rank])
    | finished => exact ht.enabled (by simp [Stage.rank])
    | _ => exact ha.elim
  | @arrive i c m r => exact ht.enabled (by cases m <;> simp [Stage.rank])
  | _ => exact ho.elim

/-! ## All cores -/

namespace Boots

/-- Behind a closed gate only the primary core is about to touch anything that is shared. -/
theorem primary_of_closed (hb : Boots b cores body k) (hr : (b.crew cores body k).Runs h d)
    (hg : d.shared.gateOpen = false) {next : Reply o → Code State}
    (hp : d.programs[i]? = some (.op o next)) (ho : (resource? o).isSome = true) :
    cores[i]? = some primaryCore := by
  obtain ⟨core, hi⟩ := hb.exists_core hr hp
  have hs := hb.sound hr
  have hmem : phaseAfter b k.tables body core (answersOf h i) ∈ phasesAfter b cores body k h :=
    mem_phasesAfter hi
  obtain ⟨t, ht⟩ := (hb.permits hr hi hp).setup_of_resource ho (hs.not_past_of_closed hmem hg)
  have hprimary := ((hs.formed _ hmem).setup t ht).1
  rw [(hb.trail hr hi).1] at hprimary
  rwa [hprimary] at hi

/-- Behind a closed gate only the primary core has touched anything that is shared. -/
theorem primary_of_history (hb : Boots b cores body k) (hr : (b.crew cores body k).Runs h d)
    (hg : d.shared.gateOpen = false) :
    ∀ a ∈ h, (resource? a.op).isSome = true → cores[a.core]? = some primaryCore := by
  induction hr with
  | start => exact nofun
  | @step h d i hr ih =>
    rcases d.attempt_cases i with ⟨ha, hs⟩ | ⟨o, next, hp, ha, hs⟩
    · rw [hs] at hg
      rw [ha, List.append_nil]
      exact ih hg
    · rw [hs] at hg
      have hg := perform_gate hg
      rw [ha]
      refine List.forall_mem_append.mpr ⟨ih hg, List.forall_mem_singleton.mpr fun ho => ?_⟩
      exact hb.primary_of_closed hr hg hp ho

/-- The primary core is there once. -/
theorem eq_of_primary (hb : Boots b cores body k) (hi : cores[i]? = some primaryCore)
    (hj : cores[j]? = some primaryCore) : i = j := by
  have honce : ∀ {i j : Nat}, i < j → cores[i]? = some primaryCore → cores[j]? = some primaryCore →
      False := by
    intro i j hij hi hj
    obtain ⟨hlt, hget⟩ := List.getElem?_eq_some_iff.mp hi
    obtain ⟨hlt', hget'⟩ := List.getElem?_eq_some_iff.mp hj
    have htwice : List.Duplicate primaryCore cores :=
      List.duplicate_iff_exists_distinct_get.mpr
        ⟨⟨i, hlt⟩, ⟨j, hlt'⟩, hij, hget.symm, hget'.symm⟩
    have htwo := List.duplicate_iff_two_le_count.mp htwice
    rw [hb.roster primaryCore b.cores.pos] at htwo
    exact absurd htwo (by decide)
  rcases Nat.lt_trichotomy i j with hij | hij | hij
  · exact (honce hij hi hj).elim
  · exact hij
  · exact (honce hij hj hi).elim

end Boots

/-! ## The guarantee -/

/-- Who may touch what the cores share. -/
structure Exclusive (b : Sequencer) (blank : Paging.TableStorage) (cores : List Nat)
    (h : List (Attempt machine)) (d : Crew machine Panic State) : Prop where
  /-- While the gate is closed, only the primary core touches, or has touched, anything shared. -/
  closed : d.shared.gateOpen = false →
    (∀ a ∈ h, (resource? a.op).isSome = true → cores[a.core]? = some primaryCore) ∧
      ∀ {i : Nat} {o : Op} {next : Reply o → Code State}, d.programs[i]? = some (.op o next) →
        (resource? o).isSome = true → cores[i]? = some primaryCore
  /-- A core that goes without a lock is alone: the gate is closed, nobody else has touched anything
  shared so far, and nobody else is about to. -/
  bypass : ∀ {i : Nat} {o : Op} {l : LockName} {next : Reply o → Code State},
    d.programs[i]? = some (.op o next) → lock? o = some l → ¬Holds l (answersOf h i) →
      d.shared.gateOpen = false ∧ cores[i]? = some primaryCore ∧
        (∀ a ∈ h, (resource? a.op).isSome = true → a.core = i) ∧
        ∀ {j : Nat} {q : Op} {next : Reply q → Code State}, j ≠ i →
          d.programs[j]? = some (.op q next) → resource? q = none
  /-- A core that is about to exchange has its own paging on. -/
  paged : ∀ {i core : Nat} {o : Op} {next : Reply o → Code State}, cores[i]? = some core →
    d.programs[i]? = some (.op o next) → IsExchange o → PagingOn b blank core (answersOf h i)

/-- In every interleaving, locks are bypassed only while one core is alone, and no core exchanges
anything before its own paging is on. -/
theorem exclusive_of_boots (hb : Boots b cores body k) (hr : (b.crew cores body k).Runs h d) :
    Exclusive b k.tables cores h d where
  closed := by
    intro hg
    exact ⟨hb.primary_of_history hr hg, fun hp ho => hb.primary_of_closed hr hg hp ho⟩
  bypass := by
    intro i o l next hp hl hn
    obtain ⟨core, hi⟩ := hb.exists_core hr hp
    have hfree : l ∉ (phaseAfter b k.tables body core (answersOf h i)).client.held :=
      fun hheld => hn (hb.holds hr hi l hheld)
    have hg := (hb.permits hr hi hp).closed_of_bypass (hb.sound hr) (mem_phasesAfter hi) hl hfree
    have hprimary := hb.primary_of_closed hr hg hp (resource?_of_lock? hl)
    refine ⟨hg, hprimary, ?_, ?_⟩
    · intro a ha ho
      exact hb.eq_of_primary (hb.primary_of_history hr hg a ha ho) hprimary
    · intro j q next hne hq
      by_contra hsome
      have hsome := Option.isSome_iff_ne_none.mpr hsome
      exact hne (hb.eq_of_primary (hb.primary_of_closed hr hg hq hsome) hprimary)
  paged := by
    intro i core o next hi hp ho
    exact (hb.permits hr hi hp).paged_of_exchange (hb.sound hr) (mem_phasesAfter hi)
      (hb.trail hr hi).2 ho

/-- The small boot when its primary core is about to allocate the first barrier. -/
def smallMoment : Crew machine Panic State :=
  (List.replicate 10 0).foldl Crew.step (smallBoot.crew smallCores smallBody smallKernel)

/-- The core goes without the heap's lock, and is alone. -/
theorem exclusive_smallMoment : Boots smallBoot smallCores smallBody smallKernel ∧
    (smallMoment.attempt 0).map (fun a => (lock? a.op, a.reply.isSome)) = [(some .heap, true)] ∧
    ∃ h, (smallBoot.crew smallCores smallBody smallKernel).Runs h smallMoment ∧
      Exclusive smallBoot smallKernel.tables smallCores h smallMoment := by
  obtain ⟨h, hr⟩ := Crew.exists_runs_foldl (List.replicate 10 0)
    (smallBoot.crew smallCores smallBody smallKernel)
  exact ⟨boots_small, by decide +kernel, h, hr, exclusive_of_boots boots_small hr⟩

end BareKernel.Boot
