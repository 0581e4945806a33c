import BareKernel.Proofs.Boot.Trail
import BareKernel.Proofs.Heap.Guarantees
import BareKernel.Proofs.Kernel.Body
import BareKernel.Proofs.Sync.Schedule

/-! Cores that boot together. Whatever their interleaving, the boot's invariant holds and every
core is where its own replies have led it. -/

namespace BareKernel.Boot

open Kernel Sync

variable {b : Sequencer} {cores : List Nat} {body : Nat → Code Unit} {k : Kernel}
  {h : List (Attempt machine)} {d : Crew machine Panic State} {i core : Nat}
  {p : Code State} {as : List (Answer machine)}

def Sequencer.crew (b : Sequencer) (cores : List Nat) (body : Nat → Code Unit) (k : Kernel) :
    Crew machine Panic State :=
  ⟨k, cores.map fun core => b.run core body⟩

/-- The cores that take turns are one interleaving of many. -/
theorem reach_runCores : (b.crew cores body k).Reach (runCores b cores body k) :=
  Crew.reach_run _ _

/-- Every core below the count boots once, besides any others; nothing has been set up yet, and
neither the platform nor the kernel's body does what is not theirs to do. -/
structure Boots (b : Sequencer) (cores : List Nat) (body : Nat → Code Unit) (k : Kernel) :
    Prop where
  roster : ∀ core < b.cores.val, cores.count core = 1
  gate : k.gateOpen = false
  release : k.release.isReleased = false
  tables : k.tables.isBuilt = false
  platform : b.platform.Orderly
  body : ∀ core < b.cores.val, Uses .kernel (body core)

/-- The phase of a core after these replies. -/
def phaseAfter (b : Sequencer) (blank : Paging.TableStorage) (body : Nat → Code Unit) (core : Nat)
    (as : List (Answer machine)) : Phase :=
  (protocol b blank body).trace (startPhase core) as

theorem phaseAfter_append {blank : Paging.TableStorage} {bs : List (Answer machine)} :
    phaseAfter b blank body core (as ++ bs) =
      (protocol b blank body).trace (phaseAfter b blank body core as) bs :=
  Protocol.trace_append

theorem rank_le_trace {blank : Paging.TableStorage} {φ : Phase} :
    φ.stage.rank ≤ ((protocol b blank body).trace φ as).stage.rank := by
  induction as generalizing φ with
  | nil => exact Nat.le_refl _
  | cons a as ih =>
    have hnext : φ.stage.rank ≤ (φ.next a.op a.reply).stage.rank := Stage.rank_le_next
    exact hnext.trans ih

theorem rank_le_append {blank : Paging.TableStorage} (bs : List (Answer machine)) :
    (phaseAfter b blank body core as).stage.rank ≤
      (phaseAfter b blank body core (as ++ bs)).stage.rank := by
  rw [phaseAfter_append]
  exact rank_le_trace

/-- The phases of all cores after a history. -/
def phasesAfter (b : Sequencer) (cores : List Nat) (body : Nat → Code Unit) (k : Kernel)
    (h : List (Attempt machine)) : List Phase :=
  (protocol b k.tables body).phases (cores.map startPhase) h

theorem getElem?_startPhase : (cores.map startPhase)[i]? = cores[i]?.map startPhase :=
  List.getElem?_map

theorem getElem?_phasesAfter (hi : cores[i]? = some core) :
    (phasesAfter b cores body k h)[i]? =
      some (phaseAfter b k.tables body core (answersOf h i)) := by
  refine Protocol.getElem?_phases.trans ?_
  change (cores.map startPhase)[i]?.map
    (fun φ => (protocol b k.tables body).trace φ (answersOf h i)) = _
  rw [getElem?_startPhase, hi]
  rfl

theorem mem_phasesAfter (hi : cores[i]? = some core) :
    phaseAfter b k.tables body core (answersOf h i) ∈ phasesAfter b cores body k h :=
  List.mem_of_getElem? (getElem?_phasesAfter hi)

namespace Boots

theorem sound_start (hb : Boots b cores body k) : Sound b k.tables k (cores.map startPhase) := by
  have hnotpast : ∀ core, ¬(startPhase core).stage.IsPast := by
    intro core
    unfold startPhase
    split <;> simp [Stage.IsPast, Stage.rank]
  refine ⟨?_, ?_, ?_, ?_, ?_, ?_⟩
  · intro core hcore
    have hmap : (cores.map startPhase).map (·.core) = cores := by
      rw [List.map_map]
      exact List.map_id cores
    rw [hmap]
    exact hb.roster core hcore
  · intro φ hφ
    obtain ⟨core, -, rfl⟩ := List.mem_map.mp hφ
    refine ⟨fun _ => rfl, ?_, fun hpast => absurd hpast (hnotpast core)⟩
    intro s hs
    refine ⟨?_, rfl⟩
    by_contra hne
    change core ≠ primaryCore at hne
    rw [startPhase, if_neg hne] at hs
    cases hs
  · intro φ hφ isOpen hreading
    obtain ⟨core, -, rfl⟩ := List.mem_map.mp hφ
    cases hreading
  · intro φ hφ s hs
    obtain ⟨core, -, rfl⟩ := List.mem_map.mp hφ
    unfold startPhase at hs
    split at hs
    · obtain rfl := Stage.setup.inj hs
      exact ⟨⟨hb.gate, hb.release⟩, rfl⟩
    · cases hs
  · intro φ hφ hpast
    obtain ⟨core, -, rfl⟩ := List.mem_map.mp hφ
    exact absurd hpast (hnotpast core)
  · intro hrel
    rw [hb.release] at hrel
    cases hrel

/-- The invariant holds at every moment, and every program keeps to the protocol from where it
stands. -/
theorem watched (hb : Boots b cores body k) (hr : (b.crew cores body k).Runs h d) :
    (protocol b k.tables body).Watched (Sound b k.tables)
      (fun a φ => a = State.halted ∧ (φ.core < b.cores.val → φ.stage = .finished))
      (cores.map startPhase) h d := by
  have hkeeps : (protocol b k.tables body).Keeps (Sound b k.tables) := Sound.keeps
  refine hkeeps.runs hb.sound_start ?_ ?_ hr
  · exact (List.length_map _).trans (List.length_map startPhase).symm
  · intro i φ p hφ hp
    obtain ⟨core, hcore, rfl⟩ := Option.map_eq_some_iff.mp (getElem?_startPhase.symm.trans hφ)
    obtain rfl : b.run core body = p := by
      simp only [Sequencer.crew, List.getElem?_map, hcore] at hp
      exact Option.some.inj hp
    exact follows_run hb.platform hb.body hb.tables core

theorem sound (hb : Boots b cores body k) (hr : (b.crew cores body k).Runs h d) :
    Sound b k.tables d.shared (phasesAfter b cores body k h) :=
  (hb.watched hr).invariant

theorem heeds (hb : Boots b cores body k) (hr : (b.crew cores body k).Runs h d)
    (hi : cores[i]? = some core) :
    (protocol b k.tables body).Heeds (startPhase core) (answersOf h i) := by
  refine (hb.watched hr).heeds i _ (getElem?_startPhase.trans ?_)
  rw [hi]
  rfl

/-- What a core's replies have in them, at the stage where it is. -/
theorem trail (hb : Boots b cores body k) (hr : (b.crew cores body k).Runs h d)
    (hi : cores[i]? = some core) :
    (phaseAfter b k.tables body core (answersOf h i)).core = core ∧
      Trail b k.tables body core (answersOf h i)
        (phaseAfter b k.tables body core (answersOf h i)).stage := by
  refine trail_of_heeds (φ := startPhase core) ?_ (hb.heeds hr hi)
  unfold startPhase
  split
  · exact Nat.le_refl 1
  · exact Nat.zero_le 1

theorem holds (hb : Boots b cores body k) (hr : (b.crew cores body k).Runs h d)
    (hi : cores[i]? = some core) :
    ∀ l ∈ (phaseAfter b k.tables body core (answersOf h i)).client.held,
      Holds l (answersOf h i) :=
  holds_of_heeds rfl (hb.heeds hr hi)

/-- The core of a program. -/
theorem exists_core (hb : Boots b cores body k) (hr : (b.crew cores body k).Runs h d)
    (hp : d.programs[i]? = some p) : ∃ core, cores[i]? = some core := by
  obtain ⟨hlt, -⟩ := List.getElem?_eq_some_iff.mp hp
  have hlen : d.programs.length = cores.length :=
    (hb.watched hr).length.trans (List.length_map startPhase)
  exact ⟨_, List.getElem?_eq_getElem (hlen ▸ hlt)⟩

theorem follows (hb : Boots b cores body k) (hr : (b.crew cores body k).Runs h d)
    (hi : cores[i]? = some core) (hp : d.programs[i]? = some p) :
    (protocol b k.tables body).Follows
      (fun a φ => a = State.halted ∧ (φ.core < b.cores.val → φ.stage = .finished))
      (phaseAfter b k.tables body core (answersOf h i)) p :=
  (hb.watched hr).follows i _ p (getElem?_phasesAfter hi) hp

/-- What a core does next is permitted where it is. -/
theorem permits {o : Op} {next : Reply o → Code State} (hb : Boots b cores body k)
    (hr : (b.crew cores body k).Runs h d) (hi : cores[i]? = some core)
    (hp : d.programs[i]? = some (.op o next)) :
    Permits b k.tables body (phaseAfter b k.tables body core (answersOf h i)) o :=
  (hb.follows hr hi hp).1

end Boots

/-- A program stands where its core's replies have led it. -/
theorem after_run (hr : (b.crew cores body k).Runs h d) (hi : cores[i]? = some core) :
    ∃ p, d.programs[i]? = some p ∧ (b.run core body).After (answersOf h i) p := by
  refine hr.after ?_
  rw [Sequencer.crew, List.getElem?_map, hi]
  rfl

/-! ## A boot for example -/

/-- The record of a core that turned paging on with these two bases. -/
def pagingRecord (identity higherHalf : Nat) : Log.Record where
  level := .debug
  target := "quiet"
  pieces := [Text.hex identity, Text.hex higherHalf]

/-- A platform without devices, whose co-processor has the last 76 MB; it records how paging was
turned on. -/
def quietPlatform (region : Region) : Platform where
  consoleInit := pure ()
  firmware _ _ := pure (.ok [0x3B400000, 0x04C00000])
  heapRegion := pure region
  wake := pure ()
  enable identity higherHalf := call (.keepRecord (pagingRecord identity higherHalf))
  log _ := pure ()

theorem orderly_quietPlatform (region : Region) : (quietPlatform region).Orderly where
  consoleInit := .pure ()
  firmware _ _ := .pure _
  heapRegion := .pure region
  wake := .pure ()
  enable _ _ := .call fun _ => trivial
  log _ := .pure ()

/-- Two cores take part. -/
def smallBoot : Sequencer := ⟨quietPlatform smallRegion, ⟨2, by decide, by decide⟩⟩

/-- A third one is there. -/
def smallCores : List Nat := [0, 1, 2]

def smallKernel : Kernel where
  memory := smallMemory
  tables := .blank 0x80000
  mailbox := ⟨0, 0, .blank⟩

/-- Each core allocates and gives back. -/
def smallBody (_core : Nat) : Code Unit := exerciseHeap 8

theorem boots_small : Boots smallBoot smallCores smallBody smallKernel where
  roster := by decide
  gate := rfl
  release := rfl
  tables := rfl
  platform := orderly_quietPlatform smallRegion
  body _ _ := uses_exerciseHeap 8

/-- The state in which the small boot ends. -/
def smallEnd : Crew machine Panic State := runCores smallBoot smallCores smallBody smallKernel

theorem exists_runs_smallEnd :
    ∃ h, (smallBoot.crew smallCores smallBody smallKernel).Runs h smallEnd :=
  Crew.reach_iff_exists_runs.mp reach_runCores

end BareKernel.Boot
