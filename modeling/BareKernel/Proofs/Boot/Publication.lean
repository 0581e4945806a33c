import BareKernel.Proofs.Boot.Tables
import BareKernel.Proofs.Sync.Alike

/-! What the primary core publishes before it releases the others: the tables and the barriers.
From the release on they are in place, and nobody writes them again; and every core turns paging on
with these tables. -/

namespace BareKernel.Boot

open Kernel Sync

variable {b : Sequencer} {cores : List Nat} {body : Nat → Code Unit} {k : Kernel}
  {h h' : List (Attempt machine)} {d d' : Crew machine Panic State} {i core : Nat}
  {blank : Paging.TableStorage} {φ : Phase} {o : Op} {p : Code State}
  {as : List (Answer machine)}

/-- An operation that writes what is published. -/
def Publishes : Op → Prop
  | .writeTables _ | .markBuilt | .publish _ => True
  | _ => False

/-- The tables hold the board's whole layout, for what the firmware told the primary core after it
had read them blank. -/
def Furnished (b : Sequencer) (cores : List Nat) (blank : Paging.TableStorage)
    (h : List (Attempt machine)) (space : Paging.AddressSpace) : Prop :=
  ∃ i reply, cores[i]? = some primaryCore ∧ Answered b blank (answersOf h i) reply ∧
    space.Complete (reply.map .ofValues)

/-- The tables are built and complete, and the barriers are two blocks of a heap in order, apart
from each other and from whatever else it has handed out. -/
structure InPlace (b : Sequencer) (cores : List Nat) (blank : Paging.TableStorage)
    (h : List (Attempt machine)) (k : Kernel) : Prop where
  gate : k.gateOpen = true
  heap : k.memory.isInitialised = true
  built : k.tables.isBuilt = true
  tables : Furnished b cores blank h k.tables.space
  barriers : ∃ r live, k.release.rendezvous = some r ∧ Loan.Apart ⟨r.stop, 4⟩ ⟨r.start, 4⟩ ∧
    (Session.mk k.memory (⟨r.stop, 4⟩ :: ⟨r.start, 4⟩ :: live)).InOrder

/-! ## Who publishes -/

/-- Only the setup publishes. -/
theorem Permits.not_past (hp : Permits b blank body φ o) (ho : Publishes o) :
    ∃ t, φ.stage = .setup t := by
  cases hp with
  | writeTables _ => exact ⟨_, rfl⟩
  | markBuilt => exact ⟨_, rfl⟩
  | publish => exact ⟨_, rfl⟩
  | use _ hc => cases o <;> first | exact ho.elim | exact hc.elim
  | _ => exact ho.elim

theorem perform_keeps_published (ho : ¬Publishes o) (s : Kernel) :
    (perform o s).2.tables = s.tables ∧
      (perform o s).2.release.rendezvous = s.release.rendezvous := by
  cases o <;> first | exact ⟨rfl, rfl⟩ | exact absurd trivial ho

namespace Boots

theorem furnished (hb : Boots b cores body k) (hr : (b.crew cores body k).Runs h d)
    (hbuilt : d.shared.tables.isBuilt = true) :
    Furnished b cores k.tables h d.shared.tables.space := by
  obtain ⟨i, hi, reply, hanswered, hspace⟩ := hb.laid_of_built hr hbuilt
  exact ⟨i, reply, hi, hanswered, Paging.AddressSpace.complete_of_populateBoard hspace⟩

theorem inPlace (hb : Boots b cores body k) (hr : (b.crew cores body k).Runs h d)
    (hrel : d.shared.release.isReleased = true) : InPlace b cores k.tables h d.shared := by
  obtain ⟨r, hready⟩ := (hb.sound hr).ready hrel
  have hbuilt : d.shared.tables.isBuilt = true := hready.tables.1
  refine ⟨hready.gate, hready.heap.isInitialised, hbuilt, hb.furnished hr hbuilt, ?_⟩
  refine ⟨r, _, hready.rendezvous, ?_, hready.heap⟩
  exact (List.pairwise_cons.mp hready.heap.apart).1 _ List.mem_cons_self

theorem not_publishes (hb : Boots b cores body k) (hr : (b.crew cores body k).Runs h d)
    (hrel : d.shared.release.isReleased = true) (hi : cores[i]? = some core)
    {next : Reply o → Code State} (hp : d.programs[i]? = some (.op o next)) : ¬Publishes o := by
  intro ho
  obtain ⟨t, ht⟩ := (hb.permits hr hi hp).not_past ho
  have hun := ((hb.sound hr).before _ (mem_phasesAfter hi) t ht).unreleased
  rw [hrel] at hun
  cases hun

theorem lasting_step (hb : Boots b cores body k) (hr : (b.crew cores body k).Runs h d)
    (hrel : d.shared.release.isReleased = true) (i : Nat) :
    (d.step i).shared.tables = d.shared.tables ∧
      (d.step i).shared.release.rendezvous = d.shared.release.rendezvous ∧
      ∀ a ∈ d.attempt i, ¬Publishes a.op := by
  rcases d.attempt_cases i with ⟨ha, hs⟩ | ⟨o, next, hp, ha, hs⟩
  · rw [ha, hs]
    exact ⟨rfl, rfl, nofun⟩
  · obtain ⟨core, hi⟩ := hb.exists_core hr hp
    have ho := hb.not_publishes hr hrel hi hp
    obtain ⟨htables, hrendezvous⟩ := perform_keeps_published ho d.shared
    rw [ha, hs]
    exact ⟨htables, hrendezvous, List.forall_mem_singleton.mpr ho⟩

/-- Nothing takes a release back. -/
theorem released_step (hrel : d.shared.release.isReleased = true) (i : Nat) :
    (d.step i).shared.release.isReleased = true := by
  rcases d.attempt_cases i with ⟨-, hs⟩ | ⟨o, -, -, -, hs⟩
  · rw [hs]
    exact hrel
  · rw [hs]
    cases o <;> first | exact hrel | rfl

/-- From the release on, whatever else happens, what is published stays as it is. -/
theorem lasting (hb : Boots b cores body k) (hr : (b.crew cores body k).Runs h d)
    (hrel : d.shared.release.isReleased = true) (hr' : d.Runs h' d') :
    d'.shared.release.isReleased = true ∧ d'.shared.tables = d.shared.tables ∧
      d'.shared.release.rendezvous = d.shared.release.rendezvous ∧
      ∀ a ∈ h', ¬Publishes a.op := by
  induction hr' with
  | start => exact ⟨hrel, rfl, rfl, nofun⟩
  | step i hr' ih =>
    obtain ⟨hrel', htables, hrendezvous, hnone⟩ := ih
    obtain ⟨ht, hv, hn⟩ := hb.lasting_step (hr.append hr') hrel' i
    exact ⟨released_step hrel' i, ht.trans htables, hv.trans hrendezvous,
      List.forall_mem_append.mpr ⟨hnone, hn⟩⟩

end Boots

/-! ## Who turns paging on, and with what -/

/-- The same boot on a platform that turns paging on in another way. -/
def Sequencer.withEnable (b : Sequencer) (enable : Nat → Nat → Code Unit) : Sequencer :=
  { b with platform := { b.platform with enable := enable } }

/-- What is left of a core's boot once paging is on. -/
def Sequencer.fromPaging (b : Sequencer) (core : Nat) (body : Nat → Code Unit) : Code State :=
  b.toBody core >>= fun _ => body core >>= fun _ => depart core >>= fun _ => b.conclude core

/-- A core that takes part turns paging on once, between two parts of its boot that do not. -/
theorem Sequencer.run_eq_paging (hcore : core < b.cores.val) :
    b.run core body = b.toPaging core >>= fun bases =>
      b.platform.enable bases.1 bases.2 >>= fun _ => b.fromPaging core body := by
  simp only [run_eq hcore, approach_eq, fromPaging, Program.bind_assoc]

/-- Up to the call that turns paging on, a core keeps to the protocol, and it makes the call with
the bases of the tables. -/
theorem Boots.follows_toPaging (hb : Boots b cores body k) (hcore : core < b.cores.val) :
    (protocol b k.tables body).Follows
      (fun bases φ => bases = (k.tables.space.identityL1Base, k.tables.space.virtualL1Base) ∧
        ∃ c, φ = ⟨core, .enabling [], c⟩) (startPhase core) (b.toPaging core) :=
  Boot.follows_toPaging hb.platform hb.tables hcore rfl

/-- How paging would be turned on with other bases makes no difference to a core. -/
theorem Boots.alike_run (hb : Boots b cores body k) {enable : Nat → Nat → Code Unit}
    (he : enable k.tables.space.identityL1Base k.tables.space.virtualL1Base =
      b.platform.enable k.tables.space.identityL1Base k.tables.space.virtualL1Base) (core : Nat) :
    (protocol b k.tables body).Alike (startPhase core) (b.run core body)
      ((b.withEnable enable).run core body) := by
  by_cases hcore : core < b.cores.val
  · rw [Sequencer.run_eq_paging hcore, Sequencer.run_eq_paging (b := b.withEnable enable) hcore]
    refine .bind ((hb.follows_toPaging hcore).mono fun bases φ hφ => ?_)
    obtain ⟨rfl, -⟩ := hφ
    change (protocol b k.tables body).Alike φ _ (enable _ _ >>= fun _ => b.fromPaging core body)
    rw [he]
    exact .refl _
  · have hcore' : ¬core < (b.withEnable enable).cores.val := hcore
    have hsame : (b.withEnable enable).run core body = b.run core body := by
      simp only [Sequencer.run, hcore, hcore', if_false]
    rw [hsame]
    exact .refl _

namespace Boots

theorem bases_eq (hb : Boots b cores body k) (hr : (b.crew cores body k).Runs h d) :
    d.shared.tables.space.identityL1Base = k.tables.space.identityL1Base ∧
      d.shared.tables.space.virtualL1Base = k.tables.space.virtualL1Base := by
  simp only [Paging.AddressSpace.identityL1Base, Paging.AddressSpace.virtualL1Base,
    Paging.AddressSpace.identityL2Base, hb.origin_eq hr, and_self]

/-- Whatever the platform would do for other bases, the cores come to the same. -/
theorem runs_withEnable (hb : Boots b cores body k) (hr : (b.crew cores body k).Runs h d)
    {enable : Nat → Nat → Code Unit}
    (he : enable k.tables.space.identityL1Base k.tables.space.virtualL1Base =
      b.platform.enable k.tables.space.identityL1Base k.tables.space.virtualL1Base) :
    ∃ ps, ((b.withEnable enable).crew cores body k).Runs h ⟨d.shared, ps⟩ := by
  have hkeeps : (protocol b k.tables body).Keeps (Sound b k.tables) := Sound.keeps
  have hbeside : (protocol b k.tables body).Beside (cores.map startPhase)
      (b.crew cores body k).programs ((b.withEnable enable).crew cores body k).programs := by
    refine ⟨(List.length_map _).trans (List.length_map _).symm, ?_⟩
    intro i φ p hφ hp
    obtain ⟨core, hcore, rfl⟩ := Option.map_eq_some_iff.mp (getElem?_startPhase.symm.trans hφ)
    obtain rfl : b.run core body = p := by
      simp only [Sequencer.crew, List.getElem?_map, hcore] at hp
      exact Option.some.inj hp
    refine ⟨(b.withEnable enable).run core body, ?_, hb.alike_run he core⟩
    simp only [Sequencer.crew, List.getElem?_map, hcore, Option.map_some]
  exact hbeside.runs hkeeps hb.watched hr

/-- A core that comes to the call that turns paging on has been released, and makes it with the
bases of the tables. -/
theorem of_toPaging (hb : Boots b cores body k) (hr : (b.crew cores body k).Runs h d)
    (hi : cores[i]? = some core) (hcore : core < b.cores.val) {bs : List (Answer machine)}
    {bases : Nat × Nat} (hsplit : answersOf h i = as ++ bs)
    (ha : (b.toPaging core).After as (.done bases)) :
    d.shared.release.isReleased = true ∧
      bases = (d.shared.tables.space.identityL1Base, d.shared.tables.space.virtualL1Base) := by
  have hheeds := hb.heeds hr hi
  rw [hsplit] at hheeds
  obtain ⟨hbases, c, hphase⟩ :=
    (hb.follows_toPaging hcore).after ha (Protocol.heeds_append.mp hheeds).1
  have hlater : (phaseAfter b k.tables body core (answersOf h i)).stage.IsPast := by
    have hle : (phaseAfter b k.tables body core as).stage.rank ≤ _ := rank_le_append bs
    rw [← hsplit, show phaseAfter b k.tables body core as = _ from hphase] at hle
    exact Nat.le_trans (Nat.le_succ 2) hle
  obtain ⟨hidentity, hvirtual⟩ := hb.bases_eq hr
  refine ⟨(hb.sound hr).past _ (mem_phasesAfter hi) hlater, ?_⟩
  rw [hbases, hidentity, hvirtual]

end Boots

/-! ## The guarantee -/

/-- What is published is in place before the release, and stays. -/
structure Publication (b : Sequencer) (cores : List Nat) (body : Nat → Code Unit) (k : Kernel)
    (h : List (Attempt machine)) (d : Crew machine Panic State) : Prop where
  /-- The tables are complete before they are said to be built. -/
  furnished : d.shared.tables.isBuilt = true → Furnished b cores k.tables h d.shared.tables.space
  inPlace : d.shared.release.isReleased = true → InPlace b cores k.tables h d.shared
  /-- A core that takes part is on its way to the call that turns paging on; or it has been
  released, and is in the platform's own program for the two bases of the tables, or past it. -/
  paging : ∀ {i core p}, cores[i]? = some core → core < b.cores.val → d.programs[i]? = some p →
    (∃ q, (b.toPaging core).After (answersOf h i) q ∧ (∀ bases, q ≠ .done bases) ∧
      p = q >>= fun bases => b.platform.enable bases.1 bases.2 >>= fun _ =>
        b.fromPaging core body) ∨
    d.shared.release.isReleased = true ∧ ∃ as bs, answersOf h i = as ++ bs ∧
      (b.toPaging core).After as (.done (d.shared.tables.space.identityL1Base,
        d.shared.tables.space.virtualL1Base)) ∧
      (b.platform.enable d.shared.tables.space.identityL1Base
        d.shared.tables.space.virtualL1Base >>= fun _ => b.fromPaging core body).After bs p
  /-- No core asks the platform for anything else: however it would turn paging on with other
  bases, the cores do and come to the same. -/
  enabled : ∀ enable : Nat → Nat → Code Unit,
    enable d.shared.tables.space.identityL1Base d.shared.tables.space.virtualL1Base =
      b.platform.enable d.shared.tables.space.identityL1Base
        d.shared.tables.space.virtualL1Base →
    ∃ ps, ((b.withEnable enable).crew cores body k).Runs h ⟨d.shared, ps⟩
  /-- From the release on, no step of any core writes the tables or the barriers' addresses. -/
  lasting : d.shared.release.isReleased = true →
    ∀ {h' : List (Attempt machine)} {d' : Crew machine Panic State}, d.Runs h' d' →
      d'.shared.tables = d.shared.tables ∧
        d'.shared.release.rendezvous = d.shared.release.rendezvous ∧ ∀ a ∈ h', ¬Publishes a.op
  /-- Building the tables once more stores nothing, and asks the firmware nothing. -/
  kept : d.shared.release.isReleased = true →
    ∀ {m : Type → Type} [Monad m] (log : Log.Record → m Unit) (channel : Firmware.Channel m)
      (stores : Paging.TableStorage.Stores m), d.shared.tables.buildIn log channel stores = do
        log Paging.TableStorage.keepRecord
        return .ok d.shared.tables.space
  /-- No core finds the tables or the barriers missing. -/
  found : ∀ {i : Nat} {e : Panic}, d.programs[i]? = some (.stop e) →
    (∀ core, e ≠ .noTables core) ∧ e ≠ .noRendezvous

/-- In every interleaving, the tables and the barriers are in place before the release, every core
turns paging on with these tables, and nobody writes what is published or misses it. -/
theorem publication_of_boots (hb : Boots b cores body k) (hr : (b.crew cores body k).Runs h d) :
    Publication b cores body k h d where
  furnished := hb.furnished hr
  inPlace := hb.inPlace hr
  paging := by
    intro i core p hi hcore hp
    obtain ⟨q, hq, hrun⟩ := after_run hr hi
    obtain rfl := Option.some.inj (hp.symm.trans hq)
    rw [Sequencer.run_eq_paging hcore] at hrun
    rcases hrun.of_bind with ⟨q, ha, rfl⟩ | ⟨as, bs, bases, hsplit, ha, hrest⟩
    · by_cases hdone : ∃ bases, q = .done bases
      · obtain ⟨bases, rfl⟩ := hdone
        have hsplit := (List.append_nil (answersOf h i)).symm
        obtain ⟨hrel, rfl⟩ := hb.of_toPaging hr hi hcore hsplit ha
        exact .inr ⟨hrel, _, [], hsplit, ha, .nil _⟩
      · exact .inl ⟨q, ha, fun bases hq => hdone ⟨bases, hq⟩, rfl⟩
    · obtain ⟨hrel, rfl⟩ := hb.of_toPaging hr hi hcore hsplit ha
      exact .inr ⟨hrel, as, bs, hsplit, ha, hrest⟩
  enabled := by
    intro enable he
    obtain ⟨hidentity, hvirtual⟩ := hb.bases_eq hr
    rw [hidentity, hvirtual] at he
    exact hb.runs_withEnable hr he
  lasting := by
    intro hrel h' d' hr'
    exact (hb.lasting hr hrel hr').2
  kept := by
    intro hrel m _ log channel stores
    rw [Paging.TableStorage.buildIn, if_pos (hb.inPlace hr hrel).built]
  found := by
    intro i e hp
    obtain ⟨core, hi⟩ := hb.exists_core hr hp
    have horder : ¬e.IsBootOrder := hb.follows hr hi hp
    constructor
    · intro core he
      subst he
      exact horder trivial
    · intro he
      subst he
      exact horder trivial

/-- Two cores are released to tables and barriers that are in place, where entries can name the
tables, and each has turned paging on with them. -/
theorem publication_smallEnd : Boots smallBoot smallCores smallBody smallKernel ∧
    smallEnd.shared.release.isReleased = true ∧
    smallEnd.shared.tables.space.Placed ∧
    smallEnd.shared.records.toList = List.replicate 2 (pagingRecord
      smallEnd.shared.tables.space.identityL1Base smallEnd.shared.tables.space.virtualL1Base) ∧
    ∃ h, (smallBoot.crew smallCores smallBody smallKernel).Runs h smallEnd ∧
      Publication smallBoot smallCores smallBody smallKernel h smallEnd := by
  obtain ⟨h, hr⟩ := exists_runs_smallEnd
  have hplaced : smallKernel.tables.space.Placed := ⟨by decide, by decide⟩
  exact ⟨boots_small, by decide +kernel, hplaced.of_origin_eq (boots_small.origin_eq hr),
    by decide +kernel, h, hr, publication_of_boots boots_small hr⟩

end BareKernel.Boot
