import BareKernel.Proofs.Boot.Crew
import BareKernel.Proofs.Paging.Build

/-! How the tables come to be built. The primary core reads them while they are blank, asks the
firmware, writes the layout for its answer and only then says that they are built; so whenever they
are said to be built, its replies tell for which answer, and all of the layout is there. -/

namespace BareKernel.Boot

open Kernel Sync

variable {b : Sequencer} {cores : List Nat} {body : Nat → Code Unit} {k : Kernel}
  {h h' : List (Attempt machine)} {d : Crew machine Panic State} {i core : Nat}
  {blank : Paging.TableStorage} {φ : Phase} {o : Op} {r : Reply o} {s : Stage}
  {as bs : List (Answer machine)} {space : Paging.AddressSpace}

/-! ## What the primary core's replies say -/

/-- The tables were read blank, and then the firmware was asked for the co-processor's memory and
gave this answer. -/
def Answered (b : Sequencer) (blank : Paging.TableStorage) (as : List (Answer machine))
    (reply : Except Firmware.Error (List UInt32)) : Prop :=
  ∃ pre bs post, as = pre ++ ⟨.readTables, blank⟩ :: (bs ++ post) ∧
    (b.platform.firmware Firmware.tagVideoMemory [0, 0]).After bs (.done reply)

theorem Answered.append {reply : Except Firmware.Error (List UInt32)}
    (h : Answered b blank as reply) (bs : List (Answer machine)) :
    Answered b blank (as ++ bs) reply := by
  obtain ⟨pre, cs, post, rfl, h⟩ := h
  refine ⟨pre, cs, post ++ bs, ?_, h⟩
  simp only [List.append_assoc, List.cons_append]

/-- This space is the board's layout for the answer that the replies tell of. -/
def Laid (b : Sequencer) (blank : Paging.TableStorage) (as : List (Answer machine))
    (space : Paging.AddressSpace) : Prop :=
  ∃ reply, Answered b blank as reply ∧
    blank.space.populateBoard (Paging.cacheableBoundary (reply.map .ofValues)).1 = .ok space

theorem Laid.append (h : Laid b blank as space) (bs : List (Answer machine)) :
    Laid b blank (as ++ bs) space := by
  obtain ⟨reply, ha, hs⟩ := h
  exact ⟨reply, ha.append bs, hs⟩

/-- What a core's replies have in them while it builds the tables. -/
structure Building (b : Sequencer) (blank : Paging.TableStorage) (as : List (Answer machine))
    (s : Stage) : Prop where
  filling : ∀ bs, s = .setup (.filling bs) → ∃ pre, as = pre ++ ⟨.readTables, blank⟩ :: bs
  filled : ∀ space, s = .setup (.filled space) → Laid b blank as space

namespace Building

/-- At any other stage there is nothing to tell. -/
theorem of_ne (hfilling : ∀ bs, s ≠ .setup (.filling bs))
    (hfilled : ∀ space, s ≠ .setup (.filled space)) : Building b blank as s :=
  ⟨fun bs h => absurd h (hfilling bs), fun space h => absurd h (hfilled space)⟩

theorem add (hb : Building b blank as s) (a : Answer machine) :
    Building b blank (as ++ [a]) (s.add a) where
  filling := by
    intro bs h
    obtain ⟨t, rfl, ht⟩ := Stage.add_eq_setup h
    cases t with
    | filling cs =>
      obtain rfl := Setup.filling.inj ht
      obtain ⟨pre, rfl⟩ := hb.filling cs rfl
      exact ⟨pre, by rw [List.append_assoc, List.cons_append]⟩
    | _ => cases ht
  filled := by
    intro space h
    obtain ⟨t, rfl, ht⟩ := Stage.add_eq_setup h
    cases t with
    | filled space' =>
      obtain rfl := Setup.filled.inj ht
      exact (hb.filled space rfl).append [a]
    | _ => cases ht

theorem step (hb : Building b blank as φ.stage) (hp : Permits b blank body φ o)
    (hf : Foreseen blank φ.stage o r) : Building b blank (as ++ [⟨o, r⟩]) (φ.next o r).stage := by
  cases hp with
  | @note i s c e he =>
    change Building b blank _ (s.next (.note i e) ())
    rw [Stage.next_note he]
    exact hb.add _
  | @use i s c o scope ha hc =>
    change Building b blank _ (s.next o r)
    rw [Stage.next_use ha hc r]
    exact hb.add _
  | readBlank =>
    obtain rfl : r = blank := hf
    refine ⟨fun bs h => ⟨as, ?_⟩, nofun⟩
    obtain rfl := Setup.filling.inj (Stage.setup.inj h)
    rfl
  | @writeTables i c cs space hfills =>
    refine ⟨nofun, fun space' h => ?_⟩
    obtain rfl := Setup.filled.inj (Stage.setup.inj h)
    obtain ⟨reply, ⟨bs, post, rfl, hafter⟩, hspace⟩ := hfills
    obtain ⟨pre, rfl⟩ := hb.filling _ rfl
    exact Laid.append ⟨reply, ⟨pre, bs, post, rfl, hafter⟩, hspace⟩ _
  | initHeap => cases r <;> exact of_ne nofun nofun
  | startBarrier => cases r <;> exact of_ne nofun nofun
  | stopBarrier => cases r <;> exact of_ne nofun nofun
  | findStart => cases r <;> exact of_ne nofun nofun
  | findStop => cases r <;> exact of_ne nofun nofun
  | @awaitComplete i c m rdv => cases m <;> exact of_ne nofun nofun
  | _ => exact of_ne nofun nofun

end Building

theorem building_of_heeds (hs : Building b blank [] φ.stage)
    (hh : (protocol b blank body).Heeds φ as) :
    Building b blank as ((protocol b blank body).trace φ as).stage :=
  hh.induction (T := fun as (ψ : Phase) => Building b blank as ψ.stage) hs
    fun _ _ _ _ ih hp hf => ih.step hp hf

/-! ## All cores -/

namespace Boots

theorem building (hb : Boots b cores body k) (hr : (b.crew cores body k).Runs h d)
    (hi : cores[i]? = some core) :
    Building b k.tables (answersOf h i)
      (phaseAfter b k.tables body core (answersOf h i)).stage := by
  refine building_of_heeds ?_ (hb.heeds hr hi)
  unfold startPhase
  split <;> exact .of_ne nofun nofun

/-- Whoever says that the tables are built has written what it says. -/
theorem of_markBuilt (hb : Boots b cores body k) (hr : (b.crew cores body k).Runs h d)
    (hi : cores[i]? = some core) {next : Unit → Code State}
    (hp : d.programs[i]? = some (.op (M := machine) .markBuilt next)) :
    core = primaryCore ∧ Laid b k.tables (answersOf h i) d.shared.tables.space := by
  have hmem : phaseAfter b k.tables body core (answersOf h i) ∈ phasesAfter b cores body k h :=
    mem_phasesAfter hi
  have hbuilding := hb.building hr hi
  have hcore := (hb.trail hr hi).1
  have hpermits := hb.permits hr hi hp
  have hs := hb.sound hr
  generalize phaseAfter b k.tables body core (answersOf h i) = φ at *
  cases hpermits with
  | use _ hc => exact hc.elim
  | @markBuilt i c space =>
    obtain ⟨-, htables, -⟩ := hs.before _ hmem _ rfl
    refine ⟨hcore.symm.trans ((hs.formed _ hmem).setup _ rfl).1, ?_⟩
    rw [htables]
    exact hbuilding.filled space rfl

/-- Tables are written in their place, and before they are said to be built. -/
theorem of_writeTables (hb : Boots b cores body k) (hr : (b.crew cores body k).Runs h d)
    (hi : cores[i]? = some core) {t : Paging.TableStorage} {next : Unit → Code State}
    (hp : d.programs[i]? = some (.op (M := machine) (.writeTables t) next)) :
    t.isBuilt = false ∧ t.space.origin = k.tables.space.origin := by
  have hpermits := hb.permits hr hi hp
  generalize phaseAfter b k.tables body core (answersOf h i) = φ at hpermits
  cases hpermits with
  | use _ hc => exact hc.elim
  | writeTables hfills =>
    obtain ⟨reply, -, hspace⟩ := hfills
    exact ⟨hb.tables, Paging.AddressSpace.origin_of_populate hspace⟩

/-- The tables never move. -/
theorem origin_eq (hb : Boots b cores body k) (hr : (b.crew cores body k).Runs h d) :
    d.shared.tables.space.origin = k.tables.space.origin := by
  induction hr with
  | start => rfl
  | @step h d j hr ih =>
    rcases d.attempt_cases j with ⟨-, hs⟩ | ⟨o, next, hp, -, hs⟩
    · rw [hs]
      exact ih
    · obtain ⟨core, hj⟩ := hb.exists_core hr hp
      rw [hs]
      cases o with
      | writeTables t => exact (hb.of_writeTables hr hj hp).2
      | _ => exact ih

/-- Whenever the tables are said to be built, they are what the firmware's answer to the primary
core asks for. -/
theorem laid_of_built (hb : Boots b cores body k) (hr : (b.crew cores body k).Runs h d)
    (hbuilt : d.shared.tables.isBuilt = true) :
    ∃ i, cores[i]? = some primaryCore ∧
      Laid b k.tables (answersOf h i) d.shared.tables.space := by
  induction hr with
  | start => cases hb.tables.symm.trans hbuilt
  | @step h d j hr ih =>
    have hkeep : (d.step j).shared.tables = d.shared.tables → ∃ i, cores[i]? = some primaryCore ∧
        Laid b k.tables (answersOf (h ++ d.attempt j) i) (d.step j).shared.tables.space := by
      intro hsame
      rw [hsame] at hbuilt ⊢
      obtain ⟨i, hi, hlaid⟩ := ih hbuilt
      refine ⟨i, hi, ?_⟩
      rw [answersOf_append]
      exact hlaid.append _
    rcases d.attempt_cases j with ⟨-, hs⟩ | ⟨o, next, hp, -, hs⟩
    · exact hkeep (congrArg (·.tables) hs)
    · obtain ⟨core, hj⟩ := hb.exists_core hr hp
      cases o with
      | markBuilt =>
        obtain ⟨rfl, hlaid⟩ := hb.of_markBuilt hr hj hp
        refine ⟨j, hj, ?_⟩
        rw [hs, answersOf_append]
        exact hlaid.append _
      | writeTables t =>
        rw [hs] at hbuilt
        cases (hb.of_writeTables hr hj hp).1.symm.trans hbuilt
      | _ => exact hkeep (congrArg (·.tables) hs)

end Boots

end BareKernel.Boot
