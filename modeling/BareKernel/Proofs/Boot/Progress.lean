import BareKernel.Proofs.Board.Platform
import BareKernel.Proofs.Boot.Custody
import BareKernel.Proofs.Boot.Exclusion

/-! A boot cannot get stuck. As long as nothing panics and the kernel's body returns, some core that
takes part can go on, until all of them have halted. Whoever waits for a lock waits for a core that
goes on; so if nobody did, all would wait for their release or at a barrier, and the count of the
earliest barrier at which one waits would be zero. -/

namespace BareKernel.Boot

open Kernel Sync

variable {b : Sequencer} {cores : List Nat} {body : Nat → Code Unit} {k k' : Kernel}
  {h : List (Attempt machine)} {d : Crew machine Panic State} {i j core : Nat}
  {blank : Paging.TableStorage} {φ ψ : Phase} {φs : List Phase} {o : Op} {l : LockName}
  {as : List (Answer machine)} {r : Rendezvous} {m : Meeting}

/-! ## Who holds a lock -/

/-- Every lock that is taken is in some core's hands. -/
def Accounted (k : Kernel) (φs : List Phase) : Prop :=
  ∀ l, (k.locks.get l).taken = true → ∃ (i : Nat) (φ : Phase), φs[i]? = some φ ∧ l ∈ φ.client.held

/-- A core holds whatever it held and is still taken, or has just taken it. -/
theorem Accounted.set (ha : Accounted k φs) (hi : φs[i]? = some φ)
    (hl : ∀ l, (k'.locks.get l).taken = true → l ∈ ψ.client.held ∨
      (k.locks.get l).taken = true ∧ (l ∈ φ.client.held → l ∈ ψ.client.held)) :
    Accounted k' (φs.set i ψ) := by
  obtain ⟨hlt, -⟩ := List.getElem?_eq_some_iff.mp hi
  intro l ht
  rcases hl l ht with hnew | ⟨hold, hkept⟩
  · exact ⟨i, ψ, List.getElem?_set_self hlt, hnew⟩
  · obtain ⟨j, χ, hj, hheld⟩ := ha l hold
    by_cases hij : i = j
    · subst hij
      obtain rfl := Option.some.inj (hi.symm.trans hj)
      exact ⟨i, ψ, List.getElem?_set_self hlt, hkept hheld⟩
    · exact ⟨j, χ, (List.getElem?_set_ne hij).trans hj, hheld⟩

theorem Accounted.answered {r : Reply o} (ha : Accounted k φs) (hi : φs[i]? = some φ)
    (hk : perform o k = (some r, k')) : Accounted k' (φs.set i (φ.next o r)) := by
  refine ha.set hi fun l ht => ?_
  rw [Phase.held_next]
  cases o with
  | take l' =>
    obtain ⟨-, rfl⟩ := of_perform_take hk
    by_cases hl : l' = l
    · exact .inl (hl ▸ List.mem_cons_self)
    · rw [Locks.get_set_ne _ _ hl] at ht
      exact .inr ⟨ht, List.mem_cons_of_mem _⟩
  | release l' =>
    obtain ⟨-, rfl⟩ := Prod.mk.inj hk
    by_cases hl : l' = l
    · subst hl
      rw [Locks.get_set_self] at ht
      cases ht
    · rw [Locks.get_set_ne _ _ hl] at ht
      refine .inr ⟨ht, fun hheld => List.mem_filter.mpr ⟨hheld, ?_⟩⟩
      exact decide_eq_true (Ne.symm hl)
  | _ =>
    obtain ⟨-, rfl⟩ := Prod.mk.inj hk
    exact .inr ⟨ht, id⟩

theorem Accounted.waiting (ha : Accounted k φs) (hk : perform o k = (none, k')) :
    Accounted k' φs := by
  cases waits_of_perform hk <;> exact ha

theorem keeps_accounted :
    (protocol b blank body).Keeps fun k φs => Sound b blank k φs ∧ Accounted k φs where
  answered := by
    rintro k k' φs i φ o r ⟨hs, ha⟩ hi hp hk
    obtain ⟨hf, hs'⟩ := Sound.keeps.answered hs hi hp hk
    exact ⟨hf, hs', ha.answered hi hk⟩
  waiting := by
    rintro k k' φs i φ o ⟨hs, ha⟩ hi hp hk
    exact ⟨Sound.keeps.waiting hs hi hp hk, ha.waiting hk⟩

/-! ## What a core waits for -/

/-- What only a running kernel may do is done in its body. -/
theorem exists_running_of_allows {s : Stage} (ha : Allows b blank s .kernel) :
    ∃ as, s = .running as := by
  cases s with
  | running as => exact ⟨as, rfl⟩
  | setup t => cases t <;> cases ha
  | enabling as => rcases ha with ha | ⟨ha, -⟩ <;> cases ha
  | finished => cases ha
  | _ => exact ha.elim

theorem Permits.of_awaitReleased (hp : Permits b blank body φ .awaitReleased) :
    φ.stage = .parked ∨ ∃ as, φ.stage = .running as := by
  cases hp with
  | awaitReleased _ _ => exact .inl rfl
  | use ha hc =>
    cases hc
    exact .inr (exists_running_of_allows ha)

theorem Permits.of_awaitComplete {addr : Nat} (hp : Permits b blank body φ (.awaitComplete addr)) :
    (∃ m r, φ.stage = .waiting m r ∧ addr = r.at m) ∨ ∃ as, φ.stage = .running as := by
  cases hp with
  | awaitComplete => exact .inl ⟨_, _, rfl, rfl⟩
  | use ha hc =>
    cases hc
    exact .inr (exists_running_of_allows ha)

/-- A barrier to which everybody has come is complete. -/
theorem Sound.complete_of_arrived (hs : Sound b blank k φs) (hr : Ready blank b.cores.val r k φs)
    (hall : ∀ φ ∈ φs, φ.core < b.cores.val → φ.stage.Arrived m) :
    (k.barrierAt (r.at m)).isComplete = true := by
  have hle : φs.countP (fun φ => decide (φ.core < b.cores.val)) ≤
      φs.countP fun φ => decide (φ.stage.Arrived m) :=
    List.countP_mono_left fun φ hφ hcore =>
      decide_eq_true (hall φ hφ (of_decide_eq_true hcore))
  rw [hs.countP_core] at hle
  have hzero : k.memory.numberAt (r.at m) 4 = 0 := by
    have := hr.count m
    omega
  simp [barrierAt, Barrier.isComplete, hzero]

/-! ## Coming back from the kernel's body -/

/-- The core leaves the kernel's body. -/
def leaves (a : Answer machine) : Bool :=
  match a.op with
  | .note _ (.reached .stopRendezvous) => true
  | _ => false

/-- The core has been in the body until then. -/
theorem Permits.rank_of_leaves {r : Reply o} (hp : Permits b blank body φ o)
    (hl : leaves ⟨o, r⟩ = true) : 8 ≤ (φ.next o r).stage.rank := by
  cases hp with
  | @note i s c e he =>
    cases e with
    | reached t => cases t <;> first | exact he.elim | cases hl
    | _ => cases hl
  | @use i s c o scope ha hc =>
    cases o with
    | note core e => cases e <;> first | exact hc.elim | cases hl
    | _ => cases hl
  | leave _ => exact Nat.le_refl 8
  | _ => cases hl

theorem rank_of_leaves (hh : (protocol b blank body).Heeds φ as)
    (hl : as.any leaves = true) : 8 ≤ ((protocol b blank body).trace φ as).stage.rank := by
  refine hh.induction (T := fun as (ψ : Phase) => as.any leaves = true → 8 ≤ ψ.stage.rank)
    (fun h => absurd h Bool.false_ne_true) ?_ hl
  intro as ψ o r ih hp hf hl
  rw [List.any_append, Bool.or_eq_true] at hl
  rcases hl with hl | hl
  · exact (ih hl).trans Stage.rank_le_next
  · rw [List.any_cons, List.any_nil, Bool.or_false] at hl
    exact Permits.rank_of_leaves hp hl

/-! ## All cores -/

/-- A boot with all locks free, a log that waits only with empty hands, and a kernel's body that
gives back the locks that it takes. -/
structure Considerate (b : Sequencer) (cores : List Nat) (body : Nat → Code Unit) (k : Kernel) :
    Prop where
  boots : Boots b cores body k
  locks : ∀ l, (k.locks.get l).taken = false
  log : ∀ r, Restores True [] (b.platform.log r)
  restores : ∀ core < b.cores.val, Restores False [] (body core)

/-- The core at this place is below the count. -/
def TakesPart (b : Sequencer) (cores : List Nat) (i : Nat) : Prop :=
  ∃ core, cores[i]? = some core ∧ core < b.cores.val

/-- No core that takes part has panicked, unless over what the boot itself has to provide. -/
def Calm (b : Sequencer) (cores : List Nat) (d : Crew machine Panic State) : Prop :=
  ∀ i e, TakesPart b cores i → d.programs[i]? = some (.stop e) → e.IsBootOrder

/-- Every core that has entered the kernel's body can come back from it, as those that take part
take their turns. -/
def Returns (b : Sequencer) (cores : List Nat) (h : List (Attempt machine))
    (d : Crew machine Panic State) : Prop :=
  ∀ i, TakesPart b cores i → (answersOf h i).any enters = true →
    ∃ js : List Nat, (∀ j ∈ js, TakesPart b cores j) ∧
      (answersOf (h ++ d.historyOf js) i).any leaves = true

/-- The board's platform and the kernel's own body are considerate. -/
theorem considerate_board {image : Board.Image} {n : CoreCount}
    (hroster : ∀ core < n.val, cores.count core = 1) (hgate : k.gateOpen = false)
    (hrelease : k.release.isReleased = false) (htables : k.tables.isBuilt = false)
    (hlocks : ∀ l, (k.locks.get l).taken = false) :
    Considerate ⟨Board.platform image, n⟩ cores Kernel.body k where
  boots := ⟨hroster, hgate, hrelease, htables, Board.orderly_platform image,
    fun core _ => uses_body core⟩
  locks := hlocks
  log := restores_log (by decide) fun _ => rfl
  restores core _ := restores_body core

/-- The phase at a place is that of the core there. -/
theorem exists_core_of_phase (hφ : (phasesAfter b cores body k h)[i]? = some φ) :
    ∃ core, cores[i]? = some core ∧ φ = phaseAfter b k.tables body core (answersOf h i) := by
  obtain ⟨φ₀, hφ₀, -⟩ := Protocol.exists_start hφ
  obtain ⟨core, hi, -⟩ := Option.map_eq_some_iff.mp (getElem?_startPhase.symm.trans hφ₀)
  exact ⟨core, hi, Option.some.inj (hφ.symm.trans (getElem?_phasesAfter hi))⟩

namespace Considerate

variable {p : Code State}

theorem accounted (hc : Considerate b cores body k) (hr : (b.crew cores body k).Runs h d) :
    Accounted d.shared (phasesAfter b cores body k h) := by
  have hstart := hc.boots.watched .start
  have hkeeps : (protocol b k.tables body).Keeps fun k' φs => Sound b k.tables k' φs ∧
      Accounted k' φs := keeps_accounted
  have hfree : Accounted k (cores.map startPhase) := by
    intro l ht
    rw [hc.locks l] at ht
    cases ht
  have hfollows := hstart.follows
  rw [Protocol.phases_nil] at hfollows
  exact (hkeeps.runs ⟨hc.boots.sound_start, hfree⟩ hstart.length hfollows hr).invariant.2

/-- Where a core's hands are, by its own replies. -/
theorem fits (hc : Considerate b cores body k) (hr : (b.crew cores body k).Runs h d)
    (hi : cores[i]? = some core) :
    Fits (phaseAfter b k.tables body core (answersOf h i))
      (handling.trace .ahead (answersOf h i)) := by
  refine fits_of_heeds ⟨?_, rfl, nofun⟩ (hc.boots.heeds hr hi)
  unfold startPhase
  split
  · exact Nat.le_refl 1
  · exact Nat.zero_le 1

theorem handles (hc : Considerate b cores body k) (hr : (b.crew cores body k).Runs h d)
    (hp : d.programs[i]? = some p) :
    handling.Follows (fun _ φ => φ = Hands.ahead ∨ φ = Hands.between [])
      (handling.trace .ahead (answersOf h i)) p := by
  have hkeeps : handling.Keeps fun _ _ => True :=
    ⟨fun _ _ _ _ => ⟨trivial, trivial⟩, fun _ _ _ _ => trivial⟩
  have hw : handling.Watched (fun _ _ => True)
      (fun _ φ => φ = Hands.ahead ∨ φ = Hands.between [])
      (cores.map fun _ => Hands.ahead) h d := by
    refine hkeeps.runs trivial ?_ ?_ hr
    · exact (List.length_map _).trans (List.length_map _).symm
    · intro i φ p hφ hp
      rw [List.getElem?_map] at hφ
      obtain ⟨core, hcore, rfl⟩ := Option.map_eq_some_iff.mp hφ
      obtain rfl : b.run core body = p := by
        simp only [Sequencer.crew, List.getElem?_map, hcore] at hp
        exact Option.some.inj hp
      exact handling_run hc.boots.platform hc.log hc.restores core
  obtain ⟨core, hcore⟩ := hc.boots.exists_core hr hp
  refine hw.follows i _ p ?_ hp
  rw [Protocol.getElem?_phases, List.getElem?_map, hcore]
  rfl

end Considerate

/-! ## Standing still -/

/-- Why a core in this phase does not go on: it has halted with empty hands, or it waits for another
one, with empty hands or in the kernel's body. -/
inductive Rests (b : Sequencer) (blank : Paging.TableStorage) (body : Nat → Code Unit) (k : Kernel)
    (φ : Phase) : Code State → Prop
  | halted : φ.stage = .finished → φ.client.held = [] → Rests b blank body k φ (.done .halted)
  | blocked {o : Op} {next : Reply o → Code State} : Blocks k o → Permits b blank body φ o →
      φ.client.held = [] ∨ (∃ as, φ.stage = .running as) →
      Rests b blank body k φ (.op (M := machine) o next)

/-- A moment of a boot at which nobody who takes part moves. -/
structure Stuck (b : Sequencer) (cores : List Nat) (body : Nat → Code Unit) (k : Kernel)
    (h : List (Attempt machine)) (d : Crew machine Panic State) : Prop where
  considerate : Considerate b cores body k
  runs : (b.crew cores body k).Runs h d
  calm : Calm b cores d
  returns : Returns b cores h d
  still : ∀ i, TakesPart b cores i → ¬d.Moves i

namespace Stuck

theorem exists_rests (hx : Stuck b cores body k h d) (hi : cores[i]? = some core)
    (hcore : core < b.cores.val) :
    ∃ p, d.programs[i]? = some p ∧
      Rests b k.tables body d.shared (phaseAfter b k.tables body core (answersOf h i)) p := by
  have hb := hx.considerate.boots
  obtain ⟨p, hp, -⟩ := after_run hx.runs hi
  have hfits := hx.considerate.fits hx.runs hi
  have hhands := hx.considerate.handles hx.runs hp
  have hfollows := hb.follows hx.runs hi hp
  generalize handling.trace .ahead (answersOf h i) = ψ at hfits hhands
  refine ⟨p, hp, ?_⟩
  cases p with
  | done a =>
    obtain ⟨rfl, hfinished⟩ := hfollows
    refine .halted (hfinished ?_) ?_
    · rw [(hb.trail hx.runs hi).1]
      exact hcore
    · rcases hhands with rfl | rfl
      · exact hfits.2.1
      · exact hfits.2.2
  | stop e => exact absurd (hx.calm i e ⟨core, hi, hcore⟩ hp) hfollows
  | op o next =>
    have hblocks : Blocks d.shared o := by
      by_contra hfree
      exact hx.still i ⟨core, hi, hcore⟩ (moves_of_not_blocks hp hfree)
    refine .blocked hblocks hfollows.1 ?_
    cases ψ with
    | ahead => exact .inl hfits.2.1
    | between held => exact .inl (hfits.2.2.trans (hhands.1 hblocks.awaitsOthers))
    | within held => exact .inr hfits.1

/-- Nobody is in the kernel's body, since the body returns. -/
theorem not_running (hx : Stuck b cores body k h d) (hi : cores[i]? = some core)
    (hcore : core < b.cores.val) (bs : List (Answer machine)) :
    (phaseAfter b k.tables body core (answersOf h i)).stage ≠ .running bs := by
  intro hs
  have hb := hx.considerate.boots
  obtain ⟨pre, hpre⟩ := (hb.trail hx.runs hi).2.running bs hs
  have henters : (answersOf h i).any enters = true := by
    rw [hpre]
    exact List.any_eq_true.mpr ⟨enterMark core, by simp, rfl⟩
  obtain ⟨js, hjs, hleaves⟩ := hx.returns i ⟨core, hi, hcore⟩ henters
  have hidle : ∀ j ∈ js, d.Idle j := fun j hj => idle_of_not_moves (hx.still j (hjs j hj))
  rw [answersOf_append, Crew.answersOf_historyOf hidle, List.append_nil] at hleaves
  have hrank := rank_of_leaves (hb.heeds hx.runs hi) hleaves
  change 8 ≤ (phaseAfter b k.tables body core (answersOf h i)).stage.rank at hrank
  rw [hs] at hrank
  exact absurd hrank (by simp [Stage.rank])

/-- No lock is taken: whoever held it would not be waiting. -/
theorem locks_free (hx : Stuck b cores body k h d) (l : LockName) :
    (d.shared.locks.get l).taken = false := by
  by_contra ht
  have hb := hx.considerate.boots
  obtain ⟨i, φ, hφ, hl⟩ :=
    hx.considerate.accounted hx.runs l (Bool.eq_true_of_not_eq_false ht)
  obtain ⟨core, hi, rfl⟩ := exists_core_of_phase hφ
  have hne : (phaseAfter b k.tables body core (answersOf h i)).client.held ≠ [] :=
    List.ne_nil_of_mem hl
  have hcore : core < b.cores.val := by
    rw [← (hb.trail hx.runs hi).1]
    refine ((hb.sound hx.runs).formed _ (mem_phasesAfter hi)).past ?_
    have hfits := hx.considerate.fits hx.runs hi
    generalize handling.trace .ahead (answersOf h i) = ψ at hfits
    cases ψ with
    | ahead => exact absurd hfits.2.1 hne
    | between held => exact hfits.1
    | within held =>
      obtain ⟨⟨as, hs⟩, -⟩ := hfits
      simp [hs, Stage.IsPast, Stage.rank]
  obtain ⟨p, -, hrests⟩ := hx.exists_rests hi hcore
  cases hrests with
  | halted _ hheld => exact hne hheld
  | blocked _ _ hwhere =>
    rcases hwhere with hheld | ⟨bs, hs⟩
    · exact hne hheld
    · exact hx.not_running hi hcore bs hs

/-- The primary core does not stand still before it has released the others. -/
theorem released (hx : Stuck b cores body k h d) : d.shared.release.isReleased = true := by
  by_contra hrel
  have hb := hx.considerate.boots
  have hcore : primaryCore < b.cores.val := b.cores.pos
  have hmem : primaryCore ∈ cores := by
    refine List.count_pos_iff.mp ?_
    rw [hb.roster primaryCore hcore]
    exact Nat.one_pos
  obtain ⟨i, hi⟩ := List.getElem?_of_mem hmem
  have hpast : ¬(phaseAfter b k.tables body primaryCore (answersOf h i)).stage.IsPast :=
    fun hpast => hrel ((hb.sound hx.runs).past _ (mem_phasesAfter hi) hpast)
  have hrank : 1 ≤ (phaseAfter b k.tables body primaryCore (answersOf h i)).stage.rank :=
    rank_le_trace (φ := startPhase primaryCore)
  obtain ⟨p, -, hrests⟩ := hx.exists_rests hi hcore
  cases hrests with
  | halted hs _ => exact hpast (by simp [hs, Stage.IsPast, Stage.rank])
  | blocked hblocks hp _ =>
    cases hblocks with
    | lock l ht =>
      rw [hx.locks_free l] at ht
      cases ht
    | release _ =>
      rcases hp.of_awaitReleased with hs | ⟨as, hs⟩
      · simp [hs, Stage.rank] at hrank
      · exact hpast (by simp [hs, Stage.IsPast, Stage.rank])
    | barrier addr _ =>
      rcases hp.of_awaitComplete with ⟨m, r, hs, -⟩ | ⟨as, hs⟩
      · exact hpast (by cases m <;> simp [hs, Stage.IsPast, Stage.rank])
      · exact hpast (by simp [hs, Stage.IsPast, Stage.rank])

/-- All have halted or wait at a barrier that is not complete. -/
theorem halted_or_waiting (hx : Stuck b cores body k h d)
    (hready : Ready k.tables b.cores.val r d.shared (phasesAfter b cores body k h))
    (hi : cores[i]? = some core) (hcore : core < b.cores.val) :
    (d.programs[i]? = some (.done .halted) ∧
      (phaseAfter b k.tables body core (answersOf h i)).stage = .finished) ∨
    ∃ m, (phaseAfter b k.tables body core (answersOf h i)).stage = .waiting m r ∧
      (d.shared.barrierAt (r.at m)).isComplete = false := by
  obtain ⟨p, hprogram, hrests⟩ := hx.exists_rests hi hcore
  cases hrests with
  | halted hs _ => exact .inl ⟨hprogram, hs⟩
  | blocked hblocks hp _ =>
    right
    cases hblocks with
    | lock l ht =>
      rw [hx.locks_free l] at ht
      cases ht
    | release hrel =>
      rw [hx.released] at hrel
      cases hrel
    | barrier addr hcomplete =>
      rcases hp.of_awaitComplete with ⟨m, r', hs, rfl⟩ | ⟨bs, hs⟩
      · obtain rfl := hready.found _ (mem_phasesAfter hi) m r' (.inr hs)
        exact ⟨m, hs, hcomplete⟩
      · exact absurd hs (hx.not_running hi hcore bs)

/-- A barrier to which all cores that take part have come is complete. -/
theorem complete (hx : Stuck b cores body k h d)
    (hready : Ready k.tables b.cores.val r d.shared (phasesAfter b cores body k h))
    (hall : ∀ {j other}, cores[j]? = some other → other < b.cores.val →
      (phaseAfter b k.tables body other (answersOf h j)).stage.Arrived m) :
    (d.shared.barrierAt (r.at m)).isComplete = true := by
  have hb := hx.considerate.boots
  refine (hb.sound hx.runs).complete_of_arrived hready fun φ hφ hlt => ?_
  obtain ⟨j, hj⟩ := List.getElem?_of_mem hφ
  obtain ⟨other, hother, rfl⟩ := exists_core_of_phase hj
  rw [(hb.trail hx.runs hother).1] at hlt
  exact hall hother hlt

/-- Nobody waits at the first barrier, since all have come to it; so nobody waits at all. -/
theorem all_halted (hx : Stuck b cores body k h d) (hi : cores[i]? = some core)
    (hcore : core < b.cores.val) : d.programs[i]? = some (.done .halted) := by
  obtain ⟨r, hready⟩ := (hx.considerate.boots.sound hx.runs).ready hx.released
  have hstart : (d.shared.barrierAt (r.at .start)).isComplete = true := by
    refine hx.complete hready fun hj hother => ?_
    rcases hx.halted_or_waiting hready hj hother with ⟨-, hs⟩ | ⟨m, hs, -⟩
    · simp [hs, Stage.Arrived, Stage.rank, Meeting.rank]
    · cases m <;> simp [hs, Stage.Arrived, Stage.rank, Meeting.rank]
  have hstop : (d.shared.barrierAt (r.at .stop)).isComplete = true := by
    refine hx.complete hready fun hj hother => ?_
    rcases hx.halted_or_waiting hready hj hother with ⟨-, hs⟩ | ⟨m, hs, hm⟩
    · simp [hs, Stage.Arrived, Stage.rank, Meeting.rank]
    · cases m with
      | start =>
        rw [hstart] at hm
        cases hm
      | stop => simp [hs, Stage.Arrived, Stage.rank, Meeting.rank]
  rcases hx.halted_or_waiting hready hi hcore with ⟨hp, -⟩ | ⟨m, -, hm⟩
  · exact hp
  · cases m with
    | start =>
      rw [hstart] at hm
      cases hm
    | stop =>
      rw [hstop] at hm
      cases hm

end Stuck

/-! ## The guarantee -/

/-- A count that is about to be counted down is not zero. -/
theorem Boots.remaining_pos (hb : Boots b cores body k) (hr : (b.crew cores body k).Runs h d)
    {addr : Nat} {next : Unit → Code State}
    (hp : d.programs[i]? = some (.op (M := machine) (.arrive addr) next)) :
    0 < (d.shared.barrierAt addr).remaining.toNat := by
  obtain ⟨core, hi⟩ := hb.exists_core hr hp
  have hs := hb.sound hr
  have hmem : phaseAfter b k.tables body core (answersOf h i) ∈ phasesAfter b cores body k h :=
    mem_phasesAfter hi
  have hpermits := hb.permits hr hi hp
  generalize phaseAfter b k.tables body core (answersOf h i) = φ at hmem hpermits
  cases hpermits with
  | use _ hc => exact hc.elim
  | @arrive i c m r =>
    have hpast : (Stage.arriving m r).IsPast := by cases m <;> simp [Stage.IsPast, Stage.rank]
    have hnot : ¬(Stage.arriving m r).Arrived m := by
      cases m <;> simp [Stage.Arrived, Meeting.rank, Stage.rank]
    obtain ⟨r', hready⟩ := hs.ready (hs.past _ hmem hpast)
    obtain rfl := hready.found _ hmem m r (.inl rfl)
    have hpos := hs.number_pos hready hmem ((hs.formed _ hmem).past hpast) hnot
    have hlt : d.shared.memory.numberAt (r.at m) 4 < 2 ^ 32 := by
      have hcount := hready.count m
      have hmax := b.cores.lt
      omega
    rwa [barrierAt, UInt32.toNat_ofNat_of_lt' hlt]

/-- In whatever state the cores are, if none has panicked and the kernel's body returns, then some
core that takes part can go on unless all of them have halted; and no count of a barrier was at zero
when it was counted down. -/
theorem moves_of_considerate (hc : Considerate b cores body k) (hr : (b.crew cores body k).Runs h d)
    (hcalm : Calm b cores d) (hreturns : Returns b cores h d) :
    ((∃ i, TakesPart b cores i ∧ d.programs[i]? ≠ some (.done .halted)) →
      ∃ j, TakesPart b cores j ∧ d.Moves j ∧ d.step j ≠ d) ∧
    ∀ (before after : List (Attempt machine)) (a : Attempt machine) (addr : Nat),
      h = before ++ a :: after → a.op = .arrive addr →
      ∃ e, (b.crew cores body k).Runs before e ∧ 0 < (e.shared.barrierAt addr).remaining.toNat := by
  refine ⟨?_, ?_⟩
  · rintro ⟨i, ⟨core, hi, hcore⟩, hp⟩
    by_contra hnone
    have hstuck : Stuck b cores body k h d := ⟨hc, hr, hcalm, hreturns,
      fun j hj hm => hnone ⟨j, hj, hm, step_ne_of_moves hm⟩⟩
    exact hp (hstuck.all_halted hi hcore)
  · rintro before after ⟨i, o, reply⟩ addr rfl rfl
    obtain ⟨e, next, he, hp, -⟩ := hr.at_attempt
    exact ⟨e, he, hc.boots.remaining_pos he hp⟩

/-- The small boot, with a critical section for a body. -/
def criticalBody (_core : Nat) : Code Unit := critical ()

theorem considerate_critical : Considerate smallBoot smallCores criticalBody smallKernel where
  boots := { boots_small with body := fun _ _ => uses_critical }
  locks l := by cases l <;> rfl
  log _ := .pure ()
  restores _ _ := restores_critical ()

/-- Both cores that take part get into the body, where the primary core takes the lock and the other
one tries in vain. -/
def contestedTurns : List Nat :=
  List.replicate 25 0 ++ List.replicate 10 1 ++ [0, 0, 0, 1, 1, 1]

def contested : Crew machine Panic State :=
  contestedTurns.foldl Crew.step (smallBoot.crew smallCores criticalBody smallKernel)

def contestedHistory : List (Attempt machine) :=
  (smallBoot.crew smallCores criticalBody smallKernel).historyOf contestedTurns

theorem calm_contested : Calm smallBoot smallCores contested := by
  intro i e _ hp
  have hnone : contested.programs.all (fun p => p.result?.isNone) = true := by decide +kernel
  exact absurd (List.all_eq_true.mp hnone _ (List.mem_of_getElem? hp)) nofun

/-- Each of the two needs only that the lock is given back. -/
theorem returns_contested : Returns smallBoot smallCores contestedHistory contested := by
  have hzero : TakesPart smallBoot smallCores 0 := ⟨0, rfl, by decide⟩
  have hone : TakesPart smallBoot smallCores 1 := ⟨1, rfl, by decide⟩
  rintro i ⟨core, hi, hcore⟩ _
  match i with
  | 0 => exact ⟨[0, 0], by simp [hzero], by decide +kernel⟩
  | 1 => exact ⟨[0, 1, 1, 1], by simp [hzero, hone], by decide +kernel⟩
  | 2 =>
    obtain rfl : 2 = core := Option.some.inj hi
    exact absurd hcore (by decide)
  | n + 3 => cases hi

/-- One core waits for the lock, and the one that holds it goes on. -/
theorem moves_of_considerate_contested : Considerate smallBoot smallCores criticalBody smallKernel ∧
    contested.programs.map (·.result?.isSome) = [false, false, false] ∧
    (contested.attempt 1).map (·.reply.isSome) = [false] ∧
    (smallBoot.crew smallCores criticalBody smallKernel).Runs contestedHistory contested ∧
    Calm smallBoot smallCores contested ∧
    Returns smallBoot smallCores contestedHistory contested ∧
    ∃ j, TakesPart smallBoot smallCores j ∧ contested.Moves j ∧ contested.step j ≠ contested := by
  have hr := (smallBoot.crew smallCores criticalBody smallKernel).runs_historyOf contestedTurns
  refine ⟨considerate_critical, by decide +kernel, by decide +kernel, hr, calm_contested,
    returns_contested, ?_⟩
  refine (moves_of_considerate considerate_critical hr calm_contested returns_contested).1 ?_
  refine ⟨0, ⟨0, rfl, by decide⟩, ?_⟩
  intro hp
  have hover : contested.programs[0]?.all (fun p => p.result?.isNone) = true := by decide +kernel
  rw [show contested.programs[0]? = _ from hp] at hover
  cases hover

end BareKernel.Boot
