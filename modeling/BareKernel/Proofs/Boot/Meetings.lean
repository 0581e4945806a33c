import BareKernel.Proofs.Boot.Crew

/-! The two meetings of a boot. Nobody enters the kernel's body before everybody has paging on, and
nobody halts before everybody is done with the body. -/

namespace BareKernel.Boot

open Kernel Sync

variable {b : Sequencer} {cores : List Nat} {body : Nat → Code Unit} {k : Kernel}
  {h : List (Attempt machine)} {d : Crew machine Panic State} {i j core other : Nat}
  {p : Code State} {as : List (Answer machine)}

/-! ## The parts of a boot -/

inductive Part where
  | approach
  | body
  | departure
  | conclusion
  deriving DecidableEq

/-- In which part of its boot a core stands that takes part: what its replies were, and what is
left of its program. The kernel's body comes in it once, and for this core. -/
inductive StandsIn (b : Sequencer) (body : Nat → Code Unit) (core : Nat) :
    Part → List (Answer machine) → Code State → Prop
  | approach {as : List (Answer machine)} {p : Code Unit} : (b.approach core).After as p →
      StandsIn b body core .approach as (p >>= fun _ => body core >>= fun _ =>
        Sequencer.depart core >>= fun _ => b.conclude core)
  | body {as bs : List (Answer machine)} {p : Code Unit} : (b.approach core).After as (.done ()) →
      (body core).After bs p →
      StandsIn b body core .body (as ++ bs) (p >>= fun _ => Sequencer.depart core >>= fun _ =>
        b.conclude core)
  | departure {as bs cs : List (Answer machine)} {p : Code Unit} :
      (b.approach core).After as (.done ()) → (body core).After bs (.done ()) →
      (Sequencer.depart core).After cs p →
      StandsIn b body core .departure (as ++ (bs ++ cs)) (p >>= fun _ => b.conclude core)
  | conclusion {as bs cs ds : List (Answer machine)} {p : Code State} :
      (b.approach core).After as (.done ()) → (body core).After bs (.done ()) →
      (Sequencer.depart core).After cs (.done ()) → (b.conclude core).After ds p →
      StandsIn b body core .conclusion (as ++ (bs ++ (cs ++ ds))) p

theorem exists_standsIn (hcore : core < b.cores.val) (hrun : (b.run core body).After as p) :
    ∃ part, StandsIn b body core part as p := by
  rw [Sequencer.run_eq hcore] at hrun
  rcases hrun.of_bind with ⟨p, ha, rfl⟩ | ⟨as, bs, _, rfl, ha, hrest⟩
  · exact ⟨_, .approach ha⟩
  rcases hrest.of_bind with ⟨p, hb, rfl⟩ | ⟨bs, cs, _, rfl, hb, hlast⟩
  · exact ⟨_, .body ha hb⟩
  rcases hlast.of_bind with ⟨p, hc, rfl⟩ | ⟨cs, ds, _, rfl, hc, hd⟩
  · exact ⟨_, .departure ha hb hc⟩
  · exact ⟨_, .conclusion ha hb hc hd⟩

/-- A core that is done has been through all parts. -/
theorem StandsIn.of_done {a : State} {part : Part} (hs : StandsIn b body core part as (.done a)) :
    part = .conclusion := by
  have hhalt : (Sequencer.reach core .halted >>= fun _ => pure State.halted : Code State) ≠
      .done a := nofun
  have hconclude : b.conclude core ≠ .done a := by
    unfold Sequencer.conclude
    split
    · exact Program.bind_ne_done fun _ => hhalt
    · exact hhalt
  have hdepart : (Sequencer.depart core >>= fun _ => b.conclude core) ≠ .done a :=
    Program.bind_ne_done fun _ => hconclude
  generalize hp : (Program.done a : Code State) = p at hs
  cases hs with
  | approach _ =>
    exact absurd hp.symm (Program.bind_ne_done fun _ => Program.bind_ne_done fun _ => hdepart)
  | body _ _ => exact absurd hp.symm (Program.bind_ne_done fun _ => hdepart)
  | departure _ _ _ => exact absurd hp.symm (Program.bind_ne_done fun _ => hconclude)
  | conclusion _ _ _ _ => rfl

/-! ## The stage in each part -/

section Parts

variable {bs cs : List (Answer machine)} {part : Part}

theorem Boots.exists_running (hb : Boots b cores body k) (hcore : core < b.cores.val)
    (hh : (protocol b k.tables body).Heeds (startPhase core) as)
    (ha : (b.approach core).After as (.done ())) :
    ∃ c, phaseAfter b k.tables body core as = ⟨core, .running [], c⟩ :=
  (follows_approach hb.platform hb.tables hcore rfl).after ha hh

theorem Boots.exists_finished (hb : Boots b cores body k) (hcore : core < b.cores.val)
    (hh : (protocol b k.tables body).Heeds (startPhase core) (as ++ (bs ++ cs)))
    (ha : (b.approach core).After as (.done ())) (hbody : (body core).After bs (.done ()))
    (hdepart : (Sequencer.depart core).After cs (.done ())) :
    ∃ c, phaseAfter b k.tables body core (as ++ (bs ++ cs)) = ⟨core, .finished, c⟩ := by
  obtain ⟨hh, hrest⟩ := Protocol.heeds_append.mp hh
  obtain ⟨c, hrunning⟩ := hb.exists_running hcore hh ha
  change (protocol b k.tables body).Heeds (phaseAfter b k.tables body core as) _ at hrest
  rw [hrunning] at hrest
  obtain ⟨hh, hrest⟩ := Protocol.heeds_append.mp hrest
  obtain ⟨cs', c', hphase, hafter⟩ := (follows_body (hb.body core hcore)).after hbody hh
  rw [hphase] at hrest
  obtain ⟨c'', hlast⟩ := (follows_depart hafter).after hdepart hrest
  refine ⟨c'', ?_⟩
  rw [phaseAfter_append, hrunning]
  refine Protocol.trace_append.trans ?_
  rw [hphase]
  exact hlast

/-- How far the stage of a core is in each part. -/
theorem Boots.rank_of_standsIn (hb : Boots b cores body k) (hcore : core < b.cores.val)
    (hh : (protocol b k.tables body).Heeds (startPhase core) as)
    (hs : StandsIn b body core part as p) :
    (part ≠ .approach → 7 ≤ (phaseAfter b k.tables body core as).stage.rank) ∧
      (part = .conclusion → 11 ≤ (phaseAfter b k.tables body core as).stage.rank) := by
  have hpassed : ∀ {as bs}, (protocol b k.tables body).Heeds (startPhase core) (as ++ bs) →
      (b.approach core).After as (.done ()) →
      7 ≤ (phaseAfter b k.tables body core (as ++ bs)).stage.rank := by
    intro as bs hh ha
    obtain ⟨hh, -⟩ := Protocol.heeds_append.mp hh
    obtain ⟨c, hrunning⟩ := hb.exists_running hcore hh ha
    have hle : (phaseAfter b k.tables body core as).stage.rank ≤ _ := rank_le_append bs
    rw [hrunning] at hle
    exact hle
  cases hs with
  | approach _ => exact ⟨fun h => absurd rfl h, nofun⟩
  | body ha _ => exact ⟨fun _ => hpassed hh ha, nofun⟩
  | departure ha _ _ => exact ⟨fun _ => hpassed hh ha, nofun⟩
  | @conclusion as bs cs ds _ ha hbody hdepart _ =>
    refine ⟨fun _ => hpassed hh ha, fun _ => ?_⟩
    rw [← List.append_assoc bs, ← List.append_assoc as] at hh ⊢
    obtain ⟨hh, -⟩ := Protocol.heeds_append.mp hh
    obtain ⟨c, hfinished⟩ := hb.exists_finished hcore hh ha hbody hdepart
    have hle : (phaseAfter b k.tables body core (as ++ (bs ++ cs))).stage.rank ≤ _ :=
      rank_le_append ds
    rw [hfinished] at hle
    exact hle

end Parts

/-- Nobody passes a meeting that somebody has still to come to. -/
theorem Boots.arrived {m : Meeting} (hb : Boots b cores body k)
    (hr : (b.crew cores body k).Runs h d) (hi : cores[i]? = some core)
    (hpass : (phaseAfter b k.tables body core (answersOf h i)).stage.Passed m)
    (hj : cores[j]? = some other) (hother : other < b.cores.val) :
    (phaseAfter b k.tables body other (answersOf h j)).stage.Arrived m := by
  have hs := hb.sound hr
  have hpast : (phaseAfter b k.tables body core (answersOf h i)).stage.IsPast := by
    unfold Stage.IsPast
    unfold Stage.Passed at hpass
    cases m <;> simp only [Meeting.rank] at hpass <;> omega
  obtain ⟨r, hready⟩ := hs.ready (hs.past _ (mem_phasesAfter hi) hpast)
  refine hready.passed m _ (mem_phasesAfter hi) hpass _ (mem_phasesAfter hj) ?_
  rw [(hb.trail hr hj).1]
  exact hother

/-! ## Cores beyond the count -/

/-- All that a core beyond the count has to tell. -/
def bystander (core : Nat) : List (Answer machine) :=
  [⟨.note core (.reached .coldReset), ()⟩, ⟨.note core (.reached .halted), ()⟩]

theorem run_bystander (hcore : b.cores.val ≤ core) :
    b.run core body = .op (M := machine) (.note core (.reached .coldReset)) fun _ =>
      .op (M := machine) (.note core (.reached .halted)) fun _ => .done .halted := by
  rw [Sequencer.run, if_neg (Nat.not_lt.mpr hcore)]
  rfl

theorem isPrefix_bystander (hcore : b.cores.val ≤ core) (hrun : (b.run core body).After as p) :
    as <+: bystander core ∧ p.EndsWithin .halted 2 := by
  have hanswer : ∀ e s, (machine.perform (.note core e) s).1.isSome = true := fun _ _ => rfl
  rw [run_bystander hcore] at hrun
  cases hrun with
  | nil =>
    exact ⟨List.nil_prefix, .op (hanswer _) fun _ => .op (hanswer _) fun _ => .done⟩
  | cons hrun =>
    cases hrun with
    | nil => exact ⟨⟨[_], rfl⟩, .op (hanswer _) fun _ => .done⟩
    | cons hrun =>
      obtain ⟨rfl, rfl⟩ := Program.after_done hrun
      exact ⟨List.prefix_rfl, .done⟩

/-! ## The guarantee -/

/-- The cores keep step with each other. -/
structure InStep (b : Sequencer) (blank : Paging.TableStorage) (cores : List Nat)
    (body : Nat → Code Unit) (h : List (Attempt machine)) (d : Crew machine Panic State) :
    Prop where
  /-- Each core that takes part stands in one part of its boot, which has the body in it once, and
  it has been through all of them when it is done. -/
  placed : ∀ {i core p}, cores[i]? = some core → core < b.cores.val → d.programs[i]? = some p →
    ∃ part, StandsIn b body core part (answersOf h i) p ∧
      ∀ a, p = .done a → a = .halted ∧ part = .conclusion
  /-- Once a core has entered the body, all have paging on. -/
  paging : ∀ {i core p part}, cores[i]? = some core → core < b.cores.val →
    d.programs[i]? = some p → StandsIn b body core part (answersOf h i) p → part ≠ .approach →
    ∀ {j other}, cores[j]? = some other → other < b.cores.val →
      PagingOn b blank other (answersOf h j)
  /-- Once a core has come to its conclusion, all are done with the body. -/
  stopped : ∀ {i core p}, cores[i]? = some core → core < b.cores.val → d.programs[i]? = some p →
    StandsIn b body core .conclusion (answersOf h i) p →
    ∀ {j other}, cores[j]? = some other → other < b.cores.val →
      Finished body other (answersOf h j)
  /-- A core marks its entrance to the body at most once, and as its own. -/
  once : ∀ {i core}, cores[i]? = some core → (answersOf h i).countP enters ≤ 1 ∧
    ∀ a ∈ answersOf h i, enters a = true → a = enterMark core
  /-- A core beyond the count does nothing but note where it is, and halts after two steps. -/
  beyond : ∀ {i core}, cores[i]? = some core → b.cores.val ≤ core →
    answersOf h i <+: bystander core ∧
      ∀ js : List Nat, 2 ≤ js.count i → (js.foldl Crew.step d).programs[i]? = some (.done .halted)

/-- Whatever the interleaving, no core enters the kernel's body before all have paging on, and none
comes to its conclusion before all are done with the body, which each runs once. -/
theorem inStep_of_boots (hb : Boots b cores body k) (hr : (b.crew cores body k).Runs h d) :
    InStep b k.tables cores body h d where
  placed := by
    intro i core p hi hcore hp
    obtain ⟨q, hq, hrun⟩ := after_run hr hi
    obtain rfl := Option.some.inj (hp.symm.trans hq)
    obtain ⟨part, hs⟩ := exists_standsIn hcore hrun
    refine ⟨part, hs, ?_⟩
    intro a ha
    subst ha
    exact ⟨(hb.follows hr hi hp).1, hs.of_done⟩
  paging := by
    intro i core p part hi hcore hp hs hpart j other hj hother
    have hrank := (hb.rank_of_standsIn hcore (hb.heeds hr hi) hs).1 hpart
    have harrived : (phaseAfter b k.tables body other (answersOf h j)).stage.Arrived .start :=
      hb.arrived hr hi (Nat.lt_of_lt_of_le (by decide) hrank) hj hother
    exact (hb.trail hr hj).2.enabled (Nat.le_of_succ_le harrived)
  stopped := by
    intro i core p hi hcore hp hs j other hj hother
    have hrank := (hb.rank_of_standsIn hcore (hb.heeds hr hi) hs).2 rfl
    have harrived : (phaseAfter b k.tables body other (answersOf h j)).stage.Arrived .stop :=
      hb.arrived hr hi (Nat.lt_of_lt_of_le (by decide) hrank) hj hother
    exact (hb.trail hr hj).2.left (Nat.le_trans (by decide) harrived)
  once := by
    intro i core hi
    obtain ⟨-, ht⟩ := hb.trail hr hi
    refine ⟨?_, ht.own⟩
    by_cases hrank : 7 ≤ (phaseAfter b k.tables body core (answersOf h i)).stage.rank
    · exact Nat.le_of_eq (ht.inside hrank)
    · rw [ht.outside (Nat.lt_of_not_le hrank)]
      exact Nat.zero_le 1
  beyond := by
    intro i core hi hcore
    obtain ⟨p, hp, hrun⟩ := after_run hr hi
    obtain ⟨hnotes, hends⟩ := isPrefix_bystander hcore hrun
    exact ⟨hnotes, fun js hjs => Crew.done_of_endsWithin hp hends hjs⟩

/-- Two cores run the body and halt, a third one halts at once, all in step. -/
theorem inStep_smallEnd : Boots smallBoot smallCores smallBody smallKernel ∧
    smallEnd.programs.map (·.result?) = smallCores.map (fun _ => some (.ok .halted)) ∧
    ∃ h, (smallBoot.crew smallCores smallBody smallKernel).Runs h smallEnd ∧
      InStep smallBoot smallKernel.tables smallCores smallBody h smallEnd := by
  obtain ⟨h, hr⟩ := exists_runs_smallEnd
  exact ⟨boots_small, by decide +kernel, h, hr, inStep_of_boots boots_small hr⟩

end BareKernel.Boot
