import BareKernel.Proofs.Boot.Crew
import BareKernel.Proofs.Kernel.Custody

/-! The locks that a core holds on its way through a boot. Before its release it holds none. From
then on it waits for others only with empty hands, but in the kernel's body, from which it comes
back with empty hands too. -/

namespace BareKernel.Boot

open Kernel Sync

variable {b : Sequencer} {blank : Paging.TableStorage} {body : Nat → Code Unit} {α β : Type}
  {i : Nat} {o : Op} {held : List LockName} {p : Code α}

/-! ## The protocol -/

/-- Where a core is, as far as its locks go: ahead of its release, or between the meetings and the
kernel's body, or within that body. -/
inductive Hands where
  | ahead
  | between (held : List LockName)
  | within (held : List LockName)

namespace Hands

def Permits : Hands → Op → Prop
  | .between held, o => AwaitsOthers o → held = []
  | _, _ => True

def next : Hands → Op → Hands
  | .ahead, o => match o with
    | .setReleased | .awaitReleased => .between []
    | _ => .ahead
  | .between held, o => match o with
    | .note _ (.reached .kernelRunning) => .within held
    | o => .between (heldAfter held o)
  | .within held, o => match o with
    | .note _ (.reached .stopRendezvous) => .between held
    | o => .within (heldAfter held o)

theorem next_between (ho : ∀ core, o ≠ .note core (.reached .kernelRunning)) :
    (between held).next o = .between (heldAfter held o) := by
  cases o with
  | note core e =>
    cases e with
    | reached s => cases s <;> first | rfl | exact absurd rfl (ho core)
    | _ => rfl
  | _ => rfl

theorem next_within (ho : ∀ core, o ≠ .note core (.reached .stopRendezvous)) :
    (within held).next o = .within (heldAfter held o) := by
  cases o with
  | note core e =>
    cases e with
    | reached s => cases s <;> first | rfl | exact absurd rfl (ho core)
    | _ => rfl
  | _ => rfl

end Hands

abbrev handling : Protocol machine Panic where
  Phase := Hands
  Permits := Hands.Permits
  Foreseen _ _ _ := True
  next φ o _ := φ.next o
  MayStop _ := True

/-- Silent code with empty hands only keeps records. -/
theorem exists_record_of_silent {c : Client} (hheld : c.held = []) (hc : c.Permits .silent o) :
    ∃ r, o = .keepRecord r := by
  cases o with
  | keepRecord r => exact ⟨r, rfl⟩
  | release l =>
    change l ∈ c.held at hc
    rw [hheld] at hc
    cases hc
  | note core e => cases e <;> simp [Client.Permits] at hc
  | _ => simp [Client.Permits] at hc

/-- The core stays where it is: whatever the code takes, it gives back. -/
def Stays (φ : Hands) (p : Code α) : Prop := handling.Follows (fun _ ψ => ψ = φ) φ p

namespace Stays

variable {φ : Hands} {f : α → Code β}

theorem pure (a : α) : Stays φ (Pure.pure a : Code α) := rfl

theorem stop (e : Panic) : Stays φ (.stop e : Code α) := trivial

theorem bind (hp : Stays φ p) (hf : ∀ a, Stays φ (f a)) : Stays φ (p >>= f) := .andThen hp hf

theorem call (ho : φ.Permits o) (hn : φ.next o = φ) : Stays φ (Kernel.call o) :=
  Protocol.Follows.call (P := handling) ho fun _ _ => hn

theorem forM {γ : Type} {g : γ → Code Unit} (hg : ∀ x, Stays φ (g x)) (xs : List γ) :
    Stays φ (xs.forM g) := by
  induction xs with
  | nil => exact .pure ()
  | cons x xs ih => exact (hg x).bind fun _ => ih

/-- Code that restores the locks stays anywhere on the way if it is brief. -/
theorem of_restores {brief : Prop} {place : List LockName → Hands}
    (hpermits : ∀ held o, (brief → AwaitsOthers o → held = []) → (place held).Permits o)
    (hnext : ∀ held o, (∀ core s, o ≠ .note core (.reached s)) →
      (place held).next o = place (heldAfter held o))
    (hp : Restores brief held p) : Stays (place held) p := by
  refine .mono (.lift handling (fun (held : List LockName) _ φ => φ = place held) hp rfl ?_
    fun _ => id) ?_
  · rintro held o k _ rfl ⟨hmark, hbrief⟩
    exact ⟨hpermits held o hbrief, fun r _ => ⟨trivial, hnext held o hmark⟩⟩
  · rintro a _ ⟨_, rfl, rfl⟩
    rfl

/-- Between the meetings code has to be brief. -/
theorem between (hp : Restores True held p) : Stays (.between held) p :=
  of_restores (fun _ _ h => h trivial)
    (fun _ _ hmark => Hands.next_between fun core => hmark core _) hp

theorem within (hp : Restores False held p) : Stays (.within held) p :=
  of_restores (fun _ _ _ => trivial)
    (fun _ _ hmark => Hands.next_within fun core => hmark core _) hp

/-- What sets devices up releases nobody. -/
theorem of_setup (hp : Uses .setup p) : Stays .ahead p := by
  refine .mono (.lift handling (fun (_ : Client) _ φ => φ = Hands.ahead) (hp {}) rfl ?_
    fun _ _ => trivial) ?_
  · rintro c o k _ rfl hc
    refine ⟨trivial, fun r _ => ⟨trivial, ?_⟩⟩
    change Hands.ahead.next o = .ahead
    cases o with
    | setReleased => exact hc.elim
    | awaitReleased => cases hc
    | _ => rfl
  · rintro a _ ⟨-, h, -⟩
    exact h

/-- What is silent has nothing to do with locks. -/
theorem of_silent (hp : Uses .silent p) : Stays (.between []) p := by
  refine .mono (.lift handling
    (fun (c : Client) _ φ => c.held = [] ∧ φ = Hands.between []) (hp {}) ⟨rfl, rfl⟩ ?_
    fun _ _ => trivial) ?_
  · rintro c o k _ ⟨hheld, rfl⟩ hc
    obtain ⟨record, rfl⟩ := exists_record_of_silent hheld hc
    exact ⟨fun _ => rfl, fun r _ => ⟨trivial, hheld, rfl⟩⟩
  · rintro a _ ⟨-, ⟨-, h⟩, -⟩
    exact h

/-- Ahead of its release a core may do anything that does not release it. -/
theorem ahead (hn : Hands.ahead.next o = .ahead) : Stays .ahead (Kernel.call o) := .call trivial hn

/-- With empty hands a core may wait for others. -/
theorem emptyHanded (hn : (Hands.between []).next o = .between []) :
    Stays (.between []) (Kernel.call o) := .call (fun _ => rfl) hn

end Stays

/-! ## Ahead of the release -/

section Setup

variable (ho : b.platform.Orderly)

theorem stays_allocateBarrier (barrier : Barrier) : Stays .ahead (allocateBarrier barrier) := by
  refine .bind ?_ fun q => ?_
  · refine (Stays.ahead rfl).bind fun isOpen => ?_
    cases isOpen with
    | true =>
      exact (Stays.ahead rfl).bind fun _ => (Stays.ahead rfl).bind fun _ =>
        (Stays.ahead rfl).bind fun _ => .pure _
    | false => exact .ahead rfl
  · cases q with
    | ok addr => exact .pure addr
    | error e => exact .stop _

include ho

theorem stays_log (r : Log.Record) : Stays .ahead (b.platform.log r) := .of_setup (ho.log_setup r)

theorem stays_buildIn (t s : Paging.TableStorage) :
    Stays .ahead (t.buildIn b.platform.log b.platform.firmware (Sequencer.tableStores s)) := by
  unfold Paging.TableStorage.buildIn
  split
  · exact (stays_log ho _).bind fun _ => .pure _
  · have hmemory : Stays .ahead (Firmware.videoMemory b.platform.firmware) :=
      .of_setup ((ho.firmware _ _).bind fun _ => .pure _)
    refine (hmemory.bind fun q => (Stays.forM (stays_log ho) _).bind fun _ => ?_).bind fun q => ?_
    · split
      · exact (Stays.ahead rfl).bind fun _ => (stays_log ho _).bind fun _ => .pure _
      · exact .pure _
    · cases q with
      | ok space => exact (Stays.ahead rfl).bind fun _ => .pure _
      | error e => exact .pure _

theorem stays_buildTables : Stays .ahead (b.buildTables i) := by
  refine (Stays.ahead rfl).bind fun _ => (Stays.ahead rfl).bind fun t => ?_
  refine (stays_buildIn ho t t).bind fun q => ?_
  cases q with
  | ok space => exact stays_log ho _
  | error e => exact .stop _

theorem stays_setUpHeap : Stays .ahead (b.setUpHeap i) := by
  refine (Stays.ahead rfl).bind fun _ => (Stays.of_setup ho.heapRegion).bind fun _ => ?_
  refine (Stays.ahead rfl).bind fun q => ?_
  cases q with
  | ok r => exact stays_log ho r
  | error e => exact .stop _

theorem stays_primaryInit : Stays .ahead (b.primaryInit i) := by
  refine (Stays.ahead rfl).bind fun _ => (Stays.of_setup ho.consoleInit).bind fun _ => ?_
  refine (stays_buildTables ho).bind fun _ => (stays_setUpHeap ho).bind fun _ => ?_
  refine (stays_allocateBarrier _).bind fun start => ?_
  exact (stays_allocateBarrier _).bind fun stop => .ahead rfl

theorem handling_releaseSecondaries :
    handling.Follows (fun _ φ => φ = Hands.between []) .ahead (b.releaseSecondaries i) := by
  have hrelease : handling.Follows (fun _ φ => φ = Hands.between []) .ahead (do
      call .openGate
      call .setReleased) :=
    .andThen (Stays.ahead rfl) fun _ => .call trivial fun _ _ => rfl
  unfold Sequencer.releaseSecondaries
  split
  · refine .andThen (stays_log ho _) fun _ => .andThen (Stays.ahead rfl) fun _ => ?_
    exact .andThen (Stays.of_setup ho.wake) fun _ => hrelease
  · exact hrelease

end Setup

/-! ## From the release on -/

section Released

variable (ho : b.platform.Orderly) (hlog : ∀ r, Restores True [] (b.platform.log r))

include ho hlog in
theorem stays_enablePaging : Stays (.between []) (b.enablePaging i) := by
  refine (Stays.emptyHanded rfl).bind fun t => ?_
  split
  · exact .stop _
  · refine (Stays.emptyHanded rfl).bind fun _ => ?_
    exact (Stays.of_silent (ho.enable _ _)).bind fun _ => .between (hlog _)

theorem stays_rendezvous : Stays (.between []) Sequencer.rendezvous := by
  refine (Stays.emptyHanded rfl).bind fun r => ?_
  cases r with
  | some r => exact .pure r
  | none => exact .stop _

theorem stays_sync (barrier : Nat) : Stays (.between []) (Kernel.sync barrier) :=
  (Stays.emptyHanded rfl).bind fun _ => .emptyHanded rfl

include ho hlog in
theorem handling_approach :
    handling.Follows (fun _ φ => φ = Hands.within []) .ahead (b.approach i) := by
  have hrest : handling.Follows (fun _ φ => φ = Hands.within []) (.between []) (do
      Sequencer.reach i .pagingEnable
      b.enablePaging i
      Sequencer.reach i .startRendezvous
      Kernel.sync (← Sequencer.rendezvous).start
      Sequencer.reach i .kernelRunning) := by
    refine .andThen (Stays.emptyHanded rfl) fun _ => ?_
    refine .andThen (stays_enablePaging ho hlog) fun _ => ?_
    refine .andThen (Stays.emptyHanded rfl) fun _ => .andThen stays_rendezvous fun r => ?_
    exact .andThen (stays_sync r.start) fun _ => .call (fun _ => rfl) fun _ _ => rfl
  unfold Sequencer.approach
  refine .andThen (Stays.ahead rfl) fun _ => ?_
  split
  · refine .andThen (Stays.ahead rfl) fun _ => .andThen (stays_primaryInit ho) fun _ => ?_
    refine .andThen (Stays.ahead rfl) fun _ => ?_
    exact .andThen (handling_releaseSecondaries ho) fun _ => hrest
  · have hawait : handling.Follows (fun _ φ => φ = Hands.between []) .ahead
        (call .awaitReleased) := .call trivial fun _ _ => rfl
    exact .andThen (Stays.ahead rfl) fun _ => .andThen hawait fun _ => hrest

theorem handling_depart :
    handling.Follows (fun _ φ => φ = Hands.between []) (.within []) (Sequencer.depart i) := by
  have hleave : handling.Follows (fun _ φ => φ = Hands.between []) (.within [])
      (Sequencer.reach i .stopRendezvous) := .call trivial fun _ _ => rfl
  exact .andThen hleave fun _ => .andThen stays_rendezvous fun r => stays_sync r.stop

include hlog in
theorem stays_conclude : Stays (.between []) (b.conclude i) := by
  have hhalt : Stays (.between []) (do
      Sequencer.reach i .halted
      return State.halted) := (Stays.emptyHanded rfl).bind fun _ => .pure _
  unfold Sequencer.conclude
  split
  · exact (Stays.between (hlog _)).bind fun _ => hhalt
  · exact hhalt

include ho hlog in
/-- A core comes to its end with empty hands, whether it takes part or not. -/
theorem handling_run (hbody : ∀ i < b.cores.val, Restores False [] (body i)) (i : Nat) :
    handling.Follows (fun _ φ => φ = Hands.ahead ∨ φ = Hands.between []) .ahead (b.run i body) := by
  by_cases hi : i < b.cores.val
  · rw [Sequencer.run_eq hi]
    refine .andThen (handling_approach ho hlog) fun _ => ?_
    refine .andThen (Stays.within (hbody i hi)) fun _ => .andThen handling_depart fun _ => ?_
    exact (stays_conclude hlog).mono fun _ _ h => .inr h
  · have hstays : Stays .ahead (b.run i body) := by
      rw [Sequencer.run, if_neg hi]
      exact (Stays.ahead rfl).bind fun _ => (Stays.ahead rfl).bind fun _ => .pure _
    exact hstays.mono fun _ _ h => .inl h

end Released

/-! ## What a core's own replies say of its locks -/

section Fits

variable {φ : Phase} {ψ : Hands} {r : Reply o} {as : List (Answer machine)}

/-- A core's phase in the boot, as far as its locks go. -/
def Fits (φ : Phase) : Hands → Prop
  | .ahead => φ.stage.rank ≤ 1 ∧ φ.client.held = [] ∧ φ.client.reading ≠ some true
  | .between held => 2 ≤ φ.stage.rank ∧ (∀ as, φ.stage ≠ .running as) ∧ φ.client.held = held
  | .within held => (∃ as, φ.stage = .running as) ∧ φ.client.held = held

theorem Phase.held_next (φ : Phase) (o : Op) (r : Reply o) :
    (φ.next o r).client.held = heldAfter φ.client.held o := by
  obtain ⟨i, s, c⟩ := φ
  cases s <;> exact Client.held_after c o r

/-- A look at the gate. -/
def LooksAtGate : Op → Prop
  | .readGate => True
  | _ => False

/-- Only a look at the gate tells a core that it is open. -/
theorem Phase.reading_next (h : φ.client.reading ≠ some true) (ho : ¬LooksAtGate o) :
    (φ.next o r).client.reading ≠ some true := by
  have hafter : (φ.client.after o r).reading ≠ some true := by
    cases o with
    | readGate => exact absurd trivial ho
    | openGate =>
      intro h
      cases h
    | allocateObject align bytes => cases r <;> exact h
    | _ => exact h
  obtain ⟨i, s, c⟩ := φ
  cases s <;> exact hafter

/-- Before its release a core takes no lock, since it never sees the gate open. -/
theorem Fits.ahead_step (hf : Fits φ .ahead) (hp : Permits b blank body φ o)
    (hr : Foreseen blank φ.stage o r) : Fits (φ.next o r) (Hands.ahead.next o) := by
  obtain ⟨hrank, hheld, hreading⟩ := hf
  have hstay : (φ.next o r).stage.rank ≤ 1 → heldAfter [] o = [] → ¬LooksAtGate o →
      Fits (φ.next o r) .ahead := by
    intro hrank' hlocks ho
    refine ⟨hrank', ?_, Phase.reading_next hreading ho⟩
    rw [Phase.held_next, hheld, hlocks]
  have hreleased : ∀ as, Stage.released ≠ .running as := by
    intro as h
    cases h
  have hlate : ∀ {q : Prop} {s : Stage}, s.rank ≤ 1 → 2 ≤ s.rank → q := by
    intro q s h₁ h₂
    omega
  cases hp with
  | @note i s c e he =>
    refine hstay ?_ rfl id
    change (s.next (.note i e) ()).rank ≤ 1
    rw [Stage.next_note he, Stage.rank_add]
    exact hrank
  | @use i s c o scope ha hc =>
    have hrank' : (Phase.next ⟨i, s, c⟩ o r).stage.rank ≤ 1 := by
      change (s.next o r).rank ≤ 1
      rw [Stage.next_use ha hc, Stage.rank_add]
      exact hrank
    cases s with
    | setup t =>
      have hscope : scope ≠ .kernel := by
        rintro rfl
        cases t <;> cases ha
      cases o with
      | take l => exact absurd (hc.resolve_left hscope).2 hreading
      | release l =>
        change l ∈ c.held at hc
        rw [show c.held = [] from hheld] at hc
        cases hc
      | readGate =>
        obtain rfl : r = false := hr
        exact ⟨hrank', hheld, fun h => Bool.false_ne_true (Option.some.inj h)⟩
      | setReleased => exact hc.elim
      | awaitReleased => exact absurd hc hscope
      | _ => exact hstay hrank' rfl id
    | parked => exact ha.elim
    | released => exact ha.elim
    | arriving m rdv => exact ha.elim
    | waiting m rdv => exact ha.elim
    | entering => exact ha.elim
    | leaving => exact ha.elim
    | _ => exact hlate hrank (by simp [Stage.rank])
  | awaitReleased _ _ => exact ⟨Nat.le_refl 2, hreleased, hheld⟩
  | setReleased => exact ⟨Nat.le_refl 2, hreleased, hheld⟩
  | readBlank => exact hstay (Nat.le_refl 1) rfl id
  | writeTables _ => exact hstay (Nat.le_refl 1) rfl id
  | markBuilt => exact hstay (Nat.le_refl 1) rfl id
  | initHeap => exact hstay (Nat.le_refl 1) rfl id
  | startBarrier => exact hstay (Nat.le_refl 1) rfl id
  | stopBarrier => exact hstay (Nat.le_refl 1) rfl id
  | publish => exact hstay (Nat.le_refl 1) rfl id
  | openGate => exact hstay (Nat.le_refl 1) rfl id
  | @arrive i c m rdv => exact hlate hrank (by cases m <;> simp [Stage.rank])
  | @awaitComplete i c m rdv => exact hlate hrank (by cases m <;> simp [Stage.rank])
  | _ => exact hlate hrank (by simp [Stage.rank])

/-- Only a core that enters the kernel's body is within it afterwards. -/
theorem Stage.of_next_running {s : Stage} (h : s.next o r = .running as) :
    (∃ core, o = .note core (.reached .kernelRunning)) ∨ ∃ bs, s = .running bs := by
  cases s with
  | running bs => exact .inr ⟨bs, rfl⟩
  | entering =>
    simp only [Stage.next] at h
    split at h
    · exact .inl ⟨_, rfl⟩
    · cases h
  | waiting m rdv => cases m <;> cases o <;> cases h
  | finished => cases h
  | _ =>
    simp only [Stage.next] at h
    split at h <;> cases h

theorem Stage.next_running (ho : ∀ core, o ≠ .note core (.reached .stopRendezvous)) :
    (Stage.running as).next o r = .running (as ++ [⟨o, r⟩]) := by
  cases o with
  | note core e =>
    cases e with
    | reached s => cases s <;> first | rfl | exact absurd rfl (ho core)
    | _ => rfl
  | _ => rfl

/-- The mark of an entrance is set where a core enters. -/
theorem Permits.of_enter {core : Nat} (hp : Permits b blank body φ (.note core
    (.reached .kernelRunning))) : φ.stage = .entering := by
  cases hp with
  | note he => exact he.elim
  | use _ hc => exact hc.elim
  | enter => rfl

theorem Fits.between_step (hf : Fits φ (.between held)) (hp : Permits b blank body φ o) :
    Fits (φ.next o r) ((Hands.between held).next o) := by
  obtain ⟨hrank, hout, rfl⟩ := hf
  by_cases ho : ∃ core, o = .note core (.reached .kernelRunning)
  · obtain ⟨core, rfl⟩ := ho
    refine ⟨⟨[], ?_⟩, Phase.held_next φ _ r⟩
    change φ.stage.next _ r = _
    rw [hp.of_enter]
    rfl
  · rw [Hands.next_between fun core h => ho ⟨core, h⟩]
    refine ⟨hrank.trans Stage.rank_le_next, fun as h => ?_, Phase.held_next φ o r⟩
    rcases Stage.of_next_running h with h | ⟨bs, h⟩
    · exact ho h
    · exact hout bs h

theorem Fits.within_step (hf : Fits φ (.within held)) :
    Fits (φ.next o r) ((Hands.within held).next o) := by
  obtain ⟨⟨as, hs⟩, rfl⟩ := hf
  have hnext : (φ.next o r).stage = (Stage.running as).next o r := by rw [← hs]; rfl
  by_cases ho : ∃ core, o = .note core (.reached .stopRendezvous)
  · obtain ⟨core, rfl⟩ := ho
    refine ⟨?_, fun bs h => ?_, Phase.held_next φ _ r⟩
    · rw [hnext]
      exact Nat.le_add_left 2 6
    · cases hnext.symm.trans h
  · rw [Hands.next_within fun core h => ho ⟨core, h⟩]
    refine ⟨⟨as ++ [⟨o, r⟩], hnext.trans ?_⟩, Phase.held_next φ o r⟩
    exact Stage.next_running fun core h => ho ⟨core, h⟩

theorem Fits.step (hf : Fits φ ψ) (hp : Permits b blank body φ o)
    (hr : Foreseen blank φ.stage o r) : Fits (φ.next o r) (ψ.next o) := by
  cases ψ with
  | ahead => exact hf.ahead_step hp hr
  | between held => exact hf.between_step hp
  | within held => exact hf.within_step

theorem fits_of_heeds (hs : Fits φ .ahead) (hh : (protocol b blank body).Heeds φ as) :
    Fits ((protocol b blank body).trace φ as) (handling.trace .ahead as) := by
  refine hh.induction (T := fun as ψ => Fits ψ (handling.trace .ahead as)) hs ?_
  intro as ψ o r ih hp hr
  rw [Protocol.trace_snoc]
  exact ih.step hp hr

end Fits

end BareKernel.Boot
