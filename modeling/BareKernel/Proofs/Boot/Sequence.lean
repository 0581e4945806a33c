import BareKernel.Proofs.Boot.Invariant
import BareKernel.Proofs.Paging.Layout

/-! The boot's own code follows its protocol, with any platform and any kernel body that keep to
what their place in it allows. -/

namespace BareKernel.Boot

open Kernel Sync

variable {b : Sequencer} {blank : Paging.TableStorage} {body : Nat → Code Unit} {α : Type}
  {i : Nat} {s : Stage} {c : Client} {scope : Scope} {p : Code α}

/-! ## Operations -/

theorem follows_call {o : Op} {Q : Reply o → Phase → Prop}
    (hp : Permits b blank body ⟨i, s, c⟩ o)
    (h : ∀ r, Foreseen blank s o r → Q r ((Phase.mk i s c).next o r)) :
    (protocol b blank body).Follows Q ⟨i, s, c⟩ (call o) := .call hp h

theorem follows_note (e : Event) (he : e.IsPlain) :
    (protocol b blank body).Follows (fun _ φ => φ = ⟨i, s.add ⟨.note i e, ()⟩, c⟩) ⟨i, s, c⟩
      (call (.note i e)) := by
  refine follows_call (.note he) fun r _ => ?_
  rw [Phase.next_of_loans rfl]
  exact congrArg (Phase.mk i · c) (Stage.next_note he)

/-- A plain event at a stage that counts no replies. -/
theorem follows_mark (e : Event) (he : e.IsPlain) (hs : ∀ a, s.add a = s) :
    (protocol b blank body).Follows (fun _ φ => φ = ⟨i, s, c⟩) ⟨i, s, c⟩ (call (.note i e)) := by
  refine (follows_note e he).mono fun _ φ hφ => ?_
  rw [hφ, hs]

/-- Code that keeps to a discipline goes through stages that allow it, as its replies count them,
and ends with what it ends with anywhere. -/
theorem follows_use {Q : α → Client → Prop} (stage : List (Answer machine) → Stage)
    (U : List (Answer machine) → Code α → Prop) (hp : (discipline scope).Follows Q c p)
    (as : List (Answer machine)) (h : U as p)
    (hadd : ∀ as a, (stage as).add a = stage (as ++ [a]))
    (hallows : ∀ as o k, U as (.op o k) →
      Allows b blank (stage as) scope ∧ ∀ r, U (as ++ [⟨o, r⟩]) (k r)) :
    (protocol b blank body).Follows
      (fun a φ => ∃ as c, φ = ⟨i, stage as, c⟩ ∧ U as (.done a) ∧ Q a c) ⟨i, stage as, c⟩ p := by
  have hlift : (protocol b blank body).Follows (fun a φ => ∃ c : Client,
      (∃ as, φ = ⟨i, stage as, c⟩ ∧ U as (.done a)) ∧ Q a c) ⟨i, stage as, c⟩ p := by
    refine .lift (protocol b blank body)
      (fun (c : Client) p (φ : Phase) => ∃ as, φ = ⟨i, stage as, c⟩ ∧ U as p) hp ⟨as, rfl, h⟩ ?_
      fun _ => id
    intro c o k φ hφ hc
    obtain ⟨as, rfl, hU⟩ := hφ
    obtain ⟨ha, hnext⟩ := hallows as o k hU
    refine ⟨.use ha hc, fun r _ => ⟨trivial, as ++ [⟨o, r⟩], ?_, hnext r⟩⟩
    rw [← hadd]
    exact Phase.next_use ha hc r
  refine hlift.mono fun a φ hφ => ?_
  obtain ⟨c, ⟨as, rfl, hU⟩, hq⟩ := hφ
  exact ⟨as, c, rfl, hU, hq⟩

/-- Code at a stage that counts no replies. -/
theorem follows_at {Q : α → Client → Prop} (hp : (discipline scope).Follows Q c p)
    (hs : ∀ a, s.add a = s) (ha : Allows b blank s scope) :
    (protocol b blank body).Follows (fun a φ => ∃ c, φ = ⟨i, s, c⟩ ∧ Q a c) ⟨i, s, c⟩ p := by
  have huse : (protocol b blank body).Follows _ ⟨i, s, c⟩ p :=
    follows_use (fun _ => s) (fun _ _ => True) hp [] trivial (fun _ => hs)
      fun _ _ _ _ => ⟨ha, fun _ => trivial⟩
  refine huse.mono fun a φ hφ => ?_
  obtain ⟨-, c, rfl, -, hq⟩ := hφ
  exact ⟨c, rfl, hq⟩

/-- Code at the start of a stage that counts its replies: they are its own when it is done. -/
theorem follows_counted (stage : List (Answer machine) → Stage) (hp : Uses scope p)
    (hadd : ∀ as a, (stage as).add a = stage (as ++ [a]))
    (hallows : ∀ as, Allows b blank (stage as) scope) :
    (protocol b blank body).Follows
      (fun a φ => ∃ as c, φ = ⟨i, stage as, c⟩ ∧ p.After as (.done a)) ⟨i, stage [], c⟩ p := by
  have huse : (protocol b blank body).Follows _ ⟨i, stage [], c⟩ p :=
    follows_use stage p.After (hp c) [] (.nil p) hadd
      fun as o k hafter => ⟨hallows as, fun r => hafter.snoc r⟩
  refine huse.mono fun a φ hφ => ?_
  obtain ⟨as, c, rfl, hafter, -⟩ := hφ
  exact ⟨as, c, rfl, hafter⟩

/-- Code at a stage that counts replies, after some that no later ones undo. -/
theorem follows_lasting (stage : List (Answer machine) → Stage) {T : List (Answer machine) → Prop}
    {as : List (Answer machine)} (hp : Uses scope p) (h : T as)
    (hadd : ∀ as a, (stage as).add a = stage (as ++ [a]))
    (hallows : ∀ as, T as → Allows b blank (stage as) scope)
    (hsnoc : ∀ as a, T as → T (as ++ [a])) :
    (protocol b blank body).Follows (fun _ φ => ∃ as c, φ = ⟨i, stage as, c⟩ ∧ T as)
      ⟨i, stage as, c⟩ p := by
  have huse : (protocol b blank body).Follows _ ⟨i, stage as, c⟩ p :=
    follows_use stage (fun as _ => T as) (hp c) as h hadd
      fun as o k h => ⟨hallows as h, fun r => hsnoc as ⟨o, r⟩ h⟩
  refine huse.mono fun _ φ hφ => ?_
  obtain ⟨as, c, rfl, h, -⟩ := hφ
  exact ⟨as, c, rfl, h⟩

theorem Enabled.snoc {as : List (Answer machine)} (h : Enabled b blank as) (a : Answer machine) :
    Enabled b blank (as ++ [a]) := by
  obtain ⟨bs, cs, rfl, h⟩ := h
  exact ⟨bs, cs ++ [a], List.append_assoc .., h⟩

theorem Told.snoc {as : List (Answer machine)} {reply : Except Firmware.Error (List UInt32)}
    (h : Told b as reply) (a : Answer machine) : Told b (as ++ [a]) reply := by
  obtain ⟨bs, cs, rfl, h⟩ := h
  exact ⟨bs, cs ++ [a], List.append_assoc .., h⟩

/-- Once the call that turns paging on has come back, it has done so for good. -/
theorem follows_enabled {as : List (Answer machine)} (hp : Uses .logging p)
    (h : Enabled b blank as) :
    (protocol b blank body).Follows
      (fun _ φ => ∃ as c, φ = ⟨i, .enabling as, c⟩ ∧ Enabled b blank as)
      ⟨i, .enabling as, c⟩ p :=
  follows_lasting .enabling hp h (fun _ _ => rfl) (fun _ h => .inr ⟨rfl, h⟩) fun _ a h => h.snoc a

/-! ## The setup -/

theorem Platform.Orderly.log_setup {p : Platform} (ho : p.Orderly) (r : Log.Record) :
    Uses .setup (p.log r) := (ho.log r).of_logging (by decide)

section Setup

variable (ho : b.platform.Orderly) {t : Setup}

/-- Setting devices up, between two things that others rely on. -/
theorem follows_setup (hp : Uses .setup p) (ht : Allows b blank (.setup t) .setup)
    (hs : ∀ a, t.add a = t) :
    (protocol b blank body).Follows (fun _ φ => ∃ c, φ = ⟨i, .setup t, c⟩) ⟨i, .setup t, c⟩ p := by
  have hstay : ∀ a, (Stage.setup t).add a = .setup t := fun a => congrArg Stage.setup (hs a)
  refine (follows_at (hp c) hstay ht).mono fun _ φ hφ => ?_
  obtain ⟨c, rfl, -⟩ := hφ
  exact ⟨c, rfl⟩

include ho

/-- The firmware is asked, and the tables are written to suit its answer. -/
theorem follows_fill :
    (protocol b blank body).Follows
      (fun q φ => (∃ s c, q = .ok s ∧ φ = ⟨i, .setup (.filled s), c⟩) ∨ ∃ e, q = .error e)
      ⟨i, .setup (.filling []), c⟩ (Paging.TableStorage.fill b.platform.log b.platform.firmware
        (Sequencer.tableStores blank) blank.space) := by
  have hfirmware : (protocol b blank body).Follows _ ⟨i, .setup (.filling []), c⟩
      (b.platform.firmware Firmware.tagVideoMemory [0, 0]) :=
    follows_counted (fun as => .setup (.filling as)) (ho.firmware _ _) (fun _ _ => rfl)
      fun _ => rfl
  refine .bind (.bind (hfirmware.mono fun reply φ hφ => ?_))
  obtain ⟨as, c, rfl, hafter⟩ := hφ
  have htold : Told b as reply := ⟨as, [], (List.append_nil as).symm, hafter⟩
  have hrecords : (protocol b blank body).Follows _ ⟨i, .setup (.filling as), c⟩
      ((Paging.cacheableBoundary (reply.map .ofValues)).2.forM b.platform.log) :=
    follows_lasting (T := (Told b · reply)) (fun as => .setup (.filling as))
      (.forM ho.log_setup _) htold (fun _ _ => rfl) (fun _ _ => rfl) fun _ a h => h.snoc a
  refine .bind (hrecords.mono fun _ φ hφ => ?_)
  obtain ⟨as, c, rfl, htold⟩ := hφ
  split
  · rename_i s hs
    refine .bind (follows_call (.writeTables ⟨reply, htold, hs⟩) fun _ _ => ?_)
    refine .andThenFrom (follows_setup (t := .filled s) (ho.log_setup _) rfl fun _ => rfl)
      fun _ c => ?_
    exact .pure (.inl ⟨s, c, rfl, rfl⟩)
  · exact .pure (.inr ⟨_, rfl⟩)

theorem follows_buildTables (hb : blank.isBuilt = false) :
    (protocol b blank body).Follows (fun _ φ => ∃ c, φ = ⟨i, .setup .heap, c⟩)
      ⟨i, .setup .tables, c⟩ (b.buildTables i) := by
  refine .andThen (follows_mark (.called .firmware) trivial fun _ => rfl) fun _ => ?_
  have hread : (protocol b blank body).Follows
      (fun t φ => t = blank ∧ φ = ⟨i, .setup (.filling []), c⟩) ⟨i, .setup .tables, c⟩
      (call .readTables) := follows_call .readBlank fun t ht => ⟨ht, rfl⟩
  refine .bind (hread.mono fun t φ hφ => ?_)
  obtain ⟨rfl, rfl⟩ := hφ
  simp only [Paging.TableStorage.buildIn, hb, Bool.false_eq_true, if_false]
  refine .bind (.bind ((follows_fill ho).mono fun q φ hφ => ?_))
  rcases hφ with ⟨s, c, rfl, rfl⟩ | ⟨e, rfl⟩
  · refine .bind (follows_call .markBuilt fun _ _ => .pure ?_)
    exact follows_setup (t := .heap) (ho.log_setup _) rfl fun _ => rfl
  · exact .pure id

theorem follows_setUpHeap :
    (protocol b blank body).Follows (fun _ φ => ∃ c, φ = ⟨i, .setup .startBarrier, c⟩)
      ⟨i, .setup .heap, c⟩ (b.setUpHeap i) := by
  refine .andThen (follows_mark (.called .heapRegion) trivial fun _ => rfl) fun _ => ?_
  refine .andThenFrom (follows_setup (t := .heap) ho.heapRegion rfl fun _ => rfl) fun region c => ?_
  refine .bind (follows_call .initHeap fun q _ => ?_)
  cases q with
  | ok record =>
    exact follows_setup (ho.log_setup record) rfl fun _ => rfl
  | error e => exact id

omit ho in
/-- Before the release the gate is closed, and guarded code runs as it is. -/
theorem follows_guarded_setup {l : LockName} {Q : α → Phase → Prop}
    (ht : Allows b blank (.setup t) .setup) (hs : ∀ a, t.add a = t)
    (hp : ∀ c, (protocol b blank body).Follows Q ⟨i, .setup t, c⟩ p) :
    (protocol b blank body).Follows Q ⟨i, .setup t, c⟩ (guarded l p) := by
  have hgate : c.Permits .setup .readGate := by exact nofun
  refine .bind (follows_call (.use ht hgate) fun isOpen h => ?_)
  obtain rfl : isOpen = false := h
  rw [Phase.next_use ht hgate, Stage.add, hs]
  exact hp _

omit ho in
theorem follows_allocateBarrier {next : Nat → Setup} (ht : Allows b blank (.setup t) .setup)
    (hs : ∀ a, t.add a = t)
    (hp : ∀ c, Permits b blank body ⟨i, .setup t, c⟩ (.allocateObject 4 b.cores.bytes))
    (hnext : ∀ addr, t.next (.allocateObject 4 b.cores.bytes) (.ok addr) = next addr) :
    (protocol b blank body).Follows (fun addr φ => ∃ c, φ = ⟨i, .setup (next addr), c⟩)
      ⟨i, .setup t, c⟩ (allocateBarrier ⟨UInt32.ofNat b.cores.val⟩) := by
  have hbytes : KernelMemory.bytesOf 4 (UInt32.ofNat b.cores.val).toNat = b.cores.bytes := by
    rw [UInt32.toNat_ofNat_of_lt' b.cores.lt]
    rfl
  rw [allocateBarrier, hbytes]
  refine .bind (follows_guarded_setup ht hs fun c => follows_call (hp c) fun q _ => ?_)
  cases q with
  | error e => exact id
  | ok addr => exact .pure ⟨_, congrArg (fun t => Phase.mk i (.setup t) _) (hnext addr)⟩

theorem follows_primaryInit (hb : blank.isBuilt = false) :
    (protocol b blank body).Follows (fun _ φ => ∃ r c, φ = ⟨i, .setup (.openGate r), c⟩)
      ⟨i, .setup .tables, c⟩ (b.primaryInit i) := by
  refine .andThen (follows_mark (.called .consoleInit) trivial fun _ => rfl) fun _ => ?_
  refine .andThenFrom (follows_setup (t := .tables) ho.consoleInit rfl fun _ => rfl) fun _ c => ?_
  refine .andThenFrom (follows_buildTables ho hb) fun _ c => ?_
  refine .andThenFrom (follows_setUpHeap ho) fun _ c => ?_
  refine .andThenFrom (follows_allocateBarrier (t := .startBarrier) rfl (fun _ => rfl)
    (fun _ => .startBarrier) fun _ => rfl) fun start c => ?_
  refine .andThenFrom (follows_allocateBarrier (t := .stopBarrier start) rfl
    (fun _ => rfl) (fun _ => .stopBarrier) fun _ => rfl) fun stop c => ?_
  exact follows_call .publish fun _ _ => ⟨⟨start, stop⟩, _, rfl⟩

theorem follows_releaseSecondaries {r : Rendezvous} :
    (protocol b blank body).Follows (fun _ φ => ∃ c, φ = ⟨i, .released, c⟩)
      ⟨i, .setup (.openGate r), c⟩ (b.releaseSecondaries i) := by
  have hrelease : ∀ c, (protocol b blank body).Follows (fun _ φ => ∃ c, φ = ⟨i, .released, c⟩)
      ⟨i, .setup (.openGate r), c⟩ (do call .openGate; call .setReleased) := by
    intro c
    refine .bind (follows_call .openGate fun _ _ => ?_)
    exact follows_call .setReleased fun _ _ => ⟨_, rfl⟩
  unfold Sequencer.releaseSecondaries
  split
  · refine .andThenFrom (follows_setup (t := .openGate r) (ho.log_setup _) rfl fun _ => rfl)
      fun _ c => ?_
    refine .andThen (follows_mark (.called .wake) trivial fun _ => rfl) fun _ => ?_
    refine .andThenFrom (follows_setup (t := .openGate r) ho.wake rfl fun _ => rfl) fun _ c => ?_
    exact hrelease c
  · exact hrelease c

end Setup

/-! ## Paging -/

/-- The layout stays where the blank tables are. -/
theorem bases_of_populated {t : Paging.TableStorage} (h : Populated blank t) :
    t.space.identityL1Base = blank.space.identityL1Base ∧
      t.space.virtualL1Base = blank.space.virtualL1Base := by
  obtain ⟨-, boundary, h⟩ := h
  have horigin := Paging.AddressSpace.origin_of_populate h
  simp only [Paging.AddressSpace.identityL1Base, Paging.AddressSpace.virtualL1Base,
    Paging.AddressSpace.identityL2Base, horigin, and_self]

theorem follows_enable (ho : b.platform.Orderly) :
    (protocol b blank body).Follows
      (fun _ φ => ∃ as c, φ = ⟨i, .enabling as, c⟩ ∧ Enabled b blank as) ⟨i, .enabling [], c⟩
      (b.platform.enable blank.space.identityL1Base blank.space.virtualL1Base) := by
  refine (follows_counted .enabling (ho.enable _ _) (fun _ _ => rfl) fun _ => .inl rfl).mono
    fun _ φ hφ => ?_
  obtain ⟨as, c, rfl, hafter⟩ := hφ
  exact ⟨as, c, rfl, as, [], (List.append_nil as).symm, hafter⟩

/-! ## The meetings -/

theorem follows_rendezvous {m : Meeting} (hp : Permits b blank body ⟨i, s, c⟩ .readRendezvous)
    (hs : ∀ r : Option Rendezvous, Foreseen blank s .readRendezvous r → r.isSome = true)
    (hnext : ∀ r, s.next .readRendezvous (some r) = .arriving m r) :
    (protocol b blank body).Follows (fun r φ => φ = ⟨i, .arriving m r, c⟩) ⟨i, s, c⟩
      Sequencer.rendezvous := by
  refine .bind (follows_call hp fun r hr => ?_)
  cases r with
  | none => cases hs none hr
  | some r =>
    refine .pure ?_
    rw [Phase.next_of_loans rfl, hnext]
    rfl

theorem follows_sync {m : Meeting} {r : Rendezvous} :
    (protocol b blank body).Follows
      (fun _ φ => φ = ⟨i, (Stage.waiting m r).next (.awaitComplete (r.at m)) (), c⟩)
      ⟨i, .arriving m r, c⟩ (Kernel.sync (r.at m)) := by
  refine .bind (follows_call .arrive fun _ _ => ?_)
  refine follows_call .awaitComplete fun _ _ => ?_
  cases m <;> rfl

theorem follows_body (hbody : Uses .kernel (body i)) :
    (protocol b blank body).Follows
      (fun _ φ => ∃ as c, φ = ⟨i, .running as, c⟩ ∧ (body i).After as (.done ()))
      ⟨i, .running [], c⟩ (body i) :=
  follows_counted .running hbody (fun _ _ => rfl) fun _ => rfl

/-! ## The whole boot -/

/-- A core's boot up to the kernel's body. -/
def Sequencer.approach (b : Sequencer) (core : Nat) : Code Unit := do
  reach core .coldReset
  if core = primaryCore then
    reach core .primaryInit
    b.primaryInit core
    reach core .releaseSecondaries
    b.releaseSecondaries core
  else
    reach core .awaitRelease
    call .awaitReleased
  reach core .pagingEnable
  b.enablePaging core
  reach core .startRendezvous
  Kernel.sync (← rendezvous).start
  reach core .kernelRunning

/-- The two bases that a core turns paging on with. -/
def Sequencer.pagingBases (core : Nat) : Code (Nat × Nat) := do
  match (← call .readTables).space? with
  | none => .stop (.noTables core)
  | some space =>
    request core (.enable space.identityL1Base space.virtualL1Base)
    return (space.identityL1Base, space.virtualL1Base)

/-- The first part of it, up to the call that turns paging on. -/
def Sequencer.toPaging (b : Sequencer) (core : Nat) : Code (Nat × Nat) := do
  reach core .coldReset
  if core = primaryCore then
    reach core .primaryInit
    b.primaryInit core
    reach core .releaseSecondaries
    b.releaseSecondaries core
  else
    reach core .awaitRelease
    call .awaitReleased
  reach core .pagingEnable
  pagingBases core

/-- The rest of it, with paging on. -/
def Sequencer.toBody (b : Sequencer) (core : Nat) : Code Unit := do
  b.platform.log (record .debug ["translation enabled"])
  reach core .startRendezvous
  Kernel.sync (← rendezvous).start
  reach core .kernelRunning

/-- From the kernel's body to the end of the second meeting. -/
def Sequencer.depart (core : Nat) : Code Unit := do
  reach core .stopRendezvous
  Kernel.sync (← rendezvous).stop

/-- What a core that has met all others twice does in the end. -/
def Sequencer.conclude (b : Sequencer) (core : Nat) : Code State := do
  if core = primaryCore then
    b.platform.log (record .info ["all ", toString b.cores.val, " cores stopped"])
  reach core .halted
  return .halted

/-- A core that takes part goes through the kernel's body once, between two parts of its boot that
know nothing of the body. -/
theorem Sequencer.run_eq (hi : i < b.cores.val) :
    b.run i body = b.approach i >>= fun _ => body i >>= fun _ => depart i >>= fun _ =>
      b.conclude i := by
  simp only [run, participate, approach, depart, conclude, hi, if_true]
  split <;> simp only [Program.bind_assoc, Program.pure_bind]

theorem Sequencer.enablePaging_eq : b.enablePaging i = pagingBases i >>= fun bases =>
    b.platform.enable bases.1 bases.2 >>= fun _ =>
      b.platform.log (record .debug ["translation enabled"]) := by
  rw [pagingBases, Program.bind_assoc]
  refine congrArg (call .readTables >>= ·) (funext fun t => ?_)
  cases t.space? with
  | none => rfl
  | some space => rfl

/-- A core turns paging on once on its way to the kernel's body. -/
theorem Sequencer.approach_eq : b.approach i = b.toPaging i >>= fun bases =>
    b.platform.enable bases.1 bases.2 >>= fun _ => b.toBody i := by
  simp only [approach, toPaging, toBody, enablePaging_eq]
  split <;> simp only [Program.bind_assoc]

theorem follows_pagingBases :
    (protocol b blank body).Follows
      (fun bases φ => bases = (blank.space.identityL1Base, blank.space.virtualL1Base) ∧
        ∃ c, φ = ⟨i, .enabling [], c⟩) ⟨i, .released, c⟩ (Sequencer.pagingBases i) := by
  have hread : (protocol b blank body).Follows
      (fun t φ => Populated blank t ∧ φ = ⟨i, .released, c⟩) ⟨i, .released, c⟩
      (call .readTables) := follows_call .readTables fun t ht => ⟨ht, rfl⟩
  refine .bind (hread.mono fun t φ hφ => ?_)
  obtain ⟨hpop, rfl⟩ := hφ
  have hspace : t.space? = some t.space := by
    rw [Paging.TableStorage.space?, hpop.1]
    rfl
  obtain ⟨hidentity, hvirtual⟩ := bases_of_populated hpop
  simp only [hspace, hidentity, hvirtual]
  exact .bind (follows_call .enable fun _ _ => .pure ⟨rfl, c, rfl⟩)

theorem follows_toPaging (ho : b.platform.Orderly) (hb : blank.isBuilt = false)
    (hi : i < b.cores.val) (hs : s = if i = primaryCore then .setup .tables else .parked) :
    (protocol b blank body).Follows
      (fun bases φ => bases = (blank.space.identityL1Base, blank.space.virtualL1Base) ∧
        ∃ c, φ = ⟨i, .enabling [], c⟩) ⟨i, s, {}⟩ (b.toPaging i) := by
  have hrest : ∀ c, (protocol b blank body).Follows _ ⟨i, .released, c⟩ (do
      Sequencer.reach i .pagingEnable
      Sequencer.pagingBases i) := fun c =>
    .andThen (follows_mark (.reached .pagingEnable) trivial fun _ => rfl) fun _ =>
      follows_pagingBases
  subst hs
  unfold Sequencer.toPaging
  split
  · refine .andThen (follows_mark (.reached .coldReset) trivial fun _ => rfl) fun _ => ?_
    refine .andThen (follows_mark (.reached .primaryInit) trivial fun _ => rfl) fun _ => ?_
    refine .bind ((follows_primaryInit ho hb).mono fun _ φ hφ => ?_)
    obtain ⟨r, c, rfl⟩ := hφ
    refine .andThen (follows_mark (.reached .releaseSecondaries) trivial fun _ => rfl) fun _ => ?_
    refine .andThenFrom (follows_releaseSecondaries ho) fun _ c => ?_
    exact hrest c
  · rename_i hne
    refine .andThen (follows_mark (.reached .coldReset) trivial fun _ => rfl) fun _ => ?_
    refine .andThen (follows_mark (.reached .awaitRelease) trivial fun _ => rfl) fun _ => ?_
    refine .bind (follows_call (.awaitReleased hi hne) fun _ _ => ?_)
    exact hrest {}

theorem follows_toBody (ho : b.platform.Orderly) {as : List (Answer machine)}
    (henabled : Enabled b blank as) :
    (protocol b blank body).Follows (fun _ φ => ∃ c, φ = ⟨i, .running [], c⟩)
      ⟨i, .enabling as, c⟩ (b.toBody i) := by
  refine .bind ((follows_enabled (ho.log _) henabled).mono fun _ φ hφ => ?_)
  obtain ⟨as, c, rfl, henabled⟩ := hφ
  refine .andThen (follows_note (.reached .startRendezvous) trivial) fun _ => ?_
  have hfind : Permits b blank body ⟨i, .enabling (as ++ [_]), c⟩ .readRendezvous :=
    .findStart (henabled.snoc ⟨.note i (.reached .startRendezvous), ()⟩)
  refine .andThen (follows_rendezvous hfind (fun _ => id) (fun _ => rfl)) fun r => ?_
  refine .andThen (follows_sync (m := .start)) fun _ => ?_
  exact follows_call .enter fun _ _ => ⟨_, rfl⟩

theorem follows_approach (ho : b.platform.Orderly) (hb : blank.isBuilt = false)
    (hi : i < b.cores.val) (hs : s = if i = primaryCore then .setup .tables else .parked) :
    (protocol b blank body).Follows (fun _ φ => ∃ c, φ = ⟨i, .running [], c⟩) ⟨i, s, {}⟩
      (b.approach i) := by
  rw [Sequencer.approach_eq]
  refine .bind ((follows_toPaging ho hb hi hs).mono fun bases φ hφ => ?_)
  obtain ⟨rfl, c, rfl⟩ := hφ
  refine .bind ((follows_enable ho).mono fun _ φ hφ => ?_)
  obtain ⟨as, c, rfl, henabled⟩ := hφ
  exact follows_toBody ho henabled

theorem follows_depart {as : List (Answer machine)} (hbody : (body i).After as (.done ())) :
    (protocol b blank body).Follows (fun _ φ => ∃ c, φ = ⟨i, .finished, c⟩) ⟨i, .running as, c⟩
      (Sequencer.depart i) := by
  refine .bind (follows_call (.leave hbody) fun _ _ => ?_)
  refine .andThen (follows_rendezvous .findStop (fun _ => id) (fun _ => rfl)) fun r => ?_
  exact (follows_sync (m := .stop)).mono fun _ φ hφ => ⟨c, hφ⟩

theorem follows_conclude (ho : b.platform.Orderly) :
    (protocol b blank body).Follows (fun a φ => a = State.halted ∧ ∃ c, φ = ⟨i, .finished, c⟩)
      ⟨i, .finished, c⟩ (b.conclude i) := by
  have hhalt : ∀ c, (protocol b blank body).Follows
      (fun a φ => a = State.halted ∧ ∃ c, φ = ⟨i, .finished, c⟩) ⟨i, .finished, c⟩ (do
        Sequencer.reach i .halted
        return State.halted) := by
    intro c
    refine .andThen (follows_mark (.reached .halted) trivial fun _ => rfl) fun _ => ?_
    exact .pure ⟨rfl, c, rfl⟩
  unfold Sequencer.conclude
  split
  · refine .bind ((follows_at (ho.log _ c) (fun _ => rfl) (by exact rfl)).mono fun _ φ hφ => ?_)
    obtain ⟨c, rfl, -⟩ := hφ
    exact hhalt c
  · exact hhalt c

/-- Where a core starts. -/
def startPhase (i : Nat) : Phase :=
  ⟨i, if i = primaryCore then .setup .tables else .parked, {}⟩

theorem follows_run (ho : b.platform.Orderly) (hbody : ∀ i < b.cores.val, Uses .kernel (body i))
    (hb : blank.isBuilt = false) (i : Nat) :
    (protocol b blank body).Follows
      (fun a φ => a = State.halted ∧ (φ.core < b.cores.val → φ.stage = .finished))
      (startPhase i) (b.run i body) := by
  by_cases hi : i < b.cores.val
  · rw [Sequencer.run_eq hi]
    refine .andThenFrom (follows_approach ho hb hi rfl) fun _ c => ?_
    refine .bind ((follows_body (hbody i hi)).mono fun _ φ hφ => ?_)
    obtain ⟨as, c, rfl, hafter⟩ := hφ
    refine .andThenFrom (follows_depart hafter) fun _ c => ?_
    refine (follows_conclude ho).mono fun a φ hφ => ?_
    obtain ⟨rfl, c, rfl⟩ := hφ
    exact ⟨rfl, fun _ => rfl⟩
  · have hne : i ≠ primaryCore := by
      intro h
      subst h
      exact hi b.cores.pos
    rw [startPhase, if_neg hne, Sequencer.run, if_neg hi]
    refine .andThen (follows_mark (.reached .coldReset) trivial fun _ => rfl) fun _ => ?_
    refine .andThen (follows_mark (.reached .halted) trivial fun _ => rfl) fun _ => ?_
    exact .pure ⟨rfl, fun h => absurd h hi⟩

end BareKernel.Boot
