import BareKernel.Proofs.Boot.Steps

/-! The boot's protocol keeps the boot's invariant: one case for each operation that it permits. -/

namespace BareKernel

open Sync

/-! ## Clients -/

namespace Kernel

variable {k k' : Kernel} {c : Client} {o : Op} {r : Reply o} {s : Scope}

theorem agrees_of_perform (ho : o.IsQuiet) (hk : perform o k = (some r, k')) : k'.Agrees k := by
  have ha := perform_agrees ho k
  rwa [hk] at ha

theorem Client.loans_after (ho : o.IsQuiet) (c : Client) (r : Reply o) :
    (c.after o r).loans = c.loans := by
  cases o <;> first | rfl | exact ho.elim

/-- What a core knows of the gate stays right. -/
theorem Client.reading_after (hk : perform o k = (some r, k'))
    (hc : ∀ isOpen, c.reading = some isOpen → k.gateOpen = isOpen) :
    ∀ isOpen, (c.after o r).reading = some isOpen → k.gateOpen = isOpen := by
  intro isOpen h
  cases o with
  | readGate =>
    obtain rfl : k.gateOpen = r := Option.some.inj (Prod.mk.inj hk).1
    exact Option.some.inj h
  | openGate => cases h
  | allocateObject align bytes => cases r <;> exact hc isOpen h
  | _ => exact hc isOpen h

/-- The heap's calls are the only ones of a client that change what is set up. -/
theorem Client.Permits.quiet_or_heap (hc : c.Permits s o) : o.IsQuiet ∨
    s = .kernel ∧ ((∃ size, o = .allocate size) ∨ (∃ align bytes, o = .allocateObject align bytes) ∨
      ∃ addr, o = .free addr) := by
  cases o with
  | allocate size => exact .inr ⟨hc.1, .inl ⟨size, rfl⟩⟩
  | allocateObject align bytes => exact .inr ⟨hc.1, .inr (.inl ⟨align, bytes, rfl⟩)⟩
  | free addr => exact .inr ⟨hc.1, .inr (.inr ⟨addr, rfl⟩)⟩
  | openGate => exact hc.elim
  | writeTables t => exact hc.elim
  | markBuilt => exact hc.elim
  | initHeap region => exact hc.elim
  | publish r => exact hc.elim
  | setReleased => exact hc.elim
  | arrive barrier => exact hc.elim
  | _ => exact .inl trivial

end Kernel

namespace Boot

open Kernel

variable {b : Sequencer} {blank : Paging.TableStorage} {body : Nat → Code Unit} {k k' : Kernel}
  {φ : Phase} {rest : List Phase} {o : Op} {r : Reply o} {i : Nat} {c : Client} {s : Stage}
  {scope : Scope}

theorem Phase.next_of_loans (hl : (c.after o r).loans = c.loans) :
    (Phase.mk i s c).next o r = ⟨i, s.next o r, c.after o r⟩ := by
  cases s with
  | setup s =>
    simp only [Phase.next, ← hl]
  | _ => rfl

theorem CoreCount.mod_eq (n : CoreCount) : n.val % 256 ^ 4 = n.val := Nat.mod_eq_of_lt n.lt

/-- A client's step, whatever it does to the client's loans. -/
theorem Phase.next_use (ha : Allows b blank s scope) (hc : c.Permits scope o) (r : Reply o) :
    (Phase.mk i s c).next o r = ⟨i, s.add ⟨o, r⟩, c.after o r⟩ := by
  rw [← Stage.next_use ha hc r]
  rcases hc.quiet_or_heap with hq | ⟨rfl, -⟩
  · exact Phase.next_of_loans (Client.loans_after hq c r)
  · cases s with
    | setup s => cases s <;> cases ha
    | _ => rfl

namespace Sound

/-- The gate and the tables are as the core's stage has them. -/
theorem gate_eq (hs : Sound b blank k (φ :: rest)) (hφ : φ.stage.IsPast) : k.gateOpen = true := by
  obtain ⟨r, hr⟩ := hs.ready (hs.past φ List.mem_cons_self hφ)
  exact hr.gate

theorem foreseen_use (hs : Sound b blank k (⟨i, s, c⟩ :: rest)) (ha : Allows b blank s scope)
    (hc : c.Permits scope o) (hk : perform o k = (some r, k')) : Foreseen blank s o r := by
  cases o with
  | readGate =>
    obtain rfl : k.gateOpen = r := Option.some.inj (Prod.mk.inj hk).1
    cases s with
    | setup s =>
      have hholds := hs.before _ List.mem_cons_self s rfl
      cases s with
      | setReleased r =>
        cases ha
        exact absurd rfl hc
      | _ => exact hholds.1.gate
    | parked => exact ha.elim
    | _ =>
      refine hs.gate_eq ?_
      simp only [Stage.IsPast, Stage.rank]
      grind
  | readTables =>
    cases hc
    cases s with
    | setup s => cases s <;> cases ha
    | released => exact ha.elim
    | _ => trivial
  | readRendezvous =>
    cases hc
    cases s with
    | enabling as =>
      rcases ha with ha | ⟨ha, -⟩ <;> cases ha
    | leaving => exact ha.elim
    | _ => trivial
  | _ => trivial

theorem use (hs : Sound b blank k (⟨i, s, c⟩ :: rest)) (ha : Allows b blank s scope)
    (hc : c.Permits scope o) (hk : perform o k = (some r, k')) :
    Sound b blank k' ((Phase.mk i s c).next o r :: rest) := by
  rw [Phase.next_use ha hc]
  rcases hc.quiet_or_heap with hq | ⟨rfl, hheap⟩
  · refine hs.stay (agrees_of_perform hq hk) (Client.loans_after hq c r) ?_
      (Client.reading_after hk (hs.reading _ List.mem_cons_self))
    intro hparked
    subst hparked
    exact ha.elim
  · have hpast : s.IsPast := by
      cases s with
      | running as => simp [Stage.IsPast, Stage.rank]
      | setup s => cases s <;> cases ha
      | enabling as => rcases ha with ha | ⟨ha, -⟩ <;> cases ha
      | finished => cases ha
      | _ => exact ha.elim
    rcases hheap with ⟨size, rfl⟩ | ⟨align, bytes, rfl⟩ | ⟨addr, rfl⟩
    · obtain ⟨hr, rfl⟩ := Prod.mk.inj hk
      obtain rfl := Option.some.inj hr
      exact hs.allocate hpast size
    · obtain ⟨hr, rfl⟩ := Prod.mk.inj hk
      obtain rfl := Option.some.inj hr
      exact hs.allocateObject hpast align bytes
    · obtain ⟨hr, rfl⟩ := Prod.mk.inj hk
      exact hs.free hpast hc.2.2 r

/-! ## The setup -/

section Setup

variable {start : Nat}

theorem initHeap (hs : Sound b blank k (⟨i, .setup .heap, c⟩ :: rest)) (region : Region) :
    Sound b blank { k with memory := (k.memory.init region).2 }
      ((Phase.mk i (.setup .heap) c).next (.initHeap region) (k.memory.init region).1 :: rest) := by
  obtain ⟨hclosed, htables⟩ := hs.before _ List.mem_cons_self _ rfl
  have hreading := (List.forall_mem_cons.mp hs.reading).1
  generalize hi : k.memory.init region = q
  obtain ⟨q, m⟩ := q
  cases q with
  | error e =>
    obtain rfl := Session.memory_of_init_error hi
    exact hs.setUp rfl rfl hreading ⟨⟨hclosed.gate, hclosed.release⟩, htables⟩
  | ok record =>
    exact hs.setUp rfl rfl hreading
      ⟨⟨hclosed.gate, hclosed.release⟩, htables, Session.inOrder_init hi⟩

theorem startBarrier (hs : Sound b blank k (⟨i, .setup .startBarrier, c⟩ :: rest)) :
    Sound b blank { k with memory := (k.memory.allocateObject 4 b.cores.bytes).2 }
      ((Phase.mk i (.setup .startBarrier) c).next (.allocateObject 4 b.cores.bytes)
        (k.memory.allocateObject 4 b.cores.bytes).1 :: rest) := by
  obtain ⟨hclosed, htables, hin⟩ := hs.before _ List.mem_cons_self _ rfl
  have hreading := (List.forall_mem_cons.mp hs.reading).1
  rcases hin.allocateObject 4 b.cores.bytes with ⟨e, hm⟩ | ⟨addr, m, hm, hin', -, hnumber⟩
  · rw [hm]
    exact hs.setUp rfl rfl hreading ⟨⟨hclosed.gate, hclosed.release⟩, htables, hin⟩
  · rw [hm]
    exact hs.setUp rfl rfl hreading ⟨⟨hclosed.gate, hclosed.release⟩, htables, hin',
      (hnumber 4 _ rfl).trans b.cores.mod_eq⟩

theorem stopBarrier (hs : Sound b blank k (⟨i, .setup (.stopBarrier start), c⟩ :: rest)) :
    Sound b blank { k with memory := (k.memory.allocateObject 4 b.cores.bytes).2 }
      ((Phase.mk i (.setup (.stopBarrier start)) c).next (.allocateObject 4 b.cores.bytes)
        (k.memory.allocateObject 4 b.cores.bytes).1 :: rest) := by
  obtain ⟨hclosed, htables, hin, hstart⟩ := hs.before _ List.mem_cons_self _ rfl
  have hreading := (List.forall_mem_cons.mp hs.reading).1
  rcases hin.allocateObject 4 b.cores.bytes with ⟨e, hm⟩ | ⟨addr, m, hm, hin', hleave, hnumber⟩
  · rw [hm]
    exact hs.setUp rfl rfl hreading ⟨⟨hclosed.gate, hclosed.release⟩, htables, hin, hstart⟩
  · rw [hm]
    have hlast : m.numberAt start 4 = b.cores.val := by
      have hloan : (⟨start, 4⟩ : Loan) ∈ [(⟨start, 4⟩ : Loan)] := List.mem_cons_self
      exact (hleave.numberAt hloan (List.mem_cons_of_mem _ hloan) (Nat.le_refl 4)).trans hstart
    refine hs.setUp rfl rfl hreading
      ⟨⟨hclosed.gate, hclosed.release⟩, htables, hin', fun meeting => ?_⟩
    cases meeting with
    | start => exact hlast
    | stop => exact (hnumber 4 _ rfl).trans b.cores.mod_eq

end Setup

/-! ## Between the meetings -/

/-- A core goes on before it has counted itself down, or after a meeting and before the next. -/
theorem advance (hs : Sound b blank k (⟨i, s, c⟩ :: rest)) (s' : Stage) (ha : k'.Agrees k)
    (hle : s.rank ≤ s'.rank) (hrank : 2 ≤ s.rank ∧ s'.rank ≤ 4 ∨ 6 ≤ s.rank ∧ s'.rank ≤ 9)
    (hfound : ∀ m r, s' = .arriving m r ∨ s' = .waiting m r → k.release.rendezvous = some r) :
    Sound b blank k' (⟨i, s', c⟩ :: rest) := by
  have hpast : s.IsPast := by
    unfold Stage.IsPast
    omega
  have hmeeting : ∀ m : Meeting, m.rank ≤ s'.rank → m.rank < s.rank := by
    intro m
    cases m <;> simp only [Meeting.rank] <;> omega
  refine hs.move ha ((hs.formed _ List.mem_cons_self).past hpast)
    (hs.past _ List.mem_cons_self hpast) (Nat.le_trans hpast hle) (fun m => ?_) (fun m h => ?_)
    hfound
  · exact ⟨fun h => Nat.le_of_lt (hmeeting m h), fun h => Nat.le_trans h hle⟩
  · exact .inl (hmeeting m (Nat.le_of_lt h))

/-- Whoever looks for the barriers after the release finds them. -/
theorem rendezvous_isSome (hs : Sound b blank k (φ :: rest)) (hφ : φ.stage.IsPast) :
    k.release.rendezvous.isSome = true := by
  obtain ⟨r, hr⟩ := hs.ready (hs.past φ List.mem_cons_self hφ)
  rw [hr.rendezvous]
  rfl

/-- A barrier that lets a core through has counted everybody. -/
theorem pass {m : Meeting} {rdv : Rendezvous}
    (hs : Sound b blank k (⟨i, .waiting m rdv, c⟩ :: rest))
    (hcomplete : (k.barrierAt (rdv.at m)).isComplete = true) :
    Sound b blank k
      (⟨i, (Stage.waiting m rdv).next (.awaitComplete (rdv.at m)) (), c⟩ :: rest) := by
  have hpast : (Stage.waiting m rdv).IsPast := by
    cases m <;> simp [Stage.IsPast, Stage.rank]
  have hrel := hs.past _ List.mem_cons_self hpast
  obtain ⟨r, hr⟩ := hs.ready hrel
  obtain rfl := hr.found _ List.mem_cons_self m rdv (.inr rfl)
  have hzero : k.memory.numberAt (rdv.at m) 4 = 0 := by
    have hle : k.memory.numberAt (rdv.at m) 4 ≤ b.cores.val := by
      have := hr.count m
      omega
    have hnat := congrArg UInt32.toNat (of_decide_eq_true hcomplete)
    simp only [barrierAt] at hnat
    rwa [UInt32.toNat_ofNat_of_lt' (Nat.lt_of_le_of_lt hle b.cores.lt)] at hnat
  have hall := hs.all_arrived hr hzero
  refine hs.move ⟨rfl, rfl, rfl, rfl⟩ ((hs.formed _ List.mem_cons_self).past hpast) hrel ?_
    (fun m' => ?_) (fun m' h => ?_) ?_
  · cases m <;> simp [Stage.IsPast, Stage.next, Stage.rank]
  · cases m <;> cases m' <;> simp [Stage.Arrived, Stage.next, Stage.rank, Meeting.rank]
  · by_cases hm : m' = m
    · exact .inr (hm ▸ hall)
    · left
      cases m <;> cases m' <;>
        first | exact absurd rfl hm | simp_all [Stage.Passed, Stage.next, Stage.rank, Meeting.rank]
  · cases m <;> simp [Stage.next]

/-! ## Every operation -/

/-- A permitted operation with a reply: the reply is foreseen, and the invariant stays. -/
theorem answered (hs : Sound b blank k (φ :: rest)) (hp : Permits b blank body φ o) (hk : perform o k = (some r, k')) :
    Foreseen blank φ.stage o r ∧ Sound b blank k' (φ.next o r :: rest) := by
  obtain ⟨hreply, hstate⟩ := Prod.mk.inj hk
  have hreading := hs.reading φ List.mem_cons_self
  cases hp with
  | @note i s c e he =>
    refine ⟨trivial, ?_⟩
    rw [Phase.next_of_loans rfl, Stage.next_note he]
    exact hs.stay (agrees_of_perform (o := .note i e) trivial hk) rfl (fun _ => rfl) hreading
  | use ha hc => exact ⟨hs.foreseen_use ha hc hk, hs.use ha hc hk⟩
  | @awaitReleased i c hlt hne =>
    refine ⟨trivial, ?_⟩
    have hrel : k.release.isReleased = true := by
      by_contra h
      simp [h] at hreply
    subst hstate
    change Sound b blank k (⟨i, .released, c⟩ :: rest)
    refine hs.move ⟨rfl, rfl, rfl, rfl⟩ hlt hrel (Nat.le_refl 2) (fun m => ?_) (fun m h => ?_) ?_
    · cases m <;> simp [Stage.Arrived, Stage.rank, Meeting.rank]
    · cases m <;> simp [Stage.Passed, Stage.rank, Meeting.rank] at h
    · simp
  | @readBlank i c =>
    obtain rfl : k.tables = r := Option.some.inj hreply
    subst hstate
    obtain ⟨hclosed, htables⟩ := hs.before _ List.mem_cons_self _ rfl
    exact ⟨htables, hs.setUp rfl rfl hreading ⟨hclosed, htables⟩⟩
  | @writeTables i c as s hfills =>
    subst hstate
    obtain ⟨hclosed, -⟩ := hs.before _ List.mem_cons_self _ rfl
    obtain ⟨reply, -, hpop⟩ := hfills
    exact ⟨trivial, hs.setUp rfl rfl hreading
      ⟨⟨hclosed.gate, hclosed.release⟩, rfl, _, hpop⟩⟩
  | @markBuilt i c s =>
    subst hstate
    obtain ⟨hclosed, htables, r, hpop⟩ := hs.before _ List.mem_cons_self _ rfl
    have hspace : k.tables.space = s := congrArg (·.space) htables
    exact ⟨trivial, hs.setUp rfl rfl hreading
      ⟨⟨hclosed.gate, hclosed.release⟩, rfl, r, hspace ▸ hpop⟩⟩
  | @initHeap i c region =>
    subst hstate
    obtain rfl : (k.memory.init region).1 = r := Option.some.inj hreply
    exact ⟨trivial, hs.initHeap region⟩
  | startBarrier =>
    subst hstate
    obtain rfl : (k.memory.allocateObject 4 b.cores.bytes).1 = r := Option.some.inj hreply
    exact ⟨trivial, hs.startBarrier⟩
  | stopBarrier =>
    subst hstate
    obtain rfl : (k.memory.allocateObject 4 b.cores.bytes).1 = r := Option.some.inj hreply
    exact ⟨trivial, hs.stopBarrier⟩
  | publish =>
    subst hstate
    obtain ⟨hclosed, htables, hbarriers⟩ := hs.before _ List.mem_cons_self _ rfl
    exact ⟨trivial, hs.setUp rfl rfl hreading
      ⟨⟨hclosed.gate, hclosed.release⟩, htables, hbarriers, rfl⟩⟩
  | openGate =>
    subst hstate
    obtain ⟨hclosed, htables, hbarriers, hrendezvous⟩ := hs.before _ List.mem_cons_self _ rfl
    refine ⟨trivial, hs.setUp rfl rfl (fun isOpen h => ?_)
      ⟨⟨rfl, hclosed.release⟩, htables, hbarriers, hrendezvous⟩⟩
    cases h
  | setReleased =>
    subst hstate
    exact ⟨trivial, hs.release⟩
  | @readTables i c =>
    obtain rfl : k.tables = r := Option.some.inj hreply
    subst hstate
    obtain ⟨r, hr⟩ := hs.ready (hs.past _ List.mem_cons_self (Nat.le_refl 2))
    exact ⟨hr.tables,
      hs.stay (a := ⟨.readTables, k.tables⟩) ⟨rfl, rfl, rfl, rfl⟩ rfl (fun _ => rfl) hreading⟩
  | @enable i c =>
    refine ⟨trivial, ?_⟩
    change Sound b blank k' (⟨i, .enabling [], c⟩ :: rest)
    exact hs.advance _ (agrees_of_perform (o := .note i _) trivial hk) (Nat.le_succ 2)
      (.inl ⟨Nat.le_refl 2, Nat.le_succ 3⟩) (by simp)
  | @findStart i c as hen =>
    obtain rfl : k.release.rendezvous = r := Option.some.inj hreply
    subst hstate
    have hsome := hs.rendezvous_isSome (Nat.le_succ 2)
    refine ⟨hsome, ?_⟩
    obtain ⟨rdv, hrdv⟩ := Option.isSome_iff_exists.mp hsome
    rw [hrdv]
    refine hs.advance (.arriving .start rdv) ⟨rfl, rfl, rfl, rfl⟩ (Nat.le_succ 3)
      (.inl ⟨Nat.le_succ 2, Nat.le_refl 4⟩) fun m r h => ?_
    rcases h with h | h
    · obtain ⟨-, rfl⟩ := Stage.arriving.inj h
      exact hrdv
    · cases h
  | arrive =>
    subst hstate
    exact ⟨trivial, hs.arrive⟩
  | @awaitComplete i c m rdv =>
    subst hstate
    have hcomplete : (k.barrierAt (rdv.at m)).isComplete = true := by
      by_contra h
      simp [h] at hreply
    exact ⟨trivial, hs.pass hcomplete⟩
  | @enter i c =>
    refine ⟨trivial, ?_⟩
    change Sound b blank k' (⟨i, .running [], c⟩ :: rest)
    exact hs.advance _ (agrees_of_perform (o := .note i _) trivial hk) (Nat.le_succ 6)
      (.inr ⟨Nat.le_refl 6, by simp [Stage.rank]⟩) (by simp)
  | @leave i c as hbody =>
    refine ⟨trivial, ?_⟩
    change Sound b blank k' (⟨i, .leaving, c⟩ :: rest)
    exact hs.advance _ (agrees_of_perform (o := .note i _) trivial hk) (Nat.le_succ 7)
      (.inr ⟨Nat.le_succ 6, Nat.le_succ 8⟩) (by simp)
  | @findStop i c =>
    obtain rfl : k.release.rendezvous = r := Option.some.inj hreply
    subst hstate
    have hsome := hs.rendezvous_isSome (by simp [Stage.IsPast, Stage.rank])
    refine ⟨hsome, ?_⟩
    obtain ⟨rdv, hrdv⟩ := Option.isSome_iff_exists.mp hsome
    rw [hrdv]
    refine hs.advance (.arriving .stop rdv) ⟨rfl, rfl, rfl, rfl⟩ (Nat.le_succ 8)
      (.inr ⟨by simp [Stage.rank], Nat.le_refl 9⟩) fun m r h => ?_
    rcases h with h | h
    · obtain ⟨-, rfl⟩ := Stage.arriving.inj h
      exact hrdv
    · cases h

/-- A try in vain leaves everything as it is. -/
theorem of_agrees {φs : List Phase} (hs : Sound b blank k φs) (ha : k'.Agrees k) :
    Sound b blank k' φs where
  roster := hs.roster
  formed := hs.formed
  reading := by
    rw [ha.gate]
    exact hs.reading
  before := by
    intro φ hφ s h
    exact (hs.before φ hφ s h).of_agrees ha
  past := by
    rw [ha.release]
    exact hs.past
  ready := by
    rw [ha.release]
    intro h
    obtain ⟨r, hr⟩ := hs.ready h
    refine ⟨r, ha.gate.trans hr.gate, ha.tables ▸ hr.tables,
      (congrArg (·.rendezvous) ha.release).trans hr.rendezvous, ?_, ?_, hr.passed, hr.found⟩
    · rw [ha.memory]
      exact hr.heap
    · rw [ha.memory]
      exact hr.count

theorem keeps : (protocol b blank body).Keeps (Sound b blank) where
  answered := by
    intro k k' φs i φ o r hs hφ hp hk
    obtain ⟨hlt, rfl⟩ := List.getElem?_eq_some_iff.mp hφ
    have hperm := (List.getElem_cons_eraseIdx_perm hlt).symm
    obtain ⟨hf, hs⟩ := (hs.perm hperm).answered hp hk
    exact ⟨hf, hs.perm (List.set_perm_cons_eraseIdx hlt _).symm⟩
  waiting := by
    intro k k' φs i φ o hs _ _ hk
    have hquiet : o.IsQuiet := by
      cases o <;> first | trivial | cases hk
    have ha := perform_agrees hquiet k
    have hk' : (perform o k).2 = k' := congrArg (·.2) hk
    exact hs.of_agrees (hk' ▸ ha)

end Sound

end Boot

end BareKernel
