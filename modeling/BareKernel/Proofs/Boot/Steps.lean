import BareKernel.Proofs.Boot.Sound

/-! Every operation that the boot's protocol permits keeps the invariant. Most leave the gate, the
release, the tables and the heap alone and can only move their own core on; the others are the steps
of the setup, the heap calls of a running kernel, and the arrivals at a barrier. -/

namespace BareKernel.Boot

open Kernel Sync

variable {b : Sequencer} {blank : Paging.TableStorage} {body : Nat → Code Unit} {k k' : Kernel}
  {φ ψ : Phase} {rest : List Phase} {o : Op} {r : Rendezvous} {n i : Nat} {c : Client}

/-! ## From the release on -/

/-- One core moves on: no gate closes, no count is lost, and whoever passes a barrier has seen
everybody there. -/
theorem Ready.step (hr : Ready blank n r k (φ :: rest)) (hcore : ψ.core = φ.core)
    (hgate : k'.gateOpen = k.gateOpen) (hrelease : k'.release = k.release)
    (htables : k'.tables = k.tables) (hheap : (Session.mk k'.memory (loans r (ψ :: rest))).InOrder)
    (hcount : ∀ m, k'.memory.numberAt (r.at m) 4 +
      (ψ :: rest).countP (fun φ => decide (φ.stage.Arrived m)) = n)
    (harr : ∀ m, φ.stage.Arrived m → ψ.stage.Arrived m)
    (hpass : ∀ m, ψ.stage.Passed m → φ.stage.Passed m ∨
      ∀ χ ∈ φ :: rest, χ.core < n → χ.stage.Arrived m)
    (hfound : ∀ m r', ψ.stage = .arriving m r' ∨ ψ.stage = .waiting m r' → r' = r) :
    Ready blank n r k' (ψ :: rest) where
  gate := hgate.trans hr.gate
  tables := htables ▸ hr.tables
  rendezvous := (congrArg (·.rendezvous) hrelease).trans hr.rendezvous
  heap := hheap
  count := hcount
  passed := by
    intro m χ hχ hp ω hω hcoreω
    have hall : ∀ ω ∈ φ :: rest, ω.core < n → ω.stage.Arrived m := by
      rcases List.mem_cons.mp hχ with rfl | hχ
      · rcases hpass m hp with hp | h
        · exact hr.passed m φ List.mem_cons_self hp
        · exact h
      · exact hr.passed m χ (List.mem_cons_of_mem φ hχ) hp
    rcases List.mem_cons.mp hω with rfl | hω
    · exact harr m (hall φ List.mem_cons_self (hcore ▸ hcoreω))
    · exact hall ω (List.mem_cons_of_mem φ hω) hcoreω
  found := by
    intro χ hχ
    rcases List.mem_cons.mp hχ with rfl | hχ
    · exact hfound
    · exact hr.found χ (List.mem_cons_of_mem φ hχ)

/-- The heap and the counts are the same. -/
theorem Ready.quiet (hr : Ready blank n r k (φ :: rest)) (ha : k'.Agrees k)
    (hcore : ψ.core = φ.core) (hloans : ψ.client.loans = φ.client.loans)
    (harr : ∀ m, ψ.stage.Arrived m ↔ φ.stage.Arrived m)
    (hpass : ∀ m, ψ.stage.Passed m → φ.stage.Passed m ∨
      ∀ χ ∈ φ :: rest, χ.core < n → χ.stage.Arrived m)
    (hfound : ∀ m r', ψ.stage = .arriving m r' ∨ ψ.stage = .waiting m r' → r' = r) :
    Ready blank n r k' (ψ :: rest) := by
  refine hr.step hcore ha.gate ha.release ha.tables ?_ (fun m => ?_) (fun m => (harr m).mpr)
    hpass hfound
  · rw [ha.memory, loans, List.flatMap_cons, hloans]
    exact hr.heap
  · have h := hr.count m
    rw [List.countP_cons] at h ⊢
    simp only [harr m, ha.memory]
    exact h

theorem Stage.IsPast.ne_parked {s : Stage} (h : s.IsPast) : s ≠ .parked := by
  intro hs
  simp [IsPast, hs, rank] at h

theorem Stage.IsPast.ne_setup {s : Stage} (h : s.IsPast) (t : Setup) : s ≠ .setup t := by
  intro hs
  simp [IsPast, hs, rank] at h

/-- After the release only what makes the kernel ready is at stake. -/
theorem Sound.step (hs : Sound b blank k (φ :: rest)) (hcore : ψ.core = φ.core)
    (hlt : φ.core < b.cores.val) (hrel : k.release.isReleased = true) (hpast : ψ.stage.IsPast)
    (hgate : k'.gateOpen = k.gateOpen) (hrelease : k'.release = k.release)
    (hreading : ∀ isOpen, ψ.client.reading = some isOpen → k.gateOpen = isOpen)
    (hready : ∀ r, Ready blank b.cores.val r k (φ :: rest) →
      Ready blank b.cores.val r k' (ψ :: rest)) : Sound b blank k' (ψ :: rest) where
  roster := by
    rw [List.map_cons, hcore]
    exact hs.roster
  formed := by
    refine List.forall_mem_cons.mpr ⟨⟨?_, ?_, ?_⟩, (List.forall_mem_cons.mp hs.formed).2⟩
    · intro h
      exact absurd h hpast.ne_parked
    · intro s h
      exact absurd h (hpast.ne_setup s)
    · intro _
      exact hcore ▸ hlt
  reading := by
    rw [hgate]
    exact List.forall_mem_cons.mpr ⟨hreading, (List.forall_mem_cons.mp hs.reading).2⟩
  before := by
    refine List.forall_mem_cons.mpr ⟨fun s h => absurd h (hpast.ne_setup s), ?_⟩
    intro χ hχ s h
    have hun := (hs.before χ (List.mem_cons_of_mem φ hχ) s h).unreleased
    rw [hrel] at hun
    cases hun
  past := by
    rw [hrelease]
    exact List.forall_mem_cons.mpr ⟨fun _ => hrel, (List.forall_mem_cons.mp hs.past).2⟩
  ready := by
    intro _
    obtain ⟨r, hr⟩ := hs.ready hrel
    exact ⟨r, hready r hr⟩

/-- A core moves on and touches nothing that is shared. -/
theorem Sound.move (hs : Sound b blank k (φ :: rest)) (ha : k'.Agrees k) {s : Stage}
    (hlt : φ.core < b.cores.val) (hrel : k.release.isReleased = true) (hpast : s.IsPast)
    (harr : ∀ m, s.Arrived m ↔ φ.stage.Arrived m)
    (hpass : ∀ m, s.Passed m → φ.stage.Passed m ∨
      ∀ χ ∈ φ :: rest, χ.core < b.cores.val → χ.stage.Arrived m)
    (hfound : ∀ m r, s = .arriving m r ∨ s = .waiting m r → k.release.rendezvous = some r) :
    Sound b blank k' (⟨φ.core, s, φ.client⟩ :: rest) := by
  refine hs.step rfl hlt hrel hpast ha.gate ha.release (hs.reading φ List.mem_cons_self) ?_
  intro r hr
  refine hr.quiet ha rfl rfl harr hpass fun m r' h => ?_
  exact Option.some.inj ((hfound m r' h).symm.trans hr.rendezvous)

/-! ## Steps that leave a core where it is -/

theorem Setup.Holds.of_agrees {s : Setup} (h : s.Holds blank n k) (ha : k'.Agrees k) :
    s.Holds blank n k' := by
  have hclosed : Closed k → Closed k' := fun hc =>
    ⟨ha.gate.trans hc.gate, (congrArg (·.isReleased) ha.release).trans hc.release⟩
  cases s <;>
    simp only [Setup.Holds, Barriers, ha.gate, ha.release, ha.tables, ha.memory] at h ⊢ <;>
    first | exact h | exact ⟨hclosed h.1, h.2⟩

/-- The core's stage is the same, but for the replies that add up. -/
theorem Sound.stay (hs : Sound b blank k (φ :: rest)) (ha : k'.Agrees k) {a : Answer machine}
    (hloans : c.loans = φ.client.loans) (hparked : φ.stage = .parked → c = φ.client)
    (hreading : ∀ isOpen, c.reading = some isOpen → k.gateOpen = isOpen) :
    Sound b blank k' (⟨φ.core, φ.stage.add a, c⟩ :: rest) := by
  have hf := hs.formed φ List.mem_cons_self
  have hpast : (φ.stage.add a).IsPast → φ.stage.IsPast := by
    intro h
    rwa [Stage.IsPast, Stage.rank_add] at h
  refine ⟨hs.roster, ?_, ?_, ?_, ?_, ?_⟩
  · refine List.forall_mem_cons.mpr ⟨⟨?_, ?_, ?_⟩, (List.forall_mem_cons.mp hs.formed).2⟩
    · intro h
      have h := Stage.add_eq_parked h
      exact (hparked h).trans (hf.parked h)
    · intro s h
      obtain ⟨t, ht, -⟩ := Stage.add_eq_setup h
      obtain ⟨hp, hl⟩ := hf.setup t ht
      exact ⟨hp, hloans.trans hl⟩
    · intro h
      exact hf.past (hpast h)
  · rw [ha.gate]
    exact List.forall_mem_cons.mpr ⟨hreading, (List.forall_mem_cons.mp hs.reading).2⟩
  · obtain ⟨hφ, hrest⟩ := List.forall_mem_cons.mp hs.before
    refine List.forall_mem_cons.mpr ⟨?_, fun χ hχ s h => (hrest χ hχ s h).of_agrees ha⟩
    intro s h
    obtain ⟨t, ht, rfl⟩ := Stage.add_eq_setup h
    exact Setup.holds_add ((hφ t ht).of_agrees ha)
  · rw [ha.release]
    refine List.forall_mem_cons.mpr ⟨?_, (List.forall_mem_cons.mp hs.past).2⟩
    intro h
    exact hs.past φ List.mem_cons_self (hpast h)
  · rw [ha.release]
    intro h
    obtain ⟨r, hr⟩ := hs.ready h
    refine ⟨r, hr.quiet ha rfl hloans (fun m => ?_) (fun m h => .inl ?_) fun m r' h => ?_⟩
    · simp only [Stage.Arrived, Stage.rank_add]
    · rwa [Stage.Passed, Stage.rank_add] at h
    · exact hr.found φ List.mem_cons_self m r' (Stage.add_eq_meeting h)

/-! ## The setup -/

/-- The only core that is at work goes on with the setup. -/
theorem Sound.setUp (hs : Sound b blank k (φ :: rest)) {s s' : Setup}
    (hφ : φ.stage = .setup s) (hloans : c.loans = φ.client.loans)
    (hreading : ∀ isOpen, c.reading = some isOpen → k'.gateOpen = isOpen)
    (hholds : s'.Holds blank b.cores.val k') :
    Sound b blank k' (⟨φ.core, .setup s', c⟩ :: rest) := by
  have hparked := hs.rest_parked hφ
  obtain ⟨hprimary, hl⟩ := (hs.formed φ List.mem_cons_self).setup s hφ
  have hf := (List.forall_mem_cons.mp hs.formed).2
  have hpast : ¬(Stage.setup s').IsPast := fun h => h.ne_setup s' rfl
  refine ⟨hs.roster, ?_, ?_, ?_, ?_, ?_⟩
  · refine List.forall_mem_cons.mpr ⟨⟨?_, fun _ _ => ⟨hprimary, hloans.trans hl⟩,
      fun h => absurd h hpast⟩, hf⟩
    intro h
    cases h
  · refine List.forall_mem_cons.mpr ⟨hreading, fun χ hχ isOpen h => ?_⟩
    rw [(hf χ hχ).parked (hparked χ hχ)] at h
    cases h
  · refine List.forall_mem_cons.mpr ⟨?_, fun χ hχ t h => ?_⟩
    · intro t h
      obtain rfl : s' = t := Stage.setup.inj h
      exact hholds
    · rw [hparked χ hχ] at h
      cases h
  · refine List.forall_mem_cons.mpr ⟨fun h => absurd h hpast, fun χ hχ h => ?_⟩
    exact absurd (hparked χ hχ) h.ne_parked
  · intro h
    rw [hholds.unreleased] at h
    cases h

/-- Everything is in place, and nobody has come to a barrier yet. -/
theorem Sound.release (hs : Sound b blank k (⟨i, .setup (.setReleased r), c⟩ :: rest)) :
    Sound b blank { k with release := { k.release with isReleased := true } }
      (⟨i, .released, c⟩ :: rest) := by
  have hparked := hs.rest_parked rfl
  obtain ⟨hprimary, hl⟩ := (hs.formed _ List.mem_cons_self).setup _ rfl
  obtain ⟨⟨hgate, -⟩, htables, ⟨hin, hnumber⟩, hrendezvous⟩ :=
    hs.before _ List.mem_cons_self _ rfl
  have hf := (List.forall_mem_cons.mp hs.formed).2
  have hclient : ∀ χ ∈ rest, χ.client = {} := fun χ hχ => (hf χ hχ).parked (hparked χ hχ)
  have hrank : ∀ χ ∈ (⟨i, .released, c⟩ : Phase) :: rest, χ.stage.rank ≤ 2 := by
    refine List.forall_mem_cons.mpr ⟨Nat.le_refl 2, fun χ hχ => ?_⟩
    rw [hparked χ hχ]
    exact Nat.zero_le 2
  have hnotyet : ∀ χ ∈ (⟨i, .released, c⟩ : Phase) :: rest, ∀ m, ¬χ.stage.Arrived m := by
    intro χ hχ m ha
    have hle := hrank χ hχ
    unfold Stage.Arrived at ha
    cases m <;> simp only [Meeting.rank] at ha <;> omega
  refine ⟨hs.roster, ?_, ?_, ?_, fun _ _ _ => rfl, fun _ => ⟨r, ?_⟩⟩
  · refine List.forall_mem_cons.mpr ⟨⟨?_, ?_, fun _ => hprimary ▸ b.cores.pos⟩, hf⟩
    · intro h
      cases h
    · intro s h
      cases h
  · refine List.forall_mem_cons.mpr ⟨?_, (List.forall_mem_cons.mp hs.reading).2⟩
    exact (List.forall_mem_cons.mp hs.reading).1
  · refine List.forall_mem_cons.mpr ⟨?_, fun χ hχ s h => ?_⟩
    · intro s h
      cases h
    · rw [hparked χ hχ] at h
      cases h
  · refine ⟨hgate, htables, hrendezvous, ?_, fun m => ?_, fun m χ hχ hp => ?_, ?_⟩
    · have hnone : ((⟨i, .released, c⟩ : Phase) :: rest).flatMap (·.client.loans) = [] := by
        refine List.flatMap_eq_nil_iff.mpr (List.forall_mem_cons.mpr ⟨hl, fun χ hχ => ?_⟩)
        rw [hclient χ hχ]
      rw [loans, hnone]
      exact hin
    · rw [List.countP_eq_zero.mpr fun χ hχ ha => hnotyet χ hχ m (of_decide_eq_true ha),
        Nat.add_zero]
      exact hnumber m
    · exact absurd (Nat.le_of_lt hp) (hnotyet χ hχ m)
    · refine List.forall_mem_cons.mpr ⟨fun m r' h => ?_, fun χ hχ m r' h => ?_⟩
      · rcases h with h | h <;> cases h
      · rw [hparked χ hχ] at h
        rcases h with h | h <;> cases h

/-! ## The heap -/

/-- A barrier's loan. -/
theorem mem_loans (r : Rendezvous) (m : Meeting) (φs : List Phase) :
    (⟨r.at m, 4⟩ : Loan) ∈ loans r φs := by
  cases m with
  | start => exact List.mem_cons_of_mem _ List.mem_cons_self
  | stop => exact List.mem_cons_self

/-- What a core does to the heap within its own loans is nothing to the others. -/
theorem Sound.onHeap (hs : Sound b blank k (φ :: rest)) {memory : KernelMemory}
    {a : Answer machine} (hφ : φ.stage.IsPast) (hreading : c.reading = φ.client.reading)
    (hheap : ∀ r, (Session.mk k.memory (loans r (φ :: rest))).InOrder →
      ∃ live, live.Perm (loans r (⟨φ.core, φ.stage.add a, c⟩ :: rest)) ∧
        (Session.mk memory live).InOrder ∧
        (Session.mk k.memory (loans r (φ :: rest))).Leaves ⟨memory, live⟩) :
    Sound b blank { k with memory := memory } (⟨φ.core, φ.stage.add a, c⟩ :: rest) := by
  have hpast : (φ.stage.add a).IsPast := by rwa [Stage.IsPast, Stage.rank_add]
  refine hs.step rfl ((hs.formed φ List.mem_cons_self).past hφ) (hs.past φ List.mem_cons_self hφ)
    hpast rfl rfl (hreading ▸ hs.reading φ List.mem_cons_self) fun r hr => ?_
  obtain ⟨live, hperm, hin, hleave⟩ := hheap r hr.heap
  refine hr.step rfl rfl rfl rfl (hin.perm hperm) (fun m => ?_) (fun m => ?_) (fun m h => .inl ?_)
    fun m r' h => hr.found φ List.mem_cons_self m r' (Stage.add_eq_meeting h)
  · have hnumber : memory.numberAt (r.at m) 4 = k.memory.numberAt (r.at m) 4 :=
      hleave.numberAt (mem_loans r m _) (hperm.mem_iff.mpr (mem_loans r m _)) (Nat.le_refl 4)
    have hc := hr.count m
    rw [List.countP_cons] at hc ⊢
    simp only [hnumber, Stage.Arrived, Stage.rank_add]
    exact hc
  · simp only [Stage.Arrived, Stage.rank_add]
    exact id
  · rwa [Stage.Passed, Stage.rank_add] at h

/-- One more loan of one core is one more loan. -/
theorem perm_loans_cons {i : Nat} {s : Stage} (loan : Loan) (r : Rendezvous)
    (hloans : c.loans = loan :: φ.client.loans) :
    (loan :: loans r (φ :: rest)).Perm (loans r (⟨i, s, c⟩ :: rest)) := by
  simp only [loans, List.flatMap_cons, hloans, List.cons_append]
  exact (List.Perm.swap _ _ _).trans ((List.Perm.swap _ _ _).cons _)

theorem loans_eq {i : Nat} {s : Stage} (r : Rendezvous) (hloans : c.loans = φ.client.loans) :
    loans r (⟨i, s, c⟩ :: rest) = loans r (φ :: rest) := by
  simp only [loans, List.flatMap_cons, hloans]

/-- A core that gives memory back gives back its own only. -/
theorem revoke_loans {i : Nat} {s : Stage} {memory : KernelMemory} {addr : Nat}
    (hin : (Session.mk memory (loans r (φ :: rest))).InOrder)
    (ha : addr = 0 ∨ addr ∈ φ.client.loans.map (·.addr))
    (hloans : c.loans = Session.revoke φ.client.loans addr) :
    Session.revoke (loans r (φ :: rest)) addr = loans r (⟨i, s, c⟩ :: rest) := by
  have hother : ∀ loan ∈ (⟨r.stop, 4⟩ :: ⟨r.start, 4⟩ :: rest.flatMap (·.client.loans) : List Loan),
      loan.addr ≠ addr := by
    intro loan hl heq
    rcases ha with rfl | ha
    · refine hin.addr_ne_zero ?_ heq
      simp only [loans, List.flatMap_cons, List.mem_cons, List.mem_append] at hl ⊢
      tauto
    · have hperm : (loans r (φ :: rest)).Perm (φ.client.loans ++
          (⟨r.stop, 4⟩ :: ⟨r.start, 4⟩ :: rest.flatMap (·.client.loans))) := by
        simp only [loans, List.flatMap_cons]
        exact ((List.perm_middle.trans (List.perm_middle.cons _)).symm).trans (.refl _)
      have hnodup := (hin.perm hperm).nodup
      rw [List.map_append] at hnodup
      exact (List.disjoint_of_nodup_append hnodup) ha (heq ▸ List.mem_map_of_mem hl)
  have hkeep : ∀ l : List Loan, (∀ loan ∈ l, loan.addr ≠ addr) → Session.revoke l addr = l :=
    fun l h => List.filter_eq_self.mpr fun loan hl => decide_eq_true (h loan hl)
  simp only [List.forall_mem_cons] at hother
  obtain ⟨hstop, hstart, hrest⟩ := hother
  have hrest := hkeep _ hrest
  simp only [Session.revoke] at hrest hloans ⊢
  simp only [loans, List.flatMap_cons, List.filter_cons, List.filter_append, hstop, hstart,
    decide_true, ne_eq, not_false_eq_true, if_true, hrest, hloans]

theorem Sound.allocate (hs : Sound b blank k (φ :: rest)) {a : Answer machine}
    (hφ : φ.stage.IsPast) (size : Nat) :
    Sound b blank { k with memory := (k.memory.allocate size).2 } (⟨φ.core, φ.stage.add a,
      φ.client.after (.allocate size) (k.memory.allocate size).1⟩ :: rest) := by
  refine hs.onHeap hφ rfl fun r hin => ?_
  obtain ⟨-, hin', hleave⟩ := hin.allocate size
  refine ⟨Session.grant (loans r (φ :: rest)) size (k.memory.allocate size).1, ?_, hin', hleave⟩
  cases (k.memory.allocate size).1 with
  | error e => exact .of_eq (loans_eq r rfl).symm
  | ok q =>
    cases q with
    | none => exact .of_eq (loans_eq r rfl).symm
    | some addr => exact perm_loans_cons ⟨addr, size⟩ r rfl

theorem Sound.allocateObject (hs : Sound b blank k (φ :: rest)) {a : Answer machine}
    (hφ : φ.stage.IsPast) (align : Nat) (bytes : List UInt8) :
    Sound b blank { k with memory := (k.memory.allocateObject align bytes).2 }
      (⟨φ.core, φ.stage.add a, φ.client.after (.allocateObject align bytes)
        (k.memory.allocateObject align bytes).1⟩ :: rest) := by
  refine hs.onHeap hφ ?_ fun r hin => ?_
  · cases (k.memory.allocateObject align bytes).1 <;> rfl
  · rcases hin.allocateObject align bytes with ⟨e, hm⟩ | ⟨addr, m, hm, hin', hleave, -⟩
    · rw [hm]
      exact ⟨_, .of_eq (loans_eq r rfl).symm, hin, fun _ _ _ _ _ => rfl⟩
    · rw [hm]
      exact ⟨_, perm_loans_cons _ r rfl, hin', hleave⟩

theorem Sound.free (hs : Sound b blank k (φ :: rest)) {a : Answer machine} (hφ : φ.stage.IsPast)
    {addr : Nat} (ha : addr = 0 ∨ addr ∈ φ.client.loans.map (·.addr)) (q : Except Heap.Fatal Unit) :
    Sound b blank { k with memory := (k.memory.free addr).2 }
      (⟨φ.core, φ.stage.add a, φ.client.after (.free addr) q⟩ :: rest) := by
  refine hs.onHeap hφ rfl fun r hin => ?_
  have hmem : addr = 0 ∨ addr ∈ (loans r (φ :: rest)).map (·.addr) := by
    refine ha.imp_right fun ha => ?_
    obtain ⟨loan, hl, rfl⟩ := List.mem_map.mp ha
    refine List.mem_map_of_mem (List.mem_cons_of_mem _ (List.mem_cons_of_mem _ ?_))
    exact List.mem_flatMap_of_mem List.mem_cons_self hl
  obtain ⟨-, hin', hleave⟩ := hin.free hmem
  exact ⟨_, .of_eq (revoke_loans hin ha rfl), hin', hleave⟩

/-! ## The meetings -/

theorem toNat_sub_one {v : Nat} (hpos : 0 < v) (hlt : v < 2 ^ 32) :
    (UInt32.ofNat v - 1).toNat = v - 1 := by
  have hone : (1 : UInt32) ≤ UInt32.ofNat v := by
    rw [UInt32.le_iff_toNat_le, UInt32.toNat_ofNat_of_lt' hlt]
    exact hpos
  rw [UInt32.toNat_sub_of_le _ _ hone, UInt32.toNat_ofNat_of_lt' hlt]
  rfl

/-- A core that arrives counts one down. -/
theorem Sound.arrive {m : Meeting} (hs : Sound b blank k (⟨i, .arriving m r, c⟩ :: rest)) :
    Sound b blank (k.setBarrier (r.at m) (k.barrierAt (r.at m)).arrive)
      (⟨i, .waiting m r, c⟩ :: rest) := by
  have hpast : (Stage.arriving m r).IsPast := by
    cases m <;> simp [Stage.IsPast, Stage.rank]
  have hpast' : (Stage.waiting m r).IsPast := by
    cases m <;> simp [Stage.IsPast, Stage.rank]
  have hnot : ¬(Stage.arriving m r).Arrived m := by
    cases m <;> simp [Stage.Arrived, Meeting.rank, Stage.rank]
  have harrived : (Stage.waiting m r).Arrived m := by
    cases m <;> simp [Stage.Arrived, Meeting.rank, Stage.rank]
  have hlt := (hs.formed _ List.mem_cons_self).past hpast
  have hreading := (List.forall_mem_cons.mp hs.reading).1
  refine hs.step rfl hlt (hs.past _ List.mem_cons_self hpast) hpast' rfl rfl hreading
    fun r' hr => ?_
  obtain rfl := hr.found _ List.mem_cons_self m r (.inl rfl)
  have hpos := hs.number_pos hr List.mem_cons_self hlt hnot
  generalize hv : k.memory.numberAt (r.at m) 4 = v at hpos
  have hle : v ≤ b.cores.val := by
    have := hr.count m
    omega
  have hlt32 : v < 2 ^ 32 := Nat.lt_of_le_of_lt hle b.cores.lt
  have hnew : (k.barrierAt (r.at m)).arrive.remaining.toNat = v - 1 := by
    simp only [Barrier.arrive, barrierAt, hv]
    exact toNat_sub_one hpos hlt32
  have hloans : loans r (⟨i, .waiting m r, c⟩ :: rest) = loans r (⟨i, .arriving m r, c⟩ :: rest) :=
    loans_eq r rfl
  have hmem := mem_loans r m (⟨i, .arriving m r, c⟩ :: rest)
  refine hr.step rfl rfl rfl rfl ?_ (fun m' => ?_) (fun m' ha => ?_) (fun m' hp => .inl ?_)
    fun m' r' h => ?_
  · rw [hloans]
    exact (hr.heap.setBytes hmem (by rw [KernelMemory.length_bytesOf])).1
  · have hcount := hr.count m'
    rw [List.countP_cons] at hcount ⊢
    by_cases hm : m' = m
    · subst hm
      have hnumber : (k.setBarrier (r.at m') (k.barrierAt (r.at m')).arrive).memory.numberAt
          (r.at m') 4 = v - 1 := by
        refine (hr.heap.numberAt_setNumberAt hmem (Nat.le_refl 4) _).trans ?_
        rw [hnew]
        exact Nat.mod_eq_of_lt (by omega)
      rw [hnumber]
      simp only [hnot, harrived, decide_true, decide_false, if_true, Bool.false_eq_true,
        if_false, hv] at hcount ⊢
      omega
    · have hne : r.at m' ≠ r.at m := by
        have hnodup := hr.heap.nodup
        simp only [loans, List.map_cons, List.nodup_cons, List.mem_cons, not_or] at hnodup
        have hne := hnodup.1.1
        cases m <;> cases m' <;> first | exact absurd rfl hm | exact hne | exact Ne.symm hne
      have hnumber : (k.setBarrier (r.at m) (k.barrierAt (r.at m)).arrive).memory.numberAt
          (r.at m') 4 = k.memory.numberAt (r.at m') 4 := by
        refine KernelMemory.numberAt_congr fun k' hk' => ?_
        exact (hr.heap.setBytes hmem (by rw [KernelMemory.length_bytesOf])).2 ⟨r.at m', 4⟩
          (mem_loans r m' _) hne k' hk'
      rw [hnumber]
      have hiff : (Stage.waiting m r).Arrived m' ↔ (Stage.arriving m r).Arrived m' := by
        cases m <;> cases m' <;>
          first | exact absurd rfl hm | simp [Stage.Arrived, Meeting.rank, Stage.rank]
      simp only [hiff]
      exact hcount
  · unfold Stage.Arrived at ha ⊢
    cases m <;> simp only [Stage.rank] at ha ⊢ <;> omega
  · unfold Stage.Passed at hp ⊢
    cases m <;> cases m' <;> simp only [Stage.rank, Meeting.rank] at hp ⊢ <;> omega
  · rcases h with h | h <;> cases h
    rfl

end BareKernel.Boot
