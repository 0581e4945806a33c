import BareKernel.Proofs.Heap.Interleaving

/-! What cores may rely on that share the heap. At every moment there is a run of the same clients,
one whole call after another, that has come to the same heap and given the same answers; what a
single client may rely on therefore holds for all of them together. -/

namespace BareKernel.Heap.Serial

open Sync

variable {α : Type}

/-- A client at the start: what it has been handed before, and its program. -/
structure Party (α : Type) where
  loans : List Loan
  code : Code α

namespace Party

def client (p : Party α) : Client := ⟨p.loans, fun _ => none⟩

/-- From its start on, the party keeps to what is its own, and ends as `Q` says. -/
def Keeps (base : Nat) (Q : α → Client → Prop) (p : Party α) : Prop :=
  (protocol base).Follows Q p.client p.code

end Party

/-- The parties, one call at a time. -/
def oneByOne (m : KernelMemory) (parties : List (Party α)) : Crew machine Fatal α :=
  ⟨m, parties.map Party.code⟩

/-- The parties at the same time, one access at a time. The gate has been opened before: every call
that looks at the heap takes the lock. -/
def together (s : Shared.Setting) (heap : Heap) (parties : List (Party α)) :
    Crew Shared.machine Fatal α :=
  ⟨⟨heap, {}⟩, parties.map fun p => expand s p.code⟩

/-- The history `h`, which has led to `d`, comes to what the calls of `H` come to one after another,
with `holder` in the middle of the next one. -/
structure Serialised (s : Shared.Setting) (Q : α → Client → Prop) (C : Crew machine Fatal α)
    (start : List Client) (h : List (Attempt Shared.machine)) (d : Crew Shared.machine Fatal α)
    (H : List (Attempt machine)) (D : Crew machine Fatal α) (holder : Option Nat) : Prop where
  runs : C.Runs H D
  /-- No call fails. -/
  answered : ∀ a ∈ H, a.reply.isSome = true
  /-- The calls come in the order in which they got the lock. -/
  order : Shared.takers h = callers s H ++ holder.toList
  accesses : Shared.accesses h = accesses H
  lock : d.shared.lock = ⟨holder.isSome⟩
  heap : holder = none → D.shared.heap = some d.shared.heap
  /-- Every core has the answers that its client has, and is about to do the same. -/
  programs : ∀ i, holder ≠ some i → d.programs[i]? = D.programs[i]?.map (expand s)
  pending : ∀ i, holder = some i → ∃ o k,
    D.programs[i]? = some (.op (M := machine) o k) ∧ (critical? s o).isSome = true
  /-- Every answer is foreseen: what a client reads is what it has written. -/
  heeds : ∀ i c, start[i]? = some c → (protocol s.base).Heeds c (answersOf H i)
  apart : ((clientsAfter s start H).flatMap Client.loans).Pairwise Loan.Apart
  kept : ∀ i c, holder ≠ some i → (clientsAfter s start H)[i]? = some c →
    ∀ addr b, c.written addr = some b → d.shared.heap.arena.byteAt addr = b
  ends : ∀ (i : Nat) (a : α), d.programs[i]? = some (.done a) →
    ∃ c, (clientsAfter s start H)[i]? = some c ∧ Q a c
  single : holder = none → (∀ c ∈ clientsAfter s start H, c.loans = []) →
    d.shared.heap.Represents (.initial s.len)

variable {s : Shared.Setting} {heap : Heap} {parties : List (Party α)}
  {h : List (Attempt Shared.machine)} {d : Crew Shared.machine Fatal α} {t : Session} {p : Plan}
  {Q : α → Client → Prop}

theorem sound_start (hf : t.Follows heap p)
    (hloans : t.live.Perm (parties.flatMap Party.loans)) :
    Sound ⟨t.memory.checks, heap.arena.base, heap.arena.len⟩ t.memory
      (parties.map Party.client) := by
  refine ⟨⟨heap, p, ?_, rfl⟩, fun c hc addr b hw => ?_⟩
  · rw [List.flatMap_map]
    exact hf.perm hloans
  · obtain ⟨q, -, rfl⟩ := List.mem_map.mp hc
    cases hw

theorem watch_start {m : KernelMemory} (hs : Sound s m (parties.map Party.client))
    (hkeeps : ∀ q ∈ parties, q.Keeps s.base Q) :
    Watch s Q (oneByOne m parties) (parties.map Party.client) := by
  intro H D hr
  refine (Sound.keeps s).runs hs ?_ ?_ hr
  · exact (List.length_map _).trans (List.length_map Party.client).symm
  · intro i c q hc hq
    obtain ⟨party, hi, rfl⟩ := Option.map_eq_some_iff.mp (List.getElem?_map.symm.trans hc)
    simp only [oneByOne, List.getElem?_map, hi, Option.map_some, Option.some.injEq] at hq
    exact hq ▸ hkeeps party (List.mem_of_getElem? hi)

theorem standing_start {m : KernelMemory} (hm : m.heap = some heap) :
    Standing s (oneByOne m parties) (parties.map Party.client) [] (together s heap parties) []
      (oneByOne m parties) none where
  runs := .start
  answered := List.forall_mem_nil _
  order := rfl
  accesses := rfl
  mirrors := by
    refine ⟨fun j _ => ?_, rfl, fun _ => hm, fun i hi => absurd hi.symm (Option.some_ne_none i)⟩
    simp only [together, oneByOne, List.getElem?_map, Option.map_map]
    rfl

/-- Whatever two runs that stand in this way have come to, clients may rely on it. -/
theorem Standing.serialised {C : Crew machine Fatal α} {start : List Client}
    {H : List (Attempt machine)} {D : Crew machine Fatal α} {holder : Option Nat}
    (hw : Watch s Q C start) (hmin : minArenaUnits ≤ s.len)
    (hst : Standing s C start h d H D holder)
    (hsettled : ∀ i, holder ≠ some i → ∀ q, D.programs[i]? = some q → Settled s q) :
    Serialised s Q C start h d H D holder := by
  have hwatched := hw H D hst.runs
  have hs : Sound s D.shared (clientsAfter s start H) := hwatched.invariant
  have hm := hst.mirrors
  refine ⟨hst.runs, hst.answered, hst.order, hst.accesses, hm.lock, hm.idle, hm.programs,
    fun i hi => ?_, hwatched.heeds, ?_, fun i c hi hc addr b hwritten => ?_, fun i a hp => ?_,
    fun hi hnone => ?_⟩
  · obtain ⟨g, o, k, x, y, f, S, hb⟩ := hm.busy i hi
    exact ⟨o, k, hb.client, Option.isSome_iff_exists.mpr ⟨x, hb.critical⟩⟩
  · obtain ⟨g, p, hf, -⟩ := hs.session
    exact hf.apart
  · obtain ⟨hholds, hb⟩ := hs.written c (List.mem_of_getElem? hc) addr b hwritten
    exact (hm.byteAt hs hi hc hholds).trans hb
  · by_cases hi : holder = some i
    · obtain ⟨g, o, k, x, y, f, S, hb⟩ := hm.busy i hi
      obtain hdone : rest y f = .done a := Option.some.inj (hb.program.symm.trans hp)
      rcases rest_cases y f d.shared with ⟨r, hrest, -⟩ | ⟨o', k', r, hrest, -⟩ <;>
        cases hrest.symm.trans hdone
    · rw [hm.programs i hi] at hp
      obtain ⟨q, hq, hdone⟩ := Option.map_eq_some_iff.mp hp
      obtain ⟨c, hc, hf⟩ := hwatched.exists_phase hq
      obtain rfl := (hsettled i hi q hq).eq_done hdone
      exact ⟨c, hc, hf⟩
  · obtain ⟨g, hg, hr⟩ := hs.initial hmin hnone
    obtain rfl := Option.some.inj ((hm.idle hi).symm.trans hg)
    exact hr

/-- However the accesses of any number of cores interleave that each keep to what is their own, the
calls come out as they do one after another in the order in which they got the lock. Nothing is
handed to two of them, each reads what it has written, and once everything is given back the heap is
a single free block. -/
theorem concurrent_calls_serialise {m m' : KernelMemory} {region : Region} {record : Log.Record}
    {calls : List Session.Call} (hi : m.init region = (.ok record, m'))
    (hp : (Session.mk m' []).Permits calls) (ht : ((Session.mk m' []).run calls).2 = t)
    (hheap : t.memory.heap = some heap)
    (hs : s = ⟨t.memory.checks, heap.arena.base, heap.arena.len⟩)
    (hloans : t.live.Perm (parties.flatMap Party.loans))
    (hkeeps : ∀ q ∈ parties, q.Keeps s.base Q) (hr : (together s heap parties).Runs h d) :
    ∃ H D holder, Serialised s Q (oneByOne t.memory parties) (parties.map Party.client) h d
      H D holder := by
  obtain ⟨h₀, hf₀, -, -, -, hmin⟩ := Session.follows_init hi
  obtain ⟨g, -, -, hf, -, hl⟩ := hf₀.run hp
  rw [ht] at hf
  obtain rfl := Option.some.inj (hheap.symm.trans hf.heap)
  subst hs
  have hw := watch_start (sound_start hf hloans) hkeeps
  obtain ⟨H, D, holder, hst, hsettled⟩ := Standing.of_runs hw (standing_start hheap) hr
  exact ⟨H, D, holder, hst.serialised hw (hl ▸ hmin) hsettled⟩

/-! ## Two clients for example -/

/-- Write a byte into a block, read it back and give the block back. -/
def useAndFree (b : UInt8) (addr : Nat) : Code UInt8 := do
  .call (M := machine) (.writeByte addr b)
  let r ← .call (M := machine) (.readByte addr)
  .call (M := machine) (.free addr)
  return r

/-- Do the same with a block that is handed out first. -/
def borrow (b : UInt8) : Code UInt8 := do
  match ← (.call (M := machine) (.allocate 8) : Code (Option Nat)) with
  | some addr => useAndFree b addr
  | none => return b

/-- Who uses a block in this way has nothing left in the end. -/
theorem follows_useAndFree (base : Nat) (b : UInt8) (addr : Nat) {n : Nat} (hn : 0 < n) :
    (protocol base).Follows (fun _ c => c.loans = []) ⟨[⟨addr, n⟩], fun _ => none⟩
      (useAndFree b addr) := by
  have hholds : (Client.mk [⟨addr, n⟩] fun _ => none).holds addr = true :=
    Client.holds_iff.mpr ⟨_, List.mem_singleton_self _, 0, hn, rfl⟩
  refine ⟨hholds, fun _ _ => ⟨hholds, fun _ _ => ⟨.inr (.inr (List.mem_singleton_self _)), ?_⟩⟩⟩
  intro _ _
  exact List.filter_eq_nil_iff.mpr fun loan hl => by simp [List.mem_singleton.mp hl]

theorem follows_borrow (base : Nat) (b : UInt8) :
    (protocol base).Follows (fun _ c => c.loans = []) ⟨[], fun _ => none⟩ (borrow b) := by
  refine ⟨trivial, fun r _ => ?_⟩
  cases r with
  | none => rfl
  | some addr => exact follows_useAndFree base b addr (n := capacity 8) (by decide)

/-- One block is handed out before the clients start. -/
def smallStart : Session := (smallSession.run [.allocate 8]).2

def smallHeap : Heap := smallStart.memory.heap.getD ⟨smallMemory.ram, 0, 0, 0⟩

def smallSetting : Shared.Setting :=
  ⟨smallStart.memory.checks, smallHeap.arena.base, smallHeap.arena.len⟩

def smallParties : List (Party UInt8) :=
  [⟨[⟨4120, 8⟩], useAndFree 1 4120⟩, ⟨[], borrow 2⟩]

/-- The two cores take turns, one access each. -/
def smallTogether : Crew Shared.machine Fatal UInt8 :=
  (List.replicate 90 [0, 1]).flatten.foldl Crew.step (together smallSetting smallHeap smallParties)

def answer? : Shared.Code UInt8 → Option UInt8
  | .done b => some b
  | _ => none

theorem exists_done_of_answers {ps : List (Shared.Code UInt8)} {bs : List UInt8}
    (hps : ps.map answer? = bs.map some) {i : Nat} (hi : i < bs.length) :
    ∃ b, ps[i]? = some (.done b) := by
  have hget := congrArg (fun l => l[i]?) hps
  simp only [List.getElem?_map, List.getElem?_eq_getElem hi, Option.map_some,
    Option.map_eq_some_iff] at hget
  obtain ⟨p, hp, ha⟩ := hget
  cases p with
  | done b => exact ⟨b, hp⟩
  | stop e => cases ha
  | op o k => cases ha

theorem concurrent_calls_serialise_small :
    smallTogether.programs.map answer? = [some 1, some 2] ∧
      smallTogether.shared.heap.Represents (.initial 16) := by
  have hanswers : smallTogether.programs.map answer? = [1, 2].map some := by decide +kernel
  have hlock : smallTogether.shared.lock.taken = false := by decide +kernel
  refine ⟨hanswers, ?_⟩
  obtain ⟨h, hr⟩ : ∃ h, (together smallSetting smallHeap smallParties).Runs h smallTogether :=
    Crew.exists_runs_foldl _ _
  have hkeeps : ∀ q ∈ smallParties, q.Keeps smallSetting.base fun _ c => c.loans = [] := by
    intro q hq
    simp only [smallParties, List.mem_cons, List.not_mem_nil, or_false] at hq
    rcases hq with rfl | rfl
    · exact follows_useAndFree _ 1 4120 (by decide)
    · exact follows_borrow _ 2
  have hheap : smallStart.memory.heap = some smallHeap := rfl
  have hloans : smallStart.live.Perm (smallParties.flatMap Party.loans) := by decide +kernel
  have hp : smallSession.Permits [.allocate 8] := ⟨trivial, trivial⟩
  obtain ⟨H, D, holder, hserial⟩ :=
    concurrent_calls_serialise init_small hp (t := smallStart) rfl hheap rfl hloans hkeeps hr
  have hfree : holder = none := by
    rw [hserial.lock] at hlock
    exact Option.isNone_iff_eq_none.mp (Option.isSome_eq_false_iff.mp hlock)
  refine hserial.single hfree fun c hc => ?_
  -- Both are through, and who is through has nothing left.
  obtain ⟨i, hc⟩ := List.mem_iff_getElem?.mp hc
  have hi := (List.getElem?_eq_some_iff.mp hc).1
  rw [length_clientsAfter] at hi
  obtain ⟨b, hdone⟩ := exists_done_of_answers hanswers hi
  obtain ⟨d, hd, hnone⟩ := hserial.ends i b hdone
  obtain rfl := Option.some.inj (hc.symm.trans hd)
  exact hnone

end BareKernel.Heap.Serial
