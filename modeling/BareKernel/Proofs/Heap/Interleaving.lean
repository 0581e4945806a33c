import BareKernel.Proofs.Heap.Critical
import BareKernel.Proofs.Sync.Schedule

/-! Clients of one heap that run at the same time. However their accesses interleave, the calls come
out as they do one after another, in the order in which they got the lock. -/

namespace BareKernel.Heap

open Sync
open Heap.Action (Underway)

variable {α β : Type}

/-! ## Histories -/

/-- A byte that a client reads or writes. -/
structure Access where
  core : Nat
  addr : Nat
  byte : UInt8
  isWrite : Bool
  deriving DecidableEq, Repr

namespace Serial

def access? (core : Nat) : (o : Op) → Reply o → Option Access
  | .readByte addr, b => some ⟨core, addr, b, false⟩
  | .writeByte addr b, _ => some ⟨core, addr, b, true⟩
  | .allocate _, _ => none
  | .free _, _ => none

/-- The accesses by clients, in their order. -/
def accesses (h : List (Attempt machine)) : List Access :=
  h.filterMap fun a => a.reply.bind (access? a.core a.op)

/-- The cores of the calls that need the lock, in the order of the calls. -/
def callers (s : Shared.Setting) (h : List (Attempt machine)) : List Nat :=
  h.filterMap fun a => a.reply.bind fun _ => (critical? s a.op).map fun _ => a.core

end Serial

namespace Shared

def access? (core : Nat) : (o : Op) → Reply o → Option Access
  | .readByte addr, b => some ⟨core, addr, b, false⟩
  | .writeByte addr b, _ => some ⟨core, addr, b, true⟩
  | _, _ => none

def accesses (h : List (Attempt machine)) : List Access :=
  h.filterMap fun a => a.reply.bind (access? a.core a.op)

def taker? (core : Nat) : Op → Option Nat
  | .take => some core
  | _ => none

/-- The cores that got the lock, in the order in which they got it. -/
def takers (h : List (Attempt machine)) : List Nat :=
  h.filterMap fun a => a.reply.bind fun _ => taker? a.core a.op

theorem takers_append (h h' : List (Attempt machine)) :
    takers (h ++ h') = takers h ++ takers h' := List.filterMap_append

theorem accesses_append (h h' : List (Attempt machine)) :
    accesses (h ++ h') = accesses h ++ accesses h' := List.filterMap_append

theorem perform_take_free {t : Shared} (h : t.lock = ⟨false⟩) :
    perform .take t = (some (), ⟨t.heap, ⟨true⟩⟩) := by
  rw [perform, h]
  rfl

theorem perform_take_held {t : Shared} (h : t.lock = ⟨true⟩) : perform .take t = (none, t) := by
  obtain ⟨heap, lock⟩ := t
  obtain rfl : lock = ⟨true⟩ := h
  rfl

end Shared

namespace Serial

/-! ## The next access -/

/-- A core inside a call releases the lock, or makes the next access of the code. -/
theorem rest_cases (y : Action β) (f : Except Failure β → Shared.Code α) (t : Shared) :
    (∃ r, rest y f = .op (M := Shared.machine) .release (fun _ => f r) ∧
        y.run t.heap = (r, t.heap)) ∨
      ∃ (o : Shared.Op) (k : Shared.Reply o → Shared.Code α) (r : Shared.Reply o),
        rest y f = .op (M := Shared.machine) o k ∧
        Shared.perform o t = (some r, ⟨(y.step t.heap).2, t.lock⟩) ∧
        k r = rest (y.step t.heap).1 f ∧
        ∀ i, Shared.takers [⟨i, o, some r⟩] = [] ∧ Shared.accesses [⟨i, o, some r⟩] = [] := by
  obtain ⟨h, lock⟩ := t
  cases y with
  | done a => exact .inl ⟨.ok a, rfl, rfl⟩
  | fail e => exact .inl ⟨.error e, rfl, rfl⟩
  | readUnit i k =>
    obtain ⟨k', hk, hsome, hnone⟩ : ∃ k',
        rest (.readUnit i k) f = .op (M := Shared.machine) (.readUnit i) k' ∧
        (∀ v, k' (some v) = rest (k v) f) ∧ k' none = rest (.fail (.fault .outsideArena)) f := by
      simp only [rest, Shared.attempt]
      refine ⟨_, rfl, fun _ => rfl, rfl⟩
    refine .inr ⟨.readUnit i, k', h.arena.units[i]?, hk, ?_, ?_, fun _ => ⟨rfl, rfl⟩⟩
    · cases hu : h.arena.units[i]? <;> simp only [Shared.perform, hu, Action.step]
    · cases hu : h.arena.units[i]? with
      | none => simp only [hnone, Action.step, hu]
      | some v => simp only [hsome, Action.step, hu]
  | writeUnit i v k =>
    by_cases hi : i < h.arena.len
    · refine .inr ⟨.writeUnit i v, _, true, rfl, ?_, ?_, fun _ => ⟨rfl, rfl⟩⟩
      · simp only [Shared.perform, Action.step, hi, if_true]
      · simp only [Action.step, hi, if_true]
        rfl
    · refine .inr ⟨.writeUnit i v, _, false, rfl, ?_, ?_, fun _ => ⟨rfl, rfl⟩⟩
      · simp only [Shared.perform, Action.step, hi, if_false]
      · simp only [Action.step, hi, if_false]
        rfl
  | readHead k => exact .inr ⟨.readHead, _, h.head, rfl, rfl, rfl, fun _ => ⟨rfl, rfl⟩⟩
  | writeHead i k => exact .inr ⟨.writeHead i, _, (), rfl, rfl, rfl, fun _ => ⟨rfl, rfl⟩⟩
  | countAllocation k => exact .inr ⟨.countAllocation, _, (), rfl, rfl, rfl, fun _ => ⟨rfl, rfl⟩⟩
  | countFree k => exact .inr ⟨.countFree, _, (), rfl, rfl, rfl, fun _ => ⟨rfl, rfl⟩⟩

/-! ## Two crews -/

/-- Core `i` is inside the call that its client is about to make, and keeps away from what the other
clients hold. -/
structure Busy (s : Shared.Setting) (cs : List Client) (d : Crew Shared.machine Fatal α)
    (D : Crew machine Fatal α) (i : Nat) (g : Heap) (o : Op) (k : Reply o → Code α)
    (x y : Action (Reply o)) (f : Except Failure (Reply o) → Shared.Code α) (S : Nat → Prop) :
    Prop where
  heap : D.shared.heap = some g
  client : D.programs[i]? = some (.op (M := machine) o k)
  critical : critical? s o = some x
  program : d.programs[i]? = some (rest y f)
  answer : ∀ r, f (.ok r) = expand s (k r)
  underway : Underway S x y g d.shared.heap
  clear : Clear s S (others cs i)

/-- The cores of `d` are where the clients of `D` are, but for the one that has the lock. -/
structure Mirrors (s : Shared.Setting) (cs : List Client) (d : Crew Shared.machine Fatal α)
    (D : Crew machine Fatal α) (holder : Option Nat) : Prop where
  programs : ∀ j, holder ≠ some j → d.programs[j]? = D.programs[j]?.map (expand s)
  lock : d.shared.lock = ⟨holder.isSome⟩
  idle : holder = none → D.shared.heap = some d.shared.heap
  busy : ∀ i, holder = some i → ∃ g o k x y f S, Busy s cs d D i g o k x y f S

variable {s : Shared.Setting} {cs cs' : List Client} {c : Client} {d : Crew Shared.machine Fatal α}
  {D : Crew machine Fatal α} {holder : Option Nat} {i j addr : Nat} {o : Op} {k : Reply o → Code α}
  {q : Code α} {r : Reply o} {b : UInt8}

/-- Who moves on and comes to hold nothing new takes nothing from what is clear. -/
theorem others_set (hc : cs[j]? = some c) (c' : Client) (hl : ∀ loan ∈ c'.loans, loan ∈ c.loans) :
    ∀ loan ∈ others (cs.set j c') i, loan ∈ others cs i := by
  intro loan hloan
  obtain ⟨e, he, hin⟩ := List.mem_flatMap.mp hloan
  obtain ⟨n, hn, hget⟩ := List.mem_eraseIdx_iff_getElem?.mp he
  by_cases hj : j = n
  · subst hj
    obtain ⟨hlt, -⟩ := List.getElem?_eq_some_iff.mp hc
    rw [List.getElem?_set_self hlt] at hget
    obtain rfl := Option.some.inj hget
    exact mem_others hc hn (hl loan hin)
  · rw [List.getElem?_set_ne hj] at hget
    exact mem_others hget hn hin

namespace Mirrors

theorem congr (hm : Mirrors s cs d D holder) (hcs : cs = cs') : Mirrors s cs' d D holder := hcs ▸ hm

/-- What is next on a core is next for its client. -/
theorem program (hm : Mirrors s cs d D holder) (hj : holder ≠ some j)
    (hp : D.programs[j]? = some q) : d.programs[j]? = some (expand s q) := by
  rw [hm.programs j hj, hp]
  rfl

/-- Core and client move on together. -/
theorem move (hm : Mirrors s cs d D holder) (hj : holder ≠ some j)
    (hp : D.programs[j]? = some q) (q' : Code α)
    (hothers : ∀ i, ∀ loan ∈ others cs' i, loan ∈ others cs i) :
    Mirrors s cs' ⟨d.shared, d.programs.set j (expand s q')⟩ ⟨D.shared, D.programs.set j q'⟩
      holder := by
  obtain ⟨hlt, -⟩ := List.getElem?_eq_some_iff.mp hp
  obtain ⟨hlt', -⟩ := List.getElem?_eq_some_iff.mp (hm.program hj hp)
  refine ⟨fun n hn => ?_, hm.lock, hm.idle, fun i hi => ?_⟩
  · by_cases hjn : j = n
    · subst hjn
      simp only [List.getElem?_set_self hlt, List.getElem?_set_self hlt', Option.map_some]
    · simp only [List.getElem?_set_ne hjn]
      exact hm.programs n hn
  · have hij : j ≠ i := fun h => hj (h ▸ hi)
    obtain ⟨g, o, k, x, y, f, S, hb⟩ := hm.busy i hi
    exact ⟨g, o, k, x, y, f, S, hb.heap, (List.getElem?_set_ne hij).trans hb.client, hb.critical,
      (List.getElem?_set_ne hij).trans hb.program, hb.answer, hb.underway,
      fun loan hl => hb.clear loan (hothers i loan hl)⟩

/-- A client is done with an operation that its core never sees. -/
theorem silent (hm : Mirrors s cs d D holder) (hj : holder ≠ some j)
    (hp : D.programs[j]? = some (.op (M := machine) o k)) (hc : cs[j]? = some c)
    (hs : Silent s o r) :
    Mirrors s (cs.set j (c.next o r)) d ⟨D.shared, D.programs.set j (k r)⟩ holder := by
  have hsame : expand s (.op (M := machine) o k) = expand s (k r) := by
    change command s o >>= _ = _
    rw [hs.command]
    rfl
  have hset : d.programs.set j (expand s (k r)) = d.programs :=
    Crew.set_of_getElem? (hsame ▸ hm.program hj hp)
  have hmove := hm.move hj hp (k r) fun i => others_set (i := i) hc _ (hs.loans c)
  rwa [hset] at hmove

/-! ### Bytes -/

/-- A byte that somebody else holds is the same in both heaps. -/
theorem agrees (hm : Mirrors s cs d D holder) (hs : Sound s D.shared cs) (hj : holder ≠ some j)
    (hc : cs[j]? = some c) (hh : c.holds addr = true) :
    ∃ g, D.shared.heap = some g ∧ g.arena.contains addr = true ∧
      d.shared.heap.arena.base = g.arena.base ∧ d.shared.heap.arena.len = g.arena.len ∧
      d.shared.heap.unit ((addr - g.arena.base) / 8) = g.unit ((addr - g.arena.base) / 8) := by
  obtain ⟨g, p, hf, rfl⟩ := hs.around hc
  obtain ⟨loan, hl, n, hn, rfl⟩ := Client.holds_iff.mp hh
  have hin := hf.contains (List.mem_append_left _ hl) hn
  refine ⟨g, hf.heap, hin, ?_⟩
  cases hholder : holder with
  | none =>
    obtain rfl := Option.some.inj ((hm.idle hholder).symm.trans hf.heap)
    exact ⟨rfl, rfl, rfl⟩
  | some i =>
    obtain ⟨g', o, k, x, y, f, S, hb⟩ := hm.busy i hholder
    obtain rfl := Option.some.inj (hb.heap.symm.trans hf.heap)
    have hij : j ≠ i := fun h => hj (h ▸ hholder)
    exact ⟨hb.underway.base, hb.underway.len,
      hb.underway.same _ (hb.clear loan (mem_others hc hij hl) n hn)⟩

theorem byteAt (hm : Mirrors s cs d D holder) (hs : Sound s D.shared cs) (hj : holder ≠ some j)
    (hc : cs[j]? = some c) (hh : c.holds addr = true) :
    d.shared.heap.arena.byteAt addr = D.shared.byteAt addr := by
  obtain ⟨g, hg, hin, hb, hl, hu⟩ := hm.agrees hs hj hc hh
  simp only [KernelMemory.byteAt, hg, hin, if_true]
  exact byteAt_congr hb hl hu

/-- A byte is written in both heaps. -/
theorem setByte (hm : Mirrors s cs d D holder) (hs : Sound s D.shared cs) (hj : holder ≠ some j)
    (hc : cs[j]? = some c) (hh : c.holds addr = true) (b : UInt8) :
    Mirrors s cs ⟨⟨{ d.shared.heap with arena := d.shared.heap.arena.setByte addr b },
      d.shared.lock⟩, d.programs⟩ ⟨D.shared.setByte addr b, D.programs⟩ holder := by
  obtain ⟨g, hg, hin, hb, hl, hu⟩ := hm.agrees hs hj hc hh
  have hin' := (contains_congr hb hl addr).trans hin
  have hD : (D.shared.setByte addr b).heap = some { g with arena := g.arena.setByte addr b } := by
    obtain ⟨⟨ram, checks, heap⟩, programs⟩ := D
    obtain rfl : heap = some g := hg
    simp only [KernelMemory.setByte, hin, if_true]
  refine ⟨hm.programs, hm.lock, fun hi => ?_, fun i hi => ?_⟩
  · obtain rfl := Option.some.inj ((hm.idle hi).symm.trans hg)
    exact hD
  · obtain ⟨g', o, k, x, y, f, S, hbusy⟩ := hm.busy i hi
    obtain rfl := Option.some.inj (hbusy.heap.symm.trans hg)
    have hij : j ≠ i := fun h => hj (h ▸ hi)
    obtain ⟨loan, hloan, n, hn, rfl⟩ := Client.holds_iff.mp hh
    have hout := hbusy.clear loan (mem_others hc hij hloan) n hn
    have hbase : s.base = g'.arena.base := by
      obtain ⟨g, p, hf, rfl⟩ := hs.around hc
      exact congrArg (·.arena.base) (Option.some.inj (hf.heap.symm.trans hg))
    rw [hbase] at hout
    have hlt : (loan.addr + n - g'.arena.base) / 8 < g'.arena.len := by
      have := Memory.contains_iff.mp hin
      omega
    refine ⟨_, o, k, x, y, f, S, hD, hbusy.client, hbusy.critical, hbusy.program, hbusy.answer, ?_,
      hbusy.clear⟩
    rw [setByte_eq hin, setByte_eq hin', hb, hu]
    exact hbusy.underway.setUnit hout hlt _

/-! ### The lock -/

/-- A core that finds the lock free starts its call. -/
theorem take {x : Action (Reply o)} (hm : Mirrors s cs d D none) (hs : Sound s D.shared cs)
    (hp : D.programs[i]? = some (.op (M := machine) o k)) (hc : cs[i]? = some c)
    (hpermit : c.Permits s.base o) (hx : critical? s o = some x)
    {f : Except Failure (Reply o) → Shared.Code α} (hf : ∀ r, f (.ok r) = expand s (k r)) :
    Mirrors s cs ⟨⟨d.shared.heap, ⟨true⟩⟩, d.programs.set i (rest x f)⟩ D (some i) := by
  obtain ⟨g, p, hfollows, hset⟩ := hs.around hc
  obtain ⟨S, hwithin, hclear⟩ := exists_within hfollows hset hpermit hx
  obtain ⟨hlt, -⟩ := List.getElem?_eq_some_iff.mp (hm.program (Option.some_ne_none i).symm hp)
  refine ⟨fun j hj => ?_, rfl, fun h => absurd h (Option.some_ne_none i), fun j hj => ?_⟩
  · have hij : i ≠ j := fun h => hj (h ▸ rfl)
    exact (List.getElem?_set_ne hij).trans (hm.programs j (Option.some_ne_none j).symm)
  · obtain rfl := Option.some.inj hj
    have hg := Option.some.inj ((hm.idle rfl).symm.trans hfollows.heap)
    refine ⟨g, o, k, x, x, f, S, hfollows.heap, hp, hx, List.getElem?_set_self hlt, hf, ?_, hclear⟩
    change Underway S x x g d.shared.heap
    rw [hg]
    exact .start hwithin

/-- A core that holds the lock makes the next access of its call. -/
theorem access {t : Shared} {x y : Action (Reply o)} {S : Nat → Prop} {g : Heap}
    {f : Except Failure (Reply o) → Shared.Code α} (hm : Mirrors s cs d D (some i))
    (hb : Busy s cs d D i g o k x y f S) (ht : t = ⟨(y.step d.shared.heap).2, d.shared.lock⟩) :
    Mirrors s cs ⟨t, d.programs.set i (rest (y.step d.shared.heap).1 f)⟩ D (some i) := by
  subst ht
  obtain ⟨hlt, -⟩ := List.getElem?_eq_some_iff.mp hb.program
  refine ⟨fun j hj => ?_, hm.lock, fun h => absurd h (Option.some_ne_none i), fun j hj => ?_⟩
  · have hij : i ≠ j := fun h => hj (h ▸ rfl)
    exact (List.getElem?_set_ne hij).trans (hm.programs j hj)
  · obtain rfl := Option.some.inj hj
    exact ⟨g, o, k, x, _, f, S, hb.heap, hb.client, hb.critical, List.getElem?_set_self hlt,
      hb.answer, hb.underway.step, hb.clear⟩

/-- A core that releases the lock has come to what the whole call comes to. -/
theorem release (hm : Mirrors s cs d D (some i)) (cs' : List Client)
    (hp : D.programs[i]? = some (.op (M := machine) o k)) {p : Shared.Code α}
    (hprogram : d.programs[i]? = some p) {m : KernelMemory} (hheap : m.heap = some d.shared.heap) :
    Mirrors s cs' ⟨⟨d.shared.heap, ⟨false⟩⟩, d.programs.set i (expand s (k r))⟩
      ⟨m, D.programs.set i (k r)⟩ none := by
  obtain ⟨hlt, -⟩ := List.getElem?_eq_some_iff.mp hp
  obtain ⟨hlt', -⟩ := List.getElem?_eq_some_iff.mp hprogram
  refine ⟨fun j _ => ?_, rfl, fun _ => hheap, fun j hj => absurd hj.symm (Option.some_ne_none j)⟩
  by_cases hij : i = j
  · subst hij
    simp only [List.getElem?_set_self hlt, List.getElem?_set_self hlt', Option.map_some]
  · simp only [List.getElem?_set_ne hij]
    exact hm.programs j fun h => hij (Option.some.inj h)

end Mirrors

/-! ## One step after another -/

/-- The clients after what has happened. -/
def clientsAfter (s : Shared.Setting) (start : List Client) (H : List (Attempt machine)) :
    List Client :=
  (protocol s.base).phases start H

theorem length_clientsAfter (start : List Client) (H : List (Attempt machine)) :
    (clientsAfter s start H).length = start.length := Protocol.length_phases

/-- A history of the cores, and one of the clients that makes each call at once. -/
structure Standing (s : Shared.Setting) (C : Crew machine Fatal α) (start : List Client)
    (h : List (Attempt Shared.machine)) (d : Crew Shared.machine Fatal α)
    (H : List (Attempt machine)) (D : Crew machine Fatal α) (holder : Option Nat) : Prop where
  runs : C.Runs H D
  answered : ∀ a ∈ H, a.reply.isSome = true
  order : Shared.takers h = callers s H ++ holder.toList
  accesses : Shared.accesses h = accesses H
  mirrors : Mirrors s (clientsAfter s start H) d D holder

/-- Whatever the order of the calls, the clients keep to what is their own, and end as `Q` says. -/
def Watch (s : Shared.Setting) (Q : α → Client → Prop) (C : Crew machine Fatal α)
    (start : List Client) : Prop :=
  ∀ H D, C.Runs H D → (protocol s.base).Watched (Sound s) Q start H D

variable {C : Crew machine Fatal α} {start : List Client} {h : List (Attempt Shared.machine)}
  {H : List (Attempt machine)} {Q : α → Client → Prop}

theorem callers_append (H H' : List (Attempt machine)) :
    callers s (H ++ H') = callers s H ++ callers s H' := List.filterMap_append

theorem accesses_append (H H' : List (Attempt machine)) :
    accesses (H ++ H') = accesses H ++ accesses H' := List.filterMap_append

theorem callers_critical {x : Action (Reply o)} (hx : critical? s o = some x) (i : Nat)
    (r : Reply o) : callers s [⟨i, o, some r⟩] = [i] := by
  simp only [callers, List.filterMap_cons, hx]
  rfl

theorem accesses_critical {x : Action (Reply o)} (hx : critical? s o = some x) (i : Nat)
    (r : Reply o) : accesses [⟨i, o, some r⟩] = [] := by
  cases o with
  | allocate size => rfl
  | free addr => rfl
  | readByte addr => cases hx
  | writeByte addr b => cases hx

theorem callers_silent (hs : Silent s o r) (i : Nat) : callers s [⟨i, o, some r⟩] = [] := by
  simp only [callers, List.filterMap_cons, hs.critical]
  rfl

theorem accesses_silent (hs : Silent s o r) (i : Nat) : accesses [⟨i, o, some r⟩] = [] := by
  cases o with
  | allocate size => rfl
  | free addr => rfl
  | readByte addr => cases hs.command
  | writeByte addr b => cases hs.command

theorem clientsAfter_append (hc : (clientsAfter s start H)[i]? = some c) :
    clientsAfter s start (H ++ [⟨i, o, some r⟩]) =
      (clientsAfter s start H).set i (c.next o r) :=
  Protocol.phases_answered (P := protocol s.base) r hc

theorem Watch.client (hw : Watch s Q C start) (hr : C.Runs H D)
    (hp : D.programs[i]? = some (.op (M := machine) o k)) :
    ∃ c, (clientsAfter s start H)[i]? = some c ∧ c.Permits s.base o := by
  obtain ⟨c, hc, hf⟩ := (hw H D hr).exists_phase hp
  exact ⟨c, hc, hf.1⟩

/-- What comes next, if anything does, is seen by the core. -/
def Settled (s : Shared.Setting) (q : Code α) : Prop :=
  ∀ o k, q = .op (M := machine) o k → ∀ r, ¬Silent s o r

theorem settled_done (a : α) : Settled s (.done a : Code α) := fun _ _ h => by cases h

theorem settled_stop (e : Fatal) : Settled s (.stop e : Code α) := fun _ _ h => by cases h

/-- A client that is settled is done when its core is. -/
theorem Settled.eq_done {a : α} (hq : Settled s q) (he : expand s q = .done a) : q = .done a := by
  cases q with
  | done a' => exact congrArg _ (Program.done.inj he)
  | stop e => cases he
  | op o k =>
    exfalso
    rcases silent_or s o with ⟨r, hr⟩ | ⟨x, hx⟩ | ⟨addr, rfl⟩ | ⟨addr, b, rfl⟩
    · exact hq o k rfl r hr
    · obtain ⟨f, hf, -⟩ := expand_eq hx k
      cases hf.symm.trans he
    · cases he
    · cases he

namespace Standing

/-- Both histories go on. -/
theorem extend {h' as : List (Attempt Shared.machine)} {H' bs : List (Attempt machine)}
    {d' : Crew Shared.machine Fatal α} {D' : Crew machine Fatal α} {holder' : Option Nat}
    (hst : Standing s C start h d H D holder) (hh : h' = h ++ as) (hH : H' = H ++ bs)
    (hr : C.Runs H' D') (hanswered : ∀ a ∈ bs, a.reply.isSome = true)
    (horder : holder.toList ++ Shared.takers as = callers s bs ++ holder'.toList)
    (haccesses : Shared.accesses as = Serial.accesses bs)
    (hm : Mirrors s (clientsAfter s start H') d' D' holder') :
    Standing s C start h' d' H' D' holder' := by
  subst hh hH
  refine ⟨hr, List.forall_mem_append.mpr ⟨hst.answered, hanswered⟩, ?_, ?_, hm⟩
  · rw [Shared.takers_append, callers_append, hst.order, List.append_assoc, horder,
      List.append_assoc]
  · rw [Shared.accesses_append, accesses_append, hst.accesses, haccesses]

/-- Up to the next operation that the core sees, the client goes ahead. -/
theorem flush (hw : Watch s Q C start) (hst : Standing s C start h d H D holder)
    (hi : holder ≠ some i) (hp : D.programs[i]? = some q) :
    ∃ H' D' q', Standing s C start h d H' D' holder ∧ D'.programs[i]? = some q' ∧ Settled s q' ∧
      ∀ j ≠ i, D'.programs[j]? = D.programs[j]? := by
  induction q generalizing H D with
  | done a => exact ⟨H, D, _, hst, hp, settled_done a, fun _ _ => rfl⟩
  | stop e => exact ⟨H, D, _, hst, hp, settled_stop e, fun _ _ => rfl⟩
  | op o k ih =>
    by_cases hs : ∃ r, Silent s o r
    · obtain ⟨r, hs⟩ := hs
      obtain ⟨c, hc, -⟩ := hw.client hst.runs hp
      obtain ⟨hlt, -⟩ := List.getElem?_eq_some_iff.mp hp
      have hnext : Standing s C start h d (H ++ [⟨i, o, some r⟩])
          ⟨D.shared, D.programs.set i (k r)⟩ holder := by
        refine hst.extend (List.append_nil h).symm rfl
          (hst.runs.answered hp (hs.perform D.shared)) (List.forall_mem_singleton.mpr rfl) ?_
          (accesses_silent hs i).symm
          ((hst.mirrors.silent hi hp hc hs).congr (clientsAfter_append hc).symm)
        rw [callers_silent hs]
        exact List.append_nil _
      obtain ⟨H', D', q', hst', hp', hq', hsame⟩ := ih r hnext (List.getElem?_set_self hlt)
      exact ⟨H', D', q', hst', hp', hq',
        fun j hj => (hsame j hj).trans (List.getElem?_set_ne (Ne.symm hj))⟩
    · refine ⟨H, D, _, hst, hp, fun o' k' h r hr => ?_, fun _ _ => rfl⟩
      cases h
      exact hs ⟨r, hr⟩

/-- All clients can go ahead in this way. -/
theorem flush_all (hw : Watch s Q C start) (hst : Standing s C start h d H D holder) (n : Nat) :
    ∃ H' D', Standing s C start h d H' D' holder ∧
      ∀ i < n, holder ≠ some i → ∀ q, D'.programs[i]? = some q → Settled s q := by
  induction n with
  | zero => exact ⟨H, D, hst, fun i hi => absurd hi (Nat.not_lt_zero i)⟩
  | succ n ih =>
    obtain ⟨H', D', hst', hsettled⟩ := ih
    by_cases hn : ∃ q, holder ≠ some n ∧ D'.programs[n]? = some q
    · obtain ⟨q, hholder, hp⟩ := hn
      obtain ⟨H'', D'', q', hst'', hp'', hq', hsame⟩ := hst'.flush hw hholder hp
      refine ⟨H'', D'', hst'', fun i hi hne r hr => ?_⟩
      rcases Nat.lt_succ_iff_lt_or_eq.mp hi with hi | rfl
      · exact hsettled i hi hne r ((hsame i (Nat.ne_of_lt hi)).symm.trans hr)
      · exact Option.some.inj (hp''.symm.trans hr) ▸ hq'
    · refine ⟨H', D', hst', fun i hi hne r hr => ?_⟩
      rcases Nat.lt_succ_iff_lt_or_eq.mp hi with hi | rfl
      · exact hsettled i hi hne r hr
      · exact absurd ⟨r, hne, hr⟩ hn

/-- The core that has the lock makes an access, or gives the lock back with its call done. -/
theorem step_holder (hw : Watch s Q C start) (hst : Standing s C start h d H D (some i)) :
    ∃ H' D' holder', Standing s C start (h ++ d.attempt i) (d.step i) H' D' holder' := by
  obtain ⟨g, o, k, x, y, f, S, hb⟩ := hst.mirrors.busy i rfl
  rcases rest_cases y f d.shared with ⟨r, hrest, hrun⟩ | ⟨o', k', r, hrest, hperform, hnext, hquiet⟩
  · obtain ⟨c, hc, hpermit⟩ := hw.client hst.runs hb.client
    have hs : Sound s D.shared (clientsAfter s start H) := (hw H D hst.runs).invariant
    obtain ⟨g', p, hf, hset⟩ := hs.around hc
    obtain rfl := Option.some.inj (hb.heap.symm.trans hf.heap)
    have hcall := perform_critical hb.heap hset hb.critical
    rw [← hb.underway.ends, hrun] at hcall
    -- a permitted call does not fail
    have hsome := hs.isSome_perform hc hpermit
    rw [hcall] at hsome
    cases r with
    | error e => cases hsome
    | ok r =>
      have hp := hb.program
      rw [hrest] at hp
      obtain ⟨ha, hd⟩ := Crew.step_answered (r := ()) hp rfl
      rw [ha, hd]
      have hm := hst.mirrors.release (clientsAfter s start (H ++ [⟨i, o, some r⟩]))
        (r := r) hb.client hb.program (m := { D.shared with heap := some d.shared.heap }) rfl
      rw [← hb.answer] at hm
      refine ⟨_, _, none, hst.extend rfl rfl (hst.runs.answered hb.client hcall)
        (List.forall_mem_singleton.mpr rfl) ?_ (accesses_critical hb.critical i r).symm hm⟩
      rw [callers_critical hb.critical]
      rfl
  · have hp := hb.program
    rw [hrest] at hp
    obtain ⟨ha, hd⟩ := Crew.step_answered hp hperform
    rw [ha, hd, hnext]
    refine ⟨H, D, some i, hst.extend rfl (List.append_nil H).symm hst.runs
      (List.forall_mem_nil _) ?_ (hquiet i).2 (hst.mirrors.access hb rfl)⟩
    rw [(hquiet i).1]
    rfl

/-- A core without the lock takes it, waits for it, or goes to a byte of its own. -/
theorem step_other (hw : Watch s Q C start) (hst : Standing s C start h d H D holder)
    (hi : holder ≠ some i) (hp : D.programs[i]? = some (.op (M := machine) o k))
    (hns : Settled s (.op (M := machine) o k : Code α)) :
    ∃ H' D' holder', Standing s C start (h ++ d.attempt i) (d.step i) H' D' holder' := by
  obtain ⟨c, hc, hpermit⟩ := hw.client hst.runs hp
  have hs : Sound s D.shared (clientsAfter s start H) := (hw H D hst.runs).invariant
  have hm := hst.mirrors
  have hprogram := hm.program hi hp
  rcases silent_or s o with ⟨r, hr⟩ | ⟨x, hx⟩ | ⟨addr, rfl⟩ | ⟨addr, b, rfl⟩
  · exact absurd hr (hns o k rfl r)
  · obtain ⟨f, hf, hok⟩ := expand_eq hx k
    rw [hf] at hprogram
    have hprogram : d.programs[i]? = some (.op (M := Shared.machine) .take fun _ => rest x f) :=
      hprogram
    cases holder with
    | none =>
      obtain ⟨ha, hd⟩ := Crew.step_answered hprogram (Shared.perform_take_free hm.lock)
      rw [ha, hd]
      exact ⟨H, D, some i, hst.extend rfl (List.append_nil H).symm hst.runs
        (List.forall_mem_nil _) rfl rfl (hm.take hs hp hc hpermit hx hok)⟩
    | some j =>
      obtain ⟨ha, hd⟩ := Crew.step_waiting hprogram (Shared.perform_take_held hm.lock)
      rw [ha, hd]
      exact ⟨H, D, some j, hst.extend rfl (List.append_nil H).symm hst.runs
        (List.forall_mem_nil _) rfl rfl hm⟩
  · have hprogram : d.programs[i]? = some (.op (M := Shared.machine) (.readByte addr)
        fun b => expand s (k b)) := hprogram
    obtain ⟨ha, hd⟩ := Crew.step_answered hprogram rfl
    rw [ha, hd, hm.byteAt hs hi hc hpermit]
    have hmoved := hm.move hi hp (k (D.shared.byteAt addr)) fun _ =>
      others_set hc (c.next (.readByte addr) (D.shared.byteAt addr)) fun _ hl => hl
    exact ⟨_, _, holder, hst.extend rfl rfl (hst.runs.answered hp rfl)
      (List.forall_mem_singleton.mpr rfl) (List.append_nil _) rfl
      (hmoved.congr (clientsAfter_append hc).symm)⟩
  · have hprogram : d.programs[i]? = some (.op (M := Shared.machine) (.writeByte addr b)
        fun _ => expand s (k ())) := hprogram
    obtain ⟨ha, hd⟩ := Crew.step_answered hprogram rfl
    rw [ha, hd]
    have hmoved := (hm.setByte hs hi hc hpermit b).move hi hp (k ()) fun _ =>
      others_set hc (c.next (.writeByte addr b) ()) fun _ hl => hl
    exact ⟨_, _, holder, hst.extend rfl rfl (hst.runs.answered hp rfl)
      (List.forall_mem_singleton.mpr rfl) (List.append_nil _) rfl
      (hmoved.congr (clientsAfter_append hc).symm)⟩

/-- One step of a core is no step of the clients, or one, or several that are silent and one. -/
theorem step (hw : Watch s Q C start) (hst : Standing s C start h d H D holder) (i : Nat) :
    ∃ H' D' holder', Standing s C start (h ++ d.attempt i) (d.step i) H' D' holder' := by
  by_cases hi : holder = some i
  · subst hi
    exact hst.step_holder hw
  cases hp : D.programs[i]? with
  | none =>
    have hnone : d.programs[i]? = none := by rw [hst.mirrors.programs i hi, hp]; rfl
    obtain ⟨ha, hd⟩ := Crew.step_idle (d := d) (i := i) fun o k h => by simp [hnone] at h
    rw [ha, hd, List.append_nil]
    exact ⟨H, D, holder, hst⟩
  | some q =>
    obtain ⟨H', D', q', hst', hp', hns, -⟩ := hst.flush hw hi hp
    cases q' with
    | done a =>
      have hdone := hst'.mirrors.program hi hp'
      obtain ⟨ha, hd⟩ := Crew.step_idle (d := d) (i := i) fun o k h => by
        simp [hdone, expand] at h
      rw [ha, hd, List.append_nil]
      exact ⟨H', D', holder, hst'⟩
    | stop e =>
      have hstop := hst'.mirrors.program hi hp'
      obtain ⟨ha, hd⟩ := Crew.step_idle (d := d) (i := i) fun o k h => by
        simp [hstop, expand] at h
      rw [ha, hd, List.append_nil]
      exact ⟨H', D', holder, hst'⟩
    | op o k => exact hst'.step_other hw hi hp' hns

/-- Whatever the history of the cores, the clients have one that comes to the same. -/
theorem of_runs {c : Crew Shared.machine Fatal α} (hw : Watch s Q C start)
    (hst : Standing s C start [] c [] C none) (hr : c.Runs h d) :
    ∃ H D holder, Standing s C start h d H D holder ∧
      ∀ i, holder ≠ some i → ∀ q, D.programs[i]? = some q → Settled s q := by
  have hall : ∃ H D holder, Standing s C start h d H D holder := by
    induction hr with
    | start => exact ⟨[], C, none, hst⟩
    | step i _ ih =>
      obtain ⟨H, D, holder, hst⟩ := ih
      exact hst.step hw i
  obtain ⟨H, D, holder, hst⟩ := hall
  obtain ⟨H', D', hst', hsettled⟩ := hst.flush_all hw start.length
  refine ⟨H', D', holder, hst', fun i hne q hq => hsettled i ?_ hne q hq⟩
  obtain ⟨hlt, -⟩ := List.getElem?_eq_some_iff.mp hq
  rwa [(hw H' D' hst'.runs).length] at hlt

end Standing

end Serial

end BareKernel.Heap
