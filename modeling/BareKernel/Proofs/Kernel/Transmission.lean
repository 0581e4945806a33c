import Mathlib.Data.List.ModifyLast
import BareKernel.Proofs.Kernel.Speaking
import BareKernel.Proofs.Sync.Schedule

/-! What goes over the wire when several cores use the console. The bytes come out call by call, in
the order in which the calls got the console's lock, and no byte is written to the UART but right
after a look at it that showed room. -/

namespace BareKernel.Kernel

open Sync Board Board.Uart

variable {k k' : Kernel} {o : Op} {i : Nat} {h : List (Attempt machine)}

/-! ## What is heard -/

/-- The bytes sent, each with the core that sent it. -/
def spoken (h : List (Attempt machine)) : List (Nat × UInt8) :=
  h.filterMap fun
    | ⟨i, .transmit b, _⟩ => some (i, b)
    | _ => none

/-- A call starts when a core gets the lock; a byte belongs to the call that started last. -/
def hear (calls : List (Nat × List UInt8)) : Attempt machine → List (Nat × List UInt8)
  | ⟨i, .take .console, some _⟩ => calls ++ [(i, [])]
  | ⟨_, .transmit b, _⟩ => calls.modifyLast fun c => (c.1, c.2 ++ [b])
  | _ => calls

/-- The calls of the console so far, in the order in which they got it: the core and its bytes. -/
def heard (h : List (Attempt machine)) : List (Nat × List UInt8) := h.foldl hear []

/-- The bytes of core `i`, call by call. -/
def callsOf (i : Nat) (calls : List (Nat × List UInt8)) : List (List UInt8) :=
  (calls.filter (·.1 = i)).map (·.2)

def tagged (c : Nat × List UInt8) : List (Nat × UInt8) := c.2.map fun b => (c.1, b)

theorem map_snd_tagged (c : Nat × List UInt8) : (tagged c).map Prod.snd = c.2 := by
  rw [tagged, List.map_map]
  exact List.map_id _

theorem callsOf_append (i : Nat) (cs cs' : List (Nat × List UInt8)) :
    callsOf i (cs ++ cs') = callsOf i cs ++ callsOf i cs' := by
  simp only [callsOf, List.filter_append, List.map_append]

theorem callsOf_self (i : Nat) (sent : List UInt8) : callsOf i [(i, sent)] = [sent] := by
  simp [callsOf]

theorem callsOf_ne {i j : Nat} (hij : i ≠ j) (sent : List UInt8) :
    callsOf j [(i, sent)] = [] := by
  simp [callsOf, hij]

theorem heard_snoc (a : Attempt machine) : heard (h ++ [a]) = hear (heard h) a := by
  rw [heard, List.foldl_append]
  rfl

theorem hear_send {calls : List (Nat × List UInt8)} {sent : List UInt8} (b : UInt8)
    (r : Option Unit) :
    hear (calls ++ [(i, sent)]) ⟨i, .transmit b, r⟩ = calls ++ [(i, sent ++ [b])] :=
  List.modifyLast_concat _ _ _

theorem hear_spares (ho : SparesConsole o) (calls : List (Nat × List UInt8))
    (r : Option (Reply o)) : hear calls ⟨i, o, r⟩ = calls := by
  cases o with
  | take l => cases l <;> first | rfl | exact (ho rfl).elim
  | transmit b => exact ho.elim
  | _ => rfl

theorem spoken_append (h h' : List (Attempt machine)) :
    spoken (h ++ h') = spoken h ++ spoken h' := List.filterMap_append

theorem spoken_spares (ho : SparesConsole o) (r : Option (Reply o)) :
    spoken [⟨i, o, r⟩] = [] := by
  cases o with
  | transmit b => exact ho.elim
  | _ => rfl

/-! ## Device accesses -/

/-- A look at the flags that shows the transmitter with room. A poll without a script reads 0. -/
def ShowsRoom : Access → Prop
  | .read addr w => addr = flagRegister ∧ w &&& transmitFull = 0
  | .idle addr => addr = flagRegister
  | _ => False

/-- Every byte comes right after a look that showed room. -/
def Paced (accesses : List Access) : Prop :=
  ∀ before b after, accesses = before ++ .transmit b :: after →
    ∃ a, before.getLast? = some a ∧ ShowsRoom a

def sentBytes (accesses : List Access) : List UInt8 :=
  accesses.filterMap fun
    | .transmit b => some b
    | _ => none

theorem sentBytes_append (as bs : List Access) :
    sentBytes (as ++ bs) = sentBytes as ++ sentBytes bs := List.filterMap_append

theorem paced_nil : Paced [] := by
  intro before b after he
  simp at he

theorem Paced.snoc {accesses : List Access} (hp : Paced accesses) {a : Access}
    (ha : ∀ b, a = .transmit b → ∃ a, accesses.getLast? = some a ∧ ShowsRoom a) :
    Paced (accesses ++ [a]) := by
  intro before b after he
  rcases List.eq_nil_or_concat after with rfl | ⟨after, z, rfl⟩
  · obtain ⟨rfl, hlast⟩ := List.append_inj' he rfl
    exact ha b (List.singleton_inj.mp hlast)
  · rw [List.concat_eq_append, ← List.cons_append, ← List.append_assoc] at he
    exact hp before b after (List.append_inj' he rfl).1

/-- A look at the flags is one access, which shows room exactly if there is a reply. -/
theorem exists_access_of_poll (k : Kernel) : ∃ a,
    (perform (.pollUart transmitFull) k).2.bus.trace = k.bus.trace.push a ∧
      (∀ b, a ≠ .transmit b) ∧
      ((perform (.pollUart transmitFull) k).1.isSome = true → ShowsRoom a) := by
  rcases hf : k.bus.uartFlags with _ | ⟨w, rest⟩
  · refine ⟨.idle flagRegister, ?_, ?_, fun _ => rfl⟩
    · simp only [perform, Bus.pollUart, hf]
      rfl
    · intro b h
      cases h
  · refine ⟨.read flagRegister w, ?_, ?_, fun hsome => ⟨rfl, ?_⟩⟩
    · simp only [perform, Bus.pollUart, hf]
      rfl
    · intro b h
      cases h
    · by_contra hw
      simp [perform, Bus.pollUart, hf, hw] at hsome

/-! ## The report -/

namespace Speaker

/-- The bytes of a core's calls, the one that it is in included. -/
def calls (φ : Speaker) : List (List UInt8) := φ.said ++ φ.current?.toList

end Speaker

/-- The bytes in the order of the accesses, of the tries and of the calls are the same, and a
core's calls are what its phase says. -/
structure Report (accesses : List Access) (h : List (Attempt machine)) (φs : List Speaker) :
    Prop where
  paced : Paced accesses
  room : ∀ (i : Nat) (φ : Speaker) (sent : List UInt8), φs[i]? = some φ → φ.turn = .clear sent →
    ∃ a, accesses.getLast? = some a ∧ ShowsRoom a
  bytes : sentBytes accesses = (spoken h).map Prod.snd
  order : spoken h = (heard h).flatMap tagged
  own : ∀ i : Nat, callsOf i (heard h) = (φs[i]?.map Speaker.calls).getD []
  last : ∀ (i : Nat) (φ : Speaker) (sent : List UInt8), φs[i]? = some φ →
    φ.current? = some sent → ∃ calls, heard h = calls ++ [(i, sent)]

namespace Report

variable {accesses accesses' : List Access} {h' : List (Attempt machine)} {φs : List Speaker}
  {φ ψ : Speaker}

/-- Core `i` goes on while the others are in no call. -/
theorem move (hr : Report accesses h φs) (hi : φs[i]? = some φ)
    (hothers : ∀ (j : Nat) (χ : Speaker), i ≠ j → φs[j]? = some χ → χ.turn = .outside)
    (hpaced : Paced accesses')
    (hroom : ∀ sent, ψ.turn = .clear sent →
      ∃ a, accesses'.getLast? = some a ∧ ShowsRoom a)
    (hbytes : sentBytes accesses' = (spoken h').map Prod.snd)
    (horder : spoken h' = (heard h').flatMap tagged)
    (hself : callsOf i (heard h') = ψ.calls)
    (hown : ∀ j, i ≠ j → callsOf j (heard h') = callsOf j (heard h))
    (hlast : ∀ sent, ψ.current? = some sent → ∃ calls, heard h' = calls ++ [(i, sent)]) :
    Report accesses' h' (φs.set i ψ) where
  paced := hpaced
  room := by
    intro j χ sent hj hclear
    rcases getElem?_set_cases hj with ⟨rfl, rfl⟩ | ⟨hij, hj⟩
    · exact hroom sent hclear
    · rw [hothers j χ hij hj] at hclear
      cases hclear
  bytes := hbytes
  order := horder
  own := by
    intro j
    by_cases hij : i = j
    · subst hij
      obtain ⟨hlt, -⟩ := List.getElem?_eq_some_iff.mp hi
      rw [List.getElem?_set_self hlt]
      exact hself
    · rw [List.getElem?_set_ne hij, hown j hij]
      exact hr.own j
  last := by
    intro j χ sent hj hcurrent
    rcases getElem?_set_cases hj with ⟨rfl, rfl⟩ | ⟨hij, hj⟩
    · exact hlast sent hcurrent
    · rw [Speaker.current?, hothers j χ hij hj] at hcurrent
      cases hcurrent

theorem calls_eq (hr : Report accesses h φs) (hi : φs[i]? = some φ) :
    callsOf i (heard h) = φ.calls := by
  rw [hr.own, hi]
  rfl

/-- A try that neither starts a call nor sends a byte. -/
theorem silent {a : Attempt machine} (hr : Report accesses h φs)
    (hheard : hear (heard h) a = heard h) (hspoken : spoken [a] = []) :
    Report accesses (h ++ [a]) φs := by
  have hheard : heard (h ++ [a]) = heard h := by rw [heard_snoc, hheard]
  have hspoken : spoken (h ++ [a]) = spoken h := by
    rw [spoken_append, hspoken, List.append_nil]
  constructor
  · exact hr.paced
  · exact hr.room
  · rw [hspoken]
    exact hr.bytes
  · rw [hspoken, hheard]
    exact hr.order
  · rw [hheard]
    exact hr.own
  · rw [hheard]
    exact hr.last

/-- A core gets the console's lock: a call starts. -/
theorem enter {said : List (List UInt8)} {r : Unit} (hr : Report accesses h φs)
    (hi : φs[i]? = some ⟨said, .outside⟩)
    (hout : ∀ (j : Nat) (χ : Speaker), i ≠ j → φs[j]? = some χ → χ.turn = .outside) :
    Report accesses (h ++ [⟨i, .take .console, some r⟩]) (φs.set i ⟨said, .inside []⟩) := by
  have hheard : heard (h ++ [⟨i, .take .console, some r⟩]) = heard h ++ [(i, [])] :=
    heard_snoc _
  have hspoken : spoken (h ++ [⟨i, .take .console, some r⟩]) = spoken h := by
    rw [spoken_append]
    exact List.append_nil _
  refine hr.move hi hout hr.paced nofun ?_ ?_ ?_ ?_ ?_
  · rw [hspoken]
    exact hr.bytes
  · rw [hspoken, hheard, List.flatMap_append, hr.order]
    exact (List.append_nil _).symm
  · rw [hheard, callsOf_append, hr.calls_eq hi, callsOf_self]
    exact congrArg (· ++ [[]]) (List.append_nil said)
  · intro j hij
    rw [hheard, callsOf_append, callsOf_ne hij, List.append_nil]
  · intro sent hsent
    obtain rfl := Option.some.inj hsent
    exact ⟨heard h, hheard⟩

/-- A look at the transmitter, which may or may not show room. -/
theorem look {a : Access} {r : Option Unit} (hr : Report accesses h φs) (hi : φs[i]? = some φ)
    (hout : ∀ (j : Nat) (χ : Speaker), i ≠ j → φs[j]? = some χ → χ.turn = .outside)
    (hcalls : ψ.calls = φ.calls) (hcurrent : ψ.current? = φ.current?)
    (hsend : ∀ b, a ≠ .transmit b) (hroom : ∀ sent, ψ.turn = .clear sent → ShowsRoom a) :
    Report (accesses ++ [a]) (h ++ [⟨i, .pollUart transmitFull, r⟩]) (φs.set i ψ) := by
  have hheard : heard (h ++ [⟨i, .pollUart transmitFull, r⟩]) = heard h := heard_snoc _
  have hspoken : spoken (h ++ [⟨i, .pollUart transmitFull, r⟩]) = spoken h := by
    rw [spoken_append]
    exact List.append_nil _
  have hbytes : sentBytes (accesses ++ [a]) = sentBytes accesses := by
    rw [sentBytes_append]
    cases a with
    | transmit b => exact (hsend b rfl).elim
    | _ => exact List.append_nil _
  refine hr.move hi hout ?_ ?_ ?_ ?_ ?_ ?_ ?_
  · exact hr.paced.snoc fun b hb => (hsend b hb).elim
  · exact fun sent hsent => ⟨a, List.getLast?_concat, hroom sent hsent⟩
  · rw [hbytes, hspoken]
    exact hr.bytes
  · rw [hspoken, hheard]
    exact hr.order
  · rw [hheard, hcalls]
    exact hr.calls_eq hi
  · intro j _
    rw [hheard]
  · intro sent hsent
    rw [hheard]
    exact hr.last i φ sent hi (hcurrent ▸ hsent)

/-- A byte goes to the call that started last, which is the core's own. -/
theorem send {said : List (List UInt8)} {sent : List UInt8} {b : UInt8} {r : Unit}
    (hr : Report accesses h φs) (hi : φs[i]? = some ⟨said, .clear sent⟩)
    (hout : ∀ (j : Nat) (χ : Speaker), i ≠ j → φs[j]? = some χ → χ.turn = .outside) :
    Report (accesses ++ [.transmit b]) (h ++ [⟨i, .transmit b, some r⟩])
      (φs.set i ⟨said, .inside (sent ++ [b])⟩) := by
  obtain ⟨calls, hcalls⟩ := hr.last i _ sent hi rfl
  have hheard : heard (h ++ [⟨i, .transmit b, some r⟩]) = calls ++ [(i, sent ++ [b])] := by
    rw [heard_snoc, hcalls]
    exact hear_send b (some r)
  have hspoken : spoken (h ++ [⟨i, .transmit b, some r⟩]) = spoken h ++ [(i, b)] :=
    spoken_append _ _
  have hbefore : callsOf i calls = said := by
    have hown := hr.calls_eq hi
    rw [hcalls, callsOf_append, callsOf_self] at hown
    exact List.append_cancel_right hown
  refine hr.move hi hout ?_ nofun ?_ ?_ ?_ ?_ ?_
  · exact hr.paced.snoc fun _ _ => hr.room i _ sent hi rfl
  · rw [sentBytes_append, hr.bytes, hspoken, List.map_append]
    rfl
  · rw [hspoken, hr.order, hheard, hcalls]
    simp [tagged]
  · rw [hheard, callsOf_append, callsOf_self, hbefore]
    rfl
  · intro j hij
    rw [hheard, hcalls, callsOf_append, callsOf_append, callsOf_ne hij, callsOf_ne hij]
  · intro sent' hsent
    obtain rfl := Option.some.inj hsent
    exact ⟨calls, hheard⟩

/-- A core gives the console's lock back: its call is over. -/
theorem leave {said : List (List UInt8)} {sent : List UInt8} {r : Unit}
    (hr : Report accesses h φs) (hi : φs[i]? = some ⟨said, .inside sent⟩)
    (hout : ∀ (j : Nat) (χ : Speaker), i ≠ j → φs[j]? = some χ → χ.turn = .outside) :
    Report accesses (h ++ [⟨i, .release .console, some r⟩])
      (φs.set i ⟨said ++ [sent], .outside⟩) := by
  have hheard : heard (h ++ [⟨i, .release .console, some r⟩]) = heard h := heard_snoc _
  have hspoken : spoken (h ++ [⟨i, .release .console, some r⟩]) = spoken h := by
    rw [spoken_append]
    exact List.append_nil _
  refine hr.move hi hout hr.paced nofun ?_ ?_ ?_ ?_ nofun
  · rw [hspoken]
    exact hr.bytes
  · rw [hspoken, hheard]
    exact hr.order
  · rw [hheard, hr.calls_eq hi]
    exact (List.append_nil _).symm
  · intro j _
    rw [hheard]

end Report

/-! ## All cores -/

section Crew

variable {accesses old : List Access} {holder : Option Nat} {φs : List Speaker} {φ ψ : Speaker}

/-- While a core is in a call, the others are in none. -/
theorem Attended.outside_of_ne (ha : Attended holder k φs) (hi : φs[i]? = some φ)
    (hin : φ.turn ≠ .outside) (j : Nat) (χ : Speaker) (hij : i ≠ j) (hj : φs[j]? = some χ) :
    χ.turn = .outside := by
  by_contra hout
  have hmine := (ha.inside i φ hi).mp hin
  rw [(ha.inside j χ hj).mp hout] at hmine
  exact hij (Option.some.inj hmine).symm

/-- While the lock is free, no core is in a call. -/
theorem Attended.outside_of_free (ha : Attended holder k φs)
    (hfree : k.locks.console.taken = false) (j : Nat) (χ : Speaker) (hj : φs[j]? = some χ) :
    χ.turn = .outside := by
  by_contra hout
  have hlock := ha.lock
  rw [(ha.inside j χ hj).mp hout, hfree] at hlock
  cases hlock

theorem report_answered {r : Reply o} (hr : Report accesses h φs) (ha : Attended holder k φs)
    (hi : φs[i]? = some φ) (hu : φ.Utters o ψ) (hs : perform o k = (some r, k'))
    (htrace : k.bus.trace.toList = old ++ accesses) :
    ∃ accesses', k'.bus.trace.toList = old ++ accesses' ∧
      Report accesses' (h ++ [⟨i, o, some r⟩]) (φs.set i ψ) := by
  cases hu with
  | spare _ ho =>
    obtain ⟨-, -, -, hbus⟩ := perform_spares ho k
    rw [hs] at hbus
    rw [Crew.set_of_getElem? hi, show k'.bus = k.bus from hbus]
    exact ⟨accesses, htrace, hr.silent (hear_spares ho _ _) (spoken_spares ho _)⟩
  | enter said =>
    obtain ⟨hfree, rfl⟩ := of_perform_take hs
    exact ⟨accesses, htrace, hr.enter hi fun j χ _ hj => ha.outside_of_free hfree j χ hj⟩
  | look said sent =>
    obtain ⟨a, hpush, hsend, hroom⟩ := exists_access_of_poll k
    rw [hs] at hpush hroom
    refine ⟨accesses ++ [a], ?_, hr.look hi (ha.outside_of_ne hi nofun) rfl rfl hsend
      fun _ _ => hroom rfl⟩
    rw [show k'.bus.trace = k.bus.trace.push a from hpush, Array.toList_push, htrace,
      List.append_assoc]
  | send said sent b =>
    obtain ⟨-, rfl⟩ := Prod.mk.inj hs
    refine ⟨accesses ++ [.transmit b], ?_, hr.send hi (ha.outside_of_ne hi nofun)⟩
    change (k.bus.trace.push _).toList = _
    rw [Array.toList_push, htrace, List.append_assoc]
  | leave said sent =>
    obtain ⟨-, rfl⟩ := Prod.mk.inj hs
    exact ⟨accesses, htrace, hr.leave hi (ha.outside_of_ne hi nofun)⟩

/-- To wait for the console's lock, or for anything else that is no device, adds nothing. -/
theorem report_waiting (hr : Report accesses h φs) (ha : Attended holder k φs)
    (hi : φs[i]? = some φ) (hu : φ.Utters o ψ) (hs : perform o k = (none, k'))
    (htrace : k.bus.trace.toList = old ++ accesses) :
    ∃ accesses', k'.bus.trace.toList = old ++ accesses' ∧
      Report accesses' (h ++ [⟨i, o, none⟩]) φs := by
  cases hu with
  | spare _ ho =>
    obtain ⟨-, -, -, hbus⟩ := perform_spares ho k
    rw [hs] at hbus
    rw [show k'.bus = k.bus from hbus]
    exact ⟨accesses, htrace, hr.silent (hear_spares ho _ _) (spoken_spares ho _)⟩
  | enter said =>
    obtain ⟨-, rfl⟩ := of_perform_take_none hs
    exact ⟨accesses, htrace, hr.silent rfl rfl⟩
  | look said sent =>
    obtain ⟨a, hpush, hsend, -⟩ := exists_access_of_poll k
    rw [hs] at hpush
    have hlook := hr.look (r := none) hi (ha.outside_of_ne hi nofun) rfl rfl hsend nofun
    rw [Crew.set_of_getElem? hi] at hlook
    refine ⟨accesses ++ [a], ?_, hlook⟩
    rw [show k'.bus.trace = k.bus.trace.push a from hpush, Array.toList_push, htrace,
      List.append_assoc]
  | send said sent b => cases (Prod.mk.inj hs).1
  | leave said sent => cases (Prod.mk.inj hs).1

variable {α : Type} {c d : Crew machine Panic α}

/-- However cores that use the console interleave, what they did to the devices since and what they
told each other are one report. -/
theorem exists_report (hgate : c.shared.gateOpen = true) (hready : c.shared.consoleReady = true)
    (hfree : c.shared.locks.console.taken = false) (hspeak : ∀ p ∈ c.programs, Speaks p)
    (hr : c.Runs h d) : ∃ accesses,
      d.shared.bus.trace.toList = c.shared.bus.trace.toList ++ accesses ∧
      Report accesses h
        (speaking.phases (List.replicate c.programs.length ({} : Speaker)) h) := by
  induction hr with
  | start =>
    have hout : ∀ (i : Nat) (φ : Speaker),
        (List.replicate c.programs.length ({} : Speaker))[i]? = some φ → φ = {} :=
      fun i φ hi => (List.mem_replicate.mp (List.mem_of_getElem? hi)).2
    rw [Protocol.phases_nil]
    refine ⟨[], (List.append_nil _).symm, paced_nil, ?_, rfl, rfl, ?_, ?_⟩
    · intro i φ sent hi hclear
      rw [hout i φ hi] at hclear
      cases hclear
    · intro i
      cases hi : (List.replicate c.programs.length ({} : Speaker))[i]? with
      | none => rfl
      | some φ =>
        rw [hout i φ hi]
        rfl
    · intro i φ sent hi hcurrent
      rw [hout i φ hi] at hcurrent
      cases hcurrent
  | @step h d i hr ih =>
    obtain ⟨accesses, htrace, hreport⟩ := ih
    have hw := watched_speaking hgate hready hfree hspeak hr
    obtain ⟨holder, ha⟩ := hw.invariant
    have hcase := d.stepped i
    generalize d.attempt i = a at hcase
    generalize d.step i = e at hcase
    cases hcase with
    | idle =>
      rw [List.append_nil]
      exact ⟨accesses, htrace, hreport⟩
    | answered hp hs =>
      obtain ⟨φ, hi, hperm, -⟩ := hw.exists_phase hp
      rw [Protocol.phases_answered _ hi]
      exact report_answered hreport ha hi (Speaker.utters_of_permits hperm) hs htrace
    | waiting hp hs =>
      obtain ⟨φ, hi, hperm, -⟩ := hw.exists_phase hp
      rw [Protocol.phases_unanswered]
      exact report_waiting hreport ha hi (Speaker.utters_of_permits hperm) hs htrace

end Crew

/-! ## Calls of the console -/

section Calls

variable {texts : List (List String)} {d : Crew machine Panic Unit}

/-- Cores that send texts, one call after another. -/
def callers (k : Kernel) (texts : List (List String)) : Crew machine Panic Unit :=
  ⟨k, texts.map print⟩

theorem speaks_callers : ∀ p ∈ (callers k texts).programs, Speaks p := by
  intro p hp
  obtain ⟨pieces, -, rfl⟩ := List.mem_map.mp hp
  exact .forM speaks_put pieces

/-- The calls of a core that is done are its texts. -/
theorem calls_of_done (hgate : k.gateOpen = true) (hready : k.consoleReady = true)
    (hfree : k.locks.console.taken = false) (hr : (callers k texts).Runs h d)
    (hdone : ∀ p ∈ d.programs, p = .done ()) (i : Nat) :
    ((speaking.phases (List.replicate (callers k texts).programs.length ({} : Speaker)) h)[i]?.map
      Speaker.calls).getD [] = (texts[i]?.getD []).map spelled := by
  have hw := watched_speaking hgate hready hfree speaks_callers hr
  rw [Protocol.getElem?_phases, List.getElem?_replicate]
  cases hi : texts[i]? with
  | none =>
    have hge : ¬i < (callers k texts).programs.length := by
      simpa [callers] using List.getElem?_eq_none_iff.mp hi
    rw [if_neg hge]
    rfl
  | some pieces =>
    have hp : (callers k texts).programs[i]? = some (print pieces) := by
      rw [callers, List.getElem?_map, hi]
      rfl
    obtain ⟨hlt, -⟩ := List.getElem?_eq_some_iff.mp hp
    obtain ⟨q, hq, hafter⟩ := hr.after hp
    obtain rfl := hdone q (List.mem_of_getElem? hq)
    have hsays : speaking.Follows (fun _ ψ => ψ = ⟨[] ++ pieces.map spelled, .outside⟩)
        ({} : Speaker) (print pieces) := says_print pieces
    have hend : speaking.trace ({} : Speaker) (answersOf h i) = ⟨pieces.map spelled, .outside⟩ :=
      hsays.after hafter (hw.heeds i _ (List.getElem?_replicate_of_lt hlt))
    rw [if_pos hlt, Option.map_some, hend]
    exact List.append_nil _

/-- With the gate open and the console set up, whatever texts however many cores send, however
they interleave and whatever the transmitter shows: every byte is written right after a look that
showed room, and once the calls have finished, what was written is the calls' texts, each whole
and with every newline as CR LF, in an order that is each core's own. -/
theorem calls_serialised (hgate : k.gateOpen = true) (hready : k.consoleReady = true)
    (hfree : k.locks.console.taken = false) (hr : (callers k texts).Runs h d) :
    ∃ accesses, d.shared.bus.trace.toList = k.bus.trace.toList ++ accesses ∧ Paced accesses ∧
      ((∀ p ∈ d.programs, p = .done ()) → ∃ calls : List (Nat × List UInt8),
        sentBytes accesses = calls.flatMap (·.2) ∧
        ∀ i : Nat, callsOf i calls =
          (texts[i]?.getD []).map fun s =>
            (bytesOf s).flatMap fun b => if b = 10 then [13, 10] else [b]) := by
  obtain ⟨accesses, htrace, hreport⟩ := exists_report hgate hready hfree speaks_callers hr
  refine ⟨accesses, htrace, hreport.paced, fun hdone => ⟨heard h, ?_, fun i => ?_⟩⟩
  · rw [hreport.bytes, hreport.order, List.map_flatMap]
    exact congrArg (List.flatMap · (heard h)) (funext fun c => map_snd_tagged c)
  · simp only [← wire_eq_flatMap]
    rw [hreport.own]
    exact calls_of_done hgate hready hfree hr hdone i

/-- The console ready for several cores, with a transmitter that is full now and then. -/
def busyConsole : Kernel where
  memory := ⟨.zeroed 8 0 (by decide) (by decide) (by decide), true, none⟩
  tables := .blank 0
  mailbox := ⟨0, 0, .blank⟩
  bus := { uartFlags := [0x20, 0x90, 0x20, 0x20, 0] }
  gateOpen := true
  consoleReady := true

/-- One core sends a text with a newline inside, another one two pieces, in turns. -/
def busyEnd : Crew machine Panic Unit :=
  (List.replicate 30 [0, 1]).flatten.foldl Crew.step (callers busyConsole [["a\nd"], ["b", "c"]])

theorem eq_done_of_result? {p : Code Unit} (hp : (p.result?.any Except.toBool) = true) :
    p = .done () := by
  cases p with
  | done a => rfl
  | stop e => cases hp
  | op o k => cases hp

theorem calls_serialised_busyEnd :
    busyEnd.programs.all (fun p => p.result?.any Except.toBool) = true ∧
      ∃ accesses, busyEnd.shared.bus.trace.toList = busyConsole.bus.trace.toList ++ accesses ∧
        Paced accesses ∧ ∃ calls : List (Nat × List UInt8),
          sentBytes accesses = calls.flatMap (·.2) ∧
          callsOf 0 calls = [[97, 13, 10, 100]] ∧ callsOf 1 calls = [[98], [99]] := by
  have hall : busyEnd.programs.all (fun p => p.result?.any Except.toBool) = true := by
    decide +kernel
  obtain ⟨h, hr⟩ : ∃ h, (callers busyConsole [["a\nd"], ["b", "c"]]).Runs h busyEnd :=
    Crew.exists_runs_foldl _ _
  obtain ⟨accesses, htrace, hpaced, hcalls⟩ := calls_serialised rfl rfl rfl hr
  obtain ⟨calls, hbytes, hown⟩ :=
    hcalls fun p hp => eq_done_of_result? (List.all_eq_true.mp hall p hp)
  exact ⟨hall, accesses, htrace, hpaced, calls, hbytes, (hown 0).trans (by decide +kernel),
    (hown 1).trans (by decide +kernel)⟩

end Calls

end BareKernel.Kernel
