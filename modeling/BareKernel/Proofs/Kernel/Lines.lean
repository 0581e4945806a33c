import Mathlib.Data.List.Chain
import BareKernel.Proofs.Kernel.Transmission

/-! The lines that several cores write. A core that greets writes each of its lines in several calls
of the console, and between two of them another core may get the console. So a line is whole just
when every call that leaves its line open is followed by a call of the same core. -/

namespace BareKernel.Kernel

open Sync Board Board.Uart

variable {k : Kernel} {h : List (Attempt machine)}

/-! ## Lines -/

/-- The output cut after each newline. -/
def linesOf : List (Nat × UInt8) → List (List (Nat × UInt8))
  | [] => []
  | x :: rest =>
    if x.2 = newline then [x] :: linesOf rest
    else
      match linesOf rest with
      | [] => [[x]]
      | line :: lines => (x :: line) :: lines

/-- All bytes come from one core. -/
def FromOne (line : List (Nat × UInt8)) : Prop := ∀ x ∈ line, ∀ y ∈ line, x.1 = y.1

instance : DecidablePred FromOne := fun line =>
  inferInstanceAs (Decidable (∀ x ∈ line, ∀ y ∈ line, x.1 = y.1))

/-- No line of one core is split by what another core writes. -/
def WholeLines (out : List (Nat × UInt8)) : Prop := ∀ line ∈ linesOf out, FromOne line

instance : DecidablePred WholeLines := fun out =>
  inferInstanceAs (Decidable (∀ line ∈ linesOf out, FromOne line))

theorem fromOne_singleton (x : Nat × UInt8) : FromOne [x] := by
  intro u hu v hv
  rw [List.mem_singleton.mp hu, List.mem_singleton.mp hv]

theorem fromOne_cons {x y : Nat × UInt8} {line : List (Nat × UInt8)} :
    FromOne (x :: y :: line) ↔ x.1 = y.1 ∧ FromOne (y :: line) := by
  constructor
  · intro hone
    refine ⟨hone x List.mem_cons_self y (List.mem_cons_of_mem _ List.mem_cons_self), ?_⟩
    exact fun u hu v hv => hone u (List.mem_cons_of_mem _ hu) v (List.mem_cons_of_mem _ hv)
  · rintro ⟨hxy, hone⟩
    have hy : ∀ u ∈ x :: y :: line, u.1 = y.1 := by
      intro u hu
      rcases List.mem_cons.mp hu with rfl | hu
      · exact hxy
      · exact hone u hu y List.mem_cons_self
    exact fun u hu v hv => (hy u hu).trans (hy v hv).symm

theorem exists_linesOf_cons (x : Nat × UInt8) (rest : List (Nat × UInt8)) :
    ∃ line lines, linesOf (x :: rest) = (x :: line) :: lines := by
  by_cases hx : x.2 = newline
  · exact ⟨[], linesOf rest, by rw [linesOf, if_pos hx]⟩
  · cases hrest : linesOf rest with
    | nil => exact ⟨[], [], by rw [linesOf, if_neg hx, hrest]⟩
    | cons line lines => exact ⟨line, lines, by rw [linesOf, if_neg hx, hrest]⟩

theorem wholeLines_cons {x y : Nat × UInt8} {rest : List (Nat × UInt8)} :
    WholeLines (x :: y :: rest) ↔ (x.2 ≠ newline → x.1 = y.1) ∧ WholeLines (y :: rest) := by
  obtain ⟨line, lines, hlines⟩ := exists_linesOf_cons y rest
  by_cases hx : x.2 = newline
  · have hcut : linesOf (x :: y :: rest) = [x] :: linesOf (y :: rest) := by
      rw [linesOf, if_pos hx]
    rw [WholeLines, hcut, List.forall_mem_cons]
    exact ⟨fun hw => ⟨fun hne => (hne hx).elim, hw.2⟩, fun hw => ⟨fromOne_singleton x, hw.2⟩⟩
  · have hjoin : linesOf (x :: y :: rest) = (x :: y :: line) :: lines := by
      rw [linesOf, if_neg hx, hlines]
    rw [WholeLines, WholeLines, hjoin, hlines, List.forall_mem_cons, List.forall_mem_cons,
      fromOne_cons, and_assoc]
    exact and_congr_left' ⟨fun hxy _ => hxy, fun hxy => hxy hx⟩

/-- Lines are whole when a byte that does not end its line is followed by one of the same core. -/
theorem wholeLines_iff_isChain (out : List (Nat × UInt8)) :
    WholeLines out ↔ out.IsChain fun x y => x.2 ≠ newline → x.1 = y.1 := by
  induction out with
  | nil => exact ⟨fun _ => .nil, fun _ => nofun⟩
  | cons x rest ih =>
    cases rest with
    | nil =>
      have hsingle : linesOf [x] = [[x]] := by
        rw [linesOf, linesOf]
        split <;> rfl
      refine ⟨fun _ => .singleton x, fun _ => ?_⟩
      rw [WholeLines, hsingle]
      exact List.forall_mem_singleton.mpr (fromOne_singleton x)
    | cons y rest => rw [wholeLines_cons, List.isChain_cons_cons, ih]

/-! ## Calls -/

/-- A call that leaves its line open is followed by a call of the same core. -/
def Unbroken (calls : List (Nat × List UInt8)) : Prop :=
  (calls.filter fun c => c.2 ≠ []).IsChain fun c c' =>
    c.2.getLast? ≠ some newline → c.1 = c'.1

instance : DecidablePred Unbroken := fun _ => inferInstanceAs (Decidable (List.IsChain _ _))

theorem isChain_tagged (c : Nat × List UInt8) :
    (tagged c).IsChain fun x y => x.2 ≠ newline → x.1 = y.1 := by
  rw [tagged, List.isChain_map]
  exact List.isChain_iff_getElem.mpr fun _ _ _ => rfl

theorem flatMap_tagged (calls : List (Nat × List UInt8)) :
    calls.flatMap tagged = ((calls.filter fun c => c.2 ≠ []).map tagged).flatten := by
  induction calls with
  | nil => rfl
  | cons c calls ih =>
    obtain ⟨i, sent⟩ := c
    cases sent with
    | nil => exact ih
    | cons b sent => exact congrArg (tagged (i, b :: sent) ++ ·) ih

theorem getLast?_tagged (c : Nat × List UInt8) :
    (tagged c).getLast? = c.2.getLast?.map fun b => (c.1, b) := List.getLast?_map

theorem head?_tagged (c : Nat × List UInt8) :
    (tagged c).head? = c.2.head?.map fun b => (c.1, b) := List.head?_map

/-- Bytes that come out call by call make whole lines when no open line is left to another core. -/
theorem wholeLines_flatMap (calls : List (Nat × List UInt8)) :
    WholeLines (calls.flatMap tagged) ↔ Unbroken calls := by
  have hfull : [] ∉ (calls.filter fun c => c.2 ≠ []).map tagged := by
    intro hmem
    obtain ⟨c, hc, hnil⟩ := List.mem_map.mp hmem
    exact of_decide_eq_true (List.mem_filter.mp hc).2 (List.map_eq_nil_iff.mp hnil)
  rw [wholeLines_iff_isChain, flatMap_tagged, List.isChain_flatten hfull, List.isChain_map,
    Unbroken]
  refine (and_iff_right ?_).trans (List.IsChain.iff_of_mem_imp fun c c' hc hc' => ?_)
  · intro line hline
    obtain ⟨c, -, rfl⟩ := List.mem_map.mp hline
    exact isChain_tagged c
  · have hne : ∀ {c}, c ∈ calls.filter (fun c => c.2 ≠ []) → c.2 ≠ [] := fun hc =>
      of_decide_eq_true (List.mem_filter.mp hc).2
    obtain ⟨b, hb⟩ := Option.isSome_iff_exists.mp (List.getLast?_isSome.mpr (hne hc))
    obtain ⟨b', sent, hb'⟩ := List.exists_cons_of_ne_nil (hne hc')
    rw [getLast?_tagged, head?_tagged, hb, hb', List.head?_cons]
    simp only [Option.map_some, Option.mem_some_iff, forall_eq', ne_eq, Option.some.injEq]

/-! ## Cores at work -/

/-- What a core has to say: the kernel's own greeting, or a record. -/
inductive Chore where
  | greeting (core : Nat)
  | record (r : Log.Record)

def Chore.code : Chore → Code Unit
  | .greeting core => greet core
  | .record r => log r

/-- Cores that each do some chores. -/
def choir (k : Kernel) (chores : List (List Chore)) : Crew machine Panic Unit :=
  ⟨k, chores.map fun cs => cs.forM Chore.code⟩

section Choir

variable {chores : List (List Chore)} {d : Crew machine Panic Unit}

theorem speaks_choir : ∀ p ∈ (choir k chores).programs, Speaks p := by
  intro p hp
  obtain ⟨cs, -, rfl⟩ := List.mem_map.mp hp
  refine .forM (fun c => ?_) cs
  cases c with
  | greeting core => exact speaks_greet core
  | record r => exact speaks_log r

/-- However the cores interleave, the lines that go out are whole if and only if every call of the
console that leaves its line open is followed, in the order in which the calls get the console, by
a call of the same core. -/
theorem lines_whole_iff_unbroken (hgate : k.gateOpen = true) (hready : k.consoleReady = true)
    (hfree : k.locks.console.taken = false) (hr : (choir k chores).Runs h d) :
    (∃ accesses, d.shared.bus.trace.toList = k.bus.trace.toList ++ accesses ∧
      sentBytes accesses = (spoken h).map Prod.snd) ∧
      (WholeLines (spoken h) ↔ Unbroken (heard h)) := by
  obtain ⟨accesses, htrace, hreport⟩ := exists_report hgate hready hfree speaks_choir hr
  refine ⟨⟨accesses, htrace, hreport.bytes⟩, ?_⟩
  rw [hreport.order]
  exact wholeLines_flatMap (heard h)

/-- Calls that each end their line leave no line open to another core. -/
theorem unbroken_of_ended {calls : List (Nat × List UInt8)}
    (hended : ∀ c ∈ calls, c.2 ≠ [] → c.2.getLast? = some newline) : Unbroken calls := by
  refine (List.IsChain.iff_of_mem_imp (R := fun _ _ => True) fun c c' hc _ => ?_).mp ?_
  · obtain ⟨hmem, hne⟩ := List.mem_filter.mp hc
    exact ⟨fun _ hopen => (hopen (hended c hmem (of_decide_eq_true hne))).elim, fun _ => trivial⟩
  · exact List.isChain_iff_getElem.mpr fun _ _ => trivial

/-- Cores that send each line in one call write whole lines in every interleaving. -/
theorem wholeLines_of_ended {texts : List (List String)} (hgate : k.gateOpen = true)
    (hready : k.consoleReady = true) (hfree : k.locks.console.taken = false)
    (hr : (callers k texts).Runs h d) (hdone : ∀ p ∈ d.programs, p = .done ())
    (hended : ∀ pieces ∈ texts, ∀ s ∈ pieces,
      spelled s ≠ [] → (spelled s).getLast? = some newline) : WholeLines (spoken h) := by
  obtain ⟨_, -, hreport⟩ := exists_report hgate hready hfree speaks_callers hr
  rw [hreport.order, wholeLines_flatMap]
  refine unbroken_of_ended fun c hc hne => ?_
  have hmine : c.2 ∈ callsOf c.1 (heard h) :=
    List.mem_map.mpr ⟨c, List.mem_filter.mpr ⟨hc, decide_eq_true rfl⟩, rfl⟩
  rw [hreport.own, calls_of_done hgate hready hfree hr hdone] at hmine
  obtain ⟨s, hs, hspelled⟩ := List.mem_map.mp hmine
  obtain ⟨pieces, hpieces, hs⟩ : ∃ pieces ∈ texts, s ∈ pieces := by
    cases htexts : texts[c.1]? with
    | none => simp [htexts] at hs
    | some pieces => exact ⟨pieces, List.mem_of_getElem? htexts, by simpa [htexts] using hs⟩
  rw [← hspelled] at hne ⊢
  exact hended pieces hpieces s hs hne

end Choir

/-! ## Two cores that greet -/

/-- The console ready for several cores, and logging set up. -/
def loggingKernel : Kernel := { busyConsole with bus := {}, logLimit := some .debug }

def greeters : Crew machine Panic Unit := choir loggingKernel [[.greeting 0], [.greeting 1]]

/-- One critical section after the other. -/
def orderlyTurns : List Nat := List.replicate 107 0 ++ List.replicate 107 1

theorem lines_whole_iff_unbroken_orderly :
    WholeLines (spoken (greeters.historyOf orderlyTurns)) ∧
      Unbroken (heard (greeters.historyOf orderlyTurns)) := by
  have hwhole : WholeLines (spoken (greeters.historyOf orderlyTurns)) :=
    (wholeLines_iff_isChain _).mpr (by decide +kernel)
  have hiff := (lines_whole_iff_unbroken rfl rfl rfl (greeters.runs_historyOf orderlyTurns)).2
  exact ⟨hwhole, hiff.mp hwhole⟩

/-- The first core leaves the critical section, the second one starts its first line, the first
one logs its record, and the second one goes on. -/
def crossedTurns : List Nat :=
  List.replicate 107 0 ++ List.replicate 37 1 ++ List.replicate 160 0 ++ List.replicate 240 1

/-- The record comes in the middle of the second core's line, though both cores use the console as
it is meant to be used, and both come to their ends. -/
theorem not_wholeLines_crossed :
    loggingKernel.gateOpen = true ∧ loggingKernel.consoleReady = true ∧
      loggingKernel.locks.console.taken = false ∧
      greeters.Runs (greeters.historyOf crossedTurns) (crossedTurns.foldl Crew.step greeters) ∧
      (crossedTurns.foldl Crew.step greeters).programs.all
        (fun p => p.result?.any Except.toBool) = true ∧
      ¬WholeLines (spoken (greeters.historyOf crossedTurns)) :=
  ⟨rfl, rfl, rfl, greeters.runs_historyOf crossedTurns, by decide +kernel, by decide +kernel⟩

end BareKernel.Kernel
