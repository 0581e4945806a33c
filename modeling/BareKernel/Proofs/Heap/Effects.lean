import BareKernel.Proofs.Heap.Loans

/-! When heap code may write, said of the code alone: whatever the arena holds, and with or without
the consistency checks. The search and the checks only read. What comes after them writes and no
longer looks for errors. So a call that ends with an error, or with no block to hand out, has not
written anything yet. -/

namespace BareKernel

namespace Heap

namespace Action

variable {α β : Type} {x : Action α} {f : α → Action β}

/-- No run of the action changes the heap. -/
def Reads (x : Action α) : Prop := ∀ h, (x.run h).2 = h

/-- No run of the action ends with an error. -/
def Silent (x : Action α) : Prop := ∀ h (e : Error), (x.run h).1 ≠ .error (.error e)

/-- A run of the action that ends with an error has not changed the heap. -/
def Careful (x : Action α) : Prop :=
  ∀ h (e : Error), (x.run h).1 = .error (.error e) → (x.run h).2 = h

/-- No run of the action ends empty-handed. -/
def Finds (x : Action (Option α)) : Prop := ∀ h, (x.run h).1 ≠ .ok none

theorem Reads.pure (a : α) : (Pure.pure a : Action α).Reads := fun _ => rfl

theorem Reads.fail (e : Failure) : (Action.fail e : Action α).Reads := fun _ => rfl

theorem Reads.head : Action.head.Reads := fun _ => rfl

theorem Reads.read (i : Nat) : (Action.read i).Reads := by
  intro h
  simp only [Action.read, run]
  cases h.arena.units[i]? <;> rfl

theorem Reads.plus (i j : Nat) : (Action.plus i j).Reads := by
  unfold Action.plus
  split
  · exact .pure _
  · exact .fail _

theorem Reads.bind (hx : x.Reads) (hf : ∀ a, (f a).Reads) : (x >>= f).Reads := by
  intro h
  have hx := hx h
  rw [run_bind]
  generalize x.run h = r at hx
  obtain ⟨e | a, h'⟩ := r
  · exact hx
  · exact (hf a h').trans hx

theorem Reads.ite {c : Prop} [Decidable c] {y : Action α} (hx : x.Reads) (hy : y.Reads) :
    (if c then x else y).Reads := by
  split
  · exact hx
  · exact hy

/-- A step that is taken under a condition, and what follows in any case. -/
theorem Reads.when {c : Prop} [Decidable c] {x : Action Unit} {k : Unit → Action α}
    (hx : x.Reads) (hk : ∀ u, (k u).Reads) : (if c then x >>= k else k ()).Reads :=
  .ite (.bind hx hk) (hk ())

theorem Silent.pure (a : α) : (Pure.pure a : Action α).Silent := fun _ _ he => nomatch he

theorem Silent.fault (f : Fault) : (Action.fail (.fault f) : Action α).Silent :=
  fun _ _ he => nomatch he

theorem Silent.head : Action.head.Silent := fun _ _ he => nomatch he

theorem Silent.setHead (i : Nat) : (Action.setHead i).Silent := fun _ _ he => nomatch he

theorem Silent.countAllocation (a : α) : (Action.countAllocation (Pure.pure a)).Silent :=
  fun _ _ he => nomatch he

theorem Silent.countFree (a : α) : (Action.countFree (Pure.pure a)).Silent :=
  fun _ _ he => nomatch he

theorem Silent.read (i : Nat) : (Action.read i).Silent := by
  intro h e he
  simp only [Action.read, run] at he
  split at he <;> cases he

theorem Silent.write (i : Nat) (v : Int64) : (Action.write i v).Silent := by
  intro h e he
  simp only [Action.write, run] at he
  split at he <;> cases he

theorem Silent.plus (i j : Nat) : (Action.plus i j).Silent := by
  unfold Action.plus
  split
  · exact .pure _
  · exact .fault _

theorem Silent.bind (hx : x.Silent) (hf : ∀ a, (f a).Silent) : (x >>= f).Silent := by
  intro h e
  have hx := hx h e
  rw [run_bind]
  generalize x.run h = r at hx
  obtain ⟨e | a, h'⟩ := r
  · simpa using hx
  · exact hf a h' e

theorem Silent.ite {c : Prop} [Decidable c] {y : Action α} (hx : x.Silent) (hy : y.Silent) :
    (if c then x else y).Silent := by
  split
  · exact hx
  · exact hy

theorem Silent.when {c : Prop} [Decidable c] {x : Action Unit} {k : Unit → Action α}
    (hx : x.Silent) (hk : ∀ u, (k u).Silent) : (if c then x >>= k else k ()).Silent :=
  .ite (.bind hx hk) (hk ())

theorem Reads.careful (hx : x.Reads) : x.Careful := fun h _ _ => hx h

theorem Silent.careful (hx : x.Silent) : x.Careful := fun h e he => absurd he (hx h e)

/-- Errors may come after what only reads. -/
theorem Careful.after (hx : x.Reads) (hf : ∀ a, (f a).Careful) : (x >>= f).Careful := by
  intro h e
  have hx := hx h
  rw [run_bind]
  generalize x.run h = r at hx
  obtain ⟨e' | a, h'⟩ := r
  · exact fun _ => hx
  · exact fun he => (hf a h' e he).trans hx

theorem Careful.when {c : Prop} [Decidable c] {x : Action Unit} {k : Unit → Action α}
    (hx : x.Reads) (hk : ∀ u, (k u).Careful) : (if c then x >>= k else k ()).Careful := by
  split
  · exact .after hx hk
  · exact hk ()

theorem Careful.map (hx : x.Careful) (g : α → β) : (x >>= fun a => Pure.pure (g a)).Careful := by
  intro h e
  have hx := hx h e
  rw [run_bind]
  generalize x.run h = r at hx
  obtain ⟨e' | a, h'⟩ := r
  · simpa using hx
  · exact nofun

theorem Finds.some (a : α) : (Action.countAllocation (Pure.pure (Option.some a))).Finds :=
  fun _ he => nomatch he

/-- The last action alone says whether there is an answer. -/
theorem Finds.bind {f : β → Action (Option α)} {x : Action β} (hf : ∀ a, (f a).Finds) :
    (x >>= f).Finds := by
  intro h
  rw [run_bind]
  generalize x.run h = r
  obtain ⟨e | a, h'⟩ := r
  · exact nofun
  · exact hf a h'

end Action

open Heap.Action (Reads Silent Careful Finds)

namespace Block

variable (b : Block)

theorem tag_reads : b.tag.Reads := .read _

theorem size_reads : b.size.Reads := .bind (tag_reads b) fun _ => .pure _

theorem isFree_reads : b.isFree.Reads := .bind (tag_reads b) fun _ => .pure _

theorem isTaken_reads : b.isTaken.Reads := .bind (tag_reads b) fun _ => .pure _

theorem footerIndex_reads : b.footerIndex.Reads :=
  .bind (size_reads b) fun _ => .bind (.plus _ _) fun _ => .pure _

theorem footerTag_reads : b.footerTag.Reads := .bind (footerIndex_reads b) fun _ => .read _

theorem left_reads : b.left.Reads := .bind (.read _) fun _ => .pure _

theorem right_reads : b.right.Reads :=
  .bind (size_reads b) fun _ => .bind (.plus _ _) fun _ => .pure _

theorem next_reads : b.next.Reads := .bind (.plus _ _) fun _ => .bind (.read _) fun _ => .pure _

theorem check_reads (len : Nat) : (b.check len).Reads := by
  unfold check
  refine .when (.fail _) fun _ => .bind (size_reads b) fun _ => ?_
  refine .when (.fail _) fun _ => .bind (.plus _ _) fun _ => ?_
  refine .when (.fail _) fun _ => .bind (tag_reads b) fun _ => .bind (footerTag_reads b) fun _ => ?_
  exact .ite (.fail _) (.pure ())

theorem guardLink_reads (checks : Bool) (len i : Nat) : (guardLink checks len i).Reads :=
  .ite (.ite (.pure ()) (check_reads _ len)) (.pure ())

theorem size_silent : b.size.Silent := .bind (.read _) fun _ => .pure _

theorem isFree_silent : b.isFree.Silent := .bind (.read _) fun _ => .pure _

theorem next_silent : b.next.Silent := .bind (.plus _ _) fun _ => .bind (.read _) fun _ => .pure _

theorem prev_silent : b.prev.Silent := .bind (.plus _ _) fun _ => .bind (.read _) fun _ => .pure _

theorem setNext_silent (i : Nat) : (b.setNext i).Silent := .bind (.plus _ _) fun _ => .write _ _

theorem setPrev_silent (i : Nat) : (b.setPrev i).Silent := .bind (.plus _ _) fun _ => .write _ _

theorem writeTags_silent (tag : Int64) (size : Nat) : (b.writeTags tag size).Silent := by
  unfold writeTags
  exact .when (.fault _) fun _ => .bind (.write _ _) fun _ => .bind (.plus _ _) fun _ => .write _ _

theorem scrub_silent : b.scrub.Silent :=
  .bind (.bind (size_silent b) fun _ => .bind (.plus _ _) fun _ => .pure _) fun _ =>
    .bind (.write _ _) fun _ => .write _ _

end Block

namespace FreeList

theorem scan_reads (checks : Bool) (len units : Nat) : ∀ attempts index best,
    (scan checks len units attempts index best).Reads
  | 0, _, _ => .pure _
  | attempts + 1, _, _ =>
    .ite (.pure _) <| .bind (Block.guardLink_reads _ _ _) fun _ => .bind (Block.isFree_reads _)
      fun _ => .when (.fail _) fun _ => .bind (Block.size_reads _) fun _ => .ite (.pure _) <|
        .bind (Block.next_reads _) fun _ => scan_reads checks len units attempts _ _

theorem bestFit_reads (checks : Bool) (len units : Nat) : (bestFit checks len units).Reads :=
  .bind .head fun _ => scan_reads checks len units _ _ _

theorem unlink_silent (index : Nat) : (unlink index).Silent := by
  refine .bind (Block.next_silent _) fun next => .bind (Block.prev_silent _) fun prev => ?_
  have hnext : (if next ≠ 0 then Block.setPrev ⟨next⟩ prev else pure ()).Silent :=
    .ite (Block.setPrev_silent _ _) (.pure ())
  exact .ite (.bind (.setHead _) fun _ => hnext) (.bind (Block.setNext_silent _ _) fun _ => hnext)

theorem push_silent (index size : Nat) : (push index size).Silent :=
  .bind (Block.writeTags_silent _ _ _) fun _ => .bind .head fun _ =>
    .bind (Block.setNext_silent _ _) fun _ => .bind (Block.setPrev_silent _ _) fun _ =>
      .when (Block.setPrev_silent _ _) fun _ => .setHead _

end FreeList

theorem absorbLeft_silent (block left : Block) (size : Nat) :
    (absorbLeft block left size).Silent :=
  .bind (Block.isFree_silent left) fun _ => .ite
    (.bind (FreeList.unlink_silent _) fun _ => .bind (Block.scrub_silent _) fun _ =>
      .bind (Block.size_silent _) fun _ => .bind (.plus _ _) fun _ => .pure _)
    (.pure _)

theorem absorbRight_silent (right : Block) (size : Nat) : (absorbRight right size).Silent :=
  .bind (Block.isFree_silent right) fun _ => .ite
    (.bind (Block.size_silent _) fun _ => .bind (FreeList.unlink_silent _) fun _ =>
      .bind (Block.scrub_silent _) fun _ => .plus _ _)
    (.pure _)

theorem takeFit_careful (checks : Bool) (len units : Nat) : (takeFit checks len units).Careful := by
  refine .after (FreeList.bestFit_reads checks len units) fun found => ?_
  cases found with
  | none => exact (Reads.pure none).careful
  | some index =>
    refine Silent.careful (.bind (Block.size_silent _) fun size =>
      .bind (FreeList.unlink_silent index) fun _ => .ite ?_ ?_)
    · exact .bind (Block.writeTags_silent _ _ _) fun _ => .bind (.plus _ _) fun _ =>
        .bind (FreeList.push_silent _ _) fun _ => .countAllocation _
    · exact .bind (Block.writeTags_silent _ _ _) fun _ => .countAllocation _

theorem giveBack_careful (checks : Bool) (base len addr : Nat) :
    (giveBack checks base len addr).Careful := by
  unfold giveBack
  split
  · exact (Reads.fail _).careful
  refine .after (Block.guardLink_reads _ _ _) fun _ => .after (Block.isTaken_reads _) fun _ =>
    .when (.fail _) fun _ => .after (Block.left_reads _) fun _ => .after (Block.right_reads _)
      fun _ => .after (Block.guardLink_reads _ _ _) fun _ => .after (Block.guardLink_reads _ _ _)
        fun _ => Silent.careful ?_
  exact .bind (Block.size_silent _) fun _ => .bind (absorbLeft_silent _ _ _) fun _ =>
    .bind (absorbRight_silent _ _) fun _ => .bind (FreeList.push_silent _ _) fun _ => .countFree ()

/-- No block to hand out is known before anything is written. -/
theorem takeFit_none {checks : Bool} {len units : Nat} {h : Heap}
    (hn : ((takeFit checks len units).run h).1 = .ok none) :
    ((takeFit checks len units).run h).2 = h := by
  have hreads := FreeList.bestFit_reads checks len units h
  unfold takeFit at hn ⊢
  rw [Action.run_bind] at hn ⊢
  generalize (FreeList.bestFit checks len units).run h = r at hn hreads
  obtain ⟨e | found, h'⟩ := r
  · cases hn
  cases found with
  | none => exact hreads
  | some index =>
    -- whatever is found is handed out
    refine absurd hn (Finds.bind (fun size => .bind fun _ => ?_) h')
    dsimp only
    split
    · exact .bind fun _ => .bind fun _ => .bind fun _ => .some index
    · exact .bind fun _ => .some index

theorem takePayload_none {checks : Bool} {base len units : Nat} {h : Heap}
    (hn : ((takePayload checks base len units).run h).1 = .ok none) :
    ((takePayload checks base len units).run h).2 = h := by
  have htake : ((takeFit checks len units).run h).1 = .ok none →
      ((takeFit checks len units).run h).2 = h := takeFit_none
  unfold takePayload at hn ⊢
  rw [Action.run_bind] at hn ⊢
  generalize (takeFit checks len units).run h = r at hn htake
  obtain ⟨e | found, h'⟩ := r
  · cases hn
  cases found with
  | none => exact htake rfl
  | some index => cases hn

theorem givePayload_careful (checks : Bool) (base len addr : Nat) :
    (givePayload checks base len addr).Careful := by
  unfold givePayload
  split
  · exact (Reads.pure ()).careful
  · exact giveBack_careful checks base len addr

/-- Only the payload of a block between the sentinels has an index. -/
theorem indexOfPayload_eq_error {base len addr : Nat}
    (ha : ∀ i, 1 ≤ i → i + 3 ≤ len → addr ≠ payloadOf base i) :
    indexOfPayload base len addr = .error .foreignPointer := by
  unfold indexOfPayload
  split
  · rfl
  rename_i hin
  simp only [unitBytes, not_or, Nat.not_le, not_not] at hin
  dsimp only
  split
  · rfl
  rename_i hindex
  refine absurd ?_ (ha ((addr - base) / unitBytes - 1) ?_ ?_) <;>
    simp only [payloadOf, unitBytes, sentinelUnits] at hindex ⊢ <;> omega

end Heap

namespace KernelMemory

open Heap

variable {m : KernelMemory} {h : Heap} {α : Type} {code : Memory → Action α}

theorem perform_unchanged (hm : m.heap = some h) (hc : ((code h.arena).run h).2 = h) :
    (m.perform code).2 = m := by
  rw [perform_run code hm, hc, ← hm]

theorem perform_none (code : Memory → Action α) (hm : m.heap = none) :
    m.perform code = (.error (.error .notInitialised), m) := by
  obtain ⟨ram, checks, heap⟩ := m
  obtain rfl : heap = none := hm
  rfl

/-- Code that is careful in every arena fails without a trace. -/
theorem perform_careful {e : Error} (hc : ∀ arena, (code arena).Careful)
    (he : (m.perform code).1 = .error (.error e)) : (m.perform code).2 = m := by
  cases hm : m.heap with
  | none => rw [perform_none code hm]
  | some h =>
    rw [perform_run code hm] at he
    exact perform_unchanged hm (hc h.arena h e he)

theorem tryFree_error {addr : Nat} {e : Error} (he : (m.tryFree addr).1 = .error (.error e)) :
    (m.tryFree addr).2 = m := by
  unfold tryFree at he ⊢
  split
  · rfl
  · rename_i h₀
    rw [if_neg h₀] at he
    exact perform_careful (fun _ => givePayload_careful _ _ _ _) he

theorem takePayload_careful (checks : Bool) (base len units : Nat) :
    (takePayload checks base len units).Careful :=
  .map (takeFit_careful checks len units) _

theorem perform_takePayload (m : KernelMemory) (checks : Bool) (units : Nat)
    (hr : (m.perform fun arena => takePayload checks arena.base arena.len units).1 = .ok none ∨
      ∃ e : Error, (m.perform fun arena => takePayload checks arena.base arena.len units).1 =
        .error (.error e)) :
    (m.perform fun arena => takePayload checks arena.base arena.len units).2 = m := by
  cases hm : m.heap with
  | none => rw [perform_none _ hm]
  | some h =>
    rcases hr with hr | ⟨e, hr⟩
    · rw [perform_run _ hm] at hr
      exact perform_unchanged hm (takePayload_none hr)
    · exact perform_careful (fun _ => takePayload_careful _ _ _ _) hr

/-- An allocation that hands out nothing, because there is no room or because of damage. -/
def Refused : Except Fatal (Option Nat) → Prop
  | .ok found => found = none
  | .error (.corruptOnAllocate _) => True
  | .error _ => False

theorem allocate_refused {size : Nat} (hr : Refused (m.allocate size).1) :
    (m.allocate size).2 = m := by
  unfold allocate at hr ⊢
  split
  · rfl
  rename_i hinit
  rw [if_neg hinit] at hr
  cases hu : unitsFor size with
  | none => rfl
  | some units =>
    simp only [hu] at hr ⊢
    have hsame := perform_takePayload m m.checks units
    generalize m.perform _ = q at *
    obtain ⟨(e | f) | found, m'⟩ := q
    · exact hsame (.inr ⟨e, rfl⟩)
    · exact hr.elim
    · exact hsame (.inl (congrArg _ hr))

/-- An address that no payload between the sentinels has. -/
theorem tryFree_foreign (hm : m.heap = some h) {addr : Nat} (h₀ : addr ≠ 0)
    (hb : addr ≠ h.arena.base)
    (ha : ∀ i, 1 ≤ i → i + 3 ≤ h.arena.len → addr ≠ payloadOf h.arena.base i) :
    m.tryFree addr = (.error (.error .foreignPointer), m) := by
  rw [tryFree, if_neg h₀]
  have hrun : (givePayload m.checks h.arena.base h.arena.len addr).run h =
      (.error (.error .foreignPointer), h) := by
    rw [givePayload, if_neg hb, giveBack, indexOfPayload_eq_error ha]
    rfl
  simp only [perform_run _ hm, hrun]
  rw [← hm]

/-- Whatever the arena holds, with or without the consistency checks: a region that is refused, a
pointer that is not taken back, a request that gets nothing and one that comes upon damage leave the
whole memory as it was, and no address outside the payloads is taken for a block. -/
theorem failures_change_nothing (m : KernelMemory) :
    (∀ region e m', m.init region = (.error e, m') → m' = m) ∧
    (∀ addr e m', m.tryFree addr = (.error (.error e), m') → m' = m) ∧
    (∀ size m', m.allocate size = (.ok none, m') → m' = m) ∧
    (∀ size e m', m.allocate size = (.error (.corruptOnAllocate e), m') → m' = m) ∧
    ∀ h, m.heap = some h → ∀ addr, addr ≠ 0 → addr ≠ h.arena.base →
      (∀ i, 1 ≤ i → i + 3 ≤ h.arena.len → addr ≠ payloadOf h.arena.base i) →
      m.tryFree addr = (.error (.error .foreignPointer), m) := by
  refine ⟨fun region e m' hi => Session.memory_of_init_error hi, fun addr e m' ht => ?_,
    fun size m' ha => ?_, fun size e m' ha => ?_, fun h hm addr => tryFree_foreign hm⟩
  · have hsame := tryFree_error (congrArg (·.1) ht)
    rwa [ht] at hsame
  · have hsame : (m.allocate size).2 = m := allocate_refused (by rw [ha]; rfl)
    rwa [ha] at hsame
  · have hsame : (m.allocate size).2 = m := allocate_refused (by rw [ha]; trivial)
    rwa [ha] at hsame

/-- A taken block in front of a free one whose tags do not agree. -/
def frayedHeap : Heap where
  arena := ⟨16384, #[-2, -2, -4, 0, 0, -4, 7, 0, 0, 0, 0, 0, 0, 8, -2, -2],
    by decide, by decide, by decide⟩
  head := 6
  allocations := 1
  frees := 0

def frayedMemory : KernelMemory := ⟨frayedHeap.arena, true, frayedHeap⟩

/-- Neither block is taken back or handed out, and the first sentinel's payload is nobody's. -/
theorem failures_change_nothing_frayed :
    frayedMemory.init ⟨16384, 128⟩ = (.error .alreadyInitialised, frayedMemory) ∧
    frayedMemory.tryFree 16408 = (.error (.error .corruptBlock), frayedMemory) ∧
    frayedMemory.allocate 0x8000000000000000 = (.ok none, frayedMemory) ∧
    frayedMemory.allocate 16 = (.error (.corruptOnAllocate .corruptBlock), frayedMemory) ∧
    frayedMemory.tryFree 16392 = (.error (.error .foreignPointer), frayedMemory) := by
  obtain ⟨hinit, hfree, hnone, hcorrupt, hforeign⟩ := failures_change_nothing frayedMemory
  have hi : (frayedMemory.init ⟨16384, 128⟩).1 = .error .alreadyInitialised := rfl
  have hf : (frayedMemory.tryFree 16408).1 = .error (.error .corruptBlock) := by decide +kernel
  have hn : (frayedMemory.allocate 0x8000000000000000).1 = .ok none := by decide +kernel
  have hc : (frayedMemory.allocate 16).1 = .error (.corruptOnAllocate .corruptBlock) := by
    decide +kernel
  refine ⟨Prod.ext hi (hinit _ _ _ (Prod.ext hi rfl)), Prod.ext hf (hfree _ _ _ (Prod.ext hf rfl)),
    Prod.ext hn (hnone _ _ (Prod.ext hn rfl)), Prod.ext hc (hcorrupt _ _ _ (Prod.ext hc rfl)),
    hforeign frayedHeap rfl 16392 (by decide) (by decide) fun i hi _ => ?_⟩
  simp only [payloadOf, unitBytes, frayedHeap]
  omega

end KernelMemory

end BareKernel
