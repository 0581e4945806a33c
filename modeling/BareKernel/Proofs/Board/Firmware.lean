import BareKernel.Board.Platform
import BareKernel.Proofs.Firmware.Handshake
import BareKernel.Proofs.Kernel.Custody

/-! The firmware as the kernel calls it: an exchange over the mailbox under the mailbox's lock. A
call that cannot be sent leaves everything as it was, and any other one is a handshake for its own
request and answers with what the firmware has made of that; and the lock is left as it was
found. -/

namespace BareKernel.Board

open Kernel Sync Firmware

variable {tag : UInt32} {values : List UInt32} {k : Kernel}

/-- Nobody else is in the way of a call. -/
def MailboxFree (k : Kernel) : Prop := k.gateOpen = true → k.locks.mailbox.taken = false

/-- The kernel after a call of the mailbox that nobody else was in the way of. -/
def afterCall (tag : UInt32) (values : List UInt32) (k : Kernel) : Kernel :=
  { k with
    mailbox := (Mailbox.call tag values k.mailbox k.bus).2.1
    bus := (Mailbox.call tag values k.mailbox k.bus).2.2 }

/-- A call that gets the lock is the mailbox's own, and the lock is given back. -/
theorem advance_firmware (h : MailboxFree k) (tag : UInt32) (values : List UInt32) :
    (firmware tag values).advance k =
      (.done (Mailbox.call tag values k.mailbox k.bus).1, afterCall tag values k) := by
  have hgate : perform .readGate k = (some k.gateOpen, k) := rfl
  have hexchange : ∀ k : Kernel, perform (.exchange tag values) k =
      (some (Mailbox.call tag values k.mailbox k.bus).1, afterCall tag values k) := fun _ => rfl
  rw [firmware, guarded, advance_call_bind hgate]
  by_cases hopen : k.gateOpen = true
  · have hfree : k.locks.mailbox.taken = false := h hopen
    have htake : perform (.take .mailbox) k =
        (some (), { k with locks := k.locks.set ⟨true⟩ .mailbox }) := by
      simp [perform, SpinLock.tryAcquire, Locks.get, hfree]
    have hlocks : { k.locks with mailbox := ⟨false⟩ } = k.locks := by rw [← hfree]
    rw [if_pos hopen, advance_call_bind htake, advance_call_bind (hexchange _)]
    refine (advance_call_bind (by exact rfl) _).trans ?_
    exact congrArg (fun locks => (Program.done (M := machine)
      (Mailbox.call tag values k.mailbox k.bus).1,
      { afterCall tag values k with locks := locks })) hlocks
  · rw [if_neg hopen]
    exact advance_call (hexchange k)

/-- A call that finds the lock taken goes on waiting. -/
theorem advance_firmware_ne_done (h : ¬MailboxFree k) (tag : UInt32) (values : List UInt32)
    (r : Except Error (List UInt32)) : ((firmware tag values).advance k).1 ≠ .done r := by
  obtain ⟨hopen, htaken⟩ : k.gateOpen = true ∧ k.locks.mailbox.taken = true := by
    simpa [MailboxFree] using h
  have hgate : perform .readGate k = (some true, k) := by rw [← hopen]; rfl
  rw [firmware, guarded, advance_call_bind hgate, if_pos rfl,
    advance_call_bind_of_blocks (.lock .mailbox htaken)]
  exact nofun

/-- A call comes back exactly when nobody holds the mailbox's lock or the gate is closed, and then
the locks are as they were. More values than a message has are refused with nothing touched. Any
other call is a handshake for the request that the tag and the values make, whatever earlier calls
have left in the buffer. Its answer is read off what the buffer holds at the last access, the echo
of the request: the words that the firmware has written when the message was posted and by each
access since, and none that come later. There is a device for every handshake and for whatever the
firmware writes, and when; and with other cores at work too, a core ends a call with the locks that
it held before. -/
theorem firmware_handshake (tag : UInt32) (values : List UInt32) (k : Kernel) :
    ((∃ r k', (firmware tag values).advance k = (.done r, k')) ↔ MailboxFree k) ∧
    (∀ r k', (firmware tag values).advance k = (.done r, k') → k'.locks = k.locks ∧
      (29 < values.length → r = .error .messageTooLong ∧ k' = k) ∧
      (values.length ≤ 29 → ∃ message before after, Message.encode tag values = .ok message ∧
        message.Carries tag values ∧
        let accesses := before ++ .post k.mailbox.write1 k.mailbox.request message :: after
        let written := k.bus.replies.headD [] ++ (k.bus.rewrites.take after.length).flatten
        k'.bus.trace = k.bus.trace ++ accesses.toArray ∧ k.mailbox.Handshake message accesses ∧
        k.mailbox.Kept message accesses ∧ k'.bus.rewrites = k.bus.rewrites.drop after.length ∧
        k'.mailbox.message = written.foldl (fun m w => m.setWord w.1 w.2) message ∧
        r = k'.mailbox.message.decode values ∧ k'.mailbox.message.Answers values r)) ∧
    k.mailbox.request.toNat = k.mailbox.buffer.toNat / 16 * 16 + 8 ∧
    (MailboxFree k → ∀ message accesses replies rewrites, Message.encode tag values = .ok message →
      k.mailbox.Handshake message accesses → ∃ bus r k', bus.replies = replies ∧
        bus.rewrites = rewrites ∧
        (firmware tag values).advance { k with bus := bus } = (.done r, k') ∧
        k'.bus.trace = bus.trace ++ accesses.toArray) ∧
    ∀ held, .mailbox ∉ held → Restores False held (firmware tag values) := by
  have hreturns : (∃ r k', (firmware tag values).advance k = (.done r, k')) ↔ MailboxFree k := by
    refine ⟨fun ⟨r, k', h⟩ => ?_, fun h => ⟨_, _, advance_firmware h tag values⟩⟩
    by_contra hheld
    exact advance_firmware_ne_done hheld tag values r (congrArg Prod.fst h)
  refine ⟨hreturns, fun r k' h => ?_, k.mailbox.toNat_request,
    fun hfree message accesses replies rewrites hm hhandshake => ?_, fun held hl => ?_⟩
  · rw [advance_firmware (hreturns.mp ⟨r, k', h⟩)] at h
    obtain ⟨hr, rfl⟩ := Prod.mk.inj h
    obtain rfl := Program.done.inj hr
    refine ⟨rfl, fun hlong => ?_, fun hshort => ?_⟩
    · rw [afterCall, Mailbox.call_of_lt hlong]
      exact ⟨rfl, rfl⟩
    · obtain ⟨message, before, after, hm, hhandshake, htrace, hrewrites, hmailbox, hanswer⟩ :=
        Mailbox.exists_call tag hshort k.mailbox k.bus
      refine ⟨message, before, after, hm, (Message.carries_of_encode hm).2, htrace, hhandshake,
        hhandshake.kept, hrewrites, congrArg (·.message) hmailbox, hanswer, ?_⟩
      rw [hanswer]
      exact Message.answers_decode _ values
  · obtain ⟨bus, hreplies, hrewrites, htrace⟩ := hhandshake.exists_call hm replies rewrites
    exact ⟨bus, _, _, hreplies, hrewrites,
      advance_firmware (k := { k with bus := bus }) hfree tag values, htrace⟩
  · exact .guardedCall trivial hl False.elim

end BareKernel.Board
