import BareKernel.Firmware.Mailbox
import BareKernel.Proofs.Firmware.Codec

/-! The mailbox handshake as a sequence of device accesses. A call waits for room, posts its request
once, and then waits and reads, word after word, until the request comes back; these sequences are
all that can happen, and with the right device each of them does, whatever the firmware writes into
the message and when. What is decoded is the message as it is at the last access. -/

namespace BareKernel.Board.Access

/-- The access reads this word from this register. -/
def Reads (addr : Nat) (w : UInt32) (a : Access) : Prop := a = .read addr w ∨ a = .echo addr w

def IsRead : Access → Prop
  | .read _ _ | .idle _ | .echo _ _ => True
  | _ => False

theorem Reads.isRead {addr : Nat} {w : UInt32} {a : Access} (h : a.Reads addr w) : a.IsRead := by
  rcases h with rfl | rfl <;> trivial

end BareKernel.Board.Access

namespace BareKernel.Board.Bus

open Firmware

variable {b : Bus} {m : Message} {l l' : List Access}

/-- The message and the devices after these accesses. By each of them the firmware has written what
it was to write by then, and no more. -/
def pass (b : Bus) (m : Message) (accesses : List Access) : Message × Bus :=
  (m.setWords (b.rewrites.take accesses.length).flatten,
    { b with
      rewrites := b.rewrites.drop accesses.length
      trace := b.trace ++ accesses.toArray })

theorem observe_eq_pass (b : Bus) (m : Message) (a : Access) : b.observe m a = b.pass m [a] := by
  rw [observe]
  cases h : b.rewrites <;> simp [pass, h, record, Message.setWords]

theorem pass_append (b : Bus) (m : Message) (l l' : List Access) :
    b.pass m (l ++ l') = (b.pass m l).2.pass (b.pass m l).1 l' := by
  simp [pass, List.take_add, Message.setWords_append]

theorem pass_cons (b : Bus) (m : Message) (a : Access) (l : List Access) :
    b.pass m (a :: l) = (b.pass m [a]).2.pass (b.pass m [a]).1 l := b.pass_append m [a] l

end BareKernel.Board.Bus

namespace BareKernel.Firmware.Mailbox

open Board

variable {m : Mailbox} {addr : Nat} {mask : UInt32} {waits replies accesses : List Access}
  {message : Message}

/-! ## Waiting for a status -/

/-- Reads of a status register of which the last is the first with the flags of `mask` clear. -/
inductive Waits (addr : Nat) (mask : UInt32) : List Access → Prop
  | clear {w : UInt32} : w &&& mask = 0 → Waits addr mask [.read addr w]
  | busy {w : UInt32} {rest : List Access} :
    w &&& mask ≠ 0 → Waits addr mask rest → Waits addr mask (.read addr w :: rest)

theorem Waits.mem (h : Waits addr mask waits) : ∀ a ∈ waits, ∃ w, a = .read addr w := by
  induction h with
  | clear => simp
  | busy _ _ ih => simpa using ih

theorem Waits.exists_last (h : Waits addr mask waits) :
    ∃ before w, waits = before ++ [.read addr w] ∧ w &&& mask = 0 := by
  induction h with
  | @clear w hw => exact ⟨[], w, rfl, hw⟩
  | @busy v rest _ _ ih =>
    obtain ⟨before, w, rfl, hw⟩ := ih
    exact ⟨.read addr v :: before, w, rfl, hw⟩

/-- A status that runs out of words reads as clear, so any words end the wait. -/
theorem exists_awaitStatus (addr : Nat) (mask : UInt32) (words : List UInt32)
    (trace : Array Access) : ∃ waits rest, Waits addr mask waits ∧
      Bus.awaitStatus addr mask words trace = (rest, trace ++ waits.toArray) := by
  induction words generalizing trace with
  | nil => exact ⟨_, [], .clear UInt32.zero_and, by simp [Bus.awaitStatus]⟩
  | cons w words ih =>
    rw [Bus.awaitStatus]
    by_cases hw : w &&& mask = 0
    · exact ⟨_, words, .clear hw, by simp [hw]⟩
    · obtain ⟨waits, rest, hwaits, heq⟩ := ih (trace.push (.read addr w))
      exact ⟨_, rest, .busy hw hwaits, by simp [hw, heq]⟩

/-- Any such reads are those of some words. -/
theorem Waits.exists_words (h : Waits addr mask waits) : ∃ words, ∀ rest trace,
    Bus.awaitStatus addr mask (words ++ rest) trace = (rest, trace ++ waits.toArray) := by
  induction h with
  | @clear w hw => exact ⟨[w], fun rest trace => by simp [Bus.awaitStatus, hw]⟩
  | @busy w _ hw _ ih =>
    obtain ⟨words, hwords⟩ := ih
    exact ⟨w :: words, fun rest trace => by simp [Bus.awaitStatus, hw, hwords]⟩

/-! ## Listening for the request -/

/-- Words that are waited for and read, of which the last is the first that repeats the request. -/
inductive Listens (status0 read0 : Nat) (request : UInt32) : List Access → Prop
  | echo {waits : List Access} {a : Access} : Waits status0 mailEmpty waits →
    a.Reads read0 request → Listens status0 read0 request (waits ++ [a])
  | stale {waits rest : List Access} {w : UInt32} : Waits status0 mailEmpty waits → w ≠ request →
    Listens status0 read0 request rest →
    Listens status0 read0 request (waits ++ .read read0 w :: rest)

theorem exists_awaitRoom (bus : Bus) (addr : Nat) (mask : UInt32) :
    ∃ waits s1, Waits addr mask waits ∧
      bus.awaitRoom addr mask =
        { bus with mailStatus1 := s1, trace := bus.trace ++ waits.toArray } := by
  obtain ⟨waits, s1, hwaits, heq⟩ := exists_awaitStatus addr mask bus.mailStatus1 bus.trace
  refine ⟨waits, s1, hwaits, ?_⟩
  rw [Bus.awaitRoom, heq]

/-- The status is waited for while the firmware goes on with the message. -/
theorem exists_awaitMail (addr : Nat) (mask : UInt32) (words : List UInt32) (message : Message)
    (bus : Bus) : ∃ waits s0, Waits addr mask waits ∧
      Bus.awaitMail addr mask words message bus =
        { bus with mailStatus0 := s0 }.pass message waits := by
  induction words generalizing message bus with
  | nil => exact ⟨_, [], .clear UInt32.zero_and, Bus.observe_eq_pass _ _ _⟩
  | cons w words ih =>
    rw [Bus.awaitMail, Bus.observe_eq_pass]
    by_cases hw : w &&& mask = 0
    · exact ⟨_, words, .clear hw, if_pos hw⟩
    · let read := { bus with mailStatus0 := words }.pass message [.read addr w]
      obtain ⟨waits, s0, hwaits, heq⟩ := ih read.1 read.2
      refine ⟨_, s0, .busy hw hwaits, (if_neg hw).trans (heq.trans ?_)⟩
      rw [Bus.pass_cons]
      rfl

/-- The mailbox and the devices after these accesses. -/
def pass (m : Mailbox) (bus : Bus) (accesses : List Access) : Mailbox × Bus :=
  ({ m with message := (bus.pass m.message accesses).1 }, (bus.pass m.message accesses).2)

theorem pass_append (m : Mailbox) (bus : Bus) (l l' : List Access) :
    m.pass bus (l ++ l') = (m.pass bus l).1.pass (m.pass bus l).2 l' := by
  rw [pass, Bus.pass_append]
  rfl

theorem hear_of_awaitMail {bus : Bus} {s0 : List UInt32}
    (h : Bus.awaitMail m.status0 mailEmpty bus.mailStatus0 m.message bus =
      { bus with mailStatus0 := s0 }.pass m.message waits) (rest : List UInt32) (a : Access) :
    m.hear rest a bus =
      m.pass { bus with mailStatus0 := s0, mailRead0 := rest } (waits ++ [a]) := by
  rw [hear, h, pass_append]
  simp only [Bus.observe_eq_pass]
  rfl

theorem exists_hear (m : Mailbox) (rest : List UInt32) (a : Access) (bus : Bus) :
    ∃ waits s0, Waits m.status0 mailEmpty waits ∧ m.hear rest a bus =
      m.pass { bus with mailStatus0 := s0, mailRead0 := rest } (waits ++ [a]) := by
  obtain ⟨waits, s0, hwaits, heq⟩ :=
    exists_awaitMail m.status0 mailEmpty bus.mailStatus0 m.message bus
  exact ⟨waits, s0, hwaits, hear_of_awaitMail heq rest a⟩

theorem awaitEcho_of_eq {w : UInt32} (hw : w = m.request) (rest : List UInt32) (bus : Bus) :
    awaitEcho (w :: rest) m bus = m.hear rest (.read m.read0 w) bus := if_pos hw

theorem awaitEcho_of_ne {w : UInt32} (hw : w ≠ m.request) (rest : List UInt32) (bus : Bus) :
    awaitEcho (w :: rest) m bus =
      awaitEcho rest (m.hear rest (.read m.read0 w) bus).1
        (m.hear rest (.read m.read0 w) bus).2 := if_neg hw

/-- Whatever words come in, they are listened to until the request is there. -/
theorem exists_awaitEcho (words : List UInt32) (m : Mailbox) (bus : Bus) :
    ∃ replies s0 r0, Listens m.status0 m.read0 m.request replies ∧
      awaitEcho words m bus = m.pass { bus with mailStatus0 := s0, mailRead0 := r0 } replies := by
  induction words generalizing m bus with
  | nil =>
    obtain ⟨waits, s0, hwaits, heq⟩ := exists_hear m [] (.echo m.read0 m.request) bus
    exact ⟨_, s0, [], .echo hwaits (.inr rfl), heq⟩
  | cons w words ih =>
    obtain ⟨waits, s0, hwaits, heq⟩ := exists_hear m words (.read m.read0 w) bus
    by_cases hw : w = m.request
    · refine ⟨_, s0, words, .echo hwaits (.inl (congrArg _ hw)), ?_⟩
      rw [awaitEcho_of_eq hw, heq]
    · let heard := m.pass { bus with mailStatus0 := s0, mailRead0 := words }
        (waits ++ [.read m.read0 w])
      obtain ⟨replies, s0', r0, hreplies, hrest⟩ := ih heard.1 heard.2
      refine ⟨_, s0', r0, .stale hwaits hw hreplies, ?_⟩
      rw [awaitEcho_of_ne hw, heq, List.append_cons waits _ replies, pass_append _ _ _ replies]
      exact hrest

theorem Waits.exists_awaitMail (h : Waits addr mask waits) :
    ∃ s0, ∀ rest message (bus : Bus), Bus.awaitMail addr mask (s0 ++ rest) message bus =
      { bus with mailStatus0 := rest }.pass message waits := by
  induction h with
  | @clear w hw =>
    refine ⟨[w], fun rest message bus => ?_⟩
    rw [List.singleton_append, Bus.awaitMail, Bus.observe_eq_pass]
    exact if_pos hw
  | @busy w waits hw _ ih =>
    obtain ⟨s0, hs0⟩ := ih
    refine ⟨w :: s0, fun rest message bus => ?_⟩
    rw [List.cons_append, Bus.awaitMail, Bus.observe_eq_pass, if_neg hw, hs0,
      Bus.pass_cons _ _ _ waits]
    rfl

/-- Anything that can be heard is heard from some device, whatever the firmware writes. -/
theorem Listens.exists_words {replies : List Access}
    (h : Listens m.status0 m.read0 m.request replies) :
    ∃ s0 words, ∀ message (bus : Bus), bus.mailStatus0 = s0 →
      (awaitEcho words { m with message := message } bus).2.trace =
        bus.trace ++ replies.toArray := by
  induction h with
  | @echo waits a hwaits ha =>
    obtain ⟨s0, hs0⟩ := hwaits.exists_awaitMail
    have hmail := hs0 []
    rw [List.append_nil] at hmail
    have hhear : ∀ message a (bus : Bus), bus.mailStatus0 = s0 →
        (hear { m with message := message } [] a bus).2.trace =
          bus.trace ++ (waits ++ [a]).toArray := fun message a bus hbus => by
      rw [hear_of_awaitMail (m := { m with message := message }) (hbus ▸ hmail message bus)]
      rfl
    rcases ha with rfl | rfl
    · refine ⟨s0, [m.request], fun message bus hbus => ?_⟩
      rw [awaitEcho_of_eq (m := { m with message := message }) (w := m.request) rfl]
      exact hhear message _ bus hbus
    · exact ⟨s0, [], fun message bus hbus => hhear message _ bus hbus⟩
  | @stale waits rest w hwaits hw _ ih =>
    obtain ⟨s0, hs0⟩ := hwaits.exists_awaitMail
    obtain ⟨s0', words, hrest⟩ := ih
    refine ⟨s0 ++ s0', w :: words, fun message bus hbus => ?_⟩
    rw [awaitEcho_of_ne (m := { m with message := message }) hw,
      hear_of_awaitMail (m := { m with message := message }) (hbus ▸ hs0 s0' message bus)]
    refine (hrest _ _ rfl).trans ?_
    simp [pass, Bus.pass]
    rfl

/-! ## The whole exchange -/

/-- The accesses of an exchange: there is room, the request is posted with this message, and it is
listened for. -/
def Handshake (m : Mailbox) (message : Message) (accesses : List Access) : Prop :=
  ∃ waits replies, Waits m.status1 mailFull waits ∧ Listens m.status0 m.read0 m.request replies ∧
    accesses = waits ++ .post m.write1 m.request message :: replies

theorem answer_eq (bus : Bus) (message : Message) : bus.answer message =
    (message.setWords (bus.replies.headD []), { bus with replies := bus.replies.tail }) := by
  rw [Bus.answer]
  obtain ⟨flags, s0, s1, r0, replies, rewrites, pins, trace⟩ := bus
  cases replies <;> rfl

/-- Whatever the device does, an exchange is a handshake for the message that is in the buffer, and
leaves there what the firmware has made of it by the last access. -/
theorem exists_exchange (m : Mailbox) (bus : Bus) : ∃ before after,
    m.Handshake m.message (before ++ .post m.write1 m.request m.message :: after) ∧
      (m.exchange bus).2.trace =
        bus.trace ++ (before ++ .post m.write1 m.request m.message :: after).toArray ∧
      (m.exchange bus).2.rewrites = bus.rewrites.drop after.length ∧
      (m.exchange bus).1 = { m with
        message := m.message.setWords
          (bus.replies.headD [] ++ (bus.rewrites.take after.length).flatten) } := by
  obtain ⟨waits, s1, hwaits, heq⟩ := exists_awaitRoom bus m.status1 mailFull
  let posted : Bus :=
    { bus with
      mailStatus1 := s1
      replies := bus.replies.tail
      trace := (bus.trace ++ waits.toArray).push (.post m.write1 m.request m.message) }
  let answered : Mailbox := { m with message := m.message.setWords (bus.replies.headD []) }
  obtain ⟨replies, s0, r0, hreplies, hecho⟩ := exists_awaitEcho bus.mailRead0 answered posted
  have hexchange : m.exchange bus =
      answered.pass { posted with mailStatus0 := s0, mailRead0 := r0 } replies := by
    rw [exchange, heq, answer_eq]
    exact hecho
  refine ⟨waits, replies, ⟨waits, replies, hwaits, hreplies, rfl⟩, ?_, ?_, ?_⟩ <;> rw [hexchange]
  · simp [posted, pass, Bus.pass]
  · rfl
  · simp [answered, posted, pass, Bus.pass, Message.setWords_append]

/-- Any handshake takes place with some device, whatever the firmware writes and when. -/
theorem Handshake.exists_exchange (h : m.Handshake m.message accesses)
    (replies rewrites : List (List (Nat × UInt32))) :
    ∃ bus : Bus, bus.replies = replies ∧ bus.rewrites = rewrites ∧
      (m.exchange bus).2.trace = bus.trace ++ accesses.toArray := by
  obtain ⟨waits, heard, hwaits, hheard, rfl⟩ := h
  obtain ⟨s1, hs1⟩ := hwaits.exists_words
  obtain ⟨s0, words, hs0⟩ := hheard.exists_words
  let bus : Bus :=
    { mailStatus0 := s0
      mailStatus1 := s1
      mailRead0 := words
      replies := replies
      rewrites := rewrites }
  have hroom : bus.awaitRoom m.status1 mailFull =
      { bus with mailStatus1 := [], trace := waits.toArray } := by
    have hwords := hs1 [] #[]
    rw [List.append_nil, Array.empty_append] at hwords
    rw [Bus.awaitRoom, hwords]
  refine ⟨bus, rfl, rfl, ?_⟩
  rw [exchange, hroom, answer_eq]
  refine (hs0 _ _ rfl).trans ?_
  simp [bus, Bus.record]

/-! ## What a handshake keeps to -/

/-- A word is read only right after the status said that there is one. -/
def Awaited (status0 read0 : Nat) (accesses : List Access) : Prop :=
  ∀ before a after w, accesses = before ++ a :: after → a.Reads read0 w →
    ∃ front v, before = front ++ [.read status0 v] ∧ v &&& mailEmpty = 0

/-- One request, posted right after there was room for it, and nothing else written; no word read
that was not waited for; and no access after the first word that repeats the request. -/
structure Kept (m : Mailbox) (message : Message) (accesses : List Access) : Prop where
  posted : ∃ before w after,
    accesses = before ++ .read m.status1 w :: .post m.write1 m.request message :: after ∧
      w &&& mailFull = 0 ∧ (∀ a ∈ before, a.IsRead) ∧ ∀ a ∈ after, a.IsRead
  awaited : Awaited m.status0 m.read0 accesses
  ended : ∃ front last, accesses = front ++ [last] ∧ last.Reads m.read0 m.request ∧
    ∀ a ∈ front, ¬a.Reads m.read0 m.request

section

variable {status0 read0 : Nat} {request : UInt32} {l l' : List Access} {a : Access}

theorem not_reads_of_ne {addr addr' : Nat} {v w : UInt32} (hne : addr ≠ addr') :
    ¬(Access.read addr v).Reads addr' w := by
  rintro (h | h)
  · exact hne (Access.read.inj h).1
  · cases h

theorem Waits.not_reads (h : Waits addr mask waits) (hne : addr ≠ read0) :
    ∀ a ∈ waits, ∀ w, ¬a.Reads read0 w := by
  intro a ha w
  obtain ⟨v, rfl⟩ := h.mem a ha
  exact not_reads_of_ne hne

theorem Waits.isRead (h : Waits addr mask waits) : ∀ a ∈ waits, a.IsRead := by
  intro a ha
  obtain ⟨v, rfl⟩ := h.mem a ha
  trivial

theorem awaited_of_not_reads (h : ∀ a ∈ l, ∀ w, ¬a.Reads read0 w) : Awaited status0 read0 l := by
  rintro before a after w rfl ha
  exact absurd ha (h a (by simp) w)

theorem Awaited.append (h : Awaited status0 read0 l) (h' : Awaited status0 read0 l') :
    Awaited status0 read0 (l ++ l') := by
  intro before a after w heq ha
  rcases List.append_eq_append_iff.mp heq with ⟨mid, rfl, hl'⟩ | ⟨mid, hl, hrest⟩
  · obtain ⟨front, v, rfl, hv⟩ := h' mid a after w hl' ha
    exact ⟨l ++ front, v, (List.append_assoc _ _ _).symm, hv⟩
  · cases mid with
    | nil =>
      obtain ⟨front, v, hnil, -⟩ := h' [] a after w hrest.symm ha
      exact absurd hnil.symm (by simp)
    | cons b mid =>
      obtain ⟨rfl, rfl⟩ := List.cons.inj hrest
      exact h before a mid w hl ha

/-- A wait for a word, and the word. -/
theorem Waits.awaited (h : Waits status0 mailEmpty waits) (hne : status0 ≠ read0) (a : Access) :
    Awaited status0 read0 (waits ++ [a]) := by
  intro before b after w heq hb
  rcases List.eq_nil_or_concat after with rfl | ⟨after, c, rfl⟩
  · obtain ⟨rfl, -⟩ := List.append_inj' heq rfl
    exact h.exists_last
  · rw [List.concat_eq_append, ← List.cons_append, ← List.append_assoc] at heq
    obtain ⟨rfl, -⟩ := List.append_inj' heq rfl
    exact absurd hb (h.not_reads hne b (by simp) w)

theorem Listens.awaited (h : Listens status0 read0 request replies) (hne : status0 ≠ read0) :
    Awaited status0 read0 replies := by
  induction h with
  | echo hwaits _ => exact hwaits.awaited hne _
  | stale hwaits _ _ ih =>
    rw [← List.singleton_append, ← List.append_assoc]
    exact (hwaits.awaited hne _).append ih

theorem Listens.isRead (h : Listens status0 read0 request replies) : ∀ a ∈ replies, a.IsRead := by
  induction h with
  | echo hwaits ha => simpa [or_imp, forall_and] using ⟨hwaits.isRead, ha.isRead⟩
  | stale hwaits _ _ ih => simpa [or_imp, forall_and] using ⟨hwaits.isRead, trivial, ih⟩

theorem Listens.ended (h : Listens status0 read0 request replies) (hne : status0 ≠ read0) :
    ∃ front last, replies = front ++ [last] ∧ last.Reads read0 request ∧
      ∀ a ∈ front, ¬a.Reads read0 request := by
  induction h with
  | echo hwaits ha => exact ⟨_, _, rfl, ha, fun a ha => hwaits.not_reads hne a ha _⟩
  | @stale waits rest w hwaits hw _ ih =>
    obtain ⟨front, last, rfl, hlast, hfront⟩ := ih
    refine ⟨waits ++ .read read0 w :: front, last, by simp, hlast, fun a ha => ?_⟩
    rcases List.mem_append.mp ha with ha | ha
    · exact hwaits.not_reads hne a ha _
    rcases List.mem_cons.mp ha with rfl | ha
    · rintro (h | h)
      · exact hw (Access.read.inj h).2
      · cases h
    · exact hfront a ha

end

theorem Handshake.kept (h : m.Handshake message accesses) : m.Kept message accesses := by
  obtain ⟨waits, replies, hwaits, hreplies, rfl⟩ := h
  have hstatus0 : m.status0 ≠ m.read0 := by
    unfold status0 read0
    omega
  have hstatus1 : m.status1 ≠ m.read0 := by
    unfold status1 read0
    omega
  have hpost : ∀ w, ¬(Access.post m.write1 m.request message).Reads m.read0 w := by
    rintro w (h | h) <;> cases h
  constructor
  case posted =>
    obtain ⟨before, w, rfl, hw⟩ := hwaits.exists_last
    refine ⟨before, w, replies, by simp, hw, fun a ha => ?_, hreplies.isRead⟩
    exact hwaits.isRead a (List.mem_append_left _ ha)
  case awaited =>
    have hfirst : Awaited m.status0 m.read0 (waits ++ [.post m.write1 m.request message]) := by
      refine (awaited_of_not_reads (hwaits.not_reads hstatus1)).append (awaited_of_not_reads ?_)
      simpa using hpost
    rw [← List.singleton_append, ← List.append_assoc]
    exact hfirst.append (hreplies.awaited hstatus0)
  case ended =>
    obtain ⟨front, last, rfl, hlast, hfront⟩ := hreplies.ended hstatus0
    refine ⟨waits ++ .post m.write1 m.request message :: front, last, by simp, hlast, ?_⟩
    intro a ha
    rcases List.mem_append.mp ha with ha | ha
    · exact hwaits.not_reads hstatus1 a ha _
    rcases List.mem_cons.mp ha with rfl | ha
    · exact hpost _
    · exact hfront a ha

/-! ## A call -/

/-- The address of the message with the channel in place of its four lowest bits. -/
theorem toNat_request (m : Mailbox) :
    m.request.toNat = m.buffer.toNat / 16 * 16 + propertyChannel.toNat := by
  have hclear : m.buffer.toNat &&& (2 ^ 28 - 1) <<< 4 = (m.buffer.toNat >>> 4) <<< 4 := by
    have hlt : m.buffer.toNat < 2 ^ 32 := m.buffer.toNat_lt
    refine Nat.eq_of_testBit_eq fun i => ?_
    rw [Nat.testBit_and, Nat.testBit_shiftLeft, Nat.testBit_shiftLeft, Nat.testBit_shiftRight,
      Nat.testBit_two_pow_sub_one]
    by_cases hi : 4 ≤ i
    · by_cases hi' : i < 32
      · simp [hi, show i - 4 < 28 by omega]
      · have hle : 2 ^ 32 ≤ 2 ^ i := Nat.pow_le_pow_right (by decide) (Nat.le_of_not_lt hi')
        simp [hi, Nat.testBit_eq_false_of_lt (Nat.lt_of_lt_of_le hlt hle)]
    · simp [hi]
  change m.buffer.toNat &&& (2 ^ 28 - 1) <<< 4 ||| 8 = _
  rw [hclear, ← Nat.shiftLeft_add_eq_or_of_lt (by decide), Nat.shiftLeft_eq,
    Nat.shiftRight_eq_div_pow]
  rfl

section

variable {tag : UInt32} {values : List UInt32}

theorem call_of_lt (h : maxValueWords < values.length) (m : Mailbox) (bus : Bus) :
    call tag values m bus = (.error .messageTooLong, m, bus) := by
  rw [call, Message.encode_of_lt h]

theorem call_of_encode (h : Message.encode tag values = .ok message) (m : Mailbox) (bus : Bus) :
    call tag values m bus =
      let done := exchange { m with message := message } bus
      (done.1.message.decode values, done.1, done.2) := by
  rw [call, h]

/-- A call is a handshake for its own request, whatever was left in the buffer, and its answer is
what the firmware has made of that by the last access. -/
theorem exists_call (tag : UInt32) (h : values.length ≤ maxValueWords) (m : Mailbox) (bus : Bus) :
    ∃ message before after, Message.encode tag values = .ok message ∧
      m.Handshake message (before ++ .post m.write1 m.request message :: after) ∧
      (call tag values m bus).2.2.trace =
        bus.trace ++ (before ++ .post m.write1 m.request message :: after).toArray ∧
      (call tag values m bus).2.2.rewrites = bus.rewrites.drop after.length ∧
      (call tag values m bus).2.1 = { m with
        message := message.setWords
          (bus.replies.headD [] ++ (bus.rewrites.take after.length).flatten) } ∧
      (call tag values m bus).1 = (call tag values m bus).2.1.message.decode values := by
  obtain ⟨message, hm, -⟩ := Message.exists_encode tag h
  obtain ⟨before, after, hhandshake, htrace, hrewrites, hmailbox⟩ :=
    exists_exchange { m with message := message } bus
  rw [call_of_encode hm]
  exact ⟨message, before, after, hm, hhandshake, htrace, hrewrites, hmailbox, rfl⟩

/-- Any handshake for a call's request takes place with some device, whatever the firmware writes
and when. -/
theorem Handshake.exists_call (h : m.Handshake message accesses)
    (hm : Message.encode tag values = .ok message) (replies rewrites : List (List (Nat × UInt32))) :
    ∃ bus : Bus, bus.replies = replies ∧ bus.rewrites = rewrites ∧
      (call tag values m bus).2.2.trace = bus.trace ++ accesses.toArray := by
  rw [show m.Handshake message = Handshake { m with message := message } message from rfl] at h
  obtain ⟨bus, hreplies, hrewrites, htrace⟩ := Handshake.exists_exchange h replies rewrites
  refine ⟨bus, hreplies, hrewrites, ?_⟩
  rw [call_of_encode hm]
  exact htrace

end

/-- An answer that is written only by the time of the echo, the second word that comes in. -/
example : (call tagFirmwareRevision [0] ⟨0x3F00B880, 0x1000, .blank⟩
    { mailStatus0 := [0x40000000, 0, 0]
      mailRead0 := [0x2008, 0x1008]
      rewrites := [[], [(1, 0x80000001)], [], [], [(1, 0x80000000), (4, 0x80000004), (5, 7)]] }).1 =
    .ok [7] := rfl

end BareKernel.Firmware.Mailbox
