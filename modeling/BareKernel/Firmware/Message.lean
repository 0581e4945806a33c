import BareKernel.Text.Hex

/-! Property messages: 32-bit words that carry one tag to the firmware and its answer back.
Word 0 is the size in bytes, 1 the request or response code, 2 the tag, 3 the size of the values
in bytes, 4 the tag's own response code; the values follow, and a zero ends the list of tags. -/

namespace BareKernel.Firmware

def responseSuccess : UInt32 := 0x80000000

def responseError : UInt32 := 0x80000001

/-- Set in word 4 when the firmware has answered the tag. -/
def tagResponse : UInt32 := 0x80000000

def maxValueWords : Nat := 29

def headerWords : Nat := 5

def messageWords : Nat := headerWords + maxValueWords + 1

inductive Error where
  | messageTooLong
  | rejected (code : UInt32)
  | tagNotAcknowledged
  deriving DecidableEq, Repr

def Error.message : Error → String
  | messageTooLong => "property message too long"
  | rejected code => "firmware rejected request (code " ++ Text.hex code.toNat ++ ")"
  | tagNotAcknowledged => "tag not acknowledged"

structure Message where
  words : List UInt32
  length_eq : words.length = messageWords

namespace Message

def blank : Message := ⟨List.replicate messageWords 0, by simp⟩

def word (m : Message) (i : Nat) : UInt32 := m.words.getD i 0

/-- An index past the end changes nothing. -/
def setWord (m : Message) (i : Nat) (w : UInt32) : Message :=
  ⟨m.words.set i w, by simpa using m.length_eq⟩

/-- Write these words, each at its index, one after another. -/
def setWords (m : Message) (words : List (Nat × UInt32)) : Message :=
  words.foldl (fun m w => m.setWord w.1 w.2) m

def encode (tag : UInt32) (values : List UInt32) : Except Error Message :=
  let n := values.length
  if h : n ≤ maxValueWords then
    .ok ⟨[UInt32.ofNat (4 * (headerWords + n + 1)), 0, tag, UInt32.ofNat (4 * n), 0] ++ values ++
      List.replicate (maxValueWords + 1 - n) 0, by
        simp only [List.length_append, List.length_cons, List.length_nil, List.length_replicate,
          messageWords, headerWords]
        omega⟩
  else .error .messageTooLong

/-- The values that a caller with these old values ends up with: the firmware's words in front, as
many as fit, and the old ones behind them. -/
def decode (m : Message) (old : List UInt32) : Except Error (List UInt32) :=
  if m.word 1 ≠ responseSuccess then .error (.rejected (m.word 1))
  else if m.word 4 &&& tagResponse = 0 then .error .tagNotAcknowledged
  else
    let n := min old.length maxValueWords
    .ok ((m.words.drop headerWords).take n ++ old.drop n)

end Message

/-! ## Tags -/

def tagFirmwareRevision : UInt32 := 0x00000001

def tagArmMemory : UInt32 := 0x00010005

def tagVideoMemory : UInt32 := 0x00010006

/-! ## Calls -/

/-- One call to the firmware: a tag with the caller's values in, the caller's values after the call
out. An error leaves the values alone. -/
abbrev Channel (m : Type → Type) := UInt32 → List UInt32 → m (Except Error (List UInt32))

structure MemoryWindow where
  base : Nat
  size : Nat
  deriving DecidableEq, Repr

def MemoryWindow.text (w : MemoryWindow) : String :=
  "MemoryWindow \x7b base: " ++ toString w.base ++ ", size: " ++ toString w.size ++ " \x7d"

/-- The first two values of an answer. -/
def MemoryWindow.ofValues (values : List UInt32) : MemoryWindow where
  base := (values.getD 0 0).toNat
  size := (values.getD 1 0).toNat

/-- Where the co-processor's memory starts; everything below belongs to the cores. -/
def videoMemory {m : Type → Type} [Monad m] (channel : Channel m) :
    m (Except Error MemoryWindow) := do
  return (← channel tagVideoMemory [0, 0]).map .ofValues

end BareKernel.Firmware
