/-! A line of bounded size. Text is copied in whole characters as far as it fits; what does not
fit is dropped and remembered, and a line that was cut can still be given its newline. -/

namespace BareKernel.Log

structure LineBuffer where
  capacity : Nat
  bytes : List UInt8 := []
  /-- Something was dropped for lack of space. -/
  isTruncated : Bool := false
  deriving DecidableEq, Repr

namespace LineBuffer

/-- Inside a character, not at its first byte. -/
def isContinuation (b : UInt8) : Bool := b &&& 0xC0 = 0x80

/-- A character starts at position `i`, or the text ends there. -/
def isBoundary (bytes : List UInt8) (i : Nat) : Bool := !bytes[i]?.any isContinuation

/-- The last boundary that is not after position `n`. -/
def boundaryUpTo (bytes : List UInt8) : Nat → Nat
  | 0 => 0
  | n + 1 => if isBoundary bytes (n + 1) then n + 1 else boundaryUpTo bytes n

def length (l : LineBuffer) : Nat := l.bytes.length

def isEmpty (l : LineBuffer) : Bool := l.bytes.isEmpty

def append (l : LineBuffer) (bytes : List UInt8) : LineBuffer :=
  let room := l.capacity - l.length
  let n := boundaryUpTo bytes (min bytes.length room)
  { l with
    bytes := l.bytes ++ bytes.take n
    isTruncated := l.isTruncated || n < bytes.length }

def write (l : LineBuffer) (s : String) : LineBuffer := l.append s.toUTF8.toList

def newline : UInt8 := 10

/-- Put a newline in place of the last character of a line that was cut. -/
def terminate (l : LineBuffer) : LineBuffer :=
  if l.isTruncated && !l.isEmpty then
    { l with bytes := l.bytes.take (boundaryUpTo l.bytes (l.length - 1)) ++ [newline] }
  else l

def invalidText : String := "<invalid>"

def text (l : LineBuffer) : String := (String.fromUTF8? ⟨l.bytes.toArray⟩).getD invalidText

end LineBuffer

end BareKernel.Log
