import BareKernel.Text.Hex

/-! Why a heap operation does not succeed. An `Error` is reported to the caller; a `Fault` is an
access or a sum that damaged metadata asked for and the heap refused to carry out; a `Fatal` is
what stops the core. -/

namespace BareKernel.Heap

inductive Error where
  | alreadyInitialised
  | notInitialised
  | arenaTooSmall
  | misaligned
  | foreignPointer
  | indexOutOfRange
  | corruptBlock
  | doubleFree
  | freeListCorrupt
  | uncoalesced
  deriving DecidableEq, Repr

namespace Error

def message : Error → String
  | alreadyInitialised => "heap already initialised"
  | notInitialised => "heap not initialised"
  | arenaTooSmall => "arena too small"
  | misaligned => "arena base misaligned"
  | foreignPointer => "pointer not allocated from this heap"
  | indexOutOfRange => "block index out of range"
  | corruptBlock => "block header/footer mismatch"
  | doubleFree => "double free"
  | freeListCorrupt => "free list corrupted"
  | uncoalesced => "adjacent free blocks"

/-- The metadata is damaged, or the caller's pointer would damage it. -/
def isCorruption : Error → Bool
  | alreadyInitialised | notInitialised | arenaTooSmall | misaligned => false
  | _ => true

/-- Every error, in the order in which they are declared. -/
def all : List Error :=
  [alreadyInitialised, notInitialised, arenaTooSmall, misaligned, foreignPointer, indexOutOfRange,
    corruptBlock, doubleFree, freeListCorrupt, uncoalesced]

end Error

inductive Fault where
  | outsideArena
  | sumTooLarge
  | blockTooSmall
  deriving DecidableEq, Repr

def Fault.message : Fault → String
  | outsideArena => "assertion failed: index < self.len"
  | sumTooLarge => "attempt to add with overflow"
  | blockTooSmall => "assertion failed: size >= 2"

inductive Failure where
  | error (e : Error)
  | fault (f : Fault)
  deriving DecidableEq, Repr

inductive Fatal where
  | fault (f : Fault)
  | corruptOnAllocate (e : Error)
  | corruptOnFree (addr : Nat) (e : Error)
  | unsupportedAlignment (align : Nat)
  | outOfMemory (bytes : Nat)
  deriving DecidableEq, Repr

def Fatal.message : Fatal → String
  | fault f => f.message
  | corruptOnAllocate e => "heap corruption during allocate: " ++ e.message
  | corruptOnFree addr e =>
    "heap corruption during free of " ++ Text.hex addr ++ ": " ++ e.message
  | unsupportedAlignment align =>
    "alloc_object: alignment " ++ toString align ++ " unsupported"
  | outOfMemory bytes => "out of memory allocating " ++ toString bytes ++ " bytes"

end BareKernel.Heap
