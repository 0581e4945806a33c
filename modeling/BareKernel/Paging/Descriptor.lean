import BareKernel.Board.Processor
import BareKernel.Text.Hex

/-! Page table entries: 64 bits that either map a block of memory with its attributes or
point at the next table. -/

namespace BareKernel.Paging

inductive Fault where
  | cacheableAbovePeripherals
  | cacheableUnaligned
  | sumTooLarge
  | indexOutside (len index : Nat)
  | tableUnaligned
  deriving DecidableEq, Repr

def Fault.message : Fault → String
  | cacheableAbovePeripherals => "assertion failed: cacheable_end <= peripheral_base"
  | cacheableUnaligned => "assertion failed: cacheable_end % BLOCK_SIZE == 0"
  | sumTooLarge => "attempt to add with overflow"
  | indexOutside len index =>
    "index out of bounds: the len is " ++ toString len ++ " but the index is " ++ toString index
  | tableUnaligned => "next-level table must be 4 KB aligned"

inductive EntryKind where
  | invalid
  | block
  | table
  deriving DecidableEq, Repr

inductive Shareability where
  | nonShareable
  | outerShareable
  | innerShareable
  deriving DecidableEq, Repr

namespace Shareability

def bits : Shareability → BitVec 2
  | nonShareable => 0b00
  | outerShareable => 0b10
  | innerShareable => 0b11

/-- One of the four patterns is reserved. -/
def ofBits? (b : BitVec 2) : Option Shareability :=
  if b = 0b00 then some nonShareable
  else if b = 0b10 then some outerShareable
  else if b = 0b11 then some innerShareable
  else none

def name : Shareability → String
  | nonShareable => "NonShareable"
  | outerShareable => "OuterShareable"
  | innerShareable => "InnerShareable"

theorem ofBits?_bits (s : Shareability) : ofBits? s.bits = some s := by cases s <;> rfl

end Shareability

inductive MemoryClass where
  | normalCacheable
  | normalNonCacheable
  | device
  deriving DecidableEq, Repr

/-- The class that a memory attribute slot selects. -/
def MemoryClass.ofSlot? (slot : Nat) : Option MemoryClass :=
  if slot = Board.Processor.normalCacheable then some normalCacheable
  else if slot = Board.Processor.normalNonCacheable then some normalNonCacheable
  else if slot ≤ Board.Processor.deviceGathering then some device
  else none

/-- The attributes of a block, each as wide as its field. -/
structure BlockAttributes where
  slot : BitVec 3
  shareability : Shareability
  accessFlag : Bool
  accessPermissions : BitVec 2
  notGlobal : Bool
  privilegedExecuteNever : Bool
  executeNever : Bool
  deriving DecidableEq, Repr

/-- Readable and writable by the kernel, executable, and global. -/
def BlockAttributes.ofClass (c : MemoryClass) : BlockAttributes where
  slot :=
    match c with
    | .normalCacheable => BitVec.ofNat 3 Board.Processor.normalCacheable
    | .normalNonCacheable => BitVec.ofNat 3 Board.Processor.normalNonCacheable
    | .device => BitVec.ofNat 3 Board.Processor.deviceStrict
  shareability := if c = .normalCacheable then .innerShareable else .nonShareable
  accessFlag := true
  accessPermissions := 0b00
  notGlobal := false
  privilegedExecuteNever := false
  executeNever := false

/-- A field of an entry: its lowest bit and its width. -/
structure Field where
  offset : Nat
  width : Nat

namespace Field

def valid : Field := ⟨0, 1⟩
def type : Field := ⟨1, 1⟩
def slot : Field := ⟨2, 3⟩
def accessPermissions : Field := ⟨6, 2⟩
def shareability : Field := ⟨8, 2⟩
def accessFlag : Field := ⟨10, 1⟩
def notGlobal : Field := ⟨11, 1⟩
def address : Field := ⟨12, 36⟩
def privilegedExecuteNever : Field := ⟨53, 1⟩
def executeNever : Field := ⟨54, 1⟩
def nonSecureTable : Field := ⟨63, 1⟩

def get (f : Field) (raw : BitVec 64) : BitVec f.width := raw.extractLsb' f.offset f.width

def put (f : Field) (v : BitVec f.width) : BitVec 64 := v.setWidth 64 <<< f.offset

end Field

@[ext] structure Descriptor where
  raw : BitVec 64
  deriving DecidableEq, Repr

namespace Descriptor

def invalid : Descriptor := ⟨0⟩

def flag (f : Field) (d : Descriptor) : Bool := f.get d.raw ≠ 0

def isValid (d : Descriptor) : Bool := d.flag .valid

def kind (d : Descriptor) : EntryKind :=
  if !d.isValid then .invalid else if d.flag .type then .table else .block

/-- Bits 12 to 47, with zeros below. -/
def address (d : Descriptor) : BitVec 64 := Field.address.put (Field.address.get d.raw)

def nextTable (d : Descriptor) : Option (BitVec 64) :=
  if d.kind = .table then some d.address else none

def output (d : Descriptor) : Option (BitVec 64) :=
  if d.kind = .block then some d.address else none

def slot (d : Descriptor) : BitVec 3 := Field.slot.get d.raw

def shareability (d : Descriptor) : Option Shareability :=
  Shareability.ofBits? (Field.shareability.get d.raw)

def accessFlag (d : Descriptor) : Bool := d.flag .accessFlag

def accessPermissions (d : Descriptor) : BitVec 2 := Field.accessPermissions.get d.raw

def notGlobal (d : Descriptor) : Bool := d.flag .notGlobal

def privilegedExecuteNever (d : Descriptor) : Bool := d.flag .privilegedExecuteNever

def executeNever (d : Descriptor) : Bool := d.flag .executeNever

def nonSecureTable (d : Descriptor) : Bool := d.flag .nonSecureTable

/-- A block entry for the memory at `output`; bits outside its address field are dropped. -/
def block (output : BitVec 64) (a : BlockAttributes) : Descriptor :=
  ⟨Field.valid.put 1 ||| Field.slot.put a.slot |||
    Field.accessPermissions.put a.accessPermissions |||
    Field.shareability.put a.shareability.bits |||
    Field.accessFlag.put (BitVec.ofBool a.accessFlag) |||
    Field.notGlobal.put (BitVec.ofBool a.notGlobal) |||
    Field.address.put (Field.address.get output) |||
    Field.privilegedExecuteNever.put (BitVec.ofBool a.privilegedExecuteNever) |||
    Field.executeNever.put (BitVec.ofBool a.executeNever)⟩

/-- An entry for the next table, which is marked non-secure and must lie on a 4 KB boundary. -/
def table (next : BitVec 64) : Except Fault Descriptor :=
  if next.setWidth 12 ≠ 0 then .error .tableUnaligned
  else
    .ok ⟨Field.valid.put 1 ||| Field.type.put 1 ||| Field.address.put (Field.address.get next) |||
      Field.nonSecureTable.put 1⟩

/-- Nothing for an entry that is no block, and for the reserved shareability. -/
def blockAttributes (d : Descriptor) : Option BlockAttributes :=
  if d.kind = .block then
    d.shareability.map fun s =>
      { slot := d.slot
        shareability := s
        accessFlag := d.accessFlag
        accessPermissions := d.accessPermissions
        notGlobal := d.notGlobal
        privilegedExecuteNever := d.privilegedExecuteNever
        executeNever := d.executeNever }
  else none

def memoryClass (d : Descriptor) : Option MemoryClass :=
  if d.kind = .block then MemoryClass.ofSlot? d.slot.toNat else none

def text (d : Descriptor) : String :=
  match d.kind with
  | .invalid => "Desc::Invalid"
  | .table => "Desc::Table(" ++ Text.hex d.address.toNat ++ ")"
  | .block =>
    let sh := match d.shareability with
      | some s => "Some(" ++ s.name ++ ")"
      | none => "None"
    "Desc::Block(" ++ Text.hex d.address.toNat ++ ", attr=" ++ toString d.slot.toNat ++
      ", sh=" ++ sh ++ ", af=" ++ Text.yesNo d.accessFlag ++ ")"

end Descriptor

end BareKernel.Paging
