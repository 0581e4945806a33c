/-! A value that is read and changed by single operations. Sums and differences wrap as the
value's own type does. -/

namespace BareKernel.Sync

structure AtomicCell (α : Type) where
  value : α
  deriving DecidableEq, Repr

namespace AtomicCell

variable {α : Type}

def load (c : AtomicCell α) : α := c.value

def store (_ : AtomicCell α) (v : α) : AtomicCell α := ⟨v⟩

/-- The old value and the new cell. -/
def exchange (c : AtomicCell α) (v : α) : α × AtomicCell α := (c.value, ⟨v⟩)

/-- The value before the addition. -/
def fetchAdd [Add α] (c : AtomicCell α) (v : α) : α × AtomicCell α := (c.value, ⟨c.value + v⟩)

/-- The value after the addition. -/
def addFetch [Add α] (c : AtomicCell α) (v : α) : α × AtomicCell α :=
  let (old, c) := c.fetchAdd v
  (old + v, c)

/-- The value before the subtraction. -/
def fetchSub [Sub α] (c : AtomicCell α) (v : α) : α × AtomicCell α := (c.value, ⟨c.value - v⟩)

/-- The value after the subtraction. -/
def subFetch [Sub α] (c : AtomicCell α) (v : α) : α × AtomicCell α :=
  let (old, c) := c.fetchSub v
  (old - v, c)

def text (showValue : α → String) (c : AtomicCell α) : String :=
  "AtomicCell(" ++ showValue c.value ++ ")"

end AtomicCell

end BareKernel.Sync
