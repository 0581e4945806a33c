import BareKernel.Log.LineBuffer
import BareKernel.Log.Record

/-! A record as a line for the console: the core, the level in its colour, the target and the
message. -/

namespace BareKernel.Log

namespace Level

def colour : Level → Nat
  | error => 31
  | warn => 33
  | info => 32
  | debug => 34
  | trace => 35

/-- Five characters wide, between the terminal's colour codes. -/
def badge (l : Level) : String :=
  let pad := if l.name.length < 5 then " " else ""
  "\x1b[" ++ toString l.colour ++ "m" ++ pad ++ l.name ++ "\x1b[0m"

end Level

namespace Record

/-- The pieces of the whole line, in the order in which they are written. -/
def linePieces (r : Record) (core : Nat) : List String :=
  ["[core ", toString core, "] ", r.level.badge, " ", r.target, ": "] ++ r.pieces ++ ["\n"]

def line (r : Record) (core capacity : Nat) : LineBuffer :=
  ((r.linePieces core).foldl LineBuffer.write { capacity := capacity }).terminate

end Record

end BareKernel.Log
