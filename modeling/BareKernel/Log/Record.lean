/-! Log records. A message is kept as the pieces its formatter writes one after another, because
a bounded line can be cut between two pieces and still take a later one. -/

namespace BareKernel.Log

inductive Level where
  | error
  | warn
  | info
  | debug
  | trace
  deriving DecidableEq, Repr

namespace Level

def name : Level → String
  | error => "ERROR"
  | warn => "WARN"
  | info => "INFO"
  | debug => "DEBUG"
  | trace => "TRACE"

/-- A larger rank is more verbose. -/
def rank : Level → Nat
  | error => 1
  | warn => 2
  | info => 3
  | debug => 4
  | trace => 5

def isWithin (l limit : Level) : Bool := l.rank ≤ limit.rank

def ofName? : String → Option Level
  | "ERROR" => some error
  | "WARN" => some warn
  | "INFO" => some info
  | "DEBUG" => some debug
  | "TRACE" => some trace
  | _ => none

end Level

structure Record where
  level : Level
  target : String
  pieces : List String
  deriving DecidableEq, Repr

namespace Record

def message (r : Record) : String := String.join r.pieces

def text (r : Record) : String := r.level.name ++ " " ++ r.target ++ ": " ++ r.message

end Record

end BareKernel.Log
