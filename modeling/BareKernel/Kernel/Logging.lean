import BareKernel.Kernel.Console
import BareKernel.Kernel.Settings
import BareKernel.Log.Line

/-! Logging to the console: each record is one line, formatted before it goes out, and one call
of the console. -/

namespace BareKernel.Kernel

def setUpLogging : Code Unit := call (.setLogLimit logLevel)

/-- The logger as it is once set up; nothing happens before. -/
def logLine (r : Log.Record) : Code Unit := do
  if (← call .readLogLimit).isSome && r.level.isWithin logLevel then
    put (r.line Board.Processor.coreId logLineBytes).text

/-- Log a record that is within the limit. -/
def log (r : Log.Record) : Code Unit := do
  if (← call .readLogLimit).any fun limit => r.level.isWithin limit then logLine r

end BareKernel.Kernel
