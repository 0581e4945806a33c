import BareKernel.Kernel.Notice

def main : IO UInt32 := do
  (← IO.getStderr).putStr BareKernel.Kernel.notice
  return 0
