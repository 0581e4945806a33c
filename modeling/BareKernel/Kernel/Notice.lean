/-! What the program says when it is started as an ordinary process. -/

namespace BareKernel.Kernel

def notice : String :=
  "cinder-kernel is a bare-metal image; build it for aarch64-unknown-none\n"

end BareKernel.Kernel
