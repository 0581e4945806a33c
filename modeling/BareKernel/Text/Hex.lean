/-! Hexadecimal text, the one form in which the kernel prints addresses and codes. -/

namespace BareKernel.Text

/-- Lower case, marked with 0x, no leading zeros. -/
def hex (n : Nat) : String := "0x" ++ String.ofList (Nat.toDigits 16 n)

def yesNo (b : Bool) : String := if b then "true" else "false"

end BareKernel.Text
