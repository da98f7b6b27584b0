import Mathlib.Logic.Basic
set_option autoImplicit false

namespace VkMiner

/-- A NUL-free byte string, as C and `std::string` carry text here. -/
abbrev CStr := List UInt8

def ascii (s : String) : CStr := s.toList.map (fun c => UInt8.ofNat c.toNat)

theorem ascii_ofList (l : List Char) :
    ascii (String.ofList l) = l.map (fun c => UInt8.ofNat c.toNat) := by
  rw [ascii,String.toList_ofList]

/-- `std::to_string`, and `%d` of a value that is not negative. -/
def decimal (n : Nat) : CStr := ascii (toString n)

def tolower (b : UInt8) : UInt8 := if 65 ≤ b ∧ b ≤ 90 then b+32 else b

end VkMiner
