import VkMiner.Core.Text
import VkMiner.Lib.Rounding
set_option autoImplicit false

/-! The values jansson parses, and its accessors, which take a missing value. -/

namespace VkMiner

/-- A real number is the exact value of the double it was read as. -/
inductive Json where
  | null
  | bool (b : Bool)
  | integer (n : Int)
  | real (x : Rat)
  | string (s : CStr)
  | array (xs : List Json)
  | object (fields : List (CStr × Json))

def jsonArrayGet (j : Option Json) (i : Nat) : Option Json :=
  match j with
  | some (.array xs) => xs[i]?
  | _ => none

def jsonStringValue (j : Option Json) : Option CStr :=
  match j with
  | some (.string s) => some s
  | _ => none

def jsonIntegerValue (j : Option Json) : Int :=
  match j with
  | some (.integer n) => n
  | _ => 0

def jsonNumberValue (j : Option Json) : Rat :=
  match j with
  | some (.integer n) => (n.sign*Rounding.toDouble n.natAbs : Int)
  | some (.real x) => x
  | _ => 0

def jsonIsTrue (j : Option Json) : Bool :=
  match j with
  | some (.bool true) => true
  | _ => false

def jsonObjectGet (j : Option Json) (key : CStr) : Option Json :=
  match j with
  | some (.object fields) => (fields.find? (fun f => f.1 == key)).map Prod.snd
  | _ => none

def toInt32 (n : Int) : Int := n.bmod 4294967296

def isspace (c : UInt8) : Bool := c = 32 || (9 ≤ c && c ≤ 13)

def hexDigit (c : UInt8) : Option Nat :=
  if 48 ≤ c ∧ c ≤ 57 then some (c.toNat-48)
  else if 65 ≤ c ∧ c ≤ 70 then some (c.toNat-55)
  else if 97 ≤ c ∧ c ≤ 102 then some (c.toNat-87)
  else none

def hexDigits (s : CStr) : List Nat := s.map (fun c => (hexDigit c).getD 0)

def skip0x : CStr → CStr
  | 48 :: x :: d :: rest =>
    if (x = 120 ∨ x = 88) ∧ (hexDigit d).isSome then d :: rest else 48 :: x :: d :: rest
  | s => s

def ullongMax : Nat := 18446744073709551615

/-- `strtoull(s, &end, 16)`: the value, saturated and negated as C does it, and
what `end` points to. -/
def strtoull16 (s : CStr) : Nat × CStr :=
  let t := s.dropWhile isspace
  let negative := t.head? = some 45
  let body := skip0x (if t.head? = some 45 ∨ t.head? = some 43 then t.tail else t)
  let digits := body.takeWhile (fun c => (hexDigit c).isSome)
  if digits.isEmpty then (0,s)
  else
    let n := (hexDigits digits).foldl (fun acc d => acc*16+d) 0
    let value :=
      if ullongMax < n then ullongMax
      else if negative then (ullongMax+1-n)%(ullongMax+1) else n
    (value,body.drop digits.length)

end VkMiner
