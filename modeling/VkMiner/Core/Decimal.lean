import Mathlib.Algebra.Group.Nat.Defs
import Mathlib.Data.List.Induction
import Mathlib.Tactic.Common
import VkMiner.Core.Hex
import VkMiner.Core.Json
set_option autoImplicit false

/-! Decimal digits and the numbers that they write. -/

namespace VkMiner

def isDecimal (c : UInt8) : Bool := 48 ≤ c && c ≤ 57

def digitsValue (digits : CStr) : Nat := digits.foldl (fun n c => 10*n+(c-48).toNat) 0

theorem decimal_eq (n : Nat) :
    decimal n = (Nat.toDigits 10 n).map (fun c => UInt8.ofNat c.toNat) := by
  simp [decimal,ascii]

theorem decimal_step {n : Nat} (h : 10 ≤ n) :
    decimal n = decimal (n/10) ++ [UInt8.ofNat (Nat.digitChar (n%10)).toNat] := by
  rw [decimal_eq,decimal_eq,Nat.toDigits_of_base_le (by omega) h]
  simp

theorem decimal_small {n : Nat} (h : n < 10) :
    decimal n = [UInt8.ofNat (Nat.digitChar n).toNat] := by
  rw [decimal_eq,Nat.toDigits_of_lt_base h]
  rfl

theorem digitChar_value : ∀ n < 10, isDecimal (UInt8.ofNat (Nat.digitChar n).toNat) = true ∧
    (UInt8.ofNat (Nat.digitChar n).toNat-48).toNat = n := by decide

theorem digitChar_of : ∀ c : UInt8, isDecimal c = true →
    (c-48).toNat < 10 ∧ UInt8.ofNat (Nat.digitChar (c-48).toNat).toNat = c :=
  byte_cases (by decide +kernel)

theorem decimal_other : ∀ c : UInt8, isDecimal c = true →
    isspace c = false ∧ c ≠ 43 ∧ c ≠ 45 ∧ c ≠ 0 ∧ c ≠ 10 ∧ c ≠ 35 := byte_cases (by decide +kernel)

theorem digitsValue_append (digits : CStr) (c : UInt8) :
    digitsValue (digits ++ [c]) = 10*digitsValue digits+(c-48).toNat := by
  simp [digitsValue]

theorem decimal_isDecimal (n : Nat) : ∀ c ∈ decimal n,isDecimal c = true := by
  induction n using Nat.strongRecOn with
  | ind n ih =>
    by_cases h : n < 10
    · rw [decimal_small h]
      simpa using (digitChar_value n h).1
    · rw [decimal_step (by omega)]
      intro c hc
      rcases List.mem_append.mp hc with hc | hc
      · exact ih (n/10) (by omega) c hc
      · rw [List.mem_singleton.mp hc]
        exact (digitChar_value (n%10) (by omega)).1

@[simp] theorem digitsValue_decimal (n : Nat) : digitsValue (decimal n) = n := by
  induction n using Nat.strongRecOn with
  | ind n ih =>
    by_cases h : n < 10
    · rw [decimal_small h]
      simpa [digitsValue] using (digitChar_value n h).2
    · rw [decimal_step (by omega),digitsValue_append,ih (n/10) (by omega),
        (digitChar_value (n%10) (by omega)).2]
      omega

theorem decimal_ne_nil (n : Nat) : decimal n ≠ [] := by
  by_cases h : n < 10
  · simp [decimal_small h]
  · simp [decimal_step (n := n) (by omega)]

theorem decimal_length {n k : Nat} (h : n < 10^(k+1)) : (decimal n).length ≤ k+1 := by
  induction k generalizing n with
  | zero => simp [decimal_small (n := n) (by omega)]
  | succ k ih =>
    by_cases hn : n < 10
    · simp [decimal_small hn]
    · have hd : n/10 < 10^(k+1) := by
        rw [Nat.pow_succ] at h
        omega
      have ih := ih hd
      rw [decimal_step (by omega)]
      simp only [List.length_append,List.length_singleton]
      omega

theorem decimal_leading {n : Nat} (h : (decimal n).head? = some 48) : decimal n = [48] := by
  induction n using Nat.strongRecOn with
  | ind n ih =>
    by_cases hn : n < 10
    · rw [decimal_small hn] at h ⊢
      simpa using h
    · rw [decimal_step (by omega)] at h
      obtain ⟨c,t,ht⟩ := List.exists_cons_of_ne_nil (decimal_ne_nil (n/10))
      have hz := ih (n/10) (by omega) (by simpa [ht] using h)
      have hv := congrArg digitsValue hz
      rw [digitsValue_decimal] at hv
      have h0 : digitsValue [48] = 0 := by decide
      omega

theorem decimal_digitsValue {digits : CStr} (hne : digits ≠ [])
    (hd : ∀ c ∈ digits,isDecimal c = true) (hz : digits.head? = some 48 → digits = [48]) :
    decimal (digitsValue digits) = digits := by
  induction digits using List.reverseRecOn with
  | nil => exact absurd rfl hne
  | append_singleton digits c ih =>
    obtain ⟨hlt,hc⟩ := digitChar_of c (hd c (by simp))
    rw [digitsValue_append]
    cases digits with
    | nil =>
      have h0 : digitsValue [] = 0 := rfl
      rw [h0,decimal_small (by omega)]
      simpa using hc
    | cons a digits =>
      have ha : a ≠ 48 := by
        rintro rfl
        simp at hz
      have ih := ih (by simp) (fun d hd' => hd d (by
        rcases List.mem_cons.mp hd' with rfl | hd' <;> simp [*])) (by simp [ha])
      have hpos : digitsValue (a :: digits) ≠ 0 := by
        intro h
        rw [h,decimal_small (by omega)] at ih
        simp only [List.cons.injEq] at ih
        exact ha ih.1.symm
      rw [decimal_step (by omega)]
      have hq : (10*digitsValue (a :: digits)+(c-48).toNat)/10 = digitsValue (a :: digits) := by
        omega
      have hr : (10*digitsValue (a :: digits)+(c-48).toNat)%10 = (c-48).toNat := by omega
      rw [hq,hr,ih,hc]

end VkMiner
