import Mathlib.Data.Nat.Prime.Basic
import Mathlib.Data.Nat.Find
import Mathlib.Tactic.Linarith
set_option autoImplicit false

/-! The descending search for a prime that sizes a cache and a dataset. -/

namespace VkMiner.Progpow

variable {n d fuel : Nat}

def oddFactorFree (n : Nat) : Nat → Nat → Bool
  | 0,_ => true
  | fuel+1,d =>
    if n < d*d then true else if n%d = 0 then false else oddFactorFree n fuel (d+2)

def isOddPrime (n : Nat) : Bool := oddFactorFree n n 3

/-- The loop of `find_largest_prime`, over the odd numbers from `n` down. -/
def descend : Nat → Nat → Nat
  | 0,n => n
  | fuel+1,n => if isOddPrime n then n else descend fuel (n-2)

def findLargestPrime (upperBound : Int) : Nat :=
  if upperBound < 2 then 0
  else if upperBound = 2 then 2
  else
    let n := upperBound.toNat
    descend n (if n%2 = 0 then n-1 else n)

theorem oddFactorFree_iff (hf : n < (d+2*fuel)*(d+2*fuel)) :
    oddFactorFree n fuel d = true ↔ ∀ k, (d+2*k)*(d+2*k) ≤ n → ¬ (d+2*k) ∣ n := by
  induction fuel generalizing d with
  | zero =>
    simp only [oddFactorFree,true_iff]
    intro k hk
    have hle : d*d ≤ (d+2*k)*(d+2*k) := Nat.mul_le_mul (by omega) (by omega)
    simp only [Nat.mul_zero,Nat.add_zero] at hf
    omega
  | succ fuel ih =>
    have hnext : d+2*(fuel+1) = (d+2)+2*fuel := by omega
    rw [hnext] at hf
    unfold oddFactorFree
    by_cases hroot : n < d*d
    · simp only [hroot,if_true,true_iff]
      intro k hk
      have hle : d*d ≤ (d+2*k)*(d+2*k) := Nat.mul_le_mul (by omega) (by omega)
      omega
    · simp only [hroot,if_false]
      by_cases hdvd : n%d = 0
      · simp only [hdvd,if_true,Bool.false_eq_true,false_iff,not_forall]
        exact ⟨0,by simpa using hroot,by simpa using Nat.dvd_of_mod_eq_zero hdvd⟩
      · simp only [hdvd,if_false,ih hf]
        constructor
        · intro h k hk
          cases k with
          | zero => exact fun hd => hdvd (Nat.mod_eq_zero_of_dvd hd)
          | succ k =>
            have hstep : d+2*(k+1) = (d+2)+2*k := by omega
            rw [hstep] at hk ⊢
            exact h k hk
        · intro h k hk
          have hstep : (d+2)+2*k = d+2*(k+1) := by omega
          rw [hstep] at hk ⊢
          exact h (k+1) hk

theorem isOddPrime_iff (hodd : n%2 = 1) (hn : 3 ≤ n) : isOddPrime n = true ↔ n.Prime := by
  have hfuel : n < (3+2*n)*(3+2*n) := by nlinarith
  rw [isOddPrime,oddFactorFree_iff hfuel]
  constructor
  · intro h
    by_contra hp
    have hmin := Nat.minFac_prime (n := n) (by omega)
    have hdvd := Nat.minFac_dvd n
    have hsq := Nat.minFac_sq_le_self (by omega : 0 < n) hp
    have htwo := hmin.two_le
    have hodd' : n.minFac%2 = 1 := by
      rcases hmin.eq_two_or_odd with h2 | h2
      · rw [h2] at hdvd
        omega
      · exact h2
    obtain ⟨k,hk⟩ : ∃ k,n.minFac = 3+2*k := ⟨(n.minFac-3)/2,by omega⟩
    rw [hk] at hsq hdvd
    exact h k (by rwa [← Nat.pow_two]) hdvd
  · intro hp k hk hdvd
    rcases (Nat.dvd_prime hp).mp hdvd with h1 | hself
    · omega
    · rw [hself] at hk
      nlinarith

theorem descend_eq (hodd : n%2 = 1) (hn : 3 ≤ n) (hf : n ≤ 2*fuel) :
    descend fuel n = Nat.findGreatest Nat.Prime n := by
  induction fuel generalizing n with
  | zero => omega
  | succ fuel ih =>
    unfold descend
    by_cases hp : n.Prime
    · rw [if_pos ((isOddPrime_iff hodd hn).mpr hp)]
      exact (Nat.findGreatest_eq hp).symm
    · rw [if_neg (fun h => hp ((isOddPrime_iff hodd hn).mp h))]
      have h3 : n ≠ 3 := fun h => hp (h ▸ Nat.prime_three)
      obtain ⟨m,rfl⟩ : ∃ m,n = m+2 := ⟨n-2,by omega⟩
      have heven : ¬ (m+1).Prime := by
        intro he
        rcases he.eq_two_or_odd with h2 | h2 <;> omega
      rw [Nat.findGreatest_of_not hp,Nat.findGreatest_of_not heven]
      exact ih (by omega) (by omega) (by omega)

theorem findLargestPrime_eq (upperBound : Int) :
    findLargestPrime upperBound = Nat.findGreatest Nat.Prime upperBound.toNat := by
  unfold findLargestPrime
  by_cases hlow : upperBound < 2
  · rw [if_pos hlow]
    have hn : upperBound.toNat ≤ 1 := by omega
    refine (Nat.findGreatest_eq_zero_iff.mpr ?_).symm
    intro k hk hle hp
    have htwo := hp.two_le
    omega
  · rw [if_neg hlow]
    by_cases htwo : upperBound = 2
    · rw [if_pos htwo,htwo]
      exact (Nat.findGreatest_eq Nat.prime_two).symm
    · rw [if_neg htwo]
      have hn : 3 ≤ upperBound.toNat := by omega
      simp only
      split
      · next heven =>
        obtain ⟨m,hm⟩ : ∃ m,upperBound.toNat = m+1 := ⟨upperBound.toNat-1,by omega⟩
        rw [hm] at heven hn ⊢
        have hp : ¬ (m+1).Prime := by
          intro he
          rcases he.eq_two_or_odd with h2 | h2 <;> omega
        rw [Nat.findGreatest_of_not hp]
        exact descend_eq (by omega) (by omega) (by omega)
      · exact descend_eq (by omega) hn (by omega)

end VkMiner.Progpow
