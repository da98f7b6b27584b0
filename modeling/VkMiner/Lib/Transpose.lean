import Mathlib.Tactic.IntervalCases
import VkMiner.Lib.Loops
set_option autoImplicit false

/-! Eight words, bytes in and bit planes out: in every run of eight bits, the word and the bit change
places. -/

namespace Transpose

variable {k i n : Nat} {m : BitVec 32} {d : Words 8}

/-- `t = (d[x] ^ (d[y] << n)) & m; d[x] ^= t; d[y] ^= t >> n` -/
def swap (d : Words 8) (x y : Nat) (m : BitVec 32) (n : Nat) : Words 8 :=
  let t := (d.read x ^^^ (d.read y <<< n)) &&& m
  let d := d.write x (d.read x ^^^ t)
  d.write y (d.read y ^^^ (t >>> n))

def layer1 (d : Words 8) : Words 8 :=
  let d := swap (swap d 0 1 0xaaaaaaaa 1) 2 3 0xaaaaaaaa 1
  swap (swap d 4 5 0xaaaaaaaa 1) 6 7 0xaaaaaaaa 1

def layer2 (d : Words 8) : Words 8 :=
  let d := swap (swap d 0 2 0xcccccccc 2) 1 3 0xcccccccc 2
  swap (swap d 4 6 0xcccccccc 2) 5 7 0xcccccccc 2

def layer4 (d : Words 8) : Words 8 :=
  let d := swap (swap d 0 4 0xf0f0f0f0 4) 1 5 0xf0f0f0f0 4
  swap (swap d 2 6 0xf0f0f0f0 4) 3 7 0xf0f0f0f0 4

def transpose (d : Words 8) : Words 8 := layer4 (layer2 (layer1 d))

/-! ### One swap -/

def first (m : BitVec 32) (n : Nat) (a b : BitVec 32) : BitVec 32 := a ^^^ ((a ^^^ (b <<< n)) &&& m)

def second (m : BitVec 32) (n : Nat) (a b : BitVec 32) : BitVec 32 :=
  b ^^^ (((a ^^^ (b <<< n)) &&& m) >>> n)

def Upper (m : BitVec 32) (n : Nat) : Prop := ∀ i < 32,m.getLsbD i = decide (i / n % 2 = 1)

theorem first_bit (hm : Upper m n) (a b : BitVec 32) (hi : i < 32) :
    (first m n a b).getLsbD i = if i / n % 2 = 1 then b.getLsbD (i - n) else a.getLsbD i := by
  have hle : i / n % 2 = 1 → n ≤ i := fun h => by
    by_contra hlt
    rw [Nat.div_eq_of_lt (Nat.not_le.mp hlt)] at h
    exact absurd h (by decide)
  simp only [first,BitVec.getLsbD_xor,BitVec.getLsbD_and,BitVec.getLsbD_shiftLeft,hm i hi]
  by_cases h : i / n % 2 = 1
  · have hn := hle h
    simp [h,hi,hn]
  · simp [h]

theorem second_bit (hm : Upper m n) (a b : BitVec 32) (hi : i + n < 32 ∨ i / n % 2 = 1)
    (hn : 0 < n) :
    (second m n a b).getLsbD i = if i / n % 2 = 1 then b.getLsbD i else a.getLsbD (i + n) := by
  have hnext : (i + n) / n % 2 = 1 ↔ ¬i / n % 2 = 1 := by
    rw [Nat.add_div_right i hn]
    omega
  simp only [second,BitVec.getLsbD_xor,BitVec.getLsbD_ushiftRight,BitVec.getLsbD_and,
    BitVec.getLsbD_shiftLeft]
  by_cases h : i / n % 2 = 1
  · have hzero : m.getLsbD (n + i) = false := by
      by_cases hin : n + i < 32
      · rw [hm _ hin,Nat.add_comm n i]
        simpa using mt hnext.mp (not_not_intro h)
      · exact BitVec.getLsbD_of_ge m _ (by omega)
    simp [h,hzero]
  · have hin := hi.resolve_right h
    have hone : m.getLsbD (n + i) = true := by
      rw [hm _ (by omega),Nat.add_comm n i]
      simpa using hnext.mpr h
    rw [hone,Bool.and_true,if_neg h,Nat.add_comm i n]
    simp only [Nat.add_comm n i,hin,decide_true,Bool.true_and]
    cases hb : b.getLsbD i <;> simp [hb]

/-! ### A layer, and all three -/

def source (n k i : Nat) : Nat × Nat :=
  if k / n % 2 = i / n % 2 then (k,i)
  else if i / n % 2 = 1 then (k + n,i - n)
  else (k - n,i + n)

def Layer (n : Nat) (f : Words 8 → Words 8) : Prop :=
  ∀ d k i,k < 8 → i < 32 →
    ((f d).read k).getLsbD i = (d.read (source n k i).1).getLsbD (source n k i).2

theorem layer_of {f : Words 8 → Words 8} (hm : Upper m n) (hn : 0 < n) (hdvd : 2 * n ∣ 32)
    (hf : ∀ d k,k < 8 → (f d).read k =
      if k / n % 2 = 1 then second m n (d.read (k - n)) (d.read k)
      else first m n (d.read k) (d.read (k + n))) : Layer n f := by
  intro d k i hk hi
  rw [hf d k hk]
  have hroom : i + n < 32 ∨ i / n % 2 = 1 := by
    obtain ⟨c,hc⟩ := hdvd
    by_contra h
    obtain ⟨hge,hbit⟩ := not_or.mp h
    have hlow : i / n < 2 * c := Nat.div_lt_of_lt_mul (by rw [← Nat.mul_assoc,Nat.mul_comm n]; omega)
    have hhigh : 2 * c ≤ i / n + 1 := by
      rw [← Nat.add_div_right i hn,Nat.le_div_iff_mul_le hn,Nat.mul_comm (2 * c),← Nat.mul_assoc,
        Nat.mul_comm n]
      omega
    omega
  simp only [source]
  by_cases hk₁ : k / n % 2 = 1
  · rw [if_pos hk₁,second_bit hm _ _ hroom hn]
    by_cases hi₁ : i / n % 2 = 1
    · rw [if_pos hi₁,if_pos (hk₁.trans hi₁.symm)]
    · rw [if_neg hi₁,if_neg (by omega),if_neg hi₁]
  · rw [if_neg hk₁,first_bit hm _ _ hi]
    by_cases hi₁ : i / n % 2 = 1
    · rw [if_pos hi₁,if_neg (by omega),if_pos hi₁]
    · rw [if_neg hi₁,if_pos (by omega)]

theorem layer1_swaps : Layer 1 layer1 := by
  have hm : Upper 0xaaaaaaaa 1 := by
    unfold Upper
    decide
  refine layer_of hm (by decide) (by decide) fun d k hk => ?_
  interval_cases k <;>
    simp (disch := decide) only [layer1,swap,Words.read_write_self,Words.read_write_ne] <;> rfl

theorem layer2_swaps : Layer 2 layer2 := by
  have hm : Upper 0xcccccccc 2 := by
    unfold Upper
    decide
  refine layer_of hm (by decide) (by decide) fun d k hk => ?_
  interval_cases k <;>
    simp (disch := decide) only [layer2,swap,Words.read_write_self,Words.read_write_ne] <;> rfl

theorem layer4_swaps : Layer 4 layer4 := by
  have hm : Upper 0xf0f0f0f0 4 := by
    unfold Upper
    decide
  refine layer_of hm (by decide) (by decide) fun d k hk => ?_
  interval_cases k <;>
    simp (disch := decide) only [layer4,swap,Words.read_write_self,Words.read_write_ne] <;> rfl

theorem source_lt : ∀ k < 8,∀ i < 32,∀ n ∈ [1,2,4],
    (source n k i).1 < 8 ∧ (source n k i).2 < 32 := by decide

theorem source_all : ∀ k < 8,∀ i < 32,
    source 1 (source 2 (source 4 k i).1 (source 4 k i).2).1
      (source 2 (source 4 k i).1 (source 4 k i).2).2 = (i % 8,i - i % 8 + k) := by decide

theorem transpose_bit (d : Words 8) (hk : k < 8) (hi : i < 32) :
    ((transpose d).read k).getLsbD i = (d.read (i % 8)).getLsbD (i - i % 8 + k) := by
  obtain ⟨hk₄,hi₄⟩ := source_lt k hk i hi 4 (by decide)
  obtain ⟨hk₂,hi₂⟩ := source_lt _ hk₄ _ hi₄ 2 (by decide)
  rw [transpose,layer4_swaps _ k i hk hi,layer2_swaps _ _ _ hk₄ hi₄,layer1_swaps _ _ _ hk₂ hi₂,
    source_all k hk i hi]

end Transpose
