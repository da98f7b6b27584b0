import Mathlib.FieldTheory.Finite.Basic
import Mathlib.NumberTheory.LucasLehmer
import Mathlib.NumberTheory.LucasPrimality
import Mathlib.Tactic.NormNum.Prime
import Mathlib.Tactic.ReduceModChar
import VkMiner.Lib.Cells
import VkMiner.Lib.Elimination
set_option autoImplicit false

/-! The rank test of heavyhash, in the unsigned arithmetic of the host, where a result that does
not fit and a division by zero are refused. -/

namespace VkMiner.Heavyhash
open Loops Cells Elimination

def add32 (x y : Nat) : Option Nat := if x + y < 2 ^ 32 then some (x + y) else none

def sub (x y : Nat) : Option Nat := if y ≤ x then some (x - y) else none

def mul64 (x y : Nat) : Option Nat := if x * y < 2 ^ 64 then some (x * y) else none

def rem (x y : Nat) : Option Nat := if y = 0 then none else some (x % y)

def narrow32 (x : Nat) : Option Nat := if x < 2 ^ 32 then some x else none

abbrev Square (α : Type) := Cells α 4096

section
variable {α : Type} [Inhabited α]

/-- `a[r][c]`. -/
def entry (a : Square α) (r c : Nat) : α := a.read (64 * r + c)

def put (a : Square α) (r c : Nat) (x : α) : Square α := a.write (64 * r + c) x

theorem entry_put {a : Square α} {r c r' c' : Nat} {x : α} (hr : r < 64) (hc : c < 64)
    (hc' : c' < 64) : entry (put a r c x) r' c' = if r' = r ∧ c' = c then x else entry a r' c' := by
  rw [entry,put,entry]
  split
  · rename_i h
    rw [h.1,h.2,read_write_self a x (by omega)]
  · rw [read_write_ne a x (by omega)]

end

/-- `inv * base^e mod p`, by the bits of `e`. -/
def power (p e inv base : Nat) : Option Nat :=
  if e = 0 then some inv
  else do
    let inv ← if e % 2 = 1 then (mul64 inv base).bind (rem · p) else some inv
    let base ← (mul64 base base).bind (rem · p)
    power p (e / 2) inv base
termination_by e

def inverse (p base : Nat) : Option Nat := (sub p 2).bind fun e => power p e 1 base

/-- `( x + p - f * y % p ) % p`. -/
def takeMultiple (p f x y : Nat) : Option Nat := do
  let s ← add32 x p
  let t ← (mul64 f y).bind (rem · p)
  let d ← (sub s t).bind (rem · p)
  narrow32 d

def clearRow (p f : Nat) (a : Square Nat) (row r col : Nat) : Option (Square Nat) :=
  tryUpTo (64 - col) a fun i a =>
    (takeMultiple p f (entry a r (col + i)) (entry a row (col + i))).map (put a r (col + i))

def clearBelow (p inv : Nat) (a : Square Nat) (row col : Nat) : Option (Square Nat) :=
  tryUpTo (64 - (row + 1)) a fun i a =>
    let r := row + 1 + i
    if entry a r col = 0 then some a
    else ((mul64 (entry a r col) inv).bind (rem · p)).bind fun f => clearRow p f a row r col

def swapRows (a : Square Nat) (row pivot : Nat) : Square Nat :=
  upTo 64 a fun c a =>
    let t := entry a row c
    put (put a row c (entry a pivot c)) pivot c t

def pivotOf (a : Square Nat) (row col : Nat) : Option Nat :=
  (List.range' row (64 - row)).find? fun r => entry a r col != 0

def reduceColumn (p : Nat) (a : Square Nat) (row pivot col : Nat) : Option (Square Nat) :=
  let a := if pivot ≠ row then swapRows a row pivot else a
  (inverse p (entry a row col)).bind fun inv => clearBelow p inv a row col

def rankFrom (p : Nat) (a : Square Nat) (row col : Nat) : Option Nat :=
  if col < 64 ∧ row < 64 then
    match pivotOf a row col with
    | none => rankFrom p a row (col + 1)
    | some pivot => (reduceColumn p a row pivot col).bind fun a => rankFrom p a (row + 1) (col + 1)
  else some row
termination_by 64 - col

def widen (m : Square (BitVec 8)) : Square Nat :=
  upTo 64 (blank 4096) fun i a => upTo 64 a fun j a => put a i j (entry m i j).toNat

def rankMod (m : Square (BitVec 8)) (p : Nat) : Option Nat := rankFrom p (widen m) 0 0

def heavyhashFullRank (m : Square (BitVec 8)) : Option Bool := do
  if (← rankMod m 2147483647) = 64 then return true
  return (← rankMod m 2147483629) = 64

/-! ### The matrix that an array holds -/

def residues (p : Nat) (a : Square Nat) : Matrix (Fin 64) (Fin 64) (ZMod p) :=
  Matrix.of fun i j => ((entry a i j : Nat) : ZMod p)

def Bounded (p : Nat) (a : Square Nat) : Prop := ∀ r < 64, ∀ c < 64, entry a r c < p

def integers (m : Square (BitVec 8)) : Matrix (Fin 64) (Fin 64) ℤ :=
  Matrix.of fun i j => ((entry m i j).toNat : ℤ)

def overField (p : Nat) (m : Square (BitVec 8)) : Matrix (Fin 64) (Fin 64) (ZMod p) :=
  (integers m).map (Int.castRingHom (ZMod p))

def rationals (m : Square (BitVec 8)) : Matrix (Fin 64) (Fin 64) ℚ :=
  (integers m).map (Int.castRingHom ℚ)

variable {p : Nat} {a : Square Nat} {m : Square (BitVec 8)}

theorem mul_rem {x y : Nat} (hx : x < p) (hy : y < p) (hp : p < 2 ^ 31) :
    (mul64 x y).bind (rem · p) = some (x * y % p) := by
  have hxy : x * y < 2 ^ 64 :=
    (Nat.mul_lt_mul'' (hx.trans hp) (hy.trans hp)).trans (by norm_num)
  rw [mul64,if_pos hxy,Option.bind_some,rem,if_neg (by omega)]

theorem power_eq (hp : p < 2 ^ 31) {e inv base : Nat} (hinv : inv < p) (hbase : base < p) :
    ∃ x, power p e inv base = some x ∧ x < p ∧ (x : ZMod p) = inv * base ^ e := by
  have hpos : 0 < p := by omega
  induction e using Nat.strong_induction_on generalizing inv base with
  | _ e ih =>
    rw [power]
    by_cases he : e = 0
    · exact ⟨inv,if_pos he,hinv,by rw [he,pow_zero,mul_one]⟩
    · rw [if_neg he,mul_rem hbase hbase hp,mul_rem hinv hbase hp]
      have hsquare : base * base % p < p := Nat.mod_lt _ hpos
      have hhalf : e = 2 * (e / 2) + e % 2 := (Nat.div_add_mod e 2).symm
      obtain hodd | heven := (Nat.mod_two_eq_zero_or_one e).symm
      · obtain ⟨x,hx,hlt,hval⟩ := ih (e / 2) (by omega) (Nat.mod_lt (inv * base) hpos) hsquare
        refine ⟨x,by rw [if_pos hodd]; exact hx,hlt,?_⟩
        rw [hval,ZMod.natCast_mod,ZMod.natCast_mod]
        conv_rhs => rw [hhalf,hodd]
        push_cast
        ring
      · obtain ⟨x,hx,hlt,hval⟩ := ih (e / 2) (by omega) hinv hsquare
        refine ⟨x,by rw [if_neg (by omega)]; exact hx,hlt,?_⟩
        rw [hval,ZMod.natCast_mod]
        conv_rhs => rw [hhalf,heven]
        push_cast
        ring

theorem natCast_ne_zero {x : Nat} (hx : x < p) (h0 : x ≠ 0) : (x : ZMod p) ≠ 0 := by
  rw [Ne,ZMod.natCast_eq_zero_iff]
  exact fun hd => absurd (Nat.le_of_dvd (Nat.pos_of_ne_zero h0) hd) (by omega)

theorem inverse_eq (hprime : p.Prime) (hp : p < 2 ^ 31) {x : Nat} (hx : x < p) (h0 : x ≠ 0) :
    ∃ y, inverse p x = some y ∧ y < p ∧ (x : ZMod p) * y = 1 := by
  have := Fact.mk hprime
  have htwo := hprime.two_le
  obtain ⟨y,hy,hlt,hval⟩ := power_eq hp (e := p - 2) hprime.one_lt hx
  refine ⟨y,?_,hlt,?_⟩
  · rw [inverse,sub,if_pos htwo,Option.bind_some,hy]
  · rw [hval,Nat.cast_one,one_mul,← pow_succ',show p - 2 + 1 = p - 1 from by omega]
    exact ZMod.pow_card_sub_one_eq_one (natCast_ne_zero hx h0)

theorem takeMultiple_eq (hp : p < 2 ^ 31) {f x y : Nat} (hf : f < p) (hx : x < p) (hy : y < p) :
    ∃ z, takeMultiple p f x y = some z ∧ z < p ∧ (z : ZMod p) = x - f * y := by
  have hpos : 0 < p := by omega
  have hmod : f * y % p < p := Nat.mod_lt _ hpos
  have hlt : (x + p - f * y % p) % p < p := Nat.mod_lt _ hpos
  refine ⟨(x + p - f * y % p) % p,?_,hlt,?_⟩
  · rw [takeMultiple,add32,if_pos (by omega),mul_rem hf hy hp]
    simp only [Option.bind_eq_bind,Option.bind_some]
    rw [sub,if_pos (by omega),Option.bind_some,rem,if_neg (by omega),Option.bind_some,narrow32,
      if_pos (by omega)]
  · rw [ZMod.natCast_mod,Nat.cast_sub (by omega),ZMod.natCast_mod]
    push_cast
    rw [ZMod.natCast_self,add_zero]

/-! ### What the loops leave -/

theorem residues_apply (i j : Fin 64) : residues p a i j = ((entry a i j : Nat) : ZMod p) := rfl

/-- The loop over a row takes the multiple from its columns from `col` on, and touches nothing
else. -/
theorem clearRow_eq (hp : p < 2 ^ 31) {f row r col : Nat} (hb : Bounded p a) (hf : f < p)
    (hrow : row < r) (hr : r < 64) (hcol : col < 64) :
    ∃ b, clearRow p f a row r col = some b ∧ Bounded p b ∧
      (∀ r' < 64, ∀ c < 64, r' ≠ r ∨ c < col → entry b r' c = entry a r' c) ∧
      ∀ c < 64, col ≤ c → ((entry b r c : Nat) : ZMod p) = entry a r c - f * entry a row c := by
  let P : Nat → Square Nat → Prop := fun i b => Bounded p b ∧
    (∀ r' < 64, ∀ c < 64, r' ≠ r ∨ c < col ∨ col + i ≤ c → entry b r' c = entry a r' c) ∧
    ∀ c < 64, col ≤ c → c < col + i →
      ((entry b r c : Nat) : ZMod p) = entry a r c - f * entry a row c
  have hstart : P 0 a := ⟨hb,fun _ _ _ _ _ => rfl,fun c _ _ _ => by omega⟩
  obtain ⟨b,he,hb',hsame,hval⟩ := tryUpTo_invariant (n := 64 - col) (P := P) (f := fun i a =>
    (takeMultiple p f (entry a r (col + i)) (entry a row (col + i))).map (put a r (col + i)))
    hstart fun i hi b hP => by
      obtain ⟨hb,hsame,hval⟩ := hP
      have hc : col + i < 64 := by omega
      obtain ⟨z,hz,hlt,hzval⟩ :=
        takeMultiple_eq hp hf (hb r hr _ hc) (hb row (by omega) _ hc)
      rw [hsame r hr _ hc (by omega),hsame row (by omega) _ hc (by omega)] at hzval
      have hput : ∀ r' < 64, ∀ c < 64, entry (put b r (col + i) z) r' c =
          if r' = r ∧ c = col + i then z else entry b r' c := fun r' _ c h => entry_put hr hc h
      refine ⟨_,by rw [hz,Option.map_some],fun r' hr' c hc' => ?_,fun r' hr' c hc' hor => ?_,
        fun c hc' hge hlt => ?_⟩
      · rw [hput r' hr' c hc']
        split
        · exact hlt
        · exact hb r' hr' c hc'
      · rw [hput r' hr' c hc',if_neg (by omega)]
        exact hsame r' hr' c hc' (by omega)
      · rw [hput r hr c hc']
        obtain rfl | hne := eq_or_ne c (col + i)
        · rw [if_pos ⟨rfl,rfl⟩,hzval]
        · rw [if_neg (by omega)]
          exact hval c hc' hge (by omega)
  exact ⟨b,he,hb',fun r' hr' c hc hor => hsame r' hr' c hc (by omega),
    fun c hc hge => hval c hc hge (by omega)⟩

/-- Row `r` of `b` is that of `a` less a multiple of its row `row`, and is zero in column `col`. -/
def Cleared (p : Nat) (a b : Square Nat) (row col r : Nat) : Prop :=
  ∃ f : ZMod p, ((entry b r col : Nat) : ZMod p) = 0 ∧
    ∀ c < 64, ((entry b r c : Nat) : ZMod p) = entry a r c - f * entry a row c

theorem Cleared.of_eq {b b' : Square Nat} {row col r : Nat} (h : Cleared p a b row col r)
    (hcol : col < 64) (he : ∀ c < 64, entry b' r c = entry b r c) : Cleared p a b' row col r := by
  obtain ⟨f,hzero,hval⟩ := h
  exact ⟨f,by rw [he col hcol,hzero],fun c hc => by rw [he c hc,hval c hc]⟩

theorem clear_one (hp : p < 2 ^ 31) {inv row r col : Nat} (hb : Bounded p a) (hinv : inv < p)
    (hrow : row < r) (hr : r < 64) (hcol : col < 64)
    (hone : ((entry a row col : Nat) : ZMod p) * inv = 1)
    (hleft : ∀ c < col, ((entry a row c : Nat) : ZMod p) = 0) :
    ∃ b, (if entry a r col = 0 then some a
        else ((mul64 (entry a r col) inv).bind (rem · p)).bind fun f =>
          clearRow p f a row r col) = some b ∧
      Bounded p b ∧ (∀ r' < 64, ∀ c < 64, r' ≠ r → entry b r' c = entry a r' c) ∧
      Cleared p a b row col r := by
  by_cases h0 : entry a r col = 0
  · refine ⟨a,if_pos h0,hb,fun _ _ _ _ _ => rfl,0,by rw [h0,Nat.cast_zero],fun c _ => ?_⟩
    rw [zero_mul,sub_zero]
  · have hf : entry a r col * inv % p < p := Nat.mod_lt _ (by omega)
    obtain ⟨b,he,hb',hsame,hval⟩ := clearRow_eq hp hb hf hrow hr hcol
    have hall : ∀ c < 64, ((entry b r c : Nat) : ZMod p) =
        entry a r c - ((entry a r col * inv % p : Nat) : ZMod p) * entry a row c := by
      intro c hc
      obtain hlt | hge := lt_or_ge c col
      · rw [hsame r hr c hc (.inr hlt),hleft c hlt,mul_zero,sub_zero]
      · exact hval c hc hge
    refine ⟨b,?_,hb',fun r' hr' c hc hne => hsame r' hr' c hc (.inl hne),_,?_,hall⟩
    · rw [if_neg h0,mul_rem (hb r hr col hcol) hinv hp,Option.bind_some,he]
    · rw [hall col hcol,ZMod.natCast_mod,Nat.cast_mul,mul_assoc,mul_comm (inv : ZMod p),hone,
        mul_one,sub_self]

theorem clearBelow_eq (hp : p < 2 ^ 31) {inv row col : Nat} (hb : Bounded p a) (hinv : inv < p)
    (hrow : row < 64) (hcol : col < 64) (hone : ((entry a row col : Nat) : ZMod p) * inv = 1)
    (hleft : ∀ c < col, ((entry a row c : Nat) : ZMod p) = 0) :
    ∃ b, clearBelow p inv a row col = some b ∧ Bounded p b ∧
      (∀ r ≤ row, ∀ c < 64, entry b r c = entry a r c) ∧
      ∀ r < 64, row < r → Cleared p a b row col r := by
  let P : Nat → Square Nat → Prop := fun i b => Bounded p b ∧
    (∀ r < 64, r ≤ row ∨ row + 1 + i ≤ r → ∀ c < 64, entry b r c = entry a r c) ∧
    ∀ r < 64, row < r → r < row + 1 + i → Cleared p a b row col r
  have hstart : P 0 a := ⟨hb,fun _ _ _ _ _ => rfl,fun r _ _ _ => by omega⟩
  obtain ⟨b,he,hb',hsame,hdone⟩ := tryUpTo_invariant (n := 64 - (row + 1)) (P := P)
    (f := fun i a =>
      let r := row + 1 + i
      if entry a r col = 0 then some a
      else ((mul64 (entry a r col) inv).bind (rem · p)).bind fun f => clearRow p f a row r col)
    hstart fun i hi b hP => by
      obtain ⟨hb,hsame,hdone⟩ := hP
      have hrowsame := hsame row hrow (.inl le_rfl)
      have hr : row + 1 + i < 64 := by omega
      have hlt : row < row + 1 + i := by omega
      have hone' : ((entry b row col : Nat) : ZMod p) * inv = 1 := by rw [hrowsame col hcol,hone]
      have hleft' : ∀ c < col, ((entry b row c : Nat) : ZMod p) = 0 := by
        intro c hc
        rw [hrowsame c (hc.trans hcol),hleft c hc]
      obtain ⟨d,hd,hbd,hother,f,hzero,hval⟩ := clear_one hp hb hinv hlt hr hcol hone' hleft'
      refine ⟨d,hd,hbd,fun r hr' hor c hc => ?_,fun r hr' hlt hle => ?_⟩
      · rw [hother r hr' c hc (by omega),hsame r hr' (by omega) c hc]
      · obtain rfl | hne := eq_or_ne r (row + 1 + i)
        · refine ⟨f,hzero,fun c hc => ?_⟩
          rw [hval c hc,hsame _ hr (.inr le_rfl) c hc,hrowsame c hc]
        · exact (hdone r hr' hlt (by omega)).of_eq hcol fun c hc => hother r hr' c hc hne
  exact ⟨b,he,hb',fun r hr c hc => hsame r (by omega) (.inl hr) c hc,
    fun r hr hlt => hdone r hr hlt (by omega)⟩

theorem swapRows_eq {row pivot : Nat} (hrow : row < 64) (hpivot : pivot < 64)
    (hne : pivot ≠ row) {r c : Nat} (hr : r < 64) (hc : c < 64) :
    entry (swapRows a row pivot) r c =
      entry a (if r = row then pivot else if r = pivot then row else r) c := by
  let P : Nat → Square Nat → Prop := fun i b => ∀ r < 64, ∀ c < 64, entry b r c =
    if c < i then entry a (if r = row then pivot else if r = pivot then row else r) c
    else entry a r c
  have h : P 64 (swapRows a row pivot) := by
    refine upTo_invariant (P := P) (fun r _ c _ => (if_neg (Nat.not_lt_zero c)).symm)
      fun i hi b hP r hr c hc => ?_
    rw [entry_put hpivot hi hc,entry_put hrow hi hc,hP row hrow i hi,hP pivot hpivot i hi,
      hP r hr c hc,if_neg (lt_irrefl i),if_neg (lt_irrefl i)]
    obtain rfl | hci := eq_or_ne c i
    · by_cases h1 : r = pivot
      · rw [if_pos ⟨h1,rfl⟩,if_pos (Nat.lt_succ_self c),if_neg (by omega),if_pos h1]
      · by_cases h2 : r = row
        · rw [if_neg (by omega),if_pos ⟨h2,rfl⟩,if_pos (Nat.lt_succ_self c),if_pos h2]
        · rw [if_neg (by omega),if_neg (by omega),if_neg (lt_irrefl c),
            if_pos (Nat.lt_succ_self c),if_neg h2,if_neg h1]
    · have : c < i + 1 ↔ c < i := by omega
      rw [if_neg (by omega),if_neg (by omega)]
      simp only [this]
  rw [h r hr c hc,if_pos hc]

/-- The place of a pivot is in the rows left, and without one these are zero in the column. -/
theorem pivotOf_eq (a : Square Nat) (row col : Nat) :
    (pivotOf a row col = none ∧ ∀ r < 64, row ≤ r → entry a r col = 0) ∨
      ∃ pivot, pivotOf a row col = some pivot ∧ row ≤ pivot ∧ pivot < 64 ∧
        entry a pivot col ≠ 0 := by
  cases h : pivotOf a row col with
  | none =>
    refine .inl ⟨rfl,fun r hr hge => ?_⟩
    have hz := List.find?_eq_none.mp h r (List.mem_range'_1.mpr ⟨hge,by omega⟩)
    simpa using hz
  | some pivot =>
    have hmem := List.mem_range'_1.mp (List.mem_of_find?_eq_some h)
    have hne := List.find?_some h
    exact .inr ⟨pivot,rfl,hmem.1,by omega,by simpa using hne⟩

theorem residues_swap (row pivot : Fin 64) :
    residues p (if pivot.val ≠ row.val then swapRows a row pivot else a) =
      (residues p a).submatrix (Equiv.swap row pivot) id := by
  ext i j
  rw [Matrix.submatrix_apply,residues_apply,residues_apply,id_eq]
  split
  · rename_i hne
    rw [swapRows_eq row.isLt pivot.isLt hne i.isLt j.isLt,Equiv.swap_apply_def]
    simp only [← Fin.ext_iff,apply_ite Fin.val]
  · rename_i he
    rw [Fin.ext (not_not.mp he),Equiv.swap_self,Equiv.refl_apply]

theorem Bounded.swap {row pivot : Nat} (hb : Bounded p a) (hrow : row < 64) (hpivot : pivot < 64) :
    Bounded p (if pivot ≠ row then swapRows a row pivot else a) := by
  split
  · rename_i hne
    intro r hr c hc
    rw [swapRows_eq hrow hpivot hne hr hc]
    exact hb _ (by split_ifs <;> omega) c hc
  · exact hb

theorem reduceColumn_eq [hprime : Fact p.Prime] (hp : p < 2 ^ 31) {row pivot col : Nat}
    (hb : Bounded p a) (hred : Reduced (residues p a) row col) (hrow : row < 64) (hcol : col < 64)
    (hge : row ≤ pivot) (hpivot : pivot < 64) (h0 : entry a pivot col ≠ 0) :
    ∃ b, reduceColumn p a row pivot col = some b ∧ Bounded p b ∧
      (residues p b).rank = (residues p a).rank ∧ Reduced (residues p b) (row + 1) (col + 1) := by
  let k : Fin 64 := ⟨row,hrow⟩
  let l : Fin 64 := ⟨pivot,hpivot⟩
  let c : Fin 64 := ⟨col,hcol⟩
  obtain ⟨s,hs⟩ : ∃ s, s = if pivot ≠ row then swapRows a row pivot else a := ⟨_,rfl⟩
  have hmatrix : residues p s = (residues p a).submatrix (Equiv.swap k l) id := by
    rw [hs]
    exact residues_swap k l
  have hbs : Bounded p s := hs ▸ hb.swap hrow hpivot
  have hreds : Reduced (residues p s) k c := hmatrix ▸ hred.swap (k := k) (l := l) le_rfl hge
  have hpiv : residues p s k c ≠ 0 := by
    rw [hmatrix,Matrix.submatrix_apply,Equiv.swap_apply_left,residues_apply]
    exact natCast_ne_zero (hb pivot hpivot col hcol) h0
  have hs0 : entry s row col ≠ 0 := by
    intro hz
    rw [residues_apply] at hpiv
    exact hpiv (by rw [hz,Nat.cast_zero])
  obtain ⟨inv,hinv,hlt,hone⟩ := inverse_eq hprime.out hp (hbs row hrow col hcol) hs0
  have hleft : ∀ c < col, ((entry s row c : Nat) : ZMod p) = 0 := fun j hj =>
    hreds.rest k le_rfl ⟨j,hj.trans hcol⟩ hj
  obtain ⟨b,he,hbb,hbefore,hcleared⟩ := clearBelow_eq hp hbs hlt hrow hcol hone hleft
  have hbefore' : ∀ i ≤ k, residues p b i = residues p s i := by
    intro i hi
    funext j
    rw [residues_apply,residues_apply,hbefore i hi j j.isLt]
  choose! f hzero hval using fun i : Fin 64 => hcleared i i.isLt
  have hafter' : ∀ i, k < i → residues p b i = residues p s i - f i • residues p s k := by
    intro i hi
    funext j
    exact hval i hi j j.isLt
  refine ⟨b,?_,hbb,?_,hreds.clear hpiv hbefore' hafter' fun i hi => hzero i hi⟩
  · rw [reduceColumn,← hs]
    simp only [hinv,Option.bind_some,he]
  · rw [rank_clear hbefore' hafter',hmatrix,rank_swap]

theorem rankFrom_eq [Fact p.Prime] (hp : p < 2 ^ 31) {left row col : Nat}
    (hleft : 64 - col = left) (hcol : col ≤ 64) (hb : Bounded p a)
    (hred : Reduced (residues p a) row col) : rankFrom p a row col = some (residues p a).rank := by
  induction left generalizing a row col with
  | zero =>
    rw [rankFrom,if_neg (by omega),hred.rank_eq (.inl (by omega))]
  | succ left ih =>
    rw [rankFrom]
    by_cases hrow : row < 64
    · rw [if_pos ⟨by omega,hrow⟩]
      obtain ⟨hnone,hzero⟩ | ⟨pivot,hsome,hge,hlt,h0⟩ := pivotOf_eq a row col
      · rw [hnone]
        refine ih (by omega) (by omega) hb (hred.skip (c := ⟨col,by omega⟩) fun i hi => ?_)
        rw [residues_apply,hzero i i.isLt hi,Nat.cast_zero]
      · obtain ⟨b,he,hbb,hrank,hredb⟩ :=
          reduceColumn_eq hp hb hred hrow (by omega) hge hlt h0
        rw [hsome,← hrank]
        simp only [he,Option.bind_some]
        exact ih (by omega) (by omega) hbb hredb
    · rw [if_neg (by omega),hred.rank_eq (.inr (by omega))]

theorem entry_widen {r c : Nat} (hr : r < 64) (hc : c < 64) :
    entry (widen m) r c = (entry m r c).toNat := by
  let P : Nat → Square Nat → Prop := fun i b => ∀ r < i, ∀ c < 64,
    entry b r c = (entry m r c).toNat
  have h : P 64 (widen m) := by
    refine upTo_invariant (P := P) (fun r hr => absurd hr (Nat.not_lt_zero r)) fun i hi b hP => ?_
    let Q : Nat → Square Nat → Prop := fun j b => ∀ r ≤ i, ∀ c < 64, r < i ∨ c < j →
      entry b r c = (entry m r c).toNat
    have hrow := upTo_invariant (n := 64) (P := Q) (s := b)
      (f := fun j b => put b i j (entry m i j).toNat)
      (fun r _ c hc hor => hP r (by omega) c hc) fun j hj b hQ r hr c hc hor => by
        rw [entry_put hi hj hc]
        split
        · rename_i he
          rw [he.1,he.2]
        · exact hQ r hr c hc (by omega)
    exact fun r hr c hc => hrow r (by omega) c hc (by omega)
  exact h r hr c hc

theorem residues_widen : residues p (widen m) = overField p m := by
  ext i j
  rw [residues_apply,entry_widen i.isLt j.isLt]
  simp [overField,integers]

theorem rankMod_eq (hprime : p.Prime) (hp : p < 2 ^ 31)
    (hb : ∀ i < 64, ∀ j < 64, (entry m i j).toNat < p) :
    rankMod m p = some (overField p m).rank := by
  have := Fact.mk hprime
  rw [← residues_widen,rankMod]
  refine rankFrom_eq hp rfl (Nat.zero_le 64) (fun r hr c hc => ?_) (Reduced.start _)
  rw [entry_widen hr hc]
  exact hb r hr c hc

theorem overField_rank_iff (hprime : p.Prime) (m : Square (BitVec 8)) :
    (overField p m).rank = 64 ↔ ¬(p : ℤ) ∣ (integers m).det := by
  have := Fact.mk hprime
  rw [rank_eq_iff_det,overField,← RingHom.mapMatrix_apply,← RingHom.map_det,Int.coe_castRingHom,
    Ne,ZMod.intCast_zmod_eq_zero_iff_dvd]

/-! ### The two primes -/

theorem prime_first : Nat.Prime 2147483647 := by
  have h := lucas_lehmer_sufficiency 31 (by norm_num) (by norm_num)
  rwa [show mersenne 31 = 2147483647 by norm_num [mersenne]] at h

theorem natCast_ne_one {q c : Nat} (h : c % q ≠ 1 % q) : ((c : Nat) : ZMod q) ≠ 1 := by
  rw [← Nat.cast_one,Ne,ZMod.natCast_eq_natCast_iff']
  exact h

theorem prime_factor : Nat.Prime 59652323 := by
  refine lucas_primality _ 2 (by reduce_mod_char) fun q hq hd => ?_
  have hd : q ∣ 2 * 4813 * 6197 := hd
  rw [Nat.Prime.dvd_mul hq,Nat.Prime.dvd_mul hq,Nat.prime_dvd_prime_iff_eq hq (by norm_num),
    Nat.prime_dvd_prime_iff_eq hq (by norm_num),Nat.prime_dvd_prime_iff_eq hq (by norm_num)] at hd
  rcases hd with (rfl | rfl) | rfl <;>
  · norm_num only
    reduce_mod_char
    exact natCast_ne_one (by decide)

theorem prime_second : Nat.Prime 2147483629 := by
  refine lucas_primality _ 2 (by reduce_mod_char) fun q hq hd => ?_
  have hd : q ∣ 2 ^ 2 * 3 ^ 2 * 59652323 := hd
  rw [Nat.Prime.dvd_mul hq,Nat.Prime.dvd_mul hq,Nat.prime_dvd_prime_iff_eq hq prime_factor] at hd
  have hq : q = 2 ∨ q = 3 ∨ q = 59652323 := by
    rcases hd with (h | h) | h
    · exact .inl ((Nat.prime_dvd_prime_iff_eq hq Nat.prime_two).mp (hq.dvd_of_dvd_pow h))
    · exact .inr (.inl ((Nat.prime_dvd_prime_iff_eq hq Nat.prime_three).mp (hq.dvd_of_dvd_pow h)))
    · exact .inr (.inr h)
  rcases hq with rfl | rfl | rfl <;>
  · norm_num only
    reduce_mod_char
    exact natCast_ne_one (by decide)

theorem rankMod_of_large (hprime : p.Prime) (hp : p < 2 ^ 31) (hlow : 2 ^ 8 ≤ p) :
    rankMod m p = some (overField p m).rank :=
  rankMod_eq hprime hp fun i _ j _ => (entry m i j).isLt.trans_le hlow

/-- No step of the elimination overflows or divides by zero, the number it gives is the rank over
the prime's field, and a matrix passes where one of the two primes does not divide its
determinant, which then is not zero. -/
theorem full_rank_exact (m : Square (BitVec 8)) :
    (∀ p, p.Prime → p < 2 ^ 31 → (∀ i < 64, ∀ j < 64, (entry m i j).toNat < p) →
      rankMod m p = some (overField p m).rank) ∧
    ∃ full, heavyhashFullRank m = some full ∧
      (full = true ↔
        ¬((2147483647 : ℤ) ∣ (integers m).det ∧ (2147483629 : ℤ) ∣ (integers m).det)) ∧
      (full = true → (rationals m).det ≠ 0) := by
  refine ⟨fun p hprime hp hb => rankMod_eq hprime hp hb,?_⟩
  have hfirst := rankMod_of_large (m := m) prime_first (by norm_num) (by norm_num)
  have hsecond := rankMod_of_large (m := m) prime_second (by norm_num) (by norm_num)
  have hiff1 := overField_rank_iff prime_first m
  have hiff2 := overField_rank_iff prime_second m
  push_cast at hiff1 hiff2
  obtain ⟨full,hfull,hval⟩ : ∃ full, heavyhashFullRank m = some full ∧ (full = true ↔
      (overField 2147483647 m).rank = 64 ∨ (overField 2147483629 m).rank = 64) := by
    rw [heavyhashFullRank,hfirst,hsecond]
    by_cases h : (overField 2147483647 m).rank = 64
    · exact ⟨true,by simp [h],by simp [h]⟩
    · exact ⟨decide ((overField 2147483629 m).rank = 64),by simp [h],by simp [h]⟩
  have hdivides : full = true ↔
      ¬((2147483647 : ℤ) ∣ (integers m).det ∧ (2147483629 : ℤ) ∣ (integers m).det) := by
    rw [hval,hiff1,hiff2,not_and_or]
  refine ⟨full,hfull,hdivides,fun h hz => hdivides.mp h ?_⟩
  have hdet : (integers m).det = 0 := by
    rw [rationals,← RingHom.mapMatrix_apply,← RingHom.map_det,Int.coe_castRingHom] at hz
    exact Int.cast_eq_zero.mp hz
  rw [hdet]
  exact ⟨dvd_zero _,dvd_zero _⟩

def unit : Square (BitVec 8) := Vector.ofFn fun k => if k.val / 64 = k.val % 64 then 1 else 0

theorem entry_unit {i j : Nat} (hi : i < 64) (hj : j < 64) :
    entry unit i j = if i = j then 1 else 0 := by
  rw [entry,unit,read_ofFn _ (by omega : 64 * i + j < 4096)]
  simp only [show (64 * i + j) / 64 = i by omega,show (64 * i + j) % 64 = j by omega]

theorem unit_full_rank :
    rankMod unit 2147483647 = some (overField 2147483647 unit).rank ∧
      heavyhashFullRank unit = some true := by
  obtain ⟨hrank,full,hfull,hiff,-⟩ := full_rank_exact unit
  have hone : integers unit = 1 := by
    ext i j
    rw [integers,Matrix.of_apply,entry_unit i.isLt j.isLt,Matrix.one_apply]
    simp only [Fin.ext_iff]
    split <;> rfl
  refine ⟨hrank _ prime_first (by norm_num) fun i hi j hj => ?_,?_⟩
  · exact (entry unit i j).isLt.trans (by norm_num)
  · rw [hfull,hiff.mpr]
    rw [hone,Matrix.det_one]
    norm_num

end VkMiner.Heavyhash
