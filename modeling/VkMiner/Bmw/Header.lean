import Mathlib.Data.BitVec
import Mathlib.Tactic.Abel
import Mathlib.Tactic.IntervalCases
import VkMiner.Bmw.Lanes
set_option autoImplicit false

/-! The device's compression against the host's, over whole words: all of it, and from the sums that
the host worked out for a header. -/

namespace VkMiner.Bmw
open Loops Halves Sha256d Glsl

variable {m h : Cells Word64 16} {q q' : Cells Word64 32} {i j k : Nat}

/-! ### All of a compression -/

theorem addElt_eq (m h : Cells Word64 16) (hi : i < 16) :
    addElt int64 m h i = addElement m h i := by
  have hk : int64.blane (bmw512KWords[i]?.getD (0,0)).1 (bmw512KWords[i]?.getD (0,0)).2 =
      BitVec.ofNat 64 (i + 16) * 0x0555555555555555 := by
    interval_cases i <;> decide
  rw [addElt,hk]
  rfl

theorem bmwExpand1_eq (m h : Cells Word64 16) (q : Cells Word64 32) (hj : 16 ≤ j) (hj' : j < 18) :
    bmwExpand1 int64 m h q j = expand1 m h j q := by
  rw [bmwExpand1,addElt_eq m h (by omega),expand1]
  interval_cases j <;> rfl

theorem bmwExpand2_eq (m h : Cells Word64 16) (q : Cells Word64 32) (hj : 18 ≤ j) (hj' : j < 32) :
    bmwExpand2 int64 m h q j = expand2 m h j q := by
  rw [bmwExpand2,addElt_eq m h (by omega),expand2]
  simp only [upTo,← BitVec.add_assoc]
  interval_cases j <;> rfl

theorem bmw512F0_eq (q : Cells Word64 32) (h m : Cells Word64 16) :
    bmw512F0 int64 q h m = f0 q h m := rfl

theorem bmw512F2_eq (h : Cells Word64 16) (q : Cells Word64 32) (m : Cells Word64 16) :
    bmw512F2 int64 h q m = f2 h q m := rfl

theorem bmw512Compress_eq (h m : Cells Word64 16) : bmw512Compress int64 h m = compress h h m := by
  simp (disch := decide) only [bmw512Compress,bmw512F2_eq,bmw512F0_eq,bmwExpand1_eq,bmwExpand2_eq,
    compress,f1,upTo]

theorem f2_out (out out' : Cells Word64 16) (q : Cells Word64 32) (m : Cells Word64 16) :
    f2 out q m = f2 out' q m := by
  have hlow {i : Nat} {u v : Cells Word64 16} {xl t : Word64} (h : Cells.Agree i u v)
      (hi : i < 16) : Cells.Agree (i + 1) (foldLow xl q u i t) (foldLow xl q v i t) :=
    h.write hi rfl
  have hhigh {i k c : Nat} {u v : Cells Word64 16} {xh t : Word64} (h : Cells.Agree i u v)
      (hi : i < 16) (hk : k < i) :
      Cells.Agree (i + 1) (foldHigh xh q m u i k c t) (foldHigh xh q m v i k c t) :=
    h.write hi (by rw [h k hk])
  refine Cells.Agree.eq ?_
  rw [f2,f2]
  iterate 8 refine hhigh ?_ (by decide) (by decide)
  iterate 8 refine hlow ?_ (by decide)
  exact Cells.Agree.none out out'

theorem bmw512Final_eq (h : Cells Word64 16) : bmw512Final int64 h =
    compress (Cells.blank 16) (upTo 16 (Cells.blank 16) fun i fin =>
      fin.write i (0xaaaaaaaaaaaaaaa0 + BitVec.ofNat 64 i)) h := by
  have hfin : (upTo 16 h fun i h =>
      h.write i (int64.blane (0xaaaaaaa0 + BitVec.ofNat 32 i) 0xaaaaaaaa)) =
        upTo 16 (Cells.blank 16) fun i fin =>
          fin.write i (0xaaaaaaaaaaaaaaa0 + BitVec.ofNat 64 i) := by
    refine Cells.ext _ _ fun i hi => ?_
    rw [Cells.read_fill _ _ (Nat.le_refl 16),Cells.read_fill _ _ (Nat.le_refl 16),if_pos hi,
      if_pos hi]
    interval_cases i <;> decide
  rw [bmw512Final,hfin,bmw512Compress_eq,compress,f2_out]
  rfl

/-! ### The words of `f0` -/

def reads9 (i : Nat) (x : Word64) : Word64 :=
  if i = 2 ∨ i = 4 ∨ i = 11 then x else if i = 12 ∨ i = 15 then -x else 0

theorem f0W_reads9 (x : Cells Word64 16) (hi : i < 16) :
    f0W x i = f0W (x.write 9 0) i + reads9 i (x.read 9) := by
  simp only [f0W,upTo,reads9]
  interval_cases i <;>
    simp (disch := decide) [wIndex,wMinus,Cells.read_write_ne,Cells.read_write_self] <;> abel

theorem qReadsNonce_eq (hk : k < 32) : qReadsNonce k = bmwVar k := by
  interval_cases k <;> decide

theorem reads9_still (x : Word64) (hi : i < 16) (hv : bmwVar i = false) : reads9 i x = 0 := by
  interval_cases i <;> first | rfl | exact absurd hv (by decide)

/-! ### Sums whose terms are added in two turns -/

theorem sum_shift (n : Nat) (a b : Word64) (c : Nat → Word64) :
    (upTo n (a + b) fun k v => v + c k) = (upTo n a fun k v => v + c k) + b := by
  induction n with
  | zero => rfl
  | succ n ih => rw [upTo,upTo,ih,add_right_comm]

theorem sum_turns (n : Nat) (a : Word64) (c d : Nat → Word64) :
    (upTo n (upTo n a fun k v => v + c k) fun k v => v + d k) =
      upTo n a fun k v => v + (c k + d k) := by
  induction n with
  | zero => rfl
  | succ n ih => rw [upTo,upTo,upTo,sum_shift,ih,add_assoc]

def now (k : Nat) (t : Word64) : Word64 := if bmwVar k then 0 else t

def later (k : Nat) (t : Word64) : Word64 := if bmwVar k then t else 0

theorem addIf_eq (k : Nat) (v t : Word64) : addIf int64 k v t = v + later k t := by
  rw [addIf,later]
  split
  · rfl
  · exact (add_zero v).symm

theorem keep_eq (hk : k < 32) (v t : Word64) :
    (if qReadsNonce k then v else v + t) = v + now k t := by
  rw [qReadsNonce_eq hk,now]
  split
  · exact (add_zero v).symm
  · rfl

/-- The device's words and the host's, where they do not read the nonce, are the same. -/
def Still (q q₀ : Cells Word64 32) : Prop := ∀ k < 32, bmwVar k = false → q.read k = q₀.read k

theorem now_later {q₀ : Cells Word64 32} (hq : Still q q₀) (hk : k < 32) (f : Word64 → Word64) :
    now k (f (q₀.read k)) + later k (f (q.read k)) = f (q.read k) := by
  rw [now,later]
  cases hv : bmwVar k with
  | true => exact zero_add _
  | false =>
    rw [← hq k hk hv]
    exact add_zero _

theorem Still.write {q₀ : Cells Word64 32} (hq : Still q q₀) (hj : 16 ≤ j) (x : Word64) :
    Still (q.write j x) q₀ := by
  intro k hk hv
  have hlt : k < 16 := by
    by_contra h
    simp [bmwVar,Nat.not_lt.mp h] at hv
  rw [Cells.read_write_ne _ _ (by omega),hq k hk hv]

/-! ### The further words, from the host's sums -/

def SameBut9 (m m₀ : Cells Word64 16) : Prop := ∀ k, k ≠ 9 → m.read k = m₀.read k

theorem addElement_still {m₀ : Cells Word64 16} (h : Cells Word64 16) (hi : i < 16)
    (hm : SameBut9 m m₀) (hr : addReadsNonce i = false) :
    addElement (m₀.write 9 0) h i = addElement m h i := by
  have hne : ∀ i < 16, addReadsNonce i = false →
      i ≠ 9 ∧ (i + 3) % 16 ≠ 9 ∧ (i + 10) % 16 ≠ 9 := by decide
  obtain ⟨h0,h3,h10⟩ := hne i hi hr
  rw [addElement,addElement,addSum,addSum,Cells.read_write_ne _ _ h0.symm,
    Cells.read_write_ne _ _ h3.symm,Cells.read_write_ne _ _ h10.symm,hm _ h0,hm _ h3,hm _ h10]

theorem expand1Job_loop (job : Bmw512Uniform) (q : Cells Word64 32) (hj : 16 ≤ j) (hj' : j < 18) :
    bmwExpand1Job int64 job q j = q.write j (upTo 16 (bmw512Job int64 job j)
      fun k v => v + later (j - 16 + k) (sOf ((k + 1) % 4) (q.read (j - 16 + k)))) := by
  have hs : sOf 0 = int64.bmwS0 ∧ sOf 1 = int64.bmwS1 ∧ sOf 2 = int64.bmwS2 ∧
      sOf 3 = int64.bmwS3 := ⟨rfl,rfl,rfl,rfl⟩
  obtain ⟨h0,h1,h2,h3⟩ := hs
  simp only [bmwExpand1Job,addIf_eq,upTo]
  interval_cases j <;> norm_num only [h0,h1,h2,h3]

theorem expand1Job_eq {job : Bmw512Uniform} {m₀ : Cells Word64 16} {q₀ : Cells Word64 32}
    (hj : 16 ≤ j) (hj' : j < 18) (hq : Still q q₀)
    (hjob : bmw512Job int64 job j = sum1 (m₀.write 9 0) h q₀ j) (hm : SameBut9 m m₀) :
    bmwExpand1Job int64 job q j = expand1 m h j q := by
  have hr : addReadsNonce (j - 16) = false := by interval_cases j <;> rfl
  have hsum : sum1 (m₀.write 9 0) h q₀ j = upTo 16 (addElement m h (j - 16)) fun k v =>
      v + now (j - 16 + k) (sOf ((k + 1) % 4) (q₀.read (j - 16 + k))) := by
    rw [sum1,hr,← addElement_still h (by omega) hm hr]
    refine upTo_congr _ fun k hk v => ?_
    rw [keep_eq (by omega)]
  rw [expand1Job_loop job q hj hj',hjob,hsum,sum_turns,expand1]
  refine congrArg (q.write j) (upTo_congr _ fun k hk v => ?_)
  rw [now_later hq (by omega)]

theorem expand2Job_eq {job : Bmw512Uniform} {m₀ : Cells Word64 16} {q₀ : Cells Word64 32}
    {add : Word64} (hj : 18 ≤ j) (hj' : j < 32) (hq : Still q q₀)
    (hjob : bmw512Job int64 job j = sum2 (m₀.write 9 0) h q₀ j)
    (hadd : (if addReadsNonce (j - 16) then 0 else addElement (m₀.write 9 0) h (j - 16)) + add =
      addElement m h (j - 16)) :
    bmwExpand2Job int64 job q j add = expand2 m h j q := by
  have hloop : bmwExpand2Job int64 job q j add = q.write j
      ((upTo 7 (bmw512Job int64 job j + add) fun k v =>
        v + later (j - 16 + 2*k) (q.read (j - 16 + 2*k)) +
          later (j - 15 + 2*k) (rotl (q.read (j - 15 + 2*k)) (r (2*k / 2 + 1)))) +
        s4 (q.read (j - 2)) + s5 (q.read (j - 1))) := by
    simp only [bmwExpand2Job,addIf_eq]
    interval_cases j <;> rfl
  have hsum : sum2 (m₀.write 9 0) h q₀ j =
      upTo 7 (if addReadsNonce (j - 16) then 0 else addElement (m₀.write 9 0) h (j - 16))
        fun k v => v + (now (j - 16 + 2*k) (q₀.read (j - 16 + 2*k)) +
          now (j - 15 + 2*k) (rotl (q₀.read (j - 15 + 2*k)) (r (2*k / 2 + 1)))) := by
    rw [sum2]
    refine upTo_congr _ fun k hk v => ?_
    simp only [keep_eq (by omega : j - 16 + 2*k < 32),keep_eq (by omega : j - 15 + 2*k < 32)]
    rw [add_assoc]
  simp only [add_assoc _ (later _ _) (later _ _)] at hloop
  rw [hloop,hjob,hsum,← sum_shift 7 _ add,hadd,sum_turns,expand2]
  refine congrArg (fun v => q.write j (v + s4 (q.read (j - 2)) + s5 (q.read (j - 1))))
    (upTo_congr _ fun k hk v => ?_)
  have ha := now_later hq (by omega : j - 16 + 2*k < 32) id
  have hb := now_later hq (by omega : j - 15 + 2*k < 32) (rotl · (r (2*k / 2 + 1)))
  simp only [id] at ha hb
  rw [add_add_add_comm,ha,hb]

/-! ### The whole header -/

section Job
variable {header : List Byte} {job : Bmw512Uniform}

def Holds (job : Bmw512Uniform) (words : Cells Word64 35) : Prop :=
  ∀ i < 35, bmw512Job int64 job i = words.read i

theorem holds_vectors (words : Cells Word64 35) : Holds ⟨vectors words⟩ words := by
  intro i hi
  have hvec : (vectors words)[i >>> 1]?.getD (Words.zeros 4) =
      #v[(words.read (2*(i >>> 1))).setWidth 32,(words.read (2*(i >>> 1)) >>> 32).setWidth 32,
        (words.read (2*(i >>> 1) + 1)).setWidth 32,
        (words.read (2*(i >>> 1) + 1) >>> 32).setWidth 32] := by
    have hs : i >>> 1 < 18 := by rw [Nat.shiftRight_eq_div_pow]; omega
    simp [vectors,hs]
  have hjoin (x : Word64) : int64.blane (x.setWidth 32) ((x >>> 32).setWidth 32) = x :=
    (join_eq (split x)).symm.trans (join_split x)
  simp only [bmw512Job,hvec]
  rw [Nat.and_one_is_mod,Nat.shiftRight_eq_div_pow]
  obtain h | h := Nat.mod_two_eq_zero_or_one i
  · rw [if_pos h]
    exact (hjoin _).trans (by rw [show 2*(i/2^1) = i by omega])
  · rw [if_neg (by omega)]
    exact (hjoin _).trans (by rw [show 2*(i/2^1) + 1 = i by omega])

theorem precompute_read (header : List Byte) (hi : i < 35) :
    let m := blockWords (headerBlock header)
    let q := f0 (Cells.blank 32) iv m
    (bmw51280Precompute header).read i =
      if i < 16 then (if qReadsNonce i then f0W ((mixed m iv).write 9 0) i else q.read i)
      else if i < 18 then sum1 (m.write 9 0) iv q i
      else if i < 32 then sum2 (m.write 9 0) iv q i
      else addSum (m.write 9 0) (if i = 32 then 6 else if i = 33 then 9 else 15) := by
  intro m q
  by_cases h : i < 32
  · rw [bmw51280Precompute,Cells.read_write_ne _ _ (by omega),Cells.read_write_ne _ _ (by omega),
      Cells.read_write_ne _ _ (by omega),
      Cells.read_update (g := fun c => if 16 + c < 18 then sum1 (m.write 9 0) iv q (16 + c)
        else sum2 (m.write 9 0) iv q (16 + c)) _ 16 (by omega) (fun _ _ _ _ => rfl)]
    by_cases h' : i < 16
    · rw [if_neg (by omega),if_pos h',Cells.read_fill _ _ (by omega),if_pos h']
    · rw [if_pos (by omega),if_neg h',Nat.add_sub_cancel' (by omega)]
      simp only [h,if_true]
  · rw [if_neg (by omega),if_neg (by omega),if_neg h,bmw51280Precompute]
    obtain rfl | rfl | rfl : i = 32 ∨ i = 33 ∨ i = 34 := by omega
    all_goals
      simp (disch := decide) only [Cells.read_write_ne,Cells.read_write_self]
      rfl

theorem f0_read (h m : Cells Word64 16) (i : Nat) : (f0 (Cells.blank 32) h m).read i =
    if i < 16 then sOf (i % 5) (f0W (mixed m h) i) + h.read ((i + 1) % 16)
    else (Cells.blank 32 : Cells Word64 32).read i := by
  rw [f0,Cells.read_fill _ _ (by omega)]

theorem mixed_read (m h : Cells Word64 16) (hi : i < 16) :
    (mixed m h).read i = m.read i ^^^ h.read i := by
  rw [mixed,Cells.read_fill _ _ (Nat.le_refl 16),if_pos hi]

theorem f0W_same {m₀ : Cells Word64 16} (h : Cells Word64 16) (hm : SameBut9 m m₀) (hi : i < 16) :
    f0W (mixed m h) i = f0W ((mixed m₀ h).write 9 0) i + reads9 i (m.read 9 ^^^ h.read 9) := by
  have hx : (mixed m h).write 9 0 = (mixed m₀ h).write 9 0 := by
    refine Cells.ext _ _ fun k hk => ?_
    obtain rfl | hne := eq_or_ne 9 k
    · rw [Cells.read_write_self _ _ hk,Cells.read_write_self _ _ hk]
    · rw [Cells.read_write_ne _ _ hne,Cells.read_write_ne _ _ hne,mixed_read _ _ hk,
        mixed_read _ _ hk,hm k hne.symm]
  rw [f0W_reads9 _ hi,hx,mixed_read _ _ (by omega)]

theorem f0_still {m₀ : Cells Word64 16} (h : Cells Word64 16) (hm : SameBut9 m m₀) :
    Still (f0 (Cells.blank 32) h m) (f0 (Cells.blank 32) h m₀) := by
  intro k hk hv
  rw [f0_read,f0_read]
  by_cases hk' : k < 16
  · rw [if_pos hk',if_pos hk',f0W_same h hm hk',f0W_same h (fun _ _ => rfl : SameBut9 m₀ m₀) hk',
      reads9_still _ hk' hv,reads9_still _ hk' hv]
  · rw [if_neg hk',if_neg hk']

variable {m₀ : Cells Word64 16}

theorem nonceWord_self (q : Cells Word64 32) (h : Cells Word64 16) (s : Word64 → Word64)
    (op : Word64 → Word64 → Word64) (x : Word64) (hi : i < 32) :
    (nonceWord int64 q h i s op x).read i = s (op (q.read i) x) + h.read ((i + 1) % 16) :=
  Cells.read_write_self _ _ hi

theorem nonceWord_ne (q : Cells Word64 32) (h : Cells Word64 16) (s : Word64 → Word64)
    (op : Word64 → Word64 → Word64) (x : Word64) (hne : j ≠ i) :
    (nonceWord int64 q h j s op x).read i = q.read i := Cells.read_write_ne _ _ hne

theorem loaded_read (hjob : Holds job (bmw51280Precompute header))
    (hm : SameBut9 m (blockWords (headerBlock header))) (hi : i < 16) :
    (upTo 16 (Cells.blank 32) fun i q => q.write i (bmw512Job int64 job i)).read i =
      if bmwVar i then f0W ((mixed (blockWords (headerBlock header)) iv).write 9 0) i
      else (f0 (Cells.blank 32) iv m).read i := by
  rw [Cells.read_fill _ _ (by omega),if_pos hi,hjob i (by omega),precompute_read _ (by omega),
    if_pos hi,qReadsNonce_eq (by omega)]
  cases hv : bmwVar i with
  | true => rw [if_pos rfl,if_pos rfl]
  | false => rw [if_neg Bool.false_ne_true,if_neg Bool.false_ne_true,f0_still iv hm i (by omega) hv]

theorem header_words (hjob : Holds job (bmw51280Precompute header))
    (hm : SameBut9 m (blockWords (headerBlock header))) :
    let x9 := int64.bxor (m.read 9) (iv.read 9)
    nonceWord int64 (nonceWord int64 (nonceWord int64 (nonceWord int64 (nonceWord int64
      (upTo 16 (Cells.blank 32) fun i q => q.write i (bmw512Job int64 job i)) iv 2 int64.bmwS2
        int64.badd x9) iv 4 int64.bmwS4 int64.badd x9) iv 11 int64.bmwS1 int64.badd x9) iv 12
          int64.bmwS2 int64.bsub x9) iv 15 int64.bmwS0 int64.bsub x9 =
      f0 (Cells.blank 32) iv m := by
  intro x9
  refine Cells.ext _ _ fun i hi => ?_
  by_cases h : i < 16
  · have hread := loaded_read hjob hm h
    have hvar : ∀ i < 16, bmwVar i = true → i = 2 ∨ i = 4 ∨ i = 11 ∨ i = 12 ∨ i = 15 := by decide
    cases hv : bmwVar i with
    | true =>
      have hword := f0_read iv m i
      rw [if_pos h,f0W_same iv hm h] at hword
      rw [if_pos hv] at hread
      obtain rfl | rfl | rfl | rfl | rfl := hvar i h hv <;>
        simp (disch := decide) only [nonceWord_ne,nonceWord_self,hread,hword]
      · rfl
      · rfl
      · rfl
      · exact congrArg (fun w => s2 w + iv.read 13) (sub_eq_add_neg _ x9)
      · exact congrArg (fun w => s0 w + iv.read 0) (sub_eq_add_neg _ x9)
    | false =>
      have hne : ∀ i < 16, bmwVar i = false → 2 ≠ i ∧ 4 ≠ i ∧ 11 ≠ i ∧ 12 ≠ i ∧ 15 ≠ i := by decide
      obtain ⟨h2,h4,h11,h12,h15⟩ := hne i h hv
      rw [nonceWord_ne _ _ _ _ _ h15,nonceWord_ne _ _ _ _ _ h12,nonceWord_ne _ _ _ _ _ h11,
        nonceWord_ne _ _ _ _ _ h4,nonceWord_ne _ _ _ _ _ h2,hread,hv]
      exact if_neg Bool.false_ne_true
  · simp (disch := omega) only [nonceWord_ne]
    rw [Cells.read_fill _ _ (by omega),if_neg h,f0_read,if_neg h]

theorem still_expand1 {q₀ : Cells Word64 32} (hq : Still q q₀) (hj : 16 ≤ j) :
    Still (expand1 m h j q) q₀ := hq.write hj _

theorem still_expand2 {q₀ : Cells Word64 32} (hq : Still q q₀) (hj : 16 ≤ j) :
    Still (expand2 m h j q) q₀ := hq.write hj _

theorem added_eq (hjob : Holds job (bmw51280Precompute header))
    (hm : SameBut9 m (blockWords (headerBlock header))) :
    let r9 := int64.brotl (m.read 9) 10
    int64.bxor (int64.badd (bmw512Job int64 job 32) r9) (iv.read 13) = addElement m iv 6 ∧
      int64.bxor (int64.badd (bmw512Job int64 job 33) r9) (iv.read 0) = addElement m iv 9 ∧
      int64.bxor (int64.bsub (bmw512Job int64 job 34) r9) (iv.read 6) = addElement m iv 15 := by
  intro r9
  have hzero : rotl (0 : Word64) (9 + 1) = 0 := by decide
  have hjob' (c i : Nat) (hc : 32 ≤ c) (hc' : c < 35)
      (hi : (if c = 32 then 6 else if c = 33 then 9 else 15) = i) :
      bmw512Job int64 job c = addSum ((blockWords (headerBlock header)).write 9 0) i := by
    rw [hjob c hc',precompute_read _ hc',if_neg (by omega),if_neg (by omega),if_neg (by omega),hi]
  have hself (u : Cells Word64 16) : Cells.read (Cells.write u 9 0) 9 = 0 :=
    Cells.read_write_self u 0 (by decide : 9 < 16)
  have hother (k : Nat) (hk : k ≠ 9) :
      ((blockWords (headerBlock header)).write 9 0).read k = m.read k := by
    rw [Cells.read_write_ne _ _ hk.symm,hm k hk]
  rw [hjob' 32 6 (by omega) (by omega) rfl,hjob' 33 9 (by omega) (by omega) rfl,
    hjob' 34 15 (by omega) (by omega) rfl]
  refine ⟨congrArg (· ^^^ iv.read 13) ?_,congrArg (· ^^^ iv.read 0) ?_,
    congrArg (· ^^^ iv.read 6) ?_⟩
  all_goals
    simp (disch := decide) only [addSum,hself,hother,hzero,add_zero,sub_zero]
  · exact (by intros; abel : ∀ a b c r : Word64, a - b + c + r = a + r - b + c) _ _ _ _
  · exact (by intros; abel : ∀ a b c r : Word64, 0 + a - b + c + r = r + a - b + c) _ _ _ _
  · exact (by intros; abel : ∀ a b c r : Word64, a + b + c - r = a + b - r + c) _ _ _ _

theorem compressHeader_eq (hjob : Holds job (bmw51280Precompute header))
    (hm : SameBut9 m (blockWords (headerBlock header))) :
    bmw512CompressHeader int64 job iv m = compress iv iv m := by
  have hf0 := header_words hjob hm
  have hstill := f0_still iv hm
  obtain ⟨h6,h9,h15⟩ := added_eq hjob hm
  have sum (j : Nat) (hj : 16 ≤ j) (hj' : j < 18) : bmw512Job int64 job j =
      sum1 ((blockWords (headerBlock header)).write 9 0) iv
        (f0 (Cells.blank 32) iv (blockWords (headerBlock header))) j := by
    rw [hjob j (by omega),precompute_read _ (by omega),if_neg (by omega),if_pos hj']
  have sum' (j : Nat) (hj : 18 ≤ j) (hj' : j < 32) : bmw512Job int64 job j =
      sum2 ((blockWords (headerBlock header)).write 9 0) iv
        (f0 (Cells.blank 32) iv (blockWords (headerBlock header))) j := by
    rw [hjob j (by omega),precompute_read _ (by omega),if_neg (by omega),if_neg (by omega),
      if_pos hj']
  have e1 (j : Nat) (q : Cells Word64 32) (hj : 16 ≤ j) (hj' : j < 18)
      (hq : Still q (f0 (Cells.blank 32) iv (blockWords (headerBlock header)))) :=
    expand1Job_eq hj hj' hq (sum j hj hj') hm
  have e2 (j : Nat) (q : Cells Word64 32) (hj : 18 ≤ j) (hj' : j < 32)
      (hq : Still q (f0 (Cells.blank 32) iv (blockWords (headerBlock header))))
      (hr : addReadsNonce (j - 16) = false) :
      bmwExpand2Job int64 job q j (int64.blane 0 0) = expand2 m iv j q := by
    refine expand2Job_eq hj hj' hq (sum' j hj hj') ?_
    rw [hr,← addElement_still iv (by omega) hm hr]
    exact add_zero _
  have e3 (j : Nat) (q : Cells Word64 32) (hj : 18 ≤ j) (hj' : j < 32)
      (hq : Still q (f0 (Cells.blank 32) iv (blockWords (headerBlock header))))
      (hr : addReadsNonce (j - 16) = true) :
      bmwExpand2Job int64 job q j (addElement m iv (j - 16)) = expand2 m iv j q := by
    refine expand2Job_eq hj hj' hq (sum' j hj hj') ?_
    rw [hr]
    exact zero_add _
  have s16 := still_expand1 (m := m) (h := iv) hstill (by omega : 16 ≤ 16)
  have s17 := still_expand1 (m := m) (h := iv) s16 (by omega : 16 ≤ 17)
  have s18 := still_expand2 (m := m) (h := iv) s17 (by omega : 16 ≤ 18)
  have s19 := still_expand2 (m := m) (h := iv) s18 (by omega : 16 ≤ 19)
  have s20 := still_expand2 (m := m) (h := iv) s19 (by omega : 16 ≤ 20)
  have s21 := still_expand2 (m := m) (h := iv) s20 (by omega : 16 ≤ 21)
  have s22 := still_expand2 (m := m) (h := iv) s21 (by omega : 16 ≤ 22)
  have s23 := still_expand2 (m := m) (h := iv) s22 (by omega : 16 ≤ 23)
  have s24 := still_expand2 (m := m) (h := iv) s23 (by omega : 16 ≤ 24)
  have s25 := still_expand2 (m := m) (h := iv) s24 (by omega : 16 ≤ 25)
  have s26 := still_expand2 (m := m) (h := iv) s25 (by omega : 16 ≤ 26)
  have s27 := still_expand2 (m := m) (h := iv) s26 (by omega : 16 ≤ 27)
  have s28 := still_expand2 (m := m) (h := iv) s27 (by omega : 16 ≤ 28)
  have s29 := still_expand2 (m := m) (h := iv) s28 (by omega : 16 ≤ 29)
  have s30 := still_expand2 (m := m) (h := iv) s29 (by omega : 16 ≤ 30)
  simp only [bmw512CompressHeader]
  rw [hf0,e1 16 _ (by omega) (by omega) hstill,
    e1 17 _ (by omega) (by omega) s16,
    e2 18 _ (by omega) (by omega) s17 rfl,
    e2 19 _ (by omega) (by omega) s18 rfl,
    e2 20 _ (by omega) (by omega) s19 rfl,
    e2 21 _ (by omega) (by omega) s20 rfl,
    h6,e3 22 _ (by omega) (by omega) s21 rfl,
    e2 23 _ (by omega) (by omega) s22 rfl,
    e2 24 _ (by omega) (by omega) s23 rfl,
    h9,e3 25 _ (by omega) (by omega) s24 rfl,
    e2 26 _ (by omega) (by omega) s25 rfl,
    e2 27 _ (by omega) (by omega) s26 rfl,
    e2 28 _ (by omega) (by omega) s27 rfl,
    e2 29 _ (by omega) (by omega) s28 rfl,
    e2 30 _ (by omega) (by omega) s29 rfl,
    h15,e3 31 _ (by omega) (by omega) s30 rfl,bmw512F2_eq]
  simp only [compress,f1,upTo]

end Job

end VkMiner.Bmw
