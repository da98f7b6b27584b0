import Mathlib.Tactic.IntervalCases
import VkMiner.Luffa.Kernel
set_option autoImplicit false

/-! The device's array of forty words against the host's five lanes. -/

namespace VkMiner.Luffa
open Loops Sha256d Glsl

variable {v v' : Words 40} {x y : Words 8} {w : Word} {b i j k : Nat}

def laneOf (v : Words 40) (i : Nat) : Words 8 := Vector.ofFn fun k => v.read (8*i + k)

def lanes (v : Words 40) : Lanes := #v[laneOf v 0,laneOf v 1,laneOf v 2,laneOf v 3,laneOf v 4]

theorem laneOf_read (v : Words 40) (i : Nat) (hk : k < 8) :
    (laneOf v i).read k = v.read (8*i + k) := Words.read_ofFn _ hk

theorem laneOf_ext (h : ∀ k < 8, v.read (8*i + k) = x.read k) : laneOf v i = x :=
  Words.ext _ _ fun k hk => (laneOf_read v i hk).trans (h k hk)

theorem laneOf_write (v : Words 40) (w : Word) (hi : i < 5) (hk : k < 8) :
    laneOf (v.write (8*i + k) w) i = (laneOf v i).write k w := by
  refine laneOf_ext fun c hc => ?_
  obtain rfl | hne := eq_or_ne k c
  · rw [Words.read_write_self _ _ (by omega),Words.read_write_self _ _ hk]
  · rw [Words.read_write_ne _ _ (by omega),Words.read_write_ne _ _ hne,laneOf_read v i hc]

theorem laneOf_write_ne (v : Words 40) (w : Word) (hne : j ≠ i) (hk : k < 8) :
    laneOf (v.write (8*i + k) w) j = laneOf v j := by
  refine laneOf_ext fun c hc => ?_
  rw [Words.read_write_ne _ _ (by omega),laneOf_read v j hc]

theorem lane_lanes (v : Words 40) (hi : i < 5) : lane (lanes v) i = laneOf v i := by
  interval_cases i <;> rfl

theorem lane_set_self (u : Lanes) (x : Words 8) (hi : i < 5) :
    lane (u.setIfInBounds i x) i = x := by simp [lane,hi]

theorem lane_set_ne (u : Lanes) (x : Words 8) (hne : i ≠ j) :
    lane (u.setIfInBounds i x) j = lane u j := by simp [lane,hne]

theorem lanes_ext {u u' : Lanes} (h : ∀ i < 5, lane u i = lane u' i) : u = u' := by
  refine Vector.ext fun i hi => ?_
  have hi' := h i hi
  simpa [lane,hi] using hi'

theorem lanes_set (hi : i < 5) (hself : laneOf v' i = x)
    (hne : ∀ j, j ≠ i → laneOf v' j = laneOf v j) : lanes v' = (lanes v).setIfInBounds i x := by
  refine lanes_ext fun j hj => ?_
  rw [lane_lanes v' hj]
  obtain rfl | h := eq_or_ne i j
  · rw [hself,lane_set_self _ _ hi]
  · rw [hne j h.symm,lane_set_ne _ _ h,lane_lanes v hj]

theorem lane_each (f : Nat → Words 8 → Words 8) (u : Lanes) {m : Nat} (hm : m ≤ 5) (hj : j < 5) :
    lane (upTo m u fun j u => u.setIfInBounds j (f j (lane u j))) j =
      if j < m then f j (lane u j) else lane u j := by
  induction m with
  | zero => rfl
  | succ m ih =>
    rw [upTo]
    obtain rfl | hne := eq_or_ne m j
    · rw [lane_set_self _ _ hj,ih (by omega),if_neg (Nat.lt_irrefl m),if_pos (Nat.lt_succ_self m)]
    · rw [lane_set_ne _ _ hne,ih (by omega)]
      simp only [show j < m + 1 ↔ j < m by omega]

/-! ### Words written one by one -/

theorem read_eq (v : Words 40) (i : Nat) (hk : k < 8) : v.read (8*i + k) = (laneOf v i).read k :=
  (laneOf_read v i hk).symm

theorem laneOf_mul2 (v : Words 40) (hi : i < 5) :
    laneOf (luffaMul2 v (8*i)) i = mul2 (laneOf v i) := by
  simp (disch := omega) only [luffaMul2,mul2,laneOf_write,read_eq]

theorem laneOf_mul2_ne (v : Words 40) (hne : j ≠ i) :
    laneOf (luffaMul2 v (8*i)) j = laneOf v j := by
  simp (disch := omega) only [luffaMul2,laneOf_write_ne]

theorem lanes_mul2 (v : Words 40) (hi : i < 5) :
    lanes (luffaMul2 v (8*i)) = mul2At (lanes v) i := by
  rw [mul2At,lane_lanes v hi]
  exact lanes_set hi (laneOf_mul2 v hi) fun j => laneOf_mul2_ne v

theorem laneOf_step (v : Words 40) (c0 c4 : Word) (hi : i < 5) :
    laneOf (luffaStep v (8*i) c0 c4) i = laneStep c0 c4 (laneOf v i) := by
  simp (disch := omega) only [luffaStep,mixAt,laneOf_write,read_eq]
  rfl

theorem laneOf_step_ne (v : Words 40) (c0 c4 : Word) (hne : j ≠ i) :
    laneOf (luffaStep v (8*i) c0 c4) j = laneOf v j := by
  simp (disch := omega) only [luffaStep,mixAt,laneOf_write_ne]

theorem laneOf_tweak (v : Words 40) (hi : i < 5) (hpos : 0 < i) (hb : b = 8*i)
    (hw : w = BitVec.ofNat 32 i) : laneOf (luffaTweak v b w) i = tweak (laneOf v i) i := by
  subst hb hw
  simp (disch := omega) only [luffaTweak,laneOf_write,read_eq]
  interval_cases i <;> rfl

theorem laneOf_tweak_ne (v : Words 40) (w : Word) (hne : j ≠ i) (hb : b = 8*i) :
    laneOf (luffaTweak v b w) j = laneOf v j := by
  subst hb
  simp (disch := omega) only [luffaTweak,laneOf_write_ne]

/-! ### Loops -/

theorem xor8_read (x y : Words 8) (hk : k < 8) : (xor8 x y).read k = x.read k ^^^ y.read k := by
  have h := Words.read_update (f := fun k d => d.read k ^^^ y.read k)
    (g := fun k => x.read k ^^^ y.read k) (m := 8) x 0 (by omega)
    (fun i _ u hu => by rw [hu i (by omega)]) k
  simpa [hk,xor8] using h

theorem laneOf_xorLane (v : Words 40) (hi : i < 5) :
    laneOf (xorLane v (8*i) (8*j)) i = xor8 (laneOf v i) (laneOf v j) := by
  refine laneOf_ext fun k hk => ?_
  rw [xor8_read _ _ hk,laneOf_read v i hk,laneOf_read v j hk,xorLane,
    Words.read_update (g := fun k => v.read (8*i + k) ^^^ v.read (8*j + k)) v (8*i) (by omega)
      (fun c hc u hu => by rw [hu _ (by omega),hu _ (by omega)]),if_pos (by omega),
    Nat.add_sub_cancel_left]

theorem laneOf_loop_ne (f : Nat → Words 40 → Word) (v : Words 40) {m : Nat} (hm : m ≤ 8)
    (hne : j ≠ i) : laneOf (upTo m v fun k v => v.write (8*i + k) (f k v)) j = laneOf v j := by
  induction m with
  | zero => rfl
  | succ m ih => rw [upTo,laneOf_write_ne _ _ hne (by omega),ih (by omega)]

theorem lanes_xorLane (v : Words 40) (hi : i < 5) (hj : j < 5) :
    lanes (xorLane v (8*i) (8*j)) = xor8At (lanes v) i (lane (lanes v) j) := by
  rw [xor8At,lane_lanes v hi,lane_lanes v hj]
  exact lanes_set hi (laneOf_xorLane v hi) fun c hc => laneOf_loop_ne _ v (Nat.le_refl 8) hc

/-- The loops `v[8 * i + k] ^= y[k]`. -/
theorem lanes_xorWords (v : Words 40) (y : Words 8) (hi : i < 5) :
    lanes (upTo 8 v fun k v => v.write (8*i + k) (v.read (8*i + k) ^^^ y.read k)) =
      xor8At (lanes v) i y := by
  rw [xor8At,lane_lanes v hi]
  refine lanes_set hi (laneOf_ext fun k hk => ?_)
    fun c hc => laneOf_loop_ne _ v (Nat.le_refl 8) hc
  rw [xor8_read _ _ hk,laneOf_read v i hk,
    Words.read_update (g := fun k => v.read (8*i + k) ^^^ y.read k) v (8*i) (by omega)
      (fun c hc u hu => by rw [hu _ (by omega)]),if_pos (by omega),Nat.add_sub_cancel_left]

theorem lanes_copy (v : Words 40) (b : Words 8) :
    lanes (upTo 8 v fun k v => v.write k (b.read k)) = (lanes v).setIfInBounds 0 b := by
  have hrun : (upTo 8 v fun k v => v.write k (b.read k)) =
      upTo 8 v fun k v => v.write (8*0 + k) (b.read k) :=
    upTo_congr v fun k _ v => by rw [Nat.mul_zero,Nat.zero_add]
  rw [hrun]
  refine lanes_set (by omega) (laneOf_ext fun k hk => ?_)
    fun c hc => laneOf_loop_ne _ v (Nat.le_refl 8) hc
  rw [Words.read_run b.read v _ (by omega),if_pos (by omega),Nat.add_sub_cancel_left]

theorem sum_eq (v : Words 40) :
    (upTo 8 (Words.zeros 8) fun k a => a.write k (v.read k ^^^ v.read (8 + k) ^^^
      v.read (16 + k) ^^^ v.read (24 + k) ^^^ v.read (32 + k))) =
      xor8 (xor8 (xor8 (xor8 (lane (lanes v) 0) (lane (lanes v) 1)) (lane (lanes v) 2))
        (lane (lanes v) 3)) (lane (lanes v) 4) := by
  refine Words.ext _ _ fun k hk => ?_
  rw [Words.read_fill _ _ (Nat.le_refl 8) hk]
  simp (disch := omega) only [xor8_read,lane_lanes,laneOf_read,Nat.mul_zero,Nat.zero_add,
    Nat.mul_one]

theorem lanes_all (v : Words 40) (a : Words 8) :
    lanes (upTo 40 v fun k v => v.write k (v.read k ^^^ a.read (k % 8))) =
      upTo 5 (lanes v) fun j v => xor8At v j a := by
  have hread (j : Nat) (hj : j < 40) :
      (upTo 40 v fun k v => v.write k (v.read k ^^^ a.read (k % 8))).read j =
        v.read j ^^^ a.read (j % 8) := by
    have h := Words.read_update (f := fun k v => v.read k ^^^ a.read (k % 8))
      (g := fun k => v.read k ^^^ a.read (k % 8)) (m := 40) v 0 (by omega)
      (fun c _ u hu => by rw [hu _ (by omega)]) j
    simpa [hj] using h
  have hlane (i : Nat) (hi : i < 5) :
      laneOf (upTo 40 v fun k v => v.write k (v.read k ^^^ a.read (k % 8))) i =
        xor8 (laneOf v i) a := by
    refine laneOf_ext fun k hk => ?_
    rw [hread _ (by omega),xor8_read _ _ hk,laneOf_read v i hk,Nat.mul_add_mod,
      Nat.mod_eq_of_lt hk]
  refine lanes_ext fun i hi => ?_
  rw [lane_lanes _ hi,hlane i hi]
  refine Eq.symm ((lane_each (fun _ lane => xor8 lane a) _ (Nat.le_refl 5) hi).trans ?_)
  rw [if_pos hi,lane_lanes v hi]

theorem mul2_whole (a : Words 8) : luffaMul2 a 0 = mul2 a := by
  simp only [luffaMul2,mul2,Nat.zero_add]

theorem lanes_fold (v : Words 40) (hi : i < 5) (hj : j < 5) :
    lanes (xorLane (luffaMul2 v (8*i)) (8*i) (8*j)) = foldLane (lanes v) i j := by
  rw [lanes_xorLane _ hi hj,lanes_mul2 v hi,foldLane]

theorem aside_eq (v : Words 40) :
    (upTo 8 (mul2 (upTo 8 (Words.zeros 8) fun k b => b.write k (v.read k))) fun k b =>
      b.write k (b.read k ^^^ v.read (8 + k))) =
      xor8 (mul2 (lane (lanes v) 0)) (lane (lanes v) 1) := by
  have hcopy : (upTo 8 (Words.zeros 8) fun k b => b.write k (v.read k)) = laneOf v 0 :=
    Words.ext _ _ fun k hk => by
      rw [Words.read_fill _ _ (Nat.le_refl 8) hk,laneOf_read v 0 hk,Nat.mul_zero,Nat.zero_add]
  rw [hcopy,xor8,lane_lanes v (by omega),lane_lanes v (by omega)]
  exact upTo_congr _ fun k hk b => by rw [laneOf_read v 1 hk]

theorem lanes_mix (v : Words 40) : lanes (luffaMix v) = mixLanes (lanes v) := by
  have h12 (v : Words 40) := lanes_fold v (by decide : 1 < 5) (by decide : 2 < 5)
  have h23 (v : Words 40) := lanes_fold v (by decide : 2 < 5) (by decide : 3 < 5)
  have h34 (v : Words 40) := lanes_fold v (by decide : 3 < 5) (by decide : 4 < 5)
  have h40 (v : Words 40) := lanes_fold v (by decide : 4 < 5) (by decide : 0 < 5)
  have h04 (v : Words 40) := lanes_fold v (by decide : 0 < 5) (by decide : 4 < 5)
  have h43 (v : Words 40) := lanes_fold v (by decide : 4 < 5) (by decide : 3 < 5)
  have h32 (v : Words 40) := lanes_fold v (by decide : 3 < 5) (by decide : 2 < 5)
  have h21 (v : Words 40) := lanes_fold v (by decide : 2 < 5) (by decide : 1 < 5)
  have h1 (v : Words 40) := lanes_mul2 v (by decide : 1 < 5)
  have hb (v : Words 40) (b : Words 8) := lanes_xorWords v b (by decide : 1 < 5)
  norm_num only at h12 h23 h34 h40 h04 h43 h32 h21 h1 hb
  have hcopied (u : Lanes) (b : Words 8) :
      foldLane (u.setIfInBounds 0 b) 0 4 = xor8At (u.setIfInBounds 0 (mul2 b)) 0
        (lane (u.setIfInBounds 0 (mul2 b)) 4) := by
    simp only [foldLane,mul2At,lane_set_self u b (by decide : 0 < 5),Vector.setIfInBounds_setIfInBounds]
  simp only [luffaMix,mixLanes,sum_eq,mul2_whole,aside_eq,lanes_all,lanes_copy,hb,h1,h21,h32,h43,
    h04,h40,h34,h23,h12,hcopied]

theorem laneOf_tweaks (v : Words 40) (hi : i < 5) :
    laneOf (luffaTweak (luffaTweak (luffaTweak (luffaTweak v 8 1) 16 2) 24 3) 32 4) i =
      tweak (laneOf v i) i := by
  have h1 (v : Words 40) (hne : i ≠ 1) := laneOf_tweak_ne v 1 hne (by rfl : 8 = 8*1)
  have h2 (v : Words 40) (hne : i ≠ 2) := laneOf_tweak_ne v 2 hne (by rfl : 16 = 8*2)
  have h3 (v : Words 40) (hne : i ≠ 3) := laneOf_tweak_ne v 3 hne (by rfl : 24 = 8*3)
  have h4 (v : Words 40) (hne : i ≠ 4) := laneOf_tweak_ne v 4 hne (by rfl : 32 = 8*4)
  have t1 (v : Words 40) : laneOf (luffaTweak v 8 1) 1 = tweak (laneOf v 1) 1 :=
    laneOf_tweak v (by omega) (by omega) rfl rfl
  have t2 (v : Words 40) : laneOf (luffaTweak v 16 2) 2 = tweak (laneOf v 2) 2 :=
    laneOf_tweak v (by omega) (by omega) rfl rfl
  have t3 (v : Words 40) : laneOf (luffaTweak v 24 3) 3 = tweak (laneOf v 3) 3 :=
    laneOf_tweak v (by omega) (by omega) rfl rfl
  have t4 (v : Words 40) : laneOf (luffaTweak v 32 4) 4 = tweak (laneOf v 4) 4 :=
    laneOf_tweak v (by omega) (by omega) rfl rfl
  interval_cases i
  · rw [h4 _ (by omega),h3 _ (by omega),h2 _ (by omega),h1 _ (by omega),tweak,
      if_neg (Nat.lt_irrefl 0)]
  · rw [h4 _ (by omega),h3 _ (by omega),h2 _ (by omega),t1]
  · rw [h4 _ (by omega),h3 _ (by omega),t2,h1 v (by omega)]
  · rw [h4 _ (by omega),t3,h2 _ (by omega),h1 v (by omega)]
  · rw [t4,h3 _ (by omega),h2 _ (by omega),h1 v (by omega)]

theorem laneOf_inject (v : Words 40) (m : Words 8) (hi : i < 5) :
    laneOf (luffa512Inject v m) i = tweak (lane (luffa512Mi (lanes v) m) i) i := by
  have hloop : lanes (upTo 5 (luffaMix v,m) Glsl.injectLane).1 = luffa512Mi (lanes v) m := by
    have hpass (j : Nat) (hj : j < 5) (s : Words 40 × Words 8) :
        Prod.map lanes id (Glsl.injectLane j s) = injectLane j (Prod.map lanes id s) := by
      simp only [Glsl.injectLane,injectLane,Prod.map,lanes_xorWords _ _ hj,mul2_whole,id]
    have h := upTo_hom (Prod.map lanes id) (luffaMix v,m) hpass
    rw [luffa512Mi,← lanes_mix v]
    exact congrArg Prod.fst h
  rw [luffa512Inject,laneOf_tweaks _ hi,← hloop,lane_lanes _ hi]

def lanesteps (x : Words 8) (j : Nat) : Words 8 :=
  let rc := luffa512Rc[j]?.getD (Words.zeros 8,Words.zeros 8)
  upTo 8 x fun r x => laneStep (rc.1.read r) (rc.2.read r) x

theorem laneOf_steps (v : Words 40) (hi : i < 5) :
    laneOf (luffa512Steps v) i = lanesteps (laneOf v i) i := by
  have hself (v : Words 40) (c0 c4 : Word) := laneOf_step v c0 c4 hi
  have h0 (v : Words 40) (c0 c4 : Word) (hne : i ≠ 0) := laneOf_step_ne v c0 c4 hne
  have h1 (v : Words 40) (c0 c4 : Word) (hne : i ≠ 1) := laneOf_step_ne v c0 c4 hne
  have h2 (v : Words 40) (c0 c4 : Word) (hne : i ≠ 2) := laneOf_step_ne v c0 c4 hne
  have h3 (v : Words 40) (c0 c4 : Word) (hne : i ≠ 3) := laneOf_step_ne v c0 c4 hne
  have h4 (v : Words 40) (c0 c4 : Word) (hne : i ≠ 4) := laneOf_step_ne v c0 c4 hne
  norm_num only at h0 h1 h2 h3 h4
  rw [luffa512Steps]
  interval_cases i <;> norm_num only at hself <;>
    simp (disch := decide) only [h0,h1,h2,h3,h4,hself] <;> rfl

end VkMiner.Luffa
