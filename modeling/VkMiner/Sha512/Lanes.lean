import VkMiner.Sha512.Kernel
set_option autoImplicit false

/-! Every kind of lane stands for words of 64 bits, and the rounds over the window are the rounds
over the schedule. -/

namespace VkMiner.Sha512.Glsl
open Loops Halves Sha2
open Sha256d (Word)

/-- The lanes stand for words of 64 bits, and what they do is done to these. -/
structure SLane.Lawful {L : Type} (B : SLane L) (val : L → Word64) : Prop where
  slane : ∀ lo hi, val (B.slane lo hi) = join ⟨lo,hi⟩
  slo : ∀ x, B.slo x = (val x).setWidth 32
  shi : ∀ x, B.shi x = (val x >>> 32).setWidth 32
  sand : ∀ a b, val (B.sand a b) = val a &&& val b
  sxor : ∀ a b, val (B.sxor a b) = val a ^^^ val b
  snot : ∀ a, val (B.snot a) = ~~~val a
  sadd : ∀ a b, val (B.sadd a b) = val a + val b
  sshr : ∀ x n, n < 64 → val (B.sshr x n) = val x >>> n
  srotr : ∀ x n, n < 64 → val (B.srotr x n) = rotr64 (val x) n

theorem pairs_lawful : pairs.Lawful join where
  slane _ _ := rfl
  slo x := (low_join x).symm
  shi x := (high_join x).symm
  sand := join_and
  sxor := join_xor
  snot := join_not
  sadd := join_add
  sshr x n hn := by
    simp only [pairs]
    split
    · next h => rw [h,BitVec.ushiftRight_zero]
    · split
      · next h =>
        have hfar := join_shr_far x (n - 32)
        rw [show 32 + (n - 32) = n by omega] at hfar
        rw [← hfar]
        split
        · next h' => rw [h',Nat.sub_self,BitVec.ushiftRight_zero]
        · rfl
      · have h := join_shr x (by omega : n ≤ 32)
        rw [funnel,Nat.sub_sub_self (by omega),BitVec.or_comm] at h
        exact h
  srotr x n hn := by
    have hflip (a b : Word) : (a >>> (n % 32)) ||| (b <<< (32 - n % 32)) =
        funnel b a (32 - n % 32) := by
      rw [funnel,Nat.sub_sub_self (by omega),BitVec.or_comm]
    have h := join_turnRight x hn
    simp only [turnRight,← hflip] at h
    exact h

theorem wideAdd_lawful : wideAdd.Lawful join :=
  { pairs_lawful with sadd := fun _ _ => join_split _ }

variable {L : Type} {B : SLane L} {val : L → Word64}

def paired : List Word → List Word64
  | hi :: lo :: l => join ⟨lo,hi⟩ :: paired l
  | _ => []

theorem paired_getD {l : List Word} {i : Nat} (h : 2*i + 1 < l.length) :
    (paired l).getD i 0 = join ⟨l.getD (2*i + 1) 0,l.getD (2*i) 0⟩ := by
  induction i generalizing l with
  | zero =>
    obtain _ | ⟨a,_ | ⟨b,l⟩⟩ := l
    · simp at h
    · simp at h
    · rfl
  | succ i ih =>
    obtain _ | ⟨a,_ | ⟨b,l⟩⟩ := l
    · simp at h
    · simp at h
    · simp only [List.length_cons] at h
      exact ih (by omega)

theorem sha512K_paired : Sha512.sha512K.toList = paired sha512KWords.toList := by
  rw [sha512KWords,Words.toList_ofList (by decide +kernel)]
  decide

theorem sha512KWords_eq {i : Nat} (hi : i < 80) :
    join ⟨sha512KWords.read (2*i + 1),sha512KWords.read (2*i)⟩ = Sha512.sha512K.read i := by
  have hlen : 2*i + 1 < sha512KWords.toList.length := by
    rw [Vector.length_toList]
    omega
  rw [← Cells.read_toList,sha512K_paired,← Words.read_toList,← Words.read_toList]
  exact (paired_getD hlen).symm

theorem sha512IvWords_eq : ∀ i < 8, join ⟨sha512IvWords.read (2*i + 1),sha512IvWords.read (2*i)⟩ =
    Sha512.sha512Iv.read i := by decide

theorem sha512_256IvWords_eq : ∀ i < 8,
    join ⟨sha512_256IvWords.read (2*i + 1),sha512_256IvWords.read (2*i)⟩ =
      Sha512.sha512_256Iv.read i := by decide

namespace SLane.Lawful

theorem sha512K (hB : B.Lawful val) {i : Nat} (hi : i < 80) :
    val (Glsl.sha512K B i) = Sha512.sha512K.read i := by
  rw [Glsl.sha512K,hB.slane,sha512KWords_eq hi]

theorem sha512Iv (hB : B.Lawful val) {i : Nat} (hi : i < 8) :
    val (Glsl.sha512Iv B i) = Sha512.sha512Iv.read i := by
  rw [Glsl.sha512Iv,hB.slane,sha512IvWords_eq i hi]

theorem sha512_256Iv (hB : B.Lawful val) {i : Nat} (hi : i < 8) :
    val (Glsl.sha512_256Iv B i) = Sha512.sha512_256Iv.read i := by
  rw [Glsl.sha512_256Iv,hB.slane,sha512_256IvWords_eq i hi]

theorem sha512Ch (hB : B.Lawful val) (x y z : L) :
    val (Glsl.sha512Ch B x y z) = ch (val x) (val y) (val z) := by
  rw [Glsl.sha512Ch,hB.sxor,hB.sand,hB.sand,hB.snot,ch]

theorem sha512Maj (hB : B.Lawful val) (x y z : L) :
    val (Glsl.sha512Maj B x y z) = maj (val x) (val y) (val z) := by
  rw [Glsl.sha512Maj,hB.sxor,hB.sxor,hB.sand,hB.sand,hB.sand,maj]

theorem sha512BigS0 (hB : B.Lawful val) (x : L) :
    val (Glsl.sha512BigS0 B x) = sigmas.bigS0 (val x) := by
  simp (disch := decide) only [Glsl.sha512BigS0,hB.sxor,hB.srotr,sigmas]

theorem sha512BigS1 (hB : B.Lawful val) (x : L) :
    val (Glsl.sha512BigS1 B x) = sigmas.bigS1 (val x) := by
  simp (disch := decide) only [Glsl.sha512BigS1,hB.sxor,hB.srotr,sigmas]

theorem sha512SmallS0 (hB : B.Lawful val) (x : L) :
    val (Glsl.sha512SmallS0 B x) = sigmas.smallS0 (val x) := by
  simp (disch := decide) only [Glsl.sha512SmallS0,hB.sxor,hB.srotr,hB.sshr,sigmas]

theorem sha512SmallS1 (hB : B.Lawful val) (x : L) :
    val (Glsl.sha512SmallS1 B x) = sigmas.smallS1 (val x) := by
  simp (disch := decide) only [Glsl.sha512SmallS1,hB.sxor,hB.srotr,hB.sshr,sigmas]

theorem roundT1 (hB : B.Lawful val) (leftToRight : Bool) (h e f g k w : L) :
    val (Glsl.roundT1 B leftToRight h e f g k w) =
      val h + sigmas.bigS1 (val e) + ch (val e) (val f) (val g) + val k + val w := by
  rw [Glsl.roundT1]
  cases leftToRight with
  | true => simp only [if_true,hB.sadd,hB.sha512BigS1,hB.sha512Ch]
  | false =>
    simp only [Bool.false_eq_true,if_false,hB.sadd,hB.sha512BigS1,hB.sha512Ch,BitVec.add_assoc]

end SLane.Lawful

/-! ### The names of the variables -/

theorem place_lt (i j : Nat) : place i j < 8 := Nat.mod_lt _ (by decide)

theorem place_succ (i j : Nat) : place (i + 1) (j + 1) = place i j := by
  simp only [place]
  omega

theorem place_zero (i : Nat) : place (i + 1) 0 = place i 7 := by
  simp only [place]
  omega

theorem place_ne {i j j' : Nat} (hj : j < 8) (hj' : j' < 8) (h : j ≠ j') :
    place i j ≠ place i j' := by
  simp only [place]
  omega

variable [Inhabited L] {leftToRight : Bool}

def turned (val : L → Word64) (i : Nat) (v : Cells L 8) : Vars 64 :=
  ⟨val (v.read (place i 0)),val (v.read (place i 1)),val (v.read (place i 2)),
    val (v.read (place i 3)),val (v.read (place i 4)),val (v.read (place i 5)),
    val (v.read (place i 6)),val (v.read (place i 7))⟩

theorem turned_turn (hB : B.Lawful val) (i : Nat) (k w : L) (v : Cells L 8) :
    turned val (i + 1) (turn B leftToRight i k w v) =
      (turned val i v).step sigmas (val k) (val w) := by
  have hother (x y : L) {j : Nat} (hj : j < 8) (h3 : j ≠ 3) (h7 : j ≠ 7) :
      ((v.write (place i 3) x).write (place i 7) y).read (place i j) = v.read (place i j) := by
    rw [Cells.read_write_ne _ _ (place_ne (by decide) hj h7.symm),
      Cells.read_write_ne _ _ (place_ne (by decide) hj h3.symm)]
  have hd (x y : L) : ((v.write (place i 3) x).write (place i 7) y).read (place i 3) = x := by
    rw [Cells.read_write_ne _ _ (place_ne (by decide) (by decide) (by decide)),
      Cells.read_write_self _ _ (place_lt i 3)]
  have hh (x y : L) : ((v.write (place i 3) x).write (place i 7) y).read (place i 7) = y :=
    Cells.read_write_self _ _ (place_lt i 7)
  simp (disch := decide) only [turned,place_zero,place_succ,turn,step,hother,hd,hh,hB.sadd,hB.roundT1,
    hB.sha512BigS0,hB.sha512Maj,Vars.step]

theorem turned_mod (i : Nat) (v : Cells L 8) : turned val i v = turned val (i % 8) v := by
  simp only [turned,place,Nat.mod_mod]

/-! ### The window -/

def Holds (val : L → Word64) (m : Nat → Word64) (lo hi : Nat) (w : Cells L 16) : Prop :=
  Filled sigmas m lo hi fun j => val (w.read (j % 16))

variable {m : Nat → Word64} {lo first : Nat} {s : Pass L}

theorem Holds.mono {lo hi lo' hi' : Nat} {w : Cells L 16} (h : Holds val m lo hi w) (hlo : lo ≤ lo')
    (hhi : hi' ≤ hi) : Holds val m lo' hi' w := Filled.mono h hlo hhi

theorem Holds.word {hi i j : Nat} {w : Cells L 16} (h : Holds val m lo hi w) (hlo : lo ≤ i)
    (hhi : i < hi) (hj : i % 16 = j) : val (w.read j) = schedule sigmas m i :=
  hj ▸ h i hlo hhi

theorem Holds.write {hi : Nat} {w : Cells L 16} (h : Holds val m lo hi w) (hlo : hi ≤ lo + 16)
    {x : L} (hx : val x = schedule sigmas m hi) :
    Holds val m (lo + 1) (hi + 1) (w.write (hi % 16) x) ∧
      (hi < lo + 16 → Holds val m lo (hi + 1) (w.write (hi % 16) x)) := by
  have hlt : hi % 16 < 16 := Nat.mod_lt _ (by decide)
  have hself : val ((w.write (hi % 16) x).read (hi % 16)) = schedule sigmas m hi := by
    rw [Cells.read_write_self _ _ hlt,hx]
  have hsame (j : Nat) (hj : j < hi) (hj' : hi < j + 16) :
      val ((w.write (hi % 16) x).read (j % 16)) = val (w.read (j % 16)) := by
    rw [Cells.read_write_ne _ _ (by omega)]
  refine ⟨?_,fun hroom => ?_⟩
  · exact Filled.snoc (h.mono (Nat.le_succ lo) (Nat.le_refl hi))
      (fun j hj hj' => hsame j hj' (by omega)) hself
  · exact Filled.snoc h (fun j hj hj' => hsame j hj' (by omega)) hself

theorem Holds.schedS0 (hB : B.Lawful val) {w : Cells L 16} (h : Holds val m lo (lo + 16) w) {j : Nat}
    (hj : lo % 16 = j) {x : L} (hx : val x = sigmas.smallS0 (schedule sigmas m (lo + 1))) :
    Holds val m (lo + 1) (lo + 1 + 16) (schedS0 B w j x ((j + 9) % 16) ((j + 14) % 16)) := by
  have hplace : (lo + 16) % 16 = j := by omega
  have hnext := schedule_further sigmas m (by omega : 16 ≤ lo + 16)
  rw [show lo + 16 - 15 = lo + 1 by omega,← hx] at hnext
  have hval : val (B.sadd (B.sadd (w.read j) x)
      (B.sadd (w.read ((j + 9) % 16)) (sha512SmallS1 B (w.read ((j + 14) % 16))))) =
        schedule sigmas m (lo + 16) := by
    rw [hB.sadd,hB.sadd,hB.sadd,hB.sha512SmallS1,hnext,
      h.word (by omega : lo ≤ lo + 16 - 16) (by omega) (by omega : (lo + 16 - 16) % 16 = j),
      h.word (by omega : lo ≤ lo + 16 - 7) (by omega) (by omega : _ = (j + 9) % 16),
      h.word (by omega : lo ≤ lo + 16 - 2) (by omega) (by omega : _ = (j + 14) % 16)]
    ac_rfl
  have hwrite := (Holds.write h (Nat.le_refl (lo + 16)) hval).1
  rw [hplace] at hwrite
  exact hwrite

theorem Holds.sched (hB : B.Lawful val) {w : Cells L 16} (h : Holds val m lo (lo + 16) w) {j : Nat}
    (hj : lo % 16 = j) : Holds val m (lo + 1) (lo + 1 + 16)
      (sched B w j ((j + 1) % 16) ((j + 9) % 16) ((j + 14) % 16)) := by
  refine h.schedS0 hB hj ?_
  rw [hB.sha512SmallS0,h.word (by omega : lo ≤ lo + 1) (by omega) (by omega : _ = (j + 1) % 16)]

/-! ### Rounds in a row -/

variable {start count : Nat}

theorem turned_roundAt (leftToRight : Bool) (hB : B.Lawful val) {j : Nat} (hk : first + j < 80)
    (s : Pass L) : turned val (j + 1) (roundAt B leftToRight first j s).v =
      (turned val j s.v).step sigmas (Sha512.sha512K.read (first + j)) (val (s.w.read j)) := by
  rw [roundAt,turned_turn hB,hB.sha512K hk]

theorem rounds_over (leftToRight : Bool) (first start count : Nat) (hB : B.Lawful val)
    {f : Nat → Pass L → Pass L}
    {Q : Nat → Cells L 16 → Prop} (hk : first + start + count ≤ 80) (hQ : Q 0 s.w)
    (hf : ∀ j < count, ∀ t : Pass L, Q j t.w → ∃ w,
      f j t = roundAt B leftToRight first (start + j) ⟨t.v,w⟩ ∧ Q (j + 1) w ∧
        val (w.read (start + j)) = schedule sigmas m (first + start + j)) :
    turned val (start + count) (upTo count s f).v =
        rounds sigmas Sha512.sha512K.read (schedule sigmas m) (first + start) count
          (turned val start s.v) ∧
      Q count (upTo count s f).w := by
  let P : Nat → Pass L → Prop := fun j t => turned val (start + j) t.v =
      rounds sigmas Sha512.sha512K.read (schedule sigmas m) (first + start) j
        (turned val start s.v) ∧ Q j t.w
  have hrun : P count (upTo count s f) := by
    refine upTo_invariant (P := P) ⟨rfl,hQ⟩ fun j hj t hP => ?_
    obtain ⟨w,he,hQ',hword⟩ := hf j hj t hP.2
    refine ⟨?_,by rw [he]; exact hQ'⟩
    rw [he,← Nat.add_assoc,turned_roundAt leftToRight hB (by omega),hP.1,hword,rounds_succ,
      Nat.add_assoc]
  exact hrun

/-- After `t` rounds from `v`, with the schedule of `m` from `lo` up to `hi` in the window. -/
structure Reached (val : L → Word64) (m : Nat → Word64) (v : Vars 64) (t lo hi : Nat) (s : Pass L) :
    Prop where
  vars : turned val t s.v = rounds sigmas Sha512.sha512K.read (schedule sigmas m) 0 t v
  window : Holds val m lo hi s.w

namespace Reached
variable {v : Vars 64} {t hi : Nat}

theorem along (leftToRight : Bool) (start count : Nat) (hB : B.Lawful val)
    {f : Nat → Pass L → Pass L} {Q : Nat → Cells L 16 → Prop} (hr : Reached val m v t lo hi s)
    (ht : t = first + start) (hfirst : first % 16 = 0) (hk : t + count ≤ 80) (hQ : Q 0 s.w)
    (hf : ∀ j < count, ∀ u : Pass L, Q j u.w → ∃ w,
      f j u = roundAt B leftToRight first (start + j) ⟨u.v,w⟩ ∧ Q (j + 1) w ∧
        val (w.read (start + j)) = schedule sigmas m (t + j))
    {lo' hi' : Nat} (hw : ∀ w, Q count w → Holds val m lo' hi' w) :
    Reached val m v (t + count) lo' hi' (upTo count s f) := by
  subst ht
  have hsame (i : Nat) (v : Cells L 8) : turned val (first + i) v = turned val i v := by
    rw [turned_mod,turned_mod i,show (first + i) % 8 = i % 8 by omega]
  obtain ⟨hvars,hend⟩ := rounds_over leftToRight first start count hB hk hQ hf
  refine ⟨?_,hw _ hend⟩
  rw [rounds_add,← hr.vars,hsame,Nat.add_assoc,hsame,hvars,Nat.zero_add]

theorem plain (leftToRight : Bool) (start count : Nat) (hB : B.Lawful val)
    (hr : Reached val m v t lo hi s) (ht : t = first + start) (hfirst : first % 16 = 0)
    (hc : start + count ≤ 16) (hk : t + count ≤ 80) (hlo : lo ≤ t) (hhi : t + count ≤ hi) :
    Reached val m v (t + count) lo hi
      (upTo count s fun j => roundAt B leftToRight first (start + j)) :=
  hr.along leftToRight start count hB ht hfirst hk (Q := fun _ w => Holds val m lo hi w) hr.window
    (fun _ _ u hu => ⟨u.w,rfl,hu,hu.word (by omega) (by omega) (by omega)⟩) fun _ hw => hw

theorem sched (leftToRight : Bool) (start count : Nat) (hB : B.Lawful val)
    (hr : Reached val m v (lo + 16) lo (lo + 16) s) (ht : lo + 16 = first + start)
    (hfirst : first % 16 = 0) (hc : start + count ≤ 16) (hk : lo + 16 + count ≤ 80) :
    Reached val m v (lo + 16 + count) (lo + count) (lo + count + 16)
      (upTo count s fun j => schedRoundAt B leftToRight first (start + j)) := by
  refine hr.along leftToRight start count hB ht hfirst hk
    (Q := fun j w => Holds val m (lo + j) (lo + j + 16) w) hr.window (fun j hj u hu => ?_)
    fun _ hw => hw
  have hw := hu.sched hB (by omega : (lo + j) % 16 = start + j)
  exact ⟨_,rfl,hw,hw.word (by omega) (by omega) (by omega)⟩

theorem rounds16 (leftToRight : Bool) (hB : B.Lawful val) (hr : Reached val m v 0 0 16 s) :
    Reached val m v 16 0 16 (rounds16 B leftToRight 0 s) := by
  have h := hr.plain leftToRight 0 16 hB rfl rfl (by decide) (by decide) (by decide) (by decide)
  simp only [Nat.zero_add] at h
  exact h

theorem rounds16Sched (leftToRight : Bool) (hB : B.Lawful val) (hlo : lo % 16 = 0)
    (hk : lo + 32 ≤ 80) (hr : Reached val m v (lo + 16) lo (lo + 16) s) :
    Reached val m v (lo + 32) (lo + 16) (lo + 32) (rounds16Sched B leftToRight (lo + 16) s) := by
  have h := hr.sched leftToRight 0 16 hB (Nat.add_zero _).symm (by omega) (by decide) (by omega)
  simp only [Nat.zero_add] at h
  exact h

end Reached

end VkMiner.Sha512.Glsl
