import VkMiner.Bmw.Kernel
set_option autoImplicit false

/-! The three kinds of lane compute the same: what the device does with pairs of halves is what it
does with whole words. -/

namespace VkMiner.Bmw.Glsl
open Loops Halves Sha256d

/-- The lanes stand for words of 64 bits, and what they do is done to these. -/
structure BLane.Lawful {L : Type} [Inhabited L] (B : BLane L) (val : L → Word64) : Prop where
  blank : val default = default
  blane : ∀ lo hi, val (B.blane lo hi) = int64.blane lo hi
  blo : ∀ x, B.blo x = int64.blo (val x)
  bhi : ∀ x, B.bhi x = int64.bhi (val x)
  bxor : ∀ a b, val (B.bxor a b) = int64.bxor (val a) (val b)
  badd : ∀ a b, val (B.badd a b) = int64.badd (val a) (val b)
  bsub : ∀ a b, val (B.bsub a b) = int64.bsub (val a) (val b)
  bshl : ∀ x n, n ≤ 32 → val (B.bshl x n) = int64.bshl (val x) n
  bshr : ∀ x n, n ≤ 32 → val (B.bshr x n) = int64.bshr (val x) n
  brotl : ∀ x n, n < 64 → val (B.brotl x n) = int64.brotl (val x) n

theorem pairs_lawful : pairs.Lawful join where
  blank := by decide
  blane lo hi := join_eq ⟨lo,hi⟩
  blo x := (low_join x).symm
  bhi x := (high_join x).symm
  bxor := join_xor
  badd := join_add
  bsub := join_sub
  bshl x n hn := join_shl x hn
  bshr x n hn := by
    have h := join_shr x hn
    rw [funnel,Nat.sub_sub_self hn,BitVec.or_comm] at h
    exact h
  brotl x n hn := join_turn x hn

theorem wideAdd_lawful : wideAdd.Lawful join :=
  { pairs_lawful with
    badd := fun _ _ => join_split _
    bsub := fun _ _ => join_split _ }

variable {L : Type} [Inhabited L] {B : BLane L} {val : L → Word64}

namespace BLane.Lawful

theorem bmwS0 (hB : B.Lawful val) (x : L) : val (B.bmwS0 x) = int64.bmwS0 (val x) := by
  simp (disch := decide) only [BLane.bmwS0,hB.bxor,hB.bshl,hB.bshr,hB.brotl]

theorem bmwS1 (hB : B.Lawful val) (x : L) : val (B.bmwS1 x) = int64.bmwS1 (val x) := by
  simp (disch := decide) only [BLane.bmwS1,hB.bxor,hB.bshl,hB.bshr,hB.brotl]

theorem bmwS2 (hB : B.Lawful val) (x : L) : val (B.bmwS2 x) = int64.bmwS2 (val x) := by
  simp (disch := decide) only [BLane.bmwS2,hB.bxor,hB.bshl,hB.bshr,hB.brotl]

theorem bmwS3 (hB : B.Lawful val) (x : L) : val (B.bmwS3 x) = int64.bmwS3 (val x) := by
  simp (disch := decide) only [BLane.bmwS3,hB.bxor,hB.bshl,hB.bshr,hB.brotl]

theorem bmwS4 (hB : B.Lawful val) (x : L) : val (B.bmwS4 x) = int64.bmwS4 (val x) := by
  simp (disch := decide) only [BLane.bmwS4,hB.bxor,hB.bshr]

theorem bmwS5 (hB : B.Lawful val) (x : L) : val (B.bmwS5 x) = int64.bmwS5 (val x) := by
  simp (disch := decide) only [BLane.bmwS5,hB.bxor,hB.bshr]

theorem addElt (hB : B.Lawful val) (m h : Cells L 16) {i : Nat} (hi : i < 16) :
    val (Glsl.addElt B m h i) = Glsl.addElt int64 (m.map val) (h.map val) i := by
  simp (disch := omega) only [Glsl.addElt,hB.bxor,hB.badd,hB.bsub,hB.brotl,hB.blane,
    ← Cells.read_map val hB.blank]

theorem bmwExpand1 (hB : B.Lawful val) (m h : Cells L 16) (q : Cells L 32) {j : Nat}
    (hj : j < 32) : (Glsl.bmwExpand1 B m h q j).map val =
      Glsl.bmwExpand1 int64 (m.map val) (h.map val) (q.map val) j := by
  simp (disch := omega) only [Glsl.bmwExpand1,Cells.map_write,hB.addElt,hB.badd,hB.bmwS0,hB.bmwS1,
    hB.bmwS2,hB.bmwS3,← Cells.read_map val hB.blank]

theorem bmwExpand2 (hB : B.Lawful val) (m h : Cells L 16) (q : Cells L 32) {j : Nat}
    (hj : j < 32) : (Glsl.bmwExpand2 B m h q j).map val =
      Glsl.bmwExpand2 int64 (m.map val) (h.map val) (q.map val) j := by
  simp (disch := omega) only [Glsl.bmwExpand2,Cells.map_write,hB.addElt,hB.badd,hB.brotl,hB.bmwS4,
    hB.bmwS5,← Cells.read_map val hB.blank]

theorem foldLow (hB : B.Lawful val) (xl : L) (q : Cells L 32) (h : Cells L 16) (i : Nat) (t : L) :
    (Glsl.foldLow B xl q h i t).map val =
      Glsl.foldLow int64 (val xl) (q.map val) (h.map val) i (val t) := by
  simp only [Glsl.foldLow,Cells.map_write,hB.badd,hB.bxor,← Cells.read_map val hB.blank]

theorem foldHigh (hB : B.Lawful val) (xh : L) (q : Cells L 32) (m h : Cells L 16) (i k : Nat)
    {n : Nat} (hn : n < 64) (t : L) : (Glsl.foldHigh B xh q m h i k n t).map val =
      Glsl.foldHigh int64 (val xh) (q.map val) (m.map val) (h.map val) i k n (val t) := by
  simp (disch := assumption) only [Glsl.foldHigh,Cells.map_write,hB.badd,hB.bxor,hB.brotl,
    ← Cells.read_map val hB.blank]

theorem bmw512F2 (hB : B.Lawful val) (h : Cells L 16) (q : Cells L 32) (m : Cells L 16) :
    (Glsl.bmw512F2 B h q m).map val =
      Glsl.bmw512F2 int64 (h.map val) (q.map val) (m.map val) := by
  simp (disch := decide) only [Glsl.bmw512F2,hB.foldLow,hB.foldHigh,hB.bxor,hB.bshl,hB.bshr,
    ← Cells.read_map val hB.blank]

theorem bmw512F0 (hB : B.Lawful val) (q : Cells L 32) (h m : Cells L 16) :
    (Glsl.bmw512F0 B q h m).map val =
      Glsl.bmw512F0 int64 (q.map val) (h.map val) (m.map val) := by
  have hx : (upTo 16 (Cells.blank 16) fun i x => x.write i (B.bxor (m.read i) (h.read i)) :
      Cells L 16).map val = upTo 16 (Cells.blank 16) fun i x =>
        x.write i (int64.bxor (Cells.read (m.map val) i) (Cells.read (h.map val) i)) := by
    rw [← Cells.map_blank val hB.blank]
    refine upTo_hom (Vector.map val) _ fun i _ x => ?_
    simp only [Cells.map_write,hB.bxor,← Cells.read_map val hB.blank]
  simp only [Glsl.bmw512F0,Glsl.bmwF0,← hx,Cells.map_write,hB.badd,hB.bsub,hB.bmwS0,hB.bmwS1,
    hB.bmwS2,hB.bmwS3,hB.bmwS4,← Cells.read_map val hB.blank]

theorem bmw512Compress (hB : B.Lawful val) (h m : Cells L 16) :
    (Glsl.bmw512Compress B h m).map val =
      Glsl.bmw512Compress int64 (h.map val) (m.map val) := by
  simp (disch := decide) only [Glsl.bmw512Compress,hB.bmw512F2,hB.bmwExpand2,hB.bmwExpand1,
    hB.bmw512F0,Cells.map_blank val hB.blank]

theorem bmw512Final (hB : B.Lawful val) (h : Cells L 16) :
    (Glsl.bmw512Final B h).map val = Glsl.bmw512Final int64 (h.map val) := by
  have hx : (upTo 16 h fun i h => h.write i (B.blane (0xaaaaaaa0 + BitVec.ofNat 32 i) 0xaaaaaaaa)
      : Cells L 16).map val = upTo 16 (h.map val) fun i h =>
        Cells.write h i (int64.blane (0xaaaaaaa0 + BitVec.ofNat 32 i) 0xaaaaaaaa) :=
    upTo_hom (Vector.map val) h fun i _ h => by rw [Cells.map_write,hB.blane]
  rw [Glsl.bmw512Final,hB.bmw512Compress,hx]
  rfl

theorem bmw512Job (hB : B.Lawful val) (job : Bmw512Uniform) (i : Nat) :
    val (Glsl.bmw512Job B job i) = Glsl.bmw512Job int64 job i := by
  simp only [Glsl.bmw512Job]
  split
  · exact hB.blane _ _
  · exact hB.blane _ _

theorem addIf (hB : B.Lawful val) (k : Nat) (v term : L) :
    val (Glsl.addIf B k v term) = Glsl.addIf int64 k (val v) (val term) := by
  simp only [Glsl.addIf]
  split
  · exact hB.badd _ _
  · rfl

theorem bmwExpand1Job (hB : B.Lawful val) (job : Bmw512Uniform) (q : Cells L 32) (j : Nat) :
    (Glsl.bmwExpand1Job B job q j).map val = Glsl.bmwExpand1Job int64 job (q.map val) j := by
  simp only [Glsl.bmwExpand1Job,Cells.map_write,hB.addIf,hB.bmw512Job,hB.bmwS0,hB.bmwS1,hB.bmwS2,
    hB.bmwS3,← Cells.read_map val hB.blank]

theorem bmwExpand2Job (hB : B.Lawful val) (job : Bmw512Uniform) (q : Cells L 32) (j : Nat)
    (add : L) : (Glsl.bmwExpand2Job B job q j add).map val =
      Glsl.bmwExpand2Job int64 job (q.map val) j (val add) := by
  simp (disch := decide) only [Glsl.bmwExpand2Job,Cells.map_write,hB.addIf,hB.badd,hB.brotl,
    hB.bmw512Job,hB.bmwS4,hB.bmwS5,← Cells.read_map val hB.blank]

theorem nonceWord (hB : B.Lawful val) (q : Cells L 32) (h : Cells L 16) (i : Nat) {s : L → L}
    {s' : Word64 → Word64} (hs : ∀ x, val (s x) = s' (val x)) {op : L → L → L}
    {op' : Word64 → Word64 → Word64} (hop : ∀ a b, val (op a b) = op' (val a) (val b)) (x9 : L) :
    (Glsl.nonceWord B q h i s op x9).map val =
      Glsl.nonceWord int64 (q.map val) (h.map val) i s' op' (val x9) := by
  simp only [Glsl.nonceWord,Cells.map_write,hB.badd,hs,hop,← Cells.read_map val hB.blank]

theorem bmw512CompressHeader (hB : B.Lawful val) (job : Bmw512Uniform) (h m : Cells L 16) :
    (Glsl.bmw512CompressHeader B job h m).map val =
      Glsl.bmw512CompressHeader int64 job (h.map val) (m.map val) := by
  have hq : (upTo 16 (Cells.blank 32) fun i q => q.write i (Glsl.bmw512Job B job i) :
      Cells L 32).map val = upTo 16 (Cells.blank 32) fun i q =>
        q.write i (Glsl.bmw512Job int64 job i) := by
    rw [← Cells.map_blank val hB.blank]
    exact upTo_hom (Vector.map val) _ fun i _ q => by rw [Cells.map_write,hB.bmw512Job]
  simp (disch := decide) only [Glsl.bmw512CompressHeader,hB.bmw512F2,hB.bmwExpand2Job,
    hB.bmwExpand1Job,hB.blane,hB.bxor,hB.badd,hB.bsub,hB.brotl,hB.bmw512Job,
      ← Cells.read_map val hB.blank,
    hB.nonceWord _ _ _ hB.bmwS0 hB.bsub,hB.nonceWord _ _ _ hB.bmwS2 hB.bsub,
    hB.nonceWord _ _ _ hB.bmwS1 hB.badd,hB.nonceWord _ _ _ hB.bmwS4 hB.badd,
    hB.nonceWord _ _ _ hB.bmwS2 hB.badd,hq]

theorem bmw512State (hB : B.Lawful val) (push : Bmw512Push) (job : Bmw512Uniform) (nonce : Word) :
    (Glsl.bmw512State B push job nonce).map val = Glsl.bmw512State int64 push job nonce := by
  simp only [Glsl.bmw512State,hB.bmw512Final,hB.bmw512CompressHeader]
  have hh : (upTo 16 (Cells.blank 16) fun i h =>
      h.write i (bmw512Iv B (BitVec.ofNat 32 i)) : Cells L 16).map val =
        upTo 16 (Cells.blank 16) fun i h => h.write i (bmw512Iv int64 (BitVec.ofNat 32 i)) := by
    rw [← Cells.map_blank val hB.blank]
    exact upTo_hom (Vector.map val) _ fun i _ h => by
      rw [Cells.map_write,bmw512Iv,bmw512Iv,hB.blane]
  have hm : (upTo 9 (Cells.blank 16) fun i m => m.write i
      (B.blane (push.header.read (2*i)) (push.header.read (2*i + 1))) : Cells L 16).map val =
        upTo 9 (Cells.blank 16) fun i m => m.write i
          (int64.blane (push.header.read (2*i)) (push.header.read (2*i + 1))) := by
    rw [← Cells.map_blank val hB.blank]
    exact upTo_hom (Vector.map val) _ fun i _ m => by rw [Cells.map_write,hB.blane]
  have hz (m : Cells L 16) : (upTo 4 m fun i m => m.write (11 + i) (B.blane 0 0)).map val =
      upTo 4 (m.map val) fun i m => Cells.write m (11 + i) (int64.blane 0 0) :=
    upTo_hom (Vector.map val) m fun i _ m => by rw [Cells.map_write,hB.blane]
  simp only [Cells.map_write,hh,hm,hz,hB.blane]

end BLane.Lawful

end VkMiner.Bmw.Glsl
