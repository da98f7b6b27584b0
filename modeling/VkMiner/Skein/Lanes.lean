import VkMiner.Skein.Kernel
set_option autoImplicit false

/-! The three kinds of lane compute the same of a Skein block. -/

namespace VkMiner.Skein.Glsl
open Loops Halves
open Sha256d (Word)

/-- The lanes stand for words of 64 bits, and what they do is done to these. -/
structure TLane.Lawful {L : Type} [Inhabited L] (B : TLane L) (val : L → Word64) : Prop where
  blank : val default = default
  tlane : ∀ lo hi,val (B.tlane lo hi) = int64.tlane lo hi
  tlo : ∀ x,B.tlo x = int64.tlo (val x)
  thi : ∀ x,B.thi x = int64.thi (val x)
  txor : ∀ a b,val (B.txor a b) = int64.txor (val a) (val b)
  tadd : ∀ a b,val (B.tadd a b) = int64.tadd (val a) (val b)
  trotl : ∀ x n,n < 64 → val (B.trotl x n) = int64.trotl (val x) n

theorem pairs_lawful : pairs.Lawful join where
  blank := by decide
  tlane lo hi := join_eq ⟨lo,hi⟩
  tlo x := (low_join x).symm
  thi x := (high_join x).symm
  txor := join_xor
  tadd := join_add
  trotl x n hn := join_turn x hn

theorem wideAdd_lawful : wideAdd.Lawful join :=
  { pairs_lawful with tadd := fun _ _ => join_split _ }

def InWord (r : Rotations) : Prop := ∀ i < 4,∀ j < 4,r i j < 64

theorem evenRotations_inWord : InWord evenRotations := by
  unfold InWord
  decide

theorem oddRotations_inWord : InWord oddRotations := by
  unfold InWord
  decide

namespace TLane.Lawful

variable {L : Type} [Inhabited L] {B : TLane L} {val : L → Word64} {r : Rotations}

theorem mix (hB : B.Lawful val) (i j : Nat) {n : Nat} (hn : n < 64) (p : Cells L 8) :
    (Glsl.mix B i j n p).map val = Glsl.mix int64 i j n (p.map val) := by
  simp (disch := assumption) only [Glsl.mix,Cells.map_write,hB.tadd,hB.txor,hB.trotl,
    ← Cells.read_map val hB.blank]

theorem inject (hB : B.Lawful val) (k : Cells L 9) (t : Cells L 3) (s : Nat) (p : Cells L 8) :
    (Glsl.inject B k t s p).map val =
      Glsl.inject int64 (k.map val) (t.map val) s (p.map val) := by
  simp only [Glsl.inject,Cells.map_write,hB.tadd,hB.tlane,← Cells.read_map val hB.blank]

theorem rounds4 (hB : B.Lawful val) (hr : InWord r) (k : Cells L 9) (t : Cells L 3) (s : Nat)
    (p : Cells L 8) : (Glsl.rounds4 B k t s r p).map val =
      Glsl.rounds4 int64 (k.map val) (t.map val) s r (p.map val) := by
  have hr (i j : Nat) (hi : i < 4) (hj : j < 4) : r i j < 64 := hr i hi j hj
  simp (disch := exact hr _ _ (by decide) (by decide)) only [Glsl.rounds4,Glsl.first,Glsl.second,
    Glsl.third,Glsl.fourth,hB.mix,hB.inject]

theorem rounds (hB : B.Lawful val) (k : Cells L 9) (t : Cells L 3) (p : Cells L 8) :
    (Glsl.rounds B k t p).map val = Glsl.rounds int64 (k.map val) (t.map val) (p.map val) := by
  simp only [Glsl.rounds,even,odd,hB.inject,hB.rounds4 evenRotations_inWord,
    hB.rounds4 oddRotations_inWord]

theorem keyWords (hB : B.Lawful val) (h : Cells L 8) :
    (Glsl.keyWords B h).map val = Glsl.keyWords int64 (h.map val) := by
  have hstart : ((Cells.blank 9 : Cells L 9).write 8 (B.tlane 0xa9fc1a22 0x1bd11bda)).map val =
      (Cells.blank 9).write 8 (int64.tlane 0xa9fc1a22 0x1bd11bda) := by
    rw [Cells.map_write,Cells.map_blank val hB.blank,hB.tlane]
  rw [Glsl.keyWords,Glsl.keyWords,← hstart]
  refine upTo_hom (Vector.map val) _ fun i _ k => ?_
  simp only [Cells.map_write,hB.txor,← Cells.read_map val hB.blank]

theorem tweakWords (hB : B.Lawful val) (t0 t1 : L) :
    (Glsl.tweakWords B t0 t1).map val = Glsl.tweakWords int64 (val t0) (val t1) := by
  simp only [Glsl.tweakWords,Cells.map_write,Cells.map_blank val hB.blank,hB.txor]

theorem skein512Ubi (hB : B.Lawful val) (h m : Cells L 8) (t0 t1 : L) :
    (Glsl.skein512Ubi B h m t0 t1).map val =
      Glsl.skein512Ubi int64 (h.map val) (m.map val) (val t0) (val t1) := by
  rw [Glsl.skein512Ubi,Glsl.skein512Ubi,← hB.tweakWords,← hB.keyWords,← hB.rounds]
  refine upTo_hom (Vector.map val) _ fun i _ h => ?_
  simp only [Cells.map_write,hB.txor,← Cells.read_map val hB.blank]

theorem skeinOf (hB : B.Lawful val) (push : SkeinPush) (nonce : Word) :
    (Glsl.skeinOf B push nonce).map val = Glsl.skeinOf int64 push nonce := by
  have hfill (f : Nat → L) (g : Nat → Word64) (hfg : ∀ i,val (f i) = g i) (n first : Nat)
      (m : Cells L 8) : (upTo n m fun i m => m.write (first + i) (f i)).map val =
        upTo n (m.map val) fun i m => Cells.write m (first + i) (g i) := by
    refine upTo_hom (Vector.map val) m fun i _ m => ?_
    rw [Cells.map_write,hfg]
  have hstart := hfill (fun i => B.tlane (push.midstate.read (2*i)) (push.midstate.read (2*i + 1)))
    _ (fun i => hB.tlane _ _) 8 0 (Cells.blank 8)
  have hrest := hfill (fun _ => B.tlane 0 0) _ (fun _ => hB.tlane _ _) 6 2
  have hzero := hfill (fun _ => B.tlane 0 0) _ (fun _ => hB.tlane _ _) 8 0
  simp only [Nat.zero_add] at hstart hzero
  simp only [Glsl.skeinOf,hB.skein512Ubi,hstart,hrest,hzero,Cells.map_write,
    Cells.map_blank val hB.blank,hB.tlane]

theorem messageWords (hB : B.Lawful val) (garbage : Words 64) (h : Cells L 8) :
    Glsl.messageWords B garbage h = Glsl.messageWords int64 garbage (h.map val) := by
  simp only [Glsl.messageWords,hB.tlo,hB.thi,← Cells.read_map val hB.blank]

theorem shaOf (hB : B.Lawful val) (garbage : Words 64) (h : Cells L 8) :
    Glsl.shaOf B garbage h = Glsl.shaOf int64 garbage (h.map val) := by
  rw [Glsl.shaOf,Glsl.shaOf,hB.messageWords]

theorem skeinSearch (hB : B.Lawful val) (garbage : Words 64) (push : SkeinPush) (nonce : Word) :
    Glsl.skeinSearch B garbage push nonce = Glsl.skeinSearch int64 garbage push nonce := by
  have hsha : Glsl.shaOf B garbage (Glsl.skeinOf B push nonce) =
      Glsl.shaOf int64 garbage (Glsl.skeinOf int64 push nonce) := by
    rw [hB.shaOf,hB.skeinOf]
  rw [Glsl.skeinSearch,Glsl.skeinSearch,hsha]

end TLane.Lawful

theorem Module.lawful (module : Module) : module.lanes.Lawful module.val := by
  cases module with
  | wide => constructor <;> intros <;> rfl
  | wideAdd => exact wideAdd_lawful
  | pairs => exact pairs_lawful

end VkMiner.Skein.Glsl
