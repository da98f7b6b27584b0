import VkMiner.Progpow.Bits
set_option autoImplicit false

/-! The program of a period, drawn on the host and in the interpreting kernel. -/

namespace VkMiner.Progpow
open Loops

def kLanes : Nat := 16
def kMaxRegs : Nat := 32
def kMaxCacheOps : Nat := 12
def kMaxMathOps : Nat := 18
def kMaxRounds : Nat := 64
def kDagLoads : Nat := 4

def kCacheWords : Nat := 3
def kMathWords : Nat := 5
def kDagWords : Nat := 2

def kCacheBase : Nat := 0
def kMathBase : Nat := kCacheBase + kMaxCacheOps * kCacheWords
def kDagBase : Nat := kMathBase + kMaxMathOps * kMathWords
def kProgramWords : Nat := kDagBase + kDagLoads * kDagWords

def kSealSeedWords : Nat := 15
def kSealFinalWords : Nat := 9

def kFnvPrime : Word := 0x01000193
def kFnvOffsetBasis : Word := 0x811c9dc5

/-- What a fork says of a hash, within the maxima that the program is laid out for. -/
structure Params where
  regs : Word
  cacheOps : Word
  mathOps : Word
  rounds : Word
  sealSeed : Words kSealSeedWords
  sealFinal : Words kSealFinalWords
  regs_le : regs.toNat ≤ kMaxRegs
  cacheOps_le : cacheOps.toNat ≤ kMaxCacheOps
  mathOps_le : mathOps.toNat ≤ kMaxMathOps
  rounds_le : rounds.toNat ≤ kMaxRounds

/-- No remainder by zero is taken for a program: the loads of a round draw theirs by the number of
registers, and a math step draws one by that times one less. -/
def Params.Drawable (params : Params) : Prop :=
  0 < params.regs.toNat ∧ (0 < params.mathOps.toNat → 1 < params.regs.toNat)

instance (params : Params) : Decidable params.Drawable :=
  inferInstanceAs (Decidable (0 < params.regs.toNat ∧ (0 < params.mathOps.toNat → _)))

def fnv1a (u v : Word) : Word := (u ^^^ v) * kFnvPrime

/-- `Kiss99`, and the four globals `g_z`, `g_w`, `g_jsr` and `g_jcong` of a shader. -/
structure Kiss99 where
  z : Word
  w : Word
  jsr : Word
  jcong : Word

def Kiss99.next (k : Kiss99) : Word × Kiss99 :=
  let z := 36969 * (k.z &&& 0xffff) + (k.z >>> 16)
  let w := 18000 * (k.w &&& 0xffff) + (k.w >>> 16)
  let jcong := 69069 * k.jcong + 1234567
  let jsr := k.jsr ^^^ (k.jsr <<< 17)
  let jsr := jsr ^^^ (jsr >>> 13)
  let jsr := jsr ^^^ (jsr <<< 5)
  ((((z <<< 16) + w) ^^^ jcong) + jsr,⟨z,w,jsr,jcong⟩)

abbrev Program := Words kProgramWords

structure Build where
  rng : Kiss99
  dstSeq : Words kMaxRegs
  srcSeq : Words kMaxRegs
  dstCounter : Word
  srcCounter : Word
  out : Program

def Build.draw (b : Build) : Word × Build :=
  let (x,rng) := b.rng.next
  (x,{ b with rng })

def Build.nextDst (regs : Word) (b : Build) : Word × Build :=
  (b.dstSeq.read (b.dstCounter % regs).toNat,{ b with dstCounter := b.dstCounter + 1 })

def Build.nextSrc (regs : Word) (b : Build) : Word × Build :=
  (b.srcSeq.read (b.srcCounter % regs).toNat,{ b with srcCounter := b.srcCounter + 1 })

def Build.store (b : Build) (op : Nat) (words : List Word) : Build :=
  { b with out := (words.zipIdx op).foldl (fun out (x,i) => out.write i x) b.out }

def exchange (seq : Words kMaxRegs) (i j : Nat) : Words kMaxRegs :=
  (seq.write i (seq.read j)).write j (seq.read i)

def Build.shuffle (i : Nat) (b : Build) : Build :=
  let (d,b) := b.draw
  let b := { b with dstSeq := exchange b.dstSeq (i - 1) (d % BitVec.ofNat 32 i).toNat }
  let (s,b) := b.draw
  { b with srcSeq := exchange b.srcSeq (i - 1) (s % BitVec.ofNat 32 i).toNat }

def Build.cacheOp (regs : Word) (i : Nat) (b : Build) : Build :=
  let (src,b) := b.nextSrc regs
  let (dst,b) := b.nextDst regs
  let (sel,b) := b.draw
  b.store (kCacheBase + i * kCacheWords) [src,dst,sel]

/-- The second source comes from the registers without the first. -/
def Build.mathOp (regs : Word) (i : Nat) (b : Build) : Build :=
  let (rnd,b) := b.draw
  let rnd := rnd % (regs * (regs - 1))
  let src₁ := rnd % regs
  let src₂ := if src₁ ≤ rnd / regs then rnd / regs + 1 else rnd / regs
  let (sel₁,b) := b.draw
  let (dst,b) := b.nextDst regs
  let (sel₂,b) := b.draw
  b.store (kMathBase + i * kMathWords) [src₁,src₂,sel₁,dst,sel₂]

def Build.step (params : Params) (i : Nat) (b : Build) : Build :=
  let b := if i < params.cacheOps.toNat then b.cacheOp params.regs i else b
  if i < params.mathOps.toNat then b.mathOp params.regs i else b

/-- Register 0 takes the first load of every round, and nothing is drawn for it. -/
def Build.dagOp (regs : Word) (i : Nat) (b : Build) : Build :=
  let (dst,b) := if i = 0 then (0,b) else b.nextDst regs
  let (sel,b) := b.draw
  b.store (kDagBase + i * kDagWords) [dst,sel]

def Build.number (regs : Word) (b : Build) : Build :=
  upTo regs.toNat b fun i b =>
    { b with
      dstSeq := b.dstSeq.write i (BitVec.ofNat 32 i)
      srcSeq := b.srcSeq.write i (BitVec.ofNat 32 i) }

def Build.shuffles (regs : Word) (b : Build) : Build :=
  upTo (regs.toNat - 1) b fun j => Build.shuffle (regs.toNat - j)

def Params.steps (params : Params) : Word :=
  if params.mathOps < params.cacheOps then params.cacheOps else params.mathOps

def Build.steps (params : Params) (b : Build) : Build :=
  upTo params.steps.toNat b (Build.step params)

def Build.dagOps (regs : Word) (b : Build) : Build := upTo kDagLoads b (Build.dagOp regs)

/-- `build_program` of `progpow_program.cpp`. -/
def buildProgram (params : Params) (period : BitVec 64) : Program :=
  let out : Program := upTo kProgramWords (Words.zeros _) fun i out => out.write i 0
  let lo := period.setWidth 32
  let hi := (period >>> 32).setWidth 32
  let z := fnv1a kFnvOffsetBasis lo
  let w := fnv1a z hi
  let jsr := fnv1a w lo
  let jcong := fnv1a jsr hi
  let b : Build := ⟨⟨z,w,jsr,jcong⟩,Words.zeros _,Words.zeros _,0,0,out⟩
  ((((b.number params.regs).shuffles params.regs).steps params).dagOps params.regs).out

namespace Glsl

/-- What `progpow.comp` keeps outside its functions: the generator, the two sequences, and in
workgroup memory the program. -/
structure Globals where
  gZ : Word
  gW : Word
  gJsr : Word
  gJcong : Word
  dstSeq : Words kMaxRegs
  srcSeq : Words kMaxRegs
  dstCounter : Word
  srcCounter : Word
  prog : Program

/-- The shape of a round, as the pipeline was given it. -/
structure Shape where
  kRegs : Word
  kCacheOps : Word
  kMathOps : Word

variable (k : Shape)

def kiss99 (g : Globals) : Word × Globals :=
  let gZ := 36969 * (g.gZ &&& 0xffff) + (g.gZ >>> 16)
  let gW := 18000 * (g.gW &&& 0xffff) + (g.gW >>> 16)
  let gJcong := 69069 * g.gJcong + 1234567
  let gJsr := g.gJsr ^^^ (g.gJsr <<< 17)
  let gJsr := gJsr ^^^ (gJsr >>> 13)
  let gJsr := gJsr ^^^ (gJsr <<< 5)
  ((((gZ <<< 16) + gW) ^^^ gJcong) + gJsr,{ g with gZ,gW,gJsr,gJcong })

def kiss99Seed (z w jsr jcong : Word) (g : Globals) : Globals :=
  { g with gZ := z, gW := w, gJsr := jsr, gJcong := jcong }

def nextDst (g : Globals) : Word × Globals :=
  (g.dstSeq.read (g.dstCounter % k.kRegs).toNat,{ g with dstCounter := g.dstCounter + 1 })

def nextSrc (g : Globals) : Word × Globals :=
  (g.srcSeq.read (g.srcCounter % k.kRegs).toNat,{ g with srcCounter := g.srcCounter + 1 })

def put (i : Nat) (x : Word) (g : Globals) : Globals := { g with prog := g.prog.write i x }

def shuffle (i : Nat) (g : Globals) : Globals :=
  let (x,g) := kiss99 g
  let d := (x % BitVec.ofNat 32 i).toNat
  let t₀ := g.dstSeq.read (i - 1)
  let g := { g with dstSeq := (g.dstSeq.write (i - 1) (g.dstSeq.read d)).write d t₀ }
  let (x,g) := kiss99 g
  let s := (x % BitVec.ofNat 32 i).toNat
  let t₁ := g.srcSeq.read (i - 1)
  { g with srcSeq := (g.srcSeq.write (i - 1) (g.srcSeq.read s)).write s t₁ }

def drawCacheOp (i : Nat) (g : Globals) : Globals :=
  let (src,g) := nextSrc k g
  let (dst,g) := nextDst k g
  let (sel,g) := kiss99 g
  let op := kCacheBase + i * kCacheWords
  put (op + 2) sel (put (op + 1) dst (put op src g))

def drawMathOp (i : Nat) (g : Globals) : Globals :=
  let (x,g) := kiss99 g
  let srcRnd := x % (k.kRegs * (k.kRegs - 1))
  let src₁ := srcRnd % k.kRegs
  let src₂ := srcRnd / k.kRegs
  let src₂ := if src₁ ≤ src₂ then src₂ + 1 else src₂
  let (sel₁,g) := kiss99 g
  let (dst,g) := nextDst k g
  let (sel₂,g) := kiss99 g
  let op := kMathBase + i * kMathWords
  put (op + 4) sel₂ (put (op + 3) dst (put (op + 2) sel₁ (put (op + 1) src₂ (put op src₁ g))))

def drawStep (i : Nat) (g : Globals) : Globals :=
  let g := if i < k.kCacheOps.toNat then drawCacheOp k i g else g
  if i < k.kMathOps.toNat then drawMathOp k i g else g

def drawDagOp (i : Nat) (g : Globals) : Globals :=
  let (dst,g) := if i = 0 then (0,g) else nextDst k g
  let (sel,g) := kiss99 g
  let op := kDagBase + i * kDagWords
  put (op + 1) sel (put op dst g)

def max (a b : Word) : Word := if a < b then b else a

def Globals.start : Globals := ⟨0,0,0,0,Words.zeros _,Words.zeros _,0,0,Words.zeros _⟩

def zeroed (g : Globals) : Globals := upTo kProgramWords g fun i => put i 0

def number (g : Globals) : Globals :=
  upTo k.kRegs.toNat g fun i g =>
    { g with
      dstSeq := g.dstSeq.write i (BitVec.ofNat 32 i)
      srcSeq := g.srcSeq.write i (BitVec.ofNat 32 i) }

def shuffles (g : Globals) : Globals :=
  upTo (k.kRegs.toNat - 1) g fun j => shuffle (k.kRegs.toNat - j)

def drawSteps (g : Globals) : Globals :=
  upTo (max k.kCacheOps k.kMathOps).toNat g (drawStep k)

def drawDagOps (g : Globals) : Globals := upTo kDagLoads g (drawDagOp k)

/-- `build_program` of `progpow.comp`. -/
def buildProgram (periodLo periodHi : Word) (g : Globals) : Globals :=
  let z := fnv1a kFnvOffsetBasis periodLo
  let w := fnv1a z periodHi
  let jsr := fnv1a w periodLo
  let jcong := fnv1a jsr periodHi
  let g := zeroed (kiss99Seed z w jsr jcong g)
  let g := shuffles k (number k g)
  drawDagOps k (drawSteps k { g with dstCounter := 0, srcCounter := 0 })

def Globals.build (g : Globals) : Build :=
  ⟨⟨g.gZ,g.gW,g.gJsr,g.gJcong⟩,g.dstSeq,g.srcSeq,g.dstCounter,g.srcCounter,g.prog⟩

theorem shuffle_build (i : Nat) (g : Globals) : (shuffle i g).build = g.build.shuffle i := rfl

theorem drawCacheOp_build (i : Nat) (g : Globals) :
    (drawCacheOp k i g).build = g.build.cacheOp k.kRegs i := rfl

theorem drawMathOp_build (i : Nat) (g : Globals) :
    (drawMathOp k i g).build = g.build.mathOp k.kRegs i := rfl

theorem drawDagOp_build (i : Nat) (g : Globals) :
    (drawDagOp k i g).build = g.build.dagOp k.kRegs i := by
  obtain rfl | h := Nat.eq_zero_or_pos i
  · rfl
  · simp only [drawDagOp,Build.dagOp,if_neg (Nat.ne_of_gt h)]
    rfl

theorem puts_build (n : Nat) (g : Globals) :
    (upTo n g fun i => put i 0).build =
      { g.build with out := upTo n g.prog fun i out => out.write i 0 } := by
  induction n with
  | zero => rfl
  | succ n ih =>
    have hp : (put n 0 (upTo n g fun i => put i 0)).build =
        { (upTo n g fun i => put i 0).build with
          out := (upTo n g fun i => put i 0).build.out.write n 0 } := rfl
    rw [upTo,hp,ih,upTo]

theorem number_build (g : Globals) : (number k g).build = g.build.number k.kRegs :=
  upTo_hom Globals.build g fun _ _ _ => rfl

theorem shuffles_build (g : Globals) : (shuffles k g).build = g.build.shuffles k.kRegs :=
  upTo_hom Globals.build g fun i _ g => shuffle_build (k.kRegs.toNat - i) g

theorem drawDagOps_build (g : Globals) : (drawDagOps k g).build = g.build.dagOps k.kRegs :=
  upTo_hom Globals.build g fun i _ g => drawDagOp_build k i g

theorem shuffles_counters (g : Globals) :
    (shuffles k g).dstCounter = g.dstCounter ∧ (shuffles k g).srcCounter = g.srcCounter :=
  upTo_invariant (P := fun _ (h : Globals) =>
    h.dstCounter = g.dstCounter ∧ h.srcCounter = g.srcCounter)
    ⟨rfl,rfl⟩ fun _ _ _ h => h

theorem number_counters (g : Globals) :
    (number k g).dstCounter = g.dstCounter ∧ (number k g).srcCounter = g.srcCounter :=
  upTo_invariant (P := fun _ (h : Globals) =>
    h.dstCounter = g.dstCounter ∧ h.srcCounter = g.srcCounter)
    ⟨rfl,rfl⟩ fun _ _ _ h => h

theorem reset_build {g : Globals} (h : g.dstCounter = 0 ∧ g.srcCounter = 0) :
    { g with dstCounter := 0, srcCounter := 0 }.build = g.build := by
  simp only [Globals.build,h.1,h.2]

end Glsl

def Params.shape (params : Params) : Glsl.Shape := ⟨params.regs,params.cacheOps,params.mathOps⟩

theorem drawStep_build (params : Params) (i : Nat) (g : Glsl.Globals) :
    (Glsl.drawStep params.shape i g).build = g.build.step params i := by
  have hc (g : Glsl.Globals) : (if i < params.cacheOps.toNat then
      Glsl.drawCacheOp params.shape i g else g).build = if i < params.cacheOps.toNat then
      g.build.cacheOp params.regs i else g.build := by
    split
    · exact Glsl.drawCacheOp_build params.shape i g
    · rfl
  rw [Build.step,← hc]
  change (if i < params.mathOps.toNat then _ else _ : Glsl.Globals).build = _
  split
  · exact Glsl.drawMathOp_build params.shape i _
  · rfl

theorem max_steps (params : Params) :
    (Glsl.max params.cacheOps params.mathOps).toNat = params.steps.toNat := by
  simp only [Glsl.max,Params.steps,BitVec.lt_def]
  split_ifs <;> omega

theorem drawSteps_build (params : Params) (g : Glsl.Globals) :
    (Glsl.drawSteps params.shape g).build = g.build.steps params := by
  rw [Glsl.drawSteps,Params.shape,max_steps]
  exact upTo_hom Glsl.Globals.build g fun i _ g => drawStep_build params i g

theorem buildProgram_eq (params : Params) (period : BitVec 64) :
    (Glsl.buildProgram params.shape (period.setWidth 32) ((period >>> 32).setWidth 32)
      Glsl.Globals.start).prog = buildProgram params period := by
  change (Glsl.buildProgram params.shape _ _ Glsl.Globals.start).build.out = _
  unfold Glsl.buildProgram buildProgram
  rw [Glsl.drawDagOps_build,drawSteps_build,Glsl.reset_build,Glsl.shuffles_build,
    Glsl.number_build,Glsl.zeroed,Glsl.puts_build]
  · rfl
  · rw [(Glsl.shuffles_counters _ _).1,(Glsl.shuffles_counters _ _).2,
      (Glsl.number_counters _ _).1,(Glsl.number_counters _ _).2]
    exact ⟨congrArg Build.dstCounter (Glsl.puts_build _ _),
      congrArg Build.srcCounter (Glsl.puts_build _ _)⟩

end VkMiner.Progpow
