import VkMiner.Progpow.Lockstep
set_option autoImplicit false

/-! `progpow.comp`: the program is words in workgroup memory. -/

namespace VkMiner.Progpow.Interpreted
open Loops

variable (c : Constants) (push : Push) (b : Bindings) (prog : Program)

def cacheOp (i : Nat) (mix : Regs) : Regs :=
  let op := kCacheBase + i * kCacheWords
  let dst := (prog.read (op + 1)).toNat
  let offset := mix.read (prog.read op).toNat % BitVec.ofNat 32 kL1Words
  mix.write dst (Glsl.randomMerge (mix.read dst) (sharedWord b offset) (prog.read (op + 2)))

def mathOp (i : Nat) (mix : Regs) : Regs :=
  let op := kMathBase + i * kMathWords
  let data := Glsl.randomMath (mix.read (prog.read op).toNat)
    (mix.read (prog.read (op + 1)).toNat) (prog.read (op + 2))
  let dst := (prog.read (op + 3)).toNat
  mix.write dst (Glsl.randomMerge (mix.read dst) data (prog.read (op + 4)))

def step (i : Nat) (mix : Regs) : Regs :=
  let mix := if i < c.kCacheOps.toNat then cacheOp b prog i mix else mix
  if i < c.kMathOps.toNat then mathOp prog i mix else mix

def body (r lane : Nat) (read : Word) (mix : Regs) : Regs :=
  let line := read % push.dagLines
  let steps := Glsl.max c.kCacheOps c.kMathOps
  let mix := upTo steps.toNat mix (step c b prog)
  let word := placeOf line ((lane ^^^ r) % kLanes)
  upTo kDagLoads mix fun i mix =>
    let op := kDagBase + i * kDagWords
    let dst := (prog.read op).toNat
    mix.write dst (Glsl.randomMerge (mix.read dst) (sharedWord b (word + BitVec.ofNat 32 i))
      (prog.read (op + 1)))

/-- `main`: the first invocation has built the program when the others read it. -/
def kernel {g : Workgroup} : Fin g.width → Outcome :=
  let e := Exchange.workgroup (g := g)
  let prog := (Glsl.buildProgram c.shape push.periodLo push.periodHi Glsl.Globals.start).prog
  main e c push (fun i => (sealOf c push (e.nonceIndex i)).read) (body c push b prog)

variable {c push prog} {params : Params} {lines : Nat} {dag : Nat → Word}

theorem cacheOp_eq (cut : Cut lines) (i : Nat) (mix : Regs) :
    cacheOp (cut.bindings dag) prog i mix = cacheLane prog dag i mix := by
  simp only [cacheOp,cacheLane,mergeInto,randomMerge_eq,sharedWord_cached]

theorem mathOp_eq (i : Nat) (mix : Regs) : mathOp prog i mix = mathLane prog i mix := by
  simp only [mathOp,mathLane,mergeInto,randomMerge_eq,randomMath_eq]

theorem step_eq (cut : Cut lines) (hc : c.Carries params) (i : Nat) (mix : Regs) :
    step c (cut.bindings dag) prog i mix = stepLane params prog dag i mix := by
  simp only [step,stepLane,hc.cacheOps,hc.mathOps,cacheOp_eq,mathOp_eq]

/-- A round of the interpreter is the host's, lane by lane, over the table as 32 bits find it. -/
theorem body_eq (cut : Cut lines) (hc : c.Carries params)
    (hl : push.dagLines = BitVec.ofNat 32 lines) (r l : Nat) (read : Word) (mix : Regs) :
    body c push (cut.bindings dag) prog r l read mix =
      roundLane params prog dag r l (lineOf (wrapped dag) (read.toNat % lines)) mix := by
  obtain ⟨hpos,hlt⟩ := cut.lines_lt
  have he : (read % push.dagLines).toNat = read.toNat % lines := by
    rw [hl,BitVec.toNat_umod,BitVec.toNat_ofNat,
      Nat.mod_eq_of_lt (by omega : lines < 2 ^ 32)]
  have hm : (read % push.dagLines).toNat < lines := he ▸ Nat.mod_lt _ hpos
  have hs : upTo params.steps.toNat mix (step c (cut.bindings dag) prog) =
      upTo params.steps.toNat mix (stepLane params prog dag) :=
    upTo_congr mix fun i _ mix => step_eq cut hc i mix
  simp only [body,roundLane,hc.cacheOps,hc.mathOps,max_steps,hs]
  refine upTo_congr _ fun i hi mix => ?_
  rw [sharedWord_place cut hm (Nat.mod_lt _ (by decide)) hi,he,randomMerge_eq]
  rfl

end VkMiner.Progpow.Interpreted
