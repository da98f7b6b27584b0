import VkMiner.Progpow.Lockstep
set_option autoImplicit false

/-! `progpow_spec_body.glsl`: the program is constants of the pipeline. -/

namespace VkMiner.Progpow.Specialized
open Loops List

variable (c : Constants) (push : Push) (b : Bindings) {g : Workgroup}

def kCacheSrc (n : Nat) : Word := c (8 + 3 * n)
def kCacheDst (n : Nat) : Word := c (9 + 3 * n)
def kCacheSel (n : Nat) : Word := c (10 + 3 * n)

def kMathA (n : Nat) : Word := c (44 + 5 * n)
def kMathB (n : Nat) : Word := c (45 + 5 * n)
def kMathOp (n : Nat) : Word := c (46 + 5 * n)
def kMathDst (n : Nat) : Word := c (47 + 5 * n)
def kMathSel (n : Nat) : Word := c (48 + 5 * n)

def kDagDst (n : Nat) : Word := c (134 + 2 * n)
def kDagSel (n : Nat) : Word := c (135 + 2 * n)
def kDagLines : Word := c 142

/-- The copy of the cache, which invocation `first` begins at its own word and strides over by the
workgroup's width. -/
def cDag (g : Workgroup) : Words (c.kL1SharedWords.toNat + 1) :=
  Words.writeAll (fun i => sharedWord b (BitVec.ofNat 32 i)) (Words.zeros _)
    ((range g.width).flatMap fun first => strided first g.width c.kL1SharedWords.toNat)

def progpowL1 (g : Workgroup) (index : Word) : Word :=
  if c.kL1SharedWords = 0 then sharedWord b index else (cDag c b g).read index.toNat

inductive Op where
  | cacheOp (n : Nat)
  | mathOp (n : Nat)

def Op.run (l1 : Word → Word) (mix : Regs) : Op → Regs
  | cacheOp n =>
    if n < c.kCacheOps.toNat then
      let dst := (kCacheDst c n).toNat
      let value := l1 (mix.read (kCacheSrc c n).toNat % BitVec.ofNat 32 kL1Words)
      mix.write dst (Glsl.randomMerge (mix.read dst) value (kCacheSel c n))
    else mix
  | mathOp n =>
    if n < c.kMathOps.toNat then
      let dst := (kMathDst c n).toNat
      let value := Glsl.randomMath (mix.read (kMathA c n).toNat) (mix.read (kMathB c n).toNat)
        (kMathOp c n)
      mix.write dst (Glsl.randomMerge (mix.read dst) value (kMathSel c n))
    else mix

def ops : List Op :=
  [.cacheOp 0,.mathOp 0,.cacheOp 1,.mathOp 1,.cacheOp 2,.mathOp 2,.cacheOp 3,.mathOp 3,
    .cacheOp 4,.mathOp 4,.cacheOp 5,.mathOp 5,.cacheOp 6,.mathOp 6,.cacheOp 7,.mathOp 7,
    .cacheOp 8,.mathOp 8,.cacheOp 9,.mathOp 9,.cacheOp 10,.mathOp 10,.cacheOp 11,.mathOp 11,
    .mathOp 12,.mathOp 13,.mathOp 14,.mathOp 15,.mathOp 16,.mathOp 17]

def dagOp (n : Nat) (value : Word) (mix : Regs) : Regs :=
  let dst := (kDagDst c n).toNat
  mix.write dst (Glsl.randomMerge (mix.read dst) value (kDagSel c n))

/-- The round `r` of a lane, which takes its four words of the line in one load. -/
def body (l1 : Word → Word) (r lane : Nat) (read : Word) (mix : Regs) : Regs :=
  let line := read % kDagLines c
  let mix := ops.foldl (Op.run c l1) mix
  let quad := sharedQuad b (placeOf line ((lane ^^^ r) % kLanes))
  let mix := dagOp c 0 (quad.read 0) mix
  let mix := dagOp c 1 (quad.read 1) mix
  let mix := dagOp c 2 (quad.read 2) mix
  dagOp c 3 (quad.read 3) mix

def kSeedSlots (g : Workgroup) : Nat := g.width / kLanes

def seedSlots (g : Workgroup) : Words (c.kSeedPrePass.toNat * kSeedSlots g * 8 + 1) :=
  upTo (kSeedSlots g) (Words.zeros _) fun slot slots =>
    let s := sealOf c push (g.id * kSeedSlots g + slot)
    upTo 8 slots fun i slots => slots.write (slot * 8 + i) (s.read i)

def seed (e : Exchange g) (i : Fin g.width) (k : Nat) : Word :=
  if c.kSeedPrePass = 0 then (sealOf c push (e.nonceIndex i)).read k
  else
    let slot := e.nonceIndex i - g.id * kSeedSlots g
    (seedSlots c push g).read (slot * 8 + k)

/-- `main` of the two modules, which differ in how the lanes exchange a word. -/
def kernel (e : Exchange g) : Fin g.width → Outcome :=
  main e c push (seed c push e) (body c b (progpowL1 c b g))

/-- The constants are this program's words, in their order, and the table's length. -/
structure Programmed (c : Constants) (program : Program) (lines : Nat) : Prop where
  word : ∀ i < kProgramWords, c (kProgramConstantId + i) = program.read i
  lines : kDagLines c = BitVec.ofNat 32 lines

structure Decided (c : Constants) : Prop where
  l1 : c.kL1SharedWords = 0 ∨ c.kL1SharedWords = BitVec.ofNat 32 kL1Words
  pre : c.kSeedPrePass = 0 ∨ c.kSeedPrePass = 1

variable {c push} {params : Params} {program : Program} {lines : Nat} {dag : Nat → Word}
  {l1 : Word → Word}

theorem specialized_programmed (params : Params) (key : BitVec 64) (lines : Nat)
    (kernel : List Word) :
    Programmed (specialized (programValues params key lines) kernel) (buildProgram params key)
      lines where
  word i h := by
    have hlt : ¬kKernelConstantId ≤ kProgramConstantId + i := by
      simp only [kKernelConstantId,kMaxProgramConstants,kProgramWords,kDagBase,kMathBase,
        kCacheBase,kMaxCacheOps,kCacheWords,kMaxMathOps,kMathWords,kDagLoads,kDagWords] at *
      omega
    rw [specialized,if_neg hlt,Nat.add_sub_cancel_left,← toList_getD]
    simp [programValues,List.getD_eq_getElem?_getD,List.getElem?_append,h]
  lines := by
    have hlt : ¬kKernelConstantId ≤ kProgramConstantId + kProgramWords := by decide
    change specialized _ _ (kProgramConstantId + kProgramWords) = _
    rw [specialized,if_neg hlt,Nat.add_sub_cancel_left]
    simp [programValues,List.getD_eq_getElem?_getD]

theorem Programmed.at (hp : Programmed c program lines) {id i : Nat} (hi : i < kProgramWords)
    (he : id = kProgramConstantId + i) : c id = program.read i := he ▸ hp.word i hi

theorem cacheWords_eq (hp : Programmed c program lines) {n : Nat} (hn : n < kMaxCacheOps) :
    kCacheSrc c n = program.read (kCacheBase + n * kCacheWords) ∧
      kCacheDst c n = program.read (kCacheBase + n * kCacheWords + 1) ∧
      kCacheSel c n = program.read (kCacheBase + n * kCacheWords + 2) := by
  refine ⟨hp.at ?_ ?_,hp.at ?_ ?_,hp.at ?_ ?_⟩
  all_goals
    simp only [kProgramConstantId,kProgramWords,kDagBase,kMathBase,kCacheBase,kMaxCacheOps,
      kCacheWords,kMaxMathOps,kMathWords,kDagLoads,kDagWords] at *
    omega

theorem mathWords_eq (hp : Programmed c program lines) {n : Nat} (hn : n < kMaxMathOps) :
    kMathA c n = program.read (kMathBase + n * kMathWords) ∧
      kMathB c n = program.read (kMathBase + n * kMathWords + 1) ∧
      kMathOp c n = program.read (kMathBase + n * kMathWords + 2) ∧
      kMathDst c n = program.read (kMathBase + n * kMathWords + 3) ∧
      kMathSel c n = program.read (kMathBase + n * kMathWords + 4) := by
  refine ⟨hp.at ?_ ?_,hp.at ?_ ?_,hp.at ?_ ?_,hp.at ?_ ?_,hp.at ?_ ?_⟩
  all_goals
    simp only [kProgramConstantId,kProgramWords,kDagBase,kMathBase,kCacheBase,kMaxCacheOps,
      kCacheWords,kMaxMathOps,kMathWords,kDagLoads,kDagWords] at *
    omega

theorem dagWords_eq (hp : Programmed c program lines) {n : Nat} (hn : n < kDagLoads) :
    kDagDst c n = program.read (kDagBase + n * kDagWords) ∧
      kDagSel c n = program.read (kDagBase + n * kDagWords + 1) := by
  refine ⟨hp.at ?_ ?_,hp.at ?_ ?_⟩
  all_goals
    simp only [kProgramConstantId,kProgramWords,kDagBase,kMathBase,kCacheBase,kMaxCacheOps,
      kCacheWords,kMaxMathOps,kMathWords,kDagLoads,kDagWords] at *
    omega

theorem cacheOp_eq (hc : c.Carries params) (hp : Programmed c program lines)
    (hl : ∀ x, l1 (x % BitVec.ofNat 32 kL1Words) = dag (x.toNat % kL1Words)) {n : Nat}
    (hn : n < kMaxCacheOps) (mix : Regs) :
    Op.run c l1 mix (.cacheOp n) =
      if n < params.cacheOps.toNat then cacheLane program dag n mix else mix := by
  obtain ⟨hs,hd,hm⟩ := cacheWords_eq hp hn
  simp only [Op.run,hc.cacheOps,hs,hd,hm,hl,randomMerge_eq]
  rfl

theorem mathOp_eq (hc : c.Carries params) (hp : Programmed c program lines) {n : Nat}
    (hn : n < kMaxMathOps) (mix : Regs) :
    Op.run c l1 mix (.mathOp n) =
      if n < params.mathOps.toNat then mathLane program n mix else mix := by
  obtain ⟨ha,hb,ho,hd,hm⟩ := mathWords_eq hp hn
  simp only [Op.run,hc.mathOps,ha,hb,ho,hd,hm,randomMerge_eq,randomMath_eq]
  rfl

theorem dagOp_eq (hp : Programmed c program lines) {n : Nat} (hn : n < kDagLoads)
    (quad : Nat → Word) (mix : Regs) : dagOp c n (quad n) mix = dagLane program quad n mix := by
  obtain ⟨hd,hm⟩ := dagWords_eq hp hn
  simp only [dagOp,hd,hm,randomMerge_eq]
  rfl

def opStep (c : Constants) (l1 : Word → Word) (i : Nat) (mix : Regs) : Regs :=
  Op.run c l1 (if i < kMaxCacheOps then Op.run c l1 mix (.cacheOp i) else mix) (.mathOp i)

theorem ops_eq (mix : Regs) :
    ops.foldl (Op.run c l1) mix = upTo kMaxMathOps mix (opStep c l1) := rfl

theorem opStep_eq (hc : c.Carries params) (hp : Programmed c program lines)
    (hl : ∀ x, l1 (x % BitVec.ofNat 32 kL1Words) = dag (x.toNat % kL1Words)) {i : Nat}
    (hi : i < kMaxMathOps) (mix : Regs) :
    opStep c l1 i mix = stepLane params program dag i mix := by
  have hcache : (if i < kMaxCacheOps then Op.run c l1 mix (.cacheOp i) else mix) =
      if i < params.cacheOps.toNat then cacheLane program dag i mix else mix := by
    split
    case isTrue h => exact cacheOp_eq hc hp hl h mix
    case isFalse h => rw [if_neg (by have := params.cacheOps_le; omega)]
  rw [opStep,hcache,mathOp_eq hc hp hi,stepLane]

theorem stepLane_idle {i : Nat} (hi : params.steps.toNat ≤ i) (mix : Regs) :
    stepLane params program dag i mix = mix := by
  have hs : params.cacheOps.toNat ≤ params.steps.toNat ∧
      params.mathOps.toNat ≤ params.steps.toNat := by
    simp only [Params.steps,BitVec.lt_def]
    split <;> omega
  rw [stepLane,if_neg (by omega),if_neg (by omega)]

theorem foldl_ops (hc : c.Carries params) (hp : Programmed c program lines)
    (hl : ∀ x, l1 (x % BitVec.ofNat 32 kL1Words) = dag (x.toNat % kL1Words)) (mix : Regs) :
    ops.foldl (Op.run c l1) mix = upTo params.steps.toNat mix (stepLane params program dag) := by
  have hs : params.steps.toNat ≤ kMaxMathOps := by
    have hc := params.cacheOps_le
    have hm := params.mathOps_le
    simp only [Params.steps,kMaxCacheOps,kMaxMathOps] at *
    split <;> omega
  rw [ops_eq,upTo_congr mix fun i hi mix => opStep_eq hc hp hl hi mix,
    upTo_idle mix hs fun i _ hi mix => stepLane_idle hi mix]

/-- A round of the specialized kernel is the host's, lane by lane, over the table as 32 bits find
it. -/
theorem body_eq (cut : Cut lines) (hc : c.Carries params) (hp : Programmed c program lines)
    (hl : ∀ x, l1 (x % BitVec.ofNat 32 kL1Words) = dag (x.toNat % kL1Words)) (r l : Nat)
    (read : Word) (mix : Regs) :
    body c (cut.bindings dag) l1 r l read mix =
      roundLane params program dag r l (lineOf (wrapped dag) (read.toNat % lines)) mix := by
  obtain ⟨hpos,hlt⟩ := cut.lines_lt
  have he : (read % kDagLines c).toNat = read.toNat % lines := by
    rw [hp.lines,BitVec.toNat_umod,BitVec.toNat_ofNat,
      Nat.mod_eq_of_lt (by omega : lines < 2 ^ 32)]
  have hm : (read % kDagLines c).toNat < lines := he ▸ Nat.mod_lt _ hpos
  have hq (i : Nat) (hi : i < kDagLoads) :
      (sharedQuad (cut.bindings dag) (placeOf (read % kDagLines c) ((l ^^^ r) % kLanes))).read i =
        (lineOf (wrapped dag) (read.toNat % lines)).read ((l ^^^ r) % kLanes * kDagLoads + i) := by
    rw [sharedQuad_place cut hm (Nat.mod_lt _ (by decide)) hi,he]
  have hd (i : Nat) (hi : i < kDagLoads) := dagOp_eq hp hi fun i =>
    (lineOf (wrapped dag) (read.toNat % lines)).read ((l ^^^ r) % kLanes * kDagLoads + i)
  simp only [body,foldl_ops hc hp hl]
  rw [hq 0 (by decide),hq 1 (by decide),hq 2 (by decide),hq 3 (by decide),hd 0 (by decide),
    hd 1 (by decide),hd 2 (by decide),hd 3 (by decide)]
  rfl

theorem progpowL1_eq (cut : Cut lines) (dag : Nat → Word) (hd : Decided c) (hg : 0 < g.width)
    (x : Word) :
    progpowL1 c (cut.bindings dag) g (x % BitVec.ofNat 32 kL1Words) =
      dag (x.toNat % kL1Words) := by
  rw [progpowL1]
  split
  case isTrue => exact sharedWord_cached cut x
  case isFalse h =>
    have hn : c.kL1SharedWords.toNat = kL1Words := by
      rw [hd.l1.resolve_left h]
      rfl
    obtain ⟨he,-⟩ := cached_lt cut x
    have hx : x.toNat % kL1Words < kL1Words := Nat.mod_lt _ (by decide)
    rw [he,cDag,Words.read_writeAll _ _ (by omega) (.inl (mem_strides (by omega) hg))]
    have hs : sharedWord (cut.bindings dag) _ = _ := sharedWord_cached cut x
    rw [← hs,← he,BitVec.ofNat_toNat,BitVec.setWidth_eq]

theorem seedSlots_read (hn : c.kSeedPrePass.toNat = 1) {slot k : Nat} (hs : slot < kSeedSlots g)
    (hk : k < 8) :
    (seedSlots c push g).read (slot * 8 + k) =
      (sealOf c push (g.id * kSeedSlots g + slot)).read k := by
  refine Words.read_rows (fun slot => (sealOf c push (g.id * kSeedSlots g + slot)).read) _ ?_ hs hk
  rw [hn,Nat.one_mul]
  exact Nat.le_succ _

/-- Where the seals were computed once for the workgroup, an invocation finds its own. -/
theorem seed_eq (e : Exchange g) (hd : Decided c) (i : Fin g.width) {k : Nat} (hk : k < 8) :
    seed c push e i k = (sealOf c push (e.nonceIndex i)).read k := by
  rw [seed]
  split
  case isTrue => rfl
  case isFalse h =>
    have hn : c.kSeedPrePass.toNat = 1 := by
      rw [hd.pre.resolve_left h]
      rfl
    obtain ⟨slot,hs,he⟩ := e.nonceIndex_slot i
    have hr : (seedSlots c push g).read (slot * 8 + k) = _ := seedSlots_read hn hs hk
    simp only [kSeedSlots] at hr ⊢
    rw [he,Nat.add_sub_cancel_left,hr]

end VkMiner.Progpow.Specialized
