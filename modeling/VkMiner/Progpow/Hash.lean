import VkMiner.Progpow.Keccak
import VkMiner.Progpow.Program
set_option autoImplicit false

/-! The host's hash: a keccak at each end, and between them the rounds of the program over
sixteen lanes. -/

namespace VkMiner.Progpow
open Loops

def kL1Words : Nat := 16 * 1024 / 4
def kLineWords : Nat := kLanes * kDagLoads

/-- The registers of a lane. A fork with fewer uses the first of them. -/
abbrev Regs := Words kMaxRegs
abbrev Mix := Vector Regs kLanes
abbrev Line := Words kLineWords

structure Hash where
  mix : Words 8
  digest : Words 8

def Mix.lanes (mix : Mix) (f : Nat → Regs → Regs) : Mix := Vector.ofFn fun l => f l mix[l]

/-- The registers of lane `r % kLanes`, whose first says which line the round `r` reads. -/
def Mix.reader (mix : Mix) (r : Nat) : Regs := mix.get ⟨r % kLanes,Nat.mod_lt _ (by decide)⟩

/-- `mix[dst] = random_merge(mix[dst], b, sel)`. -/
def mergeInto (dst b sel : Word) (regs : Regs) : Regs :=
  regs.write dst.toNat (randomMerge (regs.read dst.toNat) b sel)

def Kiss99.fill (rng : Kiss99) (regs : Nat) : Regs :=
  (upTo regs (Words.zeros _,rng) fun r s =>
    let (x,rng) := s.2.next
    (s.1.write r x,rng)).1

def initMix (params : Params) (seedLo seedHi : Word) : Mix :=
  let z := fnv1a kFnvOffsetBasis seedLo
  let w := fnv1a z seedHi
  Vector.ofFn fun l =>
    let jsr := fnv1a w (BitVec.ofNat 32 l)
    let jcong := fnv1a jsr (BitVec.ofNat 32 l)
    Kiss99.fill ⟨z,w,jsr,jcong⟩ params.regs.toNat

def cacheOp (program : Program) (l1 : Nat → Word) (i : Nat) (mix : Mix) : Mix :=
  let op := kCacheBase + i * kCacheWords
  let src := program.read op
  let dst := program.read (op + 1)
  let sel := program.read (op + 2)
  mix.lanes fun _ regs => mergeInto dst (l1 ((regs.read src.toNat).toNat % kL1Words)) sel regs

def mathOp (program : Program) (i : Nat) (mix : Mix) : Mix :=
  let op := kMathBase + i * kMathWords
  let src₁ := program.read op
  let src₂ := program.read (op + 1)
  let sel₁ := program.read (op + 2)
  let dst := program.read (op + 3)
  let sel₂ := program.read (op + 4)
  mix.lanes fun _ regs =>
    mergeInto dst (randomMath (regs.read src₁.toNat) (regs.read src₂.toNat) sel₁) sel₂ regs

def runStep (params : Params) (program : Program) (l1 : Nat → Word) (i : Nat) (mix : Mix) : Mix :=
  let mix := if i < params.cacheOps.toNat then cacheOp program l1 i mix else mix
  if i < params.mathOps.toNat then mathOp program i mix else mix

def runRound (params : Params) (program : Program) (r : Nat) (line : Line) (l1 : Nat → Word)
    (mix : Mix) : Mix :=
  let mix := upTo params.steps.toNat mix (runStep params program l1)
  mix.lanes fun l regs =>
    let offset := (l ^^^ r) % kLanes * kDagLoads
    upTo kDagLoads regs fun i regs =>
      let op := kDagBase + i * kDagWords
      mergeInto (program.read op) (line.read (offset + i)) (program.read (op + 1)) regs

def absorb (params : Params) (header : Words 8) (nonce : BitVec 64) : Words 25 :=
  let seed := upTo 8 (Words.zeros 25) fun i seed => seed.write i (header.read i)
  let seed := seed.write 8 (nonce.setWidth 32)
  let seed := seed.write 9 ((nonce >>> 32).setWidth 32)
  upTo kSealSeedWords seed fun i seed => seed.write (10 + i) (params.sealSeed.read i)

def rounds (params : Params) (program : Program) (l1 : Nat → Word) (dagLines : Nat)
    (dag : Nat → Option Line) (mix : Mix) : Option Mix :=
  tryUpTo params.rounds.toNat mix fun r mix => do
    let index := ((mix.reader r).read 0).toNat % dagLines
    let line ← dag index
    return runRound params program r line l1 mix

def laneHash (regs : Nat) (row : Regs) : Word :=
  upTo regs kFnvOffsetBasis fun r h => fnv1a h (row.read r)

/-- Lane `l` comes down to word `l % 8`. -/
def mixHash (laneHash : Words kLanes) : Words 8 :=
  let out := upTo 8 (Words.zeros 8) fun i out => out.write i kFnvOffsetBasis
  upTo kLanes out fun l out => out.write (l % 8) (fnv1a (out.read (l % 8)) (laneHash.read l))

def absorbLast (params : Params) (seed : Words 25) (mix : Words 8) : Words 25 :=
  let last := upTo 8 (Words.zeros 25) fun i last => last.write i (seed.read i)
  let last := upTo 8 last fun i last => last.write (8 + i) (mix.read i)
  upTo kSealFinalWords last fun i last => last.write (16 + i) (params.sealFinal.read i)

def firstWords (st : Words 25) : Words 8 := upTo 8 (Words.zeros 8) fun i out => out.write i (st.read i)

def hash (params : Params) (program : Program) (l1 : Nat → Word) (dagLines : Nat)
    (dag : Nat → Option Line) (header : Words 8) (nonce : BitVec 64) : Option Hash :=
  if dagLines = 0 then none
  else
    let seed := keccakF800 (absorb params header nonce)
    let mix := initMix params (seed.read 0) (seed.read 1)
    (rounds params program l1 dagLines dag mix).map fun mix =>
      let out := mixHash (mix.map (laneHash params.regs.toNat))
      ⟨out,firstWords (keccakF800 (absorbLast params seed out))⟩

def le32enc (x : Word) : BitVec 8 × BitVec 8 × BitVec 8 × BitVec 8 :=
  (x.extractLsb' 0 8,x.extractLsb' 8 8,x.extractLsb' 16 8,x.extractLsb' 24 8)

def be32dec (bytes : BitVec 8 × BitVec 8 × BitVec 8 × BitVec 8) : Word :=
  bytes.2.2.2.setWidth 32 + (bytes.2.2.1.setWidth 32 <<< 8) +
    (bytes.2.1.setWidth 32 <<< 16) + (bytes.1.setWidth 32 <<< 24)

def targetOrder (digest : Words 8) : Words 8 :=
  upTo 8 (Words.zeros 8) fun j out => out.write j (be32dec (le32enc (digest.read (7 - j))))

/-- The number that eight words are, the lowest first. -/
def value (words : Words 8) : Nat := upTo 8 0 fun i n => n + (words.read i).toNat * 2 ^ (32 * i)

/-! ### Lane by lane, and with lines that are always there -/

variable (params : Params) (program : Program) (l1 : Nat → Word)

def cacheLane (i : Nat) (regs : Regs) : Regs :=
  let op := kCacheBase + i * kCacheWords
  mergeInto (program.read (op + 1)) (l1 ((regs.read (program.read op).toNat).toNat % kL1Words))
    (program.read (op + 2)) regs

def mathLane (i : Nat) (regs : Regs) : Regs :=
  let op := kMathBase + i * kMathWords
  mergeInto (program.read (op + 3))
    (randomMath (regs.read (program.read op).toNat) (regs.read (program.read (op + 1)).toNat)
      (program.read (op + 2))) (program.read (op + 4)) regs

def stepLane (i : Nat) (regs : Regs) : Regs :=
  let regs := if i < params.cacheOps.toNat then cacheLane program l1 i regs else regs
  if i < params.mathOps.toNat then mathLane program i regs else regs

def dagLane (quad : Nat → Word) (i : Nat) (regs : Regs) : Regs :=
  let op := kDagBase + i * kDagWords
  mergeInto (program.read op) (quad i) (program.read (op + 1)) regs

def roundLane (r l : Nat) (line : Line) (regs : Regs) : Regs :=
  let regs := upTo params.steps.toNat regs (stepLane params program l1)
  upTo kDagLoads regs (dagLane program fun i => line.read ((l ^^^ r) % kLanes * kDagLoads + i))

theorem lanes_getElem (mix : Mix) (f : Nat → Regs → Regs) {l : Nat} (hl : l < kLanes) :
    (mix.lanes f)[l] = f l mix[l] := by
  simp [Mix.lanes]

theorem cacheOp_getElem (i : Nat) (mix : Mix) {l : Nat} (hl : l < kLanes) :
    (cacheOp program l1 i mix)[l] = cacheLane program l1 i mix[l] :=
  lanes_getElem mix (fun _ => cacheLane program l1 i) hl

theorem mathOp_getElem (i : Nat) (mix : Mix) {l : Nat} (hl : l < kLanes) :
    (mathOp program i mix)[l] = mathLane program i mix[l] :=
  lanes_getElem mix (fun _ => mathLane program i) hl

theorem runStep_getElem (i : Nat) (mix : Mix) {l : Nat} (hl : l < kLanes) :
    (runStep params program l1 i mix)[l] = stepLane params program l1 i mix[l] := by
  unfold runStep stepLane
  split
  case isTrue =>
    split
    case isTrue => rw [mathOp_getElem program i _ hl,cacheOp_getElem program l1 i mix hl]
    case isFalse => rw [cacheOp_getElem program l1 i mix hl]
  case isFalse =>
    split
    case isTrue => rw [mathOp_getElem program i mix hl]
    case isFalse => rfl

theorem runRound_getElem (r : Nat) (line : Line) (mix : Mix) {l : Nat} (hl : l < kLanes) :
    (runRound params program r line l1 mix)[l] = roundLane params program l1 r l line mix[l] := by
  rw [runRound,lanes_getElem _ _ hl]
  rw [upTo_hom (fun mix : Mix => mix[l]) mix fun i _ mix => runStep_getElem params program l1 i mix hl]
  rfl

def mixAfter (lines : Nat) (lineAt : Nat → Line) (mix : Mix) : Mix :=
  upTo params.rounds.toNat mix fun r mix =>
    let index := ((mix.reader r).read 0).toNat % lines
    runRound params program r (lineAt index) l1 mix

def hashWith (lines : Nat) (lineAt : Nat → Line) (header : Words 8) (nonce : BitVec 64) : Hash :=
  let seed := keccakF800 (absorb params header nonce)
  let mix := mixAfter params program l1 lines lineAt (initMix params (seed.read 0) (seed.read 1))
  let out := mixHash (mix.map (laneHash params.regs.toNat))
  ⟨out,firstWords (keccakF800 (absorbLast params seed out))⟩

theorem hash_eq_hashWith {lines : Nat} {dag : Nat → Option Line} {lineAt : Nat → Line}
    (hl : 0 < lines) (hd : ∀ index < lines, dag index = some (lineAt index)) (header : Words 8)
    (nonce : BitVec 64) :
    hash params program l1 lines dag header nonce =
      some (hashWith params program l1 lines lineAt header nonce) := by
  have hr (mix : Mix) : rounds params program l1 lines dag mix =
      some (mixAfter params program l1 lines lineAt mix) := by
    refine tryUpTo_some mix fun r _ mix => ?_
    simp only [hd _ (Nat.mod_lt _ hl)]
    rfl
  rw [hash,if_neg (Nat.ne_of_gt hl)]
  simp only [hr,Option.map_some]
  rfl

end VkMiner.Progpow
