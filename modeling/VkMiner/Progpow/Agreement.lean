import VkMiner.Lib.Packed
import VkMiner.Progpow.Interpreted
import VkMiner.Progpow.Specialized
set_option autoImplicit false

/-! The host, the interpreter and the specialized kernels over one table. -/

namespace VkMiner.Progpow
open Loops Packed

/-- A dispatch, with the table that it hashes against. The head of the table is the cache. -/
structure Dispatch where
  params : Params
  period : BitVec 64
  header : Words 8
  target : Words 8
  start : BitVec 64
  count : Word
  capacity : Word
  dag : Nat → Word

/-- `prepare`. -/
def Dispatch.push (d : Dispatch) (lines : Nat) : Push :=
  ⟨d.header,d.target,d.start.setWidth 32,(d.start >>> 32).setWidth 32,d.count,d.capacity,
    d.period.setWidth 32,(d.period >>> 32).setWidth 32,BitVec.ofNat 32 lines⟩

def Dispatch.host (d : Dispatch) (lines : Nat) (nonce : BitVec 64) : Option Hash :=
  if d.params.Drawable then
    hash d.params (buildProgram d.params d.period) d.dag lines (referenceLines lines d.dag) d.header
      nonce
  else none

/-- The interpreter has its lanes exchange in workgroup memory, and the two specialized modules
differ in it. -/
inductive Kernel (g : Workgroup) where
  | interpreted
  | specialized (e : Exchange g)

variable {g : Workgroup} {lines : Nat}

def Kernel.exchange : Kernel g → Exchange g
  | interpreted => .workgroup
  | specialized e => e

/-- The outcomes of a workgroup, on a device for which the host has decided about the copy of the
cache and the pass for the seals. -/
def Dispatch.run (d : Dispatch) (cut : Cut lines) (l1 pre : Bool) : Kernel g → Fin g.width → Outcome
  | .interpreted =>
    Interpreted.kernel (specialized [] (kernelConstants d.params
      (if l1 then BitVec.ofNat 32 kL1Words else 0) (if pre then 1 else 0)))
      (d.push lines) (cut.bindings d.dag)
  | .specialized e =>
    Specialized.kernel (specialized (programValues d.params d.period lines)
      (kernelConstants d.params (if l1 then BitVec.ofNat 32 kL1Words else 0) (if pre then 1 else 0)))
      (d.push lines) (cut.bindings d.dag) e

/-- Over this table every kernel comes to the host's hash of each of its nonces, and emits those
that meet the target. -/
def Agree (params : Params) (cut : Cut lines) : Prop :=
  ∀ d : Dispatch, d.params = params →
    ∀ (l1 pre : Bool) (g : Workgroup) (k : Kernel g) (i : Fin g.width), ∃ h,
      d.host lines (d.start + BitVec.ofNat 64 (k.exchange.nonceIndex i)) = some h ∧
      Matches k.exchange (d.push lines) (d.start + BitVec.ofNat 64 (k.exchange.nonceIndex i)) h i
        (d.run cut l1 pre k i)

def Dispatch.hashOver (d : Dispatch) (lines : Nat) (words : Nat → Word) (nonce : BitVec 64) : Hash :=
  hashWith d.params (buildProgram d.params d.period) d.dag lines (lineOf words) d.header nonce

theorem host_eq (d : Dispatch) (cut : Cut lines) (hd : d.params.Drawable) (nonce : BitVec 64) :
    d.host lines nonce = some (d.hashOver lines d.dag nonce) := by
  rw [Dispatch.host,if_pos hd]
  exact hash_eq_hashWith _ _ _ cut.lines_lt.1 (fun _ h => if_pos h) _ nonce

theorem push_starts (d : Dispatch) (lines : Nat) : (d.push lines).Starts d.header d.start :=
  ⟨rfl,rfl,rfl⟩

/-- Every kernel hashes over the table as an index of 32 bits finds it. -/
theorem run_matches (d : Dispatch) (cut : Cut lines) (l1 pre : Bool) (k : Kernel g)
    (i : Fin g.width) :
    Matches k.exchange (d.push lines) (d.start + BitVec.ofNat 64 (k.exchange.nonceIndex i))
      (d.hashOver lines (wrapped d.dag) (d.start + BitVec.ofNat 64 (k.exchange.nonceIndex i))) i
      (d.run cut l1 pre k i) := by
  have hc (program : List Word) := specialized_carries d.params program
    (if l1 then BitVec.ofNat 32 kL1Words else 0) (if pre then 1 else 0)
  cases k with
  | interpreted =>
    refine main_matches .workgroup (hc []) (push_starts d lines) (fun r l word regs _ => ?_)
      (fun _ _ _ => rfl) i
    rw [Interpreted.body_eq cut (hc []) rfl,(hc []).shape_eq]
    exact congrArg (roundLane d.params · d.dag r l _ regs) (buildProgram_eq d.params d.period)
  | specialized e =>
    have hp := Specialized.specialized_programmed d.params d.period lines (kernelConstants d.params
      (if l1 then BitVec.ofNat 32 kL1Words else 0) (if pre then 1 else 0))
    have hd : Specialized.Decided (specialized (programValues d.params d.period lines)
        (kernelConstants d.params (if l1 then BitVec.ofNat 32 kL1Words else 0)
          (if pre then 1 else 0))) := by
      refine ⟨?_,?_⟩
      · rw [(specialized_device _ _ _ _).1]
        cases l1 <;> simp
      · rw [(specialized_device _ _ _ _).2]
        cases pre <;> simp
    have hl := Specialized.progpowL1_eq cut d.dag hd (Nat.zero_lt_of_lt i.isLt)
    exact main_matches e (hc _) (push_starts d lines)
      (fun r l word regs _ => Specialized.body_eq cut (hc _) hp hl r l word regs)
      (fun j k hk => Specialized.seed_eq e hd j hk) i

theorem lineOf_wrapped {dag : Nat → Word} {index : Nat} (h : index < 2 ^ 26) :
    lineOf (wrapped dag) index = lineOf dag index := by
  refine Vector.ext fun i hi => ?_
  simp only [kLineWords,kLanes,kDagLoads] at hi
  simp only [lineOf,wrapped,Vector.getElem_ofFn]
  rw [Nat.mod_eq_of_lt (by simp only [kLineWords,kLanes,kDagLoads]; omega)]

theorem hashOver_wrapped (d : Dispatch) (cut : Cut lines) (h : lines ≤ 2 ^ 26)
    (nonce : BitVec 64) : d.hashOver lines (wrapped d.dag) nonce = d.hashOver lines d.dag nonce := by
  have hd (index : Nat) (hi : index < lines) :
      some (lineOf (wrapped d.dag) index) = some (lineOf d.dag index) := by
    rw [lineOf_wrapped (Nat.lt_of_lt_of_le hi h)]
  have hw : hash _ _ _ lines (fun index => some (lineOf (wrapped d.dag) index)) _ _ = _ :=
    hash_eq_hashWith d.params (buildProgram d.params d.period) d.dag cut.lines_lt.1
      (fun _ _ => rfl) d.header nonce
  rw [hash_eq_hashWith _ _ _ cut.lines_lt.1 hd] at hw
  exact (Option.some.inj hw).symm

/-! ### A table with a line that 32 bits do not find -/

/-- A fork of two registers whose one round only reads a line. -/
def plainParams : Params where
  regs := 2
  cacheOps := 0
  mathOps := 0
  rounds := 1
  sealSeed := #v[0x67b9862d,0x25e1d633,0xfe0513e8,0xd0fae44c,0x409616ae,0x44a50e15,0x2b336821,
    0x56cf7d65,0x95afebb4,0x102b816f,0x141b6bdd,0x08c7ae73,0xe06ec128,0x7cd136ec,0xb0d7384f]
  sealFinal := Words.zeros _
  regs_le := by decide
  cacheOps_le := by decide
  mathOps_le := by decide
  rounds_le := by decide

/-- Its first round asks for line `2 ^ 26`, and the table is all zeros before that line. -/
def farDispatch : Dispatch where
  params := plainParams
  period := 0
  header := #v[0xc250349c,0x7ea8bf6b,0xc7c0ce5a,0xac276759,0x55dd0db8,0x2d7db283,0xc3a7baac,
    0x8ac4eb4d]
  target := Words.zeros _
  start := 0xf4acc60e6b46d99d
  count := 1
  capacity := 32
  dag k := if k < 2 ^ 32 then 0 else 1

def farState₈ : Words 25 :=
  #v[0xadf557e6,0xa6cb0899,0xb096681a,0x5a23302b,0xa7446792,0x3694bc2d,0xea507b7a,0x57435b5f,
    0x276b3ad9,0xc8bac9a1,0xcc67f67f,0x71a5a22b,0x746a69b5,0x99187d9d,0xdeb9c53e,0x8e176241,
    0x8358c890,0xf96755d5,0x7d39b255,0x26e1ba66,0x7c6aa0e4,0x463983e3,0x95b9a168,0x146ee9c1,
    0xe588bc89]

def farState₁₅ : Words 25 :=
  #v[0x8ac13d5a,0x02140b51,0x9358b810,0x75a6c544,0x97b9db31,0x2f927cf0,0x276bd1c0,0x137bd16d,
    0x79c59452,0xf5c30dfb,0xb0848653,0x1be024ca,0x9c1436ca,0xf96fe454,0x70938830,0xa95d86e5,
    0x08ecab1b,0xf61b4565,0x94dcf8ff,0x876fd358,0x35f29638,0x05e924d8,0xbf267900,0x459dd18e,
    0xbceea90b]

abbrev hostRound : Nat → Words 25 → Words 25 := keccakRound (rotl32 · 1) rotl32

def packedRound (turn : Word → Word) (rho : Word → Word → Word) (round s : Nat) : Nat :=
  let c := upTo 5 0 fun x c => put c x
    (lane s x ^^^ lane s (x + 5) ^^^ lane s (x + 10) ^^^ lane s (x + 15) ^^^ lane s (x + 20))
  let s := upTo 5 s fun x s =>
    let d := lane c ((x + 4) % 5) ^^^ turn (lane c ((x + 1) % 5))
    upTo 5 s fun y s => put s (x + 5 * y) (lane s (x + 5 * y) ^^^ d)
  let b := upTo 5 0 fun y b => upTo 5 b fun x b =>
    let source := x + 5 * y
    let place := y + 5 * ((2 * x + 3 * y) % 5)
    put b place (rho (lane s source) (kRho.read source))
  let s := upTo 5 s fun y s => upTo 5 s fun x s =>
    put s (x + 5 * y) (lane b (x + 5 * y) ^^^
      (~~~lane b ((x + 1) % 5 + 5 * y) &&& lane b ((x + 2) % 5 + 5 * y)))
  put s 0 (lane s 0 ^^^ kRoundConstants.read round)

theorem keccakRound_packed (turn : Word → Word) (rho : Word → Word → Word) (round s : Nat) :
    keccakRound turn rho round (words 25 s) = words 25 (packedRound turn rho round s) := by
  have hlane {s i : Nat} (hi : i < 25) := words_read s hi
  have hcolumn {c i : Nat} (hi : i < 5) := words_read c hi
  have hc : (upTo 5 (Words.zeros 5) fun x c => c.write x ((words 25 s).read x ^^^
      (words 25 s).read (x + 5) ^^^ (words 25 s).read (x + 10) ^^^ (words 25 s).read (x + 15) ^^^
        (words 25 s).read (x + 20))) = words 5 (upTo 5 0 fun x c => put c x
          (lane s x ^^^ lane s (x + 5) ^^^ lane s (x + 10) ^^^ lane s (x + 15) ^^^
            lane s (x + 20))) := by
    rw [← words_zero]
    refine (upTo_hom (words 5) 0 fun x hx c => ?_).symm
    rw [words_put _ _ hx]
    simp (disch := omega) only [hlane]
  have htheta (c : Nat) : (upTo 5 (words 25 s) fun x st =>
      let d := (words 5 c).read ((x + 4) % 5) ^^^ turn ((words 5 c).read ((x + 1) % 5))
      upTo 5 st fun y st => st.write (x + 5 * y) (st.read (x + 5 * y) ^^^ d)) =
        words 25 (upTo 5 s fun x s =>
          let d := lane c ((x + 4) % 5) ^^^ turn (lane c ((x + 1) % 5))
          upTo 5 s fun y s => put s (x + 5 * y) (lane s (x + 5 * y) ^^^ d)) := by
    refine (upTo_hom (words 25) s fun x hx s => upTo_hom (words 25) s fun y hy s => ?_).symm
    simp (disch := omega) only [words_put,hlane,hcolumn]
  have hrho (s : Nat) : (upTo 5 (Words.zeros 25) fun y b => upTo 5 b fun x b =>
      let source := x + 5 * y
      let place := y + 5 * ((2 * x + 3 * y) % 5)
      b.write place (rho ((words 25 s).read source) (kRho.read source))) =
        words 25 (upTo 5 0 fun y b => upTo 5 b fun x b =>
          let source := x + 5 * y
          let place := y + 5 * ((2 * x + 3 * y) % 5)
          put b place (rho (lane s source) (kRho.read source))) := by
    rw [← words_zero]
    refine (upTo_hom (words 25) 0 fun y hy b => upTo_hom (words 25) b fun x hx b => ?_).symm
    simp (disch := omega) only [words_put,hlane]
  have hchi (s b : Nat) : (upTo 5 (words 25 s) fun y st => upTo 5 st fun x st =>
      st.write (x + 5 * y) ((words 25 b).read (x + 5 * y) ^^^
        (~~~(words 25 b).read ((x + 1) % 5 + 5 * y) &&&
          (words 25 b).read ((x + 2) % 5 + 5 * y)))) =
        words 25 (upTo 5 s fun y s => upTo 5 s fun x s =>
          put s (x + 5 * y) (lane b (x + 5 * y) ^^^
            (~~~lane b ((x + 1) % 5 + 5 * y) &&& lane b ((x + 2) % 5 + 5 * y)))) := by
    refine (upTo_hom (words 25) s fun y hy s => upTo_hom (words 25) s fun x hx s => ?_).symm
    simp (disch := omega) only [words_put,hlane]
  simp only [keccakRound,packedRound,hc,htheta,hrho,hchi,hlane (show 0 < 25 by decide),
    words_put _ _ (show 0 < 25 by decide)]

theorem hostRounds_packed (n first : Nat) (st : Words 25) :
    (upTo n st fun i => hostRound (first + i)) =
      words 25 (upTo n (pack st) fun i => packedRound (rotl32 · 1) rotl32 (first + i)) := by
  rw [upTo_hom (words 25) (pack st) fun i _ s => (keccakRound_packed _ _ (first + i) s).symm,
    words_pack]

theorem far_8 : upTo 8 (absorb plainParams farDispatch.header farDispatch.start) hostRound =
    farState₈ := by
  have hfirst : hostRound = fun i => hostRound (0 + i) := funext fun i => by rw [Nat.zero_add]
  rw [hfirst,hostRounds_packed,← words_pack farState₈]
  exact congrArg (words 25) (by decide +kernel)

theorem far_15 : upTo 7 farState₈ (fun i => hostRound (8 + i)) = farState₁₅ := by
  rw [hostRounds_packed,← words_pack farState₁₅]
  exact congrArg (words 25) (by decide +kernel)

theorem far_22 : (upTo 7 farState₁₅ fun i => hostRound (15 + i)).read 0 = 0 ∧
    (upTo 7 farState₁₅ fun i => hostRound (15 + i)).read 1 = 0x2b555658 := by
  rw [hostRounds_packed,words_read _ (by decide),words_read _ (by decide)]
  decide +kernel

theorem farSeal : (keccakF800 (absorb plainParams farDispatch.header farDispatch.start)).read 0 = 0 ∧
    (keccakF800 (absorb plainParams farDispatch.header farDispatch.start)).read 1 = 0x2b555658 := by
  rw [keccakF800,upTo_add 15 7,upTo_add 8 7,far_8,far_15]
  exact far_22

theorem farIndex : (((initMix plainParams 0 0x2b555658)[0]).read 0).toNat = 2 ^ 26 := by
  decide

def farMix (words : Nat → Word) : Words 8 :=
  mixHash ((runRound plainParams (buildProgram plainParams 0) 0 (lineOf words (2 ^ 26))
    farDispatch.dag (initMix plainParams 0 0x2b555658)).map (laneHash 2))

theorem farMix_ne : farMix farDispatch.dag ≠ farMix (wrapped farDispatch.dag) := by
  decide +kernel

theorem farRound (h : 2 ^ 26 < lines) (words : Nat → Word) :
    mixAfter plainParams (buildProgram plainParams 0) farDispatch.dag lines (lineOf words)
      (initMix plainParams 0 0x2b555658) =
    runRound plainParams (buildProgram plainParams 0) 0 (lineOf words (2 ^ 26)) farDispatch.dag
      (initMix plainParams 0 0x2b555658) := by
  have hr : plainParams.rounds.toNat = 1 := rfl
  rw [mixAfter,hr]
  change runRound _ _ 0 (lineOf words ((((initMix plainParams 0 0x2b555658)[0]).read 0).toNat %
    lines)) _ _ = _
  rw [farIndex,Nat.mod_eq_of_lt h]
  rfl

theorem hashOver_far (h : 2 ^ 26 < lines) (words : Nat → Word) :
    (farDispatch.hashOver lines words farDispatch.start).mix = farMix words := by
  change mixHash ((mixAfter plainParams (buildProgram plainParams 0) farDispatch.dag lines
    (lineOf words) (initMix plainParams
      ((keccakF800 (absorb plainParams farDispatch.header farDispatch.start)).read 0)
      ((keccakF800 (absorb plainParams farDispatch.header farDispatch.start)).read 1))).map
    (laneHash 2)) = _
  rw [farSeal.1,farSeal.2,farRound h,farMix]

def oneHash : Workgroup := ⟨0,16,⟨1,rfl⟩,by decide⟩

theorem far_disagrees (cut : Cut lines) (h : 2 ^ 26 < lines) : ¬Agree plainParams cut := by
  intro ha
  obtain ⟨x,hx,hm⟩ := ha farDispatch rfl false false oneHash .interpreted ⟨0,by decide⟩
  have hr := run_matches farDispatch cut false false (Kernel.interpreted (g := oneHash))
    ⟨0,by decide⟩
  have hn : farDispatch.start + BitVec.ofNat 64
      ((Kernel.interpreted (g := oneHash)).exchange.nonceIndex ⟨0,by decide⟩) = farDispatch.start := by
    decide
  rw [hn] at hx hr
  rw [host_eq farDispatch cut (by decide)] at hx
  obtain rfl := Option.some.inj hx
  have he := hm.mix.symm.trans hr.mix
  rw [hashOver_far h,hashOver_far h] at he
  exact farMix_ne he

theorem agree_of_le {params : Params} (cut : Cut lines) (hp : params.Drawable)
    (h : lines ≤ 2 ^ 26) : Agree params cut := by
  rintro d rfl l1 pre g k i
  refine ⟨_,host_eq d cut hp _,?_⟩
  rw [← hashOver_wrapped d cut h]
  exact run_matches d cut l1 pre k i

theorem agree_drawable {params : Params} {cut : Cut lines} (h : Agree params cut) :
    params.Drawable := by
  obtain ⟨x,hx,-⟩ := h { farDispatch with params } rfl false false oneHash .interpreted
    ⟨0,by decide⟩
  rw [Dispatch.host] at hx
  split at hx
  · assumption
  · cases hx

/-- The kernels and the host agree, over a table of any contents and on the parameter sets that the
host has a program of and no others, exactly where an index of 32 bits finds each of the table's
words: it has no more than `2 ^ 26` lines. -/
theorem agree_iff (cut : Cut lines) :
    (∀ params, Agree params cut ↔ params.Drawable) ↔ lines ≤ 2 ^ 26 := by
  refine ⟨fun ha => ?_,fun h params => ⟨agree_drawable,fun hp => agree_of_le cut hp h⟩⟩
  by_contra hl
  exact far_disagrees cut (Nat.lt_of_not_le hl) ((ha plainParams).mpr (by decide))

/-- Ten gigabytes, in the five pieces that they are planned in on a card of twelve. -/
theorem agree_planned : ∃ cut : Cut 41943040, cut.chunks = 5 ∧ cut.chunkWords * 4 = 2 ^ 31 ∧
    ∀ params, Agree params cut ↔ params.Drawable := by
  have hplan : Vulkan.plan Vulkan.twelveGigabytes Vulkan.growingTable (41943040 * kLineWords * 4) =
      .ok (2 ^ 31,5) := rfl
  obtain ⟨cut,hchunks,hwords⟩ := plan_cut (by decide) (by decide) (by decide) hplan
  exact ⟨cut,hchunks,hwords,(agree_iff cut).mpr (by decide)⟩

/-- How `SharedState::plan` cuts a table of one line more where a binding ends before 4 GiB. -/
def farCut : Cut (2 ^ 26 + 1) where
  chunks := 9
  chunkWords := 2 ^ 29
  cached := by decide
  chunks_pos := by decide
  chunks_le := by decide
  quads := by decide
  ranged := by decide
  holds := by decide

/-- It is so cut on a card of 24 GiB. -/
example : Vulkan.plan
    ⟨25769803776,.discreteGpu,32,1024,1024,2147483647,4294967292,4294967295⟩
    ⟨true,false,17,92,0,0,16,false,0,(2 ^ 26 + 1) * 256,0,16,0,0,0,0,1⟩
    ((2 ^ 26 + 1) * kLineWords * 4) = .ok (farCut.chunkWords * 4,farCut.chunks) := by
  rfl

/-- Not over every table. -/
theorem not_always_agree : ¬∀ (params : Params) (lines : Nat) (cut : Cut lines),
    params.Drawable → Agree params cut := fun h =>
  far_disagrees farCut (by decide) (h _ _ farCut (by decide))

end VkMiner.Progpow
