import VkMiner.Heavyhash.Product
import VkMiner.Host.Screen
set_option autoImplicit false

/-! The heavyhash kernel, in each of its forms, and the host have the same digests and find the
same nonces. -/

namespace VkMiner.Heavyhash
open Loops Cells Halves Glsl Screen
open Progpow (Candidate)
open Progpow.Glsl (bswap32)
open Sha256d (Word Byte encode leWordAt leBytes fulltest)

variable {m : FourBit} {header : Words 20} {nonce : Word}

/-! ### The host, in words -/

def digestWords (a : Cells Word64 25) : Words 8 := Vector.ofFn fun i => digestWord a i

theorem digestWords_read (a : Cells Word64 25) {i : Nat} (hi : i < 8) :
    (digestWords a).read i = digestWord a i := Words.read_ofFn _ hi

def messageWord (header : Words 20) (nonce : Word) (i : Nat) : Word :=
  bswap32 ((header.toList.take 19 ++ [nonce]).getD i 0)

def firstDigest (header : Words 20) (nonce : Word) : Words 8 :=
  digestWords (keccakf (padded (messageWord header nonce) 10))

def xoredWord (m : FourBit) (d : Words 8) (q : Nat) : Word := d.read q ^^^ productWord m.entries d q

def finalDigest (m : FourBit) (header : Words 20) (nonce : Word) : Words 8 :=
  digestWords (keccakf (padded (xoredWord m (firstDigest header nonce)) 4))

theorem words_length (header : Words 20) (nonce : Word) :
    (header.toList.take 19 ++ [nonce]).length = 20 := by simp

theorem first_bytes (header : Words 20) (nonce : Word) :
    heavyhashSha3_256 (encode (header.toList.take 19 ++ [nonce])) =
      bytesOf (firstDigest header nonce) := by
  have hlen : (encode (header.toList.take 19 ++ [nonce])).length = 8*10 := by
    rw [Sha256d.encode_length,words_length]
  have hwords : padded (leWordAt (encode (header.toList.take 19 ++ [nonce]))) 10 =
      padded (messageWord header nonce) 10 := padded_congr fun i _ => by
    rw [Sha256d.leWordAt_encode,Sha256d.leWord_bytes,messageWord]
  have hread : (List.range 8).map (firstDigest header nonce).read =
      (List.range 8).map (digestWord (keccakf (padded (messageWord header nonce) 10))) :=
    List.map_congr_left fun i hi => digestWords_read _ (List.mem_range.mp hi)
  rw [heavyhashSha3_256_eq hlen (by decide),hwords,bytesOf,hread]

theorem leBytes_xor (x : Word) {g : Nat → Word} (hg : ∀ t < 4, (g t).toNat < 256) :
    leBytes (x ^^^ bytesWord g) =
      [x.setWidth 8 ^^^ (g 0).setWidth 8,(x >>> 8).setWidth 8 ^^^ (g 1).setWidth 8,
        (x >>> 16).setWidth 8 ^^^ (g 2).setWidth 8,(x >>> 24).setWidth 8 ^^^ (g 3).setWidth 8] := by
  have hbyte {t : Nat} (ht : t < 4) : ∃ b : Byte,g t = b.setWidth 32 := by
    refine ⟨(g t).setWidth 8,BitVec.eq_of_toNat_eq ?_⟩
    have := hg t ht
    rw [BitVec.toNat_setWidth,BitVec.toNat_setWidth]
    omega
  obtain ⟨b0,h0⟩ := hbyte (t := 0) (by decide)
  obtain ⟨b1,h1⟩ := hbyte (t := 1) (by decide)
  obtain ⟨b2,h2⟩ := hbyte (t := 2) (by decide)
  obtain ⟨b3,h3⟩ := hbyte (t := 3) (by decide)
  simp only [leBytes,bytesWord,h0,h1,h2,h3,List.cons.injEq,and_true]
  refine ⟨?_,?_,?_,?_⟩ <;>
  · refine BitVec.eq_of_getLsbD_eq fun i hi => ?_
    interval_cases i <;> simp

theorem xored_bytes (m : FourBit) (d : Words 8) :
    ((List.range 32).map fun b => ((((bytesOf d).getD b 0).setWidth 32 ^^^
        (((productsOf m.entries (nibblesOf (bytesOf d))).read (2*b) <<< 4) |||
          (productsOf m.entries (nibblesOf (bytesOf d))).read (2*b + 1))).setWidth 8 : Byte)) =
      ((List.range 8).map (xoredWord m d)).flatMap leBytes := by
  refine range_words fun q hq => ?_
  have hbyte {b : Nat} (hb : b < 32) : ((((bytesOf d).getD b 0).setWidth 32 ^^^
      (((productsOf m.entries (nibblesOf (bytesOf d))).read (2*b) <<< 4) |||
        (productsOf m.entries (nibblesOf (bytesOf d))).read (2*b + 1))).setWidth 8 : Byte) =
          (d.read (b / 4) >>> (8 * (b % 4))).setWidth 8 ^^^ (productByte m.entries d b).setWidth 8 := by
    rw [bytesOf_getD d hb,productsOf_read _ _ (by omega),productsOf_read _ _ (by omega),
      BitVec.setWidth_xor,productByte]
    refine congrArg (· ^^^ _) ?_
    refine BitVec.eq_of_getLsbD_eq fun i hi => ?_
    simp [hi]
  have hplace {t : Nat} (ht : t < 4) : (4*q + t) / 4 = q ∧ (4*q + t) % 4 = t := by omega
  have h0 := hplace (t := 0) (by decide)
  simp only [Nat.add_zero] at h0
  rw [xoredWord,productWord,leBytes_xor _ fun t ht => productByte_lt m.small (by omega),
    hbyte (by omega),hbyte (by omega),hbyte (by omega),hbyte (by omega),h0.1,h0.2,
    (hplace (t := 1) (by decide)).1,(hplace (t := 1) (by decide)).2,
    (hplace (t := 2) (by decide)).1,(hplace (t := 2) (by decide)).2,
    (hplace (t := 3) (by decide)).1,(hplace (t := 3) (by decide)).2]
  rfl

theorem hashUnder_eq (m : FourBit) (header : Words 20) (nonce : Word) :
    hashUnder m.entries header (nonce.setWidth 64) = finalDigest m header nonce := by
  have hnonce : (nonce.setWidth 64).setWidth 32 = nonce := by simp
  have hlen : (((List.range 8).map (xoredWord m (firstDigest header nonce))).flatMap
      leBytes).length = 8*4 := rfl
  have hwords : padded (leWordAt (((List.range 8).map (xoredWord m
      (firstDigest header nonce))).flatMap leBytes)) 4 =
        padded (xoredWord m (firstDigest header nonce)) 4 := padded_congr fun i hi => by
    rw [Sha256d.leWordAt_leBytes,List.getD_eq_getElem _ _ (by simpa using hi)]
    simp
  refine Words.ext _ _ fun i hi => ?_
  simp only [hashUnder,heavyhashCore,hnonce,first_bytes,xored_bytes]
  rw [Words.read_fill _ _ (Nat.le_refl 8) hi,heavyhashSha3_256_eq hlen (by decide),hwords,
    Sha256d.leWordAt_leBytes,List.getD_eq_getElem _ _ (by simpa using hi),finalDigest,
    digestWords_read _ hi]
  simp

/-! ### The kernel -/

section
variable {L : Type} [Inhabited L] {B : KLane L} {val : L → Word64} {push : HeavyhashPush}

def Pushed (push : HeavyhashPush) (header : Words 20) : Prop :=
  ∀ i < 19, push.block.read i = bswap32 (header.read i)

theorem empty_read (B : KLane L) {i : Nat} (hi : i < 25) : (empty B).read i = B.klane 0 0 := by
  rw [empty,Cells.read_fill _ _ (Nat.le_refl 25),if_pos hi]

theorem messageWord_header {i : Nat} (hi : i < 19) :
    messageWord header nonce i = bswap32 (header.read i) := by
  have htake : (header.toList.take 19).length = 19 := by simp
  rw [messageWord,List.getD_eq_getElem?_getD,List.getElem?_append_left (by omega),
    List.getElem?_take_of_lt hi,← List.getD_eq_getElem?_getD,Words.read_of_lt header (by omega)]
  simp [List.getD_eq_getElem?_getD,show i < 20 by omega]

theorem messageWord_nonce : messageWord header nonce 19 = bswap32 nonce := by
  have htake : (header.toList.take 19).length = 19 := by simp
  rw [messageWord,List.getD_eq_getElem?_getD,List.getElem?_append_right (by omega),htake]
  rfl

theorem map_padded (hB : B.Lawful val) {a : Cells L 25} {w : Nat → Word} {c : Nat}
    (h : ∀ i < 25, val (a.read i) = paddedLane w c i) : a.map val = padded w c := by
  refine Cells.ext _ _ fun i hi => ?_
  rw [Cells.read_map val hB.hom.blank,h i hi,padded_read _ _ hi]

theorem headerState_map (hB : B.Lawful val) (hp : Pushed push header) (nonce : Word) :
    (headerState B push nonce).map val = padded (messageWord header nonce) 10 := by
  refine map_padded hB fun i hi => ?_
  have hempty {j : Nat} (hj : j < 25) : (empty B).read j = B.klane 0 0 := empty_read B hj
  have hblock {j : Nat} (hj : j < 19) : push.block.read j = messageWord header nonce j :=
    (hp j hj).trans (messageWord_header hj).symm
  have hnonce : bswap32 nonce = messageWord header nonce 19 := messageWord_nonce.symm
  interval_cases i <;>
    simp (disch := decide) only [headerState,upTo,Cells.read_write_self,Cells.read_write_ne,
      Nat.reduceMul,Nat.reduceAdd,hempty,hblock,hnonce,hB.klane] <;>
    rfl

theorem digestState_map (hB : B.Lawful val) {m : FourBit} {d p : Words 8}
    (hw : ∀ q < 8, p.read q = productWord m.entries d q) :
    (digestState B d p).map val = padded (xoredWord m d) 4 := by
  refine map_padded hB fun i hi => ?_
  have hempty {j : Nat} (hj : j < 25) : (empty B).read j = B.klane 0 0 := empty_read B hj
  have hword {q : Nat} (hq : q < 8) : d.read q ^^^ p.read q = xoredWord m d q := by
    rw [hw q hq,xoredWord]
  interval_cases i <;>
    simp (disch := decide) only [digestState,upTo,Cells.read_write_self,Cells.read_write_ne,
      Nat.reduceMul,Nat.reduceAdd,hempty,hword,hB.klane] <;>
    rfl

theorem lowWords_eq (hB : B.Lawful val) (a : Cells L 25) :
    lowWords B a = digestWords (a.map val) := by
  refine Words.ext _ _ fun i hi => ?_
  rw [lowWords_read hB a hi,digestWords_read _ hi]

theorem lastState_eq (hB : B.Lawful val) (hhDot : Bool) (hp : Pushed push header) (m : FourBit)
    (nonce : Word) :
    lastState B (beforeLast B hhDot push (uniformOf m.entries) nonce) = finalDigest m header nonce := by
  have hfirst : lowWords B (hhRound B (hhKeccakfHead B (headerState B push nonce)) 23) =
      firstDigest header nonce := by
    rw [lowWords_eq hB,rounds_map hB,headerState_map hB hp,firstDigest]
  rw [lastState,beforeLast,hfirst,lowWords_eq hB,rounds_map hB,
    digestState_map hB fun q hq => product_read hhDot m.small (firstDigest header nonce) hq,
    finalDigest]

theorem within_eq (state target : Words 8) (n : Nat) :
    within state target n = fulltest state target n := by
  induction n with
  | zero => rfl
  | succ n ih => rw [within,fulltest,ih]

/-- A nonce is emitted exactly when its hash meets the target, with that hash. -/
theorem search_eq (hB : B.Lawful val) (hhDot : Bool) (hp : Pushed push header) (m : FourBit)
    (nonce : Word) :
    search B hhDot push (uniformOf m.entries) nonce =
      if fulltest (finalDigest m header nonce) push.target 8 then
        some ⟨nonce,0,finalDigest m header nonce⟩
      else none := by
  have htop : hhTop B (beforeLast B hhDot push (uniformOf m.entries) nonce) =
      (finalDigest m header nonce).read 7 := by
    rw [hhTop_eq hB,← lastState_eq hB hhDot hp m nonce,lastState]
  simp only [search,htop,lastState_eq hB hhDot hp m nonce,within_eq]
  by_cases hgt : push.target.read 7 < (finalDigest m header nonce).read 7
  · rw [if_pos hgt,fulltest,if_pos hgt]
    rfl
  · rw [if_neg hgt]

end

/-! ### Every form -/

def screenBits : Nat := 256

theorem screenedTarget_whole (target : Words 8) : screenedTarget screenBits target = target := by
  refine Words.ext _ _ fun i hi => ?_
  rw [screenedTarget_read _ _ hi,if_pos (by simp [screenBits])]

theorem prepare_eq (header : Words 20) (target : Words 8) (start : BitVec 64)
    (count capacity : Word) :
    ∃ push,prepare ⟨some header,some target,start,count,capacity⟩ pushBytes = some push ∧
      Pushed push header ∧ push.target = target ∧ push.nonceStart = start.setWidth 32 ∧
      push.count = count := by
  simp only [prepare,lt_irrefl,if_false]
  refine ⟨_,rfl,fun i hi => ?_,rfl,rfl,rfl⟩
  have htake : i < (header.toList.take 19).length := by simp [hi]
  have hzero : List.replicate 4 0 = encode [0] := rfl
  rw [Words.read_fill _ _ (Nat.le_refl 19) hi,wireHeader,hzero,← Sha256d.encode_append,
    Sha256d.leWordAt_encode,Sha256d.leWord_bytes,List.getD_eq_getElem?_getD,
    List.getElem?_append_left htake,List.getElem?_take_of_lt hi,
    Words.read_of_lt header (by omega)]
  simp [show i < 20 by omega]

theorem matrix_of_wire (tries : Nat) (header : Words 20) (nonce : Word) :
    heavyhashMatrix tries (encode (header.toList.take 19 ++ [nonce])) =
      heavyhashMatrix tries (wireHeader header) := by
  have hlen : (encode (header.toList.take 19)).length = 76 := by
    rw [Sha256d.encode_length]
    simp
  have hcut (rest : List Byte) : ((encode (header.toList.take 19) ++ rest).drop 4).take 32 =
      ((encode (header.toList.take 19)).drop 4).take 32 := by
    rw [List.drop_append_of_le_length (by omega),List.take_append_of_le_length (by
      rw [List.length_drop]
      omega)]
  rw [heavyhashMatrix,heavyhashMatrix,wireHeader,Sha256d.encode_append,hcut,hcut]

theorem prepareUniform_map {tries : Nat} (cache : Cache tries) (header : Words 20)
    (target : Option (Words 8)) (start : BitVec 64) (count capacity : Word) {α : Type}
    (f : HeavyhashUniform → α) :
    (prepareUniform cache ⟨some header,target,start,count,capacity⟩ uniformBytes).map (f ·.1) =
      (heavyhashMatrix tries (wireHeader header)).map fun m => f (uniformOf m.entries) := by
  simp only [prepareUniform,lt_irrefl,if_false]
  rw [Option.map_map,← matrixFor_eq cache,Option.map_map]
  rfl

theorem hash_map {tries : Nat} (cache : Cache tries) (header : Words 20) (nonce : Word) {α : Type}
    (f : Words 8 → α) :
    (hash cache header (nonce.setWidth 64)).map (f ·.1) =
      (heavyhashMatrix tries (wireHeader header)).map fun m => f (finalDigest m header nonce) := by
  have hnonce : (nonce.setWidth 64).setWidth 32 = nonce := by simp
  simp only [hash,hnonce]
  rw [Option.map_map,← matrix_of_wire tries header nonce,← matrixFor_eq cache,Option.map_map]
  refine congrArg (fun g => Option.map g _) (funext fun found => ?_)
  exact congrArg f (hashUnder_eq found.1 header nonce)

/-- The lanes of every module stand for words of 64 bits, so each has the host's digest. -/
theorem module_digest (module : Module) {push : HeavyhashPush} (hp : Pushed push header)
    (m : FourBit) (nonce : Word) :
    module.digest push (uniformOf m.entries) nonce = finalDigest m header nonce := by
  cases module with
  | wide => exact lastState_eq int64_lawful false hp m nonce
  | pair => exact lastState_eq pairs_lawful false hp m nonce
  | dot => exact lastState_eq pairs_lawful true hp m nonce

theorem module_main (module : Module) {push : HeavyhashPush} (hp : Pushed push header)
    (m : FourBit) (index : Word) :
    module.main push (uniformOf m.entries) index =
      if index < push.count ∧
          fulltest (finalDigest m header (push.nonceStart + index)) push.target 8 = true then
        some ⟨push.nonceStart + index,0,finalDigest m header (push.nonceStart + index)⟩
      else none := by
  have hguard {α : Type} (found : Bool) (c : α) :
      (if push.count ≤ index then none else if found then some c else none) =
        if index < push.count ∧ found = true then some c else none := by
    by_cases h : index < push.count
    · rw [if_neg (BitVec.not_le.mpr h)]
      simp only [h,true_and]
    · rw [if_pos (BitVec.not_lt.mp h),if_neg fun hand => h hand.1]
  cases module with
  | wide =>
    simp only [Module.main,Glsl.main,search_eq int64_lawful false hp]
    exact hguard _ _
  | pair =>
    simp only [Module.main,Glsl.main,search_eq pairs_lawful false hp]
    exact hguard _ _
  | dot =>
    simp only [Module.main,Glsl.main,search_eq pairs_lawful true hp]
    exact hguard _ _

/-- Each of the three modules has the host's digest under every matrix of four-bit entries, and
with the matrix that the header generates it emits exactly the nonces whose hash meets the target
under the screen, whatever either side's cache holds. -/
theorem every_form_agrees (module : Module) {tries : Nat} (cache cache' : Cache tries)
    (header : Words 20) (target : Words 8) (start : BitVec 64) (count capacity : Word) :
    let dispatch : Sha256d.Dispatch := ⟨some header,some target,start,count,capacity⟩
    ∃ push,prepare dispatch pushBytes = some push ∧
      (∀ (m : FourBit) (nonce : Word),module.digest push (uniformOf m.entries) nonce =
        hashUnder m.entries header (nonce.setWidth 64)) ∧
      (∀ nonce : Word,(prepareUniform cache dispatch uniformBytes).map
          (module.digest push ·.1 nonce) = (hash cache' header (nonce.setWidth 64)).map (·.1)) ∧
      ∀ index : Word,
        let nonce := start.setWidth 32 + index
        (prepareUniform cache dispatch uniformBytes).map (module.main push ·.1 index) =
          (hash cache' header (nonce.setWidth 64)).map fun found =>
            if index < count ∧ fulltest found.1 (screenedTarget screenBits target) 8 = true then
              some ⟨nonce,0,found.1⟩
            else none := by
  intro dispatch
  obtain ⟨push,hpush,hp,htarget,hstart,hcount⟩ := prepare_eq header target start count capacity
  refine ⟨push,hpush,fun m nonce => ?_,fun nonce => ?_,fun index => ?_⟩
  · rw [module_digest module hp,hashUnder_eq]
  · have hhash := hash_map cache' header nonce fun digest => digest
    rw [prepareUniform_map cache header _ _ _ _ (module.digest push · nonce),hhash]
    simp only [module_digest module hp]
  · intro nonce
    have hhash := hash_map cache' header nonce fun digest =>
      if index < count ∧ fulltest digest (screenedTarget screenBits target) 8 = true then
        some (⟨nonce,0,digest⟩ : Candidate)
      else none
    rw [prepareUniform_map cache header _ _ _ _ (module.main push · index),hhash]
    simp only [module_main module hp,htarget,hstart,hcount,screenedTarget_whole,nonce]

end VkMiner.Heavyhash
