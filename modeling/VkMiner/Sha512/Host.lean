import Mathlib.Tactic.IntervalCases
import VkMiner.Lib.Halves
import VkMiner.Lib.Sha2
import VkMiner.Sha256d.Digest
set_option autoImplicit false

/-! The SHA-512 of the host, from either initial value. -/

namespace VkMiner.Sha512
open Loops Sha2 Halves
open Sha256d (Word Byte beBytes encode wordAt)

abbrev Word64 := BitVec 64

def sha512K : Cells Word64 80 :=
  #v[0x428a2f98d728ae22,0x7137449123ef65cd,0xb5c0fbcfec4d3b2f,0xe9b5dba58189dbbc,
    0x3956c25bf348b538,0x59f111f1b605d019,0x923f82a4af194f9b,0xab1c5ed5da6d8118,
    0xd807aa98a3030242,0x12835b0145706fbe,0x243185be4ee4b28c,0x550c7dc3d5ffb4e2,
    0x72be5d74f27b896f,0x80deb1fe3b1696b1,0x9bdc06a725c71235,0xc19bf174cf692694,
    0xe49b69c19ef14ad2,0xefbe4786384f25e3,0x0fc19dc68b8cd5b5,0x240ca1cc77ac9c65,
    0x2de92c6f592b0275,0x4a7484aa6ea6e483,0x5cb0a9dcbd41fbd4,0x76f988da831153b5,
    0x983e5152ee66dfab,0xa831c66d2db43210,0xb00327c898fb213f,0xbf597fc7beef0ee4,
    0xc6e00bf33da88fc2,0xd5a79147930aa725,0x06ca6351e003826f,0x142929670a0e6e70,
    0x27b70a8546d22ffc,0x2e1b21385c26c926,0x4d2c6dfc5ac42aed,0x53380d139d95b3df,
    0x650a73548baf63de,0x766a0abb3c77b2a8,0x81c2c92e47edaee6,0x92722c851482353b,
    0xa2bfe8a14cf10364,0xa81a664bbc423001,0xc24b8b70d0f89791,0xc76c51a30654be30,
    0xd192e819d6ef5218,0xd69906245565a910,0xf40e35855771202a,0x106aa07032bbd1b8,
    0x19a4c116b8d2d0c8,0x1e376c085141ab53,0x2748774cdf8eeb99,0x34b0bcb5e19b48a8,
    0x391c0cb3c5c95a63,0x4ed8aa4ae3418acb,0x5b9cca4f7763e373,0x682e6ff3d6b2b8a3,
    0x748f82ee5defb2fc,0x78a5636f43172f60,0x84c87814a1f0ab72,0x8cc702081a6439ec,
    0x90befffa23631e28,0xa4506cebde82bde9,0xbef9a3f7b2c67915,0xc67178f2e372532b,
    0xca273eceea26619c,0xd186b8c721c0c207,0xeada7dd6cde0eb1e,0xf57d4f7fee6ed178,
    0x06f067aa72176fba,0x0a637dc5a2c898a6,0x113f9804bef90dae,0x1b710b35131c471b,
    0x28db77f523047d84,0x32caab7b40c72493,0x3c9ebe0a15c9bebc,0x431d67c49c100d4c,
    0x4cc5d4becb3e42b6,0x597f299cfc657e2a,0x5fcb6fab3ad6faec,0x6c44198c4a475817]

def sha512Iv : Cells Word64 8 :=
  #v[0x6a09e667f3bcc908,0xbb67ae8584caa73b,0x3c6ef372fe94f82b,0xa54ff53a5f1d36f1,
    0x510e527fade682d1,0x9b05688c2b3e6c1f,0x1f83d9abfb41bd6b,0x5be0cd19137e2179]

def sha512_256Iv : Cells Word64 8 :=
  #v[0x22312194fc2bf72c,0x9f555fa3c84c64c2,0x2393b86b6f53b151,0x963877195940eabd,
    0x96283ee2a88effe3,0xbe5e1e2553863992,0x2b0199fc2c85b8aa,0x0eb72ddc81c52ca2]

def rotr64 (x : Word64) (n : Nat) : Word64 := (x >>> n) ||| (x <<< (64 - n))

def sigmas : Sigmas 64 where
  bigS0 x := rotr64 x 28 ^^^ rotr64 x 34 ^^^ rotr64 x 39
  bigS1 x := rotr64 x 14 ^^^ rotr64 x 18 ^^^ rotr64 x 41
  smallS0 x := rotr64 x 1 ^^^ rotr64 x 8 ^^^ (x >>> 7)
  smallS1 x := rotr64 x 19 ^^^ rotr64 x 61 ^^^ (x >>> 6)

def be64At (block : List Byte) (i : Nat) : Word64 :=
  ((block.getD (i*8) 0).setWidth 64 <<< 56) ||| ((block.getD (i*8 + 1) 0).setWidth 64 <<< 48) |||
    ((block.getD (i*8 + 2) 0).setWidth 64 <<< 40) |||
    ((block.getD (i*8 + 3) 0).setWidth 64 <<< 32) |||
    ((block.getD (i*8 + 4) 0).setWidth 64 <<< 24) |||
    ((block.getD (i*8 + 5) 0).setWidth 64 <<< 16) |||
    ((block.getD (i*8 + 6) 0).setWidth 64 <<< 8) ||| (block.getD (i*8 + 7) 0).setWidth 64

/-- `be64enc_local`. -/
def be64Bytes (x : Word64) : List Byte :=
  [(x >>> 56).setWidth 8,(x >>> 48).setWidth 8,(x >>> 40).setWidth 8,(x >>> 32).setWidth 8,
    (x >>> 24).setWidth 8,(x >>> 16).setWidth 8,(x >>> 8).setWidth 8,x.setWidth 8]

def expandWord (w : Cells Word64 80) (i : Nat) : Cells Word64 80 :=
  w.write i (sigmas.smallS1 (w.read (i - 2)) + w.read (i - 7) + sigmas.smallS0 (w.read (i - 15)) +
    w.read (i - 16))

def sha512Compress (state : Cells Word64 8) (block : List Byte) : Cells Word64 8 :=
  let w : Cells Word64 80 := upTo 16 (Cells.blank 80) fun i w => w.write i (be64At block i)
  let w := upTo 64 w fun i w => expandWord w (16 + i)
  let v := upTo 80 (Vars.load state) fun i v => v.step sigmas (sha512K.read i) (w.read i)
  v.feed state

def wholeBlocks (state : Cells Word64 8) (p : List Byte) : Cells Word64 8 × List Byte :=
  if 128 ≤ p.length then wholeBlocks (sha512Compress state (p.take 128)) (p.drop 128)
  else (state,p)
termination_by p.length

def sha512From (iv : Cells Word64 8) (words : Nat) (data : List Byte) : List Byte :=
  let (state,rest) := wholeBlocks iv data
  let block := rest ++ 0x80 :: List.replicate (127 - rest.length) 0
  let state := if 112 ≤ rest.length then sha512Compress state block else state
  let block := if 112 ≤ rest.length then List.replicate 128 0 else block
  let state := sha512Compress state (block.take 120 ++ be64Bytes (BitVec.ofNat 64 data.length <<< 3))
  (List.range words).flatMap fun i => be64Bytes (state.read i)

def sha512Full (data : List Byte) : List Byte := sha512From sha512Iv 8 data

def sha512_256Full (data : List Byte) : List Byte := sha512From sha512_256Iv 4 data

/-! ### The compression -/

theorem sha512Compress_eq (state : Cells Word64 8) (block : List Byte) :
    sha512Compress state block = compress sigmas sha512K.read 80 (be64At block) state := by
  let P : Nat → Cells Word64 80 → Prop := fun i w => Filled sigmas (be64At block) 0 (16 + i) w.read
  have hblock : P 0 (upTo 16 (Cells.blank 80) fun i w => w.write i (be64At block i)) := by
    intro j _ hj
    rw [Cells.read_fill _ _ (by omega),if_pos (by omega),schedule_block _ _ (by omega)]
  have hfull : P 64 _ := upTo_invariant (f := fun i w => expandWord w (16 + i)) hblock
    fun i hi w (hP : P i w) => by
      show Filled sigmas (be64At block) 0 (16 + i + 1) (expandWord w (16 + i)).read
      refine hP.snoc (fun j _ hj => ?_) ?_
      · exact Cells.read_write_ne _ _ (by omega)
      · rw [expandWord,Cells.read_write_self _ _ (by omega)]
        exact hP.next (by omega)
  rw [compress,← hfull.rounds (.load state) (Nat.le_refl 0) (by omega)]
  simp only [sha512Compress,rounds,Nat.zero_add]

/-! ### Messages of 32-bit words -/

theorem shl_widen {x : Byte} {k k' : Nat} (hk : k ≤ 24) :
    ((x.setWidth 32 <<< k).setWidth 64 <<< k' : Word64) = x.setWidth 64 <<< (k + k') := by
  refine BitVec.eq_of_getLsbD_eq fun i hi => ?_
  rw [shl_bit _ _ hi,shl_bit _ _ hi,BitVec.getLsbD_setWidth]
  by_cases h : i < k'
  · rw [if_pos h,if_pos (by omega)]
  · rw [if_neg h,decide_eq_true (by omega : i - k' < 64),Bool.true_and]
    by_cases h' : i < k + k'
    · rw [if_pos h',shl_bit _ _ (by omega),if_pos (by omega)]
    · rw [if_neg h',BitVec.getLsbD_setWidth,decide_eq_true (by omega : i - (k + k') < 64),
        Bool.true_and,Nat.add_comm,← Nat.sub_sub]
      by_cases h32 : i - k' < 32
      · rw [shl_bit _ _ h32,if_neg (by omega),BitVec.getLsbD_setWidth,
          decide_eq_true (by omega : i - k' - k < 32),Bool.true_and]
      · rw [BitVec.getLsbD_of_ge _ _ (by omega),BitVec.getLsbD_of_ge _ _ (by omega)]

theorem be64At_words (block : List Byte) (i : Nat) :
    be64At block i = join ⟨wordAt block (2*i + 1),wordAt block (2*i)⟩ := by
  have hlow (x : Byte) {k : Nat} (hk : k ≤ 24) :
      ((x.setWidth 32 <<< k).setWidth 64 : Word64) = x.setWidth 64 <<< k := by
    have h := @shl_widen x k 0 hk
    rwa [BitVec.shiftLeft_zero,Nat.add_zero] at h
  have hplain (x : Byte) : ((x.setWidth 32).setWidth 64 : Word64) = x.setWidth 64 := by
    have h := hlow x (Nat.zero_le 24)
    rwa [BitVec.shiftLeft_zero,BitVec.shiftLeft_zero] at h
  rw [join_eq,BitVec.or_comm]
  simp (disch := decide) only [wordAt,BitVec.setWidth_or,BitVec.shiftLeft_or_distrib,hlow,hplain,
    ← BitVec.shiftLeft_add]
  simp only [be64At,show (2*i + 1)*4 = i*8 + 4 by omega,show 2*i*4 = i*8 by omega,Nat.add_assoc,
    Nat.reduceAdd,BitVec.or_assoc]

theorem be64Bytes_words (x : Word64) :
    be64Bytes x = encode [(x >>> 32).setWidth 32,x.setWidth 32] := by
  simp only [be64Bytes,encode,beBytes,List.flatMap_cons,List.flatMap_nil,List.append_nil,
    List.cons_append,List.nil_append,List.cons.injEq,and_true]
  refine ⟨?_,?_,?_,?_,?_,?_,?_,?_⟩ <;>
  · refine BitVec.eq_of_getLsbD_eq fun i hi => ?_
    interval_cases i <;> simp

def halvesOf (state : Cells Word64 8) (words : Nat) : List Word :=
  (List.range words).flatMap fun i =>
    [(state.read i >>> 32).setWidth 32,(state.read i).setWidth 32]

theorem be64Bytes_state (state : Cells Word64 8) (words : Nat) :
    ((List.range words).flatMap fun i => be64Bytes (state.read i)) =
      encode (halvesOf state words) := by
  rw [encode,halvesOf,List.flatMap_assoc]
  exact List.flatMap_congr fun i _ => be64Bytes_words _

/-- The 32-bit words of the only block of a short message of `len` bytes in all. -/
def lastBlock (ws : List Word) (len : Nat) : List Word :=
  ws ++ (0x80000000 : Word) :: List.replicate (29 - ws.length) 0 ++
    [(BitVec.ofNat 64 len <<< 3 >>> 32).setWidth 32,(BitVec.ofNat 64 len <<< 3).setWidth 32]

def pairAt (ws : List Word) (i : Nat) : Word64 :=
  join ⟨ws.getD (2*i + 1) 0,ws.getD (2*i) 0⟩

theorem sha512From_short (iv : Cells Word64 8) (words : Nat) {ws : List Word}
    (h : ws.length < 28) : sha512From iv words (encode ws) =
      encode (halvesOf (compress sigmas sha512K.read 80
        (pairAt (lastBlock ws (4*ws.length))) iv) words) := by
  have hl := Sha256d.encode_length ws
  have hwhole : wholeBlocks iv (encode ws) = (iv,encode ws) := by
    rw [wholeBlocks,if_neg (by omega)]
  have hz : 127 - (encode ws).length = 3 + 4*(29 - ws.length) + 8 := by omega
  have hpad : (0x80 : Byte) :: List.replicate (3 + 4*(29 - ws.length) + 8) 0 =
      encode (0x80000000 :: List.replicate (29 - ws.length) 0) ++ List.replicate 8 0 := by
    rw [List.replicate_add,List.replicate_add,Sha256d.zero_bytes]
    rfl
  have htake : (encode ws ++ (0x80 : Byte) :: List.replicate (127 - (encode ws).length) 0).take 120 =
      encode (ws ++ 0x80000000 :: List.replicate (29 - ws.length) 0) := by
    rw [hz,hpad,← List.append_assoc,← Sha256d.encode_append]
    refine List.take_left' ?_
    rw [Sha256d.encode_length]
    simp only [List.length_append,List.length_cons,List.length_replicate]
    omega
  simp only [sha512From,hwhole]
  rw [if_neg (by omega),if_neg (by omega),htake,be64Bytes_words,← Sha256d.encode_append,
    be64Bytes_state,sha512Compress_eq,hl,lastBlock]
  refine congrArg (fun s => encode (halvesOf s words)) (compress_congr (fun i _ => ?_) 80 iv)
  rw [be64At_words,Sha256d.wordAt_encode,Sha256d.wordAt_encode,pairAt]

end VkMiner.Sha512
