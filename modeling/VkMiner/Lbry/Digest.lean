import VkMiner.Lbry.Host
import VkMiner.Sha256d.Agreement
set_option autoImplicit false

/-! The chain of lbry over words: the block of each of its hashes. -/

namespace VkMiner.Lbry
open Loops Halves Sha256
open Progpow.Glsl (bswap32)
open Ripemd160 (compressWords ripemd160Iv paddedWords)
open Sha256d (Word Byte K IV encode beBytes leBytes digestBlock swapped)
open Sha512 (Word64 halvesOf sha512Iv pairAt)

/-! ### The blocks -/

def nonceBlock (tail : Nat → Word) (nonce : Word) (i : Nat) : Word :=
  [tail 0,tail 1,tail 2,tail 3,tail 4,tail 5,tail 6,tail 7,tail 8,tail 9,tail 10,nonce,0x80000000,
    0,0,0x380].getD i 0

def wideBlock (h : Words 8) (i : Nat) : Word64 :=
  if i < 4 then join ⟨h.read (2*i + 1),h.read (2*i)⟩
  else if i = 4 then join ⟨0,0x80000000⟩
  else if i = 15 then join ⟨0x100,0⟩
  else 0

def halfWords (h : Cells Word64 8) (c : Nat) : List Word :=
  (((halvesOf h 8).drop (8*c)).take 8).map bswap32

/-- The only block of the closing SHA-256d. -/
def ripemdBlock (ra rb : Words 5) (i : Nat) : Word :=
  ((ra.toList ++ rb.toList).map bswap32 ++ [0x80000000,0,0,0,0,0x140]).getD i 0

/-! ### The chain -/

def midstateOf (header : Words 28) : Words 8 := compress K.read header.read IV

def firstState (header : Words 28) (nonce : Word) : Words 8 :=
  compress K.read (nonceBlock (fun i => header.read (16 + i)) nonce) (midstateOf header)

def wideState (h : Words 8) : Cells Word64 8 :=
  Sha2.compress Sha512.sigmas Sha512.sha512K.read 80 (wideBlock h) sha512Iv

def ripemdState (h : Cells Word64 8) (c : Nat) : Words 5 :=
  compressWords ripemd160Iv (Words.ofList (paddedWords (halfWords h c)))

/-- From the digest of the header's first SHA-256 to the first digest of the closing pair. -/
def middleState (first : Words 8) : Words 8 :=
  let h2 := wideState (compress K.read (digestBlock first) IV)
  compress K.read (ripemdBlock (ripemdState h2 0) (ripemdState h2 1)) IV

def lastState (header : Words 28) (nonce : Word) : Words 8 :=
  compress K.read (digestBlock (middleState (firstState header nonce))) IV

/-! ### The host's bytes -/

theorem sha256Full_header (header : Words 28) (nonce : Word) :
    Sha256d.sha256Full (encode (header.toList.take 27 ++ [nonce])) =
      encode (firstState header nonce).toList := by
  have hws : header.toList.take 27 ++ [nonce] = (List.range 27).map header.read ++ [nonce] := by
    rw [Sha256d.words_toList]
    rfl
  have hmid : compress K.read ((((List.range 27).map header.read ++ [nonce]).take 16).getD · 0) IV =
      midstateOf header :=
    compress_congr (fun i hi => by interval_cases i <;> rfl) IV
  have hlen : 4*((List.range 27).map header.read ++ [nonce]).length = 112 := by simp
  have hlast := Sha256d.lastBlock_eq (((List.range 27).map header.read ++ [nonce]).drop 16)
    (by decide : ((BitVec.ofNat 64 112 * 8) >>> 32).setWidth 32 = 0)
    (by decide : (BitVec.ofNat 64 112 * 8).setWidth 32 = 0x380)
  rw [hws,Sha256d.sha256Full_long (by simp) (by simp),hmid,hlen,hlast,firstState]
  refine congrArg (fun s : Words 8 => encode s.toList) (compress_congr (fun i hi => ?_) _)
  interval_cases i <;> rfl

theorem sha256Full_digest (s : Words 8) : Sha256d.sha256Full (encode s.toList) =
    encode (compress K.read (digestBlock s) IV).toList := by
  have hlen : 4*s.toList.length = 32 := by simp
  have hlast := Sha256d.lastBlock_eq s.toList
    (by decide : ((BitVec.ofNat 64 32 * 8) >>> 32).setWidth 32 = 0)
    (by decide : (BitVec.ofNat 64 32 * 8).setWidth 32 = 0x100)
  rw [Sha256d.sha256Full_short (by simp),hlen,hlast]
  refine congrArg (fun s : Words 8 => encode s.toList) (compress_congr (fun i hi => ?_) _)
  rw [Sha256d.words_toList]
  interval_cases i <;> rfl

theorem sha512Full_digest (s : Words 8) :
    Sha512.sha512Full (encode s.toList) = encode (halvesOf (wideState s) 8) := by
  have hbits : (BitVec.ofNat 64 32 <<< 3 >>> 32).setWidth 32 = (0 : Word) ∧
      (BitVec.ofNat 64 32 <<< 3).setWidth 32 = (0x100 : Word) := by decide
  have hlen : 4*s.toList.length = 32 := by simp
  rw [Sha512.sha512Full,Sha512.sha512From_short _ _ (by simp),hlen,Sha512.lastBlock,hbits.1,hbits.2,
    wideState]
  refine congrArg (fun s => encode (halvesOf s 8)) (Sha2.compress_congr (fun i hi => ?_) 80 _)
  have hzero : join ⟨0,0⟩ = 0 := by decide
  rw [Sha256d.words_toList]
  interval_cases i <;> first | rfl | exact hzero

theorem encode_bswap (ws : List Word) : encode ws = (ws.map bswap32).flatMap leBytes := by
  rw [encode,List.flatMap_map]
  exact List.flatMap_congr fun x _ => (Sha256d.leBytes_bswap x).symm

theorem halvesOf_length (h : Cells Word64 8) : (halvesOf h 8).length = 16 := rfl

theorem ripemd160Full_half (h : Cells Word64 8) :
    Ripemd160.ripemd160Full ((encode (halvesOf h 8)).take 32) =
        (ripemdState h 0).toList.flatMap leBytes ∧
      Ripemd160.ripemd160Full ((encode (halvesOf h 8)).drop 32) =
        (ripemdState h 1).toList.flatMap leBytes := by
  have hlong : 8 ≤ (halvesOf h 8).length := by
    rw [halvesOf_length]
    decide
  have hcut := Sha256d.encode_cut hlong
  have htake : (encode (halvesOf h 8)).take 32 = encode ((halvesOf h 8).take 8) := hcut.1
  have hdrop : (encode (halvesOf h 8)).drop 32 = encode ((halvesOf h 8).drop 8) := hcut.2
  have hlen (c : Nat) (hc : c < 2) : (halfWords h c).length = 8 := by
    rw [halfWords,List.length_map,List.length_take,List.length_drop,halvesOf_length]
    omega
  refine ⟨?_,?_⟩
  · rw [htake,encode_bswap]
    exact Ripemd160.ripemd160Full_eight (hlen 0 (by decide))
  · rw [hdrop,encode_bswap]
    exact Ripemd160.ripemd160Full_eight (hlen 1 (by decide))

theorem encode_of_leBytes (ws : List Word) : ws.flatMap leBytes = encode (ws.map bswap32) := by
  rw [encode,List.flatMap_map]
  exact List.flatMap_congr fun x _ => Sha256d.leBytes_eq x

theorem sha256Full_ripemd (ra rb : Words 5) :
    Sha256d.sha256Full (ra.toList.flatMap leBytes ++ rb.toList.flatMap leBytes) =
      encode (compress K.read (ripemdBlock ra rb) IV).toList := by
  have hlen : 4*((ra.toList ++ rb.toList).map bswap32).length = 40 := by simp
  have hlast := Sha256d.lastBlock_eq ((ra.toList ++ rb.toList).map bswap32)
    (by decide : ((BitVec.ofNat 64 40 * 8) >>> 32).setWidth 32 = 0)
    (by decide : (BitVec.ofNat 64 40 * 8).setWidth 32 = 0x140)
  rw [← List.flatMap_append,encode_of_leBytes,Sha256d.sha256Full_short (by simp),hlen,hlast]
  refine congrArg (fun s : Words 8 => encode s.toList) (compress_congr (fun i hi => ?_) _)
  rw [ripemdBlock,Sha256d.words_toList,Sha256d.words_toList]
  interval_cases i <;> rfl

/-- The host's hash is the last state, its bytes turned round. -/
theorem hash_eq (header : Words 28) (nonce : Word) :
    hash header (nonce.setWidth 64) = swapped (lastState header nonce) := by
  have hlow : (nonce.setWidth 64).setWidth 32 = nonce := by
    rw [BitVec.setWidth_setWidth_of_le nonce (by omega),BitVec.setWidth_eq]
  have hdigest : lbryHash112 (encode (header.toList.take 27 ++ [nonce])) =
      encode (lastState header nonce).toList := by
    simp only [lbryHash112,Sha256d.sha256d]
    rw [sha256Full_header,sha256Full_digest,sha512Full_digest,(ripemd160Full_half _).1,
      (ripemd160Full_half _).2,sha256Full_ripemd,sha256Full_digest]
    rfl
  rw [hash,hlow,hdigest,swapped]
  refine upTo_congr _ fun i hi out => ?_
  rw [Sha256d.leWordAt_encode,Sha256d.leWord_bytes,Sha256d.words_toList]
  congr 2
  interval_cases i <;> rfl

end VkMiner.Lbry
