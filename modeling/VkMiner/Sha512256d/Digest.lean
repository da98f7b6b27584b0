import VkMiner.Progpow.Kernel
import VkMiner.Sha512256d.Host
set_option autoImplicit false

/-! The host's hash over words: the block of each of its two passes. -/

namespace VkMiner.Sha512256d
open Loops Halves Sha2 Sha512
open Progpow.Glsl (bswap32)
open Sha256d (Word encode)

/-! ### The two blocks -/

def headerBlock (header : Words 20) (nonce : Word) (i : Nat) : Word64 :=
  if i < 9 then join ⟨header.read (2*i + 1),header.read (2*i)⟩
  else if i = 9 then join ⟨nonce,header.read 18⟩
  else if i = 10 then join ⟨0,0x80000000⟩
  else if i = 15 then join ⟨0x280,0⟩
  else 0

def digestBlock (first : Cells Word64 8) (i : Nat) : Word64 :=
  if i < 4 then first.read i
  else if i = 4 then join ⟨0,0x80000000⟩
  else if i = 15 then join ⟨0x100,0⟩
  else 0

def firstState (header : Words 20) (nonce : Word) : Cells Word64 8 :=
  compress sigmas sha512K.read 80 (headerBlock header nonce) sha512_256Iv

def finalState (header : Words 20) (nonce : Word) : Cells Word64 8 :=
  compress sigmas sha512K.read 80 (digestBlock (firstState header nonce)) sha512_256Iv

theorem join_zero : join ⟨0,0⟩ = 0 := by decide

theorem sha512_256Full_header (header : Words 20) (nonce : Word) :
    sha512_256Full (encode (header.toList.take 19 ++ [nonce])) =
      encode (halvesOf (firstState header nonce) 4) := by
  have hws : header.toList.take 19 ++ [nonce] = (List.range 19).map header.read ++ [nonce] := by
    rw [Sha256d.words_toList]
    rfl
  rw [sha512_256Full,hws,sha512From_short _ _ (by simp),firstState]
  refine congrArg (fun s => encode (halvesOf s 4)) (compress_congr (fun i hi => ?_) 80 _)
  have hlen : 4*((List.range 19).map header.read ++ [nonce]).length = 80 := by simp
  rw [hlen]
  have hbits : (BitVec.ofNat 64 80 <<< 3 >>> 32).setWidth 32 = (0 : Word) ∧
      (BitVec.ofNat 64 80 <<< 3).setWidth 32 = (0x280 : Word) := by decide
  rw [lastBlock,hbits.1,hbits.2]
  interval_cases i <;> first | rfl | exact join_zero

theorem halvesOf_pair (state : Cells Word64 8) {i : Nat} (hi : i < 4) :
    join ⟨(halvesOf state 4).getD (2*i + 1) 0,(halvesOf state 4).getD (2*i) 0⟩ = state.read i := by
  interval_cases i <;> exact join_split _

theorem sha512_256Full_digest (state : Cells Word64 8) :
    sha512_256Full (encode (halvesOf state 4)) =
      encode (halvesOf (compress sigmas sha512K.read 80 (digestBlock state) sha512_256Iv) 4) := by
  rw [sha512_256Full,sha512From_short _ _ (by simp [halvesOf])]
  refine congrArg (fun s => encode (halvesOf s 4)) (compress_congr (fun i hi => ?_) 80 _)
  have hlen : 4*(halvesOf state 4).length = 32 := by simp [halvesOf]
  have hbits : (BitVec.ofNat 64 32 <<< 3 >>> 32).setWidth 32 = (0 : Word) ∧
      (BitVec.ofNat 64 32 <<< 3).setWidth 32 = (0x100 : Word) := by decide
  rw [hlen,lastBlock,hbits.1,hbits.2]
  by_cases h4 : i < 4
  · rw [digestBlock,if_pos h4,← halvesOf_pair state h4,pairAt]
    interval_cases i <;> rfl
  · interval_cases i <;> first | rfl | exact join_zero

/-- The host's hash is the last state, its bytes turned round. -/
theorem hash_read (header : Words 20) (nonce : Word) {i : Nat} (hi : i < 8) :
    (hash header (nonce.setWidth 64)).read i =
      bswap32 ((halvesOf (finalState header nonce) 4).getD i 0) := by
  have hlow : (nonce.setWidth 64).setWidth 32 = nonce := by
    rw [BitVec.setWidth_setWidth_of_le nonce (by omega),BitVec.setWidth_eq]
  rw [hash,Words.read_fill _ _ (Nat.le_refl 8) hi,hlow,sha512_256Full_header,
    sha512_256Full_digest,Sha256d.leWordAt_encode,Sha256d.leWord_bytes,finalState]

end VkMiner.Sha512256d
