import VkMiner.Blake2s.Kernel
import VkMiner.Heavyhash.Agreement
set_option autoImplicit false

/-! The blake2s kernel and the host find the same nonces, with the same hashes. -/

namespace VkMiner.Blake2s
open Loops Glsl
open Progpow.Glsl (bswap32)
open Sha256d (Word Byte encode leWordAt fulltest headerWords)
open Heavyhash (within_eq)

variable {header : Words 20} {nonce : Word} {m : Words 16}

/-! ### The rounds -/

theorem blake2sG_eq (v : Words 16) (a b c d : Nat) (x y : Word) :
    blake2sG v a b c d x y = mix v a b c d x y := by
  simp only [blake2sG,mix,← BitVec.add_assoc]

/-- The words of the last block: four, and the padding. -/
structure Holds (m : Words 16) (m0 m1 m2 m3 : Word) : Prop where
  first : m.read 0 = m0
  second : m.read 1 = m1
  third : m.read 2 = m2
  fourth : m.read 3 = m3
  rest : ∀ i, 4 ≤ i → m.read i = 0

theorem lines_eq {m0 m1 m2 m3 : Word} (hm : Holds m m0 m1 m2 m3) (v : Words 16) :
    lines m0 m1 m2 m3 0 v = upTo 10 v (round m) := by
  obtain ⟨rfl,rfl,rfl,rfl,hrest⟩ := hm
  simp only [lines,upTo,round,blake2sRound,blake2sG_eq,kSigma,List.getD_cons_zero,
    List.getD_cons_succ]
  simp (disch := decide) only [hrest]

theorem blake2sInit_eq (h : Words 8) (counter : Word) : blake2sInit h counter true =
    start h counter true := by
  refine Words.ext _ _ fun i hi => ?_
  simp only [blake2sInit,start,upTo,if_true]
  interval_cases i <;>
    simp (disch := decide) only [Words.read_write_self,Words.read_write_ne,Nat.reduceAdd] <;>
    rfl

theorem compress_read (h : Words 8) (m : Words 16) (counter : Word) (last : Bool) {i : Nat}
    (hi : i < 8) : (compress h m counter last).read i =
      h.read i ^^^ (upTo 10 (start h counter last) (round m)).read i ^^^
        (upTo 10 (start h counter last) (round m)).read (i + 8) := by
  rw [compress]
  generalize upTo 10 (start h counter last) (round m) = v
  simp only [upTo,← BitVec.xor_assoc]
  interval_cases i <;>
    simp (disch := decide) only [Words.read_write_self,Words.read_write_ne,Nat.reduceAdd]

/-! ### The blocks -/

theorem wire_word (ws : List Word) (i : Nat) : leWordAt (encode ws) i = bswap32 (ws.getD i 0) := by
  rw [Sha256d.leWordAt_encode,Sha256d.leWord_bytes]

theorem midstate_wire (header : Words 20) (nonce : Word) :
    midstate (encode (headerWords header nonce)) = midstate (encode (header.toList.take 19)) := by
  have hwords : (upTo 16 (Words.zeros 16) fun i (m : Words 16) =>
      m.write i (leWordAt (encode (headerWords header nonce)) i)) =
        upTo 16 (Words.zeros 16) fun i m =>
          m.write i (leWordAt (encode (header.toList.take 19)) i) := by
    refine upTo_congr _ fun i hi m => ?_
    rw [wire_word,wire_word,headerWords,Sha256d.words_toList]
    interval_cases i <;> rfl
  rw [midstate,midstate,hwords]

theorem last_block (header : Words 20) (nonce : Word) :
    Holds (upTo 4 (Words.zeros 16) fun i m =>
        m.write i (leWordAt ((encode (headerWords header nonce)).drop 64) i))
      (bswap32 (header.read 16)) (bswap32 (header.read 17)) (bswap32 (header.read 18))
      (bswap32 nonce) := by
  have hlen : 16 ≤ (headerWords header nonce).length := by simp [headerWords]
  have hdrop : (encode (headerWords header nonce)).drop 64 =
      encode [header.read 16,header.read 17,header.read 18,nonce] := by
    have hcut := (Sha256d.encode_cut hlen).2
    rw [show 4*16 = 64 from rfl] at hcut
    rw [hcut,headerWords,Sha256d.words_toList]
    rfl
  simp only [hdrop,wire_word]
  refine ⟨?_,?_,?_,?_,fun i hi => ?_⟩
  · rw [Words.read_fill _ _ (by decide) (by decide)]
    rfl
  · rw [Words.read_fill _ _ (by decide) (by decide)]
    rfl
  · rw [Words.read_fill _ _ (by decide) (by decide)]
    rfl
  · rw [Words.read_fill _ _ (by decide) (by decide)]
    rfl
  · simp only [upTo]
    rw [Words.read_write_ne _ _ (by omega),Words.read_write_ne _ _ (by omega),
      Words.read_write_ne _ _ (by omega),Words.read_write_ne _ _ (by omega),Words.read_zeros]

/-! ### The search -/

structure Pushed (header : Words 20) (push : Blake2sPush) : Prop where
  midstate : push.midstate = midstate (encode (header.toList.take 19))
  block : ∀ i < 3, push.block.read i = bswap32 (header.read (16 + i))

theorem prepare_eq (header : Words 20) (target : Words 8) (start : BitVec 64)
    (count capacity : Word) :
    ∃ push,prepare ⟨some header,some target,start,count,capacity⟩ pushBytes = some push ∧
      Pushed header push ∧ push.target = target ∧ push.nonceStart = start.setWidth 32 ∧
      push.count = count := by
  refine ⟨_,rfl,⟨rfl,fun i hi => ?_⟩,rfl,rfl,rfl⟩
  have hdrop : (encode (header.toList.take 19)).drop 64 =
      encode [header.read 16,header.read 17,header.read 18] := by
    have hcut := (Sha256d.encode_cut (by simp : 16 ≤ (header.toList.take 19).length)).2
    rw [show 4*16 = 64 from rfl] at hcut
    rw [hcut,Sha256d.words_toList]
    rfl
  rw [Words.read_fill _ _ (Nat.le_refl 3) hi,hdrop,wire_word]
  interval_cases i <;> rfl

theorem hash_read {push : Blake2sPush} (hp : Pushed header push) (nonce : Word) {i : Nat}
    (hi : i < 8) :
    let v := lines (push.block.read 0) (push.block.read 1) (push.block.read 2) (bswap32 nonce) 0
      (blake2sInit push.midstate 80 true)
    push.midstate.read i ^^^ v.read i ^^^ v.read (i + 8) =
      (hash header (nonce.setWidth 64)).read i := by
  have hnonce : (nonce.setWidth 64).setWidth 32 = nonce := by simp
  have hhash : hash header (nonce.setWidth 64) = blake2s80 (encode (headerWords header nonce)) := by
    rw [hash,hnonce,headerWords]
  intro v
  rw [hhash,blake2s80,midstate_wire,← hp.midstate,compress_read _ _ _ _ hi,
    ← lines_eq (last_block header nonce),← blake2sInit_eq,← hp.block 0 (by decide),
    ← hp.block 1 (by decide),← hp.block 2 (by decide)]

/-- The kernel emits exactly the nonces of the dispatch whose hash meets the target, each with its
hash. -/
theorem blake2s_main_eq (header : Words 20) (target : Words 8) (start : BitVec 64)
    (count capacity : Word) :
    ∃ push,prepare ⟨some header,some target,start,count,capacity⟩ pushBytes = some push ∧
      ∀ index : Word,
        let nonce := start.setWidth 32 + index
        main push index =
          if index < count ∧ fulltest (hash header (nonce.setWidth 64)) target 8 = true then
            some ⟨nonce,0,hash header (nonce.setWidth 64)⟩
          else none := by
  obtain ⟨push,hpush,hp,htarget,hstart,hcount⟩ := prepare_eq header target start count capacity
  refine ⟨push,hpush,fun index => ?_⟩
  rw [← htarget,← hstart,← hcount]
  intro nonce
  have hread {i : Nat} (hi : i < 8) := hash_read hp nonce hi
  have hall : (upTo 8 (Words.zeros 8) fun i (state : Words 8) =>
      state.write i (push.midstate.read i ^^^
        (lines (push.block.read 0) (push.block.read 1) (push.block.read 2) (bswap32 nonce) 0
          (blake2sInit push.midstate 80 true)).read i ^^^
        (lines (push.block.read 0) (push.block.read 1) (push.block.read 2) (bswap32 nonce) 0
          (blake2sInit push.midstate 80 true)).read (i + 8))) =
      hash header (nonce.setWidth 64) := by
    refine Words.ext _ _ fun i hi => ?_
    rw [Words.read_fill _ _ (Nat.le_refl 8) hi]
    exact hread hi
  have htop := hread (by decide : 7 < 8)
  simp only [main]
  rw [hall,htop,within_eq,Screen.fulltest_some,Screen.counted_some]

end VkMiner.Blake2s
