import VkMiner.Lbry.Digest
import VkMiner.Lbry.Kernel
import VkMiner.Sha512.Lanes
set_option autoImplicit false

/-! The lbry kernel and the host find the same nonces, with the same hashes. -/

namespace VkMiner.Lbry
open Loops Halves Sha256 Glsl Screen
open Progpow (Candidate)
open Progpow.Glsl (bswap32)
open Sha256d (Word K IV digestBlock swapped half fulltest)
open Sha256d.Glsl (sha256K sha256Iv assign)
open Sha512 (Word64 sha512Iv)
open Sha512.Glsl (SLane Reached Holds)

variable {m : Nat → Word} {lo i : Nat} {w : Words 64} {v : Vars}

/-! ### The kernel's rounds and schedule -/

theorem round4_half (w : Words 64) (i : Nat) (v : Vars) :
    half (round4 w i v) = rounds K.read w.read i 4 v := Sha256d.sha256dRound4_half w i v

theorem round4Shifted_eq (w : Words 64) (i : Nat) (v : Vars) :
    round4Shifted w i v = rounds K.read w.read i 4 (half v) := Sha256d.sha256dRound4Shifted_eq w i v

theorem round8_eq (w : Words 64) (i : Nat) (v : Vars) :
    round8 w i v = rounds K.read w.read i 8 v := by
  rw [round8,round4Shifted_eq,round4_half,← rounds_add]

theorem round8Shifted_half (w : Words 64) (i : Nat) (v : Vars) :
    half (round8Shifted w i v) = rounds K.read w.read i 8 (half v) := by
  rw [round8Shifted,round4_half,round4Shifted_eq,← rounds_add]

theorem roundsFrom12_half (w : Words 64) (v : Vars) :
    half (roundsFrom12 w v) = rounds K.read w.read 12 52 v := by
  have turn (n : Nat) : rounds K.read w.read (12 + n) 8 (rounds K.read w.read 12 n v) =
      rounds K.read w.read 12 (n + 8) v := (rounds_add K.read w.read 12 n 8 v).symm
  simp only [roundsFrom12,round8Shifted_half,round4_half]
  rw [turn 4,turn 12,turn 20,turn 28,turn 36,turn 44]

theorem roundsTo59_half (w : Words 64) (v : Vars) :
    half (roundsTo59 w v) = rounds K.read w.read 0 60 v := by
  simp only [roundsTo59,round4_half,round8_eq]
  rw [eights _ _ 8,eights _ _ 16,eights _ _ 24,eights _ _ 32,eights _ _ 40,eights _ _ 48,
    rounds_add K.read w.read 0 56 4 v,Nat.zero_add]

theorem filled_sched (h : Filled m lo i w) (hlo : lo + 16 ≤ i) (hi : i < 64) :
    Filled m lo (i + 1) (sched w i) := h.extend hlo hi

theorem filled_sched4 (h : Filled m lo i w) (hlo : lo + 16 ≤ i) (hi : i + 4 ≤ 64) :
    Filled m lo (i + 4) (sched4 w i) := Sha256d.filled_sched4 h hlo hi

theorem filled_sched8 (h : Filled m lo i w) (hlo : lo + 16 ≤ i) (hi : i + 8 ≤ 64) :
    Filled m lo (i + 8) (sched8 w i) := Sha256d.filled_sched8 h hlo hi

theorem lbrySha256Block_eq (state : Words 8) (message : Words 16) :
    lbrySha256Block state message = compress K.read message.read state := by
  have h₀ : Filled message.read 0 16
      (upTo 16 (Words.zeros 64) fun i w => w.write i (message.read i)) := by
    intro j _ hj
    rw [Words.read_fill _ _ (by omega) hj,schedule_block _ hj]
  have h := filled_sched8 (filled_sched8 h₀ (by omega) (by omega)) (by omega) (by omega)
  have h := filled_sched8 (filled_sched8 h (by omega) (by omega)) (by omega) (by omega)
  have h := filled_sched8 (filled_sched8 h (by omega) (by omega)) (by omega) (by omega)
  simp only [lbrySha256Block,round8_eq]
  rw [eights _ _ 8,eights _ _ 16,eights _ _ 24,eights _ _ 32,eights _ _ 40,eights _ _ 48,eights _ _ 56,
    h.rounds _ (Nat.le_refl 0) (by omega),compress]

theorem freshIv : (upTo 8 (Words.zeros 8) fun i state => state.write i (sha256Iv.read i)) = IV := by
  decide +kernel

theorem lbrySha256_32_eq (message : Words 8) :
    lbrySha256_32 message = compress K.read (digestBlock message) IV := by
  rw [lbrySha256_32,lbrySha256Block_eq,freshIv]
  refine compress_congr (fun i hi => ?_) IV
  interval_cases i <;>
    simp (disch := decide) only [upTo,Words.read_write_self,Words.read_write_ne,Nat.reduceAdd] <;> rfl

/-! ### The block with the nonce -/

/-- The schedule without the terms that the nonce reaches. -/
def shortSchedule (m : Nat → Word) (i : Nat) : Word :=
  if i < 16 then m i
  else
    shortSchedule m (i - 16) + smallS0 (shortSchedule m (i - 15)) +
      (if i = 20 ∨ i = 22 ∨ i = 24 then 0 else smallS1 (shortSchedule m (i - 2))) +
      if i = 18 ∨ i = 25 then 0 else shortSchedule m (i - 7)
termination_by i

theorem shortSchedule_block (m : Nat → Word) (hi : i < 16) : shortSchedule m i = m i := by
  rw [shortSchedule,if_pos hi]

theorem shortSchedule_further (m : Nat → Word) (hi : 16 ≤ i) : shortSchedule m i =
    shortSchedule m (i - 16) + smallS0 (shortSchedule m (i - 15)) +
      (if i = 20 ∨ i = 22 ∨ i = 24 then 0 else smallS1 (shortSchedule m (i - 2))) +
      if i = 18 ∨ i = 25 then 0 else shortSchedule m (i - 7) := by
  rw [shortSchedule,if_neg (Nat.not_lt.mpr hi)]

theorem schedule_nonce (tail : Nat → Word) (nonce : Word) :
    let w := schedule (nonceBlock tail nonce)
    let p := shortSchedule (nonceBlock tail 0)
    w 16 = p 16 ∧ w 17 = p 17 ∧ w 18 = p 18 + nonce ∧ w 19 = p 19 ∧
      w 20 = p 20 + smallS1 (w 18) ∧ w 21 = p 21 ∧ w 22 = p 22 + smallS1 (w 20) ∧ w 23 = p 23 ∧
      w 24 = p 24 + smallS1 (w 22) ∧ w 25 = p 25 + w 18 := by
  intro w p
  have hw (i : Nat) : w (16 + i) = w i + smallS0 (w (1 + i)) + w (9 + i) + smallS1 (w (14 + i)) := by
    have h := schedule_further (nonceBlock tail nonce) (by omega : 16 ≤ 16 + i)
    rwa [show 16 + i - 16 = i by omega,show 16 + i - 15 = 1 + i by omega,
      show 16 + i - 7 = 9 + i by omega,show 16 + i - 2 = 14 + i by omega] at h
  have hp (i : Nat) : p (16 + i) = p i + smallS0 (p (1 + i)) +
      (if 16 + i = 20 ∨ 16 + i = 22 ∨ 16 + i = 24 then 0 else smallS1 (p (14 + i))) +
      if 16 + i = 18 ∨ 16 + i = 25 then 0 else p (9 + i) := by
    have h := shortSchedule_further (nonceBlock tail 0) (by omega : 16 ≤ 16 + i)
    rwa [show 16 + i - 16 = i by omega,show 16 + i - 15 = 1 + i by omega,
      show 16 + i - 7 = 9 + i by omega,show 16 + i - 2 = 14 + i by omega] at h
  have hm {i : Nat} (hi : i < 16) (hne : i ≠ 11) : w i = p i := by
    rw [show w i = _ from schedule_block _ hi,show p i = _ from shortSchedule_block _ hi]
    interval_cases i <;> first | rfl | exact absurd rfl hne
  have h11 : w 11 = nonce := schedule_block _ (by decide)
  -- a word all of whose terms are there
  have hall (i : Nat) (hi : i = 0 ∨ i = 1 ∨ i = 3 ∨ i = 5 ∨ i = 7) (h0 : w i = p i)
      (h1 : w (1 + i) = p (1 + i)) (h9 : w (9 + i) = p (9 + i)) (h14 : w (14 + i) = p (14 + i)) :
      w (16 + i) = p (16 + i) := by
    rw [hw,hp,if_neg (by omega),if_neg (by omega),h0,h1,h9,h14]
    ac_rfl
  have hsigma (i : Nat) (hi : i = 4 ∨ i = 6 ∨ i = 8) (h0 : w i = p i)
      (h1 : w (1 + i) = p (1 + i)) (h9 : w (9 + i) = p (9 + i)) :
      w (16 + i) = p (16 + i) + smallS1 (w (14 + i)) := by
    rw [hw,hp,if_pos (by omega),if_neg (by omega),h0,h1,h9]
    exact congrArg (· + p (9 + i) + _) (BitVec.add_zero _).symm
  have hword (i : Nat) (hi : i = 2 ∨ i = 9) (h0 : w i = p i)
      (h1 : w (1 + i) = p (1 + i)) (h14 : w (14 + i) = p (14 + i)) :
      w (16 + i) = p (16 + i) + w (9 + i) := by
    rw [hw,hp,if_neg (by omega),if_pos (by omega),h0,h1,h14,
      show ∀ x : Word, x + 0 = x from BitVec.add_zero]
    ac_rfl
  have h16 : w 16 = p 16 := hall 0 (by decide) (hm (by decide) (by decide))
    (hm (by decide) (by decide)) (hm (by decide) (by decide)) (hm (by decide) (by decide))
  have h17 : w 17 = p 17 := hall 1 (by decide) (hm (by decide) (by decide))
    (hm (by decide) (by decide)) (hm (by decide) (by decide)) (hm (by decide) (by decide))
  have h18 : w 18 = p 18 + w 11 := hword 2 (by decide) (hm (by decide) (by decide))
    (hm (by decide) (by decide)) h16
  have h19 : w 19 = p 19 := hall 3 (by decide) (hm (by decide) (by decide))
    (hm (by decide) (by decide)) (hm (by decide) (by decide)) h17
  have h20 : w 20 = p 20 + smallS1 (w 18) := hsigma 4 (by decide) (hm (by decide) (by decide))
    (hm (by decide) (by decide)) (hm (by decide) (by decide))
  have h21 : w 21 = p 21 := hall 5 (by decide) (hm (by decide) (by decide))
    (hm (by decide) (by decide)) (hm (by decide) (by decide)) h19
  have h22 : w 22 = p 22 + smallS1 (w 20) := hsigma 6 (by decide) (hm (by decide) (by decide))
    (hm (by decide) (by decide)) (hm (by decide) (by decide))
  have h23 : w 23 = p 23 := hall 7 (by decide) (hm (by decide) (by decide))
    (hm (by decide) (by decide)) h16 h21
  have h24 : w 24 = p 24 + smallS1 (w 22) := hsigma 8 (by decide) (hm (by decide) (by decide))
    (hm (by decide) (by decide)) h17
  have h25 : w 25 = p 25 + w 18 := hword 9 (by decide) (hm (by decide) (by decide))
    (hm (by decide) (by decide)) h23
  rw [h11] at h18
  exact ⟨h16,h17,h18,h19,h20,h21,h22,h23,h24,h25⟩

theorem rounds_nonce (tail : Nat → Word) (nonce : Word) (v : Vars) :
    rounds K.read (schedule (nonceBlock tail nonce)) 0 12 v =
      let u := rounds K.read (schedule (nonceBlock tail 0)) 0 12 v
      { u with a := u.a + nonce, e := u.e + nonce } := by
  have hbefore : rounds K.read (schedule (nonceBlock tail nonce)) 0 11 v =
      rounds K.read (schedule (nonceBlock tail 0)) 0 11 v := by
    refine rounds_congr v fun i hi => ?_
    rw [schedule_block _ (by omega),schedule_block _ (by omega)]
    interval_cases i <;> rfl
  have hword : schedule (nonceBlock tail nonce) (0 + 11) =
      schedule (nonceBlock tail 0) (0 + 11) + nonce := by
    rw [schedule_block _ (by omega),schedule_block _ (by omega)]
    exact (BitVec.zero_add nonce).symm
  rw [rounds_succ K.read (schedule (nonceBlock tail nonce)) 0 11,
    rounds_succ K.read (schedule (nonceBlock tail 0)) 0 11,hbefore,hword,Vars.step_add]

theorem expandShort_run (tail : Words 11) {j : Nat} (hj : j < 26) :
    (upTo 10 (nonceWords tail) fun i w => expandShort w (16 + i)).read j =
      shortSchedule (nonceBlock tail.read 0) j := by
  refine upTo_invariant (P := fun i (w : Words 26) => ∀ j < 16 + i, w.read j =
    shortSchedule (nonceBlock tail.read 0) j) (fun j hj => ?_) (fun i hi w hw j hj => ?_) j hj
  · rw [shortSchedule_block _ hj]
    have htail {k : Nat} (hk : k < 11) : (upTo 11 (Words.zeros 26) fun i w =>
        w.write i (tail.read i)).read k = tail.read k :=
      Words.read_fill _ _ (by decide) hk
    simp only [nonceWords]
    by_cases h11 : j < 11
    · simp (disch := omega) only [Words.read_write_ne,htail]
      interval_cases j <;> rfl
    · interval_cases j <;>
        simp (disch := decide) only [Words.read_write_self,Words.read_write_ne] <;> rfl
  · obtain rfl | hne := eq_or_ne (16 + i) j
    · rw [expandShort,Words.read_write_self _ _ (by omega),hw _ (by omega),hw _ (by omega),
        hw _ (by omega),hw _ (by omega),shortSchedule_further _ (by omega : 16 ≤ 16 + i)]
      rfl
    · rw [expandShort,Words.read_write_ne _ _ hne]
      exact hw j (by omega)

/-! ### The first compression -/

section First
variable {push : LbryPush} {tail : Nat → Word}

/-- The push block holds what the host worked out for the second block. -/
structure Advanced (push : LbryPush) (tail : Nat → Word) : Prop where
  tail10 : push.tail10 = tail 10
  sched : ∀ j < 10, push.sched.read j = shortSchedule (nonceBlock tail 0) (16 + j)
  midbuffer : let u := rounds K.read (schedule (nonceBlock tail 0)) 0 12 (.load push.midstate)
    push.midbuffer = #v[u.a,u.b,u.c,u.d,u.e,u.f,u.g,u.h]

theorem assign_read (xs : List Word) (w : Words 64) (i j : Nat) (hi : i + xs.length ≤ 64) :
    (assign w i xs).read j =
      if i ≤ j ∧ j < i + xs.length then xs.getD (j - i) 0 else w.read j := by
  induction xs generalizing w i with
  | nil =>
    rw [assign,if_neg]
    simp only [List.length_nil]
    omega
  | cons x xs ih =>
    simp only [List.length_cons] at hi ⊢
    rw [assign,ih _ _ (by omega)]
    obtain rfl | hne := eq_or_ne i j
    · rw [if_neg (by omega),if_pos (by omega),Words.read_write_self _ _ (by omega),Nat.sub_self]
      rfl
    · rw [Words.read_write_ne _ _ hne]
      by_cases h : i + 1 ≤ j ∧ j < i + 1 + xs.length
      · rw [if_pos h,if_pos (by omega),show j - i = j - (i + 1) + 1 by omega,List.getD_cons_succ]
      · rw [if_neg h,if_neg (by omega)]

theorem givenWords_read (hp : Advanced push tail) (garbage : Words 64) (nonce : Word) :
    (∀ j < 6, (givenWords garbage push nonce).read (10 + j) =
        schedule (nonceBlock tail nonce) (10 + j)) ∧
      ∀ j < 10, (givenWords garbage push nonce).read (16 + j) =
        shortSchedule (nonceBlock tail 0) (16 + j) := by
  have hgiven (j : Nat) : (givenWords garbage push nonce).read j =
      if 16 ≤ j ∧ j < 16 + 10 then push.sched.read (j - 16)
      else (assign garbage 10 [push.tail10,nonce,0x80000000,0,0,0x380]).read j :=
    Words.read_run push.sched.read _ 16 (by decide) j
  refine ⟨fun j hj => ?_,fun j hj => ?_⟩
  · rw [hgiven,if_neg (by omega),assign_read _ _ _ _ (Nat.le_add_right 16 48),
      if_pos ⟨Nat.le_add_right 10 j,Nat.add_lt_add_left hj 10⟩,schedule_block _ (by omega),
      hp.tail10,Nat.add_sub_cancel_left]
    interval_cases j <;> rfl
  · rw [hgiven,if_pos (by omega),Nat.add_sub_cancel_left,hp.sched j hj]

theorem withNonce_filled {w : Words 64} {nonce : Word}
    (hblock : ∀ j < 6, w.read (10 + j) = schedule (nonceBlock tail nonce) (10 + j))
    (hsched : ∀ j < 10, w.read (16 + j) = shortSchedule (nonceBlock tail 0) (16 + j)) :
    Filled (nonceBlock tail nonce) 10 26 (withNonce w nonce) := by
  obtain ⟨h16,h17,h18,h19,h20,h21,h22,h23,h24,h25⟩ := schedule_nonce tail nonce
  have e18 : w.read 18 + nonce = schedule (nonceBlock tail nonce) 18 := by
    rw [h18,← hsched 2 (by decide)]
  have e20 : w.read 20 + smallS1 (schedule (nonceBlock tail nonce) 18) =
      schedule (nonceBlock tail nonce) 20 := by
    rw [h20,← hsched 4 (by decide)]
  have e22 : w.read 22 + smallS1 (schedule (nonceBlock tail nonce) 20) =
      schedule (nonceBlock tail nonce) 22 := by
    rw [h22,← hsched 6 (by decide)]
  have e24 : w.read 24 + smallS1 (schedule (nonceBlock tail nonce) 22) =
      schedule (nonceBlock tail nonce) 24 := by
    rw [h24,← hsched 8 (by decide)]
  have e25 : w.read 25 + schedule (nonceBlock tail nonce) 18 =
      schedule (nonceBlock tail nonce) 25 := by
    rw [h25,← hsched 9 (by decide)]
  have hs (x : Word) : Sha256d.Glsl.sha256SmallS1 x = smallS1 x := rfl
  intro j hlo hhi
  by_cases hj : j < 16
  · obtain ⟨k,rfl⟩ := Nat.exists_eq_add_of_le hlo
    rw [← hblock k (by omega)]
    simp (disch := omega) only [withNonce,Words.read_write_ne]
  · obtain ⟨k,rfl⟩ := Nat.exists_eq_add_of_le (Nat.not_lt.mp hj)
    have hk : k < 10 := by omega
    have hsame := hsched k hk
    interval_cases k <;>
      simp (disch := decide) only [withNonce,Nat.reduceAdd,Words.read_write_self,
        Words.read_write_ne,hs,e18,e20,e22,e24,e25] at hsame ⊢ <;>
      first | rfl | exact hsame.trans h16.symm | exact hsame.trans h17.symm |
        exact hsame.trans h19.symm | exact hsame.trans h21.symm | exact hsame.trans h23.symm

theorem firstWords_filled (hp : Advanced push tail) (garbage : Words 64) (nonce : Word) :
    Filled (nonceBlock tail nonce) 10 64 (firstWords garbage push nonce) := by
  obtain ⟨hblock,hsched⟩ := givenWords_read hp garbage nonce
  have h := withNonce_filled hblock hsched
  have h := filled_sched (filled_sched h (by omega) (by omega)) (by omega) (by omega)
  have h := filled_sched4 h (by omega) (by omega)
  have h := filled_sched8 (filled_sched8 h (by omega) (by omega)) (by omega) (by omega)
  exact filled_sched8 (filled_sched8 h (by omega) (by omega)) (by omega) (by omega)

/-- From round 12 on, with the nonce put back, the compression of the whole block. -/
theorem firstDigest_eq (hp : Advanced push tail) (garbage : Words 64) (nonce : Word) :
    firstDigest push (roundsFrom12 (firstWords garbage push nonce) (entering push nonce)) =
      compress K.read (nonceBlock tail nonce) push.midstate := by
  have hw := firstWords_filled hp garbage nonce
  have hv : entering push nonce =
      rounds K.read (schedule (nonceBlock tail nonce)) 0 12 (.load push.midstate) := by
    rw [rounds_nonce,entering,hp.midbuffer]
    rfl
  have hr : half (roundsFrom12 (firstWords garbage push nonce) (entering push nonce)) =
      rounds K.read (schedule (nonceBlock tail nonce)) 0 64 (.load push.midstate) := by
    rw [roundsFrom12_half,hw.rounds _ (by omega) (by omega),hv]
    exact (rounds_add K.read (schedule (nonceBlock tail nonce)) 0 12 52 _).symm
  exact congrArg (Vars.feed push.midstate) hr

end First

/-! ### SHA-512 and the two RIPEMDs -/

section Middle
variable {L : Type} [Inhabited L] {B : SLane L} {val : L → Word64}

theorem sha512Words_holds (hB : B.Lawful val) (message : Words 8) :
    Holds val (wideBlock message) 0 16 (sha512Words B message) := by
  intro i _ hi
  rw [Sha2.schedule_block _ _ hi]
  have hzero : val (B.slane 0 0) = 0#64 := (hB.slane 0 0).trans (by decide)
  interval_cases i <;>
    simp (disch := decide) only [sha512Words,upTo,Nat.reduceAdd,Nat.reduceMul,Nat.reduceMod,
      Cells.read_write_self,Cells.read_write_ne,hzero,hB.slane] <;> rfl

/-- Every lane of the device's digest stands for a word of the host's. -/
theorem lbrySha512_32_read (hB : B.Lawful val) (message : Words 8) (hi : i < 8) :
    val ((lbrySha512_32 B message).read i) = (wideState message).read i := by
  have hload : Sha512.Glsl.turned val 0 (upTo 8 (Cells.blank 8) fun i (v : Cells L 8) =>
      v.write i (Sha512.Glsl.sha512Iv B i)) = .load sha512Iv := by
    have hread {i : Nat} (hi : i < 8) : val (Cells.read (upTo 8 (Cells.blank 8)
        fun i (v : Cells L 8) => v.write i (Sha512.Glsl.sha512Iv B i)) i) = sha512Iv.read i := by
      rw [Cells.read_fill _ _ (Nat.le_refl 8),if_pos hi,hB.sha512Iv hi]
    simp (disch := decide) only [Sha512.Glsl.turned,Sha512.Glsl.place,Nat.reduceAdd,Nat.reduceMod,
      Nat.reduceSub,hread,Sha2.Vars.load]
  have h0 : Reached val (wideBlock message) (.load sha512Iv) 0 0 16
      ⟨upTo 8 (Cells.blank 8) fun i v => v.write i (Sha512.Glsl.sha512Iv B i),
        sha512Words B message⟩ := ⟨hload,sha512Words_holds hB message⟩
  have h16 := h0.rounds16 false hB
  have h32 := h16.rounds16Sched false hB rfl (by decide)
  have h48 := h32.rounds16Sched false hB rfl (by decide)
  have h64 := h48.rounds16Sched false hB rfl (by decide)
  have h80 := h64.rounds16Sched false hB rfl (by decide)
  rw [lbrySha512_32,Cells.read_fill _ _ (Nat.le_refl 8),if_pos hi,hB.sadd,hB.sha512Iv hi,wideState,
    Sha2.compress,← h80.vars]
  interval_cases i <;> rfl

theorem ripemdWords_eq (hB : B.Lawful val) {part : Cells L 4} {h : Cells Word64 8} {c : Nat}
    (hc : c < 2) (hpart : ∀ i < 4, val (part.read i) = h.read (4*c + i)) :
    ripemdWords B part = Words.ofList (Ripemd160.paddedWords (halfWords h c)) := by
  have hhi {i : Nat} (hi : i < 4) : B.shi (part.read i) = (h.read (4*c + i) >>> 32).setWidth 32 := by
    rw [hB.shi,hpart i hi]
  have hlo {i : Nat} (hi : i < 4) : B.slo (part.read i) = (h.read (4*c + i)).setWidth 32 := by
    rw [hB.slo,hpart i hi]
  refine Words.ext _ _ fun i hi => ?_
  rw [show (Words.ofList (Ripemd160.paddedWords (halfWords h c)) : Words 16).read i = _ from
    Words.read_ofFn _ hi]
  interval_cases c <;> interval_cases i <;>
    simp (disch := decide) only [ripemdWords,upTo,Nat.reduceAdd,Nat.reduceMul,Words.read_write_self,
      Words.read_write_ne,hhi,hlo] <;> rfl

theorem ripemdBlock_eq (ra rb : Words 5) {i : Nat} (hi : i < 16) :
    (Glsl.ripemdBlock ra rb).read i = ripemdBlock ra rb i := by
  rw [ripemdBlock,Sha256d.words_toList,Sha256d.words_toList]
  interval_cases i <;>
    simp (disch := decide) only [Glsl.ripemdBlock,upTo,Nat.reduceAdd,Words.read_write_self,
      Words.read_write_ne] <;> rfl

theorem middle_eq (hB : B.Lawful val) (first : Words 8) : middle B first = middleState first := by
  have hpart {c : Nat} (hc : c < 2) : lbryRipemd160_32 B (upTo 4 (Cells.blank 4) fun i part =>
      part.write i ((lbrySha512_32 B (lbrySha256_32 first)).read (4*c + i))) =
        ripemdState (wideState (compress K.read (digestBlock first) IV)) c := by
    rw [lbryRipemd160_32,Ripemd160.Glsl.ripemd160Words_eq,ripemdState,lbrySha256_32_eq]
    refine congrArg (Ripemd160.compressWords _) (ripemdWords_eq hB hc fun i hi => ?_)
    rw [Cells.read_fill _ _ (Nat.le_refl 4),if_pos hi,lbrySha512_32_read hB _ (by omega)]
  have hlo := hpart (c := 0) (by decide)
  have hhi := hpart (c := 1) (by decide)
  simp only [Nat.mul_zero,Nat.zero_add,Nat.mul_one,Nat.add_comm 4] at hlo hhi
  simp only [middle,hlo,hhi]
  rw [lbrySha256Block_eq,freshIv,middleState,compress_congr fun i hi => ripemdBlock_eq _ _ hi]

end Middle

/-! ### The last compression, and the screen -/

section Last
variable {state : Words 8}

theorem lastWords_filled (w : Words 64) (state : Words 8) :
    Filled (digestBlock state) 0 62 (lastWords w state) := by
  have h₀ : Filled (digestBlock state) 0 0 w := fun j _ hj => by omega
  have h : Filled (digestBlock state) 0 16 (assign w 0 [state.read 0,state.read 1,state.read 2,
      state.read 3,state.read 4,state.read 5,state.read 6,state.read 7,0x80000000,0,0,0,0,0,0,
      0x100]) := Sha256d.filled_assign h₀ [state.read 0,state.read 1,state.read 2,state.read 3,
      state.read 4,state.read 5,state.read 6,state.read 7,0x80000000,0,0,0,0,0,0,0x100] (by simp)
    fun j hj => by
      rw [schedule_block _ (by simpa using hj),Nat.zero_add]
      rfl
  have h := filled_sched8 (filled_sched8 h (by decide) (by decide)) (by decide) (by decide)
  have h := filled_sched8 (filled_sched8 h (by decide) (by decide)) (by decide) (by decide)
  have h := filled_sched4 (filled_sched8 h (by decide) (by decide)) (by decide) (by decide)
  exact filled_sched (filled_sched h (by decide) (by decide)) (by decide) (by decide)

theorem sixty_half (h : Filled m 0 62 w) :
    half (roundsTo59 w (.load sha256Iv)) = rounds K.read (schedule m) 0 60 (.load IV) := by
  rw [roundsTo59_half,h.rounds _ (Nat.le_refl 0) (by omega),Sha256d.sha256Iv_eq]

theorem screenWords_eq (h : Filled m 0 62 w)
    (hv : half v = rounds K.read (schedule m) 0 60 (.load IV)) :
    sha256Iv.read 7 + h60 w v = (compress K.read m IV).read 7 ∧
      sha256Iv.read 6 + v.g + t61 w v = (compress K.read m IV).read 6 := by
  have h7 : (compress K.read m IV).read 7 = IV.read 7 +
      (rounds K.read (schedule m) 60 4 (half v)).h := by
    rw [Sha256d.compress_sixty,hv]
    rfl
  have h6 : (compress K.read m IV).read 6 = IV.read 6 +
      (rounds K.read (schedule m) 60 4 (half v)).g := by
    rw [Sha256d.compress_sixty,hv]
    rfl
  have hK : sha256K = K := Sha256d.sha256K_eq
  have hIV : sha256Iv = IV := Sha256d.sha256Iv_eq
  refine ⟨?_,?_⟩
  · rw [h7,hIV,h60,hK,h 60 (by omega) (by omega)]
    rfl
  · rw [h6,hIV,t61,h60,hK,h 60 (by omega) (by omega),h 61 (by omega) (by omega),BitVec.add_assoc]
    rfl

theorem digestOf_eq (h : Filled m 0 64 w)
    (hv : half v = rounds K.read (schedule m) 0 60 (.load IV)) :
    digestOf (rounds60_63 w v) = compress K.read m IV := by
  rw [Sha256d.compress_sixty,← hv,← h.rounds (half v) (by omega) (by omega),rounds60_63,
    round4Shifted_eq,← Sha256d.sha256Iv_eq]
  rfl

end Last

/-! ### The search -/

theorem prepare_eq (header : Words 28) (target : Words 8) (start : BitVec 64)
    (count capacity : Word) :
    ∃ push,prepare ⟨some header,some target,start,count,capacity⟩ pushBytes = some push ∧
      push.midstate = midstateOf header ∧ Advanced push (fun i => header.read (16 + i)) ∧
      (push.target.read 1 = target.read 7 ∧ push.target.read 0 = target.read 6) ∧
      push.nonceStart = start.setWidth 32 ∧ push.count = count := by
  have hmid : Sha256d.sha256Midstate header.toList = midstateOf header := by
    rw [Sha256d.sha256Midstate,Sha256d.sha256Transform_eq,midstateOf]
    refine compress_congr (fun i hi => ?_) IV
    rw [Sha256d.wordAt_encode,Sha256d.words_toList]
    interval_cases i <;> rfl
  have hread {i : Nat} (hi : i < 11) : (upTo 11 (Words.zeros 11) fun i (t : Words 11) =>
      t.write i (header.read (16 + i))).read i = header.read (16 + i) :=
    Words.read_fill _ _ (Nat.le_refl 11) hi
  generalize htail : (upTo 11 (Words.zeros 11) fun i (t : Words 11) =>
    t.write i (header.read (16 + i))) = tail at hread
  have hblock : nonceBlock tail.read 0 = nonceBlock (fun i => header.read (16 + i)) 0 := by
    funext i
    simp (disch := decide) only [nonceBlock,hread]
  have hrun {j : Nat} (hj : j < 26) := expandShort_run tail hj
  rw [hblock] at hrun
  simp only [prepare,lt_irrefl,if_false,htail,hmid]
  refine ⟨_,rfl,rfl,⟨rfl,fun j hj => ?_,?_⟩,⟨rfl,rfl⟩,rfl,rfl⟩
  · exact (Words.read_fill _ _ (Nat.le_refl 10) hj).trans (hrun (by omega))
  · have hvars : (upTo 12 (Vars.load (midstateOf header)) fun i v => Sha256d.round (K.read i)
        (Words.read (upTo 10 (nonceWords tail) fun i w => expandShort w (16 + i)) i) v) =
          rounds K.read (schedule (nonceBlock (fun i => header.read (16 + i)) 0)) 0 12
            (.load (midstateOf header)) := by
      refine upTo_congr _ fun i hi v => ?_
      rw [hrun (by omega),shortSchedule_block _ (by omega),Nat.zero_add,schedule_block _ (by omega)]
      rfl
    exact congrArg (fun v : Vars => (#v[v.a,v.b,v.c,v.d,v.e,v.f,v.g,v.h] : Words 8)) hvars

/-- A nonce is emitted exactly when its hash meets the target under the screen, with that hash. -/
theorem search_eq {L : Type} [Inhabited L] {B : SLane L} {val : L → Word64} (hB : B.Lawful val)
    {push : LbryPush} {header : Words 28} {target : Words 8}
    (hmid : push.midstate = midstateOf header)
    (hp : Advanced push (fun i => header.read (16 + i)))
    (ht : push.target.read 1 = target.read 7 ∧ push.target.read 0 = target.read 6)
    (garbage : Words 64) (nonce : Word) :
    lbrySearch B garbage push nonce =
      if fulltest (hash header (nonce.setWidth 64)) (screenedTarget 64 target) 8 then
        some ⟨nonce,0,hash header (nonce.setWidth 64)⟩
      else none := by
  have hfirst : firstDigest push (roundsFrom12 (firstWords garbage push nonce)
      (entering push nonce)) = firstState header nonce := by
    rw [firstDigest_eq hp,hmid,firstState]
  have hw := lastWords_filled (firstWords garbage push nonce) (middleState (firstState header nonce))
  have hhalf := sixty_half hw
  obtain ⟨h7,h6⟩ := screenWords_eq hw hhalf
  have hfull := filled_sched (filled_sched hw (by decide) (by decide)) (by decide) (by decide)
  have hdigest := digestOf_eq hfull hhalf
  have hlast : compress K.read (digestBlock (middleState (firstState header nonce))) IV =
      lastState header nonce := rfl
  rw [hlast] at h7 h6 hdigest
  have htop := Sha256d.swapped_read (lastState header nonce) (by decide : 7 < 8)
  have hnext := Sha256d.swapped_read (lastState header nonce) (by decide : 6 < 8)
  simp only [lbrySearch,hfirst,middle_eq hB,h7,h6,ht.1,ht.2]
  rw [show digestOf (rounds60_63 (sched62_63 (lastWords (firstWords garbage push nonce)
    (middleState (firstState header nonce)))) _) = _ from hdigest,← htop,← hnext,hash_eq]
  exact screened_some _ _ _

theorem Glsl.Module.lawful (module : Module) : module.lanes.Lawful join := by
  cases module with
  | wide => exact Sha512.Glsl.wideAdd_lawful
  | pairs => exact Sha512.Glsl.pairs_lawful

/-- Both modules find, of the nonces that an invocation comes to, exactly those whose hash meets
the target under the screen, each with the hash that the host has for it. -/
theorem chain_finds_shares (module : Module) (header : Words 28) (target : Words 8)
    (start : BitVec 64) (count capacity : Word) (garbage : Words 64) (noncesPerInvocation : Nat)
    (id : Word) :
    ∃ push,prepare ⟨some header,some target,start,count,capacity⟩ pushBytes = some push ∧
      (∀ nonce,lbrySearch module.lanes garbage push nonce =
        if fulltest (hash header (nonce.setWidth 64)) (screenedTarget 64 target) 8 then
          some ⟨nonce,0,hash header (nonce.setWidth 64)⟩
        else none) ∧
      Glsl.main module.lanes garbage push noncesPerInvocation id =
        let first := id * BitVec.ofNat 32 noncesPerInvocation
        let indices := (List.range noncesPerInvocation).map fun k => first + BitVec.ofNat 32 k
        (indices.takeWhile (· < count)).filterMap fun index =>
          let nonce := start.setWidth 32 + index
          if fulltest (hash header (nonce.setWidth 64)) (screenedTarget 64 target) 8 then
            some ⟨nonce,0,hash header (nonce.setWidth 64)⟩
          else none := by
  obtain ⟨push,hpush,hmid,hp,ht,hstart,hcount⟩ := prepare_eq header target start count capacity
  have hsearch := search_eq module.lawful hmid hp ht garbage
  refine ⟨push,hpush,hsearch,?_⟩
  simp only [Glsl.main,hstart,hcount,hsearch]

end VkMiner.Lbry
