import VkMiner.Aes.Agreement
import VkMiner.Echo.Counter
import VkMiner.Host.Screen
set_option autoImplicit false

/-! The compression of the kernels is the host's, and their screen reads the words of its digest. -/

namespace VkMiner.Echo
open Loops Quads
open Sha256d (Word Byte leWordAt leBytes)
open Aes (packed mixed aesRoundLe keyed word_keyed word_aesRound2)
open Aes.Glsl (Form aesRound2 aesXtime4)
open Glsl (echo512Key echo512SubwordsPair echo512ShiftMix echo512Round)

/-! ### The words through AES -/

def subWord (cnt : Words 4) (steps : Nat) (x : Words 4) : Words 4 :=
  aesRoundLe (aesRoundLe x (some (counted^[steps] cnt))) none

theorem bigSubWords_counter (s : State) : (bigSubWords s).k = counted^[16] s.k := by
  rw [bigSubWords]
  generalize 16 = n
  induction n with
  | zero => rfl
  | succ n ih => rw [upTo,bigSubWord,ih,Function.iterate_succ_apply']

theorem bigSubWords_word (w : Words 64) (k : Words 4) {n : Nat} (hn : n < 16) :
    word (bigSubWords ⟨w,k⟩).w n = subWord k n (word w n) := by
  rw [bigSubWords]
  let look (s : State) : Words 4 := word s.w n
  have hlook : ∀ s : State,look s = word s.w n := fun _ => rfl
  rw [← hlook]
  refine upTo_once look (fun j s => word s.w n = word w n ∧ s.k = counted^[j] k) hn ⟨rfl,rfl⟩
    ?_ ?_ ?_
  · intro j hj s hs
    refine ⟨?_,?_⟩
    · rw [bigSubWord,word_putWord_ne _ _ (by omega) (by omega),hs.1]
    · rw [bigSubWord,hs.2,Function.iterate_succ_apply']
  · intro s hs
    rw [hlook,bigSubWord,word_putWord _ _ _ (by omega),hs.1,hs.2,subWord]
  · intro j hj hj' s
    rw [hlook,hlook,bigSubWord,word_putWord_ne _ _ (by omega) (by omega)]

section Pair

variable (form : Form) (w : Words 64) (cnt : Words 4) {r a b i : Nat}

theorem word_rounds (x : Words 8) (k₀ k₁ : Words 4) {n : Nat} (hn : n < 2) :
    word (aesRound2 form (keyed (aesRound2 form x) k₀ k₁)) n =
      aesRoundLe (aesRoundLe (word x n) (some (if n = 0 then k₀ else k₁))) none := by
  rw [word_aesRound2 form _ hn]
  refine congrArg (aesRoundLe · none) (Words.ext _ _ fun i hi => ?_)
  rw [word_keyed _ _ _ hn hi,word_aesRound2 form _ hn,Aes.aesRoundLe_key _ _ hi]

def gathered (w : Words 64) (a b : Nat) : Words 8 :=
  upTo 4 (Words.zeros 8) fun i x => (x.write i (w.read (4*a + i))).write (4 + i) (w.read (4*b + i))

theorem word_gathered {n : Nat} (hn : n < 2) :
    word (gathered w a b) n = word w (if n = 0 then a else b) := by
  refine Words.ext _ _ fun i hi => ?_
  rw [word_read _ _ hi,word_read _ _ hi,gathered]
  interval_cases n <;> interval_cases i <;>
    simp (disch := decide) only [upTo,Words.read_write_self,Words.read_write_ne,if_true,if_false,
      Nat.reduceAdd,Nat.reduceMul,Nat.add_zero,Nat.one_ne_zero]

def scattered (w : Words 64) (x : Words 8) (a b : Nat) : Words 64 :=
  upTo 4 w fun i w => (w.write (4*a + i) (x.read i)).write (4*b + i) (x.read (4 + i))

theorem word_scattered (x : Words 8) (ha : a < 16) (hb : b < 16) (hab : a ≠ b) (n : Nat) :
    word (scattered w x a b) n =
      if n = a then word x 0 else if n = b then word x 1 else word w n := by
  refine Words.ext _ _ fun i hi => ?_
  rw [word_read _ _ hi,scattered]
  obtain rfl | hna := eq_or_ne n a
  · rw [if_pos rfl,word_read _ _ hi]
    interval_cases i <;>
      simp (disch := omega) only [upTo,Words.read_write_self,Words.read_write_ne,Nat.reduceAdd,
        Nat.reduceMul]
  · rw [if_neg hna]
    obtain rfl | hnb := eq_or_ne n b
    · rw [if_pos rfl,word_read _ _ hi]
      interval_cases i <;>
        simp (disch := omega) only [upTo,Words.read_write_self,Words.read_write_ne,Nat.reduceAdd,
          Nat.reduceMul]
    · rw [if_neg hnb,word_read _ _ hi]
      simp (disch := omega) only [upTo,Words.read_write_ne]

theorem word_pair (ha : a < 16) (hb : b < 16) (hr : r < 10) (hab : a ≠ b) (n : Nat) :
    word (echo512SubwordsPair form w cnt r a b) n =
      if n = a ∨ n = b then subWord cnt (16*r + n) (word w n) else word w n := by
  have hkey (n : Nat) (hn : n < 16) : echo512Key cnt (BitVec.ofNat 32 (16*r + n)) =
      counted^[16*r + n] cnt := echo512Key_count cnt (by omega)
  have hdef : echo512SubwordsPair form w cnt r a b = scattered w (aesRound2 form (keyed
      (aesRound2 form (gathered w a b)) (counted^[16*r + a] cnt) (counted^[16*r + b] cnt))) a b := by
    rw [← hkey a ha,← hkey b hb]
    rfl
  rw [hdef,word_scattered w _ ha hb hab]
  obtain rfl | hna := eq_or_ne n a
  · rw [if_pos rfl,if_pos (.inl rfl),word_rounds form _ _ _ (by decide),word_gathered w (by decide)]
    rfl
  · rw [if_neg hna]
    obtain rfl | hnb := eq_or_ne n b
    · rw [if_pos rfl,if_pos (.inr rfl),word_rounds form _ _ _ (by decide),
        word_gathered w (by decide)]
      rfl
    · rw [if_neg hnb,if_neg (by omega)]

theorem word_pairs (hr : r < 10) {n : Nat} (hn : n < 16) :
    word (upTo 8 w fun j w => echo512SubwordsPair form w cnt r (2*j) (2*j + 1)) n =
      subWord cnt (16*r + n) (word w n) := by
  refine upTo_once (fun u => word u n) (fun _ u => word u n = word w n) (by omega : n / 2 < 8) rfl
    ?_ ?_ ?_
  · intro j hj u hu
    rw [word_pair form u cnt (by omega) (by omega) hr (by omega),if_neg (by omega),hu]
  · intro u hu
    rw [word_pair form u cnt (by omega) (by omega) hr (by omega),if_pos (by omega),hu]
  · intro j hj hj' u
    rw [word_pair form u cnt (by omega) (by omega) hr (by omega),if_neg (by omega)]

end Pair

/-! ### The rows and the columns -/

section Mixing

variable {w : Words 64} {c row i : Nat}

def source (w : Words 64) (c i row : Nat) : Word := w.read (4*(4*((c + row) % 4) + row) + i)

def mixRow (f : Nat → Word) (row : Nat) : Word :=
  aesXtime4 (f row ^^^ f ((row + 1) % 4)) ^^^ f ((row + 1) % 4) ^^^
    (f ((row + 2) % 4) ^^^ f ((row + 3) % 4))

theorem byteOf_mixRow (f : Nat → Word) {r : Nat} (hrow : row < 4) (hr : r < 4) :
    Aes.byteOf (mixRow f row) r = mixed (fun row => Aes.byteOf (f row) r) row := by
  rw [mixRow,Aes.byteOf_xor,Aes.byteOf_xor,Aes.byteOf_xor,Aes.byteOf_aesXtime4 _ hr,Aes.byteOf_xor,
    Aes.mixed_eq _ hrow,← BitVec.xor_assoc]

theorem and_three (n : Nat) : n &&& 3 = n % 4 := Nat.and_two_pow_sub_one_eq_mod n 2

theorem glsl_bigShiftRows_read (hc : c < 4) (hrow : row < 4) (hi : i < 4) :
    (Glsl.bigShiftRows w).read (16*c + 4*row + i) = source w c i row := by
  obtain ⟨p,hp⟩ : ∃ p,p = 16*c + 4*row + i := ⟨_,rfl⟩
  let look (u : Words 64) : Word := u.read p
  rw [← hp]
  obtain rfl | hpos := Nat.eq_zero_or_pos row
  · -- The first row stays where it is.
    have hkeep : look (Glsl.bigShiftRows w) = look w := by
      refine upTo_keep look w fun c' hc' u => upTo_keep look u fun row' hrow' u =>
        upTo_keep look u fun i' hi' u => ?_
      exact Words.read_write_ne _ _ (by omega)
    refine hkeep.trans ?_
    rw [source,show 4*(4*((c + 0) % 4) + 0) + i = p from by omega]
  · refine upTo_sets look w hc (fun u => ?_) fun c' hc' hc₄ u => ?_
    · refine upTo_sets look u (by omega : row - 1 < 3) (fun u => ?_) fun row' hrow' h₃ u => ?_
      · refine upTo_sets look u hi (fun u => ?_) fun i' hi' h₄ u => ?_
        · rw [Nat.sub_add_cancel hpos,show 4*(4*c + row) + i = p from by omega,and_three]
          exact Words.read_write_self _ _ (by omega)
        · exact Words.read_write_ne _ _ (by omega)
      · exact upTo_keep look u fun i' hi' u => Words.read_write_ne _ _ (by omega)
    · exact upTo_keep look u fun row' hrow' u => upTo_keep look u fun i' hi' u =>
        Words.read_write_ne _ _ (by omega)

theorem bigShiftRows_read (hc : c < 4) (hrow : row < 4) (hi : i < 4) :
    (bigShiftRows w).read (4*(4*c + row) + i) = source w c i row := by
  obtain ⟨p,hp⟩ : ∃ p,p = 4*(4*c + row) + i := ⟨_,rfl⟩
  let look (u : Words 64) : Word := u.read p
  have hkeep (u : Words 64) (n : Nat) (x : Words 4) (hn : n < 16) (h : n ≠ 4*c + row) :
      look (putWord u n x) = look u := by
    show (putWord u n x).read p = u.read p
    rw [putWord_read _ _ _ (by omega),if_neg (by omega)]
  rw [← hp]
  refine upTo_sets look (Words.zeros 64) hc (fun u => ?_) fun c' hc' hc₄ u => ?_
  · refine upTo_sets look u hrow (fun u => ?_) fun row' hrow' h₄ u => hkeep _ _ _ (by omega) (by omega)
    show (putWord u (4*c + row) _).read p = _
    rw [putWord_read _ _ _ (by omega),if_pos (by omega),hp,Nat.add_sub_cancel_left,word_read _ _ hi,
      and_three,source]
  · exact upTo_keep look u fun row' hrow' u => hkeep _ _ _ (by omega) (by omega)

theorem bigMixColumn_read (u : Words 64) {c' i' : Nat} (hc : c < 4) (hrow : row < 4) (hi : i < 4)
    (hc' : c' < 4) (hi' : i' < 4) :
    (Glsl.bigMixColumn u c' i').read (16*c + 4*row + i) =
      if c = c' ∧ i = i' then mixRow (fun row => u.read (16*c + 4*row + i)) row
      else u.read (16*c + 4*row + i) := by
  by_cases h : c = c' ∧ i = i'
  · obtain ⟨rfl,rfl⟩ := h
    rw [if_pos ⟨rfl,rfl⟩,Glsl.bigMixColumn,mixRow]
    interval_cases row <;>
      simp (disch := omega) only [Words.read_write_self,Words.read_write_ne,Nat.reduceMul,
        Nat.reduceAdd,Nat.reduceMod,Nat.add_zero]
  · rw [if_neg h,Glsl.bigMixColumn]
    simp (disch := omega) only [Words.read_write_ne]

theorem echo512ShiftMix_read (hc : c < 4) (hrow : row < 4) (hi : i < 4) :
    (echo512ShiftMix w).read (16*c + 4*row + i) = mixRow (source w c i) row := by
  let look (u : Words 64) : Word := u.read (16*c + 4*row + i)
  let Left (u : Words 64) : Prop :=
    ∀ row < 4,u.read (16*c + 4*row + i) = source w c i row
  have hstep (c' i' : Nat) (hc' : c' < 4) (hi' : i' < 4) (h : ¬(c = c' ∧ i = i'))
      (u : Words 64) (hu : Left u) : Left (Glsl.bigMixColumn u c' i') := fun row hrow => by
    rw [bigMixColumn_read u hc hrow hi hc' hi',if_neg h,hu row hrow]
  have hkeep (c' i' : Nat) (hc' : c' < 4) (hi' : i' < 4) (h : ¬(c = c' ∧ i = i'))
      (u : Words 64) : look (Glsl.bigMixColumn u c' i') = look u :=
    (bigMixColumn_read u hc hrow hi hc' hi').trans (if_neg h)
  refine upTo_once look (fun _ => Left) hc (fun row hrow => glsl_bigShiftRows_read hc hrow hi) ?_ ?_ ?_
  · intro c' hc' u hu
    exact upTo_invariant (P := fun _ => Left) hu fun i' hi' u hu =>
      hstep c' i' (by omega) hi' (by omega) u hu
  · intro u hu
    refine upTo_once look (fun _ => Left) hi hu
      (fun i' hi' u hu => hstep c i' hc (by omega) (by omega) u hu) (fun u hu => ?_) fun i' hi' h₄ u => hkeep c i' hc h₄ (by omega) u
    refine (bigMixColumn_read u hc hrow hi hc hi).trans ?_
    rw [if_pos ⟨rfl,rfl⟩,mixRow,mixRow]
    simp (disch := omega) only [hu _ _]
  · intro c' hc' hc₄ u
    exact upTo_keep look u fun i' hi' u => hkeep c' i' hc₄ hi' (by omega) u

theorem byteOf_word {t : Words 64} (n : Nat) {q r : Nat} (hq : q < 4) (hr : r < 4) :
    byteOf (word t n) (4*q + r) = Aes.byteOf (t.read (4*n + q)) r := by
  have hplace : (4*q + r) >>> 2 = q := by
    rw [Nat.shiftRight_eq_div_pow]
    omega
  rw [byteOf,hplace,and_three,word_read _ _ hq,show (4*q + r) % 4 = r from by omega,Aes.byteOf]

theorem mixBytes_read (t : Words 64) (out : Words 16) {q j : Nat} (hrow : row < 4) (hq : q < 4)
    (hj : j < 16) : (mixBytes t c j out).read (4*row + q) =
      if j >>> 2 = q then out.read (4*row + q) |||
        ((mixed (fun row => byteOf (word t (4*c + row)) j) row).setWidth 32 <<< (8*(j &&& 3)))
      else out.read (4*row + q) := by
  let look (u : Words 16) : Word := u.read (4*row + q)
  have hlt : j >>> 2 < 4 := by
    rw [Nat.shiftRight_eq_div_pow]
    omega
  by_cases h : j >>> 2 = q
  · rw [if_pos h]
    refine upTo_once look (fun _ u => look u = look out) hrow rfl ?_ ?_ ?_
    · exact fun row' hrow' u hu => (Words.read_write_ne _ _ (by omega)).trans hu
    · intro u hu
      show (Words.write _ (4*row + j >>> 2) (u.read (4*row + j >>> 2) ||| _)).read (4*row + q) = _
      rw [h,Words.read_write_self _ _ (by omega),show u.read (4*row + q) = _ from hu]
      rfl
    · exact fun row' hrow' h₄ u => Words.read_write_ne _ _ (by omega)
  · rw [if_neg h]
    exact upTo_keep look out fun row' hrow' u => Words.read_write_ne _ _ (by omega)

theorem mixBytes_all (t : Words 64) {q : Nat} (hrow : row < 4) (hq : q < 4) :
    (upTo 16 (Words.zeros 16) fun j out => mixBytes t c j out).read (4*row + q) =
      packed fun r => mixed (fun row => byteOf (word t (4*c + row)) (4*q + r)) row := by
  let look (u : Words 16) : Word := u.read (4*row + q)
  let b (j : Nat) : Word := (mixed (fun row => byteOf (word t (4*c + row)) j) row).setWidth 32
  have h := upTo_hom look (Words.zeros 16) (f := fun j out => mixBytes t c j out)
    (g := fun j x => if j >>> 2 = q then x ||| (b j <<< (8*(j &&& 3))) else x)
    fun j hj out => mixBytes_read t out hrow hq hj
  refine h.trans ?_
  rw [show look (Words.zeros 16) = 0 from Words.read_zeros _ _,packed]
  interval_cases q <;>
    simp only [upTo,Nat.reduceShiftRight,Nat.reduceAnd,Nat.reduceMul,Nat.reduceAdd] <;> simp [b]

theorem bigMixColumns_read (t : Words 64) (hc : c < 4) (hrow : row < 4) (hi : i < 4)
    (ht : ∀ row < 4,∀ i < 4,t.read (4*(4*c + row) + i) = source w c i row) (u : Words 64) :
    (bigMixColumns u t).read (16*c + 4*row + i) = mixRow (source w c i) row := by
  have hrows := Words.read_rows (fun c j =>
    (upTo 16 (Words.zeros 16) fun i out => mixBytes t c i out).read j) u (by decide : 4*16 ≤ 64) hc
      (by omega : 4*row + i < 16)
  simp only [Nat.mul_comm _ 16,← Nat.add_assoc] at hrows
  refine hrows.trans ?_
  rw [mixBytes_all t hrow hi]
  refine Aes.ext_bytes fun r hr => ?_
  rw [Aes.byteOf_packed _ hr,byteOf_mixRow _ hrow hr,Aes.mixed_eq _ hrow,Aes.mixed_eq _ hrow]
  simp (disch := omega) only [byteOf_word _ hi hr,ht]

theorem echo512ShiftMix_eq (u w : Words 64) :
    echo512ShiftMix w = bigMixColumns u (bigShiftRows w) := by
  refine Words.ext _ _ fun p hp => ?_
  have hplace : p = 16*(p / 16) + 4*(p % 16 / 4) + p % 4 := by omega
  rw [hplace,echo512ShiftMix_read (by omega) (by omega) (by omega),
    bigMixColumns_read (w := w) _ (by omega) (by omega) (by omega)
      (fun row hrow i hi => bigShiftRows_read (by omega) hrow hi)]

end Mixing

/-! ### The compression -/

section Compression

variable (form : Form) (cnt : Words 4)

theorem subWord_add (k n : Nat) (x : Words 4) :
    subWord cnt (k + n) x = subWord (counted^[k] cnt) n x := by
  rw [subWord,subWord,Nat.add_comm,Function.iterate_add_apply]

theorem echo512Round_eq (w : Words 64) {r : Nat} (hr : r < 10) :
    echo512Round form w cnt r = (round ⟨w,counted^[16*r] cnt⟩).w := by
  have hpairs : (upTo 8 w fun j w => echo512SubwordsPair form w cnt r (2*j) (2*j + 1)) =
      (bigSubWords ⟨w,counted^[16*r] cnt⟩).w := ext_words (n := 16) rfl fun n hn => by
    rw [word_pairs form w cnt hr hn,bigSubWords_word _ _ hn,subWord_add]
  rw [echo512Round,hpairs,echo512ShiftMix_eq (bigSubWords ⟨w,counted^[16*r] cnt⟩).w,round]

theorem rounds_eq (w : Words 64) {n : Nat} (hn : n ≤ 10) :
    (upTo n ⟨w,cnt⟩ fun _ s => round s) =
      ⟨upTo n w fun r w => echo512Round form w cnt r,counted^[16*n] cnt⟩ := by
  induction n with
  | zero => rfl
  | succ n ih =>
    have hk (s : State) : (round s).k = counted^[16] s.k := by
      rw [round,bigSubWords_counter]
    rw [upTo,upTo,ih (by omega),echo512Round_eq form cnt _ (by omega)]
    generalize upTo n w _ = w
    have hcount : counted^[16*(n + 1)] cnt = counted^[16] (counted^[16*n] cnt) := by
      rw [← Function.iterate_add_apply,Nat.mul_succ,Nat.add_comm]
    rw [hcount,← hk ⟨w,_⟩]

theorem start_eq (v m : Words 32) (f : Nat → Word) (hf : ∀ i < 32,m.read i = f i) :
    (upTo 32 (Words.zeros 64) fun i w => (w.write i (v.read i)).write (32 + i) (m.read i)) =
      upTo 32 (upTo 32 (Words.zeros 64) fun i w => w.write i (v.read i)) fun i w =>
        w.write (32 + i) (f i) := by
  refine Words.ext _ _ fun p hp => ?_
  let look (u : Words 64) : Word := u.read p
  rw [Words.read_run _ _ 32 (by decide)]
  by_cases h : p < 32
  · rw [if_neg (by omega),Words.read_fill _ _ (by decide) h]
    refine upTo_sets look (Words.zeros 64) h (fun u => ?_) fun j hj hj' u => ?_
    · exact (Words.read_write_ne _ _ (by omega)).trans (Words.read_write_self _ _ hp)
    · exact (Words.read_write_ne _ _ (by omega)).trans (Words.read_write_ne _ _ (by omega))
  · rw [if_pos (by omega),← hf _ (by omega)]
    refine upTo_sets look (Words.zeros 64) (by omega : p - 32 < 32) (fun u => ?_)
      fun j hj hj' u => ?_
    · show (Words.write _ (32 + (p - 32)) _).read p = _
      rw [show 32 + (p - 32) = p from by omega,Words.read_write_self _ _ hp]
    · exact (Words.read_write_ne _ _ (by omega)).trans (Words.read_write_ne _ _ (by omega))

theorem echo512Compress_eq (v m : Words 32) (msg : List Byte)
    (hm : ∀ i < 32,m.read i = leWordAt msg i) :
    Glsl.echo512Compress form v m cnt = echo512Compress v msg cnt := by
  rw [Glsl.echo512Compress,echo512Compress,← start_eq v m _ hm,rounds_eq form cnt _ (Nat.le_refl 10)]
  exact upTo_congr v fun i hi v => by rw [hm i hi]

theorem echo512Compress_read (v m : Words 32) {i : Nat} (hi : i < 32) :
    let w := upTo 10 (upTo 32 (Words.zeros 64) fun i w =>
      (w.write i (v.read i)).write (32 + i) (m.read i)) fun r w => echo512Round form w cnt r
    (Glsl.echo512Compress form v m cnt).read i =
      v.read i ^^^ (m.read i ^^^ w.read i ^^^ w.read (32 + i)) := by
  let look (u : Words 32) : Word := u.read i
  refine upTo_once look (fun _ u => u.read i = v.read i) hi rfl ?_ ?_ ?_
  · exact fun j hj u hu => (Words.read_write_ne _ _ (by omega)).trans hu
  · intro u hu
    refine (Words.read_write_self _ _ hi).trans ?_
    rw [hu]
  · exact fun j hj hj' u => Words.read_write_ne _ _ (by omega)

end Compression

/-! ### Of 64 bytes -/

section Message

variable (s : Words 16)

def message : List Byte := (List.range 16).flatMap fun i => leBytes (s.read i)

def fixedWords : List Word := 0x80 :: List.replicate 10 0 ++ [0x02000000,512,0,0,0]

def blockWords : List Word := (List.range 16).map s.read ++ fixedWords

theorem message_eq : message s = ((List.range 16).map s.read).flatMap leBytes := by
  rw [message,List.flatMap_map]

theorem message_length : (message s).length = 64 := by
  simp [message,List.length_flatMap,leBytes]

theorem lastBlock_eq : (message s ++ 0x80 :: List.replicate 63 0).take 110 ++ [(0x00 : Byte),0x02] ++
    leBytes 512 ++ leBytes 0 ++ (message s ++ 0x80 :: List.replicate 63 0).drop 120 =
      (blockWords s).flatMap leBytes := by
  have hlen := message_length s
  rw [List.take_append,List.drop_append,hlen,List.take_of_length_le (by omega),
    List.drop_of_length_le (by omega),blockWords,List.flatMap_append,← message_eq]
  simp only [List.append_assoc]
  rfl

theorem echoBlock_read {i : Nat} (hi : i < 32) :
    (Glsl.echoBlock s).read i = (blockWords s).getD i 0 := by
  have hrun (m : Words 32) := Words.read_run (fun _ => 0) m 17 (by decide : 17 + 15 ≤ 32)
  rw [blockWords]
  by_cases h : i < 16
  · rw [Glsl.echoBlock,Words.read_write_ne _ _ (by omega),Words.read_write_ne _ _ (by omega),hrun,
      if_neg (by omega),Words.read_write_ne _ _ (by omega),Words.read_fill _ _ (by decide) h,
      List.getD_append _ _ _ _ (by simpa using h)]
    simp [h]
  · obtain ⟨j,rfl⟩ : ∃ j,i = 16 + j := ⟨i - 16,by omega⟩
    have hfixed : (List.map s.read (List.range 16) ++ fixedWords).getD (16 + j) 0 =
        fixedWords.getD j 0 := by
      rw [List.getD_append_right _ _ _ _ (by simp)]
      simp
    rw [hfixed,Glsl.echoBlock]
    have hj : j < 16 := by omega
    interval_cases j <;>
      simp (disch := decide) only [Words.read_write_self,Words.read_write_ne,hrun,Nat.reduceAdd,
        Nat.reduceLeDiff,Nat.reduceLT,and_true,if_true,if_false] <;> rfl

theorem echo512Iv_eq :
    (upTo 32 (Words.zeros 32) fun k v => v.write k (if k &&& 3 = 0 then 512 else 0)) = echo512Iv := by
  decide +kernel

theorem bits_eq : Glsl.bits = counter 512 := by decide

theorem echo512Full_message :
    echo512Full (message s) = (List.range 16).flatMap fun i =>
      leBytes ((echo512Compress echo512Iv ((blockWords s).flatMap leBytes) (counter 512)).read i) := by
  have hlen := message_length s
  have habsorbed : wholeBlocks ⟨echo512Iv,0,message s⟩ = ⟨echo512Iv,0,message s⟩ := by
    rw [wholeBlocks,if_neg (show ¬128 ≤ (message s).length by omega)]
  have hpadded : padded ⟨echo512Iv,0,message s⟩ 512 =
      (echo512Iv,message s ++ 0x80 :: List.replicate 63 0,counter 512) := by
    simp only [padded,hlen]
    rfl
  have hdone : (0 : BitVec 64) + BitVec.ofNat 64 (message s).length * 8 = 512 := by rw [hlen]; rfl
  rw [echo512Full,habsorbed]
  simp only [hdone,hpadded]
  rw [← lastBlock_eq]
  rfl

theorem digest_word {k : Nat} (hk : k < 16) : leWordAt (echo512Full (message s)) k =
    (echo512Compress echo512Iv ((blockWords s).flatMap leBytes) (counter 512)).read k := by
  have h := Sha256d.leWordAt_leBytes ((List.range 16).map
    (echo512Compress echo512Iv ((blockWords s).flatMap leBytes) (counter 512)).read) k
  rw [List.flatMap_map] at h
  rw [echo512Full_message,h]
  simp [hk]

theorem compress_block (form : Form) :
    Glsl.echo512Compress form echo512Iv (Glsl.echoBlock s) Glsl.bits =
      echo512Compress echo512Iv ((blockWords s).flatMap leBytes) (counter 512) := by
  rw [bits_eq]
  refine echo512Compress_eq form _ _ _ _ fun i hi => ?_
  rw [echoBlock_read s hi,Sha256d.leWordAt_leBytes]

theorem echo_read (form : Form) {k : Nat} (hk : k < 16) :
    (Glsl.echo Glsl.echoBlock form s).read k = leWordAt (echo512Full (message s)) k := by
  rw [digest_word s hk,← compress_block s form,Glsl.echo,echo512Iv_eq]
  exact Words.read_fill _ _ (Nat.le_refl 16) hk

/-! ### The screen -/

def startWords : Words 64 :=
  upTo 32 (Words.zeros 64) fun i w =>
    (w.write i (echo512Iv.read i)).write (32 + i) ((Glsl.echoBlock s).read i)

theorem startWords_read {p : Nat} (hp : p < 64) : (startWords s).read p =
    if p < 32 then echo512Iv.read p else (blockWords s).getD (p - 32) 0 := by
  rw [startWords,start_eq _ _ _ fun i hi => echoBlock_read s hi,Words.read_run _ _ 32 (by decide)]
  by_cases h : p < 32
  · rw [if_neg (by omega),Words.read_fill _ _ (by decide) h,if_pos h]
  · rw [if_pos (by omega),if_neg h]

def fixedWord (n : Nat) : Words 4 :=
  if n < 8 then quad 512 0 0 0
  else
    let place := 4*(n - 12)
    quad (fixedWords.getD place 0) (fixedWords.getD (place + 1) 0) (fixedWords.getD (place + 2) 0)
      (fixedWords.getD (place + 3) 0)

theorem iv_table : ∀ n < 8,∀ i < 4,echo512Iv.read (4*n + i) = (quad 512 0 0 0).read i := by
  decide

theorem word_startWords {n : Nat} (hn : n < 8 ∨ 12 ≤ n) (hn' : n < 16) :
    word (startWords s) n = fixedWord n := by
  refine Words.ext _ _ fun i hi => ?_
  rw [word_read _ _ hi,startWords_read s (by omega),fixedWord]
  by_cases h : n < 8
  · rw [if_pos (by omega),if_pos h,iv_table n h i hi]
  · have hplace : 4*n + i - 32 = 16 + (4*(n - 12) + i) := by omega
    have hlen : (List.map s.read (List.range 16)).length = 16 := by simp
    rw [if_neg (by omega),if_neg h,hplace,blockWords,List.getD_append_right _ _ _ _ (by omega),hlen,
      Nat.add_sub_cancel_left]
    interval_cases i <;> rfl

theorem first_table : ∀ n < 12,∀ i < 4,Glsl.kX11Echo0.read (4*n + i) =
    (Aes.lookedUp (Aes.lookedUp (fixedWord (if n < 8 then n else n + 4))
      (counted^[if n < 8 then n else n + 4] Glsl.bits)) (Words.zeros 4)).read i := by
  decide

theorem first_words {n : Nat} (hn : n < 12) {i : Nat} (hi : i < 4) :
    Glsl.kX11Echo0.read (4*n + i) =
      (subWord Glsl.bits (if n < 8 then n else n + 4) (fixedWord (if n < 8 then n else n + 4))).read i := by
  rw [first_table n hn i hi,subWord,Aes.aesRoundLe_lookedUp,Aes.lookedUp_none]

theorem qubit_first : Glsl.kQubitEcho0 = Glsl.kX11Echo0 := rfl

theorem screenFill_read (first : Words 48) (m : Words 32) {p : Nat} (hp : p < 64) :
    (upTo 16 (upTo 32 (Words.zeros 64) fun k w => w.write k (first.read k)) fun k w =>
      (w.write (32 + k) (m.read k)).write (48 + k) (first.read (32 + k))).read p =
        if p < 32 then first.read p else if p < 48 then m.read (p - 32) else first.read (p - 16) := by
  let look (u : Words 64) : Word := u.read p
  by_cases h : p < 32
  · rw [if_pos h,← Words.read_fill first.read (Words.zeros 64) (by decide : 32 ≤ 64) h]
    refine upTo_keep look _ fun j hj u => ?_
    exact (Words.read_write_ne _ _ (by omega)).trans (Words.read_write_ne _ _ (by omega))
  · rw [if_neg h]
    by_cases h' : p < 48
    · rw [if_pos h']
      refine upTo_sets look _ (by omega : p - 32 < 16) (fun u => ?_) fun j hj hj' u => ?_
      · refine (Words.read_write_ne _ _ (by omega)).trans ?_
        rw [show 32 + (p - 32) = p from by omega,Words.read_write_self _ _ hp]
      · exact (Words.read_write_ne _ _ (by omega)).trans (Words.read_write_ne _ _ (by omega))
    · rw [if_neg h']
      refine upTo_sets look _ (by omega : p - 48 < 16) (fun u => ?_) fun j hj hj' u => ?_
      · show (Words.write _ (48 + (p - 48)) (first.read (32 + (p - 48)))).read p = _
        rw [show 48 + (p - 48) = p from by omega,Words.read_write_self _ _ hp,
          show 32 + (p - 48) = p - 16 from by omega]
      · exact (Words.read_write_ne _ _ (by omega)).trans (Words.read_write_ne _ _ (by omega))

theorem word_screenStart (form : Form) {n : Nat} (hn : n < 16) :
    word (Glsl.screenStart form Glsl.kX11Echo0 (Glsl.echoBlock s)) n =
      subWord Glsl.bits n (word (startWords s) n) := by
  have hpair (w : Words 64) (a b n : Nat) (h : a < 16 ∧ b < 16 ∧ a ≠ b) :
      word (echo512SubwordsPair form w Glsl.bits 0 a b) n =
        if n = a ∨ n = b then subWord Glsl.bits n (word w n) else word w n := by
    rw [word_pair form w Glsl.bits h.1 h.2.1 (by decide) h.2.2,Nat.mul_zero,Nat.zero_add]
  rw [Glsl.screenStart,hpair _ 10 11 n (by decide),hpair _ 8 9 n (by decide)]
  by_cases h : n < 8 ∨ 12 ≤ n
  · rw [if_neg (by omega),if_neg (by omega),word_startWords s h hn]
    refine Words.ext _ _ fun i hi => ?_
    rw [word_read _ _ hi,screenFill_read _ _ (by omega)]
    by_cases h₈ : n < 8
    · have hfirst := first_words (by omega : n < 12) hi
      rw [if_pos h₈] at hfirst
      rw [if_pos (by omega),hfirst]
    · have hfirst := first_words (by omega : n - 4 < 12) hi
      rw [if_neg (by omega),Nat.sub_add_cancel (by omega)] at hfirst
      rw [if_neg (by omega),if_neg (by omega),← hfirst]
      congr 1
      omega
  · have hword : word (upTo 16 (upTo 32 (Words.zeros 64) fun k w =>
        w.write k (Glsl.kX11Echo0.read k)) fun k w => (w.write (32 + k)
          ((Glsl.echoBlock s).read k)).write (48 + k) (Glsl.kX11Echo0.read (32 + k))) n =
            word (startWords s) n := word_ext fun i hi => by
      rw [screenFill_read _ _ (by omega),if_neg (by omega),if_pos (by omega),
        startWords_read s (by omega),if_neg (by omega),echoBlock_read s (by omega)]
    obtain h₈ | h₁₀ : (n = 8 ∨ n = 9) ∨ n = 10 ∨ n = 11 := by omega
    · rw [if_neg (by omega),if_pos h₈,hword]
    · rw [if_pos h₁₀,if_neg (by omega),hword]

def roundsOf (form : Form) (n : Nat) : Words 64 :=
  upTo n (startWords s) fun r w => echo512Round form w Glsl.bits r

theorem screen_rounds (form : Form) :
    (upTo 8 (echo512ShiftMix (Glsl.screenStart form Glsl.kX11Echo0 (Glsl.echoBlock s))) fun r w =>
      echo512Round form w Glsl.bits (r + 1)) = roundsOf s form 9 := by
  have hfirst : Glsl.screenStart form Glsl.kX11Echo0 (Glsl.echoBlock s) =
      upTo 8 (startWords s) fun j w => echo512SubwordsPair form w Glsl.bits 0 (2*j) (2*j + 1) :=
    ext_words (n := 16) rfl fun n hn => by
      rw [word_screenStart s form hn,word_pairs form _ Glsl.bits (by decide) hn,Nat.mul_zero,
        Nat.zero_add]
  have hone : upTo 1 (startWords s) (fun r w => echo512Round form w Glsl.bits r) =
      echo512ShiftMix (Glsl.screenStart form Glsl.kX11Echo0 (Glsl.echoBlock s)) := by
    rw [upTo,upTo,echo512Round,hfirst]
  rw [roundsOf,show 9 = 1 + 8 from rfl,upTo_add,hone]
  exact upTo_congr _ fun r hr w => by rw [Nat.add_comm]

theorem word_screenEnd (form : Form) (w : Words 64) {n : Nat} (hn : n ∈ [0,2,5,7,8,10,13,15]) :
    word (Glsl.screenEnd form w) n = subWord Glsl.bits (16*9 + n) (word w n) := by
  have hpair (w : Words 64) (a b n : Nat) (h : a < 16 ∧ b < 16 ∧ a ≠ b) :=
    word_pair form w Glsl.bits h.1 h.2.1 (by decide : 9 < 10) h.2.2 n
  rw [Glsl.screenEnd,hpair _ 13 15 n (by decide),hpair _ 8 10 n (by decide),
    hpair _ 5 7 n (by decide),hpair _ 0 2 n (by decide)]
  simp only [List.mem_cons,List.not_mem_nil,or_false] at hn
  obtain rfl | rfl | rfl | rfl | rfl | rfl | rfl | rfl := hn <;>
    simp only [reduceCtorEq] <;> simp

theorem roundsOf_succ (form : Form) (n : Nat) :
    roundsOf s form (n + 1) = echo512Round form (roundsOf s form n) Glsl.bits n := by
  rw [roundsOf,upTo,roundsOf]

theorem screenWord_eq (form : Form) (m : Words 32) {i : Nat} (hi : i < 4) :
    Glsl.screenWord m (Glsl.screenEnd form (roundsOf s form 9)) i =
      m.read (4 + i) ^^^ (roundsOf s form 10).read (4 + i) ^^^ (roundsOf s form 10).read (36 + i) := by
  rw [roundsOf_succ s form 9,echo512Round]
  generalize roundsOf s form 9 = w
  have hread {n : Nat} (hn : n ∈ [0,2,5,7,8,10,13,15]) (hn' : n < 16) :
      (upTo 8 w fun j w => echo512SubwordsPair form w Glsl.bits 9 (2*j) (2*j + 1)).read (4*n + i) =
        (Glsl.screenEnd form w).read (4*n + i) := by
    rw [← word_read _ _ hi,← word_read _ _ hi,word_pairs form w Glsl.bits (by decide) hn',
      word_screenEnd form w hn]
  revert hread
  generalize upTo 8 w _ = u
  generalize Glsl.screenEnd form w = e
  intro hread
  have hrow (c : Nat) (hc : c < 4) : (echo512ShiftMix u).read (16*c + 4 + i) =
      mixRow (source u c i) 1 := echo512ShiftMix_read (w := u) hc (by decide : 1 < 4) hi
  have h₀ := hrow 0 (by decide)
  have h₂ := hrow 2 (by decide)
  simp only [mixRow,source,Nat.reduceAdd,Nat.reduceMod,Nat.reduceMul,Nat.add_zero,Nat.zero_add] at h₀ h₂
  rw [h₀,h₂]
  have e₀ := hread (n := 0) (by decide) (by decide)
  have e₂ := hread (n := 2) (by decide) (by decide)
  have e₅ := hread (n := 5) (by decide) (by decide)
  have e₇ := hread (n := 7) (by decide) (by decide)
  have e₈ := hread (n := 8) (by decide) (by decide)
  have e₁₀ := hread (n := 10) (by decide) (by decide)
  have e₁₃ := hread (n := 13) (by decide) (by decide)
  have e₁₅ := hread (n := 15) (by decide) (by decide)
  simp only [Nat.reduceMul,Nat.zero_add] at e₀ e₂ e₅ e₇ e₈ e₁₀ e₁₃ e₁₅
  simp only [e₀,e₂,e₅,e₇,e₈,e₁₀,e₁₃,e₁₅,Glsl.screenWord,← BitVec.xor_assoc]

theorem echoScreen_read (form : Form) {i : Nat} (hi : i < 2) :
    (Glsl.echoScreen Glsl.echoBlock Glsl.kX11Echo0 form s).read i =
      leWordAt (echo512Full (message s)) (6 + i) := by
  have hiv : ∀ i < 2,echo512Iv.read (6 + i) = 0 := by decide
  have hcompress : (Glsl.echo512Compress form echo512Iv (Glsl.echoBlock s) Glsl.bits).read (6 + i) =
      echo512Iv.read (6 + i) ^^^ ((Glsl.echoBlock s).read (6 + i) ^^^
        (roundsOf s form 10).read (6 + i) ^^^ (roundsOf s form 10).read (32 + (6 + i))) :=
    echo512Compress_read form Glsl.bits echo512Iv (Glsl.echoBlock s) (by omega : 6 + i < 32)
  rw [hiv i hi,BitVec.ofNat_eq_ofNat,BitVec.zero_xor] at hcompress
  rw [digest_word s (by omega),← compress_block s form,hcompress,Glsl.echoScreen,
    Words.read_fill _ _ (Nat.le_refl 2) hi,screen_rounds,screenWord_eq s form _ (by omega)]
  rw [show 4 + (i + 2) = 6 + i from by omega,show 36 + (i + 2) = 32 + (6 + i) from by omega]

/-- What the host has of the last stage. -/
def hash : Words 8 := upTo 8 (Words.zeros 8) fun i out =>
  out.write i (leWordAt (echo512Full (message s)) i)

theorem hash_read {i : Nat} (hi : i < 8) : (hash s).read i = leWordAt (echo512Full (message s)) i :=
  Words.read_fill _ _ (Nat.le_refl 8) hi

theorem lastStage_eq (form : Form) (target : Words 8) (nonce : Word) :
    Glsl.lastStage (Glsl.echoScreen Glsl.echoBlock Glsl.kX11Echo0) (Glsl.echo Glsl.echoBlock) form
      #v[target.read 6,target.read 7] nonce s =
        if Sha256d.fulltest (hash s) (Screen.screenedTarget 64 target) 8 then
          some ⟨nonce,0,hash s⟩
        else none := by
  have hemitted : (upTo 8 (Words.zeros 8) fun k hash =>
      hash.write k ((Glsl.echo Glsl.echoBlock form s).read k)) = hash s :=
    Words.ext _ _ fun k hk => by
      rw [Words.read_fill _ _ (Nat.le_refl 8) hk,echo_read s form (by omega),hash_read s hk]
  have h₀ := echoScreen_read s form (i := 0) (by decide)
  have h₁ := echoScreen_read s form (i := 1) (by decide)
  rw [← hash_read s (by decide)] at h₀ h₁
  simp only [Glsl.lastStage]
  rw [hemitted,h₀,h₁]
  exact Screen.screened_some (hash s) target _

theorem echoScreen_eq (form : Form) : Glsl.echoScreen Glsl.echoBlock Glsl.kX11Echo0 form s =
    #v[leWordAt (echo512Full (message s)) 6,leWordAt (echo512Full (message s)) 7] := by
  refine Words.ext _ _ fun i hi => ?_
  rw [echoScreen_read s form hi]
  interval_cases i <;> rfl

theorem echo_bytes (form : Form) :
    ((List.range 16).flatMap fun k => leBytes ((Glsl.echo Glsl.echoBlock form s).read k)) =
      echo512Full (message s) := by
  rw [echo512Full_message]
  refine List.flatMap_congr fun k hk => ?_
  have hk := List.mem_range.mp hk
  rw [echo_read s form hk,digest_word s hk]

/-- Both kernels: the words that the screen looks at are the host's, so is the whole digest, and a
nonce is dropped when the host's digest fails on those words and only then. -/
theorem screens_agree (form : Form) (target : Words 8) (nonce : Word) :
    (Glsl.x11EchoScreen form s =
        #v[leWordAt (echo512Full (message s)) 6,leWordAt (echo512Full (message s)) 7] ∧
      ((List.range 16).flatMap fun k => leBytes ((Glsl.x11Echo form s).read k)) =
        echo512Full (message s) ∧
      Glsl.x11Tail form #v[target.read 6,target.read 7] nonce s =
        if Sha256d.fulltest (hash s) (Screen.screenedTarget 64 target) 8 then
          some ⟨nonce,0,hash s⟩
        else none) ∧
    Glsl.qubitEchoScreen form s =
        #v[leWordAt (echo512Full (message s)) 6,leWordAt (echo512Full (message s)) 7] ∧
      ((List.range 16).flatMap fun k => leBytes ((Glsl.qubitEcho form s).read k)) =
        echo512Full (message s) ∧
      Glsl.qubitSearch form #v[target.read 6,target.read 7] nonce s =
        if Sha256d.fulltest (hash s) (Screen.screenedTarget 64 target) 8 then
          some ⟨nonce,0,hash s⟩
        else none := by
  have hscreen := echoScreen_eq s form
  have hwhole := echo_bytes s form
  have hstage := lastStage_eq s form target nonce
  have hqubit : Glsl.qubitEchoScreen form s = Glsl.x11EchoScreen form s := by
    rw [Glsl.qubitEchoScreen,qubit_first]
    rfl
  have hsearch : Glsl.qubitSearch form #v[target.read 6,target.read 7] nonce s =
      Glsl.x11Tail form #v[target.read 6,target.read 7] nonce s := by
    simp only [Glsl.qubitSearch,Glsl.x11Tail,Glsl.lastStage,hqubit]
    rfl
  rw [hqubit,hsearch]
  exact ⟨⟨hscreen,hwhole,hstage⟩,hscreen,hwhole,hstage⟩

end Message

end VkMiner.Echo
