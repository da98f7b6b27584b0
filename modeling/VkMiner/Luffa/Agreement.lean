import VkMiner.Luffa.Lanes
import VkMiner.Sha256d.Digest
set_option autoImplicit false

/-! The qubit kernel's first stage against the host's Luffa-512: the injection is linear in the
message, so the nonce can be put in after it. -/

namespace VkMiner.Luffa
open Loops Sha256d Glsl

variable {x y : Words 8} {nonce w : Word} {i j k : Nat}

/-! ### The nonce through the injection -/

theorem mul2_eq (s : Words 8) : mul2 s =
    #v[s.read 7,s.read 0 ^^^ s.read 7,s.read 1,s.read 2 ^^^ s.read 7,s.read 3 ^^^ s.read 7,
      s.read 4,s.read 5,s.read 6] := by
  refine Words.ext _ _ fun k hk => ?_
  simp only [mul2]
  interval_cases k <;>
    simp (disch := decide) only [Words.read_write_self,Words.read_write_ne] <;> rfl

theorem mul2_xor (x y : Words 8) : mul2 (xor8 x y) = xor8 (mul2 x) (mul2 y) := by
  refine Words.ext _ _ fun k hk => ?_
  rw [xor8_read _ _ hk,mul2_eq,mul2_eq,mul2_eq]
  simp (disch := decide) only [xor8_read]
  interval_cases k <;> simp only [Words.read,Vector.getElem?_mk,List.getElem?_toArray,
    List.getElem?_cons_zero,List.getElem?_cons_succ,Option.getD_some] <;> ac_rfl

/-- A lane's words that are all zero but the word `3 + j`. -/
def bump (j : Nat) (w : Word) : Words 8 := (Words.zeros 8).write (3 + j) w

theorem bump_read (w : Word) (hj : j < 5) (k : Nat) :
    (bump j w).read k = if k = 3 + j then w else 0 := by
  rw [bump]
  obtain rfl | hne := eq_or_ne k (3 + j)
  · rw [if_pos rfl,Words.read_write_self _ _ (by omega)]
  · rw [if_neg hne,Words.read_write_ne _ _ hne.symm,Words.read_zeros]

theorem mul2_bump (w : Word) (hj : j < 4) : mul2 (bump j w) = bump (j + 1) w := by
  refine Words.ext _ _ fun k hk => ?_
  rw [mul2_eq,bump_read w (by omega)]
  simp (disch := omega) only [bump_read]
  interval_cases j <;> interval_cases k <;> simp [Words.read]

theorem lane_mi (u : Lanes) (m : Words 8) (hj : j < 5) :
    lane (luffa512Mi u m) j = xor8 (lane (mixLanes u) j) (mul2^[j] m) := by
  rw [luffa512Mi]
  generalize mixLanes u = u
  interval_cases j <;>
    simp (disch := decide) only [upTo,injectLane,xor8At,lane_set_self,lane_set_ne] <;> rfl

theorem iterate_bump (m : Words 8) (w : Word) (hj : j < 5) :
    mul2^[j] (xor8 m (bump 0 w)) = xor8 (mul2^[j] m) (bump j w) := by
  induction j with
  | zero => rfl
  | succ j ih =>
    rw [Function.iterate_succ_apply',ih (by omega),mul2_xor,mul2_bump w (by omega),
      Function.iterate_succ_apply']

theorem xor8_assoc (x y z : Words 8) : xor8 (xor8 x y) z = xor8 x (xor8 y z) := by
  refine Words.ext _ _ fun k hk => ?_
  simp (disch := assumption) only [xor8_read,BitVec.xor_assoc]

theorem mi_bump (u : Lanes) (m : Words 8) (w : Word) (hj : j < 5) :
    lane (luffa512Mi u (xor8 m (bump 0 w))) j =
      xor8 (lane (luffa512Mi u m) j) (bump j w) := by
  rw [lane_mi _ _ hj,lane_mi _ _ hj,iterate_bump m w hj,xor8_assoc]

theorem rotl_xor (x y : Word) {n : Nat} (hn : n ≤ 32) : rotl (x ^^^ y) n = rotl x n ^^^ rotl y n := by
  refine BitVec.eq_of_getLsbD_eq fun i hi => ?_
  by_cases h : i < n
  · simp [rotl,h]
  · have hx (x : Word) : x.getLsbD (32 - n + i) = false := BitVec.getLsbD_of_ge x _ (by omega)
    simp [rotl,h,hi,hx]

theorem tweak_read (x : Words 8) (j : Nat) (hk : k < 8) :
    (tweak x j).read k = if 0 < j ∧ 4 ≤ k then rotl (x.read k) j else x.read k := by
  rw [tweak]
  by_cases hj : 0 < j
  · rw [if_pos hj,Words.read_update (g := fun k => rotl (x.read (4 + k)) j) x 4 (by omega)
      (fun c _ u hu => by rw [hu _ (by omega)])]
    by_cases h : 4 ≤ k
    · rw [if_pos (by omega),if_pos ⟨hj,h⟩,Nat.add_sub_cancel' h]
    · rw [if_neg (by omega),if_neg (by omega)]
  · rw [if_neg hj,if_neg (by omega)]

theorem tweak_bump (x : Words 8) (w : Word) (hj : j < 5) :
    tweak (xor8 x (bump j w)) j = xor8 (tweak x j) (bump j (if 0 < j then rotl w j else w)) := by
  refine Words.ext _ _ fun k hk => ?_
  rw [tweak_read _ _ hk,xor8_read _ _ hk,xor8_read _ _ hk,tweak_read _ _ hk,bump_read _ hj,
    bump_read _ hj]
  by_cases h : 0 < j ∧ 4 ≤ k
  · rw [if_pos h,if_pos h,if_pos h.1,rotl_xor _ _ (by omega)]
    split
    · rfl
    · simp [rotl]
  · rw [if_neg h,if_neg h]
    split
    · rw [if_neg (by omega)]
    · rfl

/-! ### The array of the uniform block -/

theorem loadJob_vectors (v : Words 40) : loadJob ⟨vectors v⟩ = v := by
  have hvec (k : Nat) (hk : k < 10) : (vectors v)[k]?.getD (Words.zeros 4) =
      #v[v.read (4*k),v.read (4*k + 1),v.read (4*k + 2),v.read (4*k + 3)] := by
    simp [vectors,hk]
  refine Words.ext _ _ fun j hj => ?_
  suffices hrun : ∀ m ≤ 10,∀ j < 4*m,(upTo m (Words.zeros 40) fun k u =>
      let w : Words 4 := (vectors v)[k]?.getD (Words.zeros 4)
      let u := (u.write (4*k) (w.read 0)).write (4*k + 1) (w.read 1)
      (u.write (4*k + 2) (w.read 2)).write (4*k + 3) (w.read 3)).read j = v.read j from
    hrun 10 (Nat.le_refl 10) j (by omega)
  intro m hm
  induction m with
  | zero => intro j hj; omega
  | succ m ih =>
    intro j hj
    rw [upTo]
    simp only [hvec m hm]
    by_cases h : j < 4*m
    · simp (disch := omega) only [Words.read_write_ne]
      exact ih (by omega) j h
    · obtain rfl | rfl | rfl | rfl : j = 4*m ∨ j = 4*m + 1 ∨ j = 4*m + 2 ∨ j = 4*m + 3 := by omega
      all_goals
        simp (disch := omega) only [Words.read_write_self,Words.read_write_ne]
        rfl

theorem laneOf_stored (u : Lanes) (hi : i < 5) :
    laneOf (upTo 5 (Words.zeros 40) fun j out => upTo 8 out fun k out =>
      let word := (lane u j).read k
      out.write (8*j + k) (if 0 < j ∧ 4 ≤ k then rotl word j else word)) i =
        tweak (lane u i) i := by
  refine laneOf_ext fun k hk => ?_
  have h := Words.read_rows (k := 8) (fun j k =>
    if 0 < j ∧ 4 ≤ k then rotl ((lane u j).read k) j else (lane u j).read k) (Words.zeros 40)
    (by omega : 5*8 ≤ 40) hi hk
  rw [tweak_read _ _ hk,← h]
  simp only [Nat.mul_comm]

theorem laneOf_nonce (v : Words 40) (w : Word) (hi : i < 5) (hj : j = 8*i + (3 + i)) :
    laneOf (v.write j (v.read j ^^^ w)) i = xor8 (laneOf v i) (bump i w) := by
  subst hj
  refine Words.ext _ _ fun k hk => ?_
  rw [laneOf_write v _ hi (by omega),xor8_read _ _ hk,bump_read w hi]
  obtain rfl | hne := eq_or_ne k (3 + i)
  · rw [Words.read_write_self _ _ hk,if_pos rfl,laneOf_read v i hk]
  · rw [Words.read_write_ne _ _ hne.symm,if_neg hne,show (0 : Word) = 0#32 from rfl,BitVec.xor_zero]

theorem laneOf_passes (v : Words 40) (nonce : Word) (hi : i < 5) {m : Nat} (hm : m ≤ 4) :
    laneOf (upTo m v fun i v =>
      let j := 1 + i
      v.write (9*j + 3) (v.read (9*j + 3) ^^^ Progpow.Glsl.rotl32 nonce (BitVec.ofNat 32 j))) i =
        if 0 < i ∧ i ≤ m then xor8 (laneOf v i) (bump i (rotl nonce i)) else laneOf v i := by
  induction m with
  | zero => rw [upTo,if_neg (by omega)]
  | succ m ih =>
    have ih := ih (by omega)
    have hm : m < 4 := hm
    simp only [upTo]
    obtain rfl | hne := eq_or_ne i (1 + m)
    · rw [laneOf_nonce _ _ hi (by omega),ih,if_neg (by omega),if_pos (by omega)]
      interval_cases m <;> rfl
    · rw [show 9*(1 + m) + 3 = 8*(1 + m) + (3 + (1 + m)) by omega,
        laneOf_write_ne _ _ hne (by omega),ih]
      simp only [show 0 < i ∧ i ≤ m + 1 ↔ 0 < i ∧ i ≤ m by omega]

theorem laneOf_nonces (v : Words 40) (nonce : Word) (hi : i < 5) :
    laneOf (upTo 4 (v.write 3 (v.read 3 ^^^ nonce)) fun i v =>
      let j := 1 + i
      v.write (9*j + 3) (v.read (9*j + 3) ^^^ Progpow.Glsl.rotl32 nonce (BitVec.ofNat 32 j))) i =
        xor8 (laneOf v i) (bump i (if 0 < i then rotl nonce i else nonce)) := by
  rw [laneOf_passes _ _ hi (Nat.le_refl 4)]
  by_cases h : 0 < i
  · rw [if_pos ⟨h,by omega⟩,if_pos h,show 3 = 8*0 + 3 from rfl,
      laneOf_write_ne v _ (by omega) (by omega)]
  · rw [if_neg fun h' => h h'.1,if_neg h]
    obtain rfl : i = 0 := by omega
    exact laneOf_nonce v nonce hi rfl

/-! ### Blocks -/

theorem lanes_block (v : Words 40) {m : Words 8} {block : List Byte}
    (hm : ∀ k < 8, m.read k = wordAt block k) :
    lanes (Glsl.luffa512Block v m) = luffa512Block (lanes v) block := by
  have hm' : m = upTo 8 (Words.zeros 8) fun j m => m.write j (wordAt block j) :=
    Words.ext _ _ fun k hk => by rw [hm k hk,Words.read_fill _ _ (Nat.le_refl 8) hk]
  refine lanes_ext fun i hi => ?_
  rw [lane_lanes _ hi,Glsl.luffa512Block,laneOf_steps _ hi,laneOf_inject _ _ hi,luffa512Block,
    lane_each (fun j lane => luffa512Permute lane j) _ (Nat.le_refl 5) hi,if_pos hi,← hm']
  rfl

theorem luffa512Block_congr (u : Lanes) {p q : List Byte}
    (h : ∀ k < 8, wordAt p k = wordAt q k) : luffa512Block u p = luffa512Block u q := by
  have hm : (upTo 8 (Words.zeros 8) fun j m => m.write j (wordAt p j)) =
      upTo 8 (Words.zeros 8) fun j m => m.write j (wordAt q j) :=
    upTo_congr _ fun k hk m => by rw [h k hk]
  rw [luffa512Block,hm,luffa512Block]

def twoBlocks (header : Words 20) : Lanes :=
  luffa512Block (luffa512Block luffa512Iv (encode (headerWords header 0)))
    (encode ((headerWords header 0).drop 8))

def lastWords (header : Words 20) (nonce : Word) : List Word :=
  (headerWords header nonce).drop 16 ++ [0x80000000,0,0,0]

theorem wholeBlocks_header (header : Words 20) (nonce : Word) :
    wholeBlocks luffa512Iv (encode (headerWords header nonce)) =
      (twoBlocks header,encode ((headerWords header nonce).drop 16)) := by
  have hl := headerWords_length header nonce
  have hd : (encode (headerWords header nonce)).drop 32 =
      encode ((headerWords header nonce).drop 8) := (encode_cut (c := 8) (by omega)).2
  have hd' : (encode ((headerWords header nonce).drop 8)).drop 32 =
      encode ((headerWords header nonce).drop 16) := by
    rw [(encode_cut (c := 8) (by rw [List.length_drop]; omega)).2,List.drop_drop]
  have hfirst : luffa512Block luffa512Iv (encode (headerWords header nonce)) =
      luffa512Block luffa512Iv (encode (headerWords header 0)) :=
    luffa512Block_congr _ fun k hk => by
      rw [wordAt_encode,wordAt_encode,headerWords_getD _ _ (by omega),headerWords_getD _ _ (by omega)]
  have hsecond (u : Lanes) : luffa512Block u (encode ((headerWords header nonce).drop 8)) =
      luffa512Block u (encode ((headerWords header 0).drop 8)) :=
    luffa512Block_congr _ fun k hk => by
      have h := (headerWords_getD header nonce (by omega : 8 + k < 19)).trans
        (headerWords_getD header 0 (by omega)).symm
      simpa only [wordAt_encode,List.getD_eq_getElem?_getD,List.getElem?_drop] using h
  rw [wholeBlocks,if_pos (by rw [encode_length,hl]; omega),hd,wholeBlocks,
    if_pos (by rw [encode_length,List.length_drop,hl]; omega),hd',wholeBlocks,
    if_neg (by rw [encode_length,List.length_drop,hl]; omega),hfirst,hsecond]
  rfl

theorem luffa512Full_header (header : Words 20) (nonce : Word) :
    luffa512Full (encode (headerWords header nonce)) =
      blankBlocks (luffa512Block (twoBlocks header) (encode (lastWords header nonce))) := by
  have hl : (encode ((headerWords header nonce).drop 16)).length = 16 := by
    rw [encode_length,List.length_drop,headerWords_length]
  have hpad : (0x80 : Byte) :: List.replicate (31 - 16) 0 = encode [0x80000000,0,0,0] := by decide
  rw [luffa512Full,wholeBlocks_header]
  simp only [hl]
  rw [hpad,lastWords,encode_append]

theorem blankBlocks_eq (v : Lanes) : blankBlocks v =
    let v₁ := luffa512Block v (List.replicate 32 0)
    let v₂ := luffa512Block v₁ (List.replicate 32 0)
    encode ((List.range 8).map (laneSum v₁)) ++ encode ((List.range 8).map (laneSum v₂)) := by
  simp only [blankBlocks,upTo,List.nil_append]

/-! ### The stage -/

/-- The words of the third block are those that the host's precomputation injects, but for the
nonce. -/
theorem lastWords_getD (header : Words 20) (nonce : Word) (hk : k < 8) :
    (lastWords header nonce).getD k 0 =
      if k = 3 then nonce else (zeroedWords (encode (headerWords header 0))).read k := by
  have hd : (encode (headerWords header 0)).drop 64 = encode ((headerWords header 0).drop 16) :=
    (encode_cut (c := 16) (by rw [headerWords_length]; omega)).2
  have hl (nonce : Word) : ((headerWords header nonce).drop 16).length = 4 := by
    rw [List.length_drop,headerWords_length]
  have hend : ((headerWords header nonce).drop 16).getD 3 0 = nonce := by
    have hlen : (header.toList.take 19).length = 19 := by simp
    rw [List.getD_eq_getElem?_getD,List.getElem?_drop,headerWords,
      List.getElem?_append_right (by rw [hlen]),hlen]
    rfl
  rw [lastWords,zeroedWords,hd]
  by_cases h : k < 4
  · rw [List.getD_append _ _ _ _ (by rw [hl]; omega)]
    by_cases h3 : k = 3
    · rw [if_pos h3,h3,hend]
    · have hg := (headerWords_getD header nonce (by omega : 16 + k < 19)).trans
        (headerWords_getD header 0 (by omega)).symm
      simp (disch := omega) only [Words.read_write_ne]
      rw [if_neg h3,Words.read_fill _ _ (by omega : 3 ≤ 8) (by omega),wordAt_encode]
      simpa only [List.getD_eq_getElem?_getD,List.getElem?_drop] using hg
  · rw [List.getD_append_right _ _ _ _ (by rw [hl]; omega),hl,if_neg (by omega)]
    interval_cases k <;> simp (disch := decide) only [Words.read_write_ne,Words.read_write_self] <;> rfl

theorem lastBlock_words (header : Words 20) (nonce : Word) :
    (upTo 8 (Words.zeros 8) fun j m => m.write j (wordAt (encode (lastWords header nonce)) j)) =
      xor8 (zeroedWords (encode (headerWords header 0))) (bump 0 nonce) := by
  have hzero : (zeroedWords (encode (headerWords header 0))).read 3 = 0#32 := by
    simp (disch := decide) only [zeroedWords,Words.read_write_ne,Words.read_write_self]
    rfl
  refine Words.ext _ _ fun k hk => ?_
  rw [Words.read_fill _ _ (Nat.le_refl 8) hk,wordAt_encode,lastWords_getD _ _ hk,xor8_read _ _ hk,
    bump_read _ (by omega)]
  by_cases h : k = 3
  · rw [if_pos h,if_pos h,h,hzero,BitVec.zero_xor]
  · rw [if_neg h,if_neg h,show (0 : Word) = 0#32 from rfl,BitVec.xor_zero]

theorem laneOf_precompute (header : Words 20) (hi : i < 5) :
    laneOf (luffa51280Precompute (encode (headerWords header 0))) i =
      tweak (lane (luffa512Mi (twoBlocks header)
        (zeroedWords (encode (headerWords header 0)))) i) i := by
  have hd : (encode (headerWords header 0)).drop 32 = encode ((headerWords header 0).drop 8) :=
    (encode_cut (c := 8) (by rw [headerWords_length]; omega)).2
  rw [luffa51280Precompute,laneOf_stored _ hi,hd,twoBlocks]

theorem lanes_third (header : Words 20) (nonce : Word) :
    let v := luffa51280Precompute (encode (headerWords header 0))
    lanes (luffa512Steps (upTo 4 (v.write 3 (v.read 3 ^^^ nonce)) fun i v =>
      let j := 1 + i
      v.write (9*j + 3) (v.read (9*j + 3) ^^^ Progpow.Glsl.rotl32 nonce (BitVec.ofNat 32 j)))) =
        luffa512Block (twoBlocks header) (encode (lastWords header nonce)) := by
  intro v
  refine lanes_ext fun i hi => ?_
  rw [lane_lanes _ hi,laneOf_steps _ hi,laneOf_nonces _ _ hi,laneOf_precompute _ hi,
    ← tweak_bump _ _ hi,← mi_bump _ _ _ hi,luffa512Block,lastBlock_words,
    lane_each (fun j lane => luffa512Permute lane j) _ (Nat.le_refl 5) hi,if_pos hi]
  rfl

theorem luffa512Out_eq (v : Words 40) (hk : k < 8) : luffa512Out v k = laneSum (lanes v) k := by
  simp (disch := omega) only [luffa512Out,laneSum,lane_lanes,laneOf_read,Nat.mul_zero,
    Nat.zero_add,Nat.mul_one]

theorem blank_read (hk : k < 8) :
    (upTo 8 (Words.zeros 8) fun k m => m.write k 0).read k = wordAt (List.replicate 32 0) k := by
  have hz : (List.replicate 32 0 : List Byte) = encode (List.replicate 8 0) := zero_bytes 8
  rw [Words.read_fill (fun _ => 0) _ (Nat.le_refl 8) hk,hz,wordAt_encode,List.getD_replicate _ hk]

theorem digest_bytes (f g : Nat → Word) :
    (upTo 8 (upTo 8 (Words.zeros 16) fun k s => s.write k (Progpow.Glsl.bswap32 (f k)))
      fun k s => s.write (8 + k) (Progpow.Glsl.bswap32 (g k))).toList.flatMap leBytes =
        encode ((List.range 8).map f) ++ encode ((List.range 8).map g) := by
  have hrange : List.range 16 = List.range 8 ++ (List.range 8).map (8 + ·) := rfl
  have hlow (k : Nat) (hk : k ∈ List.range 8) :
      leBytes ((upTo 8 (upTo 8 (Words.zeros 16) fun k s => s.write k (Progpow.Glsl.bswap32 (f k)))
        fun k s => s.write (8 + k) (Progpow.Glsl.bswap32 (g k))).read k) = beBytes (f k) := by
    have hk := List.mem_range.mp hk
    rw [Words.read_run _ _ _ (by omega),if_neg (by omega),
      Words.read_fill _ _ (by omega : 8 ≤ 16) hk,leBytes_bswap]
  have hhigh (k : Nat) (hk : k ∈ List.range 8) :
      leBytes ((upTo 8 (upTo 8 (Words.zeros 16) fun k s => s.write k (Progpow.Glsl.bswap32 (f k)))
        fun k s => s.write (8 + k) (Progpow.Glsl.bswap32 (g k))).read (8 + k)) =
          beBytes (g k) := by
    have hk := List.mem_range.mp hk
    rw [Words.read_run _ _ _ (by omega),if_pos (by omega),Nat.add_sub_cancel_left,leBytes_bswap]
  rw [words_toList,hrange]
  simp only [List.map_append,List.flatMap_append,List.flatMap_map,encode]
  rw [List.flatMap_congr hlow,List.flatMap_congr hhigh]

/-- The first stage gives the bytes of the host's Luffa-512 of the header with the nonce. -/
theorem qubit_luffa_eq (header : Words 20) (target : Option (Words 8)) (start : BitVec 64)
    (count capacity nonce : Word) :
    ∃ job,prepareUniform ⟨some header,target,start,count,capacity⟩ uniformBytes = some job ∧
      (qubitLuffa job nonce).toList.flatMap leBytes =
        luffa512Full (encode (header.toList.take 19 ++ [nonce])) := by
  refine ⟨_,rfl,?_⟩
  have hdata : encode (header.toList.take 19) ++ List.replicate 4 0 =
      encode (headerWords header 0) := by
    rw [headerWords,encode_append]
    rfl
  have hthird := lanes_third header nonce
  have hblank (v : Words 40) := lanes_block v (fun k hk => blank_read hk)
  have hfull := luffa512Full_header header nonce
  have hout (v : Words 40) : (List.range 8).map (luffa512Out v) =
      (List.range 8).map (laneSum (lanes v)) :=
    List.map_congr_left fun k hk => luffa512Out_eq v (List.mem_range.mp hk)
  rw [blankBlocks_eq,← hthird] at hfull
  simp only [← hblank] at hfull
  rw [← headerWords,hfull,hdata,qubitLuffa,loadJob_vectors,digest_bytes,hout,hout]

end VkMiner.Luffa
