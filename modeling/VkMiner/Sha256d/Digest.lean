import VkMiner.Progpow.Bits
import VkMiner.Sha256d.Host
set_option autoImplicit false

/-! The host's SHA-256 over words: what a message of whole words comes to. -/

namespace VkMiner.Sha256d
open Loops Sha256

variable {n lo hi : Nat} {m : Nat → Word} {w : Words n}

theorem round_eq (k w : Word) (v : Vars) : round k w v = v.step k w := rfl

theorem rounds_eq (h : Filled m lo hi w) (v : Vars) {c : Nat} (hlo : lo = 0) (hc : c ≤ hi) :
    (upTo c v fun i v => round (K.read i) (w.read i) v) = rounds K.read (schedule m) 0 c v := by
  subst hlo
  rw [← h.rounds v (Nat.le_refl 0) (by omega : 0 + c ≤ hi)]
  refine upTo_congr v fun i hi v => ?_
  rw [round_eq,Nat.zero_add]

theorem sha256Transform_eq (state : Words 8) (block : List Byte) :
    sha256Transform state block = compress K.read (wordAt block) state := by
  have hblock : Filled (wordAt block) 0 16
      (upTo 16 (Words.zeros 64) fun i w => w.write i (wordAt block i)) := by
    intro j _ hj
    rw [Words.read_fill (wordAt block) _ (by omega) hj,schedule_block _ hj]
  have hfull := hblock.expand (c := 48) (by omega) (by omega)
  rw [sha256Transform,compress]
  exact congrArg (Vars.feed state) (rounds_eq hfull (.load state) rfl (by omega))

/-! ### Words and their bytes -/

theorem word_bytes (x : Word) : wordAt (beBytes x) 0 = x := by
  refine BitVec.eq_of_getLsbD_eq fun i hi => ?_
  simp only [wordAt,beBytes,List.getD_cons_zero,List.getD_cons_succ,Nat.zero_mul,Nat.zero_add]
  interval_cases i <;> simp

theorem getD_next (x : Word) (bytes : List Byte) (i j : Nat) :
    (beBytes x ++ bytes).getD ((i + 1)*4 + j) 0 = bytes.getD (i*4 + j) 0 := by
  have h : (i + 1)*4 + j = i*4 + j + 4 := by omega
  rw [h]
  rfl

theorem wordAt_next (x : Word) (bytes : List Byte) (i : Nat) :
    wordAt (beBytes x ++ bytes) (i + 1) = wordAt bytes i := by
  have h₀ := getD_next x bytes i 0
  simp only [Nat.add_zero] at h₀
  simp only [wordAt,h₀,getD_next]

theorem wordAt_encode (ws : List Word) (i : Nat) : wordAt (encode ws) i = ws.getD i 0 := by
  induction ws generalizing i with
  | nil => simp [wordAt,encode]
  | cons x ws ih =>
    cases i with
    | zero => exact word_bytes x
    | succ i => exact (wordAt_next x (encode ws) i).trans (ih i)

theorem words_toList {n : Nat} (v : Words n) : v.toList = (List.range n).map v.read := by
  refine List.ext_getElem (by simp) fun i h _ => ?_
  have hi : i < n := by simpa using h
  simp [Words.read_of_lt v hi]

def headerWords (header : Words 20) (nonce : Word) : List Word := header.toList.take 19 ++ [nonce]

theorem headerWords_length (header : Words 20) (nonce : Word) :
    (headerWords header nonce).length = 20 := by
  simp [headerWords]

theorem headerWords_getD {k : Nat} (header : Words 20) (nonce : Word) (hk : k < 19) :
    (headerWords header nonce).getD k 0 = header.read k := by
  rw [headerWords,words_toList]
  interval_cases k <;> rfl

theorem leWord_bytes (x : Word) : leWordAt (beBytes x) 0 = Progpow.Glsl.bswap32 x := by
  refine BitVec.eq_of_getLsbD_eq fun i hi => ?_
  simp only [leWordAt,beBytes,Progpow.Glsl.bswap32,List.getD_cons_zero,List.getD_cons_succ,
    Nat.zero_mul,Nat.zero_add]
  interval_cases i <;> simp

theorem swap_swap (x : Word) : Progpow.Glsl.bswap32 (Progpow.Glsl.bswap32 x) = x := by
  refine BitVec.eq_of_getLsbD_eq fun i hi => ?_
  simp only [Progpow.Glsl.bswap32]
  interval_cases i <;> simp

def leBytes (x : Word) : List Byte :=
  [x.setWidth 8,(x >>> 8).setWidth 8,(x >>> 16).setWidth 8,(x >>> 24).setWidth 8]

theorem leBytes_bswap (x : Word) : leBytes (Progpow.Glsl.bswap32 x) = beBytes x := by
  simp only [leBytes,beBytes,Progpow.Glsl.bswap32,List.cons.injEq,and_true]
  refine ⟨?_,?_,?_,?_⟩ <;>
  · refine BitVec.eq_of_getLsbD_eq fun i hi => ?_
    interval_cases i <;> simp

theorem leWordAt_next (x : Word) (bytes : List Byte) (i : Nat) :
    leWordAt (beBytes x ++ bytes) (i + 1) = leWordAt bytes i := by
  have h₀ := getD_next x bytes i 0
  simp only [Nat.add_zero] at h₀
  simp only [leWordAt,h₀,getD_next]

theorem leWordAt_encode (ws : List Word) (i : Nat) :
    leWordAt (encode ws) i = leWordAt (beBytes (ws.getD i 0)) 0 := by
  induction ws generalizing i with
  | nil => simp [leWordAt,encode,beBytes]
  | cons x ws ih =>
    cases i with
    | zero => rfl
    | succ i => exact (leWordAt_next x (encode ws) i).trans (ih i)

theorem leBytes_eq (x : Word) : leBytes x = beBytes (Progpow.Glsl.bswap32 x) := by
  simp only [leBytes,beBytes,Progpow.Glsl.bswap32,List.cons.injEq,and_true]
  refine ⟨?_,?_,?_,?_⟩ <;>
  · refine BitVec.eq_of_getLsbD_eq fun i hi => ?_
    interval_cases i <;> simp

theorem leWordAt_leBytes (ws : List Word) (i : Nat) :
    leWordAt (ws.flatMap leBytes) i = ws.getD i 0 := by
  have hbytes : ws.flatMap leBytes = encode (ws.map Progpow.Glsl.bswap32) := by
    rw [encode,List.flatMap_map]
    exact List.flatMap_congr fun x _ => leBytes_eq x
  have hget : (ws.map Progpow.Glsl.bswap32).getD i 0 = Progpow.Glsl.bswap32 (ws.getD i 0) := by
    rw [List.getD_eq_getElem?_getD,List.getElem?_map,List.getD_eq_getElem?_getD]
    cases ws[i]? with
    | none => rfl
    | some x => rfl
  rw [hbytes,leWordAt_encode,hget,← leBytes_eq]
  refine BitVec.eq_of_getLsbD_eq fun j hj => ?_
  simp only [leWordAt,leBytes,List.getD_cons_zero,List.getD_cons_succ,Nat.zero_mul,Nat.zero_add]
  interval_cases j <;> simp

theorem encode_append (ws ws' : List Word) : encode (ws ++ ws') = encode ws ++ encode ws' :=
  List.flatMap_append

theorem encode_length (ws : List Word) : (encode ws).length = 4*ws.length := by
  induction ws with
  | nil => rfl
  | cons x ws ih =>
    have h : encode (x :: ws) = beBytes x ++ encode ws := rfl
    rw [h,List.length_append,ih,List.length_cons,Nat.mul_succ,Nat.add_comm]
    rfl

theorem encode_cut {ws : List Word} {c : Nat} (hc : c ≤ ws.length) :
    (encode ws).take (4*c) = encode (ws.take c) ∧ (encode ws).drop (4*c) = encode (ws.drop c) := by
  have hl : (encode (ws.take c)).length = 4*c := by
    rw [encode_length,List.length_take,Nat.min_eq_left hc]
  have he : encode ws = encode (ws.take c) ++ encode (ws.drop c) := by
    rw [← encode_append,List.take_append_drop]
  rw [he]
  exact ⟨List.take_left' hl,List.drop_left' hl⟩

/-! ### Whole messages -/

def lastBlock (ws : List Word) (len : Nat) : List Word :=
  ws ++ (0x80000000 : Word) :: List.replicate (13 - ws.length) 0 ++
    [((BitVec.ofNat 64 len * 8) >>> 32).setWidth 32,(BitVec.ofNat 64 len * 8).setWidth 32]

theorem zero_bytes (c : Nat) : List.replicate (4*c) 0 = encode (List.replicate c 0) := by
  induction c with
  | zero => rfl
  | succ c ih => rw [Nat.mul_succ,Nat.add_comm,List.replicate_add,ih]; rfl

theorem length_bytes (len : Nat) : lengthBytes len =
    encode [((BitVec.ofNat 64 len * 8) >>> 32).setWidth 32,
      (BitVec.ofNat 64 len * 8).setWidth 32] := by
  simp only [lengthBytes,encode,beBytes,List.flatMap_cons,List.flatMap_nil,List.append_nil,
    List.cons_append,List.nil_append]
  generalize BitVec.ofNat 64 len * 8 = bits
  simp only [List.cons.injEq,and_true]
  refine ⟨?_,?_,?_,?_,?_,?_,?_,?_⟩ <;>
  · refine BitVec.eq_of_getLsbD_eq fun i hi => ?_
    interval_cases i <;> simp

theorem tailOf_encode {ws : List Word} (h : ws.length < 14) (len : Nat) :
    tailOf (encode ws) len = encode (lastBlock ws len) := by
  have hl := encode_length ws
  have hz : 64 - (encode ws).length - 9 = 3 + 4*(13 - ws.length) := by omega
  have hpad : (0x80 : Byte) :: List.replicate (3 + 4*(13 - ws.length)) 0 =
      encode (0x80000000 :: List.replicate (13 - ws.length) 0) := by
    rw [List.replicate_add,zero_bytes]
    rfl
  simp only [tailOf]
  rw [if_pos (by omega),hz,hpad,length_bytes,lastBlock,encode_append,encode_append]

theorem wholeBlocks_short {p : List Byte} (h : p.length < 64) (state : Words 8) :
    wholeBlocks state p = (state,p) := by
  rw [wholeBlocks,if_neg (by omega)]

theorem sha256Full_short {ws : List Word} (h : ws.length < 14) :
    sha256Full (encode ws) =
      encode (compress K.read ((lastBlock ws (4*ws.length)).getD · 0) IV).toList := by
  have hl := encode_length ws
  simp only [sha256Full,wholeBlocks_short (by omega : (encode ws).length < 64)]
  rw [if_pos (by omega),tailOf_encode h,sha256Transform_eq,hl,
    compress_congr fun i _ => wordAt_encode _ i]

theorem sha256Full_long {ws : List Word} (h : 16 ≤ ws.length) (h' : ws.length < 30) :
    sha256Full (encode ws) =
      encode (compress K.read ((lastBlock (ws.drop 16) (4*ws.length)).getD · 0)
        (compress K.read ((ws.take 16).getD · 0) IV)).toList := by
  have hl := encode_length ws
  have ht : (encode ws).take 64 = encode (ws.take 16) := (encode_cut h).1
  have hd : (encode ws).drop 64 = encode (ws.drop 16) := (encode_cut h).2
  have hr : (ws.drop 16).length < 14 := by
    rw [List.length_drop]
    omega
  have hlr := encode_length (ws.drop 16)
  have hw : wholeBlocks IV (encode ws) =
      (compress K.read ((ws.take 16).getD · 0) IV,encode (ws.drop 16)) := by
    rw [wholeBlocks,if_pos (by omega)]
    rw [ht,hd,wholeBlocks_short (by omega),sha256Transform_eq,
      compress_congr fun i _ => wordAt_encode _ i]
  simp only [sha256Full,hw]
  rw [if_pos (by omega),tailOf_encode hr,sha256Transform_eq,hl,
    compress_congr fun i _ => wordAt_encode _ i]

/-- What is left of a message of words, hashed on from a state. -/
def closed (state : Words 8) (ws : List Word) (len : Nat) : Words 8 :=
  if 16 ≤ ws.length then closed (compress K.read ((ws.take 16).getD · 0) state) (ws.drop 16) len
  else compress K.read ((lastBlock ws len).getD · 0) state
termination_by ws.length

theorem closed_block {block : List Word} (hb : block.length = 16) (state : Words 8) (ws : List Word)
    (len : Nat) :
    closed state (block ++ ws) len = closed (compress K.read (block.getD · 0) state) ws len := by
  have hlong : 16 ≤ (block ++ ws).length := by
    rw [List.length_append]
    omega
  rw [closed,if_pos hlong,List.take_left' hb,List.drop_left' hb]

theorem closed_last {ws : List Word} (h : ws.length < 16) (state : Words 8) (len : Nat) :
    closed state ws len = compress K.read ((lastBlock ws len).getD · 0) state := by
  rw [closed,if_neg (by omega)]

theorem wholeBlocks_closed (state : Words 8) (ws : List Word) (len : Nat)
    (h : ws.length % 16 < 14) :
    (wholeBlocks state (encode ws)).2.length < 56 ∧
      sha256Transform (wholeBlocks state (encode ws)).1 (tailOf (wholeBlocks state (encode ws)).2 len) =
        closed state ws len := by
  induction state,ws using closed.induct with
  | case1 state ws hlong ih =>
    have ht : (encode ws).take 64 = encode (ws.take 16) := (encode_cut hlong).1
    have hd : (encode ws).drop 64 = encode (ws.drop 16) := (encode_cut hlong).2
    have hl := encode_length ws
    have hw : wholeBlocks state (encode ws) =
        wholeBlocks (compress K.read ((ws.take 16).getD · 0) state) (encode (ws.drop 16)) := by
      rw [wholeBlocks,if_pos (by omega),ht,hd,sha256Transform_eq,
        compress_congr fun i _ => wordAt_encode _ i]
    have hrest : (ws.drop 16).length % 16 < 14 := by
      rw [List.length_drop]
      omega
    rw [hw,closed,if_pos hlong]
    exact ih hrest
  | case2 state ws hshort =>
    have hl := encode_length ws
    have hlast : (encode ws).length < 56 := by omega
    rw [wholeBlocks_short (by omega)]
    refine ⟨hlast,?_⟩
    rw [tailOf_encode (by omega),sha256Transform_eq,closed,if_neg hshort,
      compress_congr fun i _ => wordAt_encode _ i]

theorem sha256Full_words {ws : List Word} (h : ws.length % 16 < 14) :
    sha256Full (encode ws) = encode (closed IV ws (4*ws.length)).toList := by
  obtain ⟨hrest,hclosed⟩ := wholeBlocks_closed IV ws (4*ws.length) h
  simp only [sha256Full,if_pos hrest,encode_length,hclosed]

end VkMiner.Sha256d
