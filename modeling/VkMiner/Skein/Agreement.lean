import VkMiner.Host.Screen
import VkMiner.Sha256d.Agreement
import VkMiner.Skein.Threefish
set_option autoImplicit false

/-! The skein kernel and the host find the same nonces, with the same hashes. -/

namespace VkMiner.Skein
open Loops Halves Sha256 Glsl Screen
open Progpow (Candidate)
open Progpow.Glsl (bswap32)
open Sha256d (Word Byte Dispatch K IV encode beBytes leBytes leWordAt swapped fulltest sha256Full
  headerWords headerWords_length)
open Sha256d.Glsl (sha256Iv assign)

variable {ws ws' : List Word} {block block' : List Byte} {m : Nat → Word} {w : Words 64} {i : Nat}

/-! ### Blocks of words -/

theorem le64At_eq (block : List Byte) (i : Nat) :
    le64At block i = int64.tlane (leWordAt block (2*i)) (leWordAt block (2*i + 1)) := by
  have hlo : 2*i*4 = i*8 := by omega
  have hhi : (2*i + 1)*4 = i*8 + 4 := by omega
  simp only [le64At,int64,leWordAt,hlo,hhi]
  generalize block.getD (i*8) 0 = b0
  generalize block.getD (i*8 + 1) 0 = b1
  generalize block.getD (i*8 + 2) 0 = b2
  generalize block.getD (i*8 + 3) 0 = b3
  generalize block.getD (i*8 + 4) 0 = b4
  generalize block.getD (i*8 + 5) 0 = b5
  generalize block.getD (i*8 + 6) 0 = b6
  generalize block.getD (i*8 + 7) 0 = b7
  refine BitVec.eq_of_getLsbD_eq fun i hi => ?_
  interval_cases i <;> simp

theorem leBytes64_eq (x : Word64) : leBytes64 x = leBytes (int64.tlo x) ++ leBytes (int64.thi x) := by
  rw [leBytes64,show List.range 8 = [0,1,2,3,4,5,6,7] from rfl]
  simp only [List.map_cons,List.map_nil,leBytes,int64,List.cons_append,List.nil_append,
    List.cons.injEq,and_true]
  refine ⟨?_,?_,?_,?_,?_,?_,?_,?_⟩ <;>
  · refine BitVec.eq_of_getLsbD_eq fun i hi => ?_
    interval_cases i <;> simp

/-- A word of a block of 32-bit words, each with its highest byte first. -/
def pairAt (ws : List Word) (i : Nat) : Word64 :=
  int64.tlane (bswap32 (ws.getD (2*i) 0)) (bswap32 (ws.getD (2*i + 1) 0))

theorem blockWords_read (ws : List Word) (hi : i < 8) :
    (blockWords (encode ws)).read i = pairAt ws i := by
  rw [blockWords,Cells.read_fill _ _ (Nat.le_refl 8),if_pos hi,le64At_eq,
    Sha256d.leWordAt_encode,Sha256d.leWordAt_encode,Sha256d.leWord_bytes,Sha256d.leWord_bytes,pairAt]

theorem blockWords_congr (h : ∀ j < 16,ws.getD j 0 = ws'.getD j 0) :
    blockWords (encode ws) = blockWords (encode ws') := by
  refine Cells.ext _ _ fun i hi => ?_
  rw [blockWords_read ws hi,blockWords_read ws' hi,pairAt,pairAt,h _ (by omega),h _ (by omega)]

/-! ### The host's messages -/

theorem padded_eq (hws : ws.length ≤ 16) :
    blockWords (encode ws ++ List.replicate (64 - 4*ws.length) 0) = blockWords (encode ws) := by
  have hpad : encode ws ++ List.replicate (64 - 4*ws.length) 0 =
      encode (ws ++ List.replicate (16 - ws.length) 0) := by
    rw [Sha256d.encode_append,← Sha256d.zero_bytes,
      show 4*(16 - ws.length) = 64 - 4*ws.length from by omega]
  rw [hpad]
  refine blockWords_congr fun j _ => ?_
  rw [List.getD_eq_getElem?_getD,List.getD_eq_getElem?_getD,List.getElem?_append]
  split
  case isTrue => rfl
  case isFalse h =>
    rw [List.getElem?_replicate,List.getElem?_eq_none (Nat.not_lt.mp h)]
    split <;> rfl

section Passes

variable (h : Cells Word64 8) {data : List Byte} (type : Word64) {done : Nat} (first : Bool)

theorem ubiFrom_more (hmore : done + 64 < data.length) : ubiFrom h data type done first =
    ubiFrom (ubiBlock h (tweakOf (done + 64) type first false)
      (blockWords ((data.drop done).take 64))) data type (done + 64) false := by
  have htake : min (data.length - done) 64 = 64 := by omega
  have hfinal : (done + 64 == data.length) = false := beq_eq_false_iff_ne.mpr (by omega)
  rw [ubiFrom,htake,if_pos hmore,hfinal]
  exact congrArg (fun b => ubiFrom (ubiBlock h _ (blockWords b)) data type (done + 64) false)
    (List.append_nil _)

theorem ubiFrom_last (hstart : done ≤ data.length) (hlast : data.length ≤ done + 64) :
    ubiFrom h data type done first = ubiBlock h (tweakOf data.length type first true)
      (blockWords (data.drop done ++ List.replicate (64 - (data.length - done)) 0)) := by
  have htake : min (data.length - done) 64 = data.length - done := by omega
  have hdone : done + (data.length - done) = data.length := by omega
  have hall : (data.drop done).take (data.length - done) = data.drop done :=
    List.take_of_length_le (by rw [List.length_drop])
  rw [ubiFrom,htake,hdone,if_neg (Nat.lt_irrefl _),hall,beq_self_eq_true]

end Passes

theorem ubi_words (h : Cells Word64 8) (type : Word64) (first : Bool) {c : Nat}
    (hc : c ≤ ws.length) (hlast : ws.length ≤ c + 16) :
    ubiFrom h (encode ws) type (4*c) first = ubiBlock h (tweakOf (4*ws.length) type first true)
      (blockWords (encode (ws.drop c))) := by
  have hl := Sha256d.encode_length ws
  have hd : (encode ws).drop (4*c) = encode (ws.drop c) := (Sha256d.encode_cut hc).2
  have hrest : 64 - ((encode ws).length - 4*c) = 64 - 4*(ws.drop c).length := by
    rw [List.length_drop]
    omega
  rw [ubiFrom_last h type first (by omega) (by omega),hrest,hd,padded_eq (by rw [List.length_drop]; omega),hl]

/-- What Skein comes to before its output block: the block without the nonce, and the one with. -/
theorem ubi_header (header : Words 20) (nonce : Word) :
    ubi512 skein512Iv (encode (headerWords header nonce)) typeMsg =
      ubiBlock (skein512Midstate (encode (header.toList.take 19))) (tweakOf 80 typeMsg false true)
        (blockWords (encode [header.read 16,header.read 17,header.read 18,nonce])) := by
  have hlen := headerWords_length header nonce
  have hl : (encode (headerWords header nonce)).length = 80 := by
    rw [Sha256d.encode_length,hlen]
  have ht : (encode (headerWords header nonce)).take 64 =
      encode ((headerWords header nonce).take 16) := (Sha256d.encode_cut (c := 16) (by omega)).1
  have hd : (headerWords header nonce).drop 16 =
      [header.read 16,header.read 17,header.read 18,nonce] := by
    rw [headerWords,Sha256d.words_toList]
    rfl
  have hfirst : blockWords (encode ((headerWords header nonce).take 16)) =
      blockWords (encode (header.toList.take 19)) := by
    refine blockWords_congr fun j hj => ?_
    rw [headerWords,Sha256d.words_toList]
    interval_cases j <;> rfl
  have hmore := ubiFrom_more skein512Iv typeMsg true
    (by omega : 0 + 64 < (encode (headerWords header nonce)).length)
  rw [ubi512,hmore,List.drop_zero,ht,hfirst]
  have hlast := ubi_words (ubiBlock skein512Iv (tweakOf (0 + 64) typeMsg true false)
    (blockWords (encode (header.toList.take 19)))) typeMsg false
    (by omega : 16 ≤ (headerWords header nonce).length) (by omega)
  rw [hd,hlen] at hlast
  exact hlast

theorem ubi_output (h : Cells Word64 8) : ubi512 h (List.replicate 8 0) typeOut =
    ubiBlock h (tweakOf 8 typeOut true true) (blockWords (encode [0,0])) := by
  exact ubi_words h typeOut true (by decide : 0 ≤ ([0,0] : List Word).length) (by decide)

def skeinWords (header : Words 20) (nonce : Word) : Cells Word64 8 :=
  ubi512 (ubi512 skein512Iv (encode (headerWords header nonce)) typeMsg) (List.replicate 8 0) typeOut

/-! ### The device's blocks -/

theorem tlane_halves (x : Word64) : int64.tlane (x.setWidth 32) ((x >>> 32).setWidth 32) = x :=
  (join_eq _).symm.trans (join_split x)

structure Pushed (header : Words 20) (push : SkeinPush) : Prop where
  low : ∀ i < 8,push.midstate.read (2*i) =
    ((skein512Midstate (encode (header.toList.take 19))).read i).setWidth 32
  high : ∀ i < 8,push.midstate.read (2*i + 1) =
    ((skein512Midstate (encode (header.toList.take 19))).read i >>> 32).setWidth 32
  tail : ∀ i < 3,push.tail.read i = bswap32 (header.read (16 + i))

theorem skeinOf_eq {header : Words 20} {push : SkeinPush} (hp : Pushed header push) (nonce : Word) :
    skeinOf int64 push nonce = skeinWords header nonce := by
  have hstate : (upTo 8 (Cells.blank 8) fun i (h : Cells Word64 8) => h.write i
      (int64.tlane (push.midstate.read (2*i)) (push.midstate.read (2*i + 1)))) =
        skein512Midstate (encode (header.toList.take 19)) := by
    refine Cells.ext _ _ fun i hi => ?_
    rw [Cells.read_fill _ _ (Nat.le_refl 8),if_pos hi,hp.low i hi,hp.high i hi,tlane_halves]
  have hmessage : (upTo 6 (((Cells.blank 8).write 0 (int64.tlane (push.tail.read 0)
      (push.tail.read 1))).write 1 (int64.tlane (push.tail.read 2) (bswap32 nonce)))
        fun i (m : Cells Word64 8) => m.write (2 + i) (int64.tlane 0 0)) =
          blockWords (encode [header.read 16,header.read 17,header.read 18,nonce]) := by
    refine Cells.ext _ _ fun i hi => ?_
    have hnone : int64.tlane 0 0 = int64.tlane (bswap32 0) (bswap32 0) := by decide
    rw [blockWords_read _ hi,hp.tail 0 (by decide),hp.tail 1 (by decide),hp.tail 2 (by decide)]
    simp only [upTo]
    interval_cases i <;>
      simp (disch := decide) only [Cells.read_write_self,Cells.read_write_ne] <;>
        first | rfl | exact hnone
  have hzero (m : Cells Word64 8) : (upTo 8 m fun i m => m.write i (int64.tlane 0 0)) =
      blockWords (encode [0,0]) := by
    refine Cells.ext _ _ fun i hi => ?_
    rw [blockWords_read _ hi,Cells.read_fill _ _ (Nat.le_refl 8),if_pos hi]
    interval_cases i <;> decide
  have hmsg : #v[int64.tlane 80 0,int64.tlane 0 (kSkeinT1Msg ||| kSkeinT1Final)] =
      tweakOf 80 typeMsg false true := by decide
  have hout : #v[int64.tlane 8 0,int64.tlane 0 (kSkeinT1Out ||| kSkeinT1First ||| kSkeinT1Final)] =
      tweakOf 8 typeOut true true := by decide
  rw [skeinOf,hstate,hmessage,ubi_eq,ubi_eq,hzero,hmsg,hout,skeinWords,ubi_output,ubi_header]

/-! ### SHA-256 of the digest -/

theorem round8_eq (w : Words 64) (i : Nat) (v : Vars) :
    round8 w i v = rounds K.read w.read i 8 v := Sha256d.sha256dRound8_eq w i v

theorem filled_sched8 {lo : Nat} (h : Filled m lo i w) (hlo : lo + 16 ≤ i) (hi : i + 8 ≤ 64) :
    Filled m lo (i + 8) (sched8 w i) := Sha256d.filled_sched8 h hlo hi

theorem skeinSha256Block_eq (state : Words 8) (w : Words 64) :
    (skeinSha256Block state w).1 = compress K.read w.read state := by
  have h : Filled w.read 0 16 w := fun j _ hj => (schedule_block _ hj).symm
  have h := filled_sched8 (filled_sched8 h (by omega) (by omega)) (by omega) (by omega)
  have h := filled_sched8 (filled_sched8 h (by omega) (by omega)) (by omega) (by omega)
  have h := filled_sched8 (filled_sched8 h (by omega) (by omega)) (by omega) (by omega)
  simp only [skeinSha256Block,round8_eq]
  rw [eights _ _ 8,eights _ _ 16,eights _ _ 24,eights _ _ 32,eights _ _ 40,eights _ _ 48,
    eights _ _ 56,
    h.rounds _ (Nat.le_refl 0) (by omega),compress]

def digestWords (h : Cells Word64 8) : List Word :=
  (List.range 8).flatMap fun i => [bswap32 (int64.tlo (h.read i)),bswap32 (int64.thi (h.read i))]

theorem digest_bytes (h : Cells Word64 8) :
    (List.range 8).flatMap (fun i => leBytes64 (h.read i)) = encode (digestWords h) := by
  rw [digestWords,encode,List.flatMap_assoc]
  refine List.flatMap_congr fun i _ => ?_
  rw [leBytes64_eq,Sha256d.leBytes_eq,Sha256d.leBytes_eq]
  rfl

theorem messageWords_read (garbage : Words 64) (h : Cells Word64 8) (hi : i < 16) :
    (messageWords int64 garbage h).read i = (digestWords h).getD i 0 := by
  simp only [messageWords,upTo]
  interval_cases i <;>
    simp (disch := decide) only [Words.read_write_self,Words.read_write_ne,Nat.reduceMul,
      Nat.reduceAdd] <;> rfl

def finalState (h : Cells Word64 8) : Words 8 :=
  compress K.read ((Sha256d.lastBlock [] 64).getD · 0) (compress K.read ((digestWords h).getD · 0) IV)

theorem shaOf_eq (garbage : Words 64) (h : Cells Word64 8) :
    shaOf int64 garbage h = finalState h := by
  have hopen : shaOf int64 garbage h =
      (skeinSha256Block (skeinSha256Block sha256Iv (messageWords int64 garbage h)).1
        (assign (skeinSha256Block sha256Iv (messageWords int64 garbage h)).2 0
          [0x80000000,0,0,0,0,0,0,0,0,0,0,0,0,0,0,512])).1 := rfl
  rw [hopen,skeinSha256Block_eq,skeinSha256Block_eq,finalState,Sha256d.sha256Iv_eq,
    compress_congr (fun i hi => messageWords_read garbage h hi)]
  refine compress_congr (fun i hi => ?_) _
  generalize (skeinSha256Block IV (messageWords int64 garbage h)).2 = w
  simp only [assign]
  interval_cases i <;>
    simp (disch := decide) only [Words.read_write_self,Words.read_write_ne,Nat.reduceAdd] <;> rfl

theorem sha256Full_digest (h : Cells Word64 8) :
    sha256Full (encode (digestWords h)) = encode (finalState h).toList := by
  have hl : (digestWords h).length = 16 := rfl
  rw [Sha256d.sha256Full_long (by omega) (by omega)]
  rfl

theorem hash_eq (header : Words 20) (nonce : Word) :
    hash header (nonce.setWidth 64) = swapped (finalState (skeinWords header nonce)) := by
  have hlow : (nonce.setWidth 64).setWidth 32 = nonce := by
    rw [BitVec.setWidth_setWidth_of_le nonce (by omega),BitVec.setWidth_eq]
  have hdigest : sha256Full (skein512Full (encode (header.toList.take 19 ++ [nonce]))) =
      encode (finalState (skeinWords header nonce)).toList := by
    rw [skein512Full,digest_bytes,sha256Full_digest]
    rfl
  rw [hash,hlow,hdigest]
  refine Words.ext _ _ fun i hi => ?_
  rw [Words.read_fill _ _ (Nat.le_refl 8) hi,Sha256d.swapped_read _ hi,Sha256d.leWordAt_encode,
    Sha256d.leWord_bytes,Sha256d.words_toList]
  interval_cases i <;> rfl

/-! ### The searches -/

theorem pushed_prepare (header : Words 20) (target : Words 8) (start : BitVec 64)
    (count capacity : Word) :
    ∃ push,prepare ⟨some header,some target,start,count,capacity⟩ pushBytes = some push ∧
      Pushed header push ∧ push.target.read 0 = target.read 6 ∧
        push.target.read 1 = target.read 7 := by
  have hhalves (h : Cells Word64 8) (i : Nat) (hi : i < 8) :
      let words := upTo 8 (Words.zeros 16) fun i words =>
        (words.write (2*i) ((h.read i).setWidth 32)).write (2*i + 1) ((h.read i >>> 32).setWidth 32)
      words.read (2*i) = (h.read i).setWidth 32 ∧
        words.read (2*i + 1) = (h.read i >>> 32).setWidth 32 := by
    simp only [upTo]
    interval_cases i <;>
      simp (disch := decide) only [Words.read_write_self,Words.read_write_ne,Nat.reduceMul,
        Nat.reduceAdd,and_self]
  refine ⟨_,rfl,⟨fun i hi => (hhalves _ i hi).1,fun i hi => (hhalves _ i hi).2,fun i hi => ?_⟩,
    rfl,rfl⟩
  have hdrop : (encode (header.toList.take 19)).drop 64 =
      encode [header.read 16,header.read 17,header.read 18] := by
    have hcut := (Sha256d.encode_cut (by simp : 16 ≤ (header.toList.take 19).length)).2
    rw [show 4*16 = 64 from rfl] at hcut
    rw [hcut,Sha256d.words_toList]
    rfl
  rw [Words.read_fill _ _ (Nat.le_refl 3) hi,hdrop,Sha256d.leWordAt_encode,Sha256d.leWord_bytes]
  interval_cases i <;> rfl

/-- Whatever the lanes are, a nonce is let through where the host's hash of it meets what the
kernel screens on, and with that hash. -/
theorem skein_search_eq (module : Module) (garbage : Words 64) (header : Words 20)
    (target : Words 8) (start : BitVec 64) (count capacity nonce : Word) :
    ∃ push,prepare ⟨some header,some target,start,count,capacity⟩ pushBytes = some push ∧
      skeinSearch module.lanes garbage push nonce =
        if fulltest (hash header (nonce.setWidth 64)) (screenedTarget 64 target) 8 then
          some ⟨nonce,0,hash header (nonce.setWidth 64)⟩
        else none := by
  obtain ⟨push,hpush,hpushed,h0,h1⟩ := pushed_prepare header target start count capacity
  refine ⟨push,hpush,?_⟩
  have hstate : shaOf int64 garbage (skeinOf int64 push nonce) =
      finalState (skeinWords header nonce) := by
    rw [skeinOf_eq hpushed,shaOf_eq]
  have hswap (i : Nat) (hi : i < 8) : bswap32 ((finalState (skeinWords header nonce)).read i) =
      (hash header (nonce.setWidth 64)).read i := by
    rw [hash_eq,Sha256d.swapped_read _ hi]
  have hall : (upTo 8 (Words.zeros 8) fun i (out : Words 8) => out.write i
      (bswap32 ((finalState (skeinWords header nonce)).read i))) = hash header (nonce.setWidth 64) := by
    rw [hash_eq]
    rfl
  rw [(module.lawful).skeinSearch,skeinSearch,hstate]
  simp only [h0,h1,hswap 7 (by decide),hswap 6 (by decide),hall]
  exact screened_some _ _ _

end VkMiner.Skein
