import VkMiner.Bmw.Header
import VkMiner.Host.Screen
import VkMiner.Sha256d.Digest
set_option autoImplicit false

/-! The bmw512 kernel against the host's BMW-512 of a header with its nonce. -/

namespace VkMiner.Bmw
open Loops Halves Sha256d Screen Glsl

variable {i : Nat}

/-! ### The block of a header -/

/-- The words of the padded block, the highest byte first. -/
def blockOf (header : Words 20) (nonce : Word) : List Word :=
  headerWords header nonce ++ [0x80000000,0,0,0,0,0,0,0,0,0,0x80020000,0]

theorem headerBlock_eq (header : Words 20) (nonce : Word) :
    headerBlock (encode (headerWords header nonce)) = encode (blockOf header nonce) := by
  have hl : (encode (headerWords header nonce)).length = 80 := by
    rw [encode_length,headerWords_length]
  have hpad : (0x80 : Byte) :: List.replicate 39 0 ++ [0x80,0x02] ++ List.replicate 6 0 =
      encode [0x80000000,0,0,0,0,0,0,0,0,0,0x80020000,0] := by decide
  rw [headerBlock,List.take_of_length_le (by omega),blockOf,encode_append,← hpad,
    List.append_assoc,List.append_assoc,List.append_assoc]

theorem dec64le_eq (p : List Byte) : dec64le p = int64.blane (leWordAt p 0) (leWordAt p 1) := by
  simp only [dec64le,upTo,int64,leWordAt,Nat.reduceMul,Nat.reduceAdd,Nat.reduceSub]
  generalize p.getD 0 0 = b0
  generalize p.getD 1 0 = b1
  generalize p.getD 2 0 = b2
  generalize p.getD 3 0 = b3
  generalize p.getD 4 0 = b4
  generalize p.getD 5 0 = b5
  generalize p.getD 6 0 = b6
  generalize p.getD 7 0 = b7
  refine BitVec.eq_of_getLsbD_eq fun i hi => ?_
  interval_cases i <;> simp

theorem leWordAt_drop (bytes : List Byte) (c j : Nat) :
    leWordAt (bytes.drop (4*c)) j = leWordAt bytes (c + j) := by
  have h (k : Nat) : (bytes.drop (4*c)).getD (j*4 + k) 0 = bytes.getD ((c + j)*4 + k) 0 := by
    rw [List.getD_eq_getElem?_getD,List.getD_eq_getElem?_getD,List.getElem?_drop,
      show 4*c + (j*4 + k) = (c + j)*4 + k by omega]
  have h₀ := h 0
  simp only [Nat.add_zero] at h₀
  simp only [leWordAt,h₀,h]

theorem blockWords_read (ws : List Word) (hi : i < 16) : (blockWords (encode ws)).read i =
    int64.blane (Progpow.Glsl.bswap32 (ws.getD (2*i) 0))
      (Progpow.Glsl.bswap32 (ws.getD (2*i + 1) 0)) := by
  rw [blockWords,Cells.read_fill _ _ (Nat.le_refl 16),if_pos hi,dec64le_eq,
    show 8*i = 4*(2*i) by omega,leWordAt_drop,leWordAt_drop,leWordAt_encode,leWordAt_encode,
    leWord_bytes,leWord_bytes,Nat.add_zero]

theorem blockOf_getD (header : Words 20) (nonce : Word) (k : Nat) :
    (blockOf header nonce).getD k 0 = if k < 19 then header.read k else if k = 19 then nonce else
      ([0x80000000,0,0,0,0,0,0,0,0,0,0x80020000,0] : List Word).getD (k - 20) 0 := by
  have hl : (header.toList.take 19).length = 19 := by simp
  have hl' := headerWords_length header nonce
  by_cases h : k < 20
  · rw [blockOf,List.getD_append _ _ _ _ (by omega),headerWords]
    by_cases h' : k < 19
    · rw [List.getD_append _ _ _ _ (by omega),if_pos h',words_toList]
      simp [List.getD_eq_getElem?_getD,h']
    · obtain rfl : k = 19 := by omega
      rw [List.getD_append_right _ _ _ _ (by omega),hl]
      rfl
  · rw [blockOf,List.getD_append_right _ _ _ _ (by omega),hl',if_neg (by omega),if_neg (by omega)]

theorem same_but_9 (header : Words 20) (nonce : Word) :
    SameBut9 (blockWords (encode (blockOf header nonce)))
      (blockWords (encode (blockOf header 0))) := by
  intro k hk
  by_cases hlt : k < 16
  · rw [blockWords_read _ hlt,blockWords_read _ hlt,blockOf_getD,blockOf_getD,blockOf_getD,
      blockOf_getD]
    simp only [show 2*k ≠ 19 by omega,show 2*k + 1 ≠ 19 by omega,if_false]
  · simp only [Cells.read,Vector.getElem?_eq_none (Nat.not_lt.mp hlt)]

/-! ### The digest -/

def finalState (header : Words 20) (nonce : Word) : Cells Word64 16 :=
  bmw512Final int64 (compress iv iv (blockWords (encode (blockOf header nonce))))

theorem bmw512Full_header (header : Words 20) (nonce : Word) :
    bmw512Full (encode (headerWords header nonce)) =
      (List.range 8).flatMap fun i => leBytes64 ((finalState header nonce).read (8 + i)) := by
  have hl : (encode (headerWords header nonce)).length = 80 := by
    rw [encode_length,headerWords_length]
  have hblock : (encode (headerWords header nonce) ++ 0x80 :: List.replicate (127 - 80) 0).take 120
      ++ leBytes64 (BitVec.ofNat 64 80 * 8) = encode (blockOf header nonce) := by
    have htake : (encode (headerWords header nonce) ++ 0x80 :: List.replicate (127 - 80) 0).take
        120 = encode (headerWords header nonce) ++ (0x80 :: List.replicate 39 0) := by
      rw [List.take_append,hl,List.take_of_length_le (by omega)]
      rfl
    have hpad : (0x80 : Byte) :: List.replicate 39 0 ++ leBytes64 (BitVec.ofNat 64 80 * 8) =
        encode [0x80000000,0,0,0,0,0,0,0,0,0,0x80020000,0] := by decide
    rw [htake,blockOf,encode_append,← hpad,List.append_assoc]
  have hwhole : wholeBlocks iv (encode (headerWords header nonce)) =
      (iv,encode (headerWords header nonce)) := by
    rw [wholeBlocks,if_neg (by omega)]
  have hpadded : padded iv (encode (headerWords header nonce)) =
      (iv,encode (headerWords header nonce) ++ 0x80 :: List.replicate (127 - 80) 0) := by
    rw [padded,hl]
    rfl
  simp only [bmw512Full,hwhole,hpadded,hl,hblock,finalState,bmw512Final_eq,compressBytes]

theorem iv_eq : (upTo 16 (Cells.blank 16) fun i h =>
    h.write i (bmw512Iv int64 (BitVec.ofNat 32 i))) = iv := by
  refine Cells.ext _ _ fun i hi => ?_
  rw [iv,Cells.read_fill _ _ (Nat.le_refl 16),Cells.read_fill _ _ (Nat.le_refl 16),if_pos hi,
    if_pos hi]
  interval_cases i <;> decide

theorem message_eq {push : Bmw512Push} {header : Words 20} (nonce : Word)
    (hp : ∀ k < 19, push.header.read k = Progpow.Glsl.bswap32 (header.read k)) :
    (let m := upTo 9 (Cells.blank 16) fun i m =>
        m.write i (int64.blane (push.header.read (2*i)) (push.header.read (2*i + 1)))
      let m := m.write 9 (int64.blane (push.header.read 18) (Progpow.Glsl.bswap32 nonce))
      let m := m.write 10 (int64.blane 0x80 0)
      let m := upTo 4 m fun i m => m.write (11 + i) (int64.blane 0 0)
      m.write 15 (int64.blane 640 0)) = blockWords (encode (blockOf header nonce)) := by
  refine Cells.ext _ _ fun i hi => ?_
  have hzeros (m : Cells Word64 16) (k : Nat) :
      (upTo 4 m fun i m => m.write (11 + i) (int64.blane 0 0)).read k =
        if 11 ≤ k ∧ k < 15 then int64.blane 0 0 else m.read k :=
    Cells.read_update (f := fun _ _ => int64.blane 0 0) (g := fun _ => int64.blane 0 0) m 11
      (by omega) (fun _ _ _ _ => rfl) k
  rw [blockWords_read _ hi,blockOf_getD,blockOf_getD]
  obtain h | h := Nat.lt_or_ge i 9
  · simp (disch := omega) only [Cells.read_write_ne]
    rw [hzeros,if_neg (by omega)]
    simp (disch := omega) only [Cells.read_write_ne]
    rw [Cells.read_fill _ _ (by omega),if_pos h,hp _ (by omega),hp _ (by omega),if_pos (by omega),
      if_pos (by omega)]
  · interval_cases i <;>
      simp (disch := decide) only [Cells.read_write_ne,Cells.read_write_self,hzeros,hp,
        Nat.reduceMul,Nat.reduceAdd,Nat.reduceSub,Nat.reduceLT,Nat.reduceLeDiff,Nat.reduceEqDiff,
        and_true,and_self,if_true,if_false] <;> decide

/-- What the device's lanes come to are the words of the host's digest. -/
theorem state_eq {push : Bmw512Push} {job : Bmw512Uniform} {header : Words 20} (nonce : Word)
    (hp : ∀ k < 19, push.header.read k = Progpow.Glsl.bswap32 (header.read k))
    (hjob : Holds job (bmw51280Precompute (encode (headerWords header 0)))) :
    bmw512State int64 push job nonce = finalState header nonce := by
  have hsame := same_but_9 header nonce
  rw [← headerBlock_eq header 0] at hsame
  have hcompress := compressHeader_eq hjob hsame
  rw [bmw512State,iv_eq,finalState,← hcompress]
  exact congrArg (fun m => bmw512Final int64 (bmw512CompressHeader int64 job iv m))
    (message_eq nonce hp)

theorem leBytes64_eq (x : Word64) :
    leBytes64 x = leBytes (int64.blo x) ++ leBytes (int64.bhi x) := by
  rw [leBytes64,show List.range 8 = [0,1,2,3,4,5,6,7] from rfl]
  simp only [List.map_cons,List.map_nil,leBytes,int64,List.cons_append,List.nil_append,
    List.cons.injEq,and_true]
  refine ⟨?_,?_,?_,?_,?_,?_,?_,?_⟩ <;>
  · refine BitVec.eq_of_getLsbD_eq fun i hi => ?_
    interval_cases i <;> simp

theorem Glsl.Module.lawful (module : Module) : module.lanes.Lawful module.val := by
  cases module with
  | wide => constructor <;> intros <;> rfl
  | wideAdd => exact wideAdd_lawful
  | pairs => exact pairs_lawful

def digestWords (header : Words 20) (nonce : Word) : List Word :=
  (List.range 8).flatMap fun i =>
    let x := (finalState header nonce).read (8 + i)
    [int64.blo x,int64.bhi x]

theorem bmw512Full_words (header : Words 20) (nonce : Word) :
    bmw512Full (encode (headerWords header nonce)) = (digestWords header nonce).flatMap leBytes := by
  rw [bmw512Full_header,digestWords,List.flatMap_assoc]
  refine List.flatMap_congr fun i _ => ?_
  rw [leBytes64_eq,List.flatMap_cons,List.flatMap_cons,List.flatMap_nil,List.append_nil]

theorem digestWords_read (header : Words 20) (nonce : Word) (hi : i < 8) :
    (digestWords header nonce).getD (2*i) 0 = int64.blo ((finalState header nonce).read (8 + i)) ∧
      (digestWords header nonce).getD (2*i + 1) 0 =
        int64.bhi ((finalState header nonce).read (8 + i)) := by
  interval_cases i <;> exact ⟨rfl,rfl⟩

theorem hash_read (header : Words 20) (nonce : Word) (hi : i < 8) :
    (hash header (nonce.setWidth 64)).read i = (digestWords header nonce).getD i 0 := by
  have hx : (nonce.setWidth 64).setWidth 32 = nonce := by
    rw [BitVec.setWidth_setWidth_of_le nonce (by omega),BitVec.setWidth_eq]
  have hdigest := bmw512Full_words header nonce
  rw [headerWords] at hdigest
  rw [hash,Words.read_fill _ _ (Nat.le_refl 8) hi,hx,hdigest,leWordAt_leBytes]

theorem emitted_eq (header : Words 20) (nonce : Word) :
    (upTo 4 (Words.zeros 8) fun i out =>
      (out.write (2*i) (int64.blo ((finalState header nonce).read (8 + i)))).write (2*i + 1)
        (int64.bhi ((finalState header nonce).read (8 + i)))) = hash header (nonce.setWidth 64) := by
  have hrun : ∀ m ≤ 4,∀ k < 2*m,(upTo m (Words.zeros 8) fun i out =>
      (out.write (2*i) (int64.blo ((finalState header nonce).read (8 + i)))).write (2*i + 1)
        (int64.bhi ((finalState header nonce).read (8 + i)))).read k =
          (digestWords header nonce).getD k 0 := by
    intro m hm
    induction m with
    | zero => intro k hk; omega
    | succ m ih =>
      intro k hk
      obtain ⟨hlo,hhi⟩ := digestWords_read header nonce (by omega : m < 8)
      rw [upTo]
      obtain hlt | rfl | rfl : k < 2*m ∨ k = 2*m ∨ k = 2*m + 1 := by omega
      · rw [Words.read_write_ne _ _ (by omega),Words.read_write_ne _ _ (by omega),
          ih (by omega) k hlt]
      · rw [Words.read_write_ne _ _ (by omega),Words.read_write_self _ _ (by omega),hlo]
      · rw [Words.read_write_self _ _ (by omega),hhi]
  refine Words.ext _ _ fun k hk => ?_
  rw [hash_read _ _ hk]
  exact hrun 4 (Nat.le_refl 4) k hk

/-- From the sums of a job, every one of the three modules computes the bytes of the host's
BMW-512 of the header with the nonce, and emits the nonces whose hash meets what it screens on. -/
theorem bmw512_kernel_digest (module : Module) (header : Words 20) (target : Words 8)
    (start : BitVec 64) (count capacity nonce : Word) :
    ∃ push job,prepare ⟨some header,some target,start,count,capacity⟩ pushBytes = some push ∧
      prepareUniform ⟨some header,some target,start,count,capacity⟩ uniformBytes = some job ∧
      ((List.range 8).flatMap fun i =>
        let h := (bmw512State module.lanes push job nonce).read (8 + i)
        leBytes (module.lanes.blo h) ++ leBytes (module.lanes.bhi h)) =
          bmw512Full (encode (header.toList.take 19 ++ [nonce])) ∧
      bmw512Search module.lanes push job nonce =
        if fulltest (hash header (nonce.setWidth 64)) (screenedTarget 64 target) 8 then
          some ⟨nonce,0,hash header (nonce.setWidth 64)⟩
        else none := by
  have hB := module.lawful
  have hdata : encode (header.toList.take 19) ++ List.replicate 4 0 =
      encode (headerWords header 0) := by
    rw [headerWords,encode_append]
    rfl
  have hp (k : Nat) (hk : k < 19) : (upTo 19 (Words.zeros 19) fun i (words : Words 19) =>
      words.write i (leWordAt (beBytes (header.read i)) 0)).read k =
        Progpow.Glsl.bswap32 (header.read k) := by
    rw [Words.read_fill _ _ (Nat.le_refl 19) hk,leWord_bytes]
  refine ⟨_,_,rfl,rfl,?_⟩
  rw [hdata]
  generalize hpush : Bmw512Push.mk _ _ _ _ _ = push
  generalize hjob : Bmw512Uniform.mk _ = job
  have hstate : bmw512State int64 push job nonce = finalState header nonce := by
    refine state_eq nonce ?_ ?_
    · rw [← hpush]
      exact hp
    · rw [← hjob]
      exact holds_vectors _
  have hval (i : Nat) : module.val ((bmw512State module.lanes push job nonce).read i) =
      (finalState header nonce).read i := by
    rw [← Cells.read_map _ hB.blank,hB.bmw512State,hstate]
  have hlo (i : Nat) := (hB.blo ((bmw512State module.lanes push job nonce).read i)).trans
    (congrArg int64.blo (hval i))
  have hhi (i : Nat) := (hB.bhi ((bmw512State module.lanes push job nonce).read i)).trans
    (congrArg int64.bhi (hval i))
  constructor
  · rw [← headerWords,bmw512Full_header]
    refine List.flatMap_congr fun i _ => ?_
    simp only [hlo,hhi,leBytes64_eq]
  · have htarget : push.target.read 1 = target.read 7 ∧ push.target.read 0 = target.read 6 := by
      rw [← hpush]
      exact ⟨rfl,rfl⟩
    have h7 := hash_read header nonce (by omega : 7 < 8)
    have h6 := hash_read header nonce (by omega : 6 < 8)
    rw [(digestWords_read header nonce (by omega : 3 < 8)).2] at h7
    rw [(digestWords_read header nonce (by omega : 3 < 8)).1] at h6
    rw [fulltest_top,h7,h6]
    simp only [bmw512Search,hlo,hhi,htarget,emitted_eq,decide_eq_true_eq]
    by_cases hgt : target.read 7 < int64.bhi ((finalState header nonce).read (8 + 3))
    · rw [if_pos hgt,if_neg fun h => h.1 hgt]
    · rw [if_neg hgt]
      by_cases htop : int64.bhi ((finalState header nonce).read (8 + 3)) = target.read 7 ∧
          target.read 6 < int64.blo ((finalState header nonce).read (8 + 3))
      · rw [if_pos htop,if_neg fun h => h.2 htop]
      · rw [if_neg htop,if_pos ⟨hgt,htop⟩]

end VkMiner.Bmw
