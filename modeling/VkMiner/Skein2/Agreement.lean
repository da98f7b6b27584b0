import VkMiner.Skein.Agreement
import VkMiner.Skein2.Kernel
set_option autoImplicit false

/-! The skein2 kernel and the host find the same nonces, with the same hashes. -/

namespace VkMiner.Skein2
open Loops Skein Skein.Glsl Glsl Screen
open Progpow.Glsl (bswap32)
open Sha256d (Word encode fulltest leWordAt swap_swap)

variable {i : Nat}

/-! ### The lanes -/

section Lanes

variable {L : Type} [Inhabited L] {B : TLane L} {val : L → Word64}

theorem skein2Output_lanes (hB : B.Lawful val) (h : Cells L 8) :
    (skein2Output B h).map val = skein2Output int64 (h.map val) := by
  have hzero : (upTo 8 (Cells.blank 8) fun i (m : Cells L 8) => m.write i (B.tlane 0 0)).map val =
      upTo 8 (Cells.blank 8) fun i m => Cells.write m i (int64.tlane 0 0) := by
    rw [← Cells.map_blank val hB.blank]
    refine upTo_hom (Vector.map val) _ fun i _ m => ?_
    rw [Cells.map_write,hB.tlane]
  simp only [skein2Output,hB.skein512Ubi,hzero,hB.tlane]

theorem handOver_lanes (hB : B.Lawful val) (m h : Cells L 8) :
    (handOver B m h).1.map val = (handOver int64 (m.map val) (h.map val)).1 ∧
      (handOver B m h).2.map val = (handOver int64 (m.map val) (h.map val)).2 := by
  have hboth : ((handOver B m h).1.map val,(handOver B m h).2.map val) =
      handOver int64 (m.map val) (h.map val) := by
    refine upTo_hom (fun s : Cells L 8 × Cells L 8 => (s.1.map val,s.2.map val)) (m,h)
      fun i _ s => ?_
    simp only [skein512512Iv,Cells.map_write,← Cells.read_map val hB.blank,hB.tlane]
  exact ⟨congrArg Prod.fst hboth,congrArg Prod.snd hboth⟩

end Lanes

/-! ### The second message -/

section Settled

variable {α : Type} (x : Word64) (v : Cells Word64 8) (f : Nat → Cells Word64 8 → Cells Word64 8)

def settle (k : Word64 → α) : α :=
  match x.toNat with
  | 0 => k 0
  | n + 1 => k (BitVec.ofNat 64 (n + 1))

theorem settle_eq (k : Word64 → α) : settle x k = k x := by
  unfold settle
  split
  · rename_i h
    rw [BitVec.eq_of_toNat_eq (h.trans rfl : x.toNat = (0 : Word64).toNat)]
  · rename_i n h
    have hx : BitVec.ofNat 64 (n + 1) = BitVec.ofNat 64 x.toNat := congrArg _ h.symm
    rw [hx,BitVec.ofNat_toNat,BitVec.setWidth_eq]

def settled (k : Cells Word64 8 → α) : α :=
  settle (v.read 0) fun a => settle (v.read 1) fun b => settle (v.read 2) fun c =>
    settle (v.read 3) fun d => settle (v.read 4) fun e => settle (v.read 5) fun f =>
      settle (v.read 6) fun g => settle (v.read 7) fun h => k #v[a,b,c,d,e,f,g,h]

theorem settled_eq (k : Cells Word64 8 → α) : settled v k = k v := by
  simp only [settled,settle_eq]
  congr 1
  refine Cells.ext _ _ fun i hi => ?_
  interval_cases i <;> rfl

def inTurn : Nat → Nat → Cells Word64 8 → (Cells Word64 8 → α) → α
  | 0,_,v,k => k v
  | n + 1,i,v,k => settled (f i v) fun v => inTurn n (i + 1) v k

theorem inTurn_eq (n i : Nat) (k : Cells Word64 8 → α) :
    inTurn f n i v k = k (upTo n v fun j => f (i + j)) := by
  induction n generalizing i v with
  | zero => rfl
  | succ n ih =>
    rw [inTurn,settled_eq,ih,Nat.add_comm n 1,upTo_add 1 n]
    simp only [← Nat.add_assoc]
    rfl

end Settled

def noState : Cells Word64 8 := upTo 8 (Cells.blank 8) fun i iv => iv.write i 0

def configKey : Cells Word64 9 := Skein.keyWords noState

def configTweak : Cells Word64 3 := Skein.tweakWords (tweakOf 32 typeCfg true true)

def configWords : Cells Word64 8 := blockWords (config ++ List.replicate 32 0)

theorem configBlock_eq : ubiBlock noState (tweakOf 32 typeCfg true true) configWords = skein512Iv :=
  (ubiFrom_last _ typeCfg true (Nat.zero_le _) (by decide : config.length ≤ 64)).symm

def tabled (v : Cells Word64 8) : Bool :=
  (List.range 8).all fun i =>
    (addSubkey configKey configTweak 18 v).read i ^^^ configWords.read i == skein512512Iv int64 i

/-- The table that the device starts its second Skein from is the host's configuration block. -/
theorem iv_eq (hi : i < 8) : skein512512Iv int64 i = skein512Iv.read i := by
  have hrun : inTurn (round configKey configTweak) 72 0
      (upTo 8 (Cells.blank 8) fun i v => v.write i (configWords.read i)) tabled = true := by
    decide +kernel
  rw [inTurn_eq] at hrun
  have hword := beq_iff_eq.mp (List.all_eq_true.mp hrun i (List.mem_range.mpr hi))
  simp only [Nat.zero_add] at hword
  rw [← hword,← configBlock_eq,ubiBlock,Cells.read_fill _ _ (Nat.le_refl 8),if_pos hi]
  rfl

theorem handOver_eq (m h : Cells Word64 8) : handOver int64 m h = (h,skein512Iv) := by
  simp only [handOver,upTo]
  refine Prod.ext (Cells.ext _ _ fun i hi => ?_) (Cells.ext _ _ fun i hi => ?_)
  · interval_cases i <;>
      simp (disch := decide) only [Cells.read_write_self,Cells.read_write_ne]
  · rw [← iv_eq hi]
    interval_cases i <;>
      simp (disch := decide) only [Cells.read_write_self,Cells.read_write_ne]

theorem digestWords_read (h : Cells Word64 8) (hi : i < 8) :
    (digestWords h).getD (2*i) 0 = bswap32 (int64.tlo (h.read i)) ∧
      (digestWords h).getD (2*i + 1) 0 = bswap32 (int64.thi (h.read i)) := by
  constructor
  · interval_cases i <;> rfl
  · interval_cases i <;> rfl

theorem digest_block (h : Cells Word64 8) : blockWords (encode (digestWords h)) = h := by
  refine Cells.ext _ _ fun i hi => ?_
  obtain ⟨hlo,hhi⟩ := digestWords_read h hi
  rw [blockWords_read _ hi,pairAt,hlo,hhi,swap_swap,swap_swap]
  exact tlane_halves (h.read i)

theorem ubi_digest (h : Cells Word64 8) : ubi512 skein512Iv (encode (digestWords h)) typeMsg =
    ubiBlock skein512Iv (tweakOf 64 typeMsg true true) h := by
  have hl : (digestWords h).length = 16 := rfl
  have hlast : ubiFrom skein512Iv (encode (digestWords h)) typeMsg (4*0) true = _ :=
    ubi_words skein512Iv typeMsg true (Nat.zero_le _) (by omega)
  rw [List.drop_zero,digest_block,hl] at hlast
  exact hlast

theorem zero_fill (m : Cells Word64 8) : (upTo 8 m fun i m => m.write i (int64.tlane 0 0)) =
    upTo 8 (Cells.blank 8) fun i m => m.write i (int64.tlane 0 0) := by
  refine Cells.ext _ _ fun i hi => ?_
  rw [Cells.read_fill _ _ (Nat.le_refl 8),Cells.read_fill _ _ (Nat.le_refl 8),if_pos hi,if_pos hi]

theorem skein2Output_eq (h : Cells Word64 8) :
    skein2Output int64 h = ubi512 h (List.replicate 8 0) typeOut := by
  have hzero : (upTo 8 (Cells.blank 8) fun i (m : Cells Word64 8) => m.write i (int64.tlane 0 0)) =
      blockWords (encode [0,0]) := by
    refine Cells.ext _ _ fun i hi => ?_
    rw [blockWords_read _ hi,Cells.read_fill _ _ (Nat.le_refl 8),if_pos hi]
    interval_cases i <;> decide
  have hout : #v[int64.tlane 8 0,int64.tlane 0 (kSkeinT1Out ||| kSkeinT1First ||| kSkeinT1Final)] =
      tweakOf 8 typeOut true true := by decide
  rw [skein2Output,ubi_eq,hzero,hout,ubi_output]

def secondWords (header : Words 20) (nonce : Word) : Cells Word64 8 :=
  ubi512 (ubi512 skein512Iv (encode (digestWords (skeinWords header nonce))) typeMsg)
    (List.replicate 8 0) typeOut

theorem skein2Of_eq {header : Words 20} {push : SkeinPush} (hp : Pushed header push)
    (nonce : Word) : skein2Of int64 push nonce = secondWords header nonce := by
  have hfirst := skeinOf_eq hp nonce
  rw [skeinOf,zero_fill] at hfirst
  have hmsg : #v[int64.tlane 64 0,
      int64.tlane 0 (kSkeinT1Msg ||| kSkeinT1First ||| kSkeinT1Final)] =
        tweakOf 64 typeMsg true true := by decide
  rw [secondWords,ubi_digest,← hfirst,← hmsg,← ubi_eq,← skein2Output_eq]
  simp only [skein2Of,handOver_eq]
  rfl

theorem skein2Of_lanes {L : Type} [Inhabited L] {B : TLane L} {val : L → Word64}
    (hB : B.Lawful val) (push : SkeinPush) (nonce : Word) :
    (skein2Of B push nonce).map val = skein2Of int64 push nonce := by
  have hfill (f : Nat → L) (g : Nat → Word64) (hfg : ∀ i,val (f i) = g i) (n first : Nat)
      (m : Cells L 8) : (upTo n m fun i m => m.write (first + i) (f i)).map val =
        upTo n (m.map val) fun i m => Cells.write m (first + i) (g i) := by
    refine upTo_hom (Vector.map val) m fun i _ m => ?_
    rw [Cells.map_write,hfg]
  have hstart := hfill (fun i => B.tlane (push.midstate.read (2*i)) (push.midstate.read (2*i + 1)))
    _ (fun i => hB.tlane _ _) 8 0 (Cells.blank 8)
  have hrest := hfill (fun _ => B.tlane 0 0) _ (fun _ => hB.tlane _ _) 6 2
  simp only [Nat.zero_add] at hstart
  simp only [skein2Of,skein2Output_lanes hB,hB.skein512Ubi,(handOver_lanes hB _ _).1,
    (handOver_lanes hB _ _).2,hstart,hrest,Cells.map_write,Cells.map_blank val hB.blank,hB.tlane]

/-! ### The search -/

def firstHalf (h : Cells Word64 8) : Words 8 :=
  upTo 4 (Words.zeros 8) fun i hash =>
    (hash.write (2*i) (int64.tlo (h.read i))).write (2*i + 1) (int64.thi (h.read i))

theorem firstHalf_read (h : Cells Word64 8) (hi : i < 4) :
    (firstHalf h).read (2*i) = int64.tlo (h.read i) ∧
      (firstHalf h).read (2*i + 1) = int64.thi (h.read i) := by
  simp only [firstHalf,upTo]
  interval_cases i <;>
    simp (disch := decide) only [Words.read_write_self,Words.read_write_ne,Nat.reduceMul,
      Nat.reduceAdd,and_self]

theorem hash_eq (header : Words 20) (nonce : Word) :
    hash header (nonce.setWidth 64) = firstHalf (secondWords header nonce) := by
  have hlow : (nonce.setWidth 64).setWidth 32 = nonce := by
    rw [BitVec.setWidth_setWidth_of_le nonce (by omega),BitVec.setWidth_eq]
  have hsecond : skein512Full (skein512Full (encode (header.toList.take 19 ++ [nonce]))) =
      encode (digestWords (secondWords header nonce)) := by
    have hfirst : skein512Full (encode (header.toList.take 19 ++ [nonce])) =
        encode (digestWords (skeinWords header nonce)) := digest_bytes _
    rw [hfirst]
    exact digest_bytes _
  rw [hash,hlow]
  simp only [hsecond]
  generalize secondWords header nonce = h
  refine Words.ext _ _ fun i hi => ?_
  have hread (j : Nat) (hj : j < 4) := firstHalf_read h hj
  rw [Words.read_fill _ _ (Nat.le_refl 8) hi,Sha256d.leWordAt_encode,Sha256d.leWord_bytes]
  obtain ⟨j,hj,rfl | rfl⟩ : ∃ j < 4, i = 2*j ∨ i = 2*j + 1 := ⟨i/2,by omega,by omega⟩
  · rw [(hread j hj).1,(digestWords_read h (by omega)).1,swap_swap]
  · rw [(hread j hj).2,(digestWords_read h (by omega)).2,swap_swap]

/-- Whatever the lanes are, a nonce is let through where the host's hash of it meets what the
kernel screens on, and with that hash. -/
theorem skein2_search_eq (module : Module) (header : Words 20) (target : Words 8)
    (start : BitVec 64) (count capacity nonce : Word) :
    ∃ push,prepare ⟨some header,some target,start,count,capacity⟩ pushBytes = some push ∧
      skein2Search module.lanes push nonce =
        if fulltest (hash header (nonce.setWidth 64)) (screenedTarget 64 target) 8 then
          some ⟨nonce,0,hash header (nonce.setWidth 64)⟩
        else none := by
  obtain ⟨push,hpush,hpushed,h0,h1⟩ := pushed_prepare header target start count capacity
  refine ⟨push,hpush,?_⟩
  have hlanes (i : Nat) : module.val ((skein2Of module.lanes push nonce).read i) =
      (secondWords header nonce).read i := by
    rw [← Cells.read_map _ module.lawful.blank,skein2Of_lanes module.lawful,skein2Of_eq hpushed]
  have htop : module.lanes.thi ((skein2Of module.lanes push nonce).read 3) =
      (hash header (nonce.setWidth 64)).read 7 := by
    rw [module.lawful.thi,hlanes,hash_eq]
    exact (firstHalf_read _ (by decide : 3 < 4)).2.symm
  have hnext : module.lanes.tlo ((skein2Of module.lanes push nonce).read 3) =
      (hash header (nonce.setWidth 64)).read 6 := by
    rw [module.lawful.tlo,hlanes,hash_eq]
    exact (firstHalf_read _ (by decide : 3 < 4)).1.symm
  have hall : (upTo 4 (Words.zeros 8) fun i (out : Words 8) =>
      (out.write (2*i) (module.lanes.tlo ((skein2Of module.lanes push nonce).read i))).write (2*i + 1)
        (module.lanes.thi ((skein2Of module.lanes push nonce).read i))) =
          hash header (nonce.setWidth 64) := by
    simp only [module.lawful.tlo,module.lawful.thi,hlanes,hash_eq]
    rfl
  rw [skein2Search]
  simp only [h0,h1,htop,hnext,hall]
  exact screened_some _ _ _

end VkMiner.Skein2
