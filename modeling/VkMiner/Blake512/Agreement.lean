import VkMiner.Blake512.Kernel
import VkMiner.Sha512.Lanes
set_option autoImplicit false

/-! The first stage of x11 is the host's BLAKE-512 of the header. -/

namespace VkMiner.Blake512
open Loops Halves Glsl
open Progpow.Glsl (bswap32)
open Sha256d (Word Byte encode wordAt beBytes leBytes)
open Sha512 (Word64 rotr64 be64At be64Bytes halvesOf)

/-! ### The lanes -/

/-- The lanes stand for words of 64 bits, and what they do is done to these. -/
structure Lawful {L : Type} [Inhabited L] (B : BkLane L) (val : L → Word64) : Prop where
  blank : val default = default
  bklane : ∀ lo hi,val (B.bklane lo hi) = join ⟨lo,hi⟩
  bklo : ∀ x,B.bklo x = (val x).setWidth 32
  bkhi : ∀ x,B.bkhi x = (val x >>> 32).setWidth 32
  xor : ∀ a b,val (B.xor a b) = val a ^^^ val b
  bkadd : ∀ a b,val (B.bkadd a b) = val a + val b
  bkrotr : ∀ x n,n < 64 → val (B.bkrotr x n) = rotr64 (val x) n

theorem int64_lawful : Lawful int64 id where
  blank := rfl
  bklane lo hi := (join_eq ⟨lo,hi⟩).symm
  bklo _ := rfl
  bkhi _ := rfl
  xor _ _ := rfl
  bkadd _ _ := rfl
  bkrotr _ _ _ := rfl

theorem pairs_lawful : Lawful pairs join where
  blank := by decide
  bklane _ _ := rfl
  bklo x := (low_join x).symm
  bkhi x := (high_join x).symm
  xor := join_xor
  bkadd := join_add
  bkrotr := Sha512.Glsl.pairs_lawful.srotr

theorem wideAdd_lawful : Lawful wideAdd join :=
  { pairs_lawful with bkadd := fun _ _ => join_split _ }

/-! ### The compression -/

theorem kBlake512Iv_eq : ∀ i < 8,join (kBlake512Iv.read i) = Blake512.blake512Iv.read i := by
  decide

theorem kBlake512C_eq : ∀ i < 16,join (kBlake512C.read i) = Blake512.blake512C.read i := by decide

def InBlock (s : Nat → Nat) : Prop := ∀ i < 16,s i < 16

theorem blake512Sigma_inBlock : ∀ r < 10,InBlock (blake512Sigma r) := by
  unfold InBlock
  decide

section
variable {L : Type} [Inhabited L] {B : BkLane L} {val : L → Word64} {s : Nat → Nat}

theorem blake512C_val (hB : Lawful B val) {i : Nat} (hi : i < 16) :
    val (Glsl.blake512C B i) = Blake512.blake512C.read i := by
  rw [Glsl.blake512C,hB.bklane]
  exact kBlake512C_eq i hi

theorem read_val (hB : Lawful B val) {n : Nat} (v : Cells L n) (i : Nat) :
    val (v.read i) = Cells.read (v.map val) i := (Cells.read_map val hB.blank v i).symm

theorem blake512G_map (hB : Lawful B val) (hs : InBlock s) {i : Nat} (hi : i < 8) (a b c d : Nat)
    (m v : Cells L 16) :
    (Glsl.blake512G B m a b c d (s (2*i)) (s (2*i + 1)) v).map val =
      Blake512.blake512G (m.map val) s i a b c d (v.map val) := by
  have hx := blake512C_val hB (hs (2*i) (by omega))
  have hy := blake512C_val hB (hs (2*i + 1) (by omega))
  simp (disch := decide) only [Glsl.blake512G,Blake512.blake512G,picked,Cells.map_write,hB.bkadd,
    hB.xor,hB.bkrotr,read_val hB,hx,hy,BitVec.add_assoc]

def lineOf (B : BkLane L) (m : Cells L 16) (s : Nat → Nat) (v : Cells L 16) : Cells L 16 :=
  blake512Round B m (s 0) (s 1) (s 2) (s 3) (s 4) (s 5) (s 6) (s 7) (s 8) (s 9) (s 10) (s 11)
    (s 12) (s 13) (s 14) (s 15) v

theorem lineOf_map (hB : Lawful B val) (hs : InBlock s) (m v : Cells L 16) :
    (lineOf B m s v).map val = round (m.map val) s (v.map val) := by
  have hG {i : Nat} (hi : i < 8) := blake512G_map hB hs hi
  rw [lineOf,blake512Round,hG (by decide : 7 < 8),hG (by decide : 6 < 8),hG (by decide : 5 < 8),
    hG (by decide : 4 < 8),hG (by decide : 3 < 8),hG (by decide : 2 < 8),hG (by decide : 1 < 8),
    hG (by decide : 0 < 8),round]

/-- The permutations that the kernel's lines are written out by are the table's. -/
theorem rounds_eq (m v : Cells L 16) :
    rounds B m v = upTo 16 v fun r v => lineOf B m (blake512Sigma (r % 10)) v := by
  simp only [rounds,upTo,lineOf,blake512Sigma,Blake2s.kSigma,Nat.reduceMod,List.getD_cons_zero,
    List.getD_cons_succ]

theorem rounds_map (hB : Lawful B val) (m v : Cells L 16) :
    (rounds B m v).map val =
      upTo 16 (v.map val) fun r v => round (m.map val) (blake512Sigma (r % 10)) v := by
  rw [rounds_eq]
  exact upTo_hom (Vector.map val) v fun r _ v =>
    lineOf_map hB (blake512Sigma_inBlock _ (Nat.mod_lt r (by decide))) m v

theorem startOf_map (hB : Lawful B val) (h : Cells L 8) (t : L) :
    (startOf B h t).map val = start (h.map val) (val t) := by
  simp (disch := decide) only [startOf,start,upTo,Cells.map_write,Cells.map_blank val hB.blank,
    hB.xor,read_val hB,blake512C_val hB]

theorem blake512Compress_map (hB : Lawful B val) (h : Cells L 8) (m : Cells L 16) (t : L) :
    (Glsl.blake512Compress B h m t).map val = compressWords (h.map val) (m.map val) (val t) := by
  rw [Glsl.blake512Compress,compressWords,← startOf_map hB,← rounds_map hB]
  refine upTo_hom (Vector.map val) h fun i _ h => ?_
  simp only [Cells.map_write,hB.xor,read_val hB]

end

/-! ### The header -/

variable {header : Words 20} {nonce : Word}

theorem be64decLocal_eq (b : List Byte) (i : Nat) : be64decLocal b (8*i) = be64At b i := by
  simp only [be64decLocal,upTo,be64At,BitVec.shiftLeft_or_distrib,← BitVec.shiftLeft_add,
    Nat.mul_comm 8 i,Nat.reduceAdd,Nat.add_zero]
  rw [show (0 : Word64) <<< 64 = 0#64 by decide,BitVec.zero_or]

def block (header : Words 20) (nonce : Word) : List Word :=
  (List.range 19).map header.read ++ [nonce] ++ [0x80000000,0,0,0,0,0,0,1,0,0,0,640]

def blockWords (header : Words 20) (nonce : Word) : Cells Word64 16 :=
  upTo 16 (Cells.blank 16) fun i m => m.write i
    (join ⟨(block header nonce).getD (2*i + 1) 0,(block header nonce).getD (2*i) 0⟩)

def headerState (header : Words 20) (nonce : Word) : Cells Word64 8 :=
  compressWords Blake512.blake512Iv (blockWords header nonce) 640

theorem blake512Compress_block (h : Cells Word64 8) (t : Word64) :
    Blake512.blake512Compress h (encode (block header nonce)) t =
      compressWords h (blockWords header nonce) t := by
  rw [Blake512.blake512Compress,blockWords]
  refine congrArg (fun m => compressWords h m t) (upTo_congr _ fun i _ m => ?_)
  rw [be64decLocal_eq,Sha512.be64At_words,Sha256d.wordAt_encode,Sha256d.wordAt_encode]

theorem padded_bytes {p : List Byte} (hp : p.length = 80) :
    ((p ++ (0x80 : Byte) :: List.replicate 47 0).set 111
        ((p ++ (0x80 : Byte) :: List.replicate 47 0).getD 111 0 ||| 0x01)).take 120 ++
      be64Bytes 640 = p ++ encode [0x80000000,0,0,0,0,0,0,1,0,0,0,640] := by
  have hget : (p ++ (0x80 : Byte) :: List.replicate 47 0).getD 111 0 = 0 := by
    rw [List.getD_append_right _ _ _ _ (by omega),hp]
    rfl
  rw [hget,List.set_append_right _ _ (by omega),List.take_append,hp,
    List.take_of_length_le (by omega),List.append_assoc]
  rfl

theorem firstStage_eq (header : Words 20) (nonce : BitVec 64) :
    firstStage header nonce = encode (halvesOf (headerState header (nonce.setWidth 32)) 8) := by
  have hws : header.toList.take 19 = (List.range 19).map header.read := by
    rw [Sha256d.words_toList]
    rfl
  have hlen : (encode ((List.range 19).map header.read ++ [nonce.setWidth 32])).length = 80 := by
    rw [Sha256d.encode_length]
    simp
  have hwhole : wholeBlocks Blake512.blake512Iv 0
      (encode ((List.range 19).map header.read ++ [nonce.setWidth 32])) =
        (Blake512.blake512Iv,0,
          encode ((List.range 19).map header.read ++ [nonce.setWidth 32])) := by
    rw [wholeBlocks,if_neg (by omega)]
  have hbits : (0 : Word64) + 8 * BitVec.ofNat 64 80 = 640 := by decide
  have hblock : encode ((List.range 19).map header.read ++ [nonce.setWidth 32]) ++
      encode [0x80000000,0,0,0,0,0,0,1,0,0,0,640] = encode (block header (nonce.setWidth 32)) :=
    (Sha256d.encode_append _ _).symm
  rw [firstStage,hws]
  simp only [blake512Full,hwhole,hlen,hbits]
  rw [if_neg (by decide),if_neg (by decide),if_neg (by decide),padded_bytes hlen,hblock,
    blake512Compress_block,Sha512.be64Bytes_state,headerState]

def Pushed (push : X11Push) (header : Words 20) : Prop :=
  ∀ i < 19,push.header.read i = bswap32 (header.read i)

theorem prepare_eq (header : Words 20) (target : Words 8) (start : BitVec 64)
    (count capacity : Word) :
    ∃ push,prepare ⟨some header,some target,start,count,capacity⟩ pushBytes = some push ∧
      Pushed push header := by
  refine ⟨_,rfl,fun i hi => ?_⟩
  rw [Words.read_fill _ _ (Nat.le_refl 19) hi,Sha256d.leWordAt_encode,Sha256d.leWord_bytes]
  rfl

section
variable {L : Type} [Inhabited L] {B : BkLane L} {val : L → Word64} {push : X11Push}

theorem headerBlock_map (hB : Lawful B val) (hp : Pushed push header) (nonce : Word) :
    (headerBlock B push nonce).map val = blockWords header nonce := by
  have hword {i : Nat} (hi : i < 19) : bswap32 (push.header.read i) = header.read i := by
    rw [hp i hi,Sha256d.swap_swap]
  refine Cells.ext _ _ fun i hi => ?_
  rw [blockWords,Cells.read_fill _ _ (Nat.le_refl 16),if_pos hi]
  simp only [headerBlock,upTo,Cells.map_write,Cells.map_blank val hB.blank,hB.bklane]
  interval_cases i <;>
    simp (disch := decide) only [Cells.read_write_self,Cells.read_write_ne,hword,Nat.reduceMul,
      Nat.reduceAdd] <;>
    rfl

theorem x11Blake_read (hB : Lawful B val) (hp : Pushed push header) (nonce : Word) {k : Nat}
    (hk : k < 16) : (Glsl.x11Blake B push nonce).read k =
      bswap32 ((halvesOf (headerState header nonce) 8).getD k 0) := by
  have hiv : (upTo 8 (Cells.blank 8) fun i h => Cells.write h i (Glsl.blake512Iv B i)).map val =
      Blake512.blake512Iv := by
    refine Cells.ext _ _ fun i hi => ?_
    rw [Cells.read_map val hB.blank,Cells.read_fill _ _ (Nat.le_refl 8),if_pos hi,Glsl.blake512Iv,
      hB.bklane]
    exact kBlake512Iv_eq i hi
  have hstate := blake512Compress_map hB
    (upTo 8 (Cells.blank 8) fun i h => Cells.write h i (Glsl.blake512Iv B i))
    (headerBlock B push nonce) (B.bklane 640 0)
  rw [hiv,headerBlock_map hB hp,hB.bklane,show join ⟨640,0⟩ = 640 by decide] at hstate
  simp only [Glsl.x11Blake,upTo,hB.bkhi,hB.bklo,read_val hB]
  simp only [upTo] at hstate
  rw [hstate,← headerState]
  interval_cases k <;>
    simp (disch := decide) only [Words.read_write_self,Words.read_write_ne,Nat.reduceMul,
      Nat.reduceAdd] <;>
    rfl

theorem x11Blake_bytes (hB : Lawful B val) (hp : Pushed push header) (nonce : Word) :
    ((List.range 16).flatMap fun k => leBytes ((Glsl.x11Blake B push nonce).read k)) =
      encode (halvesOf (headerState header nonce) 8) := by
  have hbytes : ((List.range 16).flatMap fun k => leBytes ((Glsl.x11Blake B push nonce).read k)) =
      (List.range 16).flatMap fun k =>
        beBytes ((halvesOf (headerState header nonce) 8).getD k 0) :=
    List.flatMap_congr fun k hk => by
      rw [x11Blake_read hB hp nonce (List.mem_range.mp hk),Sha256d.leBytes_bswap]
  rw [hbytes]
  rfl

end

/-- Whichever its lanes are, the stage leaves the bytes of the host's hash of the header. -/
theorem x11_blake_eq (lanes : Glsl.Lanes) (header : Words 20) (target : Words 8)
    (start : BitVec 64) (count capacity : Word) :
    ∃ push,prepare ⟨some header,some target,start,count,capacity⟩ pushBytes = some push ∧
      ∀ nonce : BitVec 64,
        ((List.range 16).flatMap fun k =>
          leBytes ((lanes.x11Blake push (nonce.setWidth 32)).read k)) = firstStage header nonce := by
  obtain ⟨push,hpush,hp⟩ := prepare_eq header target start count capacity
  refine ⟨push,hpush,fun nonce => ?_⟩
  rw [firstStage_eq]
  cases lanes with
  | wide => exact x11Blake_bytes int64_lawful hp _
  | wideAdd => exact x11Blake_bytes wideAdd_lawful hp _
  | pairs => exact x11Blake_bytes pairs_lawful hp _

end VkMiner.Blake512
