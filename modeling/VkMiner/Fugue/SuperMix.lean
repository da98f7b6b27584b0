import VkMiner.Aes.Agreement
import VkMiner.Fugue.Kernel
import VkMiner.Lib.Tables
set_option autoImplicit false

/-! The super-mix by tables is the super-mix of the definition, byte by byte. -/

namespace VkMiner.Fugue
open Loops
open Sha256d (Word Byte)
open Sha256d.Glsl (rotr32)
open Groestl (groestl512Sbox gfMul gfMulPass gfMul_toNat mulFrom Product)
open Aes (byteOf byteOf_xor byteOf_bit ext_bytes byteOf_rotr32 packed byteOf_packed byte_place
  tableSbox tableSbox_eq xtime xtime_xor)

variable {i j k m n r : Nat}

/-! ### The products -/

theorem passes_none (n : Nat) (p a : Byte) :
    (upTo n ⟨p,a,0⟩ fun _ s => gfMulPass s : Product).r = p ∧
      (upTo n ⟨p,a,0⟩ fun _ s => gfMulPass s : Product).b = 0 := by
  refine upTo_invariant (P := fun _ (s : Product) => s.r = p ∧ s.b = 0) ⟨rfl,rfl⟩ fun _ _ s hs => ?_
  obtain ⟨hr,hb⟩ := hs
  rw [gfMulPass,hb,hr]
  exact ⟨rfl,rfl⟩

/-- A loop that goes on while there is something left is one of as many passes as there are bits. -/
theorem gmulFrom_eq {b : Byte} (n : Nat) (p a : Byte) (hb : b.toNat < 2 ^ n) :
    gmulFrom p a b = (upTo n ⟨p,a,b⟩ fun _ s => gfMulPass s : Product).r := by
  induction n generalizing p a b with
  | zero =>
    have hzero : b = 0 := BitVec.eq_of_toNat_eq (Nat.lt_one_iff.mp hb)
    rw [hzero,gmulFrom,if_pos rfl]
    rfl
  | succ n ih =>
    by_cases hzero : b = 0
    · rw [hzero,gmulFrom,if_pos rfl,(passes_none (n + 1) p a).1]
    · have hhalf : (b >>> 1).toNat < 2 ^ n := by
        rw [BitVec.toNat_ushiftRight,Nat.shiftRight_eq_div_pow]
        omega
      rw [gmulFrom,if_neg hzero,ih _ _ hhalf,Nat.add_comm n 1,upTo_add]
      rfl

theorem gmul_eq (a b : Byte) : gmul a b = gfMul a b := gmulFrom_eq 8 0 a b.isLt

def times (n u : Byte) : Byte :=
  if n = 1 then u else if n = 4 then xtime (xtime u) else xtime (xtime u) ^^^ xtime u ^^^ u

theorem times_xor (n x y : Byte) : times n (x ^^^ y) = times n x ^^^ times n y := by
  simp only [times,xtime_xor]
  split
  · rfl
  · split
    · rfl
    · ac_rfl

theorem products : ∀ n ∈ ([1,4,7] : List Byte),∀ v < 256,
    mulFrom 8 0 n.toNat v = (times n (BitVec.ofNat 8 v)).toNat := by decide +kernel

theorem gmul_fugueN (hk : k < 4) (hi : i < 4) (u : Byte) :
    gmul (fugueN k i) u = times (fugueN k i) u := by
  have hn : fugueN k i ∈ ([1,4,7] : List Byte) := by
    interval_cases k <;> interval_cases i <;> decide
  have h := products (fugueN k i) hn u.toNat u.isLt
  rw [BitVec.ofNat_toNat,BitVec.setWidth_eq,← gfMul_toNat] at h
  rw [gmul_eq,BitVec.eq_of_toNat_eq h]

/-! ### The tables -/

theorem mix0_columns : Glsl.kFugue512Mix0Entries = Aes.Glsl.kAesT0Entries.map fun e =>
    packed fun i => times (fugueN (3 - i) 0) (byteOf e 1) := by decide +kernel

theorem kFugue512Mix0_read (s : Byte) : Glsl.kFugue512Mix0.read s.toNat =
    packed fun i => times (fugueN (3 - i) 0) (tableSbox s) := by
  have hread : Glsl.kFugue512Mix0.read s.toNat = Glsl.kFugue512Mix0Entries.getD s.toNat 0 :=
    Words.read_ofFn _ s.isLt
  have hlen : Aes.Glsl.kAesT0Entries.length = 256 := by decide +kernel
  have hs : s.toNat < Aes.Glsl.kAesT0Entries.length := hlen ▸ s.isLt
  rw [hread,mix0_columns,List.getD_eq_getElem _ _ (by rwa [List.length_map]),List.getElem_map,
    tableSbox,List.getD_eq_getElem _ _ hs]

theorem byteOf_mix0 (s : Byte) (hi : i < 4) : byteOf (Glsl.kFugue512Mix0.read s.toNat) i =
    times (fugueN (3 - i) 0) (groestl512Sbox s) := by
  rw [kFugue512Mix0_read,byteOf_packed _ hi,tableSbox_eq]

def rotated (r i : Nat) : Word :=
  let x := Glsl.kFugue512Mix0.read i
  [x,rotr32 x 8,Glsl.rotl32 x 16,Glsl.rotl32 x 8].getD r 0

theorem loadEntry_eq (t : Words 1024) (i : Nat) :
    Glsl.loadEntry t i = Tables.entry 256 4 rotated t i := by
  have hfirst : 256*0 + i = i := by omega
  simp only [Tables.entry,upTo,hfirst]
  rfl

theorem byteOf_rotated (s : Byte) (hr : r < 4) (hi : i < 4) :
    byteOf (rotated r s.toNat) i = times (fugueN (3 - i) r) (groestl512Sbox s) := by
  have hturn {x : Word} {k : Nat} (hk : 0 < k ∧ k < 4) : Glsl.rotl32 x (32 - 8*k) = rotr32 x (8*k) := by
    rw [Glsl.rotl32,rotr32,show 32 - (32 - 8*k) = 8*k from by omega,BitVec.or_comm]
  have hbyte (k : Nat) (hk : 0 < k ∧ k < 4) :
      byteOf (rotr32 (Glsl.kFugue512Mix0.read s.toNat) (8*k)) i =
        times (fugueN (3 - (i + k) % 4) 0) (groestl512Sbox s) := by
    rw [byteOf_rotr32 _ hk hi,byteOf_mix0 s (Nat.mod_lt _ (by decide))]
  have hcirculant : ∀ i < 4,∀ k < 4,fugueN (3 - (i + k) % 4) 0 = fugueN (3 - i) k := by decide
  obtain rfl | rfl | rfl | rfl : r = 0 ∨ r = 1 ∨ r = 2 ∨ r = 3 := by omega
  · exact byteOf_mix0 s hi
  · rw [← hcirculant i hi 1 (by decide),← hbyte 1 (by decide)]
    rfl
  · rw [← hcirculant i hi 2 (by decide),← hbyte 2 (by decide),← hturn (by decide)]
    rfl
  · rw [← hcirculant i hi 3 (by decide),← hbyte 3 (by decide),← hturn (by decide)]
    rfl

section Table

variable (garbage : Words 1024) {width : Nat}

theorem byteOf_mix (hw : 0 < width) (hr : r < 4) (hi : i < 4) (s : Byte) :
    byteOf (Glsl.mix (Glsl.fugueMix garbage width) r (s.setWidth 32)) i =
      times (fugueN (3 - i) r) (groestl512Sbox s) := by
  have hs : (s.setWidth 32).toNat = s.toNat := BitVec.toNat_setWidth_of_le (by decide)
  have hload : Glsl.loadEntry = Tables.entry 256 4 rotated :=
    funext fun t => funext fun i => loadEntry_eq t i
  rw [Glsl.mix,hs,Glsl.fugueMix,hload,Tables.strides_read (Nat.le_refl 1024) hw hr s.isLt]
  exact byteOf_rotated s hr hi

end Table

def others {w : Nat} (k : Nat) (f : Nat → BitVec w) : BitVec w :=
  upTo 4 0 fun i rest => if i ≠ k then rest ^^^ f i else rest

theorem others_hom {w v : Nat} (φ : BitVec w → BitVec v) (hzero : φ 0 = 0)
    (hxor : ∀ x y,φ (x ^^^ y) = φ x ^^^ φ y) (k : Nat) (f : Nat → BitVec w) :
    φ (others k f) = others k fun i => φ (f i) := by
  unfold others
  rw [← hzero]
  refine upTo_hom φ _ fun i _ rest => ?_
  split
  · exact hxor _ _
  · rfl

/-! ### Bytes in their places -/

theorem byteOf_shl (x : Word) (hk : k ≤ i) (hi : i < 4) :
    byteOf (x <<< (8*k)) i = byteOf x (i - k) := by
  refine BitVec.eq_of_getLsbD_eq fun b hb => ?_
  rw [byteOf_bit _ _ hb,byteOf_bit _ _ hb,BitVec.getLsbD_shiftLeft,
    show 8*i + b - 8*k = 8*(i - k) + b from by omega]
  simp [show 8*i + b < 32 from by omega,show ¬8*i + b < 8*k from by omega]

theorem byteOf_shr (x : Word) (k i : Nat) : byteOf (x >>> (8*k)) i = byteOf x (i + k) := by
  refine BitVec.eq_of_getLsbD_eq fun b hb => ?_
  rw [byteOf_bit _ _ hb,byteOf_bit _ _ hb,BitVec.getLsbD_ushiftRight,
    show 8*k + (8*i + b) = 8*(i + k) + b from by omega]

theorem byteOf_bytes (a b c d : Word) (hi : i < 4) :
    byteOf (Glsl.bytes a b c d) i = byteOf ([d,c,b,a].getD i 0) i := by
  have hdiagonal : Glsl.bytes a b c d = Aes.Glsl.diagonal d c b a := by
    rw [Glsl.bytes,Aes.Glsl.diagonal]
    ac_rfl
  rw [hdiagonal,Aes.byteOf_diagonal _ _ _ _ hi]

theorem top_place (x : Word) : x >>> 24 = (byteOf x 3).setWidth 32 := by
  rw [← byte_place x]
  refine BitVec.eq_of_getLsbD_eq fun i hi => ?_
  have hmask : ∀ i < 32,(0xff : Word).getLsbD i = decide (i < 8) := by decide
  rw [BitVec.getLsbD_and,BitVec.getLsbD_ushiftRight,hmask i hi]
  by_cases h : i < 8
  · rw [decide_eq_true h,Bool.and_true]
  · rw [BitVec.getLsbD_of_ge x _ (by omega),Bool.false_and]

/-! ### The host's bytes -/

theorem substituted_eq (s : Words 36) (j : Nat) (hi : i < 4) :
    substituted s j i = groestl512Sbox (byteOf (s.read j) (3 - i)) := by
  rw [substituted,byteOf,show 24 - 8*i = 8*(3 - i) from by omega]

theorem byteOf_column (f : Nat → Byte) (hk : k < 4) :
    byteOf (upTo 4 0 fun k w => w ||| ((f k).setWidth 32 <<< (24 - 8*k))) (3 - k) = f k := by
  have hcolumn : (upTo 4 0 fun k (w : Word) => w ||| ((f k).setWidth 32 <<< (24 - 8*k))) =
      packed fun i => f (3 - i) := by
    show 0#32 ||| (f 0).setWidth 32 <<< 24 ||| (f 1).setWidth 32 <<< 16 |||
      (f 2).setWidth 32 <<< 8 ||| (f 3).setWidth 32 <<< 0 =
        (f 3).setWidth 32 ||| (f 2).setWidth 32 <<< 8 ||| (f 1).setWidth 32 <<< 16 |||
          (f 0).setWidth 32 <<< 24
    rw [BitVec.shiftLeft_zero,BitVec.zero_or]
    generalize (f 0).setWidth 32 <<< 24 = a
    generalize (f 1).setWidth 32 <<< 16 = b
    generalize (f 2).setWidth 32 <<< 8 = c
    generalize (f 3).setWidth 32 = d
    rw [BitVec.or_comm _ d,BitVec.or_comm (a ||| b) c,BitVec.or_comm a b,← BitVec.or_assoc,
      ← BitVec.or_assoc]
  rw [hcolumn,byteOf_packed _ (by omega),Nat.sub_sub_self (by omega)]

theorem byteOf_fugueSmix (s : Words 36) (hn : n < 4) (hk : k < 4) :
    byteOf ((fugueSmix s).read n) (3 - k) = mixedByte (substituted s) n k := by
  rw [fugueSmix,Words.read_fill _ _ (by decide) hn,Words.read_fill _ _ (Nat.le_refl 4) hn,
    byteOf_column _ hk]

theorem mixedByte_eq {u : Nat → Nat → Byte} (n : Nat) (hk : k < 4) :
    let j := (n + k) % 4
    mixedByte u n k = (times (fugueN k 0) (u j 0) ^^^ times (fugueN k 1) (u j 1) ^^^
      times (fugueN k 2) (u j 2) ^^^ times (fugueN k 3) (u j 3)) ^^^
        times (fugueN j k) (others k fun i => u i k) := by
  intro j
  have hj : j < 4 := Nat.mod_lt _ (by decide)
  have hmask : (n + k) &&& 3 = j := Nat.and_two_pow_sub_one_eq_mod (n + k) 2
  rw [mixedByte,hmask,gmul_fugueN hj hk,others]
  simp (disch := first | exact hk | decide) only [upTo,gmul_fugueN]
  rw [show ∀ x : Byte,0 ^^^ x = x from fun _ => BitVec.zero_xor]

/-! ### The device's bytes -/

def looked (table : Words 1024) (x : Word) (r : Nat) : Word :=
  Glsl.mix table r ((byteOf x (3 - r)).setWidth 32)

def columnSum (table : Words 1024) (s : Words 36) (j : Nat) : Word :=
  looked table (s.read j) 0 ^^^ looked table (s.read j) 1 ^^^ looked table (s.read j) 2 ^^^
    looked table (s.read j) 3

def restSum (table : Words 1024) (s : Words 36) (k : Nat) : Word :=
  others k fun i => looked table (s.read i) k

theorem sums_eq (table : Words 1024) (s : Words 36) :
    Glsl.sums table (s.read 0) (s.read 1) (s.read 2) (s.read 3) =
      ⟨columnSum table s 0,columnSum table s 1,columnSum table s 2,columnSum table s 3,
        restSum table s 0,restSum table s 1,restSum table s 2,restSum table s 3⟩ := by
  have hlow (x : Word) : x &&& 0xff = (byteOf x 0).setWidth 32 := by
    rw [← byte_place x,Nat.mul_zero,BitVec.ushiftRight_zero]
  have h₁ (x : Word) : byteOf (x >>> 8) 0 = byteOf x 1 := byteOf_shr x 1 0
  have h₂ (x : Word) : byteOf (x >>> 16) 0 = byteOf x 2 := byteOf_shr x 2 0
  have hzero (x : Word) : 0 ^^^ x = x := BitVec.zero_xor
  simp only [Glsl.sums,columnSum,restSum,others,upTo,looked,top_place,hlow,h₁,h₂,hzero,
    Nat.reduceSub,ne_eq,Nat.reduceEqDiff,not_true_eq_false,not_false_eq_true,if_true,if_false]

theorem smix_place (table : Words 1024) (s : Words 36) (hn : n < 4) (hk : k < 4) :
    byteOf ((Glsl.fugue512Smix table s).read n) (3 - k) =
      byteOf (columnSum table s ((n + k) % 4)) (3 - k) ^^^
        byteOf (restSum table s k) (3 - (n + k) % 4) := by
  have hup₁ (x : Word) (i : Nat) (hk : 1 ≤ i) (hi : i < 4) := byteOf_shl x hk hi
  have hup₂ (x : Word) (i : Nat) (hk : 2 ≤ i) (hi : i < 4) := byteOf_shl x hk hi
  have hup₃ (x : Word) (i : Nat) (hk : 3 ≤ i) (hi : i < 4) := byteOf_shl x hk hi
  have hdown₁ (x : Word) := byteOf_shr x 1
  have hdown₂ (x : Word) := byteOf_shr x 2
  have hdown₃ (x : Word) := byteOf_shr x 3
  simp only [Nat.reduceMul] at hup₁ hup₂ hup₃ hdown₁ hdown₂ hdown₃
  rw [Glsl.fugue512Smix,sums_eq]
  generalize columnSum table s = c
  generalize restSum table s = r
  interval_cases n <;> interval_cases k <;>
    simp (disch := decide) only [Words.read_write_self,Words.read_write_ne,Nat.reduceAdd,
      Nat.reduceSub,Nat.reduceMod,byteOf_bytes,List.getD_cons_zero,List.getD_cons_succ,byteOf_xor,
      hup₁,hup₂,hup₃,hdown₁,hdown₂,hdown₃]

section Device

variable (garbage : Words 1024) {width : Nat}

theorem byteOf_looked (hw : 0 < width) (s : Words 36) (j : Nat) (hr : r < 4) (hi : i < 4) :
    byteOf (looked (Glsl.fugueMix garbage width) (s.read j) r) (3 - i) =
      times (fugueN i r) (substituted s j r) := by
  rw [looked,byteOf_mix garbage hw hr (by omega),substituted_eq s j hr,Nat.sub_sub_self (by omega)]

theorem smix_bytes (hw : 0 < width) (s : Words 36) (hn : n < 4) (hk : k < 4) :
    byteOf ((Glsl.fugue512Smix (Glsl.fugueMix garbage width) s).read n) (3 - k) =
      mixedByte (substituted s) n k := by
  have hj : (n + k) % 4 < 4 := Nat.mod_lt _ (by decide)
  have hlooked (j r i : Nat) (hr : r < 4) (hi : i < 4) := byteOf_looked garbage hw s j hr hi
  have hrest : byteOf (restSum (Glsl.fugueMix garbage width) s k) (3 - (n + k) % 4) =
      times (fugueN ((n + k) % 4) k) (others k fun i => substituted s i k) := by
    have hzero : byteOf 0 (3 - (n + k) % 4) = 0 := by simp [byteOf]
    rw [restSum,others_hom (byteOf · _) hzero fun x y => byteOf_xor x y _,
      others_hom (times _) (by simp [times,xtime]) (times_xor _)]
    simp only [hlooked _ k _ hk hj]
  rw [smix_place _ s hn hk,hrest,mixedByte_eq n hk,columnSum]
  simp (disch := first | exact hk | decide) only [byteOf_xor,hlooked]

theorem fugue512Smix_eq (hw : 0 < width) (s : Words 36) :
    Glsl.fugue512Smix (Glsl.fugueMix garbage width) s = fugueSmix s := by
  refine Words.ext _ _ fun n _ => ?_
  by_cases hn : n < 4
  · refine ext_bytes fun i hi => ?_
    have hdevice := smix_bytes garbage hw s hn (by omega : 3 - i < 4)
    have hhost := byteOf_fugueSmix s hn (by omega : 3 - i < 4)
    rw [Nat.sub_sub_self (by omega)] at hdevice hhost
    exact hdevice.trans hhost.symm
  · have hhost : (fugueSmix s).read n = s.read n :=
      upTo_keep (Words.read · n) s fun i hi s => Words.read_write_ne _ _ (by omega)
    rw [hhost]
    simp (disch := omega) only [Glsl.fugue512Smix,Words.read_write_ne]

end Device

end VkMiner.Fugue
