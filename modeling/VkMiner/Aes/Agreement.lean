import VkMiner.Aes.Host
import VkMiner.Aes.Kernel
import VkMiner.Groestl.Planes
import VkMiner.Lib.Quads
set_option autoImplicit false

/-! A round of AES is the same in every form. -/

namespace VkMiner.Aes
open Loops Circuit Quads
open Sha256d (Word Byte)
open Sha256d.Glsl (rotr32)
open Groestl (groestl512Sbox)

/-! ### Words and their bytes -/

section Bytes

variable {x y : Word} {r i b : Nat}

theorem byteOf_bit (x : Word) (r : Nat) (hb : b < 8) :
    (byteOf x r).getLsbD b = x.getLsbD (8*r + b) := by
  simp [byteOf,hb]

theorem byteOf_xor (x y : Word) (r : Nat) : byteOf (x ^^^ y) r = byteOf x r ^^^ byteOf y r := by
  refine BitVec.eq_of_getLsbD_eq fun b hb => ?_
  simp only [BitVec.getLsbD_xor,byteOf_bit _ _ hb]

theorem ext_bytes (h : ∀ r < 4,byteOf x r = byteOf y r) : x = y := by
  refine BitVec.eq_of_getLsbD_eq fun i hi => ?_
  have hb : i % 8 < 8 := Nat.mod_lt _ (by decide)
  have hbyte := congrArg (·.getLsbD (i % 8)) (h (i / 8) (by omega))
  simp only [byteOf_bit _ _ hb] at hbyte
  rwa [Nat.div_add_mod] at hbyte

def packed (f : Nat → Byte) : Word :=
  (f 0).setWidth 32 ||| ((f 1).setWidth 32 <<< 8) ||| ((f 2).setWidth 32 <<< 16) |||
    ((f 3).setWidth 32 <<< 24)

theorem byteOf_packed (f : Nat → Byte) (hr : r < 4) : byteOf (packed f) r = f r := by
  refine BitVec.eq_of_getLsbD_eq fun b hb => ?_
  rw [byteOf_bit _ _ hb]
  simp only [packed,BitVec.getLsbD_or,BitVec.getLsbD_shiftLeft,BitVec.getLsbD_setWidth]
  interval_cases r <;> interval_cases b <;> simp [BitVec.getLsbD_of_ge]

theorem byteOf_rotr32 (x : Word) (hr : 0 < r ∧ r < 4) (hi : i < 4) :
    byteOf (rotr32 x (8*r)) i = byteOf x ((i + r) % 4) := by
  refine BitVec.eq_of_getLsbD_eq fun b hb => ?_
  rw [byteOf_bit _ _ hb,byteOf_bit _ _ hb,rotr32,BitVec.getLsbD_or,BitVec.getLsbD_ushiftRight,
    BitVec.getLsbD_shiftLeft]
  by_cases hin : i + r < 4
  · have hlow : 8*i + b < 32 - 8*r := by omega
    rw [Nat.mod_eq_of_lt hin]
    simp only [hlow,decide_true,Bool.not_true,Bool.and_false,Bool.false_and,Bool.or_false]
    congr 1
    omega
  · have hhigh : ¬8*i + b < 32 - 8*r := by omega
    rw [BitVec.getLsbD_of_ge x (8*r + (8*i + b)) (by omega),
      show (i + r) % 4 = i + r - 4 from by omega]
    simp only [hhigh,decide_false,Bool.not_false,Bool.and_true,Bool.false_or,
      show 8*i + b < 32 from by omega,decide_true,Bool.true_and]
    congr 1
    omega

end Bytes

/-! ### The field -/

theorem high_iff (a : Byte) : a &&& 0x80 ≠ 0 ↔ a.getLsbD 7 = true := Groestl.highBit_iff a

def carried (high : Bool) : Byte := bif high then 0x1b else 0

theorem xtime_eq (a : Byte) : xtime a = (a <<< 1) ^^^ carried (a.getLsbD 7) := by
  simp only [xtime,high_iff,carried]
  cases a.getLsbD 7 <;> rfl

theorem carried_xor : ∀ a b : Bool,carried (Bool.xor a b) = carried a ^^^ carried b := by decide

theorem xtime_xor (a b : Byte) : xtime (a ^^^ b) = xtime a ^^^ xtime b := by
  rw [xtime_eq,xtime_eq,xtime_eq,BitVec.getLsbD_xor,carried_xor,BitVec.shiftLeft_xor_distrib]
  ac_rfl

theorem carries_product : ∀ t₀ t₁ t₂ t₃ : Bool,
    packed (fun r => bif [t₀,t₁,t₂,t₃].getD r false then 1 else 0) * 0x1b =
      packed fun r => carried ([t₀,t₁,t₂,t₃].getD r false) := by decide

def highBits (a : Word) : List Bool :=
  [(byteOf a 0).getLsbD 7,(byteOf a 1).getLsbD 7,(byteOf a 2).getLsbD 7,(byteOf a 3).getLsbD 7]

theorem highBits_get (a : Word) {r : Nat} (hr : r < 4) :
    (highBits a).getD r false = (byteOf a r).getLsbD 7 := by
  interval_cases r <;> rfl

theorem carry_bits (a : Word) :
    (a >>> 7) &&& 0x01010101 = packed fun r => bif (highBits a).getD r false then 1 else 0 := by
  refine ext_bytes fun r hr => BitVec.eq_of_getLsbD_eq fun b hb => ?_
  rw [byteOf_packed _ hr,highBits_get a hr,byteOf_bit _ _ hb,byteOf_bit a r (show 7 < 8 by decide),
    BitVec.getLsbD_and,BitVec.getLsbD_ushiftRight]
  have hmask : ∀ r < 4,∀ b < 8,(0x01010101 : Word).getLsbD (8*r + b) = decide (b = 0) := by decide
  rw [hmask r hr b hb]
  by_cases h : b = 0
  · rw [h,Nat.add_zero,Nat.add_comm]
    cases a.getLsbD (8*r + 7) <;> rfl
  · rw [decide_eq_false h,Bool.and_false]
    cases a.getLsbD (8*r + 7)
    · exact BitVec.getLsbD_zero.symm
    · show false = (1#8).getLsbD b
      rw [BitVec.getLsbD_one,decide_eq_false h,Bool.and_false]

theorem doubled_bits (a : Word) {r : Nat} (hr : r < 4) :
    byteOf ((a &&& 0x7f7f7f7f) <<< 1) r = byteOf a r <<< 1 := by
  refine BitVec.eq_of_getLsbD_eq fun b hb => ?_
  have hmask : ∀ r < 4,∀ b < 8,(0x7f7f7f7f : Word).getLsbD (8*r + b) = decide (b < 7) := by decide
  rw [byteOf_bit _ _ hb,BitVec.getLsbD_shiftLeft,BitVec.getLsbD_shiftLeft,BitVec.getLsbD_and]
  cases b with
  | zero =>
    obtain rfl | hpos := Nat.eq_zero_or_pos r
    · rfl
    · have h := hmask (r - 1) (by omega) 7 (by decide)
      rw [show 8*r + 0 - 1 = 8*(r - 1) + 7 from by omega,h]
      simp
  | succ b =>
    rw [show 8*r + (b + 1) - 1 = 8*r + b from by omega,hmask r hr b (by omega),
      Nat.add_sub_cancel,byteOf_bit _ _ (by omega)]
    have hroom : 8*r + (b + 1) < 32 := by omega
    simp [hroom,hb,show b < 7 from by omega]

theorem byteOf_aesXtime4 (a : Word) {r : Nat} (hr : r < 4) :
    byteOf (Glsl.aesXtime4 a) r = xtime (byteOf a r) := by
  rw [Glsl.aesXtime4,byteOf_xor,doubled_bits a hr,carry_bits,highBits,carries_product,← highBits,
    byteOf_packed _ hr,highBits_get a hr,xtime_eq]

/-! ### A column -/

def mixed (a : Nat → Byte) (r : Nat) : Byte :=
  a r ^^^ (a 0 ^^^ a 1 ^^^ a 2 ^^^ a 3) ^^^ xtime (a r ^^^ a ((r + 1) &&& 3))

theorem mixColumn_eq (a : Nat → Byte) : mixColumn a = packed (mixed a) := by
  show 0#32 ||| (mixed a 0).setWidth 32 <<< 0 ||| (mixed a 1).setWidth 32 <<< 8 |||
    (mixed a 2).setWidth 32 <<< 16 ||| (mixed a 3).setWidth 32 <<< 24 = packed (mixed a)
  rw [BitVec.shiftLeft_zero,BitVec.zero_or,packed]

theorem others (a b c d : Byte) : a ^^^ (a ^^^ b ^^^ c ^^^ d) = b ^^^ c ^^^ d := by
  rw [BitVec.xor_assoc a b c,BitVec.xor_assoc a,← BitVec.xor_assoc a a,BitVec.xor_self,
    BitVec.zero_xor]

theorem mixed_eq (a : Nat → Byte) {r : Nat} (hr : r < 4) :
    mixed a r = xtime (a r ^^^ a ((r + 1) % 4)) ^^^ a ((r + 1) % 4) ^^^ a ((r + 2) % 4) ^^^
      a ((r + 3) % 4) := by
  have hsum : a 0 ^^^ a 1 ^^^ a 2 ^^^ a 3 =
      a r ^^^ a ((r + 1) % 4) ^^^ a ((r + 2) % 4) ^^^ a ((r + 3) % 4) := by
    interval_cases r <;> simp only [Nat.reduceAdd,Nat.reduceMod] <;> ac_rfl
  have hnext : (r + 1) &&& 3 = (r + 1) % 4 := Nat.and_two_pow_sub_one_eq_mod (r + 1) 2
  rw [mixed,hsum,others,hnext]
  ac_rfl

theorem byteOf_aesMixColumn (a : Word) {r : Nat} (hr : r < 4) :
    byteOf (Glsl.aesMixColumn a) r = mixed (byteOf a) r := by
  have h₁ := byteOf_rotr32 a (r := 1) (by decide) hr
  have h₂ := byteOf_rotr32 a (r := 2) (by decide) hr
  have h₃ := byteOf_rotr32 a (r := 3) (by decide) hr
  simp only [Nat.mul_one,Nat.reduceMul] at h₁ h₂ h₃
  rw [Glsl.aesMixColumn,byteOf_xor,byteOf_xor,byteOf_xor,byteOf_aesXtime4 _ hr,byteOf_xor,h₁,h₂,h₃,
    mixed_eq _ hr]

theorem byteOf_diagonal (c₀ c₁ c₂ c₃ : Word) {r : Nat} (hr : r < 4) :
    byteOf (Glsl.diagonal c₀ c₁ c₂ c₃) r = byteOf ([c₀,c₁,c₂,c₃].getD r 0) r := by
  refine BitVec.eq_of_getLsbD_eq fun b hb => ?_
  rw [byteOf_bit _ _ hb,byteOf_bit _ _ hb]
  simp only [Glsl.diagonal,BitVec.getLsbD_or,BitVec.getLsbD_and]
  have hmask : ∀ r < 4,∀ b < 8,∀ j < 4,
      ([0x000000ff,0x0000ff00,0x00ff0000,0xff000000].getD j (0 : Word)).getLsbD (8*r + b) =
        decide (r = j) := by decide
  have h := hmask r hr b hb
  rw [show BitVec.getLsbD 0x000000ff (8*r + b) = _ from h 0 (by decide),
    show BitVec.getLsbD 0x0000ff00 (8*r + b) = _ from h 1 (by decide),
    show BitVec.getLsbD 0x00ff0000 (8*r + b) = _ from h 2 (by decide),
    show BitVec.getLsbD 0xff000000 (8*r + b) = _ from h 3 (by decide)]
  interval_cases r <;> simp

/-! ### The sliced round -/

theorem transpose_hasByte (x : Words 8) {k r : Nat} (hk : k < 8) (hr : r < 4) :
    Groestl.Glsl.HasByte (Glsl.aesTranspose x) (8*r + k) (byteOf (x.read k) r) := by
  intro b hb
  rw [Glsl.aesTranspose,Transpose.transpose_bit x hb (by omega),byteOf_bit _ _ hb,
    show (8*r + k) % 8 = k from by omega,show 8*r + k - k + b = 8*r + b from by omega]

theorem byteOf_transpose {q : Words 8} {v : Byte} {k r : Nat} (hk : k < 8) (hr : r < 4)
    (h : Groestl.Glsl.HasByte q (8*r + k) v) : byteOf ((Glsl.aesTranspose q).read k) r = v := by
  refine BitVec.eq_of_getLsbD_eq fun b hb => ?_
  rw [byteOf_bit _ _ hb,Glsl.aesTranspose,Transpose.transpose_bit q hk (by omega),
    show (8*r + b) % 8 = b from by omega,show 8*r + b - b + k = 8*r + k from by omega,h b hb]

theorem byteOf_aesSubBytes (x : Words 8) {k r : Nat} (hk : k < 8) (hr : r < 4) :
    byteOf ((Glsl.aesSubBytes x).read k) r = groestl512Sbox (byteOf (x.read k) r) := by
  have hplanes := (transpose_hasByte x hk hr).sbox (by omega)
  exact byteOf_transpose hk hr hplanes

def roundColumn (x : Words 8) (b c : Nat) : Word :=
  packed (mixed fun r => groestl512Sbox (byteOf (x.read (b + (c + r) % 4)) r))

theorem aesMixColumn_diagonal (x : Words 8) {b : Nat} (hb : b + 4 ≤ 8) (c : Nat) :
    Glsl.aesMixColumn (Glsl.diagonal ((Glsl.aesSubBytes x).read (b + c % 4))
      ((Glsl.aesSubBytes x).read (b + (c + 1) % 4)) ((Glsl.aesSubBytes x).read (b + (c + 2) % 4))
      ((Glsl.aesSubBytes x).read (b + (c + 3) % 4))) = roundColumn x b c := by
  refine ext_bytes fun r hr => ?_
  rw [byteOf_aesMixColumn _ hr,roundColumn,byteOf_packed _ hr,mixed_eq _ hr,mixed_eq _ hr]
  have hbyte : ∀ r < 4,byteOf (Glsl.diagonal ((Glsl.aesSubBytes x).read (b + c % 4))
      ((Glsl.aesSubBytes x).read (b + (c + 1) % 4)) ((Glsl.aesSubBytes x).read (b + (c + 2) % 4))
      ((Glsl.aesSubBytes x).read (b + (c + 3) % 4))) r =
        groestl512Sbox (byteOf (x.read (b + (c + r) % 4)) r) := fun r hr => by
    rw [byteOf_diagonal _ _ _ _ hr,← byteOf_aesSubBytes x (by omega) hr]
    interval_cases r <;> rfl
  rw [hbyte r hr,hbyte _ (by omega),hbyte _ (by omega),hbyte _ (by omega)]

theorem aesShiftMix_read (x : Words 8) {b c : Nat} (hb : b + 4 ≤ 8) (hc : c < 4) :
    (Glsl.aesShiftMix x b).read (b + c) = Glsl.aesMixColumn (Glsl.diagonal (x.read (b + c % 4))
      (x.read (b + (c + 1) % 4)) (x.read (b + (c + 2) % 4)) (x.read (b + (c + 3) % 4))) := by
  interval_cases c <;>
    simp (disch := omega) only [Glsl.aesShiftMix,Words.read_write_self,Words.read_write_ne,
      Nat.reduceAdd,Nat.reduceMod]

theorem aesShiftMix_frame (x : Words 8) {b i : Nat} (hi : i < b ∨ b + 4 ≤ i) :
    (Glsl.aesShiftMix x b).read i = x.read i := by
  simp (disch := omega) only [Glsl.aesShiftMix,Words.read_write_ne]

theorem aesRound2_sliced (x : Words 8) {b c : Nat} (hb : b = 0 ∨ b = 4) (hc : c < 4) :
    (Glsl.aesRound2 .sliced x).read (b + c) = roundColumn x b c := by
  rw [← aesMixColumn_diagonal x (by omega) c,Glsl.aesRound2]
  obtain rfl | rfl := hb
  · rw [aesShiftMix_frame _ (by omega),aesShiftMix_read _ (by decide) hc]
  · rw [aesShiftMix_read _ (by decide) hc]
    simp (disch := omega) only [aesShiftMix_frame]

/-! ### The round by table -/

def columnOf (s : Byte) (r : Nat) : Byte := [xtime s,s,s,xtime s ^^^ s].getD r 0

theorem kAesT0_getD {v : Nat} (hv : v < 256) :
    Glsl.kAesT0.read v = Glsl.kAesT0Entries.getD v 0 := Words.read_ofFn _ hv

def tableSbox (s : Byte) : Byte := byteOf (Glsl.kAesT0Entries.getD s.toNat 0) 1

theorem testBit_foldr {α : Type} (f : α → Bool) (l : List α) (v : Nat) :
    (l.foldr (fun e n => Nat.bit (f e) n) 0).testBit v = (l.map f).getD v false := by
  induction l generalizing v with
  | nil => exact Nat.zero_testBit v
  | cons e l ih =>
    cases v with
    | zero => exact Nat.testBit_bit_zero _ _
    | succ v => exact (Nat.testBit_bit_succ _ _ _).trans (ih v)

theorem table_gates : ∀ b < 8,(run (words 256) Groestl.Glsl.SboxWires.gates
    (fun n => Groestl.Glsl.truth (7 - n)) (400 + (7 - b))).toNat =
      Glsl.kAesT0Entries.foldr (fun e n => Nat.bit ((byteOf e 1).getLsbD b) n) 0 := by
  decide +kernel

theorem kAesT0_length : Glsl.kAesT0Entries.length = 256 := by decide +kernel

theorem tableSbox_eq (s : Byte) : tableSbox s = groestl512Sbox s := by
  have hs := s.isLt
  have hlen : s.toNat < Glsl.kAesT0Entries.length := kAesT0_length ▸ hs
  refine BitVec.eq_of_getLsbD_eq fun b hb => ?_
  rw [Groestl.groestl512Sbox_eq,← Groestl.Glsl.gates_table b hb _ hs,
    ← BitVec.testBit_toNat (run _ _ _ _),table_gates b hb,testBit_foldr,
    List.getD_eq_getElem _ _ (by rwa [List.length_map]),List.getElem_map,tableSbox,
    List.getD_eq_getElem _ _ hlen]

theorem table_columns : Glsl.kAesT0Entries = Glsl.kAesT0Entries.map fun e =>
    packed (columnOf (byteOf e 1)) := by decide +kernel

theorem kAesT0_read (s : Byte) :
    Glsl.kAesT0.read s.toNat = packed (columnOf (groestl512Sbox s)) := by
  have hs : s.toNat < Glsl.kAesT0Entries.length := kAesT0_length ▸ s.isLt
  have hcolumn := congrArg (·[s.toNat]?) table_columns
  simp only [List.getElem?_map,List.getElem?_eq_getElem hs,Option.map_some] at hcolumn
  rw [kAesT0_getD s.isLt,← tableSbox_eq,tableSbox,List.getD_eq_getElem _ _ hs]
  exact Option.some.inj hcolumn

theorem rotl32_none (device : Glsl.FullShift) (x : Word) : Glsl.rotl32 device x 0 = x := by
  cases device <;> simp [Glsl.rotl32,Glsl.FullShift.shr]

theorem shr_some (device : Glsl.FullShift) (x : Word) {n : Nat} (hn : n < 32) :
    device.shr x n = x >>> n := if_pos hn

theorem byteOf_rotl32 (device : Glsl.FullShift) (x : Word) {r i : Nat} (hr : r < 4) (hi : i < 4) :
    byteOf (Glsl.rotl32 device x (8*r)) i = byteOf x ((i + (4 - r)) % 4) := by
  obtain rfl | hpos := Nat.eq_zero_or_pos r
  · rw [Nat.mul_zero,rotl32_none,Nat.sub_zero,Nat.add_mod_right,Nat.mod_eq_of_lt hi]
  · have hturn := byteOf_rotr32 x (r := 4 - r) (by omega) hi
    rw [rotr32,show 32 - 8*(4 - r) = 8*r from by omega,BitVec.or_comm] at hturn
    rw [Glsl.rotl32,shr_some device x (by omega),show 32 - 8*r = 8*(4 - r) from by omega,hturn]

section Shared

variable (device : Glsl.FullShift) {width v : Nat}

theorem oneTable_read (hw : 0 < width) (hv : v < 256) :
    (Glsl.oneTable width).read v = Glsl.kAesT0.read v :=
  Words.read_writeAll _ _ hv (.inl (mem_strides hv hw))

theorem fourTables_write (t : Words 1024) {r i : Nat} (hr : r < 4) (hi : i < 256) (hv : v < 256) :
    (upTo 4 t fun r t => t.write (256*r + i) (Glsl.rotl32 device (Glsl.kAesT0.read i) (8*r))).read
      (256*r + v) = if i = v then Glsl.rotl32 device (Glsl.kAesT0.read v) (8*r)
        else t.read (256*r + v) := by
  by_cases h : i = v
  · rw [if_pos h,h]
    interval_cases r <;>
      simp (disch := omega) only [upTo,Words.read_write_self,Words.read_write_ne]
  · rw [if_neg h]
    simp (disch := omega) only [upTo,Words.read_write_ne]

theorem fourTables_fold {r : Nat} (hr : r < 4) (hv : v < 256) {places : List Nat}
    (hp : ∀ i ∈ places,i < 256) (t : Words 1024) (ht : v ∈ places ∨
      t.read (256*r + v) = Glsl.rotl32 device (Glsl.kAesT0.read v) (8*r)) :
    (places.foldl (fun t i => upTo 4 t fun r t =>
      t.write (256*r + i) (Glsl.rotl32 device (Glsl.kAesT0.read i) (8*r))) t).read (256*r + v) =
        Glsl.rotl32 device (Glsl.kAesT0.read v) (8*r) := by
  induction places generalizing t with
  | nil => exact ht.resolve_left List.not_mem_nil
  | cons i places ih =>
    refine ih (fun j hj => hp j (List.mem_cons_of_mem i hj)) _ ?_
    rw [fourTables_write device t hr (hp i List.mem_cons_self) hv]
    by_cases h : i = v
    · exact .inr (if_pos h)
    · rw [if_neg h]
      exact ht.imp_left fun hmem => (List.mem_cons.mp hmem).resolve_left (Ne.symm h)

theorem fourTables_read (hw : 0 < width) {r : Nat} (hr : r < 4) (hv : v < 256) :
    (Glsl.fourTables device width).read (256*r + v) =
      Glsl.rotl32 device (Glsl.kAesT0.read v) (8*r) := by
  refine fourTables_fold device hr hv (fun i hi => ?_) _ (.inl (mem_strides hv hw))
  obtain ⟨lane,-,hlane⟩ := List.mem_flatMap.mp hi
  exact ((mem_strided hw).mp hlane).2.1

theorem aesT_eq (tables : Glsl.Tables) (hw : 0 < width) {r : Nat} (hr : r < 4) (s : Byte) :
    Glsl.aesT tables device width r (s.setWidth 32) =
      Glsl.rotl32 device (packed (columnOf (groestl512Sbox s))) (8*r) := by
  have hs : (s.setWidth 32).toNat = s.toNat := BitVec.toNat_setWidth_of_le (by decide)
  have hv := s.isLt
  cases tables with
  | one => rw [Glsl.aesT,hs,oneTable_read hw hv,kAesT0_read]
  | four => rw [Glsl.aesT,hs,fourTables_read device hw hr hv,kAesT0_read]

end Shared

theorem byteOf_aesT (tables : Glsl.Tables) (device : Glsl.FullShift) {width r i : Nat}
    (hw : 0 < width) (hr : r < 4) (hi : i < 4) (s : Byte) :
    byteOf (Glsl.aesT tables device width r (s.setWidth 32)) i =
      columnOf (groestl512Sbox s) ((i + (4 - r)) % 4) := by
  rw [aesT_eq device tables hw hr,byteOf_rotl32 device _ hr hi,
    byteOf_packed _ (Nat.mod_lt _ (by decide))]

theorem byte_place (x : Word) (r : Nat) :
    (x >>> (8*r)) &&& 0xff = (byteOf x r).setWidth 32 := by
  refine BitVec.eq_of_getLsbD_eq fun i hi => ?_
  have hmask : ∀ i < 32,(0xff : Word).getLsbD i = decide (i < 8) := by decide
  rw [BitVec.getLsbD_and,BitVec.getLsbD_ushiftRight,hmask i hi,BitVec.getLsbD_setWidth,
    decide_eq_true hi,Bool.true_and]
  by_cases h : i < 8
  · rw [decide_eq_true h,Bool.and_true,byteOf_bit _ _ h]
  · rw [decide_eq_false h,Bool.and_false,BitVec.getLsbD_of_ge _ _ (by omega)]

theorem aesTcol_eq (t : Nat → Word → Word) (a b c d : Word) :
    Glsl.aesTcol t a b c d = t 0 ((byteOf a 0).setWidth 32) ^^^ t 1 ((byteOf b 1).setWidth 32) ^^^
      t 2 ((byteOf c 2).setWidth 32) ^^^ t 3 ((byteOf d 3).setWidth 32) := by
  have hd : d >>> 24 = (byteOf d 3).setWidth 32 := by
    rw [← byte_place d]
    refine BitVec.eq_of_getLsbD_eq fun i hi => ?_
    have hmask : ∀ i < 32,(0xff : Word).getLsbD i = decide (i < 8) := by decide
    rw [BitVec.getLsbD_and,BitVec.getLsbD_ushiftRight,hmask i hi]
    by_cases h : i < 8
    · rw [decide_eq_true h,Bool.and_true]
    · rw [BitVec.getLsbD_of_ge d _ (by omega),Bool.false_and]
  rw [Glsl.aesTcol,← byte_place a,← byte_place b,← byte_place c,hd,Nat.mul_zero,
    BitVec.ushiftRight_zero]

theorem columns_mixed (a : Nat → Byte) {i : Nat} (hi : i < 4) :
    columnOf (a 0) ((i + 4) % 4) ^^^ columnOf (a 1) ((i + 3) % 4) ^^^
      columnOf (a 2) ((i + 2) % 4) ^^^ columnOf (a 3) ((i + 1) % 4) = mixed a i := by
  rw [mixed_eq a hi]
  interval_cases i <;>
    simp only [Nat.reduceAdd,Nat.reduceMod,columnOf,List.getD_cons_zero,List.getD_cons_succ,
      xtime_xor] <;> ac_rfl

theorem aesTableBlock_read (t : Nat → Word → Word) (x : Words 8) {b c : Nat} (hb : b + 4 ≤ 8)
    (hc : c < 4) : (Glsl.aesTableBlock t b x).read (b + c) = Glsl.aesTcol t (x.read (b + c % 4))
      (x.read (b + (c + 1) % 4)) (x.read (b + (c + 2) % 4)) (x.read (b + (c + 3) % 4)) := by
  interval_cases c <;>
    simp (disch := omega) only [Glsl.aesTableBlock,Nat.add_zero,Words.read_write_self,
      Words.read_write_ne,Nat.reduceAdd,Nat.reduceMod]

theorem aesTableBlock_frame (t : Nat → Word → Word) (x : Words 8) {b i : Nat}
    (hi : i < b ∨ b + 4 ≤ i) : (Glsl.aesTableBlock t b x).read i = x.read i := by
  simp (disch := omega) only [Glsl.aesTableBlock,Words.read_write_ne]

theorem aesTcol_roundColumn (tables : Glsl.Tables) (device : Glsl.FullShift) {width : Nat}
    (hw : 0 < width) (x : Words 8) (b c : Nat) :
    Glsl.aesTcol (Glsl.aesT tables device width) (x.read (b + c % 4)) (x.read (b + (c + 1) % 4))
      (x.read (b + (c + 2) % 4)) (x.read (b + (c + 3) % 4)) = roundColumn x b c := by
  refine ext_bytes fun i hi => ?_
  rw [aesTcol_eq,byteOf_xor,byteOf_xor,byteOf_xor,byteOf_aesT tables device hw (by decide) hi,
    byteOf_aesT tables device hw (by decide) hi,byteOf_aesT tables device hw (by decide) hi,
    byteOf_aesT tables device hw (by decide) hi,roundColumn,byteOf_packed _ hi]
  exact columns_mixed (fun r => groestl512Sbox (byteOf (x.read (b + (c + r) % 4)) r)) hi

theorem aesRound2_table (tables : Glsl.Tables) (device : Glsl.FullShift) {width : Nat}
    (hw : 0 < width) (x : Words 8) {b c : Nat} (hb : b = 0 ∨ b = 4) (hc : c < 4) :
    (Glsl.aesRound2 (.table tables device width hw) x).read (b + c) = roundColumn x b c := by
  rw [← aesTcol_roundColumn tables device hw x b c,Glsl.aesRound2,upTo,upTo,upTo,Nat.mul_zero,
    Nat.mul_one]
  obtain rfl | rfl := hb
  · rw [aesTableBlock_frame _ _ (by omega),aesTableBlock_read _ _ (by decide) hc]
  · rw [aesTableBlock_read _ _ (by decide) hc]
    simp (disch := omega) only [aesTableBlock_frame]

/-! ### Every form -/

theorem aesRound2_eq (form : Glsl.Form) (x : Words 8) {b c : Nat} (hb : b = 0 ∨ b = 4)
    (hc : c < 4) : (Glsl.aesRound2 form x).read (b + c) = roundColumn x b c := by
  cases form with
  | sliced => exact aesRound2_sliced x hb hc
  | table tables device width hw => exact aesRound2_table tables device hw x hb hc

theorem aesRoundLe_read (y : Words 4) (key : Option (Words 4)) {c : Nat} (hc : c < 4) :
    (aesRoundLe y key).read c =
      packed (mixed fun r => groestl512Sbox (byteOf (y.read ((c + r) % 4)) r)) ^^^
        (key.elim 0 fun key => key.read c) := by
  have hcolumn : subShift y c = fun r => groestl512Sbox (byteOf (y.read ((c + r) % 4)) r) := by
    funext r
    rw [subShift,show (c + r) &&& 3 = (c + r) % 4 from Nat.and_two_pow_sub_one_eq_mod (c + r) 2]
  rw [aesRoundLe,Words.read_fill _ _ (by decide) hc,mixColumn_eq,hcolumn]
  cases key <;> rfl

theorem aesRound2_host (form : Glsl.Form) {x : Words 8} {y : Words 4} {b c : Nat}
    (hb : b = 0 ∨ b = 4) (hc : c < 4) (h : ∀ c < 4,x.read (b + c) = y.read c) :
    (Glsl.aesRound2 form x).read (b + c) = (aesRoundLe y none).read c := by
  have hbytes : (fun r => groestl512Sbox (byteOf (x.read (b + (c + r) % 4)) r)) =
      fun r => groestl512Sbox (byteOf (y.read ((c + r) % 4)) r) := by
    funext r
    rw [h _ (Nat.mod_lt _ (by decide))]
  rw [aesRound2_eq form x hb hc,aesRoundLe_read y none hc,roundColumn,hbytes]
  exact (BitVec.xor_zero).symm

def lookedUp (y key : Words 4) : Words 4 :=
  Words.ofList ((List.range 4).map fun c =>
    packed (mixed fun r => tableSbox (byteOf (y.read ((c + r) % 4)) r)) ^^^ key.read c)

theorem aesRoundLe_lookedUp (y key : Words 4) : aesRoundLe y (some key) = lookedUp y key := by
  refine Words.ext _ _ fun c hc => ?_
  rw [aesRoundLe_read y _ hc,lookedUp,Words.ofList,Words.read_ofFn _ hc]
  simp only [tableSbox_eq]
  interval_cases c <;> rfl

theorem lookedUp_none (y : Words 4) : aesRoundLe y none = lookedUp y (Words.zeros 4) := by
  refine Words.ext _ _ fun c hc => ?_
  rw [← aesRoundLe_lookedUp,aesRoundLe_read y _ hc,aesRoundLe_read y _ hc]
  exact congrArg _ (Words.read_zeros 4 c).symm

theorem aesRoundLe_key (y key : Words 4) {c : Nat} (hc : c < 4) :
    (aesRoundLe y (some key)).read c = (aesRoundLe y none).read c ^^^ key.read c := by
  rw [aesRoundLe_read y _ hc,aesRoundLe_read y none hc,BitVec.xor_assoc]
  exact congrArg _ (BitVec.zero_xor).symm

/-! ### Both blocks as words of 128 bits -/

section Blocks

variable (form : Glsl.Form)

theorem word_aesRound2 (x : Words 8) {n : Nat} (hn : n < 2) :
    word (Glsl.aesRound2 form x) n = aesRoundLe (word x n) none := by
  refine Words.ext _ _ fun i hi => ?_
  rw [word_read _ _ hi]
  refine aesRound2_host form (by omega) hi fun j hj => ?_
  rw [word_read _ _ hj]

def keyed (x : Words 8) (k₀ k₁ : Words 4) : Words 8 :=
  upTo 4 x fun i x =>
    let x := x.write i (x.read i ^^^ k₀.read i)
    x.write (4 + i) (x.read (4 + i) ^^^ k₁.read i)

theorem word_keyed (x : Words 8) (k₀ k₁ : Words 4) {n i : Nat} (hn : n < 2) (hi : i < 4) :
    (word (keyed x k₀ k₁) n).read i =
      (word x n).read i ^^^ (if n = 0 then k₀ else k₁).read i := by
  rw [word_read _ _ hi,word_read _ _ hi,keyed]
  interval_cases n <;> interval_cases i <;>
    simp (disch := decide) only [upTo,Words.read_write_self,Words.read_write_ne,if_true,if_false,
      Nat.reduceAdd,Nat.reduceMul,Nat.add_zero,Nat.one_ne_zero]

end Blocks

end VkMiner.Aes
