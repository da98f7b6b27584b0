import VkMiner.Heavyhash.Digest
set_option autoImplicit false

/-! The product of the matrix with the nibbles of a digest: the sums of the host, of the columns
and of the packed bytes are the same. -/

namespace VkMiner.Heavyhash
open Loops Cells Glsl
open Sha256d (Word Byte leBytes)

variable {m : Square Byte} {d : Words 8}

def nib (d : Words 8) (j : Nat) : Word :=
  (d.read (j / 8) >>> (8 * (j / 2 % 4) + 4 * (1 - j % 2))) &&& 0xf

def rowSum (m : Square Byte) (d : Words 8) (i n : Nat) : Word :=
  upTo n 0 fun j sum => sum + (entry m i j).setWidth 32 * nib d j

def productNibble (m : Square Byte) (d : Words 8) (i : Nat) : Word := rowSum m d i 64 >>> 10

def productByte (m : Square Byte) (d : Words 8) (b : Nat) : Word :=
  (productNibble m d (2*b) <<< 4) ||| productNibble m d (2*b + 1)

def productWord (m : Square Byte) (d : Words 8) (q : Nat) : Word :=
  bytesWord fun t => productByte m d (4*q + t)

/-! ### Bounds -/

theorem low_nibble_lt (x : Word) : (x &&& 0xf).toNat < 16 := by
  rw [BitVec.toNat_and]
  exact Nat.and_lt_two_pow (n := 4) _ (by decide)

theorem nib_lt (d : Words 8) (j : Nat) : (nib d j).toNat < 16 := low_nibble_lt _

theorem rowSum_le (hm : ∀ r < 64, ∀ c < 64, entry m r c < 16) {i n : Nat} (hi : i < 64)
    (hn : n ≤ 64) : (rowSum m d i n).toNat ≤ 225*n := by
  refine upTo_invariant (P := fun n (sum : Word) => sum.toNat ≤ 225*n) (Nat.le_refl 0)
    fun j hj sum hs => ?_
  have hentry : (entry m i j).toNat ≤ 15 := Nat.le_of_lt_succ (hm i hi j (by omega))
  have hnib : (nib d j).toNat ≤ 15 := Nat.le_of_lt_succ (nib_lt d j)
  have hmul : (entry m i j).toNat * (nib d j).toNat ≤ 15*15 := Nat.mul_le_mul hentry hnib
  rw [BitVec.toNat_add,BitVec.toNat_mul,BitVec.toNat_setWidth,
    Nat.mod_eq_of_lt (by omega : (entry m i j).toNat < 2 ^ 32),Nat.add_mod_mod]
  exact (Nat.mod_le _ _).trans (by omega)

theorem productNibble_lt (hm : ∀ r < 64, ∀ c < 64, entry m r c < 16) {i : Nat} (hi : i < 64) :
    (productNibble m d i).toNat < 16 := by
  have h := rowSum_le (d := d) hm hi (Nat.le_refl 64)
  rw [productNibble,BitVec.toNat_ushiftRight,Nat.shiftRight_eq_div_pow]
  omega

theorem or_shl_toNat {x y : Word} {s : Nat} (hy : y.toNat < 2 ^ s) (hx : x.toNat * 2 ^ s < 2 ^ 32) :
    ((x <<< s) ||| y).toNat = 2 ^ s * x.toNat + y.toNat := by
  rw [BitVec.toNat_or,BitVec.toNat_shiftLeft,Nat.shiftLeft_eq,Nat.mod_eq_of_lt hx,Nat.mul_comm,
    ← Nat.two_pow_add_eq_or_of_lt hy]

theorem productByte_lt (hm : ∀ r < 64, ∀ c < 64, entry m r c < 16) {b : Nat} (hb : b < 32) :
    (productByte m d b).toNat < 256 := by
  have hhigh := productNibble_lt (d := d) hm (by omega : 2*b < 64)
  have hlow := productNibble_lt (d := d) hm (by omega : 2*b + 1 < 64)
  rw [productByte,or_shl_toNat hlow (by omega)]
  omega

/-! ### The host's sums -/

def bytesOf (d : Words 8) : List Byte := ((List.range 8).map d.read).flatMap leBytes

theorem bytesOf_getD (d : Words 8) {b : Nat} (hb : b < 32) :
    (bytesOf d).getD b 0 = (d.read (b / 4) >>> (8 * (b % 4))).setWidth 8 := by
  interval_cases b <;> rfl

theorem high_nibble (x : Word) (u : Nat) :
    (((x >>> u).setWidth 8 : Byte) >>> 4).setWidth 32 = (x >>> (u + 4)) &&& 0xf := by
  refine BitVec.eq_of_getLsbD_eq fun i hi => ?_
  interval_cases i <;> simp [Nat.add_assoc]

theorem low_nibble (x : Word) (u : Nat) :
    (((x >>> u).setWidth 8 : Byte) &&& 0xf).setWidth 32 = (x >>> u) &&& 0xf := by
  refine BitVec.eq_of_getLsbD_eq fun i hi => ?_
  interval_cases i <;> simp

theorem nibblesOf_read (d : Words 8) {j : Nat} (hj : j < 64) :
    (nibblesOf (bytesOf d)).read j = nib d j := by
  have hrun := upTo_invariant (n := 32) (s := Words.zeros 64) (f := fun b nibble =>
      (nibble.write (2*b) (((bytesOf d).getD b 0 >>> 4).setWidth 32)).write (2*b + 1)
        (((bytesOf d).getD b 0 &&& 0xf).setWidth 32))
    (P := fun b v => ∀ j < 2*b, v.read j = nib d j) (fun j hj => by omega)
    fun b hb v hv j hj => by
      rw [bytesOf_getD d hb]
      obtain rfl | hodd := eq_or_ne (2*b + 1) j
      · rw [Words.read_write_self _ _ (by omega),low_nibble,nib]
        rw [show (2*b + 1) / 8 = b / 4 by omega,show (2*b + 1) / 2 % 4 = b % 4 by omega,
          show 1 - (2*b + 1) % 2 = 0 by omega]
        rfl
      · rw [Words.read_write_ne _ _ hodd]
        obtain rfl | heven := eq_or_ne (2*b) j
        · rw [Words.read_write_self _ _ (by omega),high_nibble,nib]
          rw [show 2*b / 8 = b / 4 by omega,show 2*b / 2 % 4 = b % 4 by omega,
            show 1 - 2*b % 2 = 1 by omega]
        · rw [Words.read_write_ne _ _ heven,hv j (by omega)]
  exact hrun j hj

theorem productsOf_read (m : Square Byte) (d : Words 8) {i : Nat} (hi : i < 64) :
    (productsOf m (nibblesOf (bytesOf d))).read i = productNibble m d i := by
  rw [productsOf,Words.read_fill (fun i => (upTo 64 0 fun j sum =>
    sum + (entry m i j).setWidth 32 * (nibblesOf (bytesOf d)).read j) >>> 10) _ (Nat.le_refl 64) hi]
  have hsum : (upTo 64 0 fun j (sum : Word) =>
      sum + (entry m i j).setWidth 32 * (nibblesOf (bytesOf d)).read j) = rowSum m d i 64 :=
    upTo_congr 0 fun j hj sum => by rw [nibblesOf_read d hj]
  rw [hsum,productNibble]

/-! ### The columns -/

theorem uniformOf_words (m : Square Byte) {j k : Nat} (hj : j < 64) (hk : k < 32) :
    (uniformOf m).words.read (32*j + k) =
      ((entry m (2*k) j).setWidth 32 ||| ((entry m (2*k + 1) j).setWidth 32 <<< 16)) := by
  simp only [uniformOf,Nat.mul_comm 32]
  exact Words.read_rows (fun j k => (entry m (2*k) j).setWidth 32 |||
    ((entry m (2*k + 1) j).setWidth 32 <<< 16)) _ (Nat.le_refl _) hj hk

theorem hhCol_read (job : HeavyhashUniform) (j : Nat) (v : Word) (acc : Words 32) {k : Nat}
    (hk : k < 32) : (hhCol job j v acc).read k = acc.read k + job.words.read (32*j + k) * v := by
  have h := Words.read_update (f := fun k (acc : Words 32) =>
      acc.read k + job.words.read (32*j + k) * v)
    (g := fun k => acc.read k + job.words.read (32*j + k) * v) acc 0 (by omega : 0 + 32 ≤ 32)
    (fun k _ u hu => by rw [hu k (.inr (by omega))]) k
  simpa [hk,hhCol] using h

theorem two_rows {x y v : Word} (hx : x.toNat < 16) (hy : y.toNat < 16) :
    (x ||| (y <<< 16)) * v = x * v + y * v * 65536#32 := by
  have hsum : x ||| (y <<< 16) = x + y * 65536#32 := by
    refine BitVec.eq_of_toNat_eq ?_
    have hmul : (y * 65536#32).toNat = 65536 * y.toNat := by
      rw [BitVec.toNat_mul,show (65536#32).toNat = 65536 from rfl]
      omega
    rw [BitVec.or_comm,or_shl_toNat (by omega) (by omega),BitVec.toNat_add,hmul]
    omega
  rw [hsum,BitVec.add_mul,BitVec.mul_assoc,BitVec.mul_assoc,BitVec.mul_comm 65536#32]

theorem byte_high_nibble (x : Word) (u : Nat) :
    ((x >>> u) &&& 0xff) >>> 4 = (x >>> (u + 4)) &&& 0xf := by
  refine BitVec.eq_of_getLsbD_eq fun i hi => ?_
  interval_cases i <;> simp [Nat.add_assoc]

theorem byte_low_nibble (x : Word) : (x &&& 0xff) &&& 0xf = x &&& 0xf := by
  rw [BitVec.and_assoc]
  rfl

def Accumulated (m : Square Byte) (d : Words 8) (n : Nat) (acc : Words 32) : Prop :=
  ∀ k < 32, acc.read k = rowSum m d (2*k) n + rowSum m d (2*k + 1) n * 65536#32

theorem Accumulated.col (hm : ∀ r < 64, ∀ c < 64, entry m r c < 16) {n : Nat} {acc : Words 32}
    (h : Accumulated m d n acc) (hn : n < 64) :
    Accumulated m d (n + 1) (hhCol (uniformOf m) n (nib d n) acc) := by
  intro k hk
  have hentry {r : Nat} (hr : r < 64) : ((entry m r n).setWidth 32 : Word).toNat < 16 := by
    rw [BitVec.toNat_setWidth]
    exact (Nat.mod_le _ _).trans_lt (hm r hr n hn)
  have hnext (i : Nat) : rowSum m d i (n + 1) =
      rowSum m d i n + (entry m i n).setWidth 32 * nib d n := rfl
  rw [hhCol_read _ _ _ _ hk,h k hk,uniformOf_words m hn hk,two_rows (hentry (by omega))
    (hentry (by omega)),hnext,hnext,BitVec.add_mul]
  ac_rfl

theorem accumulated (hm : ∀ r < 64, ∀ c < 64, entry m r c < 16) :
    Accumulated m d 64 (upTo 32 (Words.zeros 32) fun b acc => hhByte (uniformOf m) d b acc) := by
  refine upTo_invariant (P := fun b acc => Accumulated m d (2*b) acc) (fun k hk => ?_)
    fun b hb acc h => ?_
  · have hzero (i : Nat) : rowSum m d i (2*0) = 0#32 := rfl
    rw [Words.read_zeros,hzero,hzero,BitVec.zero_mul]
    rfl
  · have hhigh : ((d.read (b / 4) >>> (8 * (b % 4))) &&& 0xff) >>> 4 = nib d (2*b) := by
      rw [byte_high_nibble,nib,show 2*b / 8 = b / 4 by omega,show 2*b / 2 % 4 = b % 4 by omega,
        show 1 - 2*b % 2 = 1 by omega]
    have hlow : ((d.read (b / 4) >>> (8 * (b % 4))) &&& 0xff) &&& 0xf = nib d (2*b + 1) := by
      rw [byte_low_nibble,nib,show (2*b + 1) / 8 = b / 4 by omega,
        show (2*b + 1) / 2 % 4 = b % 4 by omega,show 1 - (2*b + 1) % 2 = 0 by omega]
      rfl
    rw [hhByte,hhigh,hlow]
    exact (h.col hm (by omega)).col hm (by omega)

/-- Neither row's sum reaches into the other half. -/
theorem hhPacked_eq {x y : Word} (hx : x.toNat ≤ 14400) (hy : y.toNat ≤ 14400) :
    hhPacked (x + y * 65536#32) = ((x >>> 10) <<< 4) ||| (y >>> 10) := by
  have hsum : (x + y * 65536#32).toNat = x.toNat + 65536 * y.toNat := by
    rw [BitVec.toNat_add,BitVec.toNat_mul,show (65536#32).toNat = 65536 from rfl]
    omega
  have hlow : ((x + y * 65536#32) >>> 10) &&& (0xf : Word) = x >>> 10 := by
    refine BitVec.eq_of_toNat_eq ?_
    rw [BitVec.toNat_and,BitVec.toNat_ushiftRight,BitVec.toNat_ushiftRight,hsum,
      show (0xf : Word).toNat = 2 ^ 4 - 1 from rfl,Nat.and_two_pow_sub_one_eq_mod,
      Nat.shiftRight_eq_div_pow,Nat.shiftRight_eq_div_pow]
    omega
  have hhigh : (x + y * 65536#32) >>> 26 = y >>> 10 := by
    refine BitVec.eq_of_toNat_eq ?_
    rw [BitVec.toNat_ushiftRight,BitVec.toNat_ushiftRight,hsum,Nat.shiftRight_eq_div_pow,
      Nat.shiftRight_eq_div_pow]
    omega
  rw [hhPacked,hlow,hhigh]

theorem bytesWord_congr {f g : Nat → Word} (h : ∀ t < 4, f t = g t) : bytesWord f = bytesWord g := by
  rw [bytesWord,bytesWord,h 0 (by decide),h 1 (by decide),h 2 (by decide),h 3 (by decide)]

theorem columnProduct_read (hm : ∀ r < 64, ∀ c < 64, entry m r c < 16) {q : Nat} (hq : q < 8) :
    (columnProduct (uniformOf m) d).read q = productWord m d q := by
  have hacc := accumulated (d := d) hm
  have hle {i : Nat} (hi : i < 64) := rowSum_le (d := d) hm hi (Nat.le_refl 64)
  simp only [columnProduct]
  rw [Words.read_fill _ _ (Nat.le_refl 8) hq,hhPack,productWord]
  refine bytesWord_congr fun t ht => ?_
  rw [hacc _ (by omega),hhPacked_eq (hle (by omega)) (hle (by omega))]
  rfl

/-! ### The rows -/

theorem uniformOf_rows (m : Square Byte) {i w : Nat} (hi : i < 64) (hw : w < 16) :
    (uniformOf m).rows.read (16*i + w) =
      ((entry m i (4*w)).setWidth 32 ||| ((entry m i (4*w + 1)).setWidth 32 <<< 8) |||
        ((entry m i (4*w + 2)).setWidth 32 <<< 16) |||
        ((entry m i (4*w + 3)).setWidth 32 <<< 24)) := by
  simp only [uniformOf,Nat.mul_comm 16]
  exact Words.read_rows (fun i w => (entry m i (4*w)).setWidth 32 |||
    ((entry m i (4*w + 1)).setWidth 32 <<< 8) ||| ((entry m i (4*w + 2)).setWidth 32 <<< 16) |||
    ((entry m i (4*w + 3)).setWidth 32 <<< 24)) _ (Nat.le_refl _) hi hw

theorem low_byte {a b : Word} (h : ∀ i < 8, a.getLsbD i = b.getLsbD i)
    (hb : ∀ i, 8 ≤ i → b.getLsbD i = false) : a &&& 0xff = b := by
  refine BitVec.eq_of_getLsbD_eq fun i hi => ?_
  rw [BitVec.getLsbD_and]
  by_cases h8 : i < 8
  · rw [h i h8]
    interval_cases i <;> simp
  · rw [hb i (by omega)]
    interval_cases i <;> simp at h8 ⊢

theorem packed_bytes (b0 b1 b2 b3 : Byte) :
    let x : Word := b0.setWidth 32 ||| (b1.setWidth 32 <<< 8) ||| (b2.setWidth 32 <<< 16) |||
      (b3.setWidth 32 <<< 24)
    (x >>> 0) &&& 0xff = b0.setWidth 32 ∧ (x >>> 8) &&& 0xff = b1.setWidth 32 ∧
      (x >>> 16) &&& 0xff = b2.setWidth 32 ∧ (x >>> 24) &&& 0xff = b3.setWidth 32 := by
  intro x
  have hwide (b : Byte) (i : Nat) (hi : 8 ≤ i) : (b.setWidth 32 : Word).getLsbD i = false := by
    rw [BitVec.getLsbD_setWidth,BitVec.getLsbD_of_ge b i hi,Bool.and_false]
  refine ⟨low_byte (fun i hi => ?_) (hwide b0),low_byte (fun i hi => ?_) (hwide b1),
    low_byte (fun i hi => ?_) (hwide b2),low_byte (fun i hi => ?_) (hwide b3)⟩ <;>
  · interval_cases i <;> simp [x]

theorem hhNibbles_bytes (x : Word) {s : Nat} (hs : s = 0 ∨ s = 16) :
    let y := hhNibbles (((x >>> 4) &&& 0x0f0f0f0f) >>> s) ((x &&& 0x0f0f0f0f) >>> s)
    (y >>> 0) &&& 0xff = (x >>> (s + 4)) &&& 0xf ∧ (y >>> 8) &&& 0xff = (x >>> s) &&& 0xf ∧
      (y >>> 16) &&& 0xff = (x >>> (s + 12)) &&& 0xf ∧
      (y >>> 24) &&& 0xff = (x >>> (s + 8)) &&& 0xf := by
  intro y
  have hnib (u i : Nat) (hi : 8 ≤ i) : ((x >>> u) &&& 0xf).getLsbD i = false := by
    by_cases h : i < 32
    · interval_cases i <;> simp
    · rw [BitVec.getLsbD_of_ge _ _ (by omega)]
  obtain rfl | rfl := hs <;>
  · refine ⟨low_byte (fun i hi => ?_) (hnib _),low_byte (fun i hi => ?_) (hnib _),
      low_byte (fun i hi => ?_) (hnib _),low_byte (fun i hi => ?_) (hnib _)⟩ <;>
    · interval_cases i <;> simp [y,hhNibbles]

theorem nibbleWords_read (d : Words 8) {w : Nat} (hw : w < 16) :
    (nibbleWords d).read w =
      hhNibbles (((d.read (w / 2) >>> 4) &&& 0x0f0f0f0f) >>> (16 * (w % 2)))
        ((d.read (w / 2) &&& 0x0f0f0f0f) >>> (16 * (w % 2))) := by
  have hrun := upTo_invariant (n := 8) (s := Words.zeros 16) (f := fun q nw =>
      let h := (d.read q >>> 4) &&& 0x0f0f0f0f
      let l := d.read q &&& 0x0f0f0f0f
      (nw.write (2*q) (hhNibbles h l)).write (2*q + 1) (hhNibbles (h >>> 16) (l >>> 16)))
    (P := fun q v => ∀ w < 2*q, v.read w =
      hhNibbles (((d.read (w / 2) >>> 4) &&& 0x0f0f0f0f) >>> (16 * (w % 2)))
        ((d.read (w / 2) &&& 0x0f0f0f0f) >>> (16 * (w % 2)))) (fun j hj => by omega)
    fun q hq v hv w hw => by
      obtain rfl | hodd := eq_or_ne (2*q + 1) w
      · rw [Words.read_write_self _ _ (by omega),show (2*q + 1) / 2 = q by omega,
          show (2*q + 1) % 2 = 1 by omega]
      · rw [Words.read_write_ne _ _ hodd]
        obtain rfl | heven := eq_or_ne (2*q) w
        · rw [Words.read_write_self _ _ (by omega),show 2*q / 2 = q by omega,
            show 2*q % 2 = 0 by omega]
          rfl
        · rw [Words.read_write_ne _ _ heven,hv w (by omega)]
  exact hrun w hw

theorem dotPacked_eq (m : Square Byte) (d : Words 8) {i w : Nat} (hi : i < 64) (hw : w < 16) :
    dotPacked4x8 ((uniformOf m).rows.read (16*i + w)) ((nibbleWords d).read w) =
      (entry m i (4*w)).setWidth 32 * nib d (4*w) +
        (entry m i (4*w + 1)).setWidth 32 * nib d (4*w + 1) +
        (entry m i (4*w + 2)).setWidth 32 * nib d (4*w + 2) +
        (entry m i (4*w + 3)).setWidth 32 * nib d (4*w + 3) := by
  obtain ⟨e0,e1,e2,e3⟩ := packed_bytes (entry m i (4*w)) (entry m i (4*w + 1))
    (entry m i (4*w + 2)) (entry m i (4*w + 3))
  obtain ⟨n0,n1,n2,n3⟩ := hhNibbles_bytes (d.read (w / 2)) (s := 16 * (w % 2)) (by omega)
  have hnib {t : Nat} (ht : t < 4) : nib d (4*w + t) =
      (d.read (w / 2) >>> (16 * (w % 2) + (8 * (t / 2) + 4 * (1 - t % 2)))) &&& 0xf := by
    rw [nib,show (4*w + t) / 8 = w / 2 by omega,show 8 * ((4*w + t) / 2 % 4) + 4 * (1 - (4*w + t) % 2) =
      16 * (w % 2) + (8 * (t / 2) + 4 * (1 - t % 2)) by omega]
  rw [uniformOf_rows m hi hw,nibbleWords_read d hw]
  simp only [dotPacked4x8,Nat.reduceMul,e0,e1,e2,e3,n0,n1,n2,n3]
  have h0 : nib d (4*w) = _ := hnib (t := 0) (by decide)
  rw [h0,hnib (t := 1) (by decide),hnib (t := 2) (by decide),hnib (t := 3) (by decide)]
  rfl

theorem hhRow_eq (m : Square Byte) (d : Words 8) {i : Nat} (hi : i < 64) :
    hhRow (uniformOf m) (nibbleWords d) i = productNibble m d i := by
  have hfour (s : Word) (w : Nat) (hw : w < 16) : (upTo 4 s fun t sum => sum +
      (entry m i (w * 4 + t)).setWidth 32 * nib d (w * 4 + t)) =
        s + dotPacked4x8 ((uniformOf m).rows.read (16*i + w)) ((nibbleWords d).read w) := by
    rw [dotPacked_eq m d hi hw,Nat.mul_comm 4 w]
    simp only [upTo,BitVec.add_assoc,Nat.add_zero]
  have hrows : rowSum m d i 64 = upTo 16 0 fun w s =>
      s + dotPacked4x8 ((uniformOf m).rows.read (16*i + w)) ((nibbleWords d).read w) :=
    (upTo_rows 16 4 _ _).trans (upTo_congr _ fun w hw s => hfour s w hw)
  have hplace (k c : Nat) : 4*(4*i + k) + c = 16*i + (4*k + c) := by omega
  rw [productNibble,hrows]
  simp only [hhRow,hhDot4,hplace,upTo,Nat.reduceMul,Nat.reduceAdd]
  refine congrArg (fun sum : Word => sum >>> 10) ?_
  rw [show (0 : Word) = 0#32 from rfl,BitVec.zero_add]
  simp only [BitVec.add_assoc]

theorem rowProduct_read (m : Square Byte) (d : Words 8) {q : Nat} (hq : q < 8) :
    (rowProduct (uniformOf m) d).read q = productWord m d q := by
  rw [rowProduct,Words.read_fill _ _ (Nat.le_refl 8) hq,hhPword,productWord]
  refine bytesWord_congr fun t ht => ?_
  rw [hhPbyte,hhRow_eq m d (by omega),hhRow_eq m d (by omega),productByte]

theorem product_read (hhDot : Bool) (hm : ∀ r < 64, ∀ c < 64, entry m r c < 16) (d : Words 8)
    {q : Nat} (hq : q < 8) : (product hhDot (uniformOf m) d).read q = productWord m d q := by
  cases hhDot with
  | false => exact columnProduct_read hm hq
  | true => exact rowProduct_read m d hq

end VkMiner.Heavyhash
