import Mathlib.Logic.Basic
set_option autoImplicit false

/-! Words of four bytes in either byte order. -/

namespace ByteOrder

def be32 (a b c d : UInt8) : UInt32 :=
  UInt32.ofNat (((a.toNat*256+b.toNat)*256+c.toNat)*256+d.toNat)

def le32 (a b c d : UInt8) : UInt32 := be32 d c b a

def beBytes (x : UInt32) : List UInt8 :=
  [UInt8.ofNat (x.toNat/16777216),UInt8.ofNat (x.toNat/65536),UInt8.ofNat (x.toNat/256),
    UInt8.ofNat x.toNat]

def leBytes (x : UInt32) : List UInt8 := (beBytes x).reverse

def beWords : List UInt8 → List UInt32
  | a :: b :: c :: d :: rest => be32 a b c d :: beWords rest
  | _ => []

def leWords : List UInt8 → List UInt32
  | a :: b :: c :: d :: rest => le32 a b c d :: leWords rest
  | _ => []

def swapWords : List UInt8 → List UInt8
  | a :: b :: c :: d :: rest => d :: c :: b :: a :: swapWords rest
  | _ => []

def encode (ws : List UInt32) : List UInt8 := ws.flatMap beBytes

theorem be32_toNat (a b c d : UInt8) :
    (be32 a b c d).toNat = ((a.toNat*256+b.toNat)*256+c.toNat)*256+d.toNat := by
  have ha := a.toNat_lt
  have hb := b.toNat_lt
  have hc := c.toNat_lt
  have hd := d.toNat_lt
  unfold be32
  rw [UInt32.toNat_ofNat']
  omega

theorem uint8_ofNat_eq {n : Nat} {a : UInt8} (h : n%256 = a.toNat) : UInt8.ofNat n = a := by
  apply UInt8.toNat_inj.mp
  rw [UInt8.toNat_ofNat']
  exact h

@[simp] theorem beBytes_be32 (a b c d : UInt8) : beBytes (be32 a b c d) = [a,b,c,d] := by
  have ha := a.toNat_lt
  have hb := b.toNat_lt
  have hc := c.toNat_lt
  have hd := d.toNat_lt
  unfold beBytes
  rw [be32_toNat]
  rw [uint8_ofNat_eq (a := a) (by omega),uint8_ofNat_eq (a := b) (by omega),
    uint8_ofNat_eq (a := c) (by omega),uint8_ofNat_eq (a := d) (by omega)]

@[simp] theorem beBytes_le32 (a b c d : UInt8) : beBytes (le32 a b c d) = [d,c,b,a] :=
  beBytes_be32 d c b a

theorem encode_append (xs ys : List UInt32) : encode (xs ++ ys) = encode xs ++ encode ys := by
  simp [encode]

theorem encode_cons (x : UInt32) (xs : List UInt32) : encode (x :: xs) = beBytes x ++ encode xs :=
  rfl

theorem encode_leWords (b : List UInt8) : encode (leWords b) = swapWords b := by
  induction b using leWords.induct with
  | case1 a b c d rest ih => simp [leWords,swapWords,encode_cons,ih]
  | case2 b h =>
    rw [leWords,swapWords]
    · rfl
    · exact h
    · exact h

theorem word_induction {P : List UInt8 → Nat → Prop} (nil : P [] 0)
    (word : ∀ a b c d rest k,P rest k → P (a :: b :: c :: d :: rest) (k+1))
    {b : List UInt8} {k : Nat} (h : b.length = 4*k) : P b k := by
  induction k generalizing b with
  | zero =>
    rw [List.length_eq_zero_iff.mp h]
    exact nil
  | succ k ih =>
    match b,h with
    | a :: b :: c :: d :: rest,h =>
      have hr : rest.length = 4*k := by
        simp only [List.length_cons] at h
        omega
      exact word a b c d rest k (ih hr)

theorem encode_beWords {b : List UInt8} {k : Nat} (h : b.length = 4*k) :
    encode (beWords b) = b := by
  refine word_induction (P := fun b _ => encode (beWords b) = b) rfl ?_ h
  intro a b c d rest k ih
  simp [beWords,encode_cons,ih]

theorem beWords_length {b : List UInt8} {k : Nat} (h : b.length = 4*k) :
    (beWords b).length = k := by
  refine word_induction (P := fun b k => (beWords b).length = k) rfl ?_ h
  intro a b c d rest k ih
  simp [beWords,ih]

theorem leWords_length {b : List UInt8} {k : Nat} (h : b.length = 4*k) :
    (leWords b).length = k := by
  refine word_induction (P := fun b k => (leWords b).length = k) rfl ?_ h
  intro a b c d rest k ih
  simp [leWords,ih]

@[simp] theorem swapWords_leBytes (x : UInt32) : swapWords (leBytes x) = beBytes x := rfl

end ByteOrder
