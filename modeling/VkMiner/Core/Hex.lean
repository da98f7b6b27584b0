import VkMiner.Core.Text
set_option autoImplicit false

/-! Byte buffers and the hexadecimal decoder of util.c. -/

namespace VkMiner

abbrev Bytes := List UInt8

abbrev Fixed (n : Nat) := {b : Bytes // b.length = n}

def Fixed.zero (n : Nat) : Fixed n := ⟨List.replicate n 0,List.length_replicate⟩

def Fixed.fill (n : Nat) (b : Bytes) : Fixed n :=
  ⟨(b ++ List.replicate n 0).take n,by simp⟩

def nibble (c : UInt8) : Option UInt8 :=
  if 48 ≤ c ∧ c ≤ 57 then some (c-48)
  else if 65 ≤ c ∧ c ≤ 70 then some (10+(c-65))
  else if 97 ≤ c ∧ c ≤ 102 then some (10+(c-97))
  else none

/-- The bytes that `hex2bin` has set when it stops, and whether it read to the end. -/
def hexPairs : CStr → Bool × Bytes
  | a :: b :: rest =>
    match nibble a with
    | none => (false,[])
    | some h =>
      match nibble b with
      | none => (false,[h <<< 4])
      | some l => ((hexPairs rest).1,(h <<< 4 ||| l) :: (hexPairs rest).2)
  | _ => (true,[])

/-- A string that is refused for its length leaves the buffer alone; one with a
bad digit leaves what was read before it, and zeros. -/
def hex2bin {n : Nat} (p : Fixed n) (s : CStr) : Bool × Fixed n :=
  if s.length%2 ≠ 0 then (false,p)
  else if n < s.length/2 then (false,p)
  else ((hexPairs s).1,Fixed.fill n (hexPairs s).2)

/-- A string with the digits of `n` bytes, as far as its length goes. -/
abbrev HexText (n : Nat) := {s : CStr // s.length = 2*n}

/-- The buffer that a string of the right length leaves, whatever was there. -/
def hexField {n : Nat} (s : HexText n) : Fixed n := Fixed.fill n (hexPairs s.val).2

@[simp] theorem hex2bin_exact {n : Nat} (p : Fixed n) (s : HexText n) :
    (hex2bin p s.val).2 = hexField s := by
  have h := s.2
  have h₁ : ¬ s.val.length%2 ≠ 0 := by omega
  have h₂ : ¬ n < s.val.length/2 := by omega
  simp only [hex2bin,h₁,h₂,if_false,hexField]

def hexChar (n : Nat) : UInt8 := if n < 10 then UInt8.ofNat (48+n) else UInt8.ofNat (87+n)

def bin2hex (b : Bytes) : CStr := b.flatMap (fun x => [hexChar (x.toNat/16),hexChar (x.toNat%16)])

theorem bin2hex_cons (x : UInt8) (b : Bytes) :
    bin2hex (x :: b) = hexChar (x.toNat/16) :: hexChar (x.toNat%16) :: bin2hex b := rfl

theorem byte_cases {P : UInt8 → Prop} (h : ∀ n < 256,P (UInt8.ofNat n)) (c : UInt8) : P c := by
  have hc := h c.toNat c.toNat_lt
  rwa [UInt8.ofNat_toNat] at hc

theorem nibble_hexChar : ∀ n < 16, nibble (hexChar n) = some (UInt8.ofNat n) := by decide

theorem joined_toNat {a b : UInt8} (ha : a.toNat < 16) (hb : b.toNat < 16) :
    (a <<< 4 ||| b).toNat = 16*a.toNat+b.toNat := by
  have hor := Nat.shiftLeft_add_eq_or_of_lt (i := 4) hb a.toNat
  have h4 : (4 : UInt8).toNat%8 = 4 := rfl
  rw [Nat.shiftLeft_eq] at hor
  rw [UInt8.toNat_or,UInt8.toNat_shiftLeft,h4,Nat.shiftLeft_eq,Nat.mod_eq_of_lt (by omega),← hor]
  omega

theorem nibbles_join (x : UInt8) :
    UInt8.ofNat (x.toNat/16) <<< 4 ||| UInt8.ofNat (x.toNat%16) = x := by
  have hx := x.toNat_lt
  have hh : (UInt8.ofNat (x.toNat/16)).toNat = x.toNat/16 := by
    rw [UInt8.toNat_ofNat']
    omega
  have hl : (UInt8.ofNat (x.toNat%16)).toNat = x.toNat%16 := by
    rw [UInt8.toNat_ofNat']
    omega
  apply UInt8.toNat_inj.mp
  rw [joined_toNat (by omega) (by omega),hh,hl]
  omega

theorem hexPairs_bin2hex (b : Bytes) : hexPairs (bin2hex b) = (true,b) := by
  induction b with
  | nil => rfl
  | cons x b ih =>
    have hx := x.toNat_lt
    have h₁ := nibble_hexChar (x.toNat/16) (by omega)
    have h₂ := nibble_hexChar (x.toNat%16) (by omega)
    rw [bin2hex_cons]
    simp only [hexPairs,h₁,h₂,ih,nibbles_join]

theorem bin2hex_length (b : Bytes) : (bin2hex b).length = 2*b.length := by
  induction b with
  | nil => rfl
  | cons x b ih =>
    simp only [bin2hex_cons,List.length_cons,ih]
    omega

theorem hexChar_toNat {n : Nat} (h : n < 16) :
    (hexChar n).toNat = if n < 10 then 48+n else 87+n := by
  unfold hexChar
  split
  · rw [UInt8.toNat_ofNat']
    omega
  · rw [UInt8.toNat_ofNat']
    omega

theorem tolower_toNat (c : UInt8) :
    (tolower c).toNat = if 65 ≤ c.toNat ∧ c.toNat ≤ 90 then c.toNat+32 else c.toNat := by
  have h32 : (32 : UInt8).toNat = 32 := rfl
  simp only [tolower,UInt8.le_iff_toNat_le,UInt8.reduceToNat]
  split
  · rw [UInt8.toNat_add,h32]
    omega
  · rfl

theorem nibble_lower {c d : UInt8} (h : nibble c = some d) :
    d.toNat < 16 ∧ hexChar d.toNat = tolower c := by
  have hd : d.toNat < 16 ∧ (if d.toNat < 10 then 48+d.toNat else 87+d.toNat) =
      if 65 ≤ c.toNat ∧ c.toNat ≤ 90 then c.toNat+32 else c.toNat := by
    have h10 : (10 : UInt8).toNat = 10 := rfl
    simp only [nibble,UInt8.le_iff_toNat_le,UInt8.reduceToNat] at h
    split at h
    · cases h
      have := UInt8.toNat_sub_of_le c 48 (UInt8.le_iff_toNat_le.mpr (by simp; omega))
      simp only [UInt8.reduceToNat] at this
      grind
    · split at h
      · cases h
        have := UInt8.toNat_sub_of_le c 65 (UInt8.le_iff_toNat_le.mpr (by simp; omega))
        simp only [UInt8.reduceToNat] at this
        rw [UInt8.toNat_add,h10]
        grind
      · split at h
        · cases h
          have := UInt8.toNat_sub_of_le c 97 (UInt8.le_iff_toNat_le.mpr (by simp; omega))
          simp only [UInt8.reduceToNat] at this
          rw [UInt8.toNat_add,h10]
          grind
        · cases h
  refine ⟨hd.1,UInt8.toNat_inj.mp ?_⟩
  rw [hexChar_toNat hd.1,tolower_toNat,hd.2]

theorem joined_digits {a b : UInt8} (ha : a.toNat < 16) (hb : b.toNat < 16) :
    (a <<< 4 ||| b).toNat/16 = a.toNat ∧ (a <<< 4 ||| b).toNat%16 = b.toNat := by
  rw [joined_toNat ha hb]
  omega

theorem bin2hex_hexPairs {s : CStr} (h : (hexPairs s).1 = true) (he : s.length%2 = 0) :
    bin2hex (hexPairs s).2 = s.map tolower := by
  induction s using hexPairs.induct with
  | case1 a b rest ha => simp [hexPairs,ha] at h
  | case2 a b rest x ha hb => simp [hexPairs,ha,hb] at h
  | case3 a b rest x ha y hb ih =>
    simp only [hexPairs,ha,hb] at h
    have hr : rest.length%2 = 0 := by
      simp only [List.length_cons] at he
      omega
    obtain ⟨hx,hxa⟩ := nibble_lower ha
    obtain ⟨hy,hyb⟩ := nibble_lower hb
    obtain ⟨hh,hl⟩ := joined_digits hx hy
    simp only [hexPairs,ha,hb]
    rw [bin2hex_cons,hh,hl,hxa,hyb,ih h hr]
    rfl
  | case4 s hs =>
    cases s with
    | nil => rfl
    | cons c s =>
      cases s with
      | nil => simp at he
      | cons d rest => exact absurd rfl (hs c d rest)

/-- The bytes of a string of digits, of whatever even length it has. -/
def hexBytes (s : CStr) : Bytes := (Fixed.fill (s.length/2) (hexPairs s).2).val

@[simp] theorem hexBytes_bin2hex (b : Bytes) : hexBytes (bin2hex b) = b := by
  have hl : (bin2hex b).length/2 = b.length := by
    rw [bin2hex_length]
    omega
  simp [hexBytes,hexPairs_bin2hex,hl,Fixed.fill]

@[simp] theorem hexBytes_length (s : CStr) : (hexBytes s).length = s.length/2 :=
  (Fixed.fill (s.length/2) (hexPairs s).2).2

theorem hex2bin_even {s : CStr} (p : Fixed (s.length/2)) (h : s.length%2 = 0) :
    (hex2bin p s).2.val = hexBytes s := by
  have h₁ : ¬ s.length%2 ≠ 0 := by omega
  have h₂ : ¬ s.length/2 < s.length/2 := by omega
  simp only [hex2bin,h₁,h₂,if_false,hexBytes]

theorem hexBytes_pairs {s : CStr} (h : (hexPairs s).1 = true) (he : s.length%2 = 0) :
    hexBytes s = (hexPairs s).2 := by
  have hlen := congrArg List.length (bin2hex_hexPairs h he)
  rw [bin2hex_length,List.length_map] at hlen
  have hn : (hexPairs s).2.length = s.length/2 := by omega
  simp only [hexBytes,Fixed.fill]
  rw [← hn,List.take_left]

theorem hexField_val {n : Nat} (s : HexText n) : (hexField s).val = hexBytes s.val := by
  obtain ⟨s,hs⟩ := s
  obtain rfl : n = s.length/2 := by omega
  rfl

end VkMiner
