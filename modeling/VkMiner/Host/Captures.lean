import VkMiner.Host.CandidateLog
set_option autoImplicit false

/-! The words and numbers of the candidate log: each is read as it was written, and the text of
one that is spelled plainly is what would be written for it. -/

namespace VkMiner.CandidateLog
open ByteOrder Scan

variable {s text digits : CStr} {n : Nat}

/-! ### Words -/

def isLowerHex (c : UInt8) : Bool := isDecimal c || (97 ≤ c && c ≤ 102)

theorem hexDigit_hexChar : ∀ n < 16, hexDigit (hexChar n) = some n := by decide

theorem lower_hexChar : ∀ n < 16, isLowerHex (hexChar n) = true := by decide

theorem lower_surjective : ∀ c : UInt8, isLowerHex c = true → ∃ n < 16, hexChar n = c :=
  byte_cases (by decide +kernel)

theorem hexDigit_other : ∀ c : UInt8, (hexDigit c).isSome = true →
    isspace c = false ∧ c ≠ 43 ∧ c ≠ 45 ∧ c ≠ 88 ∧ c ≠ 120 := byte_cases (by decide +kernel)

theorem lower_blank : ∀ c : UInt8, isLowerHex c = true → isspace c = false ∧ c ≠ 0 ∧ c ≠ 10 :=
  byte_cases (by decide +kernel)

theorem bin2hex_lower (b : Bytes) : ∀ c ∈ bin2hex b,isLowerHex c = true := by
  induction b with
  | nil => simp [bin2hex]
  | cons x b ih =>
    have hx := x.toNat_lt
    rw [bin2hex_cons]
    intro c hc
    rcases List.mem_cons.mp hc with rfl | hc
    · exact lower_hexChar _ (by omega)
    · rcases List.mem_cons.mp hc with rfl | hc
      · exact lower_hexChar _ (by omega)
      · exact ih c hc

theorem lower_hexDigit {c : UInt8} (h : isLowerHex c = true) : (hexDigit c).isSome = true := by
  obtain ⟨n,hn,rfl⟩ := lower_surjective c h
  simp [hexDigit_hexChar n hn]

theorem foldl_bin2hex (b : Bytes) (acc : Nat) :
    (hexDigits (bin2hex b)).foldl (fun acc d => acc*16+d) acc =
      b.foldl (fun acc x => acc*256+x.toNat) acc := by
  induction b generalizing acc with
  | nil => rfl
  | cons x b ih =>
    have hx := x.toNat_lt
    rw [bin2hex_cons]
    simp only [hexDigits,List.map_cons,List.foldl_cons,hexDigit_hexChar (x.toNat/16) (by omega),
      hexDigit_hexChar (x.toNat%16) (by omega),Option.getD_some]
    rw [show (acc*16+x.toNat/16)*16+x.toNat%16 = acc*256+x.toNat by omega]
    exact ih _

theorem strtoull16_digits (hs : s ≠ []) (hd : ∀ c ∈ s,(hexDigit c).isSome = true) :
    strtoull16 s =
      (min ((hexDigits s).foldl (fun acc d => acc*16+d) 0) ullongMax,[]) := by
  obtain ⟨c,t,rfl⟩ := List.exists_cons_of_ne_nil hs
  obtain ⟨hb,hp,hm,-,-⟩ := hexDigit_other c (hd c (by simp))
  have hskip : skip0x (c :: t) = c :: t := by
    unfold skip0x
    split
    · next x d rest heq =>
      obtain ⟨rfl,rfl⟩ := List.cons.inj heq
      obtain ⟨-,-,-,hX,hx⟩ := hexDigit_other x (hd x (by simp))
      simp [hX,hx]
    · rfl
  have htake : (c :: t).takeWhile (fun c => (hexDigit c).isSome) = c :: t :=
    List.takeWhile_eq_self_iff.mpr hd
  have hne : (c :: t).isEmpty = false := rfl
  simp only [strtoull16,List.dropWhile_cons,hb,List.head?_cons,Option.some.injEq,hm,hp,or_self,
    if_false,hskip,htake,hne,Bool.false_eq_true,List.drop_length]
  congr 1
  simp only [Nat.min_def]
  split
  · rw [if_neg (by omega)]
  · rw [if_pos (by omega)]

theorem readWord_hex8 (w : UInt32) : readWord (hex8 w) = some w := by
  have hd : ∀ c ∈ hex8 w,(hexDigit c).isSome = true := fun c hc =>
    lower_hexDigit (bin2hex_lower _ c hc)
  have hw := w.toNat_lt
  have hv : (hexDigits (hex8 w)).foldl (fun acc d => acc*16+d) 0 = w.toNat := by
    rw [hex8,foldl_bin2hex]
    simp only [beBytes,List.foldl_cons,List.foldl_nil,UInt8.toNat_ofNat']
    omega
  rw [readWord,strtoull16_digits (by simp [hex8,beBytes,bin2hex_cons]) hd,hv,
    Nat.min_eq_left (by unfold ullongMax; omega)]
  simp

@[simp] theorem hex8_length (w : UInt32) : (hex8 w).length = 8 := by
  simp [hex8,bin2hex_length,beBytes]

@[simp] theorem words_length (ws : List UInt32) : (ws.flatMap hex8).length = ws.length*8 := by
  induction ws with
  | nil => rfl
  | cons w ws ih =>
    simp only [List.flatMap_cons,List.length_append,hex8_length,ih,List.length_cons]
    omega

theorem words_lower (ws : List UInt32) : ∀ c ∈ ws.flatMap hex8,isLowerHex c = true := by
  intro c hc
  obtain ⟨w,-,hc⟩ := List.mem_flatMap.mp hc
  exact bin2hex_lower _ c hc

theorem readGroups_words (ws : Block n) : readGroups n (ws.val.flatMap hex8) = some ws := by
  induction n with
  | zero =>
    obtain ⟨ws,hws⟩ := ws
    simp only [List.length_eq_zero_iff] at hws
    subst hws
    rfl
  | succ n ih =>
    obtain ⟨ws,hws⟩ := ws
    obtain ⟨w,ws,rfl⟩ := List.exists_cons_of_length_eq_add_one hws
    have hl : (hex8 w).length = 8 := hex8_length w
    have ih := ih ⟨ws,by simpa using hws⟩
    simp only [List.flatMap_cons,readGroups]
    rw [List.take_append_of_le_length (by omega),List.take_of_length_le (by omega),
      List.drop_append_of_le_length (by omega),List.drop_of_length_le (by omega),
      List.nil_append,readWord_hex8,ih]
    rfl

theorem readWords_words (ws : Block n) : readWords n (ws.val.flatMap hex8) = some ws := by
  rw [readWords,if_neg (by simp [ws.2]),readGroups_words]

theorem lower_bytes (hl : s.length = 2*n) (h : ∀ c ∈ s,isLowerHex c = true) :
    ∃ b : Bytes,b.length = n ∧ bin2hex b = s := by
  induction n generalizing s with
  | zero => exact ⟨[],rfl,(List.length_eq_zero_iff.mp (by omega)).symm⟩
  | succ n ih =>
    obtain ⟨x,t,rfl⟩ := List.exists_cons_of_length_eq_add_one (n := 2*n+1) hl
    obtain ⟨y,s,rfl⟩ := List.exists_cons_of_length_eq_add_one (n := 2*n) (Nat.succ.inj hl)
    obtain ⟨i,hi,rfl⟩ := lower_surjective x (h x (by simp))
    obtain ⟨j,hj,rfl⟩ := lower_surjective y (h y (by simp))
    obtain ⟨b,hb,rfl⟩ := ih (s := s) (by simp only [List.length_cons] at hl; omega)
      fun c hc => h c (by simp [hc])
    have hij : (UInt8.ofNat (16*i+j)).toNat = 16*i+j := by
      rw [UInt8.toNat_ofNat']
      omega
    refine ⟨UInt8.ofNat (16*i+j) :: b,by simp [hb],?_⟩
    rw [bin2hex_cons,hij,show (16*i+j)/16 = i by omega,show (16*i+j)%16 = j by omega]

theorem lower_words (hl : s.length = n*8) (h : ∀ c ∈ s,isLowerHex c = true) :
    ∃ ws : Block n,ws.val.flatMap hex8 = s := by
  induction n generalizing s with
  | zero => exact ⟨⟨[],rfl⟩,(List.length_eq_zero_iff.mp (by omega)).symm⟩
  | succ n ih =>
    have hs := List.take_append_drop 8 s
    obtain ⟨b,hb,hw⟩ := lower_bytes (s := s.take 8) (n := 4) (by simp; omega)
      fun c hc => h c (List.mem_of_mem_take hc)
    obtain ⟨ws,hws⟩ := ih (s := s.drop 8) (by simp; omega)
      fun c hc => h c (List.mem_of_mem_drop hc)
    obtain ⟨x,y,z,t,rfl⟩ := List.length_eq_four.mp hb
    refine ⟨ws.cons (be32 x y z t),?_⟩
    rw [Block.cons,List.flatMap_cons,hex8,beBytes_be32,hw,hws,hs]

theorem halves_join (nonce : UInt64) :
    (highHalf nonce).toUInt64 <<< 32 ||| (lowHalf nonce).toUInt64 = nonce := by
  have hn := nonce.toNat_lt
  have hh : (highHalf nonce).toNat = nonce.toNat/4294967296 := by
    rw [highHalf,UInt32.toNat_ofNat']
    omega
  have hl : (lowHalf nonce).toNat = nonce.toNat%4294967296 := by
    rw [lowHalf,UInt32.toNat_ofNat']
  have hlt : (lowHalf nonce).toNat < 2^32 := (lowHalf nonce).toNat_lt
  have hor := Nat.shiftLeft_add_eq_or_of_lt hlt (highHalf nonce).toNat
  apply UInt64.toNat_inj.mp
  simp only [UInt64.toNat_or,UInt64.toNat_shiftLeft,UInt32.toNat_toUInt64]
  have h32 : (32 : UInt64).toNat%64 = 32 := rfl
  rw [h32,Nat.mod_eq_of_lt,← hor,Nat.shiftLeft_eq]
  · omega
  · rw [Nat.shiftLeft_eq]
    omega

theorem halves_of (h l : UInt32) :
    highHalf (h.toUInt64 <<< 32 ||| l.toUInt64) = h ∧
      lowHalf (h.toUInt64 <<< 32 ||| l.toUInt64) = l := by
  have hh := h.toNat_lt
  have hl := l.toNat_lt
  have hor := Nat.shiftLeft_add_eq_or_of_lt hl h.toNat
  have hn : (h.toUInt64 <<< 32 ||| l.toUInt64).toNat = h.toNat*4294967296+l.toNat := by
    simp only [UInt64.toNat_or,UInt64.toNat_shiftLeft,UInt32.toNat_toUInt64]
    have h32 : (32 : UInt64).toNat%64 = 32 := rfl
    rw [h32,Nat.mod_eq_of_lt,← hor,Nat.shiftLeft_eq]
    rw [Nat.shiftLeft_eq]
    omega
  constructor
  · apply UInt32.toNat_inj.mp
    rw [highHalf,hn,UInt32.toNat_ofNat']
    omega
  · apply UInt32.toNat_inj.mp
    rw [lowHalf,hn,UInt32.toNat_ofNat']
    omega

/-! ### Numbers -/

/-- An integer as `%d` prints it: in the range of an `int`, with no zero before other digits, no
plus, and no minus before zero. -/
def PlainInt (text : CStr) : Prop :=
  ∃ digits,digits ≠ [] ∧ (∀ c ∈ digits,isDecimal c = true) ∧
    (digits.head? = some 48 → digits = [48]) ∧
    (text = digits ∧ digitsValue digits < 2147483648 ∨
      text = 45 :: digits ∧ digitsValue digits ≤ 2147483648 ∧ digits ≠ [48])

theorem intOf_plain (h : PlainInt text) : Session.decimalInt (intOf text).toInt = text := by
  obtain ⟨digits,hne,hd,hz,⟨rfl,hr⟩ | ⟨rfl,hr,h0⟩⟩ := h
  · rw [intOf,Api.strtol_digits hne hd,Nat.min_eq_left (by omega),
      Int32.toInt_ofInt_of_le (by omega) (by omega),Session.decimalInt,if_neg (by omega),
      Int.natAbs_natCast,decimal_digitsValue hne hd hz]
  · have hpos : digitsValue digits ≠ 0 := by
      intro h
      have hdec := decimal_digitsValue hne hd hz
      rw [h] at hdec
      exact h0 (hdec.symm.trans (by decide))
    rw [intOf,Api.strtol_minus hne hd,Nat.min_eq_left (by omega),
      Int32.toInt_ofInt_of_le (by omega) (by omega),Session.decimalInt,if_pos (by omega),
      Int.natAbs_neg,Int.natAbs_natCast,decimal_digitsValue hne hd hz]

theorem plain_decimalInt (d : Int32) : PlainInt (Session.decimalInt d.toInt) := by
  have hlo := d.le_toInt
  have hhi := d.toInt_lt
  refine ⟨decimal d.toInt.natAbs,decimal_ne_nil _,decimal_isDecimal _,decimal_leading,?_⟩
  rw [digitsValue_decimal,Session.decimalInt]
  by_cases hneg : d.toInt < 0
  · right
    refine ⟨by rw [if_pos hneg],by omega,?_⟩
    intro h
    have hv := congrArg digitsValue h
    rw [digitsValue_decimal,show digitsValue [48] = 0 by decide] at hv
    omega
  · left
    exact ⟨by rw [if_neg hneg],by omega⟩

theorem intOf_decimalInt (d : Int32) : intOf (Session.decimalInt d.toInt) = d := by
  have hlo := d.le_toInt
  have hhi := d.toInt_lt
  have hne := decimal_ne_nil d.toInt.natAbs
  have hd := decimal_isDecimal d.toInt.natAbs
  rw [Session.decimalInt,intOf]
  split
  · rw [Api.strtol_minus hne hd,digitsValue_decimal,Nat.min_eq_left (by omega),
      show -(d.toInt.natAbs : Int) = d.toInt by omega,Int32.ofInt_toInt]
  · rw [Api.strtol_digits hne hd,digitsValue_decimal,Nat.min_eq_left (by omega),
      show (d.toInt.natAbs : Int) = d.toInt by omega,Int32.ofInt_toInt]

end VkMiner.CandidateLog
