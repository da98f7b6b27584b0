import Mathlib.Data.List.Basic
import Mathlib.Data.List.TakeWhile
set_option autoImplicit false

/-! JSON as bytes: which byte strings are UTF-8, what a text parses to, and which strings
stand for themselves between quotes. -/

namespace JsonText

abbrev Text := List UInt8

abbrev Owed := List (UInt8 × UInt8)

def tail : UInt8 × UInt8 := (128,191)

def owes (b : UInt8) : Option Owed :=
  if b < 128 then some []
  else if 194 ≤ b ∧ b ≤ 223 then some [tail]
  else if b = 224 then some [(160,191),tail]
  else if b = 237 then some [(128,159),tail]
  else if 225 ≤ b ∧ b ≤ 239 then some [tail,tail]
  else if b = 240 then some [(144,191),tail,tail]
  else if 241 ≤ b ∧ b ≤ 243 then some [tail,tail,tail]
  else if b = 244 then some [(128,143),tail,tail]
  else none

def utf8From : Owed → Text → Bool
  | owed,[] => owed.isEmpty
  | [],b :: s =>
    match owes b with
    | none => false
    | some owed => utf8From owed s
  | (low,high) :: owed,b :: s => decide (low ≤ b ∧ b ≤ high) && utf8From owed s

def utf8 (s : Text) : Bool := utf8From [] s

def isWs (b : UInt8) : Bool := b = 32 || b = 9 || b = 10 || b = 13

def skip (s : Text) : Text := s.dropWhile isWs

def isDigit (b : UInt8) : Bool := 48 ≤ b && b ≤ 57

def hexValue (b : UInt8) : Option Nat :=
  if isDigit b then some (b.toNat-48)
  else if 65 ≤ b ∧ b ≤ 70 then some (b.toNat-55)
  else if 97 ≤ b ∧ b ≤ 102 then some (b.toNat-87)
  else none

def hex4 (a b c d : UInt8) : Option Nat :=
  match hexValue a,hexValue b,hexValue c,hexValue d with
  | some a,some b,some c,some d => some (((a*16+b)*16+c)*16+d)
  | _,_,_,_ => none

def encode (n : Nat) : Text :=
  if n < 128 then [UInt8.ofNat n]
  else if n < 2048 then [UInt8.ofNat (192+n/64),UInt8.ofNat (128+n%64)]
  else if n < 65536 then
    [UInt8.ofNat (224+n/4096),UInt8.ofNat (128+n/64%64),UInt8.ofNat (128+n%64)]
  else
    [UInt8.ofNat (240+n/262144),UInt8.ofNat (128+n/4096%64),UInt8.ofNat (128+n/64%64),
      UInt8.ofNat (128+n%64)]

def simpleEscape (b : UInt8) : Option UInt8 :=
  if b = 34 ∨ b = 92 ∨ b = 47 then some b
  else if b = 98 then some 8
  else if b = 102 then some 12
  else if b = 110 then some 10
  else if b = 114 then some 13
  else if b = 116 then some 9
  else none

def lowSurrogate : Text → Option (Nat × Text)
  | x :: y :: a :: b :: c :: d :: s =>
    match hex4 a b c d with
    | none => none
    | some n =>
      if x = 92 ∧ y = 117 ∧ 56320 ≤ n ∧ n < 57344 then some (n-56320,s) else none
  | _ => none

/-- What follows a backslash: the bytes it stands for. Neither half of a pair stands
alone, and nothing stands for a NUL. -/
def escaped : Text → Option (Text × Text)
  | [] => none
  | e :: s =>
    if e = 117 then
      match s with
      | a :: b :: c :: d :: s =>
        match hex4 a b c d with
        | none => none
        | some n =>
          if 55296 ≤ n ∧ n < 56320 then
            (lowSurrogate s).map (fun r => (encode (65536+(n-55296)*1024+r.1),r.2))
          else if 56320 ≤ n ∧ n < 57344 ∨ n = 0 then none
          else some (encode n,s)
      | _ => none
    else (simpleEscape e).map (fun x => ([x],s))

def scan : Nat → Text → Option (Text × Text)
  | 0,_ => none
  | _+1,[] => none
  | n+1,b :: s =>
    if b = 34 then some ([],s)
    else if b = 92 then
      match escaped s with
      | none => none
      | some (x,s') => (scan n s').map (fun r => (x ++ r.1,r.2))
    else if b < 32 then none
    else (scan n s).map (fun r => (b :: r.1,r.2))

def string (s : Text) : Option (Text × Text) := scan (s.length+1) s

def numberByte (b : UInt8) : Bool := isDigit b || b = 43 || b = 45 || b = 46 || b = 101 || b = 69

def digits (s : Text) : Option Text :=
  if (s.takeWhile isDigit).isEmpty then none else some (s.dropWhile isDigit)

def fraction (s : Text) : Option Text := if s.head? = some 46 then digits s.tail else some s

def exponent (s : Text) : Option Text :=
  if s.head? = some 101 ∨ s.head? = some 69 then
    digits (if s.tail.head? = some 43 ∨ s.tail.head? = some 45 then s.tail.tail else s.tail)
  else some s

def wellFormed (s : Text) : Bool :=
  let body := if s.head? = some 45 then s.tail else s
  let int := body.takeWhile isDigit
  !(body.head? = some 48 && 1 < int.length) &&
    (((digits body).bind fraction).bind exponent).any (fun rest => rest.isEmpty)

def number (s : Text) : Option (Text × Text) :=
  let n := s.takeWhile numberByte
  if wellFormed n then some (n,s.drop n.length) else none

inductive Value where
  | null
  | bool (b : Bool)
  | number (text : Text)
  | string (s : Text)
  | array (xs : List Value)
  | object (members : List (Text × Value))

def eat (b : UInt8) (s : Text) : Option Text :=
  match skip s with
  | [] => none
  | c :: s => if c = b then some s else none

def word (w : Text) (s : Text) : Option Text :=
  if w.isPrefixOf s then some (s.drop w.length) else none

mutual

def value : Nat → Text → Option (Value × Text)
  | 0,_ => none
  | n+1,s =>
    match skip s with
    | [] => none
    | b :: s =>
      if b = 34 then (string s).map (fun r => (.string r.1,r.2))
      else if b = 91 then
        match eat 93 s with
        | some s => some (.array [],s)
        | none => (elements n s).map (fun r => (.array r.1,r.2))
      else if b = 123 then
        match eat 125 s with
        | some s => some (.object [],s)
        | none => (members n s).map (fun r => (.object r.1,r.2))
      else if b = 116 then (word [114,117,101] s).map (fun s => (.bool true,s))
      else if b = 102 then (word [97,108,115,101] s).map (fun s => (.bool false,s))
      else if b = 110 then (word [117,108,108] s).map (fun s => (.null,s))
      else (number (b :: s)).map (fun r => (.number r.1,r.2))

def elements : Nat → Text → Option (List Value × Text)
  | 0,_ => none
  | n+1,s =>
    match value n s with
    | none => none
    | some (v,s) =>
      match eat 44 s with
      | some s => (elements n s).map (fun r => (v :: r.1,r.2))
      | none => (eat 93 s).map (fun s => ([v],s))

def members : Nat → Text → Option (List (Text × Value) × Text)
  | 0,_ => none
  | n+1,s =>
    match (eat 34 s).bind string with
    | none => none
    | some (k,s) =>
      match (eat 58 s).bind (value n) with
      | none => none
      | some (v,s) =>
        match eat 44 s with
        | some s => (members n s).map (fun r => ((k,v) :: r.1,r.2))
        | none => (eat 125 s).map (fun s => ([(k,v)],s))

end

def parse (s : Text) : Option Value :=
  if utf8 s then
    match value (s.length+1) s with
    | none => none
    | some (v,rest) => if (skip rest).isEmpty then some v else none
  else none

def Clean (s : Text) : Prop := ∀ b ∈ s, 32 ≤ b ∧ b ≠ 34 ∧ b ≠ 92

instance (s : Text) : Decidable (Clean s) := List.decidableBAll _ s

/-- What is between the quotes of a string, and what it stands for. -/
inductive Body : Text → Text → Prop where
  | nil : Body [] []
  | plain {b : UInt8} {raw dec : Text} : 32 ≤ b → b ≠ 34 → b ≠ 92 → Body raw dec →
      Body (b :: raw) (b :: dec)
  | quote {raw dec : Text} : Body raw dec → Body (92 :: 34 :: raw) (34 :: dec)
  | escape {chunk x raw dec : Text} : 34 ∉ chunk → x.length ≤ chunk.length → Body raw dec →
      Body (92 :: (chunk ++ raw)) (x ++ dec)

variable {s t x y raw dec rest more : Text} {n m : Nat}

theorem hexValue_quote : hexValue 34 = none := by decide

theorem hex4_quote {a b c d : UInt8} (h : hex4 a b c d = some n) : 34 ∉ [a,b,c,d] := by
  simp only [List.mem_cons,List.not_mem_nil,or_false,not_or]
  refine ⟨?_,?_,?_,?_⟩ <;> rintro rfl <;> simp [hex4,hexValue_quote] at h

theorem encode_length (n : Nat) : (encode n).length ≤ 4 := by
  unfold encode
  split
  · simp
  · split
    · simp
    · split <;> simp

theorem lowSurrogate_spec {r : Nat × Text} (h : lowSurrogate s = some r) :
    ∃ chunk, s = chunk ++ r.2 ∧ 34 ∉ chunk := by
  unfold lowSurrogate at h
  split at h
  · next x y a b c d s' =>
    split at h
    · cases h
    · next n hn =>
      split at h
      · next hxy =>
        rw [Option.some.injEq] at h
        subst h
        obtain ⟨rfl,rfl,-,-⟩ := hxy
        have hq := hex4_quote hn
        refine ⟨[92,117,a,b,c,d],by simp,?_⟩
        simpa using hq
      · cases h
  · cases h

theorem escaped_spec {r : Text × Text} (h : escaped s = some r) :
    ∃ chunk, s = chunk ++ r.2 ∧
      (chunk = [34] ∧ r.1 = [34] ∨ 34 ∉ chunk ∧ r.1.length ≤ chunk.length) := by
  unfold escaped at h
  split at h
  · cases h
  · next e s =>
    split at h
    · next he =>
      subst he
      split at h
      · next a b c d s =>
        split at h
        · cases h
        · next n hn =>
          have hq := hex4_quote hn
          split at h
          · obtain ⟨low,hlow,rfl⟩ := Option.map_eq_some_iff.mp h
            obtain ⟨chunk,hs,hc⟩ := lowSurrogate_spec hlow
            refine ⟨117 :: a :: b :: c :: d :: chunk,by simp [hs],.inr ⟨?_,?_⟩⟩
            · simp only [List.mem_cons,List.not_mem_nil,or_false,not_or] at hq ⊢
              exact ⟨by decide,hq.1,hq.2.1,hq.2.2.1,hq.2.2.2,hc⟩
            · have hl := encode_length (65536+(n-55296)*1024+low.1)
              simp only [List.length_cons]
              omega
          · split at h
            · cases h
            · cases h
              refine ⟨[117,a,b,c,d],by simp,.inr ⟨?_,?_⟩⟩
              · simpa using hq
              · have hl := encode_length n
                simp only [List.length_cons,List.length_nil]
                omega
      · cases h
    · obtain ⟨x,hx,rfl⟩ := Option.map_eq_some_iff.mp h
      refine ⟨[e],by simp,?_⟩
      by_cases he : e = 34
      · subst he
        cases hx
        exact .inl ⟨rfl,rfl⟩
      · exact .inr ⟨by simpa using Ne.symm he,by simp⟩

theorem scan_body {r : Text × Text} (h : scan n s = some r) :
    ∃ raw, s = raw ++ 34 :: r.2 ∧ Body raw r.1 := by
  induction n generalizing s r with
  | zero => cases h
  | succ n ih =>
    cases s with
    | nil => cases h
    | cons b s =>
      unfold scan at h
      split at h
      · next hb =>
        cases h
        exact ⟨[],by simp [hb],.nil⟩
      · next hquote =>
        split at h
        · next hb =>
          split at h
          · cases h
          · next x s' he =>
            obtain ⟨r',hr,rfl⟩ := Option.map_eq_some_iff.mp h
            obtain ⟨raw,rfl,hbody⟩ := ih hr
            obtain ⟨chunk,hs,hc⟩ := escaped_spec he
            refine ⟨92 :: (chunk ++ raw),by simp [hb,hs],?_⟩
            rcases hc with ⟨rfl,hx⟩ | ⟨hc,hl⟩
            · simp only at hx
              subst hx
              exact .quote hbody
            · exact .escape hc hl hbody
        · next hslash =>
          split at h
          · cases h
          · next hctl =>
            obtain ⟨r',hr,rfl⟩ := Option.map_eq_some_iff.mp h
            obtain ⟨raw,rfl,hbody⟩ := ih hr
            exact ⟨b :: raw,rfl,.plain (UInt8.not_lt.mp hctl) hquote hslash hbody⟩

theorem Body.length_le (h : Body raw dec) : dec.length ≤ raw.length := by
  induction h with
  | nil => exact Nat.le_refl _
  | plain _ _ _ _ ih => exact Nat.succ_le_succ ih
  | quote _ ih =>
    simp only [List.length_cons]
    omega
  | escape _ hl _ ih =>
    simp only [List.length_cons,List.length_append]
    omega

theorem Body.clean (h : Body raw dec) (hl : raw.length ≤ dec.length) : raw = dec ∧ Clean raw := by
  induction h with
  | nil => exact ⟨rfl,by simp [Clean]⟩
  | plain hctl hquote hslash _ ih =>
    obtain ⟨rfl,hc⟩ := ih (Nat.le_of_succ_le_succ hl)
    refine ⟨rfl,fun b hb => ?_⟩
    rcases List.mem_cons.mp hb with rfl | hb
    · exact ⟨hctl,hquote,hslash⟩
    · exact hc b hb
  | quote hb _ =>
    have hle := hb.length_le
    simp only [List.length_cons] at hl
    omega
  | escape _ hx hb _ =>
    have hle := hb.length_le
    simp only [List.length_cons,List.length_append] at hl
    omega

theorem Body.quote_inside {a : Text} (h : Body (a ++ 34 :: t) dec) :
    ∃ a' d₁ d₂, a = a' ++ [92] ∧ dec = d₁ ++ 34 :: d₂ ∧ Body t d₂ := by
  generalize hraw : a ++ 34 :: t = raw at h
  induction h generalizing a with
  | nil => simp at hraw
  | @plain b raw dec hctl hquote hslash _ ih =>
    cases a with
    | nil =>
      simp only [List.nil_append,List.cons.injEq] at hraw
      exact absurd hraw.1.symm hquote
    | cons c a =>
      simp only [List.cons_append,List.cons.injEq] at hraw
      obtain ⟨a',d₁,d₂,rfl,rfl,hb⟩ := ih hraw.2
      exact ⟨c :: a',b :: d₁,d₂,rfl,rfl,hb⟩
  | @quote raw dec hb ih =>
    match a,hraw with
    | [],hraw => simp at hraw
    | [c],hraw =>
      simp only [List.cons_append,List.nil_append,List.cons.injEq,true_and] at hraw
      exact ⟨[],[],dec,by rw [hraw.1]; rfl,rfl,by rw [hraw.2]; exact hb⟩
    | c :: e :: a,hraw =>
      simp only [List.cons_append,List.cons.injEq] at hraw
      obtain ⟨a',d₁,d₂,rfl,rfl,ht⟩ := ih hraw.2.2
      exact ⟨c :: e :: a',34 :: d₁,d₂,rfl,rfl,ht⟩
  | @escape chunk x raw dec hc hx hb ih =>
    cases a with
    | nil => simp at hraw
    | cons c a =>
      simp only [List.cons_append,List.cons.injEq] at hraw
      obtain ⟨hc92,hraw⟩ := hraw
      rcases List.append_eq_append_iff.mp hraw with ⟨u,hu,hrest⟩ | ⟨u,rfl,hrest⟩
      · cases u with
        | nil =>
          simp only [List.append_nil,List.nil_append] at hu hrest
          obtain ⟨a',d₁,d₂,ha,-⟩ := ih (a := []) (by simpa using hrest)
          simp at ha
        | cons e u =>
          simp only [List.cons_append,List.cons.injEq] at hrest
          refine absurd ?_ hc
          rw [hu,← hrest.1]
          simp
      · obtain ⟨a',d₁,d₂,rfl,rfl,ht⟩ := ih hrest.symm
        exact ⟨c :: (chunk ++ a'),x ++ d₁,d₂,by simp,by simp,ht⟩

theorem Body.unescaped (h : Body raw dec) (hn : 92 ∉ raw) : dec = raw := by
  induction h with
  | nil => rfl
  | plain _ _ _ _ ih => rw [ih (fun hm => hn (List.mem_cons_of_mem _ hm))]
  | quote => simp at hn
  | escape => simp at hn

theorem scan_clean (h : Clean x) (hn : x.length < n) : scan n (x ++ 34 :: s) = some (x,s) := by
  induction x generalizing n with
  | nil =>
    obtain ⟨n,rfl⟩ := Nat.exists_eq_succ_of_ne_zero (Nat.ne_of_gt hn)
    simp [scan]
  | cons b x ih =>
    obtain ⟨n,rfl⟩ := Nat.exists_eq_succ_of_ne_zero (Nat.ne_of_gt (Nat.zero_lt_of_lt hn))
    obtain ⟨hctl,hquote,hslash⟩ := h b List.mem_cons_self
    have hx : Clean x := fun c hc => h c (List.mem_cons_of_mem _ hc)
    have hrest := ih hx (Nat.lt_of_succ_lt_succ hn)
    simp [scan,hquote,hslash,UInt8.not_lt.mpr hctl,hrest]

theorem string_clean (h : Clean x) : string (x ++ 34 :: s) = some (x,s) := by
  refine scan_clean h ?_
  rw [List.length_append]
  omega

/-- A string that is read back as it was written is clean, and ends where it was ended:
what would close one that ends in a backslash is not what it ends in. -/
theorem string_back {r : Text} (h : string (x ++ 34 :: rest) = some (x,r))
    (hhead : rest.head? ≠ some 34) (hslash : 92 ∉ rest.takeWhile (fun b => b ≠ 34)) :
    Clean x ∧ r = rest := by
  obtain ⟨raw,hraw,hbody⟩ := scan_body h
  simp only at hraw hbody
  have hle := hbody.length_le
  rcases List.append_eq_append_iff.mp hraw with ⟨t,rfl,ht⟩ | ⟨t,rfl,-⟩
  · cases t with
    | nil =>
      simp only [List.append_nil,List.nil_append,List.cons.injEq,true_and] at ht hbody
      exact ⟨(hbody.clean (Nat.le_refl _)).2,ht.symm⟩
    | cons c t =>
      -- the quote behind `x` would be one of its own, and so would what follows it
      simp only [List.cons_append,List.cons.injEq] at ht
      obtain ⟨rfl,ht⟩ := ht
      obtain ⟨x',d₁,d₂,hx,hd,hb⟩ := hbody.quote_inside
      have hquote : 34 ∉ t := by
        intro hm
        obtain ⟨a,t',rfl,hfirst⟩ := List.eq_append_cons_of_mem hm
        obtain ⟨a',-,-,ha,-⟩ := hb.quote_inside
        have htake : rest.takeWhile (fun b => b ≠ 34) = a := by
          rw [ht,List.append_assoc,List.takeWhile_append_of_pos]
          · simp
          · intro b hb
            exact decide_eq_true (fun he => hfirst (he ▸ hb))
        rw [htake,ha] at hslash
        simp at hslash
      have htake : rest.takeWhile (fun b => b ≠ 34) = t := by
        rw [ht,List.takeWhile_append_of_pos]
        · simp
        · intro b hb
          exact decide_eq_true (fun he => hquote (he ▸ hb))
      rw [htake] at hslash
      have hd₂ := hb.unescaped hslash
      have hne : t ≠ [] := by
        rintro rfl
        rw [ht] at hhead
        exact hhead rfl
      have hlast : x.getLast? = t.getLast? := by
        rw [hd,hd₂,List.getLast?_append_cons,List.getLast?_cons_of_ne_nil hne]
      rw [hx,List.getLast?_append] at hlast
      simp only [List.getLast?_singleton,Option.some_or] at hlast
      exact absurd (List.mem_of_getLast? hlast.symm) hslash
  · simp only [List.length_append] at hle
    have ht : t = [] := List.length_eq_zero_iff.mp (by omega)
    subst ht
    simp only [List.append_nil] at hraw hbody ⊢
    have hr := List.append_cancel_left hraw
    simp only [List.cons.injEq,true_and] at hr
    exact ⟨(hbody.clean (Nat.le_refl _)).2,hr.symm⟩

theorem owes_high {b : UInt8} {owed : Owed} (h : owes b = some owed) : ∀ r ∈ owed, 128 ≤ r.1 := by
  unfold owes at h
  repeat' split at h
  all_goals cases h
  all_goals simp [tail]

theorem utf8From_append {owed : Owed} (ho : ∀ r ∈ owed, 128 ≤ r.1) {a : UInt8} (ha : a < 128) :
    utf8From owed (x ++ a :: y) = (utf8From owed x && utf8 y) := by
  induction x generalizing owed with
  | nil =>
    cases owed with
    | nil => simp [utf8From,owes,ha,utf8]
    | cons r owed =>
      have hr := ho r List.mem_cons_self
      have hlow : ¬r.1 ≤ a := fun hle => UInt8.not_lt.mpr (UInt8.le_trans hr hle) ha
      simp [utf8From,hlow]
  | cons b x ih =>
    cases owed with
    | nil =>
      simp only [List.cons_append,utf8From]
      cases hb : owes b with
      | none => rfl
      | some owed => exact ih (owes_high hb)
    | cons r owed =>
      have hrest := ih (fun q hq => ho q (List.mem_cons_of_mem _ hq))
      simp only [List.cons_append,utf8From,hrest,Bool.and_assoc]

theorem utf8_append {a : UInt8} (ha : a < 128) : utf8 (x ++ a :: y) = (utf8 x && utf8 y) :=
  utf8From_append (by simp) ha

theorem below_of_all (h : x.all (fun b => b < 128) = true) : ∀ b ∈ x, b < 128 :=
  fun b hb => of_decide_eq_true (List.all_eq_true.mp h b hb)

theorem utf8_ascii (h : ∀ b ∈ x, b < 128) : utf8 (x ++ y) = utf8 y := by
  induction x with
  | nil => rfl
  | cons a x ih =>
    have ha := utf8_append (x := []) (y := x ++ y) (h a List.mem_cons_self)
    rw [List.nil_append] at ha
    rw [List.cons_append,ha,ih (fun b hb => h b (List.mem_cons_of_mem _ hb))]
    rfl

def strings : List Text → Text → Text
  | [],y => y
  | [x],y => 34 :: (x ++ 34 :: 93 :: y)
  | x :: x' :: xs,y => 34 :: (x ++ 34 :: 44 :: 32 :: strings (x' :: xs) y)

theorem utf8_strings (xs : List Text) (y : Text) :
    utf8 (strings xs y) = (xs.all utf8 && utf8 y) := by
  have quote (x y : Text) : utf8 (34 :: (x ++ 34 :: y)) = (utf8 x && utf8 y) := by
    have h₁ := utf8_ascii (x := [34]) (y := x ++ 34 :: y) (below_of_all rfl)
    rw [List.singleton_append] at h₁
    rw [h₁,utf8_append (by decide)]
  induction xs with
  | nil => rfl
  | cons x xs ih =>
    cases xs with
    | nil =>
      have h := utf8_ascii (x := [93]) (y := y) (below_of_all rfl)
      rw [List.singleton_append] at h
      simp [strings,quote,h]
    | cons x' xs =>
      have h := utf8_ascii (x := [44,32]) (y := strings (x' :: xs) y) (below_of_all rfl)
      simp only [List.cons_append,List.nil_append] at h
      simp only [strings,quote,h,ih,List.all_cons,Bool.and_assoc]

theorem value_string (n : Nat) (s : Text) :
    value (n+1) (34 :: s) = (string s).map (fun r => (.string r.1,r.2)) := by
  simp [value,skip,isWs]

theorem value_space (n : Nat) (s : Text) : value n (32 :: s) = value n s := by
  cases n with
  | zero => rfl
  | succ n => simp [value,skip,isWs]

theorem elements_space (n : Nat) (s : Text) : elements n (32 :: s) = elements n s := by
  cases n with
  | zero => rfl
  | succ n => simp [elements,value_space]

theorem elements_string (n : Nat) (s : Text) :
    elements (n+2) (34 :: s) =
      match string s with
      | none => none
      | some (u,s) =>
        match eat 44 s with
        | some s => (elements (n+1) s).map (fun r => (.string u :: r.1,r.2))
        | none => (eat 93 s).map (fun s => ([.string u],s)) := by
  rw [elements,value_string]
  cases string s with
  | none => rfl
  | some r => rfl

theorem eat_here (b : UInt8) (h : isWs b = false) (s : Text) : eat b (b :: s) = some s := by
  simp [eat,skip,h]

theorem elements_strings (xs : List Text) (hne : xs ≠ []) (h : ∀ x ∈ xs, Clean x)
    (hn : xs.length < n) (y : Text) :
    elements n (strings xs y) = some (xs.map .string,y) := by
  induction xs generalizing n with
  | nil => exact absurd rfl hne
  | cons x xs ih =>
    obtain ⟨n,rfl⟩ : ∃ k, n = k+2 := ⟨n-2,by simp only [List.length_cons] at hn; omega⟩
    have hx := h x List.mem_cons_self
    cases xs with
    | nil =>
      simp only [strings,elements_string,string_clean hx,eat_here 93 rfl]
      rfl
    | cons x' xs =>
      have hrest := ih (List.cons_ne_nil _ _) (fun y hy => h y (List.mem_cons_of_mem _ hy))
        (n := n+1) (by simp only [List.length_cons] at hn ⊢; omega)
      simp only [strings,elements_string,string_clean hx,eat_here 44 rfl,elements_space,hrest]
      rfl

theorem elements_string_back {u : Text} {vs : List Value} {r : Text}
    (h : elements (n+2) (34 :: s) = some (.string u :: vs,r)) :
    ∃ s₁, string s = some (u,s₁) ∧
      match eat 44 s₁ with
      | some s₂ => elements (n+1) s₂ = some (vs,r)
      | none => vs = [] ∧ eat 93 s₁ = some r := by
  rw [elements_string] at h
  split at h
  · cases h
  · next v s₁ hs =>
    split at h
    · next s₂ he =>
      obtain ⟨q,hq,hr⟩ := Option.map_eq_some_iff.mp h
      simp only [Prod.mk.injEq,List.cons.injEq,Value.string.injEq] at hr
      obtain ⟨⟨rfl,rfl⟩,rfl⟩ := hr
      refine ⟨s₁,hs,?_⟩
      rw [he]
      exact hq
    · next he =>
      obtain ⟨q,hq,hr⟩ := Option.map_eq_some_iff.mp h
      simp only [Prod.mk.injEq,List.cons.injEq,Value.string.injEq] at hr
      obtain ⟨⟨rfl,rfl⟩,rfl⟩ := hr
      refine ⟨s₁,hs,?_⟩
      rw [he]
      exact ⟨rfl,hq⟩

theorem elements_back {xs : List Text} {r : Text} (hne : xs ≠ [])
    (hy : 92 ∉ y.takeWhile (fun b => b ≠ 34))
    (h : elements n (strings xs y) = some (xs.map .string,r)) : (∀ x ∈ xs, Clean x) ∧ r = y := by
  induction xs generalizing n with
  | nil => exact absurd rfl hne
  | cons x xs ih =>
    match n with
    | 0 => cases h
    | 1 => simp [elements,value] at h
    | n+2 =>
      cases xs with
      | nil =>
        obtain ⟨s,hs,hnext⟩ := elements_string_back h
        obtain ⟨hx,rfl⟩ := string_back hs (by simp) (by simpa using hy)
        simp only [show eat 44 (93 :: y) = none from rfl,eat_here 93 rfl,Option.some.injEq] at hnext
        exact ⟨by simpa using hx,hnext.2.symm⟩
      | cons x' xs =>
        obtain ⟨s,hs,hnext⟩ := elements_string_back h
        have htake : (44 :: 32 :: strings (x' :: xs) y).takeWhile (fun b => b ≠ 34) = [44,32] := by
          cases xs <;> simp [strings]
        obtain ⟨hx,rfl⟩ := string_back hs (by simp) (by rw [htake]; decide)
        simp only [eat_here 44 rfl,elements_space] at hnext
        obtain ⟨hxs,hrest⟩ := ih (List.cons_ne_nil _ _) hnext
        exact ⟨List.forall_mem_cons.mpr ⟨hx,hxs⟩,hrest⟩

theorem skip_more (hs : skip s ≠ []) (t : Text) : skip (s ++ t) = skip s ++ t := by
  unfold skip at hs ⊢
  rw [List.dropWhile_append]
  simp [hs]

theorem skip_of_eat {b : UInt8} (h : eat b s = some x) : skip s ≠ [] := by
  intro hs
  simp [eat,hs] at h

theorem ne_nil_of_skip (h : skip s ≠ []) : s ≠ [] := by
  rintro rfl
  exact h rfl

theorem eat_more {b : UInt8} (h : eat b s = some x) (t : Text) : eat b (s ++ t) = some (x ++ t) := by
  have hs := skip_of_eat h
  unfold eat at h ⊢
  rw [skip_more hs]
  split at h
  · cases h
  · next c s' hc =>
    rw [hc]
    split at h
    · next hb =>
      cases h
      simp [hb]
    · cases h

theorem eat_none_more {b : UInt8} (h : eat b s = none) (hs : skip s ≠ []) (t : Text) :
    eat b (s ++ t) = none := by
  unfold eat at h ⊢
  rw [skip_more hs]
  split at h
  · next hnil => exact absurd hnil hs
  · next c s' hc =>
    rw [hc]
    split at h
    · cases h
    · next hb => simp [hb]

theorem word_more {w : Text} (h : word w s = some x) (t : Text) :
    word w (s ++ t) = some (x ++ t) := by
  unfold word at h ⊢
  split at h
  · next hw =>
    obtain ⟨u,rfl⟩ := List.isPrefixOf_iff_prefix.mp hw
    cases h
    have hp : w.isPrefixOf (w ++ u ++ t) = true :=
      List.isPrefixOf_iff_prefix.mpr ⟨u ++ t,(List.append_assoc _ _ _).symm⟩
    rw [if_pos hp,List.append_assoc,List.drop_left,List.drop_left]
  · cases h

theorem lowSurrogate_more {r : Nat × Text} (h : lowSurrogate s = some r) (t : Text) :
    lowSurrogate (s ++ t) = some (r.1,r.2 ++ t) := by
  unfold lowSurrogate at h
  split at h
  · next x y a b c d s' =>
    simp only [List.cons_append,lowSurrogate]
    split at h
    · cases h
    · split at h
      · next hxy =>
        rw [Option.some.injEq] at h
        subst h
        rw [if_pos hxy]
      · cases h
  · cases h

theorem escaped_more {r : Text × Text} (h : escaped s = some r) (t : Text) :
    escaped (s ++ t) = some (r.1,r.2 ++ t) := by
  unfold escaped at h
  split at h
  · cases h
  · next e s =>
    simp only [List.cons_append,escaped]
    split at h
    · next he =>
      rw [if_pos he]
      split at h
      · next a b c d s =>
        simp only [List.cons_append]
        split at h
        · cases h
        · split at h
          · next hsur =>
            obtain ⟨low,hlow,rfl⟩ := Option.map_eq_some_iff.mp h
            rw [if_pos hsur,lowSurrogate_more hlow]
            rfl
          · next hsur =>
            rw [if_neg hsur]
            split at h
            · cases h
            · next hzero =>
              rw [if_neg hzero]
              rw [Option.some.injEq] at h
              rw [← h]
      · cases h
    · next he =>
      rw [if_neg he]
      obtain ⟨x,hx,rfl⟩ := Option.map_eq_some_iff.mp h
      rw [hx]
      rfl

theorem scan_more {r : Text × Text} (h : scan n s = some r) (hm : n ≤ m) (t : Text) :
    scan m (s ++ t) = some (r.1,r.2 ++ t) := by
  induction n generalizing s r m with
  | zero => cases h
  | succ n ih =>
    obtain ⟨m,rfl⟩ : ∃ k, m = k+1 := ⟨m-1,by omega⟩
    cases s with
    | nil => cases h
    | cons b s =>
      unfold scan at h
      rw [List.cons_append]
      unfold scan
      split at h
      · next hb =>
        cases h
        rw [if_pos hb]
      · next hb =>
        rw [if_neg hb]
        split at h
        · next hslash =>
          rw [if_pos hslash]
          split at h
          · cases h
          · next x s' he =>
            obtain ⟨r',hr,rfl⟩ := Option.map_eq_some_iff.mp h
            rw [escaped_more he]
            simp only [ih hr (Nat.le_of_succ_le_succ hm),Option.map_some]
        · next hslash =>
          rw [if_neg hslash]
          split at h
          · cases h
          · next hctl =>
            rw [if_neg hctl]
            obtain ⟨r',hr,rfl⟩ := Option.map_eq_some_iff.mp h
            simp only [ih hr (Nat.le_of_succ_le_succ hm),Option.map_some]

theorem string_more {r : Text × Text} (h : string s = some r) (t : Text) :
    string (s ++ t) = some (r.1,r.2 ++ t) :=
  scan_more h (by simp) t

theorem number_more {r : Text × Text} (h : number s = some r) (hr : r.2 ≠ []) (t : Text) :
    number (s ++ t) = some (r.1,r.2 ++ t) := by
  unfold number at h
  simp only at h
  split at h
  · next hw =>
    cases h
    have hlt : (s.takeWhile numberByte).length < s.length := by
      by_contra hle
      exact hr (List.drop_eq_nil_of_le (Nat.not_lt.mp hle))
    have htake : (s ++ t).takeWhile numberByte = s.takeWhile numberByte := by
      rw [List.takeWhile_append]
      simp [Nat.ne_of_lt hlt]
    unfold number
    simp only [htake,hw,if_true]
    rw [List.drop_append_of_le_length (Nat.le_of_lt hlt)]
  · cases h

theorem skip_of_value {r : Value × Text} (h : value n s = some r) : skip s ≠ [] := by
  intro hs
  cases n <;> simp [value,hs] at h

theorem skip_of_elements {r : List Value × Text} (h : elements n s = some r) : skip s ≠ [] := by
  cases n with
  | zero => cases h
  | succ n =>
    unfold elements at h
    split at h
    · cases h
    · next hv => exact skip_of_value hv

theorem skip_of_members {r : List (Text × Value) × Text} (h : members n s = some r) :
    skip s ≠ [] := by
  cases n with
  | zero => cases h
  | succ n =>
    unfold members at h
    split at h
    · cases h
    · next hk =>
      obtain ⟨s',he,-⟩ := Option.bind_eq_some_iff.mp hk
      exact skip_of_eat he

/-- What is read of a text is read of every longer one, with more fuel or the same. Only
a number could go on. -/
structure Extends (n : Nat) : Prop where
  value : ∀ s r m t, value n s = some r → (r.2 ≠ [] ∨ ∀ x, r.1 ≠ .number x) → n ≤ m →
    JsonText.value m (s ++ t) = some (r.1,r.2 ++ t)
  elements : ∀ s r m t, elements n s = some r → n ≤ m →
    JsonText.elements m (s ++ t) = some (r.1,r.2 ++ t)
  members : ∀ s r m t, members n s = some r → n ≤ m →
    JsonText.members m (s ++ t) = some (r.1,r.2 ++ t)

theorem Extends.value_succ (hn : Extends n) {s t : Text} {r : Value × Text} {m : Nat}
    (h : JsonText.value (n+1) s = some r) (hr : r.2 ≠ [] ∨ ∀ x, r.1 ≠ .number x) (hm : n+1 ≤ m) :
    JsonText.value m (s ++ t) = some (r.1,r.2 ++ t) := by
  obtain ⟨m,rfl⟩ : ∃ k, m = k+1 := ⟨m-1,by omega⟩
  have hm' : n ≤ m := Nat.le_of_succ_le_succ hm
  have hskip := skip_of_value h
  unfold JsonText.value at h ⊢
  rw [skip_more hskip]
  split at h
  · next hnil => exact absurd hnil hskip
  · next b s' hs =>
    simp only [hs,List.cons_append]
    split at h
    · next hb =>
      obtain ⟨q,hq,rfl⟩ := Option.map_eq_some_iff.mp h
      simp [hb,string_more hq]
    · next hquote =>
      rw [if_neg hquote]
      split at h
      · next hb =>
        rw [if_pos hb]
        split at h
        · next s₁ he =>
          cases h
          rw [eat_more he]
        · next he =>
          obtain ⟨q,hq,rfl⟩ := Option.map_eq_some_iff.mp h
          rw [eat_none_more he (skip_of_elements hq)]
          simp only [hn.elements _ _ _ t hq hm',Option.map_some]
      · next harray =>
        rw [if_neg harray]
        split at h
        · next hb =>
          rw [if_pos hb]
          split at h
          · next s₁ he =>
            cases h
            rw [eat_more he]
          · next he =>
            obtain ⟨q,hq,rfl⟩ := Option.map_eq_some_iff.mp h
            rw [eat_none_more he (skip_of_members hq)]
            simp only [hn.members _ _ _ t hq hm',Option.map_some]
        · next hobject =>
          rw [if_neg hobject]
          split at h
          · next hb =>
            obtain ⟨q,hq,rfl⟩ := Option.map_eq_some_iff.mp h
            rw [if_pos hb,word_more hq]
            rfl
          · next htrue =>
            rw [if_neg htrue]
            split at h
            · next hb =>
              obtain ⟨q,hq,rfl⟩ := Option.map_eq_some_iff.mp h
              rw [if_pos hb,word_more hq]
              rfl
            · next hfalse =>
              rw [if_neg hfalse]
              split at h
              · next hb =>
                obtain ⟨q,hq,rfl⟩ := Option.map_eq_some_iff.mp h
                rw [if_pos hb,word_more hq]
                rfl
              · next hnull =>
                obtain ⟨q,hq,rfl⟩ := Option.map_eq_some_iff.mp h
                have hne : q.2 ≠ [] := hr.resolve_right (fun hx => hx q.1 rfl)
                have hmore := number_more hq hne t
                rw [List.cons_append] at hmore
                rw [if_neg hnull,hmore]
                rfl

theorem Extends.elements_succ (hn : Extends n) {s t : Text} {r : List Value × Text} {m : Nat}
    (h : JsonText.elements (n+1) s = some r) (hm : n+1 ≤ m) :
    JsonText.elements m (s ++ t) = some (r.1,r.2 ++ t) := by
  obtain ⟨m,rfl⟩ : ∃ k, m = k+1 := ⟨m-1,by omega⟩
  have hm' : n ≤ m := Nat.le_of_succ_le_succ hm
  unfold JsonText.elements at h ⊢
  split at h
  · cases h
  · next v s' hv =>
    split at h
    · next s₁ he =>
      have hne := ne_nil_of_skip (skip_of_eat he)
      obtain ⟨q,hq,rfl⟩ := Option.map_eq_some_iff.mp h
      rw [hn.value _ _ _ t hv (.inl hne) hm']
      simp only [eat_more he,hn.elements _ _ _ t hq hm',Option.map_some]
    · next he =>
      obtain ⟨q,hq,rfl⟩ := Option.map_eq_some_iff.mp h
      have hskip := skip_of_eat hq
      rw [hn.value _ _ _ t hv (.inl (ne_nil_of_skip hskip)) hm']
      simp only [eat_none_more he hskip,eat_more hq,Option.map_some]

theorem Extends.members_succ (hn : Extends n) {s t : Text} {r : List (Text × Value) × Text}
    {m : Nat} (h : JsonText.members (n+1) s = some r) (hm : n+1 ≤ m) :
    JsonText.members m (s ++ t) = some (r.1,r.2 ++ t) := by
  obtain ⟨m,rfl⟩ : ∃ k, m = k+1 := ⟨m-1,by omega⟩
  have hm' : n ≤ m := Nat.le_of_succ_le_succ hm
  unfold JsonText.members at h ⊢
  split at h
  · cases h
  · next k s₁ hk =>
    obtain ⟨s₂,hquote,hstring⟩ := Option.bind_eq_some_iff.mp hk
    have hk' : (eat 34 (s ++ t)).bind string = some (k,s₁ ++ t) := by
      rw [eat_more hquote,Option.bind_some,string_more hstring]
    rw [hk']
    split at h
    · cases h
    · next v s₃ hv =>
      obtain ⟨s₄,hcolon,hval⟩ := Option.bind_eq_some_iff.mp hv
      have next (hskip : skip s₃ ≠ []) :
          (eat 58 (s₁ ++ t)).bind (JsonText.value m) = some (v,s₃ ++ t) := by
        rw [eat_more hcolon,Option.bind_some]
        exact hn.value _ _ _ t hval (.inl (ne_nil_of_skip hskip)) hm'
      split at h
      · next s₅ he =>
        obtain ⟨q,hq,rfl⟩ := Option.map_eq_some_iff.mp h
        simp only [next (skip_of_eat he),eat_more he,hn.members _ _ _ t hq hm',Option.map_some]
      · next he =>
        obtain ⟨q,hq,rfl⟩ := Option.map_eq_some_iff.mp h
        have hskip := skip_of_eat hq
        simp only [next hskip,eat_none_more he hskip,eat_more hq,Option.map_some]

theorem extends_all (n : Nat) : Extends n := by
  induction n with
  | zero =>
    refine ⟨?_,?_,?_⟩ <;> intro s r m t h <;> cases h
  | succ n ih => exact ⟨fun _ _ _ _ h hr hm => ih.value_succ h hr hm,
      fun _ _ _ _ h hm => ih.elements_succ h hm,fun _ _ _ _ h hm => ih.members_succ h hm⟩

theorem value_more {o : List (Text × Value)} {r : Text} (h : value n s = some (.object o,r))
    (hm : n ≤ m) (t : Text) : value m (s ++ t) = some (.object o,r ++ t) :=
  (extends_all n).value s _ m t h (.inr (fun _ hx => by cases hx)) hm

theorem value_object (n : Nat) (s : Text) :
    value (n+1) (123 :: 34 :: s) = (members n (34 :: s)).map (fun r => (.object r.1,r.2)) := by
  simp [value,skip,isWs,eat]

theorem value_array (n : Nat) (s : Text) :
    value (n+1) (91 :: 34 :: s) = (elements n (34 :: s)).map (fun r => (.array r.1,r.2)) := by
  simp [value,skip,isWs,eat]

/-- A number of digits only, without a leading zero. -/
structure Digits (d : Text) : Prop where
  nonempty : d ≠ []
  digits : ∀ b ∈ d, isDigit b = true
  leading : d.head? = some 48 → d.length = 1

theorem digit_numberByte {b : UInt8} (h : isDigit b = true) : numberByte b = true := by
  simp [numberByte,h]

theorem Digits.wellFormed {d : Text} (h : Digits d) : wellFormed d = true := by
  have hall : d.takeWhile isDigit = d := List.takeWhile_eq_self_iff.mpr h.digits
  have hnone : d.dropWhile isDigit = [] := List.dropWhile_eq_nil_iff.mpr h.digits
  obtain ⟨a,d',rfl⟩ := List.exists_cons_of_ne_nil h.nonempty
  have ha := h.digits a List.mem_cons_self
  have hsign : a ≠ 45 := by
    rintro rfl
    exact absurd ha (by decide)
  have hbody : (if (a :: d').head? = some 45 then (a :: d').tail else a :: d') = a :: d' :=
    if_neg (by simpa using hsign)
  have hzero : ((a :: d').head? = some 48 && decide (1 < (a :: d').length)) = false := by
    by_cases hz : (a :: d').head? = some 48
    · simp [h.leading hz]
    · rw [Bool.and_eq_false_iff]
      exact .inl (decide_eq_false hz)
  have hdigits : JsonText.digits (a :: d') = some [] := by
    simp [JsonText.digits,hall,hnone]
  unfold JsonText.wellFormed
  simp only [hbody,hall,hzero,hdigits,Option.bind_some,fraction]
  rfl

theorem number_digits {d : Text} (h : Digits d) {b : UInt8} (hb : numberByte b = false) (s : Text) :
    number (d ++ b :: s) = some (d,b :: s) := by
  have htake : (d ++ b :: s).takeWhile numberByte = d := by
    rw [List.takeWhile_append_of_pos (fun c hc => digit_numberByte (h.digits c hc))]
    simp [hb]
  unfold number
  simp only [htake,h.wellFormed,if_true,List.drop_left]

theorem value_digits {d : Text} (h : Digits d) {b : UInt8} (hb : numberByte b = false) (s : Text) :
    value (n+1) (d ++ b :: s) = some (.number d,b :: s) := by
  have hnum := number_digits h hb s
  obtain ⟨a,d',rfl⟩ := List.exists_cons_of_ne_nil h.nonempty
  have ha := h.digits a List.mem_cons_self
  have hws : isWs a = false := by
    cases hw : isWs a with
    | false => rfl
    | true =>
      simp only [isWs,Bool.or_eq_true,decide_eq_true_eq] at hw
      rcases hw with ((rfl | rfl) | rfl) | rfl <;> exact absurd ha (by decide)
  have hne : ∀ c : UInt8, isDigit c = false → a ≠ c := by
    rintro c hc rfl
    rw [ha] at hc
    cases hc
  rw [List.cons_append] at hnum ⊢
  simp [value,skip,hws,hne 34 rfl,hne 91 rfl,hne 123 rfl,hne 116 rfl,hne 102 rfl,hne 110 rfl,hnum]

theorem members_space (n : Nat) (s : Text) : members n (32 :: s) = members n s := by
  cases n with
  | zero => rfl
  | succ n => simp [members,eat,skip,isWs]

variable {k : Text} {v : Value}

theorem members_ne_nil (n : Nat) (s r : Text) : members n s ≠ some ([],r) := by
  intro h
  cases n with
  | zero => cases h
  | succ n =>
    unfold members at h
    split at h
    · cases h
    · split at h
      · cases h
      · split at h
        · obtain ⟨p,-,hp⟩ := Option.map_eq_some_iff.mp h
          simp at hp
        · obtain ⟨p,-,hp⟩ := Option.map_eq_some_iff.mp h
          simp at hp

theorem members_here (hk : Clean k) (s : Text) :
    members (n+1) (34 :: (k ++ 34 :: 58 :: s)) =
      match value n s with
      | none => none
      | some (v,s) =>
        match eat 44 s with
        | some s => (members n s).map (fun r => ((k,v) :: r.1,r.2))
        | none => (eat 125 s).map (fun s => ([(k,v)],s)) := by
  have hstring : (eat 34 (34 :: (k ++ 34 :: 58 :: s))).bind string = some (k,58 :: s) := by
    rw [eat_here 34 rfl,Option.bind_some,string_clean hk]
  rw [members,hstring]
  simp only [eat_here 58 rfl,Option.bind_some]

theorem members_comma (hk : Clean k) (hv : value n s = some (v,44 :: t)) :
    members (n+1) (34 :: (k ++ 34 :: 58 :: s)) =
      (members n t).map (fun r => ((k,v) :: r.1,r.2)) := by
  simp only [members_here hk,hv,eat_here 44 rfl]

theorem members_end (hk : Clean k) (hv : value n s = some (v,125 :: t)) :
    members (n+1) (34 :: (k ++ 34 :: 58 :: s)) = some ([(k,v)],t) := by
  have hnone : eat 44 (125 :: t) = none := by simp [eat,skip,isWs]
  simp only [members_here hk,hv,hnone,eat_here 125 rfl,Option.map_some]

theorem members_comma_back {q : Text × Value} {ms : List (Text × Value)} {r : Text} (hk : Clean k)
    (h : members n (34 :: (k ++ 34 :: 58 :: s)) = some ((k,v) :: q :: ms,r)) :
    ∃ m s₁ s₂, value m s = some (v,s₁) ∧ eat 44 s₁ = some s₂ ∧ members m s₂ = some (q :: ms,r) := by
  cases n with
  | zero => cases h
  | succ n =>
    rw [members_here hk] at h
    split at h
    · cases h
    · next v' s₁ hv =>
      split at h
      · next s₂ he =>
        obtain ⟨p,hp,hpair⟩ := Option.map_eq_some_iff.mp h
        simp only [Prod.mk.injEq,List.cons.injEq,true_and] at hpair
        obtain ⟨⟨rfl,hms⟩,rfl⟩ := hpair
        exact ⟨n,s₁,s₂,hv,he,by rw [hp,← hms]⟩
      · obtain ⟨p,-,hpair⟩ := Option.map_eq_some_iff.mp h
        simp at hpair

theorem members_end_back {r : Text} (hk : Clean k)
    (h : members n (34 :: (k ++ 34 :: 58 :: s)) = some ([(k,v)],r)) :
    ∃ m s₁, value m s = some (v,s₁) ∧ eat 125 s₁ = some r := by
  cases n with
  | zero => cases h
  | succ n =>
    rw [members_here hk] at h
    split at h
    · cases h
    · next v' s₁ hv =>
      split at h
      · next s₂ he =>
        obtain ⟨p,hp,hpair⟩ := Option.map_eq_some_iff.mp h
        simp only [Prod.mk.injEq,List.cons.injEq,true_and] at hpair
        rw [show p = ([],r) from Prod.ext hpair.1.2 hpair.2] at hp
        exact absurd hp (members_ne_nil n s₂ r)
      · obtain ⟨p,hp,hpair⟩ := Option.map_eq_some_iff.mp h
        simp only [Prod.mk.injEq,List.cons.injEq,and_true,true_and] at hpair
        obtain ⟨rfl,rfl⟩ := hpair
        exact ⟨n,s₁,hv,hp⟩

theorem value_object_back {o : List (Text × Value)} {r : Text}
    (h : value n (123 :: 34 :: s) = some (.object o,r)) :
    ∃ m, members m (34 :: s) = some (o,r) := by
  cases n with
  | zero => cases h
  | succ n =>
    rw [value_object] at h
    obtain ⟨p,hp,hpair⟩ := Option.map_eq_some_iff.mp h
    simp only [Prod.mk.injEq,Value.object.injEq] at hpair
    exact ⟨n,by rw [hp,← hpair.1,← hpair.2]⟩

theorem value_array_back {xs : List Value} {r : Text}
    (h : value n (91 :: 34 :: s) = some (.array xs,r)) :
    ∃ m, elements m (34 :: s) = some (xs,r) := by
  cases n with
  | zero => cases h
  | succ n =>
    rw [value_array] at h
    obtain ⟨p,hp,hpair⟩ := Option.map_eq_some_iff.mp h
    simp only [Prod.mk.injEq,Value.array.injEq] at hpair
    exact ⟨n,by rw [hp,← hpair.1,← hpair.2]⟩

theorem value_clean (hk : Clean k) : value (n+1) (34 :: (k ++ 34 :: s)) = some (.string k,s) := by
  rw [value_string,string_clean hk]
  rfl

theorem value_clean_back {r : Text} (hk : Clean k)
    (h : value n (34 :: (k ++ 34 :: s)) = some (v,r)) : r = s := by
  cases n with
  | zero => cases h
  | succ n =>
    rw [value_clean hk,Option.some.injEq,Prod.mk.injEq] at h
    exact h.2.symm

theorem value_digits_back {d r : Text} (hd : Digits d) {b : UInt8} (hb : numberByte b = false)
    (h : value n (d ++ b :: s) = some (v,r)) : r = b :: s := by
  cases n with
  | zero => cases h
  | succ n =>
    rw [value_digits hd hb,Option.some.injEq,Prod.mk.injEq] at h
    exact h.2.symm

/-- What every reader of UTF-8 JSON takes for itself. -/
structure Plain (s : Text) : Prop where
  clean : Clean s
  utf8 : utf8 s = true

instance (s : Text) : Decidable (Plain s) :=
  decidable_of_iff (Clean s ∧ utf8 s = true) ⟨fun h => ⟨h.1,h.2⟩,fun h => ⟨h.clean,h.utf8⟩⟩

theorem plain_all (xs : List Text) :
    (∀ x ∈ xs, Plain x) ↔ (∀ x ∈ xs, Clean x) ∧ xs.all utf8 = true := by
  rw [List.all_eq_true]
  exact ⟨fun h => ⟨fun x hx => (h x hx).clean,fun x hx => (h x hx).utf8⟩,
    fun h x hx => ⟨h.1 x hx,h.2 x hx⟩⟩

/-- A text that begins with an object and nothing else has to be read to its end. -/
theorem parse_prefix {o : List (Text × Value)} {s t : Text} (h : parse s = some (.object o)) :
    ∃ r, value ((s ++ t).length+1) (s ++ t) = some (.object o,r ++ t) := by
  unfold parse at h
  split at h
  · split at h
    · cases h
    · next v r hv =>
      split at h
      · cases h
        exact ⟨r,value_more hv (by simp) t⟩
      · cases h
  · cases h

theorem utf8_of_parse (h : parse s = some v) : utf8 s = true := by
  unfold parse at h
  split at h
  · next hu => exact hu
  · cases h

end JsonText
