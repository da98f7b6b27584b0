import Mathlib.Data.List.Basic
import Mathlib.Data.List.TakeWhile
set_option autoImplicit false

/-! Reading a line of fields the way `sscanf` does: blanks are passed over, and a conversion takes
as many characters as it can. -/

namespace Scan

structure Alphabet (α : Type*) where
  blank : α → Bool
  sign : α → Bool
  digit : α → Bool

inductive Conv where
  | number
  | word (width : Nat)

/-- What a conversion takes, after the blanks before it. -/
structure Piece (α : Type*) where
  gap : List α
  text : List α

variable {α : Type*} {A : Alphabet α} {gap text digits r s : List α}

def Piece.all (p : Piece α) : List α := p.gap ++ p.text

def taken (A : Alphabet α) : Conv → List α → List α
  | .number,s =>
    let sign := (s.take 1).takeWhile A.sign
    let digits := (s.drop sign.length).takeWhile A.digit
    if digits = [] then [] else sign ++ digits
  | .word width,s => (s.take width).takeWhile fun c => !A.blank c

def convert (A : Alphabet α) (c : Conv) (s : List α) : Option (Piece α × List α) :=
  let t := s.dropWhile A.blank
  let text := taken A c t
  if text = [] then none else some (⟨s.takeWhile A.blank,text⟩,t.drop text.length)

def scan (A : Alphabet α) : List Conv → List α → Option (List (Piece α) × List α)
  | [],s => some ([],s)
  | c :: cs,s =>
    match convert A c s with
    | none => none
    | some (p,s') =>
      match scan A cs s' with
      | none => none
      | some (ps,r) => some (p :: ps,r)

def Ends (p : α → Bool) (r : List α) : Prop := ∀ c ∈ r.head?,p c = false

theorem takeWhile_ends {p : α → Bool} (hs : ∀ c ∈ s,p c = true) (hr : Ends p r) :
    (s ++ r).takeWhile p = s := by
  induction s with
  | nil =>
    cases r with
    | nil => rfl
    | cons c r => simp [hr c (by simp)]
  | cons c s ih =>
    have hc := hs c (by simp)
    simp [hc,ih fun d hd => hs d (by simp [hd])]

theorem dropWhile_ends {p : α → Bool} (hs : ∀ c ∈ s,p c = true) (hr : Ends p r) :
    (s ++ r).dropWhile p = r := by
  induction s with
  | nil =>
    cases r with
    | nil => rfl
    | cons c r => simp [hr c (by simp)]
  | cons c s ih =>
    have hc := hs c (by simp)
    simp [hc,ih fun d hd => hs d (by simp [hd])]

theorem taken_starts (A : Alphabet α) (c : Conv) (s : List α) : taken A c s <+: s := by
  cases c with
  | word width =>
    exact (List.takeWhile_prefix _).trans (List.take_prefix _ _)
  | number =>
    simp only [taken]
    split
    · exact List.nil_prefix
    · have hsign : (s.take 1).takeWhile A.sign <+: s :=
        (List.takeWhile_prefix _).trans (List.take_prefix _ _)
      have hs := List.prefix_iff_eq_append.mp hsign
      conv_rhs => rw [← hs]
      exact (List.prefix_append_right_inj _).mpr (List.takeWhile_prefix _)

theorem convert_all {c : Conv} {p : Piece α} (h : convert A c s = some (p,r)) :
    p.all ++ r = s := by
  simp only [convert] at h
  split at h
  · cases h
  · simp only [Option.some.injEq,Prod.mk.injEq] at h
    obtain ⟨rfl,rfl⟩ := h
    have ht := List.prefix_iff_eq_append.mp (taken_starts A c (s.dropWhile A.blank))
    simp only [Piece.all,List.append_assoc,ht]
    exact List.takeWhile_append_dropWhile

theorem scan_all {cs : List Conv} {ps : List (Piece α)} (h : scan A cs s = some (ps,r)) :
    ps.flatMap Piece.all ++ r = s := by
  induction cs generalizing s ps with
  | nil =>
    simp only [scan,Option.some.injEq,Prod.mk.injEq] at h
    obtain ⟨rfl,rfl⟩ := h
    rfl
  | cons c cs ih =>
    simp only [scan] at h
    cases hc : convert A c s with
    | none => simp [hc] at h
    | some out =>
      obtain ⟨p,s'⟩ := out
      cases hs : scan A cs s' with
      | none => simp [hc,hs] at h
      | some out =>
        obtain ⟨ps',r'⟩ := out
        simp only [hc,hs,Option.some.injEq,Prod.mk.injEq] at h
        obtain ⟨rfl,rfl⟩ := h
        rw [List.flatMap_cons,List.append_assoc,ih hs,convert_all hc]

theorem takeWhile_extend (p : α → Bool) (s t : List α) :
    (s ++ t).takeWhile p = s.takeWhile p ∨
      s.takeWhile p = s ∧ s.length < ((s ++ t).takeWhile p).length := by
  rw [List.takeWhile_append]
  split
  · next hall =>
    have hs := (List.takeWhile_prefix p).eq_of_length hall
    cases ht : t.takeWhile p with
    | nil => exact .inl (by rw [hs,List.append_nil])
    | cons a as => exact .inr ⟨hs,by simp⟩
  · exact .inl rfl

theorem taken_extend {c : Conv} (t : List α) (h : taken A c s ≠ []) :
    taken A c (s ++ t) = taken A c s ∨
      taken A c s = s ∧ s.length < (taken A c (s ++ t)).length := by
  cases c with
  | number =>
    have hs : s ≠ [] := by
      rintro rfl
      exact h rfl
    have hone : (s ++ t).take 1 = s.take 1 :=
      List.take_append_of_le_length (List.length_pos_iff.mpr hs)
    simp only [taken,hone] at h ⊢
    have hpre : (s.take 1).takeWhile A.sign <+: s :=
      (List.takeWhile_prefix _).trans (List.take_prefix _ _)
    generalize (s.take 1).takeWhile A.sign = sign at h hpre ⊢
    obtain ⟨u,rfl⟩ := hpre
    rw [List.drop_left] at h ⊢
    rw [List.append_assoc,List.drop_left]
    split at h
    · exact absurd rfl h
    · next hd =>
      obtain he | ⟨he,hlt⟩ := takeWhile_extend A.digit u t
      · exact .inl (by rw [he])
      · rw [he] at hd ⊢
        rw [if_neg hd,if_neg (List.ne_nil_of_length_pos (by omega))]
        exact .inr ⟨rfl,by simpa using hlt⟩
  | word width =>
    simp only [taken,List.take_append]
    obtain he | ⟨he,hlt⟩ := takeWhile_extend (fun c => !A.blank c) (s.take width) (t.take (width-s.length))
    · exact .inl he
    · by_cases hl : s.length < width
      · rw [List.take_of_length_le hl.le] at he hlt ⊢
        exact .inr ⟨he,hlt⟩
      · rw [show width-s.length = 0 by omega]
        exact .inl (by simp)

theorem convert_extend {c : Conv} {p : Piece α} (t : List α) (h : convert A c s = some (p,r)) :
    ∃ q r',convert A c (s ++ t) = some (q,r') ∧
      (q = p ∧ r' = r ++ t ∨ r = [] ∧ p.text.length < q.text.length) := by
  simp only [convert] at h
  split at h
  · cases h
  · next hne =>
    simp only [Option.some.injEq,Prod.mk.injEq] at h
    obtain ⟨rfl,rfl⟩ := h
    have hs : s.dropWhile A.blank ≠ [] := by
      intro hnil
      rw [hnil] at hne
      exact hne (List.prefix_nil.mp (taken_starts A c []))
    have hd : (s ++ t).dropWhile A.blank = s.dropWhile A.blank ++ t := by
      rw [List.dropWhile_append,if_neg (by simpa using hs)]
    have hl := (taken_starts A c (s.dropWhile A.blank)).length_le
    simp only [convert,hd]
    obtain he | ⟨he,hlt⟩ := taken_extend t hne
    · have hg : (s ++ t).takeWhile A.blank = s.takeWhile A.blank := by
        have hall := List.takeWhile_append_dropWhile (p := A.blank) (l := s)
        rw [List.takeWhile_append,if_neg]
        intro hlen
        have := congrArg List.length hall
        rw [List.length_append,hlen] at this
        exact hs (List.length_eq_zero_iff.mp (by omega))
      refine ⟨_,_,by rw [he,if_neg hne],.inl ⟨by rw [hg],?_⟩⟩
      rw [List.drop_append_of_le_length hl]
    · refine ⟨_,_,if_neg ?_,.inr ⟨?_,?_⟩⟩
      · exact List.ne_nil_of_length_pos (by omega)
      · rw [he,List.drop_length]
      · rwa [he]

theorem scan_extend {cs : List Conv} {ps : List (Piece α)} (t : List α)
    (h : scan A cs s = some (ps,r)) : ∃ qs r',scan A cs (s ++ t) = some (qs,r') ∧
      (qs = ps ∧ r' = r ++ t ∨
        ∃ init p q,ps = init ++ [p] ∧ qs = init ++ [q] ∧ p.text.length < q.text.length) := by
  induction cs generalizing s ps with
  | nil =>
    simp only [scan,Option.some.injEq,Prod.mk.injEq] at h
    obtain ⟨rfl,rfl⟩ := h
    exact ⟨[],s ++ t,rfl,.inl ⟨rfl,rfl⟩⟩
  | cons c cs ih =>
    simp only [scan] at h
    cases hc : convert A c s with
    | none => simp [hc] at h
    | some out =>
      obtain ⟨p,s'⟩ := out
      cases hs : scan A cs s' with
      | none => simp [hc,hs] at h
      | some out =>
        obtain ⟨ps',r'⟩ := out
        simp only [hc,hs,Option.some.injEq,Prod.mk.injEq] at h
        obtain ⟨rfl,rfl⟩ := h
        obtain ⟨q,s'',hq,⟨rfl,rfl⟩ | ⟨rfl,hlt⟩⟩ := convert_extend t hc
        · obtain ⟨qs,r'',hqs,⟨rfl,rfl⟩ | ⟨init,p,q',rfl,rfl,hlt⟩⟩ := ih hs
          · exact ⟨q :: qs,_,by simp [scan,hq,hqs],.inl ⟨rfl,rfl⟩⟩
          · exact ⟨q :: (init ++ [q']),r'',by simp [scan,hq,hqs],.inr ⟨q :: init,p,q',rfl,rfl,hlt⟩⟩
        · cases cs with
          | nil =>
            simp only [scan,Option.some.injEq,Prod.mk.injEq] at hs
            obtain ⟨rfl,rfl⟩ := hs
            exact ⟨[q],s'',by simp [scan,hq],.inr ⟨[],p,q,rfl,rfl,hlt⟩⟩
          | cons c cs =>
            have hnil : taken A c [] = [] := List.prefix_nil.mp (taken_starts A c [])
            simp [scan,convert,hnil] at hs

def Takes (A : Alphabet α) (c : Conv) (text r : List α) : Prop :=
  Ends A.blank text ∧ text ≠ [] ∧ taken A c (text ++ r) = text

theorem convert_takes {c : Conv} (hg : ∀ a ∈ gap,A.blank a = true) (h : Takes A c text r) :
    convert A c (gap ++ (text ++ r)) = some (⟨gap,text⟩,r) := by
  obtain ⟨hb,hne,ht⟩ := h
  have he : Ends A.blank (text ++ r) := by
    cases text with
    | nil => exact absurd rfl hne
    | cons a text => simpa [Ends] using hb
  simp only [convert,takeWhile_ends hg he,dropWhile_ends hg he,ht,if_neg hne]
  simp

theorem word_takes {width : Nat} (hne : text ≠ []) (hb : ∀ a ∈ text,A.blank a = false)
    (hl : text.length ≤ width) (hr : ∀ c ∈ r.head?,A.blank c = true) :
    Takes A (.word width) text r := by
  refine ⟨?_,hne,?_⟩
  · intro a ha
    exact hb a (List.mem_of_mem_head? ha)
  · rw [taken,List.take_append,List.take_of_length_le hl]
    apply takeWhile_ends
    · simpa using hb
    · intro c hc
      cases r with
      | nil => simp at hc
      | cons a r =>
        cases hn : width-text.length with
        | zero => simp [hn] at hc
        | succ n =>
          simp only [hn,List.take_succ_cons,List.head?_cons,Option.mem_some_iff] at hc
          simp [← hc,hr a (by simp)]

theorem digits_take (hd : digits ≠ []) (hall : ∀ c ∈ digits,A.digit c = true)
    (hsign : Ends A.sign digits) (hb : Ends A.blank digits) (hr : Ends A.digit r) :
    Takes A .number digits r := by
  refine ⟨hb,hd,?_⟩
  obtain ⟨c,cs,rfl⟩ := List.exists_cons_of_ne_nil hd
  have hs : A.sign c = false := hsign c (by simp)
  have ht := takeWhile_ends (r := r) hall hr
  simp only [List.cons_append] at ht
  simp [taken,hs,ht]

theorem signed_take {c : α} (hd : digits ≠ []) (hall : ∀ c ∈ digits,A.digit c = true)
    (hs : A.sign c = true) (hb : A.blank c = false) (hr : Ends A.digit r) :
    Takes A .number (c :: digits) r := by
  refine ⟨by simpa [Ends] using hb,by simp,?_⟩
  simp [taken,hs,takeWhile_ends hall hr,hd]

end Scan
