import VkMiner.Host.Captures
set_option autoImplicit false

/-! A captured candidate is read back as it was written; where a line that is read was written by
a capture; and what a replay hashes. -/

namespace VkMiner.CandidateLog
open ByteOrder Scan
open Scheduler.Mining (CandidateFault)

structure Fields where
  format : CStr
  fault : CStr
  device : CStr
  nonce : CStr
  header : CStr
  target : CStr
  deviceHash : CStr
  hostHash : CStr

def Fields.texts (f : Fields) : List CStr :=
  [f.format,f.fault,f.device,f.nonce,f.header,f.target,f.deviceHash,f.hostHash]

def Fields.digits (f : Fields) : List CStr :=
  [f.nonce,f.header,f.target,f.deviceHash,f.hostHash]

/-- The fields as a capture spells them: numbers as they are printed, and digits in lower case. -/
structure Fields.Plain (f : Fields) : Prop where
  format : PlainInt f.format
  device : PlainInt f.device
  digits : ∀ t ∈ f.digits,∀ c ∈ t,isLowerHex c = true

def spaced : List CStr → List (Piece UInt8)
  | [] => []
  | t :: ts => ⟨[],t⟩ :: ts.map fun t => ⟨[32],t⟩

def Fields.line (f : Fields) : CStr := (spaced f.texts).flatMap Piece.all

/-- The fields that a reader takes, of the lengths it asks for. -/
structure Fields.Sized (f : Fields) : Prop where
  fault : (faultFromName f.fault).isSome
  nonce : f.nonce.length = 2*8
  header : f.header.length = 20*8
  target : f.target.length = 8*8
  deviceHash : f.deviceHash.length = 8*8
  hostHash : f.hostHash.length = 8*8

def fieldsOf (bad : CapturedCandidate) : Fields where
  format := Session.decimalInt kFormat.toInt
  fault := faultName bad.fault
  device := Session.decimalInt bad.device.toInt
  nonce := [highHalf bad.nonce,lowHalf bad.nonce].flatMap hex8
  header := bad.header.val.flatMap hex8
  target := bad.target.val.flatMap hex8
  deviceHash := bad.deviceHash.val.flatMap hex8
  hostHash := bad.hostHash.val.flatMap hex8

theorem record_line (bad : CapturedCandidate) : record bad = (fieldsOf bad).line := by
  simp [record,Fields.line,Fields.texts,spaced,Piece.all,fieldsOf,writeWords]

theorem fault_name (fault : CandidateFault) : faultFromName (faultName fault) = some fault := by
  cases fault <;> decide

theorem name_fault {name : CStr} {fault : CandidateFault} (h : faultFromName name = some fault) :
    faultName fault = name := by
  unfold faultFromName at h
  split at h
  · next hn =>
    cases h
    exact hn.symm
  · split at h
    · next hn =>
      cases h
      exact hn.symm
    · cases h

theorem fieldsOf_plain (bad : CapturedCandidate) : (fieldsOf bad).Plain where
  format := plain_decimalInt kFormat
  device := plain_decimalInt bad.device
  digits := by
    intro t ht
    simp only [Fields.digits,fieldsOf,List.mem_cons,List.not_mem_nil,or_false] at ht
    rcases ht with rfl | rfl | rfl | rfl | rfl <;> exact words_lower _

theorem fieldsOf_sized (bad : CapturedCandidate) : (fieldsOf bad).Sized where
  fault := by simp [fieldsOf,fault_name]
  nonce := words_length _
  header := by simp [fieldsOf,bad.header.2]
  target := by simp [fieldsOf,bad.target.2]
  deviceHash := by simp [fieldsOf,bad.deviceHash.2]
  hostHash := by simp [fieldsOf,bad.hostHash.2]

theorem plainInt_takes {text r : CStr} (h : PlainInt text) (hr : Ends isDecimal r) :
    Takes characters .number text r := by
  obtain ⟨digits,hne,hd,-,⟨rfl,-⟩ | ⟨rfl,-⟩⟩ := h
  · obtain ⟨c,t,rfl⟩ := List.exists_cons_of_ne_nil hne
    obtain ⟨hb,hp,hm,-⟩ := decimal_other c (hd c (by simp))
    refine digits_take hne hd ?_ ?_ hr
    · simp [Ends,characters,hp,hm]
    · simpa [Ends,characters] using hb
  · exact signed_take hne hd rfl rfl hr

theorem lower_takes {width : Nat} {text r : CStr} (h : ∀ c ∈ text,isLowerHex c = true)
    (hne : 0 < text.length) (hl : text.length ≤ width) (hr : ∀ c ∈ r.head?,isspace c = true) :
    Takes characters (.word width) text r :=
  word_takes (List.ne_nil_of_length_pos hne) (fun c hc => (lower_blank c (h c hc)).1) hl hr

theorem faultName_blank (fault : CandidateFault) : ∀ c ∈ faultName fault,
    isspace c = false ∧ c ≠ 0 ∧ c ≠ 10 := by
  cases fault <;> decide +kernel

theorem scan_cons {c : Conv} {cs : List Conv} {p : Piece UInt8} {ps : List (Piece UInt8)}
    {s s' r : CStr} (h : convert characters c s = some (p,s'))
    (h' : scan characters cs s' = some (ps,r)) :
    scan characters (c :: cs) s = some (p :: ps,r) := by
  simp [scan,h,h']

theorem scan_line {f : Fields} (hp : f.Plain) (hs : f.Sized) {r : CStr}
    (hr : ∀ c ∈ r.head?,isspace c = true) :
    scan characters conversions (f.line ++ r) = some (spaced f.texts,r) := by
  obtain ⟨fault,hf⟩ := Option.isSome_iff_exists.mp hs.fault
  have hn := name_fault hf
  have hfault : ∀ r : CStr,(∀ c ∈ r.head?,isspace c = true) →
      Takes characters (.word 15) f.fault r := by
    intro r hr
    rw [← hn]
    refine word_takes ?_ (fun c hc => (faultName_blank fault c hc).1) ?_ hr
    · cases fault <;> decide
    · cases fault <;> decide
  have hd := hp.digits
  simp only [Fields.digits,List.mem_cons,List.not_mem_nil,or_false,forall_eq_or_imp,
    forall_eq] at hd
  obtain ⟨hd₁,hd₂,hd₃,hd₄,hd₅⟩ := hd
  have hone : ∀ a ∈ [(32 : UInt8)],characters.blank a = true := by decide +kernel
  have hblank : ∀ t : CStr,∀ c ∈ (32 :: t).head?,isspace c = true := by
    intro t c hc
    simp only [List.head?_cons,Option.mem_some_iff] at hc
    subst hc
    rfl
  have hdec : ∀ t : CStr,Ends isDecimal (32 :: t) := by
    intro t c hc
    simp only [List.head?_cons,Option.mem_some_iff] at hc
    subst hc
    rfl
  have hl₁ := hs.nonce
  have hl₂ := hs.header
  have hl₃ := hs.target
  have hl₄ := hs.deviceHash
  have hl₅ := hs.hostHash
  have e : f.line ++ r = [] ++ (f.format ++ ([32] ++ (f.fault ++ ([32] ++ (f.device ++ ([32] ++
      (f.nonce ++ ([32] ++ (f.header ++ ([32] ++ (f.target ++ ([32] ++ (f.deviceHash ++ ([32] ++
      (f.hostHash ++ r))))))))))))))) := by
    simp [Fields.line,Fields.texts,spaced,Piece.all]
  rw [e]
  exact scan_cons (convert_takes (by simp) (plainInt_takes hp.format (hdec _)))
    (scan_cons (convert_takes hone (hfault _ (hblank _)))
    (scan_cons (convert_takes hone (plainInt_takes hp.device (hdec _)))
    (scan_cons (convert_takes hone (lower_takes hd₁ (by omega) (by omega) (hblank _)))
    (scan_cons (convert_takes hone (lower_takes hd₂ (by omega) (by omega) (hblank _)))
    (scan_cons (convert_takes hone (lower_takes hd₃ (by omega) (by omega) (hblank _)))
    (scan_cons (convert_takes hone (lower_takes hd₄ (by omega) (by omega) (hblank _)))
    (scan_cons (convert_takes hone (lower_takes hd₅ (by omega) (by omega) hr)) rfl)))))))

theorem recordOf_fields (bad : CapturedCandidate) :
    recordOf (spaced (fieldsOf bad).texts) = some bad := by
  have hformat : intOf (Session.decimalInt kFormat.toInt) = kFormat := intOf_decimalInt kFormat
  have hnonce : readWords 2 ([highHalf bad.nonce,lowHalf bad.nonce].flatMap hex8) =
      some ⟨[highHalf bad.nonce,lowHalf bad.nonce],rfl⟩ :=
    readWords_words ⟨[highHalf bad.nonce,lowHalf bad.nonce],rfl⟩
  simp only [Fields.texts,fieldsOf,spaced,List.map_cons,List.map_nil,recordOf,hformat,ne_eq,
    not_true_eq_false,if_false,fault_name,hnonce,readWords_words,intOf_decimalInt]
  have hj := halves_join bad.nonce
  simp only [List.getD_cons_zero,List.getD_cons_succ,hj]

/-! ### Files -/

theorem plainInt_bytes {text : CStr} (h : PlainInt text) :
    text ≠ [] ∧ ∀ c ∈ text,c ≠ 0 ∧ c ≠ 10 ∧ c ≠ 35 := by
  obtain ⟨digits,hne,hd,-,⟨rfl,-⟩ | ⟨rfl,-⟩⟩ := h
  · exact ⟨hne,fun c hc => (decimal_other c (hd c hc)).2.2.2⟩
  · refine ⟨by simp,?_⟩
    intro c hc
    rcases List.mem_cons.mp hc with rfl | hc
    · decide
    · exact (decimal_other c (hd c hc)).2.2.2

theorem record_bytes (bad : CapturedCandidate) :
    (∀ c ∈ record bad,c ≠ 0 ∧ c ≠ 10) ∧
      ∃ c t,record bad = c :: t ∧ c ≠ 35 ∧ c ≠ 10 := by
  have hf := plainInt_bytes (plain_decimalInt kFormat)
  have hd := plainInt_bytes (plain_decimalInt bad.device)
  have hw : ∀ ws : List UInt32,∀ c ∈ writeWords ws,c ≠ 0 ∧ c ≠ 10 := by
    intro ws c hc
    rcases List.mem_cons.mp hc with rfl | hc
    · decide
    · exact (lower_blank c (words_lower ws c hc)).2
  constructor
  · intro c hc
    simp only [record,List.mem_append,List.mem_cons] at hc
    rcases hc with ((((((hc | rfl | hc) | rfl | hc) | hc) | hc) | hc) | hc) | hc
    · exact ⟨(hf.2 c hc).1,(hf.2 c hc).2.1⟩
    · decide
    · exact (faultName_blank _ c hc).2
    · decide
    · exact ⟨(hd.2 c hc).1,(hd.2 c hc).2.1⟩
    · exact hw _ c hc
    · exact hw _ c hc
    · exact hw _ c hc
    · exact hw _ c hc
    · exact hw _ c hc
  · obtain ⟨c,t,ht⟩ := List.exists_cons_of_ne_nil hf.1
    have hc := hf.2 c (by simp [ht])
    exact ⟨c,_,by rw [record,ht]; rfl,hc.2.2,hc.2.1⟩

theorem decimalInt_length (d : Int32) : (Session.decimalInt d.toInt).length ≤ 11 := by
  have hlo := d.le_toInt
  have hhi := d.toInt_lt
  have hl : (decimal d.toInt.natAbs).length ≤ 10 := decimal_length (by omega)
  unfold Session.decimalInt
  split
  · simp only [List.length_cons]
    omega
  · omega

theorem record_length (bad : CapturedCandidate) : (record bad).length < lineBytes-1 := by
  have hf := decimalInt_length kFormat
  have hd := decimalInt_length bad.device
  have hn : (faultName bad.fault).length ≤ 6 := by cases bad.fault <;> decide
  simp only [record,writeWords,lineBytes,List.length_append,List.length_cons,words_length,
    bad.header.2,bad.target.2,bad.deviceHash.2,bad.hostHash.2,List.length_nil]
  omega

theorem cstr_of {line : Bytes} (h : ∀ c ∈ line,c ≠ 0) : Api.cstr line = line :=
  List.takeWhile_eq_self_iff.mpr fun c hc => by simpa using h c hc

theorem record_ends {bad : CapturedCandidate} {e : CStr} (he : e = [] ∨ e = [10]) :
    ∀ c ∈ record bad ++ e,c ≠ 0 := by
  intro c hc
  rcases List.mem_append.mp hc with hc | hc
  · exact ((record_bytes bad).1 c hc).1
  · obtain rfl | rfl := he
    · cases hc
    · rw [List.mem_singleton.mp hc]
      decide

theorem scan_record (bad : CapturedCandidate) {e : CStr} (he : e = [] ∨ e = [10]) :
    scan characters conversions (Api.cstr (record bad ++ e)) =
      some (spaced (fieldsOf bad).texts,e) := by
  rw [cstr_of (record_ends he),record_line]
  apply scan_line (fieldsOf_plain bad) (fieldsOf_sized bad)
  obtain rfl | rfl := he
  · simp
  · decide +kernel

theorem readRecord_record (bad : CapturedCandidate) {e : CStr} (he : e = [] ∨ e = [10]) :
    readRecord (record bad ++ e) = some bad := by
  rw [readRecord,scan_record bad he]
  exact recordOf_fields bad

/-! ### What is read -/

variable {f : Fields} {pieces : List (Piece UInt8)} {line : Bytes}

def Groups (n : Nat) (text : CStr) : Prop :=
  text.length = n*8 ∧ ∀ i < n,(strtoull16 ((text.drop (i*8)).take 8)).2 = []

/-- Fields that a reader takes, however they are spelled. -/
structure Fields.Understood (f : Fields) : Prop where
  format : intOf f.format = kFormat
  fault : f.fault = ascii "digest" ∨ f.fault = ascii "target"
  nonce : Groups 2 f.nonce
  header : Groups 20 f.header
  target : Groups 8 f.target
  deviceHash : Groups 8 f.deviceHash
  hostHash : Groups 8 f.hostHash

theorem readGroups_isSome (n : Nat) (text : CStr) :
    (readGroups n text).isSome ↔ ∀ i < n,(strtoull16 ((text.drop (i*8)).take 8)).2 = [] := by
  induction n generalizing text with
  | zero => simp [readGroups]
  | succ n ih =>
    have hstep : (∀ i < n+1,(strtoull16 ((text.drop (i*8)).take 8)).2 = []) ↔
        (strtoull16 (text.take 8)).2 = [] ∧
          ∀ i < n,(strtoull16 (((text.drop 8).drop (i*8)).take 8)).2 = [] := by
      constructor
      · intro h
        refine ⟨by simpa using h 0 (by omega),?_⟩
        intro i hi
        rw [List.drop_drop,show 8+i*8 = (i+1)*8 by omega]
        exact h (i+1) (by omega)
      · intro h i hi
        cases i with
        | zero => simpa using h.1
        | succ i =>
          have hi := h.2 i (by omega)
          rwa [List.drop_drop,show 8+i*8 = (i+1)*8 by omega] at hi
    rw [hstep,← ih,readGroups]
    by_cases hw : (strtoull16 (text.take 8)).2 = []
    · cases hg : readGroups n (text.drop 8) with
      | none => simp [readWord,hw]
      | some ws => simp [readWord,hw]
    · simp [readWord,hw]

theorem readWords_isSome (n : Nat) (text : CStr) : (readWords n text).isSome ↔ Groups n text := by
  unfold readWords Groups
  split
  · next h => simp [h]
  · next h => simp [not_not.mp h,readGroups_isSome]

theorem faultFromName_isSome (name : CStr) :
    (faultFromName name).isSome ↔ name = ascii "digest" ∨ name = ascii "target" := by
  unfold faultFromName
  split
  · next h => simp [h]
  · next h =>
    split
    · next h' => simp [h']
    · next h' => simp [h,h']

theorem texts_cases (h : pieces.map Piece.text = f.texts) : ∃ g₁ g₂ g₃ g₄ g₅ g₆ g₇ g₈ : CStr,
    pieces = [⟨g₁,f.format⟩,⟨g₂,f.fault⟩,⟨g₃,f.device⟩,⟨g₄,f.nonce⟩,⟨g₅,f.header⟩,⟨g₆,f.target⟩,
      ⟨g₇,f.deviceHash⟩,⟨g₈,f.hostHash⟩] := by
  simp only [Fields.texts,List.map_eq_cons_iff,List.map_eq_nil_iff] at h
  obtain ⟨p₁,_,rfl,h₁,p₂,_,rfl,h₂,p₃,_,rfl,h₃,p₄,_,rfl,h₄,p₅,_,rfl,h₅,p₆,_,rfl,h₆,p₇,_,rfl,h₇,
    p₈,_,rfl,h₈,rfl⟩ := h
  refine ⟨p₁.gap,p₂.gap,p₃.gap,p₄.gap,p₅.gap,p₆.gap,p₇.gap,p₈.gap,?_⟩
  rw [← h₁,← h₂,← h₃,← h₄,← h₅,← h₆,← h₇,← h₈]

theorem recordOf_isSome (h : pieces.map Piece.text = f.texts) :
    (recordOf pieces).isSome ↔ f.Understood := by
  obtain ⟨g₁,g₂,g₃,g₄,g₅,g₆,g₇,g₈,rfl⟩ := texts_cases h
  constructor
  · intro hr
    simp only [recordOf] at hr
    split at hr
    · cases hr
    · next hformat =>
      split at hr
      · next hfault hnonce hheader htarget hdevice hhost =>
        constructor
        · exact not_not.mp hformat
        · exact (faultFromName_isSome _).mp (by rw [hfault]; rfl)
        · exact (readWords_isSome 2 _).mp (by rw [hnonce]; rfl)
        · exact (readWords_isSome 20 _).mp (by rw [hheader]; rfl)
        · exact (readWords_isSome 8 _).mp (by rw [htarget]; rfl)
        · exact (readWords_isSome 8 _).mp (by rw [hdevice]; rfl)
        · exact (readWords_isSome 8 _).mp (by rw [hhost]; rfl)
      · cases hr
  · intro hu
    obtain ⟨fault,hfault⟩ := Option.isSome_iff_exists.mp ((faultFromName_isSome _).mpr hu.fault)
    obtain ⟨nonce,hnonce⟩ := Option.isSome_iff_exists.mp ((readWords_isSome 2 _).mpr hu.nonce)
    obtain ⟨header,hheader⟩ := Option.isSome_iff_exists.mp ((readWords_isSome 20 _).mpr hu.header)
    obtain ⟨target,htarget⟩ := Option.isSome_iff_exists.mp ((readWords_isSome 8 _).mpr hu.target)
    obtain ⟨deviceHash,hd⟩ := Option.isSome_iff_exists.mp ((readWords_isSome 8 _).mpr hu.deviceHash)
    obtain ⟨hostHash,hh⟩ := Option.isSome_iff_exists.mp ((readWords_isSome 8 _).mpr hu.hostHash)
    simp [recordOf,hu.format,hfault,hnonce,hheader,htarget,hd,hh]

theorem scan_texts {cs : List Conv} {s rest : CStr}
    (h : scan characters cs s = some (pieces,rest)) : pieces.length = cs.length := by
  induction cs generalizing s pieces with
  | nil =>
    simp only [scan,Option.some.injEq,Prod.mk.injEq] at h
    rw [← h.1]
    rfl
  | cons c cs ih =>
    simp only [scan] at h
    split at h
    · cases h
    · split at h
      · cases h
      · next hs =>
        simp only [Option.some.injEq,Prod.mk.injEq] at h
        obtain ⟨rfl,rfl⟩ := h
        rw [List.length_cons,ih hs,List.length_cons]

theorem readRecord_understood (h : (readRecord line).isSome) : ∃ pieces rest,∃ f : Fields,
    scan characters conversions (Api.cstr line) = some (pieces,rest) ∧
      pieces.map Piece.text = f.texts ∧ f.Understood := by
  unfold readRecord at h
  split at h
  · next pieces rest hs =>
    have hl := scan_texts hs
    obtain ⟨f,ht⟩ : ∃ f : Fields,pieces.map Piece.text = f.texts := by
      simp only [conversions,List.length_cons,List.length_nil,Nat.reduceAdd] at hl
      obtain ⟨p₁,ps,rfl⟩ := List.exists_cons_of_length_eq_add_one hl
      obtain ⟨p₂,ps,rfl⟩ := List.exists_cons_of_length_eq_add_one (Nat.succ.inj hl)
      obtain ⟨p₃,ps,rfl⟩ := List.exists_cons_of_length_eq_add_one (n := 5) (by simpa using hl)
      obtain ⟨p₄,ps,rfl⟩ := List.exists_cons_of_length_eq_add_one (n := 4) (by simpa using hl)
      have hl₄ : ps.length = 4 := by simpa using hl
      obtain ⟨p₅,p₆,p₇,p₈,rfl⟩ := List.length_eq_four.mp hl₄
      exact ⟨⟨p₁.text,p₂.text,p₃.text,p₄.text,p₅.text,p₆.text,p₇.text,p₈.text⟩,rfl⟩
    exact ⟨pieces,rest,f,hs,ht,(recordOf_isSome ht).mp h⟩
  · cases h

/-! ### Records that are cut -/

/-- What there is of a record that is cut short is read for none: its last field is too short. -/
theorem readRecord_torn {bad : CapturedCandidate} {u v : CStr} (h : u ++ v = record bad)
    (hv : v ≠ []) : readRecord u = none := by
  by_contra hsome
  obtain ⟨ps,r,f,hs,ht,hu⟩ := readRecord_understood (Option.isSome_iff_ne_none.mpr hsome)
  have hwhole := scan_record bad (.inl rfl)
  rw [List.append_nil,cstr_of (by simpa using record_ends (.inl rfl)),← h] at hwhole
  rw [cstr_of fun c hc => ((record_bytes bad).1 c (by rw [← h]; simp [hc])).1] at hs
  obtain ⟨qs,r',hqs,⟨rfl,rfl⟩ | ⟨init,p,q,rfl,rfl,hlt⟩⟩ := scan_extend v hs
  · rw [hqs] at hwhole
    simp only [Option.some.injEq,Prod.mk.injEq,List.append_eq_nil_iff] at hwhole
    exact hv hwhole.2.2
  · rw [hqs] at hwhole
    simp only [Option.some.injEq,Prod.mk.injEq] at hwhole
    have hq : init ++ [q] = spaced ((fieldsOf bad).texts.take 7) ++
        [⟨[32],(fieldsOf bad).hostHash⟩] := hwhole.1
    have hp : init.map Piece.text ++ [p.text] = f.texts.take 7 ++ [f.hostHash] := by
      rw [← List.map_singleton,← List.map_append]
      exact ht
    obtain ⟨-,hq⟩ := List.append_inj' hq rfl
    obtain ⟨-,hp⟩ := List.append_inj' hp rfl
    rw [List.singleton_inj.mp hq,List.singleton_inj.mp hp,hu.hostHash.1,
      (fieldsOf_sized bad).hostHash] at hlt
    exact lt_irrefl _ hlt

theorem intOf_digit {text : CStr} (h : intOf text ≠ 0) : ∃ c ∈ text,isDecimal c = true := by
  by_contra hno
  push Not at hno
  apply h
  have hdigits : ∀ t : CStr,(∀ c ∈ t,c ∈ text) → (t.takeWhile fun c => 48 ≤ c && c ≤ 57) = [] := by
    intro t ht
    cases t with
    | nil => rfl
    | cons c t => simpa [isDecimal] using hno c (ht c (by simp))
  have hdrop : ∀ c ∈ text.dropWhile (fun c => c == Api.space || 9 ≤ c && c ≤ 13),c ∈ text :=
    fun c hc => (List.dropWhile_suffix _).mem hc
  rw [intOf,Api.strtol,if_pos]
  · rfl
  · split
    · exact hdigits _ fun c hc => hdrop c (List.mem_of_mem_tail hc)
    · exact hdigits _ hdrop

theorem readRecord_order (h : (readRecord line).isSome) :
    ∃ u v,line = u ++ 103 :: v ∧ ∃ c ∈ u,isDecimal c = true := by
  obtain ⟨ps,r,f,hs,ht,hu⟩ := readRecord_understood h
  obtain ⟨c,hc,hd⟩ : ∃ c ∈ f.format,isDecimal c = true := intOf_digit (by rw [hu.format]; decide)
  obtain ⟨x,y,hx⟩ : ∃ x y,f.fault = x ++ 103 :: y := by
    obtain hf | hf := hu.fault
    · exact ⟨ascii "di",ascii "est",hf.trans (by decide)⟩
    · exact ⟨ascii "tar",ascii "et",hf.trans (by decide)⟩
  obtain ⟨z,hz⟩ : Api.cstr line <+: line := List.takeWhile_prefix _
  obtain ⟨g₁,g₂,g₃,g₄,g₅,g₆,g₇,g₈,rfl⟩ := texts_cases ht
  obtain ⟨w,hw⟩ : ∃ w,Api.cstr line = g₁ ++ (f.format ++ (g₂ ++ (f.fault ++ w))) := by
    rw [← scan_all hs]
    simp only [List.flatMap_cons,Piece.all,List.append_assoc]
    exact ⟨_,rfl⟩
  refine ⟨g₁ ++ f.format ++ g₂ ++ x,y ++ w ++ z,?_,c,by simp [hc],hd⟩
  rw [← hz,hw,hx]
  simp

theorem plainInt_letter {text : CStr} (h : PlainInt text) : 103 ∉ text := by
  obtain ⟨digits,-,hd,-,⟨rfl,-⟩ | ⟨rfl,-⟩⟩ := h
  · exact fun hc => absurd (hd 103 hc) (by decide)
  · intro hc
    rcases List.mem_cons.mp hc with hc | hc
    · exact absurd hc (by decide)
    · exact absurd (hd 103 hc) (by decide)

theorem writeWords_letter (ws : List UInt32) : 103 ∉ writeWords ws := by
  intro hc
  rcases List.mem_cons.mp hc with hc | hc
  · exact absurd hc (by decide)
  · exact absurd (words_lower ws 103 hc) (by decide)

theorem record_fault (bad : CapturedCandidate) : ∃ u v,(record bad).tail = u ++ 103 :: v ∧
    (∀ c ∈ u,isDecimal c = false ∧ c ≠ 103) ∧ 103 ∉ v := by
  obtain ⟨u,v,hname,hu,hv⟩ : ∃ u v,32 :: faultName bad.fault = u ++ 103 :: v ∧
      (∀ c ∈ u,isDecimal c = false ∧ c ≠ 103) ∧ 103 ∉ v := by
    cases bad.fault with
    | wrongDigest => exact ⟨32 :: ascii "di",ascii "est",rfl,by simp [ascii,isDecimal],by decide⟩
    | belowTarget => exact ⟨32 :: ascii "tar",ascii "et",rfl,by simp [ascii,isDecimal],by decide⟩
  have hversion : Session.decimalInt kFormat.toInt = [50] := by decide
  have hdevice := plainInt_letter (plain_decimalInt bad.device)
  refine ⟨u,v ++ (32 :: Session.decimalInt bad.device.toInt) ++
    writeWords [highHalf bad.nonce,lowHalf bad.nonce] ++ writeWords bad.header.val ++
    writeWords bad.target.val ++ writeWords bad.deviceHash.val ++ writeWords bad.hostHash.val,?_,hu,
    ?_⟩
  · rw [record,hversion,hname]
    simp
  · simp [hv,hdevice,writeWords_letter]

theorem readRecord_behind {bad : CapturedCandidate} (h : line <:+: (record bad).tail ++ [10]) :
    readRecord line = none := by
  by_contra hsome
  obtain ⟨x,y,h⟩ := h
  obtain ⟨u,v,rfl,c,hc,hd⟩ := readRecord_order (Option.isSome_iff_ne_none.mpr hsome)
  obtain ⟨u',v',hr,hu,hv⟩ := record_fault bad
  have he : u' ++ 103 :: (v' ++ [10]) = (x ++ u) ++ 103 :: (v ++ y) := by
    rw [hr] at h
    simpa using h.symm
  have hx := (List.append_cons_inj_of_notMem (fun h => (hu 103 h).2 rfl) (by simp [hv])).mp he
  have hno := (hu c (by rw [hx.1]; simp [hc])).1
  rw [hd] at hno
  cases hno

end VkMiner.CandidateLog
