import VkMiner.Host.CaptureLines
set_option autoImplicit false

/-! The lines that a reader takes for records, and what it takes for a record to be the candidate
that was captured. -/

namespace VkMiner.CandidateLog
open ByteOrder Scan
open Scheduler.Mining (CandidateFault)

variable {f : Fields} {pieces : List (Piece UInt8)} {line : Bytes} {n : Nat}

/-- A line whose fields are understood has them in the spelling of a capture, one blank before
each but the first, and ends with the last. -/
def SpelledPlainly (line : Bytes) : Prop :=
  ∀ pieces rest,∀ f : Fields,scan characters conversions (Api.cstr line) = some (pieces,rest) →
    pieces.map Piece.text = f.texts → f.Understood →
      f.Plain ∧ pieces.map Piece.gap = [] :: List.replicate 7 [32] ∧ rest = [10] ∧ 0 ∉ line

theorem fieldsOf_surjective (hp : f.Plain) (hu : f.Understood) : ∃ bad,fieldsOf bad = f := by
  have hd := hp.digits
  simp only [Fields.digits,List.mem_cons,List.not_mem_nil,or_false,forall_eq_or_imp,
    forall_eq] at hd
  obtain ⟨hd₁,hd₂,hd₃,hd₄,hd₅⟩ := hd
  obtain ⟨fault,hfault⟩ := Option.isSome_iff_exists.mp ((faultFromName_isSome _).mpr hu.fault)
  obtain ⟨⟨nonce,hn⟩,hnonce⟩ := lower_words hu.nonce.1 hd₁
  obtain ⟨header,hheader⟩ := lower_words hu.header.1 hd₂
  obtain ⟨target,htarget⟩ := lower_words hu.target.1 hd₃
  obtain ⟨deviceHash,hdevice⟩ := lower_words hu.deviceHash.1 hd₄
  obtain ⟨hostHash,hhost⟩ := lower_words hu.hostHash.1 hd₅
  obtain ⟨h,l,rfl⟩ := List.length_eq_two.mp hn
  refine ⟨⟨fault,intOf f.device,h.toUInt64 <<< 32 ||| l.toUInt64,header,target,deviceHash,hostHash⟩,
    ?_⟩
  have hformat : Session.decimalInt kFormat.toInt = f.format := by
    rw [← hu.format]
    exact intOf_plain hp.format
  simp only [fieldsOf,hformat,name_fault hfault,intOf_plain hp.device,(halves_of h l).1,
    (halves_of h l).2,hnonce,hheader,htarget,hdevice,hhost]

theorem texts_injective {f g : Fields} (h : f.texts = g.texts) : f = g := by
  cases f
  cases g
  simp only [Fields.texts,List.cons.injEq,and_true] at h
  obtain ⟨rfl,rfl,rfl,rfl,rfl,rfl,rfl,rfl⟩ := h
  rfl

theorem spaced_texts (ts : List CStr) : (spaced ts).map Piece.text = ts := by
  cases ts with
  | nil => rfl
  | cons t ts => simp [spaced,Function.comp_def]

theorem written_iff (line : Bytes) :
    (∀ read,readRecord line = some read → ∃ bad,record bad ++ [10] = line) ↔
      SpelledPlainly line := by
  constructor
  · intro h pieces rest f hs ht hu
    obtain ⟨read,hr⟩ := Option.isSome_iff_exists.mp ((recordOf_isSome ht).mpr hu)
    obtain ⟨bad,rfl⟩ := h read (by rw [readRecord,hs]; exact hr)
    rw [scan_record bad (.inr rfl)] at hs
    simp only [Option.some.injEq,Prod.mk.injEq] at hs
    obtain ⟨rfl,rfl⟩ := hs
    rw [spaced_texts] at ht
    rw [← texts_injective ht]
    exact ⟨fieldsOf_plain bad,rfl,rfl,fun h0 => record_ends (.inr rfl) 0 h0 rfl⟩
  · intro h read hr
    have hread : (readRecord line).isSome := by rw [hr]; rfl
    obtain ⟨pieces,rest,f,hs,ht,hu⟩ := readRecord_understood hread
    obtain ⟨hp,hg,rfl,h0⟩ := h pieces rest f hs ht hu
    obtain ⟨bad,rfl⟩ := fieldsOf_surjective hp hu
    refine ⟨bad,?_⟩
    have hline : pieces.flatMap Piece.all ++ [10] = Api.cstr line := scan_all hs
    rw [cstr_of fun c hc h => h0 (h ▸ hc)] at hline
    rw [record_line,← hline,Fields.line]
    congr 2
    obtain ⟨g₁,g₂,g₃,g₄,g₅,g₆,g₇,g₈,rfl⟩ := texts_cases ht
    simp only [List.map_cons,List.map_nil,List.cons.injEq,List.replicate_succ,
      List.replicate_zero,and_true] at hg
    obtain ⟨rfl,rfl,rfl,rfl,rfl,rfl,rfl,rfl⟩ := hg
    rfl

/-! ### What a log holds behind a capture -/

theorem readLines_append (xs ys : List Bytes) :
    readLines (xs ++ ys) = (readLines xs).bind fun a => (readLines ys).map (a ++ ·) := by
  induction xs with
  | nil => simp [readLines]
  | cons x xs ih =>
    rw [List.cons_append,readLines,readLines]
    split
    · exact ih
    · cases readRecord x with
      | none => rfl
      | some bad =>
        rw [ih]
        cases readLines xs with
        | none => rfl
        | some a => simp [Function.comp_def]

def Comment (x : CStr) : Prop := x.head? = some 35 ∧ 10 ∉ x ∧ x.length < lineBytes-1

theorem readLines_comments {xs : List CStr} (h : ∀ x ∈ xs,Comment x) :
    readLines (xs.map (· ++ [10])) = some [] := by
  induction xs with
  | nil => rfl
  | cons x xs ih =>
    have hx : (x ++ [10]).head? = some 35 := by simp [List.head?_append,(h x (by simp)).1]
    rw [List.map_cons,readLines,if_pos (.inl hx),ih fun y hy => h y (by simp [hy])]

theorem readLog_comments {xs : List CStr} (h : ∀ x ∈ xs,Comment x) (s : Bytes) :
    readLog (Lines.join 10 xs ++ s) = readLog s := by
  rw [readLog,Lines.chunks_join s (fun x hx => (h x hx).2.1) fun x hx => (h x hx).2.2,
    readLines_append,readLines_comments h]
  simp [readLog]

theorem readLog_torn_comments {xs : List CStr} (h : ∀ x ∈ xs,Comment x) (m : Nat) :
    readLog ((Lines.join 10 xs).take m) = some [] := by
  induction xs generalizing m with
  | nil =>
    rw [Lines.join_nil,List.take_nil]
    rfl
  | cons x xs ih =>
    have hx := h x (by simp)
    rw [Lines.join_cons]
    by_cases hm : m ≤ x.length
    · rw [List.take_append_of_le_length hm,readLog,
        Lines.chunks_torn (fun h => hx.2.1 (List.mem_of_mem_take h)) ?_]
      · split
        · rfl
        · next hne =>
          have hhead : ([].reverse ++ x.take m).head? = some 35 := by
            cases m with
            | zero => simp at hne
            | succ m => simpa [List.head?_take] using hx.1
          rw [readLines,if_pos (.inl hhead)]
          rfl
      · have hl := hx.2.2
        simp only [List.length_nil,List.length_take]
        omega
    · obtain ⟨n,rfl⟩ : ∃ n,m = x.length+(n+1) := ⟨m-x.length-1,by omega⟩
      rw [List.take_length_add_append,List.take_succ_cons]
      have hmem : ∀ y ∈ [x],Comment y := by simpa using hx
      have hone := readLog_comments hmem ((Lines.join 10 xs).take n)
      rw [Lines.join_cons,Lines.join_nil,List.append_assoc,List.cons_append,List.nil_append] at hone
      rw [hone,ih fun y hy => h y (by simp [hy])]

theorem preamble_comments : ∀ x ∈ preamble,Comment x := by
  unfold Comment
  rw [preamble,ascii_ofList,ascii_ofList,ascii_ofList,ascii_ofList]
  decide

theorem printed_comments (file : Bytes) (bad : CapturedCandidate) : ∃ xs,(∀ x ∈ xs,Comment x) ∧
    printed file bad = Lines.join 10 xs ++ (record bad ++ [10]) ∧ (file ≠ [] → xs = []) := by
  unfold printed
  split
  · exact ⟨preamble,preamble_comments,by simp,fun h => absurd ‹file = []› h⟩
  · exact ⟨[],by simp,by simp,fun _ => rfl⟩

theorem readLines_record {bad : CapturedCandidate} {e : CStr} (he : e = [] ∨ e = [10]) :
    readLines [record bad ++ e] = some [bad] := by
  obtain ⟨c,t,ht,h35,h10⟩ := (record_bytes bad).2
  rw [readLines,readRecord_record bad he,if_neg]
  · rfl
  · simp [ht,h35,h10]

theorem record_torn_line (bad : CapturedCandidate) (n : Nat) :
    Lines.Line 10 (lineBytes-1) ((record bad ++ [10]).take n) := by
  have hl := record_length bad
  have h10 : 10 ∉ record bad := fun h => ((record_bytes bad).1 10 h).2 rfl
  by_cases hn : n ≤ (record bad).length
  · refine ⟨(record bad).take n,[],?_,fun h => h10 (List.mem_of_mem_take h),?_,.inl rfl⟩
    · rw [List.take_append_of_le_length hn,List.append_nil]
    · exact (List.length_take_le' n _).trans_lt hl
  · exact ⟨record bad,[10],List.take_of_length_le (by simp; omega),h10,hl,.inr rfl⟩

theorem readLog_record (bad : CapturedCandidate) (n : Nat) :
    readLog ((record bad ++ [10]).take n) = some [bad] ↔ (record bad).length ≤ n := by
  rw [readLog,Lines.chunks_fit (record_torn_line bad n)]
  obtain ⟨c,t,ht,h35,h10⟩ := (record_bytes bad).2
  constructor
  · intro h
    by_contra hn
    rw [List.take_append_of_le_length (by omega)] at h
    have htorn := readRecord_torn (List.take_append_drop n (record bad)) (by simpa using hn)
    cases n with
    | zero => simp [readLines] at h
    | succ n =>
      rw [ht,List.take_succ_cons] at h htorn
      simp [readLines,h35,h10,htorn] at h
  · intro hn
    obtain ⟨e,he,hr⟩ : ∃ e,(e = [] ∨ e = [10]) ∧
        (record bad ++ [10]).take n = record bad ++ e := by
      obtain rfl | hlt := hn.eq_or_lt
      · exact ⟨[],.inl rfl,by simp⟩
      · exact ⟨[10],.inr rfl,List.take_of_length_le (by simp; omega)⟩
    rw [hr,if_neg (by simp [ht]),readLines_record he]

theorem readLog_printed (file : Bytes) (bad : CapturedCandidate) (m : Nat) :
    readLog ((printed file bad).take m) = some [bad] ↔ (printed file bad).length ≤ m+1 := by
  obtain ⟨xs,hxs,hp,-⟩ := printed_comments file bad
  rw [hp]
  obtain hm | ⟨n,rfl⟩ : m ≤ (Lines.join 10 xs).length ∨ ∃ n,m = (Lines.join 10 xs).length+n := by
    rcases Nat.le_total m (Lines.join 10 xs).length with h | h
    · exact .inl h
    · exact .inr (Nat.exists_eq_add_of_le h)
  · obtain ⟨c,t,ht,-,-⟩ := (record_bytes bad).2
    rw [List.take_append_of_le_length hm,readLog_torn_comments hxs]
    simp [ht]
    omega
  · rw [List.take_length_add_append,readLog_comments hxs,readLog_record]
    simp
    omega

/-- No line is a record that a later piece of the record stands in. -/
theorem unread_piece {bad : CapturedCandidate} {k n : Nat} {es : List CapturedCandidate}
    (h : readLines [((record bad ++ [10]).take n).drop (k+1)] = some es) : es = [] := by
  obtain ⟨c,t,ht,-,-⟩ := (record_bytes bad).2
  have hin : ((record bad ++ [10]).take n).drop (k+1) <:+: (record bad).tail ++ [10] := by
    rw [ht]
    cases n with
    | zero => simp
    | succ n => exact (List.drop_suffix k _).isInfix.trans (List.take_prefix n _).isInfix
  rw [readLines,readRecord_behind hin] at h
  split at h
  · simpa [readLines] using h.symm
  · cases h

theorem readLines_begun {bad : CapturedCandidate} {cur : Bytes} {n : Nat}
    {cs ds : List CapturedCandidate} (hne : cur ≠ []) (hc : readLines [cur.reverse] = some cs)
    (hd : readLines (Lines.chunks 10 (lineBytes-1) cur ((record bad ++ [10]).take n)) = some ds) :
    ds.length ≤ cs.length := by
  obtain ⟨k,ys,hk,hys⟩ := Lines.chunks_onto (record_torn_line bad n) hne
  have hrest : ∀ es,readLines ys = some es → es = [] := by
    intro es hes
    obtain rfl | ⟨hpos,rfl⟩ := hys
    · simpa [readLines] using hes.symm
    · obtain ⟨k,rfl⟩ : ∃ j,k = j+1 := ⟨k-1,by omega⟩
      exact unread_piece hes
  obtain ⟨c,t,ht⟩ : ∃ c t,cur.reverse = c :: t := List.exists_cons_of_ne_nil (by simpa using hne)
  rw [hk,ht,List.cons_append,readLines] at hd
  rw [ht,readLines] at hc
  split at hd
  · rw [hrest ds hd]
    exact Nat.zero_le _
  · next hhead =>
    rw [if_neg (by simpa using hhead)] at hc
    split at hc
    · cases hc
    · split at hd
      · cases hd
      · cases hy : readLines ys with
        | none => simp [hy] at hd
        | some es =>
          rw [hy,hrest es hy] at hd
          simp only [Option.map_some,readLines,Option.some.injEq] at hc hd
          rw [← hc,← hd]
          exact le_refl _

theorem readLog_append (file t : Bytes) : readLog (file ++ t) =
    (readLines (Lines.ended 10 (lineBytes-1) [] file)).bind fun a =>
      (readLines (Lines.chunks 10 (lineBytes-1) (Lines.begun 10 (lineBytes-1) [] file) t)).map
        (a ++ ·) := by
  rw [readLog,Lines.chunks_append,readLines_append]

/-- A log that ends with the end of a line is read, and then what is behind it. -/
theorem readLog_behind {file : Bytes} (hb : Lines.begun 10 (lineBytes-1) [] file = []) (s : Bytes) :
    readLog (file ++ s) = (readLog file).bind fun es => (readLog s).map (es ++ ·) := by
  have hfile := readLog_append file []
  rw [List.append_nil,hb] at hfile
  have hended : readLog file = readLines (Lines.ended 10 (lineBytes-1) [] file) := by
    rw [hfile]
    cases readLines (Lines.ended 10 (lineBytes-1) [] file) <;> simp [Lines.chunks,readLines]
  rw [readLog_append,hb,hended]
  rfl

/-- Behind a line that was left unended, the record is part of that line. -/
theorem unread_behind_begun {file : Bytes} {earlier : List CapturedCandidate} {n : Nat}
    {bad : CapturedCandidate} (hbegun : Lines.begun 10 (lineBytes-1) [] file ≠ [])
    (he : readLog file = some earlier) :
    readLog (file ++ (printed file bad).take n) ≠ some (earlier ++ [bad]) := by
  intro hb
  have hfile := readLog_append file []
  rw [List.append_nil,he] at hfile
  rw [readLog_append] at hb
  obtain ⟨es,hes,hb⟩ := Option.bind_eq_some_iff.mp hb
  obtain ⟨es',hes',hfile⟩ := Option.bind_eq_some_iff.mp hfile.symm
  cases hes.symm.trans hes'
  obtain ⟨xs,-,hp,hxs⟩ := printed_comments file bad
  have hne : file ≠ [] := by
    rintro rfl
    exact hbegun rfl
  rw [hxs hne,Lines.join_nil,List.nil_append] at hp
  rw [hp] at hb
  obtain ⟨cs,hcs,hcat⟩ := Option.map_eq_some_iff.mp hfile
  obtain ⟨ds,hds,hcat'⟩ := Option.map_eq_some_iff.mp hb
  rw [Lines.chunks,if_neg hbegun] at hcs
  have hle := readLines_begun hbegun hcs hds
  have hlen := congrArg List.length hcat
  have hlen' := congrArg List.length hcat'
  simp only [List.length_append,List.length_singleton] at hlen hlen'
  omega

theorem landed_iff (w : Append) (file : Bytes) (bad : CapturedCandidate) :
    (∃ earlier,readLog file = some earlier ∧
      readLog (file ++ (printed file bad).take w.reached) = some (earlier ++ [bad])) ↔
        Landed w file bad := by
  constructor
  · rintro ⟨earlier,he,hb⟩
    have hended : Lines.begun 10 (lineBytes-1) [] file = [] := by
      by_contra hbegun
      exact unread_behind_begun hbegun he hb
    refine ⟨by rw [he]; rfl,hended,(readLog_printed file bad w.reached).mp ?_⟩
    rw [readLog_behind hended,he] at hb
    obtain ⟨ds,hds,hcat⟩ := Option.map_eq_some_iff.mp hb
    rw [hds,List.append_cancel_left hcat]
  · rintro ⟨hr,hended,hm⟩
    obtain ⟨earlier,he⟩ := Option.isSome_iff_exists.mp hr
    refine ⟨earlier,he,?_⟩
    rw [readLog_behind hended,he,(readLog_printed file bad w.reached).mpr hm]
    rfl

/-! ### What a replay hashes -/

theorem mapM_congr {α β : Type} {l : List α} {f g : α → Option β} (h : ∀ x ∈ l,f x = g x) :
    l.mapM f = l.mapM g := by
  induction l with
  | nil => rfl
  | cons x l ih =>
    rw [List.mapM_cons,List.mapM_cons,h x (by simp),ih fun y hy => h y (by simp [hy])]

theorem hashed_congr {a : Algorithm} {header header' : Nat → Option UInt32} (nonce : UInt64)
    (h : ∀ i ∈ hashReads a,header i = header' i) :
    hashed a header nonce = hashed a header' nonce := by
  cases hp : periodLength a with
  | none =>
    have hr : readHeader header (wireWords a) = readHeader header' (wireWords a) :=
      mapM_congr (by simpa [hashReads,hp] using h)
    simp [hashed,hp,hr]
  | some period =>
    have hr : readHeader header 9 = readHeader header' 9 :=
      mapM_congr (by simpa [hashReads,hp] using h)
    simp [hashed,hp,hr]

theorem replayReads_lt {a : Algorithm} : (∀ i ∈ replayReads a,i < 20) ↔ a ≠ .lbry := by
  cases a <;> decide

/-- What is asked of the log for a candidate that a worker captures, and of a line of it. -/
structure Faithful (a : Algorithm) (fault : CandidateFault) (deviceIndex : Int32) (work : Work)
    (got : Solution) (hostHash : Block 8) (opens : Bool) (w : Append) (s : Store)
    (line : Bytes) : Prop where
  readsBack : (captureCandidate opens w s (capture fault deviceIndex work got hostHash)).2 = true →
    ∃ earlier,readLog s.file = some earlier ∧
      readCaptures (captureCandidate opens w s
        (capture fault deviceIndex work got hostHash)).1.file =
          some (earlier ++ [capture fault deviceIndex work got hostHash])
  words : ∀ i ∈ hashReads a,
    (capture fault deviceIndex work got hostHash).header.val[i]? = work.data.val[i]?
  hashes : hashed a (fun i => (capture fault deviceIndex work got hostHash).header.val[i]?)
      (capture fault deviceIndex work got hostHash).nonce =
    hashed a (fun i => work.data.val[i]?) got.nonce
  inside : ∀ i ∈ replayReads a,
    i < (capture fault deviceIndex work got hostHash).header.val.length
  written : ∀ read,readRecord line = some read → ∃ bad,record bad ++ [10] = line

theorem readCaptures_record {file : Bytes} {cs : List CapturedCandidate}
    {bad : CapturedCandidate} :
    readCaptures file = some (cs ++ [bad]) ↔ readLog file = some (cs ++ [bad]) := by
  unfold readCaptures
  split
  · next h => simp [h]
  · rfl

theorem captureCandidate_true {opens : Bool} {w : Append} {s : Store} {bad : CapturedCandidate} :
    (captureCandidate opens w s bad).2 = true ↔
      opens = true ∧ s.written < kMaxRecords ∧ w.failed = false := by
  unfold captureCandidate
  split
  · next h =>
    constructor
    · intro hfalse
      cases hfalse
    · rintro ⟨ho,hw,-⟩
      rcases h with h | h
      · omega
      · rw [ho] at h
        cases h
  · next h =>
    rw [not_or,Nat.not_le,Bool.not_eq_false] at h
    cases hf : w.failed <;> simp [h]

theorem captureCandidate_file {opens : Bool} {w : Append} {s : Store} {bad : CapturedCandidate}
    (h : (captureCandidate opens w s bad).2 = true) :
    (captureCandidate opens w s bad).1 =
      ⟨s.written+1,s.file ++ (printed s.file bad).take w.reached⟩ := by
  obtain ⟨ho,hw,hf⟩ := captureCandidate_true.mp h
  rw [captureCandidate,if_neg (by simp [ho,hw]),hf]
  rfl

theorem captured_readsBack {opens : Bool} {w : Append} {s : Store} {bad : CapturedCandidate} :
    ((captureCandidate opens w s bad).2 = true → ∃ earlier,readLog s.file = some earlier ∧
      readCaptures (captureCandidate opens w s bad).1.file = some (earlier ++ [bad])) ↔
    (opens = true → s.written < kMaxRecords → w.failed = false → Landed w s.file bad) := by
  constructor
  · intro h ho hw hf
    have hc : (captureCandidate opens w s bad).2 = true := captureCandidate_true.mpr ⟨ho,hw,hf⟩
    obtain ⟨earlier,he,hb⟩ := h hc
    rw [readCaptures_record,captureCandidate_file hc] at hb
    exact (landed_iff w s.file bad).mp ⟨earlier,he,hb⟩
  · intro h hc
    obtain ⟨ho,hw,hf⟩ := captureCandidate_true.mp hc
    obtain ⟨earlier,he,hb⟩ := (landed_iff w s.file bad).mpr (h ho hw hf)
    refine ⟨earlier,he,?_⟩
    rw [readCaptures_record,captureCandidate_file hc]
    exact hb

theorem captureCandidate_same {opens : Bool} {w : Append} {s : Store} {bad : CapturedCandidate}
    (hf : w.failed = false) (hc : (captureCandidate opens w s bad).2 = false) :
    (captureCandidate opens w s bad).1 = s := by
  unfold captureCandidate at hc ⊢
  split
  · rfl
  · next h => simp [h,hf] at hc

theorem begun_printed {file : Bytes} (bad : CapturedCandidate)
    (hb : Lines.begun 10 (lineBytes-1) [] file = []) :
    Lines.begun 10 (lineBytes-1) [] (file ++ printed file bad) = [] := by
  obtain ⟨xs,hxs,hp,-⟩ := printed_comments file bad
  have hone := (record_bytes bad).1
  rw [Lines.begun_append,hb,hp,← Lines.join_singleton,← Lines.join_append]
  apply Lines.begun_join
  · intro x hx
    rcases List.mem_append.mp hx with hx | hx
    · exact (hxs x hx).2.1
    · rw [List.mem_singleton.mp hx]
      exact fun h10 => (hone 10 h10).2 rfl
  · intro x hx
    rcases List.mem_append.mp hx with hx | hx
    · exact (hxs x hx).2.2
    · rw [List.mem_singleton.mp hx]
      exact record_length bad

/-- The logs that whole writes leave can be read, and end with the end of a line. -/
theorem Kept.log {s : Store} {cs : List CapturedCandidate} (h : Kept s cs) :
    readLog s.file = some cs ∧ Lines.begun 10 (lineBytes-1) [] s.file = [] := by
  induction h with
  | new => exact ⟨rfl,rfl⟩
  | restart _ ih => exact ih
  | @capture s cs opens w bad _ hf hw ih =>
    obtain ⟨hcs,hb⟩ := ih
    cases hc : (captureCandidate opens w s bad).2 with
    | false =>
      rw [captureCandidate_same hf hc]
      exact ⟨hcs,hb⟩
    | true =>
      obtain ⟨earlier,he,hl⟩ := (landed_iff w s.file bad).mpr ⟨by rw [hcs]; rfl,hb,by omega⟩
      rw [hcs] at he
      cases he
      rw [captureCandidate_file hc]
      refine ⟨hl,?_⟩
      rw [List.take_of_length_le hw]
      exact begun_printed bad hb

theorem Kept.landed {s : Store} {cs : List CapturedCandidate} (h : Kept s cs) {w : Append}
    {bad : CapturedCandidate} (hw : (printed s.file bad).length ≤ w.reached) :
    Landed w s.file bad where
  reads := by rw [h.log.1]; rfl
  ended := h.log.2
  reached := Nat.le_succ_of_le hw

/-- The record holds the candidate for every algorithm but LBRY's, whose header has more words than
a record, and it is read back where it lands in the log. -/
theorem faithful_iff (a : Algorithm) (fault : CandidateFault) (deviceIndex : Int32) (work : Work)
    (got : Solution) (hostHash : Block 8) (opens : Bool) (w : Append) (s : Store) (line : Bytes) :
    Faithful a fault deviceIndex work got hostHash opens w s line ↔
      a ≠ .lbry ∧ SpelledPlainly line ∧
        (opens = true → s.written < kMaxRecords → w.failed = false →
          Landed w s.file (capture fault deviceIndex work got hostHash)) := by
  have hlen : (capture fault deviceIndex work got hostHash).header.val.length = 20 :=
    (capture fault deviceIndex work got hostHash).header.2
  constructor
  · intro h
    refine ⟨replayReads_lt.mp ?_,(written_iff line).mp h.written,captured_readsBack.mp h.readsBack⟩
    rw [← hlen]
    exact h.inside
  · rintro ⟨ha,hl,hs⟩
    have hin := replayReads_lt.mpr ha
    have hwords : ∀ i ∈ hashReads a,
        (capture fault deviceIndex work got hostHash).header.val[i]? = work.data.val[i]? := by
      intro i hi
      have hi := hin i (by simp [replayReads,hi])
      simp [capture,hi]
    constructor
    · exact captured_readsBack.mpr hs
    · exact hwords
    · exact hashed_congr got.nonce hwords
    · rw [hlen]
      exact hin
    · exact (written_iff line).mpr hl

/-- Words 20 to 26 of LBRY's header are lost, and a replay reads them behind the record. -/
theorem not_always_faithful :
    ¬∀ (a : Algorithm) (fault : CandidateFault) (deviceIndex : Int32) (work : Work) (got : Solution)
      (hostHash : Block 8) (opens : Bool) (w : Append) (s : Store) (line : Bytes),
      Faithful a fault deviceIndex work got hostHash opens w s line := by
  intro h
  have zeros : ∀ n : Nat,(List.replicate n (0 : UInt32)).length = n := fun n => List.length_replicate
  have hl := (h .lbry .belowTarget 0 ⟨⟨_,zeros 32⟩,⟨_,zeros 8⟩⟩ ⟨0,⟨_,zeros 8⟩⟩ ⟨_,zeros 8⟩ true
    ⟨1024,false⟩ ⟨0,[]⟩ []).inside 26 (by decide)
  simp [capture] at hl

end VkMiner.CandidateLog
