import VkMiner.Api.Gates
set_option autoImplicit false

/-! How long the body of a request is: what the parser takes for its Content-Length, and what the
fields of the header block say. -/

namespace VkMiner.Api

variable {buf head rest front line v w : Bytes} {req req' : Request} {n : Nat}

/-! ### The first blank line -/

def blankLine : Bytes := crlf ++ crlf

def FirstBlank (buf head rest : Bytes) : Prop :=
  buf = head ++ rest ∧ ∃ front, head = front ++ blankLine ∧ ¬ blankLine <:+: front ++ [cr,lf,cr]

theorem splitHead_first (h : splitHead buf = some (head,rest)) : FirstBlank buf head rest := by
  refine ⟨splitHead_eq h,?_⟩
  induction buf generalizing head with
  | nil => cases h
  | cons a buf ih =>
    unfold splitHead at h
    split at h
    · next a b c d rest' he =>
      cases he
      split at h
      · next hc =>
        cases h
        obtain ⟨rfl,rfl,rfl,rfl⟩ := hc
        refine ⟨[],rfl,fun hinfix => ?_⟩
        have hl := hinfix.length_le
        simp [blankLine,crlf] at hl
      · next hc =>
        obtain ⟨⟨head',rest''⟩,hs,he⟩ := Option.map_eq_some_iff.mp h
        cases he
        obtain ⟨front,hfront,hno⟩ := ih hs
        refine ⟨a :: front,by rw [hfront]; rfl,fun hinfix => ?_⟩
        rcases List.infix_cons_iff.mp hinfix with hpre | hin
        · have hwhole : blankLine <+: a :: b :: c :: d :: rest' := by
            have hstart : a :: (front ++ [cr,lf,cr]) <+: a :: b :: c :: d :: rest' := by
              rw [splitHead_eq hs,hfront]
              exact ⟨lf :: rest,by simp [blankLine,crlf]⟩
            exact hpre.trans hstart
          simp only [blankLine,crlf,List.cons_append,List.nil_append,List.cons_prefix_cons] at hwhole
          exact hc ⟨hwhole.1.symm,hwhole.2.1.symm,hwhole.2.2.1.symm,hwhole.2.2.2.1.symm⟩
        · exact hno hin
    · cases h

theorem first_splitHead (h : FirstBlank buf head rest) : splitHead buf = some (head,rest) := by
  obtain ⟨rfl,front,rfl,hno⟩ := h
  induction front with
  | nil => rfl
  | cons a front ih =>
    have hrest := ih fun hin => hno (List.infix_cons_iff.mpr (.inr hin))
    have hlen : 4 ≤ (front ++ blankLine ++ rest).length := by
      simp only [List.length_append,blankLine,crlf,List.length_cons,List.length_nil]
      omega
    obtain ⟨b,c,d,rest',htail⟩ : ∃ b c d rest',front ++ blankLine ++ rest = b :: c :: d :: rest' := by
      rcases hl : front ++ blankLine ++ rest with _ | ⟨b,_ | ⟨c,_ | ⟨d,rest'⟩⟩⟩
      · simp [hl] at hlen
      · simp [hl] at hlen
      · simp [hl] at hlen
      · exact ⟨b,c,d,rest',rfl⟩
    have hc : ¬(a = cr ∧ b = lf ∧ c = cr ∧ d = lf) := by
      rintro ⟨rfl,rfl,rfl,rfl⟩
      refine hno (List.infix_cons_iff.mpr (.inl ?_))
      have hpre : [lf,cr,lf] <+: front ++ [cr,lf,cr] := by
        have h₁ : [lf,cr,lf] <+: front ++ blankLine ++ rest := htail ▸ ⟨rest',rfl⟩
        have h₂ : front ++ [cr,lf,cr] <+: front ++ blankLine ++ rest :=
          ⟨lf :: rest,by simp [blankLine,crlf]⟩
        exact List.prefix_of_prefix_length_le h₁ h₂ (by simp)
      exact (List.cons_prefix_cons.mpr ⟨rfl,hpre⟩)
    rw [htail] at hrest
    simp only [List.cons_append]
    rw [htail,splitHead,if_neg hc,hrest]
    rfl

/-! ### The fields -/

def lengthLine (line : Bytes) : Option Bytes :=
  let name := line.takeWhile (· ≠ 58)
  if name.length = line.length then none
  else if isName name "Content-Length" then some (skipWs (line.drop (name.length + 1)))
  else none

def LengthField (head v : Bytes) : Prop :=
  ∃ pre line post, head = pre ++ crlf ++ line ++ crlf ++ post ∧ ¬ crlf <:+: line ∧
    lengthLine line = some v

/-- Digits and nothing else, no more of them than are read. -/
structure Plain (v : Bytes) : Prop where
  given : v ≠ []
  short : v.length < 32
  digits : ∀ c ∈ v,isDecimal c = true

structure OneLength (head : Bytes) : Prop where
  plain : ∀ v,LengthField head v → Plain v
  same : ∀ v w,LengthField head v → LengthField head w → digitsValue v = digitsValue w

def SaysLength (head : Bytes) (n : Nat) : Prop :=
  (∃ v,LengthField head v ∧ digitsValue v = n) ∨ ((∀ v,¬LengthField head v) ∧ n = 0)

/-- What an accepted request has to be: of one length, with the body of that length that follows
the first blank line. -/
def Framed (buf : Bytes) (req : Request) : Prop :=
  ∀ head rest,FirstBlank buf head rest →
    OneLength head ∧ ∃ n,SaysLength head n ∧ n ≤ rest.length ∧ req.body = rest.take n

/-! ### What the parser makes of them -/

def lengths (lines : List HeaderLine) : List Bytes := lines.filterMap fun l => lengthLine l.text

/-- The lines of a header block as the parser finds them, behind whatever carriage returns. -/
def foundLines (head : Bytes) : List HeaderLine :=
  let line := head.takeWhile (· ≠ cr)
  headerLines maxHeaderLines ((head.drop (line.length + 1)).headD 0) (head.drop (line.length + 2))

def foundLength (head : Bytes) : Nat :=
  ((lengths (foundLines head)).getLast?.bind contentLengthOf).getD 0

/-- The fields are plain and agree, and the last Content-Length behind a carriage return, be it
part of another line, is of their number. -/
def PlainlyFramed (buf : Bytes) : Prop :=
  ∀ head rest,FirstBlank buf head rest → OneLength head ∧ SaysLength head (foundLength head)

theorem header_length (h : header line req = .ok req') : req'.body = req.body ∧
    match lengthLine line with
    | some v => ∃ n,contentLengthOf v = some n ∧ req'.contentLength = some n
    | none => req'.contentLength = req.contentLength := by
  simp only [header] at h
  simp only [lengthLine]
  generalize line.takeWhile (· ≠ 58) = name at h ⊢
  generalize skipWs (line.drop (name.length + 1)) = v at h ⊢
  split at h
  · next hc =>
    cases h
    rw [if_pos hc]
    exact ⟨rfl,rfl⟩
  · next hc =>
    simp only [hc,if_false]
    split at h
    · next hi =>
      simp only [hi,if_true]
      split at h
      · next n hn =>
        cases h
        exact ⟨rfl,n,hn,rfl⟩
      · cases h
    · next hi =>
      simp only [hi,Bool.false_eq_true,if_false]
      repeat' split at h
      all_goals cases h; exact ⟨rfl,rfl⟩

theorem headers_length {left bytes : Nat} (before : UInt8)
    (h : headers left bytes rest req = .ok req') : req'.body = req.body ∧
      req'.contentLength =
        match (lengths (headerLines left before rest)).getLast? with
        | some v => contentLengthOf v
        | none => req.contentLength := by
  induction left generalizing bytes before rest req with
  | zero =>
    rw [headers] at h
    rw [headerLines]
    split at h
    · next hl =>
      cases h
      rw [if_pos hl]
      exact ⟨rfl,rfl⟩
    · split at h <;> cases h
  | succ left ih =>
    rw [headers] at h
    rw [headerLines]
    split at h
    · next hl =>
      cases h
      rw [if_pos hl]
      exact ⟨rfl,rfl⟩
    next hl =>
    rw [if_neg hl]
    split at h
    · cases h
    split at h
    · cases h
    split at h
    · cases h
    next req₁ hh =>
      obtain ⟨hbody,hlen⟩ := header_length hh
      obtain ⟨ibody,ilen⟩ := ih _ h
      refine ⟨ibody.trans hbody,?_⟩
      rw [ilen]
      dsimp only
      generalize headerLines left _ _ = later
      have hlengths : lengths (⟨before,rest.takeWhile (· ≠ cr),
          (rest.drop ((rest.takeWhile (· ≠ cr)).length + 1)).headD 0⟩ :: later) =
          (lengthLine (rest.takeWhile (· ≠ cr))).toList ++ lengths later := by
        rw [lengths,List.filterMap_cons]
        cases lengthLine (rest.takeWhile (· ≠ cr)) <;> rfl
      rw [hlengths,List.getLast?_append]
      cases (lengths later).getLast? with
      | some w => rfl
      | none =>
        cases hline : lengthLine (rest.takeWhile (· ≠ cr)) with
        | none =>
          rw [hline] at hlen
          exact hlen
        | some v =>
          rw [hline] at hlen
          obtain ⟨n,hn,hset⟩ := hlen
          exact hset.trans hn.symm

/-- What an accepted request has been through. Its body is what the parser's own length cuts
off. -/
structure Accepted (buf head rest : Bytes) (req : Request) : Prop where
  split : splitHead buf = some (head,rest)
  lines : ∃ req₁ req₂,headers maxHeaderLines 0
    (head.drop ((head.takeWhile (· ≠ cr)).length + 2)) req₁ = .ok req₂
  small : foundLength head ≤ maxBody
  whole : foundLength head ≤ rest.length
  body : req.body = rest.take (foundLength head)

theorem parse_accepted (h : parse buf = .ok req) : ∃ head rest,Accepted buf head rest req := by
  unfold parse at h
  split at h
  · split at h <;> cases h
  · next head rest hs =>
    split at h
    · cases h
    · next req₁ hp =>
      refine ⟨head,rest,?_⟩
      simp only [parseHead,bind,Except.bind] at hp
      split at hp
      · cases hp
      next req₂ hline =>
      split at hp
      · cases hp
      next req₃ hheaders =>
      split at hp
      · cases hp
      cases hp
      obtain ⟨-,-,hb,hnone⟩ := requestLine_ok hline
      obtain ⟨hbody,hlen⟩ := headers_length _ hheaders
      have hfound : foundLength head = req₁.contentLength.getD 0 := by
        rw [hlen,foundLength,foundLines]
        cases (lengths (headerLines _ _ _)).getLast? with
        | none =>
          rw [hnone]
          rfl
        | some v => rfl
      unfold withBody at h
      split at h
      · next n hn =>
        have hn : foundLength head = n := by
          rw [hfound,hn]
          rfl
        split at h
        · cases h
        next hbig =>
        split at h
        · cases h
        next hshort =>
        cases h
        rw [← hn] at hbig hshort
        exact ⟨hs,⟨_,_,hheaders⟩,Nat.not_lt.mp hbig,Nat.not_lt.mp hshort,by rw [hn]⟩
      · next hn =>
        have hzero : foundLength head = 0 := by
          rw [hfound,hn]
          rfl
        split at h
        · cases h
        · cases h
          exact ⟨hs,⟨_,_,hheaders⟩,by rw [hzero]; exact Nat.zero_le _,
            by rw [hzero]; exact Nat.zero_le _,by rw [hzero,hbody.trans hb]; rfl⟩

/-- An accepted request is framed as its fields say, exactly when the fields are plain numbers
that agree and the parser's own search finds the same. -/
theorem framed_iff (h : parse buf = .ok req) : Framed buf req ↔ PlainlyFramed buf := by
  obtain ⟨head,rest,hs,-,-,hle,hbody⟩ := parse_accepted h
  have hfirst := splitHead_first hs
  constructor
  · intro hf head' rest' hfirst'
    have hs' := first_splitHead hfirst'
    rw [hs] at hs'
    cases hs'
    obtain ⟨hone,n,hval,hn,hcut⟩ := hf head rest hfirst
    have hlen := congrArg List.length (hbody.symm.trans hcut)
    rw [List.length_take,List.length_take,Nat.min_eq_left hle,Nat.min_eq_left hn] at hlen
    rw [hlen]
    exact ⟨hone,hval⟩
  · intro hp head' rest' hfirst'
    have hs' := first_splitHead hfirst'
    rw [hs] at hs'
    cases hs'
    obtain ⟨hone,hval⟩ := hp head rest hfirst
    exact ⟨hone,foundLength head,hval,hle,hbody⟩

/-! ### Blocks in which every carriage return ends a line -/

def Lined (head : Bytes) : Prop := ∀ pre c post,head = pre ++ cr :: c :: post → c = lf

def lined : Bytes → Bool
  | [] => true
  | a :: l => (a != cr || l.head?.all (· == lf)) && lined l

theorem lined_iff : lined head = true ↔ Lined head := by
  induction head with
  | nil =>
    refine ⟨fun _ pre c post he => ?_,fun _ => rfl⟩
    simp at he
  | cons a l ih =>
    simp only [lined,Bool.and_eq_true,ih]
    constructor
    · rintro ⟨hfirst,hrest⟩ pre c post he
      cases pre with
      | nil =>
        obtain ⟨rfl,rfl⟩ := List.cons.inj he
        simpa using hfirst
      | cons b pre => exact hrest pre c post (List.cons.inj he).2
    · intro h
      refine ⟨?_,fun pre c post he => h (a :: pre) c post (by rw [he]; rfl)⟩
      cases l with
      | nil => simp
      | cons c l =>
        by_cases ha : a = cr
        · simpa using .inr (h [] c l (by rw [ha]; rfl))
        · simp [ha]

instance (head : Bytes) : Decidable (Lined head) := decidable_of_iff _ lined_iff

theorem Lined.suffix (front : Bytes) (h : Lined (front ++ head)) : Lined head :=
  fun pre c post he => h (front ++ pre) c post (by rw [he,List.append_assoc])

theorem Lined.no_cr {pre post : Bytes} (h : Lined head)
    (he : head = pre ++ crlf ++ line ++ crlf ++ post) (hl : ¬ crlf <:+: line) : cr ∉ line := by
  intro hmem
  obtain ⟨s,t,rfl⟩ := List.append_of_mem hmem
  cases t with
  | nil =>
    have hc := h (pre ++ crlf ++ s) cr (lf :: post) (by rw [he]; simp [crlf])
    exact absurd hc (by decide)
  | cons c t =>
    obtain rfl := h (pre ++ crlf ++ s) c (t ++ crlf ++ post) (by rw [he]; simp)
    exact hl ⟨s,t,by simp [crlf]⟩

theorem takeWhile_exact {l m : Bytes} (h : cr ∉ l) : (l ++ cr :: m).takeWhile (· ≠ cr) = l := by
  induction l with
  | nil => simp
  | cons a l ih =>
    have ha : a ≠ cr := fun he => h (by simp [he])
    have hl := ih fun hm => h (by simp [hm])
    simpa [ha] using hl

theorem crlf_behind {text pre x rest' : Bytes} {after : UInt8} (hcr : cr ∉ text)
    (he : text ++ cr :: after :: rest' = pre ++ cr :: lf :: x) :
    ∃ pre',cr :: after :: rest' = pre' ++ cr :: lf :: x := by
  rcases List.append_eq_append_iff.mp he with ⟨pre',-,hp⟩ | ⟨bs,hbs,hp⟩
  · exact ⟨pre',hp⟩
  · cases bs with
    | nil => exact ⟨[],hp.symm⟩
    | cons c bs =>
      obtain rfl : cr = c := (List.cons.inj hp).1
      exact absurd (by rw [hbs]; simp) hcr

theorem takeWhile_cr (s : Bytes) : cr ∉ s.takeWhile (· ≠ cr) := fun hmem =>
  absurd (List.mem_takeWhile_imp hmem) (by simp)

theorem found_of_lines {left bytes : Nat} {before : UInt8} {pre post : Bytes}
    (hh : headers left bytes rest req = .ok req') (hend : Ended rest)
    (hlined : Lined (cr :: before :: rest))
    (he : cr :: before :: rest = pre ++ cr :: lf :: (line ++ cr :: lf :: post)) (hcr : cr ∉ line)
    (hne : line ≠ []) : ∃ l ∈ headerLines left before rest,l.text = line := by
  have hbefore : before = lf := hlined [] before rest rfl
  have hlong : ¬rest.length ≤ 2 := by
    have hlen := congrArg List.length he
    have hpos := List.length_pos_of_ne_nil hne
    simp only [List.length_append,List.length_cons] at hlen
    omega
  induction left generalizing bytes before rest req pre with
  | zero =>
    rw [headers] at hh
    simp only [if_neg hlong] at hh
    split at hh <;> cases hh
  | succ left ih =>
    rw [headers] at hh
    rw [headerLines]
    simp only [if_neg hlong] at hh ⊢
    have hsplit := line_split (hend.line_length hlong)
    generalize htext : rest.takeWhile (· ≠ cr) = text at hh hsplit ⊢
    generalize hafter : (rest.drop (text.length + 1)).headD 0 = after at hsplit ⊢
    generalize hrest : rest.drop (text.length + 2) = rest' at hh hsplit ⊢
    have htextcr : cr ∉ text := htext ▸ takeWhile_cr rest
    rcases pre with _ | ⟨a,_ | ⟨b,pre⟩⟩
    · obtain rfl : rest = line ++ cr :: lf :: post := by
        simp only [List.nil_append,List.cons.injEq] at he
        exact he.2.2
      rw [takeWhile_exact hcr] at htext
      exact ⟨_,List.mem_cons_self,htext.symm⟩
    · simp only [List.cons_append,List.nil_append,List.cons.injEq] at he
      obtain ⟨-,hb,-⟩ := he
      rw [hb] at hbefore
      exact absurd hbefore (by decide)
    · simp only [List.cons_append,List.cons.injEq] at he
      obtain ⟨rfl,rfl,he⟩ := he
      rw [hsplit] at he
      obtain ⟨pre',hp⟩ := crlf_behind htextcr he
      have hlined' : Lined (cr :: after :: rest') := by
        rw [hsplit] at hlined
        exact Lined.suffix (cr :: before :: text) hlined
      split at hh
      · cases hh
      split at hh
      · cases hh
      split at hh
      · cases hh
      · next req₁ hheader =>
        have hafterlf : after = lf := hlined' [] after rest' rfl
        have hlong' : ¬rest'.length ≤ 2 := by
          have hlen := congrArg List.length hp
          have hpos := List.length_pos_of_ne_nil hne
          simp only [List.length_append,List.length_cons] at hlen
          omega
        obtain ⟨l,hl,heq⟩ := ih hh (hrest ▸ hend.next _) hlined' hp hafterlf hlong'
        exact ⟨l,List.mem_cons_of_mem _ hl,heq⟩

theorem headerLines_text {left : Nat} {before : UInt8} {l : HeaderLine}
    (h : l ∈ headerLines left before rest) : cr ∉ l.text := by
  induction left generalizing before rest with
  | zero => simp [headerLines] at h
  | succ left ih =>
    rw [headerLines] at h
    split at h
    · cases h
    · rcases List.mem_cons.mp h with rfl | h
      · exact takeWhile_cr rest
      · exact ih h

theorem contentLengthOf_plain (h : Plain v) :
    contentLengthOf v = some (Nat.min (digitsValue v) (2 ^ 63 - 1)) := by
  have hzero : 0 ∉ v := fun hm => absurd (h.digits 0 hm) (by decide)
  have hcopy : copyBounded 32 v = v := copyBounded_whole hzero h.short
  simp only [contentLengthOf,hcopy,strtol_digits h.given h.digits,Int.natCast_nonneg,and_self,
    if_true,Int.toNat_natCast]

theorem field_found (h : Accepted buf head rest req) (hl : Lined head) (hv : LengthField head v) :
    v ∈ lengths (foundLines head) := by
  obtain ⟨hs,⟨req₁,req₂,hheaders⟩,-⟩ := h
  obtain ⟨pre,line,post,he,hnot,hv⟩ := hv
  obtain ⟨hend,hlong⟩ := head_ended hs
  have hsplit := line_split (hend.line_length hlong)
  have hline := hl.no_cr he hnot
  have hne : line ≠ [] := by
    rintro rfl
    cases hv
  have he' : head = pre ++ cr :: lf :: (line ++ cr :: lf :: post) := by
    rw [he]
    simp [crlf]
  rw [hsplit] at he'
  obtain ⟨pre',hp⟩ := crlf_behind (takeWhile_cr head) he'
  rw [hsplit] at hl
  obtain ⟨l,hmem,heq⟩ := found_of_lines hheaders (hend.next _) hl.suffix hp hline hne
  exact List.mem_filterMap.mpr ⟨l,hmem,by rw [heq]; exact hv⟩

theorem found_field (h : Accepted buf head rest req) (hl : Lined head)
    (hv : v ∈ lengths (foundLines head)) : LengthField head v := by
  obtain ⟨hend,hlong⟩ := head_ended h.split
  have hsplit := line_split (hend.line_length hlong)
  obtain ⟨l,hmem,hv⟩ := List.mem_filterMap.mp hv
  obtain ⟨pre,post,hp⟩ := headerLines_mem (hend.next _) hmem
  obtain ⟨start,hwhole⟩ : ∃ start,head = start ++
      (pre ++ cr :: l.before :: (l.text ++ cr :: l.after :: post)) := by
    rw [← hp]
    exact ⟨_,hsplit⟩
  have hbefore : l.before = lf := hl (start ++ pre) _
    (l.text ++ cr :: l.after :: post) (by rw [hwhole]; simp)
  have hafter : l.after = lf := hl (start ++ pre ++ cr :: l.before :: l.text) _ post
    (by rw [hwhole]; simp)
  refine ⟨start ++ pre,l.text,post,?_,fun hin => ?_,hv⟩
  · rw [hbefore,hafter] at hwhole
    rw [hwhole]
    simp [crlf]
  · exact headerLines_text hmem (hin.subset (by simp [crlf]))

/-- Where every carriage return ends a line, nothing is asked but that the fields are plain and
agree. -/
theorem plainlyFramed_of_lined (h : parse buf = .ok req)
    (hlined : ∀ head rest,Accepted buf head rest req → Lined head ∧ OneLength head) :
    PlainlyFramed buf := by
  intro head rest hfirst
  obtain ⟨head',rest',ha⟩ := parse_accepted h
  cases ha.split.symm.trans (first_splitHead hfirst)
  obtain ⟨hl,hone⟩ := hlined head rest ha
  refine ⟨hone,?_⟩
  cases hlast : (lengths (foundLines head)).getLast? with
  | none =>
    have hnone : lengths (foundLines head) = [] := List.getLast?_eq_none_iff.mp hlast
    refine .inr ⟨fun v hv => ?_,by rw [foundLength,hlast]; rfl⟩
    have hmem := field_found ha hl hv
    rw [hnone] at hmem
    cases hmem
  | some v =>
    have hfield := found_field ha hl (List.mem_of_getLast? hlast)
    have hplain := contentLengthOf_plain (hone.plain v hfield)
    have hfoundv : foundLength head = Nat.min (digitsValue v) (2 ^ 63 - 1) := by
      rw [foundLength,hlast,Option.bind_some,hplain]
      rfl
    have hmin : Nat.min (digitsValue v) (2 ^ 63 - 1) = min (digitsValue v) (2 ^ 63 - 1) := rfl
    have hmax : maxBody = 8192 := rfl
    have hsmall := ha.small
    refine .inl ⟨v,hfield,?_⟩
    rw [hmin] at hfoundv
    omega

def sized : Bytes := ascii "GET / HTTP/1.1\r\nContent-Length: 2\r\n\r\nok"

theorem sized_framed : Framed sized
    ⟨.get,ascii "GET",ascii "/",[],ascii "ok",[],[],[],false,false,some 2,false⟩ := by
  have hparse : parse sized =
    .ok ⟨.get,ascii "GET",ascii "/",[],ascii "ok",[],[],[],false,false,some 2,false⟩ := by
    decide +kernel
  refine (framed_iff hparse).mpr (plainlyFramed_of_lined hparse fun head rest ha => ?_)
  have hsplit : splitHead sized = some (sized.take 37,ascii "ok") := by decide +kernel
  cases hsplit.symm.trans ha.split
  have hl : Lined (sized.take 37) := by decide +kernel
  have hfields : ∀ v,LengthField (sized.take 37) v → v = [50] := by
    intro v hv
    have hmem := field_found ha hl hv
    have hlist : lengths (foundLines (sized.take 37)) = [[50]] := by decide +kernel
    rw [hlist] at hmem
    exact List.mem_singleton.mp hmem
  refine ⟨hl,fun v hv => ?_,fun v w hv hw => by rw [hfields v hv,hfields w hw]⟩
  rw [hfields v hv]
  exact ⟨by decide +kernel,by decide +kernel,by decide +kernel⟩

/-- A Content-Length of nothing is taken for zero. -/
def unsized : Bytes := ascii "GET / HTTP/1.1\r\nContent-Length:\r\n\r\n"

theorem not_always_framed : ¬∀ (buf : Bytes) (req : Request),parse buf = .ok req →
    Framed buf req := by
  intro h
  have hf := h unsized ⟨.get,ascii "GET",ascii "/",[],[],[],[],[],false,false,some 0,false⟩
    (by decide +kernel)
  obtain ⟨hone,-⟩ := hf unsized [] (splitHead_first (by decide +kernel))
  exact (hone.plain [] ⟨ascii "GET / HTTP/1.1",ascii "Content-Length:",crlf,by decide +kernel,
    by decide +kernel,by decide +kernel⟩).given rfl

end VkMiner.Api
