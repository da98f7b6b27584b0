import VkMiner.Api.Reads
set_option autoImplicit false

/-! What the fields of a parsed request are, of the bytes as they were sent. -/

namespace VkMiner.Api

def sentMethod (head : Bytes) : Bytes := head.takeWhile (· ≠ space)

def sentTarget (head : Bytes) : Bytes :=
  (head.drop ((sentMethod head).length + 1)).takeWhile (· ≠ space)

def sentPath (head : Bytes) : Bytes := (sentTarget head).takeWhile (· ≠ 63)

def decodedPath (head : Bytes) : Option Bytes := (percentDecode (sentPath head)).map trimSlashes

variable {head line rest s p : Bytes} {req req' : Request} {reads : List Bytes}

theorem takeWhile_of_prefix {α : Type} {q : α → Bool} {l m : List α} (h : l <+: m)
    (hlt : (l.takeWhile q).length < l.length) : m.takeWhile q = l.takeWhile q := by
  obtain ⟨t,rfl⟩ := h
  induction l with
  | nil => cases hlt
  | cons a l ih =>
    rw [List.cons_append,List.takeWhile_cons,List.takeWhile_cons]
    split
    · rename_i ha
      rw [List.takeWhile_cons,if_pos ha] at hlt
      rw [ih (Nat.lt_of_succ_lt_succ hlt)]
    · rfl

theorem takeWhile_length_lt {α : Type} {q : α → Bool} {l : List α}
    (h : (l.takeWhile q).length ≠ l.length) : (l.takeWhile q).length < l.length :=
  Nat.lt_of_le_of_ne (List.takeWhile_prefix q).length_le h

structure LineRead (line : Bytes) (m : Method) (path method target : Bytes) : Prop where
  method_eq : method = line.takeWhile (· ≠ space)
  method_ends : method.length < line.length
  target_eq : target = (line.drop (method.length + 1)).takeWhile (· ≠ space)
  target_ends : target.length < (line.drop (method.length + 1)).length
  rooted : target.head? = some 47
  short : (target.takeWhile (· ≠ 63)).length < maxPath
  decoded : ∃ p, percentDecode (copyBounded maxPath (target.takeWhile (· ≠ 63))) = some p ∧
    path = trimSlashes p
  verb : m = methodOf method

theorem of_guard {ε α : Type} {c : Prop} [Decidable c] {e : ε} {f : PUnit → Except ε α} {a : α}
    (h : (if c then (throw e >>= f) else f ⟨⟩) = .ok a) : ¬c ∧ f ⟨⟩ = .ok a := by
  split at h
  · cases h
  · rename_i hc
    exact ⟨hc,h⟩

theorem requestLine_ok (h : requestLine line = .ok req) :
    (∃ method target, LineRead line req.method req.path method target) ∧
      req.authBearer = [] ∧ req.body = [] ∧ req.contentLength = none := by
  unfold requestLine at h
  obtain ⟨-,h⟩ := of_guard h
  obtain ⟨hm,h⟩ := of_guard h
  obtain ⟨ht,h⟩ := of_guard h
  obtain ⟨hr,h⟩ := of_guard h
  obtain ⟨hs,h⟩ := of_guard h
  obtain ⟨-,h⟩ := of_guard h
  dsimp only at h
  split at h
  · rename_i path hp
    split at h
    · obtain ⟨-,h⟩ := of_guard h
      cases h
      exact ⟨⟨_,_,rfl,takeWhile_length_lt hm,rfl,takeWhile_length_lt ht,by simpa using hr,
        Nat.not_le.mp hs,⟨path,hp,rfl⟩,rfl⟩,rfl,rfl,rfl⟩
    · cases h
  · cases h

/-- A header line as the parser finds it: its text up to a carriage return, with the bytes that
follow the carriage returns before it and after it. -/
structure HeaderLine where
  before : UInt8
  text : Bytes
  after : UInt8
  deriving DecidableEq

def headerLines : (left : Nat) → (before : UInt8) → Bytes → List HeaderLine
  | left,before,rest =>
    if rest.length ≤ 2 then []
    else
      match left with
      | 0 => []
      | left + 1 =>
        let text := rest.takeWhile (· ≠ cr)
        let after := (rest.drop (text.length + 1)).headD 0
        ⟨before,text,after⟩ :: headerLines left after (rest.drop (text.length + 2))

def bearerLine (line : Bytes) : Option Bytes :=
  let name := line.takeWhile (· ≠ 58)
  if name.length = line.length then none
  else if isName name "Authorization" then bearerOf (skipWs (line.drop (name.length + 1)))
  else none

def bearers (lines : List HeaderLine) : List (HeaderLine × Bytes) :=
  lines.filterMap fun l => (bearerLine l.text).map fun v => (l,v)

def kept (head : Bytes) : Option (HeaderLine × Bytes) :=
  let line := head.takeWhile (· ≠ cr)
  (bearers (headerLines maxHeaderLines ((head.drop (line.length + 1)).headD 0)
    (head.drop (line.length + 2)))).getLast?

theorem isName_length {name : Bytes} {t : String} (h : isName name t = true) :
    name.length = (ascii t).length := by
  simp only [isName,Bool.and_eq_true,beq_iff_eq] at h
  exact h.1

theorem header_ok (h : header line req = .ok req') :
    req'.authBearer = ((bearerLine line).map (copyBounded 256)).getD req.authBearer ∧
      req'.path = req.path ∧ req'.method = req.method := by
  simp only [header] at h
  simp only [bearerLine]
  generalize hn : line.takeWhile (· ≠ 58) = name at h ⊢
  generalize skipWs (line.drop (name.length + 1)) = v at h ⊢
  split at h
  · rename_i hc
    cases h
    rw [if_pos hc]
    exact ⟨rfl,rfl,rfl⟩
  rename_i hc
  simp only [hc,if_false]
  have hauth : ∀ {t : String}, (ascii t).length ≠ 13 → isName name t = true →
      isName name "Authorization" = false := by
    intro t ht hi
    by_contra ha
    have ha' : isName name "Authorization" = true := by simpa using ha
    exact ht ((isName_length hi).symm.trans (isName_length ha'))
  split at h
  · rename_i hi
    simp only [hauth (by decide) hi,Bool.false_eq_true,if_false]
    split at h <;> cases h
    exact ⟨rfl,rfl,rfl⟩
  split at h
  · rename_i hi
    simp only [hauth (by decide) hi,Bool.false_eq_true,if_false]
    cases h
    exact ⟨rfl,rfl,rfl⟩
  split at h
  · rename_i hi
    simp only [hi,if_true]
    split at h <;> cases h <;> rename_i hb <;> rw [hb] <;> exact ⟨rfl,rfl,rfl⟩
  · rename_i hi
    simp only [hi,Bool.false_eq_true,if_false]
    split at h
    · cases h
      exact ⟨rfl,rfl,rfl⟩
    split at h
    · cases h
      exact ⟨rfl,rfl,rfl⟩
    split at h <;> cases h <;> exact ⟨rfl,rfl,rfl⟩

/-- What is left of a header block: its end, or something in front of a whole line end. -/
def Ended (rest : Bytes) : Prop := rest.length ≤ 2 ∨ ∃ x, rest = x ++ [cr,lf]

theorem takeWhile_le_of_mem {x y : Bytes} (h : cr = y.headD 0 ∧ y ≠ []) :
    ((x ++ y).takeWhile (· ≠ cr)).length ≤ x.length := by
  induction x with
  | nil =>
    match y,h with
    | c :: y,⟨hc,_⟩ =>
      obtain rfl : cr = c := hc
      simp
  | cons a x ih =>
    rw [List.cons_append,List.takeWhile_cons]
    split
    · exact Nat.succ_le_succ ih
    · exact Nat.zero_le _

theorem Ended.line_length (h : Ended rest) (hl : ¬rest.length ≤ 2) :
    (rest.takeWhile (· ≠ cr)).length + 2 ≤ rest.length := by
  obtain h | ⟨x,rfl⟩ := h
  · exact absurd h hl
  · have := takeWhile_le_of_mem (x := x) (y := [cr,lf]) ⟨rfl,nofun⟩
    simp only [List.length_append,List.length_cons,List.length_nil]
    omega

theorem Ended.next (h : Ended rest) (n : Nat) : Ended (rest.drop n) := by
  obtain h | ⟨x,rfl⟩ := h
  · refine .inl ?_
    rw [List.length_drop]
    omega
  · by_cases hn : n ≤ x.length
    · exact .inr ⟨x.drop n,by rw [List.drop_append_of_le_length hn]⟩
    · refine .inl ?_
      simp only [List.length_drop,List.length_append,List.length_cons,List.length_nil]
      omega

theorem takeWhile_split {c : UInt8} {l : Bytes} (h : (l.takeWhile (· ≠ c)).length < l.length) :
    l = l.takeWhile (· ≠ c) ++ c :: l.drop ((l.takeWhile (· ≠ c)).length + 1) := by
  induction l with
  | nil => cases h
  | cons a l ih =>
    by_cases ha : a = c
    · subst ha
      simp
    · have hd : decide (a ≠ c) = true := by simpa using ha
      rw [List.takeWhile_cons,if_pos hd] at h ⊢
      rw [List.cons_append,List.length_cons,List.drop_succ_cons]
      exact congrArg (a :: ·) (ih (Nat.lt_of_succ_lt_succ h))

theorem line_split (hl : (rest.takeWhile (· ≠ cr)).length + 2 ≤ rest.length) :
    rest = rest.takeWhile (· ≠ cr) ++ cr ::
      (rest.drop ((rest.takeWhile (· ≠ cr)).length + 1)).headD 0 ::
        rest.drop ((rest.takeWhile (· ≠ cr)).length + 2) := by
  have hs := takeWhile_split (c := cr) (l := rest) (by omega)
  generalize rest.takeWhile (· ≠ cr) = line at hl hs ⊢
  have hne : rest.drop (line.length + 1) ≠ [] := by
    rw [ne_eq,List.drop_eq_nil_iff]
    omega
  have hd : rest.drop (line.length + 2) = (rest.drop (line.length + 1)).tail := by
    rw [List.tail_drop]
  rw [hd]
  cases hr : rest.drop (line.length + 1) with
  | nil => exact absurd hr hne
  | cons a l => rwa [hr] at hs

theorem headerLines_mem {left : Nat} {before : UInt8} {l : HeaderLine} (hend : Ended rest)
    (h : l ∈ headerLines left before rest) :
    ∃ pre post, cr :: before :: rest =
      pre ++ cr :: l.before :: (l.text ++ cr :: l.after :: post) := by
  induction left generalizing before rest with
  | zero =>
    simp [headerLines] at h
  | succ left ih =>
    rw [headerLines] at h
    split at h
    · cases h
    · rename_i hl
      have hs := line_split (hend.line_length hl)
      obtain rfl | h := List.mem_cons.mp h
      · exact ⟨[],_,congrArg (fun r => cr :: before :: r) hs⟩
      · obtain ⟨pre,post,he⟩ := ih (hend.next _) h
        refine ⟨cr :: before :: (rest.takeWhile (· ≠ cr) ++ pre),post,?_⟩
        rw [List.cons_append,List.cons_append,List.append_assoc,← he]
        exact congrArg (fun r => cr :: before :: r) hs

theorem bearers_cons (l : HeaderLine) (ls : List HeaderLine) (a : Bytes) :
    ((bearers (l :: ls)).getLast?.map (copyBounded 256 ∘ Prod.snd)).getD a =
      ((bearers ls).getLast?.map (copyBounded 256 ∘ Prod.snd)).getD
        (((bearerLine l.text).map (copyBounded 256)).getD a) := by
  rw [bearers,List.filterMap_cons]
  cases bearerLine l.text with
  | none => rfl
  | some v =>
    simp only [Option.map_some,List.getLast?_cons]
    cases h : (bearers ls).getLast? with
    | none =>
      rw [bearers] at h
      rw [h]
      rfl
    | some x =>
      rw [bearers] at h
      rw [h]
      rfl

theorem headers_ok {left bytes : Nat} (before : UInt8) (h : headers left bytes rest req = .ok req') :
    req'.authBearer = ((bearers (headerLines left before rest)).getLast?.map
        (copyBounded 256 ∘ Prod.snd)).getD req.authBearer ∧
      req'.path = req.path ∧ req'.method = req.method := by
  induction left generalizing bytes before rest req with
  | zero =>
    rw [headers] at h
    rw [headerLines]
    split at h
    · cases h
      rename_i hl
      rw [if_pos hl]
      exact ⟨rfl,rfl,rfl⟩
    · split at h <;> cases h
  | succ left ih =>
    rw [headers] at h
    rw [headerLines]
    split at h
    · cases h
      rename_i hl
      rw [if_pos hl]
      exact ⟨rfl,rfl,rfl⟩
    rename_i hl
    rw [if_neg hl]
    split at h
    · cases h
    split at h
    · cases h
    split at h
    · cases h
    · rename_i req₁ hh
      obtain ⟨ha,hp,hm⟩ := header_ok hh
      obtain ⟨ia,ip,im⟩ := ih _ h
      refine ⟨?_,ip.trans hp,im.trans hm⟩
      rw [ia,ha]
      exact (bearers_cons ⟨before,_,_⟩ _ _).symm

/-- How the fields that decide about a request come from the bytes. -/
structure Sent (head : Bytes) (req : Request) : Prop where
  method : req.method = methodOf (sentMethod head)
  rooted : (sentPath head).head? = some 47
  short : (sentPath head).length < maxPath
  path : ∃ p, percentDecode (copyBounded maxPath (sentPath head)) = some p ∧
    req.path = trimSlashes p
  bearer : req.authBearer = ((kept head).map (copyBounded 256 ∘ Prod.snd)).getD []

theorem LineRead.sent {m : Method} {path method target : Bytes}
    (h : LineRead (head.takeWhile (· ≠ cr)) m path method target) :
    sentMethod head = method ∧ sentTarget head = target := by
  have hpre : head.takeWhile (· ≠ cr) <+: head := List.takeWhile_prefix _
  have hm : sentMethod head = method := by
    rw [h.method_eq]
    exact takeWhile_of_prefix hpre (h.method_eq ▸ h.method_ends)
  refine ⟨hm,?_⟩
  rw [sentTarget,hm,h.target_eq]
  exact takeWhile_of_prefix (hpre.drop _) (h.target_eq ▸ h.target_ends)

theorem parseHead_ok (h : parseHead head = .ok req) : Sent head req := by
  simp only [parseHead,bind,Except.bind] at h
  split at h
  · cases h
  rename_i req₁ hline
  split at h
  · cases h
  rename_i req₂ hheaders
  split at h
  · cases h
  cases h
  obtain ⟨⟨method,target,hr⟩,hb,-⟩ := requestLine_ok hline
  obtain ⟨ha,hp,hm⟩ := headers_ok _ hheaders
  obtain ⟨hsm,hst⟩ := hr.sent
  obtain ⟨p,hd,ht⟩ := hr.decoded
  refine ⟨?_,?_,?_,⟨p,?_,?_⟩,?_⟩
  · rw [hm,hsm,hr.verb]
  · rw [sentPath,hst]
    match target,hr.rooted with
    | c :: target,hc =>
      obtain rfl : c = 47 := Option.some.inj hc
      rfl
  · rw [sentPath,hst]
    exact hr.short
  · rw [sentPath,hst,hd]
  · rw [hp,ht]
  · rw [ha,hb]
    rfl

theorem readLoop_ok (h : readLoop reads = .ok req) :
    ∃ head rest, splitHead reads.flatten = some (head,rest) ∧ Sent head req := by
  obtain hf | hf | ⟨u,hp,hj⟩ := Growing.run_cases decided bufferSize (.refused .tooLarge)
    .incomplete reads []
  · cases h.symm.trans hf
  · cases h.symm.trans hf
  change decided u = some (readLoop reads) at hj
  rw [h] at hj
  obtain ⟨hu,-⟩ := decided_some hj
  cases hs : splitHead u with
  | none =>
    rw [parse_headless hs] at hu
    split at hu <;> cases hu
  | some x =>
    obtain ⟨head,rest⟩ := x
    obtain ⟨x,hx⟩ := hp
    rw [List.nil_append] at hx
    refine ⟨head,rest ++ x,hx ▸ splitHead_append hs x,?_⟩
    rw [parse_head hs] at hu
    cases hp : parseHead head with
    | error r =>
      rw [hp] at hu
      cases hu
    | ok req₀ =>
      rw [hp] at hu
      obtain ⟨hm,hr,hl,hpath,hb⟩ := parseHead_ok hp
      simp only [withBody] at hu
      split at hu
      · split at hu
        · cases hu
        split at hu <;> cases hu
        exact ⟨hm,hr,hl,hpath,hb⟩
      · split at hu <;> cases hu
        exact ⟨hm,hr,hl,hpath,hb⟩

end VkMiner.Api
