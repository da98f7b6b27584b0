import VkMiner.Api.Http
set_option autoImplicit false

/-! One request however its bytes are cut into reads. -/

namespace VkMiner.Api

variable {u b x all head rest : Bytes} {req : Request} {reads : List Bytes} {n : Nat}

theorem splitHead_eq (h : splitHead u = some (head,rest)) : u = head ++ rest := by
  induction u generalizing head with
  | nil => cases h
  | cons a u ih =>
    unfold splitHead at h
    split at h
    · rename_i he
      cases he
      split at h
      · cases h
        rfl
      · obtain ⟨⟨head',rest'⟩,hs,he⟩ := Option.map_eq_some_iff.mp h
        cases he
        rw [List.cons_append,← ih hs]
    · cases h

theorem four_le_head (h : splitHead u = some (head,rest)) : 4 ≤ head.length := by
  induction u generalizing head with
  | nil => cases h
  | cons a u ih =>
    unfold splitHead at h
    split at h
    · rename_i he
      cases he
      split at h
      · cases h
        exact Nat.le_refl 4
      · obtain ⟨⟨head',rest'⟩,hs,he⟩ := Option.map_eq_some_iff.mp h
        cases he
        exact Nat.le_succ_of_le (ih hs)
    · cases h

theorem splitHead_self (h : splitHead u = some (head,rest)) (y : Bytes) :
    splitHead (head ++ y) = some (head,y) := by
  induction u generalizing head with
  | nil => cases h
  | cons a u ih =>
    unfold splitHead at h
    split at h
    · rename_i he
      cases he
      split at h
      · rename_i hc
        cases h
        obtain ⟨rfl,rfl,rfl,rfl⟩ := hc
        rfl
      · rename_i c d e rest' hc
        obtain ⟨⟨head',rest''⟩,hs,he⟩ := Option.map_eq_some_iff.mp h
        cases he
        have hy := ih hs
        have hlen := four_le_head hs
        match head',hlen,splitHead_eq hs,hy with
        | c' :: d' :: e' :: f :: t,_,hu,hy =>
          simp only [List.cons_append,List.cons.injEq] at hu
          obtain ⟨rfl,rfl,rfl,-⟩ := hu
          simp only [List.cons_append] at hy ⊢
          rw [splitHead,if_neg hc,hy]
          rfl
    · cases h

theorem splitHead_append (h : splitHead u = some (head,rest)) (x : Bytes) :
    splitHead (u ++ x) = some (head,rest ++ x) := by
  rw [splitHead_eq h,List.append_assoc]
  exact splitHead_self h _

theorem length_lt_head (hb : splitHead b = some (head,rest)) (hp : u <+: b)
    (hu : splitHead u = none) : u.length < head.length := by
  by_contra hle
  obtain ⟨x,rfl⟩ := hp
  have hpre : head <+: u := by
    refine List.prefix_of_prefix_length_le ⟨rest,(splitHead_eq hb).symm⟩ ⟨x,rfl⟩ ?_
    omega
  obtain ⟨y,rfl⟩ := hpre
  cases (splitHead_self hb y).symm.trans hu

/-- The whole is too large whatever way it is read. -/
def Oversized (head rest : Bytes) : Prop :=
  match parseHead head with
  | .error r => r = .tooLarge
  | .ok req => ∃ n ∈ req.contentLength,
      maxBody < n ∨ rest.length < n ∧ bufferSize ≤ head.length + rest.length

/-- A request that should have had a Content-Length, and that is well formed otherwise. -/
def Unframed (head : Bytes) : Prop :=
  ∃ req, parseHead head = .ok req ∧ req.method = .post ∧ req.contentLength = none

/-- A read that ends after `n` bytes: it does not end inside a header block so far that the
block is given up, and not right behind that of an unframed request with more to come. -/
def GoodEnd (b : Bytes) (n : Nat) : Prop :=
  ∀ head rest, splitHead (b.take bufferSize) = some (head,rest) →
    (maxReqline + maxHeaderBytes < n → n < head.length → Oversized head rest) ∧
      (n = head.length → Unframed head → rest = [])

theorem Oversized.not_unframed (h : Oversized head rest) : ¬Unframed head := by
  rintro ⟨req,hp,-,hc⟩
  simp only [Oversized,hp,hc] at h
  obtain ⟨n,hn,-⟩ := h
  cases hn

theorem decided_none (h : decided u = none) : parse u = .incomplete := by
  unfold decided at h
  split at h
  · assumption
  · cases h

theorem decided_some {st : Parsed} (h : decided u = some st) : parse u = st ∧ st ≠ .incomplete := by
  unfold decided at h
  split at h
  · cases h
  · rename_i hn
    cases h
    exact ⟨rfl,hn⟩

theorem parse_headless (h : splitHead u = none) :
    parse u = if maxReqline + maxHeaderBytes < u.length then .refused .tooLarge
      else .incomplete := by
  rw [parse,h]

def verdict (b : Bytes) : Parsed :=
  Growing.whole decided bufferSize (.refused .tooLarge) .incomplete b

theorem verdict_eq (b : Bytes) :
    verdict b = match parse b with
      | .incomplete => if bufferSize ≤ b.length then .refused .tooLarge else .incomplete
      | st => st := by
  unfold verdict Growing.whole decided
  cases parse b <;> rfl

theorem parse_head (hb : splitHead b = some (head,rest)) :
    parse b = match parseHead head with
      | .error r => .refused r
      | .ok req => withBody rest req := by
  cases h : parseHead head <;> simp only [parse,hb,h]

theorem verdict_tooLarge (hb : splitHead b = some (head,rest)) :
    .refused .tooLarge = verdict b ↔ Oversized head rest := by
  have hlen : b.length = head.length + rest.length := by
    rw [splitHead_eq hb,List.length_append]
  rw [verdict_eq,Oversized,parse_head hb]
  cases parseHead head with
  | error r =>
    simp only [Parsed.refused.injEq]
    exact eq_comm
  | ok req =>
    simp only [withBody]
    cases hc : req.contentLength with
    | none =>
      refine ⟨fun h => ?_,fun ⟨_,hn,_⟩ => nomatch hn⟩
      by_cases hr : req.method = .post ∧ rest ≠ [] <;> simp [hr] at h
    | some n =>
      by_cases h₁ : maxBody < n
      · simp only [h₁,if_true]
        exact ⟨fun _ => ⟨n,rfl,.inl h₁⟩,fun _ => trivial⟩
      by_cases h₂ : rest.length < n
      · by_cases h₃ : bufferSize ≤ b.length
        · simp only [h₁,h₂,h₃,if_true,if_false]
          exact ⟨fun _ => ⟨n,rfl,.inr ⟨h₂,hlen ▸ h₃⟩⟩,fun _ => trivial⟩
        · simp only [h₁,h₂,h₃,if_true,if_false]
          refine ⟨nofun,?_⟩
          rintro ⟨_,⟨⟩,h | ⟨-,h⟩⟩
          · exact absurd h h₁
          · exact absurd (hlen ▸ h) h₃
      · simp only [h₁,h₂,if_false]
        refine ⟨nofun,?_⟩
        rintro ⟨_,⟨⟩,h | ⟨h,-⟩⟩
        · exact absurd h h₁
        · exact absurd h h₂

theorem withBody_append {st : Parsed} (x : Bytes) (h : withBody rest req = st)
    (hn : st ≠ .incomplete) :
    withBody (rest ++ x) req = st ↔ (rest = [] → req.method = .post → req.contentLength = none →
      x = []) := by
  subst h
  simp only [withBody] at hn ⊢
  cases hc : req.contentLength with
  | some n =>
    rw [hc] at hn
    by_cases h₁ : maxBody < n
    · simp [h₁]
    by_cases h₂ : rest.length < n
    · simp [h₁,h₂] at hn
    have h₃ : ¬rest.length + x.length < n := by omega
    simp only [h₁,h₂,h₃,if_false,List.length_append,
      List.take_append_of_le_length (Nat.not_lt.mp h₂)]
    exact ⟨fun _ _ _ h => (nomatch h),fun _ => trivial⟩
  | none =>
    by_cases hm : req.method = .post
    · by_cases hr : rest = []
      · subst hr
        by_cases hx : x = [] <;> simp [hm,hx]
      · simp [hm,hr]
    · simp [hm]

theorem goodEnd_iff (hall : b.take bufferSize = u) : GoodEnd b n ↔
    ∀ head rest, splitHead u = some (head,rest) →
      (maxReqline + maxHeaderBytes < n → n < head.length → Oversized head rest) ∧
        (n = head.length → Unframed head → rest = []) := by
  rw [GoodEnd,hall]

theorem verdict_of_parse {st : Parsed} (h : parse b = st) (hn : st ≠ .incomplete) :
    verdict b = st := by
  rw [verdict_eq,h]
  cases st with
  | incomplete => exact absurd rfl hn
  | ok req => rfl
  | refused r => rfl

theorem early_verdict (hall : b.take bufferSize = all) (hp : u <+: all)
    (hs : splitHead u = none) (hlong : maxReqline + maxHeaderBytes < u.length) :
    .refused .tooLarge = verdict all ↔ GoodEnd b u.length := by
  rw [goodEnd_iff hall]
  cases hb : splitHead all with
  | none =>
    have hle := hp.length_le
    have hpar : parse all = .refused .tooLarge := by
      rw [parse_headless hb,if_pos (by omega)]
    rw [verdict_of_parse hpar nofun]
    exact ⟨fun _ _ _ h => (nomatch h),fun _ => rfl⟩
  | some x =>
    obtain ⟨head,rest⟩ := x
    have hlt := length_lt_head hb hp hs
    rw [verdict_tooLarge hb]
    constructor
    · rintro ho _ _ ⟨⟩
      exact ⟨fun _ _ => ho,fun h => by omega⟩
    · intro hg
      exact (hg head rest rfl).1 hlong hlt

theorem late_verdict {st : Parsed} (hall : b.take bufferSize = u ++ x)
    (hs : splitHead u = some (head,rest)) (hu : parse u = st) (hn : st ≠ .incomplete) :
    st = verdict (u ++ x) ↔ GoodEnd b u.length := by
  have hb := splitHead_append hs x
  have hlen : u.length = head.length + rest.length := by
    rw [splitHead_eq hs,List.length_append]
  have hgood : GoodEnd b u.length ↔ (rest = [] → Unframed head → x = []) := by
    rw [goodEnd_iff hall]
    constructor
    · intro hg hr hun
      have := (hg head _ hb).2 (by rw [hlen,hr]; rfl) hun
      exact (List.append_eq_nil_iff.mp this).2
    · intro hg head' rest' he
      cases hb.symm.trans he
      refine ⟨fun _ h => by omega,fun hl hun => ?_⟩
      have hr : rest = [] := List.length_eq_zero_iff.mp (by omega)
      rw [hr,hg hr hun]
      rfl
  rw [hgood]
  rw [parse_head hs] at hu
  have hx := parse_head hb
  cases hp : parseHead head with
  | error r =>
    rw [hp] at hu hx
    rw [verdict_of_parse hx nofun]
    refine ⟨fun _ _ ⟨_,hreq,_⟩ => ?_,fun _ => hu.symm⟩
    cases hp.symm.trans hreq
  | ok req =>
    rw [hp] at hu hx
    have hiff := withBody_append x hu hn
    by_cases hspec : rest = [] → req.method = .post → req.contentLength = none → x = []
    · rw [verdict_of_parse (hx.trans (hiff.mpr hspec)) hn]
      refine ⟨fun _ hr ⟨req',hreq,hm,hc⟩ => ?_,fun _ => rfl⟩
      cases hp.symm.trans hreq
      exact hspec hr hm hc
    · simp only [Classical.not_imp] at hspec
      obtain ⟨hr,hm,hc,hne⟩ := hspec
      subst hr
      have hbad : withBody ([] ++ x) req = .refused .bad := by simp [withBody,hc,hm,hne]
      have hok : st = .ok req := by
        rw [← hu]
        simp [withBody,hc]
      rw [verdict_of_parse (hx.trans hbad) nofun,hok]
      refine ⟨nofun,fun h => ?_⟩
      exact absurd (h rfl ⟨req,hp,hm,hc⟩) hne

theorem goodEnd_ends (b : Bytes) :
    Growing.Ends decided (verdict (b.take bufferSize)) (b.take bufferSize) (GoodEnd b) := by
  generalize hall : b.take bufferSize = all
  refine ⟨?_,?_,?_,?_⟩
  · intro u hp hu
    have hu := decided_none hu
    rw [goodEnd_iff hall]
    intro head rest hb
    cases hs : splitHead u with
    | none =>
      have hlt := length_lt_head hb hp hs
      rw [parse_headless hs] at hu
      split at hu
      · cases hu
      · exact ⟨fun h => by omega,fun h => by omega⟩
    | some x =>
      obtain ⟨head',rest'⟩ := x
      obtain ⟨x,rfl⟩ := hp
      cases (splitHead_append hs x).symm.trans hb
      rw [splitHead_eq hs,List.length_append]
      refine ⟨fun _ h => by omega,fun hl => ?_⟩
      have hr : rest' = [] := List.length_eq_zero_iff.mp (by omega)
      rintro ⟨req,hreq,hm,hc⟩
      rw [parse_head hs,hreq] at hu
      simp [withBody,hm,hc,hr] at hu
  · intro u st hp hu
    obtain ⟨hu,hst⟩ := decided_some hu
    cases hs : splitHead u with
    | none =>
      rw [parse_headless hs] at hu
      split at hu <;> cases hu
      · rename_i hlong
        exact early_verdict hall hp hs hlong
      · exact absurd rfl hst
    | some x =>
      obtain ⟨head,rest⟩ := x
      obtain ⟨x,rfl⟩ := hp
      exact late_verdict hall hs hu hst
  · intro u st n hp hu hg hn
    obtain ⟨hu,hst⟩ := decided_some hu
    rw [goodEnd_iff hall] at hg ⊢
    intro head rest hb
    obtain ⟨h₁,h₂⟩ := hg head rest hb
    cases hs : splitHead u with
    | none =>
      have hlt := length_lt_head hb hp hs
      rw [parse_headless hs] at hu
      split at hu
      · rename_i hlong
        have ho := h₁ hlong hlt
        exact ⟨fun _ _ => ho,fun _ hun => absurd hun ho.not_unframed⟩
      · exact absurd hu.symm hst
    | some x =>
      obtain ⟨head',rest'⟩ := x
      obtain ⟨x,rfl⟩ := hp
      cases (splitHead_append hs x).symm.trans hb
      have hlen : u.length = head.length + rest'.length := by
        rw [splitHead_eq hs,List.length_append]
      exact ⟨fun _ h => by omega,fun hl => h₂ (by omega)⟩
  · intro n hn
    rw [goodEnd_iff hall]
    intro head rest hb
    rw [splitHead_eq hb,List.length_append] at hn
    exact ⟨fun _ h => by omega,fun h _ => List.length_eq_zero_iff.mp (by omega)⟩

theorem decided_nil : decided [] = none := rfl

/-- Bytes that come in several reads are answered as in one exactly where each read ends at a
good place. -/
theorem readLoop_split_iff (reads : List Bytes) (h : ∀ r ∈ reads, r ≠ []) :
    readLoop reads = readLoop [reads.flatten] ↔
      ∀ pre, pre <+: reads → GoodEnd reads.flatten pre.flatten.length := by
  have he := goodEnd_ends reads.flatten
  rw [readLoop,readLoop,Growing.run_single he rfl decided_nil,
    Growing.run_iff he h rfl (Nat.zero_le _) decided_nil]
  simp only [List.length_nil,Nat.zero_add]

def cutTwice : List Bytes :=
  [ascii "POST /api/v1/pools/url HTTP/1.1\r\nContent-Le",ascii "ngth: 5\r\n\r\npo",ascii "ols"]

theorem readLoop_split_twice : readLoop cutTwice = readLoop [cutTwice.flatten] ∧
    ∀ pre, pre <+: cutTwice → GoodEnd cutTwice.flatten pre.flatten.length := by
  have h : readLoop cutTwice = readLoop [cutTwice.flatten] := by decide +kernel
  exact ⟨h,(readLoop_split_iff cutTwice (by decide)).mp h⟩

/-- A body without a length is refused where it comes with the request line, and ignored where
it comes after it. -/
theorem readLoop_not_always_split :
    ¬∀ reads : List Bytes, (∀ r ∈ reads, r ≠ []) → readLoop reads = readLoop [reads.flatten] := by
  intro hall
  have h := hall [ascii "POST /api/v1/quit HTTP/1.1\r\n\r\n",ascii "x"] (by decide)
  exact absurd h (by decide +kernel)

end VkMiner.Api
