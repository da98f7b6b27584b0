import VkMiner.Api.Fields
import VkMiner.Api.Routes
set_option autoImplicit false

/-! Which handler a request reaches, and with what token. -/

namespace VkMiner.Api

variable {head rest s p v t path : Bytes} {req : Request} {routes : List Route} {r : Route}
  {reads : List Bytes} {flags : Flags} {line : Bytes}

def crlf : Bytes := [cr,lf]

/-- The names and the scheme are compared without case, and blanks may precede a value. -/
structure BearerLine (line token : Bytes) : Prop where
  parts : ∃ name gap scheme gap', line = name ++ 58 :: (gap ++ (scheme ++ (gap' ++ token))) ∧
    name.map tolower = ascii "authorization" ∧ (∀ c ∈ gap, c = space ∨ c = 9) ∧
    scheme.map tolower = ascii "bearer " ∧ ∀ c ∈ gap', c = space ∨ c = 9

def Carries (head token : Bytes) : Prop :=
  ∃ pre line post, head = pre ++ crlf ++ line ++ crlf ++ post ∧ BearerLine line token

def Takes (r : Route) (m : Method) (path : Bytes) : Prop :=
  pathMatches r.path.val path = true ∧ r.method = verb m

def Selects (routes : List Route) (m : Method) (path : Bytes) (r : Route) : Prop :=
  ∃ pre post, routes = pre ++ r :: post ∧ Takes r m path ∧ ∀ r' ∈ pre, ¬Takes r' m path

theorem cstr_append (ht : 0 ∉ t) (h : s = [] ∨ s.head? = some 0) : cstr (t ++ s) = t := by
  induction t with
  | nil =>
    obtain rfl | h := h
    · rfl
    · cases s with
      | nil => rfl
      | cons c s =>
        obtain rfl : c = 0 := Option.some.inj h
        rfl
  | cons a t ih =>
    have ha : a ≠ 0 := fun he => ht (he ▸ List.mem_cons_self)
    have := ih fun hm => ht (List.mem_cons_of_mem _ hm)
    rw [cstr] at this ⊢
    rw [List.cons_append,List.takeWhile_cons,if_pos (by simpa using ha),this]

theorem cstr_split (s : Bytes) : 0 ∉ cstr s ∧
    ∃ y, s = cstr s ++ y ∧ (y = [] ∨ y.head? = some 0) := by
  induction s with
  | nil => exact ⟨nofun,[],rfl,.inl rfl⟩
  | cons a s ih =>
    obtain ⟨hn,y,hs,hy⟩ := ih
    by_cases ha : a = 0
    · subst ha
      exact ⟨nofun,0 :: s,rfl,.inr rfl⟩
    · have hc : cstr (a :: s) = a :: cstr s := by
        rw [cstr,List.takeWhile_cons,if_pos (by simpa using ha)]
        rfl
      rw [hc]
      refine ⟨?_,y,congrArg (a :: ·) hs,hy⟩
      simp only [List.mem_cons,not_or]
      exact ⟨Ne.symm ha,hn⟩

theorem copyBounded_eq_iff (ht : 0 ∉ t) : copyBounded 256 v = t ↔ t.length < 256 ∧
    (v = t ∨ ∃ c extra, v = t ++ c :: extra ∧ (c = 0 ∨ t.length = 255)) := by
  rw [copyBounded]
  constructor
  · rintro rfl
    obtain ⟨-,y,hy,hor⟩ := cstr_split (v.take 255)
    generalize cstr (v.take 255) = t at hy ⊢
    have hv := List.take_append_drop 255 v
    have hlen := congrArg List.length hy
    simp only [List.length_take,List.length_append] at hlen
    refine ⟨by omega,?_⟩
    rw [hy,List.append_assoc] at hv
    obtain rfl | hor := hor
    · cases hd : v.drop 255 with
      | nil =>
        rw [hd] at hv
        exact .inl (by simpa using hv.symm)
      | cons c extra =>
        refine .inr ⟨c,extra,by rw [← hv,hd]; rfl,.inr ?_⟩
        have := congrArg List.length hd
        simp only [List.length_drop,List.length_cons,List.length_nil] at this hlen
        omega
    · cases y with
      | nil => cases hor
      | cons c y =>
        exact .inr ⟨c,y ++ v.drop 255,hv.symm,.inl (Option.some.inj hor)⟩
  · rintro ⟨hl,rfl | ⟨c,extra,rfl,hor⟩⟩
    · rw [List.take_of_length_le (by omega)]
      have := cstr_append ht (.inl rfl : [] = [] ∨ _)
      rwa [List.append_nil] at this
    · rw [List.take_append,List.take_of_length_le (by omega)]
      refine cstr_append ht ?_
      by_cases hz : 256 - 1 - t.length = 0
      · exact .inl (by rw [hz]; rfl)
      · obtain rfl : c = 0 := hor.resolve_right (by omega)
        obtain ⟨n,hn⟩ := Nat.exists_eq_succ_of_ne_zero hz
        exact .inr (by rw [hn]; rfl)

theorem copyBounded_whole {n : Nat} (hs : 0 ∉ s) (hl : s.length < n) : copyBounded n s = s := by
  rw [copyBounded,List.take_of_length_le (by omega)]
  have := cstr_append hs (.inl rfl : [] = [] ∨ _)
  rwa [List.append_nil] at this

theorem percentDecode_zero (h : percentDecode s = some p) : 0 ∈ p ↔ 0 ∈ s := by
  fun_induction percentDecode s generalizing p with
  | case1 =>
    cases h
    exact Iff.rfl
  | case2 => cases h
  | case3 a b rest hi lo hlo hhi hz ih =>
    obtain ⟨q,hq,rfl⟩ := Option.map_eq_some_iff.mp h
    have hzero : hexval 0 = none := rfl
    have ha : (0 : UInt8) ≠ a := by
      rintro rfl
      cases hzero.symm.trans hhi
    have hb : (0 : UInt8) ≠ b := by
      rintro rfl
      cases hzero.symm.trans hlo
    have hp : (0 : UInt8) ≠ 37 := by decide
    simp only [List.mem_cons,ih hq,ha,hb,hp,Ne.symm hz,false_or]
  | case4 => cases h
  | case5 => cases h
  | case6 c s hc ih =>
    obtain ⟨q,hq,rfl⟩ := Option.map_eq_some_iff.mp h
    simp only [List.mem_cons,ih hq]

theorem mem_dropWhile_ne {l : Bytes} : 0 ∈ l.dropWhile (· == 47) ↔ 0 ∈ l := by
  induction l with
  | nil => exact Iff.rfl
  | cons a l ih =>
    rw [List.dropWhile_cons]
    split
    · rename_i ha
      have h0 : (0 : UInt8) ≠ a := by
        rintro rfl
        cases ha
      rw [ih,List.mem_cons]
      exact ⟨.inr,fun h => h.resolve_left h0⟩
    · exact Iff.rfl

theorem trimSlashes_zero : 0 ∈ trimSlashes p ↔ 0 ∈ p := by
  cases p with
  | nil => exact Iff.rfl
  | cons c p =>
    simp only [trimSlashes,List.mem_cons,List.mem_reverse,mem_dropWhile_ne]

theorem trimSlashes_last (h : p.head? = some 47) :
    trimSlashes p = [47] ∨ (trimSlashes p).getLast? ≠ some 47 := by
  cases p with
  | nil => cases h
  | cons c p =>
    obtain rfl : c = 47 := Option.some.inj h
    simp only [trimSlashes]
    cases hd : p.reverse.dropWhile (· == 47) with
    | nil => exact .inl rfl
    | cons a l =>
      refine .inr ?_
      have hne : p.reverse.dropWhile (· == 47) ≠ [] := by simp [hd]
      have := List.head_dropWhile_not (· == 47) hne
      simp only [hd,List.head_cons,beq_eq_false_iff_ne] at this
      simpa [List.getLast?_cons] using this

theorem percentDecode_root (h : percentDecode s = some p) (hs : s.head? = some 47) :
    p.head? = some 47 := by
  cases s with
  | nil => cases hs
  | cons c s =>
    obtain rfl : c = 47 := Option.some.inj hs
    unfold percentDecode at h
    rw [if_neg (by decide)] at h
    obtain ⟨q,-,rfl⟩ := Option.map_eq_some_iff.mp h
    rfl

theorem pathMatches_root (pattern : Bytes) : pathMatches pattern [47] = false := by
  rw [pathMatches]
  split
  · rename_i h
    cases pattern with
    | nil => cases h
    | cons c pattern => simp
  · rename_i h
    by_contra hp
    obtain rfl : pattern = [47] := by simpa using hp
    exact h rfl

theorem route_root (routes : List Route) (h : req.path = [47]) :
    route routes false req = .error 404 := by
  induction routes with
  | nil => rfl
  | cons r routes ih =>
    rw [route,h,pathMatches_root]
    exact ih

theorem route_ok {seen : Bool} (h : route routes seen req = .ok r) :
    Selects routes req.method req.path r ∧ r.available = true := by
  induction routes generalizing seen with
  | nil => cases h
  | cons r' routes ih =>
    have hnext : ¬Takes r' req.method req.path → ∀ {seen}, route routes seen req = .ok r →
        Selects (r' :: routes) req.method req.path r ∧ r.available = true := by
      intro hn seen h
      obtain ⟨⟨pre,post,he,ht,hpre⟩,ha⟩ := ih h
      refine ⟨⟨r' :: pre,post,by rw [he]; rfl,ht,?_⟩,ha⟩
      intro q hq
      obtain rfl | hq := List.mem_cons.mp hq
      · exact hn
      · exact hpre q hq
    rw [route] at h
    split at h
    · rename_i hp
      exact hnext (fun ht => by simp [ht.1] at hp) h
    rename_i hp
    split at h
    · rename_i hm
      exact hnext (fun ht => hm ht.2) h
    rename_i hm
    split at h
    · cases h
    · rename_i ha
      cases h
      refine ⟨⟨[],routes,rfl,⟨by simpa using hp,not_not.mp hm⟩,nofun⟩,by simpa using ha⟩

theorem ciEqual_map {a b : Bytes} (h : ciEqual a b = true) (hl : b.length ≤ a.length) :
    (a.take b.length).map tolower = b.map tolower := by
  induction a generalizing b with
  | nil =>
    obtain rfl : b = [] := List.length_eq_zero_iff.mp (Nat.le_zero.mp hl)
    rfl
  | cons x a ih =>
    cases b with
    | nil => rfl
    | cons y b =>
      simp only [ciEqual,List.zip_cons_cons,List.all_cons,Bool.and_eq_true,beq_iff_eq] at h
      have := ih h.2 (Nat.le_of_succ_le_succ hl)
      rw [List.length_cons,List.take_succ_cons,List.map_cons,List.map_cons,h.1.1,this]

theorem skipWs_split (s : Bytes) :
    ∃ gap, s = gap ++ skipWs s ∧ ∀ c ∈ gap, c = space ∨ c = 9 := by
  refine ⟨s.takeWhile fun c => c == space || c == 9,
    (List.takeWhile_append_dropWhile).symm,fun c hc => ?_⟩
  have := List.all_eq_true.mp List.all_takeWhile c hc
  simpa using this

theorem bearerLine_parts (h : bearerLine line = some v) : BearerLine line v := by
  simp only [bearerLine] at h
  split at h
  · cases h
  rename_i hcolon
  split at h
  · rename_i hname
    simp only [bearerOf] at h
    split at h
    · rename_i hb
      obtain ⟨gap,hgap,hgb⟩ := skipWs_split
        (line.drop ((line.takeWhile (· ≠ 58)).length + 1))
      generalize skipWs (line.drop ((line.takeWhile (· ≠ 58)).length + 1)) = w at h hb hgap
      obtain ⟨gap',hgap',hgb'⟩ := skipWs_split (w.drop 7)
      cases h
      simp only [isName,Bool.and_eq_true,beq_iff_eq] at hname
      simp only [startsWith,Bool.and_eq_true,decide_eq_true_eq] at hb
      have hn := ciEqual_map hname.2 (Nat.le_of_eq hname.1.symm)
      have hs := ciEqual_map hb.2.2 hb.2.1
      rw [← hname.1,List.take_length] at hn
      refine ⟨line.takeWhile (· ≠ 58),gap,w.take 7,gap',?_,hn,hgb,hs,hgb'⟩
      rw [← hgap',List.take_append_drop,← hgap]
      exact takeWhile_split (takeWhile_length_lt hcolon)
    · cases h
  · cases h

theorem head_ended {u : Bytes} (h : splitHead u = some (head,rest)) :
    Ended head ∧ ¬head.length ≤ 2 := by
  have hl := four_le_head h
  refine ⟨.inr ?_,by omega⟩
  induction u generalizing head with
  | nil => cases h
  | cons a u ih =>
    unfold splitHead at h
    split at h
    · rename_i he
      cases he
      split at h
      · rename_i hc
        cases h
        obtain ⟨rfl,rfl,rfl,rfl⟩ := hc
        exact ⟨[cr,lf],rfl⟩
      · obtain ⟨⟨head',rest'⟩,hs,he⟩ := Option.map_eq_some_iff.mp h
        cases he
        obtain ⟨x,hx⟩ := ih hs (four_le_head hs)
        exact ⟨a :: x,congrArg (a :: ·) hx⟩
    · cases h

theorem kept_line {u : Bytes} {l : HeaderLine} (hs : splitHead u = some (head,rest))
    (h : kept head = some (l,v)) : BearerLine l.text v ∧
      ∃ pre post, head = pre ++ cr :: l.before :: (l.text ++ cr :: l.after :: post) := by
  obtain ⟨hend,hl⟩ := head_ended hs
  have hm := List.mem_of_getLast? h
  obtain ⟨l',hl',hb⟩ := List.mem_filterMap.mp hm
  obtain ⟨w,hw,he⟩ := Option.map_eq_some_iff.mp hb
  cases he
  refine ⟨bearerLine_parts hw,?_⟩
  obtain ⟨pre,post,hd⟩ := headerLines_mem (hend.next _) hl'
  have hsplit := line_split (hend.line_length hl)
  refine ⟨head.takeWhile (· ≠ cr) ++ pre,post,?_⟩
  rw [List.append_assoc,← hd]
  exact hsplit

/-- Of the bytes of one connection, for every route table: the handler that runs is the one for the
method and the path that were sent, with the grants and the token that it takes, and without the
token the answer tells nothing of the routes. -/
structure Lawful (flags : Flags) (reads : List Bytes) : Prop where
  selects : ∀ routes r req, serveOne flags routes reads = .runs r req →
    ∃ head rest path, splitHead reads.flatten = some (head,rest) ∧ decodedPath head = some path ∧
      Selects routes (methodOf (sentMethod head)) path r
  covered : ∀ routes r req, serveOne flags routes reads = .runs r req →
    r.priv.level ≤ flags.config.granted.level ∧ (r.priv = .control → flags.control = true)
  token : ∀ t ∈ flags.config.asked, ∀ routes r req, serveOne flags routes reads = .runs r req →
    ∃ head rest, splitHead reads.flatten = some (head,rest) ∧ Carries head t.val
  hidden : ∀ t ∈ flags.config.asked,
    (∀ head rest, splitHead reads.flatten = some (head,rest) → ¬Carries head t.val) →
      ∀ routes routes', serveOne flags routes reads = serveOne flags routes' reads

/-- The kept value is not the token on a line of its own, yet its buffer reads back as the
token: a NUL follows, or the token fills the buffer and anything follows, or a bare carriage
return begins or ends the line. -/
def Mangled (head token : Bytes) : Prop :=
  ∃ l v, kept head = some (l,v) ∧ token.length < 256 ∧
    (v = token ∧ (l.before ≠ lf ∨ l.after ≠ lf) ∨
      ∃ c extra, v = token ++ c :: extra ∧ (c = 0 ∨ token.length = 255))

/-- A request for anything but the root, and no preflight, has no NUL in its path once it is past
the token, and no mangled token unless another line carries it. -/
def Straight (flags : Flags) (reads : List Bytes) : Prop :=
  ∀ req head rest, readLoop reads = .ok req → splitHead reads.flatten = some (head,rest) →
    ¬(req.method = .options ∧ flags.cors = true) → req.path ≠ [47] →
      (∀ t ∈ flags.config.asked, Mangled head t.val → Carries head t.val) ∧
        ((∀ t ∈ flags.config.asked, req.authBearer = t.val) → 0 ∉ sentPath head)

/-- The buffer reads back the token where the value is the token, or is mangled. -/
theorem Sent.accepted (h : Sent head req) {t : NulFree} (hne : t.val ≠ []) :
    req.authBearer = t.val ↔ Mangled head t.val ∨
      ∃ l, kept head = some (l,t.val) ∧ t.val.length < 256 ∧ l.before = lf ∧ l.after = lf := by
  rw [h.bearer,Mangled]
  cases kept head with
  | none =>
    refine ⟨fun he => absurd he.symm hne,?_⟩
    rintro (⟨_,_,⟨⟩,-⟩ | ⟨_,⟨⟩,-⟩)
  | some x =>
    obtain ⟨l,v⟩ := x
    change copyBounded 256 v = t.val ↔ _
    rw [copyBounded_eq_iff t.2]
    constructor
    · rintro ⟨hl,rfl | hex⟩
      · by_cases hlf : l.before = lf ∧ l.after = lf
        · exact .inr ⟨l,rfl,hl,hlf⟩
        · exact .inl ⟨l,_,rfl,hl,.inl ⟨rfl,by rwa [← not_and_or]⟩⟩
      · exact .inl ⟨l,v,rfl,hl,.inr hex⟩
    · rintro (⟨_,_,⟨⟩,hl,hor⟩ | ⟨_,⟨⟩,hl,-⟩)
      · exact ⟨hl,hor.imp And.left id⟩
      · exact ⟨hl,.inl rfl⟩

theorem Sent.carries (h : Sent head req) (hs : splitHead s = some (head,rest)) {t : NulFree}
    (hne : t.val ≠ []) (hacc : req.authBearer = t.val)
    (hm : Mangled head t.val → Carries head t.val) : Carries head t.val := by
  obtain hm' | ⟨l,hk,-,hb,ha⟩ := (h.accepted hne).mp hacc
  · exact hm hm'
  · obtain ⟨hline,pre,post,hd⟩ := kept_line hs hk
    refine ⟨pre,l.text,post,?_,hline⟩
    rw [hd,hb,ha]
    simp [crlf]

theorem Sent.decoded (h : Sent head req) (hz : 0 ∉ sentPath head) :
    decodedPath head = some req.path := by
  obtain ⟨p,hp,hpath⟩ := h.path
  rw [copyBounded_whole hz h.short] at hp
  rw [decodedPath,hp,hpath]
  rfl

theorem Sent.path_nulFree (h : Sent head req) : 0 ∉ req.path := by
  obtain ⟨p,hp,hpath⟩ := h.path
  rw [hpath,trimSlashes_zero,percentDecode_zero hp]
  exact (cstr_split _).1

theorem Sent.path_last (h : Sent head req) : req.path = [47] ∨ req.path.getLast? ≠ some 47 := by
  obtain ⟨p,hp,hpath⟩ := h.path
  rw [hpath]
  refine trimSlashes_last (percentDecode_root hp ?_)
  have := h.rooted
  cases hs : sentPath head with
  | nil =>
    rw [hs] at this
    cases this
  | cons c s =>
    rw [hs] at this
    obtain rfl : c = 47 := Option.some.inj this
    rfl

theorem serveOne_ok (h : readLoop reads = .ok req) :
    serveOne flags routes reads = gates flags.config routes req := by
  rw [serveOne,serve,h]

theorem serveOne_error (h : ∀ req, readLoop reads ≠ .ok req) (routes' : List Route) :
    serveOne flags routes reads = serveOne flags routes' reads := by
  simp only [serveOne,serve]
  cases hr : readLoop reads with
  | ok req => exact absurd hr (h req)
  | incomplete => rfl
  | refused r => cases r <;> rfl

theorem asked_ne {t : NulFree} (h : t ∈ flags.config.asked) : t.val ≠ [] := by
  have := (Option.filter_eq_some_iff.mp h).2
  simpa using this

theorem gates_runs {req' : Request} (h : gates flags.config routes req = .runs r req') :
    ¬(req.method = .options ∧ flags.cors = true) ∧
      (∀ t ∈ flags.config.asked, req.authBearer = t.val) ∧
      Selects routes req.method req.path r ∧ req.path ≠ [47] ∧
      r.priv.level ≤ flags.config.granted.level ∧ (r.priv = .control → flags.control = true) := by
  simp only [gates] at h
  split at h
  · cases h
  rename_i hpre
  split at h
  · cases h
  rename_i htok
  split at h
  · cases h
  rename_i r' hr
  split at h
  · cases h
  rename_i hctl
  split at h
  · cases h
  rename_i hlev
  cases h
  refine ⟨hpre,fun t ht => ?_,(route_ok hr).1,fun hroot => ?_,Nat.not_lt.mp hlev,fun hc => ?_⟩
  · by_contra hne
    refine htok ?_
    rw [Option.mem_def.mp ht]
    simpa using Ne.symm hne
  · cases hr.symm.trans (route_root routes hroot)
  · by_contra hno
    exact hctl ⟨hc,by simpa [Flags.config] using hno⟩

def routeFor (req : Request) (h : 0 ∉ req.path) : Route := ⟨verb req.method,⟨req.path,h⟩,.read,true⟩

theorem pathMatches_exact {pattern : Bytes} (h : pattern.getLast? ≠ some 47) :
    pathMatches pattern path = true ↔ path = pattern := by
  rw [pathMatches,if_neg h,beq_iff_eq]
  exact eq_comm

theorem gates_routeFor (hz : 0 ∉ req.path) (hlast : req.path.getLast? ≠ some 47)
    (hpre : ¬(req.method = .options ∧ flags.cors = true))
    (htok : ∀ t ∈ flags.config.asked, req.authBearer = t.val) :
    gates flags.config [routeFor req hz] req = .runs (routeFor req hz) req := by
  have hask : flags.config.asked.any (·.val ≠ req.authBearer) = false := by
    cases ha : flags.config.asked with
    | none => rfl
    | some t => simpa using (htok t ha).symm
  have hroute : route [routeFor req hz] false req = .ok (routeFor req hz) := by
    have hm : pathMatches (routeFor req hz).path.val req.path = true :=
      (pathMatches_exact hlast).mpr rfl
    rw [route,hm]
    simp [routeFor]
  have hpre' : ¬(req.method = .options ∧ flags.config.cors = true) := hpre
  rw [gates,if_neg hpre',hask,hroute]
  simp [routeFor,Priv.level]

theorem Straight.lawful (h : Straight flags reads) : Lawful flags reads := by
  have hruns : ∀ routes r req, serveOne flags routes reads = .runs r req →
      ∃ req₀ head rest, splitHead reads.flatten = some (head,rest) ∧ Sent head req₀ ∧
        readLoop reads = .ok req₀ ∧ gates flags.config routes req₀ = .runs r req := by
    intro routes r req hr
    cases hl : readLoop reads with
    | ok req₀ =>
      obtain ⟨head,rest,hs,hsent⟩ := readLoop_ok hl
      exact ⟨req₀,head,rest,hs,hsent,rfl,(serveOne_ok hl).symm.trans hr⟩
    | incomplete =>
      simp only [serveOne,serve,hl] at hr
      cases hr
    | refused e =>
      simp only [serveOne,serve,hl] at hr
      cases e <;> cases hr
  refine ⟨?_,?_,?_,?_⟩
  · intro routes r req hr
    obtain ⟨req₀,head,rest,hs,hsent,hl,hg⟩ := hruns routes r req hr
    obtain ⟨hpre,htok,hsel,hroot,-,-⟩ := gates_runs hg
    have hz := (h req₀ head rest hl hs hpre hroot).2 htok
    exact ⟨head,rest,_,hs,hsent.decoded hz,hsent.method ▸ hsel⟩
  · intro routes r req hr
    obtain ⟨req₀,-,-,-,-,-,hg⟩ := hruns routes r req hr
    obtain ⟨-,-,-,-,hlev,hctl⟩ := gates_runs hg
    exact ⟨hlev,hctl⟩
  · intro t ht routes r req hr
    obtain ⟨req₀,head,rest,hs,hsent,hl,hg⟩ := hruns routes r req hr
    obtain ⟨hpre,htok,-,hroot,-,-⟩ := gates_runs hg
    have hm := (h req₀ head rest hl hs hpre hroot).1 t ht
    exact ⟨head,rest,hs,hsent.carries hs (asked_ne ht) (htok t ht) hm⟩
  · intro t ht hno routes routes'
    by_cases hok : ∃ req, readLoop reads = .ok req
    · obtain ⟨req,hl⟩ := hok
      obtain ⟨head,rest,hs,hsent⟩ := readLoop_ok hl
      rw [serveOne_ok hl,serveOne_ok hl]
      by_cases hpre : req.method = .options ∧ flags.config.cors = true
      · rw [gates,gates,if_pos hpre,if_pos hpre]
      by_cases hacc : req.authBearer = t.val
      · -- past the token, so the path is the root, which no table has
        have hroot : req.path = [47] := by
          by_contra hroot
          have hm := (h req head rest hl hs hpre hroot).1 t ht
          exact hno head rest hs (hsent.carries hs (asked_ne ht) hacc hm)
        rw [gates,gates,route_root routes hroot,route_root routes' hroot]
      · have hask : flags.config.asked.any (·.val ≠ req.authBearer) = true := by
          rw [Option.mem_def.mp ht]
          simpa using Ne.symm hacc
        rw [gates,gates,if_neg hpre,if_neg hpre,if_pos hask,if_pos hask]
    · exact serveOne_error (fun req hr => hok ⟨req,hr⟩) routes'

theorem Lawful.straight (h : Lawful flags reads) : Straight flags reads := by
  intro req head rest hl hs hpre hroot
  obtain ⟨head',rest',hs',hsent⟩ := readLoop_ok hl
  cases hs.symm.trans hs'
  have hz := hsent.path_nulFree
  have hlast := hsent.path_last.resolve_left hroot
  have hall : ∀ {head' rest'}, splitHead reads.flatten = some (head',rest') → head' = head := by
    intro head' rest' he
    cases hs.symm.trans he
    rfl
  refine ⟨fun t ht hm => ?_,fun htok hzero => ?_⟩
  · by_contra hno
    have hacc : req.authBearer = t.val := (hsent.accepted (asked_ne ht)).mpr (.inl hm)
    have htok : ∀ t' ∈ flags.config.asked, req.authBearer = t'.val := by
      intro t' ht'
      cases (Option.mem_def.mp ht).symm.trans ht'
      exact hacc
    have hsame := h.hidden t ht (fun head' rest' he => hall he ▸ hno) [routeFor req hz] []
    rw [serveOne_ok hl,serveOne_ok hl,gates_routeFor hz hlast hpre htok] at hsame
    obtain ⟨-,-,hsel,-⟩ := gates_runs hsame.symm
    obtain ⟨pre,post,he,-⟩ := hsel
    cases pre <;> cases he
  · have hruns : serveOne flags [routeFor req hz] reads = .runs (routeFor req hz) req := by
      rw [serveOne_ok hl,gates_routeFor hz hlast hpre htok]
    obtain ⟨head',rest',path,he,hd,pre,post,hp,ht,-⟩ := h.selects _ _ _ hruns
    obtain rfl := hall he
    obtain rfl := (pathMatches_exact hlast).mp ht.1
    obtain ⟨q,hq,hqp⟩ := Option.map_eq_some_iff.mp hd
    refine hz ?_
    rw [← hqp,trimSlashes_zero,percentDecode_zero hq]
    exact hzero

/-- Every handler that runs was selected, permitted and authorised, and a request without the
token learns nothing of the routes, exactly where no NUL hides in the path and no token is
mangled. -/
theorem lawful_iff (flags : Flags) (reads : List Bytes) :
    Lawful flags reads ↔ Straight flags reads :=
  ⟨Lawful.straight,Straight.lawful⟩

theorem Carries.infix (h : Carries head t) : t ++ crlf <:+: head := by
  obtain ⟨pre,line,post,hd,⟨name,gap,scheme,gap',hl,-⟩⟩ := h
  refine ⟨pre ++ crlf ++ (name ++ 58 :: (gap ++ (scheme ++ gap'))),post,?_⟩
  rw [hd,hl]
  simp [List.append_assoc]

def metrics : Route := ⟨.get,⟨ascii "/metrics",by decide⟩,.read,true⟩

def sneaked : Bytes :=
  ascii "GET /metrics HTTP/1.1\r\nAuthorization: Bearer secret\x00x\r\n\r\n"

theorem not_always_lawful : ¬∀ (flags : Flags) (reads : List Bytes), Lawful flags reads := by
  intro hall
  have h := hall ⟨some ⟨ascii "secret",by decide⟩,false,false,false⟩ [sneaked]
  obtain ⟨head,rest,hs,hc⟩ := h.token ⟨ascii "secret",by decide⟩ (by decide +kernel) [metrics] metrics
    ⟨.get,ascii "GET",ascii "/metrics",[],[],ascii "secret",[],[],false,false,none,false⟩
    (by decide +kernel)
  have hsplit : splitHead [sneaked].flatten = some (sneaked,[]) := by decide +kernel
  cases hsplit.symm.trans hs
  exact absurd hc.infix (by decide +kernel)

end VkMiner.Api
