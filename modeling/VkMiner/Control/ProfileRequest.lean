import VkMiner.Control.Journal
import VkMiner.Control.ProfileBody
set_option autoImplicit false

/-! POST /control/profile beside the other routes: what an answered request leaves
behind, and under which algorithm the pool it named is mined. -/

namespace VkMiner.Control
open Machine Runs

abbrev Pair := CStr × CStr

def NamedRun.of (run : Bool) : NamedRun :=
  if run then ⟨.running,by decide⟩ else ⟨.paused,by decide⟩

namespace ProfileBody

def pair (b : ProfileBody) : Option Pair := b.pool.bind (fun p => p.algo.map (fun a => (a,p.url)))

def call (b : ProfileBody) (cur : CStr) : Option Event :=
  match b.pool with
  | some p =>
    match p.algo with
    | some a =>
      if a ≠ cur then
        some (.algoRequest a p.url p.user p.pass b.waitMs (b.run.map NamedRun.of))
      else some (.poolRequest p.url p.user p.pass b.waitMs (b.run.map NamedRun.of))
    | none => some (.poolRequest p.url p.user p.pass b.waitMs (b.run.map NamedRun.of))
  | none => b.run.map (fun run => .request (NamedRun.of run).val b.waitMs)

def wanted (b : ProfileBody) (t : Triple) : Triple where
  profile :=
    match b.pool with
    | none => t.profile
    | some p => ⟨p.algo.getD t.profile.algo,p.url,
        if p.user.isEmpty then t.profile.user else p.user,
        if p.pass.isEmpty then t.profile.pass else p.pass⟩
  run :=
    match b.run with
    | none => t.run
    | some run => if run then .running else .paused

end ProfileBody

def controlHttpStatus : ControlResult → Nat
  | .ok => 200
  | .accepted => 202
  | .busy => 409
  | .timeout => 409
  | .throttled => 429
  | .disabled => 403
  | .invalid => 400

def notApplied : CStr := ascii "the profile was not applied"

/-- How far a request for a profile has got. The last argument of the last two is the
number of the change it posted. -/
inductive Handler where
  | refused (why : CStr)
  | parsed (b : ProfileBody)
  | saw (b : ProfileBody) (state : ControlState)
  | read (b : ProfileBody) (state : ControlState) (algo : CStr)
  | called (b : ProfileBody) (caller : Nat) (change : Option Nat)
  | answered (b : ProfileBody) (status : Nat) (why : CStr) (change : Option Nat)

structure Routes where
  journal : Journal
  named : List (Option Pair)
  handlers : List Handler

inductive RouteEvent where
  | arrives (body : Option (Except CStr Json))
  | sees (h : Nat)
  | reads (h : Nat)
  | calls (h : Nat)
  | replies (h : Nat)
  | barrier (e : Event)

/-- No other route names an algorithm, nor a run state with a pool. -/
def Event.elsewhere : Event → Bool
  | .algoRequest _ _ _ _ _ _ => false
  | .poolRequest _ _ _ _ want => want.isNone
  | _ => true

namespace Routes

def machine (r : Routes) : Machine := r.journal.machine

def put (r : Routes) (h : Nat) (x : Handler) : Routes := { r with handlers := r.handlers.set h x }

def barrier (opt : Options) (r : Routes) (e : Event) (pair : Option Pair) : Option Routes :=
  (r.journal.step opt e).map (fun j => { r with
    journal := j
    named := if j.asked.length = r.journal.asked.length then r.named else r.named ++ [pair] })

def changeTo (r r' : Routes) : Option Nat :=
  if r'.journal.asked.length = r.journal.asked.length then none
  else some r.journal.asked.length

/-- The answer to a call: a success carries the state as it is by then, and a refusal
for coming too soon how long is left. -/
def reply (opt : Options) (r : Routes) (h : Nat) (b : ProfileBody) (rc : ControlResult)
    (why : CStr) (change : Option Nat) : Option Routes :=
  let http := controlHttpStatus rc
  let text := if http < 400 then [] else if why.isEmpty then notApplied else why
  if http < 400 ∨ http = 429 then
    (r.barrier opt .status none).map (fun r => r.put h (.answered b http text change))
  else some (r.put h (.answered b http text change))

def step (opt : Options) (r : Routes) : RouteEvent → Option Routes
  | .arrives body =>
    match (parseBody body).bind parseProfile with
    | .error why => some { r with handlers := r.handlers ++ [.refused why] }
    | .ok b => some { r with handlers := r.handlers ++ [.parsed b] }
  | .sees h =>
    match r.handlers[h]? with
    | some (.parsed b) =>
      (r.barrier opt .status none).map (fun r => r.put h (.saw b r.machine.state))
    | _ => none
  | .reads h =>
    match r.handlers[h]? with
    | some (.saw b state) => some (r.put h (.read b state r.machine.profile.algo))
    | _ => none
  | .calls h =>
    match r.handlers[h]? with
    | some (.read b state algo) =>
      if state = .switching then some (r.put h (.answered b 409 alreadyInProgress none))
      else
        match b.call algo with
        | none => r.reply opt h b .ok [] none
        | some e =>
          (r.barrier opt e b.pair).map (fun r' =>
            r'.put h (.called b r.machine.callers.length (r.changeTo r')))
    | _ => none
  | .replies h =>
    match r.handlers[h]? with
    | some (.called b caller change) =>
      match (r.machine.callers[caller]?).bind Caller.answer with
      | none => none
      | some (rc,why) => r.reply opt h b rc why change
    | _ => none
  | .barrier e => if e.elsewhere then r.barrier opt e none else none

def start (n : Nat) (p : Profile) (hook : Bool) : Routes := ⟨.start n p hook,[],[]⟩

end Routes

/-- Which named pair the pool in force is from, and which one the recorded profile;
none when the pool was not named with an algorithm. -/
structure Source where
  inForce : Option Pair
  recorded : Option Pair
  deriving DecidableEq

def Source.next (s : Source) (a : Ask) (pair : Option Pair) (landed : Bool) : Source :=
  let recorded := if a = .switch then s.inForce else s.recorded
  let brought :=
    match a with
    | .run => s.inForce
    | .restore => recorded
    | .retarget | .switch => pair
  ⟨if landed then brought else s.inForce,recorded⟩

/-- The source of what is in force once the first `k` changes have ended. -/
def source (asked : List Ask) (named : List (Option Pair)) (landed : Nat → Bool) : Nat → Source
  | 0 => ⟨none,none⟩
  | k+1 => (source asked named landed k).next (asked.getD k .run) (named.getD k none) (landed k)

def Routes.source (r : Routes) : Source :=
  Control.source r.journal.asked r.named r.machine.landedAt r.journal.asked.length

def Matches (p : Profile) : Option Pair → Prop
  | none => True
  | some q => p.algo = q.1 ∧ p.url = q.2

instance (p : Profile) : (o : Option Pair) → Decidable (Matches p o)
  | none => isTrue trivial
  | some q => inferInstanceAs (Decidable (p.algo = q.1 ∧ p.url = q.2))

/-- A request that named both and was answered with success has left what it named, or
what was there before. -/
def Handler.Settled (m : Machine) : Handler → Prop
  | .answered b status _ (some k) =>
    (status = 200 ∨ status = 202) → b.pair.isSome = true →
      ∀ x ∈ m.endings, x.mutation = k →
        m.posted[k]?.map (fun P => if x.outcome.isLanded then b.wanted P.before else P.before) =
          some x.triple
  | _ => True

instance (m : Machine) : (h : Handler) → Decidable (h.Settled m)
  | .answered b status _ (some k) => inferInstanceAs (Decidable
      ((status = 200 ∨ status = 202) → b.pair.isSome = true → ∀ x ∈ m.endings, x.mutation = k →
        m.posted[k]?.map (fun P => if x.outcome.isLanded then b.wanted P.before else P.before) =
          some x.triple))
  | .answered _ _ _ none => isTrue trivial
  | .refused _ => isTrue trivial
  | .parsed _ => isTrue trivial
  | .saw _ _ => isTrue trivial
  | .read _ _ _ => isTrue trivial
  | .called _ _ _ => isTrue trivial

structure PairsKept (r : Routes) : Prop where
  handlers : ∀ h ∈ r.handlers, h.Settled r.machine
  rest : r.machine.state ≠ .switching → Matches r.machine.profile r.source.inForce

instance (r : Routes) : Decidable (PairsKept r) :=
  decidable_of_iff (_ ∧ _) ⟨fun h => ⟨h.1,h.2⟩,fun h => ⟨h.handlers,h.rest⟩⟩

def RouteEvent.act (r : Routes) : RouteEvent → Option Event
  | .sees _ | .replies _ => some .status
  | .calls h =>
    match r.handlers[h]? with
    | some (.read b state algo) => if state = .switching then none else some ((b.call algo).getD .status)
    | _ => none
  | .barrier e => some e
  | _ => none

/-- A request that goes the pool's way, because it names the algorithm it has read, finds
that algorithm in force if it gets as far as posting. -/
def readsTrue (opt : Options) (r : Routes) : RouteEvent → Bool
  | .calls h =>
    match r.handlers[h]? with
    | some (.read b _ algo) =>
      let m := r.machine.catchUp opt
      !(b.pair.any (fun q => q.1 = algo)) || m.mutating || m.retryAfterSLocked opt ≠ 0 ||
        m.profile.algo = algo
    | _ => true
  | _ => true

def ReadsTrue (opt : Options) (r : Routes) (e : RouteEvent) : Prop :=
  (e.act r).all (fun a => decide (InOrder opt r.machine a)) = true ∧ readsTrue opt r e = true

instance (opt : Options) (r : Routes) (e : RouteEvent) : Decidable (ReadsTrue opt r e) :=
  inferInstanceAs (Decidable (_ ∧ _))

def Handler.Aims (m : Machine) : Handler → Prop
  | .called b _ (some k) | .answered b _ _ (some k) =>
    b.pair.isSome = true → ∃ P, m.posted[k]? = some P ∧ P.target = b.wanted P.before
  | _ => True

/-- The source of what each change would bring, and of what is on record. -/
structure Sourced (asked : List Ask) (named : List (Option Pair)) (m : Machine) : Prop where
  before : ∀ k P, m.posted[k]? = some P →
    Matches P.before.profile (source asked named m.landedAt k).inForce
  target : ∀ k P, m.posted[k]? = some P →
    Matches P.target.profile ((source asked named m.landedAt k).next (asked.getD k .run)
      (named.getD k none) true).inForce
  record : m.canRestore = true →
    Matches m.prev (source asked named m.landedAt m.posted.length).recorded

structure Paired (p₀ : Profile) (r : Routes) : Prop where
  kept : Kept p₀ r.journal
  length : r.named.length = r.journal.asked.length
  aims : ∀ h ∈ r.handlers, h.Aims r.machine
  sourced : Sourced r.journal.asked r.named r.machine

variable {opt : Options} {r r' : Routes} {m m' m₁ : Machine} {e : Event} {p₀ : Profile}
  {asked asked' : List Ask} {named named' : List (Option Pair)} {b : ProfileBody} {k : Nat}
  {P : Mutation} {o : Option Pair} {j : Journal}

theorem source_congr {landed landed' : Nat → Bool} (ha : ∀ i < k, asked'.getD i .run = asked.getD i .run)
    (hn : ∀ i < k, named'.getD i none = named.getD i none) (hl : ∀ i < k, landed' i = landed i) :
    source asked' named' landed' k = source asked named landed k := by
  induction k with
  | zero => rfl
  | succ k ih =>
    have hk := Nat.lt_succ_self k
    rw [source,source,ih (fun i hi => ha i (by omega)) (fun i hi => hn i (by omega))
      (fun i hi => hl i (by omega)),ha k hk,hn k hk,hl k hk]

theorem recorded_congr {landed landed' : Nat → Bool} (hl : ∀ i, i+1 < k → landed' i = landed i) :
    (source asked named landed' k).recorded = (source asked named landed k).recorded := by
  cases k with
  | zero => rfl
  | succ k =>
    simp only [source,Source.next]
    rw [source_congr (fun _ _ => rfl) (fun _ _ => rfl) (fun i hi => hl i (by omega))]

theorem Sourced.atRest (h : Sourced asked named m) (hb : Books p₀ m) (hm : m.mutating = false)
    : Matches m.profile (source asked named m.landedAt m.posted.length).inForce := by
  have hlen : m.endings.length = m.posted.length := by
    rw [hb.endings_length,hm]
    rfl
  have htriple := (hb.atRest hm).triple
  cases hn : m.posted.length with
  | zero => trivial
  | succ k =>
    have hlast : m.endings.getLast? = m.endings[k]? := by
      rw [List.getLast?_eq_getElem?,hlen,hn]
      rfl
    have hlt : k < m.endings.length := by omega
    have hget := List.getElem?_eq_getElem hlt
    rw [hlast,hget,Option.map_some,Option.getD_some] at htriple
    obtain ⟨P,hP,hw⟩ := hb.whole _ (List.getElem_mem hlt)
    rw [hb.ending_number hget] at hP
    have hprofile : m.profile = m.endings[k].triple.profile := congrArg Triple.profile htriple
    have hland : m.landedAt k = m.endings[k].outcome.isLanded := by
      rw [hb.landedAt_eq,hget,Option.any_some]
    rw [source,hland,hprofile]
    unfold Ending.Whole at hw
    split at hw
    · rename_i hl
      rw [hl,hw.1]
      exact h.target k P hP
    · rename_i hl
      simp only [Source.next,hl,hw.1]
      exact h.before k P hP

theorem Sourced.same (h : Sourced asked named m) (hs : m'.saved = m.saved)
    (hl : ∀ i, i+1 < m.posted.length → m'.landedAt i = m.landedAt i) : Sourced asked named m' := by
  have hposted : m'.posted = m.posted := congrArg Saved.posted hs
  have hprev : m'.prev = m.prev := congrArg Saved.prev hs
  have hcan : m'.canRestore = m.canRestore := congrArg Saved.canRestore hs
  have hsource {k : Nat} {P : Mutation} (hP : m'.posted[k]? = some P) :
      source asked named m'.landedAt k = source asked named m.landedAt k := by
    have hk := (List.getElem?_eq_some_iff.mp hP).1
    rw [hposted] at hk
    exact source_congr (fun _ _ => rfl) (fun _ _ => rfl) (fun i hi => hl i (by omega))
  refine ⟨fun k P hP => ?_,fun k P hP => ?_,fun hc => ?_⟩
  · rw [hsource hP]
    exact h.before k P (hposted ▸ hP)
  · rw [hsource hP]
    exact h.target k P (hposted ▸ hP)
  · rw [hposted,hprev,recorded_congr hl]
    exact h.record (hcan ▸ hc)

theorem Posts.brings (hp : Posts opt m e m₁) (hl : Leaves (m.catchUp opt) m₁ e.ask P) {s : Source}
    (hin : Matches (m.catchUp opt).profile s.inForce)
    (hrec : (m.catchUp opt).canRestore = true → Matches (m.catchUp opt).prev s.recorded)
    (halgo : (m.catchUp opt).canRestore = true → (m.catchUp opt).prev.algo ≠ [])
    (ho : e.ask = .retarget ∨ e.ask = .switch → Matches P.target.profile o) :
    Matches P.target.profile (s.next e.ask o true).inForce := by
  cases hp with
  | run hne =>
    rw [hl.run_target]
    exact hin
  | retarget => exact ho (.inl rfl)
  | switch => exact ho (.inr rfl)
  | restore hcan hforce =>
    rw [hl.pool_target]
    have ha : (m.catchUp opt).prev.algo.isEmpty = false := by simpa using halgo hcan
    have hm := hrec hcan
    simp only [Source.next,Event.ask,if_true]
    cases hs : s.recorded with
    | none => simp [Matches]
    | some q =>
      rw [hs] at hm
      simpa [Matches,Profile.after,Profile.withPool,Profile.withAlgo,ha] using hm

theorem getD_snoc_lt {α : Type} {l : List α} {a d : α} {i : Nat} (h : i < l.length) :
    (l ++ [a]).getD i d = l.getD i d := by
  rw [List.getD_eq_getElem?_getD,List.getD_eq_getElem?_getD,List.getElem?_append_left h]

theorem getD_snoc_last {α : Type} {l : List α} {a d : α} : (l ++ [a]).getD l.length d = a := by
  rw [List.getD_eq_getElem?_getD,List.getElem?_concat_length,Option.getD_some]

theorem Sourced.post (h : Sourced asked named (m.catchUp opt))
    (hk : Kept p₀ { j with machine := m.catchUp opt, asked := asked })
    (hm : (m.catchUp opt).mutating = false) (hn : named.length = asked.length)
    (hp : Posts opt m e m₁) (hl : Leaves (m.catchUp opt) m₁ e.ask P) (hs : m'.saved = m₁.saved)
    (hland : ∀ i < asked.length, m'.landedAt i = (m.catchUp opt).landedAt i)
    (ho : e.ask = .retarget ∨ e.ask = .switch → Matches P.target.profile o) :
    Sourced (asked ++ [e.ask]) (named ++ [o]) m' := by
  have hl' := hl.congr hs
  have hlen : asked.length = (m.catchUp opt).posted.length := hk.length
  have hrest := h.atRest hk.fated.ordered.books hm
  have hsource {k : Nat} (hk : k ≤ asked.length) :
      source (asked ++ [e.ask]) (named ++ [o]) m'.landedAt k =
        source asked named (m.catchUp opt).landedAt k :=
    source_congr (fun i hi => getD_snoc_lt (by omega)) (fun i hi => getD_snoc_lt (by omega))
      (fun i hi => hland i (by omega))
  rw [← hlen] at hrest
  refine ⟨fun k Q hQ => ?_,fun k Q hQ => ?_,fun hc => ?_⟩
  · rw [hl'.posted] at hQ
    rcases getElem?_snoc hQ with ⟨hQ,hlt⟩ | ⟨rfl,rfl⟩
    · rw [hsource (by omega)]
      exact h.before k Q hQ
    · rw [hsource (by omega),← hlen,hl.before]
      exact hrest
  · rw [hl'.posted] at hQ
    rcases getElem?_snoc hQ with ⟨hQ,hlt⟩ | ⟨rfl,rfl⟩
    · rw [hsource (by omega),getD_snoc_lt (by omega),getD_snoc_lt (by omega)]
      exact h.target k Q hQ
    · rw [hsource (by omega),← hlen,getD_snoc_last,← hn,getD_snoc_last,hn]
      exact hp.brings hl hrest (fun hcan => hlen ▸ h.record hcan) (fun hcan => (hk.known hcan).2.1) ho
  · have hnext : m'.posted.length = asked.length+1 := by
      rw [hl'.posted,List.length_append,hlen]
      rfl
    rw [hnext,source,hsource (Nat.le_refl _),getD_snoc_last]
    simp only [Source.next]
    split
    · rename_i hsw
      rw [(hl'.saves hsw).1,hl.before]
      exact hrest
    · rename_i hsw
      obtain ⟨hprev,hcan⟩ := hl'.keeps hsw
      rw [hprev,hlen]
      exact h.record (hcan ▸ hc)

theorem Handler.Aims.mono {x : Handler} (h : x.Aims m) (hp : m.posted <+: m'.posted) : x.Aims m' := by
  obtain ⟨more,hmore⟩ := hp
  have keep {b : ProfileBody} {k : Nat}
      (h : b.pair.isSome = true → ∃ P, m.posted[k]? = some P ∧ P.target = b.wanted P.before)
      (hb : b.pair.isSome = true) : ∃ P, m'.posted[k]? = some P ∧ P.target = b.wanted P.before := by
    obtain ⟨P,hP,ht⟩ := h hb
    have hlt := (List.getElem?_eq_some_iff.mp hP).1
    exact ⟨P,by rw [← hmore,List.getElem?_append_left hlt,hP],ht⟩
  cases x with
  | called b caller change =>
    cases change with
    | none => trivial
    | some k => exact keep h
  | answered b status why change =>
    cases change with
    | none => trivial
    | some k => exact keep h
  | _ => trivial

theorem Paired.barrier (h : Paired p₀ r) (ht : InOrder opt r.machine e)
    (ho : ∀ m₁ P, Posts opt r.machine e m₁ → Leaves (r.machine.catchUp opt) m₁ e.ask P →
      (r.machine.catchUp opt).mutating = false → Matches P.target.profile o)
    (hs : r.barrier opt e o = some r') :
    Paired p₀ r' ∧ r'.handlers = r.handlers ∧ r.machine.posted <+: r'.machine.posted ∧
      ∀ k, r.changeTo r' = some k → (r.machine.catchUp opt).mutating = false ∧
        ∃ m₁ P, Posts opt r.machine e m₁ ∧ Leaves (r.machine.catchUp opt) m₁ e.ask P ∧
          r'.machine.posted[k]? = some P := by
  obtain ⟨j,hj,rfl⟩ := Option.map_eq_some_iff.mp hs
  have hposted := congrArg Saved.posted (catchUp_saved opt r.machine)
  cases h.kept.turn ht hj with
  | @stays m hsaved he hk =>
    have hsame : m.posted = r.machine.posted := congrArg Saved.posted hsaved
    have hpre : r.machine.posted <+: m.posted := hsame ▸ List.prefix_refl _
    refine ⟨⟨hk,?_,fun x hx => (h.aims x hx).mono hpre,?_⟩,rfl,hpre,?_⟩
    · simp only [if_true]
      exact h.length
    · simp only [if_true]
      refine h.sourced.same hsaved (fun i hi => ?_)
      exact h.kept.fated.ordered.books.landedAt_stable hk.fated.ordered.books he
        (h.kept.ended_before (k := i+1) (h.kept.length ▸ hi) (Nat.lt_succ_self i))
    · intro k hk
      simp [Routes.changeTo] at hk
  | @posts m m₁ P hc hm hp hl hsaved he hk =>
    have hgrow : ¬ (r.journal.post m e.ask).asked.length = r.journal.asked.length := by
      simp [Journal.post]
    have hsame : m.posted = r.machine.posted ++ [P] := by
      rw [(hl.congr hsaved).posted]
      exact congrArg (· ++ [P]) hposted
    have hpre : r.machine.posted <+: m.posted := hsame ▸ List.prefix_append _ _
    have hlen : r.journal.asked.length = (r.machine.catchUp opt).posted.length := hc.length
    have hland (i : Nat) (hi : i < r.journal.asked.length) :
        m.landedAt i = (r.machine.catchUp opt).landedAt i := by
      refine hc.fated.ordered.books.landedAt_stable hk.fated.ordered.books he ?_
      rw [hc.fated.ordered.books.endings_length,hm]
      exact Nat.lt_of_lt_of_eq hi hlen
    have hstatus : Sourced r.journal.asked r.named (r.machine.catchUp opt) := by
      refine h.sourced.same (catchUp_saved opt r.machine) (fun i hi => ?_)
      exact h.kept.fated.ordered.books.landedAt_stable hc.fated.ordered.books
        (catchUp_endings opt r.machine)
        (h.kept.ended_before (k := i+1) (h.kept.length ▸ hi) (Nat.lt_succ_self i))
    refine ⟨⟨hk,?_,fun x hx => (h.aims x hx).mono hpre,?_⟩,rfl,hpre,?_⟩
    · simp [Journal.post,h.length]
    · simp only [if_neg hgrow]
      exact hstatus.post hc hm h.length hp hl hsaved hland (fun _ => ho m₁ P hp hl hm)
    · intro k hk
      simp only [Routes.changeTo,if_neg hgrow,Option.some.injEq] at hk
      subst hk
      refine ⟨hm,m₁,P,hp,hl,?_⟩
      show m.posted[r.journal.asked.length]? = some P
      rw [hsame,show r.journal.asked.length = r.machine.posted.length from h.kept.length]
      exact List.getElem?_concat_length

theorem wanted_matches {q : Pair} (t : Triple) (h : b.pair = some q) :
    Matches (b.wanted t).profile (some q) := by
  obtain ⟨p,hp,hq⟩ := Option.bind_eq_some_iff.mp h
  obtain ⟨a,ha,rfl⟩ := Option.map_eq_some_iff.mp hq
  simp [ProfileBody.wanted,hp,ha,Matches]

theorem named_run (run : Option Bool) (s : ControlState) :
    ((run.map NamedRun.of).map Subtype.val).getD s =
      match run with
      | none => s
      | some run => if run then .running else .paused := by
  cases run with
  | none => rfl
  | some run => cases run <;> rfl

theorem call_wanted {algo : CStr} (hc : b.call algo = some e) (hb : b.pair.isSome = true)
    (hp : Posts opt m e m₁) (hl : Leaves (m.catchUp opt) m₁ e.ask P)
    (ht : (m.catchUp opt).retryAfterSLocked opt = 0 → (∃ u, b.pair = some (algo,u)) →
      (m.catchUp opt).profile.algo = algo) : P.target = b.wanted P.before := by
  obtain ⟨q,hq⟩ := Option.isSome_iff_exists.mp hb
  obtain ⟨p,hpool,hpair⟩ := Option.bind_eq_some_iff.mp hq
  obtain ⟨a,ha,rfl⟩ := Option.map_eq_some_iff.mp hpair
  rw [hl.before]
  simp only [ProfileBody.call,hpool,ha] at hc
  split at hc
  · cases hc
    cases hp with
    | switch hne hr =>
      have hae : a.isEmpty = false := by simpa using hne
      rw [hl.pool_target,named_run]
      simp [ProfileBody.wanted,hpool,ha,Profile.after,Profile.withPool,Profile.withAlgo,hae,triple]
  · rename_i heq
    cases hc
    cases hp with
    | retarget hr =>
      have heq := Decidable.not_not.mp heq
      subst heq
      have hcur := ht hr ⟨_,hq⟩
      rw [hl.pool_target,named_run]
      simp [ProfileBody.wanted,hpool,ha,Profile.after,Profile.withPool,Profile.withAlgo,hcur,triple]

theorem Paired.put (h : Paired p₀ r) (i : Nat) {x : Handler} (hx : x.Aims r.machine) :
    Paired p₀ (r.put i x) := by
  refine ⟨h.kept,h.length,fun y hy => ?_,h.sourced⟩
  rcases List.mem_or_eq_of_mem_set hy with hy | rfl
  · exact h.aims y hy
  · exact hx

theorem Paired.reply (h : Paired p₀ r) (ht : InOrder opt r.machine .status) {i : Nat}
    {rc : ControlResult} {why : CStr} {change : Option Nat}
    (hx : ∀ status text, (Handler.answered b status text change).Aims r.machine)
    (hs : r.reply opt i b rc why change = some r') : Paired p₀ r' := by
  unfold Routes.reply at hs
  simp only at hs
  split at hs
  · obtain ⟨r₁,hr₁,rfl⟩ := Option.map_eq_some_iff.mp hs
    obtain ⟨hpaired,-,hposted,-⟩ := h.barrier ht (o := none) (fun _ _ _ _ _ => trivial) hr₁
    exact hpaired.put i ((hx _ _).mono hposted)
  · cases hs
    exact h.put i (hx _ _)

theorem Paired.step {e : RouteEvent} (h : Paired p₀ r) (ht : ReadsTrue opt r e)
    (hs : r.step opt e = some r') : Paired p₀ r' := by
  obtain ⟨horder,htrue⟩ := ht
  have ordered {a : Event} (ha : e.act r = some a) : InOrder opt r.machine a := by
    rw [ha] at horder
    exact of_decide_eq_true horder
  cases e with
  | arrives body =>
    simp only [Routes.step] at hs
    split at hs <;> cases hs
    all_goals
      refine ⟨h.kept,h.length,fun x hx => ?_,h.sourced⟩
      rcases List.mem_append.mp hx with hx | hx
      · exact h.aims x hx
      · rw [List.mem_singleton.mp hx]
        trivial
  | sees i =>
    simp only [Routes.step] at hs
    split at hs
    · obtain ⟨r₁,hr₁,rfl⟩ := Option.map_eq_some_iff.mp hs
      exact (h.barrier (ordered rfl) (o := none) (fun _ _ _ _ _ => trivial) hr₁).1.put i trivial
    · cases hs
  | reads i =>
    simp only [Routes.step] at hs
    split at hs
    · cases hs
      exact h.put i trivial
    · cases hs
  | calls i =>
    simp only [Routes.step] at hs
    split at hs
    · rename_i b state algo hi
      split at hs
      · cases hs
        exact h.put i trivial
      · rename_i hstate
        have horder : InOrder opt r.machine ((b.call algo).getD .status) :=
          ordered (by simp [RouteEvent.act,hi,hstate])
        split at hs
        · rename_i hcall
          rw [hcall] at horder
          have haims (status : Nat) (text : CStr) :
              (Handler.answered b status text none).Aims r.machine := trivial
          exact h.reply horder haims hs
        · rename_i e hcall
          rw [hcall] at horder
          obtain ⟨r₁,hr₁,rfl⟩ := Option.map_eq_some_iff.mp hs
          have hwanted (m₁ : Machine) (P : Mutation) (hp : Posts opt r.machine e m₁)
              (hl : Leaves (r.machine.catchUp opt) m₁ e.ask P)
              (hm : (r.machine.catchUp opt).mutating = false) (hb : b.pair.isSome = true) :
              P.target = b.wanted P.before := by
            refine call_wanted hcall hb hp hl (fun hr ⟨u,hu⟩ => ?_)
            simpa [readsTrue,hi,hu,hm,hr] using htrue
          obtain ⟨hpaired,-,-,hchange⟩ := h.barrier horder (o := b.pair) (fun m₁ P hp hl hm => by
            cases hb : b.pair with
            | none => trivial
            | some q =>
              rw [hwanted m₁ P hp hl hm (by simp [hb])]
              exact wanted_matches _ hb) hr₁
          refine hpaired.put i ?_
          cases hk : r.changeTo r₁ with
          | none => trivial
          | some k =>
            obtain ⟨hm,m₁,P,hp,hl,hP⟩ := hchange k hk
            exact fun hb => ⟨P,hP,hwanted m₁ P hp hl hm hb⟩
    · cases hs
  | replies i =>
    simp only [Routes.step] at hs
    split at hs
    · rename_i b caller change hi
      split at hs
      · cases hs
      · have haims := h.aims _ (List.mem_of_getElem? hi)
        refine h.reply (ordered rfl) (fun status text => ?_) hs
        cases change with
        | none => trivial
        | some k => exact haims
    · cases hs
  | barrier e =>
    simp only [Routes.step,Option.ite_none_right_eq_some] at hs
    exact (h.barrier (ordered rfl) (o := none) (fun _ _ _ _ _ => trivial) hs.2).1

theorem Paired.pairsKept (h : Paired p₀ r) : PairsKept r := by
  have hb : Books p₀ r.machine := h.kept.fated.ordered.books
  refine ⟨fun x hx => ?_,fun hrest => ?_⟩
  · have haims := h.aims x hx
    cases x with
    | answered b status why change =>
      cases change with
      | none => trivial
      | some k =>
        rintro - hpair y hy rfl
        obtain ⟨P,hP,htarget⟩ := haims hpair
        obtain ⟨Q,hQ,hw⟩ := hb.whole y hy
        rw [hP,Option.some.injEq] at hQ
        subst hQ
        rw [hP,Option.map_some,Option.some.injEq]
        unfold Ending.Whole at hw
        split at hw
        · rename_i hl
          rw [if_pos hl,hw.1,htarget]
        · rename_i hl
          rw [if_neg hl,hw.1]
    | _ => trivial
  · have hm : r.machine.mutating = false := by
      refine Bool.eq_false_iff.mpr (fun hm => ?_)
      exact hrest (h.kept.fated.ordered.tracked.sound.phased.busy.mp hm)
    have hmatch := h.sourced.atRest hb hm
    rwa [show r.machine.posted.length = r.journal.asked.length from h.kept.length.symm] at hmatch

theorem paired_start (n : Nat) (p : Profile) (hook : Bool) : Paired p (Routes.start n p hook) := by
  refine ⟨kept_start n p hook,rfl,fun x hx => ?_,fun k P hP => ?_,fun k P hP => ?_,fun hc => ?_⟩
  · cases hx
  · cases hP
  · cases hP
  · cases hc

/-- In a run in order in which no request goes the pool's way on an algorithm that is no
longer in force, a request that named both leaves both or neither, and no pool is mined
under another algorithm than the one it was named with. -/
theorem pairs_kept (opt : Options) (n : Nat) (p : Profile) (hook : Bool) (r : Routes)
    (h : Reach (Routes.step opt) (ReadsTrue opt) (Routes.start n p hook) r) : PairsKept r := by
  have hr : Paired p r := h.invariant (paired_start n p hook) (fun _ _ _ hr ht hs => hr.step ht hs)
  exact hr.pairsKept

/-- A body that names both, and does not wait. -/
def naming (algo url : String) : Option (Except CStr Json) :=
  some (.ok (.object [(ascii "algo",.string (ascii algo)),
    (ascii "pool",.object [(ascii "url",.string (ascii url))]),(ascii "wait_ms",.integer 0)]))

def asksFor (h : Nat) (algo url : String) : List RouteEvent :=
  [.arrives (naming algo url),.sees h,.reads h]

/-- The one worker parks, the stratum thread applies the change, and its pool answers. -/
def landsWhole : List RouteEvent :=
  [.seesPark 0,.readsTerms 0,.parks 0,.takes,.moves,.writes,.readsHold,.connected,.wakes 0].map
    .barrier

def switchedByProfile : List RouteEvent :=
  asksFor 0 "sha256d" "stratum+tcp://b:2" ++ [.calls 0] ++ landsWhole ++
    [.barrier (.callerWakes 0),.replies 0]

def untimed : Options := ⟨true,30000,0,true⟩

theorem pair_kept_by_a_switch : ∃ r,
    Reach (Routes.step untimed) (ReadsTrue untimed) (Routes.start 1 kawpow true) r ∧
      r.source.inForce = some (ascii "sha256d",ascii "stratum+tcp://b:2") ∧ PairsKept r := by
  obtain ⟨r,hr,ha⟩ := reach_of_any (Routes.step untimed) (ReadsTrue untimed)
    (Routes.start 1 kawpow true) switchedByProfile
    (fun r => r.source.inForce = some (ascii "sha256d",ascii "stratum+tcp://b:2")) (by decide +kernel)
  exact ⟨r,hr,ha,pairs_kept untimed 1 kawpow true r hr⟩

/-- The next request has read the algorithm when a failed build restores the one before. -/
def restoredMeanwhile : List RouteEvent :=
  switchedByProfile ++ asksFor 1 "sha256d" "stratum+tcp://c:3" ++
    [.barrier (.switchFailed (ascii "no kernel"))] ++ landsWhole ++ [.calls 1] ++ landsWhole ++
    [.barrier (.callerWakes 1),.replies 1]

/-- It is answered 200, and its pool is mined under the restored algorithm. -/
theorem pool_under_another_algorithm : ¬ ∀ (opt : Options) (n : Nat) (p : Profile) (hook : Bool)
    (r : Routes), Reach (Routes.step opt)
      (fun r e => (e.act r).all (fun a => decide (InOrder opt r.machine a)) = true)
      (Routes.start n p hook) r → PairsKept r := by
  intro h
  obtain ⟨r,hr,ha⟩ := reach_of_any (Routes.step untimed)
    (fun r e => (e.act r).all (fun a => decide (InOrder untimed r.machine a)) = true)
    (Routes.start 1 kawpow true) restoredMeanwhile (fun r => ¬ PairsKept r) (by decide +kernel)
  exact ha (h untimed 1 kawpow true r hr)

end VkMiner.Control
