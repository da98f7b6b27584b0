import VkMiner.Stratum.Method
set_option autoImplicit false

/-! The handshake of a session: `stratum_subscribe` and `stratum_authorize` over the
lines that the pool sends meanwhile, and what a reader that goes by the ids would make
of the same lines. -/

namespace VkMiner.Stratum

/-- A line, as JSON_LOADS reads it, with what the heap holds and whether the socket takes
an answer when it is dealt with. -/
structure Arrival where
  line : Option Json
  heap : Nat → UInt8
  sends : Bool

def Arrival.handle (opt : Options) (s : Settings) (c : StratumCtx) (a : Arrival) : Handled :=
  stratumHandleMethod opt s a.heap a.sends c a.line

/-- What a step of the handshake comes back with, and the lines it has left unread. -/
structure Stage where
  ok : Bool
  ctx : StratumCtx
  rest : List Arrival

/-- `stratum_subscribe`: a line, and once more if that one is no good. The list is of the
lines that come in time. -/
def stratumSubscribe (s : Settings) (c : StratumCtx) : List Arrival → Stage
  | [] => ⟨false,c,[]⟩
  | a :: rest =>
    let r := readSubscribed s c a.line
    if r.1 then ⟨true,r.2,rest⟩
    else
      match rest with
      | [] => ⟨false,r.2,[]⟩
      | a' :: rest' =>
        let r' := readSubscribed s r.2 a'.line
        ⟨r'.1,r'.2,rest'⟩

def subscribeExtranonce (opt : Options) (s : Settings) (c : StratumCtx) : List Arrival → Stage
  | [] => ⟨true,c,[]⟩
  | a :: rest =>
    if jsonIntegerValue (jsonObjectGet a.line (ascii "id")) = 3 then ⟨true,c,rest⟩
    else ⟨true,(a.handle opt s c).ctx,rest⟩

/-- `stratum_authorize`: methods are dealt with until one is not, and that line is taken
for the answer. -/
def stratumAuthorize (opt : Options) (s : Settings) (extranonce : Bool) (c : StratumCtx) :
    List Arrival → Stage
  | [] => ⟨false,c,[]⟩
  | a :: rest =>
    let r := a.handle opt s c
    if r.ok then
      if r.closes then ⟨false,r.ctx,[]⟩ else stratumAuthorize opt s extranonce r.ctx rest
    else if readAuthorized a.line = false then ⟨false,r.ctx,rest⟩
    else if extranonce then subscribeExtranonce opt s r.ctx rest
    else ⟨true,r.ctx,rest⟩

structure Outcome where
  subscribed : Bool
  authorized : Bool
  ctx : StratumCtx
  deriving DecidableEq

def handshake (opt : Options) (s : Settings) (extranonce : Bool) (c : StratumCtx)
    (lines : List Arrival) : Outcome :=
  let r := stratumSubscribe s c lines
  if r.ok then
    let r' := stratumAuthorize opt s extranonce r.ctx r.rest
    ⟨true,r'.ok,r'.ctx⟩
  else ⟨false,false,r.ctx⟩

def Arrival.answers (a : Arrival) (id : Int) : Prop :=
  method a.line = none ∧ jsonIntegerValue (jsonObjectGet a.line (ascii "id")) = id

instance (a : Arrival) (id : Int) : Decidable (a.answers id) := inferInstanceAs (Decidable (_ ∧ _))

/-- A client.reconnect that is obeyed. Nothing comes after it. -/
def Arrival.closes (opt : Options) (a : Arrival) : Bool :=
  method a.line == some (ascii "client.reconnect") &&
    (stratumReconnect opt (jsonObjectGet a.line (ascii "params"))).2

/-- The wait for a reply: the lines in front of it, the reply, and the lines behind. -/
structure Awaited where
  before : List Arrival
  reply : Option Arrival
  rest : List Arrival

def awaited (opt : Options) (id : Int) : List Arrival → Awaited
  | [] => ⟨[],none,[]⟩
  | a :: rest =>
    if a.answers id then ⟨[],some a,rest⟩
    else if a.closes opt then ⟨[a],none,[]⟩
    else
      let r := awaited opt id rest
      ⟨a :: r.before,r.reply,r.rest⟩

def notified (opt : Options) (s : Settings) (c : StratumCtx) (lines : List Arrival) : StratumCtx :=
  lines.foldl (fun c a => (a.handle opt s c).ctx) c

/-- Subscribed or not by the reply, and then the lines that came before it. -/
def subscribedBy (opt : Options) (s : Settings) (c : StratumCtx) (lines : List Arrival) : Stage :=
  let w := awaited opt 1 lines
  match w.reply with
  | none => ⟨false,notified opt s c w.before,[]⟩
  | some a =>
    let r := readSubscribed s c a.line
    if r.1 then ⟨true,notified opt s r.2 w.before,w.rest⟩
    else
      let w' := awaited opt 1 w.rest
      match w'.reply with
      | none => ⟨false,notified opt s r.2 (w.before ++ w'.before),[]⟩
      | some a' =>
        let r' := readSubscribed s r.2 a'.line
        ⟨r'.1,notified opt s r'.2 (w.before ++ w'.before),w'.rest⟩

def authorizedBy (opt : Options) (s : Settings) (extranonce : Bool) (c : StratumCtx)
    (lines : List Arrival) : Stage :=
  let w := awaited opt 2 lines
  match w.reply with
  | none => ⟨false,notified opt s c w.before,[]⟩
  | some a =>
    if readAuthorized a.line = false then ⟨false,notified opt s c w.before,w.rest⟩
    else if extranonce then
      ⟨true,notified opt s c (w.before ++ w.rest.take 1),w.rest.drop 1⟩
    else ⟨true,notified opt s c w.before,w.rest⟩

/-- The handshake by its ids: each request is answered by its own reply, and a
notification does what it would do at any other time. -/
def handshakeById (opt : Options) (s : Settings) (extranonce : Bool) (c : StratumCtx)
    (lines : List Arrival) : Outcome :=
  let r := subscribedBy opt s c lines
  if r.ok then
    let r' := authorizedBy opt s extranonce r.ctx r.rest
    ⟨true,r'.ok,r'.ctx⟩
  else ⟨false,false,r.ctx⟩

/-- Subscribe finds its own reply first, and the one to its second request next. -/
def SubscribeInTurn (s : Settings) (c : StratumCtx) : List Arrival → Prop
  | [] => True
  | a :: rest =>
    a.answers 1 ∧ ((readSubscribed s c a.line).1 = false → ∀ a' ∈ rest.head?, a'.answers 1)

/-- Authorize finds methods that are accepted up to its own reply, and what follows that
is not a method under the id of the next request. -/
def AuthorizeInTurn (opt : Options) (s : Settings) (extranonce : Bool) (c : StratumCtx) :
    List Arrival → Prop
  | [] => True
  | a :: rest =>
    if a.answers 2 then
      readAuthorized a.line = true → extranonce = true → ∀ a' ∈ rest.head?,
        jsonIntegerValue (jsonObjectGet a'.line (ascii "id")) = 3 → method a'.line = none
    else (a.handle opt s c).ok = true ∧
      (a.closes opt = false → AuthorizeInTurn opt s extranonce (a.handle opt s c).ctx rest)

def InTurn (opt : Options) (s : Settings) (extranonce : Bool) (c : StratumCtx)
    (lines : List Arrival) : Prop :=
  SubscribeInTurn s c lines ∧
    ((stratumSubscribe s c lines).ok = true →
      AuthorizeInTurn opt s extranonce (stratumSubscribe s c lines).ctx
        (stratumSubscribe s c lines).rest)

instance (s : Settings) (c : StratumCtx) (lines : List Arrival) :
    Decidable (SubscribeInTurn s c lines) :=
  match lines with
  | [] => isTrue trivial
  | a :: rest => inferInstanceAs (Decidable (a.answers 1 ∧
      ((readSubscribed s c a.line).1 = false → ∀ a' ∈ rest.head?, a'.answers 1)))

instance decidableAuthorizeInTurn (opt : Options) (s : Settings) (extranonce : Bool) :
    (c : StratumCtx) → (lines : List Arrival) → Decidable (AuthorizeInTurn opt s extranonce c lines)
  | _,[] => isTrue trivial
  | c,a :: rest =>
    have := decidableAuthorizeInTurn opt s extranonce (a.handle opt s c).ctx rest
    inferInstanceAs (Decidable (if a.answers 2 then
      readAuthorized a.line = true → extranonce = true → ∀ a' ∈ rest.head?,
        jsonIntegerValue (jsonObjectGet a'.line (ascii "id")) = 3 → method a'.line = none
    else (a.handle opt s c).ok = true ∧
      (a.closes opt = false → AuthorizeInTurn opt s extranonce (a.handle opt s c).ctx rest)))

instance (opt : Options) (s : Settings) (extranonce : Bool) (c : StratumCtx)
    (lines : List Arrival) : Decidable (InTurn opt s extranonce c lines) :=
  inferInstanceAs (Decidable (_ ∧ _))

variable {opt : Options} {s : Settings} {c : StratumCtx} {a : Arrival} {id : Int}

theorem handle_of_answers (h : a.answers id) : a.handle opt s c = .keeping c false := by
  unfold Arrival.handle stratumHandleMethod
  simp only [h.1]

theorem handle_closes : (a.handle opt s c).closes = a.closes opt := by
  unfold Arrival.handle Arrival.closes stratumHandleMethod
  simp only
  split
  · next hm => simp [hm,Handled.keeping]
  · next name hm =>
    rw [hm]
    by_cases hn : name = ascii "client.reconnect"
    · subst hn
      simp [show ascii "client.reconnect" ≠ ascii "mining.notify" by decide,
        show ascii "client.reconnect" ≠ ascii "mining.ping" by decide,
        show ascii "client.reconnect" ≠ ascii "mining.set_difficulty" by decide,
        show ascii "client.reconnect" ≠ ascii "mining.set_target" by decide,
        show ascii "client.reconnect" ≠ ascii "mining.set_extranonce" by decide]
    · have hf : (some name == some (ascii "client.reconnect")) = false := by simpa using hn
      rw [hf,Bool.false_and,if_neg hn]
      repeat' split
      all_goals rfl

@[simp] theorem notified_nil : notified opt s c [] = c := rfl

@[simp] theorem notified_cons (lines : List Arrival) :
    notified opt s c (a :: lines) = notified opt s (a.handle opt s c).ctx lines := rfl

theorem awaited_here (h : a.answers id) (rest : List Arrival) :
    awaited opt id (a :: rest) = ⟨[],some a,rest⟩ := by
  simp [awaited,h]

theorem awaited_past (h : ¬a.answers id) (hc : a.closes opt = false) (rest : List Arrival) :
    awaited opt id (a :: rest) =
      ⟨a :: (awaited opt id rest).before,(awaited opt id rest).reply,(awaited opt id rest).rest⟩ := by
  simp [awaited,h,hc]

theorem awaited_closed (h : ¬a.answers id) (hc : a.closes opt = true) (rest : List Arrival) :
    awaited opt id (a :: rest) = ⟨[a],none,[]⟩ := by
  simp [awaited,h,hc]

theorem subscribe_by_id (opt : Options) {lines : List Arrival} (h : SubscribeInTurn s c lines) :
    stratumSubscribe s c lines = subscribedBy opt s c lines := by
  cases lines with
  | nil => rfl
  | cons a rest =>
    obtain ⟨ha,hrest⟩ := h
    unfold stratumSubscribe subscribedBy
    simp only [awaited_here ha,notified_nil,List.nil_append]
    cases hr : (readSubscribed s c a.line).1 with
    | true => rfl
    | false =>
      cases rest with
      | nil => rfl
      | cons a' rest' =>
        have ha' := hrest hr a' rfl
        simp only [awaited_here ha',notified_nil,Bool.false_eq_true,if_false]

theorem authorizedBy_past {extranonce : Bool} (h : ¬a.answers 2) (hc : a.closes opt = false)
    (rest : List Arrival) :
    authorizedBy opt s extranonce c (a :: rest) =
      authorizedBy opt s extranonce (a.handle opt s c).ctx rest := by
  unfold authorizedBy
  simp only [awaited_past h hc,List.cons_append,notified_cons]

theorem extranonce_by_id {rest : List Arrival}
    (h : ∀ a' ∈ rest.head?, jsonIntegerValue (jsonObjectGet a'.line (ascii "id")) = 3 →
      method a'.line = none) :
    subscribeExtranonce opt s c rest = ⟨true,notified opt s c (rest.take 1),rest.drop 1⟩ := by
  cases rest with
  | nil => rfl
  | cons a' rest' =>
    simp only [subscribeExtranonce]
    split
    · next hid =>
      have hk : a'.handle opt s c = .keeping c false := handle_of_answers ⟨h a' rfl hid,hid⟩
      simp [hk,Handled.keeping]
    · simp

theorem authorize_by_id {extranonce : Bool} {lines : List Arrival}
    (h : AuthorizeInTurn opt s extranonce c lines) :
    stratumAuthorize opt s extranonce c lines = authorizedBy opt s extranonce c lines := by
  induction lines generalizing c with
  | nil => rfl
  | cons a rest ih =>
    unfold AuthorizeInTurn at h
    unfold stratumAuthorize
    by_cases ha : a.answers 2
    · rw [if_pos ha] at h
      have hk : a.handle opt s c = .keeping c false := handle_of_answers ha
      unfold authorizedBy
      simp only [hk,Handled.keeping,awaited_here ha,notified_nil,List.nil_append,Bool.false_eq_true,
        if_false]
      cases hr : readAuthorized a.line with
      | false => rfl
      | true =>
        cases extranonce with
        | false => rfl
        | true =>
          simp only [Bool.true_eq_false,if_false,if_true]
          exact extranonce_by_id (h hr rfl)
    · rw [if_neg ha] at h
      obtain ⟨hok,hnext⟩ := h
      simp only [hok,if_true,handle_closes]
      cases hc : a.closes opt with
      | true => simp [authorizedBy,awaited_closed ha hc]
      | false =>
        rw [authorizedBy_past ha hc,← ih (hnext hc)]
        rfl

/-- A handshake whose lines come in turn goes by their ids. -/
theorem handshake_in_turn (opt : Options) (s : Settings) (extranonce : Bool) (c : StratumCtx)
    (lines : List Arrival) (h : InTurn opt s extranonce c lines) :
    handshake opt s extranonce c lines = handshakeById opt s extranonce c lines := by
  obtain ⟨hsub,hauth⟩ := h
  have hs := subscribe_by_id opt hsub
  unfold handshake handshakeById
  rw [← hs]
  cases hok : (stratumSubscribe s c lines).ok with
  | false => simp only [hok,Bool.false_eq_true,if_false]
  | true => simp only [hok,if_true,authorize_by_id (hauth hok)]

def arrives (line : Option Json) : Arrival := ⟨line,fun _ => 0,true⟩

def replies (id : Int) (result : Json) : Arrival :=
  arrives (some (.object [(ascii "id",.integer id),(ascii "result",result)]))

def sessionReply : Arrival := replies 1 (.array [.null,.string (ascii "0a0b"),.integer 4])

def difficulty (n : Int) : Arrival :=
  arrives (some (.object [(ascii "method",.string (ascii "mining.set_difficulty")),
    (ascii "params",.array [.integer n])]))

/-- A difficulty between the two replies, and an extranonce reply last. -/
theorem difficulty_in_turn :
    (handshake direct anyone true .zero [sessionReply,difficulty 512,replies 2 (.bool true),
      replies 3 (.bool true)]) =
      handshakeById direct anyone true .zero [sessionReply,difficulty 512,replies 2 (.bool true),
        replies 3 (.bool true)] :=
  handshake_in_turn direct anyone true .zero _ (by decide)

/-- A difficulty that comes first is lost, and one that is refused between the replies
is taken for a refusal to authorize. -/
theorem difficulty_out_of_turn :
    (handshake direct anyone false .zero
        [difficulty 512,sessionReply,replies 2 (.bool true)]).ctx.nextDiff = 1 ∧
      (handshakeById direct anyone false .zero
        [difficulty 512,sessionReply,replies 2 (.bool true)]).ctx.nextDiff = 512 ∧
      (handshake direct anyone false .zero
        [sessionReply,difficulty 0,replies 2 (.bool true)]).authorized = false ∧
      (handshakeById direct anyone false .zero
        [sessionReply,difficulty 0,replies 2 (.bool true)]).authorized = true ∧
      ¬ ∀ (opt : Options) (s : Settings) (extranonce : Bool) (c : StratumCtx) (lines : List Arrival),
        handshake opt s extranonce c lines = handshakeById opt s extranonce c lines := by
  refine ⟨by decide,by decide,by decide,by decide,fun hall => ?_⟩
  have h := congrArg Outcome.authorized
    (hall direct anyone false .zero [sessionReply,difficulty 0,replies 2 (.bool true)])
  exact absurd h (by decide)

end VkMiner.Stratum
