import VkMiner.Stratum.Notify
set_option autoImplicit false

/-! The messages of a pool: what `stratum_handle_method` does with a line, and how
the answers of the handshake are read. -/

namespace VkMiner.Stratum

/-- What an algorithm or a pool change moves: the globals of
`bind_protocol_settings`, and the user a share is submitted under. -/
structure Settings where
  dialect : Dialect
  nonceBits : Nat
  user : CStr
  deriving DecidableEq

/-- What does not move. `targetDiff` is the difficulty of a target in the pool's
own scale, where it is positive. -/
structure Options where
  redirect : Bool
  retries : Option Nat
  targetDiff : List UInt32 → Option Rat

def stratumSetDifficulty (c : StratumCtx) (params : Option Json) : Bool × StratumCtx :=
  let diff := jsonNumberValue (jsonArrayGet params 0)
  if diff = 0 then (false,c) else (true,{ c with nextDiff := diff })

def stratumSetTarget (opt : Options) (s : Settings) (c : StratumCtx) (params : Option Json) :
    Bool × StratumCtx :=
  match parseTargetHex (jsonStringValue (jsonArrayGet params 0)) with
  | none => (false,c)
  | some target =>
    if s.dialect = .progpow then (true,{ c with nextTarget := target, haveNextTarget := true })
    else
      match opt.targetDiff target with
      | none => (false,c)
      | some diff => (true,{ c with nextDiff := diff })

/-- The extranonce of a session, from mining.set_extranonce (`pndx` 0) or from the
answer to the subscribe (`pndx` 1). -/
def stratumParseExtranonce (c : StratumCtx) (params : Option Json) (pndx : Nat) :
    Bool × StratumCtx :=
  match jsonStringValue (jsonArrayGet params pndx) with
  | none => (false,c)
  | some xnonce1 =>
    let size := toInt32 (jsonIntegerValue (jsonArrayGet params (pndx+1)))
    if size < 2 ∨ 16 < size then (false,c)
    else
      (true,
        { c with
          xnonce1 := (hex2bin (Fixed.zero (xnonce1.length/2)) xnonce1).2.val
          xnonce2Size := size.toNat })

/-- ProgPoW's: the top of the nonce, and nothing to roll. -/
def stratumParseNoncePrefix (s : Settings) (c : StratumCtx) (params : Option Json) (pndx : Nat) :
    Bool × StratumCtx :=
  match jsonStringValue (jsonArrayGet params pndx) with
  | none => (false,c)
  | some noncePrefix =>
    let want := (64-s.nonceBits)/8
    if noncePrefix.length ≠ want*2 then (false,c)
    else
      (true,
        { c with
          xnonce1 := (hex2bin (Fixed.zero want) noncePrefix).2.val
          xnonce2Size := 0 })

def parseSessionNonce (s : Settings) (c : StratumCtx) (params : Option Json) (pndx : Nat) :
    Bool × StratumCtx :=
  if s.dialect = .progpow then stratumParseNoncePrefix s c params pndx
  else stratumParseExtranonce c params pndx

def atoi (s : CStr) : Int :=
  let t := s.dropWhile isspace
  let body := if t.head? = some 45 ∨ t.head? = some 43 then t.tail else t
  let n : Int := (body.takeWhile (fun c => 48 ≤ c && c ≤ 57)).foldl
    (fun acc c => acc*10+(c.toNat-48 : Nat)) 0
  if t.head? = some 45 then -n else n

/-- Whether the request is sound, and whether the connection is closed for it. -/
def stratumReconnect (opt : Options) (params : Option Json) : Bool × Bool :=
  let port : Int :=
    match jsonStringValue (jsonArrayGet params 1) with
    | some s => atoi s
    | none => toInt32 (jsonIntegerValue (jsonArrayGet params 1))
  match jsonStringValue (jsonArrayGet params 0) with
  | none => (false,false)
  | some _ => if port = 0 then (false,false) else (true,opt.redirect)

def jsonGiven (j : Option Json) : Bool :=
  match j with
  | none | some .null => false
  | _ => true

/-- A request with an id is answered, as far as the socket lets it. -/
def answered (id : Option Json) (sends : Bool) : Bool := jsonGiven id && sends

/-- What is left of a line once its method has been dealt with. -/
structure Handled where
  ok : Bool
  ctx : StratumCtx
  closes : Bool

def Handled.keeping (c : StratumCtx) (ok : Bool) : Handled := ⟨ok,c,false⟩

def Handled.of (r : Bool × StratumCtx) : Handled := ⟨r.1,r.2,false⟩

def method (line : Option Json) : Option CStr :=
  (jsonStringValue (jsonObjectGet line (ascii "method"))).map (fun s => s.map tolower)

def stratumHandleMethod (opt : Options) (s : Settings) (heap : Nat → UInt8) (sends : Bool)
    (c : StratumCtx) (line : Option Json) : Handled :=
  let params := jsonObjectGet line (ascii "params")
  let id := jsonObjectGet line (ascii "id")
  match method line with
  | none => .keeping c false
  | some name =>
    if name = ascii "mining.notify" then
      let r := stratumNotify s.dialect heap c params
      if r.1 = none then ⟨true,{ r.2 with newJob := true },false⟩ else ⟨false,r.2,false⟩
    else if name = ascii "mining.ping" then .keeping c (answered id sends)
    else if name = ascii "mining.set_difficulty" then .of (stratumSetDifficulty c params)
    else if name = ascii "mining.set_target" then .of (stratumSetTarget opt s c params)
    else if name = ascii "mining.set_extranonce" then .of (parseSessionNonce s c params 0)
    else if name = ascii "client.reconnect" then
      let r := stratumReconnect opt params
      ⟨r.1,c,r.2⟩
    else if name = ascii "client.get_algo" then .keeping c (answered id sends)
    else if name = ascii "client.get_version" then .keeping c (answered id sends)
    else if name = ascii "client.show_message" then .keeping c (!jsonGiven id || sends)
    else .keeping c (answered id sends)

def takesJob (s : Settings) (heap : Nat → UInt8) (c : StratumCtx) (line : Option Json) : Bool :=
  method line == some (ascii "mining.notify") &&
    (stratumNotify s.dialect heap c (jsonObjectGet line (ascii "params"))).1 == none

def readSubscribed (s : Settings) (c : StratumCtx) (line : Option Json) : Bool × StratumCtx :=
  let result := jsonObjectGet line (ascii "result")
  if !jsonGiven result || jsonGiven (jsonObjectGet line (ascii "error")) then (false,c)
  else parseSessionNonce s { c with nextDiff := 1 } result 1

def readAuthorized (line : Option Json) : Bool :=
  (match jsonObjectGet line (ascii "result") with
    | none | some (.bool false) => false
    | _ => true) && !jsonGiven (jsonObjectGet line (ascii "error"))

def anyone : Settings := ⟨.bitcoin,32,ascii "user"⟩

def direct : Options := ⟨false,none,fun _ => none⟩

theorem setDifficulty_job (c : StratumCtx) (params : Option Json) :
    (stratumSetDifficulty c params).2.job = c.job ∧
      (stratumSetDifficulty c params).2.newJob = c.newJob := by
  unfold stratumSetDifficulty
  simp only
  split <;> exact ⟨rfl,rfl⟩

theorem setTarget_job (opt : Options) (s : Settings) (c : StratumCtx) (params : Option Json) :
    (stratumSetTarget opt s c params).2.job = c.job ∧
      (stratumSetTarget opt s c params).2.newJob = c.newJob := by
  unfold stratumSetTarget
  split
  · exact ⟨rfl,rfl⟩
  · split
    · exact ⟨rfl,rfl⟩
    · split <;> exact ⟨rfl,rfl⟩

theorem parseExtranonce_job (c : StratumCtx) (params : Option Json) (pndx : Nat) :
    (stratumParseExtranonce c params pndx).2.job = c.job ∧
      (stratumParseExtranonce c params pndx).2.newJob = c.newJob := by
  unfold stratumParseExtranonce
  simp only
  split
  · exact ⟨rfl,rfl⟩
  · split <;> exact ⟨rfl,rfl⟩

theorem parseNoncePrefix_job (s : Settings) (c : StratumCtx) (params : Option Json) (pndx : Nat) :
    (stratumParseNoncePrefix s c params pndx).2.job = c.job ∧
      (stratumParseNoncePrefix s c params pndx).2.newJob = c.newJob := by
  unfold stratumParseNoncePrefix
  simp only
  split
  · exact ⟨rfl,rfl⟩
  · split <;> exact ⟨rfl,rfl⟩

theorem parseSessionNonce_job (s : Settings) (c : StratumCtx) (params : Option Json) (pndx : Nat) :
    (parseSessionNonce s c params pndx).2.job = c.job ∧
      (parseSessionNonce s c params pndx).2.newJob = c.newJob := by
  unfold parseSessionNonce
  split
  · exact parseNoncePrefix_job s c params pndx
  · exact parseExtranonce_job c params pndx

theorem readSubscribed_job (s : Settings) (c : StratumCtx) (line : Option Json) :
    (readSubscribed s c line).2.job = c.job ∧ (readSubscribed s c line).2.newJob = c.newJob := by
  unfold readSubscribed
  simp only
  split
  · exact ⟨rfl,rfl⟩
  · exact parseSessionNonce_job s _ _ 1

theorem notify_newJob (d : Dialect) (heap : Nat → UInt8) (c : StratumCtx) (params : Option Json) :
    (stratumNotify d heap c params).2.newJob = c.newJob := by
  unfold stratumNotify
  split
  · unfold stratumProgpowNotify
    split <;> rfl
  · unfold stratumBitcoinNotify
    split
    · rfl
    · unfold takeCoinbaseNotify
      simp only
      split <;> rfl

theorem handleMethod_newJob (opt : Options) (s : Settings) (heap : Nat → UInt8) (sends : Bool)
    (c : StratumCtx) (line : Option Json) :
    (stratumHandleMethod opt s heap sends c line).ctx.newJob =
      (c.newJob || takesJob s heap c line) := by
  unfold stratumHandleMethod takesJob
  simp only
  split
  · next hm => simp [Handled.keeping,hm]
  · next name hm =>
    by_cases hn : name = ascii "mining.notify"
    · rw [if_pos hn,hm,hn]
      split
      · next hr => simp [hr]
      · next hr =>
        have hb : ((stratumNotify s.dialect heap c (jsonObjectGet line (ascii "params"))).1 == none) =
            false := beq_eq_false_iff_ne.mpr hr
        simp [notify_newJob,hb]
    · have hf : (method line == some (ascii "mining.notify")) = false := by simpa [hm] using hn
      rw [if_neg hn,hf,Bool.false_and,Bool.or_false]
      split
      · rfl
      · split
        · exact (setDifficulty_job c _).2
        · split
          · exact (setTarget_job opt s c _).2
          · split
            · exact (parseSessionNonce_job s c _ 0).2
            · repeat' split
              all_goals rfl

end VkMiner.Stratum
