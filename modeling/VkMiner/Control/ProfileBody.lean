import VkMiner.Core.Json
import VkMiner.Control.Machine
set_option autoImplicit false

/-! The body of POST /control/profile, as `h_control_profile` reads it. -/

namespace VkMiner.Control

abbrev Fields := List (CStr × Json)

def unknownKey (known : List String) (fields : Fields) : Option CStr :=
  (fields.find? (fun f => !(known.map ascii).contains f.1)).map Prod.fst

def quote (s : CStr) : CStr := ascii "'" ++ s ++ ascii "'"

/-- No body is an empty one; `json_loads` leaves a value or the text of its error. -/
def parseBody : Option (Except CStr Json) → Except CStr Fields
  | none => .ok []
  | some (.error text) => .error (ascii "invalid JSON: " ++ text)
  | some (.ok (.object fields)) => .ok fields
  | some (.ok _) => .error (ascii "body must be a JSON object")

def field (fields : Fields) (key : String) : Option Json := jsonObjectGet (some (.object fields)) (ascii key)

/-- A field that may be missing, or else has to be of its type. -/
def optional {α : Type} (read : Json → Option α) : Option Json → Option (Option α)
  | none => some none
  | some j => (read j).map some

def asString : Json → Option CStr
  | .string s => some s
  | _ => none

def asObject : Json → Option Fields
  | .object fields => some fields
  | _ => none

def asBool : Json → Option Bool
  | .bool b => some b
  | _ => none

/-- A pool, and the algorithm that goes with it: there is no algorithm without one. -/
structure NamedPool where
  algo : Option CStr
  url : CStr
  user : CStr
  pass : CStr
  deriving DecidableEq

structure ProfileBody where
  pool : Option NamedPool
  run : Option Bool
  waitMs : Nat
  deriving DecidableEq

def poolField (algo : Option CStr) (fields : Fields) : Except CStr NamedPool :=
  match unknownKey ["url","user","pass"] fields with
  | some p => .error (ascii "unknown field " ++ quote (ascii "pool." ++ p))
  | none =>
    match (field fields "url").bind asString with
    | none => .error (ascii "pool.url is required and must be a string")
    | some url =>
      match optional asString (field fields "user"),optional asString (field fields "pass") with
      | some user,some pass => .ok ⟨algo,url,user.getD [],pass.getD []⟩
      | _,_ => .error (ascii "pool.user and pool.pass must be strings")

def waitMsField (fields : Fields) : Except CStr Nat :=
  match field fields "wait_ms" with
  | none => .ok 0
  | some (.integer v) =>
    if v < 0 then .error (ascii "wait_ms must be a non-negative integer")
    else .ok (if 0 < v then min v.toNat 3600000 else 1)
  | some _ => .error (ascii "wait_ms must be a non-negative integer")

def parseProfile (fields : Fields) : Except CStr ProfileBody :=
  match unknownKey ["algo","params","pool","run","wait_ms"] fields with
  | some bad => .error (ascii "unknown field " ++ quote bad)
  | none =>
    match optional asString (field fields "algo"),optional asObject (field fields "params"),
      optional asObject (field fields "pool"),optional asBool (field fields "run") with
    | some algo,some params,some pool,some run =>
      if algo.isNone && params.isNone && pool.isNone && run.isNone then
        .error (ascii "the body must carry at least one of algo, params, pool, run")
      else if algo.isSome && pool.isNone then
        .error (ascii ("algo requires pool: an algorithm without the pool that sells it is " ++
          "not a profile"))
      else
        match params.bind (unknownKey []) with
        | some p =>
          .error (ascii "unknown parameter " ++ quote p ++ ascii (": this miner takes none, its " ++
            "tunables are per-device measurements"))
        | none =>
          match pool with
          | none => (waitMsField fields).map (fun waitMs => ⟨none,run,waitMs⟩)
          | some inner =>
            match poolField algo inner with
            | .error why => .error why
            | .ok named => (waitMsField fields).map (fun waitMs => ⟨some named,run,waitMs⟩)
    | _,_,_,_ =>
      .error (ascii "algo is a string, params and pool are objects, run is a boolean")

variable {fields : Fields} {b : ProfileBody} {a : CStr}

end VkMiner.Control
