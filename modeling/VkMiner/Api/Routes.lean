import VkMiner.Api.Http
set_option autoImplicit false

/-! The route table and the gates in front of it. -/

namespace VkMiner.Api

abbrev NulFree := {s : CStr // 0 ∉ s}

structure Route where
  method : Method
  path : NulFree
  priv : Priv
  available : Bool
  deriving DecidableEq

/-- A pattern that ends in a slash takes whatever goes on after it. -/
def pathMatches (pattern path : Bytes) : Bool :=
  if pattern.getLast? = some 47 then pattern.isPrefixOf path && pattern.length < path.length
  else pattern == path

def verb (m : Method) : Method := if m = .head then .get else m

def route : (routes : List Route) → (pathSeen : Bool) → Request → Except Nat Route
  | [],pathSeen,_ => .error (if pathSeen then 405 else 404)
  | r :: routes,pathSeen,req =>
    if !pathMatches r.path.val req.path then route routes pathSeen req
    else if r.method ≠ verb req.method then route routes true req
    else if !r.available then .error 501
    else .ok r

structure Config where
  token : Option NulFree
  cors : Bool
  granted : Priv
  controlEnabled : Bool

def Config.asked (cfg : Config) : Option NulFree := cfg.token.filter (·.val ≠ [])

/-- What a connection gets: nothing, an answer of the transport, or a handler's. -/
inductive Answer where
  | closed
  | preflight
  | refused (status : Nat) (message : Option String)
  | runs (r : Route) (req : Request)
  deriving DecidableEq

/-- What happens to a request that was read whole. -/
def gates (cfg : Config) (routes : List Route) (req : Request) : Answer :=
  if req.method = .options ∧ cfg.cors then .preflight
  else if cfg.asked.any (·.val ≠ req.authBearer) then
    .refused 401 (some "missing or invalid token")
  else
    match route routes false req with
    | .error status =>
      .refused status (if status = 501 then some "not implemented on this miner" else none)
    | .ok r =>
      if r.priv = .control ∧ !cfg.controlEnabled then
        .refused 403 (some "control API disabled (--api-control)")
      else if cfg.granted.level < r.priv.level then .refused 403 (some "insufficient privilege")
      else .runs r req

def serve (cfg : Config) (routes : List Route) (reads : List Bytes) : Answer :=
  match readLoop reads with
  | .ok req => gates cfg routes req
  | .refused .tooLarge => .refused 413 (some "request too large")
  | .refused .unsupported => .refused 501 (some "chunked bodies are not supported")
  | .refused .bad => .refused 400 (some "malformed request")
  | .incomplete => .closed

/-- The options of the API: its token, `--api-cors`, `--api-remote` and `--api-control`. -/
structure Flags where
  token : Option NulFree
  cors : Bool
  remote : Bool
  control : Bool

def Flags.config (flags : Flags) : Config where
  token := flags.token
  cors := flags.cors
  granted := if flags.remote then (if flags.control then .control else .write) else .read
  controlEnabled := flags.control

def serveOne (flags : Flags) (routes : List Route) (reads : List Bytes) : Answer :=
  serve flags.config routes reads

end VkMiner.Api
