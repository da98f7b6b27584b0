import Mathlib.Algebra.Group.Nat.Defs
import Mathlib.Data.List.Infix
import Mathlib.Data.List.TakeWhile
import VkMiner.Core.Decimal
import VkMiner.Lib.Growing
set_option autoImplicit false

/-! The transport of the REST API: one request read off a connection, parsed, let through the
gates and handed to a route. -/

namespace VkMiner.Api

def maxReqline : Nat := 2048
def maxHeaderBytes : Nat := 8192
def maxHeaderLines : Nat := 32
def maxBody : Nat := 8192
def maxPath : Nat := 512
def maxQuery : Nat := 512

def cr : UInt8 := 13
def lf : UInt8 := 10
def space : UInt8 := 32

inductive Method where
  | get | head | post | options | other
  deriving DecidableEq

inductive Priv where
  | read | write | control
  deriving DecidableEq

def Priv.level : Priv → Nat
  | .read => 0
  | .write => 1
  | .control => 2

/-- Text fields are what their C strings hold. -/
structure Request where
  method : Method
  rawMethod : Bytes
  path : Bytes
  query : Bytes
  body : Bytes
  authBearer : Bytes
  origin : Bytes
  wsKey : Bytes
  upgradeWebsocket : Bool
  pretty : Bool
  contentLength : Option Nat
  chunked : Bool
  deriving DecidableEq

inductive Refusal where
  | bad
  | tooLarge
  | unsupported
  deriving DecidableEq

inductive Parsed where
  | ok (req : Request)
  | incomplete
  | refused (r : Refusal)
  deriving DecidableEq

def cstr (b : Bytes) : Bytes := b.takeWhile (· ≠ 0)

def copyBounded (size : Nat) (b : Bytes) : Bytes := cstr (b.take (size - 1))

def ciEqual (a b : Bytes) : Bool := (a.zip b).all fun (x,y) => tolower x == tolower y && x != 0

def skipWs (b : Bytes) : Bytes := b.dropWhile fun c => c == space || c == 9

def hexval (c : UInt8) : Option UInt8 := nibble c

def percentDecode : Bytes → Option Bytes
  | [] => some []
  | c :: s =>
    if c = 37 then
      match s with
      | a :: b :: rest =>
        match hexval a,hexval b with
        | some hi,some lo =>
          if hi <<< 4 ||| lo = 0 then none else (percentDecode rest).map ((hi <<< 4 ||| lo) :: ·)
        | _,_ => none
      | _ => none
    else (percentDecode s).map (c :: ·)

def methodOf (s : Bytes) : Method :=
  if s.length = 3 ∧ ciEqual s (ascii "GET") then .get
  else if s.length = 4 ∧ ciEqual s (ascii "HEAD") then .head
  else if s.length = 4 ∧ ciEqual s (ascii "POST") then .post
  else if s.length = 7 ∧ ciEqual s (ascii "OPTIONS") then .options
  else .other

def splitHead : Bytes → Option (Bytes × Bytes)
  | a :: b :: c :: d :: rest =>
    if a = cr ∧ b = lf ∧ c = cr ∧ d = lf then some ([a,b,c,d],rest)
    else (splitHead (b :: c :: d :: rest)).map fun (head,body) => (a :: head,body)
  | _ => none

def trimSlashes (path : Bytes) : Bytes :=
  match path with
  | [] => []
  | c :: rest => c :: (rest.reverse.dropWhile (· == 47)).reverse

def strtol (s : Bytes) : Int × Bytes :=
  let t := s.dropWhile fun c => c == space || 9 ≤ c && c ≤ 13
  let neg := t.head? = some 45
  let t := if neg ∨ t.head? = some 43 then t.tail else t
  let digits := t.takeWhile fun c => 48 ≤ c && c ≤ 57
  let n := digits.foldl (fun n c => 10 * n + (c - 48).toNat) 0
  if digits = [] then (0,s)
  else (if neg then -Nat.min n (2 ^ 63) else Nat.min n (2 ^ 63 - 1),t.drop digits.length)

theorem strtol_digits {digits : Bytes} (hne : digits ≠ []) (hd : ∀ c ∈ digits,isDecimal c = true) :
    strtol digits = (((min (digitsValue digits) (2^63-1) : Nat) : Int),[]) := by
  obtain ⟨c,t,rfl⟩ := List.exists_cons_of_ne_nil hne
  obtain ⟨hb,hp,hm,-⟩ := decimal_other c (hd c (by simp))
  have hb' : (c == space || 9 ≤ c && c ≤ 13) = false := by
    simpa [isspace,space] using hb
  have htake : (c :: t).takeWhile (fun c => 48 ≤ c && c ≤ 57) = c :: t :=
    List.takeWhile_eq_self_iff.mpr hd
  have hv : (c :: t).foldl (fun n c => 10*n+(c-48).toNat) 0 = digitsValue (c :: t) := rfl
  simp only [strtol,List.dropWhile_cons,hb',List.head?_cons,Option.some.injEq,hm,hp,or_self,
    if_false,htake,hv,List.cons_ne_nil,List.drop_length,Bool.false_eq_true]

theorem strtol_minus {digits : Bytes} (hne : digits ≠ []) (hd : ∀ c ∈ digits,isDecimal c = true) :
    strtol (45 :: digits) = (-((min (digitsValue digits) (2^63) : Nat) : Int),[]) := by
  have htake : digits.takeWhile (fun c => 48 ≤ c && c ≤ 57) = digits :=
    List.takeWhile_eq_self_iff.mpr hd
  have hv : digits.foldl (fun n c => 10*n+(c-48).toNat) 0 = digitsValue digits := rfl
  have hb : ((45 : UInt8) == space || 9 ≤ (45 : UInt8) && (45 : UInt8) ≤ 13) = false := rfl
  simp only [strtol,List.dropWhile_cons,hb,List.head?_cons,true_or,if_true,List.tail_cons,
    htake,hv,hne,if_false,List.drop_length,Bool.false_eq_true]

/-- The value of a Content-Length, as far as a buffer of 32 bytes takes it. -/
def contentLengthOf (v : Bytes) : Option Nat :=
  let (n,rest) := strtol (copyBounded 32 v)
  if rest = [] ∧ 0 ≤ n then some n.toNat else none

def isName (name : Bytes) (s : String) : Bool :=
  name.length == (ascii s).length && ciEqual name (ascii s)

def startsWith (v : Bytes) (s : String) : Bool :=
  (ascii s).length ≤ v.length && ciEqual v (ascii s)

def bearerOf (v : Bytes) : Option Bytes :=
  if 7 < v.length ∧ startsWith v "Bearer " then some (skipWs (v.drop 7)) else none

def header (line : Bytes) (req : Request) : Except Refusal Request :=
  let name := line.takeWhile (· ≠ 58)
  let v := skipWs (line.drop (name.length + 1))
  if name.length = line.length then .ok req
  else if isName name "Content-Length" then
    match contentLengthOf v with
    | some n => .ok { req with contentLength := some n }
    | none => .error .bad
  else if isName name "Transfer-Encoding" then
    .ok { req with chunked := req.chunked || startsWith v "chunked" }
  else if isName name "Authorization" then
    match bearerOf v with
    | some t => .ok { req with authBearer := copyBounded 256 t }
    | none => .ok req
  else if isName name "Origin" then .ok { req with origin := copyBounded 256 v }
  else if isName name "Upgrade" then
    .ok { req with upgradeWebsocket := req.upgradeWebsocket || startsWith v "websocket" }
  else if isName name "Sec-WebSocket-Key" then .ok { req with wsKey := copyBounded 128 v }
  else .ok req

/-- The loop over the header lines. A line ends at its carriage return, and the byte after that
is passed over. -/
def headers : (left bytes : Nat) → Bytes → Request → Except Refusal Request
  | left,bytes,rest,req =>
    let line := rest.takeWhile (· ≠ cr)
    if rest.length ≤ 2 then .ok req
    else if line.length = rest.length then .error .bad
    else
      match left with
      | 0 => .error .tooLarge
      | left + 1 =>
        if maxHeaderBytes < bytes + line.length then .error .tooLarge
        else
          match header line req with
          | .error r => .error r
          | .ok req => headers left (bytes + line.length) (rest.drop (line.length + 2)) req

def requestLine (line : Bytes) : Except Refusal Request := do
  if maxReqline < line.length then throw .tooLarge
  let method := line.takeWhile (· ≠ space)
  if method.length = line.length then throw .bad
  let rest := line.drop (method.length + 1)
  let target := rest.takeWhile (· ≠ space)
  if target.length = rest.length then throw .bad
  if target.head? ≠ some 47 then throw .bad
  let path := target.takeWhile (· ≠ 63)
  if maxPath ≤ path.length then throw .tooLarge
  let query := target.drop (path.length + 1)
  if maxQuery ≤ query.length then throw .tooLarge
  let some path := percentDecode (copyBounded maxPath path) | throw .bad
  let some query := percentDecode (copyBounded maxQuery query) | throw .bad
  let path := trimSlashes path
  if ascii ".." <:+: path then throw .bad
  return ⟨methodOf method,copyBounded 16 method,path,query,[],[],[],[],false,
    ascii "pretty=1" <:+: query,none,false⟩

def parseHead (head : Bytes) : Except Refusal Request := do
  let line := head.takeWhile (· ≠ cr)
  let req ← requestLine line
  let req ← headers maxHeaderLines 0 (head.drop (line.length + 2)) req
  if req.chunked then throw .unsupported
  return req

def withBody (rest : Bytes) (req : Request) : Parsed :=
  match req.contentLength with
  | some n =>
    if maxBody < n then .refused .tooLarge
    else if rest.length < n then .incomplete
    else .ok { req with body := rest.take n }
  | none => if req.method = .post ∧ rest ≠ [] then .refused .bad else .ok req

def parse (buf : Bytes) : Parsed :=
  match splitHead buf with
  | none => if maxReqline + maxHeaderBytes < buf.length then .refused .tooLarge else .incomplete
  | some (head,rest) =>
    match parseHead head with
    | .error r => .refused r
    | .ok req => withBody rest req

def bufferSize : Nat := maxReqline + maxHeaderBytes + maxBody + 8

def decided (buf : Bytes) : Option Parsed :=
  match parse buf with
  | .incomplete => none
  | st => some st

/-- The loop of `api_http_serve`, over what each read brings. -/
def readLoop (reads : List Bytes) : Parsed :=
  Growing.run decided bufferSize (.refused .tooLarge) .incomplete reads []

end VkMiner.Api
