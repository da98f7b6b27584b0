import Mathlib.Data.List.Forall2
import VkMiner.Stratum.Mixing
set_option autoImplicit false

/-! The hex of a pool's messages: which strings a message is taken with, and what is kept of
them. The decoder's own answer is asked for in one place only, a target. -/

namespace VkMiner.Stratum

variable {s : CStr} {b b' : Bytes} {n : Nat}

/-! ### Strings of digits -/

def IsHex (s : CStr) : Prop := s.length%2 = 0 ∧ ∀ c ∈ s,(hexDigit c).isSome = true

/-- Either case is read; `bin2hex` writes one of them. -/
def Denotes (s : CStr) (b : Bytes) : Prop := s.map tolower = bin2hex b

theorem nibble_digit : ∀ c : UInt8, (nibble c).isSome = (hexDigit c).isSome :=
  byte_cases (by decide +kernel)

theorem hexPairs_digits (hd : ∀ c ∈ s,(hexDigit c).isSome = true) : (hexPairs s).1 = true := by
  induction s using hexPairs.induct with
  | case1 a b rest ha =>
    have hn := nibble_digit a
    rw [ha,hd a (by simp)] at hn
    cases hn
  | case2 a b rest x ha hb =>
    have hn := nibble_digit b
    rw [hb,hd b (by simp)] at hn
    cases hn
  | case3 a b rest x ha y hb ih =>
    simp only [hexPairs,ha,hb]
    exact ih fun c hc => hd c (by simp [hc])
  | case4 s hs => rw [hexPairs]; exact hs

theorem IsHex.denotes (h : IsHex s) : Denotes s (hexBytes s) := by
  obtain ⟨heven,hd⟩ := h
  have hread := hexPairs_digits hd
  rw [hexBytes_pairs hread heven]
  exact (bin2hex_hexPairs hread heven).symm

theorem denotes_field {s : HexText n} (h : IsHex s.val) : Denotes s.val (hexField s).val := by
  rw [hexField_val]
  exact h.denotes

theorem hex2bin_bin2hex (b : Bytes) (p : Fixed b.length) :
    hex2bin p (bin2hex b) = (true,⟨b,rfl⟩) := by
  have hodd : ¬ (bin2hex b).length%2 ≠ 0 := by
    rw [bin2hex_length]
    omega
  have hfit : ¬ b.length < (bin2hex b).length/2 := by
    rw [bin2hex_length]
    omega
  simp only [hex2bin,hodd,hfit,if_false,hexPairs_bin2hex]
  congr 1
  exact Subtype.ext (by simp [Fixed.fill])

/-! ### The fields of a message -/

def stringAt (params : Option Json) (i : Nat) : Option CStr :=
  jsonStringValue (jsonArrayGet params i)

def textAt (params : Option Json) (i : Nat) : CStr := (stringAt params i).getD []

/-- Where the coinbase stands. LBRY has the claimtrie root in front of it. -/
def coinbaseAt (d : Dialect) : Nat := if d = .lbry then 3 else 2

def branchOf (d : Dialect) (params : Option Json) : List Json :=
  match jsonArrayGet params (coinbaseAt d+2) with
  | some (.array branch) => branch
  | _ => []

def entryText (j : Json) : CStr := (jsonStringValue (some j)).getD []

/-- The hex of a notify: the previous hash, the claim, the coinbase halves, the version, nbits, the
time and the branch, or the two hashes of a ProgPoW job. -/
def notifyTexts (d : Dialect) (params : Option Json) : List CStr :=
  let p := coinbaseAt d
  if d = .progpow then [textAt params 1,textAt params 2]
  else
    (if d = .lbry then [textAt params 2] else []) ++
      [textAt params 1,textAt params p,textAt params (p+1),textAt params (p+3),
        textAt params (p+4),textAt params (p+5)] ++ (branchOf d params).map entryText

def notifyStored (d : Dialect) (params : Option Json) (j : StratumJob) : List Bytes :=
  let p := coinbaseAt d
  let size (i : Nat) := (textAt params i).length/2
  if d = .progpow then [j.headerHash.val,j.seedHash.val]
  else
    (if d = .lbry then [j.extra.val] else []) ++
      [j.prevhash.val,j.coinbase.take (size p),j.coinbase.drop (j.coinbase.length-size (p+1)),
        j.version.val,j.nbits.val,j.ntime.val] ++ j.branch.map Subtype.val

inductive Message where
  | notify (params : Option Json)
  | setExtranonce (params : Option Json)
  | subscribed (reply : Option Json)

namespace Message

def take (s : Settings) (heap : Nat → UInt8) (c : StratumCtx) : Message → Bool × StratumCtx
  | .notify params =>
    let r := stratumNotify s.dialect heap c params
    (r.1.isNone,r.2)
  | .setExtranonce params => parseSessionNonce s c params 0
  | .subscribed reply => readSubscribed s c reply

def texts (s : Settings) : Message → List CStr
  | .notify params => notifyTexts s.dialect params
  | .setExtranonce params => [textAt params 0]
  | .subscribed reply => [textAt (jsonObjectGet reply (ascii "result")) 1]

def stored (s : Settings) (c : StratumCtx) : Message → List Bytes
  | .notify params => notifyStored s.dialect params c.job
  | _ => [c.xnonce1]

/-- An accepted message has nothing but hex in its fields, and the bytes that are kept are
theirs. -/
def Faithful (s : Settings) (heap : Nat → UInt8) (c : StratumCtx) (m : Message) : Prop :=
  (m.take s heap c).1 = true →
    (∀ t ∈ m.texts s,IsHex t) ∧
      List.Forall₂ Denotes (m.texts s) (m.stored s (m.take s heap c).2)

end Message

/-! ### What is asked of a message, which is not what its digits are -/

def HasLength (params : Option Json) (i n : Nat) : Prop :=
  (stringAt params i).map List.length = some n

structure CoinbaseShape (d : Dialect) (params : Option Json) : Prop where
  jobId : (stringAt params 0).isSome = true
  prevhash : HasLength params 1 64
  claim : d = .lbry → HasLength params 2 64
  coinb1 : (stringAt params (coinbaseAt d)).isSome = true
  coinb2 : (stringAt params (coinbaseAt d+1)).isSome = true
  branch : ∃ branch, jsonArrayGet params (coinbaseAt d+2) = some (.array branch) ∧
    ∀ j ∈ branch,(jsonStringValue (some j)).map List.length = some 64
  version : HasLength params (coinbaseAt d+3) 8
  nbits : HasLength params (coinbaseAt d+4) 8
  ntime : HasLength params (coinbaseAt d+5) 8

structure ProgpowShape (c : StratumCtx) (params : Option Json) : Prop where
  jobId : (stringAt params 0).isSome = true
  headerHash : HasLength params 1 64
  seedHash : HasLength params 2 64
  height : (parseUintField (jsonArrayGet params 5)).isSome = true
  target : (parseTargetHex (stringAt params 3)).isSome = true ∨ c.haveNextTarget = true

/-- ProgPoW's is a prefix that leaves the nonce its bits; the others' any string, with a size of
two to sixteen behind it. -/
def NonceShape (s : Settings) (params : Option Json) (pndx : Nat) : Prop :=
  if s.dialect = .progpow then HasLength params pndx ((64-s.nonceBits)/8*2)
  else
    (stringAt params pndx).isSome = true ∧
      2 ≤ toInt32 (jsonIntegerValue (jsonArrayGet params (pndx+1))) ∧
      toInt32 (jsonIntegerValue (jsonArrayGet params (pndx+1))) ≤ 16

def Message.Shaped (s : Settings) (c : StratumCtx) : Message → Prop
  | .notify params =>
    if s.dialect = .progpow then ProgpowShape c params else CoinbaseShape s.dialect params
  | .setExtranonce params => NonceShape s params 0
  | .subscribed reply =>
    jsonGiven (jsonObjectGet reply (ascii "result")) = true ∧
      jsonGiven (jsonObjectGet reply (ascii "error")) = false ∧
      NonceShape s (jsonObjectGet reply (ascii "result")) 1

variable {d : Dialect} {c : StratumCtx} {params : Option Json} {q : CoinbaseNotify}
  {heap : Nat → UInt8}

structure ReadFrom (d : Dialect) (params : Option Json) (q : CoinbaseNotify) : Prop where
  jobId : stringAt params 0 = some q.jobId
  prevhash : stringAt params 1 = some q.prevhash.val
  claim : d = .lbry → ∃ claim, q.claim = some claim ∧ stringAt params 2 = some claim.val
  coinb1 : stringAt params (coinbaseAt d) = some q.coinb1
  coinb2 : stringAt params (coinbaseAt d+1) = some q.coinb2
  branch : jsonArrayGet params (coinbaseAt d+2) = some (.array q.branch)
  version : stringAt params (coinbaseAt d+3) = some q.version.val
  nbits : stringAt params (coinbaseAt d+4) = some q.nbits.val
  ntime : stringAt params (coinbaseAt d+5) = some q.ntime.val

theorem readCoinbaseFrom_strings {claim : Option (HexText 32)} {p : Nat}
    (hq : readCoinbaseFrom params claim p = .ok q) :
    stringAt params 0 = some q.jobId ∧ stringAt params 1 = some q.prevhash.val ∧
      stringAt params p = some q.coinb1 ∧ stringAt params (p+1) = some q.coinb2 ∧
      jsonArrayGet params (p+2) = some (.array q.branch) ∧
      stringAt params (p+3) = some q.version.val ∧ stringAt params (p+4) = some q.nbits.val ∧
      stringAt params (p+5) = some q.ntime.val := by
  unfold readCoinbaseFrom at hq
  simp only at hq
  split at hq
  · next branch hb =>
    split at hq
    · next jobId prevhash coinb1 coinb2 version nbits ntime h₀ h₁ h₂ h₃ h₄ h₅ h₆ =>
      split at hq
      · cases hq
        exact ⟨h₀,h₁,h₂,h₃,hb,h₄,h₅,h₆⟩
      · cases hq
    · cases hq
  · cases hq

theorem readCoinbaseNotify_strings (hq : readCoinbaseNotify d params = .ok q) :
    ReadFrom d params q := by
  unfold readCoinbaseNotify at hq
  split at hq
  · next hd =>
    have hp : coinbaseAt d = 3 := if_pos hd
    split at hq
    · next claim hc =>
      split at hq
      · next hl =>
        have hclaim := readCoinbaseFrom_claim hq
        rw [← hp] at hq
        obtain ⟨h₀,h₁,h₂,h₃,h₄,h₅,h₆,h₇⟩ := readCoinbaseFrom_strings hq
        exact ⟨h₀,h₁,fun _ => ⟨_,hclaim,hc⟩,h₂,h₃,h₄,h₅,h₆,h₇⟩
      · cases hq
    · cases hq
  · next hd =>
    have hp : coinbaseAt d = 2 := if_neg hd
    rw [← hp] at hq
    obtain ⟨h₀,h₁,h₂,h₃,h₄,h₅,h₆,h₇⟩ := readCoinbaseFrom_strings hq
    exact ⟨h₀,h₁,fun he => absurd he hd,h₂,h₃,h₄,h₅,h₆,h₇⟩

theorem hasLength_iff {i n : Nat} :
    HasLength params i n ↔ ∃ t, stringAt params i = some t ∧ t.length = n := by
  simp [HasLength,Option.map_eq_some_iff]

theorem hasLength_of {i n : Nat} {t : HexText n} (h : stringAt params i = some t.val) :
    HasLength params i (2*n) :=
  hasLength_iff.mpr ⟨t.val,h,t.2⟩

theorem branchEntry_iff (j : Json) :
    (branchEntry j).isSome = true ↔ (jsonStringValue (some j)).map List.length = some 64 := by
  cases j with
  | string s => by_cases hs : s.length = 64 <;> simp [branchEntry,jsonStringValue,hs]
  | _ => simp [branchEntry,jsonStringValue]

theorem refusedLate_iff : q.refusedLate = false ↔
    ∀ j ∈ q.branch,(jsonStringValue (some j)).map List.length = some 64 := by
  simp only [CoinbaseNotify.refusedLate,Bool.not_eq_false',List.all_eq_true,branchEntry_iff]

theorem ReadFrom.shape (h : ReadFrom d params q) (hr : q.refusedLate = false) :
    CoinbaseShape d params where
  jobId := by rw [h.jobId]; rfl
  prevhash := hasLength_of h.prevhash
  claim hd := by
    obtain ⟨claim,-,hc⟩ := h.claim hd
    exact hasLength_of hc
  coinb1 := by rw [h.coinb1]; rfl
  coinb2 := by rw [h.coinb2]; rfl
  branch := ⟨q.branch,h.branch,refusedLate_iff.mp hr⟩
  version := hasLength_of h.version
  nbits := hasLength_of h.nbits
  ntime := hasLength_of h.ntime

theorem readCoinbaseFrom_ok {p : Nat} (claim : Option (HexText 32))
    (hj : (stringAt params 0).isSome = true) (hp : HasLength params 1 64)
    (h₁ : (stringAt params p).isSome = true) (h₂ : (stringAt params (p+1)).isSome = true)
    (hb : ∃ branch, jsonArrayGet params (p+2) = some (.array branch))
    (hv : HasLength params (p+3) 8) (hn : HasLength params (p+4) 8)
    (ht : HasLength params (p+5) 8) : ∃ q, readCoinbaseFrom params claim p = .ok q := by
  obtain ⟨jobId,hj⟩ := Option.isSome_iff_exists.mp hj
  obtain ⟨prevhash,hp,hpl⟩ := hasLength_iff.mp hp
  obtain ⟨coinb1,h₁⟩ := Option.isSome_iff_exists.mp h₁
  obtain ⟨coinb2,h₂⟩ := Option.isSome_iff_exists.mp h₂
  obtain ⟨branch,hb⟩ := hb
  obtain ⟨version,hv,hvl⟩ := hasLength_iff.mp hv
  obtain ⟨nbits,hn,hnl⟩ := hasLength_iff.mp hn
  obtain ⟨ntime,ht,htl⟩ := hasLength_iff.mp ht
  unfold stringAt at hj hp h₁ h₂ hv hn ht
  simp only [readCoinbaseFrom,hb,hj,hp,h₁,h₂,hv,hn,ht,hpl,hvl,hnl,htl,and_self,dite_true]
  exact ⟨_,rfl⟩

theorem CoinbaseShape.reads (h : CoinbaseShape d params) :
    ∃ q, readCoinbaseNotify d params = .ok q ∧ q.refusedLate = false := by
  obtain ⟨branch,hb,hall⟩ := h.branch
  have hread : ∃ q, readCoinbaseNotify d params = .ok q := by
    unfold readCoinbaseNotify
    split
    · next hd =>
      have hp : coinbaseAt d = 3 := if_pos hd
      obtain ⟨claim,hc,hcl⟩ := hasLength_iff.mp (h.claim hd)
      unfold stringAt at hc
      simp only [hc,hcl,dite_true]
      rw [← hp]
      exact readCoinbaseFrom_ok _ h.jobId h.prevhash h.coinb1 h.coinb2 ⟨branch,hb⟩ h.version
        h.nbits h.ntime
    · next hd =>
      have hp : coinbaseAt d = 2 := if_neg hd
      rw [← hp]
      exact readCoinbaseFrom_ok _ h.jobId h.prevhash h.coinb1 h.coinb2 ⟨branch,hb⟩ h.version
        h.nbits h.ntime
  obtain ⟨q,hq⟩ := hread
  refine ⟨q,hq,refusedLate_iff.mpr ?_⟩
  have hqb := (readCoinbaseNotify_strings hq).branch
  rw [hb] at hqb
  obtain rfl : branch = q.branch := Json.array.inj (Option.some.inj hqb)
  exact hall

theorem coinbase_accepted_iff (hd : d ≠ .progpow) :
    (stratumNotify d heap c params).1 = none ↔ CoinbaseShape d params := by
  simp only [stratumNotify,hd,if_false,stratumBitcoinNotify]
  constructor
  · intro hr
    cases hq : readCoinbaseNotify d params with
    | error e => simp [hq] at hr
    | ok q =>
      simp only [hq] at hr
      exact (readCoinbaseNotify_strings hq).shape ((takeCoinbaseNotify_refuses _ _ _).mp hr)
  · intro h
    obtain ⟨q,hq,hr⟩ := h.reads
    simp only [hq]
    exact (takeCoinbaseNotify_refuses _ _ _).mpr hr

theorem textAt_of {i : Nat} {t : CStr} (h : stringAt params i = some t) : textAt params i = t := by
  rw [textAt,h]
  rfl

theorem branch_denotes {branch : List Json}
    (hl : ∀ j ∈ branch,(jsonStringValue (some j)).map List.length = some 64)
    (hx : ∀ j ∈ branch,IsHex (entryText j)) :
    List.Forall₂ Denotes (branch.map entryText)
      ((branch.filterMap (fun j => (branchEntry j).map hexField)).map Subtype.val) := by
  induction branch with
  | nil => exact .nil
  | cons j branch ih =>
    have hrest := ih (fun j hj => hl j (by simp [hj])) (fun j hj => hx j (by simp [hj]))
    obtain ⟨s,hs⟩ := Option.isSome_iff_exists.mp ((branchEntry_iff j).mpr (hl j (by simp)))
    have htext : entryText j = s.val := by
      cases j with
      | string t =>
        by_cases ht : t.length = 64
        · simp only [branchEntry,ht,dite_true,Option.some.injEq] at hs
          subst hs
          rfl
        · simp [branchEntry,ht] at hs
      | _ => cases hs
    have hhex := hx j (by simp)
    rw [htext] at hhex
    simp only [List.map_cons,List.filterMap_cons,hs,Option.map_some,htext]
    exact .cons (denotes_field hhex) hrest

theorem denotes_head {b₁ b₂ : Bytes} {t : CStr} (ht : IsHex t) (hb : b₁ = hexBytes t ++ b₂) :
    Denotes t (b₁.take (t.length/2)) := by
  rw [hb,← hexBytes_length t,List.take_left]
  exact ht.denotes

theorem denotes_last {b₁ b₂ : Bytes} {t : CStr} (ht : IsHex t) (hb : b₁ = b₂ ++ hexBytes t) :
    Denotes t (b₁.drop (b₁.length-t.length/2)) := by
  have hl : (b₂ ++ hexBytes t).length-t.length/2 = b₂.length := by
    rw [List.length_append,hexBytes_length]
    omega
  rw [hb,hl,List.drop_left]
  exact ht.denotes

theorem coinbase_stored (hd : d ≠ .progpow) (hr : (stratumNotify d heap c params).1 = none)
    (hx : ∀ t ∈ notifyTexts d params,IsHex t) :
    List.Forall₂ Denotes (notifyTexts d params)
      (notifyStored d params (stratumNotify d heap c params).2.job) := by
  simp only [stratumNotify,hd,if_false,stratumBitcoinNotify] at hr ⊢
  cases hq : readCoinbaseNotify d params with
  | error e => simp [hq] at hr
  | ok q =>
    simp only [hq] at hr ⊢
    have hs := readCoinbaseNotify_strings hq
    have hlate := (takeCoinbaseNotify_refuses _ _ _).mp hr
    have hbranch : branchOf d params = q.branch := by
      rw [branchOf,hs.branch]
    simp only [notifyTexts,notifyStored,hd,if_false,textAt_of hs.prevhash,textAt_of hs.coinb1,
      textAt_of hs.coinb2,textAt_of hs.version,textAt_of hs.nbits,textAt_of hs.ntime,hbranch]
      at hx ⊢
    have h₁ : IsHex q.coinb1 := hx _ (by simp)
    have h₂ : IsHex q.coinb2 := hx _ (by simp)
    obtain ⟨hm,hv⟩ := takeCoinbaseNotify_mirrors (readCoinbaseNotify_claim hq) h₁.1 h₂.1 hr
    obtain ⟨xnonce2,-,hcb⟩ := hm.coinbase
    have hversion := hv.trans (hex2bin_exact c.job.version q.version)
    rw [Accepted.coinbase] at hcb
    have hleft := hcb
    rw [List.append_assoc,List.append_assoc] at hleft
    rw [hm.prevhash,hversion,hm.nbits,hm.ntime,hm.branch]
    refine List.rel_append (List.rel_append ?_ ?_) ?_
    · split
      · next hlbry =>
        obtain ⟨claim,hclaim,htext⟩ := hs.claim hlbry
        rw [hm.extra claim hclaim,textAt_of htext]
        have hhex : IsHex claim.val := hx _ (by simp [hlbry,textAt_of htext])
        exact .cons (denotes_field hhex) .nil
      · exact .nil
    · exact .cons (denotes_field (hx _ (by simp))) (.cons (denotes_head h₁ hleft)
        (.cons (denotes_last h₂ hcb) (.cons (denotes_field (hx _ (by simp)))
          (.cons (denotes_field (hx _ (by simp))) (.cons (denotes_field (hx _ (by simp))) .nil)))))
    · exact branch_denotes (refusedLate_iff.mp hlate) fun j hj =>
        hx _ (List.mem_append_right _ (List.mem_map_of_mem hj))

theorem readProgpowNotify_strings {q : ProgpowNotify} (hq : readProgpowNotify params = .ok q) :
    (stringAt params 0).isSome = true ∧ stringAt params 1 = some q.headerHash.val ∧
      stringAt params 2 = some q.seedHash.val ∧
      (parseUintField (jsonArrayGet params 5)).isSome = true ∧
      q.target = parseTargetHex (stringAt params 3) := by
  unfold readProgpowNotify at hq
  simp only at hq
  split at hq
  · next jobId headerHash seedHash h₀ h₁ h₂ =>
    split at hq
    · split at hq
      · cases hq
      · next height hh =>
        cases hq
        exact ⟨by rw [stringAt,h₀]; rfl,h₁,h₂,by rw [hh]; rfl,rfl⟩
    · cases hq
  · cases hq

theorem progpow_accepted_iff :
    (stratumNotify .progpow heap c params).1 = none ↔ ProgpowShape c params := by
  simp only [stratumNotify,if_true,stratumProgpowNotify]
  constructor
  · intro hr
    cases hq : readProgpowNotify params with
    | error e => simp [hq] at hr
    | ok q =>
      obtain ⟨h₀,h₁,h₂,h₃,ht⟩ := readProgpowNotify_strings hq
      refine ⟨h₀,hasLength_of h₁,hasLength_of h₂,h₃,?_⟩
      rw [← ht]
      cases htarget : q.target with
      | some target => exact .inl rfl
      | none => exact .inr (by simpa [hq,takeProgpowNotify,htarget] using hr)
  · rintro ⟨h₀,h₁,h₂,h₃,h₄⟩
    obtain ⟨jobId,h₀⟩ := Option.isSome_iff_exists.mp h₀
    obtain ⟨headerHash,h₁,hl₁⟩ := hasLength_iff.mp h₁
    obtain ⟨seedHash,h₂,hl₂⟩ := hasLength_iff.mp h₂
    obtain ⟨height,h₃⟩ := Option.isSome_iff_exists.mp h₃
    unfold stringAt at h₀ h₁ h₂
    have hq : ∃ q, readProgpowNotify params = .ok q := by
      simp only [readProgpowNotify,h₀,h₁,h₂,hl₁,hl₂,h₃,and_self,dite_true]
      exact ⟨_,rfl⟩
    obtain ⟨q,hq⟩ := hq
    obtain ⟨-,-,-,-,ht⟩ := readProgpowNotify_strings hq
    rw [← ht] at h₄
    cases htarget : q.target with
    | some target => simp [hq,takeProgpowNotify,htarget]
    | none => simpa [hq,takeProgpowNotify,htarget] using h₄

theorem progpow_stored (hr : (stratumNotify .progpow heap c params).1 = none)
    (hx : ∀ t ∈ notifyTexts .progpow params,IsHex t) :
    List.Forall₂ Denotes (notifyTexts .progpow params)
      (notifyStored .progpow params (stratumNotify .progpow heap c params).2.job) := by
  simp only [stratumNotify,if_true,stratumProgpowNotify] at hr ⊢
  cases hq : readProgpowNotify params with
  | error e => simp [hq] at hr
  | ok q =>
    obtain ⟨-,h₁,h₂,-,-⟩ := readProgpowNotify_strings hq
    simp only [notifyTexts,notifyStored,if_true,textAt_of h₁,textAt_of h₂] at hx ⊢
    simp only [takeProgpowNotify,hex2bin_exact]
    exact .cons (denotes_field (hx _ (by simp))) (.cons (denotes_field (hx _ (by simp))) .nil)

variable {s : Settings}

theorem nonce_taken_iff (pndx : Nat) :
    (parseSessionNonce s c params pndx).1 = true ↔ NonceShape s params pndx := by
  unfold parseSessionNonce NonceShape
  split
  · rw [hasLength_iff]
    unfold stratumParseNoncePrefix stringAt
    cases jsonStringValue (jsonArrayGet params pndx) with
    | none => simp
    | some noncePrefix =>
      by_cases hl : noncePrefix.length = (64-s.nonceBits)/8*2 <;> simp [hl]
  · unfold stratumParseExtranonce stringAt
    cases jsonStringValue (jsonArrayGet params pndx) with
    | none => simp
    | some xnonce1 =>
      by_cases hsize : toInt32 (jsonIntegerValue (jsonArrayGet params (pndx+1))) < 2 ∨
          16 < toInt32 (jsonIntegerValue (jsonArrayGet params (pndx+1)))
      · simp only [hsize,if_true,Option.isSome_some,true_and,Bool.false_eq_true,false_iff]
        omega
      · simp only [hsize,if_false,Option.isSome_some,true_and,true_iff]
        omega

theorem nonce_stored {pndx : Nat} (hr : (parseSessionNonce s c params pndx).1 = true)
    (hx : IsHex (textAt params pndx)) :
    Denotes (textAt params pndx) (parseSessionNonce s c params pndx).2.xnonce1 := by
  have hshape := (nonce_taken_iff pndx).mp hr
  unfold parseSessionNonce at hr ⊢
  unfold NonceShape at hshape
  split
  · next hd =>
    simp only [hd,if_true] at hr hshape
    obtain ⟨t,ht,hl⟩ := hasLength_iff.mp hshape
    rw [textAt_of ht] at hx ⊢
    unfold stringAt at ht
    simp only [stratumParseNoncePrefix,ht,hl,ne_eq,not_true_eq_false,if_false]
    let noncePrefix : HexText ((64-s.nonceBits)/8) := ⟨t,by rw [hl,Nat.mul_comm]⟩
    rw [hex2bin_exact _ noncePrefix]
    exact denotes_field (s := noncePrefix) hx
  · next hd =>
    simp only [hd,if_false] at hr hshape
    obtain ⟨hgiven,hlow,hhigh⟩ := hshape
    obtain ⟨t,ht⟩ := Option.isSome_iff_exists.mp hgiven
    rw [textAt_of ht] at hx ⊢
    unfold stringAt at ht
    have hsize : ¬(toInt32 (jsonIntegerValue (jsonArrayGet params (pndx+1))) < 2 ∨
        16 < toInt32 (jsonIntegerValue (jsonArrayGet params (pndx+1)))) := by omega
    simp only [stratumParseExtranonce,ht,hsize,if_false]
    rw [hex2bin_even _ hx.1]
    exact hx.denotes

theorem accepted_iff (heap : Nat → UInt8) (c : StratumCtx) (m : Message) :
    (m.take s heap c).1 = true ↔ m.Shaped s c := by
  cases m with
  | notify params =>
    simp only [Message.take,Message.Shaped,Option.isNone_iff_eq_none]
    split
    · next hd =>
      rw [hd]
      exact progpow_accepted_iff
    · next hd => exact coinbase_accepted_iff hd
  | setExtranonce params => exact nonce_taken_iff 0
  | subscribed reply =>
    simp only [Message.take,Message.Shaped,readSubscribed]
    cases hresult : jsonGiven (jsonObjectGet reply (ascii "result")) with
    | false => simp
    | true =>
      cases herror : jsonGiven (jsonObjectGet reply (ascii "error")) with
      | true => simp
      | false => simpa using nonce_taken_iff 1

theorem stored_of_hex (heap : Nat → UInt8) (c : StratumCtx) (m : Message)
    (hr : (m.take s heap c).1 = true) (hx : ∀ t ∈ m.texts s,IsHex t) :
    List.Forall₂ Denotes (m.texts s) (m.stored s (m.take s heap c).2) := by
  have hshape := (accepted_iff heap c m).mp hr
  cases m with
  | notify params =>
    simp only [Message.take,Message.texts,Message.stored,Option.isNone_iff_eq_none] at hr hx ⊢
    by_cases hd : s.dialect = .progpow
    · rw [hd] at hr hx ⊢
      exact progpow_stored hr hx
    · exact coinbase_stored hd hr hx
  | setExtranonce params => exact .cons (nonce_stored hr (hx _ (List.mem_singleton_self _))) .nil
  | subscribed reply =>
    obtain ⟨hresult,herror,-⟩ := hshape
    have htake : (Message.subscribed reply).take s heap c =
        parseSessionNonce s { c with nextDiff := 1 } (jsonObjectGet reply (ascii "result")) 1 := by
      simp [Message.take,readSubscribed,hresult,herror]
    rw [htake] at hr ⊢
    exact .cons (nonce_stored hr (hx _ (List.mem_singleton_self _))) .nil

/-- The decoder reads back what was encoded. A message is kept as it was sent exactly when its
fields are hex, or when it does not get past what is asked of their number and lengths. -/
theorem hex_fields_iff (s : Settings) (heap : Nat → UInt8) (c : StratumCtx) (m : Message) :
    ((∀ (b : Bytes) (p : Fixed b.length), hex2bin p (bin2hex b) = (true,⟨b,rfl⟩)) ∧
      m.Faithful s heap c) ↔ (m.Shaped s c → ∀ t ∈ m.texts s,IsHex t) := by
  constructor
  · rintro ⟨-,hf⟩ hshape
    exact (hf ((accepted_iff heap c m).mpr hshape)).1
  · intro h
    refine ⟨hex2bin_bin2hex,fun hr => ?_⟩
    have hx := h ((accepted_iff heap c m).mp hr)
    exact ⟨hx,stored_of_hex heap c m hr hx⟩

/-- Eight letters make a version, and it is mined as zero. -/
theorem letters_taken :
    ¬ ∀ (s : Settings) (heap : Nat → UInt8) (c : StratumCtx) (m : Message),
      (∀ (b : Bytes) (p : Fixed b.length), hex2bin p (bin2hex b) = (true,⟨b,rfl⟩)) ∧
        m.Faithful s heap c := by
  intro h
  obtain ⟨-,hf⟩ := h anyone (fun _ => 0) .zero
    (.notify (plainNotify (ascii "a") (ascii "zzzzzzzz") (word64 '2')))
  obtain ⟨hx,-⟩ := hf (by decide)
  have hz := (hx (ascii "zzzzzzzz") (by decide)).2 122 (by decide)
  exact absurd hz (by decide)

end VkMiner.Stratum
