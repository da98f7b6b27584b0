import VkMiner.Lib.Runs
import VkMiner.Stratum.Header
import VkMiner.Stratum.Method
set_option autoImplicit false

/-! One session's job under its three writers: the parser of the pool's messages,
the generator of `g_work`, and the workers that roll the extranonce2 in place. -/

namespace VkMiner.Stratum
open ByteOrder Runs

/-- A worker's own copy of the job. It mines only what it has rolled itself. -/
structure Station where
  work : Option Work
  armed : Bool
  deriving DecidableEq

/-- A share as it is serialized, and the header the device hashed to find it. -/
structure Share where
  submission : Submission
  header : Bytes
  deriving DecidableEq

/-- `half` is a notify whose version has been written and whose other fields wait
for the lock. `accepted` and `shares` are history. -/
structure Mixer where
  ctx : StratumCtx
  half : Option CoinbaseNotify
  gWork : Option Work
  workers : List Station
  accepted : List Accepted
  shares : List Share

inductive Event where
  | notify (params : Option Json)
  | takes (heap : Nat → UInt8)
  | setDifficulty (params : Option Json)
  | setExtranonce (params : Option Json) (pndx : Nat)
  | publishes
  | copies (i : Nat)
  | rolls (i : Nat) (counter : UInt64)
  | finds (i : Nat) (nonce : UInt32) (user : CStr) (id : Nat)

/-- One atomic step. The stratum thread's own steps wait for the notify it is in
the middle of; the workers' do not. -/
def step (d : Dialect) (h : Hashes) (m : Mixer) : Event → Option Mixer
  | .notify params =>
    if m.half.isSome then none
    else
      match readCoinbaseNotify d params with
      | .error _ => some m
      | .ok q => some { m with ctx := writeVersion m.ctx q, half := some q }
  | .takes heap =>
    match m.half with
    | none => none
    | some q =>
      let r := takeCoinbaseNotify heap m.ctx q
      if r.1 = none then
        some { m with
          ctx := { r.2 with newJob := true }
          half := none
          accepted := m.accepted ++ [⟨q,m.ctx.xnonce1,m.ctx.xnonce2Size⟩] }
      else some { m with ctx := r.2, half := none }
  | .setDifficulty params =>
    if m.half.isSome then none
    else some { m with ctx := (stratumSetDifficulty m.ctx params).2 }
  | .setExtranonce params pndx =>
    if m.half.isSome then none
    else some { m with ctx := (stratumParseExtranonce m.ctx params pndx).2 }
  | .publishes =>
    if m.half.isSome ∨ m.ctx.newJob = false then none
    else
      match m.ctx.job.jobId with
      | none => none
      | some jobId =>
        let r := stratumGenWork d h m.ctx jobId
        some { m with ctx := r.2, gWork := some r.1 }
  | .copies i =>
    match m.gWork with
    | none => none
    | some w => some { m with workers := m.workers.set i ⟨some w,false⟩ }
  | .rolls i counter =>
    match m.workers[i]? with
    | some ⟨some w,_⟩ =>
      match stratumSetExtranonce2 d h m.ctx w counter with
      | none => some m
      | some (w',c) => some { m with ctx := c, workers := m.workers.set i ⟨some w',true⟩ }
    | _ => none
  | .finds i nonce user id =>
    match m.workers[i]? with
    | some ⟨some w,true⟩ =>
      let w' := { w with data := w.data.set (nonceIndex d) nonce }
      some { m with
        workers := m.workers.set i ⟨some w',true⟩
        shares := m.shares ++
          [⟨stdLeBuildStratumRequest d user w' id,deviceHeader d w'.data⟩] }
    | _ => none

def Mixer.start (n : Nat) : Mixer where
  ctx := .zero
  half := none
  gWork := none
  workers := List.replicate n ⟨none,false⟩
  accepted := []
  shares := []

/-- The header the device hashed is the one the pool rebuilds from one accepted
notify of the share's job, and the share's own fields. -/
def Share.Sound (h : Hashes) (accepted : List Accepted) (s : Share) : Prop :=
  ∃ a ∈ accepted, a.notify.jobId = s.submission.jobId ∧
    (hexBytes s.submission.xnonce2).length = a.width ∧
    s.header = a.header h (hexBytes s.submission.xnonce2) (hexBytes s.submission.ntime)
      (hexBytes s.submission.nonce)

/-- The condition under which an event mixes nothing into the job in force: a
notify that is refused late repeats the version and leaves no branch behind, the
halves of a coinbase are whole bytes, and the extranonce2 is counted up and rolled
under the width that the job was accepted under. -/
def OnePiece (d : Dialect) (m : Mixer) (e : Event) : Prop :=
  match e with
  | .notify params =>
    ∀ q ∈ (readCoinbaseNotify d params).toOption,
      if q.refusedLate then m.ctx.job.version = hexField q.version ∧ m.ctx.job.merkleCount = 0
      else q.coinb1.length%2 = 0 ∧ q.coinb2.length%2 = 0
  | .publishes =>
    ∀ a ∈ m.accepted.getLast?,
      m.ctx.xnonce2Size ≤ a.width ∨ (m.ctx.job.xnonce2Bytes a.width).any (fun b => b ≠ 255) = true
  | .rolls i _ =>
    ∀ a ∈ m.accepted.getLast?, ∀ st ∈ m.workers[i]?, ∀ w ∈ st.work,
      m.ctx.job.jobId = some w.jobId →
        m.ctx.xnonce2Size = a.width ∧
          ∀ q ∈ m.half, hexField q.version = hexField a.notify.version
  | _ => True

instance (d : Dialect) (m : Mixer) (e : Event) : Decidable (OnePiece d m e) :=
  match e with
  | .notify params => inferInstanceAs (Decidable (∀ q ∈ (readCoinbaseNotify d params).toOption,
      if q.refusedLate then m.ctx.job.version = hexField q.version ∧ m.ctx.job.merkleCount = 0
      else q.coinb1.length%2 = 0 ∧ q.coinb2.length%2 = 0))
  | .publishes => inferInstanceAs (Decidable (∀ a ∈ m.accepted.getLast?,
      m.ctx.xnonce2Size ≤ a.width ∨
        (m.ctx.job.xnonce2Bytes a.width).any (fun b => b ≠ 255) = true))
  | .rolls i _ => inferInstanceAs (Decidable
      (∀ a ∈ m.accepted.getLast?, ∀ st ∈ m.workers[i]?, ∀ w ∈ st.work,
        m.ctx.job.jobId = some w.jobId →
          m.ctx.xnonce2Size = a.width ∧
            ∀ q ∈ m.half, hexField q.version = hexField a.notify.version))
  | .takes _ | .setDifficulty _ | .setExtranonce _ _ | .copies _ | .finds _ _ _ _ =>
    isTrue trivial

theorem overlay_append {left b new : Bytes} (h : new.length ≤ b.length) :
    overlay (left ++ b) left.length new = left ++ (new ++ b.drop new.length) := by
  unfold overlay
  have hd : (left ++ b).drop (left.length+new.length) = b.drop new.length := by
    simp
  have ht : (left ++ b).take left.length = left := List.take_left
  rw [hd,ht,List.append_assoc,List.take_of_length_le]
  simp only [List.length_append,List.length_drop]
  omega

theorem preIncrement_length (b : Bytes) : (preIncrement b).length = b.length := by
  induction b with
  | nil => rfl
  | cons x b ih =>
    unfold preIncrement
    split <;> simp [ih]

theorem preIncrement_append {x : Bytes} (right : Bytes) (h : x.any (fun b => b ≠ 255) = true) :
    preIncrement (x ++ right) = preIncrement x ++ right := by
  induction x with
  | nil => simp at h
  | cons b x ih =>
    by_cases hb : b+1 = 0
    · have hfull : b = 255 := by
        have hz : b = 0-1 := by rw [← hb]; simp
        exact hz
      have hx : x.any (fun b => b ≠ 255) = true := by simpa [hfull] using h
      simp [preIncrement,hb,ih hx]
    · simp [preIncrement,hb]

/-- A field that is incremented as far as `n` stays a field of its own length, if
it is wide enough or has room for the carry. -/
theorem increment_field {x : Bytes} (right : Bytes) {n : Nat}
    (h : n ≤ x.length ∨ x.any (fun b => b ≠ 255) = true) :
    ∃ y, y.length = x.length ∧
      preIncrement ((x ++ right).take n) ++ (x ++ right).drop n = y ++ right := by
  by_cases hn : n ≤ x.length
  · refine ⟨preIncrement (x.take n) ++ x.drop n,?_,?_⟩
    · simp only [List.length_append,preIncrement_length,List.length_take,List.length_drop]
      omega
    · rw [List.take_append_of_le_length hn,List.drop_append_of_le_length hn,List.append_assoc]
  · have hc : x.any (fun b => b ≠ 255) = true := h.resolve_left hn
    refine ⟨preIncrement x,preIncrement_length x,?_⟩
    have ht : (x ++ right).take n = x ++ right.take (n-x.length) := by
      rw [List.take_append,List.take_of_length_le (by omega)]
    have hd : (x ++ right).drop n = right.drop (n-x.length) := by
      rw [List.drop_append,List.drop_eq_nil_of_le (by omega),List.nil_append]
    rw [ht,hd,preIncrement_append _ hc,List.append_assoc,List.take_append_drop]

theorem writeBranch_entries {buffer : List (Fixed 32)} {branch : List Json}
    (h : (writeBranch buffer branch).1 = true) :
    (writeBranch buffer branch).2.take branch.length =
      branch.filterMap (fun j => (branchEntry j).map hexField) := by
  induction branch generalizing buffer with
  | nil => simp
  | cons j branch ih =>
    cases buffer with
    | nil => simp [writeBranch] at h
    | cons old buffer =>
      cases hj : branchEntry j with
      | none => simp [writeBranch,hj] at h
      | some s =>
        have hrest : (writeBranch buffer branch).1 = true := by simpa [writeBranch,hj] using h
        simp [writeBranch,hj,ih hrest]

theorem realloc_length (heap : Nat → UInt8) (old : Bytes) (n : Nat) :
    (realloc heap old n).length = n := by
  simp only [realloc,List.length_append,List.length_take,List.length_map,List.length_range]
  omega

/-- With both halves of even length, nothing of the old coinbase is left but the
extranonce2, which any value may fill. -/
theorem layCoinbase_even {q : CoinbaseNotify} (heap : Nat → UInt8) (c : StratumCtx)
    (h₁ : q.coinb1.length%2 = 0) (h₂ : q.coinb2.length%2 = 0) :
    ∃ xnonce2, xnonce2.length = c.xnonce2Size ∧
      layCoinbase heap c q = Accepted.coinbase ⟨q,c.xnonce1,c.xnonce2Size⟩ xnonce2 := by
  let n₂ := q.coinb2.length/2
  let at₂ := q.coinb1.length/2+c.xnonce1.length
  let base := realloc heap c.job.coinbase (at₂+c.xnonce2Size+n₂)
  have hlen : base.length = at₂+c.xnonce2Size+n₂ := realloc_length _ _ _
  refine ⟨if c.job.jobId = some q.jobId then (base.drop at₂).take c.xnonce2Size
    else List.replicate c.xnonce2Size 0,?_,?_⟩
  · split
    · simp only [List.length_take,List.length_drop,hlen]
      omega
    · simp
  · unfold layCoinbase Accepted.coinbase
    simp only [hex2bin_even _ h₁,hex2bin_even _ h₂]
    rfl

theorem takeCoinbaseNotify_refuses (heap : Nat → UInt8) (c : StratumCtx) (q : CoinbaseNotify) :
    (takeCoinbaseNotify heap c q).1 = none ↔ q.refusedLate = false := by
  have hw := writeBranch_accepts (branchBuffer_length c.job.merkle q.branch.length)
  unfold takeCoinbaseNotify CoinbaseNotify.refusedLate
  cases hall : q.branch.all (fun j => (branchEntry j).isSome) <;> simp [hw,hall]

variable {d : Dialect} {h : Hashes}

theorem takeCoinbaseNotify_mirrors {heap : Nat → UInt8} {c : StratumCtx} {q : CoinbaseNotify}
    (hc : q.claim.isSome = decide (d = .lbry)) (h₁ : q.coinb1.length%2 = 0)
    (h₂ : q.coinb2.length%2 = 0) (hr : (takeCoinbaseNotify heap c q).1 = none) :
    Mirrors d ⟨q,c.xnonce1,c.xnonce2Size⟩ (takeCoinbaseNotify heap c q).2.job ∧
      (takeCoinbaseNotify heap c q).2.job.version = c.job.version := by
  cases hw : (writeBranch (branchBuffer c.job.merkle q.branch.length) q.branch).1 with
  | false => simp [takeCoinbaseNotify,hw] at hr
  | true =>
    have he := writeBranch_entries hw
    unfold takeCoinbaseNotify
    simp only [hw,Bool.true_eq_false,if_false]
    refine ⟨⟨rfl,hex2bin_exact _ _,hc,?_,hex2bin_exact _ _,hex2bin_exact _ _,he,?_,
      layCoinbase_even heap c h₁ h₂⟩,trivial⟩
    · intro claim hclaim
      simp only at hclaim ⊢
      rw [hclaim]
      exact hex2bin_exact _ _
    · simp

theorem takeCoinbaseNotify_refused {heap : Nat → UInt8} {c : StratumCtx} {q : CoinbaseNotify}
    (hr : (takeCoinbaseNotify heap c q).1 ≠ none) :
    ∃ merkle, (takeCoinbaseNotify heap c q).2 =
      { c with job := { c.job with merkle := merkle, merkleCount := 0 } } := by
  cases hw : (writeBranch (branchBuffer c.job.merkle q.branch.length) q.branch).1 with
  | false => exact ⟨_,by simp only [takeCoinbaseNotify,hw,if_true]; rfl⟩
  | true => simp [takeCoinbaseNotify,hw] at hr

theorem readCoinbaseFrom_claim {params : Option Json} {claim : Option (HexText 32)} {p : Nat}
    {q : CoinbaseNotify} (hq : readCoinbaseFrom params claim p = .ok q) : q.claim = claim := by
  unfold readCoinbaseFrom at hq
  simp only at hq
  split at hq
  · split at hq
    · split at hq
      · cases hq
        rfl
      · cases hq
    · cases hq
  · cases hq

theorem readCoinbaseNotify_claim {params : Option Json} {q : CoinbaseNotify}
    (hq : readCoinbaseNotify d params = .ok q) : q.claim.isSome = decide (d = .lbry) := by
  unfold readCoinbaseNotify at hq
  split at hq
  · next hd =>
    split at hq
    · split at hq
      · rw [readCoinbaseFrom_claim hq]
        simp [hd]
      · cases hq
    · cases hq
  · next hd =>
    rw [readCoinbaseFrom_claim hq]
    simp [hd]

/-- A worker's copy that was built in one piece: from a job that mirrors one
accepted notify, up to the nonce. -/
def Work.Built (d : Dialect) (h : Hashes) (accepted : List Accepted) (w : Work) : Prop :=
  ∃ a ∈ accepted, ∃ j, a.notify.jobId = w.jobId ∧ w.xnonce2.length = a.width ∧ Mirrors d a j ∧
    j.version = hexField a.notify.version ∧ j.coinbase = a.coinbase w.xnonce2 ∧
    ∀ nonce, w.data.set (nonceIndex d) nonce =
      (buildExtraheader d h j).set (nonceIndex d) nonce

/-- What is known of a notify between its two halves. -/
structure HalfRead (d : Dialect) (m : Mixer) (q : CoinbaseNotify) : Prop where
  claim : q.claim.isSome = decide (d = .lbry)
  version : m.ctx.job.version = hexField q.version
  refused : q.refusedLate = true → m.ctx.job.merkleCount = 0 ∧
    ∀ a, m.accepted.getLast? = some a → hexField a.notify.version = hexField q.version
  taken : q.refusedLate = false → q.coinb1.length%2 = 0 ∧ q.coinb2.length%2 = 0

/-- The job in force mirrors the last accepted notify, and so does, or did, every
worker's copy. -/
structure Intact (d : Dialect) (h : Hashes) (m : Mixer) : Prop where
  fresh : m.accepted = [] → m.ctx.job.jobId = none
  job : ∀ a, m.accepted.getLast? = some a → Mirrors d a m.ctx.job
  version : ∀ a, m.accepted.getLast? = some a → m.half = none →
    m.ctx.job.version = hexField a.notify.version
  half : ∀ q, m.half = some q → HalfRead d m q
  built : ∀ st ∈ m.workers, ∀ w, st.work = some w → st.armed = true → w.Built d h m.accepted
  shares : ∀ s ∈ m.shares, s.Sound h m.accepted

variable {m m' : Mixer}

theorem Mirrors.withVersion {a : Accepted} {j : StratumJob} (hm : Mirrors d a j)
    (version : Fixed 4) : Mirrors d a { j with version := version } :=
  ⟨hm.jobId,hm.prevhash,hm.claim,hm.extra,hm.nbits,hm.ntime,hm.branch,hm.offset,hm.coinbase⟩

theorem Mirrors.withXnonce2 {a : Accepted} {c : StratumCtx} {new : Bytes}
    (hm : Mirrors d a c.job) (hn : new.length = a.width) :
    Mirrors d a (c.withXnonce2 new).job ∧ (c.withXnonce2 new).job.coinbase = a.coinbase new := by
  obtain ⟨x,hx,hc⟩ := hm.coinbase
  have ho : (c.withXnonce2 new).job.coinbase = a.coinbase new := by
    have hl : c.job.xnonce2 = (hexBytes a.notify.coinb1 ++ a.xnonce1).length := by
      rw [hm.offset,List.length_append]
    have hnx : new.length = x.length := hn.trans hx.symm
    simp only [StratumCtx.withXnonce2,hc,hl,Accepted.coinbase]
    rw [List.append_assoc _ x,overlay_append (by simp [hnx]),hnx,List.drop_left]
    simp
  exact ⟨⟨hm.jobId,hm.prevhash,hm.claim,hm.extra,hm.nbits,hm.ntime,hm.branch,hm.offset,
    new,hn,ho⟩,ho⟩

theorem Mirrors.preIncrement {a : Accepted} {c : StratumCtx} (hm : Mirrors d a c.job)
    (hw : c.xnonce2Size ≤ a.width ∨
      (c.job.xnonce2Bytes a.width).any (fun b => b ≠ 255) = true) :
    Mirrors d a (c.withXnonce2 (preIncrement (c.job.xnonce2Bytes c.xnonce2Size))).job := by
  obtain ⟨x,hx,hc⟩ := hm.coinbase
  have hl : c.job.xnonce2 = (hexBytes a.notify.coinb1 ++ a.xnonce1).length := by
    rw [hm.offset,List.length_append]
  have hfield (size : Nat) : c.job.xnonce2Bytes size =
      (x ++ hexBytes a.notify.coinb2).take size := by
    unfold StratumJob.xnonce2Bytes
    rw [hc,hl,Accepted.coinbase,List.append_assoc _ x,List.drop_left]
  have hroom : c.xnonce2Size ≤ x.length ∨ x.any (fun b => b ≠ 255) = true := by
    rwa [hfield,← hx,List.take_left] at hw
  obtain ⟨y,hy,hinc⟩ := increment_field (hexBytes a.notify.coinb2) hroom
  have ho : (c.withXnonce2 (Stratum.preIncrement (c.job.xnonce2Bytes c.xnonce2Size))).job.coinbase =
      a.coinbase y := by
    have hdrop : (x ++ hexBytes a.notify.coinb2).drop
        (Stratum.preIncrement ((x ++ hexBytes a.notify.coinb2).take c.xnonce2Size)).length =
        (x ++ hexBytes a.notify.coinb2).drop c.xnonce2Size := by
      rw [preIncrement_length,List.length_take]
      rcases Nat.le_total c.xnonce2Size (x ++ hexBytes a.notify.coinb2).length with hle | hle
      · rw [Nat.min_eq_left hle]
      · rw [Nat.min_eq_right hle,List.drop_length,List.drop_eq_nil_of_le hle]
    simp only [StratumCtx.withXnonce2,hfield]
    rw [hc,hl,Accepted.coinbase,List.append_assoc _ x,overlay_append,hdrop,hinc]
    · simp [Accepted.coinbase]
    · rw [preIncrement_length]
      exact List.length_take_le' _ _
  exact ⟨hm.jobId,hm.prevhash,hm.claim,hm.extra,hm.nbits,hm.ntime,hm.branch,hm.offset,
    y,hy.trans hx,ho⟩

theorem Work.Built.later {accepted : List Accepted} {w : Work} (a : Accepted)
    (hb : w.Built d h accepted) : w.Built d h (accepted ++ [a]) := by
  obtain ⟨b,hm,hj⟩ := hb
  exact ⟨b,List.mem_append_left _ hm,hj⟩

theorem Share.Sound.later {accepted : List Accepted} {s : Share} (a : Accepted)
    (hs : s.Sound h accepted) : s.Sound h (accepted ++ [a]) := by
  obtain ⟨b,hm,hj⟩ := hs
  exact ⟨b,List.mem_append_left _ hm,hj⟩

theorem Intact.start (n : Nat) : Intact d h (Mixer.start n) where
  fresh _ := rfl
  job a ha := by simp [Mixer.start] at ha
  version a ha := by simp [Mixer.start] at ha
  half q hq := by simp [Mixer.start] at hq
  built st hst w hw := by
    rw [List.eq_of_mem_replicate hst] at hw
    cases hw
  shares s hs := by simp [Mixer.start] at hs

theorem Intact.withCtx {c : StratumCtx} {gWork : Option Work} (hi : Intact d h m)
    (hid : c.job.jobId = m.ctx.job.jobId) (hv : c.job.version = m.ctx.job.version)
    (hn : c.job.merkleCount = m.ctx.job.merkleCount)
    (hm : ∀ a, m.accepted.getLast? = some a → Mirrors d a c.job) :
    Intact d h { m with ctx := c, gWork := gWork } where
  fresh ha := hid.trans (hi.fresh ha)
  job := hm
  version a ha hh := hv.trans (hi.version a ha hh)
  half q hq :=
    have hk := hi.half q hq
    ⟨hk.claim,hv.trans hk.version,fun hr => ⟨hn.trans (hk.refused hr).1,(hk.refused hr).2⟩,hk.taken⟩
  built := hi.built
  shares := hi.shares

theorem Intact.sameJob {c : StratumCtx} (hi : Intact d h m) (hj : c.job = m.ctx.job) :
    Intact d h { m with ctx := c } := by
  apply hi.withCtx <;> rw [hj]
  exact hi.job

theorem Intact.withWorker {st : Station} {i : Nat} (hi : Intact d h m)
    (hst : ∀ w, st.work = some w → st.armed = true → w.Built d h m.accepted) :
    Intact d h { m with workers := m.workers.set i st } where
  fresh := hi.fresh
  job := hi.job
  version := hi.version
  half q hq :=
    have hk := hi.half q hq
    ⟨hk.claim,hk.version,hk.refused,hk.taken⟩
  built st' hm w hw ha := by
    rcases List.mem_or_eq_of_mem_set hm with hm | rfl
    · exact hi.built st' hm w hw ha
    · exact hst w hw ha
  shares := hi.shares

theorem Intact.notify {params : Option Json} {q : CoinbaseNotify} (hi : Intact d h m)
    (hh : m.half = none) (hq : readCoinbaseNotify d params = .ok q)
    (ho : OnePiece d m (.notify params)) :
    Intact d h { m with ctx := writeVersion m.ctx q, half := some q } where
  fresh := hi.fresh
  job a ha := (hi.job a ha).withVersion _
  version a ha hn := by cases hn
  half q' hq' := by
    cases hq'
    have ho := ho q (by simp [hq,Except.toOption])
    refine ⟨readCoinbaseNotify_claim hq,hex2bin_exact _ _,?_,?_⟩
    · intro hr
      simp only [hr,if_true] at ho
      exact ⟨ho.2,fun a ha => (hi.version a ha hh).symm.trans ho.1⟩
    · intro hr
      simpa [hr] using ho
  built := hi.built
  shares := hi.shares

theorem Intact.takes {heap : Nat → UInt8} {q : CoinbaseNotify} (hi : Intact d h m)
    (hh : m.half = some q) (hr : (takeCoinbaseNotify heap m.ctx q).1 = none) :
    Intact d h
      { m with
        ctx := { (takeCoinbaseNotify heap m.ctx q).2 with newJob := true }
        half := none
        accepted := m.accepted ++ [⟨q,m.ctx.xnonce1,m.ctx.xnonce2Size⟩] } := by
  have hk := hi.half q hh
  have he := hk.taken ((takeCoinbaseNotify_refuses heap m.ctx q).mp hr)
  have hm := takeCoinbaseNotify_mirrors hk.claim he.1 he.2 hr
  exact
    { fresh := fun ha => by simp at ha
      job := fun a ha => by
        simp only [List.getLast?_append,List.getLast?_singleton,Option.some_or,Option.some.injEq] at ha
        exact ha ▸ hm.1
      version := fun a ha _ => by
        simp only [List.getLast?_append,List.getLast?_singleton,Option.some_or,Option.some.injEq] at ha
        rw [← ha]
        exact hm.2.trans hk.version
      half := fun q hq => by cases hq
      built := fun st hst w hw ha => (hi.built st hst w hw ha).later _
      shares := fun s hs => (hi.shares s hs).later _ }

theorem Intact.refuses {heap : Nat → UInt8} {q : CoinbaseNotify} (hi : Intact d h m)
    (hh : m.half = some q) (hr : (takeCoinbaseNotify heap m.ctx q).1 ≠ none) :
    Intact d h { m with ctx := (takeCoinbaseNotify heap m.ctx q).2, half := none } := by
  have hk := hi.half q hh
  have hlate : q.refusedLate = true := by
    rw [Ne,takeCoinbaseNotify_refuses] at hr
    simpa using hr
  obtain ⟨hzero,hsame⟩ := hk.refused hlate
  obtain ⟨merkle,ht⟩ := takeCoinbaseNotify_refused hr
  rw [ht]
  exact
    { fresh := hi.fresh
      job := fun a ha => by
        have hm := hi.job a ha
        refine ⟨hm.jobId,hm.prevhash,hm.claim,hm.extra,hm.nbits,hm.ntime,?_,hm.offset,hm.coinbase⟩
        have hb := hm.branch
        simp only [StratumJob.branch,hzero,List.take_zero] at hb ⊢
        exact hb
      version := fun a ha _ => hk.version.trans (hsame a ha).symm
      half := fun q hq => by cases hq
      built := hi.built
      shares := hi.shares }

theorem Intact.publishes {jobId : CStr} (hi : Intact d h m) (ho : OnePiece d m .publishes) :
    Intact d h
      { m with
        ctx := (stratumGenWork d h m.ctx jobId).2
        gWork := some (stratumGenWork d h m.ctx jobId).1 } := by
  refine hi.withCtx rfl rfl rfl (fun a ha => ?_)
  exact (hi.job a ha).preIncrement (ho a ha)

theorem Intact.rolls {i : Nat} {counter : UInt64} {w w' : Work} {armed : Bool} {c : StratumCtx}
    (hi : Intact d h m) (hw : m.workers[i]? = some ⟨some w,armed⟩)
    (ho : OnePiece d m (.rolls i counter))
    (hr : stratumSetExtranonce2 d h m.ctx w counter = some (w',c)) :
    Intact d h { m with ctx := c, workers := m.workers.set i ⟨some w',true⟩ } := by
  unfold stratumSetExtranonce2 at hr
  split at hr
  · next hj =>
    cases hr
    have hne : m.accepted ≠ [] := fun ha => by rw [hi.fresh ha] at hj; cases hj.2
    obtain ⟨a,ha⟩ : ∃ a, m.accepted.getLast? = some a := ⟨_,List.getLast?_eq_some_getLast hne⟩
    have hm := hi.job a ha
    obtain ⟨hsize,hhalf⟩ := ho a ha _ hw w rfl hj.2
    have hn : (counterBytes counter m.ctx.xnonce2Size).length = a.width := by simp [hsize]
    obtain ⟨hm',hc⟩ := hm.withXnonce2 hn
    have hv : m.ctx.job.version = hexField a.notify.version := by
      cases hh : m.half with
      | none => exact hi.version a ha hh
      | some q => exact (hi.half q hh).version.trans (hhalf q hh)
    have hctx : Intact d h
        { m with ctx := m.ctx.withXnonce2 (counterBytes counter m.ctx.xnonce2Size) } := by
      refine hi.withCtx rfl rfl rfl (fun b hb => ?_)
      cases ha.symm.trans hb
      exact hm'
    refine hctx.withWorker ?_
    rintro _ ⟨⟩ -
    refine ⟨a,List.mem_of_getLast? ha,_,?_,hn,hm',hv,hc,fun _ => rfl⟩
    exact Option.some.inj (hm.jobId.symm.trans hj.2)
  · cases hr

theorem Work.Built.share {accepted : List Accepted} {w : Work} (hd : d ≠ .progpow)
    (hb : w.Built d h accepted) (nonce : UInt32) (user : CStr) (id : Nat) :
    let w' : Work := { w with data := w.data.set (nonceIndex d) nonce }
    Share.Sound h accepted
      ⟨stdLeBuildStratumRequest d user w' id,deviceHeader d w'.data⟩ := by
  obtain ⟨a,ha,j,hid,hlen,hm,hv,hc,hdata⟩ := hb
  have hp := buildExtraheader_pool hd h hm hv hc nonce
  have hn := buildExtraheader_nonce (d := d) h j nonce
  refine ⟨a,ha,hid,?_,?_⟩
  · simp [stdLeBuildStratumRequest,hlen]
  · simp only [stdLeBuildStratumRequest,hexBytes_bin2hex,hdata,hn]
    exact hp

theorem Intact.finds {i id : Nat} {nonce : UInt32} {user : CStr} {w : Work} (hd : d ≠ .progpow)
    (hi : Intact d h m) (hw : m.workers[i]? = some ⟨some w,true⟩) :
    let w' : Work := { w with data := w.data.set (nonceIndex d) nonce }
    Intact d h
      { m with
        workers := m.workers.set i ⟨some w',true⟩
        shares := m.shares ++
          [⟨stdLeBuildStratumRequest d user w' id,deviceHeader d w'.data⟩] } := by
  have hb := hi.built _ (List.mem_of_getElem? hw) w rfl rfl
  have hst : Intact d h
      { m with workers := m.workers.set i ⟨some { w with data := w.data.set (nonceIndex d) nonce },true⟩ } := by
    refine hi.withWorker ?_
    rintro _ ⟨⟩ -
    obtain ⟨a,ha,j,hid,hlen,hm,hv,hc,hdata⟩ := hb
    refine ⟨a,ha,j,hid,hlen,hm,hv,hc,fun later => ?_⟩
    rw [List.set_set]
    exact hdata later
  refine ⟨hst.fresh,hst.job,hst.version,fun q hq => ?_,hst.built,fun s hs => ?_⟩
  · have hk := hi.half q hq
    exact ⟨hk.claim,hk.version,hk.refused,hk.taken⟩
  · rcases List.mem_append.mp hs with hs | hs
    · exact hi.shares s hs
    · rw [List.mem_singleton.mp hs]
      exact hb.share hd nonce user id

theorem Intact.step {e : Event} (hd : d ≠ .progpow) (hi : Intact d h m) (ho : OnePiece d m e)
    (hs : step d h m e = some m') : Intact d h m' := by
  cases e with
  | notify params =>
    simp only [Stratum.step] at hs
    split at hs
    · cases hs
    · next hh =>
      split at hs
      · cases hs
        exact hi
      · next q hq =>
        cases hs
        exact hi.notify (by simpa using hh) hq ho
  | takes heap =>
    simp only [Stratum.step] at hs
    split at hs
    · cases hs
    · next q hh =>
      split at hs
      · next hr =>
        cases hs
        exact hi.takes hh hr
      · next hr =>
        cases hs
        exact hi.refuses hh hr
  | setDifficulty params =>
    simp only [Stratum.step] at hs
    split at hs <;> cases hs
    exact hi.sameJob (setDifficulty_job m.ctx params).1
  | setExtranonce params pndx =>
    simp only [Stratum.step] at hs
    split at hs <;> cases hs
    exact hi.sameJob (parseExtranonce_job m.ctx params pndx).1
  | publishes =>
    simp only [Stratum.step] at hs
    split at hs
    · cases hs
    · split at hs <;> cases hs
      exact hi.publishes ho
  | copies i =>
    simp only [Stratum.step] at hs
    split at hs <;> cases hs
    exact hi.withWorker (fun _ _ ha => by cases ha)
  | rolls i counter =>
    simp only [Stratum.step] at hs
    split at hs
    · next w armed hw =>
      split at hs
      · cases hs
        exact hi
      · next w' c hr =>
        cases hs
        exact hi.rolls hw ho hr
    · cases hs
  | finds i nonce user id =>
    simp only [Stratum.step] at hs
    split at hs
    · next w hw =>
      cases hs
      exact hi.finds hd hw
    · cases hs

/-- Every share carries the header that the pool rebuilds from one notify it sent,
as long as nothing is mixed into the job in force. -/
theorem shares_of_one_notify (d : Dialect) (hd : d ≠ .progpow) (h : Hashes) (n : Nat) (m : Mixer)
    (hr : Reach (step d h) (OnePiece d) (Mixer.start n) m) :
    ∀ s ∈ m.shares, s.Sound h m.accepted :=
  (hr.invariant (I := Intact d h) (.start n) (fun _ _ _ hi ho hs => hi.step hd ho hs)).shares

def minedJob (version : CStr) : List Event :=
  [.setExtranonce (some (.array [.string (ascii "0a0b"),.integer 4])) 0,
    .notify (plainNotify (ascii "a") version (word64 '2')),.takes (fun _ => 0),.publishes,
    .copies 0,.rolls 0 7]

def found : Event := .finds 0 5 (ascii "user") 4

theorem mined_share_of_one_notify :
    ∃ m, Reach (step .bitcoin plainHashes) (OnePiece .bitcoin) (Mixer.start 1) m ∧
      m.shares.length = 1 ∧ ∀ s ∈ m.shares, s.Sound plainHashes m.accepted := by
  obtain ⟨m,hr,hl⟩ := reach_of_any (step .bitcoin plainHashes) (OnePiece .bitcoin) (Mixer.start 1)
    (minedJob (ascii "20000000") ++ [found]) (fun m => m.shares.length = 1) (by decide)
  exact ⟨m,hr,hl,shares_of_one_notify .bitcoin (by decide) plainHashes 1 m hr⟩

/-- The version of a notify that was refused is mined under the job before it, and
no hash function makes up for that. -/
theorem refused_version_is_mined :
    ¬ ∃ h : Hashes, ∀ (d : Dialect), d ≠ .progpow → ∀ (n : Nat) (m : Mixer),
      Reach (step d h) free (Mixer.start n) m → ∀ s ∈ m.shares, s.Sound h m.accepted := by
  rintro ⟨h,hall⟩
  have hlate : (follow (step .bitcoin h) free (Mixer.start 1)
      (minedJob (ascii "20000000") ++
        [.notify (plainNotify (ascii "b") (ascii "30000000") (ascii "short")),
          .takes (fun _ => 0),.rolls 0 8,found])).map
      (fun m => (m.accepted.map (fun a => (hexField a.notify.version).val),
        m.shares.map (fun s => s.header.take 4))) = some ([[32,0,0,0]],[beBytes 48]) := by
    rfl
  obtain ⟨m,hm,hp⟩ := Option.map_eq_some_iff.mp hlate
  obtain ⟨hversions,hheaders⟩ := Prod.mk.inj hp
  obtain ⟨s,hs,hhead⟩ : ∃ s ∈ m.shares, s.header.take 4 = beBytes 48 := by
    rw [← List.mem_map,hheaders]
    exact List.mem_singleton_self _
  obtain ⟨a,ha,-,-,heq⟩ := hall .bitcoin (by decide) 1 m (.of_follow hm) s hs
  have hv : (hexField a.notify.version).val = [32,0,0,0] := by
    rw [← List.mem_singleton,← hversions]
    exact List.mem_map_of_mem ha
  rw [heq] at hhead
  simp [Accepted.header,hv,swapWords,beBytes] at hhead

end VkMiner.Stratum
