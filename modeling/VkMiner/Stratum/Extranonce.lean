import VkMiner.Stratum.Mixing
set_option autoImplicit false

/-! The width of the extranonce2, which the pool may change at any moment, beside a
coinbase that was laid out under an earlier one. -/

namespace VkMiner.Stratum
open Runs

/-- The extranonce2 of a coinbase: `width` bytes between `left` and `right` others. -/
structure Field where
  left : Nat
  width : Nat
  right : Nat
  deriving DecidableEq, Repr

/-- A use of `job.xnonce2`: how many bytes from where, in a buffer of what length, and
the field of the coinbase that is in it. -/
structure Access where
  offset : Nat
  size : Nat
  buffer : Nat
  field : Option Field
  deriving DecidableEq, Repr

/-- `field` and `laid` are those of the last notify that was accepted, `log` the uses
so far; all three are history. -/
structure Roller where
  ctx : StratumCtx
  field : Option Field
  laid : Bytes
  log : List Access

inductive Turn where
  | line (l : Option Json) (heap : Nat → UInt8) (sends : Bool)
  | subscribed (l : Option Json)
  | publishes
  | rolls (w : Work) (counter : UInt64)

def CoinbaseNotify.field (c : StratumCtx) (q : CoinbaseNotify) : Field :=
  ⟨q.coinb1.length/2+c.xnonce1.length,c.xnonce2Size,q.coinb2.length/2⟩

def laysOut (s : Settings) (heap : Nat → UInt8) (c : StratumCtx) (l : Option Json) :
    Option Field :=
  if s.dialect = .progpow ∨ takesJob s heap c l = false then none
  else
    match readCoinbaseNotify s.dialect (jsonObjectGet l (ascii "params")) with
    | .ok q => some (q.field c)
    | .error _ => none

namespace Roller

def start : Roller := ⟨.zero,none,[],[]⟩

def access (m : Roller) : Access :=
  ⟨m.ctx.job.xnonce2,m.ctx.xnonce2Size,m.ctx.job.coinbase.length,m.field⟩

def use (m : Roller) (c : StratumCtx) : Roller := { m with ctx := c, log := m.log ++ [m.access] }

def step (opt : Options) (s : Settings) (h : Hashes) (m : Roller) (e : Turn) : Option Roller :=
  match e with
  | .line l heap sends =>
    let c := (stratumHandleMethod opt s heap sends m.ctx l).ctx
    match laysOut s heap m.ctx l with
    | none => some { m with ctx := c }
    | some f => some { m with ctx := c, field := some f, laid := c.job.coinbase }
  | .subscribed l => some { m with ctx := (readSubscribed s m.ctx l).2 }
  | .publishes =>
    match m.ctx.newJob,m.ctx.job.jobId with
    | true,some jobId => some (m.use (stratumGenWork s.dialect h m.ctx jobId).2)
    | _,_ => none
  | .rolls w counter =>
    match stratumSetExtranonce2 s.dialect h m.ctx w counter with
    | none => some m
    | some r => some (m.use r.2)

/-- The session's width is no more than the job's, where the job is published or rolled. -/
def Fits (m : Roller) (e : Turn) : Prop :=
  match e with
  | .publishes => ∀ f ∈ m.field, m.ctx.xnonce2Size ≤ f.width
  | .rolls w _ => m.ctx.job.jobId = some w.jobId → ∀ f ∈ m.field, m.ctx.xnonce2Size ≤ f.width
  | _ => True

instance (m : Roller) (e : Turn) : Decidable (Fits m e) := by
  unfold Fits
  split <;> infer_instance

end Roller

def Access.Inside (x : Access) : Prop :=
  x.size = 0 ∨ ∃ f ∈ x.field, f.left ≤ x.offset ∧ x.offset+x.size ≤ f.left+f.width ∧
    f.left+f.width+f.right = x.buffer

instance (x : Access) : Decidable x.Inside := inferInstanceAs (Decidable (_ ∨ _))

structure Field.Around (f : Field) (b b' : Bytes) : Prop where
  length : b'.length = b.length
  left : b'.take f.left = b.take f.left
  right : b'.drop (f.left+f.width) = b.drop (f.left+f.width)

theorem Field.Around.trans {f : Field} {b b' b'' : Bytes} (h₁ : f.Around b b')
    (h₂ : f.Around b' b'') : f.Around b b'' :=
  ⟨h₂.length.trans h₁.length,h₂.left.trans h₁.left,h₂.right.trans h₁.right⟩

theorem Field.Around.refl (f : Field) (b : Bytes) : f.Around b b := ⟨rfl,rfl,rfl⟩

theorem overlay_around {f : Field} {b new : Bytes} (hb : f.left+f.width+f.right = b.length)
    (hn : new.length ≤ f.width) : f.Around b (overlay b f.left new) := by
  have hl : (b.take f.left).length = f.left := by
    rw [List.length_take]
    omega
  have hover : overlay b f.left new = b.take f.left ++ (new ++ (b.drop f.left).drop new.length) := by
    have hfits : new.length ≤ (b.drop f.left).length := by
      rw [List.length_drop]
      omega
    have h := @overlay_append (b.take f.left) _ _ hfits
    rwa [List.take_append_drop,hl] at h
  refine ⟨?_,?_,?_⟩
  · rw [hover]
    simp only [List.length_append,hl,List.length_drop]
    omega
  · rw [hover,List.take_append_of_le_length (by omega),List.take_take,Nat.min_self]
  · have hsplit : f.left+f.width = (b.take f.left).length+(new.length+(f.width-new.length)) := by
      omega
    rw [hover,hsplit,← List.drop_drop,List.drop_left,← List.drop_drop,List.drop_left,
      List.drop_drop,List.drop_drop]
    congr 1
    omega

theorem fixed_length {n : Nat} (b : Fixed n) : b.val.length = n := b.2

theorem layCoinbase_length (heap : Nat → UInt8) (c : StratumCtx) (q : CoinbaseNotify) :
    (layCoinbase heap c q).length =
      q.coinb1.length/2+c.xnonce1.length+c.xnonce2Size+q.coinb2.length/2 := by
  unfold layCoinbase
  simp only [List.length_append]
  rw [fixed_length,fixed_length]
  split
  · simp only [List.length_take,List.length_drop,realloc_length]
    omega
  · simp

variable {opt : Options} {s : Settings} {h : Hashes} {heap : Nat → UInt8} {sends : Bool}
  {c : StratumCtx} {l : Option Json}

/-- The layout of a session: what an access through `xnonce2` goes by. -/
structure SameLayout (c c' : StratumCtx) : Prop where
  coinbase : c'.job.coinbase = c.job.coinbase
  xnonce2 : c'.job.xnonce2 = c.job.xnonce2
  jobId : c'.job.jobId = c.job.jobId

theorem SameLayout.of_job {c c' : StratumCtx} (h : c'.job = c.job) : SameLayout c c' :=
  ⟨by rw [h],by rw [h],by rw [h]⟩

theorem notify_refused_layout (hd : s.dialect ≠ .progpow) {params : Option Json}
    (hr : (stratumNotify s.dialect heap c params).1 ≠ none) :
    SameLayout c (stratumNotify s.dialect heap c params).2 := by
  simp only [stratumNotify,hd,if_false,stratumBitcoinNotify] at hr ⊢
  split at hr
  · exact .of_job rfl
  · next q hq =>
    obtain ⟨merkle,hm⟩ := takeCoinbaseNotify_refused hr
    rw [hm]
    exact ⟨rfl,rfl,rfl⟩

theorem notify_accepted_layout (hd : s.dialect ≠ .progpow) {params : Option Json}
    (hr : (stratumNotify s.dialect heap c params).1 = none) :
    ∃ q, readCoinbaseNotify s.dialect params = .ok q ∧
      (stratumNotify s.dialect heap c params).2.job.coinbase = layCoinbase heap (writeVersion c q) q ∧
      (stratumNotify s.dialect heap c params).2.job.xnonce2 = (q.field c).left := by
  simp only [stratumNotify,hd,if_false,stratumBitcoinNotify] at hr ⊢
  cases hq : readCoinbaseNotify s.dialect params with
  | error e => simp [hq] at hr
  | ok q =>
    simp only [hq] at hr
    refine ⟨q,rfl,?_⟩
    unfold takeCoinbaseNotify at hr ⊢
    simp only at hr ⊢
    split at hr
    · cases hr
    · next hw =>
      simp only [hw]
      exact ⟨rfl,rfl⟩

theorem handleMethod_notify (opt : Options) (sends : Bool) (hm : method l = some (ascii "mining.notify")) :
    (stratumHandleMethod opt s heap sends c l).ctx.job =
      (stratumNotify s.dialect heap c (jsonObjectGet l (ascii "params"))).2.job ∧
    (stratumHandleMethod opt s heap sends c l).ctx.xnonce2Size =
      (stratumNotify s.dialect heap c (jsonObjectGet l (ascii "params"))).2.xnonce2Size := by
  unfold stratumHandleMethod
  simp only [hm,if_true]
  split <;> exact ⟨rfl,rfl⟩

theorem handleMethod_other (hm : method l ≠ some (ascii "mining.notify")) :
    (stratumHandleMethod opt s heap sends c l).ctx.job = c.job := by
  unfold stratumHandleMethod
  simp only
  split
  · rfl
  · next name hname =>
    have hn : name ≠ ascii "mining.notify" := fun he => hm (by rw [hname,he])
    rw [if_neg hn]
    split
    · rfl
    · split
      · exact (setDifficulty_job c _).1
      · split
        · exact (setTarget_job opt s c _).1
        · split
          · exact (parseSessionNonce_job s c _ 0).1
          · repeat' split
            all_goals rfl

theorem takesJob_iff : takesJob s heap c l = true ↔ method l = some (ascii "mining.notify") ∧
    (stratumNotify s.dialect heap c (jsonObjectGet l (ascii "params"))).1 = none := by
  simp [takesJob]

theorem handleMethod_keeps (hd : s.dialect ≠ .progpow) (hl : laysOut s heap c l = none) :
    SameLayout c (stratumHandleMethod opt s heap sends c l).ctx := by
  by_cases hm : method l = some (ascii "mining.notify")
  · have hr : (stratumNotify s.dialect heap c (jsonObjectGet l (ascii "params"))).1 ≠ none := by
      intro hr
      obtain ⟨q,hq,-⟩ := notify_accepted_layout hd hr
      have ht := takesJob_iff.mpr ⟨hm,hr⟩
      simp [laysOut,hd,ht,hq] at hl
    have hk := notify_refused_layout hd hr
    obtain ⟨hj,-⟩ := handleMethod_notify opt sends hm
    exact ⟨by rw [hj]; exact hk.coinbase,by rw [hj]; exact hk.xnonce2,by rw [hj]; exact hk.jobId⟩
  · exact .of_job (handleMethod_other hm)

theorem handleMethod_lays (opt : Options) (sends : Bool) {f : Field} (hl : laysOut s heap c l = some f) :
    (stratumHandleMethod opt s heap sends c l).ctx.job.xnonce2 = f.left ∧
      f.left+f.width+f.right =
        (stratumHandleMethod opt s heap sends c l).ctx.job.coinbase.length := by
  unfold laysOut at hl
  split at hl
  · cases hl
  · next hnot =>
    simp only [not_or,Bool.not_eq_false] at hnot
    obtain ⟨hd,ht⟩ := hnot
    obtain ⟨hm,hr⟩ := takesJob_iff.mp ht
    obtain ⟨q,hq,hc,hx⟩ := notify_accepted_layout hd hr
    obtain ⟨hj,-⟩ := handleMethod_notify opt sends hm
    simp only [hq,Option.some.injEq] at hl
    subst hl
    refine ⟨by rw [hj,hx],?_⟩
    rw [hj,hc,layCoinbase_length]
    rfl

theorem parseSessionNonce_none (hd : s.dialect = .progpow) (hc : c.xnonce2Size = 0)
    (params : Option Json) (pndx : Nat) : (parseSessionNonce s c params pndx).2.xnonce2Size = 0 := by
  unfold parseSessionNonce stratumParseNoncePrefix
  simp only [hd,if_true]
  split
  · exact hc
  · split
    · exact hc
    · rfl

theorem handleMethod_none (hd : s.dialect = .progpow) (hc : c.xnonce2Size = 0) :
    (stratumHandleMethod opt s heap sends c l).ctx.xnonce2Size = 0 := by
  by_cases hm : method l = some (ascii "mining.notify")
  · rw [(handleMethod_notify _ _ hm).2]
    unfold stratumNotify stratumProgpowNotify
    simp only [hd,if_true]
    split <;> exact hc
  · unfold stratumHandleMethod
    simp only
    split
    · exact hc
    · next name hname =>
      have hn : name ≠ ascii "mining.notify" := fun he => hm (by rw [hname,he])
      rw [if_neg hn]
      split
      · exact hc
      · split
        · simp only [Handled.of,stratumSetDifficulty]
          split <;> exact hc
        · split
          · simp only [Handled.of,stratumSetTarget,hd,if_true]
            split <;> exact hc
          · split
            · exact parseSessionNonce_none hd hc _ 0
            · repeat' split
              all_goals exact hc

theorem readSubscribed_none (hd : s.dialect = .progpow) (hc : c.xnonce2Size = 0) :
    (readSubscribed s c l).2.xnonce2Size = 0 := by
  unfold readSubscribed
  simp only
  split
  · exact hc
  · exact parseSessionNonce_none hd (c := { c with nextDiff := 1 }) hc _ 1

namespace Roller

variable {m m' : Roller}

/-- The job in force, as the last notify that was accepted laid it out. -/
structure Laid (s : Settings) (m : Roller) : Prop where
  progpow : s.dialect = .progpow → m.ctx.xnonce2Size = 0 ∧ m.field = none
  empty : s.dialect ≠ .progpow → m.field = none → m.ctx.job.jobId = none
  offset : ∀ f ∈ m.field, m.ctx.job.xnonce2 = f.left
  buffer : ∀ f ∈ m.field, f.left+f.width+f.right = m.ctx.job.coinbase.length
  around : ∀ f ∈ m.field, f.Around m.laid m.ctx.job.coinbase
  log : ∀ x ∈ m.log, x.Inside

theorem Laid.use {c : StratumCtx} {jobId : CStr} (hi : Laid s m) (new : Bytes)
    (hid : m.ctx.job.jobId = some jobId) (hf : ∀ f ∈ m.field, m.ctx.xnonce2Size ≤ f.width)
    (hn : new.length ≤ m.ctx.xnonce2Size) (hj : c.job = (m.ctx.withXnonce2 new).job)
    (hsize : c.xnonce2Size = m.ctx.xnonce2Size) : Laid s (m.use c) := by
  have haround : ∀ f ∈ m.field, f.Around m.ctx.job.coinbase c.job.coinbase := by
    intro f hm
    rw [hj,StratumCtx.withXnonce2,hi.offset f hm]
    exact overlay_around (hi.buffer f hm) (Nat.le_trans hn (hf f hm))
  refine ⟨fun hd => ⟨hsize.trans (hi.progpow hd).1,(hi.progpow hd).2⟩,fun hd hnone => ?_,
    fun f hm => ?_,fun f hm => ?_,fun f hm => (hi.around f hm).trans (haround f hm),
    fun x hx => ?_⟩
  · have hnoid := hi.empty hd hnone
    rw [hid] at hnoid
    cases hnoid
  · show c.job.xnonce2 = f.left
    rw [hj]
    exact hi.offset f hm
  · show _ = c.job.coinbase.length
    rw [(haround f hm).length]
    exact hi.buffer f hm
  · rcases List.mem_append.mp hx with hx | hx
    · exact hi.log x hx
    · rw [List.mem_singleton.mp hx]
      by_cases hd : s.dialect = .progpow
      · exact .inl (hi.progpow hd).1
      · cases hfield : m.field with
        | none =>
          have hnoid := hi.empty hd hfield
          rw [hid] at hnoid
          cases hnoid
        | some f =>
          have hm : f ∈ m.field := hfield
          have hoff := hi.offset f hm
          refine .inr ⟨f,hm,Nat.le_of_eq hoff.symm,?_,hi.buffer f hm⟩
          show m.ctx.job.xnonce2+m.ctx.xnonce2Size ≤ f.left+f.width
          rw [hoff]
          exact Nat.add_le_add_left (hf f hm) _

theorem Laid.same {c : StratumCtx} (hi : Laid s m) (hc : s.dialect ≠ .progpow → SameLayout m.ctx c)
    (hsize : s.dialect = .progpow → c.xnonce2Size = 0) : Laid s { m with ctx := c } := by
  have hnp : ∀ f ∈ m.field, s.dialect ≠ .progpow := by
    intro f hm hd
    rw [(hi.progpow hd).2] at hm
    cases hm
  refine ⟨fun hd => ⟨hsize hd,(hi.progpow hd).2⟩,fun hd hnone => ?_,fun f hm => ?_,fun f hm => ?_,
    fun f hm => ?_,hi.log⟩
  · exact (hc hd).jobId.trans (hi.empty hd hnone)
  · exact (hc (hnp f hm)).xnonce2.trans (hi.offset f hm)
  · show _ = c.job.coinbase.length
    rw [(hc (hnp f hm)).coinbase]
    exact hi.buffer f hm
  · show f.Around m.laid c.job.coinbase
    rw [(hc (hnp f hm)).coinbase]
    exact hi.around f hm

theorem Laid.line (hi : Laid s m) (hs : m.step opt s h (.line l heap sends) = some m') :
    Laid s m' := by
  simp only [Roller.step] at hs
  split at hs
  · next hl =>
    cases hs
    exact hi.same (fun hd => handleMethod_keeps hd hl)
      (fun hd => handleMethod_none hd (hi.progpow hd).1)
  · next f hl =>
    have hd : s.dialect ≠ .progpow := by
      intro hd
      simp [laysOut,hd] at hl
    obtain ⟨hoff,hbuf⟩ := handleMethod_lays opt sends hl
    cases hs
    refine ⟨fun hp => absurd hp hd,(fun _ hnone => by cases hnone),?_,?_,?_,hi.log⟩
    · rintro f' ⟨⟩
      exact hoff
    · rintro f' ⟨⟩
      exact hbuf
    · rintro f' ⟨⟩
      exact .refl f _

theorem Laid.step {e : Turn} (hi : Laid s m) (ho : Fits m e) (hs : m.step opt s h e = some m') :
    Laid s m' := by
  cases e with
  | line l heap sends => exact hi.line hs
  | subscribed l =>
    cases hs
    exact hi.same (fun _ => .of_job (readSubscribed_job s m.ctx l).1)
      (fun hd => readSubscribed_none hd (hi.progpow hd).1)
  | publishes =>
    simp only [Roller.step] at hs
    split at hs
    · next jobId hnew hid =>
      cases hs
      refine hi.use (preIncrement (m.ctx.job.xnonce2Bytes m.ctx.xnonce2Size)) hid ho ?_ rfl rfl
      rw [preIncrement_length]
      exact List.length_take_le _ _
    · cases hs
  | rolls w counter =>
    simp only [Roller.step,stratumSetExtranonce2] at hs
    split at hs
    · cases hs
      exact hi
    · next r hr =>
      split at hr
      · next hjob =>
        cases hs
        cases hr
        exact hi.use _ hjob.2 (ho hjob.2) (Nat.le_of_eq (counterBytes_length counter _)) rfl rfl
      · cases hr

theorem Laid.start (s : Settings) : Laid s start where
  progpow _ := ⟨rfl,rfl⟩
  empty _ _ := rfl
  offset f hm := by cases hm
  buffer f hm := by cases hm
  around f hm := by cases hm
  log x hx := by cases hx

/-- A session that publishes and rolls under widths no larger than its job's touches
the extranonce2 of that job and nothing around it. -/
theorem uses_stay_in_field (opt : Options) (s : Settings) (h : Hashes) (m : Roller)
    (hr : Reach (step opt s h) Fits start m) :
    (∀ x ∈ m.log, x.Inside) ∧ ∀ f ∈ m.field, f.Around m.laid m.ctx.job.coinbase := by
  have hi := hr.invariant (I := Laid s) (.start s) (fun _ _ _ hi ho hs => hi.step ho hs)
  exact ⟨hi.log,hi.around⟩

def request (name : CStr) (params : Option Json) : Turn :=
  .line (params.map (fun params => .object
    [(ascii "method",.string name),(ascii "params",params)])) (fun _ => 0) true

def setExtranonce (width : Int) : Turn :=
  request (ascii "mining.set_extranonce") (some (.array [.string (ascii "0a0b"),.integer width]))

def notifies : Turn :=
  request (ascii "mining.notify") (plainNotify (ascii "a") (ascii "20000000") (word64 '2'))

/-- A session that is made narrower under its job. -/
theorem narrower_stays_in_field :
    ∃ m, Reach (step direct anyone plainHashes) Fits start m ∧ m.log.map Access.size = [4,4,2] ∧
      (∀ x ∈ m.log, x.Inside) ∧ ∀ f ∈ m.field, f.Around m.laid m.ctx.job.coinbase := by
  obtain ⟨m,hr,hl⟩ := reach_of_any (step direct anyone plainHashes) Fits start
    [setExtranonce 4,notifies,.publishes,.rolls ⟨[],ascii "a",[]⟩ 7,setExtranonce 2,
      .rolls ⟨[],ascii "a",[]⟩ 8]
    (fun m => m.log.map Access.size = [4,4,2]) (by decide)
  exact ⟨m,hr,hl,uses_stay_in_field direct anyone plainHashes m hr⟩

/-- A session that is made wider rolls over the second half of the coinbase and on. -/
theorem wider_leaves_field :
    ¬ ∀ (opt : Options) (s : Settings) (h : Hashes) (m : Roller),
      Reach (step opt s h) free start m → ∀ x ∈ m.log, x.Inside := by
  intro hall
  obtain ⟨m,hr,hl⟩ := reach_of_any (step direct anyone plainHashes) free start
    [setExtranonce 4,notifies,.publishes,setExtranonce 16,.rolls ⟨[],ascii "a",[]⟩ 7]
    (fun m => m.log.getLast? = some ⟨3,16,8,some ⟨3,4,1⟩⟩) (by decide)
  have hin := hall direct anyone plainHashes m hr _ (List.mem_of_getLast? hl)
  exact absurd hin (by simp [Access.Inside])

end Roller
end VkMiner.Stratum
