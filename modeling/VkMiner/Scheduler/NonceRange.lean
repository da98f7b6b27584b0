import Mathlib.Logic.Function.Basic
import VkMiner.Lib.Runs
import VkMiner.Stratum.Header
set_option autoImplicit false

/-! How the workers divide the nonces of a job: the range of `bind_algo`, the clamp of
the last dispatch, and the extranonce2 that each worker counts up on its own. -/

namespace VkMiner.Scheduler
open Runs Stratum

def rangeMargin : Nat := 32

def rollsXnonce2 (bits : Nat) : Bool := decide (bits ≤ 32)

def space (bits : Nat) : Nat := if 64 ≤ bits then 18446744073709551615 else 1 <<< bits

def range (n bits : Nat) : Nat := space bits/n

def firstNonce (n bits i : Nat) : Nat := range n bits*i

def sub64 (a b : Nat) : Nat := (a+18446744073709551616-b)%18446744073709551616

def endNonce (n bits i : Nat) : Nat := sub64 (firstNonce n bits i+range n bits) rangeMargin

def clampedBatch (last nonce : Nat) (batch : UInt32) : Nat :=
  if sub64 last batch.toNat < nonce then sub64 last nonce%4294967296 else batch.toNat

def clampWraps (last nonce : Nat) (batch : UInt32) : Bool :=
  decide (last < batch.toNat) || decide (sub64 last batch.toNat < nonce) && decide (last < nonce)

/-- A job, but for the extranonce2: `content` is all the header is built from. -/
structure Job (β : Type*) where
  id : CStr
  content : β
  deriving DecidableEq

structure Header (β : Type*) where
  content : β
  field : Bytes
  deriving DecidableEq

/-- A worker. `walk` counts how often it has begun its range, and is history. -/
structure Worker (β : Type*) where
  nonce : Nat
  counter : UInt64
  walk : Nat
  armed : Bool
  kernel : Bool
  epoch : UInt32
  work : Option (Job β × Header β)

/-- The nonces `first` to `first+batch` of a header. -/
structure Dispatch (β : Type*) where
  worker : Nat
  walk : Nat
  header : Header β
  first : Nat
  batch : Nat
  deriving DecidableEq

/-- `log` and `wraps`, which counts the clamps that went below zero, are history. -/
structure Fleet (β : Type*) where
  session : Option (Job β)
  width : Nat
  gWork : Option (UInt32 × Job β)
  workers : Nat → Worker β
  log : List (Dispatch β)
  wraps : Nat

inductive Event (β : Type*) where
  | notify (job : Job β)
  | setExtranonce (width : Nat)
  | publishes
  | takes (i : Nat)
  | parks (i : Nat)
  | builds (i : Nat)
  | rolls (i : Nat)
  | dispatches (i : Nat) (batch : UInt32) (ok : Bool)

variable {β : Type*}

namespace Fleet

def set (m : Fleet β) (i : Nat) (w : Worker β) : Fleet β :=
  { m with workers := Function.update m.workers i w }

/-- Every worker is bound to the algorithm, and has no job yet. -/
def start (n bits : Nat) : Fleet β where
  session := none
  width := 0
  gWork := none
  workers i := ⟨firstNonce n bits i,UInt64.ofNat i,0,false,false,0,none⟩
  log := []
  wraps := 0

def exhaust (n bits i : Nat) (w : Worker β) : Worker β :=
  if rollsXnonce2 bits then
    { w with nonce := firstNonce n bits i, counter := w.counter+UInt64.ofNat n, armed := false,
             walk := w.walk+1 }
  else { w with nonce := firstNonce n bits i, walk := w.walk+1 }

def dispatch (n bits i : Nat) (m : Fleet β) (header : Header β) (batch : UInt32) (ok : Bool) :
    Fleet β :=
  let w := m.workers i
  let last := endNonce n bits i
  let b := clampedBatch last w.nonce batch
  let m := { m with wraps := m.wraps+(clampWraps last w.nonce batch).toNat }
  if b = 0 then m.set i (exhaust n bits i w)
  else if ok then
    { m.set i { w with nonce := w.nonce+b } with
      log := m.log ++ [⟨i,w.walk,header,w.nonce,b⟩] }
  else m

/-- `n` workers on an algorithm whose nonce has `bits` bits. A roll takes whatever
the session holds under the worker's job id by then. -/
def step (n bits : Nat) (m : Fleet β) (e : Event β) : Option (Fleet β) :=
  match e with
  | .notify job => some { m with session := some job }
  | .setExtranonce width =>
    if 2 ≤ width ∧ width ≤ 16 then some { m with width := width } else none
  | .publishes =>
    m.session.map (fun job => { m with gWork := some ((m.gWork.map Prod.fst).getD 0+1,job) })
  | .takes i =>
    match m.gWork with
    | none => none
    | some (epoch,job) =>
      let w := m.workers i
      if i < n ∧ w.epoch ≠ epoch then
        some (m.set i
          { w with
            nonce := firstNonce n bits i
            counter := w.counter+UInt64.ofNat n
            walk := w.walk+1
            armed := false
            epoch := epoch
            work := some (job,⟨job.content,[]⟩) })
      else none
  | .parks i => if i < n then some (m.set i { m.workers i with kernel := false }) else none
  | .builds i => if i < n then some (m.set i { m.workers i with kernel := true }) else none
  | .rolls i =>
    let w := m.workers i
    match w.work,m.session with
    | some (job,_),some current =>
      if i < n ∧ rollsXnonce2 bits ∧ w.armed = false ∧ m.width ≠ 0 ∧ current.id = job.id then
        some (m.set i
          { w with
            armed := true
            work := some (job,⟨current.content,counterBytes w.counter m.width⟩) })
      else none
    | _,_ => none
  | .dispatches i batch ok =>
    let w := m.workers i
    match w.work with
    | none => none
    | some (_,header) =>
      if i < n ∧ w.kernel ∧ (rollsXnonce2 bits → w.armed) then
        some (m.dispatch n bits i header batch ok)
      else none

end Fleet

def Dispatch.Covers (d : Dispatch β) (x : Nat) : Prop := d.first ≤ x ∧ x < d.first+d.batch

/-- Whether a dispatch lies in its worker's own range. -/
def Dispatch.Inside (n bits : Nat) (d : Dispatch β) : Prop :=
  d.worker < n ∧ firstNonce n bits d.worker ≤ d.first ∧
    d.first+d.batch ≤ firstNonce n bits d.worker+range n bits

def span : Nat → Nat
  | 0 => 1
  | k+1 => span k*256

/-- The extranonce2 of a worker's walk, before it is cut to the field. -/
def counterOf (n : Nat) (d : Dispatch β) : Nat := d.worker+n*d.walk

/-- The preferred batch is no larger than the nonce at which the worker's range ends. -/
def Fits (n bits : Nat) (_ : Fleet β) (e : Event β) : Prop :=
  match e with
  | .dispatches i batch _ => batch.toNat ≤ endNonce n bits i
  | _ => True

instance (n bits : Nat) (m : Fleet β) (e : Event β) : Decidable (Fits n bits m e) := by
  unfold Fits
  split <;> infer_instance

section Ranges

variable {n bits i : Nat}

theorem space_eq (hb : bits = 32 ∨ bits = 48) :
    space bits = 4294967296 ∨ space bits = 281474976710656 := by
  rcases hb with rfl | rfl
  · exact .inl rfl
  · exact .inr rfl

theorem range_bounds (hn : 0 < n ∧ n ≤ 9999) (hb : bits = 32 ∨ bits = 48) :
    rangeMargin ≤ range n bits ∧ range n bits*n ≤ 281474976710656 := by
  have hs := space_eq hb
  have hmul : range n bits*n ≤ space bits := Nat.div_mul_le_self _ _
  have hle : rangeMargin ≤ range n bits := by
    unfold range
    rw [Nat.le_div_iff_mul_le hn.1]
    unfold rangeMargin
    omega
  omega

/-- No range reaches past 48 bits, and so none of its ends is cut. -/
theorem endNonce_eq (hn : 0 < n ∧ n ≤ 9999) (hb : bits = 32 ∨ bits = 48) (hi : i < n) :
    endNonce n bits i+rangeMargin = firstNonce n bits i+range n bits ∧
      endNonce n bits i < 281474976710656 := by
  obtain ⟨hr,hmul⟩ := range_bounds hn hb
  have htop : firstNonce n bits i+range n bits ≤ range n bits*n := by
    unfold firstNonce
    rw [← Nat.mul_succ]
    exact Nat.mul_le_mul_left _ hi
  unfold endNonce sub64
  unfold rangeMargin at hr ⊢
  omega

theorem firstNonce_le_endNonce (hn : 0 < n ∧ n ≤ 9999) (hb : bits = 32 ∨ bits = 48)
    (hi : i < n) : firstNonce n bits i ≤ endNonce n bits i := by
  have hr := (range_bounds hn hb).1
  have he := (endNonce_eq hn hb hi).1
  omega

theorem ranges_disjoint {j x : Nat} (hi : firstNonce n bits i ≤ x)
    (hi' : x < firstNonce n bits i+range n bits) (hj : firstNonce n bits j ≤ x)
    (hj' : x < firstNonce n bits j+range n bits) : i = j := by
  have step {a b : Nat} (hab : a < b) :
      firstNonce n bits a+range n bits ≤ firstNonce n bits b := by
    unfold firstNonce
    rw [← Nat.mul_succ]
    exact Nat.mul_le_mul_left _ hab
  rcases Nat.lt_trichotomy i j with hij | hij | hij
  · have h := step hij
    omega
  · exact hij
  · have h := step hij
    omega

/-- With a batch that fits, the clamp goes below zero nowhere and ends in the range. -/
theorem clampedBatch_le {last nonce : Nat} {batch : UInt32} (hl : last < 281474976710656)
    (hn : nonce ≤ last) (hb : batch.toNat ≤ last) :
    clampWraps last nonce batch = false ∧ nonce+clampedBatch last nonce batch ≤ last := by
  have hlt := batch.toNat_lt
  unfold clampWraps clampedBatch sub64
  constructor
  · simp only [Bool.or_eq_false_iff,Bool.and_eq_false_iff,decide_eq_false_iff_not]
    omega
  · split <;> omega

end Ranges

/-- Fields that agree come from counters that agree as far as the field goes. -/
theorem counterBytes_mod {a b : UInt64} {width : Nat}
    (h : counterBytes a width = counterBytes b width) (k : Nat) (hk : k ≤ min width 8) :
    a.toNat%span k = b.toNat%span k := by
  induction k with
  | zero => simp [span,Nat.mod_one]
  | succ k ih =>
    have hprev := ih (by omega)
    have hbyte : (a.toNat >>> (8*k))%256 = (b.toNat >>> (8*k))%256 := by
      have hget := congrArg (fun l => (l[k]?).map UInt8.toNat) h
      have hw : k < width := by omega
      have h8 : k < 8 := by omega
      simpa [counterBytes,hw,h8] using hget
    have hshift : ∀ (x k : Nat), x >>> (8*k) = x/span k := by
      intro x k
      induction k with
      | zero => simp [span]
      | succ k ih =>
        rw [Nat.mul_succ,Nat.shiftRight_add,ih,Nat.shiftRight_eq_div_pow,span,
          ← Nat.div_div_eq_div_mul]
    rw [hshift,hshift] at hbyte
    rw [span,Nat.mod_mul,Nat.mod_mul,hprev,hbyte]

theorem span_dvd : ∀ k ≤ 8, span k ∣ 18446744073709551616 := by decide

structure Worker.Walks (n bits i : Nat) (w : Worker β) : Prop where
  low : firstNonce n bits i ≤ w.nonce
  high : w.nonce ≤ endNonce n bits i
  counter : rollsXnonce2 bits = true → w.counter = UInt64.ofNat (i+n*w.walk)
  field : rollsXnonce2 bits = true → w.armed = true → ∀ job header, w.work = some (job,header) →
    header.field = counterBytes w.counter header.field.length

/-- The log: every walk goes up its own range, dispatch by dispatch. -/
structure Walking (n bits : Nat) (m : Fleet β) : Prop where
  worker : ∀ i < n, (m.workers i).Walks n bits i
  inside : ∀ d ∈ m.log, d.worker < n ∧ firstNonce n bits d.worker ≤ d.first ∧
    d.first+d.batch ≤ endNonce n bits d.worker
  past : ∀ d ∈ m.log, d.walk ≤ (m.workers d.worker).walk
  below : ∀ d ∈ m.log, d.walk = (m.workers d.worker).walk →
    d.first+d.batch ≤ (m.workers d.worker).nonce
  cut : rollsXnonce2 bits = true → ∀ d ∈ m.log,
    d.header.field = counterBytes (UInt64.ofNat (counterOf n d)) d.header.field.length
  apart : m.log.Pairwise (fun d d' =>
    d.worker = d'.worker → d.walk = d'.walk → d.first+d.batch ≤ d'.first)
  wraps : m.wraps = 0

variable {n bits : Nat} {m m' : Fleet β} {e : Event β}

def Worker.Follows (w w' : Worker β) : Prop :=
  w.walk ≤ w'.walk ∧ (w'.walk = w.walk → w.nonce ≤ w'.nonce)

theorem Walking.set {i : Nat} {w : Worker β} (hm : Walking n bits m) (hw : w.Walks n bits i)
    (hf : (m.workers i).Follows w) : Walking n bits (m.set i w) := by
  have at' (j : Nat) : (m.set i w).workers j = if j = i then w else m.workers j := by
    simp [Fleet.set,Function.update_apply]
  refine ⟨fun j hj => ?_,hm.inside,fun d hd => ?_,fun d hd hwalk => ?_,hm.cut,hm.apart,hm.wraps⟩
  · rw [at']
    split
    · next hji => exact hji ▸ hw
    · exact hm.worker j hj
  · have hp := hm.past d hd
    rw [at']
    split
    · next hdi =>
      rw [hdi] at hp
      exact Nat.le_trans hp hf.1
    · exact hp
  · have hp := hm.past d hd
    have hb := hm.below d hd
    rw [at'] at hwalk ⊢
    split at hwalk
    · next hdi =>
      rw [if_pos hdi]
      rw [hdi] at hp hb
      have hle := hf.1
      have hsame : w.walk = (m.workers i).walk := by omega
      exact Nat.le_trans (hb (by omega)) (hf.2 hsame)
    · next hdi =>
      rw [if_neg hdi]
      exact hb hwalk

theorem Walking.start (hn : 0 < n ∧ n ≤ 9999) (hb : bits = 32 ∨ bits = 48) :
    Walking n bits (Fleet.start n bits : Fleet β) where
  worker i hi := ⟨Nat.le_refl _,firstNonce_le_endNonce hn hb hi,fun _ => rfl,fun _ ha => by cases ha⟩
  inside d hd := by cases hd
  past d hd := by cases hd
  below d hd := by cases hd
  cut _ d hd := by cases hd
  apart := List.Pairwise.nil
  wraps := rfl

theorem Worker.Walks.restart {i : Nat} {w w' : Worker β} (hw : w.Walks n bits i)
    (hfirst : w'.nonce = firstNonce n bits i) (hwalk : w'.walk = w.walk+1)
    (hroll : rollsXnonce2 bits = true →
      w'.counter = w.counter+UInt64.ofNat n ∧ w'.armed = false) : w'.Walks n bits i where
  low := Nat.le_of_eq hfirst.symm
  high := by
    rw [hfirst]
    exact Nat.le_trans hw.low hw.high
  counter hr := by
    rw [(hroll hr).1,hw.counter hr,hwalk,Nat.mul_succ,← Nat.add_assoc]
    simp only [UInt64.ofNat_add]
  field hr ha := by
    rw [(hroll hr).2] at ha
    cases ha

theorem follows_next {w w' : Worker β} (hwalk : w'.walk = w.walk+1) : w.Follows w' :=
  ⟨by omega,fun h => by omega⟩

theorem Walking.exhaust {i : Nat} (hm : Walking n bits m) (hi : i < n) :
    Walking n bits (m.set i (Fleet.exhaust n bits i (m.workers i))) := by
  have hw := hm.worker i hi
  unfold Fleet.exhaust
  split
  · exact hm.set (hw.restart rfl rfl (fun _ => ⟨rfl,rfl⟩)) (follows_next rfl)
  · next hroll =>
    exact hm.set (hw.restart rfl rfl (fun hr => absurd hr hroll)) (follows_next rfl)

theorem Walking.logs {i b : Nat} {job : Job β} {header : Header β} (hm : Walking n bits m)
    (hi : i < n) (hwork : (m.workers i).work = some (job,header))
    (harmed : rollsXnonce2 bits = true → (m.workers i).armed = true)
    (hend : (m.workers i).nonce+b ≤ endNonce n bits i) :
    Walking n bits
      { m.set i { m.workers i with nonce := (m.workers i).nonce+b } with
        log := m.log ++ [⟨i,(m.workers i).walk,header,(m.workers i).nonce,b⟩] } := by
  have hw := hm.worker i hi
  have hset : Walking n bits (m.set i { m.workers i with nonce := (m.workers i).nonce+b }) :=
    hm.set ⟨Nat.le_trans hw.low (Nat.le_add_right _ _),hend,hw.counter,hw.field⟩
      ⟨Nat.le_refl _,fun _ => Nat.le_add_right _ _⟩
  have hnew : (m.set i { m.workers i with nonce := (m.workers i).nonce+b }).workers i =
      { m.workers i with nonce := (m.workers i).nonce+b } := Function.update_self _ _ _
  refine ⟨hset.worker,fun d hd => ?_,fun d hd => ?_,fun d hd hwalk => ?_,fun hr d hd => ?_,?_,
    hm.wraps⟩
  · rcases List.mem_append.mp hd with hd | hd
    · exact hm.inside d hd
    · rw [List.mem_singleton.mp hd]
      exact ⟨hi,hw.low,hend⟩
  · rcases List.mem_append.mp hd with hd | hd
    · exact hset.past d hd
    · obtain rfl := List.mem_singleton.mp hd
      exact Nat.le_of_eq (congrArg Worker.walk hnew).symm
  · rcases List.mem_append.mp hd with hd | hd
    · exact hset.below d hd hwalk
    · obtain rfl := List.mem_singleton.mp hd
      exact Nat.le_of_eq (congrArg Worker.nonce hnew).symm
  · rcases List.mem_append.mp hd with hd | hd
    · exact hm.cut hr d hd
    · rw [List.mem_singleton.mp hd,counterOf,← hw.counter hr]
      exact hw.field hr (harmed hr) job header hwork
  · refine List.pairwise_append.mpr ⟨hm.apart,List.pairwise_singleton _ _,fun d hd d' hd' => ?_⟩
    rw [List.mem_singleton.mp hd']
    intro hworker hwalk
    have hb := hm.below d hd
    rw [hworker] at hb
    exact hb hwalk

theorem Walking.dispatch {i : Nat} {batch : UInt32} {ok : Bool} {job : Job β}
    {header : Header β} (hn : 0 < n ∧ n ≤ 9999) (hb : bits = 32 ∨ bits = 48)
    (hm : Walking n bits m) (hi : i < n) (hwork : (m.workers i).work = some (job,header))
    (harmed : rollsXnonce2 bits = true → (m.workers i).armed = true)
    (ho : batch.toNat ≤ endNonce n bits i) :
    Walking n bits (m.dispatch n bits i header batch ok) := by
  have hw := hm.worker i hi
  obtain ⟨hno,hend⟩ := clampedBatch_le (endNonce_eq hn hb hi).2 hw.high ho
  have hsame : Walking n bits { m with wraps := m.wraps+
      (clampWraps (endNonce n bits i) (m.workers i).nonce batch).toNat } :=
    ⟨hm.worker,hm.inside,hm.past,hm.below,hm.cut,hm.apart,by rw [hno,hm.wraps]; rfl⟩
  unfold Fleet.dispatch
  simp only
  split
  · exact hsame.exhaust hi
  · split
    · exact hsame.logs hi hwork harmed hend
    · exact hsame

theorem Walking.step (hn : 0 < n ∧ n ≤ 9999) (hb : bits = 32 ∨ bits = 48)
    (hm : Walking n bits m) (ho : Fits n bits m e) (hs : m.step n bits e = some m') :
    Walking n bits m' := by
  -- what a worker does that leaves its walk alone
  have stays {i : Nat} {w : Worker β} (hi : i < n) (hnonce : w.nonce = (m.workers i).nonce)
      (hwalk : w.walk = (m.workers i).walk) (hcounter : w.counter = (m.workers i).counter)
      (hfield : rollsXnonce2 bits = true → w.armed = true → ∀ job header,
        w.work = some (job,header) →
          header.field = counterBytes w.counter header.field.length) :
      Walking n bits (m.set i w) := by
    have hw := hm.worker i hi
    refine hm.set ⟨?_,?_,?_,hfield⟩ ⟨Nat.le_of_eq hwalk.symm,fun _ => Nat.le_of_eq hnonce.symm⟩
    · rw [hnonce]
      exact hw.low
    · rw [hnonce]
      exact hw.high
    · rw [hcounter,hwalk]
      exact hw.counter
  have same {m' : Fleet β} (hworkers : m'.workers = m.workers) (hlog : m'.log = m.log)
      (hwraps : m'.wraps = m.wraps) : Walking n bits m' := by
    refine ⟨?_,?_,?_,?_,?_,?_,?_⟩ <;> simp only [hworkers,hlog,hwraps]
    · exact hm.worker
    · exact hm.inside
    · exact hm.past
    · exact hm.below
    · exact hm.cut
    · exact hm.apart
    · exact hm.wraps
  cases e with
  | notify job =>
    cases hs
    exact same rfl rfl rfl
  | setExtranonce width =>
    simp only [Fleet.step] at hs
    split at hs <;> cases hs
    exact same rfl rfl rfl
  | publishes =>
    obtain ⟨job,-,rfl⟩ := Option.map_eq_some_iff.mp hs
    exact same rfl rfl rfl
  | takes i =>
    simp only [Fleet.step] at hs
    split at hs
    · cases hs
    · split at hs
      · next hg =>
        cases hs
        exact hm.set ((hm.worker i hg.1).restart rfl rfl (fun _ => ⟨rfl,rfl⟩)) (follows_next rfl)
      · cases hs
  | parks i =>
    simp only [Fleet.step] at hs
    split at hs
    · next hi =>
      cases hs
      exact stays hi rfl rfl rfl (hm.worker i hi).field
    · cases hs
  | builds i =>
    simp only [Fleet.step] at hs
    split at hs
    · next hi =>
      cases hs
      exact stays hi rfl rfl rfl (hm.worker i hi).field
    · cases hs
  | rolls i =>
    simp only [Fleet.step] at hs
    split at hs
    · split at hs
      · next hg =>
        cases hs
        refine stays hg.1 rfl rfl rfl ?_
        rintro - - _ _ ⟨⟩
        simp only [counterBytes_length]
      · cases hs
    · cases hs
  | dispatches i batch ok =>
    simp only [Fleet.step] at hs
    split at hs
    · cases hs
    · next job header hwork =>
      split at hs
      · next hg =>
        cases hs
        exact hm.dispatch hn hb hg.1 hwork hg.2.2 ho
      · cases hs

/-- Two dispatches of one header may meet only in different walks of one worker, and
then the field was too narrow to tell the walks apart, if there was a field. -/
def Again (n bits : Nat) (d d' : Dispatch β) : Prop :=
  d.worker = d'.worker ∧ d.walk ≠ d'.walk ∧
    (rollsXnonce2 bits = true →
      counterOf n d%span (min d.header.field.length 8) =
        counterOf n d'%span (min d.header.field.length 8))

theorem Walking.inside_range (hn : 0 < n ∧ n ≤ 9999) (hb : bits = 32 ∨ bits = 48)
    (hm : Walking n bits m) {d : Dispatch β} (hd : d ∈ m.log) : d.Inside n bits := by
  obtain ⟨hi,hlow,hhigh⟩ := hm.inside d hd
  have he := (endNonce_eq hn hb hi).1
  exact ⟨hi,hlow,by omega⟩

theorem Walking.meets (hn : 0 < n ∧ n ≤ 9999) (hb : bits = 32 ∨ bits = 48)
    (hm : Walking n bits m) {d d' : Dispatch β} (hd : d ∈ m.log) (hd' : d' ∈ m.log)
    (hapart : d.worker = d'.worker → d.walk = d'.walk → d.first+d.batch ≤ d'.first)
    (hh : d.header = d'.header) {x : Nat} (hx : d.Covers x) (hx' : d'.Covers x) :
    Again n bits d d' := by
  obtain ⟨-,hlow,hhigh⟩ := hm.inside_range hn hb hd
  obtain ⟨-,hlow',hhigh'⟩ := hm.inside_range hn hb hd'
  have hworker : d.worker = d'.worker :=
    ranges_disjoint (Nat.le_trans hlow hx.1) (Nat.lt_of_lt_of_le hx.2 hhigh)
      (Nat.le_trans hlow' hx'.1) (Nat.lt_of_lt_of_le hx'.2 hhigh')
  refine ⟨hworker,fun hwalk => ?_,fun hr => ?_⟩
  · have hle := hapart hworker hwalk
    have hlt := hx.2
    have hge := hx'.1
    omega
  · have hfield : counterBytes (UInt64.ofNat (counterOf n d)) d.header.field.length =
        counterBytes (UInt64.ofNat (counterOf n d')) d.header.field.length := by
      rw [← hm.cut hr d hd,hh]
      exact hm.cut hr d' hd'
    have hmod := counterBytes_mod hfield (min d.header.field.length 8) (Nat.le_refl _)
    have hdvd := span_dvd (min d.header.field.length 8) (Nat.min_le_right _ _)
    simpa [UInt64.toNat_ofNat',Nat.mod_mod_of_dvd _ hdvd] using hmod

/-- Every worker keeps to its range, and no walk comes by the same nonce twice. -/
theorem nonces_divided (n bits : Nat) (hn : 0 < n ∧ n ≤ 9999) (hb : bits = 32 ∨ bits = 48)
    (m : Fleet β) (hr : Reach (Fleet.step n bits) (Fits n bits) (Fleet.start n bits) m) :
    (∀ d ∈ m.log, d.Inside n bits) ∧ m.wraps = 0 ∧
      m.log.Pairwise (fun d d' =>
        d.header = d'.header → ∀ x, d.Covers x → d'.Covers x → Again n bits d d') := by
  have hm : Walking n bits m :=
    hr.invariant (.start hn hb) (fun _ _ _ hm ho hs => hm.step hn hb ho hs)
  refine ⟨fun d hd => hm.inside_range hn hb hd,hm.wraps,?_⟩
  exact List.Pairwise.imp_of_mem
    (fun hd hd' hapart hh x hx hx' => hm.meets hn hb hd hd' hapart hh hx hx') hm.apart

def firstWalk (batch : UInt32) : List (Event Nat) :=
  [.setExtranonce 2,.notify ⟨ascii "a",7⟩,.publishes,.takes 0,.builds 0,.rolls 0,
    .dispatches 0 batch true]

theorem first_walk_divided :
    ∃ m : Fleet Nat, Reach (Fleet.step 1 32) (Fits 1 32) (Fleet.start 1 32) m ∧
      m.log.length = 1 ∧ (∀ d ∈ m.log, d.Inside 1 32) ∧ m.wraps = 0 ∧
      m.log.Pairwise (fun d d' =>
        d.header = d'.header → ∀ x, d.Covers x → d'.Covers x → Again 1 32 d d') := by
  obtain ⟨m,hr,hl⟩ := reach_of_any (Fleet.step 1 32) (Fits 1 32) (Fleet.start 1 32)
    (firstWalk 65536) (fun m => m.log.length = 1) (by decide)
  exact ⟨m,hr,hl,nonces_divided 1 32 (by decide) (by decide) m hr⟩

def again : List (Event Nat) := [.publishes,.takes 0]

/-- A batch larger than the first worker's range is not clamped; a field of two bytes
comes round again; and a job of the other dialect that is sent again is walked again. -/
theorem walked_again :
    ¬ (∀ (n bits : Nat), 0 < n ∧ n ≤ 9999 → bits = 32 ∨ bits = 48 → ∀ m : Fleet Nat,
        Reach (Fleet.step n bits) free (Fleet.start n bits) m → ∀ d ∈ m.log, d.Inside n bits) ∧
    (∀ bits, bits = 32 ∨ bits = 48 → ¬ ∀ (n : Nat), 0 < n ∧ n ≤ 9999 → ∀ m : Fleet Nat,
        Reach (Fleet.step n bits) (Fits n bits) (Fleet.start n bits) m →
          m.log.Pairwise (fun d d' =>
            d.header = d'.header → ∀ x, d.Covers x → ¬ d'.Covers x)) := by
  refine ⟨fun hall => ?_,?_⟩
  · obtain ⟨m,hr,hp⟩ := reach_of_any (Fleet.step 17 32) free (Fleet.start 17 32)
      (firstWalk 268435456)
      (fun m => m.log = [⟨0,1,⟨7,[17,0]⟩,0,268435456⟩]) (by decide)
    have hin := hall 17 32 (by decide) (by decide) m hr _ (hp ▸ List.mem_singleton_self _)
    exact absurd hin.2.2 (by decide)
  · rintro bits (rfl | rfl) hall
    · obtain ⟨m,hr,hp⟩ := reach_of_any (Fleet.step 8192 32) (Fits 8192 32) (Fleet.start 8192 32)
        (firstWalk 1 ++ (List.replicate 8 again).flatten ++ [.rolls 0,.dispatches 0 1 true])
        (fun m => m.log = [⟨0,1,⟨7,[0,32]⟩,0,1⟩,⟨0,9,⟨7,[0,32]⟩,0,1⟩]) (by decide)
      have hpair := hall 8192 (by decide) m hr
      rw [hp] at hpair
      exact (List.pairwise_cons.mp hpair).1 _ (List.mem_singleton_self _) rfl 0
        ⟨Nat.le_refl _,Nat.one_pos⟩ ⟨Nat.le_refl _,Nat.one_pos⟩
    · obtain ⟨m,hr,hp⟩ := reach_of_any (Fleet.step 1 48) (Fits 1 48) (Fleet.start 1 48)
        ([.notify ⟨ascii "a",7⟩,.publishes,.takes 0,.builds 0,.dispatches 0 1 true] ++ again ++
          [.dispatches 0 1 true])
        (fun m => m.log = [⟨0,1,⟨7,[]⟩,0,1⟩,⟨0,2,⟨7,[]⟩,0,1⟩]) (by decide)
      have hpair := hall 1 (by decide) m hr
      rw [hp] at hpair
      exact (List.pairwise_cons.mp hpair).1 _ (List.mem_singleton_self _) rfl 0
        ⟨Nat.le_refl _,Nat.one_pos⟩ ⟨Nat.le_refl _,Nat.one_pos⟩

end VkMiner.Scheduler
