import Mathlib.Data.List.Lex
import VkMiner.Lib.Smallest
import VkMiner.Scheduler.HostBackends
set_option autoImplicit false

/-! The test that a kernel has to pass before it mines: a published hash, and the smallest hash
of the nonces around it. -/

namespace VkMiner.Scheduler.Mining
open ByteOrder Runs
open Vulkan (Solution)

/-- `header` is as it went over the wire. -/
structure KnownAnswer where
  header : Bytes
  nonce : UInt64
  digest : Fixed 32

namespace SelfTest

def kBefore : UInt64 := 100
def kSpan : Nat := 256
def kMaxSolutions : Nat := 16

variable {b : Backend} {C : b.Contract} {a : Algorithm} {size : Nat} {answer : KnownAnswer}

def headerWords (a : Algorithm) (answer : KnownAnswer) : List UInt32 :=
  let words := (beWords answer.header).take (a.headerBytes/4)
  if a.nonceWord < a.headerBytes/4 then words.set a.nonceWord 0 else words

def published (answer : KnownAnswer) : List UInt32 := leWords answer.digest

def checkReference (a : Algorithm) (size : Nat) (answer : KnownAnswer) : Bool :=
  a.hash size (headerWords a answer) answer.nonce == published answer

def below : List UInt32 → List UInt32 → Bool
  | x :: xs,y :: ys => if x ≠ y then decide (x < y) else below xs ys
  | _,_ => false

def digestBelow (x y : List UInt32) : Bool := below x.reverse y.reverse

structure Best where
  nonce : UInt64
  digest : List UInt32
  alone : Bool
  deriving DecidableEq

/-- The loop of `smallest_in_range`, over the nonces `start`, …, `start+i`. -/
def smallest (hash : UInt64 → List UInt32) (start : UInt64) : Nat → Best
  | 0 => ⟨start,hash start,true⟩
  | i+1 =>
    let best := smallest hash start i
    let got := hash (start+UInt64.ofNat (i+1))
    if digestBelow got best.digest then ⟨start+UInt64.ofNat (i+1),got,true⟩
    else if got = best.digest then { best with alone := false }
    else best

def rangeStart (answer : KnownAnswer) : UInt64 :=
  if kBefore < answer.nonce then answer.nonce-kBefore else 0

/-- What `smallest_in_range` works out where it has nothing kept. -/
def own (a : Algorithm) (size : Nat) (answer : KnownAnswer) : Best :=
  smallest (a.hash size (headerWords a answer)) (rangeStart answer) (kSpan-1)

/-- What `smallest_in_range` keeps, by the address of the vector. -/
abbrev Cache := List (Nat × Best)

def smallestInRange (cache : Cache) (address : Nat) (a : Algorithm) (size : Nat)
    (answer : KnownAnswer) : Best × Cache :=
  match cache.lookup address with
  | some best => (best,cache)
  | none => (own a size answer,(address,own a size answer) :: cache)

/-- What the log says of a kernel that does not pass. -/
inductive Fault where
  | state | program | refused | failed | number | nonce | digest | alike
  deriving DecidableEq

def ask (a : Algorithm) (size : Nat) (answer : KnownAnswer) (target : List UInt32)
    (start : UInt64) (count : Nat) : Launch :=
  ⟨{ Work.zero with data := headerWords a answer, target := target },start,count,a,size,
    a.stateKey size (headerWords a answer),a.programKey (headerWords a answer)⟩

def judge (nonce : UInt64) (digest : List UInt32) : Option (List Solution) → Option Fault
  | none => some .failed
  | some [s] => if s.nonce ≠ nonce.toNat then some .nonce else if s.hash ≠ digest then some .digest
    else none
  | some _ => some .number

def oneSolution (k : b.Kernel) (x : Launch) (nonce : UInt64) (digest : List UInt32)
    (dispatch collect : b.Calls) : Option Fault × b.Kernel :=
  let (ok,k) := b.dispatch k x dispatch
  if !ok then (some .refused,k)
  else
    let (found,k) := b.collect k kMaxSolutions collect
    (judge nonce digest found,k)

/-- What the driver answers during one test. -/
structure Calls (b : Backend) where
  prepareState : b.Calls
  prepareProgram : b.Calls
  dispatch : b.Calls
  collect : b.Calls
  dispatchRange : b.Calls
  collectRange : b.Calls

def hashes (cache : Cache) (address : Nat) (k : b.Kernel) (a : Algorithm) (size : Nat)
    (answer : KnownAnswer) (c : Calls b) : Option Fault × b.Kernel × Cache :=
  let r := oneSolution k (ask a size answer (published answer) answer.nonce 1) answer.nonce
    (published answer) c.dispatch c.collect
  if r.1.isSome then (r.1,r.2,cache)
  else
    let (best,cache) := smallestInRange cache address a size answer
    if !best.alone then (some .alike,r.2,cache)
    else
      let r := oneSolution r.2 (ask a size answer best.digest (rangeStart answer) kSpan) best.nonce
        best.digest c.dispatchRange c.collectRange
      (r.1,r.2,cache)

def kernelReproduces (cache : Cache) (address : Nat) (k : b.Kernel) (a : Algorithm) (size : Nat)
    (answer : KnownAnswer) (c : Calls b) : Option Fault × b.Kernel × Cache :=
  let (ok,k) := b.prepareState k (a.stateKey size (headerWords a answer)) c.prepareState
  if !ok then (some .state,k,cache)
  else
    let (ok,k) := b.prepareProgram k (a.programKey (headerWords a answer)) c.prepareProgram
    if !ok then (some .program,k,cache) else hashes cache address k a size answer c

variable {x y : List UInt32}

def rank (digest : List UInt32) : List Nat := digest.reverse.map UInt32.toNat

theorem rank_inj : rank x = rank y ↔ x = y :=
  (List.map_injective_iff.mpr fun _ _ h => UInt32.toNat_inj.mp h).eq_iff.trans
    List.reverse_inj

theorem below_iff (h : x.length = y.length) :
    below x y = true ↔ x.map UInt32.toNat < y.map UInt32.toNat := by
  induction x generalizing y with
  | nil =>
    cases y with
    | nil => simp [below]
    | cons _ _ => cases h
  | cons u x ih =>
    cases y with
    | nil => cases h
    | cons v y =>
      have hl : x.length = y.length := by simpa using h
      simp only [below,List.map_cons,List.cons_lt_cons_iff]
      split
      · rename_i hne
        have : u.toNat ≠ v.toNat := fun he => hne (UInt32.toNat_inj.mp he)
        simp [this,UInt32.lt_iff_toNat_lt]
      · rename_i he
        obtain rfl := not_not.mp he
        simp [ih hl]

theorem digestBelow_iff (h : x.length = y.length) : digestBelow x y = true ↔ rank x < rank y :=
  below_iff (by simpa using h)

theorem atMost_iff (h : x.length = y.length) :
    Seals.atMost x y = true ↔ ¬y.map UInt32.toNat < x.map UInt32.toNat := by
  induction x generalizing y with
  | nil =>
    cases y with
    | nil => simp [Seals.atMost]
    | cons _ _ => cases h
  | cons u x ih =>
    cases y with
    | nil => cases h
    | cons v y =>
      have hl : x.length = y.length := by simpa using h
      simp only [Seals.atMost,List.map_cons,List.cons_lt_cons_iff]
      split
      · rename_i hlt
        simp [UInt32.lt_iff_toNat_lt.mp hlt]
      · rename_i hv
        have hvu : ¬v.toNat < u.toNat := fun h => hv (UInt32.lt_iff_toNat_lt.mpr h)
        split
        · rename_i hlt
          have huv := UInt32.lt_iff_toNat_lt.mp hlt
          simp [hvu,huv.ne']
        · rename_i hu
          have huv : ¬u.toNat < v.toNat := fun h => hu (UInt32.lt_iff_toNat_lt.mpr h)
          have he : v.toNat = u.toNat := by omega
          simp [he,ih hl]

theorem fulltest_iff (h : x.length = y.length) :
    Seals.fulltest x y = true ↔ rank x ≤ rank y :=
  (atMost_iff (by simpa using h)).trans not_lt

def ranks (hash : UInt64 → List UInt32) (start : UInt64) (i : Nat) : List Nat :=
  rank (hash (start+UInt64.ofNat i))

theorem smallest_eq {hash : UInt64 → List UInt32} (hlen : ∀ n, (hash n).length = 8)
    (start : UInt64) (n : Nat) :
    smallest hash start n = ⟨start+UInt64.ofNat (Smallest.scan (ranks hash start) n).place,
      hash (start+UInt64.ofNat (Smallest.scan (ranks hash start) n).place),
      (Smallest.scan (ranks hash start) n).alone⟩ := by
  induction n with
  | zero => simp [smallest,Smallest.scan]
  | succ n ih =>
    have hvalue := (Smallest.scan_is (ranks hash start) n).value
    have hbelow : digestBelow (hash (start+UInt64.ofNat (n+1))) (smallest hash start n).digest =
        true ↔ ranks hash start (n+1) < (Smallest.scan (ranks hash start) n).value := by
      rw [ih,← hvalue]
      exact digestBelow_iff ((hlen _).trans (hlen _).symm)
    have heq : hash (start+UInt64.ofNat (n+1)) = (smallest hash start n).digest ↔
        ranks hash start (n+1) = (Smallest.scan (ranks hash start) n).value := by
      rw [ih,← hvalue]
      exact rank_inj.symm
    simp only [smallest,Smallest.scan]
    by_cases hb : ranks hash start (n+1) < (Smallest.scan (ranks hash start) n).value
    · rw [if_pos (hbelow.mpr hb),if_pos hb]
    · rw [if_neg (fun h => hb (hbelow.mp h)),if_neg hb]
      by_cases he : ranks hash start (n+1) = (Smallest.scan (ranks hash start) n).value
      · rw [if_pos (heq.mpr he),if_pos he,ih]
      · rw [if_neg (fun h => he (heq.mp h)),if_neg he,ih]

/-- The digest `d` of the nonce `n` is what a target of `d` admits, alone of the range, just where
it is the smallest of the range and is taken once. -/
theorem smallest_iff {hash : UInt64 → List UInt32} (hlen : ∀ n, (hash n).length = 8)
    (start nonce : UInt64) {digest : List UInt32} (hd : digest.length = 8) (n : Nat) :
    (∃ i ≤ n, start+UInt64.ofNat i = nonce ∧ hash nonce = digest ∧
      ∀ j ≤ n, Seals.fulltest (hash (start+UInt64.ofNat j)) digest = true ↔ j = i) ↔
    smallest hash start n = ⟨nonce,digest,true⟩ := by
  have his := Smallest.scan_is (ranks hash start) n
  rw [smallest_eq hlen]
  constructor
  · rintro ⟨i,hi,rfl,rfl,honly⟩
    have honly' : ∀ j ≤ n, ranks hash start j ≤ ranks hash start i ↔ j = i := fun j hj =>
      (fulltest_iff ((hlen _).trans hd.symm)).symm.trans (honly j hj)
    obtain ⟨hp,-,ha⟩ := his.of_only hi honly'
    rw [hp,ha]
  · intro h
    obtain ⟨hnonce,hdigest,ha⟩ := Best.mk.inj h
    rw [hnonce] at hdigest
    refine ⟨_,his.place,hnonce,hdigest,fun j hj => ?_⟩
    rw [← his.only ha hj,← his.value,fulltest_iff ((hlen _).trans hd.symm),← hdigest,← hnonce]
    rfl

theorem solutions_eq (x : Launch) : x.solutions =
    ((List.range x.count).filter fun i => Seals.fulltest (x.hash (x.nonceAt i)) x.work.target).map
      fun i => ⟨(x.nonceAt i).toNat,x.hash (x.nonceAt i)⟩ := by
  rw [Launch.solutions]
  induction List.range x.count with
  | nil => rfl
  | cons i is ih => cases h : Seals.fulltest (x.hash (x.nonceAt i)) x.work.target <;>
      simp [Launch.solutionAt,h,ih]

theorem solutions_eq_singleton {x : Launch} {nonce : UInt64} {digest : List UInt32} :
    x.solutions = [⟨nonce.toNat,digest⟩] ↔ ∃ i < x.count, x.nonceAt i = nonce ∧
      x.hash nonce = digest ∧
      ∀ j < x.count, Seals.fulltest (x.hash (x.nonceAt j)) x.work.target = true ↔ j = i := by
  rw [solutions_eq,List.map_eq_singleton_iff]
  constructor
  · rintro ⟨i,hi,he⟩
    obtain ⟨hn,hd⟩ := Solution.mk.inj he
    have hnonce : x.nonceAt i = nonce := UInt64.toNat_inj.mp hn
    obtain ⟨hlt,honly⟩ := filter_range_eq_singleton.mp hi
    exact ⟨i,hlt,hnonce,hnonce ▸ hd,honly⟩
  · rintro ⟨i,hlt,rfl,rfl,honly⟩
    exact ⟨i,filter_range_eq_singleton.mpr ⟨hlt,honly⟩,rfl⟩

theorem judge_take {nonce : UInt64} {digest : List UInt32} (found : List Solution) :
    judge nonce digest (some (found.take kMaxSolutions)) = none ↔
      found = [⟨nonce.toNat,digest⟩] := by
  match found with
  | [] => simp [judge]
  | [s] =>
    obtain ⟨n,h⟩ := s
    by_cases hn : n = nonce.toNat <;> by_cases hd : h = digest <;> simp [judge,kMaxSolutions,hn,hd]
  | s :: t :: rest => simp [judge,kMaxSolutions]

/-- A kernel that is ready for the launch, and has nothing else to do. -/
structure Ready (C : b.Contract) (k : b.Kernel) (x : Launch) : Prop where
  sound : C.Sound k
  built : C.built k = (x.algo,x.size)
  held : C.held k = []
  state : C.state k = some x.stateKey
  program : C.program k = some x.programKey

variable {k : b.Kernel} {x y : Launch} {nonce : UInt64} {digest : List UInt32} {d c : b.Calls}

theorem Ready.other (h : Ready C k x) (ha : x.algo = y.algo) (hs : x.size = y.size)
    (hst : x.stateKey = y.stateKey) (hp : x.programKey = y.programKey) : Ready C k y :=
  ⟨h.sound,by rw [h.built,ha,hs],h.held,by rw [h.state,hst],by rw [h.program,hp]⟩

theorem Ready.oneSolution (h : Ready C k x)
    (hr : (oneSolution k x nonce digest d c).1 ≠ some .refused) :
    (∃ k' answer, C.Came k' kMaxSolutions x answer ∧
      (oneSolution k x nonce digest d c).1 = judge nonce digest answer) ∧
    Ready C (oneSolution k x nonce digest d c).2 x := by
  have hroom : (C.held k).length < b.queueDepth k := by
    rw [h.held]
    exact C.depth_pos h.sound
  obtain ⟨hsound,hheld⟩ := C.dispatch_sound (c := d) h.sound (C.clear_empty h.sound h.held) hroom
    h.built h.state h.program
  obtain ⟨hbuilt,-,hstate,hprogram⟩ := C.dispatch_frame k x d
  simp only [SelfTest.oneSolution] at hr ⊢
  cases hok : (b.dispatch k x d).1 with
  | false => simp [hok] at hr
  | true =>
    rw [hok,if_pos rfl,h.held] at hheld
    obtain ⟨hs,hempty,-,hcame⟩ : C.Sound (b.collect (b.dispatch k x d).2 kMaxSolutions c).2 ∧ _ :=
      C.collect_sound hsound hheld.1
    obtain ⟨hb,-,hst,hp⟩ := C.collect_frame (b.dispatch k x d).2 kMaxSolutions c
    simp only [Bool.not_true,Bool.false_eq_true,if_false]
    exact ⟨⟨_,_,hcame,rfl⟩,hs,hb.trans (hbuilt.trans h.built),hempty,
      hst.trans (hstate.trans h.state),hp.trans (hprogram.trans h.program)⟩

/-- A backend that reports what meets the target and nothing else, in order. -/
def Exact (C : b.Contract) : Prop :=
  ∀ {k max x answer}, C.Came k max x answer → answer = some (x.solutions.take max)

theorem exact_cpu : Exact cpuContract := fun h => h

theorem Ready.exactly (h : Ready C k x) (hx : Exact C)
    (hr : (SelfTest.oneSolution k x nonce digest d c).1 ≠ some .refused) :
    (SelfTest.oneSolution k x nonce digest d c).1 = none ↔
      x.solutions = [⟨nonce.toNat,digest⟩] := by
  obtain ⟨⟨k',answer,hcame,he⟩,-⟩ := h.oneSolution hr
  rw [he,hx hcame]
  exact judge_take _

theorem ask_published : (ask a size answer (published answer) answer.nonce 1).solutions =
    [⟨answer.nonce.toNat,published answer⟩] ↔ checkReference a size answer = true := by
  rw [solutions_eq_singleton,checkReference,beq_iff_eq]
  have hat : ∀ i < 1, (ask a size answer (published answer) answer.nonce 1).nonceAt i =
      answer.nonce := by
    intro i hi
    obtain rfl := Nat.lt_one_iff.mp hi
    simp [ask,Launch.nonceAt]
  constructor
  · rintro ⟨i,-,-,hd,-⟩
    exact hd
  · intro hd
    refine ⟨0,Nat.one_pos,hat 0 Nat.one_pos,hd,fun j hj => ?_⟩
    obtain rfl := Nat.lt_one_iff.mp hj
    rw [hat 0 Nat.one_pos]
    simp only [iff_true]
    change Seals.fulltest (a.hash size (headerWords a answer) answer.nonce) (published answer) = true
    rw [hd,fulltest_iff rfl]

theorem ask_range {best : Best} (hd : best.digest.length = 8) (ha : best.alone = true) :
    (ask a size answer best.digest (rangeStart answer) kSpan).solutions =
      [⟨best.nonce.toNat,best.digest⟩] ↔ own a size answer = best := by
  obtain ⟨nonce,digest,alone⟩ := best
  obtain rfl : alone = true := ha
  rw [solutions_eq_singleton,own,← smallest_iff (a.hash_length size (headerWords a answer)) _ _ hd]
  simp only [ask,kSpan,Launch.nonceAt,Launch.hash,Nat.lt_succ_iff,Nat.reduceSub]

variable {cache : Cache} {address : Nat} {t : Calls b}

/-- What the test asks of the driver alone. -/
def Fault.drivers (f : Fault) : Prop := f = .state ∨ f = .program ∨ f = .refused

/-- A kernel that is prepared passes just where the reference has the published hash, and what is
kept for the address is the smallest of the range, taken once. -/
theorem Ready.hashes (hx : Exact C)
    (h : Ready C k (ask a size answer (published answer) answer.nonce 1))
    (hlen : (smallestInRange cache address a size answer).1.digest.length = 8)
    (hd : ∀ f ∈ (hashes cache address k a size answer t).1, ¬f.drivers) :
    (SelfTest.hashes cache address k a size answer t).1 = none ↔
      checkReference a size answer = true ∧
      (smallestInRange cache address a size answer).1.alone = true ∧
      own a size answer = (smallestInRange cache address a size answer).1 := by
  have hrefused : ∀ r : Option Fault × b.Kernel, (∀ f ∈ r.1, ¬f.drivers) →
      r.1 ≠ some .refused := by
    intro r hr he
    exact hr _ (Option.mem_def.mpr he) (.inr (.inr rfl))
  simp only [SelfTest.hashes] at hd ⊢
  split at hd <;> rename_i hfirst
  · rw [if_pos hfirst]
    have hr := hrefused _ hd
    obtain ⟨f,hf⟩ := Option.isSome_iff_exists.mp hfirst
    have := (h.exactly hx hr).trans ask_published
    rw [hf] at this ⊢
    simp only [reduceCtorEq,false_iff] at this ⊢
    exact fun hc => this hc.1
  · rw [if_neg hfirst]
    have hnone : (SelfTest.oneSolution k (ask a size answer (published answer) answer.nonce 1) answer.nonce
        (published answer) t.dispatch t.collect).1 = none := by simpa using hfirst
    have hr : (SelfTest.oneSolution k (ask a size answer (published answer) answer.nonce 1) answer.nonce
        (published answer) t.dispatch t.collect).1 ≠ some .refused := by simp [hnone]
    have hcheck := ((h.exactly hx hr).trans ask_published).mp hnone
    obtain ⟨-,hnext⟩ := h.oneSolution hr
    cases ha : (smallestInRange cache address a size answer).1.alone with
    | false => simp
    | true =>
      simp only [ha,Bool.not_true,Bool.false_eq_true,if_false,true_and,hcheck] at hd ⊢
      have hrange : Ready C (SelfTest.oneSolution k (ask a size answer (published answer) answer.nonce 1)
          answer.nonce (published answer) t.dispatch t.collect).2
          (ask a size answer (smallestInRange cache address a size answer).1.digest
            (rangeStart answer) kSpan) := hnext.other rfl rfl rfl rfl
      exact (hrange.exactly hx (hrefused _ hd)).trans (ask_range hlen ha)

theorem kernelReproduces_cases (hs : C.Sound k) (hb : C.built k = (a,size)) (hh : C.held k = [])
    (cache : Cache) (address : Nat) (answer : KnownAnswer) (t : Calls b) :
    (∃ f, (kernelReproduces cache address k a size answer t).1 = some f ∧ f.drivers) ∨
    ∃ k', Ready C k' (ask a size answer (published answer) answer.nonce 1) ∧
      kernelReproduces cache address k a size answer t =
        hashes cache address k' a size answer t := by
  have hstate := C.prepareState_key k (a.stateKey size (headerWords a answer)) t.prepareState
  obtain ⟨hb₁,-,-⟩ := C.prepareState_frame k (a.stateKey size (headerWords a answer)) t.prepareState
  obtain ⟨hs₁,hh₁,-⟩ : C.Sound (b.prepareState k (a.stateKey size (headerWords a answer))
    t.prepareState).2 ∧ _ := C.prepareState_sound hs (.inl hh)
  simp only [kernelReproduces]
  cases hok₁ : (b.prepareState k (a.stateKey size (headerWords a answer)) t.prepareState).1 with
  | false => exact .inl ⟨.state,rfl,.inl rfl⟩
  | true =>
    rw [hok₁,if_pos rfl] at hstate
    simp only [Bool.not_true,Bool.false_eq_true,if_false]
    generalize (b.prepareState k (a.stateKey size (headerWords a answer)) t.prepareState).2 = k₁
      at hstate hb₁ hs₁ hh₁ ⊢
    have hprogram := C.prepareProgram_key k₁ (a.programKey (headerWords a answer)) t.prepareProgram
    obtain ⟨hb₂,-,hst₂⟩ := C.prepareProgram_frame k₁ (a.programKey (headerWords a answer))
      t.prepareProgram
    obtain ⟨hs₂,hh₂,-⟩ : C.Sound (b.prepareProgram k₁ (a.programKey (headerWords a answer))
      t.prepareProgram).2 ∧ _ := C.prepareProgram_sound hs₁ (.inl (hh₁.trans hh))
    cases hok₂ : (b.prepareProgram k₁ (a.programKey (headerWords a answer)) t.prepareProgram).1 with
    | false => exact .inl ⟨.program,rfl,.inr (.inl rfl)⟩
    | true =>
      rw [hok₂,if_pos rfl] at hprogram
      refine .inr ⟨_,⟨hs₂,hb₂.trans (hb₁.trans hb),hh₂.trans (hh₁.trans hh),hst₂.trans hstate,
        hprogram⟩,?_⟩
      simp only [Bool.not_true,Bool.false_eq_true,if_false]

theorem kernelReproduces_iff (hx : Exact C) (hs : C.Sound k) (hb : C.built k = (a,size))
    (hh : C.held k = [])
    (hlen : (smallestInRange cache address a size answer).1.digest.length = 8)
    (hd : ∀ f ∈ (kernelReproduces cache address k a size answer t).1, ¬f.drivers) :
    (kernelReproduces cache address k a size answer t).1 = none ↔
      checkReference a size answer = true ∧
      (smallestInRange cache address a size answer).1.alone = true ∧
      own a size answer = (smallestInRange cache address a size answer).1 := by
  obtain ⟨f,hf,hdriver⟩ | ⟨k',hready,he⟩ := kernelReproduces_cases hs hb hh cache address answer t
  · exact absurd hdriver (hd f hf)
  · rw [he] at hd ⊢
    exact hready.hashes hx hlen hd

theorem judge_none {answer : Option (List Solution)} (h : judge nonce digest answer = none) :
    answer = some [⟨nonce.toNat,digest⟩] := by
  unfold judge at h
  split at h
  · cases h
  · rename_i s
    obtain ⟨n,d⟩ := s
    split at h
    · cases h
    · rename_i hn
      split at h
      · cases h
      · rename_i hd
        obtain rfl : n = nonce.toNat := not_not.mp hn
        obtain rfl : d = digest := not_not.mp hd
        rfl
  · cases h

/-- A kernel of any backend that passes has answered for the published nonce with the published hash
alone, and for the range with what is kept for the address alone, and has nothing left to do. -/
theorem kernelReproduces_came (hs : C.Sound k) (hb : C.built k = (a,size)) (hh : C.held k = [])
    (hp : (kernelReproduces cache address k a size answer t).1 = none) :
    ∃ k₁ k₂ best, best = (smallestInRange cache address a size answer).1 ∧ best.alone = true ∧
      C.Came k₁ kMaxSolutions (ask a size answer (published answer) answer.nonce 1)
        (some [⟨answer.nonce.toNat,published answer⟩]) ∧
      C.Came k₂ kMaxSolutions (ask a size answer best.digest (rangeStart answer) kSpan)
        (some [⟨best.nonce.toNat,best.digest⟩]) ∧
      C.Sound (kernelReproduces cache address k a size answer t).2.1 ∧
      C.held (kernelReproduces cache address k a size answer t).2.1 = [] := by
  obtain ⟨f,hf,-⟩ | ⟨k',hready,he⟩ := kernelReproduces_cases hs hb hh cache address answer t
  · rw [hp] at hf
    cases hf
  rw [he] at hp ⊢
  revert hp
  simp only [hashes]
  split
  · rename_i hfault
    intro hp
    rw [hp] at hfault
    cases hfault
  · rename_i hfirst
    have hnone : (oneSolution k' (ask a size answer (published answer) answer.nonce 1) answer.nonce
        (published answer) t.dispatch t.collect).1 = none := by simpa using hfirst
    have hrefused : (oneSolution k' (ask a size answer (published answer) answer.nonce 1)
        answer.nonce (published answer) t.dispatch t.collect).1 ≠ some .refused := by simp [hnone]
    obtain ⟨⟨k₁,answer₁,hcame₁,hj₁⟩,hnext⟩ := hready.oneSolution hrefused
    split
    · nofun
    · rename_i ha
      intro hp
      have hrange : Ready C (oneSolution k' (ask a size answer (published answer) answer.nonce 1)
          answer.nonce (published answer) t.dispatch t.collect).2
          (ask a size answer (smallestInRange cache address a size answer).1.digest
            (rangeStart answer) kSpan) := hnext.other rfl rfl rfl rfl
      obtain ⟨⟨k₂,answer₂,hcame₂,hj₂⟩,hlast⟩ := hrange.oneSolution (hp.trans_ne nofun)
      rw [judge_none (hj₁.symm.trans hnone)] at hcame₁
      rw [judge_none (hj₂.symm.trans hp)] at hcame₂
      exact ⟨k₁,k₂,_,rfl,by simpa using ha,hcame₁,hcame₂,hlast.sound,hlast.held⟩

/-! ### The tests of one process -/

structure Request where
  address : Nat
  algo : Algorithm
  size : Nat
  answer : KnownAnswer

/-- `asked` is history: the requests that the smallest of a range was worked out for, the last of
them first. -/
structure Tester where
  cache : Cache
  asked : List Request

structure Test (b : Backend) where
  request : Request
  kernel : b.Kernel
  calls : Calls b

def Request.own (r : Request) : Best := SelfTest.own r.algo r.size r.answer

def Test.run (t : Test b) (cache : Cache) : Option Fault × b.Kernel × Cache :=
  kernelReproduces cache t.request.address t.kernel t.request.algo t.request.size t.request.answer
    t.calls

def step (p : Tester) (t : Test b) : Option Tester :=
  let cache := (t.run p.cache).2.2
  some ⟨cache,if cache.length = p.cache.length then p.asked else t.request :: p.asked⟩

/-- The first request with that address that the smallest of a range was worked out for. -/
def Tester.first (p : Tester) (address : Nat) : Option Request :=
  p.asked.find? fun r => r.address == address

theorem Tester.lookup {p : Tester} (h : p.cache = p.asked.map fun r => (r.address,r.own))
    (address : Nat) : p.cache.lookup address = (p.first address).map Request.own := by
  rw [h,Tester.first]
  induction p.asked with
  | nil => rfl
  | cons r asked ih =>
    simp only [List.map_cons,List.lookup_cons,List.find?_cons]
    by_cases he : r.address = address
    · simp [he]
    · have hne : (address == r.address) = false := by simpa using fun h => he h.symm
      have hne' : (r.address == address) = false := by simpa using he
      rw [hne,hne']
      exact ih

theorem smallestInRange_cases (cache : Cache) (address : Nat) (a : Algorithm) (size : Nat)
    (answer : KnownAnswer) :
    (smallestInRange cache address a size answer).1 =
      (cache.lookup address).getD (own a size answer) ∧
    ((smallestInRange cache address a size answer).2 = cache ∨
      (smallestInRange cache address a size answer).2 =
        (address,own a size answer) :: cache) := by
  unfold smallestInRange
  cases cache.lookup address with
  | none => exact ⟨rfl,.inr rfl⟩
  | some best => exact ⟨rfl,.inl rfl⟩

theorem own_length (a : Algorithm) (size : Nat) (answer : KnownAnswer) :
    (own a size answer).digest.length = 8 := by
  rw [own,smallest_eq (a.hash_length size _)]
  exact a.hash_length size _ _

theorem kernelReproduces_cache (cache : Cache) (address : Nat) (k : b.Kernel) (a : Algorithm)
    (size : Nat) (answer : KnownAnswer) (t : Calls b) :
    (kernelReproduces cache address k a size answer t).2.2 = cache ∨
      (kernelReproduces cache address k a size answer t).2.2 =
        (address,own a size answer) :: cache := by
  obtain ⟨-,hcache⟩ := smallestInRange_cases cache address a size answer
  simp only [kernelReproduces,hashes]
  split
  · exact .inl rfl
  split
  · exact .inl rfl
  split
  · exact .inl rfl
  split
  · exact hcache
  · exact hcache

theorem kept_reach {p : Tester}
    (h : Reach (step : Tester → Test b → Option Tester) free ⟨[],[]⟩ p) :
    p.cache = p.asked.map fun r => (r.address,r.own) := by
  refine h.invariant (I := fun p : Tester => p.cache = p.asked.map fun r => (r.address,r.own)) rfl
    fun p t p' hp _ hs => ?_
  cases hs
  obtain he | he := kernelReproduces_cache p.cache t.request.address t.kernel t.request.algo
    t.request.size t.request.answer t.calls
  · simp only [Test.run,he,if_true]
    exact hp
  · simp only [Test.run,he,List.length_cons]
    rw [if_neg (by omega),List.map_cons,← hp]
    rfl

theorem kept_first {p : Tester}
    (h : Reach (step : Tester → Test b → Option Tester) free ⟨[],[]⟩ p) (r : Request) :
    (smallestInRange p.cache r.address r.algo r.size r.answer).1 =
      ((p.first r.address).map Request.own).getD r.own := by
  obtain ⟨he,-⟩ := smallestInRange_cases p.cache r.address r.algo r.size r.answer
  rw [he,Tester.lookup (kept_reach h)]
  rfl

/-- In every state that the tests of a process come to, whatever kernels were tested: a kernel of a
backend that reports exactly what meets a target passes (where the driver does all that it is asked)
just where the reference has the published hash, the smallest hash of the range is taken once, and
the address of the vector was first used for one with that same smallest hash. -/
theorem exact_passes (hx : Exact C) {p : Tester}
    (h : Reach (step : Tester → Test b → Option Tester) free ⟨[],[]⟩ p)
    (t : Test b) (hs : C.Sound t.kernel) (hb : C.built t.kernel = (t.request.algo,t.request.size))
    (hh : C.held t.kernel = []) (hd : ∀ f ∈ (t.run p.cache).1, ¬f.drivers) :
    (t.run p.cache).1 = none ↔
      checkReference t.request.algo t.request.size t.request.answer = true ∧
      t.request.own.alone = true ∧
      ∀ first ∈ p.first t.request.address, first.own = t.request.own := by
  have he := kept_first h t.request
  have hlen : (smallestInRange p.cache t.request.address t.request.algo t.request.size
      t.request.answer).1.digest.length = 8 := by
    rw [he]
    cases p.first t.request.address <;> exact own_length _ _ _
  refine (kernelReproduces_iff hx hs hb hh hlen hd).trans (and_congr_right fun _ => ?_)
  rw [he]
  cases hf : p.first t.request.address with
  | none => simp [Request.own]
  | some first =>
    simp only [Option.map_some,Option.getD_some,Option.mem_def,Option.some.injEq,forall_eq']
    constructor
    · rintro ⟨ha,hown⟩
      exact ⟨by rw [Request.own,hown]; exact ha,hown.symm⟩
    · rintro ⟨ha,hown⟩
      exact ⟨by rw [hown]; exact ha,hown.symm⟩

theorem judge_drivers {nonce : UInt64} {digest : List UInt32} {answer : Option (List Solution)} :
    ∀ f ∈ judge nonce digest answer, ¬f.drivers := by
  intro f hf
  unfold judge at hf
  split at hf
  · cases hf
    simp [Fault.drivers]
  · split at hf
    · cases hf
      simp [Fault.drivers]
    · split at hf <;> cases hf
      simp [Fault.drivers]
  · cases hf
    simp [Fault.drivers]

theorem cpu_drivers (t : Test cpu) (cache : Cache) : ∀ f ∈ (t.run cache).1, ¬f.drivers := by
  simp only [Test.run,kernelReproduces,hashes,SelfTest.oneSolution,cpu,Bool.not_true,
    Bool.false_eq_true,if_false]
  intro f
  split
  · exact judge_drivers f
  split
  · rintro ⟨⟩
    simp [Fault.drivers]
  · exact judge_drivers f

/-- An algorithm like the plain one, but for one word of its hash. -/
def otherAlgorithm : Algorithm := { plainAlgorithm with
  hash := fun _ _ nonce => List.replicate 6 0 ++ [1,nonce.toUInt32]
  hash_length := fun _ _ _ => rfl
  hash_set := fun _ _ _ _ _ => rfl }

def plainDigest : Fixed 32 := ⟨List.replicate 28 0 ++ [7,0,0,0],rfl⟩

def otherDigest : Fixed 32 := ⟨List.replicate 24 0 ++ [1,0,0,0,7,0,0,0],rfl⟩

def plainTest (a : Algorithm) (digest : Fixed 32) : Test cpu where
  request := ⟨0,a,0,⟨[],7,digest⟩⟩
  kernel := ⟨a,0,none,false,none,none⟩
  calls := ⟨(),(),(),(),(),()⟩

theorem plain_tested : Reach (step : Tester → Test cpu → Option Tester) free ⟨[],[]⟩
    ⟨((plainTest plainAlgorithm plainDigest).run []).2.2,
      [(plainTest plainAlgorithm plainDigest).request]⟩ := by
  have hlen : ((plainTest plainAlgorithm plainDigest).run []).2.2.length = 1 := by decide +kernel
  exact .single (e := plainTest plainAlgorithm plainDigest) trivial (by simp only [step,hlen]; rfl)

/-- Two algorithms with a vector each, at one address: the second does not pass, and would have
passed in a process of its own. -/
theorem exact_passes_run : ∃ p : Tester,
    Reach (step : Tester → Test cpu → Option Tester) free ⟨[],[]⟩ p ∧
    ((plainTest otherAlgorithm otherDigest).run []).1 = none ∧
    ((plainTest otherAlgorithm otherDigest).run p.cache).1 ≠ none := by
  have hr := plain_tested
  have hsound : ∀ t : Test cpu, t.kernel.waiting = false → cpuContract.Sound t.kernel :=
    fun t ht hw => absurd hw (by simp [ht])
  have halone : (plainTest otherAlgorithm otherDigest).request.own.alone = true := by
    decide +kernel
  have hother : (plainTest plainAlgorithm plainDigest).request.own ≠
      (plainTest otherAlgorithm otherDigest).request.own := by
    decide +kernel
  refine ⟨_,hr,?_,fun h => hother ?_⟩
  · exact (exact_passes (p := ⟨[],[]⟩) exact_cpu .start _ (hsound _ rfl) rfl rfl (cpu_drivers _ _)).mpr
      ⟨by decide,halone,nofun⟩
  · obtain ⟨-,-,hfirst⟩ := (exact_passes exact_cpu hr _ (hsound _ rfl) rfl rfl (cpu_drivers _ _)).mp h
    exact hfirst _ rfl

end SelfTest

end VkMiner.Scheduler.Mining
