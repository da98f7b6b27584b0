import Mathlib.Data.List.Perm.Basic
import VkMiner.Lib.Runs
import VkMiner.Session.Replies
set_option autoImplicit false

/-! The share counters of core/work.c, moved by the workers that submit, by workio
that sends or drops, and by the stratum thread that reads the replies. -/

namespace VkMiner.Counters
open Runs Stratum Replies

def strstr (s needle : CStr) : Bool := s.tails.any (fun t => needle.isPrefixOf t)

inductive Outcome where
  | accepted | rejected | stale
  deriving DecidableEq, Repr

def shareResult (result : Bool) (reason : Option CStr) : Outcome :=
  if result then .accepted
  else if reason.any (fun r => strstr r (ascii "job") || strstr r (ascii "Job")) then .stale
  else .rejected

def stratumHandleResponse (line : Option Json) : Option (Int × Outcome) :=
  let result := jsonObjectGet line (ascii "result")
  let id := jsonObjectGet line (ascii "id")
  if jsonGiven id = false then none
  else if result.isNone ∨ jsonIntegerValue id < 4 then none
  else
    some (jsonIntegerValue id,
      shareResult (jsonIsTrue result)
        (jsonStringValue (jsonArrayGet (jsonObjectGet line (ascii "error")) 1)))

inductive Hand where
  | idle
  | working (k failures : Nat)
  | gone
  deriving DecidableEq, Repr

def Hand.shares : Hand → List Nat
  | .working k _ => [k]
  | _ => []

/-- Shares are numbered as they claim their ids. `calls` have yet to push theirs and
`pushed` to count it; the counters are beside the shares that they have counted. -/
structure Tally where
  nextId : UInt32
  ids : List UInt32
  calls : List Nat
  pushed : List Nat
  queue : List Nat
  frozen : Bool
  workio : Hand
  unanswered : List Nat
  submittedShareCount : UInt32
  acceptedShareCount : UInt32
  rejectedShareCount : UInt32
  staleShareCount : UInt32
  submitted : List Nat
  accepted : List Nat
  rejected : List Nat
  stale : List Nat
  deriving DecidableEq

/-- A pop that finds nothing ends workio. A reply is misread when its line is taken for
the answer to another request, or for a request. -/
inductive Event where
  | claims
  | pushes (k : Nat)
  | counts (k : Nat)
  | pops
  | popsNothing
  | drops
  | sends (ok : Bool)
  | freezes
  | replies (k : Nat) (line : Option Json)
  | misreads (k : Nat)

namespace Tally

def start : Tally where
  nextId := firstSubmitId
  ids := []
  calls := []
  pushed := []
  queue := []
  frozen := false
  workio := .idle
  unanswered := []
  submittedShareCount := 0
  acceptedShareCount := 0
  rejectedShareCount := 0
  staleShareCount := 0
  submitted := []
  accepted := []
  rejected := []
  stale := []

def count (m : Tally) (k : Nat) (o : Outcome) : Tally :=
  match o with
  | .accepted =>
    { m with acceptedShareCount := m.acceptedShareCount+1, accepted := m.accepted ++ [k] }
  | .rejected =>
    { m with rejectedShareCount := m.rejectedShareCount+1, rejected := m.rejected ++ [k] }
  | .stale => { m with staleShareCount := m.staleShareCount+1, stale := m.stale ++ [k] }

/-- The pool answers a share it has received, under its id, and no share twice. -/
def step (opt : Options) (m : Tally) (e : Event) : Option Tally :=
  match e with
  | .claims =>
    some { m with
      nextId := Board.nextSubmitId m.nextId
      ids := m.ids ++ [m.nextId]
      calls := m.calls ++ [m.ids.length] }
  | .pushes k =>
    if k ∉ m.calls then none
    else if m.frozen then some { m with calls := m.calls.erase k }
    else
      some { m with
        calls := m.calls.erase k
        pushed := m.pushed ++ [k]
        queue := m.queue ++ [k] }
  | .counts k =>
    if k ∉ m.pushed then none
    else
      some { m with
        pushed := m.pushed.erase k
        submittedShareCount := m.submittedShareCount+1
        submitted := m.submitted ++ [k] }
  | .pops =>
    match m.workio,m.queue with
    | .idle,k :: rest => some { m with queue := rest, workio := .working k 0 }
    | _,_ => none
  | .popsNothing => if m.workio = .idle then some { m with workio := .gone } else none
  | .drops =>
    match m.workio with
    | .working k _ => some ({ m with workio := .idle }.count k .stale)
    | _ => none
  | .sends ok =>
    match m.workio with
    | .working k failures =>
      if ok then some { m with workio := .idle, unanswered := m.unanswered ++ [k] }
      else if opt.retries.any (fun n => n ≤ failures) then some { m with workio := .gone }
      else some { m with workio := .working k (failures+1) }
    | _ => none
  | .freezes => if m.workio = .gone then some { m with frozen := true } else none
  | .replies k line =>
    if k ∉ m.unanswered ∨ (m.ids[k]?).map (fun id => (id.toNat : Int)) ≠
        some (jsonIntegerValue (jsonObjectGet line (ascii "id"))) then none
    else
      let m' := { m with unanswered := m.unanswered.erase k }
      match stratumHandleResponse line with
      | none => some m'
      | some r => some (m'.count k r.2)
  | .misreads k =>
    if k ∉ m.unanswered then none else some { m with unanswered := m.unanswered.erase k }

/-- Replies have a result and are read as replies, and workio does not give up. -/
def Accountable (opt : Options) (m : Tally) (e : Event) : Prop :=
  match e,m.workio with
  | .replies _ line,_ => (jsonObjectGet line (ascii "result")).isSome = true
  | .misreads _,_ => False
  | .sends false,.working _ failures => opt.retries.any (fun n => n ≤ failures) = false
  | _,_ => True

instance (opt : Options) (m : Tally) (e : Event) : Decidable (Accountable opt m e) := by
  unfold Accountable
  split <;> infer_instance

def queued (m : Tally) : List Nat := m.queue ++ m.workio.shares

/-- No call of `submit_solution` is in progress. -/
def Quiet (m : Tally) : Prop := m.calls = [] ∧ m.pushed = []

instance (m : Tally) : Decidable m.Quiet := inferInstanceAs (Decidable (_ ∧ _))

def places (m : Tally) : List Nat :=
  m.accepted ++ m.rejected ++ m.stale ++ m.queued ++ m.unanswered

/-- Every submitted share is in one place, and the counters add up. -/
structure Balanced (m : Tally) : Prop where
  once : m.submitted.Nodup ∧ m.places.Perm m.submitted
  sum : m.submittedShareCount = m.acceptedShareCount+m.rejectedShareCount+m.staleShareCount+
    UInt32.ofNat m.queued.length+UInt32.ofNat m.unanswered.length

structure Counted (m : Tally) : Prop where
  submitted : m.submittedShareCount = UInt32.ofNat m.submitted.length
  accepted : m.acceptedShareCount = UInt32.ofNat m.accepted.length
  rejected : m.rejectedShareCount = UInt32.ofNat m.rejected.length
  stale : m.staleShareCount = UInt32.ofNat m.stale.length

/-- Shares under way, each on its own. -/
structure Conserved (m : Tally) : Prop where
  counted : Counted m
  ids : 4 ≤ m.nextId.toNat ∧ ∀ id ∈ m.ids, 4 ≤ id.toNat
  single : ∀ k, m.calls.count k+m.pushed.count k+m.submitted.count k ≤
    if k < m.ids.length then 1 else 0
  places : ∀ k, m.places.count k = m.submitted.count k+m.pushed.count k

variable {opt : Options} {m m' : Tally} {e : Event}

theorem ofNat_append {α : Type*} (xs : List α) (a : α) :
    UInt32.ofNat (xs ++ [a]).length = UInt32.ofNat xs.length+1 := by
  simp [UInt32.ofNat_add]

theorem Counted.count (hc : Counted m) (k : Nat) (o : Outcome) : Counted (m.count k o) := by
  cases o with
  | accepted => exact ⟨hc.submitted,by simp only [Tally.count,hc.accepted,ofNat_append],hc.rejected,
      hc.stale⟩
  | rejected => exact ⟨hc.submitted,hc.accepted,by simp only [Tally.count,hc.rejected,ofNat_append],
      hc.stale⟩
  | stale => exact ⟨hc.submitted,hc.accepted,hc.rejected,
      by simp only [Tally.count,hc.stale,ofNat_append]⟩

theorem count_erase_add {xs : List Nat} {k : Nat} (hk : k ∈ xs) (j : Nat) :
    (xs.erase k).count j+[k].count j = xs.count j := by
  have hpos := List.count_pos_iff.mpr hk
  by_cases h : k = j
  · subst h
    rw [List.count_erase_self,List.count_singleton_self]
    omega
  · rw [List.count_erase_of_ne (Ne.symm h),List.count_singleton]
    simp [h]

theorem places_count (k j : Nat) (o : Outcome) :
    (m.count k o).places.count j = m.places.count j+[k].count j := by
  cases o <;> simp only [places,Tally.count,queued,List.count_append] <;> omega

theorem Conserved.claims (hc : Conserved m) : Conserved { m with
    nextId := Board.nextSubmitId m.nextId
    ids := m.ids ++ [m.nextId]
    calls := m.calls ++ [m.ids.length] } := by
  refine ⟨⟨hc.counted.submitted,hc.counted.accepted,hc.counted.rejected,hc.counted.stale⟩,
    ⟨Board.nextSubmitId_first,fun id hid => ?_⟩,fun j => ?_,hc.places⟩
  · rcases List.mem_append.mp hid with hid | hid
    · exact hc.ids.2 id hid
    · rw [List.mem_singleton.mp hid]
      exact hc.ids.1
  · have hj := hc.single j
    simp only [List.count_append,List.length_append,List.length_singleton,List.count_singleton]
    by_cases hlen : m.ids.length = j
    · subst hlen
      simp only [Nat.lt_irrefl,if_false] at hj
      simp
      omega
    · have hbeq : (m.ids.length == j) = false := beq_eq_false_iff_ne.mpr hlen
      simp only [hbeq,Bool.false_eq_true,if_false]
      split at hj <;> split <;> omega

theorem Conserved.pushes {k : Nat} (hc : Conserved m) (hk : k ∈ m.calls) :
    Conserved { m with calls := m.calls.erase k, pushed := m.pushed ++ [k], queue := m.queue ++ [k] } := by
  refine ⟨⟨hc.counted.submitted,hc.counted.accepted,hc.counted.rejected,hc.counted.stale⟩,hc.ids,
    fun j => ?_,fun j => ?_⟩
  · have hj := hc.single j
    have he := count_erase_add hk j
    simp only [List.count_append]
    omega
  · have hp := hc.places j
    simp only [Tally.places,queued,List.count_append] at hp ⊢
    omega

theorem Conserved.refused {k : Nat} (hc : Conserved m) (hk : k ∈ m.calls) :
    Conserved { m with calls := m.calls.erase k } := by
  refine ⟨⟨hc.counted.submitted,hc.counted.accepted,hc.counted.rejected,hc.counted.stale⟩,hc.ids,
    fun j => ?_,hc.places⟩
  have hj := hc.single j
  have he := count_erase_add hk j
  simp only
  omega

theorem Conserved.counts {k : Nat} (hc : Conserved m) (hk : k ∈ m.pushed) : Conserved { m with
    pushed := m.pushed.erase k
    submittedShareCount := m.submittedShareCount+1
    submitted := m.submitted ++ [k] } := by
  refine ⟨⟨?_,hc.counted.accepted,hc.counted.rejected,hc.counted.stale⟩,hc.ids,fun j => ?_,
    fun j => ?_⟩
  · simp only [hc.counted.submitted,ofNat_append]
  · have hj := hc.single j
    have he := count_erase_add hk j
    simp only [List.count_append]
    omega
  · have hp := hc.places j
    have he := count_erase_add hk j
    simp only [Tally.places,queued,List.count_append] at hp ⊢
    omega

theorem Conserved.moves {queue unanswered : List Nat} {workio : Hand} (hc : Conserved m)
    (hp : ∀ j, queue.count j+workio.shares.count j+unanswered.count j =
      m.queue.count j+m.workio.shares.count j+m.unanswered.count j) :
    Conserved { m with queue := queue, workio := workio, unanswered := unanswered } := by
  refine ⟨⟨hc.counted.submitted,hc.counted.accepted,hc.counted.rejected,hc.counted.stale⟩,hc.ids,
    hc.single,fun j => ?_⟩
  have hj := hc.places j
  have hq := hp j
  simp only [Tally.places,queued,List.count_append] at hj ⊢
  omega

theorem Conserved.ends {unanswered : List Nat} {workio : Hand} {k : Nat} (o : Outcome)
    (hc : Conserved m) (hp : ∀ j, workio.shares.count j+unanswered.count j+[k].count j =
      m.workio.shares.count j+m.unanswered.count j) :
    Conserved ({ m with workio := workio, unanswered := unanswered }.count k o) := by
  have hcount : Counted { m with workio := workio, unanswered := unanswered } :=
    ⟨hc.counted.submitted,hc.counted.accepted,hc.counted.rejected,hc.counted.stale⟩
  have hsame : ({ m with workio := workio, unanswered := unanswered }.count k o).ids = m.ids ∧
      ({ m with workio := workio, unanswered := unanswered }.count k o).nextId = m.nextId ∧
      ({ m with workio := workio, unanswered := unanswered }.count k o).calls = m.calls ∧
      ({ m with workio := workio, unanswered := unanswered }.count k o).pushed = m.pushed ∧
      ({ m with workio := workio, unanswered := unanswered }.count k o).submitted = m.submitted := by
    cases o <;> exact ⟨rfl,rfl,rfl,rfl,rfl⟩
  obtain ⟨hids,hnext,hcalls,hpushed,hsub⟩ := hsame
  refine ⟨hcount.count k o,by rw [hids,hnext]; exact hc.ids,fun j => ?_,fun j => ?_⟩
  · rw [hcalls,hpushed,hsub,hids]
    exact hc.single j
  · have hj := hc.places j
    have hq := hp j
    rw [places_count,hsub,hpushed]
    simp only [Tally.places,queued,List.count_append] at hj ⊢
    omega

theorem response_of_result {line : Option Json} {id : UInt32} (h4 : 4 ≤ id.toNat)
    (hid : (id.toNat : Int) = jsonIntegerValue (jsonObjectGet line (ascii "id")))
    (hr : (jsonObjectGet line (ascii "result")).isSome = true) :
    stratumHandleResponse line ≠ none := by
  obtain ⟨result,hresult⟩ := Option.isSome_iff_exists.mp hr
  have hgiven : jsonGiven (jsonObjectGet line (ascii "id")) = true := by
    cases hj : jsonObjectGet line (ascii "id") with
    | none =>
      rw [hj] at hid
      simp only [jsonIntegerValue] at hid
      omega
    | some j =>
      rw [hj] at hid
      cases j with
      | null =>
        simp only [jsonIntegerValue] at hid
        omega
      | bool | integer | real | string | array | object => rfl
  have hlarge : ¬ jsonIntegerValue (jsonObjectGet line (ascii "id")) < 4 := by omega
  simp [stratumHandleResponse,hgiven,hresult,hlarge]

theorem Conserved.step (hc : Conserved m) (ho : Accountable opt m e)
    (hs : m.step opt e = some m') : Conserved m' := by
  cases e with
  | claims =>
    cases hs
    exact hc.claims
  | pushes k =>
    simp only [Tally.step] at hs
    split at hs
    · cases hs
    · next hk =>
      split at hs <;> cases hs
      · exact hc.refused (not_not.mp hk)
      · exact hc.pushes (not_not.mp hk)
  | counts k =>
    simp only [Tally.step] at hs
    split at hs <;> cases hs
    next hk => exact hc.counts (not_not.mp hk)
  | pops =>
    simp only [Tally.step] at hs
    split at hs
    · next k rest hw hq =>
      cases hs
      refine hc.moves (fun j => ?_)
      have hcons : m.queue = [k] ++ rest := hq
      rw [hcons,hw,List.count_append]
      simp only [Hand.shares,List.count_nil]
      omega
    · cases hs
  | popsNothing =>
    simp only [Tally.step] at hs
    split at hs <;> cases hs
    next hw => exact hc.moves (fun j => by simp [hw,Hand.shares])
  | drops =>
    simp only [Tally.step] at hs
    split at hs
    · next k failures hw =>
      cases hs
      refine hc.ends .stale (fun j => ?_)
      rw [hw]
      simp only [Hand.shares,List.count_nil]
      omega
    · cases hs
  | sends ok =>
    simp only [Tally.step] at hs
    split at hs
    · next k failures hw =>
      split at hs
      · cases hs
        refine hc.moves (fun j => ?_)
        rw [hw,List.count_append]
        simp only [Hand.shares,List.count_nil]
        omega
      · next hok =>
        have hfalse : ok = false := by simpa using hok
        subst hfalse
        simp only [Accountable,hw] at ho
        rw [if_neg (by simp [ho])] at hs
        cases hs
        exact hc.moves (fun j => by simp [hw,Hand.shares])
    · cases hs
  | freezes =>
    simp only [Tally.step] at hs
    split at hs <;> cases hs
    exact ⟨⟨hc.counted.submitted,hc.counted.accepted,hc.counted.rejected,hc.counted.stale⟩,hc.ids,
      hc.single,hc.places⟩
  | replies k line =>
    simp only [Tally.step] at hs
    split at hs
    · cases hs
    · next hk =>
      simp only [not_or,not_not] at hk
      obtain ⟨hmem,hid⟩ := hk
      obtain ⟨id,hget,hid⟩ := Option.map_eq_some_iff.mp hid
      have h4 := hc.ids.2 id (List.mem_of_getElem? hget)
      have hsome := response_of_result h4 hid ho
      split at hs
      · next hnone => exact absurd hnone hsome
      · next r hr =>
        cases hs
        refine hc.ends r.2 (fun j => ?_)
        have he := count_erase_add hmem j
        omega
  | misreads k => exact absurd ho id

theorem Conserved.start : Conserved start where
  counted := ⟨rfl,rfl,rfl,rfl⟩
  ids := ⟨by decide,fun id hid => by cases hid⟩
  single k := by simp [Tally.start]
  places k := rfl

theorem Conserved.balanced (hc : Conserved m) (hq : Quiet m) : Balanced m := by
  have hnodup : m.submitted.Nodup := by
    refine List.nodup_iff_count.mpr (fun k => ?_)
    have hk := hc.single k
    split at hk <;> omega
  have hperm : m.places.Perm m.submitted := by
    refine List.perm_iff_count.mpr (fun k => ?_)
    have hk := hc.places k
    rw [hq.2,List.count_nil] at hk
    omega
  refine ⟨⟨hnodup,hperm⟩,?_⟩
  have hlen := hperm.length_eq
  rw [hc.counted.submitted,hc.counted.accepted,hc.counted.rejected,hc.counted.stale,← hlen]
  simp only [Tally.places,List.length_append,UInt32.ofNat_add]

/-- Between submits every share is in one place, as long as every reply says something
and workio keeps trying. -/
theorem shares_add_up (opt : Options) (m : Tally) (hr : Reach (step opt) (Accountable opt) start m)
    (hq : Quiet m) : Balanced m :=
  (hr.invariant (I := Conserved) .start (fun _ _ _ hc ho hs => hc.step ho hs)).balanced hq

def submits (k : Nat) : List Event := [.claims,.pushes k,.counts k]

def replyTo (id : Int) (fields : List (CStr × Json)) : Option Json :=
  some (.object ((ascii "id",.integer id) :: fields))

def refusal : CStr × Json :=
  (ascii "error",.array [.integer 21,.string (ascii "Job not found"),.null])

/-- Three shares: one accepted, one stale by its reason, one dropped. -/
theorem three_shares_add_up :
    ∃ m, Reach (step direct) (Accountable direct) start m ∧
      (m.submittedShareCount,m.acceptedShareCount,m.staleShareCount) = (3,1,2) ∧ Balanced m := by
  obtain ⟨m,hr,hq,hc⟩ := reach_of_any (step direct) (Accountable direct) start
    (submits 0 ++ submits 1 ++ submits 2 ++ [.pops,.sends true,.pops,.sends false,.sends true,
      .replies 1 (replyTo 5 [(ascii "result",.null),refusal]),
      .replies 0 (replyTo 4 [(ascii "result",.bool true)]),.pops,.drops])
    (fun m => Quiet m ∧
      (m.submittedShareCount,m.acceptedShareCount,m.staleShareCount) = (3,1,2)) (by decide)
  exact ⟨m,hr,hc,shares_add_up direct m hr hq⟩

/-- A refusal that has an error and no result is not counted at all. -/
theorem refusal_is_not_counted :
    ¬ ∀ (opt : Options) (m : Tally), Reach (step opt) free start m → Quiet m → Balanced m := by
  intro hall
  obtain ⟨m,hr,hq,hc⟩ := reach_of_any (step direct) free start
    (submits 0 ++ [.pops,.sends true,.replies 0 (replyTo 4 [refusal])])
    (fun m => Quiet m ∧ m.submitted.length = 1 ∧ m.places.length = 0) (by decide)
  have hlen := (hall direct m hr hq).once.2.length_eq
  omega

end Tally
end VkMiner.Counters
