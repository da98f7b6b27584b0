import Mathlib.Logic.Function.Basic
import VkMiner.Lib.Runs
import VkMiner.Stratum.Method
set_option autoImplicit false

/-! The ring of pending entries in core/work.c: a share claims an id, is queued, and
only then files its entry; the workio thread sends it and the stratum thread looks
its reply up, each in its own time. -/

namespace VkMiner.Replies
open Runs Stratum

abbrev statsSize : Nat := 64

def firstSubmitId : UInt32 := 4

/-- A share, by what its entry is filled in from. -/
structure Share where
  submitId : UInt32
  shareDiff : Rat
  targetDiff : Rat
  height : UInt32
  jobId : CStr
  deriving DecidableEq

/-- A pending entry; `share` is the number of the share that filed it. -/
structure Entry where
  shareCount : Nat
  submitId : UInt32
  submitTime : Nat
  netDiff : Rat
  shareDiff : Rat
  stratumDiff : Rat
  targetDiff : Rat
  height : UInt32
  jobId : CStr
  share : Nat
  deriving DecidableEq

/-- A reply as it was dealt with: the shares it was due to, and the entry it took. -/
structure Answer where
  due : List Nat
  consumed : Option Entry
  deriving DecidableEq

/-- Shares are numbered as they claim their ids. An entry is lost when it is
overwritten or reset. -/
structure Board where
  slots : Fin statsSize → Option Entry
  put : Fin statsSize
  nextId : UInt32
  shares : List Share
  pushed : List Nat
  filed : List Nat
  sent : List Nat
  answered : List Nat
  lost : List Nat
  answers : List Answer

/-- A reply is misread when its line is taken for a request, or read by the handshake. -/
inductive Event where
  | claims (shareDiff targetDiff : Rat) (height : UInt32) (jobId : CStr)
  | pushes (k : Nat)
  | files (k now : Nat) (netDiff stratumDiff : Rat)
  | sends (k : Nat)
  | replies (line : Option Json)
  | misreads (line : Option Json)
  | resets

def replyId (line : Option Json) : Int := jsonIntegerValue (jsonObjectGet line (ascii "id"))

def hasResult (line : Option Json) : Bool := (jsonObjectGet line (ascii "result")).isSome

namespace Board

def start : Board where
  slots _ := none
  put := 0
  nextId := firstSubmitId
  shares := []
  pushed := []
  filed := []
  sent := []
  answered := []
  lost := []
  answers := []

def statsPtrIncr (p : Fin statsSize) : Fin statsSize := p+1

/-- `claim_submit_id`: past 2^32 the ids start again where they started. -/
def nextSubmitId (id : UInt32) : UInt32 :=
  if id+1 < firstSubmitId then firstSubmitId else id+1

def entryOf (m : Board) (k : Nat) (s : Share) (now : Nat) (netDiff stratumDiff : Rat) : Entry :=
  ⟨m.filed.length+1,s.submitId,now,netDiff,s.shareDiff,stratumDiff,s.targetDiff,s.height,
    s.jobId.take 30,k⟩

/-- `update_submit_stats`, which writes over whatever the slot still holds. -/
def updateSubmitStats (m : Board) (k : Nat) (s : Share) (now : Nat) (netDiff stratumDiff : Rat) :
    Board :=
  { m with
    slots := Function.update m.slots m.put (some (m.entryOf k s now netDiff stratumDiff))
    put := statsPtrIncr m.put
    filed := m.filed ++ [k]
    lost := m.lost ++ ((m.slots m.put).map Entry.share).toList }

def slotOf (m : Board) (id : UInt32) : Option (Fin statsSize) :=
  (List.finRange statsSize).find? (fun i => (m.slots i).any (fun e => e.submitId == id))

def Waiting (m : Board) (k : Nat) : Prop := k ∉ m.answered ∧ k ∉ m.lost

instance (m : Board) (k : Nat) : Decidable (m.Waiting k) :=
  inferInstanceAs (Decidable (k ∉ m.answered ∧ k ∉ m.lost))

def due (m : Board) (id : Int) : List Nat :=
  m.sent.filter (fun k => decide (m.Waiting k) && m.shares[k]?.any (fun s => s.submitId.toNat == id))

def shareResult (m : Board) (id : UInt32) : Option Entry × Board :=
  match m.slotOf id with
  | none => (none,m)
  | some i => (m.slots i,{ m with slots := Function.update m.slots i none })

def settle (m : Board) (line : Option Json) (r : Option Entry × Board) : Board :=
  { r.2 with
    answered := m.answered ++ m.due (replyId line)
    answers := m.answers ++ [⟨m.due (replyId line),r.1⟩] }

/-- `stratum_handle_response`: a line without a result or without an id is left, the ids below 4
are the handshake's, and what is above them is cut to 32 bits. -/
def handleResponse (m : Board) (line : Option Json) : Board :=
  if jsonGiven (jsonObjectGet line (ascii "id")) = false then m.settle line (none,m)
  else if hasResult line = false ∨ replyId line < 4 then m.settle line (none,m)
  else m.settle line (m.shareResult (UInt32.ofNat (replyId line).toNat))

def shareStatsReset (m : Board) : Board :=
  { m with
    slots := fun _ => none
    put := 0
    lost := m.lost ++ (List.finRange statsSize).filterMap (fun i => (m.slots i).map Entry.share) }

def step (m : Board) (e : Event) : Option Board :=
  match e with
  | .claims shareDiff targetDiff height jobId =>
    some { m with
      nextId := nextSubmitId m.nextId
      shares := m.shares ++ [⟨m.nextId,shareDiff,targetDiff,height,jobId⟩] }
  | .pushes k =>
    if k < m.shares.length ∧ k ∉ m.pushed then some { m with pushed := m.pushed ++ [k] } else none
  | .files k now netDiff stratumDiff =>
    match m.shares[k]? with
    | none => none
    | some s =>
      if k ∈ m.pushed ∧ k ∉ m.filed then some (m.updateSubmitStats k s now netDiff stratumDiff)
      else none
  | .sends k =>
    if k ∈ m.pushed ∧ k ∉ m.sent then some { m with sent := m.sent ++ [k] } else none
  | .replies line => some (m.handleResponse line)
  | .misreads line => some (m.settle line (none,m))
  | .resets => some m.shareStatsReset

def Entry.Of (e : Entry) (k : Nat) (s : Share) : Prop :=
  e.share = k ∧ e.submitId = s.submitId ∧ e.shareDiff = s.shareDiff ∧
    e.targetDiff = s.targetDiff ∧ e.height = s.height ∧ e.jobId = s.jobId.take 30

/-- What is promised of replies and of the entries that are left. -/
structure Matched (m : Board) : Prop where
  consumed : ∀ r ∈ m.answers, ∀ k ∈ r.due,
    ∃ e s, r.consumed = some e ∧ m.shares[k]? = some s ∧ Entry.Of e k s
  gone : ∀ i e, m.slots i = some e → e.share ∉ m.answered
  single : ∀ i j e e', m.slots i = some e → m.slots j = some e' → e.submitId = e'.submitId → i = j

/-- A share under the id that a reply is cut to: it was sent under the whole id, and
has filed its entry. -/
def Ready (m : Board) (id : Int) (k : Nat) : Prop :=
  ∀ s ∈ m.shares[k]?,
    s.submitId = UInt32.ofNat id.toNat → k ∈ m.sent ∧ k ∈ m.filed ∧ s.submitId.toNat = id

instance (m : Board) (id : Int) (k : Nat) : Decidable (m.Ready id k) :=
  inferInstanceAs (Decidable (∀ s ∈ m.shares[k]?,
    s.submitId = UInt32.ofNat id.toNat → k ∈ m.sent ∧ k ∈ m.filed ∧ s.submitId.toNat = id))

/-- An id is claimed when no share that waits has it, and a reply finds the shares
that wait under its id ready, unless it has no result or is misread: then none does that
has been sent. -/
def InTime (m : Board) (e : Event) : Prop :=
  match e with
  | .claims _ _ _ _ =>
    ∀ k < m.shares.length, m.Waiting k → ∀ s ∈ m.shares[k]?, s.submitId ≠ m.nextId
  | .replies line =>
    if hasResult line then
      4 ≤ replyId line → ∀ k < m.shares.length, m.Waiting k → m.Ready (replyId line) k
    else m.due (replyId line) = []
  | .misreads line => m.due (replyId line) = []
  | _ => True

instance (m : Board) (e : Event) : Decidable (m.InTime e) := by
  cases e <;> unfold InTime <;> infer_instance

/-- The invariant behind `Matched`: the ring holds exactly the entries of the shares
that have filed one and wait. -/
structure Filed (m : Board) : Prop where
  own : ∀ i e, m.slots i = some e →
    m.Waiting e.share ∧ e.share ∈ m.filed ∧ ∃ s, m.shares[e.share]? = some s ∧ Entry.Of e e.share s
  back : ∀ k ∈ m.filed, m.Waiting k → ∃ i e, m.slots i = some e ∧ e.share = k
  once : ∀ i j e e', m.slots i = some e → m.slots j = some e' → e.share = e'.share → i = j
  ids : 4 ≤ m.nextId.toNat ∧ ∀ s ∈ m.shares, 4 ≤ s.submitId.toNat
  unique : ∀ k l s s', m.shares[k]? = some s → m.shares[l]? = some s' → m.Waiting k →
    m.Waiting l → s.submitId = s'.submitId → k = l
  known : ∀ k ∈ m.filed, k < m.shares.length
  answered : ∀ k ∈ m.answered, k ∈ m.filed
  lost : ∀ k ∈ m.lost, k ∈ m.filed
  answers : ∀ r ∈ m.answers, ∀ k ∈ r.due,
    ∃ e s, r.consumed = some e ∧ m.shares[k]? = some s ∧ Entry.Of e k s

variable {m m' : Board} {e : Event}

theorem Filed.matched (hf : Filed m) : Matched m where
  consumed := hf.answers
  gone i e he := (hf.own i e he).1.1
  single i j e e' he he' hid := by
    obtain ⟨hw,-,s,hs,ho⟩ := hf.own i e he
    obtain ⟨hw',-,s',hs',ho'⟩ := hf.own j e' he'
    have hss : s.submitId = s'.submitId := ho.2.1.symm.trans (hid.trans ho'.2.1)
    exact hf.once i j e e' he he' (hf.unique _ _ s s' hs hs' hw hw' hss)

theorem Filed.start : Filed start where
  own i e he := by cases he
  back k hk := by cases hk
  once i j e e' he := by cases he
  ids := ⟨by decide,fun s hs => by cases hs⟩
  unique k l s s' hs := by simp [Board.start] at hs
  known k hk := by cases hk
  answered k hk := by cases hk
  lost k hk := by cases hk
  answers r hr := by cases hr

theorem nextSubmitId_first {id : UInt32} : 4 ≤ (nextSubmitId id).toNat := by
  unfold nextSubmitId
  split
  · decide
  · next h => exact Nat.le_of_not_lt (fun hlt => h (UInt32.lt_iff_toNat_lt.mpr hlt))

theorem Filed.claims {shareDiff targetDiff : Rat} {height : UInt32} {jobId : CStr}
    (hf : Filed m) (ho : InTime m (.claims shareDiff targetDiff height jobId)) :
    Filed { m with
      nextId := nextSubmitId m.nextId
      shares := m.shares ++ [⟨m.nextId,shareDiff,targetDiff,height,jobId⟩] } := by
  have old {k : Nat} {s : Share} (hs : m.shares[k]? = some s) :
      (m.shares ++ [⟨m.nextId,shareDiff,targetDiff,height,jobId⟩])[k]? = some s := by
    have hk : k < m.shares.length := (List.getElem?_eq_some_iff.mp hs).1
    rw [List.getElem?_append_left hk,hs]
  -- what a number stands for now: a share from before, or the new one
  have either {k : Nat} {s : Share}
      (hs : (m.shares ++ [⟨m.nextId,shareDiff,targetDiff,height,jobId⟩])[k]? = some s) :
      m.shares[k]? = some s ∨ k = m.shares.length ∧ s.submitId = m.nextId := by
    rw [List.getElem?_append] at hs
    split at hs
    · exact .inl hs
    · next hk =>
      obtain ⟨hi,rfl⟩ := List.getElem?_eq_some_iff.mp hs
      simp only [List.length_singleton] at hi
      exact .inr ⟨by omega,by simp⟩
  have fresh {k : Nat} {s : Share} (hs : m.shares[k]? = some s) (hw : m.Waiting k) :
      s.submitId ≠ m.nextId :=
    ho k (List.getElem?_eq_some_iff.mp hs).1 hw s hs
  refine ⟨fun i e he => ?_,hf.back,hf.once,⟨nextSubmitId_first,fun s hs => ?_⟩,
    fun k l s s' hs hs' hw hw' hid => ?_,fun k hk => ?_,hf.answered,hf.lost,fun r hr k hk => ?_⟩
  · obtain ⟨hw,hin,s,hs,ho⟩ := hf.own i e he
    exact ⟨hw,hin,s,old hs,ho⟩
  · rcases List.mem_append.mp hs with hs | hs
    · exact hf.ids.2 s hs
    · rw [List.mem_singleton.mp hs]
      exact hf.ids.1
  · rcases either hs with hs | ⟨hk,hn⟩ <;> rcases either hs' with hs' | ⟨hl,hn'⟩
    · exact hf.unique k l s s' hs hs' hw hw' hid
    · exact absurd (hid.trans hn') (fresh hs hw)
    · exact absurd (hid.symm.trans hn) (fresh hs' hw')
    · exact hk.trans hl.symm
  · have hlt := hf.known k hk
    simp only [List.length_append]
    omega
  · obtain ⟨e,s,hc,hs,ho⟩ := hf.answers r hr k hk
    exact ⟨e,s,hc,old hs,ho⟩

theorem Filed.files {k now : Nat} {netDiff stratumDiff : Rat} {s : Share} (hf : Filed m)
    (hs : m.shares[k]? = some s) (hk : k ∉ m.filed) :
    Filed (m.updateSubmitStats k s now netDiff stratumDiff) := by
  -- a slot afterwards: the new entry, or one from before in another slot
  have slot {i : Fin statsSize} {e : Entry}
      (he : (m.updateSubmitStats k s now netDiff stratumDiff).slots i = some e) :
      i = m.put ∧ e = m.entryOf k s now netDiff stratumDiff ∨ i ≠ m.put ∧ m.slots i = some e := by
    by_cases hi : i = m.put
    · rw [hi] at he ⊢
      simp only [updateSubmitStats,Function.update_self,Option.some.injEq] at he
      exact .inl ⟨rfl,he.symm⟩
    · simp only [updateSubmitStats,Function.update_of_ne hi] at he
      exact .inr ⟨hi,he⟩
  have lost {l : Nat} : l ∈ m.lost ++ ((m.slots m.put).map Entry.share).toList ↔
      l ∈ m.lost ∨ ∃ e, m.slots m.put = some e ∧ e.share = l := by
    cases m.slots m.put <;> simp [eq_comm]
  have before {l : Nat} (hw : (m.updateSubmitStats k s now netDiff stratumDiff).Waiting l) :
      m.Waiting l := ⟨hw.1,fun hl => hw.2 (lost.mpr (.inl hl))⟩
  have other {i : Fin statsSize} {e : Entry} (he : m.slots i = some e) : e.share ≠ k :=
    fun hek => hk (hek ▸ (hf.own i e he).2.1)
  have mem {l : Nat} (hl : l ∈ m.filed) : l ∈ m.filed ++ [k] := List.mem_append_left _ hl
  refine ⟨fun i e he => ?_,fun l hl hw => ?_,fun i j e e' he he' hee => ?_,hf.ids,
    fun l l' s₁ s₂ h₁ h₂ hw hw' hid => hf.unique l l' s₁ s₂ h₁ h₂ (before hw) (before hw') hid,
    fun l hl => ?_,fun l hl => mem (hf.answered l hl),fun l hl => ?_,hf.answers⟩
  · rcases slot he with ⟨hi,rfl⟩ | ⟨hi,he⟩
    · refine ⟨⟨fun ha => hk (hf.answered k ha),fun hl => ?_⟩,by simp [updateSubmitStats,entryOf],s,
        hs,rfl,rfl,rfl,rfl,rfl,rfl⟩
      rcases lost.mp hl with hl | ⟨e,he,hek⟩
      · exact hk (hf.lost k hl)
      · exact other he hek
    · obtain ⟨hw,hin,s',hs',ho'⟩ := hf.own i e he
      refine ⟨⟨hw.1,fun hl => ?_⟩,mem hin,s',hs',ho'⟩
      rcases lost.mp hl with hl | ⟨e',he',hee⟩
      · exact hw.2 hl
      · exact hi (hf.once i m.put e e' he he' hee.symm)
  · rcases List.mem_append.mp hl with hl | hl
    · obtain ⟨i,e,he,hel⟩ := hf.back l hl (before hw)
      have hi : i ≠ m.put := fun hi => hw.2 (lost.mpr (.inr ⟨e,hi ▸ he,hel⟩))
      exact ⟨i,e,by simp [updateSubmitStats,Function.update_of_ne hi,he],hel⟩
    · rw [List.mem_singleton.mp hl]
      exact ⟨m.put,m.entryOf k s now netDiff stratumDiff,by simp [updateSubmitStats],rfl⟩
  · rcases slot he with ⟨hi,rfl⟩ | ⟨hi,he⟩ <;> rcases slot he' with ⟨hj,rfl⟩ | ⟨hj,he'⟩
    · exact hi.trans hj.symm
    · exact absurd hee.symm (other he')
    · exact absurd hee (other he)
    · exact hf.once i j e e' he he' hee
  · rcases List.mem_append.mp hl with hl | hl
    · exact hf.known l hl
    · rw [List.mem_singleton.mp hl]
      exact (List.getElem?_eq_some_iff.mp hs).1
  · rcases lost.mp hl with hl | ⟨e,he,rfl⟩
    · exact mem (hf.lost l hl)
    · exact mem (hf.own _ e he).2.1

theorem Filed.resets (hf : Filed m) : Filed m.shareStatsReset := by
  have lost {l : Nat} : l ∈ m.shareStatsReset.lost ↔
      l ∈ m.lost ∨ ∃ i e, m.slots i = some e ∧ e.share = l := by
    simp only [shareStatsReset,List.mem_append,List.mem_filterMap,List.mem_finRange,true_and,
      Option.map_eq_some_iff]
  have before {l : Nat} (hw : m.shareStatsReset.Waiting l) : m.Waiting l :=
    ⟨hw.1,fun hl => hw.2 (lost.mpr (.inl hl))⟩
  refine ⟨fun i e he => ?_,fun l hl hw => ?_,fun i j e e' he => ?_,hf.ids,
    fun l l' s₁ s₂ h₁ h₂ hw hw' hid => hf.unique l l' s₁ s₂ h₁ h₂ (before hw) (before hw') hid,
    hf.known,hf.answered,fun l hl => ?_,hf.answers⟩
  · cases he
  · obtain ⟨i,e,he,hel⟩ := hf.back l hl (before hw)
    exact absurd (lost.mpr (.inr ⟨i,e,he,hel⟩)) hw.2
  · cases he
  · rcases lost.mp hl with hl | ⟨i,e,he,rfl⟩
    · exact hf.lost l hl
    · exact (hf.own i e he).2.1

theorem slotOf_some {id : UInt32} {i : Fin statsSize} (hi : m.slotOf id = some i) :
    ∃ e, m.slots i = some e ∧ e.submitId = id := by
  have hp := List.find?_some hi
  cases he : m.slots i with
  | none => simp [he] at hp
  | some e => exact ⟨e,rfl,by simpa [he] using hp⟩

theorem slotOf_none {id : UInt32} (hn : m.slotOf id = none) {i : Fin statsSize} {e : Entry}
    (he : m.slots i = some e) : e.submitId ≠ id := by
  have hp := List.find?_eq_none.mp hn i (List.mem_finRange i)
  simpa [he] using hp

theorem mem_due {id : Int} {k : Nat} : k ∈ m.due id ↔
    k ∈ m.sent ∧ m.Waiting k ∧ ∃ s, m.shares[k]? = some s ∧ (s.submitId.toNat : Int) = id := by
  simp [due,Option.any_eq_true]

theorem toNat_ofNat_eq {x : UInt32} {id : Int} (h : (x.toNat : Int) = id) :
    UInt32.ofNat id.toNat = x := by
  rw [← h,Int.toNat_natCast,UInt32.ofNat_toNat]

/-- A line that takes no entry leaves the ring as it was, where nothing was due. -/
theorem Filed.left {line : Option Json} (hf : Filed m) (hdue : m.due (replyId line) = []) :
    Filed (m.settle line (none,m)) := by
  unfold settle
  rw [hdue,List.append_nil]
  refine ⟨hf.own,hf.back,hf.once,hf.ids,hf.unique,hf.known,hf.answered,hf.lost,
    fun r hr k hk => ?_⟩
  rcases List.mem_append.mp hr with hr | hr
  · exact hf.answers r hr k hk
  · rw [List.mem_singleton.mp hr] at hk
    cases hk

theorem Filed.due_small {id : Int} (hf : Filed m) (hid : id < 4) : m.due id = [] := by
  rw [List.eq_nil_iff_forall_not_mem]
  intro k hk
  obtain ⟨-,-,s,hs,hsid⟩ := mem_due.mp hk
  have := hf.ids.2 s (List.mem_of_getElem? hs)
  omega

/-- The entry of the one share that is due goes, and the others stay. -/
theorem Filed.taken {line : Option Json} {i : Fin statsSize} {entry : Entry} (hf : Filed m)
    (he : m.slots i = some entry) (hin : entry.share ∈ m.due (replyId line))
    (only : ∀ k ∈ m.due (replyId line),k = entry.share) :
    Filed (m.settle line (m.slots i,{ m with slots := Function.update m.slots i none })) := by
  obtain ⟨-,hfiled,s,hs,ho⟩ := hf.own i entry he
  have slot {j : Fin statsSize} {e' : Entry}
      (he' : Function.update m.slots i none j = some e') : j ≠ i ∧ m.slots j = some e' := by
    by_cases hj : j = i
    · rw [hj,Function.update_self] at he'
      cases he'
    · rw [Function.update_of_ne hj] at he'
      exact ⟨hj,he'⟩
  refine ⟨fun j e' he' => ?_,fun k hk hwk => ?_,fun j j' e₁ e₂ h₁ h₂ => hf.once j j' e₁ e₂
    (slot h₁).2 (slot h₂).2,hf.ids,fun k l s₁ s₂ h₁ h₂ hwk hwl => ?_,hf.known,fun k hk => ?_,
    hf.lost,fun r hr k hk => ?_⟩
  · obtain ⟨hj,he'⟩ := slot he'
    obtain ⟨hw',hrest⟩ := hf.own j e' he'
    refine ⟨⟨fun ha => ?_,hw'.2⟩,hrest⟩
    rcases List.mem_append.mp ha with ha | ha
    · exact hw'.1 ha
    · exact hj (hf.once j i e' entry he' he (only _ ha))
  · have hwm : m.Waiting k := ⟨fun ha => hwk.1 (List.mem_append_left _ ha),hwk.2⟩
    obtain ⟨j,e',he',hek⟩ := hf.back k hk hwm
    have hj : j ≠ i := by
      rintro rfl
      cases he.symm.trans he'
      exact hwk.1 (List.mem_append_right _ (hek ▸ hin))
    exact ⟨j,e',(Function.update_of_ne hj _ _).trans he',hek⟩
  · exact hf.unique k l s₁ s₂ h₁ h₂ ⟨fun ha => hwk.1 (List.mem_append_left _ ha),hwk.2⟩
      ⟨fun ha => hwl.1 (List.mem_append_left _ ha),hwl.2⟩
  · rcases List.mem_append.mp hk with hk | hk
    · exact hf.answered k hk
    · rw [only k hk]
      exact hfiled
  · rcases List.mem_append.mp hr with hr | hr
    · exact hf.answers r hr k hk
    · rw [List.mem_singleton.mp hr] at hk ⊢
      rw [only k hk]
      exact ⟨entry,s,he,hs,ho⟩

/-- A reply that is looked up in the ring, and finds the shares that wait under its id ready. -/
theorem Filed.found {line : Option Json} (hf : Filed m)
    (ho : ∀ k < m.shares.length, m.Waiting k → m.Ready (replyId line) k) :
    Filed (m.settle line (m.shareResult (UInt32.ofNat (replyId line).toNat))) := by
  have hready {k : Nat} {s : Share} (hs : m.shares[k]? = some s) (hw : m.Waiting k)
      (he : s.submitId = UInt32.ofNat (replyId line).toNat) :
      k ∈ m.sent ∧ k ∈ m.filed ∧ (s.submitId.toNat : Int) = replyId line :=
    ho k (List.getElem?_eq_some_iff.mp hs).1 hw s hs he
  unfold shareResult
  split
  · next hn =>
    refine hf.left (List.eq_nil_iff_forall_not_mem.mpr fun k hk => ?_)
    obtain ⟨-,hw,s,hs,hsid⟩ := mem_due.mp hk
    have hsid' := (toNat_ofNat_eq hsid).symm
    obtain ⟨i,e,he,rfl⟩ := hf.back k (hready hs hw hsid').2.1 hw
    obtain ⟨-,-,s',hs',ho'⟩ := hf.own i e he
    cases hs.symm.trans hs'
    exact slotOf_none hn he (ho'.2.1.trans hsid')
  · next i hi =>
    obtain ⟨e,he,heid⟩ := slotOf_some hi
    obtain ⟨hw,-,s,hs,ho'⟩ := hf.own i e he
    have hsid : s.submitId = UInt32.ofNat (replyId line).toNat := ho'.2.1.symm.trans heid
    refine hf.taken he ?_ fun k hk => ?_
    · exact mem_due.mpr ⟨(hready hs hw hsid).1,hw,s,hs,(hready hs hw hsid).2.2⟩
    · obtain ⟨-,hw',s',hs',hid'⟩ := mem_due.mp hk
      exact hf.unique k e.share s' s hs' hs hw' hw ((toNat_ofNat_eq hid').symm.trans hsid.symm)

theorem replyId_given {line : Option Json}
    (h : jsonGiven (jsonObjectGet line (ascii "id")) = false) : replyId line < 4 := by
  unfold replyId
  cases hj : jsonObjectGet line (ascii "id") with
  | none => decide
  | some j =>
    rw [hj] at h
    cases j with
    | null => decide
    | bool | integer | real | string | array | object => cases h

theorem Filed.replies {line : Option Json} (hf : Filed m) (ho : InTime m (.replies line)) :
    Filed (m.handleResponse line) := by
  unfold handleResponse
  split
  · next hgiven => exact hf.left (hf.due_small (replyId_given hgiven))
  · split
    · next hexit =>
      rcases hexit with hnone | hsmall
      · refine hf.left ?_
        simpa [InTime,hnone] using ho
      · exact hf.left (hf.due_small hsmall)
    · next hexit =>
      simp only [not_or,Bool.not_eq_false,Int.not_lt] at hexit
      obtain ⟨hresult,hid⟩ := hexit
      simp only [InTime,hresult,if_true] at ho
      exact hf.found (ho hid)

theorem Filed.step (hf : Filed m) (ho : InTime m e) (hs : m.step e = some m') : Filed m' := by
  cases e with
  | claims shareDiff targetDiff height jobId =>
    cases hs
    exact hf.claims ho
  | pushes k =>
    simp only [Board.step] at hs
    split at hs <;> cases hs
    exact ⟨hf.own,hf.back,hf.once,hf.ids,hf.unique,hf.known,hf.answered,hf.lost,hf.answers⟩
  | files k now netDiff stratumDiff =>
    simp only [Board.step] at hs
    split at hs
    · cases hs
    · next s hk =>
      split at hs
      · next hg =>
        cases hs
        exact hf.files hk hg.2
      · cases hs
  | sends k =>
    simp only [Board.step] at hs
    split at hs <;> cases hs
    exact ⟨hf.own,hf.back,hf.once,hf.ids,hf.unique,hf.known,hf.answered,hf.lost,hf.answers⟩
  | replies line =>
    cases hs
    exact hf.replies ho
  | misreads line =>
    cases hs
    exact hf.left ho
  | resets =>
    cases hs
    exact hf.resets

/-- Every reply finds the entry of its own share, as long as the entry is filed
before the reply is processed and the reply says something. -/
theorem replies_matched (m : Board) (hr : Reach step InTime start m) : Matched m :=
  Filed.matched (hr.invariant (.start) (fun _ _ _ hf ho hs => hf.step ho hs))

def replyOf (id : Int) (fields : List (CStr × Json)) : Option Json :=
  some (.object ((ascii "id",.integer id) :: fields))

def accepts : CStr × Json := (ascii "result",.bool true)

def shareOfA : Event := .claims 8 4 100 (ascii "a")

theorem reply_in_time :
    ∃ m, Reach step InTime start m ∧ m.answers.length = 1 ∧ Matched m := by
  obtain ⟨m,hr,hl⟩ := reach_of_any step InTime start
    [shareOfA,.pushes 0,.files 0 1 16 4,.sends 0,.replies (replyOf 4 [accepts])]
    (fun m => m.answers.length = 1) (by decide)
  exact ⟨m,hr,hl,replies_matched m hr⟩

/-- The share is in the queue before its entry is filed: a quick reply finds nothing,
and the entry stays. -/
theorem reply_overtakes_entry : ¬ ∀ m, Reach step free start m → Matched m := by
  intro hall
  obtain ⟨m,hr,hp⟩ := reach_of_any step free start
    [shareOfA,.pushes 0,.sends 0,.replies (replyOf 4 [accepts]),.files 0 1 16 4]
    (fun m => m.answers = [⟨[0],none⟩]) (by decide)
  obtain ⟨e,s,he,-⟩ := (hall m hr).consumed ⟨[0],none⟩ (by simp [hp]) 0 (by simp)
  cases he

end Board

end VkMiner.Replies
