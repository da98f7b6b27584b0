import Mathlib.Logic.Function.Basic
import VkMiner.Lib.Runs
set_option autoImplicit false

/-! One table that several kernels hash against: its lock, its key, and what is submitted. -/

namespace VkMiner.Vulkan.SharedState
open Runs

inductive Purpose where
  | prepare (key : Nat)
  | dispatch
  deriving DecidableEq

/-- `checked` is where a dispatch has passed `ensure` and has yet to be submitted. -/
inductive Phase where
  | idle
  | building (p : Purpose)
  | checked
  deriving DecidableEq

/-- A kernel's `state_key_` and `state_ready_`. -/
structure Holder where
  key : Nat
  ready : Bool
  phase : Phase
  deriving DecidableEq

/-- A dispatch on the device, with the key it was checked for. -/
structure Job where
  kernel : Nat
  key : Nat
  deriving DecidableEq

/-- `contents` is the key that the bytes on the device were built for, if they are whole. -/
structure Table where
  ready : Bool
  key : Nat
  lock : Option Nat
  owners : Nat
  holders : Nat → Option Holder
  contents : Option Nat
  executing : List Job

def none_yet : Table := ⟨false,0,none,0,fun _ => none,none,[]⟩

inductive Event where
  | joins (k : Nat)
  | ensures (k : Nat) (p : Purpose)
  | built (k : Nat) (ok : Bool)
  | submits (k : Nat)
  | fails (k : Nat)
  | finishes (i : Nat)
  | releases (k : Nat)
  deriving DecidableEq

def Purpose.key (h : Holder) : Purpose → Nat
  | .prepare key => key
  | .dispatch => h.key

def Purpose.after (h : Holder) (ok : Bool) : Purpose → Holder
  | .prepare key => if ok then ⟨key,true,.idle⟩ else { h with phase := .idle }
  | .dispatch => { h with phase := if ok then .checked else .idle }

namespace Table

def set (t : Table) (k : Nat) (h : Option Holder) : Table :=
  { t with holders := Function.update t.holders k h }

/-- Into `ensure` by a kernel that is not inside a call: past the check, or into a rebuild. A
table that was ready is not touched before the device is idle. -/
def ensure (t : Table) (k : Nat) (h : Holder) (p : Purpose) : Option Table :=
  if t.lock.isSome then none
  else if t.ready ∧ t.key = p.key h then some (t.set k (some (p.after h true)))
  else if t.ready ∧ t.executing ≠ [] then none
  else
    some { t.set k (some { h with phase := .building p }) with
      ready := false, lock := some k, contents := none }

def rebuilt (t : Table) (k : Nat) (h : Holder) (p : Purpose) (ok : Bool) : Table :=
  if ok then
    { t.set k (some (p.after h true)) with
      ready := true, key := p.key h, lock := none, contents := some (p.key h) }
  else { t.set k (some (p.after h false)) with lock := none }

def drop (t : Table) (k : Nat) : Table :=
  if t.owners = 1 then { none_yet with executing := t.executing }
  else { t.set k none with owners := t.owners - 1 }

end Table

def step (t : Table) : Event → Option Table
  | .joins k =>
    match t.holders k with
    | none => some { t.set k (some ⟨0,false,.idle⟩) with owners := t.owners + 1 }
    | some _ => none
  | .ensures k p =>
    match t.holders k with
    | some h =>
      if h.phase = .idle ∧ (p = .dispatch → h.ready = true) then t.ensure k h p else none
    | none => none
  | .built k ok =>
    match t.holders k with
    | some h =>
      match h.phase with
      | .building p => some (t.rebuilt k h p ok)
      | _ => none
    | none => none
  | .submits k =>
    match t.holders k with
    | some h =>
      if h.phase = .checked then
        some { t.set k (some { h with phase := .idle }) with
          executing := t.executing ++ [⟨k,h.key⟩] }
      else none
    | none => none
  | .fails k =>
    match t.holders k with
    | some h =>
      if h.phase = .checked then some (t.set k (some { h with phase := .idle })) else none
    | none => none
  | .finishes i =>
    if i < t.executing.length then some { t with executing := t.executing.eraseIdx i } else none
  -- the ring waits for the device before the kernel lets go of the table
  | .releases k =>
    match t.holders k with
    | some h => if h.phase = .idle ∧ t.executing = [] then some (t.drop k) else none
    | none => none

/-- Whatever is executing has the contents that its own key names, and nothing is executing
while the table is being rebuilt. -/
def Safe (t : Table) : Prop :=
  (∀ j ∈ t.executing, t.contents = some j.key) ∧ (t.lock.isSome = true → t.executing = [])

instance (t : Table) : Decidable (Safe t) := inferInstanceAs (Decidable (_ ∧ _))

/-- A dispatch is submitted while the check that it passed would pass still. -/
def StillHolds (t : Table) : Event → Prop
  | .submits k => ∀ h ∈ t.holders k, t.ready = true ∧ t.key = h.key
  | _ => True

instance (t : Table) (e : Event) : Decidable (StillHolds t e) :=
  match e with
  | .submits k => inferInstanceAs (Decidable (∀ h ∈ t.holders k, t.ready = true ∧ t.key = h.key))
  | .joins _ | .ensures _ _ | .built _ _ | .fails _ | .finishes _ | .releases _ => isTrue trivial

variable {t t' : Table} {e : Event}

structure Coherent (t : Table) : Prop where
  contents : t.contents = if t.ready then some t.key else none
  locked : t.lock.isSome = true → t.ready = false
  building : ∀ k h p, t.holders k = some h → h.phase = .building p → t.lock = some k
  executing : ∀ j ∈ t.executing, t.ready = true ∧ t.key = j.key

theorem Coherent.idle_of (h : Coherent t) (hr : t.ready = false) : t.executing = [] := by
  refine List.eq_nil_iff_forall_not_mem.mpr fun j hj => ?_
  have := (h.executing j hj).1
  rw [hr] at this
  cases this

theorem Coherent.safe (h : Coherent t) : Safe t := by
  refine ⟨fun j hj => ?_,fun hl => h.idle_of (h.locked hl)⟩
  obtain ⟨hr,hk⟩ := h.executing j hj
  rw [h.contents,hr,hk]
  rfl

theorem Purpose.after_phase (h : Holder) (ok : Bool) (p q : Purpose) :
    (p.after h ok).phase ≠ .building q := by
  cases p <;> cases ok <;> simp [Purpose.after]

theorem Coherent.building_set {k k' : Nat} {h h' : Holder} {p : Purpose} (hc : Coherent t)
    (hn : ∀ q, h.phase ≠ .building q) (hg : (t.set k (some h)).holders k' = some h')
    (hb : h'.phase = .building p) : t.lock = some k' := by
  simp only [Table.set] at hg
  by_cases he : k' = k
  · subst he
    rw [Function.update_self] at hg
    cases hg
    exact absurd hb (hn p)
  · rw [Function.update_of_ne he] at hg
    exact hc.building k' h' p hg hb

theorem Coherent.set {k : Nat} {h : Holder} (hc : Coherent t) (hn : ∀ q, h.phase ≠ .building q) :
    Coherent (t.set k (some h)) :=
  ⟨hc.contents,hc.locked,fun _ _ _ => hc.building_set hn,hc.executing⟩

theorem Coherent.ensure {k : Nat} {h : Holder} {p : Purpose} (hc : Coherent t)
    (hs : t.ensure k h p = some t') : Coherent t' := by
  simp only [Table.ensure] at hs
  split at hs
  · cases hs
  · rename_i hfree
    split at hs
    · cases hs
      exact hc.set (Purpose.after_phase h true p)
    · split at hs
      · cases hs
      · rename_i hb
        cases hs
        have he : t.executing = [] := by
          cases hr : t.ready with
          | false => exact hc.idle_of hr
          | true =>
            by_contra hne
            exact hb ⟨hr,hne⟩
        refine ⟨rfl,fun _ => rfl,fun k' h' q hg hq => ?_,fun j hj => ?_⟩
        · by_cases hk : k' = k
          · rw [hk]
          · simp only [Table.set,Function.update_of_ne hk] at hg
            have := hc.building k' h' q hg hq
            rw [this] at hfree
            exact absurd rfl hfree
        · simp only [Table.set,he] at hj
          cases hj

theorem Coherent.rebuilt {k : Nat} {h : Holder} {p : Purpose} {ok : Bool} (hc : Coherent t)
    (hl : t.lock = some k) : Coherent (t.rebuilt k h p ok) := by
  have he := hc.idle_of (hc.locked (by rw [hl]; rfl))
  have hb : ∀ b k' h' q, (t.set k (some (p.after h b))).holders k' = some h' →
      h'.phase ≠ .building q := by
    intro b k' h' q hg hq
    have := hc.building_set (Purpose.after_phase h b p) hg hq
    cases hl.symm.trans this
    simp only [Table.set,Function.update_self] at hg
    cases hg
    exact Purpose.after_phase h b p q hq
  cases ok with
  | true =>
    refine ⟨rfl,nofun,fun k' h' q hg hq => absurd hq (hb _ k' h' q hg),fun j hj => ?_⟩
    simp only [Table.rebuilt,Table.set,he,if_true] at hj
    cases hj
  | false =>
    exact ⟨hc.contents,nofun,fun k' h' q hg hq => absurd hq (hb _ k' h' q hg),hc.executing⟩

theorem Coherent.step (hc : Coherent t) (ho : StillHolds t e) (hs : step t e = some t') :
    Coherent t' := by
  cases e with
  | joins k =>
    simp only [SharedState.step] at hs
    split at hs
    · cases hs
      have := hc.set (k := k) (h := ⟨0,false,.idle⟩) nofun
      exact ⟨this.contents,this.locked,this.building,this.executing⟩
    · cases hs
  | ensures k p =>
    simp only [SharedState.step] at hs
    split at hs
    · split at hs
      · exact hc.ensure hs
      · cases hs
    · cases hs
  | built k ok =>
    simp only [SharedState.step] at hs
    split at hs
    · rename_i h hk
      split at hs
      · rename_i p hp
        cases hs
        exact hc.rebuilt (hc.building k h p hk hp)
      · cases hs
    · cases hs
  | submits k =>
    simp only [SharedState.step] at hs
    split at hs
    · rename_i h hk
      split at hs
      · cases hs
        have hset := hc.set (k := k) (h := { h with phase := .idle }) nofun
        refine ⟨hset.contents,hset.locked,hset.building,fun j hj => ?_⟩
        rcases List.mem_append.mp hj with hj | hj
        · exact hc.executing j hj
        · rw [List.mem_singleton.mp hj]
          exact ho h hk
      · cases hs
    · cases hs
  | fails k =>
    simp only [SharedState.step] at hs
    split at hs
    · split at hs
      · cases hs
        exact hc.set nofun
      · cases hs
    · cases hs
  | finishes i =>
    simp only [SharedState.step] at hs
    split at hs
    · cases hs
      exact ⟨hc.contents,hc.locked,hc.building,
        fun j hj => hc.executing j (List.mem_of_mem_eraseIdx hj)⟩
    · cases hs
  | releases k =>
    simp only [SharedState.step] at hs
    split at hs
    · rename_i h hk
      split at hs
      · rename_i hi
        cases hs
        simp only [Table.drop]
        split
        · refine ⟨rfl,nofun,nofun,fun j hj => ?_⟩
          rw [hi.2] at hj
          cases hj
        · refine ⟨hc.contents,hc.locked,fun k' h' q hg hq => ?_,hc.executing⟩
          simp only [Table.set] at hg
          by_cases he : k' = k
          · subst he
            rw [Function.update_self] at hg
            cases hg
          · rw [Function.update_of_ne he] at hg
            exact hc.building k' h' q hg hq
      · cases hs
    · cases hs

theorem coherent_none_yet : Coherent none_yet where
  contents := rfl
  locked := by simp [none_yet]
  building := by simp [none_yet]
  executing := by simp [none_yet]

theorem coherent_reach (h : Reach step StillHolds none_yet t) : Coherent t :=
  h.invariant coherent_none_yet fun _ _ _ hm ho hs => hm.step ho hs

/-- Where a dispatch is only submitted while its check would still pass, everything that
executes finds its own contents, and one that is submitted otherwise does not. -/
theorem table_coherent (h : Reach step StillHolds none_yet t) :
    Safe t ∧ ∀ e t', step t e = some t' → (StillHolds t e ↔ Safe t') := by
  have hc := coherent_reach h
  refine ⟨hc.safe,fun e t' hs => ⟨fun ho => (hc.step ho hs).safe,fun hsafe => ?_⟩⟩
  cases e with
  | submits k =>
    intro h hk
    simp only [SharedState.step,show t.holders k = some h from hk] at hs
    split at hs
    · cases hs
      have := hsafe.1 ⟨k,h.key⟩ (List.mem_append_right _ (List.mem_singleton.mpr rfl))
      simp only [Table.set,hc.contents] at this
      split at this
      · rename_i hr
        exact ⟨hr,Option.some.inj this⟩
      · cases this
    · cases hs
  | joins | ensures | built | fails | finishes | releases => trivial

/-- Two kernels on one key, then the second moves to another between two dispatches. -/
theorem table_coherent_shared :
    ∃ t, Reach step StillHolds none_yet t ∧ t.contents = some 2 ∧ Safe t := by
  have h := reach_of_any step StillHolds none_yet
    [.joins 0,.joins 1,.ensures 0 (.prepare 1),.built 0 true,.ensures 1 (.prepare 1),
      .ensures 0 .dispatch,.submits 0,.finishes 0,.ensures 1 (.prepare 2),.built 1 true,
      .ensures 1 .dispatch,.submits 1]
    (fun t => t.contents = some 2) (by decide +kernel)
  obtain ⟨t,ht,hk⟩ := h
  exact ⟨t,ht,hk,(table_coherent ht).1⟩

/-- Another kernel rebuilds the table between a dispatch's check and its submit. -/
theorem table_not_always_coherent : ¬∀ t, Reach step free none_yet t → Safe t := by
  intro hall
  have h := reach_of_any step free none_yet
    [.joins 0,.joins 1,.ensures 0 (.prepare 1),.built 0 true,.ensures 0 .dispatch,
      .ensures 1 (.prepare 2),.built 1 true,.submits 0]
    (fun t => ¬Safe t) (by decide +kernel)
  obtain ⟨t,ht,hn⟩ := h
  exact hn (hall t ht)

end VkMiner.Vulkan.SharedState
