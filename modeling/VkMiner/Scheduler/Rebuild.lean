import VkMiner.Lib.Runs
import VkMiner.Vulkan.WouldFit
set_option autoImplicit false

/-! Workers of one device that drop and rebuild their kernels, each on its own schedule. -/

namespace VkMiner.Scheduler.Rebuild
open Vulkan Runs

/-- `stale` is a kernel that has to go before the worker does anything else, and `fitted` is
where the backend has said that the next one would fit. -/
inductive Stage where
  | looping
  | stale
  | fitted
  deriving DecidableEq

/-- A worker: the table its algorithm is sized for, and the one its kernel was built on. -/
structure Builder where
  size : Nat
  kernel : Option Nat
  stage : Stage
  deriving DecidableEq

/-- What does not change: the device, the tuning, and the spec but for its size. -/
structure Site where
  tuning : Tuning
  info : DeviceInfo
  spec : KernelSpec

/-- `refused` is history, and `ended` is what ended the run. -/
structure Shop where
  workers : List Builder
  held : Option Held
  refused : List (Nat × Refusal)
  ended : Option Refusal

def opened (n : Nat) : Shop := ⟨List.replicate n ⟨0,none,.looping⟩,none,[],none⟩

inductive Event where
  | retargets (w size : Nat) (moved : Bool)
  | parks (w : Nat) (retain : Bool)
  | unpins
  | resets (w : Nat)
  | asks (w : Nat) (recoverable : Bool)
  | builds (w : Nat) (c : CreateCalls) (recoverable : Bool)

def Builder.holds (b : Builder) : Bool := b.kernel.any (· != 0)

def Site.at (site : Site) (size : Nat) : KernelSpec := { site.spec with sharedBytes := size }

namespace Shop

def put (s : Shop) (w : Nat) (b : Builder) : Shop := { s with workers := s.workers.set w b }

/-- `give_up`: the run ends, unless a switch has a profile to go back to. -/
def giveUp (s : Shop) (w : Nat) (b : Builder) (r : Refusal) (recoverable : Bool) : Shop :=
  { s.put w { b with stage := .looping } with
    refused := s.refused ++ [(w,r)]
    ended := if recoverable then s.ended else s.ended <|> some r }

end Shop

def step (site : Site) (s : Shop) : Event → Option Shop
  | .retargets w size moved =>
    match s.workers[w]? with
    | some b =>
      if b.stage = .looping then
        some (s.put w { b with
          size := size
          stage := if (moved ∨ b.size ≠ size) ∧ b.kernel ≠ none then .stale else .looping })
      else none
    | none => none
  | .parks w retain =>
    match s.workers[w]? with
    | some b =>
      if b.stage = .looping then
        some { s.put w { b with stage := .stale } with
          held := s.held.bind (Held.retain · retain) }
      else none
    | none => none
  | .unpins => some { s with held := s.held.bind (Held.retain · false) }
  | .resets w =>
    match s.workers[w]? with
    | some b =>
      if b.stage = .stale then
        some { s.put w { b with kernel := none, stage := .looping } with
          held := if b.holds then s.held.bind Held.left else s.held }
      else none
    | none => none
  | .asks w recoverable =>
    match s.workers[w]? with
    | some b =>
      if b.stage = .looping ∧ b.kernel = none then
        match wouldFit site.tuning site.info s.held (site.at b.size) with
        | .ok _ => some (s.put w { b with stage := .fitted })
        | .error r => some (s.giveUp w b r recoverable)
      else none
    | none => none
  | .builds w c recoverable =>
    match s.workers[w]? with
    | some b =>
      if b.stage = .fitted then
        match createKernel site.tuning site.info s.held (site.at b.size) c with
        | (.ok _,held) =>
          some { s.put w { b with kernel := some b.size, stage := .looping } with held := held }
        | (.error r,held) => some { s.giveUp w b r recoverable with held := held }
      else none
    | none => none

/-- A refusal because the device holds a table of another size. -/
def isHeld : Refusal → Bool
  | .held _ _ => true
  | _ => false

/-- Nobody was refused for another worker's table, and the run did not end of it. -/
def Unrefused (s : Shop) : Prop :=
  (∀ x ∈ s.refused, isHeld x.2 = false) ∧ ∀ r ∈ s.ended, isHeld r = false

instance (s : Shop) : Decidable (Unrefused s) := inferInstanceAs (Decidable (_ ∧ _))

/-- Some worker's kernel still holds a table of another size. -/
def Lags (s : Shop) (size : Nat) : Prop :=
  ∃ v ∈ s.workers, v.holds = true ∧ v.kernel ≠ some size

instance (s : Shop) (size : Nat) : Decidable (Lags s size) :=
  inferInstanceAs (Decidable (∃ v ∈ s.workers, _))

/-- The device asks about what it holds: nothing of the table alone has refused it before. -/
def Considers (site : Site) (size : Nat) : Prop :=
  largest (site.at size) ≠ 0 ∧ tableFits site.info none (site.at size) = .ok ()

/-- A worker asks, and builds, when every kernel on the device is of its own size. -/
def InTurn (site : Site) (s : Shop) : Event → Prop
  | .asks w _ => ∀ b ∈ s.workers[w]?, b.stage = .looping → b.kernel = none →
      Considers site b.size → ¬Lags s b.size
  | .builds w _ _ => ∀ b ∈ s.workers[w]?, b.stage = .fitted →
      site.spec.hasSpirv = true → b.size ≠ 0 → ¬Lags s b.size
  | _ => True

instance {p : Builder → Prop} [DecidablePred p] (o : Option Builder) :
    Decidable (∀ b ∈ o, p b) :=
  match o with
  | none => isTrue nofun
  | some b => decidable_of_iff (p b) ⟨fun h => by rintro _ ⟨⟩; exact h,fun h => h b rfl⟩

instance (site : Site) (size : Nat) : Decidable (Considers site size) :=
  inferInstanceAs (Decidable (_ ∧ _))

instance (site : Site) (s : Shop) (e : Event) : Decidable (InTurn site s e) :=
  match e with
  | .asks w _ => inferInstanceAs (Decidable (∀ b ∈ s.workers[w]?, b.stage = .looping →
      b.kernel = none → Considers site b.size → ¬Lags s b.size))
  | .builds w _ _ => inferInstanceAs (Decidable (∀ b ∈ s.workers[w]?, b.stage = .fitted →
      site.spec.hasSpirv = true → b.size ≠ 0 → ¬Lags s b.size))
  | .retargets _ _ _ | .parks _ _ | .unpins | .resets _ => isTrue trivial

variable {site : Site} {s s' : Shop} {e : Event} {t : Tuning} {info : DeviceInfo}
  {held : Option Held} {spec : KernelSpec} {r : Refusal}

theorem countP_set {α : Type*} (p : α → Bool) (l : List α) {i : Nat} {a b : α}
    (h : l[i]? = some a) :
    (l.set i b).countP p + (if p a then 1 else 0) = l.countP p + (if p b then 1 else 0) := by
  induction l generalizing i with
  | nil => cases h
  | cons x l ih =>
    cases i with
    | zero =>
      cases h
      simp only [List.set_cons_zero,List.countP_cons]
      omega
    | succ i =>
      have := ih h
      simp only [List.set_cons_succ,List.countP_cons]
      omega

def kernelsOf (held : Option Held) : Nat := held.elim 0 Held.kernels

def Conflict (held : Option Held) (size : Nat) : Prop :=
  ∃ h ∈ held, h.busy = true ∧ h.bytes ≠ size

/-- Whatever it refuses, it is not for a table that is held. -/
def Free {α : Type} (x : Except Refusal α) : Prop := ∀ r, x = .error r → isHeld r = false

namespace Free
variable {α β : Type} {x y : Except Refusal α} {f : α → Except Refusal β} {p : Prop} [Decidable p]

theorem pure (a : α) : Free (Pure.pure a) := nofun

theorem throw (h : isHeld r = false) : Free (MonadExcept.throw r : Except Refusal α) := by
  rintro _ ⟨⟩
  exact h

theorem bind (hx : Free x) (hf : ∀ a, Free (f a)) : Free (x >>= f) := by
  intro r h
  cases x with
  | error r' =>
    cases h
    exact hx r rfl
  | ok a => exact hf a r h

theorem ite (hx : Free x) (hy : Free y) : Free (if p then x else y) := by
  split
  · exact hx
  · exact hy

end Free

theorem workgroup_free : Free (workgroup t info spec) := by
  unfold workgroup
  repeat' (first | exact .throw rfl | exact .pure _ | apply Free.ite)

theorem fit_free (n : Nat) : Free (vulkanKernelFit t info spec n) := by
  unfold vulkanKernelFit
  refine .bind workgroup_free fun _ => ?_
  repeat' (first | exact .throw rfl | exact .pure _ | apply Free.ite)

theorem initKernel_free (shared : Nat) (c : CreateCalls) :
    Free (initKernel t info spec shared c) := by
  unfold initKernel
  repeat' (first | exact .throw rfl | exact .pure _ | exact fit_free _ | apply Free.ite |
    refine .bind ?_ fun _ => ?_)

theorem plan_not_held {n : Nat} (hn : n ≠ 0) (h : plan info spec n = .error r) :
    isHeld r = false := by
  obtain ⟨-,he⟩ | ⟨-,he⟩ | ⟨-,-,he⟩ | ⟨-,-,-,he⟩ :=
    plan_cases info spec (Nat.pos_of_ne_zero hn)
  all_goals
    rw [h] at he
    cases he
    try rfl

theorem tableFits_cases (info : DeviceInfo) (held : Option Held) (spec : KernelSpec) :
    (∃ r, tableFits info none spec = .error r ∧ tableFits info held spec = .error r ∧
      isHeld r = false) ∨
    (tableFits info none spec = .ok () ∧ tableFits info held spec = .ok () ∧
      ¬(largest spec ≠ 0 ∧ Conflict held spec.sharedBytes)) ∨
    (tableFits info none spec = .ok () ∧ largest spec ≠ 0 ∧ Conflict held spec.sharedBytes ∧
      ∃ live, tableFits info held spec = .error (.held spec.sharedBytes live)) := by
  by_cases hz : largest spec = 0
  · exact .inr (.inl ⟨by simp only [tableFits,hz,if_true]; rfl,
      by simp only [tableFits,hz,if_true]; rfl,fun h => h.1 hz⟩)
  by_cases hb : vulkanTableBudget info < largest spec
  · exact .inl ⟨_,by simp only [tableFits,hz,hb,if_true,if_false]; rfl,
      by simp only [tableFits,hz,hb,if_true,if_false]; rfl,rfl⟩
  cases hp : plan info spec (largest spec) with
  | error r =>
    exact .inl ⟨r,by simp only [tableFits,hz,hb,hp,if_false]; rfl,
      by simp only [tableFits,hz,hb,hp,if_false]; rfl,plan_not_held hz hp⟩
  | ok x =>
    refine .inr ?_
    have hn : tableFits info none spec = .ok () := by
      simp only [tableFits,hz,hb,hp,if_false]
      rfl
    cases held with
    | none =>
      refine .inl ⟨hn,hn,?_⟩
      rintro ⟨_,_,hm,_⟩
      cases hm
    | some h =>
      by_cases hc : h.busy = true ∧ h.bytes ≠ spec.sharedBytes
      · refine .inr ⟨hn,hz,⟨h,rfl,hc⟩,h.bytes,?_⟩
        simp only [tableFits,hz,hb,hp,if_false,bind,Except.bind]
        rw [if_pos hc]
        rfl
      · refine .inl ⟨hn,?_,?_⟩
        · simp only [tableFits,hz,hb,hp,if_false,bind,Except.bind]
          rw [if_neg hc]
          rfl
        · rintro ⟨-,l,hm,hc'⟩
          cases hm
          exact hc hc'

theorem wouldFit_held_iff (t : Tuning) (info : DeviceInfo) (held : Option Held)
    (spec : KernelSpec) :
    (∃ r, wouldFit t info held spec = .error r ∧ isHeld r = true) ↔
      largest spec ≠ 0 ∧ tableFits info none spec = .ok () ∧ Conflict held spec.sharedBytes := by
  obtain ⟨r,hn,hh,hr⟩ | ⟨hn,hh,hc⟩ | ⟨hn,hz,hc,live,hh⟩ := tableFits_cases info held spec
  · refine ⟨?_,fun ⟨_,h,_⟩ => nomatch hn.symm.trans h⟩
    rintro ⟨r',h,hr'⟩
    simp only [wouldFit,hh,bind,Except.bind] at h
    cases h
    cases hr.symm.trans hr'
  · refine ⟨?_,fun ⟨hz,_,h⟩ => absurd ⟨hz,h⟩ hc⟩
    rintro ⟨r',h,hr'⟩
    simp only [wouldFit,hh,bind,Except.bind] at h
    cases (fit_free _ r' h).symm.trans hr'
  · refine ⟨fun _ => ⟨hz,hn,hc⟩,fun _ => ⟨.held spec.sharedBytes live,?_,rfl⟩⟩
    simp only [wouldFit,hh,bind,Except.bind]

theorem kernelsOf_ofOwners (bytes kernels : Nat) (pinned : Bool) :
    kernelsOf (Held.ofOwners bytes kernels pinned) = kernels := by
  simp only [Held.ofOwners]
  split
  · rfl
  · rename_i h
    simp only [kernelsOf,Option.elim]
    omega

theorem bytes_of_ofOwners {bytes kernels : Nat} {pinned : Bool} {h : Held}
    (hm : h ∈ Held.ofOwners bytes kernels pinned) : h.bytes = bytes := by
  simp only [Held.ofOwners] at hm
  split at hm
  · cases hm
    rfl
  · cases hm

/-- A table that kernels are on is not exchanged for another. -/
def Keeps (held held' : Option Held) : Prop :=
  kernelsOf held ≠ 0 → ∀ h' ∈ held', ∃ h ∈ held, h'.bytes = h.bytes

theorem Keeps.refl (held : Option Held) : Keeps held held := fun _ h hm => ⟨h,hm,rfl⟩

theorem keeps_ofOwners (h : Held) (kernels : Nat) (pinned : Bool) :
    Keeps (some h) (Held.ofOwners h.bytes kernels pinned) :=
  fun _ _ hm => ⟨h,rfl,bytes_of_ofOwners hm⟩

theorem retain_effect (held : Option Held) (retain : Bool) :
    kernelsOf (held.bind (Held.retain · retain)) = kernelsOf held ∧
      Keeps held (held.bind (Held.retain · retain)) := by
  cases held with
  | none => exact ⟨rfl,.refl none⟩
  | some h => exact ⟨kernelsOf_ofOwners _ _ _,keeps_ofOwners h _ _⟩

theorem left_effect (held : Option Held) :
    kernelsOf (held.bind Held.left) = kernelsOf held - 1 ∧ Keeps held (held.bind Held.left) := by
  cases held with
  | none => exact ⟨rfl,.refl none⟩
  | some h => exact ⟨kernelsOf_ofOwners _ _ _,keeps_ofOwners h _ _⟩

theorem unpinned_effect (held : Option Held) (bytes : Nat) :
    kernelsOf (unpinned held bytes) = kernelsOf held ∧ Keeps held (unpinned held bytes) := by
  cases held with
  | none => exact ⟨rfl,.refl none⟩
  | some h =>
    simp only [unpinned,Option.bind_some]
    split
    · exact retain_effect (some h) false
    · exact ⟨rfl,.refl _⟩

/-- After the stale pin, a table of another size is a kernel's. -/
theorem unpinned_conflict (held : Option Held) (bytes : Nat) :
    (∃ h ∈ unpinned held bytes, h.bytes ≠ bytes) ↔ Conflict held bytes := by
  cases held with
  | none => constructor <;> rintro ⟨_,⟨⟩,-⟩
  | some h =>
    obtain hu | ⟨_,h',⟨⟩,hu,hb,hor⟩ := unpinned_cases (some h) bytes
    · rw [hu]
      refine ⟨fun ⟨_,hm,_⟩ => (nomatch hm),?_⟩
      rintro ⟨_,⟨⟩,hbusy,-⟩
      have hk := (unpinned_effect (some h) bytes).1
      rw [hu] at hk
      simp only [kernelsOf,Option.elim] at hk
      simp [Held.busy,← hk] at hbusy
    · rw [hu]
      constructor
      · rintro ⟨_,⟨⟩,hne⟩
        rw [hb] at hne
        exact ⟨h,rfl,hor.resolve_left hne,hne⟩
      · rintro ⟨_,⟨⟩,-,hne⟩
        exact ⟨h',rfl,hb ▸ hne⟩

/-- The table that a kernel is handed, unless other kernels hold one of another size. -/
theorem sharedFor_effect (info : DeviceInfo) (held : Option Held) {spec : KernelSpec}
    (hz : spec.sharedBytes ≠ 0) (c : CreateCalls) :
    (Conflict held spec.sharedBytes ∧
      ∃ r, sharedFor info held spec c = .error r ∧ isHeld r = true) ∨
    (¬Conflict held spec.sharedBytes ∧
      ((∃ r, sharedFor info held spec c = .error r ∧ isHeld r = false) ∨
        ∃ h, sharedFor info held spec c = .ok h ∧ h.bytes = spec.sharedBytes ∧
          h.kernels = kernelsOf held + 1)) := by
  have hk := (unpinned_effect held spec.sharedBytes).1
  rw [← unpinned_conflict held spec.sharedBytes]
  simp only [sharedFor]
  cases hu : unpinned held spec.sharedBytes with
  | some h =>
    rw [hu] at hk
    by_cases hb : h.bytes = spec.sharedBytes
    · refine .inr ⟨?_,.inr ⟨Held.joined h.bytes (some h),?_,hb,?_⟩⟩
      · rintro ⟨l,hm,hne⟩
        cases hm
        exact hne hb
      · simp only [hb,ne_eq,not_true_eq_false,if_false]
      · rw [← hk]
        rfl
    · exact .inl ⟨⟨h,rfl,hb⟩,_,if_pos hb,rfl⟩
  | none =>
    rw [hu] at hk
    refine .inr ⟨?_,?_⟩
    · rintro ⟨l,hm,-⟩
      cases hm
    cases hp : plan info spec spec.sharedBytes with
    | error r => exact .inl ⟨r,rfl,plan_not_held hz hp⟩
    | ok x =>
      cases hc : c.pieces with
      | false =>
        refine .inl ⟨.driver,?_,rfl⟩
        simp only [bind,Except.bind,Bool.false_eq_true,if_false]
        rfl
      | true =>
        refine .inr ⟨Held.joined spec.sharedBytes none,?_,rfl,?_⟩
        · simp only [bind,Except.bind,if_true]
          rfl
        · rw [← hk]
          rfl

theorem createKernel_held_iff (t : Tuning) (info : DeviceInfo) (held : Option Held)
    (spec : KernelSpec) (c : CreateCalls) :
    (∃ r, (createKernel t info held spec c).1 = .error r ∧ isHeld r = true) ↔
      spec.hasSpirv = true ∧ spec.sharedBytes ≠ 0 ∧ Conflict held spec.sharedBytes := by
  simp only [createKernel]
  cases hs : spec.hasSpirv with
  | false =>
    refine ⟨?_,fun h => by cases h.1⟩
    rintro ⟨r,hr,hh⟩
    cases hr
    cases hh
  | true =>
    simp only [Bool.not_true,Bool.false_eq_true,if_false,true_and]
    by_cases hz : spec.sharedBytes = 0
    · simp only [hz,if_true]
      refine ⟨?_,fun h => absurd rfl h.1⟩
      rintro ⟨r,h,hr⟩
      cases (initKernel_free 0 c r h).symm.trans hr
    simp only [hz,if_false]
    obtain ⟨hc,r,h,hr⟩ | ⟨hc,⟨r,h,hr⟩ | ⟨held',h,-,-⟩⟩ := sharedFor_effect info held hz c
    · rw [h]
      exact ⟨fun _ => ⟨hz,hc⟩,fun _ => ⟨r,rfl,hr⟩⟩
    · rw [h]
      refine ⟨?_,fun h => absurd h.2 hc⟩
      rintro ⟨r',he,hr'⟩
      cases he
      cases hr.symm.trans hr'
    · rw [h]
      refine ⟨?_,fun h => absurd h.2 hc⟩
      rintro ⟨r,h,hr⟩
      dsimp only at h
      split at h
      · rename_i hi
        cases h
        cases (initKernel_free _ c r hi).symm.trans hr
      · cases h

theorem createKernel_effect (t : Tuning) (info : DeviceInfo) (held : Option Held)
    (spec : KernelSpec) (c : CreateCalls) :
    Keeps held (createKernel t info held spec c).2 ∧
      match (createKernel t info held spec c).1 with
      | .ok _ => kernelsOf (createKernel t info held spec c).2 =
            kernelsOf held + (if spec.sharedBytes ≠ 0 then 1 else 0) ∧
          (spec.sharedBytes ≠ 0 →
            ∀ h ∈ (createKernel t info held spec c).2, h.bytes = spec.sharedBytes)
      | .error _ => kernelsOf (createKernel t info held spec c).2 = kernelsOf held := by
  simp only [createKernel]
  split
  · exact ⟨.refl held,rfl⟩
  by_cases hz : spec.sharedBytes = 0
  · simp only [hz,if_true]
    refine ⟨.refl held,?_⟩
    split
    · exact ⟨rfl,fun h => absurd rfl h⟩
    · trivial
  simp only [hz,if_false]
  obtain ⟨-,r,h,-⟩ | ⟨hc,⟨r,h,-⟩ | ⟨held',h,hb,hk⟩⟩ := sharedFor_effect info held hz c
  · rw [h]
    exact (unpinned_effect held _).symm
  · rw [h]
    exact (unpinned_effect held _).symm
  · -- the kernels that were there are on a table of this size, if there were any
    have hkeep : Keeps held (some held') := by
      rintro hne _ ⟨⟩
      cases held with
      | none => exact absurd rfl hne
      | some l =>
        refine ⟨l,rfl,hb.trans ?_⟩
        by_contra hl
        exact hc ⟨l,rfl,by simpa [Held.busy,kernelsOf] using hne,Ne.symm hl⟩
    rw [h]
    dsimp only
    cases initKernel t info spec held'.bytes c with
    | error r =>
      refine ⟨fun hne h' hm => ?_,?_⟩
      · rw [bytes_of_ofOwners hm]
        exact hkeep hne _ rfl
      · simp only [Held.left,kernelsOf_ofOwners,hk]
        omega
    | ok fit =>
      refine ⟨hkeep,?_,?_⟩
      · simp only [ne_eq,hz,not_false_eq_true,if_true]
        exact hk
      · rintro - _ ⟨⟩
        exact hb

/-- The table counts the kernels that hold it, they were all built at its size, and a worker
that is about to build has none. -/
structure Counted (workers : List Builder) (held : Option Held) : Prop where
  count : kernelsOf held = workers.countP Builder.holds
  table : ∀ v ∈ workers, v.holds = true → ∀ h ∈ held, v.kernel = some h.bytes
  fitted : ∀ v ∈ workers, v.stage = .fitted → v.kernel = none

variable {workers : List Builder} {held' : Option Held} {w size : Nat} {b b' : Builder}

theorem Counted.busy (hc : Counted workers held) (hm : b ∈ workers) (hb : b.holds = true) :
    kernelsOf held ≠ 0 := by
  rw [hc.count]
  exact Nat.ne_of_gt (List.countP_pos_iff.mpr ⟨b,hm,hb⟩)

theorem Counted.conflict_iff (hc : Counted s.workers s.held) :
    Conflict s.held size ↔ Lags s size := by
  constructor
  · rintro ⟨h,hm,hbusy,hne⟩
    have hk : 0 < s.workers.countP Builder.holds := by
      rw [← hc.count,Option.mem_def.mp hm]
      exact Nat.pos_of_ne_zero (by simpa [Held.busy,kernelsOf] using hbusy)
    obtain ⟨v,hv,hh⟩ := List.countP_pos_iff.mp hk
    refine ⟨v,hv,hh,?_⟩
    rw [hc.table v hv hh h hm]
    exact fun he => hne (Option.some.inj he)
  · rintro ⟨v,hv,hh,hne⟩
    have hk := hc.busy hv hh
    obtain ⟨h,hm⟩ : ∃ h, s.held = some h := by
      cases hs : s.held with
      | none =>
        rw [hs] at hk
        exact absurd rfl hk
      | some h => exact ⟨h,rfl⟩
    refine ⟨h,hm,?_,fun he => hne ?_⟩
    · rw [hm] at hk
      simpa [Held.busy,kernelsOf] using hk
    · rw [hc.table v hv hh h hm,he]

theorem Counted.set (hc : Counted workers held) (hw : workers[w]? = some b)
    (hk : kernelsOf held' + (if b.holds then 1 else 0) =
      kernelsOf held + (if b'.holds then 1 else 0))
    (hkeep : Keeps held held')
    (htable : b'.holds = true → ∀ h ∈ held', b'.kernel = some h.bytes)
    (hfit : b'.stage = .fitted → b'.kernel = none) :
    Counted (workers.set w b') held' := by
  have hcount := countP_set Builder.holds workers (b := b') hw
  refine ⟨?_,?_,?_⟩
  · have := hc.count
    omega
  · intro v hv hh h' hm
    obtain hv | rfl := List.mem_or_eq_of_mem_set hv
    · obtain ⟨h,hl,he⟩ := hkeep (hc.busy hv hh) h' hm
      rw [he]
      exact hc.table v hv hh h hl
    · exact htable hh h' hm
  · intro v hv hs
    obtain hv | rfl := List.mem_or_eq_of_mem_set hv
    · exact hc.fitted v hv hs
    · exact hfit hs

/-- A worker that keeps its kernel, beside a table that keeps its own. -/
theorem Counted.set_same (hc : Counted workers held) (hw : workers[w]? = some b)
    (hk : kernelsOf held' = kernelsOf held) (hkeep : Keeps held held')
    (he : b'.kernel = b.kernel) (hfit : b'.stage = .fitted → b'.kernel = none) :
    Counted (workers.set w b') held' := by
  have hb := List.mem_of_getElem? hw
  have hh : b'.holds = b.holds := by rw [Builder.holds,he,Builder.holds]
  refine hc.set hw (by rw [hk,hh]) hkeep (fun hh' h' hm => ?_) hfit
  rw [hh] at hh'
  obtain ⟨h,hl,hbytes⟩ := hkeep (hc.busy hb hh') h' hm
  rw [hbytes,he]
  exact hc.table b hb hh' h hl

theorem counted_step (hc : Counted s.workers s.held) (h : step site s e = some s') :
    Counted s'.workers s'.held := by
  cases e with
  | retargets w size moved =>
    simp only [step] at h
    split at h
    · rename_i b hw
      split at h <;> cases h
      refine hc.set_same hw rfl (.refl _) rfl ?_
      dsimp only
      split <;> nofun
    · cases h
  | parks w retain =>
    simp only [step] at h
    split at h
    · rename_i b hw
      split at h <;> cases h
      obtain ⟨hk,hkeep⟩ := retain_effect s.held retain
      exact hc.set_same hw hk hkeep rfl nofun
    · cases h
  | unpins =>
    cases h
    obtain ⟨hk,hkeep⟩ := retain_effect s.held false
    refine ⟨hk.trans hc.count,fun v hv hh h' hm => ?_,hc.fitted⟩
    obtain ⟨l,hl,he⟩ := hkeep (hc.busy hv hh) h' hm
    rw [he]
    exact hc.table v hv hh l hl
  | resets w =>
    simp only [step] at h
    split at h
    · rename_i b hw
      split at h <;> cases h
      refine hc.set hw ?_ ?_ nofun nofun
      · cases hb : b.holds with
        | false => simp [Builder.holds]
        | true =>
          have := hc.busy (List.mem_of_getElem? hw) hb
          have := (left_effect s.held).1
          simp only [Builder.holds,Option.any_none,if_true,Bool.false_eq_true,if_false] at *
          omega
      · cases hb : b.holds with
        | false => exact .refl _
        | true => exact (left_effect s.held).2
    · cases h
  | asks w recoverable =>
    simp only [step] at h
    split at h
    · rename_i b hw
      split at h
      · rename_i hb
        split at h <;> cases h
        · exact hc.set_same hw rfl (.refl _) rfl fun _ => hb.2
        · exact hc.set_same hw rfl (.refl _) rfl nofun
      · cases h
    · cases h
  | builds w c recoverable =>
    simp only [step] at h
    split at h
    · rename_i b hw
      split at h
      · rename_i hb
        have hnone := hc.fitted b (List.mem_of_getElem? hw) hb
        have hkeep := createKernel_effect site.tuning site.info s.held (site.at b.size) c
        split at h <;> rename_i hcr <;> cases h <;> rw [hcr] at hkeep
        · obtain ⟨hkeep,hk,hbytes⟩ := hkeep
          refine hc.set hw ?_ hkeep ?_ nofun
          · simp only [Builder.holds,hnone,Option.any_none,Option.any_some,bne_iff_ne]
            exact hk
          · intro hh h hm
            rw [hbytes (by simpa [Builder.holds,Site.at] using hh) h hm]
            rfl
        · exact hc.set_same hw hkeep.2 hkeep.1 rfl nofun
      · cases h
    · cases h

theorem unrefused_giveUp {recoverable : Bool} (hu : Unrefused s) :
    Unrefused (s.giveUp w b r recoverable) ↔ isHeld r = false := by
  constructor
  · intro h
    exact h.1 (w,r) (List.mem_append_right _ (List.mem_singleton.mpr rfl))
  · intro hr
    refine ⟨fun x hx => ?_,fun x hx => ?_⟩
    · obtain hx | hx := List.mem_append.mp hx
      · exact hu.1 x hx
      · obtain rfl := List.mem_singleton.mp hx
        exact hr
    · cases recoverable with
      | true => exact hu.2 x hx
      | false =>
        cases he : s.ended with
        | none =>
          simp only [Shop.giveUp,he,Bool.false_eq_true,if_false] at hx
          cases hx
          exact hr
        | some r' =>
          simp only [Shop.giveUp,he,Bool.false_eq_true,if_false] at hx
          cases hx
          exact hu.2 _ he

theorem refused_iff {α : Type} {x : Except Refusal α} {p : Prop}
    (hiff : (∃ r, x = .error r ∧ isHeld r = true) ↔ p) :
    (∀ a, x = .ok a → ¬p) ∧ ∀ r, x = .error r → (¬p ↔ isHeld r = false) := by
  refine ⟨fun a hx hp => ?_,fun r hx => ?_⟩
  · obtain ⟨r,hr,-⟩ := hiff.mpr hp
    cases hx.symm.trans hr
  · rw [← hiff]
    constructor
    · intro hn
      by_contra hr
      exact hn ⟨r,hx,by simpa using hr⟩
    · rintro hr ⟨r',hr',hheld⟩
      cases hx.symm.trans hr'
      cases hr.symm.trans hheld

theorem inTurn_asks (hc : Counted s.workers s.held) (hw : s.workers[w]? = some b)
    (hb : b.stage = .looping ∧ b.kernel = none) (recoverable : Bool) :
    InTurn site s (.asks w recoverable) ↔ ¬(largest (site.at b.size) ≠ 0 ∧
      tableFits site.info none (site.at b.size) = .ok () ∧ Conflict s.held b.size) := by
  rw [hc.conflict_iff]
  simp [InTurn,Considers,hw,hb]

theorem inTurn_builds (hc : Counted s.workers s.held) (hw : s.workers[w]? = some b)
    (hb : b.stage = .fitted) (c : CreateCalls) (recoverable : Bool) :
    InTurn site s (.builds w c recoverable) ↔
      ¬(site.spec.hasSpirv = true ∧ b.size ≠ 0 ∧ Conflict s.held b.size) := by
  rw [hc.conflict_iff]
  simp [InTurn,hw,hb]

theorem step_unrefused (hc : Counted s.workers s.held) (hu : Unrefused s)
    (h : step site s e = some s') : InTurn site s e ↔ Unrefused s' := by
  cases e with
  | retargets w size moved =>
    simp only [step] at h
    split at h
    · split at h <;> cases h
      exact ⟨fun _ => hu,fun _ => trivial⟩
    · cases h
  | parks w retain =>
    simp only [step] at h
    split at h
    · split at h <;> cases h
      exact ⟨fun _ => hu,fun _ => trivial⟩
    · cases h
  | unpins =>
    cases h
    exact ⟨fun _ => hu,fun _ => trivial⟩
  | resets w =>
    simp only [step] at h
    split at h
    · split at h <;> cases h
      exact ⟨fun _ => hu,fun _ => trivial⟩
    · cases h
  | asks w recoverable =>
    simp only [step] at h
    split at h
    · rename_i b hw
      split at h
      · rename_i hb
        obtain ⟨hok,herr⟩ := refused_iff
          (wouldFit_held_iff site.tuning site.info s.held (site.at b.size))
        rw [inTurn_asks hc hw hb]
        split at h <;> rename_i hf <;> cases h
        · exact ⟨fun _ => hu,fun _ => hok _ hf⟩
        · rw [unrefused_giveUp hu]
          exact herr _ hf
      · cases h
    · cases h
  | builds w c recoverable =>
    simp only [step] at h
    split at h
    · rename_i b hw
      split at h
      · rename_i hb
        obtain ⟨hok,herr⟩ := refused_iff
          (createKernel_held_iff site.tuning site.info s.held (site.at b.size) c)
        rw [inTurn_builds hc hw hb]
        split at h <;> rename_i hcr <;> cases h <;> rw [hcr] at hok herr
        · exact ⟨fun _ => hu,fun _ => hok _ rfl⟩
        · rename_i r held
          have hg : Unrefused (s.giveUp w b r recoverable) ↔ _ := unrefused_giveUp hu
          exact (herr _ rfl).trans hg.symm
      · cases h
    · cases h

theorem step_length (h : step site s e = some s') : s'.workers.length = s.workers.length := by
  cases e with
  | unpins =>
    cases h
    rfl
  | retargets | parks | resets =>
    simp only [step] at h
    split at h
    · split at h <;> cases h
      exact List.length_set
    · cases h
  | asks | builds =>
    simp only [step] at h
    split at h
    · split at h
      · split at h <;> cases h <;> exact List.length_set
      · cases h
    · cases h

theorem counted_opened (n : Nat) : Counted (opened n).workers (opened n).held := by
  refine ⟨?_,nofun,fun v hv hs => ?_⟩
  · simp [opened,kernelsOf,List.countP_replicate,Builder.holds]
  · obtain rfl := List.eq_of_mem_replicate hv
    rfl

theorem unrefused_opened (n : Nat) : Unrefused (opened n) := ⟨nofun,nofun⟩

/-- Where every worker asks and builds in its turn, nobody is refused for another's table and
the run does not end of it; and in each state reached so, a step keeps that exactly where the
worker it is about is in its turn. -/
theorem run_unrefused (site : Site) (n : Nat) (s : Shop)
    (h : Reach (step site) (InTurn site) (opened n) s) :
    Unrefused s ∧ ∀ e s', step site s e = some s' → (InTurn site s e ↔ Unrefused s') := by
  have hinv : Counted s.workers s.held ∧ Unrefused s := by
    refine h.invariant (I := fun s => Counted s.workers s.held ∧ Unrefused s)
      ⟨counted_opened n,unrefused_opened n⟩ ?_
    rintro s e s' ⟨hc,hu⟩ hok hs
    exact ⟨counted_step hc hs,(step_unrefused hc hu hs).mp hok⟩
  exact ⟨hinv.2,fun e s' hs => step_unrefused hinv.1 hinv.2 hs⟩

def growing : Site := ⟨untuned,twelveGigabytes,growingTable⟩

def granted : CreateCalls := ⟨true,true,true,true⟩

/-- Two workers, each rid of the old table before either asks for the new one. -/
theorem run_unrefused_pair : ∃ s, Reach (step growing) (InTurn growing) (opened 2) s ∧
    s.workers.map Builder.kernel = [some 1082130304,some 1082130304] ∧ Unrefused s := by
  have h := reach_of_any (step growing) (InTurn growing) (opened 2)
    [.retargets 0 1073739904 true,.asks 0 false,.builds 0 granted false,
      .retargets 1 1073739904 true,.asks 1 false,.builds 1 granted false,
      .retargets 0 1082130304 true,.resets 0,.retargets 1 1082130304 true,.resets 1,
      .asks 0 false,.builds 0 granted false,.asks 1 false,.builds 1 granted false]
    (fun s => s.workers.map Builder.kernel = [some 1082130304,some 1082130304])
    (by decide +kernel)
  obtain ⟨s,hs,hk⟩ := h
  exact ⟨s,hs,hk,(run_unrefused growing 2 s hs).1⟩

/-- The first to move asks while the second is still on the old table, and ends the run. -/
theorem run_not_always_unrefused :
    ¬∀ (site : Site) (n : Nat) (s : Shop), Reach (step site) free (opened n) s → Unrefused s := by
  intro hall
  have h := reach_of_any (step growing) free (opened 2)
    [.retargets 0 1073739904 true,.asks 0 false,.builds 0 granted false,
      .retargets 1 1073739904 true,.asks 1 false,.builds 1 granted false,
      .retargets 0 1082130304 true,.resets 0,.asks 0 false]
    (fun s => ¬Unrefused s ∧ s.ended = some (.held 1082130304 1073739904)) (by decide +kernel)
  obtain ⟨s,hs,hn,-⟩ := h
  exact hn (hall growing 2 s hs)

theorem inTurn_alone (h : Reach (step site) free (opened 1) s) (e : Event) : InTurn site s e := by
  have hinv : Counted s.workers s.held ∧ s.workers.length = 1 := by
    refine h.invariant (I := fun s => Counted s.workers s.held ∧ s.workers.length = 1)
      ⟨counted_opened 1,rfl⟩ ?_
    rintro s e s' ⟨hc,hl⟩ - hs
    exact ⟨counted_step hc hs,(step_length hs).trans hl⟩
  obtain ⟨hc,hl⟩ := hinv
  obtain ⟨b,hb⟩ := List.length_eq_one_iff.mp hl
  have hlags : ∀ size, b.kernel = none → ¬Lags s size := by
    rintro size hn ⟨v,hv,hh,-⟩
    rw [hb] at hv
    obtain rfl := List.mem_singleton.mp hv
    rw [Builder.holds,hn] at hh
    cases hh
  cases e with
  | asks w recoverable =>
    intro v hv _ hn _
    have hm := List.mem_of_getElem? (Option.mem_def.mp hv)
    rw [hb] at hm
    obtain rfl := List.mem_singleton.mp hm
    exact hlags _ hn
  | builds w c recoverable =>
    intro v hv hs _ _
    have hm := List.mem_of_getElem? (Option.mem_def.mp hv)
    have hn := hc.fitted v hm hs
    rw [hb] at hm
    obtain rfl := List.mem_singleton.mp hm
    exact hlags _ hn
  | retargets | parks | unpins | resets => trivial

end VkMiner.Scheduler.Rebuild
