import VkMiner.Control.Journal
set_option autoImplicit false

/-! Which profile a failed build goes back to. -/

namespace VkMiner.Control
open Machine Runs

/-- The restore `k` is of the switch `i`, which is in force, and once it has landed
everything is as it was when that switch was posted. -/
structure PutsBack (j : Journal) (k i : Nat) : Prop where
  asked : j.asked[i]? = some .switch
  recorded : ∀ l < k, i < l → j.asked[l]? ≠ some .switch
  landed : j.machine.landedAt i = true
  alone : ∀ l < k, i < l → j.machine.landedAt l = true → j.asked[l]? = some .run
  exact : ∀ x ∈ j.machine.endings, x.mutation = k → x.outcome.isLanded = true →
    j.machine.posted[i]?.map (·.before.profile) = some x.triple.profile

instance (j : Journal) (k i : Nat) : Decidable (PutsBack j k i) :=
  decidable_of_iff (_ ∧ _ ∧ _ ∧ _ ∧ _)
    ⟨fun ⟨h₁,h₂,h₃,h₄,h₅⟩ => ⟨h₁,h₂,h₃,h₄,h₅⟩,
      fun h => ⟨h.asked,h.recorded,h.landed,h.alone,h.exact⟩⟩

def RestoresExactly (j : Journal) : Prop :=
  ∀ k < j.asked.length, j.asked[k]? = some .restore → ∃ i < k, PutsBack j k i

instance (j : Journal) : Decidable (RestoresExactly j) :=
  inferInstanceAs (Decidable (∀ k < _, _))

/-- A failed build that posts a restore finds the switch that was asked for last in
force, and every credential empty that was empty before it. -/
def restoresOwn (opt : Options) (j : Journal) : Event → Bool
  | .switchFailed _ =>
    let m := j.machine.catchUp opt
    !m.canRestore || m.restoreInForce || m.mutating ||
      (j.inForce == j.recorded && (!m.prev.user.isEmpty || m.profile.user.isEmpty) &&
        (!m.prev.pass.isEmpty || m.profile.pass.isEmpty))
  | _ => true

def Restorable (opt : Options) (j : Journal) (e : Event) : Prop :=
  InOrder opt j.machine e ∧ restoresOwn opt j e = true

instance (opt : Options) (j : Journal) (e : Event) : Decidable (Restorable opt j e) :=
  inferInstanceAs (Decidable (_ ∧ _))

/-- What is known of the restore `k` as soon as it is posted. -/
structure Aimed (j : Journal) (k i : Nat) : Prop where
  asked : j.asked[i]? = some .switch
  recorded : ∀ l < k, i < l → j.asked[l]? ≠ some .switch
  last : LandedLast j k i
  target : j.machine.posted[k]?.map (·.target.profile) =
    j.machine.posted[i]?.map (·.before.profile)

structure Restores (p₀ : Profile) (j : Journal) : Prop where
  kept : Kept p₀ j
  aimed : ∀ k, j.asked[k]? = some .restore → ∃ i, Aimed j k i

variable {opt : Options} {j j' : Journal} {m : Machine} {e : Event} {p₀ : Profile} {k i : Nat}

theorem Aimed.congr (h : Aimed j k i) (ha : ∀ l ≤ k, j'.asked[l]? = j.asked[l]?)
    (hp : ∀ l ≤ k, j'.machine.posted[l]? = j.machine.posted[l]?)
    (hl : ∀ l < k, j'.machine.landedAt l = j.machine.landedAt l) : Aimed j' k i := by
  have hik := h.last.before
  refine ⟨?_,fun l hlk hil => ?_,h.last.congr hl (fun l hlk => ha l (by omega)),?_⟩
  · rw [ha i (by omega)]
    exact h.asked
  · rw [ha l (by omega)]
    exact h.recorded l hlk hil
  · rw [hp k (Nat.le_refl k),hp i (by omega)]
    exact h.target

theorem Restores.same (h : Restores p₀ j) (hs : m.saved = j.machine.saved)
    (he : j.machine.endings <+: m.endings) (hk : Kept p₀ { j with machine := m }) :
    Restores p₀ { j with machine := m } := by
  refine ⟨hk,fun k hr => ?_⟩
  obtain ⟨i,hi⟩ := h.aimed k hr
  have hlt : k < j.asked.length := (List.getElem?_eq_some_iff.mp hr).1
  have hposted : m.posted = j.machine.posted := congrArg Saved.posted hs
  exact ⟨i,hi.congr (fun _ _ => rfl) (fun _ _ => by rw [hposted]) (fun l hl =>
    h.kept.fated.ordered.books.landedAt_stable hk.fated.ordered.books he
      (h.kept.ended_before hlt hl))⟩

theorem restore_target (p q : Profile) (ha : q.algo ≠ [])
    (hu : q.user.isEmpty = false ∨ p.user.isEmpty = true)
    (hp : q.pass.isEmpty = false ∨ p.pass.isEmpty = true) :
    p.after ⟨q.url,q.user,q.pass,q.algo,false,false,false,false,false⟩ = q := by
  have keep {x y : CStr} (h : x.isEmpty = false ∨ y.isEmpty = true) :
      (if x.isEmpty then y else x) = x := by
    cases hx : x.isEmpty with
    | false => rfl
    | true =>
      have hy := h.resolve_left (by simp [hx])
      rw [List.isEmpty_iff] at hx hy
      simp [hx,hy]
  have hae : q.algo.isEmpty = false := by simpa using ha
  simp only [Profile.after,Profile.withPool,Profile.withAlgo,hae,Bool.false_eq_true,if_false,
    keep hu,keep hp]

theorem Restores.post {m₁ : Machine} {P : Mutation} (h : Restores p₀ j)
    (hc : Kept p₀ { j with machine := j.machine.catchUp opt })
    (hm : (j.machine.catchUp opt).mutating = false) (hp : Posts opt j.machine e m₁)
    (hl : Leaves (j.machine.catchUp opt) m₁ e.ask P) (hs : m.saved = m₁.saved)
    (he : (j.machine.catchUp opt).endings <+: m.endings) (hk : Kept p₀ (j.post m e.ask))
    (ht : restoresOwn opt j e = true) : Restores p₀ (j.post m e.ask) := by
  have hposted : m.posted = (j.machine.catchUp opt).posted ++ [P] := (hl.congr hs).posted
  have hlen : j.asked.length = (j.machine.catchUp opt).posted.length := hc.length
  have hold {l : Nat} (hl : l < j.asked.length) :
      m.posted[l]? = (j.machine.catchUp opt).posted[l]? := by
    rw [hposted,List.getElem?_append_left (by omega)]
  have hasked {l : Nat} (hl : l < j.asked.length) : (j.post m e.ask).asked[l]? = j.asked[l]? :=
    List.getElem?_append_left hl
  have hland {l : Nat} (hl : l < j.asked.length) :
      m.landedAt l = (j.machine.catchUp opt).landedAt l := by
    refine hc.fated.ordered.books.landedAt_stable hk.fated.ordered.books he ?_
    rw [hc.fated.ordered.books.endings_length,hm]
    simp only [Bool.toNat_false]
    omega
  have hrest := h.same (catchUp_saved opt j.machine) (catchUp_endings opt j.machine) hc
  refine ⟨hk,fun k hr => ?_⟩
  rcases getElem?_snoc hr with ⟨hr,hlt⟩ | ⟨rfl,hask⟩
  · obtain ⟨i,hi⟩ := hrest.aimed k hr
    exact ⟨i,hi.congr (fun l hl => hasked (by omega)) (fun l hl => hold (by omega))
      (fun l hl => hland (by omega))⟩
  · cases hp with
    | restore hcan hforce =>
      obtain ⟨⟨i,hi⟩,halgo,-⟩ := hc.known hcan
      obtain ⟨⟨⟨b,hb,hsw⟩,hlater⟩,hprev⟩ := hc.recorded i hi
      subst hsw
      simp only [restoresOwn,hcan,hforce,hm,Bool.not_true,Bool.false_or,Bool.and_eq_true,
        beq_iff_eq,Bool.or_eq_true,Bool.not_eq_true'] at ht
      obtain ⟨⟨hforce,huser⟩,hpass⟩ := ht
      have hin : ({ j with machine := j.machine.catchUp opt } : Journal).inForce = some i := by
        rw [← hi,← hforce]
        simp [Journal.inForce]
      have hlast := hc.landedLast hm hin
      have hP : P.target.profile = (j.machine.catchUp opt).prev := by
        rw [hl.pool_target]
        exact restore_target _ _ halgo huser hpass
      refine ⟨i,?_,fun l hlk hil => ?_,hlast.congr (fun l hl => hland hl) (fun l hl => hasked hl),?_⟩
      · rw [hasked hlast.before]
        exact hb
      · rw [hasked hlk]
        exact fun hsw => hlater l _ hil hsw rfl
      · rw [show (j.post m _).machine.posted = _ from hposted,hlen,List.getElem?_concat_length,
          ← hposted,hold hlast.before,hprev,Option.map_some,hP]
    | run | retarget | switch => cases hask

theorem Restores.step (h : Restores p₀ j) (ht : Restorable opt j e)
    (hs : j.step opt e = some j') : Restores p₀ j' := by
  cases h.kept.turn ht.1 hs with
  | stays hsaved he hk => exact h.same hsaved he hk
  | posts hc hm hp hl hsaved he hk => exact h.post hc hm hp hl hsaved he hk ht.2

theorem Restores.exactly (h : Restores p₀ j) : RestoresExactly j := by
  intro k hk hr
  obtain ⟨i,hi⟩ := h.aimed k hr
  refine ⟨i,hi.last.before,hi.asked,hi.recorded,hi.last.landed,hi.last.alone,?_⟩
  rintro x hx rfl hland
  obtain ⟨P,hP,hw⟩ := h.kept.fated.ordered.books.whole x hx
  simp only [Ending.Whole,hland,if_true] at hw
  have htarget := hi.target
  rw [hP,Option.map_some] at htarget
  rw [← htarget,hw.1]

/-- In a run in order in which every failed build that posts a restore finds the last
switch in force, and no credential that cannot be put back, every restore is of that
switch and puts back all four. -/
theorem restores_exactly (opt : Options) (n : Nat) (p : Profile) (hook : Bool) (j : Journal)
    (h : Reach (Journal.step opt) (Restorable opt) (Journal.start n p hook) j) :
    RestoresExactly j := by
  have hr : Restores p j := h.invariant ⟨kept_start n p hook,fun k hk => (by cases hk)⟩
    (fun _ _ _ hj ht hs => hj.step ht hs)
  exact hr.exactly

def failedBuild : List Event :=
  switchLanded ++ [.wakes 0,.switchFailed (ascii "no kernel"),.seesPark 0,.readsTerms 0,.parks 0,
    .takes,.moves,.writes,.readsHold,.connected]

theorem failed_build_restores : ∃ j,
    Reach (Journal.step stock) (Restorable stock) (Journal.start 1 kawpow true) j ∧
      (j.machine.landedAt 1 = true ∧ j.machine.profile = kawpow) ∧ RestoresExactly j := by
  obtain ⟨j,hj,ha⟩ := reach_of_any (Journal.step stock) (Restorable stock)
    (Journal.start 1 kawpow true) failedBuild
    (fun j => j.machine.landedAt 1 = true ∧ j.machine.profile = kawpow) (by decide)
  exact ⟨j,hj,ha,restores_exactly stock 1 kawpow true j hj⟩

def failedAfterRetarget : List Event :=
  switchLanded ++ [.wakes 0,.tick (seconds 16),
    .poolRequest (ascii "stratum+tcp://c:3") [] [] 1000 none,.seesPark 0,.readsTerms 0,.parks 0,
    .takes,.moves,.writes,.readsHold,.connected,.switchFailed (ascii "no kernel")]

/-- The record of the switch outlives the pool change, and so the build's failure is
taken for that of a switch long since replaced. -/
theorem restores_over_a_retarget : ¬ ∀ (opt : Options) (n : Nat) (p : Profile) (hook : Bool)
    (j : Journal), Reach (Journal.step opt) (fun j => InOrder opt j.machine)
      (Journal.start n p hook) j → RestoresExactly j := by
  intro h
  obtain ⟨j,hj,ha⟩ := reach_of_any (Journal.step stock) (fun j => InOrder stock j.machine)
    (Journal.start 1 kawpow true) failedAfterRetarget (fun j => ¬ RestoresExactly j) (by decide)
  exact ha (h stock 1 kawpow true j hj)

end VkMiner.Control
