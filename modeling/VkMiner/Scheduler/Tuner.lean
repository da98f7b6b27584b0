import Mathlib.Data.List.Sort
import VkMiner.Lib.Rounding
set_option autoImplicit false

/-! Which of the configurations that were raced against each other a device is given, in arithmetic
whose results are rounded as the code's doubles are. -/

namespace VkMiner.Scheduler.Tuner
open Rounding (Rounder binary64)

variable {F : Type*} [Field F] [LinearOrder F]

def kRounds : Nat := 3
def kRoundSeconds : F := 1/4
def kWarmupSeconds : F := 1/4

def kMargin (R : Rounder F) : F := R.round (1/50)

/-- What is known of a candidate by its rounds. A round that failed has a rate of minus one. -/
structure Candidate (F : Type*) where
  rate : List F
  isDefault : Bool
  deriving DecidableEq

namespace Candidate

def sorted (c : Candidate F) : List F := c.rate.insertionSort (· ≤ ·)

def score (c : Candidate F) : F :=
  match c.sorted with
  | [] => -1
  | front :: rest => if front < 0 then -1 else (front :: rest).getD (c.sorted.length/2) 0

def spread (R : Rounder F) (c : Candidate F) : F :=
  if c.score ≤ 0 then 0
  else R.round (R.round (c.sorted.getLastD 0-c.sorted.headD 0)/R.round (2*c.score))

end Candidate

namespace Candidate

variable (c : Candidate F)

omit [Field F] in
theorem sorted_perm : c.sorted.Perm c.rate := List.perm_insertionSort _ _

omit [Field F] in
theorem sorted_pairwise : c.sorted.Pairwise (· ≤ ·) := List.pairwise_insertionSort _ _

theorem score_nonneg_iff [IsStrictOrderedRing F] :
    0 ≤ c.score ↔ c.rate ≠ [] ∧ ∀ r ∈ c.rate, 0 ≤ r := by
  have hmem : ∀ r, r ∈ c.sorted ↔ r ∈ c.rate := fun r => c.sorted_perm.mem_iff
  have hnil : c.sorted = [] ↔ c.rate = [] := by
    rw [← List.length_eq_zero_iff,c.sorted_perm.length_eq,List.length_eq_zero_iff]
  have hpair := c.sorted_pairwise
  rw [ne_eq,← hnil]
  simp only [← hmem]
  unfold score
  generalize hs : c.sorted = sorted at hpair
  cases sorted with
  | nil => simp
  | cons front rest =>
    have hfront := (List.pairwise_cons.mp hpair).1
    simp only [reduceCtorEq,not_false_iff,true_and]
    split
    · rename_i hneg
      constructor
      · intro h
        exact absurd h (by simp)
      · intro h
        exact absurd (h front (.head _)) (not_le.mpr hneg)
    · rename_i hnneg
      have hall : ∀ r ∈ front :: rest, 0 ≤ r := by
        intro r hr
        obtain rfl | hr := List.mem_cons.mp hr
        · exact not_lt.mp hnneg
        · exact (not_lt.mp hnneg).trans (hfront r hr)
      have hlt : (front :: rest).length/2 < (front :: rest).length :=
        Nat.div_lt_self (Nat.succ_pos _) (by decide)
      rw [← List.getElem_eq_getD (h := hlt)]
      exact ⟨fun _ => hall,fun h => h _ (List.getElem_mem hlt)⟩

theorem score_middle [IsStrictOrderedRing F] (h : 0 ≤ c.score) :
    c.score ∈ c.rate ∧ c.rate.countP (· < c.score) ≤ c.rate.length/2 ∧
      c.rate.countP (c.score < ·) < c.rate.length-c.rate.length/2 := by
  have hperm := c.sorted_perm
  have hpair := c.sorted_pairwise
  rw [← hperm.mem_iff,← hperm.countP_eq,← hperm.countP_eq,← hperm.length_eq]
  have hne : c.sorted ≠ [] := by
    intro hnil
    rw [score,hnil] at h
    exact absurd h (by simp)
  have hlt : c.sorted.length/2 < c.sorted.length :=
    Nat.div_lt_self (List.length_pos_of_ne_nil hne) (by decide)
  have hscore : c.score = c.sorted[c.sorted.length/2] := by
    unfold score at h ⊢
    generalize c.sorted = sorted at h hne hlt ⊢
    cases sorted with
    | nil => exact absurd rfl hne
    | cons front rest =>
      simp only at h ⊢
      split at h
      · exact absurd h (by simp)
      · rw [if_neg ‹_›,← List.getElem_eq_getD (h := hlt)]
  generalize hm : c.sorted.length/2 = m at hlt hscore ⊢
  have hdrop : c.sorted.drop m = c.score :: c.sorted.drop (m+1) := by
    rw [hscore,List.drop_eq_getElem_cons hlt]
  have hsplit : c.sorted = c.sorted.take m ++ c.score :: c.sorted.drop (m+1) := by
    rw [← hdrop,List.take_append_drop]
  rw [hsplit] at hpair
  obtain ⟨-,hback,hfront⟩ := List.pairwise_append.mp hpair
  have hover := (List.pairwise_cons.mp hback).1
  refine ⟨hscore ▸ List.getElem_mem hlt,?_,?_⟩
  · have hzero : (c.score :: c.sorted.drop (m+1)).countP (· < c.score) = 0 := by
      refine List.countP_eq_zero.mpr fun r hr => ?_
      obtain rfl | hr := List.mem_cons.mp hr
      · simp
      · simpa using hover r hr
    rw [hsplit,List.countP_append,hzero,Nat.add_zero]
    exact List.countP_le_length.trans (List.length_take_le m _)
  · have hzero : (c.sorted.take m).countP (c.score < ·) = 0 := by
      refine List.countP_eq_zero.mpr fun r hr => ?_
      simpa using hfront r hr c.score (.head _)
    have hcount : c.sorted.countP (c.score < ·) = (c.sorted.drop (m+1)).countP (c.score < ·) := by
      conv_lhs => rw [hsplit]
      rw [List.countP_append,hzero,Nat.zero_add,List.countP_cons]
      simp
    rw [hcount]
    refine List.countP_le_length.trans_lt ?_
    rw [List.length_drop]
    omega

end Candidate

def required (R : Rounder F) (winner standing : Candidate F) : F :=
  max (kMargin R) (R.round (winner.spread R+standing.spread R))

def clears (R : Rounder F) (winner standing : Candidate F) : Bool :=
  -- a quotient by zero is infinite, and not a number where the winner's median is zero as well
  if standing.score = 0 then decide (0 < winner.score)
  else decide (required R winner standing < R.round (R.round (winner.score/standing.score)-1))

structure Seen where
  best : Option Nat
  fallback : Option Nat

variable (R : Rounder F) (cs : List (Candidate F))

def candidateAt (i : Nat) : Candidate F := cs.getD i ⟨[],false⟩

def look : Nat → Seen
  | 0 => ⟨none,none⟩
  | i+1 =>
    if (candidateAt cs i).score < 0 then look i
    else
      { best :=
          match (look i).best with
          | none => some i
          | some j => if (candidateAt cs j).score < (candidateAt cs i).score then some i else some j
        fallback := if (candidateAt cs i).isDefault then some i else (look i).fallback }

def choose : Seen → Option Nat
  | ⟨some best,some fallback⟩ =>
    if best = fallback then some best
    else if clears R (candidateAt cs best) (candidateAt cs fallback) then some best
    else some fallback
  | ⟨best,_⟩ => best

def pick : Option Nat := choose R cs (look cs cs.length)

def Live (i : Nat) : Prop := 0 ≤ (candidateAt cs i).score

/-- The first of the highest scores, among the candidates before `n`. -/
structure Best (n i : Nat) : Prop where
  lt : i < n
  live : Live cs i
  most : ∀ j < n, Live cs j → (candidateAt cs j).score ≤ (candidateAt cs i).score
  first : ∀ j < i, Live cs j → (candidateAt cs j).score < (candidateAt cs i).score

/-- The last default that did not fail. -/
structure Standing (n i : Nat) : Prop where
  lt : i < n
  live : Live cs i
  default : (candidateAt cs i).isDefault = true
  last : ∀ j < n, Live cs j → (candidateAt cs j).isDefault = true → j ≤ i

variable {cs} {n i j : Nat}

theorem Best.unique (hi : Best cs n i) (hj : Best cs n j) : i = j := by
  obtain h | h | h := Nat.lt_trichotomy i j
  · exact absurd (hi.most j hj.lt hj.live) (not_le.mpr (hj.first i h hi.live))
  · exact h
  · exact absurd (hj.most i hi.lt hi.live) (not_le.mpr (hi.first j h hj.live))

theorem Standing.unique (hi : Standing cs n i) (hj : Standing cs n j) : i = j :=
  Nat.le_antisymm (hj.last i hi.lt hi.live hi.default) (hi.last j hj.lt hj.live hj.default)

theorem Best.of_dead (hd : ¬Live cs n) : Best cs (n+1) i ↔ Best cs n i := by
  constructor
  · rintro ⟨hlt,hlive,hmost,hfirst⟩
    have hne : i ≠ n := by
      rintro rfl
      exact hd hlive
    exact ⟨by omega,hlive,fun j hj => hmost j (by omega),hfirst⟩
  · rintro ⟨hlt,hlive,hmost,hfirst⟩
    refine ⟨by omega,hlive,fun j hj hjl => ?_,hfirst⟩
    obtain hj | rfl := Nat.lt_succ_iff_lt_or_eq.mp hj
    · exact hmost j hj hjl
    · exact absurd hjl hd

theorem Standing.of_dead (hd : ¬Live cs n) : Standing cs (n+1) i ↔ Standing cs n i := by
  constructor
  · rintro ⟨hlt,hlive,hdefault,hlast⟩
    have hne : i ≠ n := by
      rintro rfl
      exact hd hlive
    exact ⟨by omega,hlive,hdefault,fun j hj => hlast j (by omega)⟩
  · rintro ⟨hlt,hlive,hdefault,hlast⟩
    refine ⟨by omega,hlive,hdefault,fun j hj hjl => ?_⟩
    obtain hj | rfl := Nat.lt_succ_iff_lt_or_eq.mp hj
    · exact hlast j hj hjl
    · exact absurd hjl hd

theorem Best.overtaken (hl : Live cs n)
    (hb : ∀ i < n, Live cs i → (candidateAt cs i).score < (candidateAt cs n).score) :
    Best cs (n+1) n := by
  refine ⟨Nat.lt_succ_self n,hl,fun j hj hjl => ?_,hb⟩
  obtain hj | rfl := Nat.lt_succ_iff_lt_or_eq.mp hj
  · exact (hb j hj hjl).le
  · exact le_refl _

theorem Best.stays (hi : Best cs n i)
    (hb : (candidateAt cs n).score ≤ (candidateAt cs i).score) : Best cs (n+1) i := by
  refine ⟨hi.lt.trans (Nat.lt_succ_self n),hi.live,fun j hj hjl => ?_,hi.first⟩
  obtain hj | rfl := Nat.lt_succ_iff_lt_or_eq.mp hj
  · exact hi.most j hj hjl
  · exact hb

theorem Standing.stays (hi : Standing cs n i) (hd : (candidateAt cs n).isDefault = false) :
    Standing cs (n+1) i := by
  refine ⟨hi.lt.trans (Nat.lt_succ_self n),hi.live,hi.default,fun j hj hjl hjd => ?_⟩
  obtain hj | rfl := Nat.lt_succ_iff_lt_or_eq.mp hj
  · exact hi.last j hj hjl hjd
  · rw [hd] at hjd
    cases hjd

theorem Standing.replaced (hl : Live cs n) (hd : (candidateAt cs n).isDefault = true) :
    Standing cs (n+1) n :=
  ⟨Nat.lt_succ_self n,hl,hd,fun _ hj _ _ => Nat.lt_succ_iff.mp hj⟩

def Seen.Finds (cs : List (Candidate F)) (n : Nat) (best : Option Nat) : Prop :=
  match best with
  | some i => Best cs n i
  | none => ∀ i < n, ¬Live cs i

def Seen.Keeps (cs : List (Candidate F)) (n : Nat) (fallback : Option Nat) : Prop :=
  match fallback with
  | some i => Standing cs n i
  | none => ∀ i < n, Live cs i → (candidateAt cs i).isDefault = false

theorem look_spec (cs : List (Candidate F)) (n : Nat) :
    Seen.Finds cs n (look cs n).best ∧ Seen.Keeps cs n (look cs n).fallback := by
  induction n with
  | zero => exact ⟨fun i hi => absurd hi (Nat.not_lt_zero i),fun i hi => absurd hi (Nat.not_lt_zero i)⟩
  | succ n ih =>
    obtain ⟨hbest,hfallback⟩ := ih
    rw [look]
    split
    · rename_i hneg
      have hd : ¬Live cs n := not_le.mpr hneg
      constructor
      · cases hb : (look cs n).best with
        | some i =>
          rw [hb] at hbest
          exact (Best.of_dead hd).mpr hbest
        | none =>
          rw [hb] at hbest
          intro i hi hl
          obtain hi | rfl := Nat.lt_succ_iff_lt_or_eq.mp hi
          · exact hbest i hi hl
          · exact hd hl
      · cases hf : (look cs n).fallback with
        | some i =>
          rw [hf] at hfallback
          exact (Standing.of_dead hd).mpr hfallback
        | none =>
          rw [hf] at hfallback
          intro i hi hl
          obtain hi | rfl := Nat.lt_succ_iff_lt_or_eq.mp hi
          · exact hfallback i hi hl
          · exact absurd hl hd
    · rename_i hnneg
      have hl : Live cs n := not_lt.mp hnneg
      constructor
      · cases hb : (look cs n).best with
        | none =>
          rw [hb] at hbest
          exact Best.overtaken hl fun i hi hil => absurd hil (hbest i hi)
        | some j =>
          rw [hb] at hbest
          have hj : Best cs n j := hbest
          dsimp only
          split
          · rename_i hlt
            exact Best.overtaken hl fun i hi hil => (hj.most i hi hil).trans_lt hlt
          · rename_i hnlt
            exact hj.stays (not_lt.mp hnlt)
      · cases hdef : (candidateAt cs n).isDefault with
        | true => exact Standing.replaced hl hdef
        | false =>
          simp only [Bool.false_eq_true,if_false]
          cases hf : (look cs n).fallback with
          | some i =>
            rw [hf] at hfallback
            exact Standing.stays hfallback hdef
          | none =>
            rw [hf] at hfallback
            intro i hi hil
            obtain hi | rfl := Nat.lt_succ_iff_lt_or_eq.mp hi
            · exact hfallback i hi hil
            · exact hdef

theorem choose_both (R : Rounder F) (cs : List (Candidate F)) (k f i : Nat) :
    choose R cs ⟨some k,some f⟩ = some i ↔
      (k = i ∧ (f = i ∨ clears R (candidateAt cs i) (candidateAt cs f) = true)) ∨
      (f = i ∧ k ≠ i ∧ clears R (candidateAt cs k) (candidateAt cs i) = false) := by
  rw [choose]
  constructor
  · intro h
    split at h
    · rename_i he
      cases h
      exact .inl ⟨rfl,.inl he.symm⟩
    · rename_i hne
      split at h
      · rename_i hc
        cases h
        exact .inl ⟨rfl,.inr hc⟩
      · rename_i hc
        cases h
        exact .inr ⟨rfl,hne,by simpa using hc⟩
  · rintro (⟨rfl,hall⟩ | ⟨rfl,hne,hc⟩)
    · split
      · rfl
      · rename_i hne
        rw [if_pos (hall.resolve_left (Ne.symm hne))]
    · rw [if_neg hne,if_neg (by simp [hc])]

/-- What is picked: nothing where every candidate failed; and otherwise the first of those with the
highest median, unless it is not the default, and the default did not fail either, and is not behind
by more than the margin and by more than the rounds of the two spread: then the default. -/
theorem pick_iff (R : Rounder F) (cs : List (Candidate F)) :
    (pick R cs = none ↔ ∀ i < cs.length, ¬Live cs i) ∧
    ∀ i, pick R cs = some i ↔
      (Best cs cs.length i ∧ ∀ f, Standing cs cs.length f → f = i ∨
        clears R (candidateAt cs i) (candidateAt cs f) = true) ∨
      (Standing cs cs.length i ∧ ∃ j, Best cs cs.length j ∧ j ≠ i ∧
        clears R (candidateAt cs j) (candidateAt cs i) = false) := by
  obtain ⟨hbest,hfallback⟩ := look_spec cs cs.length
  rw [pick]
  generalize look cs cs.length = seen at hbest hfallback ⊢
  obtain ⟨best,fallback⟩ := seen
  cases best with
  | none =>
    have hdead : ∀ i < cs.length, ¬Live cs i := hbest
    have hnone : choose R cs ⟨none,fallback⟩ = none := by cases fallback <;> rfl
    rw [hnone]
    refine ⟨⟨fun _ => hdead,fun _ => rfl⟩,fun i => ⟨nofun,?_⟩⟩
    rintro (⟨h,-⟩ | ⟨h,-⟩)
    · exact absurd h.live (hdead i h.lt)
    · exact absurd h.live (hdead i h.lt)
  | some k =>
    have hk : Best cs cs.length k := hbest
    cases fallback with
    | none =>
      have hno : ∀ f, ¬Standing cs cs.length f := fun f hf =>
        Bool.false_ne_true ((hfallback f hf.lt hf.live).symm.trans hf.default)
      refine ⟨⟨nofun,fun h => absurd hk.live (h k hk.lt)⟩,fun i => ⟨?_,?_⟩⟩
      · rintro ⟨⟩
        exact .inl ⟨hk,fun f hf => absurd hf (hno f)⟩
      · rintro (⟨h,-⟩ | ⟨h,-⟩)
        · rw [hk.unique h]
          rfl
        · exact absurd h (hno i)
    | some f =>
      have hf : Standing cs cs.length f := hfallback
      have hsome : choose R cs ⟨some k,some f⟩ ≠ none := by
        simp only [choose]
        split
        · nofun
        · split <;> nofun
      refine ⟨⟨fun h => absurd h hsome,fun h => absurd hk.live (h k hk.lt)⟩,fun i => ?_⟩
      rw [choose_both]
      constructor
      · rintro (⟨rfl,hall⟩ | ⟨rfl,hne,hc⟩)
        · exact .inl ⟨hk,fun g hg => hf.unique hg ▸ hall⟩
        · exact .inr ⟨hf,k,hk,hne,hc⟩
      · rintro (⟨h,hall⟩ | ⟨h,j,hj,hne,hc⟩)
        · exact .inl ⟨hk.unique h,hall f hf⟩
        · obtain rfl := hk.unique hj
          exact .inr ⟨hf.unique h,hne,hc⟩

theorem kMargin_nonneg [IsStrictOrderedRing F] : 0 ≤ kMargin R := R.round_nonneg (by norm_num)

theorem required_nonneg [IsStrictOrderedRing F] (winner standing : Candidate F) :
    0 ≤ required R winner standing := (kMargin_nonneg R).trans (le_max_left _ _)

theorem clears_false [IsStrictOrderedRing F] {winner standing : Candidate F}
    (hw : 0 ≤ winner.score) (hs : 0 ≤ standing.score) (h : clears R winner standing = false) :
    winner.score*(1-R.unit)^2 ≤ standing.score*(1-R.unit+required R winner standing) := by
  have hunit : 0 ≤ 1-R.unit := sub_nonneg.mpr R.unit_lt.le
  unfold clears at h
  split at h
  · rename_i hzero
    have hscore : winner.score ≤ 0 := by simpa using h
    rw [le_antisymm hscore hw,hzero]
    simp
  · rename_i hzero
    have hpos : 0 < standing.score := lt_of_le_of_ne hs (Ne.symm hzero)
    have hgain := R.mul_le_of_round_le (required_nonneg R winner standing)
      (not_lt.mp (of_decide_eq_false h))
    have hquotient := mul_le_mul_of_nonneg_right (R.le_round (div_nonneg hw hs)) hunit
    calc winner.score*(1-R.unit)^2
        = standing.score*(winner.score/standing.score*(1-R.unit)*(1-R.unit)) := by
          rw [← mul_assoc,← mul_assoc,mul_div_cancel₀ _ hzero,sq,mul_assoc]
      _ ≤ standing.score*(1-R.unit+required R winner standing) :=
          mul_le_mul_of_nonneg_left (by linarith) hs

/-- A default that did not fail is never given up for less, and whatever is picked is within the
margin, or within what the rounds spread, of the best, up to the rounding of a quotient and a
difference. -/
theorem pick_close [IsStrictOrderedRing F] (h : pick R cs = some i) :
    (∀ f, Standing cs cs.length f → (candidateAt cs f).score ≤ (candidateAt cs i).score) ∧
    ∃ k, Best cs cs.length k ∧ (candidateAt cs k).score*(1-R.unit)^2 ≤
      (candidateAt cs i).score*(1-R.unit+required R (candidateAt cs k) (candidateAt cs i)) := by
  obtain ⟨hbest,-⟩ | ⟨hstanding,k,hk,-,hc⟩ := ((pick_iff R cs).2 i).mp h
  · refine ⟨fun f hf => hbest.most f hf.lt hf.live,i,hbest,?_⟩
    have hrequired := required_nonneg R (candidateAt cs i) (candidateAt cs i)
    have hunit : (1-R.unit)^2 ≤ 1-R.unit :=
      pow_le_of_le_one (sub_nonneg.mpr R.unit_lt.le) (sub_le_self 1 R.unit_nonneg) two_ne_zero
    exact mul_le_mul_of_nonneg_left (by linarith) hbest.live
  · exact ⟨fun f hf => by rw [hf.unique hstanding],k,hk,clears_false R hk.live hstanding.live hc⟩

/-- Two hundredths more is past a margin of two hundredths, by the rounding. -/
example : pick binary64 [⟨[100,100,100],true⟩,⟨[102,102,102],false⟩] = some 1 ∧
    pick Rounder.exact [⟨[(100 : ℚ),100,100],true⟩,⟨[102,102,102],false⟩] = some 0 := by
  decide +kernel

/-! ### The two races -/

inductive Mark (F : Type*) where
  | warmUp (rate : F)
  | round (rate : F)
  | unbuilt

namespace Mark

def rates : Mark F → List F
  | warmUp rate => if rate < 0 then [-1] else []
  | round rate => [rate]
  | unbuilt => [-1]

def failed : Mark F → Bool
  | warmUp rate => decide (rate < 0)
  | round rate => decide (rate < 0)
  | unbuilt => true

def isRound : Mark F → Bool
  | round _ => true
  | _ => false

end Mark

/-- `log` is history: what was put down, and of which candidate. -/
structure Race (F κ : Type*) where
  candidates : List (Candidate F)
  kernels : List κ
  nonce : UInt64
  log : List (Nat × Mark F)

/-- What a burst of so many seconds measures on a kernel, from a nonce on, when that many marks are
down: the rate, the kernel as it is then, and the nonce to go on from. -/
abbrev Bursts (F κ : Type*) := F → Nat → κ → UInt64 → F × κ × UInt64

namespace Race

variable {κ : Type*} (burst : Bursts F κ) (rebuild : Nat → Nat → Option κ)

def mark (i : Nat) (m : Mark F) (r : Race F κ) : Race F κ :=
  { r with
    candidates := r.candidates.modify i fun c => { c with rate := c.rate ++ m.rates }
    log := r.log ++ [(i,m)] }

def run (seconds : F) (put : F → Mark F) (r : Race F κ) (i : Nat) : Race F κ :=
  match r.kernels[i]? with
  | none => r
  | some k =>
    let (rate,k,nonce) := burst seconds r.log.length k r.nonce
    mark i (put rate) { r with kernels := r.kernels.set i k, nonce := nonce }

def order (n round : Nat) : List Nat :=
  if round%2 = 1 then (List.range n).reverse else List.range n

def warmUps (r : Race F κ) : Race F κ :=
  (order r.candidates.length 0).foldl (run burst kWarmupSeconds .warmUp) r

def rounds (r : Race F κ) : Race F κ :=
  (List.range kRounds).foldl
    (fun r round => (order r.candidates.length round).foldl (run burst kRoundSeconds .round) r) r

/-- `race`, up to the pick. -/
def together (r : Race F κ) : Race F κ := rounds burst (warmUps burst r)

def runOn (seconds : F) (put : F → Mark F) (i : Nat) (r : Race F κ × κ) : Race F κ × κ :=
  let (rate,k,nonce) := burst seconds r.1.log.length r.2 r.1.nonce
  (mark i (put rate) { r.1 with nonce := nonce },k)

/-- A candidate on its own, unless it has failed before. -/
def runAlone (r : Race F κ) (i : Nat) : Race F κ :=
  if (candidateAt r.candidates i).score < 0 ∧ (candidateAt r.candidates i).rate ≠ [] then r
  else
    match rebuild i r.log.length with
    | none => mark i .unbuilt r
    | some k =>
      ((List.range kRounds).foldl (fun r _ => runOn burst kRoundSeconds .round i r)
        (runOn burst kWarmupSeconds .warmUp i (r,k))).1

/-- `race_alone`, up to the pick. -/
def alone (r : Race F κ) : Race F κ :=
  (List.range 2).foldl
    (fun r pass => (order r.candidates.length pass).foldl (runAlone burst rebuild) r) r

variable {n i j : Nat} {r : Race F κ} {m : Mark F}

def marks (r : Race F κ) (i : Nat) : List (Mark F) :=
  (r.log.filter fun e => e.1 == i).map Prod.snd

/-- What is known of every candidate is what was put down of it. -/
structure Kept (n : Nat) (r : Race F κ) : Prop where
  candidates : r.candidates.length = n
  rates : ∀ i < n, (candidateAt r.candidates i).rate = (r.marks i).flatMap Mark.rates

@[simp] theorem marks_mark_self (i : Nat) (m : Mark F) (r : Race F κ) :
    (r.mark i m).marks i = r.marks i ++ [m] := by simp [marks,mark]

theorem marks_mark_ne (h : i ≠ j) (m : Mark F) (r : Race F κ) :
    (r.mark i m).marks j = r.marks j := by simp [marks,mark,h]

theorem Kept.mark (h : r.Kept n) (i : Nat) (m : Mark F) : (r.mark i m).Kept n := by
  refine ⟨by simp [Race.mark,h.candidates],fun j hj => ?_⟩
  have hlt : j < r.candidates.length := by rw [h.candidates]; exact hj
  have hat : (candidateAt (r.mark i m).candidates j).rate =
      if i = j then (candidateAt r.candidates j).rate ++ m.rates
      else (candidateAt r.candidates j).rate := by
    simp only [Race.mark,candidateAt,List.getD_eq_getElem?_getD,List.getElem?_modify,
      List.getElem?_eq_getElem hlt,Option.getD_some]
    split <;> rfl
  rw [hat]
  split
  · rename_i he
    obtain rfl := he
    rw [marks_mark_self,h.rates i hj]
    simp
  · rename_i hne
    rw [marks_mark_ne hne,h.rates j hj]

theorem rates_nonneg [IsStrictOrderedRing F] (ms : List (Mark F)) :
    (∀ rate ∈ ms.flatMap Mark.rates, 0 ≤ rate) ↔ ∀ m ∈ ms, m.failed = false := by
  rw [List.forall_mem_flatMap]
  refine forall₂_congr fun m _ => ?_
  cases m with
  | warmUp rate =>
    by_cases h : rate < 0
    · simp [Mark.rates,Mark.failed,h]
    · simp [Mark.rates,Mark.failed,h]
  | round rate => simp [Mark.rates,Mark.failed]
  | unbuilt => simp [Mark.rates,Mark.failed]

theorem rates_length {ms : List (Mark F)} (h : ∀ m ∈ ms, m.failed = false) :
    (ms.flatMap Mark.rates).length = ms.countP Mark.isRound := by
  induction ms with
  | nil => rfl
  | cons m ms ih =>
    rw [List.flatMap_cons,List.length_append,ih fun m hm => h m (.tail _ hm),List.countP_cons]
    have hm := h m (.head _)
    cases m with
    | warmUp rate =>
      have hr : ¬rate < 0 := by simpa [Mark.failed] using hm
      simp [Mark.rates,Mark.isRound,hr]
    | round rate => simp [Mark.rates,Mark.isRound,Nat.add_comm]
    | unbuilt => cases hm

theorem Kept.live_iff [IsStrictOrderedRing F] (h : r.Kept n) (hi : i < n)
    (hrounds : (∀ m ∈ r.marks i, m.failed = false) → 0 < (r.marks i).countP Mark.isRound) :
    Live r.candidates i ↔ ∀ m ∈ r.marks i, m.failed = false := by
  rw [Live,Candidate.score_nonneg_iff,h.rates i hi,rates_nonneg]
  constructor
  · exact fun hl => hl.2
  · intro hm
    refine ⟨fun hnil => ?_,hm⟩
    have hl := rates_length hm
    rw [hnil,List.length_nil] at hl
    have := hrounds hm
    omega

theorem Kept.failed_iff [IsStrictOrderedRing F] (h : r.Kept n) (hi : i < n) :
    (candidateAt r.candidates i).score < 0 ∧ (candidateAt r.candidates i).rate ≠ [] ↔
      ∃ m ∈ r.marks i, m.failed = true := by
  have hall := rates_nonneg (r.marks i)
  rw [← h.rates i hi] at hall
  have hex : (∃ m ∈ r.marks i, m.failed = true) ↔
      ¬∀ rate ∈ (candidateAt r.candidates i).rate, 0 ≤ rate := by
    rw [hall]
    simp
  rw [hex,← not_le,Candidate.score_nonneg_iff]
  constructor
  · rintro ⟨hscore,hrate⟩ hnonneg
    exact hscore ⟨hrate,hnonneg⟩
  · intro hneg
    refine ⟨fun hscore => hneg hscore.2,fun hnil => hneg ?_⟩
    simp [hnil]

/-- A race of which nothing is known yet. -/
structure Fresh (n : Nat) (r : Race F κ) : Prop where
  candidates : r.candidates.length = n
  rates : ∀ i < n, (candidateAt r.candidates i).rate = []
  log : r.log = []

theorem Fresh.kept (h : r.Fresh n) : r.Kept n :=
  ⟨h.candidates,fun i hi => by simp [h.rates i hi,marks,h.log]⟩

omit [Field F] [LinearOrder F] in
theorem Fresh.marks (h : r.Fresh n) (i : Nat) : r.marks i = [] := by simp [Race.marks,h.log]

theorem order_nodup (n round : Nat) : (order n round).Nodup := by
  unfold order
  split
  · exact List.nodup_reverse.mpr List.nodup_range
  · exact List.nodup_range

@[simp] theorem mem_order {round : Nat} : i ∈ order n round ↔ i < n := by
  unfold order
  split
  · simp
  · simp

/-- From one to the other, that much was put down of `i`, and nothing of the others. -/
structure Adds (n i : Nat) (ms : List (Mark F)) (r r' : Race F κ) : Prop where
  kept : r'.Kept n
  self : r'.marks i = r.marks i ++ ms
  other : ∀ j, i ≠ j → r'.marks j = r.marks j

theorem Adds.none (h : r.Kept n) : Adds n i [] r r := ⟨h,by simp,fun _ _ => rfl⟩

theorem Adds.trans {r₁ r₂ : Race F κ} {ms₁ ms₂ : List (Mark F)} (h₁ : Adds n i ms₁ r r₁)
    (h₂ : Adds n i ms₂ r₁ r₂) : Adds n i (ms₁ ++ ms₂) r r₂ :=
  ⟨h₂.kept,by rw [h₂.self,h₁.self,List.append_assoc],fun j hj => (h₂.other j hj).trans (h₁.other j hj)⟩

theorem Kept.adds (h : r.Kept n) (i : Nat) (m : Mark F) (ks : List κ) (nonce : UInt64) :
    Adds n i [m] r (Race.mark i m { r with kernels := ks, nonce := nonce }) := by
  have hk : Kept n { r with kernels := ks, nonce := nonce } := ⟨h.candidates,h.rates⟩
  exact ⟨hk.mark i m,marks_mark_self i m _,fun j hj => marks_mark_ne hj m _⟩

/-- What each of its steps puts down of one candidate, a walk puts down of every one. `Q` says what
that is, from what was down of it before. -/
theorem walk_marks {step : Race F κ → Nat → Race F κ} {I : Race F κ → Prop}
    {Q : List (Mark F) → List (Mark F) → Prop}
    (hstep : ∀ r i, i < n → r.Kept n → I r →
      I (step r i) ∧ ∃ ms, Q (r.marks i) ms ∧ Adds n i ms r (step r i))
    (is : List Nat) (hnodup : is.Nodup) (his : ∀ i ∈ is, i < n) (h : r.Kept n) (hr : I r) :
    (is.foldl step r).Kept n ∧ I (is.foldl step r) ∧
    (∀ i ∈ is, ∃ ms, Q (r.marks i) ms ∧ (is.foldl step r).marks i = r.marks i ++ ms) ∧
    ∀ i, i ∉ is → (is.foldl step r).marks i = r.marks i := by
  induction is generalizing r with
  | nil => simp [h,hr]
  | cons j is ih =>
    obtain ⟨hj,hnodup⟩ := List.nodup_cons.mp hnodup
    obtain ⟨hI,ms,hq,hadds⟩ := hstep r j (his j (.head _)) h hr
    obtain ⟨hkept,hI,hin,hout⟩ := ih hnodup (fun i hi => his i (.tail _ hi)) hadds.kept hI
    rw [List.foldl_cons]
    refine ⟨hkept,hI,fun i hi => ?_,fun i hi => ?_⟩
    · obtain rfl | hi := List.mem_cons.mp hi
      · exact ⟨ms,hq,by rw [hout i hj,hadds.self]⟩
      · have hne : j ≠ i := fun he => hj (he ▸ hi)
        have hin := hin i hi
        rwa [hadds.other i hne] at hin
    · rw [List.mem_cons,not_or] at hi
      rw [hout i hi.2,hadds.other i (Ne.symm hi.1)]

theorem order_marks {step : Race F κ → Nat → Race F κ} {I : Race F κ → Prop}
    {Q : List (Mark F) → List (Mark F) → Prop}
    (hstep : ∀ r i, i < n → r.Kept n → I r →
      I (step r i) ∧ ∃ ms, Q (r.marks i) ms ∧ Adds n i ms r (step r i))
    (round : Nat) (h : r.Kept n) (hr : I r) :
    ((order r.candidates.length round).foldl step r).Kept n ∧
    I ((order r.candidates.length round).foldl step r) ∧
    ∀ i < n, ∃ ms, Q (r.marks i) ms ∧
      ((order r.candidates.length round).foldl step r).marks i = r.marks i ++ ms := by
  rw [h.candidates]
  obtain ⟨hkept,hI,hin,-⟩ :=
    walk_marks hstep (order n round) (order_nodup n round) (fun i => mem_order.mp) h hr
  exact ⟨hkept,hI,fun i hi => hin i (mem_order.mpr hi)⟩

def Whole (ms : List (Mark F)) : Prop :=
  ∃ w x y z, ms = [.warmUp w,.round x,.round y,.round z]

def Once (put : F → Mark F) (_ ms : List (Mark F)) : Prop := ∃ rate, ms = [put rate]

theorem run_adds (seconds : F) (put : F → Mark F) (r : Race F κ) (i : Nat) (hi : i < n) (h : r.Kept n)
    (hk : r.kernels.length = n) : (run burst seconds put r i).kernels.length = n ∧
      ∃ ms, Once put (r.marks i) ms ∧ Adds n i ms r (run burst seconds put r i) := by
  rw [run,List.getElem?_eq_getElem (hk ▸ hi)]
  refine ⟨by simp [mark,hk],_,⟨_,rfl⟩,h.adds i _ _ _⟩

/-- Raced against each other, every candidate is warmed up once and measured three times, whatever
became of it. -/
theorem together_marks (h : r.Fresh n) (hk : r.kernels.length = n) :
    (together burst r).Kept n ∧ ∀ i < n, Whole ((together burst r).marks i) := by
  have hrange : List.range kRounds = [0,1,2] := rfl
  simp only [together,rounds,warmUps,hrange,List.foldl_cons,List.foldl_nil]
  obtain ⟨hkept,hlength,hwarm⟩ := order_marks (I := fun r => r.kernels.length = n)
    (run_adds burst _ .warmUp) 0 h.kept hk
  obtain ⟨hkept,hlength,hfirst⟩ := order_marks (I := fun r => r.kernels.length = n)
    (run_adds burst _ .round) 0 hkept hlength
  obtain ⟨hkept,hlength,hsecond⟩ := order_marks (I := fun r => r.kernels.length = n)
    (run_adds burst _ .round) 1 hkept hlength
  obtain ⟨hkept,-,hthird⟩ := order_marks (I := fun r => r.kernels.length = n)
    (run_adds burst _ .round) 2 hkept hlength
  refine ⟨hkept,fun i hi => ?_⟩
  obtain ⟨_,⟨w,rfl⟩,hw⟩ := hwarm i hi
  obtain ⟨_,⟨x,rfl⟩,hx⟩ := hfirst i hi
  obtain ⟨_,⟨y,rfl⟩,hy⟩ := hsecond i hi
  obtain ⟨_,⟨z,rfl⟩,hz⟩ := hthird i hi
  rw [h.marks i,List.nil_append] at hw
  rw [hw] at hx
  rw [hx] at hy
  rw [hy] at hz
  exact ⟨w,x,y,z,hz⟩

theorem runOn_adds (seconds : F) (put : F → Mark F) (i : Nat) (s : Race F κ × κ) (h : s.1.Kept n) :
    ∃ rate, Adds n i [put rate] s.1 (runOn burst seconds put i s).1 :=
  ⟨_,h.adds i _ s.1.kernels _⟩

/-- What a turn of its own puts down of a candidate. -/
inductive Turn (old : List (Mark F)) : List (Mark F) → Prop where
  | skipped : (∃ m ∈ old, m.failed = true) → Turn old []
  | unbuilt : (∀ m ∈ old, m.failed = false) → Turn old [.unbuilt]
  | raced {ms : List (Mark F)} : (∀ m ∈ old, m.failed = false) → Whole ms → Turn old ms

theorem runAlone_adds [IsStrictOrderedRing F] (r : Race F κ) (i : Nat) (hi : i < n)
    (h : r.Kept n) (_ : True) :
    True ∧ ∃ ms, Turn (r.marks i) ms ∧ Adds n i ms r (runAlone burst rebuild r i) := by
  refine ⟨trivial,?_⟩
  rw [runAlone]
  split
  · rename_i hfailed
    exact ⟨[],.skipped ((h.failed_iff hi).mp hfailed),.none h⟩
  · rename_i hfine
    have hclean : ∀ m ∈ r.marks i, m.failed = false := by
      intro m hm
      by_contra hf
      exact hfine ((h.failed_iff hi).mpr ⟨m,hm,by simpa using hf⟩)
    cases rebuild i r.log.length with
    | none => exact ⟨_,.unbuilt hclean,h.adds i _ r.kernels r.nonce⟩
    | some k =>
      obtain ⟨w,hw⟩ := runOn_adds burst kWarmupSeconds .warmUp i (r,k) h
      obtain ⟨x,hx⟩ := runOn_adds burst kRoundSeconds .round i _ hw.kept
      obtain ⟨y,hy⟩ := runOn_adds burst kRoundSeconds .round i _ hx.kept
      obtain ⟨z,hz⟩ := runOn_adds burst kRoundSeconds .round i _ hy.kept
      exact ⟨_,.raced hclean ⟨w,x,y,z,rfl⟩,((hw.trans hx).trans hy).trans hz⟩

/-- Raced alone, a candidate that cannot be built or fails the first time is not built again, and any
other has its rounds once more, if it can be built once more. -/
theorem alone_marks [IsStrictOrderedRing F] (h : r.Fresh n) :
    (alone burst rebuild r).Kept n ∧ ∀ i < n, ∃ first second,
      Turn [] first ∧ Turn first second ∧ (alone burst rebuild r).marks i = first ++ second := by
  obtain ⟨hkept,-,hforth⟩ := order_marks (I := fun _ => True) (runAlone_adds burst rebuild) 0 h.kept
    trivial
  obtain ⟨hkept,-,hback⟩ := order_marks (I := fun _ => True) (runAlone_adds burst rebuild) 1 hkept
    trivial
  refine ⟨hkept,fun i hi => ?_⟩
  obtain ⟨first,hfirst,hf⟩ := hforth i hi
  obtain ⟨second,hsecond,hs⟩ := hback i hi
  rw [h.marks i] at hfirst
  rw [h.marks i,List.nil_append] at hf
  rw [hf] at hsecond hs
  exact ⟨first,second,hfirst,hsecond,hs⟩

/-- What is said of the candidate that is picked, where those of which nothing failed have that many
rounds. -/
structure Picked (R : Rounder F) (rounds n : Nat) (r : Race F κ) (i : Nat) : Prop where
  lt : i < n
  clean : ∀ m ∈ r.marks i, m.failed = false
  length : (candidateAt r.candidates i).rate.length = rounds
  middle : (candidateAt r.candidates i).score ∈ (candidateAt r.candidates i).rate
  below : (candidateAt r.candidates i).rate.countP (· < (candidateAt r.candidates i).score) ≤ rounds/2
  above : (candidateAt r.candidates i).rate.countP ((candidateAt r.candidates i).score < ·) <
    rounds-rounds/2
  default : (candidateAt r.candidates i).isDefault = true ∨ Best r.candidates n i
  cleared : ∀ f, Standing r.candidates n f →
    f = i ∨ clears R (candidateAt r.candidates i) (candidateAt r.candidates f) = true
  close : ∃ k < n, (∀ j < n, (∀ m ∈ r.marks j, m.failed = false) →
      (candidateAt r.candidates j).score ≤ (candidateAt r.candidates k).score) ∧
    (candidateAt r.candidates k).score*(1-R.unit)^2 ≤ (candidateAt r.candidates i).score*
      (1-R.unit+required R (candidateAt r.candidates k) (candidateAt r.candidates i))

theorem Kept.picks [IsStrictOrderedRing F] {rounds : Nat} (h : r.Kept n) (hpos : 0 < rounds)
    (hrounds : ∀ i < n, (∀ m ∈ r.marks i, m.failed = false) →
      (r.marks i).countP Mark.isRound = rounds) :
    (pick R r.candidates = none ↔ ∀ i < n, ∃ m ∈ r.marks i, m.failed = true) ∧
    ∀ i, pick R r.candidates = some i → Picked R rounds n r i := by
  have hlive : ∀ i < n, (Live r.candidates i ↔ ∀ m ∈ r.marks i, m.failed = false) :=
    fun i hi => h.live_iff hi fun hm => hrounds i hi hm ▸ hpos
  have hlength := h.candidates
  constructor
  · rw [(pick_iff R r.candidates).1,hlength]
    refine forall₂_congr fun i hi => ?_
    rw [hlive i hi]
    simp
  · intro i hp
    have hbounds : i < n ∧ Live r.candidates i := by
      obtain ⟨hbest,-⟩ | ⟨hstanding,-⟩ := ((pick_iff R r.candidates).2 i).mp hp
      · exact ⟨hlength ▸ hbest.lt,hbest.live⟩
      · exact ⟨hlength ▸ hstanding.lt,hstanding.live⟩
    obtain ⟨hi,hl⟩ := hbounds
    have hclean := (hlive i hi).mp hl
    have hrate : (candidateAt r.candidates i).rate.length = rounds := by
      rw [h.rates i hi,rates_length hclean,hrounds i hi hclean]
    obtain ⟨hmiddle,hbelow,habove⟩ := Candidate.score_middle _ hl
    rw [hrate] at hbelow habove
    have hdefault : (candidateAt r.candidates i).isDefault = true ∨ Best r.candidates n i := by
      obtain ⟨hbest,-⟩ | ⟨hstanding,-⟩ := ((pick_iff R r.candidates).2 i).mp hp
      · exact .inr (hlength ▸ hbest)
      · exact .inl hstanding.default
    have hover : ∀ f, Standing r.candidates n f →
        f = i ∨ clears R (candidateAt r.candidates i) (candidateAt r.candidates f) = true := by
      rw [← hlength]
      intro f hf
      obtain ⟨-,hall⟩ | ⟨hstanding,-⟩ := ((pick_iff R r.candidates).2 i).mp hp
      · exact hall f hf
      · exact .inl (hf.unique hstanding)
    obtain ⟨-,k,hk,hclose⟩ := pick_close R hp
    refine ⟨hi,hclean,hrate,hmiddle,hbelow,habove,hdefault,hover,k,hlength ▸ hk.lt,
      fun j hj hjc => ?_,hclose⟩
    exact hk.most j (hlength.symm ▸ hj) ((hlive j hj).mpr hjc)

omit [Field F] [LinearOrder F] in
theorem Whole.rounds {ms : List (Mark F)} (h : Whole ms) : ms.countP Mark.isRound = 3 := by
  obtain ⟨w,x,y,z,rfl⟩ := h
  rfl

theorem Turn.rounds {old ms : List (Mark F)} (h : Turn old ms)
    (ho : ∀ m ∈ old, m.failed = false) (hm : ∀ m ∈ ms, m.failed = false) :
    ms.countP Mark.isRound = 3 := by
  cases h with
  | skipped hf =>
    obtain ⟨m,hmem,hf⟩ := hf
    rw [ho m hmem] at hf
    cases hf
  | unbuilt => exact absurd (hm .unbuilt (.head _)) (by simp [Mark.failed])
  | raced _ hw => exact hw.rounds

/-- The candidates raced against each other: each has one warm-up and three rounds, and none is
picked if something failed of each; and the one that is picked has not failed once, the middle of
its three rounds is its score, and no other that has not failed is ahead of it by more than the
margin, or than the rounds of the two spread. -/
theorem together_picks [IsStrictOrderedRing F] (h : r.Fresh n) (hk : r.kernels.length = n) :
    (∀ i < n, Whole ((together burst r).marks i)) ∧
    (pick R (together burst r).candidates = none ↔
      ∀ i < n, ∃ m ∈ (together burst r).marks i, m.failed = true) ∧
    ∀ i, pick R (together burst r).candidates = some i → Picked R 3 n (together burst r) i := by
  obtain ⟨hkept,hwhole⟩ := together_marks burst h hk
  exact ⟨hwhole,hkept.picks R (by decide) fun i hi _ => (hwhole i hi).rounds⟩

/-- And the candidates raced alone: one that failed is not built again, and the one that is picked
has been built twice, and has six rounds. -/
theorem alone_picks [IsStrictOrderedRing F] (h : r.Fresh n) :
    (∀ i < n, ∃ first second, Turn [] first ∧ Turn first second ∧
      (alone burst rebuild r).marks i = first ++ second) ∧
    (pick R (alone burst rebuild r).candidates = none ↔
      ∀ i < n, ∃ m ∈ (alone burst rebuild r).marks i, m.failed = true) ∧
    ∀ i, pick R (alone burst rebuild r).candidates = some i →
      Picked R 6 n (alone burst rebuild r) i := by
  obtain ⟨hkept,hturns⟩ := alone_marks burst rebuild h
  refine ⟨hturns,hkept.picks R (by decide) fun i hi hclean => ?_⟩
  obtain ⟨first,second,hfirst,hsecond,hmarks⟩ := hturns i hi
  rw [hmarks] at hclean ⊢
  obtain ⟨hf,hs⟩ := List.forall_mem_append.mp hclean
  rw [List.countP_append,hfirst.rounds nofun hf,hsecond.rounds hf hs]

def plainRace : Race ℚ ℚ :=
  ⟨[⟨[],true⟩,⟨[],false⟩],[10,11],0,[]⟩

def plainBurst (failing : Nat) : Bursts ℚ ℚ := fun _ t k nonce =>
  (if t = failing then -1 else k,k,nonce+1)

theorem plain_fresh : plainRace.Fresh 2 := by
  refine ⟨rfl,fun i hi => ?_,rfl⟩
  obtain rfl | rfl : i = 0 ∨ i = 1 := by omega
  · rfl
  · rfl

/-- The first fails a round. -/
theorem together_picks_run : Picked binary64 3 2 (together (plainBurst 2) plainRace) 1 :=
  (together_picks binary64 (plainBurst 2) plain_fresh rfl).2.2 1 (by decide +kernel)

/-- The first fails to be built. -/
theorem alone_picks_run :
    Picked binary64 6 2 (alone (plainBurst 0) (fun i _ => if i = 0 then none else some 11) plainRace) 1 :=
  (alone_picks binary64 (plainBurst 0) _ plain_fresh).2.2 1 (by decide +kernel)

end Race

end VkMiner.Scheduler.Tuner
