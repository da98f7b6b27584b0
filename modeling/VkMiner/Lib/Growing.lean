import Mathlib.Data.List.Infix
set_option autoImplicit false

/-! A buffer that grows by reads and is judged after each of them, until there is a verdict. -/

namespace Growing

variable {α β : Type*}

/-- `full` is the verdict on a buffer with no room left, and `starved` that on one that nothing
more comes for. An empty read is the end. -/
def run (judge : List α → Option β) (cap : Nat) (full starved : β) :
    List (List α) → List α → β
  | [],buf => if cap ≤ buf.length then full else starved
  | r :: reads,buf =>
    if cap ≤ buf.length then full
    else if r.isEmpty then starved
    else
      match judge (buf ++ r.take (cap - buf.length)) with
      | some b => b
      | none => run judge cap full starved reads (buf ++ r.take (cap - buf.length))

def whole (judge : List α → Option β) (cap : Nat) (full starved : β) (all : List α) : β :=
  (judge all).getD (if cap ≤ all.length then full else starved)

/-- What has to be known of where a read may end: that a verdict reached there is the whole's
exactly where the end is `good`, and that later ends do not matter any more. -/
structure Ends (judge : List α → Option β) (verdict : β) (all : List α) (good : Nat → Prop) :
    Prop where
  more : ∀ u, u <+: all → judge u = none → good u.length
  here : ∀ u b, u <+: all → judge u = some b → (b = verdict ↔ good u.length)
  later : ∀ u b n, u <+: all → judge u = some b → good u.length → u.length ≤ n → good n
  past : ∀ n, all.length ≤ n → good n

variable {judge : List α → Option β} {cap : Nat} {full starved : β} {all buf : List α}
  {reads : List (List α)} {good : Nat → Prop}

theorem take_append_room (h : buf.length ≤ cap) (l : List α) :
    (buf ++ l).take cap = buf ++ l.take (cap - buf.length) := by
  rw [List.take_append,List.take_of_length_le h]

theorem whole_none (hj : judge all = none) :
    whole judge cap full starved all = if cap ≤ all.length then full else starved := by
  rw [whole,hj,Option.getD_none]

/-- Reads lead to the verdict on the whole exactly where each ends at a good place. The induction
is on the reads; up to each of them there was no verdict. -/
theorem run_iff (he : Ends judge (whole judge cap full starved all) all good)
    (hne : ∀ r ∈ reads, r ≠ []) (hall : (buf ++ reads.flatten).take cap = all)
    (hb : buf.length ≤ cap) (hj : judge buf = none) :
    run judge cap full starved reads buf = whole judge cap full starved all ↔
      ∀ pre, pre <+: reads → good (buf.length + pre.flatten.length) := by
  induction reads generalizing buf with
  | nil =>
    obtain rfl : buf = all := by simpa [List.take_of_length_le hb] using hall
    rw [whole_none hj]
    refine ⟨fun _ pre hp => ?_,fun _ => rfl⟩
    obtain rfl := List.prefix_nil.mp hp
    exact he.more buf (List.prefix_refl _) hj
  | cons r reads ih =>
    have hr : r ≠ [] := hne r List.mem_cons_self
    have hhead : good buf.length := by
      refine he.more buf ?_ hj
      rw [← hall,take_append_room hb]
      exact List.prefix_append _ _
    simp only [run]
    by_cases hc : cap ≤ buf.length
    · obtain rfl : buf = all := by
        rw [take_append_room hb,Nat.sub_eq_zero_of_le hc] at hall
        simpa using hall
      rw [if_pos hc,whole_none hj,if_pos hc]
      exact ⟨fun _ pre _ => he.past _ (Nat.le_add_right _ _),fun _ => rfl⟩
    have hempty : r.isEmpty = false := by simpa using hr
    simp only [hc,hempty,if_false,Bool.false_eq_true]
    generalize hu : buf ++ r.take (cap - buf.length) = u
    have hulen : u.length ≤ cap := by
      rw [← hu]
      simp only [List.length_append,List.length_take]
      omega
    have huall : (u ++ reads.flatten).take cap = all := by
      rw [← hall,take_append_room hulen,take_append_room hb,← hu,List.flatten_cons,
        List.take_append,List.append_assoc]
      congr 3
      simp only [List.length_append,List.length_take]
      omega
    have hpre : u <+: all := by
      rw [← huall,take_append_room hulen]
      exact List.prefix_append _ _
    -- a read that was cut short filled the buffer, and then no later end matters
    have hends : (∀ pre, pre <+: r :: reads → good (buf.length + pre.flatten.length)) ↔
        ∀ pre, pre <+: reads → good (u.length + pre.flatten.length) := by
      by_cases hcut : cap - buf.length < r.length
      · have huc : all.length ≤ u.length := by
          rw [← huall,← hu]
          simp only [List.length_append,List.length_take]
          omega
        refine ⟨fun _ pre _ => he.past _ (by omega),fun _ pre hp => ?_⟩
        obtain rfl | ⟨pre,rfl,-⟩ := List.prefix_cons_iff.mp hp
        · exact hhead
        · refine he.past _ ?_
          have : u.length ≤ cap := hulen
          rw [List.flatten_cons,List.length_append]
          omega
      · have hul : u.length = buf.length + r.length := by
          rw [← hu]
          simp only [List.length_append,List.length_take]
          omega
        constructor
        · intro h pre hp
          have := h (r :: pre) (List.cons_prefix_cons.mpr ⟨rfl,hp⟩)
          rwa [List.flatten_cons,List.length_append,← Nat.add_assoc,← hul] at this
        · intro h pre hp
          obtain rfl | ⟨pre,rfl,hq⟩ := List.prefix_cons_iff.mp hp
          · exact hhead
          · rw [List.flatten_cons,List.length_append,← Nat.add_assoc,← hul]
            exact h pre hq
    rw [hends]
    cases hv : judge u with
    | none => exact ih (fun r hm => hne r (List.mem_cons_of_mem _ hm)) huall hulen hv
    | some b =>
      rw [he.here u b hpre hv]
      constructor
      · intro hg pre _
        exact he.later u b _ hpre hv hg (Nat.le_add_right _ _)
      · intro h
        exact h [] (List.nil_prefix)

theorem run_single (he : Ends judge (whole judge cap full starved all) all good) {l : List α}
    (hall : l.take cap = all) (hj : judge [] = none) :
    run judge cap full starved [l] [] = whole judge cap full starved all := by
  by_cases hl : l = []
  · subst hl
    obtain rfl : [] = all := by simpa using hall
    rw [whole_none hj]
    simp only [run,List.isEmpty_nil,if_true]
  · refine (run_iff he (by simpa using hl) (by simpa using hall) (Nat.zero_le _) hj).mpr ?_
    intro pre hp
    obtain rfl | ⟨pre,rfl,hq⟩ := List.prefix_cons_iff.mp hp
    · exact he.more [] (List.nil_prefix) hj
    · obtain rfl := List.prefix_nil.mp hq
      refine he.past _ ?_
      rw [← hall]
      simp only [List.length_take,List.flatten_cons,List.flatten_nil,List.append_nil,
        List.length_nil]
      omega

theorem run_full (h : cap ≤ buf.length) : run judge cap full starved reads buf = full := by
  cases reads with
  | nil => rw [run,if_pos h]
  | cons r reads => rw [run,if_pos h]

theorem run_cases (judge : List α → Option β) (cap : Nat) (full starved : β)
    (reads : List (List α)) (buf : List α) :
    run judge cap full starved reads buf = full ∨ run judge cap full starved reads buf = starved ∨
      ∃ u, u <+: buf ++ reads.flatten ∧ judge u = some (run judge cap full starved reads buf) := by
  induction reads generalizing buf with
  | nil =>
    rw [run]
    split
    · exact .inl rfl
    · exact .inr (.inl rfl)
  | cons r reads ih =>
    simp only [run]
    split
    · exact .inl rfl
    split
    · exact .inr (.inl rfl)
    have hpre : buf ++ r.take (cap - buf.length) <+: buf ++ (r :: reads).flatten := by
      rw [List.flatten_cons]
      exact (List.prefix_append_right_inj buf).mpr
        ((List.take_prefix _ r).trans (List.prefix_append r _))
    split
    · rename_i b hb
      exact .inr (.inr ⟨_,hpre,hb⟩)
    · by_cases hcut : r.length ≤ cap - buf.length
      · rw [List.take_of_length_le hcut]
        have := ih (buf ++ r)
        rwa [List.append_assoc,← List.flatten_cons] at this
      · refine .inl (run_full ?_)
        simp only [List.length_append,List.length_take]
        omega

end Growing
