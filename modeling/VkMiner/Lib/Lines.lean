import Mathlib.Data.List.Basic
set_option autoImplicit false

/-! Lists cut at a separator: the segments that it ends, and what follows the last one. -/

namespace Lines

variable {α : Type*}

def consTo (a : α) : List (List α) × List α → List (List α) × List α
  | ([],tail) => ([],a :: tail)
  | (x :: xs,tail) => ((a :: x) :: xs,tail)

def cut [DecidableEq α] (sep : α) : List α → List (List α) × List α
  | [] => ([],[])
  | a :: s => if a = sep then ([] :: (cut sep s).1,(cut sep s).2) else consTo a (cut sep s)

def join (sep : α) (xs : List (List α)) : List α := xs.flatMap (fun x => x ++ [sep])

variable {sep : α}

@[simp] theorem join_nil : join sep [] = [] := rfl

@[simp] theorem join_cons (x : List α) (xs : List (List α)) :
    join sep (x :: xs) = x ++ (sep :: join sep xs) := by
  simp [join]

theorem join_singleton (x : List α) : join sep [x] = x ++ [sep] := by
  simp

theorem join_append (xs ys : List (List α)) : join sep (xs ++ ys) = join sep xs ++ join sep ys := by
  simp [join]

theorem join_replicate (n : Nat) : join sep (List.replicate n []) = List.replicate n sep := by
  induction n with
  | zero => rfl
  | succ n ih => simp [List.replicate_succ,ih]

variable [DecidableEq α]

theorem join_cut (sep : α) (s : List α) :
    join sep (cut sep s).1 ++ (cut sep s).2 = s ∧ (∀ x ∈ (cut sep s).1,sep ∉ x) ∧
      sep ∉ (cut sep s).2 := by
  induction s with
  | nil => simp [cut]
  | cons a s ih =>
    obtain ⟨hj,hx,ht⟩ := ih
    unfold cut
    split
    · next ha =>
      subst ha
      refine ⟨?_,?_,ht⟩
      · simp [hj]
      · simpa using hx
    · next ha =>
      cases hc : cut sep s with
      | mk xs tail =>
        rw [hc] at hj hx ht
        cases xs with
        | nil => simpa [consTo,hc,Ne.symm ha] using ⟨hj,ht⟩
        | cons x xs =>
          simp only [List.mem_cons,forall_eq_or_imp] at hx
          have hs : x ++ sep :: (join sep xs ++ tail) = s := by simpa using hj
          simpa [consTo,Ne.symm ha,hx.1,ht,hs] using hx.2

/-- What `fgets` returns with room for `size` elements, `cur` having been read turned round. -/
def chunks (sep : α) (size : Nat) (cur : List α) : List α → List (List α)
  | [] => if cur = [] then [] else [cur.reverse]
  | a :: s =>
    if a = sep ∨ cur.length+1 = size then (a :: cur).reverse :: chunks sep size [] s
    else chunks sep size (a :: cur) s

def ended (sep : α) (size : Nat) (cur : List α) : List α → List (List α)
  | [] => []
  | a :: s =>
    if a = sep ∨ cur.length+1 = size then (a :: cur).reverse :: ended sep size [] s
    else ended sep size (a :: cur) s

def begun (sep : α) (size : Nat) (cur : List α) : List α → List α
  | [] => cur
  | a :: s =>
    if a = sep ∨ cur.length+1 = size then begun sep size [] s else begun sep size (a :: cur) s

variable {size : Nat} {cur x u e s t : List α}

theorem chunks_append (cur s t : List α) : chunks sep size cur (s ++ t) =
    ended sep size cur s ++ chunks sep size (begun sep size cur s) t := by
  induction s generalizing cur with
  | nil => rfl
  | cons a s ih =>
    rw [List.cons_append,chunks,ended,begun]
    split
    · rw [ih,List.cons_append]
    · rw [ih]

theorem begun_append (cur s t : List α) :
    begun sep size cur (s ++ t) = begun sep size (begun sep size cur s) t := by
  induction s generalizing cur with
  | nil => rfl
  | cons a s ih =>
    rw [List.cons_append,begun,begun]
    split
    · rw [ih]
    · rw [ih]

theorem chunks_line (s : List α) (hx : sep ∉ x) (hl : cur.length+x.length < size) :
    chunks sep size cur (x ++ sep :: s) = (cur.reverse ++ x ++ [sep]) :: chunks sep size [] s := by
  induction x generalizing cur with
  | nil => simp [chunks]
  | cons a x ih =>
    simp only [List.mem_cons,not_or] at hx
    simp only [List.length_cons] at hl
    have hne : ¬(a = sep ∨ cur.length+1 = size) := by
      rintro (h | h)
      · exact hx.1 h.symm
      · omega
    rw [List.cons_append,chunks,if_neg hne,ih hx.2 (by simp only [List.length_cons]; omega)]
    simp

theorem chunks_join {xs : List (List α)} (s : List α) (hx : ∀ x ∈ xs,sep ∉ x)
    (hl : ∀ x ∈ xs,x.length < size) :
    chunks sep size [] (join sep xs ++ s) = xs.map (· ++ [sep]) ++ chunks sep size [] s := by
  induction xs with
  | nil => rfl
  | cons x xs ih =>
    have hlx := hl x (by simp)
    rw [join_cons,List.append_assoc,List.cons_append,chunks_line _ (hx x (by simp)) (by simpa using hlx),
      ih (fun y hy => hx y (by simp [hy])) fun y hy => hl y (by simp [hy])]
    simp

theorem begun_line_end (hx : sep ∉ x) (hl : cur.length+x.length < size) :
    begun sep size cur (x ++ [sep]) = [] := by
  induction x generalizing cur with
  | nil => simp [begun]
  | cons a x ih =>
    simp only [List.mem_cons,not_or] at hx
    simp only [List.length_cons] at hl
    have hne : ¬(a = sep ∨ cur.length+1 = size) := by
      rintro (h | h)
      · exact hx.1 h.symm
      · omega
    rw [List.cons_append,begun,if_neg hne,ih hx.2 (by simp only [List.length_cons]; omega)]

theorem begun_join {xs : List (List α)} (hx : ∀ x ∈ xs,sep ∉ x) (hl : ∀ x ∈ xs,x.length < size) :
    begun sep size [] (join sep xs) = [] := by
  induction xs with
  | nil => rfl
  | cons x xs ih =>
    have hlx := hl x (by simp)
    rw [join_cons,List.append_cons,begun_append,begun_line_end (hx x (by simp)) (by simpa using hlx)]
    exact ih (fun y hy => hx y (by simp [hy])) fun y hy => hl y (by simp [hy])

theorem chunks_torn (hx : sep ∉ x) (hl : cur.length+x.length < size) :
    chunks sep size cur x = if cur.reverse ++ x = [] then [] else [cur.reverse ++ x] := by
  induction x generalizing cur with
  | nil => simp [chunks]
  | cons a x ih =>
    simp only [List.mem_cons,not_or] at hx
    simp only [List.length_cons] at hl
    have hne : ¬(a = sep ∨ cur.length+1 = size) := by
      rintro (h | h)
      · exact hx.1 h.symm
      · omega
    rw [chunks,if_neg hne,ih hx.2 (by simp only [List.length_cons]; omega)]
    simp

def Line (sep : α) (size : Nat) (u : List α) : Prop :=
  ∃ x e,u = x ++ e ∧ sep ∉ x ∧ x.length < size ∧ (e = [] ∨ e = [sep])

omit [DecidableEq α] in
theorem Line.tail {a : α} (h : Line sep size (a :: u)) : Line sep size u := by
  obtain ⟨x,e,hu,hx,hl,he⟩ := h
  cases x with
  | nil =>
    obtain rfl | rfl := he
    · cases hu
    · cases hu
      exact ⟨[],[],rfl,List.not_mem_nil,hl,.inl rfl⟩
  | cons b x =>
    cases hu
    exact ⟨x,e,rfl,fun h => hx (.tail _ h),Nat.lt_of_succ_lt hl,he⟩

theorem chunks_fit (hu : Line sep size u) :
    chunks sep size [] u = if u = [] then [] else [u] := by
  obtain ⟨x,e,rfl,hx,hl,rfl | rfl⟩ := hu
  · rw [List.append_nil,chunks_torn hx (by simpa using hl)]
    rfl
  · rw [chunks_line [] hx (by simpa using hl),if_neg (by simp)]
    rfl

/-- On a piece that is begun, a line is put as far as there is room, and what is left of it is a
piece of its own. -/
theorem chunks_onto (hu : Line sep size u) (hne : cur ≠ []) :
    ∃ k ys,chunks sep size cur u = (cur.reverse ++ u.take k) :: ys ∧
      (ys = [] ∨ 0 < k ∧ ys = [u.drop k]) := by
  induction u generalizing cur with
  | nil => exact ⟨0,[],by simp [chunks,hne],.inl rfl⟩
  | cons a u ih =>
    rw [chunks]
    split
    · refine ⟨1,chunks sep size [] u,by simp,?_⟩
      rw [chunks_fit hu.tail]
      split
      · exact .inl rfl
      · exact .inr ⟨Nat.one_pos,rfl⟩
    · obtain ⟨k,ys,hk,hys⟩ := ih hu.tail (List.cons_ne_nil a cur)
      refine ⟨k+1,ys,by simp [hk],?_⟩
      obtain rfl | ⟨-,rfl⟩ := hys
      · exact .inl rfl
      · exact .inr ⟨Nat.succ_pos k,rfl⟩

end Lines
