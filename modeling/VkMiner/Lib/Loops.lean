import Mathlib.Data.List.Range
set_option autoImplicit false

/-! Counted loops over a state, and the words of an array that they write. -/

namespace Loops
open List

variable {σ τ α : Type} {n m : Nat}

/-- `for (i = 0; i < n; i++)`. -/
def upTo : Nat → σ → (Nat → σ → σ) → σ
  | 0,s,_ => s
  | n + 1,s,f => f n (upTo n s f)

def tryUpTo : Nat → σ → (Nat → σ → Option σ) → Option σ
  | 0,s,_ => some s
  | n + 1,s,f => (tryUpTo n s f).bind (f n)

/-- The places that `for (i = first; i < limit; i += step)` comes to. -/
def strided (first step limit : Nat) : List Nat :=
  range' first ((limit - first + step - 1) / step) step

theorem upTo_congr {f g : Nat → σ → σ} (s : σ) (h : ∀ i < n, ∀ s, f i s = g i s) :
    upTo n s f = upTo n s g := by
  induction n with
  | zero => rfl
  | succ n ih => rw [upTo,upTo,ih fun i hi => h i (Nat.lt_succ_of_lt hi),h n (Nat.lt_succ_self n)]

theorem upTo_add (n m : Nat) (s : σ) (f : Nat → σ → σ) :
    upTo (n + m) s f = upTo m (upTo n s f) fun i => f (n + i) := by
  induction m with
  | zero => rfl
  | succ m ih => rw [← Nat.add_assoc,upTo,upTo,ih]

theorem upTo_rows (n m : Nat) (s : σ) (f : Nat → σ → σ) :
    upTo (n * m) s f = upTo n s fun i s => upTo m s fun j => f (i * m + j) := by
  induction n with
  | zero => rw [Nat.zero_mul]; rfl
  | succ n ih => rw [Nat.succ_mul,upTo_add,ih]; rfl

/-- A map that turns each pass of one loop into a pass of the other turns the one into the
other. -/
theorem upTo_hom {f : Nat → σ → σ} {g : Nat → τ → τ} (φ : σ → τ) (s : σ)
    (h : ∀ i < n, ∀ s, φ (f i s) = g i (φ s)) : φ (upTo n s f) = upTo n (φ s) g := by
  induction n with
  | zero => rfl
  | succ n ih => rw [upTo,upTo,h n (Nat.lt_succ_self n),ih fun i hi => h i (Nat.lt_succ_of_lt hi)]

theorem upTo_idle {f : Nat → σ → σ} (s : σ) (hn : m ≤ n)
    (h : ∀ i < n, m ≤ i → ∀ s, f i s = s) : upTo n s f = upTo m s f := by
  induction n with
  | zero => rw [Nat.le_zero.mp hn]
  | succ n ih =>
    obtain hm | rfl := Nat.lt_or_eq_of_le hn
    · have hm := Nat.le_of_lt_succ hm
      rw [upTo,h n (Nat.lt_succ_self n) hm,ih hm fun i hi => h i (Nat.lt_succ_of_lt hi)]
    · rfl

theorem upTo_invariant {f : Nat → σ → σ} {P : Nat → σ → Prop} {s : σ} (hs : P 0 s)
    (h : ∀ i < n, ∀ s, P i s → P (i + 1) (f i s)) : P n (upTo n s f) := by
  induction n with
  | zero => exact hs
  | succ n ih => exact h n (Nat.lt_succ_self n) _ (ih fun i hi => h i (Nat.lt_succ_of_lt hi))

theorem upTo_keep {β : Type*} {f : Nat → σ → σ} (look : σ → β) (s : σ)
    (h : ∀ i < n, ∀ s, look (f i s) = look s) : look (upTo n s f) = look s := by
  induction n with
  | zero => rfl
  | succ n ih => rw [upTo,h n (Nat.lt_succ_self n),ih fun i hi => h i (Nat.lt_succ_of_lt hi)]

theorem upTo_once {β : Type*} {f : Nat → σ → σ} (look : σ → β) (P : Nat → σ → Prop) {val : β}
    {s : σ} {i : Nat} (hi : i < n) (hs : P 0 s) (hpre : ∀ j < i, ∀ s, P j s → P (j + 1) (f j s))
    (hset : ∀ s, P i s → look (f i s) = val)
    (hkeep : ∀ j, i < j → j < n → ∀ s, look (f j s) = look s) : look (upTo n s f) = val := by
  induction n with
  | zero => omega
  | succ n ih =>
    rw [upTo]
    obtain rfl | hlt := Nat.eq_or_lt_of_le (Nat.le_of_lt_succ hi)
    · exact hset _ (upTo_invariant hs hpre)
    · rw [hkeep n hlt (Nat.lt_succ_self n)]
      exact ih hlt fun j hj hn => hkeep j hj (Nat.lt_succ_of_lt hn)

theorem upTo_sets {β : Type*} {f : Nat → σ → σ} (look : σ → β) {val : β} (s : σ) {i : Nat}
    (hi : i < n) (hset : ∀ s, look (f i s) = val)
    (hkeep : ∀ j, i < j → j < n → ∀ s, look (f j s) = look s) : look (upTo n s f) = val :=
  upTo_once look (fun _ _ => True) hi trivial (fun _ _ _ _ => trivial) (fun s _ => hset s) hkeep

theorem tryUpTo_some {f : Nat → σ → Option σ} {g : Nat → σ → σ} (s : σ)
    (h : ∀ i < n, ∀ s, f i s = some (g i s)) : tryUpTo n s f = some (upTo n s g) := by
  induction n with
  | zero => rfl
  | succ n ih =>
    rw [tryUpTo,ih fun i hi => h i (Nat.lt_succ_of_lt hi)]
    exact h n (Nat.lt_succ_self n) _

theorem tryUpTo_invariant {f : Nat → σ → Option σ} {P : Nat → σ → Prop} {s : σ} (hs : P 0 s)
    (h : ∀ i < n, ∀ s, P i s → ∃ t, f i s = some t ∧ P (i + 1) t) :
    ∃ t, tryUpTo n s f = some t ∧ P n t := by
  induction n with
  | zero => exact ⟨s,rfl,hs⟩
  | succ n ih =>
    obtain ⟨t,ht,hP⟩ := ih fun i hi => h i (Nat.lt_succ_of_lt hi)
    obtain ⟨u,hu,hQ⟩ := h n (Nat.lt_succ_self n) t hP
    exact ⟨u,by rw [tryUpTo,ht,Option.bind_some,hu],hQ⟩

theorem mem_strided {first step limit i : Nat} (hs : 0 < step) :
    i ∈ strided first step limit ↔ first ≤ i ∧ i < limit ∧ (i - first) % step = 0 := by
  simp only [strided,mem_range']
  constructor
  · rintro ⟨k,hk,rfl⟩
    have hl := (Nat.lt_div_iff_mul_lt hs).mp hk
    rw [Nat.mul_comm] at hl
    refine ⟨Nat.le_add_right _ _,by omega,?_⟩
    rw [Nat.add_sub_cancel_left,Nat.mul_mod_right]
  · rintro ⟨hf,hl,hm⟩
    have hd := Nat.div_add_mod (i - first) step
    refine ⟨(i - first) / step,(Nat.lt_div_iff_mul_lt hs).mpr ?_,by omega⟩
    rw [Nat.mul_comm]
    omega

/-- Every place is come to by one of the walkers that start next to each other and stride over
all of them. -/
theorem mem_strides {step limit i : Nat} (hi : i < limit) (hs : 0 < step) :
    i ∈ (range step).flatMap fun first => strided first step limit := by
  refine mem_flatMap.mpr ⟨i % step,mem_range.mpr (Nat.mod_lt _ hs),(mem_strided hs).mpr ?_⟩
  have hd := Nat.div_add_mod i step
  refine ⟨Nat.mod_le _ _,hi,?_⟩
  rw [show i - i % step = step * (i / step) from by omega,Nat.mul_mod_right]

end Loops

theorem Loops.vector_get {α : Type*} {n : Nat} (v : Vector α n) (i : Fin n) :
    v.get i = v[i.val] := rfl

abbrev Words (n : Nat) := Vector (BitVec 32) n

namespace Words
open List Loops

variable {n m i j : Nat} {x : BitVec 32} {v : Words n}

def zeros (n : Nat) : Words n := Vector.replicate n 0

def ofList (table : List (BitVec 32)) : Words n := Vector.ofFn fun i => table.getD i 0

def read (v : Words n) (i : Nat) : BitVec 32 := v[i]?.getD 0

def write (v : Words n) (i : Nat) (x : BitVec 32) : Words n := v.setIfInBounds i x

def writeAll (f : Nat → BitVec 32) (v : Words n) (places : List Nat) : Words n :=
  places.foldl (fun v i => v.write i (f i)) v

theorem read_of_lt (v : Words n) (hi : i < n) : v.read i = v[i] := by simp [read,hi]

theorem read_ofFn (f : Fin n → BitVec 32) (hi : i < n) :
    read (Vector.ofFn f) i = f ⟨i,hi⟩ := by simp [read,hi]

theorem read_toList (v : Words n) (i : Nat) : v.toList.getD i 0 = v.read i := by
  rw [read,List.getD_eq_getElem?_getD,Vector.getElem?_toList]

theorem toList_ofList {l : List (BitVec 32)} (h : l.length = n) :
    (ofList l : Words n).toList = l := by
  refine List.ext_getElem (by simp [h]) fun i hi hl => ?_
  simp [ofList,hl]

theorem read_zeros (n i : Nat) : (zeros n).read i = 0 := by
  by_cases hi : i < n
  · simp [zeros,read,hi]
  · simp [zeros,read,Vector.getElem?_eq_none (Nat.not_lt.mp hi)]

theorem read_write_self (v : Words n) (x : BitVec 32) (hi : i < n) :
    (v.write i x).read i = x := by simp [read,write,hi]

theorem read_write_ne (v : Words n) (x : BitVec 32) (h : i ≠ j) :
    (v.write i x).read j = v.read j := by
  simp [read,write,h]

theorem read_writeAll (f : Nat → BitVec 32) (v : Words n) {places : List Nat} (hi : i < n)
    (hm : i ∈ places ∨ v.read i = f i) : (writeAll f v places).read i = f i := by
  induction places generalizing v with
  | nil => simpa [writeAll] using hm
  | cons j places ih =>
    refine ih (v.write j (f j)) ?_
    obtain rfl | hj := eq_or_ne j i
    · exact .inr (read_write_self v _ hi)
    · rw [read_write_ne v _ hj]
      exact hm.imp_left fun h => (mem_cons.mp h).resolve_left hj.symm

theorem read_run (f : Nat → BitVec 32) (v : Words n) (first : Nat) (hm : first + m ≤ n) (j : Nat) :
    (upTo m v fun i v => v.write (first + i) (f i)).read j =
      if first ≤ j ∧ j < first + m then f (j - first) else v.read j := by
  induction m with
  | zero => rw [upTo,if_neg (by omega)]
  | succ m ih =>
    rw [upTo]
    obtain rfl | hne := eq_or_ne (first + m) j
    · rw [read_write_self _ _ (by omega),if_pos (by omega),Nat.add_sub_cancel_left]
    · rw [read_write_ne _ _ hne,ih (by omega)]
      have : first ≤ j ∧ j < first + m ↔ first ≤ j ∧ j < first + (m + 1) := by omega
      simp only [this]

theorem read_fill (f : Nat → BitVec 32) (v : Words n) (hm : m ≤ n) (hi : i < m) :
    (upTo m v fun i v => v.write i (f i)).read i = f i := by
  have h := read_run f v 0 (by omega : 0 + m ≤ n) i
  simp only [Nat.zero_add,Nat.zero_le,hi,and_self,if_true,Nat.sub_zero] at h
  exact h

/-- A loop over a run of the array, each pass of which reads nothing that the ones before it
wrote. -/
theorem read_update {f : Nat → Words n → BitVec 32} {g : Nat → BitVec 32} (v : Words n)
    (first : Nat) (hm : first + m ≤ n)
    (h : ∀ i < m, ∀ u : Words n, (∀ j, j < first ∨ first + i ≤ j → u.read j = v.read j) →
      f i u = g i) (j : Nat) :
    (upTo m v fun i v => v.write (first + i) (f i v)).read j =
      if first ≤ j ∧ j < first + m then g (j - first) else v.read j := by
  induction m generalizing j with
  | zero => rw [upTo,if_neg (by omega)]
  | succ m ih =>
    have ih := ih (by omega) fun i hi => h i (by omega)
    rw [upTo,h m (Nat.lt_succ_self m) _ fun j hj => (ih j).trans (if_neg (by omega))]
    obtain rfl | hne := eq_or_ne (first + m) j
    · rw [read_write_self _ _ (by omega),if_pos (by omega),Nat.add_sub_cancel_left]
    · rw [read_write_ne _ _ hne,ih j]
      have : first ≤ j ∧ j < first + m ↔ first ≤ j ∧ j < first + (m + 1) := by omega
      simp only [this]

theorem read_rows {k row : Nat} (f : Nat → Nat → BitVec 32) (v : Words n) (hm : m * k ≤ n)
    (hr : row < m) (hj : j < k) :
    (upTo m v fun row v => upTo k v fun i v => v.write (row * k + i) (f row i)).read (row * k + j) =
      f row j := by
  induction m with
  | zero => omega
  | succ m ih =>
    rw [Nat.succ_mul] at hm
    rw [upTo,read_run _ _ _ hm]
    obtain rfl | hne := eq_or_ne row m
    · rw [if_pos (by omega),Nat.add_sub_cancel_left]
    · have hrow := Nat.mul_le_mul_right k (Nat.succ_le_of_lt (by omega : row < m))
      rw [Nat.succ_mul] at hrow
      rw [if_neg (by omega),ih (by omega) (by omega)]

theorem ext (u v : Words n) (h : ∀ i < n, u.read i = v.read i) : u = v := by
  refine Vector.ext fun i hi => ?_
  have := h i hi
  rwa [read_of_lt u hi,read_of_lt v hi] at this

end Words
