import VkMiner.Scheduler.HostBackends
import VkMiner.Scheduler.Tuner
set_option autoImplicit false

/-! How many hashes a kernel that is kept busy does in a while, on any backend. -/

namespace VkMiner.Scheduler.Tuner
open Mining (Backend Launch Work NullKernel null nullContract plainAlgorithm)
open Vulkan (Solution)
open Rounding (Rounder binary64)

variable {b : Backend} {F : Type*} [Field F] [LinearOrder F]

def kMaxSolutions : Nat := 8
def kUnreachableTarget : List UInt32 := List.replicate 8 0

/-- A kernel while it is timed. How much was launched so far, and what was answered, is history. -/
structure Bench (b : Backend) where
  kernel : b.Kernel
  nonce : UInt64
  outstanding : List UInt32
  calls : Nat
  counts : List UInt32
  answered : List (List Solution)

/-- The header that is hashed, under the algorithm and the keys that the kernel was prepared for, and
what the driver answers to each call. -/
structure Timing (b : Backend) where
  header : Launch
  answers : Nat → b.Calls

namespace Timing

variable (T : Timing b)

def launchAt (nonce : UInt64) (count : UInt32) : Launch :=
  { T.header with
    work := { T.header.work with target := kUnreachableTarget }
    start := nonce
    count := count.toNat }

def launch (s : Bench b) : Bool × Bench b :=
  let count := b.preferredBatch s.kernel
  let r := b.dispatch s.kernel (T.launchAt s.nonce count) (T.answers s.calls)
  if r.1 then
    (true,{ s with
      kernel := r.2, nonce := s.nonce+count.toUInt64, outstanding := s.outstanding ++ [count]
      calls := s.calls+1, counts := s.counts ++ [count] })
  else (false,{ s with kernel := r.2, calls := s.calls+1 })

def retire (s : Bench b) : Option UInt32 × Bench b :=
  let r := b.collect s.kernel kMaxSolutions (T.answers s.calls)
  match r.1,s.outstanding with
  | some found,front :: rest =>
    (some front,{ s with
      kernel := r.2, outstanding := rest, calls := s.calls+1, answered := s.answered ++ [found] })
  | _,_ => (none,{ s with kernel := r.2, calls := s.calls+1 })

def drainFrom : Nat → Bench b → Bench b
  | 0,s => s
  | n+1,s =>
    match T.retire s with
    | (some _,s) => drainFrom n s
    | (none,s) => s

def drain (s : Bench b) : Bench b := T.drainFrom s.outstanding.length s

def fill : Nat → Bench b → Bool × Bench b
  | 0,s => (true,s)
  | n+1,s =>
    match T.launch s with
    | (true,s) => fill n s
    | (false,s) => (false,s)

end Timing

/-- What has elapsed after so many turns of the timed loop. -/
def elapsed (clock : Nat → F) : Nat → F
  | 0 => 0
  | i+1 => clock i

namespace Timing

variable (T : Timing b) (R : Rounder F) (clock : Nat → F) (seconds : F)

/-- The timed loop from its `i`th turn on, and nothing if that many turns do not end it. -/
def spin : Nat → Nat → UInt64 → Bench b → Option (Option (UInt64 × F) × Bench b)
  | fuel,i,hashes,s =>
    if elapsed clock i < seconds then
      match fuel with
      | 0 => none
      | fuel+1 =>
        match T.retire s with
        | (none,s) => some (none,s)
        | (some front,s) =>
          match T.launch s with
          | (false,s) => some (none,s)
          | (true,s) => spin fuel (i+1) (hashes+front.toUInt64) s
    else some (some (hashes,elapsed clock i),s)

/-- `burst`, on a clock that reads this after each turn. -/
def burst (fuel : Nat) (k : b.Kernel) (nonce : UInt64) : Option (F × Bench b) :=
  match T.fill (b.queueDepth k) ⟨k,nonce,[],0,[],[]⟩ with
  | (false,s) => some (-1,T.drain s)
  | (true,s) =>
    match T.spin clock seconds fuel 0 0 s with
    | none => none
    | some (none,s) => some (-1,T.drain s)
    | some (some (hashes,e),s) =>
      some (if 0 < e then R.round (R.round hashes.toNat/e) else -1,T.drain s)

end Timing

def advance (n : UInt64) (counts : List UInt32) : UInt64 :=
  counts.foldl (fun n count => n+count.toUInt64) n

def Timing.train (T : Timing b) : UInt64 → List UInt32 → List Launch
  | _,[] => []
  | nonce,count :: counts => T.launchAt nonce count :: T.train (nonce+count.toUInt64) counts

namespace Timing

variable {T : Timing b} {nonce : UInt64} {counts : List UInt32} {s : Bench b}

@[simp] theorem train_length : (T.train nonce counts).length = counts.length := by
  induction counts generalizing nonce with
  | nil => rfl
  | cons count counts ih => simp [train,ih]

theorem train_concat (count : UInt32) : T.train nonce (counts ++ [count]) =
    T.train nonce counts ++ [T.launchAt (advance nonce counts) count] := by
  induction counts generalizing nonce with
  | nil => rfl
  | cons head counts ih => simp [train,advance,ih]

theorem advance_concat (count : UInt32) :
    advance nonce (counts ++ [count]) = advance nonce counts+count.toUInt64 := by
  simp [advance]

/-- A kernel that holds exactly what was launched and not answered. -/
structure Timed (C : b.Contract) (T : Timing b) (depth : Nat) (nonce : UInt64) (s : Bench b) :
    Prop where
  sound : C.Sound s.kernel
  built : C.built s.kernel = (T.header.algo,T.header.size)
  state : C.state s.kernel = some T.header.stateKey
  program : C.program s.kernel = some T.header.programKey
  depth : b.queueDepth s.kernel = depth
  next : s.nonce = advance nonce s.counts
  held : C.held s.kernel = (T.train nonce s.counts).drop s.answered.length
  outstanding : s.outstanding = s.counts.drop s.answered.length
  came : List.Forall₂ (fun x found => ∃ k, C.Came k kMaxSolutions x (some found))
    ((T.train nonce s.counts).take s.answered.length) s.answered

variable {C : b.Contract} {depth : Nat}

theorem Timed.answered_le (h : Timed C T depth nonce s) : s.answered.length ≤ s.counts.length := by
  have := h.came.length_eq
  rw [List.length_take,train_length] at this
  omega

theorem Timed.held_length (h : Timed C T depth nonce s) :
    (C.held s.kernel).length = s.counts.length-s.answered.length := by
  rw [h.held,List.length_drop,train_length]

theorem Timed.launch {s' : Bench b} (h : Timed C T depth nonce s) (hc : C.clear s.kernel)
    (hroom : s.counts.length-s.answered.length < depth) (hl : T.launch s = (true,s')) :
    Timed C T depth nonce s' ∧ C.clear s'.kernel ∧ s'.answered = s.answered ∧
      ∃ count, s'.counts = s.counts ++ [count] := by
  have hlt : (C.held s.kernel).length < b.queueDepth s.kernel := by
    rw [h.held_length,h.depth]
    exact hroom
  have hle := h.answered_le
  simp only [Timing.launch] at hl
  generalize b.preferredBatch s.kernel = count at hl
  obtain ⟨hsound,hheld⟩ := C.dispatch_sound (l := T.launchAt s.nonce count) (c := T.answers s.calls)
    h.sound hc hlt h.built h.state h.program
  obtain ⟨hbuilt,hdepth,hstate,hprogram⟩ :=
    C.dispatch_frame s.kernel (T.launchAt s.nonce count) (T.answers s.calls)
  split at hl
  · rename_i hok
    rw [if_pos hok] at hheld
    cases hl
    refine ⟨⟨hsound,hbuilt.trans h.built,hstate.trans h.state,hprogram.trans h.program,
      hdepth.trans h.depth,?_,?_,?_,?_⟩,hheld.2,rfl,count,rfl⟩
    · rw [advance_concat,h.next]
    · rw [hheld.1,train_concat,h.held,h.next,List.drop_append_of_le_length (by simpa using hle)]
    · rw [h.outstanding,List.drop_append_of_le_length hle]
    · rw [train_concat,List.take_append_of_le_length (by simpa using hle)]
      exact h.came
  · cases hl

theorem Timed.retire {s' : Bench b} {front : UInt32} (h : Timed C T depth nonce s)
    (hl : T.retire s = (some front,s')) :
    Timed C T depth nonce s' ∧ (C.clear s.kernel → C.clear s'.kernel) ∧ s'.counts = s.counts ∧
      s'.answered.length = s.answered.length+1 ∧ s.counts[s.answered.length]? = some front := by
  have hout := h.outstanding
  have hheld := h.held
  simp only [Timing.retire] at hl
  split at hl
  · rename_i found front' rest hfound hfront
    cases hl
    rw [hfront] at hout
    have hlt : s.answered.length < s.counts.length := by
      by_contra hge
      rw [List.drop_eq_nil_of_le (not_lt.mp hge)] at hout
      cases hout
    have hlt' : s.answered.length < (T.train nonce s.counts).length := by simpa using hlt
    rw [List.drop_eq_getElem_cons hlt'] at hheld
    rw [List.drop_eq_getElem_cons hlt,List.cons.injEq] at hout
    obtain ⟨hsound,hrest,hclear,hcame⟩ :
        C.Sound (b.collect s.kernel kMaxSolutions (T.answers s.calls)).2 ∧ _ :=
      C.collect_sound h.sound hheld
    obtain ⟨hbuilt,hdepth,hstate,hprogram⟩ :=
      C.collect_frame s.kernel kMaxSolutions (T.answers s.calls)
    refine ⟨⟨hsound,hbuilt.trans h.built,hstate.trans h.state,hprogram.trans h.program,
      hdepth.trans h.depth,h.next,?_,?_,?_⟩,hclear,rfl,by simp,?_⟩
    · simpa using hrest
    · simpa using hout.2
    · rw [List.length_append,List.length_singleton,List.take_succ_eq_append_getElem hlt']
      rw [hfound] at hcame
      exact List.rel_append h.came (.cons ⟨_,hcame⟩ .nil)
    · rw [List.getElem?_eq_getElem hlt,hout.1]
  · cases hl

/-- What is left of a burst: everything has been answered, or one collect has failed. -/
structure Left (C : b.Contract) (T : Timing b) (nonce : UInt64) (s : Bench b) : Prop where
  sound : C.Sound s.kernel
  next : s.nonce = advance nonce s.counts
  held : s.answered.length = s.counts.length ∧ C.held s.kernel = [] ∨
    s.answered.length < s.counts.length ∧
      C.held s.kernel = (T.train nonce s.counts).drop (s.answered.length+1)
  came : List.Forall₂ (fun x found => ∃ k, C.Came k kMaxSolutions x (some found))
    ((T.train nonce s.counts).take s.answered.length) s.answered

theorem Timed.left (h : Timed C T depth nonce s) (hall : s.counts.length-s.answered.length = 0) :
    Left C T nonce s := by
  have hle := h.answered_le
  have heq : s.answered.length = s.counts.length := by omega
  refine ⟨h.sound,h.next,.inl ⟨heq,?_⟩,h.came⟩
  rw [h.held,heq]
  exact List.drop_eq_nil_of_le (by simp)

theorem Timed.retire_failed {s' : Bench b} (h : Timed C T depth nonce s)
    (hlt : s.answered.length < s.counts.length) (hl : T.retire s = (none,s')) :
    Left C T nonce s' ∧ s'.counts = s.counts ∧ s'.answered = s.answered := by
  have hlt' : s.answered.length < (T.train nonce s.counts).length := by simpa using hlt
  have hheld := h.held
  rw [List.drop_eq_getElem_cons hlt'] at hheld
  obtain ⟨hsound,hrest,-,-⟩ :
      C.Sound (b.collect s.kernel kMaxSolutions (T.answers s.calls)).2 ∧ _ :=
    C.collect_sound h.sound hheld
  simp only [Timing.retire] at hl
  split at hl
  · cases hl
  · cases hl
    exact ⟨⟨hsound,h.next,.inr ⟨hlt,hrest⟩,h.came⟩,rfl,rfl⟩

theorem Timed.drain (h : Timed C T depth nonce s) :
    Left C T nonce (T.drain s) ∧ (T.drain s).counts = s.counts ∧
      s.answered.length ≤ (T.drain s).answered.length := by
  rw [Timing.drain,h.outstanding,List.length_drop]
  generalize hn : s.counts.length-s.answered.length = n
  induction n generalizing s with
  | zero => exact ⟨h.left hn,rfl,le_refl _⟩
  | succ n ih =>
    rw [drainFrom]
    obtain ⟨front,s',hs⟩ : ∃ front s', T.retire s = (front,s') := ⟨_,_,rfl⟩
    rw [hs]
    cases front with
    | none =>
      obtain ⟨hleft,hcounts,hanswered⟩ := h.retire_failed (by omega) hs
      exact ⟨hleft,hcounts,hanswered ▸ le_refl _⟩
    | some front =>
      obtain ⟨hnext,-,hcounts,hlength,-⟩ := h.retire hs
      obtain ⟨hleft,hsame,hle⟩ := ih hnext (by rw [hcounts,hlength]; omega)
      have hmore : s.answered.length ≤ s'.answered.length := by omega
      exact ⟨hleft,hsame.trans hcounts,hmore.trans hle⟩

theorem Timed.fill {s' : Bench b} {n : Nat} (h : Timed C T depth nonce s)
    (hc : C.clear s.kernel) (hroom : s.counts.length-s.answered.length+n ≤ depth)
    (hl : T.fill n s = (true,s')) :
    Timed C T depth nonce s' ∧ C.clear s'.kernel ∧ s'.answered = s.answered ∧
      s'.counts.length = s.counts.length+n := by
  induction n generalizing s with
  | zero =>
    cases hl
    exact ⟨h,hc,rfl,rfl⟩
  | succ n ih =>
    rw [Timing.fill] at hl
    split at hl
    · rename_i s₁ hs
      obtain ⟨hnext,hclear,hanswered,count,hcounts⟩ := h.launch hc (by omega) hs
      have hle := h.answered_le
      have hlength : s₁.counts.length = s.counts.length+1 := by simp [hcounts]
      obtain ⟨hlast,hclear,hsame,htotal⟩ := ih hnext hclear (by rw [hanswered,hlength]; omega) hl
      exact ⟨hlast,hclear,hsame.trans hanswered,by omega⟩
    · cases hl

variable {clock : Nat → F} {seconds e : F} {fuel i n : Nat} {hashes total : UInt64} {s' : Bench b}

theorem advance_take_succ {count : UInt32} (h : counts[i]? = some count) :
    advance nonce (counts.take (i+1)) = advance nonce (counts.take i)+count.toUInt64 := by
  rw [List.take_add_one,h,Option.toList_some,advance_concat]

/-- The timed loop keeps the queue as full as it was, and counts what was answered: whatever ends
it, a turn is the answer to one launch, in order. -/
theorem Timed.spin (h : Timed C T depth nonce s) (hc : C.clear s.kernel) (hdepth : 0 < depth)
    (hfull : s.counts.length = depth+i) (hi : s.answered.length = i)
    (hashed : hashes = advance 0 (s.counts.take i)) (hbefore : ∀ j < i, elapsed clock j < seconds)
    (hl : T.spin clock seconds fuel i hashes s = some (some (total,e),s')) :
    ∃ n, Timed C T depth nonce s' ∧ s'.counts.length = depth+n ∧ s'.answered.length = n ∧
      total = advance 0 (s'.counts.take n) ∧ e = elapsed clock n ∧ seconds ≤ elapsed clock n ∧
      ∀ j < n, elapsed clock j < seconds := by
  induction fuel generalizing s i hashes with
  | zero =>
    rw [Timing.spin] at hl
    split at hl
    · cases hl
    · rename_i hover
      cases hl
      exact ⟨i,h,hfull,hi,hashed,rfl,not_lt.mp hover,hbefore⟩
  | succ fuel ih =>
    rw [Timing.spin] at hl
    split at hl
    · rename_i hunder
      obtain ⟨front,s₁,hs⟩ : ∃ front s₁, T.retire s = (front,s₁) := ⟨_,_,rfl⟩
      simp only [hs] at hl
      cases front with
      | none => cases hl
      | some front =>
        obtain ⟨hnext,hclear,hcounts,hlength,hfront⟩ := h.retire hs
        obtain ⟨ok,s₂,hs'⟩ : ∃ ok s₂, T.launch s₁ = (ok,s₂) := ⟨_,_,rfl⟩
        simp only [hs'] at hl
        cases ok with
        | false => cases hl
        | true =>
          obtain ⟨hlast,hclear,hanswered,count,hmore⟩ :=
            hnext.launch (hclear hc) (by rw [hcounts,hlength]; omega) hs'
          have hiless : i+1 ≤ s.counts.length := by omega
          refine ih hlast hclear ?_ ?_ ?_ ?_ hl
          · rw [hmore,hcounts,List.length_append,List.length_singleton,hfull,Nat.add_assoc]
          · rw [hanswered,hlength,hi]
          · rw [hmore,hcounts,List.take_append_of_le_length hiless,
              advance_take_succ (hi ▸ hfront),hashed]
          · intro j hj
            obtain hj | rfl := Nat.lt_succ_iff_lt_or_eq.mp hj
            · exact hbefore j hj
            · exact hunder
    · rename_i hover
      cases hl
      exact ⟨i,h,hfull,hi,hashed,rfl,not_lt.mp hover,hbefore⟩

theorem spin_ends (hn : seconds ≤ elapsed clock n) (hin : i ≤ n) (hfuel : n ≤ i+fuel) :
    (T.spin clock seconds fuel i hashes s).isSome = true := by
  induction fuel generalizing s i hashes with
  | zero =>
    obtain rfl : i = n := by omega
    rw [Timing.spin,if_neg (not_lt.mpr hn)]
    rfl
  | succ fuel ih =>
    rw [Timing.spin]
    split
    · rename_i hunder
      have hne : i ≠ n := by
        rintro rfl
        exact absurd hn (not_le.mpr hunder)
      split
      · rfl
      · split
        · rfl
        · exact ih (by omega) (by omega)
    · rfl

/-- A kernel with nothing outstanding, prepared for the header. -/
structure Prepared (C : b.Contract) (T : Timing b) (k : b.Kernel) : Prop where
  sound : C.Sound k
  held : C.held k = []
  built : C.built k = (T.header.algo,T.header.size)
  state : C.state k = some T.header.stateKey
  program : C.program k = some T.header.programKey

theorem Prepared.timed {k : b.Kernel} (h : Prepared C T k) :
    Timed C T (b.queueDepth k) nonce ⟨k,nonce,[],0,[],[]⟩ :=
  ⟨h.sound,h.built,h.state,h.program,rfl,rfl,h.held,rfl,.nil⟩

/-- What a burst that has not failed has measured, in `n` turns of its loop: the launches are
`depth` more than the turns, and the rate is the rounded one of as many as there were turns. -/
structure Measured (C : b.Contract) (T : Timing b) (R : Rounder F) (clock : Nat → F) (seconds : F)
    (depth : Nat) (nonce : UInt64) (rate : F) (s : Bench b) (n : Nat) : Prop where
  past : seconds ≤ elapsed clock n
  before : ∀ j < n, elapsed clock j < seconds
  launched : s.counts.length = depth+n
  answered : n ≤ s.answered.length
  rate : rate = R.round (R.round (advance 0 (s.counts.take n)).toNat/elapsed clock n)
  left : Left C T nonce s

theorem Prepared.measured [IsStrictOrderedRing F] {R : Rounder F} {k : b.Kernel} {rate : F}
    (h : Prepared C T k) (hl : T.burst R clock seconds fuel k nonce = some (rate,s))
    (hrate : 0 ≤ rate) : ∃ n, Measured C T R clock seconds (b.queueDepth k) nonce rate s n := by
  have hfailed : ¬(0 : F) ≤ -1 := by simp
  unfold burst at hl
  obtain ⟨ok,s₁,hs₁⟩ : ∃ ok s₁, T.fill (b.queueDepth k) ⟨k,nonce,[],0,[],[]⟩ = (ok,s₁) :=
    ⟨_,_,rfl⟩
  simp only [hs₁] at hl
  cases ok with
  | false =>
    cases hl
    exact absurd hrate hfailed
  | true =>
    have htimed : Timed C T (b.queueDepth k) nonce ⟨k,nonce,[],0,[],[]⟩ := h.timed
    obtain ⟨hfull,hclear,hnone,hlength⟩ :=
      htimed.fill (C.clear_empty h.sound h.held) (by simp) hs₁
    cases hs₂ : T.spin clock seconds fuel 0 0 s₁ with
    | none =>
      simp only [hs₂] at hl
      cases hl
    | some r =>
      obtain ⟨measured,s₂⟩ := r
      simp only [hs₂] at hl
      cases measured with
      | none =>
        cases hl
        exact absurd hrate hfailed
      | some measured =>
        obtain ⟨hashes,e⟩ := measured
        obtain ⟨n,hlast,hlaunched,hanswered,rfl,rfl,hover,hbefore⟩ :=
          hfull.spin hclear (C.depth_pos h.sound) (by simpa using hlength) (by rw [hnone]; rfl) rfl
            (fun j hj => absurd hj (Nat.not_lt_zero j)) hs₂
        obtain ⟨hleft,hcounts,hmore⟩ := hlast.drain
        simp only [Option.some.injEq,Prod.mk.injEq] at hl
        obtain ⟨hr,rfl⟩ := hl
        split at hr
        · refine ⟨n,hover,hbefore,?_,hanswered ▸ hmore,?_,hleft⟩
          · rw [hcounts,hlaunched]
          · rw [hcounts,hr]
        · exact absurd (hr ▸ hrate) hfailed

end Timing

/-- The bursts of a race on a backend, with so many turns at most. -/
def bursts (T : Nat → Timing b) (R : Rounder F) (clock : Nat → Nat → F) (fuel : Nat) :
    Bursts F b.Kernel := fun seconds t k nonce =>
  match (T t).burst R (clock t) seconds fuel k nonce with
  | some (rate,s) => (rate,s.kernel,s.nonce)
  | none => (-1,k,nonce)

variable {C : b.Contract} {T : Nat → Timing b} {R : Rounder F} {clock : Nat → Nat → F}
  {seconds : F} {fuel t : Nat} {k : b.Kernel} {nonce : UInt64}

/-- A burst ends once the clock is over, and on a kernel that is prepared and has nothing
outstanding, a rate that is none of a failure is this: the nonces of as many launches as there were
turns of the loop, over the clock's first reading past the time and rounded, when each of these
launches, from the first, has been answered in order and by the kernel that is timed; the queue was
as deep as the kernel's at the start of every turn, and the launches go from one end of a range to
the other. -/
theorem bursts_measure [IsStrictOrderedRing F] (h : Timing.Prepared C (T t) k) :
    ((∃ n ≤ fuel, seconds ≤ elapsed (clock t) n) →
      ((T t).burst R (clock t) seconds fuel k nonce).isSome = true) ∧
    (0 ≤ (bursts T R clock fuel seconds t k nonce).1 → ∃ s n,
      (bursts T R clock fuel seconds t k nonce).2 = (s.kernel,s.nonce) ∧
      Timing.Measured C (T t) R (clock t) seconds (b.queueDepth k) nonce
        (bursts T R clock fuel seconds t k nonce).1 s n) := by
  constructor
  · rintro ⟨n,hn,hover⟩
    unfold Timing.burst
    split
    · rfl
    · rename_i s _
      have hends : ((T t).spin (clock t) seconds fuel 0 0 s).isSome = true :=
        Timing.spin_ends hover (Nat.zero_le n) (by omega)
      split
      · rename_i hnone
        rw [hnone] at hends
        cases hends
      · rfl
      · rfl
  · intro hrate
    unfold bursts at hrate ⊢
    split at hrate
    · rename_i rate s hs
      obtain ⟨n,hn⟩ := h.measured hs hrate
      exact ⟨s,n,rfl,hn⟩
    · exact absurd hrate (by simp)

/-- No device, driven with a plain function on a clock that reads eighths. -/
def plainTiming : Timing null := ⟨⟨Work.zero,0,0,plainAlgorithm,0,0,0⟩,fun _ => ()⟩

def plainKernel : NullKernel := ⟨plainAlgorithm,0,0,none,some 0,some 0⟩

def plainClock (i : Nat) : ℚ := (i+1)/8

def plainBursts : Bursts ℚ null.Kernel :=
  bursts (fun _ => plainTiming) binary64 (fun _ => plainClock) 10

theorem bursts_measure_run : ∃ s n,
    (plainBursts kRoundSeconds 0 plainKernel 5).2 = (s.kernel,s.nonce) ∧
    Timing.Measured nullContract plainTiming binary64 plainClock kRoundSeconds 1 5
      (plainBursts kRoundSeconds 0 plainKernel 5).1 s n :=
  (bursts_measure (C := nullContract) ⟨trivial,rfl,rfl,rfl,rfl⟩).2 (by decide +kernel)

end VkMiner.Scheduler.Tuner
