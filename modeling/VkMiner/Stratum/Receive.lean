import VkMiner.Lib.Lines
import VkMiner.Core.Hex
import Mathlib.Data.List.TakeWhile
set_option autoImplicit false

/-! `stratum_recv_line`: the buffer of a connection, what a recv appends to it, and the
line that strtok and memmove take off it. -/

namespace VkMiner.Stratum
open Lines

def newline : UInt8 := 10

def recvSize : Nat := 2044

/-- What a wait on the socket ends in: a fragment, or nothing within the time there is. -/
abbrev Recv := Option Bytes

/-- The read loop. It comes back with a newline in the buffer, or without. -/
def fill (buf : CStr) : List Recv → CStr × List Recv
  | [] => (buf,[])
  | none :: rest => (buf,rest)
  | some s :: rest => if newline ∈ buf ++ s then (buf ++ s,rest) else fill (buf ++ s) rest

/-- strtok skips the newlines in front of its token and puts a NUL over the one behind
it; the memmove starts at the token's length and one more from the front of the buffer. -/
def takeLine (buf : CStr) : Option CStr × CStr :=
  let skipped := (buf.takeWhile (fun b => b = newline)).length
  let tok := (buf.drop skipped).takeWhile (fun b => b ≠ newline)
  let len := tok.length
  if tok.isEmpty then (none,buf)
  else if len+1 < buf.length then
    (some tok,((buf.set (skipped+len) 0).drop (len+1)).takeWhile (fun b => b ≠ 0))
  else (some tok,[])

structure Receiver where
  buf : CStr
  recvs : List Recv
  deriving DecidableEq

namespace Receiver

def recvLine (r : Receiver) : Option CStr × Receiver :=
  let f := if newline ∈ r.buf then (r.buf,r.recvs) else fill r.buf r.recvs
  if newline ∈ f.1 then ((takeLine f.1).1,⟨(takeLine f.1).2,f.2⟩) else (none,⟨f.1,f.2⟩)

/-- The lines that `n` calls return, those that return one. -/
def received : Nat → Receiver → List CStr
  | 0,_ => []
  | n+1,r => r.recvLine.1.toList ++ received n r.recvLine.2

def pending (r : Receiver) : Bytes := r.buf ++ (r.recvs.filterMap id).flatten

end Receiver

/-- The lines of a stream that are not empty. -/
def lines (stream : Bytes) : List CStr := (cut newline stream).1.filter (fun x => !x.isEmpty)

/-- The stream, in fragments that a recv can return. -/
structure Feeds (recvs : List Recv) (stream : Bytes) : Prop where
  stream : (recvs.filterMap id).flatten = stream
  sizes : ∀ s, some s ∈ recvs → s ≠ [] ∧ s.length ≤ recvSize

def afterEmpty (stream : Bytes) : List CStr :=
  (cut newline stream).1.dropWhile (fun x => !x.isEmpty)

/-- No line that is not empty comes after an empty one, and an unfinished line after
empty ones comes after more of them than one recv can bring. -/
def EmptyLinesLast (stream : Bytes) : Prop :=
  (∀ x ∈ afterEmpty stream,x = []) ∧
    (afterEmpty stream = [] ∨ (cut newline stream).2 = [] ∨
      recvSize ≤ (afterEmpty stream).length)

instance (stream : Bytes) : Decidable (EmptyLinesLast stream) :=
  inferInstanceAs (Decidable (_ ∧ _))

theorem takeWhile_before {p : UInt8 → Bool} {x : Bytes} (hx : ∀ b ∈ x,p b = true) {c : UInt8}
    (hc : p c = false) (s : Bytes) : (x ++ c :: s).takeWhile p = x := by
  rw [List.takeWhile_append_of_pos hx]
  simp [hc]

theorem takeWhile_all {p : UInt8 → Bool} {x : Bytes} (hx : ∀ b ∈ x,p b = true) :
    x.takeWhile p = x := by
  have h : (x ++ []).takeWhile p = x ++ [].takeWhile p := List.takeWhile_append_of_pos hx
  simpa using h

theorem line_clean {x : Bytes} (hn : newline ∉ x) : ∀ b ∈ x,decide (b ≠ newline) = true :=
  fun _ hb => decide_eq_true (fun he => hn (he ▸ hb))

theorem takeLine_line {x s : Bytes} (hx : x ≠ []) (hn : newline ∉ x) (h0 : 0 ∉ s) :
    takeLine (x ++ newline :: s) = (some x,s) := by
  obtain ⟨a,x',rfl⟩ := List.exists_cons_of_ne_nil hx
  have ha : decide (a = newline) = false :=
    decide_eq_false (fun he => hn (he ▸ List.mem_cons_self))
  have hskip : ((a :: x') ++ newline :: s).takeWhile (fun b => b = newline) = [] := by
    simp [ha]
  have htok : ((a :: x') ++ newline :: s).takeWhile (fun b => b ≠ newline) = a :: x' :=
    takeWhile_before (line_clean hn) (by simp) s
  unfold takeLine
  simp only [hskip,List.length_nil,List.drop_zero,htok,Nat.zero_add]
  rw [if_neg (by simp)]
  have hset : ((a :: x') ++ newline :: s).set (a :: x').length 0 = (a :: x') ++ 0 :: s := by
    rw [List.set_append_right _ _ (Nat.le_refl _)]
    simp
  have hdrop : ((a :: x') ++ 0 :: s).drop ((a :: x').length+1) = s := by
    rw [← List.drop_drop,List.drop_left]
    rfl
  have hall : s.takeWhile (fun b => b ≠ 0) = s :=
    takeWhile_all (fun b hb => decide_eq_true (fun he => h0 (he ▸ hb)))
  rw [hset,hdrop,hall]
  cases s with
  | nil => simp
  | cons b s => rw [if_pos (by simp)]

theorem takeLine_newlines (n : Nat) :
    takeLine (List.replicate n newline) = (none,List.replicate n newline) := by
  have hskip : (List.replicate n newline).takeWhile (fun b => b = newline) =
      List.replicate n newline :=
    takeWhile_all (fun _ hb => decide_eq_true (List.eq_of_mem_replicate hb))
  unfold takeLine
  simp [hskip]

theorem takeLine_fragment (n : Nat) {c : UInt8} (hc : c ≠ newline) :
    (takeLine (List.replicate n newline ++ [c])).1 = some [c] := by
  have hskip : (List.replicate n newline ++ [c]).takeWhile (fun b => b = newline) =
      List.replicate n newline :=
    takeWhile_before (fun _ hb => decide_eq_true (List.eq_of_mem_replicate hb))
      (decide_eq_false hc) []
  unfold takeLine
  simp only [hskip,List.length_replicate]
  have hdrop : (List.replicate n newline ++ [c]).drop n = [c] := by
    rw [List.drop_append_of_le_length (by simp)]
    simp
  simp only [hdrop,List.takeWhile_cons,hc,ne_eq,not_false_eq_true,decide_true,if_true,
    List.takeWhile_nil,List.isEmpty_cons,Bool.false_eq_true,if_false]
  split <;> rfl

theorem fill_pending (buf : CStr) (recvs : List Recv) :
    Receiver.pending ⟨(fill buf recvs).1,(fill buf recvs).2⟩ = Receiver.pending ⟨buf,recvs⟩ := by
  induction recvs generalizing buf with
  | nil => rfl
  | cons s recvs ih =>
    cases s with
    | none => simp [fill,Receiver.pending]
    | some s =>
      unfold fill
      split
      · simp [Receiver.pending]
      · rw [ih]
        simp [Receiver.pending]

theorem fill_shrinks (buf : CStr) (recvs : List Recv) :
    recvs = [] ∨ (fill buf recvs).2.length < recvs.length := by
  induction recvs generalizing buf with
  | nil => exact .inl rfl
  | cons s recvs ih =>
    refine .inr ?_
    cases s with
    | none => simp [fill]
    | some s =>
      unfold fill
      split
      · simp
      · rcases ih (buf ++ s) with h | h
        · subst h
          simp [fill]
        · exact Nat.lt_succ_of_lt h

theorem fill_recvs (buf : CStr) (recvs : List Recv) : (fill buf recvs).2 ⊆ recvs := by
  induction recvs generalizing buf with
  | nil => exact List.Subset.refl _
  | cons s recvs ih =>
    cases s with
    | none => exact List.subset_cons_self _ _
    | some s =>
      unfold fill
      split
      · exact List.subset_cons_self _ _
      · exact List.Subset.trans (ih _) (List.subset_cons_self _ _)

/-- What is pending is the lines `full`, then `j` empty lines, then a tail; if there are
empty lines, the buffer does not hold anything of the tail. -/
structure Readable (r : Receiver) (full : List CStr) (j : Nat) (tail : Bytes) : Prop where
  pending : r.pending = join newline full ++ (List.replicate j newline ++ tail)
  whole : ∀ x ∈ full,x ≠ [] ∧ newline ∉ x
  unfinished : newline ∉ tail
  clean : 0 ∉ r.pending
  sizes : ∀ s, some s ∈ r.recvs → s.length ≤ recvSize
  short : j ≠ 0 → (tail = [] ∨ recvSize ≤ j) ∧ r.buf.length ≤ (join newline full).length+j

theorem holds_line {buf rest x z : Bytes} (h : buf ++ rest = x ++ newline :: z)
    (hx : newline ∉ x) (hb : newline ∈ buf) :
    ∃ s, buf = x ++ newline :: s ∧ s ++ rest = z := by
  rcases List.append_eq_append_iff.mp h with ⟨t,rfl,-⟩ | ⟨t,rfl,ht⟩
  · simp only [List.mem_append,not_or] at hx
    exact absurd hb hx.1
  · cases t with
    | nil =>
      rw [List.append_nil] at hb
      exact absurd hb hx
    | cons b t =>
      simp only [List.cons_append,List.cons.injEq] at ht
      exact ⟨t,by rw [ht.1],ht.2.symm⟩

theorem join_starts (full : List CStr) {j : Nat} (hj : j ≠ 0) (tail : Bytes) :
    ∃ y z, join newline full ++ (List.replicate j newline ++ tail) = y ++ newline :: z ∧
      y.length ≤ (join newline full).length := by
  cases full with
  | nil =>
    obtain ⟨k,rfl⟩ := Nat.exists_eq_succ_of_ne_zero hj
    exact ⟨[],List.replicate k newline ++ tail,by simp [List.replicate_succ],Nat.le_refl _⟩
  | cons x full => exact ⟨x,join newline full ++ (List.replicate j newline ++ tail),by simp,by simp⟩

theorem short_of_line {buf rest : Bytes} {full : List CStr} {j : Nat} {tail : Bytes}
    (h : buf ++ rest = join newline full ++ (List.replicate j newline ++ tail)) (hj : j ≠ 0)
    (hb : newline ∉ buf) : buf.length ≤ (join newline full).length := by
  obtain ⟨y,z,hy,hl⟩ := join_starts full hj tail
  rw [hy] at h
  rcases List.append_eq_append_iff.mp h with ⟨t,rfl,-⟩ | ⟨t,rfl,ht⟩
  · simp only [List.length_append] at hl
    omega
  · cases t with
    | nil => simpa using hl
    | cons b t =>
      simp only [List.cons_append,List.cons.injEq] at ht
      simp [ht.1] at hb

theorem Readable.fill {buf : CStr} {recvs : List Recv} {full : List CStr} {j : Nat} {tail : Bytes}
    (h : Readable ⟨buf,recvs⟩ full j tail) (hb : newline ∉ buf) :
    Readable ⟨(fill buf recvs).1,(fill buf recvs).2⟩ full j tail := by
  have hp := fill_pending buf recvs
  refine ⟨by rw [hp,h.pending],h.whole,h.unfinished,by rw [hp]; exact h.clean,
    fun s hs => h.sizes s (fill_recvs _ _ hs),fun hj => ⟨(h.short hj).1,?_⟩⟩
  obtain ⟨htail,-⟩ := h.short hj
  have hpend := h.pending
  have hsizes := h.sizes
  clear h hp
  induction recvs generalizing buf with
  | nil =>
    have hs : buf.length ≤ (join newline full).length := short_of_line hpend hj hb
    simp only [Stratum.fill]
    omega
  | cons s recvs ih =>
    cases s with
    | none =>
      have hs : buf.length ≤ (join newline full).length := short_of_line hpend hj hb
      simp only [Stratum.fill]
      omega
    | some s =>
      have hpend' : Receiver.pending ⟨buf ++ s,recvs⟩ =
          join newline full ++ (List.replicate j newline ++ tail) := by
        rw [← hpend]
        simp [Receiver.pending]
      have hsizes' : ∀ s, some s ∈ recvs → s.length ≤ recvSize :=
        fun s hs => hsizes s (List.mem_cons_of_mem _ hs)
      unfold Stratum.fill
      split
      · -- one fragment from in front of the first newline reaches no further than the empty lines
        have hs : buf.length ≤ (join newline full).length := short_of_line hpend hj hb
        have hlen := congrArg List.length hpend'
        have hsize := hsizes s List.mem_cons_self
        simp only [Receiver.pending,List.length_append,List.length_replicate] at hlen
        show (buf ++ s).length ≤ _
        rw [List.length_append]
        rcases htail with rfl | hlong
        · rw [List.length_nil] at hlen
          omega
        · omega
      · next hn => exact ih hn hpend' hsizes'

theorem newlines_alone {buf rest : Bytes} {j : Nat} {tail : Bytes}
    (h : buf ++ rest = List.replicate j newline ++ tail) (hl : buf.length ≤ j) :
    buf = List.replicate buf.length newline := by
  have ht := congrArg (List.take buf.length) h
  rw [List.take_left,List.take_append_of_le_length (by simpa using hl),List.take_replicate,
    Nat.min_eq_left hl] at ht
  exact ht

theorem Readable.take {r : Receiver} {full : List CStr} {j : Nat} {tail : Bytes}
    (h : Readable r full j tail) (hb : newline ∈ r.buf) :
    (full = [] ∧ takeLine r.buf = (none,r.buf)) ∨
      ∃ x full', full = x :: full' ∧ (takeLine r.buf).1 = some x ∧
        Readable ⟨(takeLine r.buf).2,r.recvs⟩ full' j tail := by
  have hpend := h.pending
  cases full with
  | nil =>
    refine .inl ⟨rfl,?_⟩
    simp only [join_nil,List.nil_append] at hpend
    have hj : j ≠ 0 := by
      rintro rfl
      have hmem : newline ∈ r.pending := List.mem_append_left _ hb
      rw [hpend] at hmem
      exact h.unfinished (by simpa using hmem)
    have hl := (h.short hj).2
    simp only [join_nil,List.length_nil,Nat.zero_add] at hl
    rw [newlines_alone hpend hl]
    exact takeLine_newlines _
  | cons x full =>
    refine .inr ⟨x,full,rfl,?_⟩
    obtain ⟨hx,hn⟩ := h.whole x List.mem_cons_self
    rw [join_cons,List.append_assoc,List.cons_append] at hpend
    obtain ⟨s,hs,hrest⟩ := holds_line hpend hn hb
    have hclean : 0 ∉ s ++ (r.recvs.filterMap id).flatten := by
      intro h0
      refine h.clean ?_
      rw [Receiver.pending,hs,List.append_assoc]
      exact List.mem_append_right _ (List.mem_cons_of_mem _ h0)
    rw [hs,takeLine_line hx hn (fun h0 => hclean (List.mem_append_left _ h0))]
    refine ⟨rfl,hrest,fun y hy => h.whole y (List.mem_cons_of_mem _ hy),h.unfinished,hclean,h.sizes,
      fun hj => ⟨(h.short hj).1,?_⟩⟩
    have hl := (h.short hj).2
    simp only [hs,join_cons,List.length_append,List.length_cons] at hl
    simp only
    omega

theorem Readable.call {r : Receiver} {full : List CStr} {j : Nat} {tail : Bytes}
    (h : Readable r full j tail) :
    (∃ x full', full = x :: full' ∧ r.recvLine.1 = some x ∧
        Readable r.recvLine.2 full' j tail ∧ r.recvLine.2.recvs.length ≤ r.recvs.length) ∨
      (r.recvLine.1 = none ∧ Readable r.recvLine.2 full j tail ∧
        (r.recvLine.2.recvs.length < r.recvs.length ∨ full = [] ∧ r.recvLine.2 = r)) := by
  obtain ⟨buf,recvs⟩ := r
  by_cases hb : newline ∈ buf
  · simp only [Receiver.recvLine,hb,if_true]
    rcases h.take hb with ⟨rfl,ht⟩ | ⟨x,full',rfl,hx,hr⟩
    · simp only at ht
      rw [ht]
      exact .inr ⟨rfl,h,.inr ⟨rfl,rfl⟩⟩
    · exact .inl ⟨x,full',rfl,hx,hr,Nat.le_refl _⟩
  · have hf := h.fill hb
    simp only [Receiver.recvLine,hb,if_false]
    have hshrink := fill_shrinks buf recvs
    split
    · next hn =>
      have hless : (Stratum.fill buf recvs).2.length < recvs.length := by
        refine hshrink.resolve_left (fun he => ?_)
        subst he
        exact hb hn
      rcases hf.take hn with ⟨rfl,ht⟩ | ⟨x,full',rfl,hx,hr⟩
      · simp only at ht
        rw [ht]
        exact .inr ⟨rfl,hf,.inl hless⟩
      · exact .inl ⟨x,full',rfl,hx,hr,Nat.le_of_lt hless⟩
    · refine .inr ⟨rfl,hf,?_⟩
      rcases hshrink with rfl | hless
      · refine .inr ⟨?_,rfl⟩
        cases full with
        | nil => rfl
        | cons x full =>
          have hp := h.pending
          simp only [Receiver.pending,List.filterMap_nil,List.flatten_nil,List.append_nil] at hp
          simp [hp] at hb
      · exact .inl hless

theorem received_stuck {r : Receiver} (h : r.recvLine = (none,r)) (n : Nat) :
    r.received n = [] := by
  induction n with
  | zero => rfl
  | succ n ih => simp [Receiver.received,h,ih]

theorem Readable.received {r : Receiver} {full : List CStr} {j : Nat} {tail : Bytes}
    (h : Readable r full j tail) {n : Nat} (hn : full.length+r.recvs.length ≤ n) :
    r.received n = full := by
  induction n generalizing r full with
  | zero =>
    have hf : full = [] := List.length_eq_zero_iff.mp (by omega)
    rw [hf]
    rfl
  | succ n ih =>
    simp only [Receiver.received]
    rcases h.call with ⟨x,full',rfl,hx,hr,hl⟩ | ⟨hx,hr,hl⟩
    · simp only [List.length_cons] at hn
      rw [hx,ih hr (by omega)]
      rfl
    · rw [hx]
      rcases hl with hl | ⟨rfl,hsame⟩
      · rw [ih hr (by omega)]
        rfl
      · have hstuck : r.recvLine = (none,r) := Prod.ext hx hsame
        rw [hsame,received_stuck hstuck]
        rfl

/-- The stream is read as it is: after enough calls its lines have been returned. -/
def Reads (recvs : List Recv) (stream : Bytes) : Prop :=
  ∃ n, ∀ k, n ≤ k → Receiver.received k ⟨[],recvs⟩ = lines stream

def beforeEmpty (stream : Bytes) : List CStr :=
  (cut newline stream).1.takeWhile (fun x => !x.isEmpty)

theorem beforeEmpty_nonempty {stream : Bytes} {x : CStr} (hx : x ∈ beforeEmpty stream) :
    (!x.isEmpty) = true :=
  List.mem_takeWhile_imp (p := fun x : CStr => !x.isEmpty) hx

theorem beforeEmpty_whole {stream : Bytes} : ∀ x ∈ beforeEmpty stream,x ≠ [] ∧ newline ∉ x := by
  intro x hx
  obtain ⟨-,hn,-⟩ := join_cut newline stream
  have hne := beforeEmpty_nonempty hx
  have hmem : x ∈ (cut newline stream).1 := List.takeWhile_subset _ hx
  exact ⟨by rintro rfl; simp at hne,hn x hmem⟩

theorem stream_split (stream : Bytes) :
    stream = join newline (beforeEmpty stream) ++
      (join newline (afterEmpty stream) ++ (cut newline stream).2) := by
  obtain ⟨hj,-,-⟩ := join_cut newline stream
  rw [← List.append_assoc,← join_append,beforeEmpty,afterEmpty,List.takeWhile_append_dropWhile]
  exact hj.symm

theorem lines_split (stream : Bytes) :
    lines stream = beforeEmpty stream ++ (afterEmpty stream).filter (fun x => !x.isEmpty) := by
  have hsplit : beforeEmpty stream ++ afterEmpty stream = (cut newline stream).1 :=
    List.takeWhile_append_dropWhile
  have hfull : (beforeEmpty stream).filter (fun x => !x.isEmpty) = beforeEmpty stream :=
    List.filter_eq_self.mpr (fun x hx => beforeEmpty_nonempty hx)
  rw [lines,← hsplit,List.filter_append,hfull]

theorem afterEmpty_head {stream : Bytes} (h : afterEmpty stream ≠ []) :
    ∃ rest, afterEmpty stream = [] :: rest := by
  cases ha : afterEmpty stream with
  | nil => exact absurd ha h
  | cons x rest =>
    have hx := List.head?_dropWhile_not (fun x : CStr => !x.isEmpty) (cut newline stream).1
    rw [show (cut newline stream).1.dropWhile _ = x :: rest from ha] at hx
    have hnil : x = [] := by simpa using hx
    exact ⟨rest,by rw [hnil]⟩

theorem reads_of_last {recvs : List Recv} {stream : Bytes} (h0 : 0 ∉ stream)
    (hf : Feeds recvs stream) (h : EmptyLinesLast stream) : Reads recvs stream := by
  obtain ⟨hempty,hlast⟩ := h
  obtain ⟨-,-,htail⟩ := join_cut newline stream
  have hrep : afterEmpty stream = List.replicate (afterEmpty stream).length [] :=
    List.eq_replicate_iff.mpr ⟨rfl,hempty⟩
  have hlines : lines stream = beforeEmpty stream := by
    have hnone : (afterEmpty stream).filter (fun x => !x.isEmpty) = [] :=
      List.filter_eq_nil_iff.mpr (fun x hx => by simp [hempty x hx])
    rw [lines_split,hnone,List.append_nil]
  have hpend : Receiver.pending ⟨[],recvs⟩ = stream := by
    rw [Receiver.pending,List.nil_append,hf.stream]
  have hr : Readable ⟨[],recvs⟩ (beforeEmpty stream) (afterEmpty stream).length
      (cut newline stream).2 := by
    refine ⟨?_,beforeEmpty_whole,htail,by rwa [hpend],fun s hs => (hf.sizes s hs).2,?_⟩
    · rw [hpend,← join_replicate,← hrep]
      exact stream_split stream
    · intro hj
      refine ⟨hlast.resolve_left (fun he => hj (by rw [he]; rfl)),by simp⟩
  refine ⟨(beforeEmpty stream).length+recvs.length,fun k hk => ?_⟩
  rw [hlines]
  exact hr.received hk

def bytewise (s : Bytes) : List Recv := s.map (fun b => some [b])

theorem bytewise_stream (s : Bytes) : ((bytewise s).filterMap id).flatten = s := by
  induction s with
  | nil => rfl
  | cons b s ih =>
    simp only [bytewise,List.map_cons,List.filterMap_cons,id_eq,List.flatten_cons] at ih ⊢
    rw [ih]
    rfl

theorem bytewise_sizes {s : Bytes} {x : Bytes} (h : some x ∈ bytewise s) :
    x ≠ [] ∧ x.length ≤ recvSize := by
  obtain ⟨b,-,hb⟩ := List.mem_map.mp h
  simp only [Option.some.injEq] at hb
  subst hb
  exact ⟨by simp,by simp [recvSize]⟩

theorem fill_bytewise {x : Bytes} (hx : newline ∉ x) {buf : CStr} (hb : newline ∉ buf)
    (rest : List Recv) :
    fill buf (bytewise (x ++ [newline]) ++ rest) = (buf ++ x ++ [newline],rest) := by
  induction x generalizing buf with
  | nil => simp [bytewise,fill]
  | cons a x ih =>
    simp only [List.mem_cons,not_or] at hx
    have hba : newline ∉ buf ++ [a] := by simp [hb,hx.1]
    have hrest := ih hx.2 hba
    simp only [bytewise,List.cons_append,List.map_cons,fill,if_neg hba] at hrest ⊢
    rw [hrest]
    simp

theorem recvLine_bytewise {x : Bytes} (hx : x ≠ [] ∧ newline ∉ x) (rest : List Recv) :
    Receiver.recvLine ⟨[],bytewise (x ++ [newline]) ++ rest⟩ = (some x,⟨[],rest⟩) := by
  have hf := fill_bytewise hx.2 (show newline ∉ ([] : CStr) from List.not_mem_nil) rest
  have ht := takeLine_line hx.1 hx.2 (s := []) List.not_mem_nil
  rw [List.nil_append] at hf
  simp [Receiver.recvLine,hf,ht]

theorem received_bytewise {full : List CStr} (h : ∀ x ∈ full,x ≠ [] ∧ newline ∉ x)
    (rest : List Recv) (m : Nat) :
    Receiver.received (full.length+m) ⟨[],bytewise (join newline full) ++ rest⟩ =
      full ++ Receiver.received m ⟨[],rest⟩ := by
  induction full with
  | nil => simp [bytewise]
  | cons x full ih =>
    have hcall := recvLine_bytewise (h x List.mem_cons_self) (bytewise (join newline full) ++ rest)
    have hrest := ih (fun y hy => h y (List.mem_cons_of_mem _ hy))
    have hcons : bytewise (join newline (x :: full)) ++ rest =
        bytewise (x ++ [newline]) ++ (bytewise (join newline full) ++ rest) := by
      simp [bytewise]
    rw [List.length_cons,Nat.add_right_comm,hcons]
    simp only [Receiver.received,hcall,hrest]
    rfl

theorem received_empty (rest : List Recv) (m : Nat) :
    Receiver.received m ⟨[],some [newline] :: rest⟩ = [] := by
  have hn : takeLine [newline] = (none,[newline]) := takeLine_newlines 1
  have hfirst : Receiver.recvLine ⟨[],some [newline] :: rest⟩ = (none,⟨[newline],rest⟩) := by
    simp [Receiver.recvLine,fill,hn]
  have hthen : Receiver.recvLine ⟨[newline],rest⟩ = (none,⟨[newline],rest⟩) := by
    simp [Receiver.recvLine,hn]
  cases m with
  | zero => rfl
  | succ m => simp [Receiver.received,hfirst,received_stuck hthen]

theorem nonempty_last {stream : Bytes}
    (h : ∀ recvs, Feeds recvs stream → Reads recvs stream) : ∀ x ∈ afterEmpty stream,x = [] := by
  intro x hx
  obtain ⟨rest,hrest⟩ := afterEmpty_head (List.ne_nil_of_mem hx)
  have hfeeds : Feeds (bytewise stream) stream := ⟨bytewise_stream _,fun _ => bytewise_sizes⟩
  obtain ⟨n,hn⟩ := h _ hfeeds
  have hall := hn ((beforeEmpty stream).length+n) (Nat.le_add_left _ _)
  have hsplit : bytewise stream = bytewise (join newline (beforeEmpty stream)) ++
      some [newline] :: bytewise (join newline rest ++ (cut newline stream).2) := by
    conv_lhs => rw [stream_split stream,hrest]
    simp [bytewise]
  rw [hsplit,received_bytewise beforeEmpty_whole,received_empty,lines_split] at hall
  have hnone := List.append_cancel_left hall
  by_contra hne
  have hmem : x ∈ (afterEmpty stream).filter (fun x => !x.isEmpty) :=
    List.mem_filter.mpr ⟨hx,by simpa using hne⟩
  rw [← hnone] at hmem
  exact List.not_mem_nil hmem

theorem received_grows (m : Nat) (r : Receiver) :
    r.recvLine.1.toList.length ≤ (r.received (m+1)).length := by
  simp [Receiver.received]

theorem unfinished_last {stream : Bytes}
    (h : ∀ recvs, Feeds recvs stream → Reads recvs stream)
    (hempty : ∀ x ∈ afterEmpty stream,x = []) :
    afterEmpty stream = [] ∨ (cut newline stream).2 = [] ∨
      recvSize ≤ (afterEmpty stream).length := by
  by_contra hnot
  simp only [not_or,Nat.not_le] at hnot
  obtain ⟨hafter,htail,hshort⟩ := hnot
  obtain ⟨c,t,hct⟩ := List.exists_cons_of_ne_nil htail
  obtain ⟨-,-,hclean⟩ := join_cut newline stream
  have hc : c ≠ newline := by
    rintro rfl
    rw [hct] at hclean
    exact hclean List.mem_cons_self
  have hrep : afterEmpty stream = List.replicate (afterEmpty stream).length [] :=
    List.eq_replicate_iff.mpr ⟨rfl,hempty⟩
  -- the empty lines and the first byte of the unfinished one come in one fragment
  let s := List.replicate (afterEmpty stream).length newline ++ [c]
  have hstream : stream = join newline (beforeEmpty stream) ++ (s ++ t) := by
    conv_lhs => rw [stream_split stream,hrep,join_replicate,hct]
    simp [s]
  have hfeeds : Feeds (bytewise (join newline (beforeEmpty stream)) ++ some s :: bytewise t)
      stream := by
    refine ⟨?_,?_⟩
    · conv_rhs => rw [hstream]
      have hmore : ((some s :: bytewise t).filterMap id).flatten = s ++ t := by
        show s ++ ((bytewise t).filterMap id).flatten = s ++ t
        rw [bytewise_stream]
      rw [List.filterMap_append,List.flatten_append,bytewise_stream,hmore]
    · intro y hy
      simp only [List.mem_append,List.mem_cons,Option.some.injEq] at hy
      rcases hy with hy | rfl | hy
      · exact bytewise_sizes hy
      · exact ⟨by simp [s],by simp only [s,List.length_append,List.length_replicate,
          List.length_singleton]; omega⟩
      · exact bytewise_sizes hy
  obtain ⟨n,hn⟩ := h _ hfeeds
  have hall := hn ((beforeEmpty stream).length+(n+1)) (by omega)
  rw [received_bytewise beforeEmpty_whole,lines_split] at hall
  have hnone := List.append_cancel_left hall
  have hfilter : (afterEmpty stream).filter (fun x => !x.isEmpty) = [] :=
    List.filter_eq_nil_iff.mpr (fun x hx => by simp [hempty x hx])
  have hmem : newline ∈ s := by
    refine List.mem_append_left _ (List.mem_replicate.mpr ⟨?_,rfl⟩)
    exact fun he => hafter (List.length_eq_zero_iff.mp he)
  have hline : (Receiver.recvLine ⟨[],some s :: bytewise t⟩).1 = some [c] := by
    simpa [Receiver.recvLine,fill,hmem] using takeLine_fragment _ hc
  have hgrows := received_grows n ⟨[],some s :: bytewise t⟩
  rw [hnone,hfilter,hline] at hgrows
  simp at hgrows

/-- Every fragmentation gives the lines of the stream exactly when its empty lines come
last. -/
theorem reads_its_lines (stream : Bytes) (h0 : 0 ∉ stream) :
    (∀ recvs, Feeds recvs stream → Reads recvs stream) ↔ EmptyLinesLast stream := by
  refine ⟨fun h => ?_,fun h recvs hf => reads_of_last h0 hf h⟩
  have hempty := nonempty_last h
  exact ⟨hempty,unfinished_last h hempty⟩

/-- Two lines and an empty one behind them. -/
theorem reads_its_lines_at : Reads [some [97,10,98],some [10,10]] [97,10,98,10,10] :=
  (reads_its_lines [97,10,98,10,10] (by decide)).mpr (by decide) _
    ⟨by decide,by simp [recvSize]⟩

/-- An empty line, `ab` and `cd` in one fragment: `cd` is lost. -/
theorem empty_line_loses_one :
    Feeds [some [10,97,98,10,99,100,10]] [10,97,98,10,99,100,10] ∧
      lines [10,97,98,10,99,100,10] = [[97,98],[99,100]] ∧
      (∀ m, Receiver.received (m+1) ⟨[],[some [10,97,98,10,99,100,10]]⟩ = [[97,98]]) ∧
      ¬Reads [some [10,97,98,10,99,100,10]] [10,97,98,10,99,100,10] := by
  have hcall : Receiver.recvLine ⟨[],[some [10,97,98,10,99,100,10]]⟩ =
      (some [97,98],⟨[],[]⟩) := by decide
  have hend : Receiver.recvLine ⟨[],[]⟩ = (none,⟨[],[]⟩) := by decide
  have hlines : lines [10,97,98,10,99,100,10] = [[97,98],[99,100]] := by decide
  have hreceived (m : Nat) :
      Receiver.received (m+1) ⟨[],[some [10,97,98,10,99,100,10]]⟩ = [[97,98]] := by
    simp [Receiver.received,hcall,received_stuck hend]
  refine ⟨⟨by decide,by simp [recvSize]⟩,hlines,hreceived,?_⟩
  rintro ⟨n,hn⟩
  have h := hn (n+1) (Nat.le_succ n)
  rw [hreceived,hlines] at h
  exact absurd h (by decide)

end VkMiner.Stratum
