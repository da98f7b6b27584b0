import Mathlib.Data.List.Basic
import Mathlib.Data.List.GetD
import Mathlib.Tactic.IntervalCases
import VkMiner.Stratum.Mixing
set_option autoImplicit false

/-! The height that a notify with a coinbase is logged under: where `getblocheight` reads, and what
it makes of a script that begins with the height. -/

namespace VkMiner.Stratum

variable {b : Bytes} {stays : UInt8 → Bool} {m p j j' fuel fuel' : Nat}

/-! ### The reads -/

/-- `scanWhile` of a buffer with an end: none where a byte behind it is read. -/
def scanIn (b : Bytes) (stays : UInt8 → Bool) (m : Nat) : Nat → Nat → Option Nat
  | 0,_ => none
  | fuel+1,p =>
    match b[p]? with
    | none => none
    | some x => if stays x && p < m then scanIn b stays m fuel (p+1) else some p

/-- The bytes of the height behind `p`, which stands before the length of the push. -/
def readPush (b : Bytes) (p : Nat) : Option UInt32 := do
  let hlen ← b[p+1]?
  let low ← b[p+2]?
  let high ← b[p+3]?
  let height := low.toNat+256*high.toNat
  if hlen = 4 then
    let low ← b[p+4]?
    let high ← b[p+5]?
    some (UInt32.ofNat (height+65536*(low.toNat+256*high.toNat)))
  else if hlen = 3 then
    let top ← b[p+4]?
    some (UInt32.ofNat (height+65536*top.toNat))
  else some (UInt32.ofNat height)

def getblocheightIn (b : Bytes) : Option UInt32 := do
  let m := b.length-2
  let p ← scanIn b (fun x => x ≠ 255) m (b.length+1) 32
  let p ← scanIn b (fun x => x = 255) m (b.length+1) p
  let last ← b[p-1]?
  if last = 255 then
    let before ← b[p-2]?
    if before = 255 then readPush b p else some 0
  else some 0

/-- Where a scan from `p` comes to rest. -/
structure Stops (b : Bytes) (stays : UInt8 → Bool) (m p j : Nat) : Prop where
  reached : p ≤ j
  passed : ∀ k, p ≤ k → k < j → stays (b.getD k 0) = true ∧ k < m
  rests : stays (b.getD j 0) = false ∨ m ≤ j

theorem Stops.unique (h : Stops b stays m p j) (h' : Stops b stays m p j') : j = j' := by
  rcases Nat.lt_trichotomy j j' with hlt | heq | hgt
  · have hp := h'.passed j h.reached hlt
    rcases h.rests with hr | hr
    · rw [hp.1] at hr
      cases hr
    · omega
  · exact heq
  · have hp := h.passed j' h'.reached hgt
    rcases h'.rests with hr | hr
    · rw [hp.1] at hr
      cases hr
    · omega

theorem scanWhile_stops (hf : m-p ≤ fuel) : Stops b stays m p (scanWhile b stays m fuel p) := by
  induction fuel generalizing p with
  | zero =>
    have hstay : scanWhile b stays m 0 p = p := rfl
    rw [hstay]
    exact ⟨Nat.le_refl p,fun k h₁ h₂ => by omega,.inr (by omega)⟩
  | succ fuel ih =>
    unfold scanWhile
    cases hs : stays (b.getD p 0) && p < m with
    | false =>
      simp only [Bool.false_eq_true,if_false]
      refine ⟨Nat.le_refl p,fun k h₁ h₂ => by omega,?_⟩
      rcases Bool.and_eq_false_iff.mp hs with hs | hs
      · exact .inl hs
      · exact .inr (by simpa using hs)
    | true =>
      obtain ⟨hstay,hlt⟩ := Bool.and_eq_true_iff.mp hs
      have hlt : p < m := of_decide_eq_true hlt
      have hrest := ih (p := p+1) (by omega)
      simp only [if_true]
      refine ⟨by have := hrest.reached; omega,fun k h₁ h₂ => ?_,hrest.rests⟩
      rcases Nat.eq_or_lt_of_le h₁ with rfl | h₁
      · exact ⟨hstay,hlt⟩
      · exact hrest.passed k h₁ h₂

theorem scanWhile_eq (hf : m-p ≤ fuel) (h : Stops b stays m p j) :
    scanWhile b stays m fuel p = j := (scanWhile_stops hf).unique h

theorem byte_at {i : Nat} (h : i < b.length) : b[i]? = some (b.getD i 0) := by
  rw [List.getElem?_eq_getElem h,List.getD_eq_getElem?_getD,List.getElem?_eq_getElem h]
  rfl

theorem Stops.inside (h : Stops b stays m p j) (hp : p < b.length) (hm : m < b.length) :
    j < b.length := by
  by_contra hj
  have hlast := h.passed (j-1) (by omega) (by omega)
  omega

theorem scanIn_eq (hp : p < b.length) (hm : m < b.length) (hf : m-p < fuel)
    (h : Stops b stays m p j) : scanIn b stays m fuel p = some j := by
  induction fuel generalizing p with
  | zero => omega
  | succ fuel ih =>
    unfold scanIn
    rw [byte_at hp]
    rcases Nat.eq_or_lt_of_le h.reached with rfl | hlt
    · have hs : (stays (b.getD p 0) && decide (p < m)) = false := by
        rcases h.rests with hr | hr
        · rw [hr,Bool.false_and]
        · rw [decide_eq_false (by omega),Bool.and_false]
      simp only [hs,Bool.false_eq_true,if_false]
    · obtain ⟨hstay,hpm⟩ := h.passed p (Nat.le_refl p) hlt
      have hs : (stays (b.getD p 0) && decide (p < m)) = true := by
        rw [hstay,decide_eq_true hpm]
        rfl
      simp only [hs,if_true]
      exact ih (by omega) (by omega) ⟨hlt,fun k h₁ h₂ => h.passed k (by omega) h₂,h.rests⟩

def furtherBytes (hlen : UInt8) : Nat := if hlen = 4 then 2 else if hlen = 3 then 1 else 0

theorem readPush_isSome (b : Bytes) (p : Nat) :
    (readPush b p).isSome = true ↔ p+3+furtherBytes (b.getD (p+1) 0) < b.length := by
  unfold readPush furtherBytes
  by_cases h₃ : p+3 < b.length
  · rw [byte_at (i := p+1) (by omega),byte_at (i := p+2) (by omega),byte_at h₃]
    simp only [Option.bind_eq_bind,Option.bind_some]
    split
    · by_cases h₅ : p+5 < b.length
      · rw [byte_at (i := p+4) (by omega),byte_at h₅]
        simp only [Option.bind_some,Option.isSome_some,true_iff]
        omega
      · have hnone : b[p+5]? = none := List.getElem?_eq_none (by omega)
        rw [hnone]
        cases b[p+4]? <;> simp <;> omega
    · split
      · by_cases h₄ : p+4 < b.length
        · rw [byte_at h₄]
          simp only [Option.bind_some,Option.isSome_some,true_iff]
          omega
        · have hnone : b[p+4]? = none := List.getElem?_eq_none (by omega)
          simp only [hnone,Option.bind_none,Option.isSome_none,Bool.false_eq_true,false_iff]
          omega
      · simp only [Option.isSome_some,true_iff]
        omega
  · have hnone : b[p+3]? = none := List.getElem?_eq_none (by omega)
    rw [hnone]
    cases b[p+1]? <;> cases b[p+2]? <;> simp <;> omega

theorem readPush_eq (h : p+3+furtherBytes (b.getD (p+1) 0) < b.length) :
    readPush b p = some (UInt32.ofNat (le16dec b (p+2)+
      (if b.getD (p+1) 0 = 4 then 65536*le16dec b (p+4)
        else if b.getD (p+1) 0 = 3 then 65536*(b.getD (p+4) 0).toNat else 0))) := by
  unfold furtherBytes at h
  unfold readPush
  rw [byte_at (i := p+1) (by omega),byte_at (i := p+2) (by omega),byte_at (i := p+3) (by omega)]
  simp only [Option.bind_eq_bind,Option.bind_some,le16dec]
  split
  · next h₄ =>
    rw [if_pos h₄] at h
    rw [byte_at (i := p+4) (by omega),byte_at (i := p+5) (by omega)]
    rfl
  · next h₄ =>
    rw [if_neg h₄] at h
    split
    · next h₃ =>
      rw [if_pos h₃] at h
      rw [byte_at (i := p+4) (by omega)]
      rfl
    · rfl

/-- The byte behind the mark: two of 0xff at least, the run of which begins behind the 32nd byte or
goes on there, and ends before the last byte. -/
def Mark (b : Bytes) (j : Nat) : Prop :=
  ∃ i, Stops b (fun x => x ≠ 255) (b.length-2) 32 i ∧
    Stops b (fun x => x = 255) (b.length-2) i j ∧ b.getD (j-1) 0 = 255 ∧ b.getD (j-2) 0 = 255

/-- There is a 33rd byte, and behind a mark there is room for a height. -/
def Roomy (b : Bytes) : Prop :=
  32 < b.length ∧ ∀ j, Mark b j → j+3+furtherBytes (b.getD (j+1) 0) < b.length

theorem scans_exist (b : Bytes) : ∃ i j, Stops b (fun x => x ≠ 255) (b.length-2) 32 i ∧
    Stops b (fun x => x = 255) (b.length-2) i j :=
  ⟨_,_,scanWhile_stops (Nat.sub_le _ 32),scanWhile_stops (Nat.sub_le _ _)⟩

theorem reads_eq {i : Nat} (hl : 32 < b.length)
    (hi : Stops b (fun x => x ≠ 255) (b.length-2) 32 i)
    (hj : Stops b (fun x => x = 255) (b.length-2) i j) :
    getblocheightIn b = if b.getD (j-1) 0 = 255 ∧ b.getD (j-2) 0 = 255 then readPush b j
      else some 0 := by
  have hm : b.length-2 < b.length := by omega
  have hib := hi.inside hl hm
  have hjb := hj.inside hib hm
  have hscan₁ := scanIn_eq hl hm (by omega : b.length-2-32 < b.length+1) hi
  have hscan₂ := scanIn_eq hib hm (by omega : b.length-2-i < b.length+1) hj
  have hlast : b[j-1]? = some (b.getD (j-1) 0) := byte_at (by omega)
  have hbefore : b[j-2]? = some (b.getD (j-2) 0) := byte_at (by omega)
  simp only [getblocheightIn,hscan₁,hscan₂,hlast,hbefore,Option.bind_eq_bind,Option.bind_some]
  by_cases h₁ : b.getD (j-1) 0 = 255
  · by_cases h₂ : b.getD (j-2) 0 = 255
    · simp only [h₁,h₂,if_true,and_self]
    · simp only [h₁,h₂,if_true,if_false,and_false]
  · simp only [h₁,if_false,false_and]

theorem mark_iff {i : Nat} (hi : Stops b (fun x => x ≠ 255) (b.length-2) 32 i)
    (hj : Stops b (fun x => x = 255) (b.length-2) i j) (j' : Nat) :
    Mark b j' ↔ j' = j ∧ b.getD (j-1) 0 = 255 ∧ b.getD (j-2) 0 = 255 := by
  constructor
  · rintro ⟨i',hi',hj',h₁,h₂⟩
    obtain rfl := hi.unique hi'
    obtain rfl := hj.unique hj'
    exact ⟨rfl,h₁,h₂⟩
  · rintro ⟨rfl,h₁,h₂⟩
    exact ⟨i,hi,hj,h₁,h₂⟩

theorem readsInside_value (h : Roomy b) : getblocheightIn b = some (getblocheight b) := by
  obtain ⟨hl,hroom⟩ := h
  obtain ⟨i,j,hi,hj⟩ := scans_exist b
  have hwhile₁ := scanWhile_eq (Nat.sub_le _ 32) hi
  have hwhile₂ := scanWhile_eq (Nat.sub_le _ _) hj
  rw [reads_eq hl hi hj]
  simp only [getblocheight,hwhile₁,hwhile₂]
  split
  · next hmark => exact readPush_eq (hroom j ((mark_iff hi hj j).mpr ⟨rfl,hmark⟩))
  · rfl

theorem readsInside_iff (b : Bytes) : (getblocheightIn b).isSome = true ↔ Roomy b := by
  constructor
  · intro h
    obtain ⟨i,j,hi,hj⟩ := scans_exist b
    by_cases hl : 32 < b.length
    · refine ⟨hl,?_⟩
      intro j' hm
      obtain ⟨rfl,hmark⟩ := (mark_iff hi hj j').mp hm
      rw [reads_eq hl hi hj,if_pos hmark] at h
      exact (readPush_isSome _ _).mp h
    · have hnone : b[32]? = none := List.getElem?_eq_none (by omega)
      have hscan : scanIn b (fun x => x ≠ 255) (b.length-2) (b.length+1) 32 = none := by
        simp only [scanIn,hnone]
      simp only [getblocheightIn,hscan,Option.bind_eq_bind,Option.bind_none,Option.isSome_none,
        Bool.false_eq_true] at h
  · intro h
    rw [readsInside_value h]
    rfl

/-! ### Coinbases that begin with a height -/

def leValue (b : Bytes) : Nat := b.foldr (fun x acc => x.toNat+256*acc) 0

/-- A coinbase whose script begins with the push of a height. The length of such a script is one
byte: it has a hundred bytes at most. `after` is the sequence, the outputs and the lock time. -/
structure HeightCoinbase where
  version : Fixed 4
  push : Bytes
  more : Bytes
  after : Bytes
  pushed : 1 ≤ push.length ∧ push.length ≤ 4
  script : 1+push.length+more.length < 253
  sequence : 4 ≤ after.length

namespace HeightCoinbase

def front (t : HeightCoinbase) : Bytes :=
  t.version.val ++ [1] ++ List.replicate 32 0 ++ List.replicate 4 255

def behind (t : HeightCoinbase) : Bytes := t.more ++ t.after

def bytes (t : HeightCoinbase) : Bytes :=
  t.front ++ (UInt8.ofNat (1+t.push.length+t.more.length) :: UInt8.ofNat t.push.length ::
    (t.push ++ t.behind))

def height (t : HeightCoinbase) : Nat := leValue t.push

variable (t : HeightCoinbase)

theorem front_length : t.front.length = 41 := by
  simp [front,t.version.2]

theorem bytes_length : t.bytes.length = 43+t.push.length+t.more.length+t.after.length := by
  simp only [bytes,List.length_append,front_length,List.length_cons,behind]
  omega

theorem front_getD {k : Nat} (hlow : 32 ≤ k) (hhigh : k < 41) :
    t.bytes.getD k 0 = if k < 37 then 0 else 255 := by
  have hk : t.bytes.getD k 0 = t.front.getD k 0 := by
    rw [bytes,List.getD_append]
    rw [front_length]
    exact hhigh
  obtain ⟨v₀,v₁,v₂,v₃,hv⟩ := List.length_eq_four.mp t.version.2
  rw [hk,front,hv]
  interval_cases k <;> rfl

theorem rest_getD (k : Nat) : t.bytes.getD (41+k) 0 =
    (UInt8.ofNat (1+t.push.length+t.more.length) :: UInt8.ofNat t.push.length ::
      (t.push ++ t.behind)).getD k 0 := by
  rw [bytes,List.getD_append_right]
  · rw [front_length,Nat.add_sub_cancel_left]
  · rw [front_length]
    omega

theorem length_getD : t.bytes.getD 41 0 ≠ 255 := by
  have hs := t.script
  have h := t.rest_getD 0
  rw [h,List.getD_cons_zero]
  intro hx
  have hn := congrArg UInt8.toNat hx
  rw [UInt8.toNat_ofNat'] at hn
  have h255 : (255 : UInt8).toNat = 255 := rfl
  omega

theorem push_getD (k : Nat) : t.bytes.getD (43+k) 0 = (t.push ++ t.behind).getD k 0 := by
  have h := t.rest_getD (k+2)
  rwa [List.getD_cons_succ,List.getD_cons_succ,show 41+(k+2) = 43+k by omega] at h

theorem first_stop : Stops t.bytes (fun x => x ≠ 255) (t.bytes.length-2) 32 37 := by
  have hl := t.bytes_length
  have hp := t.pushed
  refine ⟨by omega,fun k h₁ h₂ => ⟨?_,by omega⟩,.inl ?_⟩
  · rw [t.front_getD h₁ (by omega),if_pos h₂]
    rfl
  · rw [t.front_getD (by omega) (by omega),if_neg (by omega)]
    rfl

theorem second_stop : Stops t.bytes (fun x => x = 255) (t.bytes.length-2) 37 41 := by
  have hl := t.bytes_length
  have hp := t.pushed
  refine ⟨by omega,fun k h₁ h₂ => ⟨?_,by omega⟩,.inl ?_⟩
  · rw [t.front_getD (by omega) h₂,if_neg (by omega)]
    rfl
  · exact decide_eq_false t.length_getD

theorem roomy : Roomy t.bytes := by
  have hl := t.bytes_length
  have hp := t.pushed
  have hs := t.sequence
  refine ⟨by omega,?_⟩
  rintro j ⟨i,hi,hj,-,-⟩
  obtain rfl := t.first_stop.unique hi
  obtain rfl := t.second_stop.unique hj
  have hlen : t.bytes.getD (41+1) 0 = UInt8.ofNat t.push.length := t.rest_getD 1
  have hn : (UInt8.ofNat t.push.length).toNat = t.push.length := by
    rw [UInt8.toNat_ofNat']
    omega
  rw [hlen]
  unfold furtherBytes
  split
  · next h₄ =>
    rw [h₄] at hn
    have h4 : (4 : UInt8).toNat = 4 := rfl
    omega
  · split
    · next h₃ =>
      rw [h₃] at hn
      have h3 : (3 : UInt8).toNat = 3 := rfl
      omega
    · omega

theorem scanned : getblocheight t.bytes =
    UInt32.ofNat (le16dec (t.push ++ t.behind) 0+
      (if t.push.length = 4 then 65536*le16dec (t.push ++ t.behind) 2
        else if t.push.length = 3 then 65536*((t.push ++ t.behind).getD 2 0).toNat else 0)) := by
  have hp := t.pushed
  have h₁ := scanWhile_eq (Nat.sub_le _ 32) t.first_stop
  have h₂ := scanWhile_eq (Nat.sub_le _ 37) t.second_stop
  have h₄₀ : t.bytes.getD (41-1) 0 = 255 := t.front_getD (k := 40) (by omega) (by omega)
  have h₃₉ : t.bytes.getD (41-2) 0 = 255 := t.front_getD (k := 39) (by omega) (by omega)
  have hlen : t.bytes.getD (41+1) 0 = UInt8.ofNat t.push.length := t.rest_getD 1
  have hle₀ : le16dec t.bytes (41+2) = le16dec (t.push ++ t.behind) 0 := by
    rw [le16dec,le16dec,← t.push_getD 0,← t.push_getD 1]
  have hle₂ : le16dec t.bytes (41+4) = le16dec (t.push ++ t.behind) 2 := by
    rw [le16dec,le16dec,← t.push_getD 2,← t.push_getD 3]
  have htop : t.bytes.getD (41+4) 0 = (t.push ++ t.behind).getD 2 0 := t.push_getD 2
  have hn : (UInt8.ofNat t.push.length).toNat = t.push.length := by
    rw [UInt8.toNat_ofNat']
    omega
  have hfour : UInt8.ofNat t.push.length = 4 ↔ t.push.length = 4 := by
    rw [← UInt8.toNat_inj,hn]
    rfl
  have hthree : UInt8.ofNat t.push.length = 3 ↔ t.push.length = 3 := by
    rw [← UInt8.toNat_inj,hn]
    rfl
  simp only [getblocheight,h₁,h₂,h₄₀,h₃₉,hlen,hle₀,hle₂,htop,hfour,hthree,and_self,if_true]

theorem height_iff : (getblocheight t.bytes).toNat = t.height ↔
    (t.push.length = 1 → t.behind.getD 0 0 = 0) := by
  rw [t.scanned]
  obtain ⟨hlow,hhigh⟩ := t.pushed
  have hzero : ∀ x : UInt8, x = 0 ↔ x.toNat = 0 := fun x => UInt8.toNat_inj.symm
  unfold height
  rcases hpush : t.push with _ | ⟨x,_ | ⟨y,_ | ⟨z,_ | ⟨w,_ | ⟨v,rest⟩⟩⟩⟩⟩
  · simp [hpush] at hlow
  · have hx := x.toNat_lt
    have hb := (t.behind.getD 0 0).toNat_lt
    have hle : le16dec ([x] ++ t.behind) 0 = x.toNat+256*(t.behind.getD 0 0).toNat := rfl
    simp only [hle,List.length_singleton,leValue,List.foldr_cons,List.foldr_nil,true_imp_iff,
      Nat.reduceEqDiff,if_false,UInt32.toNat_ofNat',hzero]
    omega
  · have hx := x.toNat_lt
    have hy := y.toNat_lt
    have hle : le16dec ([x,y] ++ t.behind) 0 = x.toNat+256*y.toNat := rfl
    simp only [hle,List.length_cons,List.length_nil,leValue,List.foldr_cons,List.foldr_nil,
      Nat.reduceAdd,Nat.reduceEqDiff,if_false,UInt32.toNat_ofNat',false_imp_iff,iff_true]
    omega
  · have hx := x.toNat_lt
    have hy := y.toNat_lt
    have hz := z.toNat_lt
    have hle : le16dec ([x,y,z] ++ t.behind) 0 = x.toNat+256*y.toNat := rfl
    have htop : ([x,y,z] ++ t.behind).getD 2 0 = z := rfl
    simp only [hle,htop,List.length_cons,List.length_nil,leValue,List.foldr_cons,List.foldr_nil,
      Nat.reduceAdd,Nat.reduceEqDiff,if_false,if_true,UInt32.toNat_ofNat',false_imp_iff,iff_true]
    omega
  · have hx := x.toNat_lt
    have hy := y.toNat_lt
    have hz := z.toNat_lt
    have hw := w.toNat_lt
    have hle : le16dec ([x,y,z,w] ++ t.behind) 0 = x.toNat+256*y.toNat := rfl
    have hle₂ : le16dec ([x,y,z,w] ++ t.behind) 2 = z.toNat+256*w.toNat := rfl
    simp only [hle,hle₂,List.length_cons,List.length_nil,leValue,List.foldr_cons,List.foldr_nil,
      Nat.reduceAdd,Nat.reduceEqDiff,if_false,if_true,UInt32.toNat_ofNat',false_imp_iff,iff_true]
    omega
  · simp only [hpush,List.length_cons] at hhigh
    omega

end HeightCoinbase

/-! ### The notify -/

/-- The coinbase of an accepted notify is read inside its bounds, and has the height that its
script begins with. -/
def HeightSound (d : Dialect) (heap : Nat → UInt8) (c : StratumCtx) (params : Option Json) : Prop :=
  d ≠ .progpow → (stratumNotify d heap c params).1 = none →
    (getblocheightIn (stratumNotify d heap c params).2.job.coinbase).isSome = true ∧
      ∀ t : HeightCoinbase, (stratumNotify d heap c params).2.job.coinbase = t.bytes →
        (stratumNotify d heap c params).2.blockHeight.toNat = t.height

/-- What the coinbase has to be like that a notify lays out. -/
def HeightReadable (d : Dialect) (heap : Nat → UInt8) (c : StratumCtx) (params : Option Json) :
    Prop :=
  d ≠ .progpow → ∀ q, readCoinbaseNotify d params = .ok q → q.refusedLate = false →
    Roomy (layCoinbase heap c q) ∧
      ∀ t : HeightCoinbase, layCoinbase heap c q = t.bytes →
        t.push.length = 1 → t.behind.getD 0 0 = 0

theorem coinbase_taken {d : Dialect} (heap : Nat → UInt8) (c : StratumCtx) {params : Option Json}
    {q : CoinbaseNotify} (hd : d ≠ .progpow) (hq : readCoinbaseNotify d params = .ok q) :
    ((stratumNotify d heap c params).1 = none ↔ q.refusedLate = false) ∧
      (q.refusedLate = false →
        (stratumNotify d heap c params).2.job.coinbase = layCoinbase heap c q ∧
        (stratumNotify d heap c params).2.blockHeight = getblocheight (layCoinbase heap c q)) := by
  simp only [stratumNotify,hd,if_false,stratumBitcoinNotify,hq]
  refine ⟨takeCoinbaseNotify_refuses _ _ _,fun hlate => ?_⟩
  have hw := writeBranch_accepts (branchBuffer_length (writeVersion c q).job.merkle q.branch.length)
  have hall : q.branch.all (fun j => (branchEntry j).isSome) = true := by
    simpa [CoinbaseNotify.refusedLate] using hlate
  rw [hall] at hw
  simp only [takeCoinbaseNotify,hw,Bool.true_eq_false,if_false]
  exact ⟨rfl,rfl⟩

theorem block_height_iff (d : Dialect) (heap : Nat → UInt8) (c : StratumCtx)
    (params : Option Json) : HeightSound d heap c params ↔ HeightReadable d heap c params := by
  unfold HeightSound HeightReadable
  constructor
  · intro h hd q hq hlate
    obtain ⟨hacc,htaken⟩ := coinbase_taken heap c hd hq
    obtain ⟨hcoinbase,hheight⟩ := htaken hlate
    obtain ⟨hin,hbip⟩ := h hd (hacc.mpr hlate)
    rw [hcoinbase] at hin hbip
    refine ⟨(readsInside_iff _).mp hin,fun t ht => t.height_iff.mp ?_⟩
    rw [← ht,← hheight]
    exact hbip t ht
  · intro h hd hr
    cases hq : readCoinbaseNotify d params with
    | error e => simp [stratumNotify,hd,stratumBitcoinNotify,hq] at hr
    | ok q =>
      obtain ⟨hacc,htaken⟩ := coinbase_taken heap c hd hq
      obtain ⟨hcoinbase,hheight⟩ := htaken (hacc.mp hr)
      obtain ⟨hroom,hbyte⟩ := h hd q hq (hacc.mp hr)
      rw [hcoinbase,hheight]
      refine ⟨(readsInside_iff _).mpr hroom,fun t ht => ?_⟩
      rw [ht]
      exact t.height_iff.mpr (hbyte t ht)

/-- Two halves of one byte are accepted, and the 33rd byte is read. -/
theorem short_coinbase_read :
    ¬ ∀ (d : Dialect) (heap : Nat → UInt8) (c : StratumCtx) (params : Option Json),
      HeightSound d heap c params := by
  intro h
  obtain ⟨hin,-⟩ := h .bitcoin (fun _ => 0) .zero
    (plainNotify (ascii "a") (ascii "20000000") (word64 '2')) (by decide) (by decide)
  exact absurd hin (by decide)

end VkMiner.Stratum
