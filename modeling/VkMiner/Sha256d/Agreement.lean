import VkMiner.Sha256d.Digest
import VkMiner.Sha256d.Kernel
set_option autoImplicit false

/-! The kernel and the host find the same nonces, with the same hashes. -/

namespace VkMiner.Sha256d
open Loops Sha256 Glsl
open Progpow (Candidate)

variable {m m' : Nat → Word} {lo hi i : Nat} {w : Words 64} {v : Vars}

/-! ### The kernel's rounds and schedule -/

theorem sha256K_eq : sha256K = K := by decide +kernel

theorem sha256Iv_eq : sha256Iv = IV := by decide +kernel

def half (v : Vars) : Vars := ⟨v.e,v.f,v.g,v.h,v.a,v.b,v.c,v.d⟩

theorem sha256dRound4_half (w : Words 64) (i : Nat) (v : Vars) :
    half (sha256dRound4 w i v) = rounds K.read w.read i 4 v := by
  rw [← sha256K_eq]
  rfl

theorem sha256dRound4Shifted_eq (w : Words 64) (i : Nat) (v : Vars) :
    sha256dRound4Shifted w i v = rounds K.read w.read i 4 (half v) := by
  rw [← sha256K_eq]
  rfl

theorem sha256dRound8_eq (w : Words 64) (i : Nat) (v : Vars) :
    sha256dRound8 w i v = rounds K.read w.read i 8 v := by
  rw [sha256dRound8,sha256dRound4Shifted_eq,sha256dRound4_half,← rounds_add]

theorem roundsFrom4_half (w : Words 64) (v : Vars) :
    half (sha256dRoundsFrom4 w v) = rounds K.read w.read 4 60 v := by
  have turn (n c : Nat) : rounds K.read w.read (4 + n) c (rounds K.read w.read 4 n v) =
      rounds K.read w.read 4 (n + c) v := (rounds_add K.read w.read 4 n c v).symm
  simp only [sha256dRoundsFrom4,sha256dRound4_half,sha256dRound8_eq]
  rw [turn 8 8,turn 16 8,turn 24 8,turn 32 8,turn 40 8,turn 48 8,turn 56 4]

theorem roundsTo55_eq (w : Words 64) (v : Vars) :
    sha256dRoundsTo55 w v = rounds K.read w.read 0 56 v := by
  have turn (n : Nat) : rounds K.read w.read n 8 (rounds K.read w.read 0 n v) =
      rounds K.read w.read 0 (n + 8) v := by
    rw [rounds_add K.read w.read 0 n 8 v,Nat.zero_add]
  simp only [sha256dRoundsTo55,sha256dRound8_eq]
  rw [turn 8,turn 16,turn 24,turn 32,turn 40,turn 48]

theorem filled_sched (h : Filled m lo i w) (hlo : lo + 16 ≤ i) (hi : i < 64) :
    Filled m lo (i + 1) (sha256dSched w i) := h.extend hlo hi

theorem filled_sched4 (h : Filled m lo i w) (hlo : lo + 16 ≤ i) (hi : i + 4 ≤ 64) :
    Filled m lo (i + 4) (sha256dSched4 w i) := by
  have h₁ := filled_sched h hlo (by omega)
  have h₂ := filled_sched h₁ (by omega) (by omega)
  have h₃ := filled_sched h₂ (by omega) (by omega)
  exact filled_sched h₃ (by omega) (by omega)

theorem filled_sched8 (h : Filled m lo i w) (hlo : lo + 16 ≤ i) (hi : i + 8 ≤ 64) :
    Filled m lo (i + 8) (sha256dSched8 w i) :=
  filled_sched4 (filled_sched4 h hlo (by omega)) (by omega) (by omega)

theorem filled_20_63 (h : Filled m 4 20 w) : Filled m 4 64 (sha256dSchedule20_63 w) := by
  have h := filled_sched4 h (by omega) (by omega)
  have h := filled_sched8 (filled_sched8 h (by omega) (by omega)) (by omega) (by omega)
  have h := filled_sched8 (filled_sched8 h (by omega) (by omega)) (by omega) (by omega)
  exact filled_sched8 h (by omega) (by omega)

theorem filled_to60 (h : Filled m 0 16 w) : Filled m 0 61 (sha256dScheduleTo60 w) := by
  have h := filled_sched8 (filled_sched8 h (by omega) (by omega)) (by omega) (by omega)
  have h := filled_sched8 (filled_sched8 h (by omega) (by omega)) (by omega) (by omega)
  have h := filled_sched4 (filled_sched8 h (by omega) (by omega)) (by omega) (by omega)
  exact filled_sched h (by omega) (by omega)

theorem filled_61_63 (h : Filled m 0 61 w) : Filled m 0 64 (sha256dSchedule61_63 w) := by
  have h := filled_sched h (by omega) (by omega)
  have h := filled_sched h (by omega) (by omega)
  exact filled_sched h (by omega) (by omega)

theorem filled_assign (h : Filled m lo i w) (xs : List Word) (hi : i + xs.length ≤ 64)
    (hxs : ∀ j < xs.length, xs.getD j 0 = schedule m (i + j)) :
    Filled m lo (i + xs.length) (assign w i xs) := by
  induction xs generalizing i w with
  | nil => exact h
  | cons x xs ih =>
    simp only [List.length_cons] at hi hxs ⊢
    have hx : x = schedule m i := hxs 0 (by omega)
    have hw := h.write (by omega : i < 64) hx
    have hrest := ih hw (by omega) fun j hj => by
      have := hxs (j + 1) (by omega)
      rwa [List.getD_cons_succ,show i + (j + 1) = i + 1 + j by omega] at this
    rw [show i + (xs.length + 1) = i + 1 + xs.length by omega]
    exact hrest

/-! ### The block with the nonce -/

def nonceBlock (tail : Nat → Word) (nonce : Word) (i : Nat) : Word :=
  [tail 0,tail 1,tail 2,nonce,0x80000000,0,0,0,0,0,0,0,0,0,0,0x280].getD i 0

theorem schedule_nonce (tail : Nat → Word) (nonce : Word) :
    schedule (nonceBlock tail nonce) 16 = schedule (nonceBlock tail 0) 16 ∧
    schedule (nonceBlock tail nonce) 17 = schedule (nonceBlock tail 0) 17 ∧
    schedule (nonceBlock tail nonce) 18 = schedule (nonceBlock tail 0) 18 + smallS0 nonce ∧
    schedule (nonceBlock tail nonce) 19 = schedule (nonceBlock tail 0) 19 + nonce := by
  have h16 : schedule (nonceBlock tail nonce) 16 = schedule (nonceBlock tail 0) 16 := by
    simp only [schedule_further _ (Nat.le_refl 16)]
    simp only [Nat.reduceSub,schedule_block _ (by omega : 0 < 16),
      schedule_block _ (by omega : 1 < 16),schedule_block _ (by omega : 9 < 16),
      schedule_block _ (by omega : 14 < 16)]
    rfl
  have h17 : schedule (nonceBlock tail nonce) 17 = schedule (nonceBlock tail 0) 17 := by
    simp only [schedule_further _ (by omega : 16 ≤ 17)]
    simp only [Nat.reduceSub,schedule_block _ (by omega : 1 < 16),
      schedule_block _ (by omega : 2 < 16),schedule_block _ (by omega : 10 < 16),
      schedule_block _ (by omega : 15 < 16)]
    rfl
  refine ⟨h16,h17,?_,?_⟩
  · simp only [schedule_further _ (by omega : 16 ≤ 18)]
    simp only [Nat.reduceSub,schedule_block _ (by omega : 2 < 16),
      schedule_block _ (by omega : 3 < 16),schedule_block _ (by omega : 11 < 16),h16]
    simp only [nonceBlock,List.getD_cons_zero,List.getD_cons_succ]
    have hz : smallS0 0#32 = 0#32 := by decide
    simp only [BitVec.ofNat_eq_ofNat,hz,BitVec.add_zero]
    ac_rfl
  · simp only [schedule_further _ (by omega : 16 ≤ 19)]
    simp only [Nat.reduceSub,schedule_block _ (by omega : 3 < 16),
      schedule_block _ (by omega : 4 < 16),schedule_block _ (by omega : 12 < 16),h17]
    simp only [nonceBlock,List.getD_cons_zero,List.getD_cons_succ]
    ac_rfl

theorem rounds_nonce (tail : Nat → Word) (nonce : Word) (v : Vars) :
    rounds K.read (schedule (nonceBlock tail nonce)) 0 4 v =
      let u := rounds K.read (schedule (nonceBlock tail 0)) 0 4 v
      { u with a := u.a + nonce, e := u.e + nonce } := by
  have hbefore : rounds K.read (schedule (nonceBlock tail nonce)) 0 3 v =
      rounds K.read (schedule (nonceBlock tail 0)) 0 3 v := by
    refine rounds_congr v fun i hi => ?_
    rw [schedule_block _ (by omega),schedule_block _ (by omega)]
    interval_cases i <;> rfl
  have hword : schedule (nonceBlock tail nonce) (0 + 3) =
      schedule (nonceBlock tail 0) (0 + 3) + nonce := by
    rw [schedule_block _ (by omega),schedule_block _ (by omega)]
    exact (BitVec.zero_add nonce).symm
  rw [rounds_succ K.read (schedule (nonceBlock tail nonce)) 0 3,
    rounds_succ K.read (schedule (nonceBlock tail 0)) 0 3,hbefore,hword,Vars.step_add]

theorem nonceBlock_at (tail : Nat → Word) (nonce : Word) {x : Word}
    (hi : i < 16) (hx : x = nonceBlock tail nonce i) :
    x = schedule (nonceBlock tail nonce) i := by
  rw [schedule_block _ hi]
  exact hx

theorem nonceWords_filled (tail : Words 3) :
    Filled (nonceBlock tail.read 0) 0 16 (nonceWords tail) := by
  have h₀ : Filled (nonceBlock tail.read 0) 0 0 (Words.zeros 20) := fun j _ hj => by omega
  have h₁ := h₀.write (x := tail.read 0) (by omega) (nonceBlock_at _ _ (by omega) rfl)
  have h₂ := h₁.write (x := tail.read 1) (by omega) (nonceBlock_at _ _ (by omega) rfl)
  have h₃ := h₂.write (x := tail.read 2) (by omega) (nonceBlock_at _ _ (by omega) rfl)
  have h₄ := h₃.write (x := 0) (by omega) (nonceBlock_at _ _ (by omega) rfl)
  have h₅ := h₄.write (x := 0x80000000) (by omega) (nonceBlock_at _ _ (by omega) rfl)
  have h₁₅ := h₅.fill (fun _ => 0) (c := 10) (by omega) fun i hi => by
    refine nonceBlock_at _ _ (by omega) ?_
    interval_cases i <;> rfl
  exact h₁₅.write (x := 0x280) (by omega) (nonceBlock_at _ _ (by omega) rfl)

theorem sha256AdvanceNonceBlock_eq (state : Words 8) (tail : Words 3) :
    let u := rounds K.read (schedule (nonceBlock tail.read 0)) 0 4 (.load state)
    sha256AdvanceNonceBlock state tail =
      (#v[u.a,u.b,u.c,u.d,u.e,u.f,u.g,u.h],
        upTo 4 (Words.zeros 4) fun i sched =>
          sched.write i (schedule (nonceBlock tail.read 0) (16 + i))) := by
  intro u
  have hfull := (nonceWords_filled tail).expand (c := 4) (by omega) (by omega)
  have hvars := rounds_eq hfull (.load state) rfl (by omega : 4 ≤ 16 + 4)
  refine Prod.ext ?_ ?_
  · exact congrArg (fun v : Vars => (#v[v.a,v.b,v.c,v.d,v.e,v.f,v.g,v.h] : Words 8)) hvars
  · have hsched : (upTo 4 (Words.zeros 4) fun i (sched : Words 4) =>
        sched.write i (Words.read (upTo 4 (nonceWords tail) fun i w => extend w (16 + i)) (16 + i))) =
        upTo 4 (Words.zeros 4) fun i sched =>
          sched.write i (schedule (nonceBlock tail.read 0) (16 + i)) :=
      upTo_congr (Words.zeros 4) fun i hi sched => by rw [hfull (16 + i) (by omega) (by omega)]
    exact hsched

/-! ### The first compression -/

section First
variable {push : Sha256dPush} {tail : Nat → Word}

theorem firstWords_filled (garbage : Words 64) (nonce : Word)
    (hs : ∀ j < 4, push.sched.read j = schedule (nonceBlock tail 0) (16 + j)) :
    Filled (nonceBlock tail nonce) 4 64 (firstWords garbage push nonce) := by
  obtain ⟨h16,h17,h18,h19⟩ := schedule_nonce tail nonce
  have h₀ : Filled (nonceBlock tail nonce) 4 4 garbage := fun j hj hj' => by omega
  have h₁ := filled_assign h₀ [0x80000000,0,0,0,0,0,0,0,0,0,0,0x280] (by decide) fun j hj => by
    simp only [List.length_cons,List.length_nil] at hj
    refine nonceBlock_at _ _ (by omega) ?_
    interval_cases j <;> rfl
  have h₂ := filled_assign h₁ [push.sched.read 0,push.sched.read 1,
      push.sched.read 2 + sha256SmallS0 nonce,push.sched.read 3 + nonce] (by simp) fun j hj => by
    simp only [List.length_cons,List.length_nil] at hj
    interval_cases j
    · exact (hs 0 (by omega)).trans h16.symm
    · exact (hs 1 (by omega)).trans h17.symm
    · exact (congrArg (· + smallS0 nonce) (hs 2 (by omega))).trans h18.symm
    · exact (congrArg (· + nonce) (hs 3 (by omega))).trans h19.symm
  exact filled_20_63 h₂

/-- From round 4 on, with the nonce put back, the compression of the whole block. -/
theorem firstDigest_eq (garbage : Words 64) (nonce : Word)
    (hs : ∀ j < 4, push.sched.read j = schedule (nonceBlock tail 0) (16 + j))
    (ha : let u := rounds K.read (schedule (nonceBlock tail 0)) 0 4 (.load push.midstate)
      push.advanced = #v[u.a,u.b,u.c,u.d,u.e,u.f,u.g,u.h]) :
    firstDigest push (sha256dRoundsFrom4 (firstWords garbage push nonce) (entering push nonce)) =
      compress K.read (nonceBlock tail nonce) push.midstate := by
  have hw := firstWords_filled garbage nonce hs
  have hv : entering push nonce =
      rounds K.read (schedule (nonceBlock tail nonce)) 0 4 (.load push.midstate) := by
    rw [rounds_nonce,entering,ha]
    rfl
  have hr : half (sha256dRoundsFrom4 (firstWords garbage push nonce) (entering push nonce)) =
      rounds K.read (schedule (nonceBlock tail nonce)) 0 64 (.load push.midstate) := by
    rw [roundsFrom4_half,hw.rounds _ (Nat.le_refl 4) (by omega),hv]
    exact (rounds_add K.read (schedule (nonceBlock tail nonce)) 0 4 60 _).symm
  exact congrArg (Vars.feed push.midstate) hr

end First

/-! ### The second compression, and the screen -/

def digestBlock (first : Words 8) (i : Nat) : Word :=
  [first.read 0,first.read 1,first.read 2,first.read 3,first.read 4,first.read 5,first.read 6,
    first.read 7,0x80000000,0,0,0,0,0,0,0x100].getD i 0

section Second
variable {first : Words 8}

theorem secondWords_filled (w : Words 64) (first : Words 8) :
    Filled (digestBlock first) 0 61 (secondWords w first) := by
  have h₀ : Filled (digestBlock first) 0 0 w := fun j _ hj => by omega
  have h₁ := filled_assign h₀ [first.read 0,first.read 1,first.read 2,first.read 3,first.read 4,
      first.read 5,first.read 6,first.read 7,0x80000000,0,0,0,0,0,0,0x100] (by simp) fun j hj => by
    rw [schedule_block _ (by simpa using hj),Nat.zero_add]
    rfl
  exact filled_to60 h₁

theorem sixty_half (h : Filled m 0 61 w) :
    half (sha256dRounds56_59 w (sha256dRoundsTo55 w (Vars.load sha256Iv))) =
      rounds K.read (schedule m) 0 60 (.load IV) := by
  rw [sha256dRounds56_59,sha256dRound4_half,roundsTo55_eq,h.rounds _ (by omega) (by omega),
    h.rounds _ (by omega) (by omega),← Nat.zero_add 56,← rounds_add,sha256Iv_eq]

theorem compress_sixty (m : Nat → Word) :
    compress K.read m IV = (rounds K.read (schedule m) 60 4
      (rounds K.read (schedule m) 0 60 (.load IV))).feed IV := by
  rw [compress,rounds_add K.read (schedule m) 0 60 4]

/-- The screen looks at the last word of the digest, four rounds before the end. -/
theorem topWord_eq (h : Filled m 0 61 w) (hv : half v = rounds K.read (schedule m) 0 60 (.load IV)) :
    topWord w v = Progpow.Glsl.bswap32 ((compress K.read m IV).read 7) := by
  have hlast := rounds_last K.read (schedule m) 60 (half v)
  have hread : (compress K.read m IV).read 7 = IV.read 7 +
      (rounds K.read (schedule m) 60 4 (half v)).h := by
    rw [compress_sixty,hv]
    rfl
  rw [topWord,hread,hlast,h 60 (by omega) (by omega),BitVec.add_assoc]
  rfl

theorem stateOf_eq (h : Filled m 0 64 w) (hv : half v = rounds K.read (schedule m) 0 60 (.load IV)) :
    stateOf (sha256dRounds60_63 w v) = compress K.read m IV := by
  rw [compress_sixty,← hv,← h.rounds (half v) (by omega) (by omega),sha256dRounds60_63,
    sha256dRound4Shifted_eq]
  rfl

end Second

/-! ### The comparison -/

def swapped (state : Words 8) : Words 8 :=
  upTo 8 (Words.zeros 8) fun i hash => hash.write i (Progpow.Glsl.bswap32 (state.read i))

theorem swapped_read (state : Words 8) {i : Nat} (hi : i < 8) :
    (swapped state).read i = Progpow.Glsl.bswap32 (state.read i) :=
  Words.read_fill (fun i => Progpow.Glsl.bswap32 (state.read i)) _ (Nat.le_refl 8) hi

theorem meets_eq (state target : Words 8) {c : Nat} (hc : c ≤ 8) :
    meets state target c = fulltest (swapped state) target c := by
  induction c with
  | zero => rfl
  | succ c ih => rw [meets,fulltest,swapped_read state (by omega),ih (by omega)]

theorem meets_screened {state target : Words 8}
    (h : target.read 7 < Progpow.Glsl.bswap32 (state.read 7)) : meets state target 8 = false := by
  rw [meets]
  exact if_pos h

/-! ### The host's hash -/

def midstateOf (header : Words 20) : Words 8 := compress K.read header.read IV

def digestOf (header : Words 20) (nonce : Word) : Words 8 :=
  let tail := fun i => header.read (16 + i)
  compress K.read (digestBlock (compress K.read (nonceBlock tail nonce) (midstateOf header))) IV

theorem sha256Midstate_eq (header : Words 20) :
    sha256Midstate header.toList = midstateOf header := by
  rw [sha256Midstate,sha256Transform_eq,midstateOf]
  refine compress_congr (fun i hi => ?_) IV
  rw [wordAt_encode,words_toList]
  interval_cases i <;> rfl

theorem lastBlock_eq (ws : List Word) {len : Nat} {x y : Word}
    (hx : ((BitVec.ofNat 64 len * 8) >>> 32).setWidth 32 = x)
    (hy : (BitVec.ofNat 64 len * 8).setWidth 32 = y) :
    lastBlock ws len = ws ++ (0x80000000 : Word) :: List.replicate (13 - ws.length) 0 ++ [x,y] := by
  rw [lastBlock,hx,hy]

theorem hash_eq (header : Words 20) (nonce : BitVec 64) :
    hash header nonce = swapped (digestOf header (nonce.setWidth 32)) := by
  generalize hx : nonce.setWidth 32 = x
  have hws : header.toList.take 19 ++ [x] =
      (List.range 19).map header.read ++ [x] := by
    rw [words_toList]
    rfl
  have hfirst : sha256Full (encode ((List.range 19).map header.read ++ [x])) =
      encode (compress K.read (nonceBlock (fun i => header.read (16 + i)) x)
        (midstateOf header)).toList := by
    have hmid : compress K.read ((((List.range 19).map header.read ++ [x]).take 16).getD · 0) IV =
        midstateOf header :=
      compress_congr (fun i hi => by interval_cases i <;> rfl) IV
    have hlen : 4*((List.range 19).map header.read ++ [x]).length = 80 := by simp
    have hlast := lastBlock_eq (((List.range 19).map header.read ++ [x]).drop 16)
      (by decide : ((BitVec.ofNat 64 80 * 8) >>> 32).setWidth 32 = 0)
      (by decide : (BitVec.ofNat 64 80 * 8).setWidth 32 = 0x280)
    rw [sha256Full_long (by simp) (by simp),hmid,hlen,hlast]
    refine congrArg (fun s : Words 8 => encode s.toList) (compress_congr (fun i hi => ?_) _)
    interval_cases i <;> rfl
  have hsecond (s : Words 8) : sha256Full (encode s.toList) =
      encode (compress K.read (digestBlock s) IV).toList := by
    have hlen : 4*s.toList.length = 32 := by simp
    have hlast := lastBlock_eq s.toList
      (by decide : ((BitVec.ofNat 64 32 * 8) >>> 32).setWidth 32 = 0)
      (by decide : (BitVec.ofNat 64 32 * 8).setWidth 32 = 0x100)
    rw [sha256Full_short (by simp),hlen,hlast]
    refine congrArg (fun s : Words 8 => encode s.toList) (compress_congr (fun i hi => ?_) _)
    rw [words_toList]
    interval_cases i <;> rfl
  simp only [hash,hx,sha256d,hws,hfirst,hsecond]
  refine upTo_congr _ fun i hi out => ?_
  rw [leWordAt_encode,leWord_bytes,words_toList]
  congr 2
  interval_cases i <;> rfl

/-! ### The kernel -/

theorem prepare_eq (header : Words 20) (target : Words 8) (start : BitVec 64)
    (count capacity : Word) :
    let tail := fun i => header.read (16 + i)
    ∃ push,prepare ⟨some header,some target,start,count,capacity⟩ pushBytes = some push ∧
      push.midstate = midstateOf header ∧ push.target = target ∧
      push.nonceStart = start.setWidth 32 ∧ push.count = count ∧
      (∀ j < 4, push.sched.read j = schedule (nonceBlock tail 0) (16 + j)) ∧
      (let u := rounds K.read (schedule (nonceBlock tail 0)) 0 4 (.load push.midstate);
        push.advanced = #v[u.a,u.b,u.c,u.d,u.e,u.f,u.g,u.h]) := by
  intro tail
  have htail : nonceBlock (Words.read (upTo 3 (Words.zeros 3) fun i (t : Words 3) =>
      t.write i (header.read (16 + i)))) 0 = nonceBlock tail 0 := by
    have hread (i : Nat) (hi : i < 3) : (upTo 3 (Words.zeros 3) fun i (t : Words 3) =>
        t.write i (header.read (16 + i))).read i = header.read (16 + i) :=
      Words.read_fill _ _ (Nat.le_refl 3) hi
    funext i
    simp only [nonceBlock]
    rw [hread 0 (by omega),hread 1 (by omega),hread 2 (by omega)]
  simp only [prepare,sha256AdvanceNonceBlock_eq,htail,lt_irrefl,if_false]
  refine ⟨_,rfl,sha256Midstate_eq header,rfl,rfl,rfl,fun j hj => ?_,rfl⟩
  exact Words.read_fill _ _ (Nat.le_refl 4) hj

/-- The invocations of a dispatch emit exactly the nonces whose hash the host finds to meet the
target, with that hash. -/
theorem kernel_finds_shares (header : Words 20) (target : Words 8) (start : BitVec 64)
    (count capacity : Word) (garbage : Words 64) (index : Word) :
    ∃ push,prepare ⟨some header,some target,start,count,capacity⟩ pushBytes = some push ∧
      Glsl.main garbage push index =
        let nonce := start.setWidth 32 + index
        let share := verify header (nonce.setWidth 64) target
        if index < count ∧ share.1 = true then some ⟨nonce,0,share.2⟩ else none := by
  obtain ⟨push,hpush,hmid,htarget,hstart,hcount,hsched,hadvanced⟩ :=
    prepare_eq header target start count capacity
  refine ⟨push,hpush,?_⟩
  simp only [Glsl.main,hstart,hcount,htarget]
  by_cases hc : count ≤ index
  · rw [if_pos hc,if_neg]
    exact fun h => absurd h.1 (BitVec.not_lt.mpr hc)
  · rw [if_neg hc]
    generalize start.setWidth 32 + index = nonce
    have hin : index < count := BitVec.not_le.mp hc
    have hlow : (nonce.setWidth 64).setWidth 32 = nonce := by
      rw [BitVec.setWidth_setWidth_of_le nonce (by omega),BitVec.setWidth_eq]
    have hfirst := firstDigest_eq garbage nonce hsched hadvanced
    have hw := secondWords_filled (firstWords garbage push nonce)
      (firstDigest push (sha256dRoundsFrom4 (firstWords garbage push nonce) (entering push nonce)))
    have hhalf := sixty_half hw
    have hdigest : compress K.read (digestBlock (firstDigest push
        (sha256dRoundsFrom4 (firstWords garbage push nonce) (entering push nonce)))) IV =
        digestOf header nonce := by
      rw [hfirst,hmid]
      rfl
    have htop := topWord_eq hw hhalf
    have hstate := stateOf_eq (filled_61_63 hw) hhalf
    rw [hdigest] at htop hstate
    simp only [verify,hash_eq,hlow,htop,hstate,meets_eq _ _ (Nat.le_refl 8),hin,true_and]
    split
    · next hscreen =>
      have hdropped := meets_screened hscreen
      rw [meets_eq _ _ (Nat.le_refl 8)] at hdropped
      rw [hdropped]
      rfl
    · rfl

end VkMiner.Sha256d
