import VkMiner.Sha512.Lanes
import VkMiner.Sha512256d.Digest
import VkMiner.Sha512256d.Kernel
set_option autoImplicit false

/-! The sha512256d kernel and the host find the same nonces, with the same hashes. -/

namespace VkMiner.Sha512256d
open Loops Halves Sha2 Sha512 Sha512.Glsl Glsl Screen
open Progpow (Candidate)
open Progpow.Glsl (bswap32)
open Sha256d (Word encode fulltest)

variable {L : Type} [Inhabited L] {B : SLane L} {val : L → Word64} {push : Sha512256dPush}
  {header : Words 20} {nonce : Word} {pre : Cells L 20} {w9 : L}

/-! ### The job's part -/

def Pushed (push : Sha512256dPush) (header : Words 20) : Prop :=
  ∀ i < 19, push.header.read i = header.read i

omit [Inhabited L] in
theorem headerWord_eq (hB : B.Lawful val) (hp : Pushed push header) {i : Nat} (hi : i < 9) :
    val (headerWord B push i) = headerBlock header nonce i := by
  rw [headerWord,hB.slane,hp _ (by omega),hp _ (by omega),headerBlock,if_pos hi]

/-- The sums of the schedule that the job is prepared with, each short of the terms that are the
nonce's. -/
structure Prepared (val : L → Word64) (m : Nat → Word64) (pre : Cells L 20) : Prop where
  w16 : val (pre.read 8) + m 9 = schedule sigmas m 16
  w17 : val (pre.read 9) = schedule sigmas m 17
  w18 : val (pre.read 10) + sigmas.smallS1 (schedule sigmas m 16) = schedule sigmas m 18
  w19 : val (pre.read 11) = schedule sigmas m 19
  w20 : val (pre.read 12) + sigmas.smallS1 (schedule sigmas m 18) = schedule sigmas m 20
  w21 : val (pre.read 13) = schedule sigmas m 21
  w22 : val (pre.read 14) + sigmas.smallS1 (schedule sigmas m 20) = schedule sigmas m 22
  w23 : val (pre.read 15) + schedule sigmas m 16 = schedule sigmas m 23
  w24 : val (pre.read 16) + sigmas.smallS1 (schedule sigmas m 22) + sigmas.smallS0 (m 9) =
    schedule sigmas m 24
  s17 : val (pre.read 17) = sigmas.smallS0 (schedule sigmas m 17)
  s19 : val (pre.read 18) = sigmas.smallS0 (schedule sigmas m 19)
  s21 : val (pre.read 19) = sigmas.smallS0 (schedule sigmas m 21)

theorem schedule_header (header : Words 20) (nonce : Word) :
    let m := headerBlock header nonce
    let w := schedule sigmas m
    w 16 = m 9 + sigmas.smallS0 (m 1) + m 0 ∧
    w 17 = sigmas.smallS1 (m 15) + m 10 + sigmas.smallS0 (m 2) + m 1 ∧
    w 18 = sigmas.smallS1 (w 16) + sigmas.smallS0 (m 3) + m 2 ∧
    w 19 = sigmas.smallS1 (w 17) + sigmas.smallS0 (m 4) + m 3 ∧
    w 20 = sigmas.smallS1 (w 18) + sigmas.smallS0 (m 5) + m 4 ∧
    w 21 = sigmas.smallS1 (w 19) + sigmas.smallS0 (m 6) + m 5 ∧
    w 22 = sigmas.smallS1 (w 20) + m 15 + sigmas.smallS0 (m 7) + m 6 ∧
    w 23 = sigmas.smallS1 (w 21) + w 16 + sigmas.smallS0 (m 8) + m 7 ∧
    w 24 = sigmas.smallS1 (w 22) + w 17 + sigmas.smallS0 (m 9) + m 8 := by
  intro m w
  have hzero : m 11 = 0#64 ∧ m 12 = 0#64 ∧ m 13 = 0#64 ∧ m 14 = 0#64 := ⟨rfl,rfl,rfl,rfl⟩
  obtain ⟨h11,h12,h13,h14⟩ := hzero
  have hs1 : sigmas.smallS1 0#64 = 0#64 := by decide
  have hw (i : Nat) : w (16 + i) = sigmas.smallS1 (w (14 + i)) + w (9 + i) +
      sigmas.smallS0 (w (1 + i)) + w i := by
    have h := schedule_further sigmas m (by omega : 16 ≤ 16 + i)
    rwa [show 16 + i - 2 = 14 + i by omega,show 16 + i - 7 = 9 + i by omega,
      show 16 + i - 15 = 1 + i by omega,show 16 + i - 16 = i by omega] at h
  have hm (i : Nat) (hi : i < 16) : w i = m i := schedule_block sigmas m hi
  refine ⟨?_,?_,?_,?_,?_,?_,?_,?_,?_⟩
  · have h := hw 0
    simp (disch := decide) only [Nat.add_zero,hm,h14,hs1,BitVec.zero_add] at h
    exact h
  · have h := hw 1
    simp (disch := decide) only [Nat.reduceAdd,hm] at h
    exact h
  · have h := hw 2
    simp (disch := decide) only [Nat.reduceAdd,hm,h11,BitVec.add_zero] at h
    exact h
  · have h := hw 3
    simp (disch := decide) only [Nat.reduceAdd,hm,h12,BitVec.add_zero] at h
    exact h
  · have h := hw 4
    simp (disch := decide) only [Nat.reduceAdd,hm,h13,BitVec.add_zero] at h
    exact h
  · have h := hw 5
    simp (disch := decide) only [Nat.reduceAdd,hm,h14,BitVec.add_zero] at h
    exact h
  · have h := hw 6
    simp (disch := decide) only [Nat.reduceAdd,hm] at h
    exact h
  · have h := hw 7
    simp (disch := decide) only [Nat.reduceAdd,hm] at h
    exact h
  · have h := hw 8
    simp (disch := decide) only [Nat.reduceAdd,hm] at h
    exact h

theorem prepared (leftToRight : Bool) (hB : B.Lawful val) (hp : Pushed push header) (nonce : Word) :
    Prepared val (headerBlock header nonce) (prehash B leftToRight push) := by
  obtain ⟨h16,h17,h18,h19,h20,h21,h22,h23,h24⟩ := schedule_header header nonce
  have hw {i : Nat} (hi : i < 9) : val (headerWord B push i) = headerBlock header nonce i :=
    headerWord_eq hB hp hi
  have h10 : val (endMark B) = headerBlock header nonce 10 := hB.slane _ _
  have h15 : val (headerBits B) = headerBlock header nonce 15 := hB.slane _ _
  have e17 : headerBlock header nonce 1 + sigmas.smallS0 (headerBlock header nonce 2) +
      (headerBlock header nonce 10 + sigmas.smallS1 (headerBlock header nonce 15)) =
        schedule sigmas (headerBlock header nonce) 17 := by
    rw [h17]
    ac_rfl
  have e19 : headerBlock header nonce 3 + sigmas.smallS0 (headerBlock header nonce 4) +
      sigmas.smallS1 (schedule sigmas (headerBlock header nonce) 17) =
        schedule sigmas (headerBlock header nonce) 19 := by
    rw [h19]
    ac_rfl
  have e21 : headerBlock header nonce 5 + sigmas.smallS0 (headerBlock header nonce 6) +
      sigmas.smallS1 (schedule sigmas (headerBlock header nonce) 19) =
        schedule sigmas (headerBlock header nonce) 21 := by
    rw [h21]
    ac_rfl
  constructor <;>
    simp (disch := decide) only [prehash,prehashSchedule,Cells.read_write_self,Cells.read_write_ne,
      hB.sadd,hB.sha512SmallS0,hB.sha512SmallS1,hw,h10,h15,e17,e19,e21]
  case w16 => rw [h16]; ac_rfl
  case w18 => rw [h18]; ac_rfl
  case w20 => rw [h20]; ac_rfl
  case w22 => rw [h22]; ac_rfl
  case w23 => rw [h23]; ac_rfl
  case w24 => rw [h24]; ac_rfl

/-! ### The variables that enter round 10 -/

theorem initial_turned (hB : B.Lawful val) :
    turned val 0 (initial B) = Vars.load sha512_256Iv := by
  have hread {i : Nat} (hi : i < 8) : val ((initial B).read i) = sha512_256Iv.read i := by
    rw [initial,Cells.read_fill _ _ (Nat.le_refl 8),if_pos hi,hB.sha512_256Iv hi]
  simp (disch := decide) only [turned,place,Nat.reduceAdd,Nat.reduceMod,Nat.reduceSub,hread,
    Vars.load]

theorem headerRounds_eq (leftToRight : Bool) (hB : B.Lawful val) (hp : Pushed push header)
    (nonce : Word) :
    turned val 9 (upTo 9 (initial B) fun j v =>
        turn B leftToRight j (Glsl.sha512K B j) (headerWord B push j) v) =
      rounds sigmas sha512K.read (schedule sigmas (headerBlock header nonce)) 0 9
        (.load sha512_256Iv) := by
  let P : Nat → Cells L 8 → Prop := fun j v => turned val j v =
    rounds sigmas sha512K.read (schedule sigmas (headerBlock header nonce)) 0 j (.load sha512_256Iv)
  have hrun : P 9 _ := upTo_invariant (f := fun j v =>
      turn B leftToRight j (Glsl.sha512K B j) (headerWord B push j) v) (s := initial B)
    (initial_turned hB) fun j hj v hP => by
      show turned val (j + 1) _ = _
      rw [turned_turn hB,hP,hB.sha512K (by omega),headerWord_eq hB hp hj,rounds_succ,Nat.zero_add,
        schedule_block _ _ (by omega)]
  exact hrun

theorem entering_turned (leftToRight : Bool) (hB : B.Lawful val) (hp : Pushed push header)
    (h9 : val w9 = headerBlock header nonce 9) :
    turned val 10 (entering B (prehash B leftToRight push) w9) =
      rounds sigmas sha512K.read (schedule sigmas (headerBlock header nonce)) 0 10
        (.load sha512_256Iv) := by
  have hrounds := headerRounds_eq leftToRight hB hp nonce
  have hk := hB.sha512K (by decide : 9 < 80)
  rw [rounds_succ,← hrounds,schedule_block _ _ (by decide),Nat.zero_add,← h9,← hk]
  generalize hv : (upTo 9 (initial B) fun j v =>
    turn B leftToRight j (Glsl.sha512K B j) (headerWord B push j) v) = v
  obtain ⟨t1,ht1⟩ : ∃ t, t = B.sadd (B.sadd (v.read 6) (sha512BigS1 B (v.read 3)))
      (B.sadd (Glsl.sha512Ch B (v.read 3) (v.read 4) (v.read 5)) (Glsl.sha512K B 9)) := ⟨_,rfl⟩
  obtain ⟨t2,ht2⟩ : ∃ t, t = B.sadd (sha512BigS0 B (v.read 7))
      (Glsl.sha512Maj B (v.read 7) (v.read 0) (v.read 1)) := ⟨_,rfl⟩
  obtain ⟨u,hu⟩ : ∃ u, u = entering B (prehash B leftToRight push) w9 := ⟨_,rfl⟩
  have hread {i : Nat} (hi : i < 8) : u.read i =
      if i = 2 then B.sadd (B.sadd (v.read 2) t1) w9
      else if i = 6 then B.sadd (B.sadd t1 t2) w9
      else v.read i := by
    have hcopy (w : Cells L 20) : Cells.read (upTo 8 (Cells.blank 8) fun i (v : Cells L 8) =>
        v.write i (w.read i)) i = w.read i := by
      rw [Cells.read_fill _ _ (Nat.le_refl 8),if_pos hi]
    rw [hu,entering]
    interval_cases i <;>
      simp (disch := decide) only [hcopy,prehash,prehashSchedule,prehashState,hv,← ht1,← ht2,
        Cells.read_write_self,Cells.read_write_ne,if_true,if_false,Nat.reduceEqDiff]
  have hsum1 : val t1 + val w9 = val (v.read 6) + sigmas.bigS1 (val (v.read 3)) +
      ch (val (v.read 3)) (val (v.read 4)) (val (v.read 5)) + val (Glsl.sha512K B 9) + val w9 := by
    rw [ht1]
    simp only [hB.sadd,hB.sha512BigS1,hB.sha512Ch,BitVec.add_assoc]
  have hsum2 : val t2 = sigmas.bigS0 (val (v.read 7)) +
      maj (val (v.read 7)) (val (v.read 0)) (val (v.read 1)) := by
    rw [ht2,hB.sadd,hB.sha512BigS0,hB.sha512Maj]
  have hplaces : place 10 0 = 6 ∧ place 10 1 = 7 ∧ place 10 2 = 0 ∧ place 10 3 = 1 ∧
      place 10 4 = 2 ∧ place 10 5 = 3 ∧ place 10 6 = 4 ∧ place 10 7 = 5 := by decide
  obtain ⟨p0,p1,p2,p3,p4,p5,p6,p7⟩ := hplaces
  have hplaces9 : place 9 0 = 7 ∧ place 9 1 = 0 ∧ place 9 2 = 1 ∧ place 9 3 = 2 ∧
      place 9 4 = 3 ∧ place 9 5 = 4 ∧ place 9 6 = 5 ∧ place 9 7 = 6 := by decide
  obtain ⟨q0,q1,q2,q3,q4,q5,q6,q7⟩ := hplaces9
  rw [← hu]
  simp (disch := decide) only [turned,p0,p1,p2,p3,p4,p5,p6,p7,q0,q1,q2,q3,q4,q5,q6,q7,Vars.step,hread,
    if_true,if_false,Nat.reduceEqDiff,hB.sadd,← hsum1,← hsum2]
  refine congrArg₂ (fun x y => (⟨x,_,_,_,y,_,_,_⟩ : Vars 64)) ?_ ?_ <;> ac_rfl

/-! ### The first pass -/

theorem firstWords_holds (hB : B.Lawful val) (garbage : Cells L 16)
    (h9 : val w9 = headerBlock header nonce 9) :
    Holds val (headerBlock header nonce) 9 16 (firstWords B garbage w9) := by
  intro i hlo hhi
  rw [schedule_block _ _ hhi]
  have hzero : val (B.slane 0 0) = 0#64 := (hB.slane 0 0).trans join_zero
  have h10 : val (endMark B) = headerBlock header nonce 10 := hB.slane _ _
  have h15 : val (headerBits B) = headerBlock header nonce 15 := hB.slane _ _
  interval_cases i <;>
    simp (disch := decide) only [firstWords,upTo,Nat.reduceAdd,Nat.reduceMod,Cells.read_write_self,
      Cells.read_write_ne,h9,h10,h15,hzero] <;> rfl

theorem givenRounds_eq (leftToRight : Bool) (hB : B.Lawful val) {m : Nat → Word64} {s : Pass L}
    {v : Vars 64} (hp : Prepared val m pre) (hr : Reached val m v 16 9 16 s) :
    Reached val m v 25 9 25 (upTo 9 s fun i => givenRoundAt B leftToRight pre i) := by
  refine hr.along leftToRight 0 9 hB rfl rfl (by decide) (Q := fun j w => Holds val m 9 (16 + j) w)
    hr.window (fun j hj t ht => ?_) fun _ hw => hw
  have hgiven : val (givenWord B pre t.w j) = schedule sigmas m (16 + j) := by
    have h9 : val (t.w.read 9) = m 9 := by
      rw [ht.word (Nat.le_refl 9) (by omega) rfl,schedule_block _ _ (by decide)]
    have hword {i : Nat} (hi : i < j) : val (t.w.read i) = schedule sigmas m (16 + i) :=
      ht.word (by omega) (by omega) (by omega)
    interval_cases j <;>
      simp (disch := decide) only [givenWord,hB.sadd,hB.sha512SmallS0,hB.sha512SmallS1,h9,hword,
        Nat.reduceAdd,hp.w16,hp.w17,hp.w18,hp.w19,hp.w20,hp.w21,hp.w22,hp.w23,hp.w24]
  have hw := (ht.write (by omega) hgiven).2 (by omega)
  rw [show (16 + j) % 16 = j by omega] at hw
  refine ⟨_,by rw [Nat.zero_add]; rfl,hw,?_⟩
  rw [Nat.zero_add,Cells.read_write_self _ _ (by omega),hgiven]

theorem rounds32Sched_eq (leftToRight : Bool) (hB : B.Lawful val) {m : Nat → Word64} {s : Pass L}
    {v : Vars 64} (hp : Prepared val m pre) (hr : Reached val m v 32 16 32 s) :
    Reached val m v 48 32 48 (rounds32Sched B leftToRight pre s) := by
  refine hr.along leftToRight 0 16 hB rfl rfl (by decide)
    (Q := fun j w => Holds val m (16 + j) (16 + j + 16) w) hr.window (fun j hj t ht => ?_)
    fun _ hw => hw
  have hplain := ht.sched hB (by omega : (16 + j) % 16 = j)
  have hw : Holds val m (16 + j + 1) (16 + j + 1 + 16) (sched32 B pre t.w j) := by
    unfold sched32
    split
    · exact ht.schedS0 hB rfl hp.s17
    · exact ht.schedS0 hB rfl hp.s19
    · exact ht.schedS0 hB rfl hp.s21
    · exact hplain
  refine ⟨sched32 B pre t.w j,by rw [Nat.zero_add],hw,?_⟩
  exact hw.word (by omega) (by omega) (by omega)

theorem feedForward_read (hB : B.Lawful val) {m : Nat → Word64} {s : Pass L} {count lo hi : Nat}
    (hr : Reached val m (.load sha512_256Iv) 80 lo hi s) (hc : count ≤ 8) {i : Nat}
    (hi : i < count) : val ((feedForward B s.v count).read i) =
      (compress sigmas sha512K.read 80 m sha512_256Iv).read i := by
  rw [feedForward,Cells.read_fill _ _ hc,if_pos hi,hB.sadd,hB.sha512_256Iv (by omega),compress,
    ← hr.vars]
  have hi : i < 8 := by omega
  interval_cases i <;> rfl

theorem sha512256dFirst_read (leftToRight : Bool) (hB : B.Lawful val) (hp : Pushed push header)
    (garbage : Cells L 16) (h9 : val w9 = headerBlock header nonce 9) {i : Nat} (hi : i < 8) :
    val ((sha512256dFirst B leftToRight garbage (prehash B leftToRight push) w9).read i) =
      (firstState header nonce).read i := by
  have hprep := prepared leftToRight hB hp nonce
  have h10 : Reached val (headerBlock header nonce) (.load sha512_256Iv) 10 9 16
      ⟨entering B (prehash B leftToRight push) w9,firstWords B garbage w9⟩ :=
    ⟨entering_turned leftToRight hB hp h9,firstWords_holds hB garbage h9⟩
  have h16 := h10.plain leftToRight 10 6 hB rfl rfl (by decide) (by decide) (by decide) (by decide)
  have h25 := givenRounds_eq leftToRight hB hprep h16
  have h32 := h25.sched leftToRight 9 7 hB rfl rfl (by decide) (by decide)
  have h48 := rounds32Sched_eq leftToRight hB hprep h32
  have h64 := h48.rounds16Sched leftToRight hB rfl (by decide)
  have h80 := h64.rounds16Sched leftToRight hB rfl (by decide)
  exact feedForward_read hB h80 (Nat.le_refl 8) hi

/-! ### The second pass, and the screen -/

section Second
variable {state : Cells L 8} {st : Cells Word64 8}

theorem secondWords_holds (hB : B.Lawful val) (hs : ∀ i < 4, val (state.read i) = st.read i) :
    Holds val (digestBlock st) 0 16 (secondWords B state) := by
  intro i _ hi
  rw [schedule_block _ _ hi]
  have hzero : val (B.slane 0 0) = 0#64 := (hB.slane 0 0).trans join_zero
  have h4 : val (B.slane 0 0x80000000) = join ⟨0,0x80000000⟩ := hB.slane _ _
  have h15 : val (B.slane 0x100 0) = join ⟨0x100,0⟩ := hB.slane _ _
  by_cases hlow : i < 4
  · rw [digestBlock,if_pos hlow,← hs i hlow]
    interval_cases i <;>
      simp (disch := decide) only [secondWords,upTo,Nat.reduceAdd,Nat.reduceMod,
        Cells.read_write_self,Cells.read_write_ne]
  · interval_cases i <;>
      simp (disch := decide) only [secondWords,upTo,Nat.reduceAdd,Nat.reduceMod,
        Cells.read_write_self,Cells.read_write_ne,h4,h15,hzero] <;> rfl

theorem before76_reached (leftToRight : Bool) (hB : B.Lawful val)
    (hs : ∀ i < 4, val (state.read i) = st.read i) :
    ∃ s : Pass L,secondTo76 B leftToRight state = { s with w := sched B s.w 12 13 5 10 } ∧
      Reached val (digestBlock st) (.load sha512_256Iv) 76 60 76 s := by
  have h0 : Reached val (digestBlock st) (.load sha512_256Iv) 0 0 16
      ⟨initial B,secondWords B state⟩ := ⟨initial_turned hB,secondWords_holds hB hs⟩
  have h16 := h0.rounds16 leftToRight hB
  have h32 := h16.rounds16Sched leftToRight hB rfl (by decide)
  have h48 := h32.rounds16Sched leftToRight hB rfl (by decide)
  have h64 := h48.rounds16Sched leftToRight hB rfl (by decide)
  have h76 := h64.sched leftToRight 0 12 hB rfl rfl (by decide) (by decide)
  simp only [Nat.zero_add] at h76
  exact ⟨_,rfl,h76⟩

variable {s : Pass L} {m : Nat → Word64}

/-- The screen's word is the digest's word 3, four rounds before the end. -/
theorem screenWord_eq (leftToRight : Bool) (hB : B.Lawful val)
    (hr : Reached val m (.load sha512_256Iv) 76 60 76 s) :
    let t : Pass L := { s with w := sched B s.w 12 13 5 10 }
    val (B.sadd (Glsl.sha512_256Iv B 3) (B.sadd (t1At76 B leftToRight t) (t2At76 B t))) =
      (compress sigmas sha512K.read 80 m sha512_256Iv).read 3 := by
  intro t
  have h77 := (hr.sched leftToRight 12 1 hB rfl (by decide : 64 % 16 = 0) (by decide) (by decide)).vars
  have ha : val (B.sadd (t1At76 B leftToRight t) (t2At76 B t)) =
      (rounds sigmas sha512K.read (schedule sigmas m) 0 77 (.load sha512_256Iv)).a := by
    have hwritten : (turned val 77 (upTo 1 s fun j => schedRoundAt B leftToRight 64 (12 + j)).v).a =
        val (Cells.read ((t.v.write 7 (B.sadd (t.v.read 7) (t1At76 B leftToRight t))).write 3
          (B.sadd (t1At76 B leftToRight t) (t2At76 B t))) 3) := rfl
    rw [← h77,hwritten,Cells.read_write_self _ _ (by decide)]
  have hd : (rounds sigmas sha512K.read (schedule sigmas m) 0 80 (.load sha512_256Iv)).d =
      (rounds sigmas sha512K.read (schedule sigmas m) 0 77 (.load sha512_256Iv)).a := rfl
  rw [hB.sadd,hB.sha512_256Iv (by decide),ha,← hd]
  rfl

theorem rest76_reached (leftToRight : Bool) (hB : B.Lawful val)
    (hr : Reached val m (.load sha512_256Iv) 76 60 76 s) :
    let t : Pass L := { s with w := sched B s.w 12 13 5 10 }
    Reached val m (.load sha512_256Iv) 80 64 80
      (rest76 B leftToRight t (t1At76 B leftToRight t) (t2At76 B t)) := by
  intro t
  have h80 := hr.sched leftToRight 12 4 hB rfl (by decide : 64 % 16 = 0) (by decide) (by decide)
  have hrest : rest76 B leftToRight t (t1At76 B leftToRight t) (t2At76 B t) =
      upTo 4 s fun j => schedRoundAt B leftToRight 64 (12 + j) := rfl
  rw [hrest]
  exact h80

end Second

/-! ### The search -/

theorem emitted_eq (header : Words 20) (nonce : Word) (hB : B.Lawful val) {state : Cells L 8}
    (hs : ∀ i < 4, val (state.read i) = (finalState header nonce).read i) :
    emitted B state = hash header (nonce.setWidth 64) := by
  refine Words.ext _ _ fun k hk => ?_
  rw [hash_read header nonce hk]
  have hhi {i : Nat} (hi : i < 4) : B.shi (state.read i) =
      ((finalState header nonce).read i >>> 32).setWidth 32 := by rw [hB.shi,hs i hi]
  have hlo {i : Nat} (hi : i < 4) : B.slo (state.read i) =
      ((finalState header nonce).read i).setWidth 32 := by rw [hB.slo,hs i hi]
  interval_cases k <;>
    simp (disch := decide) only [emitted,upTo,Words.read_write_self,Words.read_write_ne,hhi,hlo,
      Nat.reduceMul,Nat.reduceAdd] <;> rfl

theorem Glsl.Module.lawful (module : Module) : module.lanes.Lawful join := by
  cases module with
  | wide => exact wideAdd_lawful
  | wideFold => exact wideAdd_lawful
  | pairs => exact pairs_lawful

/-- A nonce is emitted exactly when its hash meets the target under the screen, with that hash. -/
theorem search_eq (leftToRight : Bool) (hB : B.Lawful val) (hp : Pushed push header)
    {target : Words 8} (ht : push.target.read 1 = target.read 7 ∧ push.target.read 0 = target.read 6)
    (garbage : Cells L 16) (nonce : Word) :
    sha512256dSearch B leftToRight garbage push nonce =
      if fulltest (hash header (nonce.setWidth 64)) (screenedTarget 64 target) 8 then
        some ⟨nonce,0,hash header (nonce.setWidth 64)⟩
      else none := by
  have h9 : val (B.slane nonce (push.header.read 18)) = headerBlock header nonce 9 := by
    rw [hB.slane,hp 18 (by decide)]
    rfl
  have hfirst {i : Nat} (hi : i < 4) := sha512256dFirst_read leftToRight hB hp garbage h9
    (by omega : i < 8)
  obtain ⟨s,hs,hr⟩ := before76_reached leftToRight hB fun i hi => hfirst hi
  have hscreen := screenWord_eq leftToRight hB hr
  have hrest := rest76_reached leftToRight hB hr
  generalize ({ s with w := sched B s.w 12 13 5 10 } : Pass L) = t at hs hscreen hrest
  have hemitted := emitted_eq header nonce hB fun i hi =>
    feedForward_read hB hrest (by decide : 4 ≤ 8) hi
  have h7 : bswap32 (B.slo (B.sadd (Glsl.sha512_256Iv B 3)
      (B.sadd (t1At76 B leftToRight t) (t2At76 B t)))) = (hash header (nonce.setWidth 64)).read 7 := by
    rw [hash_read header nonce (by decide : 7 < 8),hB.slo,hscreen]
    rfl
  have h6 : bswap32 (B.shi (B.sadd (Glsl.sha512_256Iv B 3)
      (B.sadd (t1At76 B leftToRight t) (t2At76 B t)))) = (hash header (nonce.setWidth 64)).read 6 := by
    rw [hash_read header nonce (by decide : 6 < 8),hB.shi,hscreen]
    rfl
  simp only [sha512256dSearch,hs,h7,h6,ht.1,ht.2,hemitted]
  exact screened_some _ _ _

theorem prepare_eq (header : Words 20) (target : Words 8) (start : BitVec 64)
    (count capacity : Word) :
    ∃ push,prepare ⟨some header,some target,start,count,capacity⟩ pushBytes = some push ∧
      Pushed push header ∧
      (push.target.read 1 = target.read 7 ∧ push.target.read 0 = target.read 6) ∧
      push.nonceStart = start.setWidth 32 ∧ push.count = count := by
  simp only [prepare,lt_irrefl,if_false]
  refine ⟨_,rfl,fun i hi => ?_,⟨rfl,rfl⟩,rfl,rfl⟩
  exact Words.read_fill _ _ (Nat.le_refl 19) hi

/-- Every one of the three modules finds, of the nonces that an invocation comes to, exactly those
whose hash meets the target under the screen, each with the hash that the host has for it. -/
theorem device_finds_shares (module : Module) (header : Words 20) (target : Words 8)
    (start : BitVec 64) (count capacity : Word) (garbage : Cells Halves 16)
    (noncesPerInvocation : Nat) (id : Word) :
    ∃ push,prepare ⟨some header,some target,start,count,capacity⟩ pushBytes = some push ∧
      (∀ nonce,sha512256dSearch module.lanes module.t1LeftToRight garbage push nonce =
        if fulltest (hash header (nonce.setWidth 64)) (screenedTarget 64 target) 8 then
          some ⟨nonce,0,hash header (nonce.setWidth 64)⟩
        else none) ∧
      Glsl.main module.lanes module.t1LeftToRight garbage push noncesPerInvocation id =
        let first := id * BitVec.ofNat 32 noncesPerInvocation
        let indices := (List.range noncesPerInvocation).map fun k => first + BitVec.ofNat 32 k
        (indices.takeWhile (· < count)).filterMap fun index =>
          let nonce := start.setWidth 32 + index
          if fulltest (hash header (nonce.setWidth 64)) (screenedTarget 64 target) 8 then
            some ⟨nonce,0,hash header (nonce.setWidth 64)⟩
          else none := by
  obtain ⟨push,hpush,hp,ht,hstart,hcount⟩ := prepare_eq header target start count capacity
  have hsearch := search_eq module.t1LeftToRight module.lawful hp ht garbage
  refine ⟨push,hpush,hsearch,?_⟩
  simp only [Glsl.main,hstart,hcount,hsearch]

end VkMiner.Sha512256d
