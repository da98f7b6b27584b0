import VkMiner.Session.Submit
import VkMiner.Stratum.Receive
set_option autoImplicit false

/-! `send_line`: what its loop puts on the connection, for the stratum thread and for
workio with its retries. -/

namespace VkMiner.Session
open Stratum Runs Lines

/-- What a pass through the loop meets: a socket that select finds not writable, a
send that takes `n` bytes, one that would block, one that fails. -/
inductive Pass where
  | unwritable
  | takes (n : Nat)
  | wouldBlock
  | fails

/-- Shares are counted as workio takes them from its queue. -/
inductive Caller where
  | thread
  | share (k : Nat)
  deriving DecidableEq, Repr

structure Call where
  caller : Caller
  text : CStr
  deriving DecidableEq

/-- `s[len++] = '\n'`. -/
def Call.line (c : Call) : Bytes := c.text ++ [newline]

def Call.share (c : Call) : Option Nat :=
  match c.caller with
  | .thread => none
  | .share k => some k

/-- A connection: its bytes, the calls that were made on it, those that returned true,
and whether one returned false with a part of its line put. All but `bytes` is history. -/
structure Wire where
  bytes : Bytes
  calls : List Call
  done : List Call
  cut : Bool

/-- `call` is the one that has `sock_lock`, with its `sent`. -/
structure Sender where
  desk : Desk
  taken : Nat
  call : Option (Call × Nat)
  wire : Wire

inductive Move where
  | desk (a : Action)
  | writes (text : CStr)
  | submits
  | passes (p : Pass)

def Action.pulled : Action → Nat
  | .pops => 1
  | _ => 0

/-- The stratum thread does nothing else while it is in a call of its own. -/
def Action.waits (a : Action) (call : Option (Call × Nat)) : Bool :=
  match a,call with
  | .sends _,_ => true
  | .thread _,some (⟨.thread,_⟩,_) => true
  | _,_ => false

def Wire.new : Wire := ⟨[],[],[],false⟩

namespace Sender

def start (s : Settings) (extranonce : Bool) : Sender := ⟨.start s extranonce,0,none,.new⟩

def enter (m : Sender) (c : Call) : Option Sender :=
  match m.call with
  | some _ => none
  | none => some { m with call := some (c,0), wire := { m.wire with calls := m.wire.calls ++ [c] } }

/-- `send_line` comes back; workio goes on with its share, or with the next. -/
def leave (opt : Options) (h : Hashes) (m : Sender) (c : Call) (ok : Bool) (wire : Wire) :
    Option Sender :=
  match c.caller with
  | .thread => some { m with call := none, wire := wire }
  | .share _ =>
    (m.desk.step opt h (.sends ok)).map (fun d => { m with desk := d, call := none, wire := wire })

def pass (opt : Options) (h : Hashes) (m : Sender) (c : Call) (sent : Nat) (p : Pass) :
    Option Sender :=
  match p with
  | .unwritable | .fails => m.leave opt h c false { m.wire with cut := m.wire.cut || sent ≠ 0 }
  | .wouldBlock => some m
  | .takes n =>
    if m.desk.thread.curl.isNone || c.line.length < sent+n then none
    else
      let wire := { m.wire with bytes := m.wire.bytes ++ (c.line.drop sent).take n }
      if sent+n = c.line.length then m.leave opt h c true { wire with done := wire.done ++ [c] }
      else some { m with call := some (c,sent+n), wire := wire }

/-- Connecting and disconnecting take `sock_lock` too. -/
def act (opt : Options) (h : Hashes) (m : Sender) (a : Action) : Option Sender :=
  match m.desk.step opt h a with
  | none => none
  | some d =>
    if d.thread.curl = m.desk.thread.curl then
      some { m with desk := d, taken := m.taken+a.pulled }
    else
      match m.call with
      | some _ => none
      | none => some { m with desk := d, wire := .new }

def step (opt : Options) (h : Hashes) (m : Sender) (e : Move) : Option Sender :=
  match e with
  | .desk a => if a.waits m.call then none else m.act opt h a
  | .writes text => m.enter ⟨.thread,text⟩
  | .submits =>
    match m.desk.workio with
    | .sending _ _ text => m.enter ⟨.share m.taken,text⟩
    | _ => none
  | .passes p =>
    match m.call with
    | none => none
    | some (c,sent) => m.pass opt h c sent p

/-- Nothing is put on a connection behind a line that was cut. -/
def Uncut (m : Sender) (e : Move) : Prop :=
  match e with
  | .passes (.takes n) => n ≠ 0 → m.wire.cut = false
  | _ => True

instance (m : Sender) (e : Move) : Decidable (Uncut m e) := by
  unfold Uncut
  split <;> infer_instance

end Sender

/-- The beginning of the line of a call that came after those that are done. -/
def Wire.Begun (w : Wire) (last : Bytes) : Prop :=
  ∃ c, (w.done ++ [c]).Sublist w.calls ∧ last <+: c.line ∧ last ≠ c.line

/-- Whole lines in the order of their calls and perhaps the beginning of another, and
no share's line twice. -/
structure Wire.Framed (w : Wire) : Prop where
  order : w.done.Sublist w.calls
  bytes : ∃ last, w.bytes = join newline (w.done.map Call.text) ++ last ∧
    (last = [] ∨ w.Begun last)
  once : (w.done.filterMap Call.share).Nodup

def Workio.resting : Workio → Bool
  | .idle | .gone => true
  | _ => false

namespace Sender

def put (m : Sender) : Bytes :=
  match m.call with
  | none => []
  | some (c,sent) => c.line.take sent

/-- The wire, as the call in progress knows it. -/
structure InFrame (m : Sender) : Prop where
  order : m.wire.done.Sublist m.wire.calls
  called : ∀ c sent, m.call = some (c,sent) → sent < c.line.length ∧
    (m.wire.done ++ [c]).Sublist m.wire.calls
  whole : m.wire.cut = false → m.wire.bytes = join newline (m.wire.done.map Call.text) ++ m.put
  cut : m.wire.cut = true → m.put = [] ∧
    ∃ last, m.wire.bytes = join newline (m.wire.done.map Call.text) ++ last ∧ m.wire.Begun last

/-- A share that is done is out of workio's hands. -/
structure Counted (m : Sender) : Prop where
  once : (m.wire.done.filterMap Call.share).Nodup
  past : ∀ k ∈ m.wire.done.filterMap Call.share, k ≤ m.taken
  rest : m.desk.workio.resting = false → m.taken ∉ m.wire.done.filterMap Call.share
  hand : ∀ c sent k, m.call = some (c,sent) → c.caller = .share k →
    k = m.taken ∧ ∃ f n, m.desk.workio = .sending f n c.text

end Sender

variable {opt : Options} {h : Hashes} {a : Action}

theorem Desk.step_workio {d d' : Desk} {call : Option (Call × Nat)} (ha : a.waits call = false)
    (hs : d.step opt h a = some d') :
    (a.pulled = 1 ∧ d.workio = .idle) ∨ (a.pulled = 0 ∧ (d'.workio = d.workio ∨
      d.workio.resting = false ∧ ∀ f n text, d.workio ≠ .sending f n text)) := by
  unfold Desk.step at hs
  split at hs
  · next e =>
    obtain ⟨t,-,rfl⟩ := Option.map_eq_some_iff.mp hs
    exact .inr ⟨rfl,.inl rfl⟩
  · split at hs
    · cases hs
    · split at hs <;> cases hs
      exact .inr ⟨rfl,.inl rfl⟩
  · next hw => exact .inl ⟨rfl,hw⟩
  · next f failures hw => exact .inr ⟨rfl,.inr ⟨by simp [hw,Workio.resting],by simp [hw]⟩⟩
  · next f failures hw => exact .inr ⟨rfl,.inr ⟨by simp [hw,Workio.resting],by simp [hw]⟩⟩
  · simp [Action.waits] at ha
  · cases hs

namespace Sender

variable {m m' : Sender} {c : Call} {sent : Nat} {wire : Wire}

theorem leave_spec {ok : Bool} (hs : m.leave opt h c ok wire = some m') :
    m'.call = none ∧ m'.wire = wire ∧ m'.taken = m.taken ∧
      (c.share = none ∧ m'.desk = m.desk ∨
        c.share.isSome = true ∧ m.desk.step opt h (.sends ok) = some m'.desk) := by
  unfold leave at hs
  split at hs
  · next hc =>
    cases hs
    exact ⟨rfl,rfl,rfl,.inl ⟨by simp [Call.share,hc],rfl⟩⟩
  · next k hc =>
    obtain ⟨d,hd,rfl⟩ := Option.map_eq_some_iff.mp hs
    exact ⟨rfl,rfl,rfl,.inr ⟨by simp [Call.share,hc],hd⟩⟩

theorem sends_rests {d d' : Desk} (hc : d.thread.curl.isSome = true)
    (hs : d.step opt h (.sends true) = some d') : d'.workio.resting = true := by
  obtain ⟨conn,hconn⟩ := Option.isSome_iff_exists.mp hc
  cases hw : d.workio with
  | sending f n text =>
    simp only [Desk.step,hw,hconn,if_true,Option.some.injEq] at hs
    subst hs
    rfl
  | idle | checking | building | gone => simp [Desk.step,hw] at hs

theorem Counted.in_hand (hi : Counted m) (hcall : m.call = some (c,sent))
    (hshare : c.share.isSome = true) :
    c.share = some m.taken ∧ m.taken ∉ m.wire.done.filterMap Call.share := by
  obtain ⟨k,hk⟩ := Option.isSome_iff_exists.mp hshare
  have hcaller : c.caller = .share k := by
    unfold Call.share at hk
    split at hk <;> simp_all
  obtain ⟨rfl,f,n,hw⟩ := hi.hand c sent k hcall hcaller
  exact ⟨hk,hi.rest (by simp [hw,Workio.resting])⟩

theorem Counted.leave_undone (hi : Counted m) (hcall : m.call = some (c,sent))
    (hs : m.leave opt h c false wire = some m') (hd : wire.done = m.wire.done) : Counted m' := by
  obtain ⟨hnone,hwire,htaken,hdesk⟩ := leave_spec hs
  refine ⟨?_,?_,?_,?_⟩
  · rw [hwire,hd]
    exact hi.once
  · rw [hwire,hd,htaken]
    exact hi.past
  · rw [hwire,hd,htaken]
    rcases hdesk with ⟨-,hsame⟩ | ⟨hshare,-⟩
    · rw [hsame]
      exact hi.rest
    · exact fun _ => (hi.in_hand hcall hshare).2
  · rw [hnone]
    intro c sent k hn
    cases hn

theorem Counted.leave_done (hi : Counted m) (hcall : m.call = some (c,sent))
    (hcurl : m.desk.thread.curl.isSome = true) (hs : m.leave opt h c true wire = some m')
    (hd : wire.done = m.wire.done ++ [c]) : Counted m' := by
  obtain ⟨hnone,hwire,htaken,hdesk⟩ := leave_spec hs
  have hhand : ∀ c sent k, m'.call = some (c,sent) → c.caller = .share k →
      k = m'.taken ∧ ∃ f n, m'.desk.workio = .sending f n c.text := by
    rw [hnone]
    intro c sent k hn
    cases hn
  rcases hdesk with ⟨hshare,hsame⟩ | ⟨hshare,hstep⟩
  · have hsame' : m'.wire.done.filterMap Call.share = m.wire.done.filterMap Call.share := by
      rw [hwire,hd]
      simp [hshare]
    refine ⟨by rw [hsame']; exact hi.once,by rw [hsame',htaken]; exact hi.past,?_,hhand⟩
    rw [hsame',htaken,hsame]
    exact hi.rest
  · obtain ⟨hk,hnew⟩ := hi.in_hand hcall hshare
    have hdone : m'.wire.done.filterMap Call.share =
        m.wire.done.filterMap Call.share ++ [m.taken] := by
      rw [hwire,hd]
      simp [hk]
    refine ⟨?_,?_,?_,hhand⟩
    · rw [hdone]
      exact List.nodup_append.mpr ⟨hi.once,by simp,fun k hk j hj he => by
        rw [List.mem_singleton.mp hj] at he
        exact hnew (he ▸ hk)⟩
    · rw [hdone,htaken]
      intro k hk
      rcases List.mem_append.mp hk with hk | hk
      · exact hi.past k hk
      · exact Nat.le_of_eq (List.mem_singleton.mp hk)
    · intro hrest
      rw [sends_rests hcurl hstep] at hrest
      cases hrest

theorem Counted.act (hi : Counted m) (ha : a.waits m.call = false)
    (hs : m.act opt h a = some m') : Counted m' := by
  unfold Sender.act at hs
  split at hs
  · cases hs
  · next d hd =>
    have hw := Desk.step_workio ha hd
    split at hs
    · cases hs
      refine ⟨hi.once,fun k hk => Nat.le_add_right_of_le (hi.past k hk),?_,?_⟩
      · intro hrest hk
        have hle := hi.past _ hk
        rcases hw with ⟨hp,-⟩ | ⟨hp,hw⟩
        · simp only [hp] at hle
          omega
        · simp only [hp,Nat.add_zero] at hk
          rcases hw with hw | ⟨hw,-⟩
          · exact hi.rest (hw ▸ hrest) hk
          · exact hi.rest hw hk
      · intro c sent k hcall hcaller
        obtain ⟨hk,f,n,hsend⟩ := hi.hand c sent k hcall hcaller
        rcases hw with ⟨-,hw⟩ | ⟨hp,hw⟩
        · simp [hw] at hsend
        · refine ⟨by simp [hk,hp],f,n,?_⟩
          rcases hw with hw | ⟨-,hw⟩
          · exact hw.trans hsend
          · exact absurd hsend (hw _ _ _)
    · split at hs
      · cases hs
      · next hnone =>
        cases hs
        refine ⟨List.nodup_nil,by simp [Wire.new],by simp [Wire.new],?_⟩
        intro c sent k hcall
        simp [hnone] at hcall

theorem Counted.enter (hi : Counted m) (hc : ∀ k, c.caller = .share k →
    k = m.taken ∧ ∃ f n, m.desk.workio = .sending f n c.text)
    (hs : m.enter c = some m') : Counted m' := by
  unfold Sender.enter at hs
  split at hs
  · cases hs
  · cases hs
    refine ⟨hi.once,hi.past,hi.rest,fun c' sent k hcall hcaller => ?_⟩
    cases hcall
    exact hc k hcaller

theorem Counted.pass {p : Pass} (hi : Counted m) (hcall : m.call = some (c,sent))
    (hs : m.pass opt h c sent p = some m') : Counted m' := by
  cases p with
  | unwritable => exact hi.leave_undone hcall hs rfl
  | fails => exact hi.leave_undone hcall hs rfl
  | wouldBlock =>
    cases hs
    exact hi
  | takes n =>
    simp only [Sender.pass] at hs
    split at hs
    · cases hs
    · next hcurl =>
      simp only [Bool.or_eq_true,not_or] at hcurl
      have hsome : m.desk.thread.curl.isSome = true := by
        simpa [Option.isNone_iff_eq_none,Option.isSome_iff_ne_none] using hcurl.1
      split at hs
      · exact hi.leave_done hcall hsome hs rfl
      · cases hs
        refine ⟨hi.once,hi.past,hi.rest,fun c' sent' k hcall' hcaller => ?_⟩
        cases hcall'
        exact hi.hand c sent k hcall hcaller

theorem Counted.step {e : Move} (hi : Counted m) (hs : m.step opt h e = some m') :
    Counted m' := by
  cases e with
  | desk a =>
    simp only [Sender.step] at hs
    split at hs
    · cases hs
    · next ha => exact hi.act (by simpa using ha) hs
  | writes text => exact hi.enter (fun k hk => by cases hk) hs
  | submits =>
    simp only [Sender.step] at hs
    split at hs
    · next f n text hw =>
      refine hi.enter (fun k hk => ?_) hs
      cases hk
      exact ⟨rfl,f,n,hw⟩
    · cases hs
  | passes p =>
    simp only [Sender.step] at hs
    split at hs
    · cases hs
    · next hcall => exact hi.pass hcall hs

theorem take_ne_line (h : sent < c.line.length) : c.line.take sent ≠ c.line := by
  intro he
  have hl := congrArg List.length he
  rw [List.length_take] at hl
  omega

theorem join_done (done : List Call) (c : Call) :
    join newline ((done ++ [c]).map Call.text) = join newline (done.map Call.text) ++ c.line := by
  rw [List.map_append,join_append]
  simp [Call.line]

theorem InFrame.act (hi : InFrame m) (hs : m.act opt h a = some m') : InFrame m' := by
  unfold Sender.act at hs
  split at hs
  · cases hs
  · split at hs
    · cases hs
      exact ⟨hi.order,hi.called,hi.whole,hi.cut⟩
    · split at hs
      · cases hs
      · next hnone =>
        cases hs
        refine ⟨List.Sublist.refl _,fun c sent hcall => ?_,fun _ => ?_,fun hc => by cases hc⟩
        · simp [hnone] at hcall
        · simp [Wire.new,put,hnone]

theorem begun_more {w : Wire} {last : Bytes} (hb : w.Begun last) (c : Call) :
    ({ w with calls := w.calls ++ [c] } : Wire).Begun last := by
  obtain ⟨c',hsub,hpre,hne⟩ := hb
  exact ⟨c',hsub.trans (List.sublist_append_left _ _),hpre,hne⟩

theorem InFrame.enter (hi : InFrame m) (hs : m.enter c = some m') : InFrame m' := by
  unfold Sender.enter at hs
  split at hs
  · cases hs
  · next hnone =>
    have hput : m.put = [] := by simp [put,hnone]
    cases hs
    refine ⟨hi.order.trans (List.sublist_append_left _ _),fun c' sent hcall => ?_,fun hc => ?_,
      fun hc => ?_⟩
    · cases hcall
      exact ⟨by simp [Call.line],hi.order.append (List.Sublist.refl _)⟩
    · have hw := hi.whole hc
      rw [hput] at hw
      simpa [put] using hw
    · obtain ⟨-,last,hbytes,hbegun⟩ := hi.cut hc
      exact ⟨by simp [put],last,hbytes,begun_more hbegun c⟩

theorem InFrame.leave_undone (hi : InFrame m) (hcall : m.call = some (c,sent))
    (hs : m.leave opt h c false { m.wire with cut := m.wire.cut || sent ≠ 0 } = some m') :
    InFrame m' := by
  obtain ⟨hnone,hwire,-,-⟩ := leave_spec hs
  obtain ⟨hlt,hsub⟩ := hi.called c sent hcall
  have hput : m.put = c.line.take sent := by simp [put,hcall]
  have hput' : m'.put = [] := by simp [put,hnone]
  refine ⟨by rw [hwire]; exact hi.order,by simp [hnone],fun hc => ?_,fun hc => ⟨hput',?_⟩⟩
  · rw [hwire] at hc ⊢
    simp only [Bool.or_eq_false_iff,decide_eq_false_iff_not,not_not] at hc
    have hw := hi.whole hc.1
    rw [hput,hc.2] at hw
    rw [hput']
    simpa using hw
  · rw [hwire] at hc ⊢
    cases hcut : m.wire.cut with
    | true => exact (hi.cut hcut).2
    | false =>
      have hw := hi.whole hcut
      rw [hput] at hw
      exact ⟨c.line.take sent,hw,c,hsub,List.take_prefix _ _,take_ne_line hlt⟩

theorem InFrame.takes {n : Nat} (hi : InFrame m) (hcall : m.call = some (c,sent))
    (ho : n ≠ 0 → m.wire.cut = false) (hs : m.pass opt h c sent (.takes n) = some m') :
    InFrame m' := by
  obtain ⟨hlt,hsub⟩ := hi.called c sent hcall
  have hput : m.put = c.line.take sent := by simp [put,hcall]
  have htake : c.line.take sent ++ (c.line.drop sent).take n = c.line.take (sent+n) :=
    (List.take_add).symm
  simp only [Sender.pass] at hs
  split at hs
  · cases hs
  · next hle =>
    simp only [Bool.or_eq_true,decide_eq_true_eq,not_or,Nat.not_lt] at hle
    split at hs
    · next hall =>
      have hcut := ho (by omega)
      obtain ⟨hnone,hwire,-,-⟩ := leave_spec hs
      have hput' : m'.put = [] := by simp [put,hnone]
      refine ⟨by rw [hwire]; exact hsub,by simp [hnone],fun _ => ?_,fun hc => ?_⟩
      · rw [hput',hwire,join_done,hi.whole hcut,hput]
        rw [List.append_assoc,htake,hall,List.take_length,List.append_nil]
      · rw [hwire] at hc
        simp [hcut] at hc
    · next hpart =>
      cases hs
      refine ⟨hi.order,fun c' sent' hcall' => ?_,fun hc => ?_,fun hc => ?_⟩
      · cases hcall'
        exact ⟨by omega,hsub⟩
      · have hw := hi.whole hc
        rw [hput] at hw
        show m.wire.bytes ++ (c.line.drop sent).take n = _ ++ c.line.take (sent+n)
        rw [hw,List.append_assoc,htake]
      · have hzero : n = 0 := by
          by_contra hn
          rw [ho hn] at hc
          cases hc
        obtain ⟨hp,last,hbytes,hbegun⟩ := hi.cut hc
        subst hzero
        exact ⟨by simpa [put,hcall] using hp,last,by simpa using hbytes,hbegun⟩

theorem InFrame.step {e : Move} (hi : InFrame m) (ho : Uncut m e)
    (hs : m.step opt h e = some m') : InFrame m' := by
  cases e with
  | desk a =>
    simp only [Sender.step] at hs
    split at hs
    · cases hs
    · exact hi.act hs
  | writes text => exact hi.enter hs
  | submits =>
    simp only [Sender.step] at hs
    split at hs
    · exact hi.enter hs
    · cases hs
  | passes p =>
    simp only [Sender.step] at hs
    split at hs
    · cases hs
    · next hcall =>
      cases p with
      | unwritable => exact hi.leave_undone hcall hs
      | fails => exact hi.leave_undone hcall hs
      | wouldBlock =>
        cases hs
        exact hi
      | takes n => exact hi.takes hcall ho hs

theorem InFrame.framed (hi : InFrame m) (hc : Counted m) : m.wire.Framed := by
  refine ⟨hi.order,?_,hc.once⟩
  cases hcut : m.wire.cut with
  | true =>
    obtain ⟨-,last,hbytes,hbegun⟩ := hi.cut hcut
    exact ⟨last,hbytes,.inr hbegun⟩
  | false =>
    refine ⟨m.put,hi.whole hcut,?_⟩
    unfold put
    split
    · exact .inl rfl
    · next c sent hcall =>
      obtain ⟨hlt,hsub⟩ := hi.called c sent hcall
      exact .inr ⟨c,hsub,List.take_prefix _ _,take_ne_line hlt⟩

theorem InFrame.start (s : Settings) (extranonce : Bool) : InFrame (start s extranonce) where
  order := List.Sublist.refl _
  called c sent hcall := by cases hcall
  whole _ := rfl
  cut hc := by cases hc

theorem Counted.start (s : Settings) (extranonce : Bool) : Counted (start s extranonce) where
  once := List.nodup_nil
  past k hk := by cases hk
  rest hr := by cases hr
  hand c sent k hcall := by cases hcall

/-- Where nothing follows a line that was cut, a connection carries whole lines. -/
theorem writes_whole_lines (opt : Options) (h : Hashes) (s : Settings) (extranonce : Bool)
    (m : Sender) (hr : Reach (step opt h) Uncut (start s extranonce) m) : m.wire.Framed := by
  have hi := hr.invariant (I := fun m => InFrame m ∧ Counted m)
    ⟨.start s extranonce,.start s extranonce⟩
    (fun _ _ _ hi ho hs => ⟨hi.1.step ho hs,hi.2.step hs⟩)
  exact hi.1.framed hi.2

def inHand : List Move :=
  (firstJob.map Action.thread ++ [Desk.share,.pops,.checks,.builds]).map .desk ++ [.submits]

theorem share_in_three_sends : ∃ m, Reach (step patient plainHashes) Uncut (start bitcoin false) m ∧
    m.wire.done.map Call.share = [some 1] ∧ m.wire.bytes.length = 89 ∧ m.wire.Framed := by
  obtain ⟨m,hr,hd,hl⟩ := reach_of_any (step patient plainHashes) Uncut (start bitcoin false)
    (inHand ++ [.passes (.takes 20),.passes .wouldBlock,.passes (.takes 60),.passes (.takes 9)])
    (fun m => m.wire.done.map Call.share = [some 1] ∧ m.wire.bytes.length = 89) (by decide +kernel)
  exact ⟨m,hr,hd,hl,writes_whole_lines patient plainHashes bitcoin false m hr⟩

/-- A share that is sent again from its first byte, behind the twenty that went out before. -/
theorem share_behind_its_own_beginning :
    ¬ ∀ (opt : Options) (h : Hashes) (s : Settings) (extranonce : Bool) (m : Sender),
      Reach (step opt h) free (start s extranonce) m → m.wire.Framed := by
  intro hall
  obtain ⟨m,hr,hp⟩ := reach_of_any (step patient plainHashes) free (start bitcoin false)
    (inHand ++ [.passes (.takes 20),.passes .unwritable,.desk .checks,.desk .builds,.submits,
      .passes (.takes 89)])
    (fun m => (join newline (m.wire.done.map Call.text)).isPrefixOf m.wire.bytes = false)
    (by decide +kernel)
  obtain ⟨last,hbytes,-⟩ := (hall patient plainHashes bitcoin false m hr).bytes
  have hpre : join newline (m.wire.done.map Call.text) <+: m.wire.bytes := ⟨last,hbytes.symm⟩
  rw [← List.isPrefixOf_iff_prefix,hp] at hpre
  cases hpre

end Sender
end VkMiner.Session
