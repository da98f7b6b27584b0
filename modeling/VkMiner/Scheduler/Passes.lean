import VkMiner.Scheduler.InHand
set_option autoImplicit false

/-! One pass after another: what the worker has in hand it has in hand at the top of the loop
every time it comes round. -/

namespace VkMiner.Scheduler.Mining
open Runs Stratum
open Vulkan (Solution kMaxCandidates)

variable {b : Backend} {C : b.Contract} {site : Site} {c : Calls b} {m m' : Miner b} {l : Line b}
  {owner owner' : Algorithm × Nat} {k : b.Kernel} {x : Launch}

structure Miner.Ready (C : b.Contract) (site : Site) (m : Miner b) : Prop where
  inHand : m.InHand C site
  opened : m.line.Open C

/-- All a worker does to itself between two calls to its kernel: with something outstanding, not
to its job. -/
structure Moves (m m' : Miner b) : Prop where
  frame : m' = { m with
    boundAlgo := m'.boundAlgo, work := m'.work, nonce := m'.nonce, haveJob := m'.haveJob,
    newJob := m'.newJob, xnonce2 := m'.xnonce2, armed := m'.armed, fatal := m'.fatal,
    ended := m'.ended }
  job : m.line.outstanding = [] ∨ m'.work = m.work ∧ m'.haveJob = m.haveJob

namespace Line

theorem Known.reset (h : l.Known C owner) (ho : l.outstanding = []) : l.reset.Known C owner' where
  counts := by simp [Line.reset,h.counts,ho]
  fifo := by simp [Line.reset,h.fifo,ho]
  came := h.came
  idle := fun _ => rfl
  serves := nofun
  keyed := h.keyed
  abandoned := by simp [Line.reset,h.abandoned,ho]
  astray := h.astray

theorem Known.bare (h : l.Known C owner) (hk : l.kernel = none) : l.Known C owner' :=
  { h with serves := fun _ hk' => nomatch hk.symm.trans hk' }

theorem Known.install (h : l.Known C owner) (hn : l.kernel = none) (hs : C.Sound k)
    (hb : C.built k = owner) (hh : C.held k = []) :
    (l.install k).Known C owner ∧ (l.install k).Open C := by
  have ho := h.idle hn
  have hpos := C.depth_pos hs
  have hdepth : (l.install k).depth = b.queueDepth k := Nat.max_eq_right hpos
  refine ⟨⟨h.counts,h.fifo,h.came,nofun,?_,h.keyed,h.abandoned,h.astray⟩,?_,?_⟩
  · rintro _ ⟨⟩
    refine ⟨hs,hb,hh.trans ho.symm,hdepth,fun x hx => ?_⟩
    rw [Line.install,ho] at hx
    cases hx
  · rintro _ ⟨⟩
    exact C.clear_empty hs hh
  · rintro _ ⟨⟩
    rw [hdepth,Line.install,ho]
    exact hpos

theorem Known.opens (h : l.Known C owner) (ho : l.outstanding = []) : l.Open C := by
  refine ⟨fun k hk => ?_,fun k hk => ?_⟩
  · have hs := h.serves k hk
    exact C.clear_empty hs.sound (hs.held.trans ho)
  · have hs := h.serves k hk
    rw [hs.depth,ho]
    exact C.depth_pos hs.sound

end Line

namespace Miner

theorem InHand.moves (h : m.InHand C site) (hm : Moves m m') : m'.InHand C site := by
  have hjob := hm.job
  rw [hm.frame]
  refine ⟨h.line,fun x hx => ?_,h.tally,h.submitted,h.captured,h.parked,fun hb hj => ?_⟩
  · obtain ho | ⟨hw,-⟩ := hjob
    · rw [ho] at hx
      cases hx
    · exact (h.under x hx).same rfl rfl hw
  · obtain ho | ⟨-,hj'⟩ := hjob
    · exact ho
    · exact h.jobless hb (hj' ▸ hj)

theorem Ready.moves (h : m.Ready C site) (hm : Moves m m') : m'.Ready C site := by
  refine ⟨h.inHand.moves hm,?_⟩
  rw [hm.frame]
  exact h.opened

theorem InHand.account (h : m.InHand C site) (c : Calls b) : (m.account c 0).InHand C site :=
  ⟨h.line,fun x hx => (h.under x hx).keeps (keeps_account c 0 m),h.tally.account _,h.submitted,
    h.captured,h.parked,h.jobless⟩

theorem Ready.account (h : m.Ready C site) (c : Calls b) : (m.account c 0).Ready C site :=
  ⟨h.inHand.account c,h.opened⟩

theorem InHand.reaps (h : m.InHand C site) (c : Calls b) (n : Nat) :
    (m.reaps site c n).InHand C site ∧
      (m.reaps site c n).line.outstanding = m.line.outstanding.drop n := by
  induction n generalizing m with
  | zero => exact ⟨h,by simp [Miner.reaps]⟩
  | succ n ih =>
    obtain ⟨hr,ho,-⟩ := h.reap c
    obtain ⟨hi,he⟩ := ih hr
    exact ⟨hi,by rw [Miner.reaps,he,ho,List.drop_tail]⟩

theorem InHand.drain (h : m.InHand C site) (c : Calls b) :
    (m.drain site c).Ready C site ∧ (m.drain site c).line.outstanding = [] := by
  obtain ⟨hi,ho⟩ := h.reaps c m.line.inflight.length
  have hnil : (m.drain site c).line.outstanding = [] := by
    rw [Miner.drain,ho,h.line.counts,List.length_map,List.drop_length]
  exact ⟨⟨hi,hi.line.opens hnil⟩,hnil⟩

theorem InHand.rebind (h : m.InHand C site) (hk : m.line.kernel = none) (a : Algorithm) (size : Nat) :
    { m with algo := a, size := size }.InHand C site := by
  have ho := h.line.idle hk
  refine ⟨h.line.bare hk,fun x hx => ?_,h.tally,h.submitted,h.captured,h.parked,fun _ _ => ho⟩
  rw [ho] at hx
  cases hx

theorem InHand.reset (h : m.InHand C site) (ho : m.line.outstanding = []) :
    m.reset.InHand C site := by
  refine ⟨h.line.reset ho,nofun,h.tally,h.submitted,h.captured,h.parked,fun _ _ => rfl⟩

theorem InHand.ready (h : m.InHand C site) (ho : m.line.outstanding = []) : m.Ready C site :=
  ⟨h,h.line.opens ho⟩

theorem Ready.fail (h : m.Ready C site) : m.fail.Ready C site := h.moves ⟨rfl,.inr ⟨rfl,rfl⟩⟩

/-- Ready again, with or without a job as it was before. -/
def Still (C : b.Contract) (site : Site) (m m' : Miner b) : Prop :=
  m'.Ready C site ∧ m'.haveJob = m.haveJob

theorem InHand.build (h : m.InHand C site) (hk : m.line.kernel = none) (c : Calls b) :
    (m.build c).Ensures (fun m' => Still C site m m' ∧ m'.line.kernel.isSome = true)
      (Ready C site) := by
  have hr := h.ready (h.line.idle hk)
  have hgive : (if c.recoverable then LoopFlow.again m else .out m.fail).Ensures
      (fun m' => Still C site m m' ∧ m'.line.kernel.isSome = true) (Ready C site) :=
    .ite (fun _ => hr) fun _ => hr.fail
  simp only [Miner.build]
  refine .ite (fun _ => hgive) fun _ => ?_
  cases hc : b.create m.algo m.size c.create with
  | none => exact hgive
  | some k =>
    obtain ⟨hs,hb,hh⟩ := C.create_sound hc
    obtain ⟨hknown,hopen⟩ := h.line.install hk hs hb hh
    exact ⟨⟨⟨⟨hknown,fun x hx => (h.under x hx).same rfl rfl rfl,h.tally,h.submitted,h.captured,
      h.parked,h.jobless⟩,hopen⟩,rfl⟩,rfl⟩

theorem Ready.park (h : m.Ready C site) (c : Calls b) :
    (m.park site c).Ensures (Ready C site) (Ready C site) := by
  obtain ⟨hd,ho⟩ := h.inHand.drain c
  have hreset := hd.inHand.reset ho
  -- nothing was outstanding when the kernel went
  have hparked : { (m.drain site c).reset with
      tally := (m.drain site c).reset.tally.publish
      parked := (m.drain site c).reset.parked ++ [(m.drain site c).line.outstanding.length] }.InHand
        C site := by
    refine ⟨hreset.line,nofun,hreset.tally.publish,hreset.submitted,hreset.captured,?_,
      hreset.jobless⟩
    intro n hn
    obtain hn | hn := List.mem_append.mp hn
    · exact hd.inHand.parked n hn
    · rw [List.mem_singleton.mp hn,ho]
      rfl
  simp only [Miner.park]
  refine .ite (fun _ => ?_) fun _ => hparked.ready rfl
  cases site.createAlgorithm c.optAlgo with
  | none => exact (hparked.ready rfl).fail
  | some a => exact ((hparked.rebind rfl a a.size).ready rfl).moves ⟨rfl,.inl rfl⟩

/-- There is a job, and if it is a new one nothing is outstanding. -/
structure Found (C : b.Contract) (site : Site) (m : Miner b) : Prop where
  ready : m.Ready C site
  fresh : m.newJob = true → m.line.outstanding = []
  job : site.benchmark = true → m.haveJob = true

theorem Ready.seek (h : m.Ready C site) (hn : m.newJob = false) (c : Calls b) :
    (m.seek site c).Ensures (Found C site) (Ready C site) := by
  obtain ⟨hd,ho⟩ := h.inHand.drain c
  have hfresh : m.newJob = true → m.line.outstanding = [] := by simp [hn]
  simp only [Miner.seek]
  refine .ite (fun hb => .ite (fun hj => ⟨h,hfresh,fun _ => hj⟩) fun hj => ?_) fun hb =>
    .ite (fun _ => hd.account c) fun _ => .ite (fun _ => ?_) fun _ =>
      ⟨h,hfresh,fun hb' => absurd hb' hb⟩
  · have hempty := h.inHand.jobless hb (by simpa using hj)
    cases benchmarkWork site m.algo with
    | none => exact h.fail
    | some work => exact ⟨h.moves ⟨rfl,.inl hempty⟩,fun _ => hempty,fun _ => rfl⟩
  · exact ⟨hd.moves ⟨rfl,.inl ho⟩,fun _ => ho,fun hb' => absurd hb' hb⟩

theorem Ready.advance (h : m.Ready C site) :
    (m.advance site).Ensures (Still C site m) (Ready C site) := by
  have hm : { m with xnonce2 := m.xnonce2+UInt64.ofNat site.workers, armed := false }.Ready C site :=
    h.moves ⟨rfl,.inr ⟨rfl,rfl⟩⟩
  simp only [Miner.advance]
  exact .ite (fun _ => hm.fail) fun _ => ⟨hm,rfl⟩

theorem Ready.retarget (h : m.Ready C site) (ho : m.line.outstanding = []) (c : Calls b) :
    (m.retarget site c).Ensures (Still C site m) (Ready C site) := by
  simp only [Miner.retarget]
  cases hk : m.line.kernel with
  | none =>
    simp only [Option.isNone_none,Bool.or_true,if_true,Miner.rebuild,hk,Option.isSome_none,
      Bool.false_eq_true,if_false]
    have hsized := h.inHand.rebind hk m.algo (m.algo.retarget m.size m.work.data).2
    have hmoved : { m with
        nonce := m.first site, size := (m.algo.retarget m.size m.work.data).2 }.InHand C site :=
      hsized.moves ⟨rfl,.inl ho⟩
    exact (hmoved.build hk c).mono (fun _ => And.left) fun _ => id
  | some k =>
    cases hret : (m.algo.retarget m.size m.work.data).1 with
    | false =>
      simp only [Option.isNone_some,Bool.or_self,Bool.false_eq_true,if_false]
      rw [m.algo.retarget_same _ _ hret]
      exact ⟨h.moves ⟨rfl,.inl ho⟩,rfl⟩
    | true =>
      -- the size is another already, but there is nothing left to be collected under it
      have hi : m.line.inflight = [] := by rw [h.inHand.line.counts,ho,List.map_nil]
      simp only [Bool.true_or,if_true,Miner.rebuild,hk,Option.isSome_some,Miner.drain,hi]
      have hbare := (h.inHand.reset ho).rebind rfl m.algo (m.algo.retarget m.size m.work.data).2
      have hmoved : { m.reset with
          nonce := m.first site, size := (m.algo.retarget m.size m.work.data).2 }.InHand C site :=
        hbare.moves ⟨rfl,.inl rfl⟩
      exact (hmoved.build rfl c).mono (fun _ => And.left) fun _ => id

theorem Found.begin (h : Found C site m) (c : Calls b) :
    (m.begin site c).Ensures (Still C site m) (Ready C site) := by
  simp only [Miner.begin]
  refine .ite (fun hn => ?_) fun _ => ⟨h.ready,rfl⟩
  refine (h.ready.retarget (h.fresh hn) c).bind fun m' hm' => ?_
  exact hm'.1.advance.mono (fun _ hs => ⟨hs.1,hs.2.trans hm'.2⟩) fun _ => id

structure Working (C : b.Contract) (site : Site) (m : Miner b) : Prop where
  ready : m.Ready C site
  job : site.benchmark = true → m.haveJob = true
  kernel : m.line.kernel.isSome = true

theorem Ready.resume (h : m.Ready C site) (hjob : site.benchmark = true → m.haveJob = true)
    (c : Calls b) : (m.resume c).Ensures (Working C site) (Ready C site) := by
  simp only [Miner.resume]
  refine .ite (fun hk => ?_) fun hk => ⟨h,hjob,by simpa [Option.isSome_iff_ne_none] using hk⟩
  exact (h.inHand.build (by simpa using hk) c).mono
    (fun _ hs => ⟨hs.1.1,fun hb => hs.1.2.trans (hjob hb),hs.2⟩) fun _ => id

theorem Working.arm (h : Working C site m) (c : Calls b) :
    (m.arm site c).Ensures (Working C site) (Ready C site) := by
  obtain ⟨hd,ho⟩ := h.ready.inHand.drain c
  have hkeeps := drain_keeps site c m
  have hjob : site.benchmark = true → (m.drain site c).haveJob = true := by
    rw [hkeeps.frame]
    exact h.job
  simp only [Miner.arm]
  refine .ite (fun _ => ?_) fun _ => h
  cases stratumSetExtranonce2 c.dialect c.hashes c.stratum (m.drain site c).work.toWork
      (m.drain site c).xnonce2 with
  | none => exact hd.account c
  | some r => exact ⟨hd.moves ⟨rfl,.inl ho⟩,hjob,hkeeps.kernel.trans h.kernel⟩

theorem Ready.exhaust (h : m.Ready C site) (c : Calls b) : (m.exhaust site c).Ready C site := by
  obtain ⟨hd,ho⟩ := h.inHand.drain c
  simp only [Miner.exhaust]
  split
  · exact hd.moves ⟨rfl,.inl ho⟩
  · split
    · exact h.moves ⟨rfl,.inr ⟨rfl,rfl⟩⟩
    · exact h.moves ⟨rfl,.inr ⟨rfl,rfl⟩⟩

theorem InHand.recover (h : m.InHand C site) (c : Calls b) {mid : Miner b → Prop} :
    (m.recover site c).Ensures mid (Ready C site) := (h.drain c).1.account c

theorem InHand.asked (h : m.InHand C site) {k' : b.Kernel} (hs : m.line.Serves C (m.algo,m.size) k') :
    { m with line := { m.line with kernel := some k' } }.InHand C site := by
  have hl := h.line
  refine ⟨⟨hl.counts,hl.fifo,hl.came,nofun,?_,hl.keyed,hl.abandoned,hl.astray⟩,?_,h.tally,
    h.submitted,h.captured,h.parked,h.jobless⟩
  · rintro _ ⟨⟩
    exact ⟨hs.sound,hs.built,hs.held,hs.depth,hs.keys⟩
  · exact fun x hx => (h.under x hx).same rfl rfl rfl

/-- With as much outstanding as the kernel takes, the oldest comes back. -/
theorem InHand.collectFull (h : m.InHand C site) (c : Calls b)
    (hclear : ∀ k, m.line.kernel = some k → C.clear k)
    (hroom : ∀ k, m.line.kernel = some k → m.line.outstanding.length ≤ m.line.depth)
    (hsome : m.line.kernel.isSome = true) :
    (m.collectFull site c).Ensures (Ready C site) (Ready C site) := by
  obtain ⟨k,hk⟩ := Option.isSome_iff_exists.mp hsome
  have hle := hroom k hk
  have hlen : m.line.inflight.length = m.line.outstanding.length := by
    rw [h.line.counts,List.length_map]
  simp only [Miner.collectFull]
  refine .ite (fun hfull => ?_) fun hfree => ?_
  · obtain ⟨hi,ho,hc⟩ := h.reap c
    refine .ite (fun _ => hi.recover c) fun _ => ⟨hi,hc hclear,fun k' hk' => ?_⟩
    have hdepth := (reap_keeps site c m).depth
    have hpos : 0 < m.line.depth := by
      rw [(h.line.serves k hk).depth]
      exact C.depth_pos (h.line.serves k hk).sound
    rw [ho,hdepth,List.length_tail]
    omega
  · exact ⟨h,hclear,fun _ _ => by omega⟩

theorem InHand.dispatch (h : m.InHand C site) (c : Calls b) (batch : Nat)
    (hk : m.line.kernel = some k) (hclear : C.clear k)
    (hroom : m.line.outstanding.length < m.line.depth)
    (hstate : C.state k = some (m.algo.stateKey m.size m.work.data))
    (hprogram : C.program k = some (m.algo.programKey m.work.data))
    (hjob : site.benchmark = true → m.haveJob = true) :
    (m.dispatch site c batch k).Ensures (Ready C site) (Ready C site) := by
  have hs := h.line.serves k hk
  obtain ⟨hsound,hheld⟩ := C.dispatch_sound (l := m.request batch) (c := c.dispatch) hs.sound hclear
    (by rw [hs.held,← hs.depth]; exact hroom) hs.built hstate hprogram
  obtain ⟨hbuilt,hdepth,hst,hpr⟩ := C.dispatch_frame k (m.request batch) c.dispatch
  simp only [Miner.dispatch]
  cases hok : (b.dispatch k (m.request batch) c.dispatch).1 with
  | false =>
    rw [hok] at hheld
    simp only [Bool.false_eq_true,if_false] at hheld
    simp only [Bool.not_false,if_true]
    refine (h.asked ⟨hsound,hbuilt.trans hs.built,hheld.trans hs.held,
      hs.depth.trans hdepth.symm,fun x hx => ?_⟩).recover c
    rw [hst,hpr]
    exact hs.keys x hx
  | true =>
    rw [hok] at hheld
    obtain ⟨hheld,hclear'⟩ := by simpa only [if_true] using hheld
    simp only [Bool.not_true,Bool.false_eq_true,if_false]
    refine InHand.collectFull ?_ c ?_ ?_ rfl
    · have hl := h.line
      refine ⟨⟨?_,?_,hl.came,nofun,?_,?_,hl.abandoned,hl.astray⟩,?_,h.tally,h.submitted,
        h.captured,h.parked,fun hb hj => ?_⟩
      · simp [Line.push,hl.counts]
      · simp [Line.push,hl.fifo]
      · rintro _ ⟨⟩
        refine ⟨hsound,hbuilt.trans hs.built,?_,hs.depth.trans hdepth.symm,fun x hx => ?_⟩
        · rw [hheld,hs.held]
          rfl
        · rw [hst,hpr]
          obtain hx | hx := List.mem_append.mp hx
          · exact hs.keys x hx
          · obtain rfl := List.mem_singleton.mp hx
            exact ⟨hstate,hprogram⟩
      · intro x hx
        obtain hx | hx := List.mem_append.mp hx
        · exact hl.keyed x hx
        · obtain rfl := List.mem_singleton.mp hx
          exact ⟨rfl,rfl⟩
      · intro x hx
        obtain hx | hx := List.mem_append.mp hx
        · exact (h.under x hx).same rfl rfl rfl
        · obtain rfl := List.mem_singleton.mp hx
          exact ⟨rfl,rfl,.refl _ _⟩
      · cases (hjob hb).symm.trans hj
    · rintro _ ⟨⟩
      exact hclear'
    · intro _ _
      simp only [Line.push,List.length_append,List.length_singleton]
      omega

theorem InHand.keys (h : m.InHand C site) (hx : x ∈ m.line.outstanding) :
    x.stateKey = m.algo.stateKey m.size m.work.data ∧
      x.programKey = m.algo.programKey m.work.data := by
  have hu := h.under x hx
  obtain ⟨hst,hpr⟩ := h.line.keyed x (by rw [h.line.fifo]; exact List.mem_append_right _ hx)
  rw [hst,hpr,hu.algo,hu.size]
  exact ⟨Algorithm.stateKey_alike hu.work.data x.size,Algorithm.programKey_alike hu.work.data⟩

theorem InHand.asks (h : m.InHand C site) (hk : m.line.kernel = some k) :
    (C.held k = [] ∨ C.state k = some (m.algo.stateKey m.size m.work.data)) ∧
      (C.held k = [] ∨ C.program k = some (m.algo.programKey m.work.data)) := by
  have hs := h.line.serves k hk
  cases ho : m.line.outstanding with
  | nil => exact ⟨.inl (hs.held.trans ho),.inl (hs.held.trans ho)⟩
  | cons x xs =>
    have hx : x ∈ m.line.outstanding := by simp [ho]
    rw [← (h.keys hx).1,← (h.keys hx).2]
    exact ⟨.inr (hs.keys x hx).1,.inr (hs.keys x hx).2⟩

theorem InHand.preparesState (h : m.InHand C site) (hk : m.line.kernel = some k) (d : b.Calls) :
    m.line.Serves C (m.algo,m.size)
      (b.prepareState k (m.algo.stateKey m.size m.work.data) d).2 ∧
    (C.clear k → C.clear (b.prepareState k (m.algo.stateKey m.size m.work.data) d).2) := by
  have hs := h.line.serves k hk
  obtain ⟨hsound,hheld,hclear⟩ := C.prepareState_sound (c := d) hs.sound (h.asks hk).1
  obtain ⟨hbuilt,hdepth,hprogram⟩ := C.prepareState_frame k (m.algo.stateKey m.size m.work.data) d
  refine ⟨⟨hsound,hbuilt.trans hs.built,hheld.trans hs.held,hs.depth.trans hdepth.symm,?_⟩,hclear⟩
  intro x hx
  rw [hprogram,C.prepareState_key]
  refine ⟨?_,(hs.keys x hx).2⟩
  split
  · rw [(h.keys hx).1]
  · exact (hs.keys x hx).1

theorem InHand.preparesProgram (h : m.InHand C site) (hk : m.line.kernel = some k) (d : b.Calls) :
    m.line.Serves C (m.algo,m.size) (b.prepareProgram k (m.algo.programKey m.work.data) d).2 ∧
    (C.clear k → C.clear (b.prepareProgram k (m.algo.programKey m.work.data) d).2) := by
  have hs := h.line.serves k hk
  obtain ⟨hsound,hheld,hclear⟩ := C.prepareProgram_sound (c := d) hs.sound (h.asks hk).2
  obtain ⟨hbuilt,hdepth,hstate⟩ := C.prepareProgram_frame k (m.algo.programKey m.work.data) d
  refine ⟨⟨hsound,hbuilt.trans hs.built,hheld.trans hs.held,hs.depth.trans hdepth.symm,?_⟩,hclear⟩
  intro x hx
  rw [hstate,C.prepareProgram_key]
  refine ⟨(hs.keys x hx).1,?_⟩
  split
  · rw [(h.keys hx).2]
  · exact (hs.keys x hx).2

theorem InHand.prepare (h : m.InHand C site) (c : Calls b) (batch : Nat)
    (hk : m.line.kernel = some k) (hclear : C.clear k)
    (hroom : m.line.outstanding.length < m.line.depth)
    (hjob : site.benchmark = true → m.haveJob = true) :
    (m.prepare site c batch k).Ensures (Ready C site) (Ready C site) := by
  obtain ⟨hserves,hclear⟩ := h.preparesState hk c.prepareState |>.imp_right (· hclear)
  have hasked := h.asked hserves
  have hstate := C.prepareState_key k (m.algo.stateKey m.size m.work.data) c.prepareState
  simp only [Miner.prepare]
  cases hok : (b.prepareState k (m.algo.stateKey m.size m.work.data) c.prepareState).1 with
  | false =>
    simp only [Bool.not_false,if_true]
    exact hasked.recover c
  | true =>
    rw [if_pos hok] at hstate
    obtain ⟨hserves',hclear'⟩ := hasked.preparesProgram rfl c.prepareProgram |>.imp_right (· hclear)
    have hasked' := hasked.asked hserves'
    have hframe := (C.prepareProgram_frame
      (b.prepareState k (m.algo.stateKey m.size m.work.data) c.prepareState).2
      (m.algo.programKey m.work.data) c.prepareProgram).2.2
    have hprogram := C.prepareProgram_key
      (b.prepareState k (m.algo.stateKey m.size m.work.data) c.prepareState).2
      (m.algo.programKey m.work.data) c.prepareProgram
    simp only [Bool.not_true,Bool.false_eq_true,if_false]
    refine .ite (fun _ => hasked'.recover c) fun hok' => ?_
    rw [if_pos (by simpa using hok')] at hprogram
    exact hasked'.dispatch c batch rfl hclear' hroom (hframe.trans hstate) hprogram hjob

theorem Working.launch (h : Working C site m) (c : Calls b) :
    (m.launch site c).Ensures (Ready C site) (Ready C site) := by
  obtain ⟨k,hk⟩ := Option.isSome_iff_exists.mp h.kernel
  have hopened := h.ready.opened
  simp only [Miner.launch,hk]
  exact .ite (fun _ => h.ready.exhaust c) fun _ => h.ready.inHand.prepare c _ hk
    (hopened.clear k hk) (hopened.room k hk) h.job

theorem Ready.pass (h : m.Ready C site) (c : Calls b) :
    (m.pass site c).Ensures (Ready C site) (Ready C site) := by
  have hm : { m with newJob := false }.Ready C site := h.moves ⟨rfl,.inr ⟨rfl,rfl⟩⟩
  simp only [Miner.pass]
  refine .ite (fun _ => hm.park c) fun _ => ?_
  have hbegin : ((Miner.seek site c { m with newJob := false }).bind (Miner.begin site c)).Ensures
      (fun s => s.Ready C site ∧ (site.benchmark = true → s.haveJob = true)) (Ready C site) :=
    (hm.seek rfl c).bind fun s hs => (hs.begin c).mono
      (fun _ ht => ⟨ht.1,fun hb => ht.2.trans (hs.job hb)⟩) fun _ => id
  have hresume := hbegin.bind fun s hs => hs.1.resume hs.2 c
  have harm := hresume.bind fun s hs => hs.arm c
  exact harm.bind fun s hs => hs.launch c

theorem Ready.finish (h : m.Ready C site) (c : Calls b) : (m.finish site c).Ready C site := by
  obtain ⟨hd,ho⟩ := h.inHand.drain c
  exact ((hd.inHand.reset ho).ready rfl).moves ⟨rfl,.inl rfl⟩

theorem Ready.step {e : Event b} (h : m.Ready C site) (hs : step site m e = some m') :
    m'.Ready C site := by
  simp only [Mining.step] at hs
  split at hs
  · cases hs
  cases e with
  | stop c =>
    cases hs
    exact h.finish c
  | pass c =>
    have hp := h.pass c
    simp only at hs
    split at hs <;> rename_i he <;> cases hs <;> rw [he] at hp
    · exact hp
    · exact hp
    · exact Ready.finish hp c

end Miner

theorem ready_opened {optAlgo : CStr} (h : opened b site optAlgo = some m) : m.Ready C site := by
  simp only [opened,Option.map_eq_some_iff] at h
  obtain ⟨a,-,rfl⟩ := h
  refine ⟨⟨⟨rfl,rfl,.nil,fun _ => rfl,nofun,nofun,rfl,rfl⟩,nofun,
    ⟨rfl,rfl,rfl,rfl,Nat.le_refl 0,rfl,rfl⟩,?_,.nil,nofun,fun _ _ => rfl⟩,nofun,nofun⟩
  simp [Line.start]

theorem ready_reach (C : b.Contract) {optAlgo : CStr} {m₀ : Miner b}
    (h₀ : opened b site optAlgo = some m₀) (h : Reach (step site) free m₀ m) : m.Ready C site :=
  h.invariant (ready_opened h₀) fun _ _ _ hm _ hs => hm.step hs

end VkMiner.Scheduler.Mining
