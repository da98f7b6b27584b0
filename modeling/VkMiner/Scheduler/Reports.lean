import VkMiner.Scheduler.HostBackends
import VkMiner.Scheduler.Passes
set_option autoImplicit false

/-! What a worker reports, over any run: the shares it sends, the candidates it keeps and the
numbers it publishes, each out of the record of what was collected. -/

namespace VkMiner.Scheduler.Mining
open Runs Stratum
open Vulkan (Solution kMaxCandidates)

variable {b : Backend} {site : Site} {c : Calls b} {m m' m₀ : Miner b} {optAlgo : CStr}
  {x : Launch} {s : Share} {found : List Solution}

theorem plain_run : ∃ m, Reach (step plainSite) free (plainMiner cpu) m ∧
    m.submitted.length = 4 ∧ m.parked = [0] ∧ m.work.jobEpoch = 2 :=
  reach_of_any (step plainSite) free (plainMiner cpu)
    [.pass (plainCalls () 1),.pass { plainCalls () 1 with wantsPark := true },
      .pass (plainCalls () 2)] (fun m => m.submitted.length = 4 ∧ m.parked = [0] ∧
        m.work.jobEpoch = 2) (by decide)

/-- In every state of every run, what the device holds is what was launched and not collected,
in that order, and all of it is of the job, the header and the algorithm that the worker has now;
the kernel is one that was built for these, with room for another dispatch; and nothing was held
when a kernel was let go or a park was entered. -/
theorem pipeline_of_one_job (C : b.Contract) (h₀ : opened b site optAlgo = some m₀)
    (h : Reach (step site) free m₀ m) :
    m.line.launched = m.line.retired.map Prod.fst ++ m.line.outstanding ∧
    m.line.inflight = m.line.outstanding.map Launch.count ∧
    (∀ x ∈ m.line.outstanding, x.Under m) ∧
    (∀ k, m.line.kernel = some k → C.Sound k ∧ C.clear k ∧ C.built k = (m.algo,m.size) ∧
      C.held k = m.line.outstanding ∧ (C.held k).length < b.queueDepth k) ∧
    (m.line.kernel = none → m.line.outstanding = []) ∧
    m.line.abandoned = [] ∧ m.line.astray = false ∧ ∀ n ∈ m.parked, n = 0 := by
  have hr := ready_reach C h₀ h
  have hl := hr.inHand.line
  refine ⟨hl.fifo,hl.counts,hr.inHand.under,fun k hk => ?_,hl.idle,hl.abandoned,hl.astray,
    hr.inHand.parked⟩
  have hs := hl.serves k hk
  have hroom := hr.opened.room k hk
  rw [hs.depth] at hroom
  exact ⟨hs.sound,hr.opened.clear k hk,hs.built,hs.held,by rw [hs.held]; exact hroom⟩

theorem Launch.mem_shares : s ∈ x.shares found ↔ ∃ a ∈ found, x.meets a = true ∧ x.share a = s := by
  simp [Launch.shares,and_assoc]

theorem Launch.share_hash (x : Launch) (a : Solution) :
    (x.share a).hash = x.algo.hash x.size (x.share a).work.data (x.share a).work.nonce :=
  Algorithm.hash_alike (Algorithm.alike_place _ _ _) _ _

theorem mem_candidates {retired : List (Launch × Option (List Solution))} {p : Launch × Solution} :
    p ∈ candidates retired ↔ ∃ found, (p.1,some found) ∈ retired ∧ p.2 ∈ found := by
  obtain ⟨x,a⟩ := p
  simp only [candidates,List.mem_flatMap,List.mem_map,Prod.mk.injEq,Prod.exists]
  constructor
  · rintro ⟨y,answer,hr,a',ha,rfl,rfl⟩
    cases answer with
    | none => simp at ha
    | some found => exact ⟨found,hr,ha⟩
  · rintro ⟨found,hr,ha⟩
    exact ⟨x,some found,hr,a,ha,rfl,rfl⟩

theorem Miner.InHand.share_came {C : b.Contract} (hi : m.InHand C site) (hs : s ∈ m.submitted) :
    ∃ x found a, (x,some found) ∈ m.line.retired ∧ (∃ k ∈ m.line.served, C.Came k kMaxCandidates x (some found)) ∧
      a ∈ found ∧ s = x.share a ∧ s.hash = x.algo.hash x.size s.work.data s.work.nonce ∧
      Seals.fulltest s.hash s.work.target = true := by
  rw [hi.submitted] at hs
  split at hs
  · cases hs
  obtain ⟨⟨x,answer⟩,hr,hs⟩ := List.mem_flatMap.mp hs
  obtain ⟨a,ha,hm,rfl⟩ := Launch.mem_shares.mp hs
  cases answer with
  | none => cases ha
  | some found => exact ⟨x,found,a,hr,hi.line.came_of hr,ha,rfl,x.share_hash a,hm⟩

/-- In every state of every run, the shares that were sent are the candidates that the device
reported for a dispatch and that the host's hash of that dispatch's header confirms, in the order
in which they came, each once and each on the job, the header and the target that it was found
under; nothing is sent by a benchmark. -/
theorem shares_of_launches (C : b.Contract) (h₀ : opened b site optAlgo = some m₀)
    (h : Reach (step site) free m₀ m) :
    m.submitted = (if site.benchmark then [] else
      m.line.retired.flatMap fun r => r.1.shares (r.2.getD [])) ∧
    ∀ s ∈ m.submitted, ∃ x found a, (x,some found) ∈ m.line.retired ∧
      (∃ k ∈ m.line.served, C.Came k kMaxCandidates x (some found)) ∧ a ∈ found ∧ s = x.share a ∧
      s.hash = x.algo.hash x.size s.work.data s.work.nonce ∧
      Seals.fulltest s.hash s.work.target = true := by
  have hi := (ready_reach C h₀ h).inHand
  exact ⟨hi.submitted,fun s hs => hi.share_came hs⟩

theorem shares_of_launches_run : ∃ m : Miner cpu, m.submitted.length = 4 ∧
    m.submitted = m.line.retired.flatMap (fun r => r.1.shares (r.2.getD [])) ∧
    ∀ s ∈ m.submitted, Seals.fulltest s.hash s.work.target = true := by
  obtain ⟨m,hr,hs,-⟩ := plain_run
  obtain ⟨hall,heach⟩ := shares_of_launches cpuContract rfl hr
  refine ⟨m,hs,hall,fun s hm => ?_⟩
  obtain ⟨x,found,a,-,-,-,-,-,hmeets⟩ := heach s hm
  exact hmeets

theorem sum_filter_add (retired : List (Launch × Option (List Solution))) :
    ((retired.filter (·.2.isSome)).map (·.1.count)).sum+
      ((retired.filter (·.2.isNone)).map (·.1.count)).sum =
      ((retired.map Prod.fst).map Launch.count).sum := by
  induction retired with
  | nil => rfl
  | cons r retired ih =>
    obtain ⟨x,answer⟩ := r
    cases answer <;> simp at ih ⊢ <;> omega

theorem Miner.InHand.launched_counts {C : b.Contract} (hi : m.InHand C site) :
    (m.line.launched.map Launch.count).sum =
      m.tally.hashes+m.tally.failed+m.line.inflight.sum := by
  rw [hi.line.fifo,hi.line.counts,hi.tally.hashes,hi.tally.failed,sum_filter_add,List.map_append,
    List.sum_append]

/-- In every state of every run, every nonce that was launched is counted once: as hashed, as
lost to a device that failed, or as still in flight; what is published and what is left in the
window are what was hashed; and every candidate is confirmed or rejected, and kept in the log
exactly where it was rejected or its digest was another than the host's. -/
theorem work_accounted (C : b.Contract) (h₀ : opened b site optAlgo = some m₀)
    (h : Reach (step site) free m₀ m) :
    (m.line.launched.map Launch.count).sum = m.tally.hashes+m.tally.failed+m.line.inflight.sum ∧
    m.tally.published+m.tally.window = m.tally.hashes ∧
    m.tally.total = m.line.retired.countP (·.2.isSome) ∧ m.tally.stale ≤ m.tally.total ∧
    m.tally.confirmed+m.tally.rejected = (candidates m.line.retired).length ∧
    (site.benchmark = false → m.submitted.length = m.tally.confirmed) ∧
    List.Forall₂ (fun p q => Launch.Captured site.device p.1 p.2 q)
      ((candidates m.line.retired).filter fun p => (p.1.fault p.2).isSome) m.captured := by
  have hi := (ready_reach C h₀ h).inHand
  have ht := hi.tally
  refine ⟨hi.launched_counts,ht.published,ht.total,ht.stale,?_,fun hb => ?_,hi.captured⟩
  · rw [ht.confirmed,ht.rejected]
    simpa using (List.length_eq_countP_add_countP (fun p : Launch × Solution => p.1.meets p.2)
      (l := candidates m.line.retired)).symm
  · rw [hi.submitted,ht.confirmed,if_neg (by simp [hb]),candidates,List.countP_flatMap,
      List.length_flatMap]
    congr 1
    refine List.map_congr_left fun r _ => ?_
    simp only [Function.comp_apply,Launch.shares,List.length_map,List.countP_map,
      ← List.countP_eq_length_filter]
    rfl

theorem work_accounted_run : ∃ m : Miner cpu, m.submitted.length = 4 ∧
    m.tally.confirmed = 4 ∧
    (m.line.launched.map Launch.count).sum =
      m.tally.hashes+m.tally.failed+m.line.inflight.sum := by
  obtain ⟨m,hr,hs,-⟩ := plain_run
  obtain ⟨hsum,-,-,-,-,hsent,-⟩ := work_accounted cpuContract rfl hr
  exact ⟨m,hs,(hsent rfl).symm.trans hs,hsum⟩

/-- Nothing has been launched, and the job is of that epoch. -/
structure Waits (launched : List Launch) (epoch : UInt32) (m : Miner b) : Prop where
  launched : m.line.launched = launched
  epoch : m.work.jobEpoch = epoch

/-- At the end of a pass, nothing, or one dispatch under a job of that epoch. -/
def Launches (launched : List Launch) (epoch : UInt32) (m : Miner b) : Prop :=
  m.line.launched = launched ∨
    ∃ x, m.line.launched = launched ++ [x] ∧ x.work.jobEpoch = epoch

namespace Miner

variable {launched : List Launch} {epoch : UInt32}

theorem Keeps.waits (hk : Keeps m m') (h : Waits launched epoch m) : Waits launched epoch m' :=
  ⟨hk.launched.trans h.launched,hk.work.jobEpoch.trans h.epoch⟩

theorem Keeps.launches (hk : Keeps m m') (h : Launches launched epoch m) :
    Launches launched epoch m' := by
  rw [Launches,hk.launched]
  exact h

theorem recover_launches (h : Launches launched epoch m) {mid : Miner b → Prop} :
    (m.recover site c).Ensures mid (Launches launched epoch) :=
  Keeps.launches ((drain_keeps site c m).trans (keeps_account c 0 _)) h

theorem build_waits (h : Waits launched epoch m) :
    (m.build c).Ensures (Waits launched epoch) (Launches launched epoch) := by
  have hgive : (if c.recoverable then LoopFlow.again m else .out m.fail).Ensures
      (Waits launched epoch) (Launches launched epoch) :=
    .ite (fun _ => .inl h.launched) fun _ => .inl h.launched
  simp only [build]
  refine .ite (fun _ => hgive) fun _ => ?_
  split
  · exact hgive
  · exact ⟨h.launched,h.epoch⟩

theorem begin_waits (site : Site) (c : Calls b) (h : Waits launched epoch m) :
    (m.begin site c).Ensures (Waits launched epoch) (Launches launched epoch) := by
  have hretarget : (m.retarget site c).Ensures (Waits launched epoch) (Launches launched epoch) := by
    simp only [retarget,rebuild]
    refine .ite (fun _ => .ite (fun _ => ?_) fun _ => build_waits ⟨h.launched,h.epoch⟩) fun _ =>
      ⟨h.launched,h.epoch⟩
    have hd : Waits launched epoch (Miner.drain site c { m with
        nonce := m.first site, size := (m.algo.retarget m.size m.work.data).2 }) :=
      Keeps.waits (drain_keeps site c _) ⟨h.launched,h.epoch⟩
    exact build_waits ⟨hd.launched,hd.epoch⟩
  simp only [begin]
  refine .ite (fun _ => hretarget.bind fun m' hm' => ?_) fun _ => h
  simp only [advance]
  exact .ite (fun _ => .inl hm'.launched) fun _ => ⟨hm'.launched,hm'.epoch⟩

theorem resume_waits (c : Calls b) (h : Waits launched epoch m) :
    (m.resume c).Ensures (Waits launched epoch) (Launches launched epoch) := by
  simp only [resume]
  exact .ite (fun _ => build_waits h) fun _ => h

theorem arm_waits (site : Site) (c : Calls b) (h : Waits launched epoch m) :
    (m.arm site c).Ensures (Waits launched epoch) (Launches launched epoch) := by
  have hd := Keeps.waits (drain_keeps site c m) h
  simp only [arm]
  refine .ite (fun _ => ?_) fun _ => h
  split
  · exact .inl hd.launched
  · exact ⟨hd.launched,hd.epoch⟩

theorem collectFull_launches (h : Launches launched epoch m) :
    (m.collectFull site c).Ensures (Launches launched epoch) (Launches launched epoch) := by
  have hreap := Keeps.launches (reap_keeps site c m) h
  simp only [collectFull]
  exact .ite (fun _ => .ite (fun _ => recover_launches hreap) fun _ => hreap) fun _ => h

theorem dispatch_launches (h : Waits launched epoch m) (batch : Nat) (k : b.Kernel) :
    (m.dispatch site c batch k).Ensures (Launches launched epoch) (Launches launched epoch) := by
  simp only [dispatch]
  refine .ite (fun _ => recover_launches ?_) fun _ => collectFull_launches ?_
  · exact .inl h.launched
  · exact .inr ⟨m.request batch,by simp [Line.push,h.launched],h.epoch⟩

theorem prepare_launches (h : Waits launched epoch m) (batch : Nat) (k : b.Kernel) :
    (m.prepare site c batch k).Ensures (Launches launched epoch) (Launches launched epoch) := by
  simp only [prepare]
  refine .ite (fun _ => recover_launches ?_) fun _ => .ite (fun _ => recover_launches ?_) fun _ =>
    dispatch_launches ⟨h.launched,h.epoch⟩ _ _
  · exact .inl h.launched
  · exact .inl h.launched

theorem launch_launches (h : Waits launched epoch m) :
    (m.launch site c).Ensures (Launches launched epoch) (Launches launched epoch) := by
  simp only [launch]
  split
  · exact .inl h.launched
  refine .ite (fun _ => ?_) fun _ => prepare_launches h _ _
  have hd := (drain_keeps site c m).launched.trans h.launched
  simp only [exhaust]
  split
  · exact .inl hd
  · split <;> exact .inl h.launched

end Miner

def mined (m : Miner b) (c : Calls b) : UInt32 :=
  if m.work.jobEpoch ≠ c.epoch then c.gWork.jobEpoch else c.epoch

theorem Miner.park_launched (site : Site) (c : Calls b) (m : Miner b) :
    (m.park site c).state.line.launched = m.line.launched := by
  have hd := (drain_keeps site c m).launched
  simp only [park]
  split
  · split <;> exact hd
  · exact hd

theorem Miner.pass_launches (hb : site.benchmark = false) (hp : c.wantsPark = false) (m : Miner b) :
    (m.pass site c).Ensures (Launches m.line.launched (mined m c))
      (Launches m.line.launched (mined m c)) ∧
    (c.waiting = true → (m.pass site c).state.line.launched = m.line.launched) := by
  have hd := drain_keeps site c { m with newJob := false }
  simp only [pass,hp,Bool.false_eq_true,if_false]
  have hseek : (Miner.seek site c { m with newJob := false }).Ensures
      (Waits m.line.launched (mined m c)) (Launches m.line.launched (mined m c)) := by
    simp only [seek,hb,Bool.false_eq_true,if_false]
    refine .ite (fun _ => .inl hd.launched) fun _ => .ite (fun he => ?_) fun he => ?_
    · exact ⟨hd.launched,(if_pos he).symm⟩
    · exact ⟨rfl,by rw [mined,if_neg he]; exact not_ne_iff.mp he⟩
  refine ⟨?_,fun hw => ?_⟩
  · have hbegin := hseek.bind fun s hs => begin_waits site c hs
    have hresume := hbegin.bind fun s hs => resume_waits c hs
    have harm := hresume.bind fun s hs => arm_waits site c hs
    exact harm.bind fun s hs => launch_launches hs
  · simp only [seek,hb,hw,Bool.false_eq_true,if_false,if_true]
    exact hd.launched

/-- A pass launches at most one dispatch, none while a park is asked for or the pool is gone, and
that one under the job that was published when the pass looked, or the one it copied then. -/
theorem launches_fresh (hb : site.benchmark = false) (hs : step site m (.pass c) = some m') :
    m'.line.launched = m.line.launched ∨ ∃ x, m'.line.launched = m.line.launched ++ [x] ∧
      c.wantsPark = false ∧ c.waiting = false ∧
      x.work.jobEpoch = if m.work.jobEpoch ≠ c.epoch then c.gWork.jobEpoch else c.epoch := by
  have hstate : m'.line.launched = (m.pass site c).state.line.launched := by
    simp only [step] at hs
    split at hs
    · cases hs
    · split at hs <;> rename_i he <;> cases hs <;> rw [he]
      · rfl
      · rfl
      · exact (Miner.drain_keeps site c _).launched
  rw [hstate]
  cases hp : c.wantsPark with
  | true =>
    refine .inl ?_
    simp only [Miner.pass,hp,if_true]
    exact Miner.park_launched site c _
  | false =>
    obtain ⟨hl,hw⟩ := Miner.pass_launches hb hp m
    obtain hn | ⟨x,hx,he⟩ := hl.state
    · exact .inl hn
    · refine .inr ⟨x,hx,rfl,?_,he⟩
      by_contra hwait
      have := hw (by simpa using hwait)
      rw [hx] at this
      simp at this

theorem launches_fresh_run : ∃ m' : Miner cpu,
    step plainSite (plainMiner cpu) (.pass (plainCalls () 1)) = some m' ∧
    ∃ x, m'.line.launched = [x] ∧ x.work.jobEpoch = 1 := by
  obtain ⟨m',hs,hl⟩ := (Option.any_eq_true _ _).mp
    (by decide : (step plainSite (plainMiner cpu) (.pass (plainCalls () 1))).any
      (fun m => m.line.launched.length == 1) = true)
  obtain hn | ⟨x,hx,-,-,he⟩ := launches_fresh rfl hs
  · rw [hn] at hl
    cases hl
  · exact ⟨m',hs,x,hx,he⟩

end VkMiner.Scheduler.Mining
