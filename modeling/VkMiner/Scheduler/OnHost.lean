import VkMiner.Scheduler.HostBackends
import VkMiner.Scheduler.Reports
set_option autoImplicit false

/-! A worker on the two backends without a device. -/

namespace VkMiner.Scheduler.Mining
open Runs
open Vulkan (Solution kMaxCandidates)

theorem Launch.shares_solutions (x : Launch) (n : Nat) :
    x.shares (x.solutions.take n) = (x.solutions.take n).map x.share := by
  refine congrArg _ (List.filter_eq_self.mpr fun a ha => ?_)
  obtain ⟨i,-,hi⟩ := List.mem_filterMap.mp (List.mem_of_mem_take ha)
  simp only [solutionAt] at hi
  split at hi
  · rename_i hm
    cases hi
    simpa [meets] using hm
  · cases hi

/-- A worker on the host's processor sends exactly the solutions that there are in what it has
covered, in their order, the first of them where a launch has more than a collect has room for;
and nothing it computes is refused or disputed. -/
theorem worker_on_cpu {site : Site} {optAlgo : CStr} {m m₀ : Miner cpu}
    (h₀ : opened cpu site optAlgo = some m₀) (h : Reach (step site) free m₀ m) :
    m.submitted = (if site.benchmark then [] else (m.line.retired.map Prod.fst).flatMap fun x =>
      (x.solutions.take kMaxCandidates).map x.share) ∧
    m.tally.failed = 0 ∧ m.tally.rejected = 0 ∧ m.captured = [] := by
  have hi := (ready_reach cpuContract h₀ h).inHand
  have hcame : ∀ r ∈ m.line.retired, r.2 = some (r.1.solutions.take kMaxCandidates) := by
    intro r hr
    obtain ⟨k,-,hc⟩ := hi.line.came_of hr
    exact hc
  have hgood : ∀ p ∈ candidates m.line.retired, ∃ i, p.1.solutionAt i = some p.2 := by
    intro p hp
    obtain ⟨found,hr,ha⟩ := mem_candidates.mp hp
    rw [Option.some.inj (hcame _ hr)] at ha
    obtain ⟨i,-,hi⟩ := List.mem_filterMap.mp (List.mem_of_mem_take ha)
    exact ⟨i,hi⟩
  have hmeets : ∀ p ∈ candidates m.line.retired, p.1.meets p.2 = true ∧ p.1.fault p.2 = none := by
    intro p hp
    obtain ⟨i,hi⟩ := hgood p hp
    simp only [Launch.solutionAt] at hi
    split at hi
    · rename_i hm
      have hhash : p.2 = ⟨(p.1.nonceAt i).toNat,p.1.hash (p.1.nonceAt i)⟩ :=
        (Option.some.inj hi).symm
      have : p.1.meets p.2 = true := by simpa [Launch.meets,hhash] using hm
      exact ⟨this,by simp [Launch.fault,this]; simp [hhash]⟩
    · cases hi
  refine ⟨?_,?_,?_,?_⟩
  · rw [hi.submitted,List.flatMap_map]
    refine if_congr Iff.rfl rfl (List.flatMap_congr fun r hr => ?_)
    rw [hcame r hr]
    exact r.1.shares_solutions _
  · rw [hi.tally.failed,List.filter_eq_nil_iff.mpr fun r hr => by simp [hcame r hr]]
    rfl
  · rw [hi.tally.rejected,List.countP_eq_zero]
    exact fun p hp => by simp [(hmeets p hp).1]
  · have hcap := hi.captured
    rw [List.filter_eq_nil_iff.mpr fun p hp => by simp [(hmeets p hp).2]] at hcap
    exact List.forall₂_nil_left_iff.mp hcap

theorem worker_on_cpu_run : ∃ m : Miner cpu, m.submitted.length = 4 ∧
    m.submitted = ((m.line.retired.map Prod.fst).flatMap fun x =>
      (x.solutions.take kMaxCandidates).map x.share) ∧ m.captured = [] := by
  obtain ⟨m,hr,hs,-⟩ := plain_run
  obtain ⟨hall,-,-,hcaptured⟩ := worker_on_cpu rfl hr
  exact ⟨m,hs,hall,hcaptured⟩

/-- A worker without a device sends nothing, and counts as hashed all that it was given. -/
theorem worker_on_null {site : Site} {optAlgo : CStr} {m m₀ : Miner null}
    (h₀ : opened null site optAlgo = some m₀) (h : Reach (step site) free m₀ m) :
    m.submitted = [] ∧ m.captured = [] ∧
      (m.line.launched.map Launch.count).sum = m.tally.hashes+m.line.inflight.sum := by
  have hi := (ready_reach nullContract h₀ h).inHand
  have hcame : ∀ r ∈ m.line.retired, r.2 = some [] := by
    intro r hr
    obtain ⟨k,-,hc⟩ := hi.line.came_of hr
    exact hc
  have hnone : candidates m.line.retired = [] :=
    List.flatMap_eq_nil_iff.mpr fun r hr => by simp [hcame r hr]
  have hfailed : m.tally.failed = 0 := by
    rw [hi.tally.failed,List.filter_eq_nil_iff.mpr fun r hr => by simp [hcame r hr]]
    rfl
  refine ⟨?_,?_,by rw [hi.launched_counts,hfailed,Nat.add_zero]⟩
  · rw [hi.submitted]
    split
    · rfl
    · exact List.flatMap_eq_nil_iff.mpr fun r hr => by simp [hcame r hr]
  · have hcap := hi.captured
    rw [hnone] at hcap
    exact List.forall₂_nil_left_iff.mp hcap

theorem worker_on_null_run : ∃ m : Miner null, m.line.launched.length = 1 ∧ m.submitted = [] ∧
    (m.line.launched.map Launch.count).sum = m.tally.hashes+m.line.inflight.sum := by
  obtain ⟨m,hr,hl⟩ := reach_of_any (step plainSite) free (plainMiner null)
    [.pass { plainCalls () 1 with fits := false, recoverable := true },.pass (plainCalls () 1)]
    (fun m => m.line.launched.length = 1) (by decide)
  obtain ⟨hnone,-,hsum⟩ := worker_on_null rfl hr
  exact ⟨m,hl,hnone,hsum⟩

end VkMiner.Scheduler.Mining
