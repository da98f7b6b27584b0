import Mathlib.Algebra.Ring.Nat
import Mathlib.Data.List.Forall2
import VkMiner.Scheduler.Loop
set_option autoImplicit false

/-! What a worker has in hand: everything the device holds was launched under the worker's own
copy of the job, and everything it reports comes of what was collected. -/

namespace VkMiner.Scheduler.Mining
open Runs
open Vulkan (Solution kMaxCandidates)

variable {b : Backend} {C : b.Contract} {site : Site} {c : Calls b} {m m' m'' : Miner b}
  {l : Line b} {owner : Algorithm × Nat} {k : b.Kernel} {x : Launch} {s : Solution}
  {found : List Solution}

/-- The same job under the same header, but for the nonce and what goes with it. -/
structure Work.Same (a : Algorithm) (w w' : Work) : Prop where
  data : a.Alike w.data w'.data
  rest : w' = { w with data := w'.data, nonce := w'.nonce, mixhash := w'.mixhash }

namespace Work.Same

variable {a : Algorithm} {w w' w'' : Work}

theorem refl (a : Algorithm) (w : Work) : Same a w w := ⟨.refl a _,rfl⟩

theorem trans (h : Same a w w') (h' : Same a w' w'') : Same a w w'' :=
  ⟨h.data.trans h'.data,by rw [h'.rest,h.rest]⟩

theorem target (h : Same a w w') : w'.target = w.target := by rw [h.rest]

theorem jobEpoch (h : Same a w w') : w'.jobEpoch = w.jobEpoch := by rw [h.rest]

end Work.Same

namespace Launch

def share (x : Launch) (s : Solution) : Share :=
  let nonce := UInt64.ofNat s.nonce
  let data := x.algo.place x.work.data nonce
  ⟨{ x.work with data := data, nonce := nonce, mixhash := x.algo.submitMix x.size data nonce },
    x.hash nonce⟩

def shares (x : Launch) (found : List Solution) : List Share := (found.filter x.meets).map x.share

@[simp] theorem shares_nil (x : Launch) : x.shares [] = [] := rfl

/-- What is kept of a candidate that the host does not confirm, or not as it was reported. -/
def fault (x : Launch) (s : Solution) : Option CandidateFault :=
  if x.meets s then
    if x.hash (UInt64.ofNat s.nonce) ≠ s.hash then some .wrongDigest else none
  else some .belowTarget

structure Captured (device : Nat) (x : Launch) (s : Solution) (p : Capture) : Prop where
  fault : x.fault s = some p.fault
  header : ∃ data, x.algo.Alike x.work.data data ∧ p.header = data.take 20
  rest : p = ⟨p.fault,device,s.nonce,p.header,x.work.target,s.hash,x.hash (UInt64.ofNat s.nonce)⟩

/-- The algorithm, its size and the job are still those of the launch. -/
structure Under (x : Launch) (m : Miner b) : Prop where
  algo : m.algo = x.algo
  size : m.size = x.size
  work : Work.Same x.algo x.work m.work

end Launch

/-- The candidates of a record of what was collected, each with its launch. -/
def candidates (retired : List (Launch × Option (List Solution))) : List (Launch × Solution) :=
  retired.flatMap fun r => (r.2.getD []).map fun s => (r.1,s)

/-- Nothing else has changed: the worker has only taken results. -/
structure Keeps (m m' : Miner b) : Prop where
  frame : m' = { m with
    line := m'.line, work := m'.work, tally := m'.tally, submitted := m'.submitted,
    captured := m'.captured }
  work : Work.Same m.algo m.work m'.work
  launched : m'.line.launched = m.line.launched
  depth : m'.line.depth = m.line.depth
  kernel : m'.line.kernel.isSome = m.line.kernel.isSome
  abandoned : m'.line.abandoned = m.line.abandoned

namespace Keeps

theorem refl (m : Miner b) : Keeps m m := ⟨rfl,.refl _ _,rfl,rfl,rfl,rfl⟩

theorem algo (h : Keeps m m') : m'.algo = m.algo := by rw [h.frame]

theorem size (h : Keeps m m') : m'.size = m.size := by rw [h.frame]

theorem trans (h : Keeps m m') (h' : Keeps m' m'') : Keeps m m'' where
  frame := by rw [h'.frame,h.frame]
  work := h.work.trans (h.algo ▸ h'.work)
  launched := h'.launched.trans h.launched
  depth := h'.depth.trans h.depth
  kernel := h'.kernel.trans h.kernel
  abandoned := h'.abandoned.trans h.abandoned

end Keeps

namespace Launch.Under

theorem keeps (hx : x.Under m) (h : Keeps m m') : x.Under m' where
  algo := h.algo.trans hx.algo
  size := h.size.trans hx.size
  work := hx.work.trans (hx.algo ▸ h.work)

theorem same (hx : x.Under m) (ha : m'.algo = m.algo) (hs : m'.size = m.size)
    (hw : m'.work = m.work) : x.Under m' :=
  ⟨ha.trans hx.algo,hs.trans hx.size,hw ▸ hx.work⟩

theorem hash (hx : x.Under m) (nonce : UInt64) :
    m.algo.hash m.size m.work.data nonce = x.hash nonce := by
  rw [hx.algo,hx.size]
  exact (Algorithm.hash_alike hx.work.data x.size nonce).symm

theorem verify (hx : x.Under m) (s : Solution) :
    m.algo.verify m.size m.work.data (UInt64.ofNat s.nonce) m.work.target =
      (x.meets s,x.hash (UInt64.ofNat s.nonce)) := by
  simp [Algorithm.verify,Launch.meets,hx.hash,hx.work.target]

theorem place (hx : x.Under m) (nonce : UInt64) :
    m.algo.place m.work.data nonce = x.algo.place x.work.data nonce := by
  rw [hx.algo]
  exact (hx.work.data nonce).symm

end Launch.Under

structure Solves (site : Site) (x : Launch) (found : List Solution) (m m' : Miner b) : Prop where
  keeps : Keeps m m'
  line : m'.line = m.line
  tally : m'.tally = { m.tally with
    confirmed := m.tally.confirmed+found.countP x.meets
    rejected := m.tally.rejected+found.countP (!x.meets ·) }
  submitted : m'.submitted = m.submitted ++ if site.benchmark then [] else x.shares found
  captured : ∃ ps, m'.captured = m.captured ++ ps ∧
    List.Forall₂ (fun s p => Launch.Captured site.device x s p)
      (found.filter fun s => (x.fault s).isSome) ps

namespace Miner

theorem solve_keeps (site : Site) (m : Miner b) (s : Solution) : Keeps m (m.solve site s) := by
  simp only [solve]
  split
  · exact ⟨rfl,.refl _ _,rfl,rfl,rfl,rfl⟩
  · split
    · exact ⟨rfl,.refl _ _,rfl,rfl,rfl,rfl⟩
    · exact ⟨rfl,⟨Algorithm.alike_place _ _ _,rfl⟩,rfl,rfl,rfl,rfl⟩

theorem solve_eq (site : Site) (hx : x.Under m) (s : Solution) :
    m.solve site s =
      if x.meets s then
        if site.benchmark then m.confirm site s (x.hash (UInt64.ofNat s.nonce))
        else (m.confirm site s (x.hash (UInt64.ofNat s.nonce))).submit (UInt64.ofNat s.nonce)
          (x.hash (UInt64.ofNat s.nonce))
      else m.reject site s (x.hash (UInt64.ofNat s.nonce)) := by
  simp only [solve,hx.verify]
  cases x.meets s <;> simp

theorem capture_captured (site : Site) (hx : x.Under m) {fault : CandidateFault}
    (h : x.fault s = some fault) :
    Launch.Captured site.device x s (m.capture site fault s (x.hash (UInt64.ofNat s.nonce))) where
  fault := h
  header := ⟨_,hx.work.data,rfl⟩
  rest := by simp [capture,hx.work.target]

theorem solve_solves (site : Site) (hx : x.Under m) (s : Solution) :
    Solves site x [s] m (m.solve site s) := by
  have hkeeps := solve_keeps site m s
  rw [solve_eq site hx] at hkeeps ⊢
  cases hm : x.meets s with
  | false =>
    have hfault : x.fault s = some .belowTarget := by simp [Launch.fault,hm]
    rw [hm] at hkeeps
    refine ⟨hkeeps,rfl,by simp [reject,hm],?_,_,rfl,?_⟩
    · cases hb : site.benchmark <;> simp [reject,Launch.shares,hm]
    · simpa [hfault] using capture_captured site hx hfault
  | true =>
    rw [hm] at hkeeps
    have hcaptured : ∃ ps, (m.confirm site s (x.hash (UInt64.ofNat s.nonce))).captured =
        m.captured ++ ps ∧ List.Forall₂ (fun s p => Launch.Captured site.device x s p)
          ([s].filter fun s => (x.fault s).isSome) ps := by
      by_cases hne : x.hash (UInt64.ofNat s.nonce) = s.hash
      · exact ⟨[],by simp [confirm,hne],by simp [Launch.fault,hm,hne]⟩
      · have hfault : x.fault s = some .wrongDigest := by simp [Launch.fault,hm,hne]
        refine ⟨[m.capture site .wrongDigest s (x.hash (UInt64.ofNat s.nonce))],?_,?_⟩
        · simp [confirm,hne]
        · simpa [hfault] using capture_captured site hx hfault
    cases hb : site.benchmark with
    | true =>
      rw [hb] at hkeeps
      exact ⟨hkeeps,rfl,by simp [confirm,hm],by simp [confirm,hb],hcaptured⟩
    | false =>
      rw [hb] at hkeeps
      refine ⟨hkeeps,rfl,by simp [submit,confirm,hm],?_,hcaptured⟩
      have hwork : { m.work with
          data := x.algo.place x.work.data (UInt64.ofNat s.nonce)
          nonce := UInt64.ofNat s.nonce
          mixhash := x.algo.submitMix x.size (x.algo.place x.work.data (UInt64.ofNat s.nonce))
            (UInt64.ofNat s.nonce) } = (x.share s).work := by
        rw [hx.work.rest]
        rfl
      simp only [if_true,Bool.false_eq_true,if_false,submit,confirm,hx.place,hb]
      rw [hx.algo,hx.size,hwork]
      simp [Launch.shares,hm,Launch.share]

theorem solve_all (site : Site) (hx : x.Under m) (found : List Solution) :
    Solves site x found m (found.foldl (solve site) m) := by
  induction found generalizing m with
  | nil => exact ⟨.refl m,rfl,by simp,by simp [Launch.shares],[],by simp,by simp⟩
  | cons s found ih =>
    have hs := solve_solves site hx s
    have hr := ih (hx.keeps hs.keeps)
    obtain ⟨ps,hp,hf⟩ := hs.captured
    obtain ⟨qs,hq,hg⟩ := hr.captured
    refine ⟨hs.keeps.trans hr.keeps,hr.line.trans hs.line,?_,?_,ps ++ qs,?_,?_⟩
    · rw [List.foldl_cons,hr.tally,hs.tally]
      simp only [List.countP_cons,List.countP_nil,Nat.zero_add,Nat.add_assoc,
        Nat.add_comm (found.countP _)]
    · rw [List.foldl_cons,hr.submitted,hs.submitted]
      cases site.benchmark
      · cases hm : x.meets s <;> simp [Launch.shares,hm]
      · simp
    · rw [List.foldl_cons,hq,hp,List.append_assoc]
    · simpa only [← List.filter_append,List.singleton_append] using List.rel_append hf hg

end Miner

/-- The kernel is in the state that its dispatches ask for. -/
structure Line.Serves (C : b.Contract) (owner : Algorithm × Nat) (l : Line b) (k : b.Kernel) :
    Prop where
  sound : C.Sound k
  built : C.built k = owner
  held : C.held k = l.outstanding
  depth : l.depth = b.queueDepth k
  keys : ∀ x ∈ l.outstanding, C.state k = some x.stateKey ∧ C.program k = some x.programKey

/-- The worker knows what the kernel holds, and what has come of everything else. -/
structure Line.Known (C : b.Contract) (owner : Algorithm × Nat) (l : Line b) : Prop where
  counts : l.inflight = l.outstanding.map Launch.count
  fifo : l.launched = l.retired.map Prod.fst ++ l.outstanding
  came : List.Forall₂ (fun r k => C.Came k kMaxCandidates r.1 r.2) l.retired l.served
  idle : l.kernel = none → l.outstanding = []
  serves : ∀ k, l.kernel = some k → l.Serves C owner k
  keyed : ∀ x ∈ l.launched, x.stateKey = x.algo.stateKey x.size x.work.data ∧
    x.programKey = x.algo.programKey x.work.data
  abandoned : l.abandoned = []
  astray : l.astray = false

/-- No dispatch has failed since the kernel was last empty, and there is room for another. -/
structure Line.Open (C : b.Contract) (l : Line b) : Prop where
  clear : ∀ k, l.kernel = some k → C.clear k
  room : ∀ k, l.kernel = some k → l.outstanding.length < l.depth

structure Tally.Counts (retired : List (Launch × Option (List Solution))) (t : Tally) : Prop where
  published : t.published+t.window = t.hashes
  hashes : t.hashes = ((retired.filter (·.2.isSome)).map (·.1.count)).sum
  failed : t.failed = ((retired.filter (·.2.isNone)).map (·.1.count)).sum
  total : t.total = retired.countP (·.2.isSome)
  stale : t.stale ≤ t.total
  confirmed : t.confirmed = (candidates retired).countP fun p => p.1.meets p.2
  rejected : t.rejected = (candidates retired).countP fun p => !p.1.meets p.2

/-- A worker whose pipeline is all of one job, and whose reports are all of its pipeline. -/
structure Miner.InHand (C : b.Contract) (site : Site) (m : Miner b) : Prop where
  line : m.line.Known C (m.algo,m.size)
  under : ∀ x ∈ m.line.outstanding, x.Under m
  tally : m.tally.Counts m.line.retired
  submitted : m.submitted = if site.benchmark then [] else
    (m.line.retired.flatMap fun r => r.1.shares (r.2.getD []))
  captured : List.Forall₂ (fun p q => Launch.Captured site.device p.1 p.2 q)
    ((candidates m.line.retired).filter fun p => (p.1.fault p.2).isSome) m.captured
  parked : ∀ n ∈ m.parked, n = 0
  jobless : site.benchmark = true → m.haveJob = false → m.line.outstanding = []

theorem mem_of_forall₂ {β γ : Type*} {R : β → γ → Prop} {xs : List β} {ys : List γ} {x : β}
    (h : List.Forall₂ R xs ys) (hx : x ∈ xs) : ∃ y ∈ ys, R x y := by
  induction h with
  | nil => cases hx
  | cons hr _ ih =>
    obtain rfl | hx := List.mem_cons.mp hx
    · exact ⟨_,.head _,hr⟩
    · obtain ⟨y,hy,hr⟩ := ih hx
      exact ⟨y,.tail _ hy,hr⟩

theorem Line.Known.came_of {r : Launch × Option (List Solution)} (h : l.Known C owner)
    (hr : r ∈ l.retired) : ∃ k ∈ l.served, C.Came k kMaxCandidates r.1 r.2 := mem_of_forall₂ h.came hr

theorem candidates_append (r r' : List (Launch × Option (List Solution))) :
    candidates (r ++ r') = candidates r ++ candidates r' := List.flatMap_append

@[simp] theorem candidates_none (x : Launch) : candidates [(x,none)] = [] := rfl

@[simp] theorem candidates_some (x : Launch) (found : List Solution) :
    candidates [(x,some found)] = found.map fun s => (x,s) := by simp [candidates]

namespace Line

variable {rest : List Nat} {xs : List Launch} {answer : Option (List Solution)}

theorem retire_cons (k : b.Kernel) (rest : List Nat) (answer : Option (List Solution))
    (h : l.outstanding = x :: xs) : l.retire k rest answer =
      { l with kernel := some k, inflight := rest, outstanding := xs,
               retired := l.retired ++ [(x,answer)], served := l.served ++ [k] } := by
  simp [retire,h]

theorem Known.retire {nonces : Nat} {d : b.Calls} (h : l.Known C owner) (hk : l.kernel = some k)
    (hi : l.inflight = nonces :: rest) : ∃ x xs, l.outstanding = x :: xs ∧ x.count = nonces ∧
      (l.retire (b.collect k kMaxCandidates d).2 rest (b.collect k kMaxCandidates d).1).Known C owner ∧
      (C.clear k → C.clear (b.collect k kMaxCandidates d).2) := by
  have hserves := h.serves k hk
  obtain ⟨x,xs,ho⟩ : ∃ x xs, l.outstanding = x :: xs := by
    cases ho : l.outstanding with
    | nil => simp [h.counts,ho] at hi
    | cons x xs => exact ⟨x,xs,rfl⟩
  obtain ⟨hn,hrest⟩ : x.count = nonces ∧ xs.map Launch.count = rest := by
    simpa [h.counts,ho] using hi
  obtain ⟨hsound,hheld,hclear,hcame⟩ :=
    C.collect_sound (c := d) hserves.sound (hserves.held.trans ho)
  obtain ⟨hbuilt,hdepth,hstate,hprogram⟩ := C.collect_frame k kMaxCandidates d
  refine ⟨x,xs,ho,hn,?_,hclear⟩
  rw [retire_cons _ _ _ ho]
  refine ⟨hrest.symm,?_,?_,nofun,?_,h.keyed,h.abandoned,h.astray⟩
  · simp [h.fifo,ho]
  · exact List.rel_append h.came (.cons hcame .nil)
  · rintro k' hk'
    cases hk'
    refine ⟨hsound,hbuilt.trans hserves.built,hheld,hserves.depth.trans hdepth.symm,?_⟩
    intro y hy
    rw [hstate,hprogram]
    exact hserves.keys y (ho ▸ List.mem_cons_of_mem x hy)

end Line

namespace Tally.Counts

variable {t : Tally} {retired : List (Launch × Option (List Solution))} {nonces : Nat}

theorem publish (h : t.Counts retired) : t.publish.Counts retired := by
  have := h.published
  refine ⟨?_,h.hashes,h.failed,h.total,h.stale,h.confirmed,h.rejected⟩
  simp only [Tally.publish]
  omega

theorem account (h : t.Counts retired) (closes : Bool) : (t.account 0 closes).Counts retired := by
  have hsame : { t with window := t.window+0, accounts := t.accounts+1 }.Counts retired :=
    ⟨h.published,h.hashes,h.failed,h.total,h.stale,h.confirmed,h.rejected⟩
  cases closes
  · exact hsame
  · exact hsame.publish

theorem fails (h : t.Counts retired) (hx : x.count = nonces) (closes : Bool) :
    ({ t with failed := t.failed+nonces }.account 0 closes).Counts (retired ++ [(x,none)]) := by
  have hfailed : { t with failed := t.failed+nonces }.Counts (retired ++ [(x,none)]) := by
    refine ⟨h.published,?_,?_,?_,h.stale,?_,?_⟩
    · simp [h.hashes]
    · simp [h.failed,hx]
    · simp [h.total]
    · simp [candidates_append,h.confirmed]
    · simp [candidates_append,h.rejected]
  exact hfailed.account closes

theorem collects (h : t.Counts retired) (hx : x.count = nonces) (closes late : Bool)
    (found : List Solution) :
    Counts (retired ++ [(x,some found)])
      { (t.account nonces closes).batch nonces late with
        confirmed := t.confirmed+found.countP x.meets
        rejected := t.rejected+found.countP (!x.meets ·) } := by
  have hpublished := h.published
  have hstale := h.stale
  refine ⟨?_,?_,?_,?_,?_,?_,?_⟩
  · cases closes <;> simp only [batch,Tally.account,Tally.publish,if_true,Bool.false_eq_true,if_false] <;>
      omega
  · cases closes <;> simp [batch,Tally.account,Tally.publish,h.hashes,hx]
  · cases closes <;> simp [batch,Tally.account,Tally.publish,h.failed]
  · cases closes <;> simp [batch,Tally.account,Tally.publish,h.total]
  · cases closes <;> cases late <;> simp [batch,Tally.account,Tally.publish] <;> omega
  · simp only [candidates_append,candidates_some,List.countP_append,List.countP_map,h.confirmed]
    rfl
  · simp only [candidates_append,candidates_some,List.countP_append,List.countP_map,h.rejected]
    rfl

end Tally.Counts

namespace Miner

theorem keeps_account (c : Calls b) (nonces : Nat) (m : Miner b) : Keeps m (m.account c nonces) :=
  ⟨rfl,.refl _ _,rfl,rfl,rfl,rfl⟩

theorem solves_keep (site : Site) (m : Miner b) (found : List Solution) :
    Keeps m (found.foldl (solve site) m) := by
  induction found generalizing m with
  | nil => exact .refl m
  | cons s found ih => exact (solve_keeps site m s).trans (ih _)

def took (m : Miner b) (k : b.Kernel) (rest : List Nat) (answer : Option (List Solution)) :
    Miner b := { m with line := m.line.retire k rest answer }

theorem keeps_took {rest : List Nat} (hk : m.line.kernel = some k) (k' : b.Kernel)
    (answer : Option (List Solution)) : Keeps m (m.took k' rest answer) :=
  ⟨rfl,.refl _ _,rfl,rfl,by simp [took,Line.retire,hk],rfl⟩

theorem reap_cases (site : Site) (c : Calls b) {nonces : Nat} {rest : List Nat}
    (hi : m.line.inflight = nonces :: rest) (hk : m.line.kernel = some k) :
    ∃ d, d = c.collect m.line.retired.length ∧
      ((b.collect k kMaxCandidates d).1 = none ∧ m.reap site c = (false,
          { m.took (b.collect k kMaxCandidates d).2 rest none with
            tally := { m.tally with failed := m.tally.failed+nonces } }.account c 0) ∨
        ∃ found late closes, (b.collect k kMaxCandidates d).1 = some found ∧ m.reap site c = (true,
          found.foldl (solve site) { m.took (b.collect k kMaxCandidates d).2 rest (some found) with
            tally := (m.tally.account nonces closes).batch nonces late })) := by
  refine ⟨_,rfl,?_⟩
  simp only [reap,hi,hk]
  cases (b.collect k kMaxCandidates (c.collect m.line.retired.length)).1 with
  | none => exact .inl ⟨rfl,rfl⟩
  | some found => exact .inr ⟨found,_,_,rfl,rfl⟩

theorem reap_keeps (site : Site) (c : Calls b) (m : Miner b) : Keeps m (m.reap site c).2 := by
  cases hi : m.line.inflight with
  | nil => simpa only [reap,hi] using .refl m
  | cons nonces rest =>
    cases hk : m.line.kernel with
    | none =>
      simp only [reap,hi,hk]
      exact ⟨rfl,.refl _ _,rfl,rfl,by simp [hk],rfl⟩
    | some k =>
      obtain ⟨d,-,⟨-,he⟩ | ⟨found,late,closes,-,he⟩⟩ := reap_cases site c hi hk
      · have htook : Keeps m (m.took (b.collect k kMaxCandidates d).2 rest none) := keeps_took hk _ _
        rw [he]
        exact htook.trans ⟨rfl,.refl _ _,rfl,rfl,rfl,rfl⟩
      · have hmid : Keeps m { m.took (b.collect k kMaxCandidates d).2 rest (some found) with
            tally := (m.tally.account nonces closes).batch nonces late } :=
          (keeps_took hk _ _).trans ⟨rfl,.refl _ _,rfl,rfl,rfl,rfl⟩
        rw [he]
        exact hmid.trans (solves_keep site _ found)

theorem reaps_keep (site : Site) (c : Calls b) (n : Nat) (m : Miner b) :
    Keeps m (m.reaps site c n) := by
  induction n generalizing m with
  | zero => exact .refl m
  | succ n ih => exact (reap_keeps site c m).trans (ih _)

theorem drain_keeps (site : Site) (c : Calls b) (m : Miner b) : Keeps m (m.drain site c) :=
  reaps_keep site c _ m

theorem InHand.reap (h : m.InHand C site) (c : Calls b) :
    (m.reap site c).2.InHand C site ∧
      (m.reap site c).2.line.outstanding = m.line.outstanding.tail ∧
      ((∀ k, m.line.kernel = some k → C.clear k) →
        ∀ k, (m.reap site c).2.line.kernel = some k → C.clear k) := by
  cases hi : m.line.inflight with
  | nil =>
    have ho : m.line.outstanding = [] := by simpa [h.line.counts] using hi
    simp only [Miner.reap,hi]
    exact ⟨h,by simp [ho],id⟩
  | cons nonces rest =>
    cases hk : m.line.kernel with
    | none =>
      rw [h.line.counts,h.line.idle hk] at hi
      cases hi
    | some k =>
      obtain ⟨d,-,hd⟩ := reap_cases site c hi hk
      obtain ⟨x,xs,ho,hn,hknown,hclear⟩ := h.line.retire (d := d) hk hi
      have hx : x.Under m := h.under x (by simp [ho])
      have hkeeps := reap_keeps site c m
      have hunder : ∀ y ∈ xs, y.Under (m.reap site c).2 := fun y hy =>
        (h.under y (by simp [ho,hy])).keeps hkeeps
      have htail : ∀ answer, (m.line.retire (b.collect k kMaxCandidates d).2 rest answer).outstanding = xs := by
        simp [Line.retire,ho]
      have hretired : ∀ answer, (m.line.retire (b.collect k kMaxCandidates d).2 rest answer).retired =
          m.line.retired ++ [(x,answer)] := by simp [Line.retire,ho]
      obtain ⟨hnone,he⟩ | ⟨found,late,closes,hsome,he⟩ := hd
      · rw [hnone] at hknown
        rw [he] at hunder ⊢
        refine ⟨⟨hknown,?_,?_,?_,?_,h.parked,fun hb hj => ?_⟩,?_,?_⟩
        · intro y hy
          exact hunder y (htail none ▸ hy)
        · have := h.tally.fails hn (c.closes m.tally.accounts)
          rwa [← hretired none] at this
        · simp [account,took,hretired,h.submitted]
        · simpa [account,took,hretired,candidates_append] using h.captured
        · have := h.jobless hb hj
          simp [ho] at this
        · simp [account,took,htail,ho]
        · rintro hc _ ⟨⟩
          exact hclear (hc k rfl)
      · have hmid : x.Under { m.took (b.collect k kMaxCandidates d).2 rest (some found) with
            tally := (m.tally.account nonces closes).batch nonces late } := hx.keeps
          ((keeps_took hk _ _).trans ⟨rfl,.refl _ _,rfl,rfl,rfl,rfl⟩)
        have hall := solve_all site hmid found
        rw [hsome] at hknown
        rw [he] at hunder hkeeps ⊢
        refine ⟨⟨?_,?_,?_,?_,?_,?_,fun hb hj => ?_⟩,?_,?_⟩
        · rw [hkeeps.algo,hkeeps.size,hall.line]
          exact hknown
        · rw [hall.line]
          intro y hy
          exact hunder y (htail (some found) ▸ hy)
        · have := h.tally.collects hn closes late found
          rw [hall.tally,hall.line,took,hretired]
          cases closes <;> exact this
        · rw [hall.submitted,hall.line,took,hretired,List.flatMap_append]
          cases hb : site.benchmark <;> simp [h.submitted,hb]
        · obtain ⟨ps,hp,hf⟩ := hall.captured
          rw [hp,hall.line,took,hretired,candidates_append,List.filter_append]
          refine List.rel_append h.captured ?_
          rw [candidates_some,List.filter_map,List.forall₂_map_left_iff]
          exact hf
        · rw [hkeeps.frame]
          exact h.parked
        · have := h.jobless hb (by rw [hkeeps.frame] at hj; exact hj)
          simp [ho] at this
        · rw [hall.line,ho]
          exact htail (some found)
        · rw [hall.line]
          rintro hc _ ⟨⟩
          exact hclear (hc k rfl)

end Miner

end VkMiner.Scheduler.Mining
