import VkMiner.Vulkan.Backend
set_option autoImplicit false

/-! A spec that would fit against the kernel that is built from it. -/

namespace VkMiner.Vulkan
open Rounding (toDouble toDouble_le)

variable {t : Tuning} {info : DeviceInfo} {held : Option Held} {spec : KernelSpec}
  {c : CreateCalls} {b n : Nat} {r : Refusal}

theorem orElse_pos (a : Nat) {b : Nat} (h : 0 < b) : 0 < orElse a b := by
  simp only [orElse]
  split <;> omega

theorem floorPow2From_spec (n fuel k : Nat) (h : 2 ^ k ≤ n) :
    ∃ j, floorPow2From n fuel (2 ^ k) = 2 ^ (k + j) ∧ j ≤ fuel ∧ 2 ^ (k + j) ≤ n ∧
      (j < fuel → n < 2 ^ (k + j + 1)) := by
  induction fuel generalizing k with
  | zero => exact ⟨0,rfl,Nat.le_refl _,h,nofun⟩
  | succ fuel ih =>
    simp only [floorPow2From]
    split
    · rename_i hle
      have hk : 2 ^ (k + 1) ≤ n := by
        rw [Nat.pow_succ]
        omega
      obtain ⟨j,he,hj,hn,hlt⟩ := ih (k + 1) hk
      refine ⟨j + 1,?_,Nat.succ_le_succ hj,?_,fun hf => ?_⟩
      · rw [← Nat.pow_succ,he,Nat.add_assoc,Nat.add_comm 1 j]
      · rwa [← Nat.add_assoc,Nat.add_right_comm]
      · have := hlt (by omega)
        rwa [← Nat.add_assoc,Nat.add_right_comm k j 1]
    · rename_i hgt
      refine ⟨0,rfl,Nat.zero_le _,h,fun _ => ?_⟩
      rw [Nat.add_zero,Nat.pow_succ]
      omega

theorem floorPow2_spec (h : 0 < n) (hn : n < wide) :
    ∃ k, floorPow2 n = 2 ^ k ∧ 2 ^ k ≤ n ∧ n < 2 ^ (k + 1) := by
  obtain ⟨j,he,hj,hle,hlt⟩ := floorPow2From_spec n 64 0 h
  rw [Nat.zero_add] at he hle
  have hj' : j < 64 := by
    by_contra hge
    obtain rfl : j = 64 := by omega
    have : wide = 2 ^ 64 := rfl
    omega
  exact ⟨j,he,hle,by have := hlt hj'; rwa [Nat.zero_add] at this⟩

theorem limited_le (l n : Nat) : limited l n ≤ n := by
  simp only [limited]
  split <;> omega

theorem limited_pos {l : Nat} (h : 0 < n) : 0 < limited l n := by
  simp only [limited]
  split <;> omega

theorem pieceLimit_le : pieceLimit info spec b ≤ b :=
  Nat.le_trans (Nat.min_le_left _ _) (limited_le _ _)

theorem pieceLimit_pos (h : 0 < b) : 0 < pieceLimit info spec b :=
  Nat.lt_min.mpr ⟨limited_pos h,limited_pos (limited_pos h)⟩

def Cap (g : Nat → Nat) : Prop := (∀ n, g n = n) ∨ ∃ l, ∀ n, g n = Nat.min l n

theorem limited_cap (l : Nat) : Cap (limited l) := by
  by_cases h : l = 0
  · exact .inl fun n => by simp [limited,h]
  · refine .inr ⟨l,fun n => ?_⟩
    simp only [limited,Nat.min_def]
    split <;> split <;> omega

theorem Cap.comp {f g : Nat → Nat} (hf : Cap f) (hg : Cap g) : Cap fun n => f (g n) := by
  obtain hf | ⟨a,hf⟩ := hf
  · simpa only [hf] using hg
  obtain hg | ⟨b,hg⟩ := hg
  · exact .inr ⟨a,fun n => by simp only [hg,hf]⟩
  · refine .inr ⟨Nat.min a b,fun n => ?_⟩
    simp only [hg,hf]
    exact (Nat.min_assoc a b n).symm

theorem Cap.min {f g : Nat → Nat} (hf : Cap f) (hg : Cap g) : Cap fun n => Nat.min (f n) (g n) := by
  obtain hf | ⟨a,hf⟩ := hf
  · obtain hg | ⟨b,hg⟩ := hg
    · exact .inl fun n => by simp only [hf,hg]; exact Nat.min_self n
    · exact .inr ⟨b,fun n => by simp only [hf,hg]; exact Nat.min_eq_right (Nat.min_le_right b n)⟩
  · obtain hg | ⟨b,hg⟩ := hg
    · exact .inr ⟨a,fun n => by simp only [hf,hg]; exact Nat.min_eq_left (Nat.min_le_right a n)⟩
    · refine .inr ⟨Nat.min a b,fun n => ?_⟩
      simp only [hf,hg]
      change Min.min (Min.min a n) (Min.min b n) = Min.min (Min.min a b) n
      omega

theorem pieceLimit_cap : Cap (pieceLimit info spec) :=
  (limited_cap _).min ((limited_cap _).comp (limited_cap _))

theorem pieceLimit_of_le (h : b ≤ n) (hl : pieceLimit info spec b < b) :
    pieceLimit info spec n = pieceLimit info spec b := by
  obtain hg | ⟨l,hg⟩ : Cap (pieceLimit info spec) := pieceLimit_cap
  · rw [hg] at hl
    omega
  · rw [hg] at hl ⊢
    rw [hg]
    change Min.min l b < b at hl
    change Min.min l n = Min.min l b
    omega

theorem chunkOf_of_le (h : b ≤ n) (hl : pieceLimit info spec b < b) :
    chunkOf info spec n = chunkOf info spec b := by
  have hn := pieceLimit_of_le h hl
  simp only [chunkOf,hn,hl,if_true,show pieceLimit info spec b < n by omega]

theorem chunkOf_whole (hl : ¬pieceLimit info spec b < b) : chunkOf info spec b = b := by
  have : pieceLimit info spec b ≤ b := pieceLimit_le
  simp only [chunkOf,hl,if_false]
  omega

theorem chunkOf_pos (h : 0 < b) (hb : b < wide) : 0 < chunkOf info spec b := by
  have hp : 0 < pieceLimit info spec b := pieceLimit_pos h
  have hle : pieceLimit info spec b ≤ b := pieceLimit_le
  simp only [chunkOf]
  split
  · obtain ⟨k,he,-,-⟩ := floorPow2_spec hp (by omega)
    rw [he]
    exact Nat.two_pow_pos k
  · exact hp

theorem chunkOf_lt (hb : 0 < b) (hr : info.maxBindingRange ≠ 0 ∧ info.maxBindingRange < narrow) :
    chunkOf info spec b < narrow := by
  have hp : pieceLimit info spec b < narrow := by
    refine Nat.lt_of_le_of_lt (Nat.min_le_right _ _) (Nat.lt_of_le_of_lt ?_ hr.2)
    rw [limited]
    split <;> omega
  have hpos : 0 < pieceLimit info spec b := pieceLimit_pos hb
  rw [chunkOf]
  split
  · obtain ⟨k,he,hk,-⟩ := floorPow2_spec hpos (Nat.lt_trans hp (by decide))
    rw [he]
    exact Nat.lt_of_le_of_lt hk hp
  · exact hp

theorem piecesOf_whole (h : 0 < b) : piecesOf b b ≤ 1 := by
  have hm := Nat.mod_le (b + b - 1) wide
  have hlt : (b + b - 1) % wide < b * 2 := by omega
  have := (Nat.div_lt_iff_lt_mul h).mpr (Nat.mul_comm b 2 ▸ hlt)
  simp only [piecesOf]
  omega

theorem piecesOf_le {k : Nat} (h : b ≤ n) (hw : n + k ≤ wide) (hk : 0 < k) :
    piecesOf b k ≤ piecesOf n k := by
  simp only [piecesOf]
  rw [Nat.mod_eq_of_lt (by omega),Nat.mod_eq_of_lt (by omega)]
  exact Nat.div_le_div_right (by omega)

structure Planned (info : DeviceInfo) (spec : KernelSpec) (b : Nat) : Prop where
  whole : b % 16 = 0
  chunk : chunkOf info spec b % 16 = 0
  bindings : orElse spec.sharedChunks 1 ≤ kMaxSharedChunks
  pieces : piecesOf b (chunkOf info spec b) ≤ orElse spec.sharedChunks 1

theorem plan_cases (info : DeviceInfo) (spec : KernelSpec) (hb : 0 < b) :
    (Planned info spec b ∧
      plan info spec b = .ok (chunkOf info spec b,piecesOf b (chunkOf info spec b))) ∨
    (¬(b % 16 = 0 ∧ chunkOf info spec b % 16 = 0) ∧
      plan info spec b = .error (.ragged b (chunkOf info spec b))) ∨
    (b % 16 = 0 ∧ kMaxSharedChunks < orElse spec.sharedChunks 1 ∧
      plan info spec b = .error (.tooManyBindings (orElse spec.sharedChunks 1))) ∨
    (b % 16 = 0 ∧ chunkOf info spec b % 16 = 0 ∧
      orElse spec.sharedChunks 1 < piecesOf b (chunkOf info spec b) ∧
      plan info spec b =
        .error (.tooManyPieces b (chunkOf info spec b) (orElse spec.sharedChunks 1))) := by
  have hl : limited info.maxBindingRange (limited info.maxAllocation b) ≠ 0 :=
    Nat.ne_of_gt (limited_pos (limited_pos hb))
  by_cases hr : b % 16 ≠ 0 ∨ chunkOf info spec b % 16 ≠ 0
  · exact .inr (.inl ⟨by omega,by simp only [plan,hl,if_false,hr,if_true]; rfl⟩)
  by_cases hd : kMaxSharedChunks < orElse spec.sharedChunks 1
  · exact .inr (.inr (.inl ⟨by omega,hd,by simp only [plan,hl,if_false,hr,hd,if_true]; rfl⟩))
  by_cases hp : orElse spec.sharedChunks 1 < piecesOf b (chunkOf info spec b)
  · exact .inr (.inr (.inr ⟨by omega,by omega,hp,
      by simp only [plan,hl,if_false,hr,hd,hp,if_true]; rfl⟩))
  · exact .inl ⟨⟨by omega,by omega,by omega,by omega⟩,
      by simp only [plan,hl,if_false,hr,hd,hp]; rfl⟩

theorem planned_of_ok {x : Nat × Nat} (hb : 0 < b) (h : plan info spec b = .ok x) :
    Planned info spec b := by
  obtain ⟨hp,-⟩ | ⟨-,he⟩ | ⟨-,-,he⟩ | ⟨-,-,-,he⟩ := plan_cases info spec hb
  · exact hp
  all_goals
    rw [h] at he
    cases he

def KernelSpec.sized (spec : KernelSpec) (b : Nat) : KernelSpec := { spec with sharedBytes := b }

theorem scratchFits_anti {k : Nat} (h : b ≤ n) :
    scratchFits info spec n k ≤ scratchFits info spec b k := by
  simp only [scratchFits]
  have hd := Nat.div_le_div_right (c := orElse k 1) (Nat.div_le_div_right
    (c := orElse spec.concurrentKernels 1) (Nat.sub_le_sub_left h (vulkanScratchBudget info)))
  simp only [Nat.min_def]
  split_ifs <;> omega

theorem fit_of_le {f : KernelFit} (h : vulkanKernelFit t info spec n = .ok f) (hb : b ≤ n) :
    ∃ f, vulkanKernelFit t info (spec.sized b) b = .ok f := by
  have hw : workgroup t info (spec.sized b) = workgroup t info spec := rfl
  simp only [vulkanKernelFit] at h ⊢
  rw [hw]
  cases hg : workgroup t info spec with
  | error r =>
    rw [hg] at h
    cases h
  | ok g =>
    obtain ⟨width,lanes,nonces⟩ := g
    rw [hg] at h
    simp only [bind,Except.bind] at h ⊢
    change ∃ f, (if spec.scratchBytes = 0 then _ else _) = _
    by_cases hs : spec.scratchBytes = 0
    · simp only [hs,if_true]
      exact ⟨_,rfl⟩
    by_cases hm : info.memory = 0
    · simp only [hs,hm,if_false,if_true] at h
      cases h
    by_cases hr : vulkanScratchBudget info ≤ n
    · simp only [hs,hm,hr,if_false,if_true] at h
      cases h
    have hr' : ¬vulkanScratchBudget info ≤ b := by omega
    simp only [hs,hm,hr,hr',if_false] at h ⊢
    split at h
    · cases h
    · rename_i hf
      have hf' : ¬scratchFits info spec b (spec.scratchBytes *
          orElse spec.queueDepth (orElse t.queueDepth kDefaultDepth) * lanes % wide) <
          orElse (width / lanes * nonces % narrow) 1 :=
        Nat.not_lt.mpr (Nat.le_trans (Nat.not_lt.mp hf) (scratchFits_anti hb))
      change ∃ f, (if scratchFits info spec b (spec.scratchBytes *
          orElse spec.queueDepth (orElse t.queueDepth kDefaultDepth) * lanes % wide) <
          orElse (width / lanes * nonces % narrow) 1 then _ else _) = _
      simp only [hf',if_false]
      exact ⟨_,rfl⟩

theorem initKernel_error {f : KernelFit} {shared : Nat} (hs : spec.sharedBytes ≠ 0 → shared ≠ 0)
    (hf : vulkanKernelFit t info spec shared = .ok f)
    (hd : spec.sharedBytes ≠ 0 → orElse spec.sharedChunks 1 ≤ kMaxSharedChunks)
    (h : initKernel t info spec shared c = .error r) : r = .wiring ∨ r = .driver := by
  have hw : ¬(spec.sharedBytes ≠ 0 ∧ shared = 0) := fun hn => hs hn.1 hn.2
  have hc : ¬kMaxSharedChunks <
      (if spec.sharedBytes = 0 then 0 else orElse spec.sharedChunks 1) := by
    split
    · omega
    · rename_i hz
      exact Nat.not_lt.mpr (hd hz)
  simp only [initKernel,hw,if_false,hf,hc] at h
  by_cases h₁ : 128 < spec.pushConstantBytes ∨ 16384 < spec.uniformBytes
  · simp only [h₁,if_true] at h
    cases h
    exact .inl rfl
  by_cases h₂ : orElse spec.storageBuffers 1 < 1 + (if spec.scratchBytes = 0 then 0 else 1) +
      (if spec.sharedBytes = 0 then 0 else orElse spec.sharedChunks 1)
  · simp only [h₁,h₂,if_false,if_true,bind,Except.bind] at h
    cases h
    exact .inl rfl
  by_cases h₃ : 256 < spec.programConstants
  · simp only [h₁,h₂,h₃,if_false,if_true,bind,Except.bind] at h
    cases h
    exact .inl rfl
  simp only [h₁,h₂,h₃,if_false,bind,Except.bind] at h
  split at h
  · cases h
    exact .inr rfl
  · cases h

theorem vulkanTableBudget_lt (h : info.memory < wide) : vulkanTableBudget info + narrow < wide := by
  have hm := toDouble_le info.memory
  simp only [wide,narrow,vulkanTableBudget,shareOf] at h ⊢
  split
  · have hs := toDouble_le (toDouble info.memory * 8106479329266893)
    omega
  · have hs := toDouble_le (toDouble info.memory * 1)
    omega

/-- Built at any size up to the largest, the spec is refused neither for memory, pieces or
scratch, nor for a table that is whole quads. What is left is another size than the spec's own,
beside a kernel that holds the device's table. -/
def Roomy (t : Tuning) (info : DeviceInfo) (held : Option Held) (spec : KernelSpec) : Prop :=
  ∀ b ≤ largest spec, ∀ c r, (createKernel t info held (spec.sized b) c).1 = .error r →
    r.room = false ∧ (∀ chunk, r = .ragged b chunk → b % 16 ≠ 0) ∧
      ∀ live, r = .held b live →
        b ≠ spec.sharedBytes ∧ ∃ l ∈ held, l.busy = true ∧ l.bytes = live

theorem Planned.of_le (h : Planned info spec n) (hb : 0 < b) (hle : b ≤ n) (hq : b % 16 = 0)
    (hw : n + chunkOf info spec n < wide) : Planned info spec b := by
  by_cases hl : pieceLimit info spec b < b
  · have hc := chunkOf_of_le hle hl
    refine ⟨hq,hc ▸ h.chunk,h.bindings,?_⟩
    rw [← hc]
    have hpos : 0 < chunkOf info spec n := hc ▸ chunkOf_pos hb (by omega)
    exact Nat.le_trans (piecesOf_le hle hw.le hpos) h.pieces
  · have hc := chunkOf_whole hl
    refine ⟨hq,by rw [hc]; exact hq,h.bindings,?_⟩
    rw [hc]
    exact Nat.le_trans (piecesOf_whole hb) (orElse_pos _ Nat.one_pos)

theorem plan_sized : plan info (spec.sized b) n = plan info spec n := rfl

theorem wouldFit_cases {f : KernelFit} (h : wouldFit t info held spec = .ok f) :
    vulkanKernelFit t info spec (largest spec) = .ok f ∧
      (largest spec ≠ 0 → largest spec ≤ vulkanTableBudget info ∧
        Planned info spec (largest spec) ∧ ∀ l ∈ held, l.busy = true → l.bytes = spec.sharedBytes) := by
  simp only [wouldFit,bind,Except.bind] at h
  split at h
  · cases h
  · rename_i ht
    refine ⟨h,fun hz => ?_⟩
    simp only [tableFits,hz,if_false,bind,Except.bind] at ht
    split at ht
    · cases ht
    · rename_i hbudget
      split at ht
      · cases ht
      · rename_i x hp
        refine ⟨Nat.not_lt.mp hbudget,planned_of_ok (Nat.pos_of_ne_zero hz) hp,?_⟩
        rintro l ⟨⟩ hb
        by_contra hne
        simp only [hb,hne,ne_eq,not_false_eq_true,and_self,if_true] at ht
        cases ht

theorem unpinned_cases (held : Option Held) (b : Nat) :
    unpinned held b = none ∨ ∃ h h', held = some h ∧ unpinned held b = some h' ∧
      h'.bytes = h.bytes ∧ (h.bytes = b ∨ h.busy = true) := by
  cases held with
  | none => exact .inl rfl
  | some h =>
    by_cases hp : h.bytes ≠ b ∧ h.pinned = true
    · by_cases hk : h.kernels = 0
      · simp [unpinned,hp,Held.retain,Held.ofOwners,hk]
      · refine .inr ⟨h,⟨h.bytes,h.kernels,false,.inl hk⟩,rfl,?_,rfl,.inr ?_⟩
        · simp [unpinned,hp,Held.retain,Held.ofOwners,hk]
        · simpa [Held.busy] using hk
    · refine .inr ⟨h,h,rfl,by simp only [unpinned,Option.bind_some,hp,if_false],rfl,?_⟩
      by_cases hb : h.bytes = b
      · exact .inl hb
      · have := h.owned
        refine .inr ?_
        simp only [Held.busy,bne_iff_ne]
        obtain hk | hk := this
        · exact hk
        · exact absurd ⟨hb,hk⟩ hp

/-- The reasons that are left to refuse a build of a spec that would fit. -/
inductive Left (held : Option Held) (b : Nat) : Refusal → Prop where
  | noShader : Left held b .noShader
  | wiring : Left held b .wiring
  | driver : Left held b .driver
  | ragged (chunk : Nat) : b % 16 ≠ 0 → Left held b (.ragged b chunk)
  | held (h : Held) : held = some h → h.busy = true → h.bytes ≠ b → Left held b (.held b h.bytes)

theorem sharedFor_cases (hb : b ≠ 0)
    (hp : unpinned held b = none → b % 16 = 0 → Planned info spec b) :
    (∃ h, sharedFor info held (spec.sized b) c = .ok h ∧ h.bytes = b) ∨
      ∃ r, sharedFor info held (spec.sized b) c = .error r ∧ Left held b r := by
  simp only [sharedFor,KernelSpec.sized]
  obtain hu | ⟨h,h',he,hu,hbytes,hor⟩ := unpinned_cases held b
  · rw [hu]
    change (∃ h, (plan info (spec.sized b) b >>= _) = _ ∧ _) ∨ ∃ r, (plan info (spec.sized b) b >>= _) = _ ∧ _
    rw [plan_sized]
    by_cases hq : b % 16 = 0
    · have hpl := hp hu hq
      obtain ⟨-,ho⟩ | ⟨hn,-⟩ | ⟨-,hn,-⟩ | ⟨-,-,hn,-⟩ :=
        plan_cases info spec (Nat.pos_of_ne_zero hb)
      · rw [ho]
        cases hc : c.pieces with
        | true => exact .inl ⟨Held.joined b none,rfl,rfl⟩
        | false => exact .inr ⟨.driver,rfl,.driver⟩
      · exact absurd ⟨hq,hpl.chunk⟩ hn
      · exact absurd hpl.bindings (Nat.not_le.mpr hn)
      · exact absurd hpl.pieces (Nat.not_le.mpr hn)
    · obtain ⟨hpl,-⟩ | ⟨-,ho⟩ | ⟨hq',-⟩ | ⟨hq',-⟩ :=
        plan_cases info spec (Nat.pos_of_ne_zero hb)
      · exact absurd hpl.whole hq
      · rw [ho]
        exact .inr ⟨_,rfl,.ragged _ hq⟩
      · exact absurd hq' hq
      · exact absurd hq' hq
  · rw [hu]
    simp only [hbytes]
    by_cases hne : h.bytes = b
    · simp only [hne,ne_eq,not_true_eq_false,if_false]
      exact .inl ⟨_,rfl,rfl⟩
    · simp only [hne,ne_eq,not_false_eq_true,if_true]
      exact .inr ⟨_,rfl,.held h he (hor.resolve_left hne) hne⟩

theorem createKernel_error (hd : b ≠ 0 → orElse spec.sharedChunks 1 ≤ kMaxSharedChunks)
    (hp : spec.hasSpirv = true → b ≠ 0 → unpinned held b = none → b % 16 = 0 →
      Planned info spec b)
    {f : KernelFit} (hf : vulkanKernelFit t info (spec.sized b) b = .ok f)
    (h : (createKernel t info held (spec.sized b) c).1 = .error r) : Left held b r := by
  have hinit : ∀ {r}, initKernel t info (spec.sized b) b c = .error r → Left held b r := by
    intro r hr
    obtain rfl | rfl := initKernel_error id hf hd hr
    · exact .wiring
    · exact .driver
  simp only [createKernel] at h
  split at h
  · cases h
    exact .noShader
  · rename_i hs
    have hs' : spec.hasSpirv = true := by simpa [KernelSpec.sized] using hs
    split at h
    · rename_i hz
      obtain rfl : b = 0 := hz
      exact hinit h
    · rename_i hz
      obtain ⟨g,hg,hgb⟩ | ⟨r',hg,hl⟩ := sharedFor_cases (b := b) (c := c) hz (hp hs' hz)
      · rw [hg] at h
        simp only [hgb] at h
        split at h
        · rename_i hr
          cases h
          exact hinit hr
        · cases h
      · rw [hg] at h
        cases h
        exact hl

theorem Left.roomy (h : Left held b r) (hl : ∀ l ∈ held, l.busy = true → l.bytes = spec.sharedBytes) :
    r.room = false ∧ (∀ chunk, r = .ragged b chunk → b % 16 ≠ 0) ∧
      ∀ live, r = .held b live →
        b ≠ spec.sharedBytes ∧ ∃ l ∈ held, l.busy = true ∧ l.bytes = live := by
  cases h with
  | noShader | wiring | driver => exact ⟨rfl,nofun,nofun⟩
  | ragged chunk hq => exact ⟨rfl,fun _ _ => hq,nofun⟩
  | held h he hb hne =>
    refine ⟨rfl,nofun,fun live hr => ?_⟩
    cases hr
    exact ⟨fun hs => hne (by rw [hl h he hb,hs]),h,he,hb,rfl⟩

def untuned : Tuning := ⟨0,0,0⟩

/-- Twelve gigabytes, of which a shader can address four in one binding. -/
def twelveGigabytes : DeviceInfo :=
  ⟨12884901888,.discreteGpu,32,1024,1024,4194304,4292870144,4294967295⟩

/-- A table of sixteen pieces at most, now at one gigabyte and ten at its largest. -/
def growingTable : KernelSpec :=
  ⟨true,false,17,92,0,0,16,false,0,1073739904,10737418240,16,0,0,0,0,1⟩

end VkMiner.Vulkan
