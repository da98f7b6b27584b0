import VkMiner.Scheduler.Device
set_option autoImplicit false

/-! The two backends without a device: the host's own processor, and none. -/

namespace VkMiner.Scheduler.Mining
open Vulkan (Solution)

/-- `CpuKernel`, with the dispatch that it has copied. Whether nobody has collected that, and what
the kernel was prepared for, is history. -/
structure CpuKernel where
  algo : Algorithm
  size : Nat
  copied : Option Launch
  waiting : Bool
  state : Option Nat
  program : Option Nat

namespace CpuKernel

def scan (k : CpuKernel) (x : Launch) (max : Nat) : Nat → List Solution → List Solution
  | 0,found => found
  | left+1,found =>
    if found.length < max then
      let nonce := x.start+UInt64.ofNat (x.count-(left+1))
      let v := k.algo.verify k.size x.work.data nonce x.work.target
      k.scan x max left (if v.1 then found ++ [⟨nonce.toNat,v.2⟩] else found)
    else found

def collect (k : CpuKernel) (max : Nat) : Option (List Solution) × CpuKernel :=
  (some (match k.copied with
    | some x => k.scan x max x.count []
    | none => []),{ k with waiting := false })

end CpuKernel

def cpu : Backend where
  Kernel := CpuKernel
  Calls := Unit
  create a size _ := some ⟨a,size,none,false,none,none⟩
  queueDepth _ := 1
  preferredBatch _ := 65536
  prepareState k key _ := (true,{ k with state := some key })
  prepareProgram k key _ := (true,{ k with program := some key })
  dispatch k x _ := (true,{ k with copied := some x, waiting := true })
  collect k max _ := k.collect max

/-- A kernel that hashes nothing, but takes the time of so many nonces. The rest is history. -/
structure NullKernel where
  algo : Algorithm
  size : Nat
  pending : Nat
  waiting : Option Launch
  state : Option Nat
  program : Option Nat

def null : Backend where
  Kernel := NullKernel
  Calls := Unit
  create a size _ := some ⟨a,size,0,none,none,none⟩
  queueDepth _ := 1
  preferredBatch _ := 4194304
  prepareState k key _ := (true,{ k with state := some key })
  prepareProgram k key _ := (true,{ k with program := some key })
  dispatch k x _ := (true,{ k with pending := x.count, waiting := some x })
  collect k _ _ := (some [],{ k with pending := 0, waiting := none })

namespace Launch

variable {x : Launch}

def nonceAt (x : Launch) (i : Nat) : UInt64 := x.start+UInt64.ofNat i

def solutionAt (x : Launch) (i : Nat) : Option Solution :=
  if Seals.fulltest (x.hash (x.nonceAt i)) x.work.target then
    some ⟨(x.nonceAt i).toNat,x.hash (x.nonceAt i)⟩
  else none

def solutions (x : Launch) : List Solution := (List.range x.count).filterMap x.solutionAt

end Launch

namespace CpuKernel

variable {k : CpuKernel} {x : Launch}

theorem scan_eq (ha : k.algo = x.algo) (hs : k.size = x.size) {max left : Nat}
    (hl : left ≤ x.count) (found : List Solution) (hf : found.length ≤ max) :
    k.scan x max left found =
      (found ++ (List.range' (x.count-left) left).filterMap x.solutionAt).take max := by
  induction left generalizing found with
  | zero => simp [scan,List.take_of_length_le hf]
  | succ left ih =>
    have hnext : x.count-(left+1)+1 = x.count-left := by omega
    rw [scan,List.range'_succ,hnext]
    split
    · rename_i hlt
      have hv : k.algo.verify k.size x.work.data (x.nonceAt (x.count-(left+1))) x.work.target =
          (Seals.fulltest (x.hash (x.nonceAt (x.count-(left+1)))) x.work.target,
            x.hash (x.nonceAt (x.count-(left+1)))) := by rw [ha,hs]; rfl
      simp only [Launch.nonceAt] at hv
      simp only [hv]
      cases hm : Seals.fulltest (x.hash (x.nonceAt (x.count-(left+1)))) x.work.target with
      | false =>
        have hat : x.solutionAt (x.count-(left+1)) = none := by simp [Launch.solutionAt,hm]
        rw [Launch.nonceAt] at hm
        rw [hm,List.filterMap_cons_none hat]
        exact ih (by omega) found hf
      | true =>
        have hat : x.solutionAt (x.count-(left+1)) = some ⟨(x.nonceAt (x.count-(left+1))).toNat,
            x.hash (x.nonceAt (x.count-(left+1)))⟩ := by simp [Launch.solutionAt,hm]
        rw [Launch.nonceAt] at hm
        rw [hm,List.filterMap_cons_some hat,if_pos rfl,ih (by omega) _ (by simp; omega)]
        simp [Launch.nonceAt]
    · rename_i hge
      have he : max = found.length := by omega
      rw [he,List.take_left]

theorem collect_eq (ha : k.algo = x.algo) (hs : k.size = x.size) (hc : k.copied = some x)
    (max : Nat) : (k.collect max).1 = some (x.solutions.take max) := by
  simp [collect,hc,scan_eq ha hs (Nat.le_refl _) [] (Nat.zero_le _),Launch.solutions,
    List.range_eq_range']

end CpuKernel

/-- What the host's processor reports for a launch is what there is to be found. -/
def cpuContract : cpu.Contract where
  Sound k := k.waiting = true → ∃ x, k.copied = some x ∧ (k.algo,k.size) = (x.algo,x.size)
  built k := (k.algo,k.size)
  held k := if k.waiting then k.copied.toList else []
  clear _ := True
  state k := k.state
  program k := k.program
  Came _ max x answer := answer = some (x.solutions.take max)
  create_sound h := by
    cases h
    exact ⟨nofun,rfl,rfl⟩
  depth_pos _ := Nat.one_pos
  clear_empty _ _ := trivial
  prepareState_sound h _ := ⟨h,rfl,id⟩
  prepareState_frame _ _ _ := ⟨rfl,rfl,rfl⟩
  prepareState_key _ _ _ := rfl
  prepareProgram_sound h _ := ⟨h,rfl,id⟩
  prepareProgram_frame _ _ _ := ⟨rfl,rfl,rfl⟩
  prepareProgram_key _ _ _ := rfl
  dispatch_sound {k x c} _ _ hroom hbuilt _ _ := by
    refine ⟨fun _ => ⟨x,rfl,hbuilt⟩,?_⟩
    rw [List.length_eq_zero_iff.mp (Nat.lt_one_iff.mp hroom)]
    exact ⟨rfl,trivial⟩
  dispatch_frame _ _ _ := ⟨rfl,rfl,rfl,rfl⟩
  collect_sound {k max c x rest} h hheld := by
    cases hw : k.waiting with
    | false => simp [hw] at hheld
    | true =>
      obtain ⟨y,hy,hbuilt⟩ := h hw
      obtain ⟨rfl,rfl⟩ : y = x ∧ [] = rest := by simpa [hw,hy] using hheld
      obtain ⟨ha,hs⟩ := Prod.mk.inj hbuilt
      exact ⟨nofun,rfl,id,CpuKernel.collect_eq ha hs hy _⟩
  collect_frame _ _ _ := ⟨rfl,rfl,rfl,rfl⟩

def nullContract : null.Contract where
  Sound _ := True
  built k := (k.algo,k.size)
  held k := k.waiting.toList
  clear _ := True
  state k := k.state
  program k := k.program
  Came _ _ _ answer := answer = some []
  create_sound h := by
    cases h
    exact ⟨trivial,rfl,rfl⟩
  depth_pos _ := Nat.one_pos
  clear_empty _ _ := trivial
  prepareState_sound h _ := ⟨h,rfl,id⟩
  prepareState_frame _ _ _ := ⟨rfl,rfl,rfl⟩
  prepareState_key _ _ _ := rfl
  prepareProgram_sound h _ := ⟨h,rfl,id⟩
  prepareProgram_frame _ _ _ := ⟨rfl,rfl,rfl⟩
  prepareProgram_key _ _ _ := rfl
  dispatch_sound _ _ hroom _ _ _ := by
    refine ⟨trivial,?_⟩
    rw [List.length_eq_zero_iff.mp (Nat.lt_one_iff.mp hroom)]
    exact ⟨rfl,trivial⟩
  dispatch_frame _ _ _ := ⟨rfl,rfl,rfl,rfl⟩
  collect_sound {k max c x rest} _ hheld := by
    cases hw : k.waiting with
    | none => simp [hw] at hheld
    | some y =>
      obtain ⟨-,rfl⟩ : y = x ∧ [] = rest := by simpa [hw] using hheld
      exact ⟨trivial,rfl,id,rfl⟩
  collect_frame _ _ _ := ⟨rfl,rfl,rfl,rfl⟩

end VkMiner.Scheduler.Mining
