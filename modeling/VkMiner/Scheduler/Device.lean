import VkMiner.Scheduler.Seals
import VkMiner.Vulkan.Kernel
set_option autoImplicit false

/-! What a worker sees of an algorithm and of a device: the two interfaces it is written
against, and what it may ask of a kernel. -/

namespace VkMiner.Scheduler.Mining
open ByteOrder
open Vulkan (Solution)

/-- An algorithm. `size` is what `retarget` keeps in the object, and what a new one has; no word
that a nonce is put into is hashed, or looked at for a key. -/
structure Algorithm where
  headerBytes : Nat
  nonceWord : Nat
  nonceBits : Nat
  size : Nat
  retarget : Nat → List UInt32 → Bool × Nat
  stateKey : Nat → List UInt32 → Nat
  programKey : List UInt32 → Nat
  hash : Nat → List UInt32 → UInt64 → List UInt32
  submitMix : Nat → List UInt32 → UInt64 → Option Bytes
  startupHeader : Option Bytes
  retarget_same : ∀ s data, (retarget s data).1 = false → (retarget s data).2 = s
  hash_length : ∀ s data nonce, (hash s data nonce).length = 8
  hash_set : nonceWord*4 < headerBytes → ∀ s data x nonce,
    hash s (data.set nonceWord x) nonce = hash s data nonce
  stateKey_set : nonceWord*4 < headerBytes → ∀ s data x,
    stateKey s (data.set nonceWord x) = stateKey s data
  programKey_set : nonceWord*4 < headerBytes → ∀ data x,
    programKey (data.set nonceWord x) = programKey data

/-- A plain function in the place of the hash, to run the model on. -/
def plainAlgorithm : Algorithm where
  headerBytes := 80
  nonceWord := 19
  nonceBits := 64
  size := 0
  retarget size _ := (false,size)
  stateKey _ _ := 0
  programKey _ := 0
  hash _ _ nonce := List.replicate 7 0 ++ [nonce.toUInt32]
  submitMix _ _ _ := none
  startupHeader := none
  retarget_same _ _ _ := rfl
  hash_length _ _ _ := rfl
  hash_set _ _ _ _ _ := rfl
  stateKey_set _ _ _ _ := rfl
  programKey_set _ _ _ := rfl

namespace Algorithm

/-- The default `verify`. -/
def verify (a : Algorithm) (size : Nat) (data : List UInt32) (nonce : UInt64)
    (target : List UInt32) : Bool × List UInt32 :=
  (Seals.fulltest (a.hash size data nonce) target,a.hash size data nonce)

def place (a : Algorithm) (data : List UInt32) (nonce : UInt64) : List UInt32 :=
  if a.nonceWord*4 < a.headerBytes then data.set a.nonceWord nonce.toUInt32 else data

/-- Two headers that differ in nothing but the nonce. -/
def Alike (a : Algorithm) (data data' : List UInt32) : Prop :=
  ∀ nonce, a.place data nonce = a.place data' nonce

end Algorithm

/-- `struct work`, as a worker holds it. -/
structure Work extends Stratum.Work where
  target : List UInt32
  nonceBase : UInt64
  jobEpoch : UInt32
  nonce : UInt64
  mixhash : Option Bytes
  deriving DecidableEq

def Work.zero : Work := ⟨⟨[],[],[]⟩,List.replicate 8 0,0,0,0,none⟩

/-- A dispatch as it is asked for. The algorithm it is asked under, and the two keys the kernel
was prepared for, are history. -/
structure Launch where
  work : Work
  start : UInt64
  count : Nat
  algo : Algorithm
  size : Nat
  stateKey : Nat
  programKey : Nat

namespace Launch

def hash (x : Launch) (nonce : UInt64) : List UInt32 := x.algo.hash x.size x.work.data nonce

def meets (x : Launch) (s : Solution) : Bool :=
  Seals.fulltest (x.hash (UInt64.ofNat s.nonce)) x.work.target

end Launch

/-- What is wrong with a candidate that the host does not confirm. -/
inductive CandidateFault where
  | belowTarget | wrongDigest
  deriving DecidableEq

/-- `Kernel` of backend.h, for one backend, and how it comes to one. `Calls` is what the driver
answers while a call is being made; a caller of `collect` has room for so many. -/
structure Backend where
  Kernel : Type
  Calls : Type
  create : Algorithm → Nat → Calls → Option Kernel
  queueDepth : Kernel → Nat
  preferredBatch : Kernel → UInt32
  prepareState : Kernel → Nat → Calls → Bool × Kernel
  prepareProgram : Kernel → Nat → Calls → Bool × Kernel
  dispatch : Kernel → Launch → Calls → Bool × Kernel
  collect : Kernel → Nat → Calls → Option (List Solution) × Kernel

/-- How the interface reads, of a kernel that is used as it is meant to be: `held` is what was
dispatched and not collected, oldest first, and `clear` that no dispatch has failed while
something was. A dispatch needs room and a clear kernel, and a key may change when nothing is
held. `Came` is what may have been answered for a dispatch, by the kernel as it is afterwards. -/
structure Backend.Contract (b : Backend) where
  Sound : b.Kernel → Prop
  built : b.Kernel → Algorithm × Nat
  held : b.Kernel → List Launch
  clear : b.Kernel → Prop
  state : b.Kernel → Option Nat
  program : b.Kernel → Option Nat
  Came : b.Kernel → Nat → Launch → Option (List Solution) → Prop
  create_sound : ∀ {a size c k}, b.create a size c = some k →
    Sound k ∧ built k = (a,size) ∧ held k = []
  depth_pos : ∀ {k}, Sound k → 0 < b.queueDepth k
  clear_empty : ∀ {k}, Sound k → held k = [] → clear k
  prepareState_sound : ∀ {k key c}, Sound k → (held k = [] ∨ state k = some key) →
    Sound (b.prepareState k key c).2 ∧ held (b.prepareState k key c).2 = held k ∧
      (clear k → clear (b.prepareState k key c).2)
  prepareState_frame : ∀ k key c, built (b.prepareState k key c).2 = built k ∧
    b.queueDepth (b.prepareState k key c).2 = b.queueDepth k ∧
    program (b.prepareState k key c).2 = program k
  prepareState_key : ∀ k key c, state (b.prepareState k key c).2 =
    if (b.prepareState k key c).1 = true then some key else state k
  prepareProgram_sound : ∀ {k key c}, Sound k → (held k = [] ∨ program k = some key) →
    Sound (b.prepareProgram k key c).2 ∧ held (b.prepareProgram k key c).2 = held k ∧
      (clear k → clear (b.prepareProgram k key c).2)
  prepareProgram_frame : ∀ k key c, built (b.prepareProgram k key c).2 = built k ∧
    b.queueDepth (b.prepareProgram k key c).2 = b.queueDepth k ∧
    state (b.prepareProgram k key c).2 = state k
  prepareProgram_key : ∀ k key c, program (b.prepareProgram k key c).2 =
    if (b.prepareProgram k key c).1 = true then some key else program k
  dispatch_sound : ∀ {k l c}, Sound k → clear k → (held k).length < b.queueDepth k →
    built k = (l.algo,l.size) → state k = some l.stateKey → program k = some l.programKey →
    Sound (b.dispatch k l c).2 ∧
      if (b.dispatch k l c).1 = true then
        held (b.dispatch k l c).2 = held k ++ [l] ∧ clear (b.dispatch k l c).2
      else held (b.dispatch k l c).2 = held k
  dispatch_frame : ∀ k l c, built (b.dispatch k l c).2 = built k ∧
    b.queueDepth (b.dispatch k l c).2 = b.queueDepth k ∧
    state (b.dispatch k l c).2 = state k ∧ program (b.dispatch k l c).2 = program k
  collect_sound : ∀ {k max c l rest}, Sound k → held k = l :: rest →
    Sound (b.collect k max c).2 ∧ held (b.collect k max c).2 = rest ∧
      (clear k → clear (b.collect k max c).2) ∧ Came (b.collect k max c).2 max l (b.collect k max c).1
  collect_frame : ∀ k max c, built (b.collect k max c).2 = built k ∧
    b.queueDepth (b.collect k max c).2 = b.queueDepth k ∧
    state (b.collect k max c).2 = state k ∧ program (b.collect k max c).2 = program k

namespace Algorithm

variable {a : Algorithm} {data data' data'' : List UInt32}

theorem Alike.refl (a : Algorithm) (data : List UInt32) : a.Alike data data := fun _ => rfl

theorem Alike.trans (h : a.Alike data data') (h' : a.Alike data' data'') : a.Alike data data'' :=
  fun nonce => (h nonce).trans (h' nonce)

theorem alike_place (a : Algorithm) (data : List UInt32) (nonce : UInt64) :
    a.Alike data (a.place data nonce) := by
  intro n
  unfold place
  split <;> simp

/-- What takes no notice of the nonce's word takes headers that are alike for one. -/
theorem alike_eq {β : Type*} {f : List UInt32 → β} (h : a.Alike data data')
    (hf : a.nonceWord*4 < a.headerBytes → ∀ data x, f (data.set a.nonceWord x) = f data) :
    f data = f data' := by
  have h0 := h 0
  unfold place at h0
  split at h0
  · rename_i hw
    rw [← hf hw data (0 : UInt64).toUInt32,h0,hf hw]
  · rw [h0]

theorem hash_alike (h : a.Alike data data') (size : Nat) (nonce : UInt64) :
    a.hash size data nonce = a.hash size data' nonce :=
  alike_eq (f := fun data => a.hash size data nonce) h fun hw data x => a.hash_set hw size data x nonce

theorem stateKey_alike (h : a.Alike data data') (size : Nat) :
    a.stateKey size data = a.stateKey size data' :=
  alike_eq h fun hw => a.stateKey_set hw size

theorem programKey_alike (h : a.Alike data data') : a.programKey data = a.programKey data' :=
  alike_eq h a.programKey_set

end Algorithm

end VkMiner.Scheduler.Mining
