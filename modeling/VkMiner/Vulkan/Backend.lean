import VkMiner.Vulkan.Fit
set_option autoImplicit false

/-! The backend's two routes to a kernel: whether it would fit, and building it. -/

namespace VkMiner.Vulkan

/-- A table that is on the device: its size, the kernels that hold it, and whether a park has
it pinned. With neither it is gone. -/
structure Held where
  bytes : Nat
  kernels : Nat
  pinned : Bool
  owned : kernels ≠ 0 ∨ pinned = true
  deriving DecidableEq

namespace Held

/-- What is left of a table with so many kernels and such a pin. -/
def ofOwners (bytes kernels : Nat) (pinned : Bool) : Option Held :=
  if h : kernels ≠ 0 ∨ pinned = true then some ⟨bytes,kernels,pinned,h⟩ else none

def busy (h : Held) : Bool := h.kernels != 0

end Held

def Held.joined (bytes : Nat) (held : Option Held) : Held :=
  ⟨bytes,(held.elim 0 Held.kernels) + 1,false,.inl (Nat.succ_ne_zero _)⟩

def Held.left (h : Held) : Option Held := Held.ofOwners h.bytes (h.kernels - 1) h.pinned

/-- `retain_shared_state`. -/
def Held.retain (h : Held) (retain : Bool) : Option Held := Held.ofOwners h.bytes h.kernels retain

def largest (spec : KernelSpec) : Nat :=
  if spec.sharedBytes < spec.sharedBytesMax then spec.sharedBytesMax else spec.sharedBytes

/-- What `would_fit` asks about a table, before the scratchpads. -/
def tableFits (info : DeviceInfo) (held : Option Held) (spec : KernelSpec) :
    Except Refusal Unit := do
  let table := largest spec
  if table = 0 then return
  if vulkanTableBudget info < table then throw (.tableBudget table (vulkanTableBudget info))
  let _ ← plan info spec table
  match held with
  | some h => if h.busy ∧ h.bytes ≠ spec.sharedBytes then throw (.held spec.sharedBytes h.bytes)
  | none => return

def wouldFit (t : Tuning) (info : DeviceInfo) (held : Option Held) (spec : KernelSpec) :
    Except Refusal KernelFit := do
  tableFits info held spec
  vulkanKernelFit t info spec (largest spec)

structure CreateCalls where
  pieces : Bool
  buffers : Bool
  pipeline : Bool
  ring : Bool

def unpinned (held : Option Held) (bytes : Nat) : Option Held :=
  held.bind fun h => if h.bytes ≠ bytes ∧ h.pinned then h.retain false else some h

/-- The table that a kernel is handed, made where there is none. -/
def sharedFor (info : DeviceInfo) (held : Option Held) (spec : KernelSpec) (c : CreateCalls) :
    Except Refusal Held :=
  match unpinned held spec.sharedBytes with
  | some h =>
    if h.bytes ≠ spec.sharedBytes then .error (.held spec.sharedBytes h.bytes)
    else .ok (Held.joined h.bytes (some h))
  | none => do
    let _ ← plan info spec spec.sharedBytes
    if c.pieces then return Held.joined spec.sharedBytes none else throw .driver

def initKernel (t : Tuning) (info : DeviceInfo) (spec : KernelSpec) (shared : Nat)
    (c : CreateCalls) : Except Refusal KernelFit := do
  if spec.sharedBytes ≠ 0 ∧ shared = 0 then throw .wiring
  if 128 < spec.pushConstantBytes ∨ 16384 < spec.uniformBytes then throw .wiring
  let fit ← vulkanKernelFit t info spec shared
  let chunks := if spec.sharedBytes = 0 then 0 else orElse spec.sharedChunks 1
  if kMaxSharedChunks < chunks then throw (.tooManyBindings chunks)
  if orElse spec.storageBuffers 1 < 1 + (if spec.scratchBytes = 0 then 0 else 1) + chunks then
    throw .wiring
  if 256 < spec.programConstants then throw .wiring
  if !c.buffers || (spec.programConstants == 0 && !c.pipeline) || !c.ring then throw .driver
  return fit

/-- `create_kernel`: the kernel or why not, and the table that is on the device after it. -/
def createKernel (t : Tuning) (info : DeviceInfo) (held : Option Held) (spec : KernelSpec)
    (c : CreateCalls) : Except Refusal KernelFit × Option Held :=
  if !spec.hasSpirv then (.error .noShader,held)
  else if spec.sharedBytes = 0 then (initKernel t info spec 0 c,held)
  else
    match sharedFor info held spec c with
    | .error r => (.error r,unpinned held spec.sharedBytes)
    | .ok h =>
      match initKernel t info spec h.bytes c with
      | .error r => (.error r,h.left)
      | .ok fit => (.ok fit,some h)

def Refusal.room : Refusal → Bool
  | .tableBudget _ _ | .noTable | .tooManyBindings _ | .tooManyPieces _ _ _ | .memoryUnknown
  | .noRoomLeft _ | .lessThanGroup _ _ => true
  | _ => false

end VkMiner.Vulkan
