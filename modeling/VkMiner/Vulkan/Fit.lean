import Mathlib.Algebra.Group.Nat.Defs
import VkMiner.Lib.Rounding
set_option autoImplicit false

/-! What a kernel would take on a device: the workgroup, the batch its scratchpads leave room
for, and how a table is cut into pieces. -/

namespace VkMiner.Vulkan
open Rounding (toDouble)

def kMaxSharedChunks : Nat := 16
def kMaxBatch : Nat := 268435456
def kDefaultDepth : Nat := 3
def kMaxNoncesPerInvocation : Nat := 256

def wide : Nat := 18446744073709551616

def narrow : Nat := 4294967296

inductive DeviceKind where
  | other | integratedGpu | discreteGpu | virtualGpu | cpu
  deriving DecidableEq

/-- Of a device, the memory and the limits that a kernel is sized against. Zero is a limit
that the device does not report. -/
structure DeviceInfo where
  memory : Nat
  kind : DeviceKind
  subgroupSize : Nat
  maxInvocations : Nat
  maxWorkgroupSize : Nat
  maxWorkgroupCount : Nat
  maxAllocation : Nat
  maxBindingRange : Nat
  deriving DecidableEq

/-- Of a kernel, what the backend reads. `takesNonces` is whether the module declares the
constant for several nonces to an invocation. -/
structure KernelSpec where
  hasSpirv : Bool
  takesNonces : Bool
  storageBuffers : Nat
  pushConstantBytes : Nat
  localSizeX : Nat
  uniformBytes : Nat
  lanes : Nat
  fullSubgroups : Bool
  scratchBytes : Nat
  sharedBytes : Nat
  sharedBytesMax : Nat
  sharedChunks : Nat
  sharedChunkBytes : Nat
  programConstants : Nat
  queueDepth : Nat
  noncesPerInvocation : Nat
  concurrentKernels : Nat
  deriving DecidableEq

/-- The process-wide options, zero where they were not given. -/
structure Tuning where
  queueDepth : Nat
  workgroup : Nat
  noncesPerInvocation : Nat
  deriving DecidableEq

/-- Why something cannot run, with the numbers that the message prints. -/
inductive Refusal where
  | noDevice
  | noShader
  | tableBudget (bytes budget : Nat)
  | noTable
  | ragged (bytes chunk : Nat)
  | tooManyBindings (declared : Nat)
  | tooManyPieces (bytes chunk declared : Nat)
  | held (bytes live : Nat)
  | lanesWider (lanes : Nat)
  | subgroups (size : Nat)
  | tooManyNonces (asked most : Nat)
  | memoryUnknown
  | noRoomLeft (shared : Nat)
  | lessThanGroup (fits perGroup : Nat)
  | wiring
  | driver
  deriving DecidableEq

/-- `static_cast<uint64_t>(static_cast<double>(memory) * share)`, where the double nearest to
the share is `num` over `den`, a power of two. -/
def shareOf (memory num den : Nat) : Nat := toDouble (toDouble memory * num) / den

def vulkanTableBudget (info : DeviceInfo) : Nat :=
  if info.kind = .discreteGpu then shareOf info.memory 8106479329266893 9007199254740992
  else shareOf info.memory 1 4

def vulkanScratchBudget (info : DeviceInfo) : Nat :=
  match info.kind with
  | .cpu => Nat.min (shareOf info.memory 5404319552844595 36028797018963968) 268435456
  | .discreteGpu => Nat.min (shareOf info.memory 3 4) (wide - 1)
  | _ => Nat.min (shareOf info.memory 1 4) 1073741824

def chooseLocalSize (info : DeviceInfo) : Nat :=
  let size := if info.maxWorkgroupSize ≠ 0 ∧ info.maxWorkgroupSize < 256 then info.maxWorkgroupSize
    else 256
  let size := if info.maxInvocations ≠ 0 ∧ info.maxInvocations < size then info.maxInvocations
    else size
  let size := if 1 < info.subgroupSize ∧ info.subgroupSize < size then
      size - size % info.subgroupSize
    else size
  if size = 0 then 1 else size

structure KernelFit where
  localSizeX : Nat
  lanes : Nat
  nonces : Nat
  perGroup : Nat
  depth : Nat
  maxBatch : Nat
  perNonce : Nat
  deriving DecidableEq

def orElse (a b : Nat) : Nat := if a = 0 then b else a

def wholeSteps (width step : Nat) : Nat := orElse (width - width % step) step

def workgroup (t : Tuning) (info : DeviceInfo) (spec : KernelSpec) :
    Except Refusal (Nat × Nat × Nat) := do
  let width := orElse spec.localSizeX (orElse t.workgroup (chooseLocalSize info))
  let lanes := orElse spec.lanes 1
  if info.maxInvocations ≠ 0 ∧ info.maxInvocations < lanes then throw (.lanesWider lanes)
  let width := if 1 < lanes then wholeSteps width lanes else width
  let step := Nat.lcm lanes info.subgroupSize
  if spec.fullSubgroups ∧ (step = 0 ∨ info.maxInvocations ≠ 0 ∧ info.maxInvocations < step) then
    throw (.subgroups info.subgroupSize)
  let width := if spec.fullSubgroups then wholeSteps width step else width
  let most := if lanes = 1 ∧ spec.takesNonces then kMaxNoncesPerInvocation else 1
  if most < spec.noncesPerInvocation then throw (.tooManyNonces spec.noncesPerInvocation most)
  let nonces := orElse spec.noncesPerInvocation
    (if t.noncesPerInvocation ≠ 0 then Nat.min t.noncesPerInvocation most else 1)
  return (width,lanes,nonces)

/-- How many hashes the scratchpads have room for, behind `shared` bytes of table. -/
def scratchFits (info : DeviceInfo) (spec : KernelSpec) (shared perNonce : Nat) : Nat :=
  Nat.min ((vulkanScratchBudget info - shared) / orElse spec.concurrentKernels 1 /
    orElse perNonce 1) kMaxBatch

def vulkanKernelFit (t : Tuning) (info : DeviceInfo) (spec : KernelSpec) (shared : Nat) :
    Except Refusal KernelFit := do
  let (width,lanes,nonces) ← workgroup t info spec
  let depth := orElse spec.queueDepth (orElse t.queueDepth kDefaultDepth)
  let perGroup := orElse (width / lanes * nonces % narrow) 1
  if spec.scratchBytes = 0 then
    return ⟨width,lanes,nonces,perGroup,depth,kMaxBatch,0⟩
  if info.memory = 0 then throw .memoryUnknown
  if vulkanScratchBudget info ≤ shared then throw (.noRoomLeft shared)
  let perNonce := spec.scratchBytes * depth * lanes % wide
  let fits := scratchFits info spec shared perNonce
  if fits < perGroup then throw (.lessThanGroup fits perGroup)
  return ⟨width,lanes,nonces,perGroup,depth,fits / perGroup * perGroup,perNonce⟩

def floorPow2From (n : Nat) : Nat → Nat → Nat
  | 0,p => p
  | fuel + 1,p => if p ≤ n / 2 then floorPow2From n fuel (p * 2) else p

def floorPow2 (n : Nat) : Nat := floorPow2From n 64 1

def limited (limit n : Nat) : Nat := if limit ≠ 0 ∧ limit < n then limit else n

def pieceLimit (info : DeviceInfo) (spec : KernelSpec) (bytes : Nat) : Nat :=
  Nat.min (limited spec.sharedChunkBytes bytes)
    (limited info.maxBindingRange (limited info.maxAllocation bytes))

def chunkOf (info : DeviceInfo) (spec : KernelSpec) (bytes : Nat) : Nat :=
  if pieceLimit info spec bytes < bytes then floorPow2 (pieceLimit info spec bytes)
  else pieceLimit info spec bytes

def piecesOf (bytes chunk : Nat) : Nat := (bytes + chunk - 1) % wide / chunk

/-- `SharedState::plan`: the size of a piece and how many there are. -/
def plan (info : DeviceInfo) (spec : KernelSpec) (bytes : Nat) : Except Refusal (Nat × Nat) := do
  if limited info.maxBindingRange (limited info.maxAllocation bytes) = 0 then throw .noTable
  let chunk := chunkOf info spec bytes
  let pieces := piecesOf bytes chunk
  if bytes % 16 ≠ 0 ∨ chunk % 16 ≠ 0 then throw (.ragged bytes chunk)
  let declared := orElse spec.sharedChunks 1
  if kMaxSharedChunks < declared then throw (.tooManyBindings declared)
  if declared < pieces then throw (.tooManyPieces bytes chunk declared)
  return (chunk,pieces)

end VkMiner.Vulkan
