import VkMiner.Lib.Grid
import VkMiner.Lib.Pieces
import VkMiner.Progpow.Table
set_option autoImplicit false

/-! A shared table in pieces: the buffers that `create` makes, the copies of an upload and the
dispatches of a setup pass, in the words that they write, and the bindings a shader reads. -/

namespace VkMiner.Vulkan.Pieced
open Progpow Pieces

/-! Each loop runs on `fuel`, and none is what it has not come to an end with. -/

def createFrom (bytes chunk : Nat) : Nat → Nat → Option (List Nat)
  | 0,_ => none
  | fuel+1,first =>
    if first < bytes then
      (createFrom bytes chunk fuel ((first+chunk)%wide)).map
        (Nat.min (bytes-first) chunk :: ·)
    else some []

def kStagingBytes : Nat := 8388608

/-- One `vkCmdCopyBuffer`: `span` bytes of the table from `offset` on, into a piece. -/
structure Copy where
  piece : Nat
  within : Nat
  offset : Nat
  span : Nat

/-- Where the next copy starts: behind a piece that is full is the next one. -/
def cursor (dst : List Nat) (piece within : Nat) : Nat × Nat :=
  if dst[piece]? = some within then (piece+1,0) else (piece,within)

def uploadFrom (dst : List Nat) (total : Nat) : Nat → Nat → Nat → Nat → Option (List Copy)
  | 0,_,_,_ => none
  | fuel+1,offset,piece,within =>
    if offset < total then
      match dst[(cursor dst piece within).1]? with
      | none => none
      | some size =>
        let span := Nat.min (Nat.min (Nat.min total kStagingBytes)
          (size-(cursor dst piece within).2)) (total-offset)
        (uploadFrom dst total fuel (offset+span) (cursor dst piece within).1
          ((cursor dst piece within).2+span)).map
            (⟨(cursor dst piece within).1,(cursor dst piece within).2,offset,span⟩ :: ·)
    else some []

def Copy.writes (c : Copy) : List Write :=
  (List.range (c.span/4)).map fun j => ⟨c.piece,c.within/4+j,c.offset/4+j⟩

def kFirstSlice : Nat := 1024
def kMaxSlice : Nat := 1048576

/-- The sizes of the slices, when the time that each took asks for `wants` items in the next. -/
def sliceAt (wants : Nat → Nat) : Nat → Nat
  | 0 => kFirstSlice
  | turn+1 => Nat.min (Nat.max (Nat.min (wants turn) (sliceAt wants turn*4)) 1) kMaxSlice

/-- The width of the setup pass, which no algorithm asks for. -/
def setupWidth (info : DeviceInfo) : Nat := limited info.maxInvocations (limited info.maxWorkgroupSize 64)

/-- One dispatch of the setup pass. -/
structure Slice where
  piece : Nat
  first : Nat
  place : Nat
  count : Nat
  groups : Nat

def generateFrom (items perChunk width : Nat) (slices : Nat → Nat) :
    Nat → Nat → Nat → Option (List Slice)
  | 0,_,_ => none
  | fuel+1,turn,first =>
    if first < items then
      let piece := first/perChunk
      let place := first-piece*perChunk
      let count := Nat.min (Nat.min (items-first) (perChunk-place)) (slices turn)
      (generateFrom items perChunk width slices fuel (turn+1) (first+count)).map
        (⟨piece,first,place,count,(count+width-1)/width⟩ :: ·)
    else some []

def itemsPerPiece (bytes chunk pieces items : Nat) : Option Nat :=
  if pieces ≤ 1 then some items
  else
    let itemBytes := if items = 0 then 0 else bytes/items
    if itemBytes = 0 ∨ itemBytes*items ≠ bytes ∨ chunk%itemBytes ≠ 0 then none
    else some (chunk/itemBytes)

def kItemWords : Nat := 16

def itemWrites (s : Slice) (i : Nat) : List Write :=
  if s.count ≤ i then []
  else
    let index := (s.first%narrow+i)%narrow
    (List.range kItemWords).map fun j =>
      ⟨s.piece,((s.place%narrow+i)%narrow*kItemWords+j)%narrow,index*kItemWords+j⟩

def Slice.writes (width : Nat) (s : Slice) : List Write :=
  (List.range (s.groups*width)).flatMap (itemWrites s)

/-- The bindings of a kernel on the table: `declared` of them, where those past the pieces repeat
the last one, and the constants that say how the table is cut. -/
def bindings (declared chunk : Nat) (pieces : List Nat) (writes : List Write)
    (table : Nat → Word) : Bindings where
  kSharedChunks := BitVec.ofNat 32 pieces.length
  kSharedChunkWords := BitVec.ofNat 32 (chunk/4)
  quad := fun binding q => Vector.ofFn fun i =>
    if binding < declared then
      (stored writes table (Nat.min binding (pieces.length-1)) (q*4+i)).getD 0
    else 0

end VkMiner.Vulkan.Pieced
