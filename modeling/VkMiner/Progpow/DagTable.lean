import VkMiner.Progpow.DatasetAgreement
import VkMiner.Vulkan.TableTiled
set_option autoImplicit false

/-! The table that a setup pass leaves: in each place the word of the host's item, whatever the
pieces and the slices are. -/

namespace VkMiner.Progpow

/-! ### The sizes -/

/-- Twice an odd prime, or nothing where the size of an epoch is not positive. -/
theorem dagItems_cases (full : UInt32) :
    dagItems full = 0 ∨ 34 ≤ dagItems full ∧ dagItems full%4 = 2 ∧ dagItems full < 2^32 := by
  unfold dagItems calculateFullDatasetNumItems numItems
  generalize hupper : toInt32 (8388608+toInt32 (asInt full*65536)) = upper
  rw [toInt32,toInt32,Int.bmod_def,Int.bmod_def] at hupper
  rw [findLargestPrime_eq]
  by_cases hlow : upper ≤ 0
  · rw [Int.toNat_eq_zero.mpr hlow]
    exact .inl rfl
  · have hle : 17 ≤ upper.toNat := by omega
    have h17 : Nat.Prime 17 := by norm_num
    have hprime := Nat.findGreatest_spec hle h17
    have hge := Nat.le_findGreatest hle h17
    have htop := Nat.findGreatest_le (P := Nat.Prime) upper.toNat
    have hodd := hprime.eq_two_or_odd
    exact .inr ⟨by omega,by omega,by omega⟩

namespace Dag
open Vulkan Vulkan.Pieced Pieces
open Ethash (Item calculateDatasetItem512)

def kItemBytes : Nat := 64

def seedBytes (f : Fork) (seed : UInt32) : Nat :=
  (lightCacheItems (epochsFor f seed).light).toNat*kItemBytes

def setupItems (f : Fork) (seed : UInt32) : Nat := (Table.sized f seed).lines*kItemsPerLine

def tableBytes (f : Fork) (seed : UInt32) : Nat := (Table.sized f seed).lines*kLineWords*4

theorem tableBytes_eq (f : Fork) (seed : UInt32) : setupItems f seed*64 = tableBytes f seed := by
  simp only [setupItems,tableBytes,kItemsPerLine,kLineWords,kLanes,kDagLoads]
  omega

theorem setupItems_eq (f : Fork) (seed : UInt32) : setupItems f seed = dagItems (epochsFor f seed).full/4*4 ∧
    setupItems f seed < 2^32 := by
  have hcases := dagItems_cases (epochsFor f seed).full
  refine ⟨rfl,?_⟩
  simp only [setupItems,Table.sized,kItemsPerLine]
  omega

variable {f : Fork} {seed : UInt32}

/-! ### A setup pass -/

structure Invocation where
  slice : Slice
  number : Nat

def invocations (width : Nat) (slices : List Slice) : List Invocation :=
  slices.flatMap fun s => (List.range (s.groups*width)).map (Invocation.mk s)

def Invocation.puts (f : Fork) (key : Nat) (cache : Nat → Word) (v : Invocation) :
    List (Put Word) :=
  (main Heavyhash.Glsl.pairs (setupPush f key v.slice.first v.slice.place v.slice.count) cache
    (BitVec.ofNat 32 v.number)).map fun p => ⟨v.slice.piece,p.1,p.2⟩

/-- Whether it writes into an item of a table whose pieces are of `words`. -/
def Invocation.makes (f : Fork) (key : Nat) (cache : Nat → Word) (words index : Nat)
    (v : Invocation) : Bool :=
  (v.puts f key cache).any fun p => (p.piece*words+p.place)/16 = index

/-- What the buffer of the seed holds after its upload, in words. -/
def seedWord (copies : List Copy) (lightCache : Nat → Item) (k : Nat) : Word :=
  (stored (copies.flatMap Copy.writes) (cacheWord lightCache) 0 k).getD 0

theorem tiles_one {size : Nat} (h : 0 < size) : Tiles size size [size] := by
  have hcons := @Tiles.cons size size [] (by
    rw [Nat.sub_self]
    exact .nil) h
  rwa [Nat.min_self] at hcons

theorem seed_uploaded (lightCache : Nat → Item) (h : 0 < seedBytes f seed) :
    ∃ copies,(∃ fuel,uploadFrom [seedBytes f seed] (seedBytes f seed) fuel 0 0 0 = some copies) ∧
      ∀ k < (lightCacheItems (epochsFor f seed).light).toNat*16,
        seedWord copies lightCache k = cacheWord lightCache k := by
  rw [seedBytes,kItemBytes] at h ⊢
  generalize (lightCacheItems (epochsFor f seed).light).toNat = c at h ⊢
  have htotal : c*64 = c*16*4 := by omega
  have hw : 0 < c*16 := by omega
  have hin : 0*4 < c*64 → 0 ≤ c*16 := fun _ => Nat.zero_le _
  have htiles : Tiles (c*16*4) (c*64) [c*64] := by
    rw [htotal]
    exact tiles_one (by omega)
  obtain ⟨copies,he,-,hwrites⟩ := @uploadFrom_writes (c*16) (c*64) [c*64] htiles hw (by omega) _ 0 0 0
    (Nat.lt_succ_self _) (by omega) hin
  refine ⟨copies,⟨_,he⟩,fun k hk => ?_⟩
  have honce := (tiles_one hw).once hw
  rw [seedWord,hwrites,show (c*64-0*4)/4 = c*16 by omega,← List.range_eq_range',
    honce.stored (p := 0) (cacheWord lightCache) rfl hk,Option.getD_some,Nat.zero_mul,Nat.zero_add]

def tableWord (f : Fork) (seed : UInt32) (lightCache : Nat → Item) (k : Nat) : Word :=
  (calculateDatasetItem512 ⟨asInt (lightCacheItems (epochsFor f seed).light),lightCache⟩
    (k/16)).read (k%16)

/-- The binding holds the cache, as the shader is told of it. -/
structure Seeded (f : Fork) (seed : UInt32) (lightCache : Nat → Item) (cache : Nat → Word) :
    Prop where
  pos : 0 < seedBytes f seed
  ranged : seedBytes f seed < 2^32
  holds : ∀ k < (lightCacheItems (epochsFor f seed).light).toNat*16,
    cache k = cacheWord lightCache k

variable {lightCache : Nat → Item} {cache : Nat → Word}

theorem Seeded.caching (h : Seeded f seed lightCache cache) (first slot count : Nat) :
    Caching (lightCacheItems (epochsFor f seed).light).toNat lightCache
      (setupPush f seed.toNat first slot count) cache := by
  obtain ⟨hpos,hranged,hholds⟩ := h
  rw [seedBytes,kItemBytes] at hpos hranged
  refine ⟨by omega,by omega,?_,hholds⟩
  rw [setupPush,UInt32.ofNat_toNat]
  rfl

theorem Seeded.puts (h : Seeded f seed lightCache cache) {v : Invocation}
    (hc : v.slice.count < 2^32) (hn : v.number < 2^32) :
    v.puts f seed.toNat cache =
      (itemWrites v.slice v.number).map (Write.put (tableWord f seed lightCache)) := by
  have hcaching := h.caching v.slice.first v.slice.place v.slice.count
  have hint : asInt (lightCacheItems (epochsFor f seed).light) =
      (lightCacheItems (epochsFor f seed).light).toNat := by
    have hranged := h.ranged
    rw [seedBytes,kItemBytes] at hranged
    exact asInt_small (by omega)
  have hguard : (setupPush f seed.toNat v.slice.first v.slice.place v.slice.count).count ≤
      BitVec.ofNat 32 v.number ↔ v.slice.count ≤ v.number := by
    rw [BitVec.le_def,setupPush,BitVec.toNat_ofNat,BitVec.toNat_ofNat,Nat.mod_eq_of_lt hc,
      Nat.mod_eq_of_lt hn]
  have hnar : narrow = 4294967296 := rfl
  have hkw : Pieced.kItemWords = 16 := rfl
  rw [Invocation.puts,main_eq Heavyhash.Glsl.pairs_lawful hcaching,itemWrites]
  simp only [hguard]
  split
  · rfl
  · rw [List.map_map,List.map_map]
    refine List.map_congr_left fun j hj => ?_
    have hj : j < 16 := List.mem_range.mp hj
    have hfirst : ((setupPush f seed.toNat v.slice.first v.slice.place v.slice.count).first +
        BitVec.ofNat 32 v.number).toNat = (v.slice.first%narrow+v.number)%narrow := by
      rw [setupPush,BitVec.toNat_add,BitVec.toNat_ofNat,BitVec.toNat_ofNat,hnar]
      omega
    have hplace : (((setupPush f seed.toNat v.slice.first v.slice.place v.slice.count).slot +
        BitVec.ofNat 32 v.number)*kItemWords + BitVec.ofNat 32 j).toNat =
        ((v.slice.place%narrow+v.number)%narrow*16+j)%narrow := by
      rw [setupPush,BitVec.toNat_add,BitVec.toNat_mul,BitVec.toNat_add,BitVec.toNat_ofNat,
        BitVec.toNat_ofNat,BitVec.toNat_ofNat,hnar,show kItemWords.toNat = 16 from rfl]
      omega
    simp only [Function.comp_apply,Write.put,tableWord,hfirst,hplace,hint,hkw]
    generalize (v.slice.first%narrow+v.number)%narrow = index
    rw [show (index*16+j)/16 = index by omega,show (index*16+j)%16 = j by omega]

/-! ### Which invocation makes an item -/

theorem count_run {first count index : Nat} : (List.range' first count).count index =
    if first ≤ index ∧ index < first+count then 1 else 0 := by
  split
  · next h => exact List.count_eq_one_of_mem List.nodup_range' (List.mem_range'_1.mpr h)
  · next h => exact List.count_eq_zero.mpr fun hm => h (List.mem_range'_1.mp hm)

variable {items perChunk width index : Nat} {slices : List Slice}

/-- An invocation of a slice makes its own item, and past the end of the slice none. -/
theorem Seeded.makes (h : Seeded f seed lightCache cache) {s : Slice}
    (hs : Fits items perChunk width s) (hn : items ≤ narrow) (hpn : perChunk*16 < narrow)
    {i : Nat} (hi : i < 2^32) :
    Invocation.makes f seed.toNat cache (perChunk*16) index ⟨s,i⟩ ↔
      i < s.count ∧ s.first+i = index := by
  have hin := hs.inside
  have hnar : narrow = 4294967296 := rfl
  have hputs := h.puts (v := ⟨s,i⟩) (show s.count < 2^32 by omega) hi
  rw [Invocation.makes,hputs]
  by_cases hlt : i < s.count
  · have hkw : Pieced.kItemWords = 16 := rfl
    rw [hs.itemWrites hn (by rw [hkw]; omega) hlt]
    simp only [List.any_map,List.any_eq_true,Function.comp_apply,decide_eq_true_eq,Write.put,locate,
      itemWords,List.mem_range'_1,hkw,Nat.div_add_mod',hlt,true_and]
    constructor
    · rintro ⟨k,hk,rfl⟩
      omega
    · rintro rfl
      exact ⟨(s.first+i)*16,by omega,by omega⟩
  · rw [Pieced.itemWrites,if_pos (Nat.not_lt.mp hlt)]
    simp [hlt]

theorem numbers_lt {s : Slice} (hs : Fits items perChunk width s) (hw : width ≤ 64)
    (hpn : perChunk*16 < narrow) {i : Nat} (hi : i < s.groups*width) :
    s.count < 2^32 ∧ i < 2^32 := by
  have hnar : narrow = 4294967296 := rfl
  have hin := hs.inside
  have htop : s.groups*width ≤ s.count+width-1 := by
    rw [hs.groups]
    exact Nat.div_mul_le_self _ _
  omega

theorem Seeded.makers (h : Seeded f seed lightCache cache) {s : Slice}
    (hs : Fits items perChunk width s) (hw : 0 < width) (hw' : width ≤ 64) (hn : items ≤ narrow)
    (hpn : perChunk*16 < narrow) :
    (((List.range (s.groups*width)).map (Invocation.mk s)).filter
      (Invocation.makes f seed.toNat cache (perChunk*16) index)).length =
        (List.range' s.first s.count).count index := by
  have hpad := hs.padded hw
  have hmakes : ∀ i ∈ List.range (s.groups*width),
      (Invocation.makes f seed.toNat cache (perChunk*16) index ∘ Invocation.mk s) i =
        decide (i < s.count ∧ s.first+i = index) := fun i hi => by
    rw [Bool.eq_iff_iff,decide_eq_true_iff]
    exact h.makes hs hn hpn (numbers_lt hs hw' hpn (List.mem_range.mp hi)).2
  rw [List.filter_map,List.length_map,List.filter_congr hmakes,count_run]
  split
  · next hrun =>
    have hown : ∀ i ∈ List.range (s.groups*width),
        decide (i < s.count ∧ s.first+i = index) = (i == index-s.first) := fun i _ => by
      rw [Bool.eq_iff_iff,decide_eq_true_iff,beq_iff_eq]
      omega
    rw [List.filter_congr hown,List.filter_beq,List.length_replicate]
    exact List.count_eq_one_of_mem List.nodup_range (List.mem_range.mpr (by omega))
  · next hrun =>
    rw [List.length_eq_zero_iff,List.filter_eq_nil_iff]
    intro i _ hi
    have hi := of_decide_eq_true hi
    omega

theorem Seeded.made (h : Seeded f seed lightCache cache)
    (hs : ∀ s ∈ slices,Fits items perChunk width s) (hw : 0 < width) (hw' : width ≤ 64)
    (hn : items ≤ narrow) (hpn : perChunk*16 < narrow) :
    ((invocations width slices).filter
      (Invocation.makes f seed.toNat cache (perChunk*16) index)).length =
        (slices.flatMap fun s => List.range' s.first s.count).count index := by
  rw [invocations,List.filter_flatMap,List.length_flatMap,List.count_flatMap]
  congr 1
  exact List.map_congr_left fun s hm => h.makers (hs s hm) hw hw' hn hpn

/-! ### A whole pass -/

/-- The epochs that a device can hold: the table is planned for, and the cache, which is not
empty, is in one binding. -/
structure Held (info : DeviceInfo) (spec : KernelSpec) (f : Fork) (seed : UInt32)
    (chunk count : Nat) : Prop where
  planned : plan info spec (tableBytes f seed) = .ok (chunk,count)
  ranged : info.maxBindingRange ≠ 0 ∧ info.maxBindingRange < narrow
  cached : 0 < seedBytes f seed
  bound : seedBytes f seed ≤ info.maxBindingRange

/-- A setup pass of a table in pieces of `chunk` bytes, whose calls of the device all succeed. -/
structure Pass (info : DeviceInfo) (f : Fork) (seed : UInt32) (chunk : Nat) (wants : Nat → Nat)
    (pieces : List Nat) (copies : List Copy) (perChunk : Nat) (slices : List Slice) : Prop where
  created : ∃ fuel,createFrom (tableBytes f seed) chunk fuel 0 = some pieces
  uploaded : ∃ fuel,
    uploadFrom [seedBytes f seed] (seedBytes f seed) fuel 0 0 0 = some copies
  whole : itemsPerPiece (tableBytes f seed) chunk pieces.length (setupItems f seed) = some perChunk
  sliced : ∃ fuel,generateFrom (setupItems f seed) perChunk (setupWidth info) (sliceAt wants)
    fuel 0 0 = some slices

/-- What the invocations of a pass leave behind: none of them is outside its slice, each item up to
the end of the last line is of one of them, and it is the host's. -/
structure Generated (info : DeviceInfo) (f : Fork) (seed : UInt32) (chunk : Nat)
    (lightCache : Nat → Item) (pieces : List Nat) (copies : List Copy) (slices : List Slice) :
    Prop where
  inside : ∀ v ∈ invocations (setupWidth info) slices,
    ∀ p ∈ v.puts f seed.toNat (seedWord copies lightCache),
      p.piece = v.slice.piece ∧ v.slice.place*16 ≤ p.place ∧
        p.place < (v.slice.place+v.slice.count)*16 ∧
        ∃ size,pieces[p.piece]? = some size ∧ p.place*4+4 ≤ size
  once : ∀ index < setupItems f seed,((invocations (setupWidth info) slices).filter
    (Invocation.makes f seed.toNat (seedWord copies lightCache) (chunk/4) index)).length = 1
  held : ∀ order : List Invocation,order.Perm (invocations (setupWidth info) slices) →
    ∀ index < setupItems f seed,∃ item,
      datasetItem (epochsFor f seed) (some lightCache) index = some item ∧
      ∀ j < 16,held (order.flatMap (Invocation.puts f seed.toNat (seedWord copies lightCache)))
        ((index*16+j)/(chunk/4)) ((index*16+j)%(chunk/4)) = some (item.read j)

variable {info : DeviceInfo} {spec : KernelSpec} {chunk count : Nat} {wants : Nat → Nat}

theorem plan_chunk {bytes : Nat} (hb : 0 < bytes) (h : plan info spec bytes = .ok (chunk,count)) :
    chunk = chunkOf info spec bytes := by
  obtain ⟨-,he⟩ | ⟨-,he⟩ | ⟨-,-,he⟩ | ⟨-,-,-,he⟩ := plan_cases info spec hb
  · rw [h] at he
    cases he
    rfl
  all_goals
    rw [h] at he
    cases he

theorem floorPow2_items {n : Nat} (hn : 0 < n ∧ n < wide) (h : 64 ≤ floorPow2 n) :
    floorPow2 n%64 = 0 := by
  obtain ⟨k,he,-,-⟩ := floorPow2_spec hn.1 hn.2
  rw [he] at h ⊢
  have hk : 6 ≤ k := by
    by_contra hlt
    have hpow : 2^k ≤ 2^5 := Nat.pow_le_pow_right (by decide) (by omega)
    omega
  exact Nat.mod_eq_zero_of_dvd (Nat.pow_dvd_pow 2 hk)

theorem Held.bytes (h : Held info spec f seed chunk count) :
    0 < tableBytes f seed ∧ 2048 ≤ tableBytes f seed ∧ tableBytes f seed < 2^38 := by
  have hplan := planning (Nat.lt_of_le_of_lt (Nat.le_of_eq (tableBytes_eq f seed).symm) (by
    have hitems := (setupItems_eq f seed).2
    simp only [wide]
    omega)) h.planned
  have hpos := hplan.bytes_pos
  have hitems := setupItems_eq f seed
  have hbytes := tableBytes_eq f seed
  have hcases := dagItems_cases (epochsFor f seed).full
  omega

theorem Held.whole (h : Held info spec f seed chunk count) {pieces : List Nat}
    (ht : Tiles chunk (tableBytes f seed) pieces) :
    ∃ perChunk,itemsPerPiece (tableBytes f seed) chunk pieces.length (setupItems f seed) =
      some perChunk := by
  have hbytes := h.bytes
  have hitems := tableBytes_eq f seed
  have hplan := planning (by simp only [wide]; omega) h.planned
  have hlen := tiles_length ht hplan.chunk_pos
  have hchunk : chunk%64 = 0 := by
    have heq := plan_chunk hbytes.1 h.planned
    have hle := hplan.chunk_le
    rw [chunkOf] at heq
    split at heq
    · next hcut =>
      have hsixteen : (tableBytes f seed+chunk-1)/chunk ≤ 16 := by
        have hcount := hplan.count_eq
        rw [piecesOf,Nat.mod_eq_of_lt (by simp only [wide]; omega)] at hcount
        exact (hcount ▸ hplan.declared).trans hplan.most
      rw [← Nat.lt_succ_iff,Nat.div_lt_iff_lt_mul hplan.chunk_pos] at hsixteen
      rw [heq]
      exact floorPow2_items ⟨pieceLimit_pos hbytes.1,by simp only [wide]; omega⟩ (by omega)
    · omega
  unfold itemsPerPiece
  split
  · exact ⟨_,rfl⟩
  · have hdiv : tableBytes f seed/setupItems f seed = 64 := by
      rw [← hitems]
      exact Nat.mul_div_cancel_left 64 (by omega)
    simp only [if_neg (show setupItems f seed ≠ 0 by omega),hdiv]
    rw [if_neg (by omega)]
    exact ⟨_,rfl⟩

theorem Seeded.run_puts (h : Seeded f seed lightCache cache)
    (hs : ∀ s ∈ slices,Fits items perChunk width s) (hw' : width ≤ 64)
    (hpn : perChunk*16 < narrow) :
    (invocations width slices).flatMap (Invocation.puts f seed.toNat cache) =
      (slices.flatMap (Slice.writes width)).map (Write.put (tableWord f seed lightCache)) := by
  rw [invocations,List.flatMap_assoc,List.map_flatMap]
  refine List.flatMap_congr fun s hm => ?_
  rw [Slice.writes,List.flatMap_map,List.map_flatMap]
  refine List.flatMap_congr fun i hi => ?_
  obtain ⟨hc,hn⟩ := numbers_lt (hs s hm) hw' hpn (List.mem_range.mp hi)
  exact h.puts (v := ⟨s,i⟩) hc hn

theorem slot_inside {s : Slice} (hs : Fits items perChunk width s) (hpn : perChunk*16 < narrow)
    {i : Nat} {w : Write} (hw : w ∈ itemWrites s i) :
    w.piece = s.piece ∧ s.place*16 ≤ w.place ∧ w.place < (s.place+s.count)*16 := by
  have hin := hs.inside
  have hnar : narrow = 4294967296 := rfl
  have hkw : Pieced.kItemWords = 16 := rfl
  unfold itemWrites at hw
  split at hw
  · cases hw
  · obtain ⟨j,hj,rfl⟩ := List.mem_map.mp hw
    have hj : j < 16 := List.mem_range.mp hj
    have hplace : ((s.place%narrow+i)%narrow*Pieced.kItemWords+j)%narrow = (s.place+i)*16+j := by
      rw [hnar,hkw]
      omega
    rw [hplace]
    exact ⟨rfl,show s.place*16 ≤ (s.place+i)*16+j by omega,
      show (s.place+i)*16+j < (s.place+s.count)*16 by omega⟩

structure Laid (info : DeviceInfo) (f : Fork) (seed : UInt32) (chunk : Nat)
    (lightCache : Nat → Item) (pieces : List Nat) (copies : List Copy) (perChunk : Nat)
    (slices : List Slice) : Prop where
  seeded : Seeded f seed lightCache (seedWord copies lightCache)
  words : chunk/4 = perChunk*16
  pos : 0 < perChunk
  ranged : perChunk*16 < narrow
  tiled : Tiles (perChunk*16) (setupItems f seed*16) (pieces.map (·/4))
  fits : ∀ s ∈ slices,Fits (setupItems f seed) perChunk (setupWidth info) s
  counted : (slices.flatMap fun s => List.range' s.first s.count) = List.range (setupItems f seed)

theorem Held.pass (h : Held info spec f seed chunk count) (lightCache : Nat → Item)
    (wants : Nat → Nat) : ∃ pieces copies perChunk slices,
      Pass info f seed chunk wants pieces copies perChunk slices ∧
        Laid info f seed chunk lightCache pieces copies perChunk slices := by
  have hbytes := h.bytes
  have heq := tableBytes_eq f seed
  have hwide : wide = 18446744073709551616 := rfl
  have hnar : narrow = 4294967296 := rfl
  have hplan := planning (by omega) h.planned
  have hcp := hplan.chunk_pos
  have hchunk : chunk < narrow :=
    plan_chunk hbytes.1 h.planned ▸ chunkOf_lt hbytes.1 h.ranged
  obtain ⟨pieces,hcreate,ht⟩ := createFrom_tiles hcp (by omega : tableBytes f seed+chunk ≤ wide)
    (show tableBytes f seed-0 < tableBytes f seed+1 by omega)
  rw [Nat.sub_zero] at ht
  obtain ⟨copies,hupload,hholds⟩ := seed_uploaded lightCache h.cached
  obtain ⟨perChunk,hper⟩ := h.whole ht
  have hwords : perChunk*64 = chunk := by
    refine itemsPerPiece_words hbytes.1 heq (fun hone => ?_) hper
    rw [tiles_length ht hcp,← Nat.lt_succ_iff,Nat.div_lt_iff_lt_mul hcp] at hone
    have hle := hplan.chunk_le
    omega
  obtain ⟨slices,hrun,hfit,hall⟩ := generateFrom_slices (setupWidth info)
    (show 0 < perChunk by omega) (fun turn => (sliceAt_pos wants turn).1) 0
    (Nat.lt_succ_self (setupItems f seed-0))
  rw [Nat.sub_zero,← List.range_eq_range'] at hall
  refine ⟨pieces,copies,perChunk,slices,⟨⟨_,hcreate⟩,hupload,hper,⟨_,hrun⟩⟩,
    ⟨h.cached,Nat.lt_of_le_of_lt h.bound h.ranged.2,hholds⟩,by omega,by omega,by omega,
    tiles_words ?_,hfit,hall⟩
  rwa [show setupItems f seed*16*4 = tableBytes f seed by omega,
    show perChunk*16*4 = chunk by omega]

theorem setupWidth_le (info : DeviceInfo) : setupWidth info ≤ 64 :=
  (limited_le _ _).trans (limited_le _ _)

variable {pieces : List Nat} {copies : List Copy}

theorem Laid.once (h : Laid info f seed chunk lightCache pieces copies perChunk slices) :
    Once (perChunk*16) (pieces.map (·/4)) (slices.flatMap (Slice.writes (setupWidth info))) := by
  have hpos := h.pos
  have hitems := (setupItems_eq f seed).2
  have hwrites := run_writes (setupWidth_pos info) (Nat.le_of_lt hitems)
    (Nat.le_of_lt h.ranged) h.fits (h.counted.trans List.range_eq_range')
  rw [hwrites,show Pieced.kItemWords = 16 from rfl,Nat.zero_mul,← List.range_eq_range']
  exact h.tiled.once (by omega)

/-- How many invocations make an item: one, and none an item behind the last line. -/
theorem Laid.made (h : Laid info f seed chunk lightCache pieces copies perChunk slices)
    (index : Nat) : ((invocations (setupWidth info) slices).filter
      (Invocation.makes f seed.toNat (seedWord copies lightCache) (chunk/4) index)).length =
        if index < setupItems f seed then 1 else 0 := by
  have hitems := (setupItems_eq f seed).2
  rw [h.words,h.seeded.made h.fits (setupWidth_pos info) (setupWidth_le info)
    (Nat.le_of_lt hitems) h.ranged,h.counted,List.range_eq_range',count_run]
  simp only [Nat.zero_le,true_and,Nat.zero_add]

theorem Laid.inside (h : Laid info f seed chunk lightCache pieces copies perChunk slices)
    {v : Invocation} (hv : v ∈ invocations (setupWidth info) slices) {p : Put Word}
    (hp : p ∈ v.puts f seed.toNat (seedWord copies lightCache)) :
    p.piece = v.slice.piece ∧ v.slice.place*16 ≤ p.place ∧
      p.place < (v.slice.place+v.slice.count)*16 ∧
      ∃ size,pieces[p.piece]? = some size ∧ p.place*4+4 ≤ size := by
  obtain ⟨s,hs,hv⟩ := List.mem_flatMap.mp hv
  obtain ⟨i,hi,rfl⟩ := List.mem_map.mp hv
  obtain ⟨hc,hn⟩ := numbers_lt (h.fits s hs) (setupWidth_le info) h.ranged (List.mem_range.mp hi)
  rw [h.seeded.puts (v := ⟨s,i⟩) hc hn] at hp
  obtain ⟨w,hw,rfl⟩ := List.mem_map.mp hp
  obtain ⟨hpiece,hlow,hhigh⟩ := slot_inside (h.fits s hs) h.ranged hw
  obtain ⟨size,hsize,hplace,-⟩ := h.once.inside w
    (List.mem_flatMap.mpr ⟨s,hs,List.mem_flatMap.mpr ⟨i,hi,hw⟩⟩)
  rw [List.getElem?_map,Option.map_eq_some_iff] at hsize
  obtain ⟨bytes,hbytes,rfl⟩ := hsize
  exact ⟨hpiece,hlow,hhigh,bytes,hbytes,show w.place*4+4 ≤ bytes by omega⟩

theorem Laid.held (h : Laid info f seed chunk lightCache pieces copies perChunk slices)
    {order : List Invocation} (hperm : order.Perm (invocations (setupWidth info) slices))
    {k : Nat} (hk : k < setupItems f seed*16) :
    held (order.flatMap (Invocation.puts f seed.toNat (seedWord copies lightCache)))
      (k/(chunk/4)) (k%(chunk/4)) = some (tableWord f seed lightCache k) := by
  have hpos := h.pos
  have hputs := h.seeded.run_puts h.fits (setupWidth_le info) h.ranged
  have hall := hputs ▸ hperm.flatMap_right
    (Invocation.puts f seed.toNat (seedWord copies lightCache))
  have hdm := Nat.div_add_mod k (perChunk*16)
  have hm := Nat.mod_lt k (show 0 < perChunk*16 by omega)
  rw [Nat.mul_comm] at hdm
  have hsize := (h.tiled.sizes (k/(perChunk*16)) _).mpr ⟨by omega,rfl⟩
  rw [h.words,h.once.held _ hall hsize (by omega),hdm]

/-- Whatever the cuts are, and in whichever order the invocations run, the table is the host's up to
the end of its last line. -/
theorem table_generated (h : Held info spec f seed chunk count) (lightCache : Nat → Item)
    (wants : Nat → Nat) : ∃ pieces copies perChunk slices,
      Pass info f seed chunk wants pieces copies perChunk slices ∧
        Generated info f seed chunk lightCache pieces copies slices := by
  obtain ⟨pieces,copies,perChunk,slices,hpass,hlaid⟩ := h.pass lightCache wants
  refine ⟨pieces,copies,perChunk,slices,hpass,fun v hv p hp => hlaid.inside hv hp,?_,?_⟩
  · intro index hi
    rw [hlaid.made,if_pos hi]
  · intro order hperm index hi
    have hcount := (setupItems_eq f seed).1
    have hitem : index < dagItems (epochsFor f seed).full := by omega
    refine ⟨_,if_neg (by omega),fun j hj => ?_⟩
    rw [hlaid.held hperm (by omega),tableWord,show (index*16+j)/16 = index by omega,
      show (index*16+j)%16 = j by omega]

/-! ### Epoch 0 of a fork -/

theorem first_epoch : (17 ≤ dagItems (epochsFor kKawpow 0).full ∧
    dagItems (epochsFor kKawpow 0).full ≤ 2*8388608) ∧
    17 ≤ (lightCacheItems (epochsFor kKawpow 0).light).toNat ∧
      (lightCacheItems (epochsFor kKawpow 0).light).toNat ≤ 262144 := by
  have hbounds {init growth : Nat} (hlow : 17 ≤ init) (hhigh : init < 2147483648) :
      17 ≤ numItems init growth 0 ∧ numItems init growth 0 ≤ init := by
    have hexact := numItems_exact (e := 0) init growth (by omega)
    have h17 : Nat.Prime 17 := by norm_num
    rw [exactItems,Nat.mul_zero,Nat.add_zero] at hexact
    rw [show (0 : Int) = ((0 : Nat) : Int) from rfl,hexact]
    exact ⟨Nat.le_findGreatest hlow h17,Nat.findGreatest_le _⟩
  have hfull : numItems 8388608 65536 0 = calculateFullDatasetNumItems (asInt 0) := by
    rw [asInt_small (by decide)]
    rfl
  have hlight : numItems 262144 2048 0 = calculateLightCacheNumItems (asInt 0) := by
    rw [asInt_small (by decide)]
    rfl
  have hf := @hbounds 8388608 65536 (by norm_num) (by norm_num)
  have hl := @hbounds 262144 2048 (by norm_num) (by norm_num)
  have hepochs : epochsFor kKawpow 0 = ⟨0,0,0⟩ := by decide
  rw [hepochs,lightCacheItems,dagItems,UInt32.toNat_ofNat',← hfull,← hlight]
  simp only [Nat.cast_ofNat] at hf hl
  omega

theorem plan_one {bytes : Nat} (hb : 0 < bytes) (hq : bytes%16 = 0) (hle : bytes ≤ 2^30) :
    plan wideDevice manyPieces bytes = .ok (bytes,1) := by
  have hzero : limited 0 bytes = bytes := if_neg (by omega)
  have hlimit {l : Nat} (hl : 2^30 ≤ l) : limited l bytes = bytes := if_neg (by omega)
  have hpiece : pieceLimit wideDevice manyPieces bytes = bytes := by
    rw [pieceLimit,show manyPieces.sharedChunkBytes = 0 from rfl,
      show wideDevice.maxAllocation = 4294967292 from rfl,
      show wideDevice.maxBindingRange = 4294967295 from rfl,hzero,
      hlimit (l := 4294967292) (by norm_num),hlimit (by norm_num)]
    exact Nat.min_self bytes
  have hchunk : chunkOf wideDevice manyPieces bytes = bytes := by
    rw [chunkOf,hpiece,if_neg (Nat.lt_irrefl _)]
  have hone : piecesOf bytes (chunkOf wideDevice manyPieces bytes) = 1 := by
    rw [hchunk,piecesOf,Nat.mod_eq_of_lt (by simp only [wide]; omega),Nat.div_eq_iff hb]
    omega
  have hdeclared : orElse manyPieces.sharedChunks 1 = 16 := rfl
  obtain ⟨-,he⟩ | ⟨hno,-⟩ | ⟨-,hno,-⟩ | ⟨-,-,hno,-⟩ := plan_cases wideDevice manyPieces hb
  · rw [he,hone,hchunk]
  · exact absurd ⟨hq,hchunk.symm ▸ hq⟩ hno
  · rw [hdeclared] at hno
    exact absurd hno (by decide)
  · rw [hdeclared,hone] at hno
    exact absurd hno (by decide)

theorem first_held : Held wideDevice manyPieces kKawpow 0 (tableBytes kKawpow 0) 1 := by
  obtain ⟨⟨hlow,hhigh⟩,hcache,hsmall⟩ := first_epoch
  have hitems := (setupItems_eq kKawpow 0).1
  have hbytes := tableBytes_eq kKawpow 0
  refine ⟨plan_one (by omega) (by omega) (by omega),⟨by decide,by decide⟩,?_,?_⟩
  · rw [seedBytes,kItemBytes]
    omega
  · rw [seedBytes,kItemBytes,show wideDevice.maxBindingRange = 4294967295 from rfl]
    omega

theorem table_generated_first : ∃ pieces copies perChunk slices,
    Pass wideDevice kKawpow 0 (tableBytes kKawpow 0) (fun _ => 1) pieces copies perChunk slices ∧
      Generated wideDevice kKawpow 0 (tableBytes kKawpow 0) (fun _ => Words.zeros 16) pieces copies
        slices :=
  table_generated first_held _ _

/-- Of the items of an epoch, the two behind the last whole line are made by no invocation. -/
theorem last_items_unmade : ∃ pieces copies perChunk slices,
    Pass wideDevice kKawpow 0 (tableBytes kKawpow 0) (fun _ => 1) pieces copies perChunk slices ∧
      (dagItems (epochsFor kKawpow 0).full-1 < dagItems (epochsFor kKawpow 0).full) ∧
      (invocations (setupWidth wideDevice) slices).filter (Invocation.makes kKawpow 0
        (seedWord copies fun _ => Words.zeros 16) (tableBytes kKawpow 0/4)
        (dagItems (epochsFor kKawpow 0).full-1)) = [] := by
  obtain ⟨pieces,copies,perChunk,slices,hpass,hlaid⟩ :=
    first_held.pass (fun _ => Words.zeros 16) fun _ => 1
  have hcases := dagItems_cases (epochsFor kKawpow 0).full
  have hfirst := first_epoch.1
  have hitems := (setupItems_eq kKawpow 0).1
  refine ⟨pieces,copies,perChunk,slices,hpass,by omega,?_⟩
  have hmade := hlaid.made (dagItems (epochsFor kKawpow 0).full-1)
  rw [if_neg (by omega)] at hmade
  exact List.length_eq_zero_iff.mp hmade

end Dag
end VkMiner.Progpow
