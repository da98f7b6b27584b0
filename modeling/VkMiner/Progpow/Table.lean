import VkMiner.Progpow.Hash
import VkMiner.Vulkan.WouldFit
set_option autoImplicit false

/-! The DAG: as the host reads it by lines, and as a shader reads it by words out of the bindings
that the device made it take. -/

namespace VkMiner.Progpow
open Vulkan

def kL1Lines : Nat := kL1Words * 4 / (kLineWords * 4)

def lineOf (dag : Nat → Word) (index : Nat) : Line :=
  Vector.ofFn fun i => dag (index * kLineWords + i)

def referenceLines (lines : Nat) (dag : Nat → Word) (index : Nat) : Option Line :=
  if index < lines then some (lineOf dag index) else none

/-- How a table of `lines` is cut into bindings, in words. -/
structure Cut (lines : Nat) where
  chunks : Nat
  chunkWords : Nat
  cached : kL1Lines ≤ lines
  chunks_pos : 0 < chunks
  chunks_le : chunks ≤ kMaxSharedChunks
  quads : 4 ∣ chunkWords
  ranged : chunkWords < 2 ^ 30
  holds : lines * kLineWords ≤ chunks * chunkWords

/-- The specialization constants and the bindings of `shared_table.glsl`. -/
structure Bindings where
  kSharedChunks : Word
  kSharedChunkWords : Word
  quad : Nat → Nat → Words 4

/-- The binding that the chain of compares ends at: the last is what is left. -/
def chainEnd (piece : Word) : Nat := Nat.min piece.toNat 15

def sharedWord (b : Bindings) (index : Word) : Word :=
  if b.kSharedChunks = 1 then (b.quad 0 (index >>> 2).toNat).read (index &&& 3).toNat
  else
    let piece := index / b.kSharedChunkWords
    let place := index % b.kSharedChunkWords
    (b.quad (chainEnd piece) (place >>> 2).toNat).read (place &&& 3).toNat

def sharedQuad (b : Bindings) (index : Word) : Words 4 :=
  if b.kSharedChunks = 1 then b.quad 0 (index >>> 2).toNat
  else
    let piece := index / b.kSharedChunkWords
    let place := (index % b.kSharedChunkWords) >>> 2
    b.quad (chainEnd piece) place.toNat

variable {lines : Nat} {dag : Nat → Word} {index : Word} {i : Nat}

def Cut.bindings (cut : Cut lines) (dag : Nat → Word) : Bindings :=
  ⟨BitVec.ofNat 32 cut.chunks,BitVec.ofNat 32 cut.chunkWords,fun piece q =>
    Vector.ofFn fun i => dag (Nat.min piece (cut.chunks - 1) * cut.chunkWords + (q * 4 + i))⟩

theorem plan_cut {info : DeviceInfo} {spec : KernelSpec} {chunk pieces : Nat}
    (hr : info.maxBindingRange ≠ 0 ∧ info.maxBindingRange < narrow)
    (hc : kL1Lines ≤ lines) (hl : lines < narrow)
    (h : plan info spec (lines * kLineWords * 4) = .ok (chunk,pieces)) :
    ∃ cut : Cut lines, cut.chunks = pieces ∧ cut.chunkWords * 4 = chunk := by
  have hpos : 0 < lines := Nat.lt_of_lt_of_le (by decide) hc
  have hb : 0 < lines * kLineWords * 4 := by simp only [kLineWords,kLanes,kDagLoads]; omega
  have hw : lines * kLineWords * 4 + narrow ≤ wide := by
    simp only [kLineWords,kLanes,kDagLoads,narrow,wide] at hl ⊢
    omega
  have hn : chunkOf info spec _ < narrow := chunkOf_lt hb hr
  have hcp : 0 < chunkOf info spec (lines * kLineWords * 4) :=
    chunkOf_pos hb (Nat.lt_of_lt_of_le (Nat.lt_add_of_pos_right (by decide)) hw)
  obtain ⟨hp,he⟩ | ⟨-,he⟩ | ⟨-,-,he⟩ | ⟨-,-,-,he⟩ := plan_cases info spec hb
  · obtain ⟨rfl,rfl⟩ : _ = chunk ∧ _ = pieces := by simpa [he] using h
    generalize hk : chunkOf info spec (lines * kLineWords * 4) = chunk at hp hn hcp
    obtain ⟨-,h16,hd,hle⟩ := hp
    rw [hk] at h16 hle
    have hq := Nat.div_add_mod (lines * kLineWords * 4 + chunk - 1) chunk
    have hm := Nat.mod_lt (lines * kLineWords * 4 + chunk - 1) hcp
    have hpc : piecesOf (lines * kLineWords * 4) chunk =
        (lines * kLineWords * 4 + chunk - 1) / chunk := by
      rw [piecesOf,Nat.mod_eq_of_lt (by omega)]
    rw [Nat.mul_comm,← hpc] at hq
    have hcover : lines * kLineWords * 4 ≤ piecesOf (lines * kLineWords * 4) chunk * chunk := by
      omega
    refine ⟨⟨piecesOf (lines * kLineWords * 4) chunk,chunk / 4,hc,?_,hle.trans hd,?_,?_,?_⟩,
      rfl,by simp only []; omega⟩
    · refine Nat.pos_of_ne_zero fun h0 => ?_
      rw [h0] at hcover
      omega
    · omega
    · simp only [narrow] at hn
      omega
    · have h4 : chunk = chunk / 4 * 4 := by omega
      rw [h4,← Nat.mul_assoc] at hcover
      rw [← h4] at hcover
      omega
  all_goals
    rw [h] at he
    cases he

theorem Cut.lines_lt (cut : Cut lines) : 0 < lines ∧ lines < 2 ^ 28 := by
  have hc := cut.cached
  have hh := cut.holds
  have hs : cut.chunks * cut.chunkWords < 16 * 2 ^ 30 :=
    Nat.mul_lt_mul_of_le_of_lt cut.chunks_le cut.ranged (by decide)
  simp only [kL1Lines,kL1Words,kLineWords,kLanes,kDagLoads] at hc hh
  omega

theorem quad_read (cut : Cut lines) {piece q : Nat} (hp : piece < cut.chunks) (hi : i < 4) :
    ((cut.bindings dag).quad piece q).read i = dag (piece * cut.chunkWords + (q * 4 + i)) := by
  have hm : Nat.min piece (cut.chunks - 1) = piece := Nat.min_eq_left (by omega)
  simp only [Cut.bindings]
  rw [Words.read_ofFn _ hi,hm]

theorem shift_2 (x : Word) : (x >>> 2).toNat = x.toNat / 4 := by
  rw [BitVec.toNat_ushiftRight,Nat.shiftRight_eq_div_pow]

theorem and_3 (x : Word) : (x &&& 3).toNat = x.toNat % 4 := by
  change x.toNat &&& 2 ^ 2 - 1 = _
  rw [Nat.and_two_pow_sub_one_eq_mod]

theorem Cut.single_iff (cut : Cut lines) (dag : Nat → Word) :
    (cut.bindings dag).kSharedChunks = 1 ↔ cut.chunks = 1 := by
  have hc : cut.chunks ≤ 16 := cut.chunks_le
  rw [← BitVec.toNat_inj]
  simp only [Cut.bindings,BitVec.toNat_ofNat]
  rw [Nat.mod_eq_of_lt (by omega)]
  rfl

theorem Cut.piece_lt (cut : Cut lines) (dag : Nat → Word)
    (h : index.toNat < lines * kLineWords) :
    (index / (cut.bindings dag).kSharedChunkWords).toNat = index.toNat / cut.chunkWords ∧
      (index % (cut.bindings dag).kSharedChunkWords).toNat = index.toNat % cut.chunkWords ∧
      index.toNat / cut.chunkWords < cut.chunks := by
  have hr := cut.ranged
  have hw : (BitVec.ofNat 32 cut.chunkWords).toNat = cut.chunkWords := by
    rw [BitVec.toNat_ofNat,Nat.mod_eq_of_lt (by omega)]
  refine ⟨by rw [BitVec.toNat_udiv,Cut.bindings,hw],by rw [BitVec.toNat_umod,Cut.bindings,hw],?_⟩
  exact Nat.div_lt_of_lt_mul (Nat.lt_of_lt_of_le h (cut.holds.trans_eq (Nat.mul_comm _ _)))

theorem Cut.chainEnd_eq (cut : Cut lines) {piece : Word} (h : piece.toNat < cut.chunks) :
    chainEnd piece = piece.toNat := by
  have hc : cut.chunks ≤ 16 := cut.chunks_le
  exact Nat.min_eq_left (by omega)

theorem sharedWord_eq (cut : Cut lines) (h : index.toNat < lines * kLineWords) :
    sharedWord (cut.bindings dag) index = dag index.toNat := by
  unfold sharedWord
  by_cases h₁ : cut.chunks = 1
  · rw [if_pos ((cut.single_iff dag).mpr h₁),shift_2,and_3,
      quad_read cut cut.chunks_pos (Nat.mod_lt _ (by decide))]
    congr 1
    omega
  · obtain ⟨hd,hm,hl⟩ := cut.piece_lt dag h
    rw [if_neg (mt (cut.single_iff dag).mp h₁)]
    simp only []
    rw [cut.chainEnd_eq (by rwa [hd]),hd,shift_2,and_3,hm,
      quad_read cut hl (Nat.mod_lt _ (by decide))]
    congr 1
    have := Nat.div_add_mod index.toNat cut.chunkWords
    rw [Nat.mul_comm] at this
    omega

theorem sharedQuad_eq (cut : Cut lines) (h : index.toNat < lines * kLineWords)
    (h₄ : 4 ∣ index.toNat) (hi : i < 4) :
    (sharedQuad (cut.bindings dag) index).read i = dag (index.toNat + i) := by
  unfold sharedQuad
  by_cases h₁ : cut.chunks = 1
  · rw [if_pos ((cut.single_iff dag).mpr h₁),shift_2,quad_read cut cut.chunks_pos hi]
    congr 1
    omega
  · obtain ⟨hd,hm,hl⟩ := cut.piece_lt dag h
    have hq : 4 ∣ index.toNat % cut.chunkWords := (Nat.dvd_mod_iff cut.quads).mpr h₄
    rw [if_neg (mt (cut.single_iff dag).mp h₁)]
    simp only []
    rw [cut.chainEnd_eq (by rwa [hd]),hd,shift_2,hm,quad_read cut hl hi]
    congr 1
    have := Nat.div_add_mod index.toNat cut.chunkWords
    rw [Nat.mul_comm] at this
    omega

def wrapped (dag : Nat → Word) (k : Nat) : Word := dag (k % 2 ^ 32)

/-- Where a shader finds word `i` of the quarter `q` of a line. -/
def placeOf (line : Word) (q : Nat) : Word :=
  line * BitVec.ofNat 32 kLineWords + BitVec.ofNat 32 q * BitVec.ofNat 32 kDagLoads

theorem placeOf_toNat (line : Word) (q : Nat) :
    (placeOf line q).toNat = (line.toNat * kLineWords + q * kDagLoads) % 2 ^ 32 := by
  simp only [placeOf,kLineWords,kLanes,kDagLoads,BitVec.toNat_add,BitVec.toNat_mul,
    BitVec.toNat_ofNat]
  omega

theorem cached_lt (cut : Cut lines) (x : Word) :
    (x % BitVec.ofNat 32 kL1Words).toNat = x.toNat % kL1Words ∧
      x.toNat % kL1Words < lines * kLineWords := by
  have hc := cut.cached
  refine ⟨BitVec.toNat_umod,Nat.lt_of_lt_of_le (Nat.mod_lt _ (by decide)) ?_⟩
  exact Nat.mul_le_mul_right kLineWords hc

theorem sharedWord_cached (cut : Cut lines) (x : Word) :
    sharedWord (cut.bindings dag) (x % BitVec.ofNat 32 kL1Words) = dag (x.toNat % kL1Words) := by
  obtain ⟨he,hl⟩ := cached_lt cut x
  rw [sharedWord_eq cut (he ▸ hl),he]

variable {line : Word} {q : Nat}

theorem place_lt (hl : line.toNat < lines) (hq : q < kLanes) (hi : i < kDagLoads) :
    (line.toNat * kLineWords + (q * kDagLoads + i)) % 2 ^ 32 < lines * kLineWords := by
  have hm := Nat.mod_le (line.toNat * kLineWords + (q * kDagLoads + i)) (2 ^ 32)
  simp only [kLineWords,kLanes,kDagLoads] at *
  omega

theorem sharedWord_place (cut : Cut lines) (hl : line.toNat < lines) (hq : q < kLanes)
    (hi : i < kDagLoads) :
    sharedWord (cut.bindings dag) (placeOf line q + BitVec.ofNat 32 i) =
      (lineOf (wrapped dag) line.toNat).read (q * kDagLoads + i) := by
  have he : (placeOf line q + BitVec.ofNat 32 i).toNat =
      (line.toNat * kLineWords + (q * kDagLoads + i)) % 2 ^ 32 := by
    simp only [BitVec.toNat_add,placeOf_toNat,BitVec.toNat_ofNat]
    omega
  have hr : q * kDagLoads + i < kLineWords := by
    simp only [kLineWords,kLanes,kDagLoads] at *
    omega
  rw [sharedWord_eq cut (he ▸ place_lt hl hq hi),he,lineOf,Words.read_ofFn _ hr]
  rfl

theorem sharedQuad_place (cut : Cut lines) (hl : line.toNat < lines) (hq : q < kLanes)
    (hi : i < kDagLoads) :
    (sharedQuad (cut.bindings dag) (placeOf line q)).read i =
      (lineOf (wrapped dag) line.toNat).read (q * kDagLoads + i) := by
  have he := placeOf_toNat line q
  have h₀ := place_lt (i := 0) hl hq (by decide)
  have h₄ : 4 ∣ (placeOf line q).toNat := by
    rw [he]
    simp only [kLineWords,kLanes,kDagLoads]
    omega
  have hr : q * kDagLoads + i < kLineWords := by
    simp only [kLineWords,kLanes,kDagLoads] at *
    omega
  rw [sharedQuad_eq cut (he ▸ h₀) h₄ hi,he,lineOf,Words.read_ofFn _ hr,wrapped]
  congr 1
  simp only [kLineWords,kLanes,kDagLoads] at *
  omega

end VkMiner.Progpow
