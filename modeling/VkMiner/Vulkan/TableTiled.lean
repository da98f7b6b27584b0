import VkMiner.Vulkan.TablePieces
set_option autoImplicit false

/-! The pieces of a table tile it, an upload and a setup pass write every word of them once, and a
shader finds each word that 32 bits can count. -/

namespace VkMiner.Vulkan.Pieced
open Progpow Pieces

variable {info : DeviceInfo} {spec : KernelSpec} {bytes chunk count : Nat} {pieces : List Nat}

/-! ### The buffers -/

theorem createFrom_tiles (hc : 0 < chunk) (hw : bytes+chunk ≤ wide) {fuel first : Nat}
    (hf : bytes-first < fuel) :
    ∃ pieces,createFrom bytes chunk fuel first = some pieces ∧ Tiles chunk (bytes-first) pieces := by
  induction fuel generalizing first with
  | zero => omega
  | succ fuel ih =>
    rw [createFrom]
    split
    · next hlt =>
      have hm : (first+chunk)%wide = first+chunk := Nat.mod_eq_of_lt (by omega)
      rw [hm]
      obtain ⟨pieces,hp,ht⟩ := @ih (first+chunk) (by omega)
      rw [hp]
      refine ⟨_,rfl,?_⟩
      rw [Nat.sub_add_eq] at ht
      exact ht.cons (by omega)
    · refine ⟨[],rfl,?_⟩
      rw [show bytes-first = 0 by omega]
      exact .nil

theorem tiles_length (h : Tiles chunk bytes pieces) (hc : 0 < chunk) :
    pieces.length = (bytes+chunk-1)/chunk := by
  have hp : ∀ p,p < pieces.length ↔ p*chunk < bytes := by
    intro p
    constructor
    · intro hp
      exact ((h.sizes p pieces[p]).mp (List.getElem?_eq_getElem hp)).1
    · intro hp
      have hs := (h.sizes p _).mpr ⟨hp,rfl⟩
      exact (List.getElem?_eq_some_iff.mp hs).1
  have hd : ∀ p,p < (bytes+chunk-1)/chunk ↔ p*chunk < bytes := by
    intro p
    have hm : (p+1)*chunk = p*chunk+chunk := Nat.succ_mul p chunk
    rw [Nat.lt_iff_add_one_le,Nat.le_div_iff_mul_le hc,hm]
    omega
  have h₁ := (hp pieces.length).trans (hd pieces.length).symm
  have h₂ := (hp ((bytes+chunk-1)/chunk)).trans (hd _).symm
  omega

structure Planning (info : DeviceInfo) (spec : KernelSpec) (bytes chunk count : Nat) : Prop where
  bytes_pos : 0 < bytes
  chunk_pos : 0 < chunk
  bytes_quads : bytes%16 = 0
  chunk_quads : chunk%16 = 0
  chunk_le : chunk ≤ bytes
  limits : chunk ≤ limited info.maxBindingRange (limited info.maxAllocation bytes)
  count_eq : count = piecesOf bytes chunk
  declared : count ≤ orElse spec.sharedChunks 1
  most : orElse spec.sharedChunks 1 ≤ 16

theorem floorPow2_le {n : Nat} (h : 0 < n) (hn : n < wide) : floorPow2 n ≤ n := by
  obtain ⟨k,he,hk,-⟩ := floorPow2_spec h hn
  rwa [he]

theorem planning (hb : bytes < wide) (h : plan info spec bytes = .ok (chunk,count)) :
    Planning info spec bytes chunk count := by
  have hpos : 0 < bytes := by
    refine Nat.pos_of_ne_zero fun h0 => ?_
    subst h0
    have hl : limited info.maxBindingRange (limited info.maxAllocation 0) = 0 :=
      Nat.le_zero.mp ((limited_le _ _).trans (limited_le _ _))
    rw [plan,if_pos hl] at h
    cases h
  have hc : chunkOf info spec bytes ≤ pieceLimit info spec bytes := by
    have hle : pieceLimit info spec bytes ≤ bytes := pieceLimit_le
    rw [chunkOf]
    split
    · exact floorPow2_le (pieceLimit_pos hpos) (by omega)
    · omega
  obtain ⟨hp,he⟩ | ⟨-,he⟩ | ⟨-,-,he⟩ | ⟨-,-,-,he⟩ := plan_cases info spec hpos
  · obtain ⟨rfl,rfl⟩ : chunkOf info spec bytes = chunk ∧ _ = count := by simpa [he] using h
    exact ⟨hpos,chunkOf_pos hpos hb,hp.whole,hp.chunk,hc.trans pieceLimit_le,
      hc.trans (Nat.min_le_right _ _),rfl,hp.pieces,hp.bindings⟩
  all_goals
    rw [h] at he
    cases he

/-! ### Uploads -/

theorem range'_split {a m n : Nat} (h : m ≤ n) :
    List.range' a n = List.range' a m ++ List.range' (a+m) (n-m) := by
  rw [List.range'_append_1,Nat.add_sub_cancel' h]

theorem copy_writes {words p w o span : Nat} (hs : span%4 = 0) (ho : o*4 = p*(words*4)+w*4)
    (hin : w*4+span ≤ words*4) :
    (⟨p,w*4,o*4,span⟩ : Copy).writes = (List.range' o (span/4)).map (locate words) := by
  rw [Copy.writes,List.range'_eq_map_range,List.map_map]
  refine List.map_congr_left fun j hj => ?_
  have hj : j < span/4 := List.mem_range.mp hj
  have ho : o = p*words+w := by
    rw [← Nat.mul_assoc] at ho
    omega
  have hk : w+j < words := by omega
  obtain ⟨hd,hm⟩ := div_mod_at (p := p) hk
  simp only [locate,Function.comp_apply,Nat.mul_div_cancel _ (by omega : 0 < 4),ho,Nat.add_assoc,
    hd,hm]

theorem uploadFrom_writes {words total : Nat} {dst : List Nat} (hd : Tiles (words*4) total dst)
    (hw : 0 < words) (h4 : total%4 = 0) {fuel o piece within : Nat}
    (hf : total-o*4 < fuel) (ho : o*4 = piece*(words*4)+within*4)
    (hin : o*4 < total → within ≤ words) :
    ∃ copies,uploadFrom dst total fuel (o*4) piece (within*4) = some copies ∧
      (∀ c ∈ copies,c.within%4 = 0 ∧ c.offset%4 = 0 ∧ c.span%4 = 0) ∧
      copies.flatMap Copy.writes =
        (List.range' o ((total-o*4)/4)).map (locate words) := by
  induction fuel generalizing o piece within with
  | zero => omega
  | succ fuel ih =>
    rw [uploadFrom]
    by_cases hlt : o*4 < total
    · have hwithin := hin hlt
      -- a full piece is not the last one, as there is more to copy
      obtain ⟨p,w,hcur,hpw,hwlt⟩ : ∃ p w,cursor dst piece (within*4) = (p,w*4) ∧
          o*4 = p*(words*4)+w*4 ∧ w < words := by
        unfold cursor
        split
        · next hfull =>
          obtain ⟨-,hs⟩ := (hd.sizes _ _).mp hfull
          have hm : (piece+1)*(words*4) = piece*(words*4)+words*4 := Nat.succ_mul _ _
          exact ⟨piece+1,0,by simp,by omega,hw⟩
        · next hfull =>
          refine ⟨piece,within,rfl,ho,Nat.lt_of_le_of_ne hwithin ?_⟩
          rintro rfl
          exact hfull ((hd.sizes _ _).mpr ⟨by omega,by omega⟩)
      have hsize := (hd.sizes p _).mpr ⟨by omega,rfl⟩
      rw [if_pos hlt,hcur]
      simp only [hsize]
      generalize hspan : Nat.min (Nat.min (Nat.min total kStagingBytes)
        (min (total-p*(words*4)) (words*4)-w*4)) (total-o*4) = span
      have hspan' : min (min (min total 8388608) (min (total-p*(words*4)) (words*4)-w*4))
        (total-o*4) = span := hspan
      have hpos : 0 < span := by omega
      have hquads : span%4 = 0 := by omega
      have hle : span ≤ total-o*4 := by omega
      have hfit : w*4+span ≤ words*4 := by omega
      clear hspan hspan'
      obtain ⟨k,rfl⟩ := Nat.dvd_of_mod_eq_zero hquads
      obtain ⟨copies,hc,hal,hwr⟩ := @ih (o+k) p (w+k) (by omega)
        (by omega) (by omega)
      rw [show o*4+4*k = (o+k)*4 by omega,show w*4+4*k = (w+k)*4 by omega,hc]
      refine ⟨_,rfl,?_,?_⟩
      · intro c hcm
        rcases List.mem_cons.mp hcm with rfl | hcm
        · exact ⟨by simp,by simp,hquads⟩
        · exact hal c hcm
      · rw [List.flatMap_cons,hwr,copy_writes hquads hpw hfit,← List.map_append,
          range'_split (m := 4*k/4) (n := (total-o*4)/4) (by omega)]
        congr 3
        · omega
        · omega
    · rw [if_neg hlt]
      refine ⟨[],rfl,by simp,?_⟩
      rw [show (total-o*4)/4 = 0 by omega]
      rfl

/-! ### Setup passes -/

theorem sliceAt_pos (wants : Nat → Nat) (turn : Nat) :
    0 < sliceAt wants turn ∧ sliceAt wants turn ≤ kMaxSlice := by
  cases turn with
  | zero => exact ⟨Nat.zero_lt_succ 1023,by simp [sliceAt,kFirstSlice,kMaxSlice]⟩
  | succ turn =>
    have hm : 1 ≤ Nat.max (Nat.min (wants turn) (sliceAt wants turn*4)) 1 := Nat.le_max_right _ _
    exact ⟨Nat.lt_min.mpr ⟨hm,by decide⟩,Nat.min_le_right _ _⟩

theorem setupWidth_pos (info : DeviceInfo) : 0 < setupWidth info :=
  limited_pos (limited_pos (by decide))

/-- What is known of every slice of a setup pass. -/
structure Fits (items perChunk width : Nat) (s : Slice) : Prop where
  first_eq : s.first = s.piece*perChunk+s.place
  pos : 0 < s.count
  inside : s.place+s.count ≤ perChunk
  upto : s.first+s.count ≤ items
  groups : s.groups = (s.count+width-1)/width

theorem generateFrom_slices {items perChunk : Nat} {slices : Nat → Nat} (width : Nat)
    (hp : 0 < perChunk) (hs : ∀ turn,0 < slices turn) {fuel : Nat} (turn : Nat) {first : Nat}
    (hf : items-first < fuel) :
    ∃ ds,generateFrom items perChunk width slices fuel turn first = some ds ∧
      (∀ s ∈ ds,Fits items perChunk width s) ∧
      (ds.flatMap fun s => List.range' s.first s.count) = List.range' first (items-first) := by
  induction fuel generalizing turn first with
  | zero => omega
  | succ fuel ih =>
    rw [generateFrom]
    by_cases hlt : first < items
    · rw [if_pos hlt]
      have hd := Nat.div_add_mod first perChunk
      have hm := Nat.mod_lt first hp
      rw [Nat.mul_comm] at hd
      have hpos := hs turn
      simp only []
      generalize hcount : Nat.min (Nat.min (items-first) (perChunk-(first-first/perChunk*perChunk)))
        (slices turn) = count
      have hcount' : min (min (items-first) (perChunk-(first-first/perChunk*perChunk)))
        (slices turn) = count := hcount
      obtain ⟨ds,he,hfit,hall⟩ := @ih (turn+1) (first+count) (by omega)
      rw [he]
      refine ⟨_,rfl,fun s hs => ?_,?_⟩
      · rcases List.mem_cons.mp hs with rfl | hs
        · exact ⟨by simp only []; omega,by simp only []; omega,by simp only []; omega,
            by simp only []; omega,rfl⟩
        · exact hfit s hs
      · rw [List.flatMap_cons,hall,range'_split (m := count) (n := items-first) (by omega),
          Nat.sub_add_eq]
    · rw [if_neg hlt]
      refine ⟨[],rfl,by simp,?_⟩
      rw [show items-first = 0 by omega]
      rfl

def itemWords (index : Nat) : List Nat := List.range' (index*kItemWords) kItemWords

theorem itemWords_run (first count : Nat) :
    (List.range' first count).flatMap itemWords =
      List.range' (first*kItemWords) (count*kItemWords) := by
  induction count generalizing first with
  | zero => simp
  | succ count ih =>
    rw [List.range'_succ,List.flatMap_cons,ih,itemWords,Nat.succ_mul,Nat.succ_mul,Nat.add_comm
      (count*kItemWords),← List.range'_append_1]

variable {items perChunk width : Nat} {s : Slice}

theorem Fits.itemWrites (h : Fits items perChunk width s) (hn : items ≤ narrow)
    (hpn : perChunk*kItemWords ≤ narrow) {i : Nat} (hi : i < s.count) :
    itemWrites s i = (itemWords (s.first+i)).map (locate (perChunk*kItemWords)) := by
  have hkw : kItemWords = 16 := rfl
  have hnar : narrow = 4294967296 := rfl
  obtain ⟨hfirst,-,hin,hupto,-⟩ := h
  rw [hnar] at hn
  rw [hkw,hnar] at hpn
  rw [Pieced.itemWrites,if_neg (Nat.not_le.mpr hi),itemWords,List.range'_eq_map_range,List.map_map]
  simp only []
  refine List.map_congr_left fun j hj => ?_
  have hj : j < 16 := List.mem_range.mp hj
  have he : (s.first+i)*16+j = s.piece*(perChunk*16)+((s.place+i)*16+j) := by
    rw [← Nat.mul_assoc]
    omega
  have hk : (s.place+i)*16+j < perChunk*16 := by omega
  obtain ⟨hd,hm⟩ := div_mod_at (p := s.piece) hk
  have hplace : ((s.place%4294967296+i)%4294967296*16+j)%4294967296 = (s.place+i)*16+j := by omega
  have hsource : (s.first%4294967296+i)%4294967296*16+j = (s.first+i)*16+j := by omega
  simp only [locate,Function.comp_apply,hkw,hnar,hplace,hsource]
  rw [he,hd,hm]

theorem Fits.padded (h : Fits items perChunk width s) (hw : 0 < width) :
    s.count ≤ s.groups*width := by
  have hd := Nat.div_add_mod (s.count+width-1) width
  have hm := Nat.mod_lt (s.count+width-1) hw
  rw [Nat.mul_comm] at hd
  rw [h.groups]
  omega

theorem Fits.writes (h : Fits items perChunk width s) (hw : 0 < width) (hn : items ≤ narrow)
    (hpn : perChunk*kItemWords ≤ narrow) :
    s.writes width = ((List.range' s.first s.count).flatMap itemWords).map
      (locate (perChunk*kItemWords)) := by
  obtain ⟨rest,hrest⟩ := Nat.exists_eq_add_of_le (h.padded hw)
  have hidle : ((List.range rest).flatMap fun i => Pieced.itemWrites s (s.count+i)) = [] := by
    refine List.flatMap_eq_nil_iff.mpr fun i _ => ?_
    rw [Pieced.itemWrites,if_pos (Nat.le_add_right s.count i)]
  rw [Slice.writes,hrest,List.range_add,List.flatMap_append,List.flatMap_map,hidle,List.append_nil,
    List.range'_eq_map_range,List.flatMap_map,List.map_flatMap]
  exact List.flatMap_congr fun i hi => h.itemWrites hn hpn (List.mem_range.mp hi)

theorem run_writes {ds : List Slice} {first n : Nat} (hw : 0 < width) (hn : items ≤ narrow)
    (hpn : perChunk*kItemWords ≤ narrow) (hfit : ∀ s ∈ ds,Fits items perChunk width s)
    (hall : (ds.flatMap fun s => List.range' s.first s.count) = List.range' first n) :
    ds.flatMap (Slice.writes width) =
      (List.range' (first*kItemWords) (n*kItemWords)).map (locate (perChunk*kItemWords)) := by
  rw [List.flatMap_congr fun s hs => (hfit s hs).writes hw hn hpn,← List.map_flatMap,
    ← List.flatMap_assoc,hall,itemWords_run]

theorem itemsPerPiece_words {items n perChunk : Nat} (hb : 0 < bytes) (hi : items*64 = bytes)
    (hn : n ≤ 1 → chunk = bytes) (h : itemsPerPiece bytes chunk n items = some perChunk) :
    perChunk*64 = chunk := by
  unfold itemsPerPiece at h
  split at h
  · next hle =>
    cases h
    rw [hn hle,hi]
  · have hdiv : bytes/items = 64 := by
      rw [← hi]
      exact Nat.mul_div_cancel_left 64 (by omega)
    simp only [if_neg (show items ≠ 0 by omega),hdiv] at h
    split at h
    · cases h
    · next hno =>
      cases h
      omega

/-! ### Reads -/

theorem sum_words {l : List Nat} (h : ∀ x ∈ l,x%4 = 0) : (l.map (·/4)).sum*4 = l.sum := by
  induction l with
  | nil => rfl
  | cons x l ih =>
    have hx := h x (by simp)
    have ih := ih fun y hy => h y (by simp [hy])
    simp only [List.map_cons,List.sum_cons]
    omega

theorem tiles_words {words total : Nat} (h : Tiles (words*4) (total*4) pieces) :
    Tiles words total (pieces.map (·/4)) where
  sizes p s := by
    rw [List.getElem?_map,Option.map_eq_some_iff]
    have hm : p*(words*4) = p*words*4 := (Nat.mul_assoc p words 4).symm
    constructor
    · rintro ⟨s,hs,rfl⟩
      obtain ⟨hlt,rfl⟩ := (h.sizes p s).mp hs
      exact ⟨by omega,by omega⟩
    · rintro ⟨hlt,rfl⟩
      exact ⟨_,(h.sizes p _).mpr ⟨by omega,rfl⟩,by omega⟩
  before p := by
    have hm : p*(words*4) = p*words*4 := (Nat.mul_assoc p words 4).symm
    have hs := sum_words (l := pieces.take p) fun x hx => by
      obtain ⟨q,hq⟩ := List.getElem?_of_mem (List.mem_of_mem_take hx)
      obtain ⟨-,rfl⟩ := (h.sizes q x).mp hq
      have hm : q*(words*4) = q*words*4 := (Nat.mul_assoc q words 4).symm
      omega
    rw [h.before,List.map_take] at hs
    omega

variable {declared : Nat} {writes : List Write} {words total : Nat}

theorem quad_stored (ht : Tiles words total (pieces.map (·/4)))
    (ho : Once words (pieces.map (·/4)) writes) (hd : pieces.length ≤ declared)
    (table : Nat → Word) {p q i : Nat} (hi : i < 4) (hin : q*4+i < words)
    (hlt : p*words+(q*4+i) < total) :
    ((bindings declared chunk pieces writes table).quad p q).read i = table (p*words+(q*4+i)) := by
  have hs := (ht.sizes p _).mpr ⟨by omega,rfl⟩
  have hp : p < pieces.length := by
    simpa using (List.getElem?_eq_some_iff.mp hs).1
  have hm : Nat.min p (pieces.length-1) = p := Nat.min_eq_left (by omega)
  simp only [bindings]
  rw [Words.read_ofFn _ hi]
  simp only [if_pos (Nat.lt_of_lt_of_le hp hd),hm]
  rw [ho.stored table hs (by omega),Option.getD_some]

variable (declared writes) in
theorem split_index (ht : Tiles words total (pieces.map (·/4)))
    (hn : pieces.length ≤ 16) (hlen : pieces.length = 1 → words = total)
    (hmany : pieces.length ≠ 1 → words < 2^32) (table : Nat → Word) {index : Word}
    (hx : index.toNat < total) :
    ((bindings declared (words*4) pieces writes table).kSharedChunks = 1 ∧
      index.toNat < words) ∨
    ((bindings declared (words*4) pieces writes table).kSharedChunks ≠ 1 ∧
      chainEnd (index / (bindings declared (words*4) pieces writes table).kSharedChunkWords) =
        index.toNat/words ∧
      (index % (bindings declared (words*4) pieces writes table).kSharedChunkWords).toNat =
        index.toNat%words) := by
  have hone : (bindings declared (words*4) pieces writes table).kSharedChunks = 1 ↔
      pieces.length = 1 := by
    rw [← BitVec.toNat_inj]
    simp only [bindings,BitVec.toNat_ofNat]
    rw [Nat.mod_eq_of_lt (by omega)]
    rfl
  by_cases h : pieces.length = 1
  · exact .inl ⟨hone.mpr h,by rwa [hlen h]⟩
  · right
    have hc : (BitVec.ofNat 32 (words*4/4)).toNat = words := by
      rw [Nat.mul_div_cancel _ (by omega),BitVec.toNat_ofNat,Nat.mod_eq_of_lt (hmany h)]
    have hs := (ht.sizes (index.toNat/words) _).mpr
      ⟨Nat.lt_of_le_of_lt (Nat.div_mul_le_self _ _) hx,rfl⟩
    have hp : index.toNat/words < pieces.length := by
      simpa using (List.getElem?_eq_some_iff.mp hs).1
    refine ⟨fun h1 => h (hone.mp h1),?_,?_⟩
    · rw [chainEnd,BitVec.toNat_udiv,bindings,hc]
      exact Nat.min_eq_left (by omega)
    · rw [BitVec.toNat_umod,bindings,hc]

theorem sharedWord_stored (ht : Tiles words total (pieces.map (·/4))) (hw : 0 < words)
    (ho : Once words (pieces.map (·/4)) writes) (hd : pieces.length ≤ declared)
    (hn : pieces.length ≤ 16) (hlen : pieces.length = 1 → words = total)
    (hmany : pieces.length ≠ 1 → words < 2^32) (hq : words%4 = 0) (table : Nat → Word)
    {index : Word} (hx : index.toNat < total) :
    sharedWord (bindings declared (words*4) pieces writes table) index = table index.toNat := by
  have hdm := Nat.div_add_mod index.toNat words
  have hmlt := Nat.mod_lt index.toNat hw
  rw [Nat.mul_comm] at hdm
  unfold sharedWord
  obtain ⟨h1,hlt⟩ | ⟨h1,hp,hm⟩ := split_index declared writes ht hn hlen
    hmany table hx
  · rw [if_pos h1,shift_2,and_3,quad_stored ht ho hd table (Nat.mod_lt _ (by decide)) (by omega)
      (by omega)]
    congr 1
    omega
  · rw [if_neg h1]
    simp only []
    rw [hp,shift_2,and_3,hm,quad_stored ht ho hd table (Nat.mod_lt _ (by decide)) (by omega)
      (by omega)]
    congr 1
    omega

theorem sharedQuad_stored (ht : Tiles words total (pieces.map (·/4))) (hw : 0 < words)
    (ho : Once words (pieces.map (·/4)) writes) (hd : pieces.length ≤ declared)
    (hn : pieces.length ≤ 16) (hlen : pieces.length = 1 → words = total)
    (hmany : pieces.length ≠ 1 → words < 2^32) (hq : words%4 = 0) (hqt : total%4 = 0)
    (table : Nat → Word) {index : Word} {j : Nat} (hx : index.toNat < total)
    (h4 : index.toNat%4 = 0) (hj : j < 4) :
    (sharedQuad (bindings declared (words*4) pieces writes table) index).read j =
      table (index.toNat+j) := by
  have hdm := Nat.div_add_mod index.toNat words
  have hmlt := Nat.mod_lt index.toNat hw
  rw [Nat.mul_comm] at hdm
  have hmq : 4 ∣ index.toNat%words := (Nat.dvd_mod_iff (Nat.dvd_of_mod_eq_zero hq)).mpr
    (Nat.dvd_of_mod_eq_zero h4)
  unfold sharedQuad
  obtain ⟨h1,hlt⟩ | ⟨h1,hp,hm⟩ := split_index declared writes ht hn hlen
    hmany table hx
  · rw [if_pos h1,shift_2,quad_stored ht ho hd table hj (by omega) (by omega)]
    congr 1
    omega
  · rw [if_neg h1]
    simp only []
    rw [hp,shift_2,hm,quad_stored ht ho hd table hj (by omega) (by omega)]
    congr 1
    omega

/-! ### The whole table -/

/-- What is asked of a table that is cut into pieces. The words of it are `bytes/4`. -/
structure Whole (info : DeviceInfo) (spec : KernelSpec) (bytes chunk count : Nat)
    (pieces : List Nat) : Prop where
  created : ∃ fuel,createFrom bytes chunk fuel 0 = some pieces
  counted : pieces.length = count
  tiled : Tiles chunk bytes pieces ∧ pieces.sum = bytes
  sized : ∀ s ∈ pieces,0 < s ∧ s%16 = 0 ∧ (info.maxAllocation ≠ 0 → s ≤ info.maxAllocation) ∧
    (info.maxBindingRange ≠ 0 → s ≤ info.maxBindingRange)
  uploaded : ∃ fuel copies,uploadFrom pieces bytes fuel 0 0 0 = some copies ∧
    (∀ c ∈ copies,c.within%4 = 0 ∧ c.offset%4 = 0 ∧ c.span%4 = 0) ∧
    Once (chunk/4) (pieces.map (·/4)) (copies.flatMap Copy.writes)
  generated : ∀ items wants perChunk,items*64 = bytes →
    itemsPerPiece bytes chunk pieces.length items = some perChunk →
    ∃ fuel slices,
      generateFrom items perChunk (setupWidth info) (sliceAt wants) fuel 0 0 = some slices ∧
      Once (chunk/4) (pieces.map (·/4)) (slices.flatMap (Slice.writes (setupWidth info)))
  words : ∀ writes table i,Once (chunk/4) (pieces.map (·/4)) writes → i < bytes/4 →
    sharedWord (bindings (orElse spec.sharedChunks 1) chunk pieces writes table)
      (BitVec.ofNat 32 i) = table i
  quads : ∀ writes table i j,Once (chunk/4) (pieces.map (·/4)) writes → i < bytes/4 → i%4 = 0 →
    j < 4 → (sharedQuad (bindings (orElse spec.sharedChunks 1) chunk pieces writes table)
      (BitVec.ofNat 32 i)).read j = table (i+j)

theorem limited_limit {l n : Nat} (hl : l ≠ 0) : limited l n ≤ l := by
  rw [limited]
  split <;> omega

theorem whole_of_le (hb : bytes < wide) (h : plan info spec bytes = .ok (chunk,count))
    (hle : bytes ≤ 2^34) : ∃ pieces,Whole info spec bytes chunk count pieces := by
  obtain ⟨hpos,hcp,hbq,hcq,hcb,hlim,rfl,hdecl,hmost⟩ := planning hb h
  have hwide : wide = 18446744073709551616 := rfl
  obtain ⟨pieces,hc,ht⟩ := createFrom_tiles hcp (by omega : bytes+chunk ≤ wide)
    (show bytes-0 < bytes+1 by omega)
  obtain ⟨total,rfl⟩ : ∃ total,bytes = total*4 := ⟨bytes/4,by omega⟩
  obtain ⟨words,rfl⟩ : ∃ words,chunk = words*4 := ⟨chunk/4,by omega⟩
  rw [Nat.sub_zero] at ht
  have hcount : pieces.length = piecesOf (total*4) (words*4) := by
    rw [piecesOf,Nat.mod_eq_of_lt (by omega)]
    exact tiles_length ht hcp
  have hw4 : words*4/4 = words := Nat.mul_div_cancel _ (by omega)
  have ht4 : total*4/4 = total := Nat.mul_div_cancel _ (by omega)
  have htw := tiles_words ht
  have hlen : pieces.length = 1 → words = total := by
    intro hone
    have hs := ht.before 1
    rw [List.take_of_length_le (by omega),ht.sum hcp] at hs
    omega
  have hmany : pieces.length ≠ 1 → words < 2^32 := by
    intro hne
    by_contra hge
    have hone : (total*4+words*4-1)/(words*4) = 1 := by
      rw [Nat.div_eq_iff (by omega)]
      omega
    exact hne ((tiles_length ht hcp).trans hone)
  have honce : Once words (pieces.map (·/4)) ((List.range total).map (locate words)) :=
    htw.once (by omega)
  refine ⟨pieces,⟨_,hc⟩,hcount,⟨ht,ht.sum hcp⟩,?_,?_,?_,?_,?_⟩
  · intro s hs
    obtain ⟨p,hp⟩ := List.getElem?_of_mem hs
    obtain ⟨hlt,rfl⟩ := (ht.sizes p s).mp hp
    have hm : p*(words*4) = p*(words/4)*16 := by
      rw [Nat.mul_assoc]
      congr 1
      omega
    refine ⟨by omega,by omega,?_,?_⟩
    · intro hl
      have := (hlim.trans (limited_le _ _)).trans (limited_limit (n := total*4) hl)
      omega
    · intro hl
      have := hlim.trans (limited_limit (n := limited info.maxAllocation (total*4)) hl)
      omega
  · have hstart : 0*4 = 0*(words*4)+0*4 := by omega
    obtain ⟨copies,he,hal,hwr⟩ := uploadFrom_writes ht (by omega) (by omega)
      (show total*4-0*4 < total*4+1 by omega) hstart (by omega)
    refine ⟨_,copies,he,hal,?_⟩
    rw [hwr,hw4,Nat.zero_mul,Nat.sub_zero,ht4,← List.range_eq_range']
    exact honce
  · intro items wants perChunk hi hper
    have hpc := itemsPerPiece_words hpos hi (fun hn => by
      have h1 : pieces.length = 1 := by
        have hs := ht.sum hcp
        have h0 : pieces.length ≠ 0 := fun h0 => by
          rw [List.length_eq_zero_iff.mp h0] at hs
          simp at hs
          omega
        omega
      rw [hlen h1]) hper
    have hkw : kItemWords = 16 := rfl
    have hper0 : 0 < perChunk := by omega
    have hnar : narrow = 4294967296 := rfl
    obtain ⟨ds,he,hfit,hall⟩ := generateFrom_slices (setupWidth info) hper0
      (fun turn => (sliceAt_pos wants turn).1) 0 (Nat.lt_succ_self (items-0))
    have hwr := run_writes (setupWidth_pos info) (show items ≤ narrow by omega)
      (show perChunk*16 ≤ narrow by omega) hfit hall
    refine ⟨_,ds,he,?_⟩
    rw [hwr,hw4,hkw,show perChunk*16 = words by omega,Nat.zero_mul,Nat.sub_zero,
      show items*16 = total by omega,← List.range_eq_range']
    exact honce
  · intro writes table i ho hi
    rw [hw4] at ho
    have hix : (BitVec.ofNat 32 i).toNat = i := by
      rw [BitVec.toNat_ofNat,Nat.mod_eq_of_lt (by omega)]
    have hshort : pieces.length ≤ orElse spec.sharedChunks 1 := by omega
    have hin : (BitVec.ofNat 32 i).toNat < total := by omega
    have hread := sharedWord_stored htw (by omega) ho hshort (by omega) hlen hmany (by omega)
      table hin
    rwa [hix] at hread
  · intro writes table i j ho hi h4 hj
    rw [hw4] at ho
    have hix : (BitVec.ofNat 32 i).toNat = i := by
      rw [BitVec.toNat_ofNat,Nat.mod_eq_of_lt (by omega)]
    have hshort : pieces.length ≤ orElse spec.sharedChunks 1 := by omega
    have hin : (BitVec.ofNat 32 i).toNat < total := by omega
    have hread := sharedQuad_stored htw (by omega) ho hshort (by omega) hlen hmany (by omega)
      (by omega) table hin (by omega) hj
    rwa [hix] at hread

theorem Whole.le (hw : Whole info spec bytes chunk count pieces) (hq : bytes%16 = 0) :
    bytes ≤ 2^34 := by
  by_contra hgt
  obtain ⟨-,copies,-,-,ho⟩ := hw.uploaded
  have h₀ := hw.words _ (fun i => if i = 0 then 1 else 0) 0 ho (by omega)
  have h₁ := hw.words _ (fun i => if i = 0 then 1 else 0) (2^32) ho (by omega)
  have hz : BitVec.ofNat 32 (2^32) = BitVec.ofNat 32 0 := by decide
  rw [hz,h₀] at h₁
  revert h₁
  decide

/-- A table that `plan` accepts is served whole when its words can be counted in 32 bits. -/
theorem whole_iff (hb : bytes < wide) (h : plan info spec bytes = .ok (chunk,count)) :
    (∃ pieces,Whole info spec bytes chunk count pieces) ↔ bytes ≤ 2^34 := by
  constructor
  · rintro ⟨pieces,hw⟩
    exact hw.le (planning hb h).bytes_quads
  · exact whole_of_le hb h

/-- A device whose bindings reach as far as 32 bits count, and a shader with all the bindings. -/
def wideDevice : DeviceInfo :=
  ⟨34359738368,.discreteGpu,32,1024,1024,65535,4294967292,4294967295⟩

def manyPieces : KernelSpec :=
  ⟨true,false,17,104,0,0,16,false,0,0,0,16,0,0,0,0,1⟩

/-- Six gigabytes in three pieces. -/
theorem whole_three : (∃ pieces,Whole wideDevice manyPieces 6442450944 2147483648 3 pieces) ↔
    6442450944 ≤ 2^34 :=
  whole_iff (by decide) (by decide +kernel)

/-- Eighteen gigabytes in nine: the words from 2^32 on have no index. -/
theorem not_always_whole : ¬∀ (info : DeviceInfo) (spec : KernelSpec) (bytes chunk count : Nat),
    bytes < wide → plan info spec bytes = .ok (chunk,count) →
      ∃ pieces,Whole info spec bytes chunk count pieces := by
  intro h
  have hp : plan wideDevice manyPieces 19327352832 = .ok (2147483648,9) := by decide +kernel
  obtain ⟨pieces,hw⟩ := h wideDevice manyPieces 19327352832 2147483648 9 (by decide) hp
  have hle := hw.le (by decide)
  omega

end VkMiner.Vulkan.Pieced
