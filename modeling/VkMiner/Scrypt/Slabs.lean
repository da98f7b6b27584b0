import VkMiner.Scrypt.Agreement
import VkMiner.Vulkan.Scratch
set_option autoImplicit false

/-! The invocations of a scrypt dispatch, each in its own part of the buffer that they share. -/

namespace VkMiner.Scrypt
open Loops Glsl
open Progpow (Candidate)
open Sha256d (Word)

variable {n : Nat} {index : Word} {B : Blocks} {scratch : Cells Quad n} {s : Invocation}

/-! ### Places -/

/-- The part of an invocation is inside the buffer, and its number is small enough. -/
structure Owns (n : Nat) (index : Word) : Prop where
  small : index.toNat < 131072
  room : (index.toNat + 1)*8192 ≤ n

theorem Owns.product (h : Owns n index) :
    (index * kScratchWords).toNat = index.toNat*kScratchWords.toNat := by
  have := h.small
  have hwords : kScratchWords.toNat = 32768 := by decide
  rw [BitVec.toNat_mul,hwords,Nat.mod_eq_of_lt (by omega)]

theorem Owns.place (h : Owns n index) {i : Word} (hi : i < kN) :
    (index * kScratchWords + i * kBlockWords).toNat =
      index.toNat*kScratchWords.toNat + i.toNat*kBlockWords.toNat := by
  have := h.small
  have hi : i.toNat < 1024 := BitVec.lt_def.mp hi
  have hwords : kScratchWords.toNat = 32768 := by decide
  have hblock : kBlockWords.toNat = 32 := by decide
  rw [BitVec.toNat_add,BitVec.toNat_mul i,h.product,hwords,hblock,Nat.mod_eq_of_lt (by omega),
    Nat.mod_eq_of_lt (by omega)]

theorem Owns.quad (h : Owns n index) {i : Word} (hi : i < kN) :
    (quadOf (index * kScratchWords) i).toNat = index.toNat*8192 + i.toNat*8 := by
  have hwords : kScratchWords.toNat = 32768 := by decide
  have hblock : kBlockWords.toNat = 32 := by decide
  rw [quadOf,BitVec.toNat_ushiftRight,h.place hi,hwords,hblock,Nat.shiftRight_eq_div_pow]
  omega

theorem ofNat_lt_kN {i : Nat} (hi : i < 1024) : BitVec.ofNat 32 i < kN ∧
    (BitVec.ofNat 32 i).toNat = i := by
  have hval : (BitVec.ofNat 32 i).toNat = i := by
    rw [BitVec.toNat_ofNat,Nat.mod_eq_of_lt (by omega)]
  refine ⟨BitVec.lt_def.mpr ?_,hval⟩
  rw [hval]
  exact hi

theorem Owns.ahead (h : Owns n index) {o : Word} {p k : Nat} (hk : k < 4)
    (ho : o.toNat = index.toNat*8192 + p*8) :
    (o + BitVec.ofNat 32 k).toNat = index.toNat*8192 + p*8 + k ∧
      (o + BitVec.ofNat 32 k + 4).toNat = index.toNat*8192 + p*8 + 4 + k := by
  have := h.small
  have hfour : (4 : Word).toNat = 4 := rfl
  have hquad : (o + BitVec.ofNat 32 k).toNat = index.toNat*8192 + p*8 + k := by
    rw [BitVec.toNat_add,ho,BitVec.toNat_ofNat,Nat.mod_eq_of_lt (by omega : k < 2^32),
      Nat.mod_eq_of_lt (by omega)]
  refine ⟨hquad,?_⟩
  rw [BitVec.toNat_add,hquad,hfour,Nat.mod_eq_of_lt (by omega)]
  omega

/-! ### What an invocation has in its part -/

def Stored (index : Word) (B : Blocks) (scratch : Cells Quad n) (p k : Nat) : Prop :=
  scratch.read (index.toNat*8192 + p*8 + k) = quadAt (kernelMix.kept B p).b0 k ∧
    scratch.read (index.toNat*8192 + p*8 + 4 + k) = quadAt (kernelMix.kept B p).b1 k

/-- The first `k` quads of each half of `y` are laid onto `x`. -/
structure Laid (x y : Blocks) (k : Nat) (b : Blocks) : Prop where
  b0 : ∀ j < 16,b.b0.read j = if j < k*4 then x.b0.read j ^^^ y.b0.read j else x.b0.read j
  b1 : ∀ j < 16,b.b1.read j = if j < k*4 then x.b1.read j ^^^ y.b1.read j else x.b1.read j

/-- Where an invocation is, what it has is what the mix comes to there. -/
inductive Sound (index : Word) (B : Blocks) (scratch : Cells Quad n) : Invocation → Prop where
  | fill {i k : Nat} (hi : i < 1024) (hk : k < 4) (old : ∀ p < i,∀ j < 4,Stored index B scratch p j)
      (new : ∀ j < k,Stored index B scratch i j) :
      Sound index B scratch ⟨.fill i k,kernelMix.kept B i⟩
  | mix {i k : Nat} {o : Word} {b : Blocks} (hi : i < 1024) (hk : k < 4)
      (all : ∀ p < 1024,∀ j < 4,Stored index B scratch p j)
      (place : o.toNat = index.toNat*8192 + kernelMix.index (kernelMix.back 1024 B i)*8)
      (laid : Laid (kernelMix.back 1024 B i)
        (kernelMix.kept B (kernelMix.index (kernelMix.back 1024 B i))) k b) :
      Sound index B scratch ⟨.mix i k o,b⟩
  | done : Sound index B scratch ⟨.done,kernelMix.out 1024 B⟩

def passes : At → Nat
  | .fill i k => i*4 + k
  | .mix i k _ => 4096 + (i*4 + k)
  | .done => 8192

theorem index_lt (b : Blocks) : kernelMix.index b < 1024 := by
  have hand : (b.b1.read 0 &&& (kN - 1)).toNat = (b.b1.read 0).toNat &&& 1023 := by
    rw [BitVec.toNat_and]
    rfl
  have := Nat.and_le_right (n := (b.b1.read 0).toNat) (m := 1023)
  simp only [kernelMix,hand]
  omega

theorem Sound.touches_own (ho : Owns n index) (h : Sound index B scratch s) :
    ∀ q ∈ s.touches (index * kScratchWords),
      index.toNat*8192 ≤ q.toNat ∧ q.toNat < (index.toNat + 1)*8192 := by
  have hsmall := ho.small
  have own {o : Word} {p k : Nat} (hp : p < 1024) (hk : k < 4)
      (hq : o.toNat = index.toNat*8192 + p*8) : ∀ q ∈ [o + BitVec.ofNat 32 k,
        o + BitVec.ofNat 32 k + 4],
        index.toNat*8192 ≤ q.toNat ∧ q.toNat < (index.toNat + 1)*8192 := by
    intro q hmem
    obtain ⟨h₀,h₁⟩ := ho.ahead hk hq
    simp only [List.mem_cons,List.not_mem_nil,or_false] at hmem
    obtain rfl | rfl := hmem
    · omega
    · omega
  cases h with
  | fill hi hk old new =>
    obtain ⟨hlt,hval⟩ := ofNat_lt_kN hi
    exact own hi hk ((ho.quad hlt).trans (by rw [hval]))
  | mix hi hk all place laid => exact own (index_lt _) hk place
  | done => exact fun q hq => absurd hq List.not_mem_nil

theorem Stored.frame {scratch' : Cells Quad n} {p k : Nat} (h : Stored index B scratch p k)
    (hp : p < 1024) (hk : k < 4) (hsame : ∀ q,index.toNat*8192 ≤ q → q < (index.toNat + 1)*8192 →
      scratch'.read q = scratch.read q) : Stored index B scratch' p k := by
  rw [Stored,hsame _ (by omega) (by omega),hsame _ (by omega) (by omega)]
  exact h

theorem Sound.frame {scratch' : Cells Quad n} (h : Sound index B scratch s)
    (hsame : ∀ q,index.toNat*8192 ≤ q → q < (index.toNat + 1)*8192 →
      scratch'.read q = scratch.read q) : Sound index B scratch' s := by
  cases h with
  | fill hi hk old new =>
    exact .fill hi hk (fun p hp j hj => (old p hp j hj).frame (by omega) hj hsame)
      fun j hj => (new j hj).frame hi (by omega) hsame
  | mix hi hk all place laid =>
    exact .mix hi hk (fun p hp j hj => (all p hp j hj).frame hp hj hsame) place laid
  | done => exact .done

theorem step_frame (base : Word) (s : Invocation) (scratch : Cells Quad n) {q : Nat}
    (hq : ∀ t ∈ s.touches base,t.toNat ≠ q) :
    (s.step base scratch).2.read q = scratch.read q := by
  obtain ⟨place,b⟩ := s
  cases place with
  | fill i k =>
    simp only [Invocation.touches,List.mem_cons,List.not_mem_nil,or_false,forall_eq_or_imp,
      forall_eq] at hq
    have hread : ((scratch.write (quadOf base (BitVec.ofNat 32 i) + BitVec.ofNat 32 k).toNat
        (quadAt b.b0 k)).write (quadOf base (BitVec.ofNat 32 i) + BitVec.ofNat 32 k + 4).toNat
          (quadAt b.b1 k)).read q = scratch.read q := by
      rw [Cells.read_write_ne _ _ hq.2,Cells.read_write_ne _ _ hq.1]
    simp only [Invocation.step]
    split
    · exact hread
    · split <;> exact hread
  | mix i k o =>
    simp only [Invocation.step]
    split
    · rfl
    · split <;> rfl
  | done => rfl

/-! ### A pass of its own -/

theorem layQuad_read (x y : Words 16) {k j : Nat} (hj : j < 16) :
    (layQuad x k (quadAt y k)).read j =
      if k*4 ≤ j ∧ j < k*4 + 4 then x.read j ^^^ y.read j else x.read j := by
  have hself (b : Words 16) (i : Nat) (v : Word) (hi : i < 16) := Words.read_write_self b v hi
  simp only [layQuad,quadAt]
  obtain rfl | rfl | rfl | rfl | hne :
      j = k*4 ∨ j = k*4 + 1 ∨ j = k*4 + 2 ∨ j = k*4 + 3 ∨ ¬(k*4 ≤ j ∧ j < k*4 + 4) := by omega
  · rw [if_pos (by omega)]
    simp (disch := omega) only [Words.read_write_self,Words.read_write_ne]
  · rw [if_pos (by omega)]
    simp (disch := omega) only [Words.read_write_self,Words.read_write_ne]
  · rw [if_pos (by omega)]
    simp (disch := omega) only [Words.read_write_self,Words.read_write_ne]
  · rw [if_pos (by omega)]
    simp (disch := omega) only [Words.read_write_self,Words.read_write_ne]
  · rw [if_neg hne]
    simp (disch := omega) only [Words.read_write_ne]

theorem Laid.next {x y b : Blocks} {k : Nat} (h : Laid x y k b) :
    Laid x y (k + 1) ⟨layQuad b.b0 k (quadAt y.b0 k),layQuad b.b1 k (quadAt y.b1 k)⟩ := by
  have next {j : Nat} (u v w : Word) (hu : u = if j < k*4 then v ^^^ w else v) :
      (if k*4 ≤ j ∧ j < k*4 + 4 then u ^^^ w else u) = if j < (k + 1)*4 then v ^^^ w else v := by
    by_cases hold : j < k*4
    · rw [hu,if_pos hold,if_neg (by omega),if_pos (by omega)]
    · by_cases hnew : j < k*4 + 4
      · rw [hu,if_neg hold,if_pos (by omega),if_pos (by omega)]
      · rw [hu,if_neg hold,if_neg (by omega),if_neg (by omega)]
  refine ⟨fun j hj => ?_,fun j hj => ?_⟩
  · exact (layQuad_read _ _ hj).trans (next _ _ _ (h.b0 j hj))
  · exact (layQuad_read _ _ hj).trans (next _ _ _ (h.b1 j hj))

theorem Laid.whole {x y b : Blocks} (h : Laid x y 4 b) : b = kernelMix.lay x y := by
  obtain ⟨b0,b1⟩ := b
  refine congr (congrArg Blocks.mk (Words.ext _ _ fun j hj => ?_)) (Words.ext _ _ fun j hj => ?_)
  · rw [laid_read _ _ hj,h.b0 j hj,if_pos (by omega)]
  · rw [laid_read _ _ hj,h.b1 j hj,if_pos (by omega)]

theorem Laid.none (x y : Blocks) : Laid x y 0 x :=
  ⟨fun j _ => by rw [if_neg (by omega)],fun j _ => by rw [if_neg (by omega)]⟩

theorem Stored.write (ho : Owns n index) {i k : Nat} (hi : i < 1024) (hk : k < 4) {a : Nat}
    (ha : a = index.toNat*8192 + i*8 + k) {b : Nat} (hb : b = index.toNat*8192 + i*8 + 4 + k)
    {p j : Nat} (hj : j < 4) (h : (p = i ∧ j = k) ∨ Stored index B scratch p j) :
    Stored index B ((scratch.write a (quadAt (kernelMix.kept B i).b0 k)).write b
      (quadAt (kernelMix.kept B i).b1 k)) p j := by
  have hroom := ho.room
  by_cases hsame : p = i ∧ j = k
  · obtain ⟨rfl,rfl⟩ := hsame
    subst ha hb
    refine ⟨?_,?_⟩
    · rw [Cells.read_write_ne _ _ (by omega),Cells.read_write_self _ _ (by omega)]
    · rw [Cells.read_write_self _ _ (by omega)]
  · have hold := h.resolve_left hsame
    subst ha hb
    refine ⟨?_,?_⟩
    · rw [Cells.read_write_ne _ _ (by omega),Cells.read_write_ne _ _ (by omega)]
      exact hold.1
    · rw [Cells.read_write_ne _ _ (by omega),Cells.read_write_ne _ _ (by omega)]
      exact hold.2

theorem integerify_toNat (ho : Owns n index) (b : Blocks) :
    (integerify (index * kScratchWords) b).toNat =
      index.toNat*8192 + kernelMix.index b*8 :=
  ho.quad (BitVec.lt_def.mpr (index_lt b))

theorem Sound.step (ho : Owns n index) (h : Sound index B scratch s) :
    Sound index B (s.step (index * kScratchWords) scratch).2
        (s.step (index * kScratchWords) scratch).1 ∧
      passes (s.step (index * kScratchWords) scratch).1.place =
        min (passes s.place + 1) 8192 := by
  have hN : kN.toNat = 1024 := rfl
  cases h with
  | @fill i k hi hk old new =>
    obtain ⟨hlt,hval⟩ := ofNat_lt_kN hi
    have hplace := (ho.quad hlt).trans (by rw [hval])
    obtain ⟨ha,hb⟩ := ho.ahead hk hplace
    have hstored {p j : Nat} (hj : j < 4)
        (h : (p = i ∧ j = k) ∨ Stored index B scratch p j) := Stored.write ho hi hk ha hb hj h
    have hold : ∀ p < i,∀ j < 4,_ := fun p hp j hj => hstored hj (.inr (old p hp j hj))
    have hnew : ∀ j < k + 1,_ := fun j hj => hstored (p := i) (j := j) (by omega) (by
      obtain hj | rfl := Nat.lt_succ_iff_lt_or_eq.mp hj
      · exact .inr (new j hj)
      · exact .inl ⟨rfl,rfl⟩)
    simp only [Invocation.step,hN]
    by_cases hlast : k + 1 < 4
    · rw [if_pos hlast]
      refine ⟨.fill hi hlast hold hnew,?_⟩
      simp only [passes]
      omega
    · obtain rfl : k = 3 := by omega
      rw [if_neg hlast]
      by_cases hmore : i + 1 < 1024
      · rw [if_pos hmore]
        refine ⟨.fill hmore (by decide) (fun p hp j hj => ?_) fun j hj =>
          absurd hj (Nat.not_lt_zero j),?_⟩
        · obtain hp | rfl := Nat.lt_succ_iff_lt_or_eq.mp hp
          · exact hold p hp j hj
          · exact hnew j hj
        · simp only [passes]
          omega
      · obtain rfl : i = 1023 := by omega
        rw [if_neg hmore]
        refine ⟨.mix (by decide) (by decide) (fun p hp j hj => ?_) (integerify_toNat ho _)
          (Laid.none _ _),rfl⟩
        obtain hp | rfl := Nat.lt_succ_iff_lt_or_eq.mp (by omega : p < 1023 + 1)
        · exact hold p hp j hj
        · exact hnew j hj
  | @mix i k o b hi hk all place laid =>
    obtain ⟨ha,hb⟩ := ho.ahead hk place
    obtain ⟨hread₀,hread₁⟩ := all _ (index_lt (kernelMix.back 1024 B i)) k hk
    have hnext := laid.next
    simp only [Invocation.step,hN,ha,hb,hread₀,hread₁]
    by_cases hlast : k + 1 < 4
    · rw [if_pos hlast]
      refine ⟨.mix hi hlast all place hnext,?_⟩
      simp only [passes]
      omega
    · obtain rfl : k = 3 := by omega
      have hmixed := congrArg Glsl.blockMix hnext.whole
      rw [if_neg hlast,hmixed]
      by_cases hmore : i + 1 < 1024
      · rw [if_pos hmore]
        refine ⟨.mix hmore (by decide) all (integerify_toNat ho _) (Laid.none _ _),?_⟩
        simp only [passes]
        omega
      · obtain rfl : i = 1023 := by omega
        rw [if_neg hmore]
        exact ⟨.done,rfl⟩
  | done => exact ⟨.done,rfl⟩

/-! ### A dispatch -/

section
variable {push : ScryptPush} {header : Words 20} {target : Words 8}

def entering (header : Words 20) (push : ScryptPush) (index : Word) : Blocks :=
  halves (expandedBlock header (push.nonceStart + index))

/-- Every invocation of the dispatch has what it should have where it is, and has got as far as
the order let it. -/
def Running.Sound (header : Words 20) (push : ScryptPush) (order : List Word) (s : Running n) :
    Prop :=
  ∀ index < push.count,
    Scrypt.Sound index (entering header push index) s.scratch (s.inv index) ∧
      passes (s.inv index).place = min (order.count index) 8192

theorem begins_sound (hp : Pushed push header) (scratch : Cells Quad n) :
    Running.Sound header push [] (begins push scratch) := by
  intro index _
  have henters := enters_eq hp index
  simp only [begins,henters]
  exact ⟨.fill (by decide) (by decide) (fun p hp => absurd hp (Nat.not_lt_zero p)) fun j hj =>
    absurd hj (Nat.not_lt_zero j),rfl⟩

theorem step_sound (howns : ∀ index < push.count,Owns n index) {order : List Word} {s : Running n}
    (h : Running.Sound header push order s) (mover : Word) :
    Running.Sound header push (order ++ [mover]) (s.step push mover) := by
  intro index hindex
  obtain ⟨hsound,hpasses⟩ := h index hindex
  have hcount : (order ++ [mover]).count index =
      order.count index + if mover = index then 1 else 0 := by
    rw [List.count_append,List.count_singleton]
    simp
  by_cases hpast : push.count ≤ mover
  · have hne : mover ≠ index := fun he => absurd hindex (BitVec.not_lt.mpr (he ▸ hpast))
    rw [Running.step,if_pos hpast,hcount,if_neg hne]
    exact ⟨hsound,hpasses⟩
  · have hmover := BitVec.not_le.mp hpast
    obtain ⟨hmoves,-⟩ := h mover hmover
    simp only [Running.step,if_neg hpast,hcount]
    by_cases hself : mover = index
    · subst hself
      obtain ⟨hnext,hnum⟩ := hsound.step (howns mover hmover)
      simp only [Function.update_self,if_true]
      refine ⟨hnext,?_⟩
      rw [hnum,hpasses]
      omega
    · have hne : index ≠ mover := Ne.symm hself
      simp only [Function.update_of_ne hne,if_neg hself]
      refine ⟨hsound.frame fun q hlow hhigh => step_frame _ _ _ fun t ht he => ?_,hpasses⟩
      obtain ⟨hown₀,hown₁⟩ := hmoves.touches_own (howns mover hmover) t ht
      refine hself (BitVec.eq_of_toNat_eq ?_)
      omega

theorem run_sound (hp : Pushed push header) (howns : ∀ index < push.count,Owns n index)
    (scratch : Cells Quad n) (order : List Word) :
    Running.Sound header push order (run push scratch order) := by
  induction order using List.reverseRec with
  | nil => exact begins_sound hp scratch
  | append_singleton order mover ih =>
    rw [run,List.foldl_append]
    exact step_sound howns ih mover

theorem step_fill (base : Word) (scratch : Cells Quad n) {i k : Nat} (hs : s.place = .fill i k)
    (hmore : k + 1 < 4 ∨ i + 1 < 1024) :
    (s.step base scratch).1.place = if k + 1 < 4 then .fill i (k + 1) else .fill (i + 1) 0 := by
  obtain ⟨place,b⟩ := s
  cases hs
  have hN : kN.toNat = 1024 := rfl
  simp only [Invocation.step,hN]
  split
  · rfl
  · next hlast => rw [if_pos (hmore.resolve_left hlast)]

theorem run_fill (scratch : Cells Quad n) (hindex : index < push.count) {m : Nat} (hm : m < 4096) :
    ((run push scratch (List.replicate m index)).inv index).place = .fill (m/4) (m%4) := by
  induction m with
  | zero => rfl
  | succ m ih =>
    have hplace := step_fill (index * kScratchWords)
      (run push scratch (List.replicate m index)).scratch (ih (by omega)) (by omega)
    rw [run,List.replicate_succ',List.foldl_append]
    change ((Running.step push (run push scratch (List.replicate m index)) index).inv index).place = _
    simp only [Running.step,if_neg (BitVec.not_le.mpr hindex),Function.update_self]
    rw [hplace]
    split
    · congr 1 <;> omega
    · congr 1 <;> omega

theorem Sound.finished (h : Sound index B scratch s) (hpasses : passes s.place = 8192) :
    s = ⟨.done,kernelMix.out 1024 B⟩ := by
  cases h with
  | fill hi hk old new =>
    simp only [passes] at hpasses
    omega
  | mix hi hk all place laid =>
    simp only [passes] at hpasses
    omega
  | done => rfl

theorem unfinished (hpasses : passes s.place < 8192) : s.place ≠ .done := by
  intro hdone
  rw [hdone] at hpasses
  exact absurd hpasses (Nat.lt_irrefl _)

def expected (header : Words 20) (target : Words 8) (nonce : Word) : Option Candidate :=
  if Sha256d.fulltest (hash header (nonce.setWidth 64)) target 8 then
    some ⟨nonce,0,hash header (nonce.setWidth 64)⟩
  else none

theorem emitted_eq (hp : Pushed push header) (howns : ∀ index < push.count,Owns n index)
    (scratch : Cells Quad n) (order : List Word) {index : Word} (hindex : index < push.count) :
    (run push scratch order).emitted push index =
      if 8192 ≤ order.count index then
        some (expected header push.target (push.nonceStart + index))
      else none := by
  obtain ⟨hsound,hpasses⟩ := run_sound hp howns scratch order index hindex
  rw [Running.emitted,if_neg (BitVec.not_le.mpr hindex)]
  by_cases hall : 8192 ≤ order.count index
  · have hout : kernelMix.out 1024 (entering header push index) =
        halves (mixedBlock header (push.nonceStart + index)) :=
      (mixes_agree.out 1024 _).symm
    rw [hsound.finished (hpasses.trans (min_eq_right hall)),if_pos hall,hout]
    exact congrArg some (leaves_eq hp index)
  · have hplace := unfinished (hpasses ▸ (min_le_left _ _).trans_lt (Nat.not_le.mp hall))
    rw [if_neg hall]
    split
    · next hdone => exact absurd hdone hplace
    · rfl

/-- The dispatch does what the host would: over a buffer in which it reaches so many bytes, whatever
is in it and in whatever order the invocations go on. -/
structure Upheld (header : Words 20) (target : Words 8) (reach : Nat) (push : ScryptPush) :
    Prop where
  product : ∀ index < push.count,
    (index * kScratchWords).toNat = index.toNat*kScratchWords.toNat
  place : ∀ index < push.count,∀ i < kN,(index * kScratchWords + i * kBlockWords).toNat =
    index.toNat*kScratchWords.toNat + i.toNat*kBlockWords.toNat
  own : ∀ (scratch : Cells Quad (reach/16)) (order : List Word),∀ index < push.count,
    ∀ q ∈ ((run push scratch order).inv index).touches (index * kScratchWords),
      index.toNat*kScryptScratchBytes ≤ q.toNat*16 ∧
        q.toNat*16 + 16 ≤ (index.toNat + 1)*kScryptScratchBytes ∧ q.toNat*16 + 16 ≤ reach
  emits : ∀ (scratch : Cells Quad (reach/16)) (order : List Word),∀ index < push.count,
    (run push scratch order).emitted push index =
      if 8192 ≤ order.count index then some (expected header target (push.nonceStart + index))
      else none

theorem upheld_of_owns {reach : Nat} (hp : Pushed push header) (ht : push.target = target)
    (howns : ∀ index < push.count,Owns (reach/16) index) : Upheld header target reach push where
  product index h := (howns index h).product
  place index h i hi := (howns index h).place hi
  own scratch order index h q hq := by
    have hroom := (howns index h).room
    obtain ⟨hlow,hhigh⟩ := (run_sound hp howns scratch order index h).1.touches_own (howns index h) q hq
    rw [kScryptScratchBytes]
    omega
  emits scratch order index h := by
    rw [emitted_eq hp howns scratch order h,ht]

theorem owns_of_reach {count reach : Nat} (hlt : index.toNat < count) (hmost : count ≤ 131072)
    (hreach : count*kScryptScratchBytes ≤ reach) : Owns (reach/16) index := by
  rw [show kScryptScratchBytes = 131072 from rfl] at hreach
  have hlast : (index.toNat + 1)*8192*16 ≤ reach := by omega
  exact ⟨by omega,(Nat.le_div_iff_mul_le (by decide)).mpr hlast⟩

/-- The last pass of an invocation's first loop touches the last quad of its part. -/
theorem Upheld.reaches {reach : Nat} (h : Upheld header target reach push)
    (hindex : index < push.count) (hsmall : index.toNat < 131072) :
    (index.toNat + 1)*kScryptScratchBytes ≤ reach := by
  have howns : Owns ((index.toNat + 1)*8192) index := ⟨hsmall,Nat.le_refl _⟩
  have hquad : (quadOf (index * kScratchWords) (BitVec.ofNat 32 1023)).toNat =
      index.toNat*8192 + 1023*8 := howns.quad (by decide)
  obtain ⟨-,hlast⟩ := howns.ahead (k := 3) (by decide) hquad
  have scratch : Cells Quad (reach/16) := .blank _
  obtain ⟨m,hm⟩ : ∃ m,m = 4095 := ⟨_,rfl⟩
  have hplace := run_fill scratch hindex (show m < 4096 by omega)
  rw [show m/4 = 1023 by omega,show m%4 = 3 by omega] at hplace
  have htouches : quadOf (index * kScratchWords) (BitVec.ofNat 32 1023) + BitVec.ofNat 32 3 + 4 ∈
      ((run push scratch (List.replicate m index)).inv index).touches (index * kScratchWords) := by
    rw [Invocation.touches,hplace]
    exact .tail _ (.head _)
  obtain ⟨-,-,hown⟩ := h.own scratch _ index hindex _ htouches
  rw [hlast] at hown
  refine Nat.le_trans ?_ hown
  rw [kScryptScratchBytes]
  grind

end

/-! ### The dispatches that the host accepts -/

section
open Vulkan Vulkan.Coverage Vulkan.Scratch

variable {t : Tuning} {info : DeviceInfo} {spec : KernelSpec} {shared : Nat} {fit : KernelFit}

theorem prepare_eq (header : Words 20) (target : Words 8) (start : BitVec 64)
    (count capacity : Word) :
    ∃ push,prepare ⟨some header,some target,start,count,capacity⟩ pushBytes = some push ∧
      Pushed push header ∧ push.target = target ∧ push.nonceStart = start.setWidth 32 ∧
      push.count = count := by
  simp only [prepare,lt_irrefl,if_false]
  exact ⟨_,rfl,fun i hi => Words.read_fill header.read _ (Nat.le_refl 19) hi,rfl,rfl,rfl⟩

theorem slot_bytes (hfit : vulkanKernelFit t info spec shared = .ok fit)
    (hs : Shader.scrypt.Suits info spec) (hscratch : spec.scratchBytes = kScryptScratchBytes)
    (hdepth : fit.depth < narrow) : slotScratch spec fit = fit.maxBatch*kScryptScratchBytes := by
  have hlanes : fit.lanes = 1 :=
    (workgroup_whole (fit_cases hfit).1).1.trans hs.lanes
  have hbytes : kScryptScratchBytes = 131072 := rfl
  have hnarrow : narrow = 4294967296 := rfl
  have hwide : wide = 18446744073709551616 := rfl
  have h := slotScratch_eq hfit (by rw [hscratch,hbytes]; decide) (by omega) (by
    rw [hscratch,hlanes,hbytes]
    omega)
  rw [h,hscratch]

/-- As much of a slot's buffer as one binding reaches: all of it is bound. -/
def slotReach (info : DeviceInfo) (spec : KernelSpec) (fit : KernelFit) : Nat :=
  limited info.maxBindingRange (slotScratch spec fit)

theorem slotReach_iff (hfit : vulkanKernelFit t info spec shared = .ok fit)
    (hs : Shader.scrypt.Suits info spec) (hscratch : spec.scratchBytes = kScryptScratchBytes)
    (hdepth : fit.depth < narrow) {count : Nat} (hcount : count ≤ fit.maxBatch) :
    count*kScryptScratchBytes ≤ slotReach info spec fit ↔
      info.maxBindingRange = 0 ∨ count*kScryptScratchBytes ≤ info.maxBindingRange := by
  have hbytes := slot_bytes hfit hs hscratch hdepth
  have hslot : count*kScryptScratchBytes ≤ slotScratch spec fit := by
    rw [hbytes]
    exact Nat.mul_le_mul_right _ hcount
  generalize count*kScryptScratchBytes = bytes at hslot ⊢
  rw [slotReach,limited]
  split <;> omega

/-- A dispatch that the host accepts does what the host would, each invocation in its own part of
the buffer, as long as there are no more than 2^17 of them and a binding reaches all their parts. -/
theorem accepted_upheld (hfit : vulkanKernelFit t info spec shared = .ok fit)
    (hs : Shader.scrypt.Suits info spec) (hscratch : spec.scratchBytes = kScryptScratchBytes)
    (hdepth : fit.depth < narrow) (header : Words 20) (target : Words 8) (start : BitVec 64)
    {count : Word} (capacity : Word) (hcount : count.toNat ≤ fit.maxBatch) :
    ∃ push,prepare ⟨some header,some target,start,count,capacity⟩ pushBytes = some push ∧
      push.nonceStart = start.setWidth 32 ∧ push.count = count ∧
      (Upheld header target (slotReach info spec fit) push ↔
        count.toNat ≤ 131072 ∧ (info.maxBindingRange = 0 ∨
          count.toNat*kScryptScratchBytes ≤ info.maxBindingRange)) := by
  obtain ⟨push,hpush,hp,ht,hstart,hc⟩ := prepare_eq header target start count capacity
  refine ⟨push,hpush,hstart,hc,?_⟩
  rw [← slotReach_iff hfit hs hscratch hdepth hcount]
  constructor
  · intro h
    have hmost : count.toNat ≤ 131072 := by
      by_contra hmany
      have hin : (131072 : Word) < push.count := by
        rw [hc,BitVec.lt_def]
        exact Nat.not_le.mp hmany
      exact absurd (h.product 131072 hin) (by decide)
    refine ⟨hmost,?_⟩
    by_cases hz : count.toNat = 0
    · rw [hz,Nat.zero_mul]
      exact Nat.zero_le _
    · have hval : (count - 1).toNat = count.toNat - 1 := by bv_omega
      have hin : count - 1 < push.count := by
        rw [hc,BitVec.lt_def,hval]
        omega
      have hreach := h.reaches hin (by omega)
      rwa [hval,Nat.sub_add_cancel (Nat.pos_of_ne_zero hz)] at hreach
  · rintro ⟨hmost,hreach⟩
    refine upheld_of_owns hp ht fun index hindex => ?_
    exact owns_of_reach (BitVec.lt_def.mp (hc ▸ hindex)) hmost hreach

theorem accepted_upheld_bigCard :
    ∃ push,prepare ⟨some (Words.zeros 20),some (Words.zeros 8),0,4096,64⟩ pushBytes = some push ∧
      push.nonceStart = (0 : BitVec 64).setWidth 32 ∧ push.count = 4096 ∧
      (Upheld (Words.zeros 20) (Words.zeros 8)
        (slotReach bigCard Scratch.scrypt ⟨256,1,1,256,3,49152,393216⟩) push ↔
          (4096 : Word).toNat ≤ 131072 ∧ (bigCard.maxBindingRange = 0 ∨
            (4096 : Word).toNat*kScryptScratchBytes ≤ bigCard.maxBindingRange)) :=
  accepted_upheld scrypt_fit ⟨rfl,rfl,rfl,nofun⟩ rfl (by decide) _ _ _ _ (by decide)

/-- A card that gives out as much of its 24 GiB at once as it is asked for. -/
def wholeCard : DeviceInfo := { bigCard with maxAllocation := bigCard.memory }

/-- A dispatch as large as the batch of that card, of which the last invocations are past what a
binding reaches. -/
theorem not_always_upheld : ¬∀ (t : Tuning) (info : DeviceInfo) (spec : KernelSpec) (shared : Nat)
    (fit : KernelFit) (header : Words 20) (target : Words 8) (start : BitVec 64)
    (count capacity : Word) (push : ScryptPush),
    vulkanKernelFit t info spec shared = .ok fit → Shader.scrypt.Suits info spec →
      spec.scratchBytes = kScryptScratchBytes → count.toNat ≤ fit.maxBatch →
      prepare ⟨some header,some target,start,count,capacity⟩ pushBytes = some push →
      Upheld header target (slotReach info spec fit) push := by
  intro h
  obtain ⟨push,hpush,-,-,-,hc⟩ := prepare_eq (Words.zeros 20) (Words.zeros 8) 0 49152 64
  have hfit : vulkanKernelFit ⟨0,0,0⟩ wholeCard Scratch.scrypt 0 =
      .ok ⟨256,1,1,256,3,49152,393216⟩ := by decide +kernel
  have hall := h _ _ _ _ _ _ _ _ _ _ push hfit ⟨rfl,rfl,rfl,nofun⟩ rfl (by decide) hpush
  have hin : (32767 : Word) < push.count := by
    rw [hc]
    decide
  exact absurd (hall.reaches hin (by decide)) (by decide +kernel)

/-- And where only one dispatch is out at a time, the invocations from 2^17 on start over at the
parts of the first. -/
example : vulkanKernelFit ⟨1,0,0⟩ wholeCard Scratch.scrypt 0 =
    .ok ⟨256,1,1,256,1,147456,131072⟩ ∧ (131072 : Word) * kScratchWords = 0 := by
  decide +kernel

end

end VkMiner.Scrypt
