import VkMiner.Scrypt.Digest
import VkMiner.Scrypt.Kernel
import VkMiner.Sha256d.Agreement
set_option autoImplicit false

/-! What an invocation of the scrypt kernel works out by itself is what the host does. -/

namespace VkMiner.Scrypt
open Loops Sha256
open Progpow.Glsl (bswap32)
open Sha256d (Word Byte K IV beBytes leBytes encode leWordAt sha256Full closed lastBlock swapped)
open Sha256d.Glsl (sha256Iv sha256K)
open Glsl (Blocks Keys Rolling kN)

/-! ### The window of the schedule -/

/-- After `i` rounds the window holds the last sixteen words of the schedule. -/
structure Rolled (m : Nat → Word) (v : Vars) (i : Nat) (s : Rolling) : Prop where
  vars : s.v = rounds K.read (schedule m) 0 i v
  window : ∀ t,t < max i 16 → max i 16 ≤ t + 16 → s.w.read (t % 16) = schedule m t

theorem and_fifteen (i : Nat) : i &&& 15 = i % 16 := Nat.and_two_pow_sub_one_eq_mod i 4

variable {m : Nat → Word} {v : Vars} {s : Rolling}

theorem Rolled.roll {i : Nat} (h : Rolled m v i s) (hi : 16 ≤ i) (t : Nat) (ht : t < i + 1)
    (hlow : i + 1 ≤ t + 16) : (Glsl.sha256Roll i s.w).read (t % 16) = schedule m t := by
  have hmax : max i 16 = i := Nat.max_eq_left hi
  have hread (d : Nat) (hd : d < 16) : s.w.read ((i + d) % 16) = schedule m (i + d - 16) := by
    rw [← h.window (i + d - 16) (by omega) (by omega)]
    congr 1
    omega
  have h0 := hread 0 (by decide)
  simp only [Nat.add_zero] at h0
  simp only [Glsl.sha256Roll,and_fifteen]
  obtain ht | rfl := Nat.lt_succ_iff_lt_or_eq.mp ht
  · rw [Words.read_write_ne _ _ (by omega : i % 16 ≠ t % 16)]
    exact h.window t (by omega) (by omega)
  · rw [Words.read_write_self _ _ (Nat.mod_lt _ (by decide)),h0,hread 1 (by decide),
      hread 9 (by decide),hread 14 (by decide),schedule_further m hi,
      show t + 1 - 16 = t - 15 by omega,show t + 9 - 16 = t - 7 by omega,
      show t + 14 - 16 = t - 2 by omega,BitVec.add_assoc,BitVec.add_assoc,BitVec.add_assoc]
    rfl

theorem Rolled.pass {i : Nat} (h : Rolled m v i s) : Rolled m v (i + 1) (Glsl.sha256Pass i s) := by
  have hround (w : Words 16) (hw : w.read (i % 16) = schedule m i) :
      Glsl.sha256Round (sha256K.read i) (w.read (i &&& 15)) s.v =
        rounds K.read (schedule m) 0 (i + 1) v := by
    rw [and_fifteen,hw,h.vars,rounds_succ,Nat.zero_add,Sha256d.sha256K_eq]
    rfl
  by_cases hi : 16 ≤ i
  · have hroll := h.roll hi
    simp only [Glsl.sha256Pass,if_pos hi]
    exact ⟨hround _ (hroll i (by omega) (by omega)),fun t ht hlow =>
      hroll t (by omega) (by omega)⟩
  · simp only [Glsl.sha256Pass,if_neg hi]
    exact ⟨hround _ (h.window i (by omega) (by omega)),fun t ht hlow =>
      h.window t (by omega) (by omega)⟩

theorem sha256Compress_eq (state : Words 8) (w : Words 16) :
    (Glsl.sha256Compress state w).1 = compress K.read w.read state := by
  have hstart : Rolled w.read (.load state) 0 ⟨.load state,w⟩ :=
    ⟨rfl,fun t ht _ => by
      have ht : t < 16 := by simpa using ht
      rw [Nat.mod_eq_of_lt ht,schedule_block _ ht]⟩
  have h := upTo_invariant (n := 64) (f := Glsl.sha256Pass) (P := Rolled w.read (.load state))
    hstart fun i _ s hs => hs.pass
  simp only [Glsl.sha256Compress,compress,h.vars]

theorem sha256Compress_words {state : Words 8} {w : Words 16} {ws : List Word}
    (h : ∀ i < 16,w.read i = ws.getD i 0) :
    (Glsl.sha256Compress state w).1 = compress K.read (ws.getD · 0) state :=
  (sha256Compress_eq state w).trans (compress_congr h state)

theorem sha256Init_eq : Glsl.sha256Init = IV := by decide +kernel

/-! ### The messages -/

def headWords (header : Words 20) : List Word := (List.range 16).map header.read

def tailWords (header : Words 20) (nonce : Word) : List Word :=
  [header.read 16,header.read 17,header.read 18,nonce]

theorem header_cut (header : Words 20) (nonce : Word) :
    header.toList.take 19 ++ [nonce] = headWords header ++ tailWords header nonce := by
  rw [Sha256d.words_toList]
  rfl

theorem headWords_length (header : Words 20) : (headWords header).length = 16 := by
  simp [headWords]

def headState (state : Words 8) (header : Words 20) : Words 8 :=
  compress K.read ((headWords header).getD · 0) state

def keyOf (header : Words 20) (nonce : Word) : Words 8 :=
  closed (headState IV header) (tailWords header nonce) 80

theorem sha256Full_header (header : Words 20) (nonce : Word) :
    sha256Full (encode (header.toList.take 19 ++ [nonce])) = encode (keyOf header nonce).toList := by
  have hlen : (headWords header ++ tailWords header nonce).length = 20 := by
    simp [headWords,tailWords]
  rw [header_cut,Sha256d.sha256Full_words (by omega),hlen,
    Sha256d.closed_block (headWords_length header)]
  rfl

theorem closed_words {state : Words 8} {ws : List Word} {len : Nat} {w : Words 16} {b : Word}
    (hshort : ws.length < 16) (hx : ((BitVec.ofNat 64 len * 8) >>> 32).setWidth 32 = (0 : Word))
    (hy : (BitVec.ofNat 64 len * 8).setWidth 32 = b)
    (h : ∀ i < 16,w.read i =
      (ws ++ (0x80000000 : Word) :: List.replicate (13 - ws.length) 0 ++ [0,b]).getD i 0) :
    (Glsl.sha256Compress state w).1 = closed state ws len := by
  rw [Sha256d.closed_last hshort,Sha256d.lastBlock_eq ws hx hy]
  exact sha256Compress_words h

section
variable {push : ScryptPush} {header : Words 20}

def Pushed (push : ScryptPush) (header : Words 20) : Prop :=
  ∀ i < 19,push.header.read i = header.read i

theorem headerBlock_state (hp : Pushed push header) (state : Words 8) (w : Words 16) :
    (Glsl.sha256Compress state (Glsl.headerBlock push w)).1 = headState state header := by
  refine sha256Compress_words fun i hi => ?_
  rw [Glsl.headerBlock,Words.read_fill _ _ (Nat.le_refl 16) hi,hp i (by omega),headWords]
  simp [hi]

theorem headerKey_eq (hp : Pushed push header) (nonce : Word) :
    Glsl.headerKey push nonce = keyOf header nonce := by
  simp only [Glsl.headerKey]
  rw [headerBlock_state hp,sha256Init_eq,keyOf]
  refine closed_words (b := 640) (by simp [tailWords]) (by decide) (by decide) fun i hi => ?_
  simp only [Glsl.headerTail,hp 16 (by decide),hp 17 (by decide),hp 18 (by decide)]
  interval_cases i <;>
    simp (disch := decide) only [upTo,Words.read_write_self,Words.read_write_ne,Nat.reduceAdd] <;> rfl

theorem padState_eq (key : Words 8) (pad : Word) (w : Words 16) :
    (Glsl.padState key pad w).1 = keyState key pad := by
  rw [Glsl.padState,sha256Init_eq]
  refine sha256Compress_words fun i hi => ?_
  rw [padded,Sha256d.words_toList]
  interval_cases i <;>
    simp (disch := decide) only [upTo,Words.read_write_self,Words.read_write_ne,Nat.reduceAdd] <;> rfl

theorem hmacKeys_eq (hp : Pushed push header) (nonce : Word) :
    Glsl.hmacKeys push nonce = ⟨keyState (keyOf header nonce) 0x36363636,
      keyState (keyOf header nonce) 0x5c5c5c5c⟩ := by
  simp only [Glsl.hmacKeys,headerKey_eq hp,padState_eq]

theorem hmacOuter_eq (opad inner : Words 8) :
    Glsl.hmacOuter opad inner = closed opad inner.toList 96 := by
  refine closed_words (b := 768) (by simp) (by decide) (by decide) fun i hi => ?_
  rw [Sha256d.words_toList]
  interval_cases i <;>
    simp (disch := decide) only [upTo,Words.read_write_self,Words.read_write_ne,Nat.reduceAdd] <;> rfl

theorem mac_expanded (key : Words 8) (header : Words 20) (nonce block : Word) :
    mac key (headWords header ++ tailWords header nonce ++ [block]) =
      closed (keyState key 0x5c5c5c5c) (closed (headState (keyState key 0x36363636) header)
        (tailWords header nonce ++ [block]) 148).toList 96 := by
  have hlen : (headWords header ++ tailWords header nonce ++ [block]).length = 21 := by
    simp [headWords,tailWords]
  rw [mac,hlen,List.append_assoc,Sha256d.closed_block (headWords_length header)]
  rfl

theorem expandBlock_eq (hp : Pushed push header) (key : Words 8) (nonce : Word) (i : Nat)
    (s : Words 16 × Words 32) :
    (Glsl.expandBlock push nonce (keyState key 0x5c5c5c5c)
        (headState (keyState key 0x36363636) header) (i + 1) s).2 =
      upTo 8 s.2 fun k b => b.write (i*8 + k) (bswap32 ((mac key (headWords header ++
        tailWords header nonce ++ [BitVec.ofNat 32 (i + 1)])).read k)) := by
  have hinner (w : Words 16) (hw : ∀ j < 16,w.read j = (tailWords header nonce ++
      [BitVec.ofNat 32 (i + 1)] ++ (0x80000000 : Word) :: List.replicate 8 0 ++ [0,1184]).getD j 0)
      (state : Words 8) : (Glsl.sha256Compress state w).1 =
        closed state (tailWords header nonce ++ [BitVec.ofNat 32 (i + 1)]) 148 :=
    closed_words (by simp [tailWords]) (by decide) (by decide) hw
  simp only [Glsl.expandBlock]
  rw [hinner _ fun j hj => ?_,hmacOuter_eq,← mac_expanded,Nat.add_sub_cancel]
  simp only [Glsl.headerTail,hp 16 (by decide),hp 17 (by decide),hp 18 (by decide)]
  interval_cases j <;>
    simp (disch := decide) only [upTo,Words.read_write_self,Words.read_write_ne,Nat.reduceAdd] <;> rfl

/-- The block that the first PBKDF2 comes to, as both read it. -/
def expandedAt (header : Words 20) (nonce : Word) (j : Nat) : Word :=
  bswap32 ((mac (keyOf header nonce) (headWords header ++ tailWords header nonce ++
    [BitVec.ofNat 32 (j/8 + 1)])).read (j % 8))

theorem pbkdf2Expand_read (hp : Pushed push header) (nonce : Word) {j : Nat} (hj : j < 32) :
    (Glsl.pbkdf2Expand push nonce (Glsl.hmacKeys push nonce)).read j =
      expandedAt header nonce j := by
  have hloop (s : Words 16 × Words 32) := upTo_hom (n := 4)
    (f := fun i s => Glsl.expandBlock push nonce (keyState (keyOf header nonce) 0x5c5c5c5c)
      (headState (keyState (keyOf header nonce) 0x36363636) header) (i + 1) s)
    (g := fun i s => upTo 8 s fun k b => b.write (i*8 + k) (bswap32 ((mac (keyOf header nonce)
      (headWords header ++ tailWords header nonce ++ [BitVec.ofNat 32 (i + 1)])).read k)))
    (fun s : Words 16 × Words 32 => s.2) s fun i _ s => expandBlock_eq hp _ nonce i s
  simp only [Glsl.pbkdf2Expand,hmacKeys_eq hp,headerBlock_state hp,hloop]
  have hj₀ : j/8 < 4 := by omega
  have hj₁ : j % 8 < 8 := by omega
  have hrow := Words.read_rows (fun i k => bswap32 ((mac (keyOf header nonce)
    (headWords header ++ tailWords header nonce ++ [BitVec.ofNat 32 (i + 1)])).read k))
    (Words.zeros 32) (by decide : 4 * 8 ≤ 32) hj₀ hj₁
  rwa [show j/8*8 + j % 8 = j by omega] at hrow

/-! ### The closing PBKDF2 -/

def halfWords (b : Words 32) (first : Nat) : List Word :=
  (List.range 16).map fun i => bswap32 (b.read (first + i))

theorem halfWords_length (b : Words 32) (first : Nat) : (halfWords b first).length = 16 := by
  simp [halfWords]

theorem mixed_cut (b : Words 32) :
    b.toList.map bswap32 = halfWords b 0 ++ halfWords b 16 := by
  rw [Sha256d.words_toList]
  rfl

theorem mac_finished (key : Words 8) (b : Words 32) :
    mac key (b.toList.map bswap32 ++ [1]) =
      closed (keyState key 0x5c5c5c5c) (closed (compress K.read ((halfWords b 16).getD · 0)
        (compress K.read ((halfWords b 0).getD · 0) (keyState key 0x36363636))) [1] 196).toList 96 := by
  have hlen : (b.toList.map bswap32 ++ [1]).length = 33 := by simp
  rw [mac,hlen,mixed_cut,List.append_assoc,Sha256d.closed_block (halfWords_length b 0),
    Sha256d.closed_block (halfWords_length b 16)]

theorem finishWords_state (b : Words 32) (first : Nat) (state : Words 8) (w : Words 16) :
    (Glsl.sha256Compress state (Glsl.finishWords b first w)).1 =
      compress K.read ((halfWords b first).getD · 0) state := by
  refine sha256Compress_words fun i hi => ?_
  rw [Glsl.finishWords,Words.read_fill (fun i => bswap32 (b.read (first + i))) _ (Nat.le_refl 16) hi,
    halfWords]
  simp [hi]

theorem pbkdf2Finish_eq (hp : Pushed push header) (nonce : Word) (b : Words 32) :
    Glsl.pbkdf2Finish (Glsl.hmacKeys push nonce) b =
      swapped (mac (keyOf header nonce) (b.toList.map bswap32 ++ [1])) := by
  have hlast (w : Words 16) (hw : ∀ j < 16,w.read j =
      ([1] ++ (0x80000000 : Word) :: List.replicate 12 0 ++ [0,1568]).getD j 0) (state : Words 8) :
      (Glsl.sha256Compress state w).1 = closed state [1] 196 :=
    closed_words (by decide) (by decide) (by decide) hw
  simp only [Glsl.pbkdf2Finish,hmacKeys_eq hp,finishWords_state]
  rw [hlast _ fun j hj => ?_,hmacOuter_eq,← mac_finished,swapped]
  interval_cases j <;>
    simp (disch := decide) only [upTo,Words.read_write_self,Words.read_write_ne,Nat.reduceAdd] <;> rfl

end

/-! ### Mixing -/

theorem salsaQr_eq (x : Words 16) (a b c d : Nat) : Glsl.salsaQr x a b c d =
    salsaStep (salsaStep (salsaStep (salsaStep x b a d 7) c b a 9) d c b 13) a d c 18 := rfl

theorem salsa20_8_eq (block : Words 16) : Glsl.salsa20_8 block = salsa20_8 block := by
  have hcopy : (upTo 16 (Words.zeros 16) fun i x => x.write i (block.read i)) = block :=
    Words.ext _ _ fun i hi => Words.read_fill _ _ (Nat.le_refl 16) hi
  have hrounds (x : Words 16) : Glsl.salsaRounds x = salsaRows (salsaColumns x) := by
    simp only [Glsl.salsaRounds,salsaQr_eq,salsaColumns,salsaRows]
  simp only [Glsl.salsa20_8,hcopy,hrounds]
  rfl

def halves (b : Words 32) : Blocks :=
  ⟨Vector.ofFn fun k => b.read k,Vector.ofFn fun k => b.read (16 + k)⟩

theorem halves_read (b : Words 32) {k : Nat} (hk : k < 16) :
    (halves b).b0.read k = b.read k ∧ (halves b).b1.read k = b.read (16 + k) :=
  ⟨Words.read_ofFn _ hk,Words.read_ofFn _ hk⟩

theorem halves_of {b : Words 32} {s : Blocks} (h0 : ∀ k < 16,s.b0.read k = b.read k)
    (h1 : ∀ k < 16,s.b1.read k = b.read (16 + k)) : s = halves b := by
  obtain ⟨b0,b1⟩ := s
  refine congr (congrArg Blocks.mk (Words.ext _ _ fun k hk => ?_)) (Words.ext _ _ fun k hk => ?_)
  · exact (h0 k hk).trans (halves_read b hk).1.symm
  · exact (h1 k hk).trans (halves_read b hk).2.symm

theorem filled_read (f : Nat → Word) {k : Nat} (hk : k < 16) :
    (upTo 16 (Words.zeros 16) fun k x => x.write k (f k)).read k = f k :=
  Words.read_fill f _ (Nat.le_refl 16) hk

theorem laidOn_read (f : Nat → Word) (x : Words 16) {k : Nat} (hk : k < 16) :
    (upTo 16 x fun k x => x.write k (x.read k ^^^ f k)).read k = x.read k ^^^ f k := by
  have h := Words.read_update (f := fun k x => x.read k ^^^ f k) (g := fun k => x.read k ^^^ f k) x 0
    (by decide : 0 + 16 ≤ 16) (fun i hi u hu => by rw [hu i (by omega)]) k
  simpa [hk] using h

def firstHalf (b : Words 32) : Words 16 :=
  salsa20_8 (Vector.ofFn fun k => b.read (16 + k) ^^^ b.read k)

def secondHalf (b : Words 32) : Words 16 :=
  salsa20_8 (Vector.ofFn fun k => (firstHalf b).read k ^^^ b.read (16 + k))

theorem kernelMix_eq (b : Words 32) : Glsl.blockMix (halves b) =
    ⟨upTo 16 (halves b).b0 fun k b0 => b0.write k ((firstHalf b).read k),
      upTo 16 (halves b).b1 fun k b1 => b1.write k ((secondHalf b).read k)⟩ := by
  have hx : (upTo 16 (Words.zeros 16) fun k x =>
      x.write k ((halves b).b1.read k ^^^ (halves b).b0.read k)) =
        Vector.ofFn fun k => b.read (16 + k) ^^^ b.read k := by
    refine Words.ext _ _ fun k hk => ?_
    rw [filled_read (fun k => (halves b).b1.read k ^^^ (halves b).b0.read k) hk,
      (halves_read b hk).1,(halves_read b hk).2,Words.read_ofFn _ hk]
  have hy : (upTo 16 (Words.zeros 16) fun k y =>
      y.write k ((firstHalf b).read k ^^^ (halves b).b1.read k)) =
        Vector.ofFn fun k => (firstHalf b).read k ^^^ b.read (16 + k) := by
    refine Words.ext _ _ fun k hk => ?_
    rw [filled_read (fun k => (firstHalf b).read k ^^^ (halves b).b1.read k) hk,
      (halves_read b hk).2,Words.read_ofFn _ hk]
  simp only [Glsl.blockMix,salsa20_8_eq,hx]
  rw [← firstHalf,hy,← secondHalf]

theorem hostMix_eq (b tmp : Words 32) : blockMix 1 b tmp =
    upTo 16 (upTo 16 tmp fun k out => out.write (0*16 + k) ((firstHalf b).read k)) fun k out =>
      out.write (1*16 + k) ((secondHalf b).read k) := by
  have hx : (upTo 16 (upTo 16 (Words.zeros 16) fun k x => x.write k (b.read ((2*1 - 1)*16 + k)))
      fun k x => x.write k (x.read k ^^^ b.read (0*16 + k))) =
        Vector.ofFn fun k => b.read (16 + k) ^^^ b.read k := by
    refine Words.ext _ _ fun k hk => ?_
    rw [laidOn_read (fun k => b.read (0*16 + k)) _ hk,
      filled_read (fun k => b.read ((2*1 - 1)*16 + k)) hk,Words.read_ofFn _ hk,Nat.zero_mul,
      Nat.zero_add]
  have hy : (upTo 16 (firstHalf b) fun k x => x.write k (x.read k ^^^ b.read (1*16 + k))) =
      Vector.ofFn fun k => (firstHalf b).read k ^^^ b.read (16 + k) := by
    refine Words.ext _ _ fun k hk => ?_
    rw [laidOn_read (fun k => b.read (1*16 + k)) _ hk,Words.read_ofFn _ hk,Nat.one_mul]
  have htwo (x : Words 16) (f : Nat → Mixing 1 → Mixing 1) :
      (upTo (2*1) (⟨x,tmp⟩ : Mixing 1) f) = f 1 (f 0 ⟨x,tmp⟩) := rfl
  simp only [blockMix,htwo,hx]
  rw [← firstHalf,hy,← secondHalf]
  rfl

theorem blockMix_halves (b tmp : Words 32) :
    halves (blockMix 1 b tmp) = Glsl.blockMix (halves b) := by
  rw [kernelMix_eq]
  refine (halves_of (fun k hk => ?_) fun k hk => ?_).symm
  · rw [Words.read_fill (fun k => (firstHalf b).read k) _ (Nat.le_refl 16) hk,hostMix_eq,
      Words.read_run _ _ _ (by decide),if_neg (by omega),Words.read_run _ _ _ (by decide),
      if_pos (by omega),Nat.zero_mul,Nat.sub_zero]
  · rw [Words.read_fill (fun k => (secondHalf b).read k) _ (Nat.le_refl 16) hk,hostMix_eq,
      Words.read_run _ _ _ (by decide),if_pos (by omega),Nat.one_mul,Nat.add_sub_cancel_left]

theorem halves_injective {b b' : Words 32} (h : halves b = halves b') : b = b' := by
  refine Words.ext _ _ fun j hj => ?_
  obtain hlow | hhigh := Nat.lt_or_ge j 16
  · rw [← (halves_read b hlow).1,h,(halves_read b' hlow).1]
  · obtain ⟨k,rfl⟩ := Nat.exists_eq_add_of_le hhigh
    have hk : k < 16 := by omega
    rw [← (halves_read b hk).2,h,(halves_read b' hk).2]

def mixed (b : Words 32) : Words 32 := blockMix 1 b (Words.zeros 32)

theorem blockMix_mixed (b tmp : Words 32) : blockMix 1 b tmp = mixed b :=
  halves_injective ((blockMix_halves b tmp).trans (blockMix_halves b _).symm)

def kernelMix : Romix Blocks :=
  ⟨Glsl.blockMix,fun x y => ⟨laid x.b0 y.b0,laid x.b1 y.b1⟩,
    fun b => (b.b1.read 0 &&& (kN - 1)).toNat⟩

theorem mixes_agree : Romix.Hom (hostMix 1 1024 mixed) kernelMix halves where
  mix b := blockMix_halves b _
  lay x y := by
    refine (halves_of (fun k hk => ?_) fun k hk => ?_).symm
    · exact (laid_read _ _ hk).trans (by
        rw [(halves_read x hk).1,(halves_read y hk).1]
        exact (laid_read x y (by omega)).symm)
    · exact (laid_read _ _ hk).trans (by
        rw [(halves_read x hk).2,(halves_read y hk).2]
        exact (laid_read x y (by omega)).symm)
  index b := by
    have hread := (halves_read b (by decide : 0 < 16)).2
    simp only [kernelMix,hread,BitVec.toNat_and]
    rfl

/-! ### The host's hash -/

def expandedBlock (header : Words 20) (nonce : Word) : Words 32 :=
  Vector.ofFn fun j => expandedAt header nonce j

def mixedBlock (header : Words 20) (nonce : Word) : Words 32 :=
  (hostMix 1 1024 mixed).out 1024 (expandedBlock header nonce)

def digestState (header : Words 20) (nonce : Word) : Words 8 :=
  mac (keyOf header nonce) ((mixedBlock header nonce).toList.map bswap32 ++ [1])

theorem expandedWords_getD (header : Words 20) (nonce : Word) {j : Nat} (hj : j < 32) :
    bswap32 ((expandedWords (keyOf header nonce) (headWords header ++ tailWords header nonce)
      1 4).getD j 0) = expandedAt header nonce j := by
  simp only [expandedWords,Sha256d.words_toList,expandedAt]
  interval_cases j <;> rfl

theorem scryptLane_eq (header : Words 20) (nonce : Word) (pads : Pads 1 1024) :
    (scryptLane 1 1024 0 (encode (expandedWords (keyOf header nonce)
        (headWords header ++ tailWords header nonce) 1 4),pads)).1 =
      encode ((mixedBlock header nonce).toList.map bswap32) := by
  have hlen : (encode (expandedWords (keyOf header nonce)
      (headWords header ++ tailWords header nonce) 1 4)).length = 128*1 := by
    simp [Sha256d.encode_length,expandedWords]
  have hread (k : Nat) (hk : k < 32*1) : leWordAt (encode (expandedWords (keyOf header nonce)
      (headWords header ++ tailWords header nonce) 1 4)) k =
        (expandedBlock header nonce).read k := by
    rw [Sha256d.leWordAt_encode,Sha256d.leWord_bytes,expandedWords_getD header nonce hk,
      expandedBlock,Words.read_ofFn _ hk]
  have hbytes (ws : List Word) : ws.flatMap leBytes = encode (ws.map bswap32) := by
    rw [encode,List.flatMap_map]
    exact List.flatMap_congr fun x _ => Sha256d.leBytes_eq x
  exact (scryptLane_first blockMix_mixed (by decide) pads hlen hread).trans (hbytes _)

theorem hash_eq (header : Words 20) (nonce : Word) :
    hash header (nonce.setWidth 64) = swapped (digestState header nonce) := by
  have hlow : (nonce.setWidth 64).setWidth 32 = nonce := by
    rw [BitVec.setWidth_setWidth_of_le nonce (by omega),BitVec.setWidth_eq]
  have hkey := sha256Full_header header nonce
  have hlong : kBlockBytes < (encode (header.toList.take 19 ++ [nonce])).length := by
    simp [Sha256d.encode_length,kBlockBytes]
  rw [header_cut] at hkey hlong
  have hfirst : pbkdf2Sha256 (encode (headWords header ++ tailWords header nonce))
      (encode (headWords header ++ tailWords header nonce)) 1 (128*1*1) =
        encode (expandedWords (keyOf header nonce) (headWords header ++ tailWords header nonce)
          1 4) :=
    pbkdf2From_words hlong hkey (by simp [headWords,tailWords]) 1 4
  have hlast : pbkdf2Sha256 (encode (headWords header ++ tailWords header nonce))
      (encode ((mixedBlock header nonce).toList.map bswap32)) 1 32 =
        encode (digestState header nonce).toList := by
    have hsalt : (((mixedBlock header nonce).toList.map bswap32).length + 1) % 16 < 14 := by simp
    have h := pbkdf2From_words hlong hkey hsalt 1 1
    rw [pbkdf2Sha256,h]
    exact congrArg encode (List.append_nil _)
  have hdigest : scrypt (encode (headWords header ++ tailWords header nonce))
      (encode (headWords header ++ tailWords header nonce)) 1024 1 1 32 =
        encode (digestState header nonce).toList := by
    rw [scrypt,if_neg (by decide),hfirst,← hlast,← scryptLane_eq]
    rfl
  simp only [hash,hlow,header_cut,kDigestBytes,hdigest,swapped]
  refine upTo_congr _ fun i hi out => ?_
  rw [Sha256d.leWordAt_encode,Sha256d.leWord_bytes,Sha256d.words_toList]
  congr 2
  interval_cases i <;> rfl

/-! ### The ends of an invocation -/

section
variable {push : ScryptPush} {header : Words 20}

theorem enters_eq (hp : Pushed push header) (index : Word) :
    Glsl.enters push index =
      ⟨.fill 0 0,halves (expandedBlock header (push.nonceStart + index))⟩ := by
  have hread : Glsl.pbkdf2Expand push (push.nonceStart + index)
      (Glsl.hmacKeys push (push.nonceStart + index)) =
        expandedBlock header (push.nonceStart + index) := by
    refine Words.ext _ _ fun j hj => ?_
    rw [pbkdf2Expand_read hp _ hj,expandedBlock,Words.read_ofFn _ hj]
  simp only [Glsl.enters,hread]
  generalize expandedBlock header (push.nonceStart + index) = b
  exact congrArg (Glsl.Invocation.mk (.fill 0 0))
    (halves_of (fun k hk => filled_read b.read hk) fun k hk => filled_read (fun k => b.read (16 + k)) hk)

theorem within_eq (state target : Words 8) (n : Nat) :
    Glsl.within state target n = Sha256d.fulltest state target n := by
  induction n with
  | zero => rfl
  | succ n ih => rw [Glsl.within,Sha256d.fulltest,ih]

theorem joined_halves (b : Words 32) : (upTo 16 (Words.zeros 32) fun k w =>
    (w.write k ((halves b).b0.read k)).write (16 + k) ((halves b).b1.read k)) = b := by
  have h := upTo_invariant (n := 16) (s := Words.zeros 32) (f := fun k w =>
    (Words.write w k ((halves b).b0.read k)).write (16 + k) ((halves b).b1.read k))
    (P := fun n w => ∀ j < n,w.read j = b.read j ∧ w.read (16 + j) = b.read (16 + j))
    (fun j hj => absurd hj (Nat.not_lt_zero j)) fun k hk w hw j hj => by
      obtain hj | rfl := Nat.lt_succ_iff_lt_or_eq.mp hj
      · rw [Words.read_write_ne _ _ (by omega),Words.read_write_ne _ _ (by omega),
          Words.read_write_ne _ _ (by omega),Words.read_write_ne _ _ (by omega)]
        exact hw j hj
      · rw [Words.read_write_ne _ _ (by omega),Words.read_write_self _ _ (by omega),
          Words.read_write_self _ _ (by omega)]
        exact halves_read b hk
  refine Words.ext _ _ fun j hj => ?_
  obtain hlow | hhigh := Nat.lt_or_ge j 16
  · exact (h j hlow).1
  · obtain ⟨k,rfl⟩ := Nat.exists_eq_add_of_le hhigh
    exact (h k (by omega)).2

theorem leaves_eq (hp : Pushed push header) (index : Word) :
    Glsl.leaves push index (halves (mixedBlock header (push.nonceStart + index))) =
      if Sha256d.fulltest (hash header ((push.nonceStart + index).setWidth 64)) push.target 8 then
        some ⟨push.nonceStart + index,0,hash header ((push.nonceStart + index).setWidth 64)⟩
      else none := by
  simp only [Glsl.leaves,joined_halves,pbkdf2Finish_eq hp,within_eq,hash_eq]
  rfl

end

end VkMiner.Scrypt
