import VkMiner.Lib.Romix
import VkMiner.Scrypt.Host
set_option autoImplicit false

/-! The host's scrypt over words: the blocks of each of its hashes, and what its loops mix. -/

namespace VkMiner.Scrypt
open Loops Sha256
open Progpow.Glsl (bswap32)
open Sha256d (Word Byte K IV beBytes leBytes encode leWordAt sha256Full closed)

/-! ### HMAC -/

/-- The key's words, as long as a block, under one of the two pads. -/
def padded (key : Words 8) (c : Word) : List Word :=
  key.toList.map (· ^^^ c) ++ List.replicate 8 c

def keyState (key : Words 8) (c : Word) : Words 8 := compress K.read ((padded key c).getD · 0) IV

def mac (key : Words 8) (ws : List Word) : Words 8 :=
  let inner := closed (keyState key 0x36363636) ws (64 + 4*ws.length)
  closed (keyState key 0x5c5c5c5c) inner.toList 96

theorem padded_length (key : Words 8) (c : Word) : (padded key c).length = 16 := by simp [padded]

theorem beBytes_xor {c : Word} {b : Byte} (h : beBytes c = [b,b,b,b]) (x : Word) :
    beBytes (x ^^^ c) = (beBytes x).map (· ^^^ b) := by
  simp only [beBytes,List.cons.injEq,and_true] at h
  obtain ⟨h₀,h₁,h₂,h₃⟩ := h
  simp only [beBytes,List.map_cons,List.map_nil,BitVec.ushiftRight_xor_distrib,BitVec.setWidth_xor,
    h₀,h₁,h₂,h₃]

theorem encode_xor {c : Word} {b : Byte} (h : beBytes c = [b,b,b,b]) (ws : List Word) :
    (encode ws).map (· ^^^ b) = encode (ws.map (· ^^^ c)) := by
  induction ws with
  | nil => rfl
  | cons x ws ih =>
    have hx : encode (x :: ws) = beBytes x ++ encode ws := rfl
    rw [hx,List.map_append,ih,← beBytes_xor h]
    rfl

theorem padded_bytes {c : Word} {b : Byte} (h : beBytes c = [b,b,b,b]) (key : Words 8) :
    (encode key.toList ++ List.replicate 32 0).map (· ^^^ b) = encode (padded key c) := by
  have hzero : (List.replicate 32 0 : List Byte) = encode (List.replicate 8 0) :=
    Sha256d.zero_bytes 8
  have hpad : (0 : Word) ^^^ c = c := BitVec.zero_xor
  rw [hzero,← Sha256d.encode_append,encode_xor h,List.map_append,List.map_replicate,hpad,padded]

theorem hmacSha256_words {data : List Byte} {key : Words 8} (hlong : kBlockBytes < data.length)
    (hkey : sha256Full data = encode key.toList) {ws : List Word} (hws : ws.length % 16 < 14) :
    hmacSha256 data (encode ws) = encode (mac key ws).toList := by
  have hkeylen : (encode key.toList).length = 32 := by simp [Sha256d.encode_length]
  have hinner : sha256Full (encode (padded key 0x36363636) ++ encode ws) =
      encode (closed (keyState key 0x36363636) ws (64 + 4*ws.length)).toList := by
    have hlen : (padded key 0x36363636 ++ ws).length = 16 + ws.length := by
      rw [List.length_append,padded_length]
    rw [← Sha256d.encode_append,Sha256d.sha256Full_words (by omega),hlen,
      Sha256d.closed_block (padded_length _ _),Nat.mul_add]
    rfl
  have houter (s : Words 8) : sha256Full (encode (padded key 0x5c5c5c5c) ++ encode s.toList) =
      encode (closed (keyState key 0x5c5c5c5c) s.toList 96).toList := by
    have hlen : (padded key 0x5c5c5c5c ++ s.toList).length = 24 := by
      rw [List.length_append,padded_length,Vector.length_toList]
    rw [← Sha256d.encode_append,Sha256d.sha256Full_words (by omega),hlen,
      Sha256d.closed_block (padded_length _ _)]
    rfl
  simp only [hmacSha256,if_pos hlong,hkey,hkeylen]
  have hinnerPad := padded_bytes (by decide : beBytes 0x36363636 = [0x36,0x36,0x36,0x36]) key
  have houterPad := padded_bytes (by decide : beBytes 0x5c5c5c5c = [0x5c,0x5c,0x5c,0x5c]) key
  rw [show kBlockBytes - 32 = 32 from rfl,hinnerPad,houterPad,hinner,houter,mac]

/-! ### PBKDF2 of one pass -/

section
variable {password : List Byte} {key : Words 8}

theorem pbkdf2Block_words (hlong : kBlockBytes < password.length)
    (hkey : sha256Full password = encode key.toList) {salt : List Word}
    (hsalt : (salt.length + 1) % 16 < 14) (block : Word) :
    pbkdf2Block password (encode salt) 1 block = encode (mac key (salt ++ [block])).toList := by
  have hmsg : encode salt ++ beBytes block = encode (salt ++ [block]) := by
    rw [Sha256d.encode_append]
    rfl
  have hlen : (salt ++ [block]).length = salt.length + 1 := by simp
  rw [← hmacSha256_words hlong hkey (hlen ▸ hsalt),← hmsg]
  rfl

def expandedWords (key : Words 8) (salt : List Word) (block : Word) (m : Nat) : List Word :=
  (List.range m).flatMap fun i => (mac key (salt ++ [block + BitVec.ofNat 32 i])).toList

theorem expandedWords_succ (key : Words 8) (salt : List Word) (block : Word) (m : Nat) :
    expandedWords key salt block (m + 1) =
      (mac key (salt ++ [block])).toList ++ expandedWords key salt (block + 1) m := by
  have hnext (i : Nat) : block + BitVec.ofNat 32 (i + 1) = block + 1 + BitVec.ofNat 32 i := by
    rw [BitVec.ofNat_add,BitVec.add_comm (BitVec.ofNat 32 i),BitVec.add_assoc]
    rfl
  have hzero : block + BitVec.ofNat 32 0 = block := BitVec.add_zero block
  simp only [expandedWords,List.range_succ_eq_map,List.flatMap_cons,List.flatMap_map,hnext,hzero]

theorem pbkdf2From_words (hlong : kBlockBytes < password.length)
    (hkey : sha256Full password = encode key.toList) {salt : List Word}
    (hsalt : (salt.length + 1) % 16 < 14) (block : Word) (m : Nat) :
    pbkdf2From password (encode salt) 1 block (32*m) =
      encode (expandedWords key salt block m) := by
  induction m generalizing block with
  | zero =>
    rw [pbkdf2From,if_pos rfl]
    rfl
  | succ m ih =>
    have hmin : Nat.min (32*(m + 1)) kDigestBytes = 32 := Nat.min_eq_right (by
      rw [kDigestBytes]
      omega)
    have hleft : 32*(m + 1) - kDigestBytes = 32*m := by
      rw [kDigestBytes]
      omega
    have hlen : (encode (mac key (salt ++ [block])).toList).length ≤ 32 := by
      simp [Sha256d.encode_length]
    rw [pbkdf2From,if_neg (by omega),hmin,hleft,ih (block + 1),pbkdf2Block_words hlong hkey hsalt,
      List.take_of_length_le hlen,← Sha256d.encode_append,expandedWords_succ]

end

/-! ### ROMix -/

section
variable {r n : Nat}

def laid {m : Nat} (x y : Words m) : Words m := Vector.ofFn fun k => x.read k ^^^ y.read k

theorem laid_read {m k : Nat} (x y : Words m) (hk : k < m) :
    (laid x y).read k = x.read k ^^^ y.read k := Words.read_ofFn _ hk

def hostMix (r n : Nat) (mix : Words (32*r) → Words (32*r)) : Romix (Words (32*r)) :=
  ⟨mix,laid,fun b => (b.read (32*r - 16)).toNat &&& (n - 1)⟩

variable {mix : Words (32*r) → Words (32*r)} {b : Words (32*r)} {s : Pads r n}

/-- After so many passes of the first loop. -/
structure Kept (r n : Nat) (mix : Words (32*r) → Words (32*r)) (b : Words (32*r)) (i : Nat)
    (s : Pads r n) : Prop where
  now : s.b = (hostMix r n mix).kept b i
  before : ∀ p < i,∀ k < 32*r,s.v.read (p*(32*r) + k) = ((hostMix r n mix).kept b p).read k

theorem Kept.keep (hmix : ∀ b tmp,blockMix r b tmp = mix b) {i : Nat} (h : Kept r n mix b i s)
    (hi : i < n) : Kept r n mix b (i + 1) (keep r n i s) := by
  have hroom : i*(32*r) + 32*r ≤ 32*r*n := by
    have := Nat.mul_le_mul_right (32*r) (Nat.succ_le_of_lt hi)
    rwa [Nat.succ_mul,Nat.mul_comm n] at this
  have hread := Words.read_run (m := 32*r) s.b.read s.v (i*(32*r)) hroom
  refine ⟨?_,fun p hp k hk => ?_⟩
  · simp only [Scrypt.keep,hmix,h.now,Romix.kept]
    rfl
  · refine (hread _).trans ?_
    obtain hp | rfl := Nat.lt_succ_iff_lt_or_eq.mp hp
    · have := Nat.mul_le_mul_right (32*r) (Nat.succ_le_of_lt hp)
      rw [Nat.succ_mul] at this
      rw [if_neg (by omega)]
      exact h.before p hp k hk
    · rw [if_pos (by omega),Nat.add_sub_cancel_left,h.now]

theorem goBack_eq (hmix : ∀ b tmp,blockMix r b tmp = mix b) (hn : 0 < n) {i : Nat}
    (hv : ∀ p < n,∀ k < 32*r,s.v.read (p*(32*r) + k) = ((hostMix r n mix).kept b p).read k)
    (hb : s.b = (hostMix r n mix).back n b i) :
    (goBack r n s).b = (hostMix r n mix).back n b (i + 1) ∧ (goBack r n s).v = s.v := by
  have hj : (s.b.read (32*r - 16)).toNat &&& (n - 1) < n := by
    have := Nat.and_le_right (n := (s.b.read (32*r - 16)).toNat) (m := n - 1)
    omega
  have hlaid : (upTo (32*r) s.b fun k b => b.write k (b.read k ^^^
      s.v.read (((s.b.read (32*r - 16)).toNat &&& (n - 1))*(32*r) + k))) =
        laid s.b ((hostMix r n mix).kept b ((hostMix r n mix).index s.b)) := by
    refine Words.ext _ _ fun k hk => ?_
    have hread := Words.read_update (f := fun k b => b.read k ^^^
      s.v.read (((s.b.read (32*r - 16)).toNat &&& (n - 1))*(32*r) + k))
      (g := fun k => s.b.read k ^^^
        s.v.read (((s.b.read (32*r - 16)).toNat &&& (n - 1))*(32*r) + k)) s.b 0
      (by omega : 0 + 32*r ≤ 32*r) (fun i _ u hu => by rw [hu i (by omega)]) k
    simp only [Nat.zero_add,Nat.zero_le,hk,and_self,if_true,Nat.sub_zero] at hread
    rw [hread,laid_read _ _ hk,hv _ hj k hk]
    rfl
  refine ⟨?_,rfl⟩
  simp only [goBack,hmix,hlaid,Romix.back,← hb]
  rfl

theorem romix_eq (hmix : ∀ b tmp,blockMix r b tmp = mix b) (hn : 0 < n) (s : Pads r n) :
    (romix r n s).b = (hostMix r n mix).out n s.b := by
  have hkept : Kept r n mix s.b n (upTo n s fun i s => keep r n i s) :=
    upTo_invariant (P := Kept r n mix s.b) ⟨rfl,fun p hp => absurd hp (Nat.not_lt_zero p)⟩
      fun i hi t ht => ht.keep hmix hi
  have hback := upTo_invariant (n := n) (f := fun _ t => goBack r n t)
    (P := fun i t => t.b = (hostMix r n mix).back n s.b i ∧
      ∀ p < n,∀ k < 32*r,t.v.read (p*(32*r) + k) = ((hostMix r n mix).kept s.b p).read k)
    ⟨hkept.now,hkept.before⟩ fun i _ t ht => by
      obtain ⟨hb,hv⟩ := goBack_eq hmix hn ht.2 ht.1
      exact ⟨hb,hv ▸ ht.2⟩
  exact hback.1

theorem scryptLane_first (hmix : ∀ b tmp,blockMix r b tmp = mix b) (hn : 0 < n) (pads : Pads r n)
    {data : List Byte} (hlen : data.length = 128*r) (hb : ∀ k < 32*r,leWordAt data k = b.read k) :
    (scryptLane r n 0 (data,pads)).1 = ((hostMix r n mix).out n b).toList.flatMap leBytes := by
  have hblock : (upTo (32*r) pads.b fun k b => b.write k (leWordAt data k)) = b :=
    Words.ext _ _ fun k hk => by
      rw [Words.read_fill _ _ (Nat.le_refl _) hk,hb k hk]
  have hdrop : data.drop ((0 + 1)*(128*r)) = [] :=
    List.drop_of_length_le (by rw [hlen,Nat.zero_add,Nat.one_mul])
  simp only [scryptLane,Nat.zero_mul,List.drop_zero,List.take_zero,List.nil_append,hdrop,
    List.append_nil,hblock,romix_eq hmix hn]

end

end VkMiner.Scrypt
