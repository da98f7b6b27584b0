import VkMiner.Fugue.SuperMix
import VkMiner.Sha256d.Digest
set_option autoImplicit false

/-! The stage of x13 hashes the bytes of its words as the host does. -/

namespace VkMiner.Fugue
open Loops
open Progpow.Glsl (bswap32)
open Sha256d (Word Byte beBytes leBytes wordAt encode)
open Glsl (Pass)

variable {i j k n : Nat}

/-! ### Rotations of the state -/

theorem fugueRor_read (s : Words 36) (hn : n ≤ 36) (hj : j < 36) :
    (fugueRor s n).read j = s.read ((j + 36 - n) % 36) := by
  have hplace : ((j + 36 - n) % 36 + n) % 36 = j := by omega
  refine upTo_sets (Words.read · j) _ (Nat.mod_lt (j + 36 - n) (by decide)) (fun t => ?_)
    fun i hi hlt t => ?_
  · show (t.write (((j + 36 - n) % 36 + n) % 36) _).read j = _
    rw [hplace]
    exact Words.read_write_self _ _ hj
  · exact Words.read_write_ne _ _ (by omega)

theorem fugue512Ror_eq (s : Words 36) (hn : n ≤ 36) : Glsl.fugue512Ror s n = fugueRor s n := by
  refine Words.ext _ _ fun j hj => ?_
  rw [fugueRor_read s hn hj,Glsl.fugue512Ror,Words.read_fill _ _ (Nat.le_refl 36) hj]

/-! ### Rounds -/

section Rounds

variable (garbage : Words 1024) {width : Nat}

theorem fugue512Sub_eq (hw : 0 < width) (s : Words 36) :
    Glsl.fugue512Sub (Glsl.fugueMix garbage width) s = fugueSub s := by
  simp only [Glsl.fugue512Sub,fugue512Ror_eq s (by decide : 3 ≤ 36),fugue512Smix_eq garbage hw]
  rfl

theorem fugue512Word_eq (hw : 0 < width) (s : Words 36) (w : Word) :
    Glsl.fugue512Word (Glsl.fugueMix garbage width) s w = fugueWord s w :=
  upTo_congr _ fun _ _ s => fugue512Sub_eq garbage hw s

theorem finalRound_eq (hw : 0 < width) (s : Words 36) :
    Glsl.finalRound (Glsl.fugueMix garbage width) s = fugueFold s := by
  have hnine (s : Words 36) := fugue512Ror_eq s (by decide : 9 ≤ 36)
  have height (s : Words 36) := fugue512Ror_eq s (by decide : 8 ≤ 36)
  have hadd (s : Words 36) (a b c : Nat) : Glsl.addFirst s a b c = folded s a b c := rfl
  simp only [Glsl.finalRound,fugue512Smix_eq garbage hw,hnine,height,hadd,fugueFold,upTo,kFold,
    List.getD_cons_zero,List.getD_cons_succ,if_true]
  simp

theorem fugue512Final_eq (hw : 0 < width) (s : Words 36) :
    Glsl.fugue512Final (Glsl.fugueMix garbage width) s = fugueFinal s := by
  have hsub : (upTo 32 s fun _ s => Glsl.fugue512Sub (Glsl.fugueMix garbage width) s) =
      upTo 32 s fun _ s => fugueSub s := upTo_congr s fun _ _ s => fugue512Sub_eq garbage hw s
  have hfinal (s : Words 36) : (upTo 13 s fun _ s => Glsl.finalRound (Glsl.fugueMix garbage width) s) =
      upTo 13 s fun _ s => fugueFold s := upTo_congr s fun _ _ s => finalRound_eq garbage hw s
  simp only [Glsl.fugue512Final,hsub,hfinal]
  rfl

end Rounds

/-! ### The words of a message -/

theorem wholeWords_encode (s : Words 36) (ws : List Word) :
    wholeWords s (encode ws) = (ws.foldl fugueWord s,[]) := by
  induction ws generalizing s with
  | nil => rw [wholeWords]; rfl
  | cons x ws ih =>
    have hl : 4 ≤ (encode (x :: ws)).length := by
      rw [Sha256d.encode_length,List.length_cons]
      omega
    have hfirst : wordAt (encode (x :: ws)) 0 = x := Sha256d.wordAt_encode (x :: ws) 0
    have hrest : (encode (x :: ws)).drop 4 = encode ws := rfl
    rw [wholeWords,if_pos hl,hfirst,hrest,ih (fugueWord s x),List.foldl_cons]

def messageOf (s : Words 16) : List Word := (s.toList.map bswap32) ++ [0,512]

theorem messageOf_getD (s : Words 16) (hk : k < 16) :
    (messageOf s).getD k 0 = bswap32 (s.read k) := by
  rw [messageOf,Sha256d.words_toList]
  interval_cases k <;> rfl

theorem fugue512Full_words (s : Words 16) : fugue512Full (s.toList.flatMap leBytes) =
    kOut.flatMap fun i => beBytes ((fugueFinal ((messageOf s).foldl fugueWord fugueStart)).read i) := by
  have hbytes : s.toList.flatMap leBytes = encode (s.toList.map bswap32) := by
    rw [encode,List.flatMap_map]
    exact List.flatMap_congr fun x _ => Sha256d.leBytes_eq x
  have hl : (encode (s.toList.map bswap32)).length = 64 := by
    rw [Sha256d.encode_length,List.length_map,Vector.length_toList]
  have hhigh : ((BitVec.ofNat 64 64 * 8) >>> 32).setWidth 32 = (0 : Word) := by decide
  have hlow : (BitVec.ofNat 64 64 * 8).setWidth 32 = (512 : Word) := by decide
  simp only [hbytes,fugue512Full,wholeWords_encode,hl,hhigh,hlow,messageOf,List.foldl_append]
  rfl

/-! ### The passes -/

/-- The state after the first `3*p` words, and the words that are left in front. -/
structure Behind (ws : List Word) (p : Nat) (x : Pass) : Prop where
  f : x.f = (ws.take (3*p)).foldl fugueWord fugueStart
  m : ∀ k,3*p + k < ws.length → x.m.read k = ws.getD (3*p + k) 0

theorem shifted_read (m : Words 18) (k : Nat) :
    (upTo 15 m fun k m => m.write k (m.read (k + 3))).read k =
      if k < 15 then m.read (k + 3) else m.read k := by
  have h := Words.read_update (f := fun i u => u.read (i + 3)) (g := fun i => m.read (i + 3)) m 0
    (by decide : 0 + 15 ≤ 18) (fun i hi u hu => hu (i + 3) (by omega)) k
  simpa using h

theorem Behind.step {ws : List Word} {p : Nat} {x : Pass} (h : Behind ws p x)
    (hp : 3*p + 3 ≤ ws.length) (hws : ws.length ≤ 18) {table : Words 1024}
    (hword : ∀ s w,Glsl.fugue512Word table s w = fugueWord s w) :
    Behind ws (p + 1) (Glsl.x13Pass table x) := by
  have htake : ws.take (3*(p + 1)) =
      ws.take (3*p) ++ [ws.getD (3*p) 0,ws.getD (3*p + 1) 0,ws.getD (3*p + 2) 0] := by
    have hone (n : Nat) (hn : n < ws.length) : ws.take (n + 1) = ws.take n ++ [ws.getD n 0] := by
      rw [List.take_add_one,List.getD_eq_getElem?_getD,List.getElem?_eq_getElem hn]
      rfl
    rw [show 3*(p + 1) = 3*p + 1 + 1 + 1 from by omega,hone _ (by omega),hone _ (by omega),
      hone _ (by omega)]
    simp only [List.append_assoc,List.cons_append,List.nil_append]
  refine ⟨?_,fun k hk => ?_⟩
  · rw [htake,List.foldl_append,← h.f,← h.m 1 (by omega),← h.m 2 (by omega)]
    have h₀ : x.m.read 0 = ws.getD (3*p) 0 := h.m 0 (by omega)
    rw [← h₀,Glsl.x13Pass]
    simp only [hword]
    rfl
  · show (upTo 15 x.m fun k m => m.write k (m.read (k + 3))).read k = _
    rw [shifted_read,if_pos (by omega),h.m (k + 3) (by omega),
      show 3*p + (k + 3) = 3*(p + 1) + k from by omega]

theorem x13Start_eq (garbage : Words 36) : Glsl.x13Start garbage = fugueStart := by
  have hzero (k : Nat) (hk : k < 20) :
      (upTo 20 garbage fun k f => f.write k 0).read k = (Words.zeros 36).read k := by
    rw [Words.read_fill (fun _ => 0) _ (by decide) hk,Words.read_zeros]
  refine Words.ext _ _ fun k hk => ?_
  rw [Glsl.x13Start,fugueStart,Words.read_run _ _ 20 (by decide),Words.read_run _ _ 20 (by decide)]
  split
  case isTrue h =>
    obtain ⟨j,rfl⟩ := Nat.exists_eq_add_of_le h.1
    have hj : j < 16 := by omega
    rw [Nat.add_sub_cancel_left]
    interval_cases j <;> rfl
  case isFalse h => exact hzero k (by omega)

theorem x13Words_read (garbage : Words 18) (s : Words 16) (hk : k < 18) :
    (Glsl.x13Words garbage s).read k = (messageOf s).getD k 0 := by
  have hl : (s.toList.map bswap32).length = 16 := by
    rw [List.length_map,Vector.length_toList]
  rw [Glsl.x13Words]
  obtain rfl | rfl | hlt : k = 17 ∨ k = 16 ∨ k < 16 := by omega
  · rw [Words.read_write_self _ _ (by decide),messageOf,List.getD_append_right _ _ _ _ (by omega),hl]
    rfl
  · rw [Words.read_write_ne _ _ (by decide),Words.read_write_self _ _ (by decide),messageOf,
      List.getD_append_right _ _ _ _ (by omega),hl]
    rfl
  · rw [Words.read_write_ne _ _ (by omega),Words.read_write_ne _ _ (by omega),
      Words.read_fill _ _ (by decide) hlt,messageOf_getD s hlt]

theorem messageOf_length (s : Words 16) : (messageOf s).length = 18 := by
  rw [messageOf,List.length_append,List.length_map,Vector.length_toList]
  rfl

theorem x13Passes_eq {table : Words 1024} (hword : ∀ s w,Glsl.fugue512Word table s w = fugueWord s w)
    (f : Words 36) (m : Words 18) (s : Words 16) :
    (upTo 6 ⟨Glsl.x13Start f,Glsl.x13Words m s⟩ fun _ p => Glsl.x13Pass table p).f =
      (messageOf s).foldl fugueWord fugueStart := by
  have hl := messageOf_length s
  have hstart : Behind (messageOf s) 0 ⟨Glsl.x13Start f,Glsl.x13Words m s⟩ := by
    refine ⟨x13Start_eq f,fun k hk => ?_⟩
    show (Glsl.x13Words m s).read k = (messageOf s).getD (3*0 + k) 0
    rw [x13Words_read m s (by omega),show 3*0 + k = k from by omega]
  have hrun := upTo_invariant (n := 6) (P := Behind (messageOf s)) hstart
    fun p hp x hx => hx.step (by omega) (by omega) hword
  rw [hrun.f,List.take_of_length_le (by omega)]

theorem x13Out_eq : Glsl.x13Out = kOut := rfl

theorem x13Fugue_bytes (garbage : Words 1024) {width : Nat} (hw : 0 < width) (f : Words 36)
    (m : Words 18) (s : Words 16) :
    (Glsl.x13Fugue (Glsl.fugueMix garbage width) f m s).toList.flatMap leBytes =
      fugue512Full (s.toList.flatMap leBytes) := by
  have hstate := x13Passes_eq (fugue512Word_eq garbage hw) f m s
  have hread (k : Nat) (hk : k < 16) : (Glsl.x13Fugue (Glsl.fugueMix garbage width) f m s).read k =
      bswap32 ((fugueFinal ((messageOf s).foldl fugueWord fugueStart)).read (kOut.getD k 0)) := by
    simp only [Glsl.x13Fugue,hstate,fugue512Final_eq garbage hw]
    generalize fugueFinal ((messageOf s).foldl fugueWord fugueStart) = out
    have hswap (v : Words 16) : (upTo 16 v fun k s => s.write k (bswap32 (s.read k))).read k =
        bswap32 (v.read k) := by
      have h := Words.read_update (f := fun i u => bswap32 (u.read i))
        (g := fun i => bswap32 (v.read i)) v 0 (by decide : 0 + 16 ≤ 16)
        (fun i _ u hu => congrArg bswap32 (hu i (.inr (by omega)))) k
      simpa [hk] using h
    rw [hswap,Words.read_fill _ _ (Nat.le_refl 16) hk,x13Out_eq]
  rw [fugue512Full_words,Sha256d.words_toList,List.flatMap_map]
  generalize (fugueFinal ((messageOf s).foldl fugueWord fugueStart)) = out at hread ⊢
  have hout : kOut = (List.range 16).map fun k => kOut.getD k 0 := by decide
  rw [hout,List.flatMap_map]
  refine List.flatMap_congr fun k hk => ?_
  rw [hread k (List.mem_range.mp hk),Sha256d.leBytes_bswap]

/-- By tables that any workgroup fills, the super-mix of every state is the one of the definition,
and the stage of x13 hashes 64 bytes as the host does. -/
theorem fugue_tables_eq (garbage : Words 1024) {width : Nat} (hw : 0 < width) :
    (∀ s,Glsl.fugue512Smix (Glsl.fugueMix garbage width) s = fugueSmix s) ∧
      ∀ (f : Words 36) (m : Words 18) (s : Words 16),
        (Glsl.x13Fugue (Glsl.fugueMix garbage width) f m s).toList.flatMap leBytes =
          fugue512Full (s.toList.flatMap leBytes) :=
  ⟨fugue512Smix_eq garbage hw,x13Fugue_bytes garbage hw⟩

theorem fugue_tables_eq_64 : 0 < 64 ∧
    Glsl.fugue512Smix (Glsl.fugueMix (Words.zeros 1024) 64) fugueStart = fugueSmix fugueStart :=
  ⟨by decide,(fugue_tables_eq (Words.zeros 1024) (by decide : 0 < 64)).1 fugueStart⟩

end VkMiner.Fugue
