import VkMiner.Ripemd160.Host
set_option autoImplicit false

/-! The two lines as the device writes them out: steps that turn the names of the variables, each
with its own word and amount. -/

namespace VkMiner.Ripemd160.Glsl
open Loops
open Sha256d (Word)

def ripemd160Iv : Words 5 :=
  Words.ofList [0x67452301,0xefcdab89,0x98badcfe,0x10325476,0xc3d2e1f0]

def ripemd160F0 (x y z : Word) : Word := x ^^^ y ^^^ z

def ripemd160F1 (x y z : Word) : Word := (x &&& y) ||| (~~~x &&& z)

def ripemd160F2 (x y z : Word) : Word := (x ||| ~~~y) ^^^ z

def ripemd160F3 (x y z : Word) : Word := (x &&& z) ||| (y &&& ~~~z)

def ripemd160F4 (x y z : Word) : Word := x ^^^ (y ||| ~~~z)

def rotl32 (x : Word) (n : Nat) : Word := (x <<< n) ||| (x >>> (32 - n))

def rmdStep (a b c d e : Nat) (g : Word → Word → Word → Word) (x k : Word) (s : Nat)
    (v : Words 5) : Words 5 :=
  let v := v.write a (rotl32 (v.read a + g (v.read b) (v.read c) (v.read d) + x + k) s + v.read e)
  v.write c (rotl32 (v.read c) 10)

/-- The place of the variable `i` in step `j`: one further back from step to step. -/
def place (j i : Nat) : Nat := (i + 4*j) % 5

def rmdTurn (j : Nat) (g : Word → Word → Word → Word) (x k : Word) (s : Nat) (v : Words 5) :
    Words 5 :=
  rmdStep (place j 0) (place j 1) (place j 2) (place j 3) (place j 4) g x k s v

/-- Sixteen steps with one function and one constant, each with its word and its amount. -/
structure Row where
  g : Word → Word → Word → Word
  k : Word
  steps : List (Nat × Nat)

def Row.step (row : Row) (x : Words 16) (first i : Nat) (v : Words 5) : Words 5 :=
  let s := row.steps.getD i (0,0)
  rmdTurn (first + i) row.g (x.read s.1) row.k s.2 v

def Row.run (row : Row) (x : Words 16) (first : Nat) (v : Words 5) : Words 5 :=
  upTo 16 v (row.step x first)

def leftRow : Nat → Row
  | 0 => ⟨ripemd160F0,0x00000000,[⟨0,11⟩,⟨1,14⟩,⟨2,15⟩,⟨3,12⟩,⟨4,5⟩,⟨5,8⟩,⟨6,7⟩,⟨7,9⟩,⟨8,11⟩,⟨9,13⟩,
      ⟨10,14⟩,⟨11,15⟩,⟨12,6⟩,⟨13,7⟩,⟨14,9⟩,⟨15,8⟩]⟩
  | 1 => ⟨ripemd160F1,0x5a827999,[⟨7,7⟩,⟨4,6⟩,⟨13,8⟩,⟨1,13⟩,⟨10,11⟩,⟨6,9⟩,⟨15,7⟩,⟨3,15⟩,⟨12,7⟩,
      ⟨0,12⟩,⟨9,15⟩,⟨5,9⟩,⟨2,11⟩,⟨14,7⟩,⟨11,13⟩,⟨8,12⟩]⟩
  | 2 => ⟨ripemd160F2,0x6ed9eba1,[⟨3,11⟩,⟨10,13⟩,⟨14,6⟩,⟨4,7⟩,⟨9,14⟩,⟨15,9⟩,⟨8,13⟩,⟨1,15⟩,⟨2,14⟩,
      ⟨7,8⟩,⟨0,13⟩,⟨6,6⟩,⟨13,5⟩,⟨11,12⟩,⟨5,7⟩,⟨12,5⟩]⟩
  | 3 => ⟨ripemd160F3,0x8f1bbcdc,[⟨1,11⟩,⟨9,12⟩,⟨11,14⟩,⟨10,15⟩,⟨0,14⟩,⟨8,15⟩,⟨12,9⟩,⟨4,8⟩,⟨13,9⟩,
      ⟨3,14⟩,⟨7,5⟩,⟨15,6⟩,⟨14,8⟩,⟨5,6⟩,⟨6,5⟩,⟨2,12⟩]⟩
  | _ => ⟨ripemd160F4,0xa953fd4e,[⟨4,9⟩,⟨0,15⟩,⟨5,5⟩,⟨9,11⟩,⟨7,6⟩,⟨12,8⟩,⟨2,13⟩,⟨10,12⟩,⟨14,5⟩,
      ⟨1,12⟩,⟨3,13⟩,⟨8,14⟩,⟨11,11⟩,⟨6,8⟩,⟨15,5⟩,⟨13,6⟩]⟩

def rightRow : Nat → Row
  | 0 => ⟨ripemd160F4,0x50a28be6,[⟨5,8⟩,⟨14,9⟩,⟨7,9⟩,⟨0,11⟩,⟨9,13⟩,⟨2,15⟩,⟨11,15⟩,⟨4,5⟩,⟨13,7⟩,
      ⟨6,7⟩,⟨15,8⟩,⟨8,11⟩,⟨1,14⟩,⟨10,14⟩,⟨3,12⟩,⟨12,6⟩]⟩
  | 1 => ⟨ripemd160F3,0x5c4dd124,[⟨6,9⟩,⟨11,13⟩,⟨3,15⟩,⟨7,7⟩,⟨0,12⟩,⟨13,8⟩,⟨5,9⟩,⟨10,11⟩,⟨14,7⟩,
      ⟨15,7⟩,⟨8,12⟩,⟨12,7⟩,⟨4,6⟩,⟨9,15⟩,⟨1,13⟩,⟨2,11⟩]⟩
  | 2 => ⟨ripemd160F2,0x6d703ef3,[⟨15,9⟩,⟨5,7⟩,⟨1,15⟩,⟨3,11⟩,⟨7,8⟩,⟨14,6⟩,⟨6,6⟩,⟨9,14⟩,⟨11,12⟩,
      ⟨8,13⟩,⟨12,5⟩,⟨2,14⟩,⟨10,13⟩,⟨0,13⟩,⟨4,7⟩,⟨13,5⟩]⟩
  | 3 => ⟨ripemd160F1,0x7a6d76e9,[⟨8,15⟩,⟨6,5⟩,⟨4,8⟩,⟨1,11⟩,⟨3,14⟩,⟨11,14⟩,⟨15,6⟩,⟨0,14⟩,⟨5,6⟩,
      ⟨12,9⟩,⟨2,12⟩,⟨13,9⟩,⟨9,12⟩,⟨7,5⟩,⟨10,15⟩,⟨14,8⟩]⟩
  | _ => ⟨ripemd160F0,0x00000000,[⟨12,8⟩,⟨15,5⟩,⟨10,12⟩,⟨4,9⟩,⟨1,12⟩,⟨5,5⟩,⟨8,14⟩,⟨7,6⟩,⟨6,8⟩,
      ⟨2,13⟩,⟨13,6⟩,⟨14,5⟩,⟨0,15⟩,⟨3,13⟩,⟨9,11⟩,⟨11,11⟩]⟩

def runRows (row : Nat → Row) (x : Words 16) : Words 5 :=
  upTo 5 ripemd160Iv fun r v => (row r).run x (r * 16) v

def combine (l r : Words 5) : Words 5 :=
  #v[ripemd160Iv.read 1 + l.read 2 + r.read 3,ripemd160Iv.read 2 + l.read 3 + r.read 4,
    ripemd160Iv.read 3 + l.read 4 + r.read 0,ripemd160Iv.read 4 + l.read 0 + r.read 1,
    ripemd160Iv.read 0 + l.read 1 + r.read 2]

def ripemd160Words (x : Words 16) : Words 5 := combine (runRows leftRow x) (runRows rightRow x)

/-! ### The names follow the values -/

theorem place_lt (j i : Nat) : place j i < 5 := Nat.mod_lt _ (by decide)

theorem place_ne {j i i' : Nat} (hi : i < 5) (hi' : i' < 5) (h : i ≠ i') : place j i ≠ place j i' := by
  rw [place,place]
  omega

theorem place_succ (j i : Nat) : place (j + 1) (i + 1) = place j i := by
  rw [place,place]
  omega

theorem place_zero (j : Nat) : place (j + 1) 0 = place j 4 := by
  rw [place,place]
  omega

def named (j : Nat) (v : Words 5) : Line :=
  ⟨v.read (place j 0),v.read (place j 1),v.read (place j 2),v.read (place j 3),v.read (place j 4)⟩

theorem named_turn (j : Nat) (g : Word → Word → Word → Word) (x k : Word) (s : Nat) (v : Words 5) :
    named (j + 1) (rmdTurn j g x k s v) = (named j v).step g x k s := by
  have hother (y z : Word) {i : Nat} (hi : i < 5) (h0 : i ≠ 0) (h2 : i ≠ 2) :
      ((v.write (place j 0) y).write (place j 2) z).read (place j i) = v.read (place j i) := by
    rw [Words.read_write_ne _ _ (place_ne (by decide) hi h2.symm),
      Words.read_write_ne _ _ (place_ne (by decide) hi h0.symm)]
  have ha (y z : Word) : ((v.write (place j 0) y).write (place j 2) z).read (place j 0) = y := by
    rw [Words.read_write_ne _ _ (place_ne (by decide) (by decide) (by decide)),
      Words.read_write_self _ _ (place_lt j 0)]
  have hc (y z : Word) : ((v.write (place j 0) y).write (place j 2) z).read (place j 2) = z :=
    Words.read_write_self _ _ (place_lt j 2)
  have hread (y : Word) : (v.write (place j 0) y).read (place j 2) = v.read (place j 2) :=
    Words.read_write_ne _ _ (place_ne (by decide) (by decide) (by decide))
  simp (disch := decide) only [named,place_zero,place_succ,rmdTurn,rmdStep,hother,ha,hc,hread]
  rfl

theorem named_five (j : Nat) (v : Words 5) : named (5*j) v = named 0 v := by
  simp only [named,place,show ∀ i, (i + 4*(5*j)) % 5 = (i + 4*0) % 5 by omega]

theorem named_run {row : Row} {x : Words 16} {step : Nat → Line → Line} (first : Nat) (v : Words 5)
    (h : ∀ i < 16, ∀ u : Line, u.step row.g (x.read (row.steps.getD i (0,0)).1) row.k
      (row.steps.getD i (0,0)).2 = step (first + i) u) :
    named (first + 16) (row.run x first v) = upTo 16 (named first v) fun i => step (first + i) := by
  refine upTo_invariant (P := fun i w => named (first + i) w =
    upTo i (named first v) fun i => step (first + i)) rfl fun i hi w hw => ?_
  rw [Row.step,← Nat.add_assoc,named_turn,hw,h i hi]
  rfl

theorem named_rows {row : Nat → Row} {x : Words 16} {step : Nat → Line → Line}
    (h : ∀ r < 5, ∀ i < 16, ∀ u : Line, u.step (row r).g (x.read ((row r).steps.getD i (0,0)).1)
      (row r).k ((row r).steps.getD i (0,0)).2 = step (r * 16 + i) u) :
    named 0 (runRows row x) = upTo 80 (named 0 ripemd160Iv) step := by
  have hrun : named (5 * 16) (runRows row x) = upTo 5 (named 0 ripemd160Iv) fun r u =>
      upTo 16 u fun i => step (r * 16 + i) := by
    refine upTo_invariant (P := fun r w => named (r * 16) w = upTo r (named 0 ripemd160Iv) fun r u =>
      upTo 16 u fun i => step (r * 16 + i)) rfl fun r hr w hw => ?_
    rw [Nat.succ_mul,named_run (r * 16) w (h r hr),hw]
    rfl
  rw [← named_five 16,hrun]
  exact (upTo_rows 5 16 _ step).symm

theorem leftRow_step (x : Words 16) {r i : Nat} (hr : r < 5) (hi : i < 16) (u : Line) :
    u.step (leftRow r).g (x.read ((leftRow r).steps.getD i (0,0)).1) (leftRow r).k
      ((leftRow r).steps.getD i (0,0)).2 = leftStep x (r * 16 + i) u := by
  have hround : (r * 16 + i) / 16 = r := by omega
  have htables : ((leftRow r).steps.getD i (0,0)).1 = rl.getD (r * 16 + i) 0 ∧
      ((leftRow r).steps.getD i (0,0)).2 = sl.getD (r * 16 + i) 0 := by
    interval_cases r <;> interval_cases i <;> exact ⟨rfl,rfl⟩
  have hg : (leftRow r).g = f r ∧ (leftRow r).k = kl r := by
    interval_cases r <;> exact ⟨rfl,rfl⟩
  rw [leftStep,hround,htables.1,htables.2,hg.1,hg.2]

theorem rightRow_step (x : Words 16) {r i : Nat} (hr : r < 5) (hi : i < 16) (u : Line) :
    u.step (rightRow r).g (x.read ((rightRow r).steps.getD i (0,0)).1) (rightRow r).k
      ((rightRow r).steps.getD i (0,0)).2 = rightStep x (r * 16 + i) u := by
  have hround : (r * 16 + i) / 16 = r := by omega
  have htables : ((rightRow r).steps.getD i (0,0)).1 = rr.getD (r * 16 + i) 0 ∧
      ((rightRow r).steps.getD i (0,0)).2 = sr.getD (r * 16 + i) 0 := by
    interval_cases r <;> interval_cases i <;> exact ⟨rfl,rfl⟩
  have hg : (rightRow r).g = f (4 - r) ∧ (rightRow r).k = kr r := by
    interval_cases r <;> exact ⟨rfl,rfl⟩
  rw [rightStep,hround,htables.1,htables.2,hg.1,hg.2]

theorem ripemd160Words_eq (x : Words 16) :
    ripemd160Words x = compressWords Ripemd160.ripemd160Iv x := by
  have hiv : ripemd160Iv = Ripemd160.ripemd160Iv := by decide +kernel
  have hl := named_rows (x := x) fun r hr i hi u => leftRow_step x hr hi u
  have hr := named_rows (x := x) fun r hr i hi u => rightRow_step x hr hi u
  have hload (h : Words 5) : .load h = named 0 h := rfl
  have hcombine (h l r : Words 5) : Ripemd160.combine h (named 0 l) (named 0 r) =
      #v[h.read 1 + l.read 2 + r.read 3,h.read 2 + l.read 3 + r.read 4,
        h.read 3 + l.read 4 + r.read 0,h.read 4 + l.read 0 + r.read 1,
        h.read 0 + l.read 1 + r.read 2] := rfl
  rw [compressWords,← hiv,hload,← hl,← hr,hcombine]
  rfl

end VkMiner.Ripemd160.Glsl
