import VkMiner.Skein.Lanes
import VkMiner.Skein2.Host
set_option autoImplicit false

/-! The skein2 kernel, over the same three kinds of lane as the kernel of skein. -/

namespace VkMiner.Skein2.Glsl
open Loops Skein Skein.Glsl
open Progpow (Candidate)
open Progpow.Glsl (bswap32)
open Sha256d (Word)

def skein512512IvWords : List (Word × Word) :=
  [(0x749c51ce,0x4903adff),(0x9746df03,0x0d95de39),(0x27c79bce,0x8fd19341),(0xff352cb1,0x9a255629),
    (0xdf6ca7b0,0x5db62599),(0xa9d5c3f4,0xeabe394c),(0x1a75b523,0x991112c7),(0x660fcc33,0xae18a40b)]

section
variable {L : Type} [Inhabited L] (B : TLane L)

def skein512512Iv (i : Nat) : L :=
  B.tlane (skein512512IvWords.getD i (0,0)).1 (skein512512IvWords.getD i (0,0)).2

def skein2Output (h : Cells L 8) : Cells L 8 :=
  let m : Cells L 8 := upTo 8 (Cells.blank 8) fun i m => m.write i (B.tlane 0 0)
  skein512Ubi B h m (B.tlane 8 0) (B.tlane 0 (kSkeinT1Out ||| kSkeinT1First ||| kSkeinT1Final))

def handOver (m h : Cells L 8) : Cells L 8 × Cells L 8 :=
  upTo 8 (m,h) fun i s =>
    let m := s.1.write i (s.2.read i)
    (m,s.2.write i (skein512512Iv B i))

def skein2Of (push : Skein2Push) (nonce : Word) : Cells L 8 :=
  let h : Cells L 8 := upTo 8 (Cells.blank 8) fun i h =>
    h.write i (B.tlane (push.midstate.read (2*i)) (push.midstate.read (2*i + 1)))
  let m := (Cells.blank 8).write 0 (B.tlane (push.tail.read 0) (push.tail.read 1))
  let m := m.write 1 (B.tlane (push.tail.read 2) (bswap32 nonce))
  let m := upTo 6 m fun i m => m.write (2 + i) (B.tlane 0 0)
  let h := skein512Ubi B h m (B.tlane 80 0) (B.tlane 0 (kSkeinT1Msg ||| kSkeinT1Final))
  let h := skein2Output B h
  let s := handOver B m h
  let h := skein512Ubi B s.2 s.1 (B.tlane 64 0)
    (B.tlane 0 (kSkeinT1Msg ||| kSkeinT1First ||| kSkeinT1Final))
  skein2Output B h

def skein2Search (push : Skein2Push) (nonce : Word) : Option Candidate :=
  let h := skein2Of B push nonce
  let top := B.thi (h.read 3)
  let next := B.tlo (h.read 3)
  if push.target.read 1 < top then none
  else if top = push.target.read 1 ∧ push.target.read 0 < next then none
  else some ⟨nonce,0,upTo 4 (Words.zeros 8) fun i hash =>
    (hash.write (2*i) (B.tlo (h.read i))).write (2*i + 1) (B.thi (h.read i))⟩

end

end VkMiner.Skein2.Glsl
