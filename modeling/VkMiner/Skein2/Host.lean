import VkMiner.Skein.Host
set_option autoImplicit false

/-! Skein-512-512 twice, as the host has it, and what a dispatch of skein2 is prepared with. -/

namespace VkMiner.Skein2
open Loops Skein
open Sha256d (Word Dispatch encode leWordAt)

/-- The scalar reference: the first 32 bytes of the second digest. -/
def hash (header : Words 20) (nonce : BitVec 64) : Words 8 :=
  let data := encode (header.toList.take 19 ++ [nonce.setWidth 32])
  let first := skein512Full data
  let second := skein512Full first
  upTo 8 (Words.zeros 8) fun i out => out.write i (leWordAt second i)

abbrev Skein2Push := SkeinPush

/-- `prepare`, which is word for word that of skein. -/
def prepare (dispatch : Dispatch) (capacity : Nat) : Option Skein2Push :=
  Skein.prepare dispatch capacity

end VkMiner.Skein2
