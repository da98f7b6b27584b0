import VkMiner.Host.Screen
import VkMiner.Sha512.Host
set_option autoImplicit false

/-! What the host works out for a dispatch of sha512256d, and what it checks a nonce with. -/

namespace VkMiner.Sha512256d
open Loops Sha512
open Sha256d (Word Dispatch encode leWordAt fulltest)

structure Sha512256dPush where
  header : Words 19
  target : Words 2
  nonceStart : Word
  count : Word
  capacity : Word

def pushBytes : Nat := 96

def prepare (dispatch : Dispatch) (capacity : Nat) : Option Sha512256dPush :=
  match dispatch.header,dispatch.target with
  | some header,some target =>
    if capacity < pushBytes then none
    else
      let words := upTo 19 (Words.zeros 19) fun i words => words.write i (header.read i)
      some ⟨words,Words.ofList [target.read 6,target.read 7],dispatch.nonceStart.setWidth 32,dispatch.count,
        dispatch.capacity⟩
  | _,_ => none

def hash (header : Words 20) (nonce : BitVec 64) : Words 8 :=
  let first := sha512_256Full (encode (header.toList.take 19 ++ [nonce.setWidth 32]))
  let digest := sha512_256Full first
  upTo 8 (Words.zeros 8) fun i out => out.write i (leWordAt digest i)

end VkMiner.Sha512256d
