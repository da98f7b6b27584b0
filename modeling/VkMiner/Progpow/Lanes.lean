import Mathlib.Data.Fintype.Prod
import VkMiner.Progpow.Program
set_option autoImplicit false

/-! How the sixteen lanes of a hash exchange a word: in workgroup memory between barriers, or out
of each other's registers. -/

namespace VkMiner.Progpow

/-- A workgroup of a dispatch. It holds whole hashes, and its invocations are numbered in 32
bits. -/
structure Workgroup where
  id : Nat
  width : Nat
  whole : kLanes ∣ width
  numbered : (id + 1) * width ≤ 2 ^ 32

/-- The subgroups of a workgroup, all of them full and of whole hashes. Which invocation is at
which place is the driver's choice. -/
structure Subgroups (g : Workgroup) where
  size : Nat
  count : Nat
  whole : kLanes ∣ size
  place : Fin g.width ≃ Fin count × Fin size

inductive Exchange (g : Workgroup) where
  | workgroup
  | subgroup (s : Subgroups g)

variable {g : Workgroup} {w : Nat}

def inBlock (i l : Nat) : Nat := i - i % kLanes + l

/-- The built-in, which nothing is promised of past the subgroup. -/
def subgroupShuffle (s : Subgroups g) (value : Words g.width) (i : Fin g.width) (id : Nat) :
    Word :=
  if h : id < s.size then value[s.place.symm ((s.place i).1,⟨id,h⟩)] else 0

namespace Exchange

def lane : Exchange g → Fin g.width → Nat
  | workgroup,i => i % kLanes
  | subgroup s,i => (s.place i).2 % kLanes

def nonceIndex : Exchange g → Fin g.width → Nat
  | workgroup,i => (g.id * g.width + i) / kLanes
  | subgroup s,i =>
    let subgroup := g.id * s.count + (s.place i).1
    subgroup * (s.size / kLanes) + (s.place i).2 / kLanes

def readFrom : Exchange g → Words g.width → Nat → Words g.width
  | workgroup,xchg,source => Vector.ofFn fun i => xchg.read (inBlock i source)
  | subgroup s,value,source =>
    Vector.ofFn fun i => subgroupShuffle s value i (inBlock (s.place i).2 source)

/-- `progpow_broadcast` by every invocation, with `xchg` as it is left. Only the slots of lane
`source` are written between the barriers. -/
def broadcast : Exchange g → Words g.width → Words g.width → Nat → Words g.width × Words g.width
  | workgroup,xchg,value,source =>
    let xchg : Words g.width :=
      Vector.ofFn fun i => if i % kLanes = source then value[i] else xchg[i]
    (readFrom workgroup xchg source,xchg)
  | subgroup s,parked,value,source => (readFrom (subgroup s) value source,parked)

def publish (_ : Exchange g) (value : Words g.width) : Words g.width := value

def published (e : Exchange g) (kept : Words g.width) (source : Nat) : Words g.width :=
  e.readFrom kept source

theorem kLanes_pos : 0 < kLanes := by decide

theorem inBlock_lt {i l : Nat} (hw : kLanes ∣ w) (hi : i < w) (hl : l < kLanes) :
    inBlock i l < w := by
  obtain ⟨m,rfl⟩ := hw
  have hd := Nat.div_add_mod i kLanes
  have hm : i / kLanes < m := Nat.div_lt_of_lt_mul hi
  have := Nat.mul_le_mul_left kLanes (Nat.succ_le_of_lt hm)
  rw [Nat.mul_succ] at this
  simp only [inBlock]
  omega

theorem inBlock_mod {i l : Nat} (hl : l < kLanes) : inBlock i l % kLanes = l := by
  have hd := Nat.div_add_mod i kLanes
  rw [inBlock,show i - i % kLanes = kLanes * (i / kLanes) from by omega,Nat.mul_add_mod,
    Nat.mod_eq_of_lt hl]

theorem inBlock_div {i l : Nat} (hl : l < kLanes) : inBlock i l / kLanes = i / kLanes := by
  have hd := Nat.div_add_mod i kLanes
  rw [inBlock,show i - i % kLanes = kLanes * (i / kLanes) from by omega,
    Nat.mul_add_div kLanes_pos,Nat.div_eq_of_lt hl,Nat.add_zero]

theorem inBlock_self (i : Nat) : inBlock i (i % kLanes) = i :=
  Nat.sub_add_cancel (Nat.mod_le i kLanes)

def member : Exchange g → Fin g.width → Fin kLanes → Fin g.width
  | workgroup,i,l => ⟨inBlock i l,inBlock_lt g.whole i.isLt l.isLt⟩
  | subgroup s,i,l =>
    s.place.symm ((s.place i).1,⟨inBlock (s.place i).2 l,inBlock_lt s.whole (s.place i).2.isLt l.isLt⟩)

variable (e : Exchange g) (i : Fin g.width) (l : Fin kLanes)

theorem lane_lt : e.lane i < kLanes := by
  cases e <;> exact Nat.mod_lt _ kLanes_pos

@[simp] theorem lane_member : e.lane (e.member i l) = l := by
  cases e with
  | workgroup => exact inBlock_mod l.isLt
  | subgroup s =>
    simp only [lane,member,Equiv.apply_symm_apply]
    exact inBlock_mod l.isLt

theorem member_lane : e.member i ⟨e.lane i,e.lane_lt i⟩ = i := by
  cases e with
  | workgroup => exact Fin.ext (inBlock_self i)
  | subgroup s =>
    refine (Equiv.symm_apply_eq s.place).mpr ?_
    exact Prod.ext rfl (Fin.ext (inBlock_self (s.place i).2))

@[simp] theorem nonceIndex_member : e.nonceIndex (e.member i l) = e.nonceIndex i := by
  cases e with
  | workgroup =>
    obtain ⟨m,hm⟩ := Nat.dvd_mul_left_of_dvd g.whole g.id
    simp only [nonceIndex,member]
    rw [hm,Nat.mul_add_div kLanes_pos,Nat.mul_add_div kLanes_pos,inBlock_div l.isLt]
  | subgroup s =>
    simp only [nonceIndex,member,Equiv.apply_symm_apply,inBlock_div l.isLt]

theorem member_member (k : Fin kLanes) : e.member (e.member i k) l = e.member i l := by
  have hb (j k l : Nat) (hk : k < kLanes) : inBlock (inBlock j k) l = inBlock j l := by
    have hm : inBlock j k % kLanes = k := inBlock_mod hk
    rw [inBlock,hm]
    simp only [inBlock]
    omega
  cases e with
  | workgroup => exact Fin.ext (hb i k l k.isLt)
  | subgroup s =>
    simp only [member,Equiv.apply_symm_apply]
    exact congrArg s.place.symm (Prod.ext rfl (Fin.ext (hb _ k l k.isLt)))

theorem readFrom_eq (value : Words g.width) : (e.readFrom value l)[i] = value[e.member i l] := by
  cases e with
  | workgroup =>
    simp only [readFrom,member,Fin.getElem_fin,Vector.getElem_ofFn]
    exact Words.read_of_lt value _
  | subgroup s =>
    simp only [readFrom,member,Fin.getElem_fin,Vector.getElem_ofFn,subgroupShuffle]
    rw [dif_pos (inBlock_lt s.whole (s.place i).2.isLt l.isLt)]

theorem broadcast_eq (kept value : Words g.width) :
    (e.broadcast kept value l).1[i] = value[e.member i l] := by
  cases e with
  | workgroup =>
    simp only [broadcast]
    rw [readFrom_eq]
    simp only [Fin.getElem_fin,Vector.getElem_ofFn,member,inBlock_mod l.isLt,if_true]
  | subgroup s => exact readFrom_eq (subgroup s) i l value

theorem published_eq (value : Words g.width) :
    (e.published (e.publish value) l)[i] = value[e.member i l] := e.readFrom_eq i l value

theorem subgroups_width (s : Subgroups g) : g.width = s.count * s.size := by
  simpa using Fintype.card_congr s.place

/-- Both spellings number the hashes of a workgroup after those of the workgroups before it. -/
theorem nonceIndex_slot : ∃ slot < g.width / kLanes,
    e.nonceIndex i = g.id * (g.width / kLanes) + slot := by
  cases e with
  | workgroup =>
    obtain ⟨m,hm⟩ := g.whole
    refine ⟨i / kLanes,Nat.div_lt_div_of_lt_of_dvd g.whole i.isLt,?_⟩
    simp only [nonceIndex]
    generalize i.val = j
    rw [hm,Nat.mul_div_cancel_left _ kLanes_pos,Nat.mul_left_comm,Nat.mul_add_div kLanes_pos]
  | subgroup s =>
    obtain ⟨m,hm⟩ := s.whole
    have hw : g.width / kLanes = s.count * m := by
      rw [subgroups_width s,hm,Nat.mul_left_comm,Nat.mul_div_cancel_left _ kLanes_pos]
    have hs : s.size / kLanes = m := by rw [hm,Nat.mul_div_cancel_left _ kLanes_pos]
    have hi : (s.place i).2 / kLanes < m := Nat.div_lt_of_lt_mul (hm ▸ (s.place i).2.isLt)
    refine ⟨(s.place i).1 * m + (s.place i).2 / kLanes,?_,?_⟩
    · have := Nat.mul_le_mul_right m (Nat.succ_le_of_lt (s.place i).1.isLt)
      rw [Nat.succ_mul] at this
      omega
    · simp only [nonceIndex,hs,hw]
      rw [Nat.add_mul,Nat.mul_assoc,Nat.add_assoc]

theorem nonceIndex_lt : e.nonceIndex i < 2 ^ 32 := by
  obtain ⟨slot,hs,he⟩ := e.nonceIndex_slot i
  have hn := g.numbered
  have hd := Nat.div_le_self g.width kLanes
  have hm := Nat.mul_le_mul_left (g.id + 1) hd
  rw [Nat.succ_mul] at hm
  omega

end Exchange

end VkMiner.Progpow
