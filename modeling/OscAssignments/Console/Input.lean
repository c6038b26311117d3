import Mathlib.Tactic

namespace Console

abbrev inputBuf : Nat := 128

def C (x : Char) : UInt8 := (x.toNat - '@'.toNat).toUInt8

def newline : UInt8 := '\n'.toNat.toUInt8

def carriage : UInt8 := '\r'.toNat.toUInt8

def delete : UInt8 := 0x7f

structure Input where
  buf : Nat → UInt8
  r : BitVec 32
  w : BitVec 32
  e : BitVec 32

namespace Input

def cell (i : Input) (k : BitVec 32) : UInt8 := i.buf (k.toNat % inputBuf)

def killLine : Nat → Input → Input
  | 0, i => i
  | k + 1, i =>
    if i.e ≠ i.w ∧ i.cell (i.e - 1) ≠ newline then killLine k { i with e := i.e - 1 } else i

def store (i : Input) (c : UInt8) : Input :=
  { i with buf := Function.update i.buf (i.e.toNat % inputBuf) c, e := i.e + 1 }

def enter (i : Input) (c : UInt8) : Input × Bool :=
  let i := i.store c
  if c = newline ∨ c = C 'D' ∨ i.e = i.r + BitVec.ofNat 32 inputBuf then ({ i with w := i.e },true)
  else (i,false)

def key (i : Input) (c : UInt8) : Input × Bool :=
  if c = C 'P' then (i,false)
  else if c = C 'U' then (killLine (i.e - i.w).toNat i,false)
  else if c = C 'H' ∨ c = delete then (if i.e ≠ i.w then { i with e := i.e - 1 } else i,false)
  else if c ≠ 0 ∧ (i.e - i.r).toNat < inputBuf then
    i.enter (if c = carriage then newline else c)
  else (i,false)

theorem killLine_frame (k : Nat) (i : Input) : ∃ e, killLine k i = { i with e := e } := by
  induction k generalizing i with
  | zero => exact ⟨i.e,rfl⟩
  | succ k ih =>
    rw [killLine]
    split_ifs with h
    · obtain ⟨e,he⟩ := ih { i with e := i.e - 1 }
      exact ⟨e,he⟩
    · exact ⟨i.e,rfl⟩

theorem enter_frame (i : Input) (c : UInt8) :
    (i.enter c).1.r = i.r ∧ ((i.enter c).2 = false → (i.enter c).1.w = i.w) := by
  unfold enter
  dsimp only
  split_ifs
  · exact ⟨rfl,nofun⟩
  · exact ⟨rfl,fun _ => rfl⟩

theorem key_frame (i : Input) (c : UInt8) :
    (i.key c).1.r = i.r ∧ ((i.key c).2 = false → (i.key c).1.w = i.w) := by
  unfold key
  split_ifs
  · exact ⟨rfl,fun _ => rfl⟩
  · obtain ⟨e,he⟩ := killLine_frame (i.e - i.w).toNat i
    rw [he]
    exact ⟨rfl,fun _ => rfl⟩
  · exact ⟨rfl,fun _ => rfl⟩
  · exact ⟨rfl,fun _ => rfl⟩
  · exact enter_frame i _
  · exact enter_frame i _
  · exact ⟨rfl,fun _ => rfl⟩

end Input

end Console
