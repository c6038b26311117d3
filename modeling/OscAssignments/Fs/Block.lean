import Mathlib.Tactic
import Mathlib.Logic.Function.Basic

namespace Fs

abbrev bsize : Nat := 512
abbrev fssize : Nat := 1000
abbrev maxOpBlocks : Nat := 10
abbrev logsize : Nat := 30
abbrev nbuf : Nat := 30

abbrev Block := Fin bsize → UInt8

abbrev nindirect : Nat := 128

abbrev WordIdx := Fin nindirect

structure Superblock where
  size : Nat
  nblocks : Nat
  ninodes : Nat
  nlog : Nat
  logstart : Nat
  inodestart : Nat
  bmapstart : Nat

def byteOf (w : UInt32) (k : Nat) : UInt8 := (w.toNat / 256 ^ k % 256).toUInt8

def joinBytes (a b c d : UInt8) : UInt32 :=
  (a.toNat + 256 * (b.toNat + 256 * (c.toNat + 256 * d.toNat))).toUInt32

namespace Block

theorem byteAt_lt (i : WordIdx) (k : Fin 4) : 4 * i.val + k.val < bsize := by
  have hi : i.val < 128 := i.isLt
  change _ < 512
  omega

def byteAt (i : WordIdx) (k : Fin 4) : Fin bsize := ⟨4 * i.val + k.val,byteAt_lt i k⟩

def word (b : Block) (i : WordIdx) : UInt32 :=
  joinBytes (b (byteAt i 0)) (b (byteAt i 1)) (b (byteAt i 2)) (b (byteAt i 3))

def setWord (b : Block) (i : WordIdx) (w : UInt32) : Block := fun j =>
  if j.val / 4 = i.val then byteOf w (j.val % 4) else b j

end Block

theorem joinBytes_byteOf (w : UInt32) :
    joinBytes (byteOf w 0) (byteOf w 1) (byteOf w 2) (byteOf w 3) = w := by
  have hw : w.toNat < 4294967296 := w.toNat_lt
  apply UInt32.toNat_inj.mp
  simp only [joinBytes,byteOf,Nat.toUInt32,UInt32.toNat_ofNat',Nat.toUInt8,UInt8.toNat_ofNat']
  omega

namespace Block
variable {b : Block} {i j : WordIdx} {w : UInt32}

theorem setWord_byteAt (k : Fin 4) : b.setWord i w (byteAt i k) = byteOf w k := by
  have hk := k.isLt
  rw [setWord,if_pos (by simp only [byteAt]; omega)]
  congr 1
  simp only [byteAt]
  omega

theorem setWord_byteAt_of_ne (h : j ≠ i) (k : Fin 4) :
    b.setWord i w (byteAt j k) = b (byteAt j k) := by
  have hk := k.isLt
  have hne : j.val ≠ i.val := fun he => h (Fin.ext he)
  rw [setWord,if_neg (by simp only [byteAt]; omega)]

@[simp] theorem word_setWord : (b.setWord i w).word i = w := by
  simp only [word,setWord_byteAt]
  exact joinBytes_byteOf w

theorem word_setWord_of_ne (h : j ≠ i) : (b.setWord i w).word j = b.word j := by
  simp only [word,setWord_byteAt_of_ne h]

end Block
end Fs
