import Mathlib.Tactic
import OscAssignments.Sorts.Partition
import OscAssignments.Sorts.Footprint

namespace Sorts
open ForkJoin Segments

def readIn (l r i : Int) : Code Int := if l ≤ i ∧ i ≤ r then read i else .stuck

def scanUpUnguarded (l r pivot : Int) : Nat → Int → Code Int
  | 0, _ => .stuck
  | n + 1, i => do
    let x ← readIn l r (i + 1)
    if x < pivot then scanUpUnguarded l r pivot n (i + 1) else pure (i + 1)

def scanDownUnguarded (l r pivot : Int) : Nat → Int → Code Int
  | 0, _ => .stuck
  | n + 1, j => do
    let x ← readIn l r (j - 1)
    if pivot < x then scanDownUnguarded l r pivot n (j - 1) else pure (j - 1)

def partitionLoopUnguarded (l r pivot : Int) : Nat → Int → Int → Code Int
  | 0, _, _ => .stuck
  | n + 1, i, j => do
    let i ← scanUpUnguarded l r pivot (r + 1 - i).toNat i
    let j ← scanDownUnguarded l r pivot (j + 1 - l).toNat j
    if j ≤ i then pure j
    else do
      swap i j
      partitionLoopUnguarded l r pivot n i j

def partitionUnguarded (l r : Int) : Code Int := do
  let len := r - l + 1
  let x ← rand l r
  let pivot ← readIn l r (l + x % len)
  partitionLoopUnguarded l r pivot (len + 1).toNat (l - 1) (r + 1)

section Unguarded
variable {R : Type} {d : Source R}

theorem run_readIn_bind {α : Type} {l r i : Int} (h : l ≤ i ∧ i ≤ r) (f : Int → Code α)
    (m : Memory R) : ((readIn l r i).bind f).run (exec d) m = (f (m.arr i)).run (exec d) m := by
  rw [readIn,if_pos h,run_read_bind]

theorem run_scanUpUnguarded {l r pivot k : Int} (n : Nat) {i : Int} {m : Memory R}
    (hli : l ≤ i + 1) (hik : i < k) (hkr : k ≤ r) (hk : pivot ≤ m.arr k) :
    (scanUpUnguarded l r pivot n i).run (exec d) m = (scanUp r pivot n i).run (exec d) m := by
  induction n generalizing i with
  | zero => rfl
  | succ n ih =>
    simp only [scanUpUnguarded,scanUp,Prog.bind_eq]
    rw [run_readIn_bind ⟨hli,by omega⟩,if_pos (show i + 1 ≤ r by omega),run_read_bind]
    by_cases hlt : m.arr (i + 1) < pivot
    · have hne : i + 1 ≠ k := by
        rintro rfl
        omega
      rw [if_pos hlt,if_pos hlt]
      exact ih (by omega) (by omega)
    · rw [if_neg hlt,if_neg hlt]

theorem run_scanDownUnguarded {l r pivot k : Int} (n : Nat) {j : Int} {m : Memory R}
    (hjr : j - 1 ≤ r) (hkj : k < j) (hlk : l ≤ k) (hk : m.arr k ≤ pivot) :
    (scanDownUnguarded l r pivot n j).run (exec d) m = (scanDown l pivot n j).run (exec d) m := by
  induction n generalizing j with
  | zero => rfl
  | succ n ih =>
    simp only [scanDownUnguarded,scanDown,Prog.bind_eq]
    rw [run_readIn_bind ⟨by omega,hjr⟩,if_pos (show l ≤ j - 1 by omega),run_read_bind]
    by_cases hlt : pivot < m.arr (j - 1)
    · have hne : j - 1 ≠ k := by
        rintro rfl
        omega
      rw [if_pos hlt,if_pos hlt]
      exact ih (by omega) (by omega)
    · rw [if_neg hlt,if_neg hlt]

theorem run_partitionLoopUnguarded {l r pivot : Int} (n : Nat) {i j : Int} {m : Memory R}
    (h : Crossing l r pivot i j m.arr) :
    (partitionLoopUnguarded l r pivot n i j).run (exec d) m =
      (partitionLoop l r pivot n i j).run (exec d) m := by
  induction n generalizing i j m with
  | zero => rfl
  | succ n ih =>
    obtain ⟨i',j',hup,hdown,hs⟩ := h.scans (d := d)
    obtain ⟨x,hix,hxr,hx⟩ := h.above
    obtain ⟨y,hly,hyj,hy⟩ := h.below
    have hlow := h.low
    have hhigh := h.high
    have hup' := run_scanUpUnguarded (d := d) (l := l) (r + 1 - i).toNat (by omega) hix hxr hx
    have hdown' := run_scanDownUnguarded (d := d) (r := r) (j + 1 - l).toNat (by omega) hyj hly hy
    simp only [partitionLoopUnguarded,partitionLoop,Prog.bind_eq]
    rw [Prog.run_bind_returned hup,Prog.run_bind_returned hdown,
      Prog.run_bind_returned (hup'.trans hup),Prog.run_bind_returned (hdown'.trans hdown)]
    by_cases hle : j' ≤ i'
    · rw [if_pos hle,if_pos hle]
    · rw [if_neg hle,if_neg hle,run_swap_bind,run_swap_bind]
      exact ih (h.swap hs.up hs.upStop hs.upPassed hs.down hs.downStop hs.downPassed
        (not_le.mp hle))

theorem run_partitionUnguarded {l r k : Int} (hl : l ≤ k) (hr : k ≤ r) (m : Memory R)
    (hk : l + ((d m.rng m.arr l r).1 : Int) % (r - l + 1) = k) :
    (partitionUnguarded l r).run (exec d) m = (partition l r).run (exec d) m := by
  have hc : Crossing l r (m.arr k) (l - 1) (r + 1) m.arr := .start hl hr le_rfl le_rfl
  have hloop := run_partitionLoopUnguarded (d := d) (r - l + 1 + 1).toNat
    (m := { m with rng := (d m.rng m.arr l r).2 }) hc
  have hread := run_readIn_bind (d := d) ⟨hl,hr⟩
    (fun pivot => partitionLoopUnguarded l r pivot (r - l + 1 + 1).toNat (l - 1) (r + 1))
    { m with rng := (d m.rng m.arr l r).2 }
  calc (partitionUnguarded l r).run (exec d) m
      = ((readIn l r k).bind fun pivot =>
          partitionLoopUnguarded l r pivot (r - l + 1 + 1).toNat (l - 1) (r + 1)).run (exec d)
          { m with rng := (d m.rng m.arr l r).2 } := by rw [← hk]; rfl
    _ = (partitionLoop l r (m.arr k) (r - l + 1 + 1).toNat (l - 1) (r + 1)).run (exec d)
          { m with rng := (d m.rng m.arr l r).2 } := by rw [hread,hloop]
    _ = (partition l r).run (exec d) m := by rw [← hk]; rfl

end Unguarded
end Sorts
