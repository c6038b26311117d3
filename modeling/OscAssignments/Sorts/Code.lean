import Mathlib.Tactic
import OscAssignments.Lib.ForkJoin

namespace Sorts
open ForkJoin

inductive Op where
  | read (i : Int)
  | write (i v : Int)
  | rand (l r : Int)
  deriving DecidableEq

abbrev Code := Prog Op Int

abbrev Cells := Int → Int

structure Memory (R : Type) where
  arr : Cells
  rng : R

abbrev Source (R : Type) := R → Cells → Int → Int → Nat × R

def exec {R : Type} (draw : Source R) : Op → Memory R → Int × Memory R
  | .read i, m => (m.arr i,m)
  | .write i v, m => (0,{ m with arr := Function.update m.arr i v })
  | .rand l r, m => ((draw m.rng m.arr l r).1,{ m with rng := (draw m.rng m.arr l r).2 })

def read (i : Int) : Code Int := Prog.call (.read i)

def write (i v : Int) : Code Unit := do
  let _ ← Prog.call (.write i v)
  pure ()

def rand (l r : Int) : Code Int := Prog.call (.rand l r)

def swap (i j : Int) : Code Unit := do
  let t ← read i
  let x ← read j
  write i x
  write j t

def loop (body : Int → Code Unit) : Nat → Int → Code Unit
  | 0, _ => pure ()
  | n + 1, i => do
    body i
    loop body n (i + 1)

def forUpTo (l u : Int) (body : Int → Code Unit) : Code Unit := loop body (u - l).toNat l

def exchange (r i j : Int) : Code Unit := do
  let y ← read j
  let x ← read i
  if y < x ∧ j ≤ r then swap i j else pure ()

def insertionSort (l r : Int) : Code Unit :=
  forUpTo l r fun i => forUpTo (i + 1) (r + 1) fun j => exchange r i j

def scanUp (r pivot : Int) : Nat → Int → Code Int
  | 0, _ => .stuck
  | n + 1, i =>
    if i + 1 ≤ r then do
      let x ← read (i + 1)
      if x < pivot then scanUp r pivot n (i + 1) else pure (i + 1)
    else pure (i + 1)

def scanDown (l pivot : Int) : Nat → Int → Code Int
  | 0, _ => .stuck
  | n + 1, j =>
    if l ≤ j - 1 then do
      let x ← read (j - 1)
      if pivot < x then scanDown l pivot n (j - 1) else pure (j - 1)
    else pure (j - 1)

def partitionLoop (l r pivot : Int) : Nat → Int → Int → Code Int
  | 0, _, _ => .stuck
  | n + 1, i, j => do
    let i ← scanUp r pivot (r + 1 - i).toNat i
    let j ← scanDown l pivot (j + 1 - l).toNat j
    if j ≤ i then pure j
    else do
      swap i j
      partitionLoop l r pivot n i j

def partition (l r : Int) : Code Int := do
  let len := r - l + 1
  let x ← rand l r
  let pivot ← read (l + x % len)
  partitionLoop l r pivot (len + 1).toNat (l - 1) (r + 1)

def depth (l r : Int) : Nat := (r - l + 1).toNat + 1

def normalQuicksortIn : Nat → Int → Int → Code Unit
  | 0, _, _ => .stuck
  | n + 1, l, r =>
    if r ≤ l then pure ()
    else if r - l + 1 ≤ 5 then insertionSort l r
    else do
      let pivotIdx ← partition l r
      normalQuicksortIn n l (pivotIdx - 1)
      normalQuicksortIn n (pivotIdx + 1) r

def quicksortIn : Nat → Int → Int → Code Unit
  | 0, _, _ => .stuck
  | n + 1, l, r =>
    if r ≤ l then .exit
    else if r - l + 1 ≤ 5 then insertionSort l r
    else do
      let pivotIdx ← partition l r
      .fork
        (do quicksortIn n l (pivotIdx - 1); .exit)
        (do quicksortIn n (pivotIdx + 1) r; .exit)
        (.ret ())

def threadedQuicksortIn : Nat → Int → Int → Code Unit
  | 0, _, _ => .stuck
  | n + 1, l, r =>
    if r ≤ l then pure ()
    else if r - l + 1 ≤ 5 then insertionSort l r
    else do
      let pivotIdx ← partition l r
      .fork
        (threadedQuicksortIn n l (pivotIdx - 1))
        (threadedQuicksortIn n (pivotIdx + 1) r)
        (.ret ())

def normalQuicksort (l r : Int) : Code Unit := normalQuicksortIn (depth l r) l r

def quicksort (l r : Int) : Code Unit := quicksortIn (depth l r) l r

def threadedQuicksort (l r : Int) : Code Unit := threadedQuicksortIn (depth l r) l r

def sequence (f : Nat → Nat) : Source Nat := fun k _ _ _ => (f k,k + 1)

def segment (a : Cells) (l r : Int) : List Int :=
  (List.range (r - l + 1).toNat).map fun k : Nat => a (l + k)

def bySegment (choose : List Int → Nat) : Source Unit := fun _ a l r => (choose (segment a l r),())

def load (xs : List Int) : Cells := fun i => if 0 ≤ i then xs.getD i.toNat 0 else 0

end Sorts
