import Mathlib.Tactic
import OscAssignments.Lib.LinkRing

namespace User.Malloc
open LinkRing

structure Header where
  ptr : Nat
  size : Nat
  deriving DecidableEq

abbrev Mem := Nat → Header

structure Block where
  addr : Nat
  size : Nat
  deriving DecidableEq

structure Heap where
  mem : Mem
  freep : Nat
  brk : Nat
  got : List Block

def setPtr (mem : Mem) (p v : Nat) : Mem := Function.update mem p { mem p with ptr := v }

def setSize (mem : Mem) (p v : Nat) : Mem := Function.update mem p { mem p with size := v }

def next (mem : Mem) (p : Nat) : Nat := (mem p).ptr

def stops (mem : Mem) (bp p : Nat) : Bool :=
  (p < bp && bp < (mem p).ptr) || ((mem p).ptr ≤ p && (p < bp || bp < (mem p).ptr))

def joinUpper (mem : Mem) (bp p : Nat) : Mem :=
  if bp + (mem bp).size = (mem p).ptr then
    let upper := (mem p).ptr
    let mem := setSize mem bp ((mem bp).size + (mem upper).size)
    setPtr mem bp (mem upper).ptr
  else setPtr mem bp (mem p).ptr

def joinLower (mem : Mem) (bp p : Nat) : Mem :=
  if p + (mem p).size = bp then
    let mem := setSize mem p ((mem p).size + (mem bp).size)
    setPtr mem p (mem bp).ptr
  else setPtr mem p bp

def free (h : Heap) (ap : Nat) : Option Heap :=
  let bp := ap - 1
  (seek (next h.mem) (stops h.mem bp) (h.brk + 3) h.freep).map fun p =>
    { h with mem := joinLower (joinUpper h.mem bp p) bp p, freep := p }

def unit : Nat := 8

def nunits (nbytes : Nat) : Nat := (nbytes + unit - 1) % 2 ^ 32 / unit + 1

inductive Outcome (α : Type) where
  | done (a : α)
  | refused
  | stuck

def Outcome.resume (h : Heap) (go : Heap → Option (Heap × Nat)) :
    Outcome Heap → Option (Heap × Nat)
  | .done h => go h
  | .refused => some (h,0)
  | .stuck => none

def morecore (granted : Bool) (h : Heap) (nu : Nat) : Outcome Heap :=
  let nu := max nu 4096
  if 2 ^ 31 ≤ nu * unit then .stuck
  else if granted then
    match free { h with
        mem := setSize h.mem h.brk nu
        brk := h.brk + nu
        got := ⟨h.brk,nu⟩ :: h.got } (h.brk + 1) with
    | some h => .done h
    | none => .stuck
  else .refused

def take (h : Heap) (units prevp p : Nat) : Heap × Nat :=
  if (h.mem p).size = units then
    ({ h with mem := setPtr h.mem prevp (h.mem p).ptr, freep := prevp },p + 1)
  else
    let mem := setSize h.mem p ((h.mem p).size - units)
    let q := p + (mem p).size
    ({ h with mem := setSize mem q units, freep := prevp },q + 1)

def search (granted : Bool) (units : Nat) : Nat → Heap → Nat → Nat → Option (Heap × Nat)
  | 0, _, _, _ => none
  | n + 1, h, prevp, p =>
    if units ≤ (h.mem p).size then some (take h units prevp p)
    else if p = h.freep then
      (morecore granted h units).resume h fun h =>
        search granted units n h h.freep (h.mem h.freep).ptr
    else search granted units n h p (h.mem p).ptr

def start (base : Nat) (h : Heap) : Heap :=
  if h.freep = 0 then
    { h with mem := setSize (setPtr h.mem base base) base 0, freep := base }
  else h

def malloc (base : Nat) (granted : Bool) (h : Heap) (nbytes : Nat) : Option (Heap × Nat) :=
  let h := start base h
  search granted (nunits nbytes) (2 * h.brk + 8) h h.freep (h.mem h.freep).ptr

end User.Malloc
