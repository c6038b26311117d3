import OscAssignments.Lib.Runs
import Mathlib.Logic.Function.Basic

namespace Pipe
open Runs

variable {n : Nat}

inductive Fault where
  | blocked
  | panic (msg : String)
  | freed
  deriving DecidableEq, Repr

def need (c : Prop) [Decidable c] : Except Fault Unit := if c then .ok () else .error .blocked

theorem need_eq_ok {c : Prop} [Decidable c] {u : Unit} : need c = .ok u ↔ c := by
  unfold need
  split_ifs with h
  · exact iff_of_true rfl h
  · exact iff_of_false (by simp) h

theorem need_eq_error {c : Prop} [Decidable c] {e : Fault} :
    need c = .error e ↔ ¬ c ∧ e = .blocked := by
  unfold need
  split_ifs with h
  · exact iff_of_false (by simp) fun hn => hn.1 h
  · rw [Except.error.injEq,eq_comm]
    exact (and_iff_right h).symm

inductive End where
  | read
  | write
  deriving DecidableEq, Repr

def End.other : End → End
  | .read => .write
  | .write => .read

abbrev pipesize : Nat := 512

inductive Pc where
  | user (ret : Int)
  | close (e : End)
  | writeLock (addr : List UInt8) (i : Nat)
  | write (addr : List UInt8) (i : Nat)
  | writeSleep (addr : List UInt8) (i : Nat)
  | writeAsleep (addr : List UInt8) (i : Nat)
  | readLock (size : Nat)
  | readTest (size : Nat)
  | readSleep (size : Nat)
  | readAsleep (size : Nat)
  | read (size : Nat) (addr : List UInt8)
  deriving DecidableEq, Repr

structure Machine (n : Nat) where
  data : Nat → UInt8
  nread : BitVec 32
  nwrite : BitVec 32
  isOpen : End → Bool
  lock : Option (Fin n)
  freed : Bool
  ref : End → Nat
  fds : Fin n → End → Nat
  killed : Fin n → Bool
  pc : Fin n → Pc

inductive Act (n : Nat) where
  | filedup (p q : Fin n) (e : End)
  | fileclose (p : Fin n) (e : End)
  | write (p : Fin n) (addr : List UInt8)
  | read (p : Fin n) (size : Nat)
  | kill (p : Fin n)
  | run (p : Fin n)

def Pc.wake (e : End) : Pc → Pc
  | .writeAsleep addr i => if e = .write then .writeLock addr i else .writeAsleep addr i
  | .readAsleep size => if e = .read then .readLock size else .readAsleep size
  | pc => pc

def Pc.rouse (pc : Pc) : Pc := (pc.wake .read).wake .write

def Pc.inside : Pc → Bool
  | .user _ => false
  | .writeAsleep _ _ => false
  | .readAsleep _ => false
  | _ => true

namespace Machine

def setPc (m : Machine n) (p : Fin n) (pc : Pc) : Machine n :=
  { m with pc := Function.update m.pc p pc }

@[simp] theorem setPc_pc (m : Machine n) (p : Fin n) (pc : Pc) :
    (m.setPc p pc).pc = Function.update m.pc p pc := rfl

def wakeup (m : Machine n) (e : End) : Machine n := { m with pc := fun p => (m.pc p).wake e }

def unlock (m : Machine n) : Machine n := { m with lock := none }

def full (m : Machine n) : Prop := m.nwrite = m.nread + BitVec.ofNat 32 pipesize

def empty (m : Machine n) : Prop := m.nread = m.nwrite

instance (m : Machine n) : Decidable m.full := inferInstanceAs (Decidable (_ = _))

instance (m : Machine n) : Decidable m.empty := inferInstanceAs (Decidable (_ = _))

def front (m : Machine n) : UInt8 := m.data (m.nread.toNat % pipesize)

def push (m : Machine n) (b : UInt8) : Machine n :=
  { m with
    data := Function.update m.data (m.nwrite.toNat % pipesize) b
    nwrite := m.nwrite + 1 }

def pop (m : Machine n) : Machine n := { m with nread := m.nread + 1 }

def filedup (m : Machine n) (e : End) : Except Fault (Machine n) :=
  if m.ref e < 1 then .error (.panic "filedup")
  else .ok { m with ref := Function.update m.ref e (m.ref e + 1) }

def fileclose (m : Machine n) (p : Fin n) (e : End) : Except Fault (Machine n) :=
  if m.ref e < 1 then .error (.panic "fileclose")
  else if m.ref e - 1 > 0 then .ok { m with ref := Function.update m.ref e (m.ref e - 1) }
  else .ok ({ m with ref := Function.update m.ref e 0 }.setPc p (.close e))

def setFds (m : Machine n) (p : Fin n) (e : End) (k : Nat) : Machine n :=
  { m with fds := Function.update m.fds p (Function.update (m.fds p) e k) }

def pipeclose (m : Machine n) (e : End) : Machine n :=
  let m := { m with isOpen := Function.update m.isOpen e false }.wakeup e.other
  if m.isOpen .read = false ∧ m.isOpen .write = false then { m with freed := true } else m

def pipewrite (m : Machine n) (p : Fin n) (addr : List UInt8) (i : Nat) : Machine n :=
  match addr[i]? with
  | none => (m.wakeup .read).unlock.setPc p (.user addr.length)
  | some b =>
    if m.full then
      if m.isOpen .read = false ∨ m.killed p = true then m.unlock.setPc p (.user (-1))
      else (m.wakeup .read).setPc p (.writeSleep addr i)
    else (m.push b).setPc p (.write addr (i + 1))

def readTest (m : Machine n) (p : Fin n) (size : Nat) : Machine n :=
  if m.empty ∧ m.isOpen .write = true then
    if m.killed p then m.unlock.setPc p (.user (-1)) else m.setPc p (.readSleep size)
  else m.setPc p (.read size [])

def piperead (m : Machine n) (p : Fin n) (size : Nat) (addr : List UInt8) : Machine n :=
  if addr.length < size ∧ ¬ m.empty then m.pop.setPc p (.read size (addr ++ [m.front]))
  else (m.wakeup .write).unlock.setPc p (.user addr.length)

def run (m : Machine n) (p : Fin n) : Except Fault (Machine n) := do
  need ((m.pc p).inside = true)
  if m.freed then .error .freed
  else match m.pc p with
    | .close e => do
      need (m.lock = none)
      .ok ((m.pipeclose e).setPc p (.user 0))
    | .writeLock addr i => do
      need (m.lock = none)
      .ok ({ m with lock := some p }.setPc p (.write addr i))
    | .write addr i => .ok (m.pipewrite p addr i)
    | .writeSleep addr i => .ok (m.unlock.setPc p (.writeAsleep addr i))
    | .readLock size => do
      need (m.lock = none)
      .ok ({ m with lock := some p }.setPc p (.readTest size))
    | .readTest size => .ok (m.readTest p size)
    | .readSleep size => .ok (m.unlock.setPc p (.readAsleep size))
    | .read size addr => .ok (m.piperead p size addr)
    | _ => .error .blocked

def userMode (m : Machine n) (p : Fin n) : Bool :=
  match m.pc p with
  | .user _ => true
  | _ => false

def step (m : Machine n) : Act n → Except Fault (Machine n)
  | .filedup p q e => do
    need (m.userMode p ∧ m.userMode q ∧ 0 < m.fds p e)
    let m ← m.filedup e
    .ok (m.setFds q e (m.fds q e + 1))
  | .fileclose p e => do
    need (m.userMode p ∧ 0 < m.fds p e)
    (m.setFds p e (m.fds p e - 1)).fileclose p e
  | .write p addr => do
    need (m.userMode p ∧ 0 < m.fds p .write)
    .ok (m.setPc p (.writeLock addr 0))
  | .read p size => do
    need (m.userMode p ∧ 0 < m.fds p .read)
    .ok (m.setPc p (.readLock size))
  | .kill p => .ok ({ m with killed := Function.update m.killed p true }.setPc p (m.pc p).rouse)
  | .run p => m.run p

end Machine

def pipealloc (data : Nat → UInt8) (p : Fin n) : Machine n where
  data := data
  nread := 0
  nwrite := 0
  isOpen := fun _ => true
  lock := none
  freed := false
  ref := fun _ => 1
  fds := fun q _ => if q = p then 1 else 0
  killed := fun _ => false
  pc := fun _ => .user 0

def pipe (data : Nat → UInt8) (p : Fin n) : System (Machine n) (Act n) Fault :=
  ⟨pipealloc data p,Machine.step⟩

def pipeRun (p q : Fin n) : List (Act n) :=
  [.filedup p q .read,.filedup p q .write,.fileclose q .write,.fileclose p .read,
    .read q 2,.run q,.run q,.run q,
    .write p [1,2,3],.run p,.run p,.run p,.run p,.run p,.run q,.run q,.run q]

end Pipe
