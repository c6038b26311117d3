import OscAssignments.Lib.Runs
import OscAssignments.Xv6.Proc
import OscAssignments.Console.Input

namespace Console
open Runs Xv6

variable {n : Nat}

inductive Pc where
  | user (ret : Int) (dst : List UInt8)
  | lock (target n : Nat) (dst : List UInt8)
  | read (target n : Nat) (dst : List UInt8)
  | sleep (target n : Nat) (dst : List UInt8)
  | asleep (target n : Nat) (dst : List UInt8)
  deriving DecidableEq, Repr

structure Machine (n : Nat) extends Input where
  lock : Option (Fin n)
  killed : Fin n → Bool
  pc : Fin n → Pc

inductive Act (n : Nat) where
  | key (c : UInt8)
  | read (p : Fin n) (target : Nat)
  | kill (p : Fin n)
  | run (p : Fin n)

def Pc.wake : Pc → Pc
  | .asleep target n dst => .lock target n dst
  | pc => pc

namespace Machine

def setPc (m : Machine n) (p : Fin n) (pc : Pc) : Machine n :=
  { m with pc := Function.update m.pc p pc }

@[simp] theorem setPc_pc (m : Machine n) (p : Fin n) (pc : Pc) :
    (m.setPc p pc).pc = Function.update m.pc p pc := rfl

def wakeup (m : Machine n) : Machine n := { m with pc := fun p => (m.pc p).wake }

def unlock (m : Machine n) : Machine n := { m with lock := none }

def consoleintr (m : Machine n) (c : UInt8) : Machine n :=
  let (input,wakes) := m.toInput.key c
  let m := { m with toInput := input }
  if wakes then m.wakeup else m

def consoleread (m : Machine n) (p : Fin n) (target k : Nat) (dst : List UInt8) : Machine n :=
  if k = 0 then m.unlock.setPc p (.user (target - k : Int) dst)
  else if m.r = m.w then
    if m.killed p then m.unlock.setPc p (.user (-1) dst) else m.setPc p (.sleep target k dst)
  else
    let c := m.cell m.r
    let m := { m with r := m.r + 1 }
    if c = C 'D' then
      if k < target then { m with r := m.r - 1 }.unlock.setPc p (.user (target - k : Int) dst)
      else m.unlock.setPc p (.user (target - k : Int) dst)
    else if c = newline then
      m.unlock.setPc p (.user (target - (k - 1 : Nat) : Int) (dst ++ [c]))
    else m.setPc p (.read target (k - 1) (dst ++ [c]))

def run (m : Machine n) (p : Fin n) : Except Halt (Machine n) :=
  match m.pc p with
  | .user _ _ => .error .blocked
  | .asleep _ _ _ => .error .blocked
  | .lock target k dst => do
    need (m.lock = none)
    .ok ({ m with lock := some p }.setPc p (.read target k dst))
  | .read target k dst => .ok (m.consoleread p target k dst)
  | .sleep target k dst => .ok (m.unlock.setPc p (.asleep target k dst))

def userMode (m : Machine n) (p : Fin n) : Bool :=
  match m.pc p with
  | .user _ _ => true
  | _ => false

def step (m : Machine n) : Act n → Except Halt (Machine n)
  | .key c => do
    need (m.lock = none)
    .ok (m.consoleintr c)
  | .read p target => do
    need (m.userMode p)
    .ok (m.setPc p (.lock target target []))
  | .kill p => .ok ({ m with killed := Function.update m.killed p true }.setPc p (m.pc p).wake)
  | .run p => m.run p

end Machine

def boot (buf : Nat → UInt8) : Machine n where
  buf := buf
  r := 0
  w := 0
  e := 0
  lock := none
  killed := fun _ => false
  pc := fun _ => .user 0 []

def console (n : Nat) (buf : Nat → UInt8) : System (Machine n) (Act n) Halt :=
  ⟨boot buf,Machine.step⟩

def consoleRun (p : Fin n) : List (Act n) :=
  [.read p 10,.run p,.run p,.run p,.key 97,.key 98,.key (C 'H'),.key 99,.key newline,
    .run p,.run p,.run p]

end Console
