import OscAssignments.Lib.Runs
import OscAssignments.Xv6.Scheduler

namespace Xv6

inductive Task where
  | code
  | alloc (np : Slot)
  | enqueued (np : Slot)
  | copied (np : Slot)
  deriving DecidableEq, Repr

inductive Ctx where
  | forkret
  | yielded
  | slept
  | waiting (x : Bool)
  deriving DecidableEq, Repr

inductive Trap where
  | wakeTicks
  | tail
  | preempt
  | yield
  deriving DecidableEq, Repr

inductive Loc where
  | booting
  | idle
  | idleTrap
  | switched
  | code
  | trap (t : Trap)
  | returned
  deriving DecidableEq, Repr

structure Cpu where
  proc : Option Slot := none
  loc : Loc := .idle
  minPrio : Int := 101
  next : Nat := 0

structure Machine where
  kern : Kernel := {}
  cpu : Nat → Cpu := fun c => if c = 0 then { loc := .booting } else {}
  lock : Option Nat := none
  task : Option Slot → Task := fun _ => .code
  ctx : Slot → Ctx := fun _ => .forkret

inductive Op where
  | allocproc
  | kalloc (success : Bool)
  | copyuvm (success : Bool)
  | setRunnable
  | exit
  | wait (x : Bool)
  | sleep (chan : Chan)
  | wakeup (chan : Chan)
  | kill (pid : Int)
  | setPrio (newPriority : Int)
  | fault
  | timer
  | wakeTicks
  | tail
  | preempt
  | yield
  | sched
  | resume
  | back
  deriving DecidableEq, Repr

structure Action where
  cpu : Nat
  op : Op
  deriving DecidableEq, Repr

namespace Machine

def setCpu (m : Machine) (c : Nat) (s : Cpu) : Machine :=
  { m with cpu := Function.update m.cpu c s }

def setLoc (m : Machine) (c : Nat) (l : Loc) : Machine :=
  m.setCpu c { m.cpu c with loc := l }

def setTask (m : Machine) (o : Option Slot) (t : Task) : Machine :=
  { m with task := Function.update m.task o t }

def setCtx (m : Machine) (p : Slot) (x : Ctx) : Machine :=
  { m with ctx := Function.update m.ctx p x }

def curproc (m : Machine) (c : Nat) : Except Halt Slot :=
  match (m.cpu c).proc with
  | some p => .ok p
  | none => .error .nullDeref

def leave (m : Machine) (c : Nat) (p : Slot) (x : Ctx) : Machine :=
  { (m.setCtx p x).setLoc c .returned with lock := some c }

def allocproc (m : Machine) (c : Nat) : Except Halt Machine := do
  let o := (m.cpu c).proc
  need (((m.cpu c).loc = .booting ∨ (m.cpu c).loc = .code) ∧ m.task o = .code ∧ m.lock = none)
  match findUnused m.kern with
  | none => .ok m
  | some np => .ok ({ m with kern := takeSlot m.kern np }.setTask o (.alloc np))

def kalloc (b : Build) (m : Machine) (c : Nat) (success : Bool) : Except Halt Machine :=
  let o := (m.cpu c).proc
  match m.task o with
  | .alloc np =>
    if success then do
      need ((m.cpu c).loc = .booting ∨ (m.cpu c).loc = .code)
      let k ← setupProc b m.kern np
      let k := if (m.cpu c).loc = .booting then { k with initproc := some np } else k
      .ok (({ m with kern := k }.setCtx np .forkret).setTask o (.enqueued np))
    else do
      need ((m.cpu c).loc = .code)
      .ok ({ m with kern := m.kern.setState np .unused }.setTask o .code)
  | _ => .error .blocked

def copyuvm (b : Build) (m : Machine) (c : Nat) (success : Bool) : Except Halt Machine := do
  need ((m.cpu c).loc = .code)
  let p ← m.curproc c
  match m.task (some p) with
  | .enqueued np =>
    if success then .ok ({ m with kern := forkCopy b m.kern p np }.setTask (some p) (.copied np))
    else .ok ({ m with kern := m.kern.setState np .unused }.setTask (some p) .code)
  | _ => .error .blocked

def setRunnable (m : Machine) (c : Nat) : Except Halt Machine := do
  need (m.lock = none)
  let o := (m.cpu c).proc
  match (m.cpu c).loc, m.task o with
  | .booting, .enqueued np =>
    .ok (({ m with kern := m.kern.setState np .runnable }.setTask o .code).setLoc c .idle)
  | .code, .copied np => .ok ({ m with kern := m.kern.setState np .runnable }.setTask o .code)
  | _, _ => .error .blocked

def inUser (m : Machine) (c : Nat) : Prop :=
  (m.cpu c).loc = .code ∧ m.task (m.cpu c).proc = .code

instance (m : Machine) (c : Nat) : Decidable (m.inUser c) := inferInstanceAs (Decidable (_ ∧ _))

def exit (b : Build) (m : Machine) (c : Nat) : Except Halt Machine := do
  let p ← m.curproc c
  need (m.task (some p) = .code ∧ m.lock = none ∧ ((m.cpu c).loc = .code ∨
    ((m.cpu c).loc = .trap .tail ∧ (m.kern.proc p).killed)))
  let k ← Xv6.exit b m.kern p
  .ok ({ m with kern := k }.leave c p .forkret)

def waitLoop (m : Machine) (c : Nat) (p : Slot) (x : Bool) : Machine :=
  match waitResult m.kern p with
  | .reaped z => { m.setLoc c .code with kern := reap m.kern z, lock := none }
  | .failed => { m.setLoc c .code with lock := none }
  | .sleep => { m with kern := goToSleep m.kern p (.proc p) }.leave c p (.waiting x)

def wait (m : Machine) (c : Nat) (x : Bool) : Except Halt Machine := do
  let p ← m.curproc c
  need (m.inUser c ∧ m.lock = none)
  .ok (m.waitLoop c p x)

def sleep (m : Machine) (c : Nat) (chan : Chan) : Except Halt Machine := do
  let p ← m.curproc c
  need (m.inUser c ∧ m.lock = none ∧ chan.isProc = false)
  .ok ({ m with kern := goToSleep m.kern p chan }.leave c p .slept)

def wakeup (b : Build) (m : Machine) (c : Nat) (chan : Chan) : Except Halt Machine := do
  need (((m.cpu c).loc = .idle ∨ (m.cpu c).loc = .code) ∧ m.lock = none ∧ chan.isProc = false)
  let k ← wakeup1 b m.kern (some chan)
  .ok { m with kern := k }

def kill (m : Machine) (c : Nat) (pid : Int) : Except Halt Machine := do
  need (m.inUser c ∧ m.lock = none)
  .ok { m with kern := Xv6.kill m.kern pid }

def setPrio (m : Machine) (c : Nat) (newPriority : Int) : Except Halt Machine := do
  let p ← m.curproc c
  need (m.inUser c ∧ m.lock = none)
  .ok { m with kern := Xv6.setPrio m.kern p newPriority }

def fault (m : Machine) (c : Nat) : Except Halt Machine := do
  let p ← m.curproc c
  need (m.inUser c)
  .ok { m with kern := m.kern.setProc p { m.kern.proc p with killed := true } }

def account (k : Kernel) (p : Slot) : Kernel :=
  if (k.proc p).state = .running then k.setProc p { k.proc p with rtime := (k.proc p).rtime + 1 }
  else k

def advanceTicks (b : Build) (m : Machine) : Except Halt Kernel :=
  if b = .mlfq then do
    need (m.lock = none)
    updateStatsAndAging m.kern
  else .ok { m.kern with ticks := m.kern.ticks + 1 }

def timer (b : Build) (m : Machine) (c : Nat) : Except Halt Machine := do
  match (m.cpu c).loc with
  | .idle =>
    if c = 0 then do
      let k ← advanceTicks b m
      .ok ({ m with kern := k }.setLoc c .idleTrap)
    else .ok m
  | .code =>
    if c = 0 then do
      let k ← advanceTicks b m
      .ok ({ m with kern := k }.setLoc c (.trap .wakeTicks))
    else do
      let p ← m.curproc c
      .ok ({ m with kern := account m.kern p }.setLoc c (.trap .tail))
  | _ => .error .blocked

def wakeTicks (b : Build) (m : Machine) (c : Nat) : Except Halt Machine := do
  need (m.lock = none)
  match (m.cpu c).loc with
  | .idleTrap => do
    let k ← wakeup1 b m.kern (some .ticks)
    .ok ({ m with kern := k }.setLoc c .idle)
  | .trap .wakeTicks => do
    let p ← m.curproc c
    let k ← wakeup1 b m.kern (some .ticks)
    .ok ({ m with kern := account k p }.setLoc c (.trap .tail))
  | _ => .error .blocked

def tailTarget (b : Build) (k : Kernel) (p : Slot) : Except Halt Loc :=
  match b with
  | .default => .ok (if (k.proc p).state = .running then .trap .yield else .code)
  | .fcfs => .ok .code
  | .pbs => .ok (if (k.proc p).state = .running then .trap .preempt else .code)
  | .mlfq =>
    if getQIdx k p < 0 then .error (.panic "Invalid queue allotment")
    else do
      let q ← level (getQIdx k p)
      let tcks := getTicks k p
      .ok (if (k.proc p).state = .running then
          if tcks ≠ 0 ∧ tcks ≥ 2 ^ q.val then .trap .yield else .trap .preempt
        else .code)

def tail (b : Build) (m : Machine) (c : Nat) : Except Halt Machine := do
  let p ← m.curproc c
  need ((m.cpu c).loc = .trap .tail)
  let l ← tailTarget b m.kern p
  .ok (m.setLoc c l)

def preempt (b : Build) (m : Machine) (c : Nat) : Except Halt Machine := do
  let p ← m.curproc c
  need ((m.cpu c).loc = .trap .preempt ∧ m.lock = none)
  let x := if b = .mlfq then timeToPreempt b m.kern (getQIdx m.kern p) false
    else timeToPreempt b m.kern (m.kern.proc p).priority true
  .ok (m.setLoc c (if x ≠ 0 then .trap .yield else .code))

def yield (m : Machine) (c : Nat) : Except Halt Machine := do
  let p ← m.curproc c
  need ((m.cpu c).loc = .trap .yield ∧ m.lock = none)
  .ok ({ m with kern := m.kern.setState p .runnable }.leave c p .yielded)

def enter (m : Machine) (c : Nat) (p : Slot) (prio : Int) : Machine :=
  { m.setCpu c { proc := some p, loc := .switched, minPrio := prio, next := p.val + 1 } with
    lock := some c }

def release (m : Machine) (c : Nat) : Machine :=
  { m.setCpu c { m.cpu c with proc := none, loc := .idle } with lock := none }

def scan (b : Build) (m : Machine) (c next : Nat) (prio : Int) : Machine :=
  match scanTable b m.kern next prio with
  | some p => { m with kern := m.kern.setState p .running }.enter c p prio
  | none => m.release c

def sched (b : Build) (m : Machine) (c : Nat) : Except Halt Machine := do
  need ((m.cpu c).loc = .idle ∧ m.lock = none)
  match b with
  | .default => .ok (m.scan b c 0 101)
  | .pbs => .ok (m.scan b c 0 (minPrio m.kern))
  | .fcfs =>
    match minctimeProc m.kern with
    | some p => .ok ({ m with kern := m.kern.setState p .running }.enter c p 101)
    | none => .ok (m.release c)
  | .mlfq => do
    let (a, k) ← selectMlfq m.kern
    match a with
    | some p => do
      let k ← dispatchMlfq k p
      .ok ({ m with kern := k }.enter c p 101)
    | none => .ok ({ m with kern := k }.release c)

def clearChan (k : Kernel) (p : Slot) : Kernel := k.setProc p { k.proc p with chan := none }

def resume (m : Machine) (c : Nat) : Except Halt Machine := do
  let p ← m.curproc c
  need ((m.cpu c).loc = .switched ∧ m.lock = some c)
  match m.ctx p with
  | .forkret | .yielded => .ok { m.setLoc c .code with lock := none }
  | .slept => .ok { m.setLoc c .code with kern := clearChan m.kern p, lock := none }
  | .waiting x => .ok ({ m with kern := clearChan m.kern p }.waitLoop c p x)

def back (b : Build) (m : Machine) (c : Nat) : Except Halt Machine := do
  let p ← m.curproc c
  need ((m.cpu c).loc = .returned ∧ m.lock = some c)
  match b with
  | .default => .ok (m.scan b c (m.cpu c).next 101)
  | .fcfs => .ok (m.release c)
  | .mlfq => do
    let k ← requeue m.kern p
    .ok ({ m with kern := k }.release c)
  | .pbs =>
    if minPrio m.kern < (m.cpu c).minPrio then .ok (m.release c)
    else .ok (m.scan b c (m.cpu c).next (m.cpu c).minPrio)

def stepOn (b : Build) (m : Machine) (c : Nat) : Op → Except Halt Machine
  | .allocproc => m.allocproc c
  | .kalloc success => m.kalloc b c success
  | .copyuvm success => m.copyuvm b c success
  | .setRunnable => m.setRunnable c
  | .exit => m.exit b c
  | .wait x => m.wait c x
  | .sleep chan => m.sleep c chan
  | .wakeup chan => m.wakeup b c chan
  | .kill pid => m.kill c pid
  | .setPrio newPriority => m.setPrio c newPriority
  | .fault => m.fault c
  | .timer => m.timer b c
  | .wakeTicks => m.wakeTicks b c
  | .tail => m.tail b c
  | .preempt => m.preempt b c
  | .yield => m.yield c
  | .sched => m.sched b c
  | .resume => m.resume c
  | .back => m.back b c

def step (b : Build) (ncpu : Nat) (m : Machine) (a : Action) : Except Halt Machine := do
  need (a.cpu < ncpu)
  m.stepOn b a.cpu a.op

end Machine

def boot : Machine := {}

def xv6 (b : Build) (ncpu : Nat) : Runs.System Machine Action Halt where
  init := boot
  step := Machine.step b ncpu

end Xv6
