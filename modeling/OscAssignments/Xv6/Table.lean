import OscAssignments.Xv6.Queue

namespace Xv6

def enqueueWoken (b : Build) (k : Kernel) (p : Slot) : Except Halt Kernel :=
  if b = .mlfq then do
    let q ← level (getQIdx k p)
    pushBack k q p
  else .ok k

def wakeProc (b : Build) (chan : Option Chan) (k : Kernel) (p : Slot) : Except Halt Kernel :=
  if (k.proc p).state = .sleeping ∧ (k.proc p).chan = chan then do
    let k ← enqueueWoken b k p
    .ok (k.setState p .runnable)
  else .ok k

def wakeup1 (b : Build) (k : Kernel) (chan : Option Chan) : Except Halt Kernel :=
  allSlots.foldlM (wakeProc b chan) k

def findUnused (k : Kernel) : Option Slot :=
  allSlots.find? fun p => (k.proc p).state = .unused

def takeSlot (k : Kernel) (p : Slot) : Kernel :=
  { k.setProc p { k.proc p with state := .embryo, pid := k.nextpid } with nextpid := k.nextpid + 1 }

def enqueueNew (b : Build) (k : Kernel) (p : Slot) : Except Halt Kernel :=
  if b = .mlfq then do
    let k ← pushBack k highestPrioQ p
    .ok (k.setProc p { k.proc p with latestQTime := k.ticks })
  else .ok k

def initProcMyStyle (b : Build) (k : Kernel) (p : Slot) : Except Halt Kernel :=
  if (k.proc p).pid = 0 then .ok k
  else do
    let k ← enqueueNew b k p
    .ok (k.setProc p { k.proc p with ctime := k.ticks, rtime := 0, etime := -1 })

def setupProc (b : Build) (k : Kernel) (p : Slot) : Except Halt Kernel :=
  let k := if b = .pbs then k.setProc p { k.proc p with priority := defaultPriority } else k
  initProcMyStyle b k p

def ifMeraProc (k : Kernel) (p : Slot) : Bool := 2 < (k.proc p).pid

def forkPriority (k : Kernel) (np : Slot) : Int :=
  if ifMeraProc k np then ((k.proc np).pid / 2 : Nat) else defaultPriority

def forkCopy (b : Build) (k : Kernel) (curproc np : Slot) : Kernel :=
  let k := k.setProc np { k.proc np with parent := some curproc }
  if b = .pbs then k.setProc np { k.proc np with priority := forkPriority k np } else k

def abandonChild (b : Build) (curproc : Slot) (k : Kernel) (p : Slot) : Except Halt Kernel :=
  if (k.proc p).parent = some curproc then
    let k := k.setProc p { k.proc p with parent := k.initproc }
    if (k.proc p).state = .zombie then wakeup1 b k (k.initproc.map .proc) else .ok k
  else .ok k

def exit (b : Build) (k : Kernel) (curproc : Slot) : Except Halt Kernel :=
  if k.initproc = some curproc then .error (.panic "init exiting")
  else do
    let k := k.setProc curproc { k.proc curproc with etime := k.ticks }
    let k ← wakeup1 b k ((k.proc curproc).parent.map .proc)
    let k ← allSlots.foldlM (abandonChild b curproc) k
    .ok (k.setState curproc .zombie)

def isChild (k : Kernel) (curproc p : Slot) : Bool := (k.proc p).parent = some curproc

def findZombie (k : Kernel) (curproc : Slot) : Option Slot :=
  allSlots.find? fun p => isChild k curproc p && (k.proc p).state = .zombie

def havekids (k : Kernel) (curproc : Slot) : Bool := allSlots.any (isChild k curproc)

def reap (k : Kernel) (p : Slot) : Kernel :=
  k.setProc p { k.proc p with
    pid := 0, parent := none, killed := false, state := .unused, etime := k.ticks }

def waitxRtime (k : Kernel) (p : Slot) : Int := (k.proc p).rtime.toInt

def waitxWtime (k : Kernel) (p : Slot) : Int :=
  (k.ticks - (k.proc p).ctime - (k.proc p).rtime).toInt

inductive WaitResult where
  | reaped (p : Slot)
  | failed
  | sleep
  deriving DecidableEq, Repr

def waitResult (k : Kernel) (curproc : Slot) : WaitResult :=
  match findZombie k curproc with
  | some p => .reaped p
  | none => if !havekids k curproc ∨ (k.proc curproc).killed then .failed else .sleep

def goToSleep (k : Kernel) (p : Slot) (chan : Chan) : Kernel :=
  k.setProc p { k.proc p with chan := some chan, state := .sleeping }

def kill (k : Kernel) (pid : Int) : Kernel :=
  match allSlots.find? fun p => ((k.proc p).pid : Int) = pid with
  | none => k
  | some p =>
    let k := k.setProc p { k.proc p with killed := true }
    if (k.proc p).state = .sleeping then k.setState p .runnable else k

def setPrio (k : Kernel) (p : Slot) (newPriority : Int) : Kernel :=
  if newPriority < -1 ∨ newPriority > 100 then k
  else k.setProc p { k.proc p with priority := newPriority }

def preempts (b : Build) (k : Kernel) (prio : Int) (checkSamePrio : Bool) (p : Slot) : Bool :=
  (k.proc p).state = .runnable &&
    if b = .mlfq then
      getQIdx k p ≠ noQAllot && (getQIdx k p < prio || (getQIdx k p = prio && checkSamePrio))
    else (k.proc p).priority < prio || ((k.proc p).priority = prio && checkSamePrio)

def timeToPreempt (b : Build) (k : Kernel) (prio : Int) (checkSamePrio : Bool) : Nat :=
  match allSlots.find? (preempts b k prio checkSamePrio) with
  | some p => if b = .mlfq then (k.proc p).pid else 1
  | none => 0

end Xv6
