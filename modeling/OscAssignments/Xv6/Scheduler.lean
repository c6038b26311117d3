import OscAssignments.Xv6.Table

namespace Xv6

def procIsDead (k : Kernel) : Option Slot → Bool
  | none => true
  | some p => (k.proc p).killed || (k.proc p).pid = 0 || (k.proc p).state ≠ .runnable

def earlierCtime (k : Kernel) (best : Option Slot) (p : Slot) : Option Slot :=
  if (k.proc p).state = .runnable then
    match best with
    | some m => if (k.proc p).ctime.toInt < (k.proc m).ctime.toInt then some p else some m
    | none => some p
  else best

def minctimeProc (k : Kernel) : Option Slot := allSlots.foldl (earlierCtime k) none

def refill (k : Kernel) (p : Slot) : Except Halt Kernel :=
  if (k.proc p).state = .runnable then
    if getQIdx k p = noQAllot then
      .error (.panic "Should have been alloted in allocproc/wakeup1")
    else do
      let q ← level (getQIdx k p)
      if k.prioQSize q = 0 then pushBack k q p else .ok k
  else .ok k

def discardDead (q : Level) : Nat → Kernel → Except Halt (Option Slot × Kernel)
  | 0, k => if k.prioQSize q = 0 then .ok (none, k) else .error .diverges
  | n + 1, k =>
    if k.prioQSize q = 0 then .ok (none, k)
    else do
      let p ← getFront k q
      if procIsDead k p then do
        let (_, k) ← popFront k q
        discardDead q n k
      else .ok (p, k)

def searchLevel (found : Option Slot × Kernel) (q : Level) : Except Halt (Option Slot × Kernel) :=
  match found.1 with
  | some _ => .ok found
  | none => discardDead q maxProcCount found.2

def selectMlfq (k : Kernel) : Except Halt (Option Slot × Kernel) := do
  let k ← allSlots.foldlM refill k
  allLevels.foldlM searchLevel (none, k)

def dispatchMlfq (k : Kernel) (p : Slot) : Except Halt Kernel :=
  if (k.proc p).state ≠ .runnable then
    .error (.panic "Non runnable process selected for execution\n")
  else do
    let q ← level (getQIdx k p)
    let (_, k) ← popFront k q
    let r := k.proc p
    .ok (k.setProc p { r with
      stat := { r.stat with numRun := r.stat.numRun + 1 }, latestQTime := k.ticks,
      state := .running })

def requeue (k : Kernel) (p : Slot) : Except Halt Kernel := do
  let q ← level (getQIdx k p)
  let procTcks := getTicks k p
  let st := (k.proc p).state
  if st = .sleeping ∨ (st = .runnable ∧ procTcks > 0 ∧ procTcks < 2 ^ q.val) then decPrio k p true
  else if st = .runnable ∧ procTcks = 2 ^ q.val then decPrio k p false
  else .ok k

def lowerPrio (k : Kernel) (minPrio : Int) (p : Slot) : Int :=
  if (k.proc p).state = .runnable ∧ (k.proc p).priority < minPrio then (k.proc p).priority
  else minPrio

def minPrio (k : Kernel) : Int := allSlots.foldl (lowerPrio k) 101

def scanned (b : Build) (k : Kernel) (next : Nat) (prio : Int) (p : Slot) : Bool :=
  next ≤ p.val && (k.proc p).state = .runnable && (b ≠ .pbs || (k.proc p).priority = prio)

def scanTable (b : Build) (k : Kernel) (next : Nat) (prio : Int) : Option Slot :=
  allSlots.find? (scanned b k next prio)

end Xv6
