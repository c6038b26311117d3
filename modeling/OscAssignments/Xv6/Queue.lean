import OscAssignments.Xv6.Proc

namespace Xv6

def cell (k : Kernel) (q : Level) (i : Int) : Except Halt (Option Slot) :=
  if 0 ≤ i ∧ i < maxProcCount then .ok (k.prioQ q i) else .error .outOfBounds

def getFront (k : Kernel) (q : Level) : Except Halt (Option Slot) :=
  if k.prioQSize q = 0 then .error (.panic "Getting front of empty queue")
  else cell k q (k.prioQStart q)

def popFront (k : Kernel) (q : Level) : Except Halt (Option Slot × Kernel) :=
  if k.prioQSize q = 0 then .error (.panic "Empty stack, cannot pop")
  else do
    let p ← getFront k q
    let start := k.prioQStart q + 1
    let start := if start = maxProcCount then 0 else start
    .ok (p, (k.setStart q start).setSize q (k.prioQSize q - 1))

def backIndex (k : Kernel) (q : Level) : Int :=
  (k.prioQStart q + k.prioQSize q).tmod maxProcCount

def findPid (k : Kernel) (q : Level) (pid : Nat) (back : Int) : Nat → Int → Except Halt Bool
  | 0, _ => .error .diverges
  | n + 1, i =>
    if i = back then .ok false
    else do
      match ← cell k q i with
      | some r =>
        if (k.proc r).pid = pid then .ok true
        else findPid k q pid back n ((i + 1).tmod maxProcCount)
      | none => findPid k q pid back n ((i + 1).tmod maxProcCount)

def pushBack (k : Kernel) (q : Level) (p : Slot) : Except Halt Kernel := do
  if ← findPid k q (k.proc p).pid (backIndex k q) maxProcCount (k.prioQStart q) then .ok k
  else
    let i := backIndex k q
    if 0 ≤ i ∧ i < maxProcCount then
      .ok (((k.setAllotedQ p (q.val, i)).setCell q i (some p)).setSize q (k.prioQSize q + 1))
    else .error .outOfBounds

def closeGap (q : Level) (back : Int) : Nat → Int → Kernel → Except Halt Kernel
  | 0, _, _ => .error .diverges
  | n + 1, i, k =>
    if i = back then .ok k
    else do
      let next := (i + 1).tmod maxProcCount
      let c ← cell k q next
      let k := k.setCell q i c
      match c with
      | none => .error .nullDeref
      | some r => closeGap q back n next (k.setAllotedQ r ((k.proc r).stat.allotedQ.1, i))

def deleteIdx (k : Kernel) (q : Level) (idx : Int) : Except Halt Kernel := do
  match ← cell k q idx with
  | none => .error (.panic "Already deleted index")
  | some _ =>
    let k := (k.setCell q idx none).setSize q (k.prioQSize q - 1)
    closeGap q (backIndex k q) maxProcCount idx k

def getTicks (k : Kernel) (p : Slot) : Int := (k.ticks - (k.proc p).latestQTime).toInt

def getQIdx (k : Kernel) (p : Slot) : Int := (k.proc p).stat.allotedQ.1

def getQPos (k : Kernel) (p : Slot) : Int := (k.proc p).stat.allotedQ.2

def incPrio (k : Kernel) (p : Slot) : Except Halt Kernel :=
  let queueIdx := getQIdx k p
  let qPos := getQPos k p
  if queueIdx < 0 ∨ qPos < 0 then .error (.panic "Invalid qi")
  else do
    let q ← level queueIdx
    let k ← deleteIdx k q qPos
    if q = highestPrioQ then pushBack k q p
    else do
      let dest ← level (queueIdx - 1)
      pushBack k dest p

def decPrio (k : Kernel) (p : Slot) (retain : Bool) : Except Halt Kernel :=
  let queueIdx := getQIdx k p
  if queueIdx < 0 then .error (.panic "Invalid q")
  else
    let k := k.setProc p { k.proc p with latestQTime := k.ticks }
    if queueIdx = pqCount - 1 ∨ retain then do
      let q ← level queueIdx
      pushBack k q p
    else do
      let q ← level (queueIdx + 1)
      pushBack k q p

def countTick (k : Kernel) (p : Slot) (q : Level) : Kernel :=
  let st := (k.proc p).stat
  k.setProc p { k.proc p with
    stat := { st with actualTicks := Function.update st.actualTicks q (st.actualTicks q + 1) } }

def ageProc (k : Kernel) (p : Slot) : Except Halt Kernel :=
  let r := k.proc p
  if r.killed ∨ r.pid = 0 then .ok k
  else if r.state = .runnable ∨ r.state = .running then do
    let q ← level (getQIdx k p)
    let tcks := getTicks k p + 1
    let k := if r.state = .running then countTick k p q else k
    if r.state = .runnable ∧ tcks ≥ waitLimit q then incPrio k p else .ok k
  else .ok k

def updateStatsAndAging (k : Kernel) : Except Halt Kernel :=
  allSlots.foldlM ageProc { k with ticks := k.ticks + 1 }

end Xv6
