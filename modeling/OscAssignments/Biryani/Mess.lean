import Mathlib.Tactic
import OscAssignments.Lib.Runs

namespace Biryani
open Runs

structure Config where
  robotCount : Nat
  studentCount : Nat
  tableCount : Nat

abbrev RobotId (c : Config) := Fin c.robotCount

abbrev StudentId (c : Config) := Fin c.studentCount

abbrev TableId (c : Config) := Fin c.tableCount

structure Table where
  biryaniAmountRemaining : Int
  readyToServe : Bool
  slotsLeft : Int
  studentsEatingHere : Nat → Int

structure Robot where
  biryaniVesselsRemaining : Int
  vesselSize : Int

inductive Thread (c : Config) where
  | student (x : StudentId c)
  | table (t : TableId c)
  | robot (r : RobotId c)
  | main
  deriving DecidableEq

inductive Mutex (c : Config) where
  | tableMutexes (t : TableId c)
  | robotMutexes (r : RobotId c)
  deriving DecidableEq

inductive StudentPc (c : Config) where
  | seeking (i : Nat)
  | looking (t : TableId c)
  | passing (t : TableId c)
  | slotted (t : TableId c)
  | seated (t : TableId c)
  | done
  deriving DecidableEq

inductive TablePc (c : Config) where
  | start
  | scan (i : Nat)
  | lockRobot (r : RobotId c)
  | checkRobot (r : RobotId c)
  | lockTable (r : RobotId c)
  | fill (r : RobotId c)
  | unlockTable (r : RobotId c)
  | unlockRobot (r : RobotId c) (flag : Bool)
  | afterScan (flag : Bool)
  | serving
  | lockPeek
  | peek
  | unlockPeek (x : Int)
  | enter
  | entered
  | opening
  | opened
  | waitLock
  | waitCheck
  | waitUnlock
  | announcing
  | announced
  | closing
  | left
  deriving DecidableEq

inductive RobotPc where
  | cooking
  | cooked (numOfVessels capacityStudents : Int)
  | lockFill (numOfVessels capacityStudents : Int)
  | fill (numOfVessels capacityStudents : Int)
  | unlockFill
  | recheck
  | waitLock
  | waitCheck
  | waitUnlock
  | trylock
  | unlockLast
  | left
  deriving DecidableEq

inductive MainPc (c : Config) where
  | joinStudents (i : Nat)
  | endGame
  | tableLock (again : Bool) (i : Nat)
  | tableZero (again : Bool) (t : TableId c)
  | tableUnlock (again : Bool) (t : TableId c)
  | robotLock (i : Nat)
  | robotZero (r : RobotId c)
  | robotUnlock (r : RobotId c)
  | joinTables (i : Nat)
  | robotFinal (i : Nat)
  | joinRobot (r : RobotId c)
  | finished
  deriving DecidableEq

structure State (c : Config) where
  tables : TableId c → Table
  robots : RobotId c → Robot
  gameOver : Bool
  mutex : Mutex c → Option (Thread c)
  student : StudentId c → StudentPc c
  table : TableId c → TablePc c
  robot : RobotId c → RobotPc
  main : MainPc c
  offered : TableId c → Int
  recorded : TableId c → List (StudentId c)
  taken : List (StudentId c × TableId c)
  served : List (TableId c × Int)
  loads : List (RobotId c × Int × TableId c)
  loaded : TableId c → Int

inductive Fault where
  | blocked
  | outOfBounds
  deriving DecidableEq

inductive Act (c : Config) where
  | student (x : StudentId c)
  | table (t : TableId c) (rand : Nat)
  | robot (r : RobotId c) (rand rand' : Nat)
  | main

def init (c : Config) : State c where
  tables := fun _ => ⟨0,false,0,fun _ => 0⟩
  robots := fun _ => ⟨0,0⟩
  gameOver := false
  mutex := fun _ => none
  student := fun _ => .seeking 0
  table := fun _ => .start
  robot := fun _ => .cooking
  main := .joinStudents 0
  offered := fun _ => 0
  recorded := fun _ => []
  taken := []
  served := []
  loads := []
  loaded := fun _ => 0

def genRandomInRange (rand : Nat) (l r : Int) : Int := rand % (r - l + 1) + l

def clear (cells : Nat → Int) : Nat → Int := fun j => if j < 10 then -1 else cells j

def firstFree (cells : Nat → Int) : Option Nat := (List.range 11).find? fun j => cells j = -1

def announce (cells : Nat → Int) : List Int :=
  ((List.range 10).map cells).takeWhile fun x => x ≠ -1

namespace State
variable {c : Config}

def studentGoto (s : State c) (x : StudentId c) (pc : StudentPc c) : State c :=
  { s with student := Function.update s.student x pc }

def tableGoto (s : State c) (t : TableId c) (pc : TablePc c) : State c :=
  { s with table := Function.update s.table t pc }

def robotGoto (s : State c) (r : RobotId c) (pc : RobotPc) : State c :=
  { s with robot := Function.update s.robot r pc }

def setTable (s : State c) (t : TableId c) (tb : Table) : State c :=
  { s with tables := Function.update s.tables t tb }

def setRobot (s : State c) (r : RobotId c) (rb : Robot) : State c :=
  { s with robots := Function.update s.robots r rb }

def lock (s : State c) (m : Mutex c) (th : Thread c) : Except Fault (State c) :=
  if s.mutex m = none then .ok { s with mutex := Function.update s.mutex m (some th) }
  else .error .blocked

def unlock (s : State c) (m : Mutex c) : State c :=
  { s with mutex := Function.update s.mutex m none }

def takeSlot (s : State c) (x : StudentId c) (t : TableId c) : State c :=
  { s.setTable t { s.tables t with slotsLeft := (s.tables t).slotsLeft - 1 } with
    taken := s.taken ++ [(x,t)] }

def record (s : State c) (x : StudentId c) (t : TableId c) (j : Nat) : State c :=
  { s.setTable t { s.tables t with
      studentsEatingHere := Function.update (s.tables t).studentsEatingHere j (x : Int) } with
    recorded := Function.update s.recorded t (s.recorded t ++ [x]) }

def studentStep (s : State c) (x : StudentId c) : Except Fault (State c) :=
  match s.student x with
  | .seeking i =>
    if h : i < c.tableCount then do
      let s ← s.lock (.tableMutexes ⟨i,h⟩) (.student x)
      pure (s.studentGoto x (.looking ⟨i,h⟩))
    else .ok (s.studentGoto x (.seeking 0))
  | .looking t =>
    if (s.tables t).readyToServe ∧ 0 < (s.tables t).slotsLeft then
      .ok ((s.takeSlot x t).studentGoto x (.slotted t))
    else .ok (s.studentGoto x (.passing t))
  | .passing t => .ok ((s.unlock (.tableMutexes t)).studentGoto x (.seeking (t + 1)))
  | .slotted t =>
    match firstFree (s.tables t).studentsEatingHere with
    | some j => .ok ((s.record x t j).studentGoto x (.seated t))
    | none => .error .outOfBounds
  | .seated t => .ok ((s.unlock (.tableMutexes t)).studentGoto x .done)
  | .done => .error .blocked

def openRound (s : State c) (t : TableId c) (rand : Nat) : State c :=
  let slots := genRandomInRange rand 1 (min 10 (s.tables t).biryaniAmountRemaining)
  { s.setTable t { s.tables t with
      studentsEatingHere := clear (s.tables t).studentsEatingHere
      slotsLeft := slots
      readyToServe := true } with
    offered := Function.update s.offered t slots
    recorded := Function.update s.recorded t [] }

def serveRound (s : State c) (t : TableId c) : State c :=
  { s.setTable t { s.tables t with
      readyToServe := false
      studentsEatingHere := clear (s.tables t).studentsEatingHere } with
    served := s.served ++ (announce (s.tables t).studentsEatingHere).map (Prod.mk t) }

def takeVessel (s : State c) (t : TableId c) (r : RobotId c) : State c :=
  { s.setRobot r { s.robots r with
      biryaniVesselsRemaining := (s.robots r).biryaniVesselsRemaining - 1 } with
    loads := s.loads ++ [(r,(s.robots r).biryaniVesselsRemaining,t)] }

def fillTable (s : State c) (t : TableId c) (r : RobotId c) : State c :=
  { s.setTable t { s.tables t with
      biryaniAmountRemaining := (s.tables t).biryaniAmountRemaining + (s.robots r).vesselSize } with
    loaded := Function.update s.loaded t (s.loaded t + (s.robots r).vesselSize) }

def tableStep (s : State c) (t : TableId c) (rand : Nat) : Except Fault (State c) :=
  match s.table t with
  | .start =>
    .ok ((s.setTable t { s.tables t with biryaniAmountRemaining := 0 }).tableGoto t (.scan 0))
  | .scan i =>
    if h : i < c.robotCount then
      if s.gameOver then .ok (s.tableGoto t .left)
      else .ok (s.tableGoto t (.lockRobot ⟨i,h⟩))
    else .ok (s.tableGoto t (.afterScan false))
  | .lockRobot r => do
    let s ← s.lock (.robotMutexes r) (.table t)
    pure (s.tableGoto t (.checkRobot r))
  | .checkRobot r =>
    if 0 < (s.robots r).biryaniVesselsRemaining then
      .ok ((s.takeVessel t r).tableGoto t (.lockTable r))
    else .ok (s.tableGoto t (.unlockRobot r false))
  | .lockTable r => do
    let s ← s.lock (.tableMutexes t) (.table t)
    pure (s.tableGoto t (.fill r))
  | .fill r => .ok ((s.fillTable t r).tableGoto t (.unlockTable r))
  | .unlockTable r => .ok ((s.unlock (.tableMutexes t)).tableGoto t (.unlockRobot r true))
  | .unlockRobot r flag =>
    .ok ((s.unlock (.robotMutexes r)).tableGoto t
      (if flag then .afterScan true else .scan (r + 1)))
  | .afterScan flag =>
    if s.gameOver then .ok (s.tableGoto t .left)
    else .ok (s.tableGoto t (if flag then .serving else .scan 0))
  | .serving =>
    if s.gameOver then .ok (s.tableGoto t .closing) else .ok (s.tableGoto t .lockPeek)
  | .lockPeek => do
    let s ← s.lock (.tableMutexes t) (.table t)
    pure (s.tableGoto t .peek)
  | .peek => .ok (s.tableGoto t (.unlockPeek (s.tables t).biryaniAmountRemaining))
  | .unlockPeek x =>
    .ok ((s.unlock (.tableMutexes t)).tableGoto t (if 0 < x then .enter else .serving))
  | .enter => do
    let s ← s.lock (.tableMutexes t) (.table t)
    pure (s.tableGoto t .entered)
  | .entered =>
    if s.gameOver then .ok (s.tableGoto t .serving) else .ok (s.tableGoto t .opening)
  | .opening => .ok ((s.openRound t rand).tableGoto t .opened)
  | .opened => .ok ((s.unlock (.tableMutexes t)).tableGoto t .waitLock)
  | .waitLock => do
    let s ← s.lock (.tableMutexes t) (.table t)
    pure (s.tableGoto t .waitCheck)
  | .waitCheck =>
    if (s.tables t).slotsLeft = 0 then .ok (s.tableGoto t .announcing)
    else .ok (s.tableGoto t .waitUnlock)
  | .waitUnlock => .ok ((s.unlock (.tableMutexes t)).tableGoto t .waitLock)
  | .announcing => .ok ((s.serveRound t).tableGoto t .announced)
  | .announced => .ok ((s.unlock (.tableMutexes t)).tableGoto t .serving)
  | .closing => if s.gameOver then .ok (s.tableGoto t .left) else .ok (s.tableGoto t (.scan 0))
  | .left => .error .blocked

def robotStep (s : State c) (r : RobotId c) (rand rand' : Nat) : Except Fault (State c) :=
  match s.robot r with
  | .cooking =>
    .ok (s.robotGoto r (.cooked (genRandomInRange rand 1 10) (genRandomInRange rand' 25 50)))
  | .cooked n size =>
    if s.gameOver then .ok (s.robotGoto r .left) else .ok (s.robotGoto r (.lockFill n size))
  | .lockFill n size => do
    let s ← s.lock (.robotMutexes r) (.robot r)
    pure (s.robotGoto r (.fill n size))
  | .fill n size => .ok ((s.setRobot r ⟨n,size⟩).robotGoto r .unlockFill)
  | .unlockFill => .ok ((s.unlock (.robotMutexes r)).robotGoto r .recheck)
  | .recheck => if s.gameOver then .ok (s.robotGoto r .left) else .ok (s.robotGoto r .waitLock)
  | .waitLock => do
    let s ← s.lock (.robotMutexes r) (.robot r)
    pure (s.robotGoto r .waitCheck)
  | .waitCheck =>
    if (s.robots r).biryaniVesselsRemaining = 0 then .ok (s.robotGoto r .trylock)
    else .ok (s.robotGoto r .waitUnlock)
  | .waitUnlock => .ok ((s.unlock (.robotMutexes r)).robotGoto r .waitLock)
  | .trylock =>
    if s.mutex (.robotMutexes r) = none then
      .ok ({ s with mutex := Function.update s.mutex (.robotMutexes r) (some (.robot r)) }.robotGoto r
        .unlockLast)
    else .ok (s.robotGoto r .unlockLast)
  | .unlockLast => .ok ((s.unlock (.robotMutexes r)).robotGoto r .left)
  | .left => .error .blocked

def mainGoto (s : State c) (pc : MainPc c) : State c := { s with main := pc }

def zeroSlots (s : State c) (t : TableId c) : State c :=
  if 0 < (s.tables t).slotsLeft then s.setTable t { s.tables t with slotsLeft := 0 } else s

def zeroVessels (s : State c) (r : RobotId c) : State c :=
  if 0 < (s.robots r).biryaniVesselsRemaining then
    s.setRobot r { s.robots r with biryaniVesselsRemaining := 0 }
  else s

def mainStep (s : State c) : Except Fault (State c) :=
  match s.main with
  | .joinStudents i =>
    if h : i < c.studentCount then
      if s.student ⟨i,h⟩ = .done then .ok (s.mainGoto (.joinStudents (i + 1)))
      else .error .blocked
    else .ok (s.mainGoto .endGame)
  | .endGame => .ok ({ s with gameOver := true }.mainGoto (.tableLock false 0))
  | .tableLock again i =>
    if h : i < c.tableCount then do
      let s ← s.lock (.tableMutexes ⟨i,h⟩) .main
      pure (s.mainGoto (.tableZero again ⟨i,h⟩))
    else .ok (s.mainGoto (if again then .joinTables 0 else .robotLock 0))
  | .tableZero again t => .ok ((s.zeroSlots t).mainGoto (.tableUnlock again t))
  | .tableUnlock again t =>
    .ok ((s.unlock (.tableMutexes t)).mainGoto (.tableLock again (t + 1)))
  | .robotLock i =>
    if h : i < c.robotCount then do
      let s ← s.lock (.robotMutexes ⟨i,h⟩) .main
      pure (s.mainGoto (.robotZero ⟨i,h⟩))
    else .ok (s.mainGoto (.tableLock true 0))
  | .robotZero r => .ok ((s.zeroVessels r).mainGoto (.robotUnlock r))
  | .robotUnlock r => .ok ((s.unlock (.robotMutexes r)).mainGoto (.robotLock (r + 1)))
  | .joinTables i =>
    if h : i < c.tableCount then
      if s.table ⟨i,h⟩ = .left then .ok (s.mainGoto (.joinTables (i + 1))) else .error .blocked
    else .ok (s.mainGoto (.robotFinal 0))
  | .robotFinal i =>
    if h : i < c.robotCount then .ok ((s.zeroVessels ⟨i,h⟩).mainGoto (.joinRobot ⟨i,h⟩))
    else .ok (s.mainGoto .finished)
  | .joinRobot r =>
    if s.robot r = .left then .ok (s.mainGoto (.robotFinal (r + 1))) else .error .blocked
  | .finished => .error .blocked

def step (s : State c) : Act c → Except Fault (State c)
  | .student x => s.studentStep x
  | .table t rand => s.tableStep t rand
  | .robot r rand rand' => s.robotStep r rand rand'
  | .main => s.mainStep

end State

def mess (c : Config) : System (State c) (Act c) Fault where
  init := init c
  step := State.step

end Biryani
