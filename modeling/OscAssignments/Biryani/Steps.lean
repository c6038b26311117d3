import Mathlib.Tactic
import OscAssignments.Lib.Mutex
import OscAssignments.Biryani.Mess

namespace Biryani
open Runs Mutexes

variable {c : Config}

def StudentPc.holding : StudentPc c → List (Mutex c)
  | .seeking _ => []
  | .looking t => [.tableMutexes t]
  | .passing t => [.tableMutexes t]
  | .slotted t => [.tableMutexes t]
  | .seated t => [.tableMutexes t]
  | .done => []

def TablePc.holding (t : TableId c) : TablePc c → List (Mutex c)
  | .checkRobot r => [.robotMutexes r]
  | .lockTable r => [.robotMutexes r]
  | .fill r => [.tableMutexes t,.robotMutexes r]
  | .unlockTable r => [.tableMutexes t,.robotMutexes r]
  | .unlockRobot r _ => [.robotMutexes r]
  | .peek => [.tableMutexes t]
  | .unlockPeek _ => [.tableMutexes t]
  | .entered => [.tableMutexes t]
  | .opening => [.tableMutexes t]
  | .opened => [.tableMutexes t]
  | .waitCheck => [.tableMutexes t]
  | .waitUnlock => [.tableMutexes t]
  | .announcing => [.tableMutexes t]
  | .announced => [.tableMutexes t]
  | _ => []

def RobotPc.holding (r : RobotId c) : RobotPc → List (Mutex c)
  | .fill _ _ => [.robotMutexes r]
  | .unlockFill => [.robotMutexes r]
  | .waitCheck => [.robotMutexes r]
  | .waitUnlock => [.robotMutexes r]
  | .trylock => [.robotMutexes r]
  | .unlockLast => [.robotMutexes r]
  | _ => []

def MainPc.holding : MainPc c → List (Mutex c)
  | .tableZero _ t => [.tableMutexes t]
  | .tableUnlock _ t => [.tableMutexes t]
  | .robotZero r => [.robotMutexes r]
  | .robotUnlock r => [.robotMutexes r]
  | _ => []

inductive TableLock (t : TableId c) : TablePc c → Mutex c → TablePc c → Prop
  | robot {r : RobotId c} : TableLock t (.lockRobot r) (.robotMutexes r) (.checkRobot r)
  | refill {r : RobotId c} : TableLock t (.lockTable r) (.tableMutexes t) (.fill r)
  | peek : TableLock t .lockPeek (.tableMutexes t) .peek
  | enter : TableLock t .enter (.tableMutexes t) .entered
  | poll : TableLock t .waitLock (.tableMutexes t) .waitCheck

inductive TableUnlock (t : TableId c) : TablePc c → Mutex c → TablePc c → Prop
  | refill {r : RobotId c} :
      TableUnlock t (.unlockTable r) (.tableMutexes t) (.unlockRobot r true)
  | robot {r : RobotId c} {flag : Bool} :
      TableUnlock t (.unlockRobot r flag) (.robotMutexes r)
        (if flag then .afterScan true else .scan (r + 1))
  | peek {x : Int} :
      TableUnlock t (.unlockPeek x) (.tableMutexes t) (if 0 < x then .enter else .serving)
  | ready : TableUnlock t .opened (.tableMutexes t) .waitLock
  | poll : TableUnlock t .waitUnlock (.tableMutexes t) .waitLock
  | finish : TableUnlock t .announced (.tableMutexes t) .serving

inductive RobotLock : RobotPc → RobotPc → Prop
  | fill {n size : Int} : RobotLock (.lockFill n size) (.fill n size)
  | poll : RobotLock .waitLock .waitCheck

inductive RobotUnlock : RobotPc → RobotPc → Prop
  | fill : RobotUnlock .unlockFill .recheck
  | poll : RobotUnlock .waitUnlock .waitLock
  | last : RobotUnlock .unlockLast .left

inductive MainLock : MainPc c → Mutex c → MainPc c → Prop
  | table {again : Bool} {t : TableId c} :
      MainLock (.tableLock again t) (.tableMutexes t) (.tableZero again t)
  | robot {r : RobotId c} : MainLock (.robotLock r) (.robotMutexes r) (.robotZero r)

inductive MainUnlock : MainPc c → Mutex c → MainPc c → Prop
  | table {again : Bool} {t : TableId c} :
      MainUnlock (.tableUnlock again t) (.tableMutexes t) (.tableLock again (t + 1))
  | robot {r : RobotId c} :
      MainUnlock (.robotUnlock r) (.robotMutexes r) (.robotLock (r + 1))

namespace State
variable {s u : State c} {x : StudentId c} {t : TableId c} {r : RobotId c}

def holding (s : State c) : Thread c → List (Mutex c)
  | .student x => (s.student x).holding
  | .table t => (s.table t).holding t
  | .robot r => (s.robot r).holding r
  | .main => s.main.holding

def acquire (s : State c) (m : Mutex c) (th : Thread c) : State c :=
  { s with mutex := Function.update s.mutex m (some th) }

theorem lock_eq_ok {m : Mutex c} {th : Thread c} (h : s.lock m th = .ok u) :
    s.mutex m = none ∧ u = s.acquire m th := by
  unfold lock at h
  split at h
  case isTrue hfree =>
    cases h
    exact ⟨hfree,rfl⟩
  case isFalse => cases h

inductive StudentMoves (s : State c) (x : StudentId c) : State c → Prop
  | lock {t : TableId c} : s.student x = .seeking t → s.mutex (.tableMutexes t) = none →
      StudentMoves s x ((s.acquire (.tableMutexes t) (.student x)).studentGoto x (.looking t))
  | wrap {i : Nat} : s.student x = .seeking i → StudentMoves s x (s.studentGoto x (.seeking 0))
  | take {t : TableId c} : s.student x = .looking t → (s.tables t).readyToServe = true →
      0 < (s.tables t).slotsLeft →
      StudentMoves s x ((s.takeSlot x t).studentGoto x (.slotted t))
  | pass {t : TableId c} : s.student x = .looking t →
      StudentMoves s x (s.studentGoto x (.passing t))
  | leave {t : TableId c} : s.student x = .passing t →
      StudentMoves s x ((s.unlock (.tableMutexes t)).studentGoto x (.seeking (t + 1)))
  | sit {t : TableId c} {j : Nat} : s.student x = .slotted t →
      firstFree (s.tables t).studentsEatingHere = some j →
      StudentMoves s x ((s.record x t j).studentGoto x (.seated t))
  | finish {t : TableId c} : s.student x = .seated t →
      StudentMoves s x ((s.unlock (.tableMutexes t)).studentGoto x .done)

theorem studentStep_moves (h : s.studentStep x = .ok u) : StudentMoves s x u := by
  unfold studentStep at h
  cases hpc : s.student x with
  | seeking i =>
    rw [hpc] at h
    simp only at h
    split at h
    case isTrue hi =>
      obtain ⟨_,hl,h⟩ := bind_eq_ok.mp h
      obtain ⟨hfree,rfl⟩ := lock_eq_ok hl
      cases h
      exact .lock (t := ⟨i,hi⟩) hpc hfree
    case isFalse =>
      cases h
      exact .wrap hpc
  | looking t =>
    rw [hpc] at h
    simp only at h
    split at h
    case isTrue hready =>
      cases h
      exact .take hpc hready.1 hready.2
    case isFalse =>
      cases h
      exact .pass hpc
  | passing t =>
    rw [hpc] at h
    cases h
    exact .leave hpc
  | slotted t =>
    rw [hpc] at h
    simp only at h
    split at h
    next j hj =>
      cases h
      exact .sit hpc hj
    next => cases h
  | seated t =>
    rw [hpc] at h
    cases h
    exact .finish hpc
  | done =>
    rw [hpc] at h
    cases h

inductive TableJump (s : State c) (t : TableId c) : TablePc c → TablePc c → Prop
  | quitScan {i : Nat} : s.gameOver = true → TableJump s t (.scan i) .left
  | tryRobot {r : RobotId c} : TableJump s t (.scan r) (.lockRobot r)
  | noRobot {i : Nat} : TableJump s t (.scan i) (.afterScan false)
  | emptyRobot {r : RobotId c} : TableJump s t (.checkRobot r) (.unlockRobot r false)
  | quit {flag : Bool} : s.gameOver = true → TableJump s t (.afterScan flag) .left
  | proceed {flag : Bool} : TableJump s t (.afterScan flag) (if flag then .serving else .scan 0)
  | close : s.gameOver = true → TableJump s t .serving .closing
  | look : TableJump s t .serving .lockPeek
  | peek : TableJump s t .peek (.unlockPeek (s.tables t).biryaniAmountRemaining)
  | refuse : s.gameOver = true → TableJump s t .entered .serving
  | allow : TableJump s t .entered .opening
  | full : (s.tables t).slotsLeft = 0 → TableJump s t .waitCheck .announcing
  | wait : TableJump s t .waitCheck .waitUnlock
  | leave : s.gameOver = true → TableJump s t .closing .left
  | resume : TableJump s t .closing (.scan 0)

inductive TableMoves (s : State c) (t : TableId c) : State c → Prop
  | reset : s.table t = .start → TableMoves s t
      ((s.setTable t { s.tables t with biryaniAmountRemaining := 0 }).tableGoto t (.scan 0))
  | jump {pc : TablePc c} : TableJump s t (s.table t) pc → TableMoves s t (s.tableGoto t pc)
  | lock {m : Mutex c} {pc : TablePc c} : TableLock t (s.table t) m pc → s.mutex m = none →
      TableMoves s t ((s.acquire m (.table t)).tableGoto t pc)
  | unlock {m : Mutex c} {pc : TablePc c} : TableUnlock t (s.table t) m pc →
      TableMoves s t ((s.unlock m).tableGoto t pc)
  | takeVessel {r : RobotId c} : s.table t = .checkRobot r →
      0 < (s.robots r).biryaniVesselsRemaining →
      TableMoves s t ((s.takeVessel t r).tableGoto t (.lockTable r))
  | fill {r : RobotId c} : s.table t = .fill r →
      TableMoves s t ((s.fillTable t r).tableGoto t (.unlockTable r))
  | openRound {rand : Nat} : s.table t = .opening →
      TableMoves s t ((s.openRound t rand).tableGoto t .opened)
  | serveRound : s.table t = .announcing →
      TableMoves s t ((s.serveRound t).tableGoto t .announced)

theorem tableJump_moves {pc pc' : TablePc c} (hpc : s.table t = pc) (hj : TableJump s t pc pc') :
    TableMoves s t (s.tableGoto t pc') := by
  subst hpc
  exact .jump hj

theorem tableLock_moves {m : Mutex c} {pc pc' : TablePc c} (hpc : s.table t = pc)
    (hl : TableLock t pc m pc')
    (h : (do let s ← s.lock m (.table t); pure (s.tableGoto t pc')) = .ok u) :
    TableMoves s t u := by
  subst hpc
  obtain ⟨_,hs,h⟩ := bind_eq_ok.mp h
  obtain ⟨hfree,rfl⟩ := lock_eq_ok hs
  cases h
  exact .lock hl hfree

theorem tableUnlock_moves {m : Mutex c} {pc pc' : TablePc c} (hpc : s.table t = pc)
    (hl : TableUnlock t pc m pc') : TableMoves s t ((s.unlock m).tableGoto t pc') := by
  subst hpc
  exact .unlock hl

theorem tableStep_moves {rand : Nat} (h : s.tableStep t rand = .ok u) : TableMoves s t u := by
  unfold tableStep at h
  cases hpc : s.table t with
  | start =>
    rw [hpc] at h
    cases h
    exact .reset hpc
  | scan i =>
    rw [hpc] at h
    simp only at h
    split at h
    case isTrue hi =>
      split at h
      case isTrue hover =>
        cases h
        exact tableJump_moves hpc (.quitScan hover)
      case isFalse =>
        cases h
        exact tableJump_moves hpc (.tryRobot (r := ⟨i,hi⟩))
    case isFalse =>
      cases h
      exact tableJump_moves hpc .noRobot
  | lockRobot r =>
    rw [hpc] at h
    exact tableLock_moves hpc .robot h
  | checkRobot r =>
    rw [hpc] at h
    simp only at h
    split at h
    case isTrue hpos =>
      cases h
      exact .takeVessel hpc hpos
    case isFalse =>
      cases h
      exact tableJump_moves hpc .emptyRobot
  | lockTable r =>
    rw [hpc] at h
    exact tableLock_moves hpc .refill h
  | fill r =>
    rw [hpc] at h
    cases h
    exact .fill hpc
  | unlockTable r =>
    rw [hpc] at h
    cases h
    exact tableUnlock_moves hpc .refill
  | unlockRobot r flag =>
    rw [hpc] at h
    cases h
    exact tableUnlock_moves hpc .robot
  | afterScan flag =>
    rw [hpc] at h
    simp only at h
    split at h
    case isTrue hover =>
      cases h
      exact tableJump_moves hpc (.quit hover)
    case isFalse =>
      cases h
      exact tableJump_moves hpc .proceed
  | serving =>
    rw [hpc] at h
    simp only at h
    split at h
    case isTrue hover =>
      cases h
      exact tableJump_moves hpc (.close hover)
    case isFalse =>
      cases h
      exact tableJump_moves hpc .look
  | lockPeek =>
    rw [hpc] at h
    exact tableLock_moves hpc .peek h
  | peek =>
    rw [hpc] at h
    cases h
    exact tableJump_moves hpc .peek
  | unlockPeek x =>
    rw [hpc] at h
    cases h
    exact tableUnlock_moves hpc .peek
  | enter =>
    rw [hpc] at h
    exact tableLock_moves hpc .enter h
  | entered =>
    rw [hpc] at h
    simp only at h
    split at h
    case isTrue hover =>
      cases h
      exact tableJump_moves hpc (.refuse hover)
    case isFalse =>
      cases h
      exact tableJump_moves hpc .allow
  | opening =>
    rw [hpc] at h
    cases h
    exact .openRound hpc
  | opened =>
    rw [hpc] at h
    cases h
    exact tableUnlock_moves hpc .ready
  | waitLock =>
    rw [hpc] at h
    exact tableLock_moves hpc .poll h
  | waitCheck =>
    rw [hpc] at h
    simp only at h
    split at h
    case isTrue hfull =>
      cases h
      exact tableJump_moves hpc (.full hfull)
    case isFalse =>
      cases h
      exact tableJump_moves hpc .wait
  | waitUnlock =>
    rw [hpc] at h
    cases h
    exact tableUnlock_moves hpc .poll
  | announcing =>
    rw [hpc] at h
    cases h
    exact .serveRound hpc
  | announced =>
    rw [hpc] at h
    cases h
    exact tableUnlock_moves hpc .finish
  | closing =>
    rw [hpc] at h
    simp only at h
    split at h
    case isTrue hover =>
      cases h
      exact tableJump_moves hpc (.leave hover)
    case isFalse =>
      cases h
      exact tableJump_moves hpc .resume
  | left =>
    rw [hpc] at h
    cases h

inductive RobotJump (s : State c) (r : RobotId c) : RobotPc → RobotPc → Prop
  | cook {rand rand' : Nat} : RobotJump s r .cooking
      (.cooked (genRandomInRange rand 1 10) (genRandomInRange rand' 25 50))
  | quit {n size : Int} : RobotJump s r (.cooked n size) .left
  | prepare {n size : Int} : RobotJump s r (.cooked n size) (.lockFill n size)
  | stop : RobotJump s r .recheck .left
  | ready : RobotJump s r .recheck .waitLock
  | emptied : RobotJump s r .waitCheck .trylock
  | wait : RobotJump s r .waitCheck .waitUnlock
  | tried : RobotJump s r .trylock .unlockLast

inductive RobotMoves (s : State c) (r : RobotId c) : State c → Prop
  | jump {pc : RobotPc} : RobotJump s r (s.robot r) pc → RobotMoves s r (s.robotGoto r pc)
  | lock {pc : RobotPc} : RobotLock (s.robot r) pc → s.mutex (.robotMutexes r) = none →
      RobotMoves s r ((s.acquire (.robotMutexes r) (.robot r)).robotGoto r pc)
  | unlock {pc : RobotPc} : RobotUnlock (s.robot r) pc →
      RobotMoves s r ((s.unlock (.robotMutexes r)).robotGoto r pc)
  | fill {n size : Int} : s.robot r = .fill n size →
      RobotMoves s r ((s.setRobot r ⟨n,size⟩).robotGoto r .unlockFill)
  | retake : s.robot r = .trylock → s.mutex (.robotMutexes r) = none →
      RobotMoves s r ((s.acquire (.robotMutexes r) (.robot r)).robotGoto r .unlockLast)

theorem robotJump_moves {pc pc' : RobotPc} (hpc : s.robot r = pc) (hj : RobotJump s r pc pc') :
    RobotMoves s r (s.robotGoto r pc') := by
  subst hpc
  exact .jump hj

theorem robotLock_moves {pc pc' : RobotPc} (hpc : s.robot r = pc) (hl : RobotLock pc pc')
    (h : (do let s ← s.lock (.robotMutexes r) (.robot r); pure (s.robotGoto r pc')) = .ok u) :
    RobotMoves s r u := by
  subst hpc
  obtain ⟨_,hs,h⟩ := bind_eq_ok.mp h
  obtain ⟨hfree,rfl⟩ := lock_eq_ok hs
  cases h
  exact .lock hl hfree

theorem robotUnlock_moves {pc pc' : RobotPc} (hpc : s.robot r = pc) (hl : RobotUnlock pc pc') :
    RobotMoves s r ((s.unlock (.robotMutexes r)).robotGoto r pc') := by
  subst hpc
  exact .unlock hl

theorem robotStep_moves {rand rand' : Nat} (h : s.robotStep r rand rand' = .ok u) :
    RobotMoves s r u := by
  unfold robotStep at h
  cases hpc : s.robot r with
  | cooking =>
    rw [hpc] at h
    cases h
    exact robotJump_moves hpc .cook
  | cooked n size =>
    rw [hpc] at h
    simp only at h
    split at h
    · cases h
      exact robotJump_moves hpc .quit
    · cases h
      exact robotJump_moves hpc .prepare
  | lockFill n size =>
    rw [hpc] at h
    exact robotLock_moves hpc .fill h
  | fill n size =>
    rw [hpc] at h
    cases h
    exact .fill hpc
  | unlockFill =>
    rw [hpc] at h
    cases h
    exact robotUnlock_moves hpc .fill
  | recheck =>
    rw [hpc] at h
    simp only at h
    split at h
    · cases h
      exact robotJump_moves hpc .stop
    · cases h
      exact robotJump_moves hpc .ready
  | waitLock =>
    rw [hpc] at h
    exact robotLock_moves hpc .poll h
  | waitCheck =>
    rw [hpc] at h
    simp only at h
    split at h
    · cases h
      exact robotJump_moves hpc .emptied
    · cases h
      exact robotJump_moves hpc .wait
  | waitUnlock =>
    rw [hpc] at h
    cases h
    exact robotUnlock_moves hpc .poll
  | trylock =>
    rw [hpc] at h
    simp only at h
    split at h
    case isTrue hfree =>
      cases h
      exact .retake hpc hfree
    case isFalse =>
      cases h
      exact robotJump_moves hpc .tried
  | unlockLast =>
    rw [hpc] at h
    cases h
    exact robotUnlock_moves hpc .last
  | left =>
    rw [hpc] at h
    cases h

inductive MainJump (s : State c) : MainPc c → MainPc c → Prop
  | joinStudent {x : StudentId c} : s.student x = .done →
      MainJump s (.joinStudents x) (.joinStudents (x + 1))
  | studentsJoined {i : Nat} : c.studentCount ≤ i → MainJump s (.joinStudents i) .endGame
  | tablesZeroed {again : Bool} {i : Nat} : c.tableCount ≤ i →
      MainJump s (.tableLock again i) (if again then .joinTables 0 else .robotLock 0)
  | robotsZeroed {i : Nat} : MainJump s (.robotLock i) (.tableLock true 0)
  | joinTable {t : TableId c} : s.table t = .left →
      MainJump s (.joinTables t) (.joinTables (t + 1))
  | tablesJoined {i : Nat} : c.tableCount ≤ i → MainJump s (.joinTables i) (.robotFinal 0)
  | finish {i : Nat} : c.robotCount ≤ i → MainJump s (.robotFinal i) .finished
  | joinRobot {r : RobotId c} : s.robot r = .left →
      MainJump s (.joinRobot r) (.robotFinal (r + 1))

inductive MainMoves (s : State c) : State c → Prop
  | jump {pc : MainPc c} : MainJump s s.main pc → MainMoves s (s.mainGoto pc)
  | endGame : s.main = .endGame →
      MainMoves s ({ s with gameOver := true }.mainGoto (.tableLock false 0))
  | lock {m : Mutex c} {pc : MainPc c} : MainLock s.main m pc → s.mutex m = none →
      MainMoves s ((s.acquire m .main).mainGoto pc)
  | unlock {m : Mutex c} {pc : MainPc c} : MainUnlock s.main m pc →
      MainMoves s ((s.unlock m).mainGoto pc)
  | zeroSlots {again : Bool} {t : TableId c} : s.main = .tableZero again t →
      MainMoves s ((s.zeroSlots t).mainGoto (.tableUnlock again t))
  | zeroVessels {r : RobotId c} : s.main = .robotZero r →
      MainMoves s ((s.zeroVessels r).mainGoto (.robotUnlock r))
  | zeroFinal {r : RobotId c} : s.main = .robotFinal r →
      MainMoves s ((s.zeroVessels r).mainGoto (.joinRobot r))

theorem mainJump_moves {pc pc' : MainPc c} (hpc : s.main = pc) (hj : MainJump s pc pc') :
    MainMoves s (s.mainGoto pc') := by
  subst hpc
  exact .jump hj

theorem mainLock_moves {m : Mutex c} {pc pc' : MainPc c} (hpc : s.main = pc)
    (hl : MainLock pc m pc')
    (h : (do let s ← s.lock m .main; pure (s.mainGoto pc')) = .ok u) : MainMoves s u := by
  subst hpc
  obtain ⟨_,hs,h⟩ := bind_eq_ok.mp h
  obtain ⟨hfree,rfl⟩ := lock_eq_ok hs
  cases h
  exact .lock hl hfree

theorem mainUnlock_moves {m : Mutex c} {pc pc' : MainPc c} (hpc : s.main = pc)
    (hl : MainUnlock pc m pc') : MainMoves s ((s.unlock m).mainGoto pc') := by
  subst hpc
  exact .unlock hl

theorem mainStep_moves (h : s.mainStep = .ok u) : MainMoves s u := by
  unfold mainStep at h
  cases hpc : s.main with
  | joinStudents i =>
    rw [hpc] at h
    simp only at h
    split at h
    case isTrue hi =>
      split at h
      case isTrue hd =>
        cases h
        exact mainJump_moves hpc (.joinStudent (x := ⟨i,hi⟩) hd)
      case isFalse => cases h
    case isFalse hi =>
      cases h
      exact mainJump_moves hpc (.studentsJoined (not_lt.mp hi))
  | endGame =>
    rw [hpc] at h
    cases h
    exact .endGame hpc
  | tableLock again i =>
    rw [hpc] at h
    simp only at h
    split at h
    case isTrue hi => exact mainLock_moves hpc (.table (t := ⟨i,hi⟩)) h
    case isFalse hi =>
      cases h
      exact mainJump_moves hpc (.tablesZeroed (not_lt.mp hi))
  | tableZero again t =>
    rw [hpc] at h
    cases h
    exact .zeroSlots hpc
  | tableUnlock again t =>
    rw [hpc] at h
    cases h
    exact mainUnlock_moves hpc .table
  | robotLock i =>
    rw [hpc] at h
    simp only at h
    split at h
    case isTrue hi => exact mainLock_moves hpc (.robot (r := ⟨i,hi⟩)) h
    case isFalse =>
      cases h
      exact mainJump_moves hpc .robotsZeroed
  | robotZero r =>
    rw [hpc] at h
    cases h
    exact .zeroVessels hpc
  | robotUnlock r =>
    rw [hpc] at h
    cases h
    exact mainUnlock_moves hpc .robot
  | joinTables i =>
    rw [hpc] at h
    simp only at h
    split at h
    case isTrue hi =>
      split at h
      case isTrue hd =>
        cases h
        exact mainJump_moves hpc (.joinTable (t := ⟨i,hi⟩) hd)
      case isFalse => cases h
    case isFalse hi =>
      cases h
      exact mainJump_moves hpc (.tablesJoined (not_lt.mp hi))
  | robotFinal i =>
    rw [hpc] at h
    simp only at h
    split at h
    case isTrue hi =>
      cases h
      exact .zeroFinal (r := ⟨i,hi⟩) hpc
    case isFalse hi =>
      cases h
      exact mainJump_moves hpc (.finish (not_lt.mp hi))
  | joinRobot r =>
    rw [hpc] at h
    simp only at h
    split at h
    case isTrue hd =>
      cases h
      exact mainJump_moves hpc (.joinRobot hd)
    case isFalse => cases h
  | finished =>
    rw [hpc] at h
    cases h

inductive Moves (s : State c) : Act c → State c → Prop
  | student {x : StudentId c} {u : State c} : StudentMoves s x u → Moves s (.student x) u
  | table {t : TableId c} {rand : Nat} {u : State c} :
      TableMoves s t u → Moves s (.table t rand) u
  | robot {r : RobotId c} {rand rand' : Nat} {u : State c} :
      RobotMoves s r u → Moves s (.robot r rand rand') u
  | main {u : State c} : MainMoves s u → Moves s .main u

theorem step_moves {a : Act c} (h : s.step a = .ok u) : Moves s a u := by
  cases a with
  | student x => exact .student (studentStep_moves h)
  | table t rand => exact .table (tableStep_moves h)
  | robot r rand rand' => exact .robot (robotStep_moves h)
  | main => exact .main (mainStep_moves h)

end State
end Biryani
