import Mathlib.Tactic
import Mathlib.Logic.Function.Basic
import Mathlib.Data.List.FinRange

namespace Xv6

abbrev nproc : Nat := 64
abbrev pqCount : Nat := 5
abbrev maxProcCount : Nat := 10000

abbrev Slot := Fin nproc
abbrev Level := Fin pqCount

def allSlots : List Slot := List.finRange nproc
def allLevels : List Level := List.finRange pqCount

@[simp] theorem mem_allSlots (p : Slot) : p ∈ allSlots := List.mem_finRange p

@[simp] theorem mem_allLevels (q : Level) : q ∈ allLevels := List.mem_finRange q

def highestPrioQ : Level := 0
def noQAllot : Int := -1
def defaultPriority : Int := 60

def waitLimit : Level → Int
  | 0 => 84
  | 1 => 83
  | 2 => 82
  | 3 => 81
  | 4 => 80

inductive Build where
  | default
  | fcfs
  | pbs
  | mlfq
  deriving DecidableEq, Repr

inductive ProcState where
  | unused
  | embryo
  | sleeping
  | runnable
  | running
  | zombie
  deriving DecidableEq, Repr

inductive Chan where
  | proc (p : Slot)
  | ticks
  | other (addr : Nat)
  deriving DecidableEq, Repr

def Chan.isProc : Chan → Bool
  | .proc _ => true
  | _ => false

inductive Halt where
  | blocked
  | panic (msg : String)
  | nullDeref
  | outOfBounds
  | diverges
  deriving DecidableEq, Repr

structure ProcStat where
  numRun : BitVec 32 := 0
  allotedQ : Int × Int := (0, 0)
  actualTicks : Level → BitVec 32 := fun _ => 0

structure Proc where
  state : ProcState := .unused
  pid : Nat := 0
  parent : Option Slot := none
  chan : Option Chan := none
  killed : Bool := false
  ctime : BitVec 32 := 0
  etime : BitVec 32 := 0
  rtime : BitVec 32 := 0
  priority : Int := 0
  stat : ProcStat := {}
  latestQTime : BitVec 32 := 0

structure Kernel where
  proc : Slot → Proc := fun _ => {}
  nextpid : Nat := 1
  initproc : Option Slot := none
  ticks : BitVec 32 := 0
  prioQ : Level → Int → Option Slot := fun _ _ => none
  prioQSize : Level → Int := fun _ => 0
  prioQStart : Level → Int := fun _ => 0

namespace Kernel

def setProc (k : Kernel) (p : Slot) (r : Proc) : Kernel :=
  { k with proc := Function.update k.proc p r }

def setState (k : Kernel) (p : Slot) (st : ProcState) : Kernel :=
  k.setProc p { k.proc p with state := st }

def setAllotedQ (k : Kernel) (p : Slot) (a : Int × Int) : Kernel :=
  k.setProc p { k.proc p with stat := { (k.proc p).stat with allotedQ := a } }

def setCell (k : Kernel) (q : Level) (i : Int) (c : Option Slot) : Kernel :=
  { k with prioQ := Function.update k.prioQ q (Function.update (k.prioQ q) i c) }

def setSize (k : Kernel) (q : Level) (n : Int) : Kernel :=
  { k with prioQSize := Function.update k.prioQSize q n }

def setStart (k : Kernel) (q : Level) (n : Int) : Kernel :=
  { k with prioQStart := Function.update k.prioQStart q n }

variable (k : Kernel) (p x : Slot) (r : Proc) (q : Level) (i n : Int) (c : Option Slot)

@[simp] theorem setProc_proc : (k.setProc p r).proc x = if x = p then r else k.proc x := by
  simp [setProc,Function.update_apply]

@[simp] theorem setProc_nextpid : (k.setProc p r).nextpid = k.nextpid := rfl
@[simp] theorem setProc_initproc : (k.setProc p r).initproc = k.initproc := rfl
@[simp] theorem setProc_ticks : (k.setProc p r).ticks = k.ticks := rfl
@[simp] theorem setProc_prioQ : (k.setProc p r).prioQ = k.prioQ := rfl
@[simp] theorem setProc_prioQSize : (k.setProc p r).prioQSize = k.prioQSize := rfl
@[simp] theorem setProc_prioQStart : (k.setProc p r).prioQStart = k.prioQStart := rfl

theorem setState_state (st : ProcState) (x : Slot) :
    ((k.setState p st).proc x).state = if x = p then st else (k.proc x).state := by
  by_cases hx : x = p <;> simp [setState,hx]

theorem setState_pid (st : ProcState) (x : Slot) :
    ((k.setState p st).proc x).pid = (k.proc x).pid := by
  by_cases hx : x = p <;> simp [setState,hx]

theorem setState_parent (st : ProcState) (x : Slot) :
    ((k.setState p st).proc x).parent = (k.proc x).parent := by
  by_cases hx : x = p <;> simp [setState,hx]

theorem setState_chan (st : ProcState) (x : Slot) :
    ((k.setState p st).proc x).chan = (k.proc x).chan := by
  by_cases hx : x = p <;> simp [setState,hx]

@[simp] theorem setCell_proc : (k.setCell q i c).proc = k.proc := rfl
@[simp] theorem setCell_nextpid : (k.setCell q i c).nextpid = k.nextpid := rfl
@[simp] theorem setCell_initproc : (k.setCell q i c).initproc = k.initproc := rfl
@[simp] theorem setCell_ticks : (k.setCell q i c).ticks = k.ticks := rfl
@[simp] theorem setCell_prioQSize : (k.setCell q i c).prioQSize = k.prioQSize := rfl
@[simp] theorem setCell_prioQStart : (k.setCell q i c).prioQStart = k.prioQStart := rfl

@[simp] theorem setSize_proc : (k.setSize q n).proc = k.proc := rfl
@[simp] theorem setSize_nextpid : (k.setSize q n).nextpid = k.nextpid := rfl
@[simp] theorem setSize_initproc : (k.setSize q n).initproc = k.initproc := rfl
@[simp] theorem setSize_ticks : (k.setSize q n).ticks = k.ticks := rfl
@[simp] theorem setSize_prioQ : (k.setSize q n).prioQ = k.prioQ := rfl
@[simp] theorem setSize_prioQStart : (k.setSize q n).prioQStart = k.prioQStart := rfl

@[simp] theorem setStart_proc : (k.setStart q n).proc = k.proc := rfl
@[simp] theorem setStart_nextpid : (k.setStart q n).nextpid = k.nextpid := rfl
@[simp] theorem setStart_initproc : (k.setStart q n).initproc = k.initproc := rfl
@[simp] theorem setStart_ticks : (k.setStart q n).ticks = k.ticks := rfl
@[simp] theorem setStart_prioQ : (k.setStart q n).prioQ = k.prioQ := rfl
@[simp] theorem setStart_prioQSize : (k.setStart q n).prioQSize = k.prioQSize := rfl

end Kernel

def need (c : Prop) [Decidable c] : Except Halt Unit :=
  if c then .ok () else .error .blocked

def level (q : Int) : Except Halt Level :=
  if h : 0 ≤ q ∧ q < 5 then .ok ⟨q.toNat, (Int.toNat_lt h.1).mpr h.2⟩ else .error .outOfBounds

@[simp] theorem need_eq_ok {c : Prop} [Decidable c] {u : Unit} : need c = .ok u ↔ c := by
  unfold need
  split_ifs with h <;> simp [h]

@[simp] theorem level_val (q : Level) : level (q.val : Int) = .ok q := by
  have h : (0 : Int) ≤ q.val ∧ (q.val : Int) < 5 := ⟨by omega,by exact_mod_cast q.isLt⟩
  simp [level,h]

theorem level_eq_ok {i : Int} {q : Level} : level i = .ok q ↔ i = q.val := by
  constructor
  · intro h
    unfold level at h
    split_ifs at h with hi
    cases h
    simp [hi.1]
  · rintro rfl
    exact level_val q

end Xv6
