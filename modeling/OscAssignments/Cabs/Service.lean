import Mathlib.Tactic
import Mathlib.Logic.Function.Basic
import OscAssignments.Lib.Runs

namespace Cabs
open Runs

inductive CabType where
  | pool
  | premier
  deriving DecidableEq

inductive CabState where
  | waitState
  | onRidePoolOne
  | onRidePoolFull
  | onRidePremier
  deriving DecidableEq

structure Config where
  cabsCount : Nat
  ridersCount : Nat
  serversCount : Nat
  cabType : Fin ridersCount → CabType

abbrev CabId (c : Config) := Fin c.cabsCount

abbrev RiderId (c : Config) := Fin c.ridersCount

abbrev ServerId (c : Config) := Fin c.serversCount

structure Cab (c : Config) where
  state : CabState
  rider1 : Option (RiderId c)
  rider2 : Option (RiderId c)

inductive Wake where
  | signalled
  | spurious
  | timedOut
  deriving DecidableEq

inductive RiderPc (c : Config) where
  | booking (cause : Option Wake)
  | locked
  | found (i : CabId c)
  | counted (i : CabId c)
  | refused
  | blocked
  | waking (res : Wake)
  | woken (res : Wake)
  | cleared (res : Wake)
  | gaveUp
  | riding (i : CabId c)
  | ending (i : CabId c)
  | ended (i : CabId c)
  | freed (i : CabId c)
  | signalling (i : CabId c)
  | leaving
  | paying
  | posted
  | paid
  deriving DecidableEq

inductive ServerPc (c : Config) where
  | test
  | semWait
  | recheck
  | pop
  | serving (r : RiderId c)
  | closed
  deriving DecidableEq

inductive MainPc where
  | joinRiders (i : Nat)
  | postOne (i : Nat)
  | postTwo (i : Nat)
  | postThree (i : Nat)
  | joinServer (i : Nat)
  | finished
  deriving DecidableEq

structure State (c : Config) where
  taxis : CabId c → Cab c
  isWaiting : RiderId c → Option CabType
  totalCabsOpen : Int
  checkCab : Option (RiderId c)
  rider : RiderId c → RiderPc c
  serversOpen : Nat
  ridersPaying : Int → Option (RiderId c)
  ridersPayingCount : Int
  ridersLeftToExit : Int
  server : ServerId c → ServerPc c
  main : MainPc
  popped : List (ServerId c × RiderId c)
  made : List (RiderId c)

inductive Fault where
  | blocked
  | assertion
  | nullPointer
  deriving DecidableEq

inductive Act (c : Config) where
  | rider (r : RiderId c)
  | expire (r : RiderId c)
  | spurious (r : RiderId c)
  | server (k : ServerId c)
  | main

def init (c : Config) : State c where
  taxis := fun _ => ⟨.waitState,none,none⟩
  isWaiting := fun _ => none
  totalCabsOpen := c.cabsCount
  checkCab := none
  rider := fun _ => .booking none
  serversOpen := 0
  ridersPaying := fun _ => none
  ridersPayingCount := 0
  ridersLeftToExit := c.ridersCount
  server := fun _ => .test
  main := .joinRiders 0
  popped := []
  made := []

def usefulCab (reqCab : Option CabType) (currState : CabState) : Bool :=
  match reqCab with
  | none => false
  | some .pool => currState = .waitState ∨ currState = .onRidePoolOne
  | some .premier => currState = .waitState

namespace State
variable {c : Config}

def goto (s : State c) (r : RiderId c) (pc : RiderPc c) : State c :=
  { s with rider := Function.update s.rider r pc }

def setCab (s : State c) (i : CabId c) (cab : Cab c) : State c :=
  { s with taxis := Function.update s.taxis i cab }

def gotoServer (s : State c) (k : ServerId c) (pc : ServerPc c) : State c :=
  { s with server := Function.update s.server k pc }

def firstIn (s : State c) (st : CabState) : Option (CabId c) :=
  (List.finRange c.cabsCount).find? fun i => (s.taxis i).state = st

def findCab (s : State c) (r : RiderId c) : Option (CabId c × Cab c) :=
  match c.cabType r with
  | .pool =>
    match s.firstIn .onRidePoolOne with
    | some i => some (i,{ s.taxis i with state := .onRidePoolFull, rider2 := some r })
    | none =>
      match s.firstIn .waitState with
      | some i => some (i,{ s.taxis i with state := .onRidePoolOne, rider1 := some r })
      | none => none
  | .premier =>
    match s.firstIn .waitState with
    | some i => some (i,{ s.taxis i with rider1 := some r, state := .onRidePremier })
    | none => none

def vacate (cab : Cab c) (r : RiderId c) : Cab c :=
  match cab.state with
  | .onRidePremier => ⟨.waitState,none,none⟩
  | .onRidePoolOne => ⟨.waitState,none,none⟩
  | .onRidePoolFull =>
    if cab.rider1 = some r then ⟨.onRidePoolOne,cab.rider2,none⟩
    else ⟨.onRidePoolOne,cab.rider1,none⟩
  | .waitState => cab

def next (j : RiderId c) : RiderId c := ⟨(j + 1) % c.ridersCount,Nat.mod_lt _ j.pos⟩

def scan (s : State c) (r : RiderId c) (st : CabState) : Nat → RiderId c → Option (RiderId c)
  | 0, _ => none
  | n + 1, j =>
    if j = r then none
    else if usefulCab (s.isWaiting j) st then some j
    else s.scan r st n (next j)

def target (s : State c) (r : RiderId c) (i : CabId c) : Option (RiderId c) :=
  s.scan r (s.taxis i).state c.ridersCount (next r)

def signal (s : State c) (j : RiderId c) : State c :=
  if s.rider j = .blocked then s.goto j (.waking .signalled) else s

def signalTarget (s : State c) (r : RiderId c) (i : CabId c) : State c :=
  match s.target r i with
  | none => s
  | some j => s.signal j

def push (s : State c) (r : RiderId c) : State c :=
  { s with ridersPaying := Function.update s.ridersPaying s.ridersPayingCount (some r),
           ridersPayingCount := s.ridersPayingCount + 1 }

def riderStep (s : State c) (r : RiderId c) : Except Fault (State c) :=
  match s.rider r with
  | .booking _ =>
    if s.checkCab = none then .ok ({ s with checkCab := some r }.goto r .locked)
    else .error .blocked
  | .locked =>
    if 0 < s.totalCabsOpen then
      match s.findCab r with
      | some (i,cab) => .ok ((s.setCab i cab).goto r (.found i))
      | none => .error .assertion
    else .ok (s.goto r .refused)
  | .found i => .ok ({ s with totalCabsOpen := s.totalCabsOpen - 1 }.goto r (.counted i))
  | .counted i => .ok ({ s with checkCab := none }.goto r (.riding i))
  | .refused =>
    .ok ({ s with isWaiting := Function.update s.isWaiting r (some (c.cabType r)),
                  checkCab := none }.goto r .blocked)
  | .blocked => .error .blocked
  | .waking res =>
    if s.checkCab = none then .ok ({ s with checkCab := some r }.goto r (.woken res))
    else .error .blocked
  | .woken res =>
    .ok ({ s with isWaiting := Function.update s.isWaiting r none }.goto r (.cleared res))
  | .cleared .timedOut => .ok ({ s with checkCab := none }.goto r .gaveUp)
  | .cleared res => .ok ({ s with checkCab := none }.goto r (.booking (some res)))
  | .riding i =>
    if (s.taxis i).state = .waitState then .error .assertion else .ok (s.goto r (.ending i))
  | .ending i =>
    if s.checkCab = none then .ok ({ s with checkCab := some r }.goto r (.ended i))
    else .error .blocked
  | .ended i => .ok ({ s with totalCabsOpen := s.totalCabsOpen + 1 }.goto r (.freed i))
  | .freed i => .ok ((s.setCab i (vacate (s.taxis i) r)).goto r (.signalling i))
  | .signalling i => .ok ((s.signalTarget r i).goto r .leaving)
  | .leaving => .ok ({ s with checkCab := none }.goto r .paying)
  | .paying => .ok ({ s with serversOpen := s.serversOpen + 1 }.goto r .posted)
  | .posted => .ok ((s.push r).goto r .paid)
  | .gaveUp => .error .blocked
  | .paid => .error .blocked

def wakeUp (s : State c) (r : RiderId c) (res : Wake) : Except Fault (State c) :=
  if s.rider r = .blocked then .ok (s.goto r (.waking res)) else .error .blocked

def serverStep (s : State c) (k : ServerId c) : Except Fault (State c) :=
  match s.server k with
  | .test =>
    if s.ridersLeftToExit = 0 then .ok (s.gotoServer k .closed)
    else .ok (s.gotoServer k .semWait)
  | .semWait =>
    if 0 < s.serversOpen then
      .ok ({ s with serversOpen := s.serversOpen - 1 }.gotoServer k .recheck)
    else .error .blocked
  | .recheck =>
    if s.ridersLeftToExit = 0 then .ok (s.gotoServer k .closed)
    else .ok (s.gotoServer k .pop)
  | .pop =>
    if s.ridersPaying 0 = none then .ok (s.gotoServer k .closed)
    else
      match s.ridersPaying (s.ridersPayingCount - 1) with
      | none => .error .nullPointer
      | some r =>
        .ok ({ s with
          ridersPaying := Function.update s.ridersPaying (s.ridersPayingCount - 1) none,
          ridersPayingCount := s.ridersPayingCount - 1,
          popped := s.popped ++ [(k,r)] }.gotoServer k (.serving r))
  | .serving r =>
    .ok ({ s with ridersLeftToExit := s.ridersLeftToExit - 1,
                  made := s.made ++ [r] }.gotoServer k .test)
  | .closed => .error .blocked

def riderFinished (s : State c) (r : RiderId c) : Bool := s.rider r = .gaveUp ∨ s.rider r = .paid

def mainStep (s : State c) : Except Fault (State c) :=
  match s.main with
  | .joinRiders i =>
    if h : i < c.ridersCount then
      if s.riderFinished ⟨i,h⟩ then .ok { s with main := .joinRiders (i + 1) }
      else .error .blocked
    else .ok { s with main := .postOne 0 }
  | .postOne i =>
    if i < c.serversCount then
      .ok { s with serversOpen := s.serversOpen + 1, main := .postTwo i }
    else .ok { s with main := .postThree 0 }
  | .postTwo i => .ok { s with serversOpen := s.serversOpen + 1, main := .postOne (i + 1) }
  | .postThree i =>
    if i < c.serversCount then
      .ok { s with serversOpen := s.serversOpen + 1, main := .joinServer i }
    else .ok { s with main := .finished }
  | .joinServer i =>
    if h : i < c.serversCount then
      if s.server ⟨i,h⟩ = .closed then .ok { s with main := .postThree (i + 1) }
      else .error .blocked
    else .error .blocked
  | .finished => .error .blocked

def step (s : State c) : Act c → Except Fault (State c)
  | .rider r => s.riderStep r
  | .expire r => s.wakeUp r .timedOut
  | .spurious r => s.wakeUp r .spurious
  | .server k => s.serverStep k
  | .main => s.mainStep

end State

def service (c : Config) : System (State c) (Act c) Fault where
  init := init c
  step := State.step

end Cabs
