import Mathlib.Tactic
import OscAssignments.Cabs.Service

namespace Cabs
open Runs

namespace State
variable {c : Config} {s t : State c} {r : RiderId c} {k : ServerId c}

inductive Moves (s : State c) (r : RiderId c) : State c → Prop
  | lock {o : Option Wake} : s.rider r = .booking o → s.checkCab = none →
      Moves s r ({ s with checkCab := some r }.goto r .locked)
  | find {i : CabId c} {cab : Cab c} : s.rider r = .locked → 0 < s.totalCabsOpen →
      s.findCab r = some (i,cab) → Moves s r ((s.setCab i cab).goto r (.found i))
  | refuse : s.rider r = .locked → s.totalCabsOpen ≤ 0 → Moves s r (s.goto r .refused)
  | count {i : CabId c} : s.rider r = .found i →
      Moves s r ({ s with totalCabsOpen := s.totalCabsOpen - 1 }.goto r (.counted i))
  | board {i : CabId c} : s.rider r = .counted i →
      Moves s r ({ s with checkCab := none }.goto r (.riding i))
  | block : s.rider r = .refused →
      Moves s r ({ s with isWaiting := Function.update s.isWaiting r (some (c.cabType r)),
                          checkCab := none }.goto r .blocked)
  | relock {res : Wake} : s.rider r = .waking res → s.checkCab = none →
      Moves s r ({ s with checkCab := some r }.goto r (.woken res))
  | clear {res : Wake} : s.rider r = .woken res →
      Moves s r ({ s with isWaiting := Function.update s.isWaiting r none }.goto r (.cleared res))
  | giveUp : s.rider r = .cleared .timedOut →
      Moves s r ({ s with checkCab := none }.goto r .gaveUp)
  | retry {res : Wake} : s.rider r = .cleared res → res ≠ .timedOut →
      Moves s r ({ s with checkCab := none }.goto r (.booking (some res)))
  | finish {i : CabId c} : s.rider r = .riding i → (s.taxis i).state ≠ .waitState →
      Moves s r (s.goto r (.ending i))
  | lockEnd {i : CabId c} : s.rider r = .ending i → s.checkCab = none →
      Moves s r ({ s with checkCab := some r }.goto r (.ended i))
  | uncount {i : CabId c} : s.rider r = .ended i →
      Moves s r ({ s with totalCabsOpen := s.totalCabsOpen + 1 }.goto r (.freed i))
  | vacate {i : CabId c} : s.rider r = .freed i →
      Moves s r ((s.setCab i (vacate (s.taxis i) r)).goto r (.signalling i))
  | signal {i : CabId c} : s.rider r = .signalling i →
      Moves s r ((s.signalTarget r i).goto r .leaving)
  | leave : s.rider r = .leaving → Moves s r ({ s with checkCab := none }.goto r .paying)
  | post : s.rider r = .paying →
      Moves s r ({ s with serversOpen := s.serversOpen + 1 }.goto r .posted)
  | pay : s.rider r = .posted → Moves s r ((s.push r).goto r .paid)

theorem riderStep_moves (h : s.riderStep r = .ok t) : Moves s r t := by
  unfold riderStep at h
  cases hpc : s.rider r with
  | booking o =>
    rw [hpc] at h
    simp only at h
    split at h
    case isTrue hfree =>
      cases h
      exact .lock hpc hfree
    case isFalse => cases h
  | locked =>
    rw [hpc] at h
    simp only at h
    split at h
    case isTrue hpos =>
      split at h
      next i cab hf =>
        cases h
        exact .find hpc hpos hf
      next => cases h
    case isFalse hpos =>
      cases h
      exact .refuse hpc (not_lt.mp hpos)
  | found i =>
    rw [hpc] at h
    cases h
    exact .count hpc
  | counted i =>
    rw [hpc] at h
    cases h
    exact .board hpc
  | refused =>
    rw [hpc] at h
    cases h
    exact .block hpc
  | blocked =>
    rw [hpc] at h
    cases h
  | waking res =>
    rw [hpc] at h
    simp only at h
    split at h
    case isTrue hfree =>
      cases h
      exact .relock hpc hfree
    case isFalse => cases h
  | woken res =>
    rw [hpc] at h
    cases h
    exact .clear hpc
  | cleared res =>
    rw [hpc] at h
    cases res with
    | timedOut =>
      cases h
      exact .giveUp hpc
    | signalled =>
      cases h
      exact .retry hpc (by decide)
    | spurious =>
      cases h
      exact .retry hpc (by decide)
  | gaveUp =>
    rw [hpc] at h
    cases h
  | riding i =>
    rw [hpc] at h
    simp only at h
    split at h
    case isTrue => cases h
    case isFalse hne =>
      cases h
      exact .finish hpc hne
  | ending i =>
    rw [hpc] at h
    simp only at h
    split at h
    case isTrue hfree =>
      cases h
      exact .lockEnd hpc hfree
    case isFalse => cases h
  | ended i =>
    rw [hpc] at h
    cases h
    exact .uncount hpc
  | freed i =>
    rw [hpc] at h
    cases h
    exact .vacate hpc
  | signalling i =>
    rw [hpc] at h
    cases h
    exact .signal hpc
  | leaving =>
    rw [hpc] at h
    cases h
    exact .leave hpc
  | paying =>
    rw [hpc] at h
    cases h
    exact .post hpc
  | posted =>
    rw [hpc] at h
    cases h
    exact .pay hpc
  | paid =>
    rw [hpc] at h
    cases h

theorem wakeUp_eq {res : Wake} (h : s.wakeUp r res = .ok t) :
    s.rider r = .blocked ∧ t = s.goto r (.waking res) := by
  unfold wakeUp at h
  split at h
  case isTrue hb =>
    cases h
    exact ⟨hb,rfl⟩
  case isFalse => cases h

inductive Serves (s : State c) (k : ServerId c) : State c → Prop
  | done : s.server k = .test → s.ridersLeftToExit = 0 → Serves s k (s.gotoServer k .closed)
  | await : s.server k = .test → s.ridersLeftToExit ≠ 0 → Serves s k (s.gotoServer k .semWait)
  | wake : s.server k = .semWait → 0 < s.serversOpen →
      Serves s k ({ s with serversOpen := s.serversOpen - 1 }.gotoServer k .recheck)
  | stop : s.server k = .recheck → s.ridersLeftToExit = 0 →
      Serves s k (s.gotoServer k .closed)
  | proceed : s.server k = .recheck → s.ridersLeftToExit ≠ 0 → Serves s k (s.gotoServer k .pop)
  | quit : s.server k = .pop → s.ridersPaying 0 = none → Serves s k (s.gotoServer k .closed)
  | take {r : RiderId c} : s.server k = .pop → s.ridersPaying 0 ≠ none →
      s.ridersPaying (s.ridersPayingCount - 1) = some r →
      Serves s k ({ s with
        ridersPaying := Function.update s.ridersPaying (s.ridersPayingCount - 1) none,
        ridersPayingCount := s.ridersPayingCount - 1,
        popped := s.popped ++ [(k,r)] }.gotoServer k (.serving r))
  | settle {r : RiderId c} : s.server k = .serving r →
      Serves s k ({ s with ridersLeftToExit := s.ridersLeftToExit - 1,
                           made := s.made ++ [r] }.gotoServer k .test)

theorem serverStep_serves (h : s.serverStep k = .ok t) : Serves s k t := by
  unfold serverStep at h
  cases hpc : s.server k with
  | test =>
    rw [hpc] at h
    simp only at h
    split at h
    case isTrue hz =>
      cases h
      exact .done hpc hz
    case isFalse hz =>
      cases h
      exact .await hpc hz
  | semWait =>
    rw [hpc] at h
    simp only at h
    split at h
    case isTrue hpos =>
      cases h
      exact .wake hpc hpos
    case isFalse => cases h
  | recheck =>
    rw [hpc] at h
    simp only at h
    split at h
    case isTrue hz =>
      cases h
      exact .stop hpc hz
    case isFalse hz =>
      cases h
      exact .proceed hpc hz
  | pop =>
    rw [hpc] at h
    simp only at h
    split at h
    case isTrue hz =>
      cases h
      exact .quit hpc hz
    case isFalse hz =>
      split at h
      next => cases h
      next r hr =>
        cases h
        exact .take hpc hz hr
  | serving r =>
    rw [hpc] at h
    cases h
    exact .settle hpc
  | closed =>
    rw [hpc] at h
    cases h

structure SameBooking (s t : State c) : Prop where
  taxis : t.taxis = s.taxis
  isWaiting : t.isWaiting = s.isWaiting
  totalCabsOpen : t.totalCabsOpen = s.totalCabsOpen
  checkCab : t.checkCab = s.checkCab
  rider : t.rider = s.rider

theorem Serves.sameBooking (h : Serves s k t) : SameBooking s t := by
  cases h with
  | done => exact ⟨rfl,rfl,rfl,rfl,rfl⟩
  | await => exact ⟨rfl,rfl,rfl,rfl,rfl⟩
  | wake => exact ⟨rfl,rfl,rfl,rfl,rfl⟩
  | stop => exact ⟨rfl,rfl,rfl,rfl,rfl⟩
  | proceed => exact ⟨rfl,rfl,rfl,rfl,rfl⟩
  | quit => exact ⟨rfl,rfl,rfl,rfl,rfl⟩
  | take => exact ⟨rfl,rfl,rfl,rfl,rfl⟩
  | settle => exact ⟨rfl,rfl,rfl,rfl,rfl⟩

structure SamePayment (s t : State c) : Prop where
  ridersPaying : t.ridersPaying = s.ridersPaying
  ridersPayingCount : t.ridersPayingCount = s.ridersPayingCount
  ridersLeftToExit : t.ridersLeftToExit = s.ridersLeftToExit
  server : t.server = s.server
  popped : t.popped = s.popped
  made : t.made = s.made

theorem mainStep_same (h : s.mainStep = .ok t) : SameBooking s t ∧ SamePayment s t := by
  unfold mainStep at h
  cases hm : s.main with
  | joinRiders i =>
    rw [hm] at h
    simp only at h
    split at h
    · split at h
      · cases h
        exact ⟨⟨rfl,rfl,rfl,rfl,rfl⟩,⟨rfl,rfl,rfl,rfl,rfl,rfl⟩⟩
      · cases h
    · cases h
      exact ⟨⟨rfl,rfl,rfl,rfl,rfl⟩,⟨rfl,rfl,rfl,rfl,rfl,rfl⟩⟩
  | postOne i =>
    rw [hm] at h
    simp only at h
    split at h
    · cases h
      exact ⟨⟨rfl,rfl,rfl,rfl,rfl⟩,⟨rfl,rfl,rfl,rfl,rfl,rfl⟩⟩
    · cases h
      exact ⟨⟨rfl,rfl,rfl,rfl,rfl⟩,⟨rfl,rfl,rfl,rfl,rfl,rfl⟩⟩
  | postTwo i =>
    rw [hm] at h
    cases h
    exact ⟨⟨rfl,rfl,rfl,rfl,rfl⟩,⟨rfl,rfl,rfl,rfl,rfl,rfl⟩⟩
  | postThree i =>
    rw [hm] at h
    simp only at h
    split at h
    · cases h
      exact ⟨⟨rfl,rfl,rfl,rfl,rfl⟩,⟨rfl,rfl,rfl,rfl,rfl,rfl⟩⟩
    · cases h
      exact ⟨⟨rfl,rfl,rfl,rfl,rfl⟩,⟨rfl,rfl,rfl,rfl,rfl,rfl⟩⟩
  | joinServer i =>
    rw [hm] at h
    simp only at h
    split at h
    · split at h
      · cases h
        exact ⟨⟨rfl,rfl,rfl,rfl,rfl⟩,⟨rfl,rfl,rfl,rfl,rfl,rfl⟩⟩
      · cases h
    · cases h
  | finished =>
    rw [hm] at h
    cases h

theorem step_cases {a : Act c} (h : s.step a = .ok t) :
    (∃ r, a = .rider r ∧ Moves s r t) ∨
      (∃ r res, s.rider r = .blocked ∧ res ≠ .signalled ∧ t = s.goto r (.waking res)) ∨
      (∃ k, a = .server k ∧ Serves s k t) ∨ (a = .main ∧ SameBooking s t ∧ SamePayment s t) := by
  cases a with
  | rider r => exact .inl ⟨r,rfl,riderStep_moves h⟩
  | expire r =>
    obtain ⟨hb,ht⟩ := wakeUp_eq h
    exact .inr (.inl ⟨r,.timedOut,hb,by decide,ht⟩)
  | spurious r =>
    obtain ⟨hb,ht⟩ := wakeUp_eq h
    exact .inr (.inl ⟨r,.spurious,hb,by decide,ht⟩)
  | server k => exact .inr (.inr (.inl ⟨k,rfl,serverStep_serves h⟩))
  | main => exact .inr (.inr (.inr ⟨rfl,mainStep_same h⟩))

end State
end Cabs
