import Mathlib.Tactic
import OscAssignments.Cabs.Occupancy

namespace Cabs
open Runs Tally

variable {c : Config}

namespace RiderPc

def inFlight : RiderPc c → Bool
  | waking .signalled => true
  | woken .signalled => true
  | cleared .signalled => true
  | booking (some .signalled) => true
  | _ => false

def credit : RiderPc c → Bool
  | locked => true
  | found _ => true
  | freed _ => true
  | signalling _ => true
  | pc => pc.inFlight

end RiderPc

namespace State
variable {s t : State c} {r : RiderId c} {i : CabId c}

def delivers (s : State c) : Act c → Bool
  | .rider r =>
    match s.rider r with
    | .signalling i =>
      (s.target r i).any (fun j => s.rider j = .blocked) || decide (∀ j, s.rider j ≠ .blocked)
    | _ => true
  | _ => true

structure Wakeful (s : State c) : Prop where
  credit : ∀ j, s.rider j = .blocked → s.totalCabsOpen ≤ tally RiderPc.credit s.rider
  refused : ∀ j, s.rider j = .refused → s.totalCabsOpen ≤ 0

structure Smooth (s : State c) (r : RiderId c) (t : State c) : Prop where
  others : ∀ j, j ≠ r → t.rider j = s.rider j
  balance : t.totalCabsOpen + (s.rider r).credit.toNat ≤
    s.totalCabsOpen + (t.rider r).credit.toNat
  neither : t.rider r ≠ .blocked ∧ t.rider r ≠ .refused

inductive WakeEffect (s : State c) (r : RiderId c) (t : State c) : Prop
  | smooth : Smooth s r t → WakeEffect s r t
  | refuse : s.totalCabsOpen ≤ 0 → t.totalCabsOpen = s.totalCabsOpen → WakeEffect s r t
  | block : s.rider r = .refused → t.totalCabsOpen = s.totalCabsOpen → WakeEffect s r t
  | signal {i : CabId c} : s.rider r = .signalling i → t = (s.signalTarget r i).goto r .leaving →
      WakeEffect s r t

theorem smooth_goto {x : State c} {pc : RiderPc c} (hx : x.rider = s.rider)
    (hb : x.totalCabsOpen + (s.rider r).credit.toNat ≤ s.totalCabsOpen + pc.credit.toNat)
    (hn : pc ≠ .blocked ∧ pc ≠ .refused) : Smooth s r (x.goto r pc) := by
  refine ⟨?_,?_,?_⟩
  · intro j hj
    rw [goto_rider,Function.update_of_ne hj,hx]
  · simpa using hb
  · simpa using hn

theorem Moves.wakeEffect (h : Moves s r t) : WakeEffect s r t := by
  cases h with
  | @lock o hpc =>
    refine .smooth (smooth_goto rfl ?_ (by simp))
    cases (s.rider r).credit <;> simp [RiderPc.credit]
  | find hpc => exact .smooth (smooth_goto rfl (by simp [hpc,RiderPc.credit,setCab]) (by simp))
  | refuse hpc hle => exact .refuse hle rfl
  | count hpc =>
    exact .smooth (smooth_goto rfl (by simp [hpc,RiderPc.credit,RiderPc.inFlight]) (by simp))
  | board hpc =>
    exact .smooth (smooth_goto rfl (by simp [hpc,RiderPc.credit,RiderPc.inFlight]) (by simp))
  | block hpc => exact .block hpc rfl
  | @relock res hpc =>
    exact .smooth (smooth_goto rfl (by cases res <;> simp [hpc,RiderPc.credit,RiderPc.inFlight])
      (by simp))
  | @clear res hpc =>
    exact .smooth (smooth_goto rfl (by cases res <;> simp [hpc,RiderPc.credit,RiderPc.inFlight])
      (by simp))
  | giveUp hpc =>
    exact .smooth (smooth_goto rfl (by simp [hpc,RiderPc.credit,RiderPc.inFlight]) (by simp))
  | @retry res hpc =>
    exact .smooth (smooth_goto rfl (by cases res <;> simp [hpc,RiderPc.credit,RiderPc.inFlight])
      (by simp))
  | finish hpc =>
    exact .smooth (smooth_goto rfl (by simp [hpc,RiderPc.credit,RiderPc.inFlight]) (by simp))
  | lockEnd hpc =>
    exact .smooth (smooth_goto rfl (by simp [hpc,RiderPc.credit,RiderPc.inFlight]) (by simp))
  | uncount hpc =>
    exact .smooth (smooth_goto rfl (by simp [hpc,RiderPc.credit,RiderPc.inFlight]) (by simp))
  | vacate hpc => exact .smooth (smooth_goto rfl (by simp [hpc,RiderPc.credit,setCab]) (by simp))
  | signal hpc => exact .signal hpc rfl
  | leave hpc =>
    exact .smooth (smooth_goto rfl (by simp [hpc,RiderPc.credit,RiderPc.inFlight]) (by simp))
  | post hpc =>
    exact .smooth (smooth_goto rfl (by simp [hpc,RiderPc.credit,RiderPc.inFlight]) (by simp))
  | pay hpc =>
    exact .smooth (smooth_goto rfl (by simp [hpc,RiderPc.credit,RiderPc.inFlight,push]) (by simp))

theorem tally_goto (s : State c) (r : RiderId c) (pc : RiderPc c) :
    tally RiderPc.credit (s.goto r pc).rider + (s.rider r).credit.toNat =
      tally RiderPc.credit s.rider + pc.credit.toNat := by
  have h := tally_change (p := RiderPc.credit) (f := s.rider) (g := (s.goto r pc).rider) (i := r)
    fun j hj => by rw [goto_rider,Function.update_of_ne hj]
  rwa [goto_rider,Function.update_self] at h

theorem Wakeful.smooth (hs : Wakeful s) (hl : LockOk s) (h : Smooth s r t) (hm : Moves s r t) :
    Wakeful t := by
  have hch := tally_change (p := RiderPc.credit) (f := s.rider) (g := t.rider) (i := r)
    fun j hj => by rw [h.others j hj]
  have hb := h.balance
  refine ⟨?_,?_⟩
  · intro j hj
    have hne : j ≠ r := by
      rintro rfl
      exact h.neither.1 hj
    have := hs.credit j (by rw [← h.others j hne]; exact hj)
    omega
  · intro j hj
    have hne : j ≠ r := by
      rintro rfl
      exact h.neither.2 hj
    have hjs : s.rider j = .refused := by rw [← h.others j hne]; exact hj
    have hle := hs.refused j hjs
    have hholds : (s.rider j).holds = true := by rw [hjs]; rfl
    cases hm.countEffect with
    | keep ht _ =>
      rw [ht]
      exact hle
    | take hpc _ _ => exact absurd (hl.unique hholds (by rw [hpc]; rfl)) hne
    | give hpc _ _ => exact absurd (hl.unique hholds (by rw [hpc]; rfl)) hne

theorem wakeful_of_full (h : s.totalCabsOpen ≤ 0) : Wakeful s := by
  refine ⟨?_,fun _ _ => h⟩
  intro j _
  omega

theorem goto_ne {pc pc' : RiderPc c} {j : RiderId c} (h : (s.goto r pc).rider j = pc')
    (hne : pc ≠ pc') : j ≠ r ∧ s.rider j = pc' := by
  rw [goto_rider] at h
  rcases eq_or_ne j r with rfl | hj
  · rw [Function.update_self] at h
    exact absurd h hne
  · rw [Function.update_of_ne hj] at h
    exact ⟨hj,h⟩

theorem Wakeful.signal (hs : Wakeful s) (hr : s.rider r = .signalling i)
    (hd : s.delivers (.rider r) = true) : Wakeful ((s.signalTarget r i).goto r .leaving) := by
  rcases signalTarget_eq (s := s) (r := r) (i := i) with ⟨he,hno⟩ | ⟨j',-,hb,he⟩
  · have hnone : ∀ j, s.rider j ≠ .blocked := by
      simp only [delivers,hr,Bool.or_eq_true,decide_eq_true_eq] at hd
      rcases hd with hany | hnone
      · obtain ⟨j,hj,hjb⟩ := (Option.any_eq_true _ _).mp hany
        exact absurd (of_decide_eq_true hjb) (hno j hj)
      · exact hnone
    rw [he]
    refine ⟨?_,?_⟩
    · intro j hj
      exact absurd (goto_ne hj (by simp)).2 (hnone j)
    · intro j hj
      exact hs.refused j (goto_ne hj (by simp)).2
  · have hne : r ≠ j' := by
      rintro rfl
      rw [hr] at hb
      cases hb
    have h1 := tally_goto s j' (.waking .signalled)
    have h2 := tally_goto (s.goto j' (.waking .signalled)) r .leaving
    have hrx : (s.goto j' (.waking .signalled)).rider r = .signalling i := by
      rw [goto_rider,Function.update_of_ne hne,hr]
    rw [hb] at h1
    rw [hrx] at h2
    simp only [RiderPc.credit,RiderPc.inFlight,Bool.toNat_true,Bool.toNat_false] at h1 h2
    have hcredit := hs.credit j' hb
    rw [he]
    refine ⟨?_,?_⟩
    · intro j _
      change s.totalCabsOpen ≤ _
      omega
    · intro j hj
      obtain ⟨-,hj⟩ := goto_ne hj (by simp)
      exact hs.refused j (goto_ne hj (by simp)).2

theorem Wakeful.moves (hs : Wakeful s) (hl : LockOk s) (h : Moves s r t)
    (hd : s.delivers (.rider r) = true) : Wakeful t := by
  cases h.wakeEffect with
  | smooth hsm => exact hs.smooth hl hsm h
  | refuse hle ht => exact wakeful_of_full (ht ▸ hle)
  | block hr ht => exact wakeful_of_full (ht ▸ hs.refused r hr)
  | signal hr ht =>
    rw [ht]
    exact hs.signal hr hd

theorem Wakeful.same (hs : Wakeful s) (h : SameBooking s t) : Wakeful t := by
  refine ⟨?_,?_⟩
  · rw [h.totalCabsOpen,h.rider]
    exact hs.credit
  · rw [h.totalCabsOpen,h.rider]
    exact hs.refused

theorem Wakeful.wake (hs : Wakeful s) (hb : s.rider r = .blocked) {res : Wake}
    (hres : res ≠ .signalled) : Wakeful (s.goto r (.waking res)) := by
  have h1 := tally_goto s r (.waking res)
  have hc : (RiderPc.waking res : RiderPc c).credit = false := by
    cases res with
    | signalled => exact absurd rfl hres
    | spurious => rfl
    | timedOut => rfl
  rw [hb,hc] at h1
  simp only [RiderPc.credit,RiderPc.inFlight] at h1
  refine ⟨?_,?_⟩
  · intro j hj
    have := hs.credit j (goto_ne hj (by simp)).2
    change s.totalCabsOpen ≤ _
    omega
  · intro j hj
    exact hs.refused j (goto_ne hj (by simp)).2

theorem Wakeful.step (hs : Wakeful s) (hl : LockOk s) {a : Act c} (hd : s.delivers a = true)
    (h : s.step a = .ok t) : Wakeful t := by
  rcases step_cases h with ⟨r,rfl,hm⟩ | ⟨r,res,hb,hres,rfl⟩ | ⟨k,-,h⟩ | ⟨-,h,-⟩
  · exact hs.moves hl hm hd
  · exact hs.wake hb hres
  · exact hs.same h.sameBooking
  · exact hs.same h

theorem wakeful_of_reach (h : (service c).Reach (fun s a => s.delivers a = true) s) :
    Wakeful s := by
  apply h.invariant Wakeful
  · refine ⟨?_,?_⟩
    · intro j hj
      cases hj
    · intro j hj
      cases hj
  · intro s a t hr hw hd ht
    exact hw.step (bookingOk_of_reachable hr.reachable).lock hd ht

end State

def NoLostWakeup (s : State c) : Prop :=
  s.checkCab = none → (∀ r, (s.rider r).inFlight = false) →
    ∀ r, s.rider r = .blocked → s.totalCabsOpen ≤ 0

theorem credit_eq_inFlight {s : State c} (hl : State.LockOk s) (hfree : s.checkCab = none)
    (r : RiderId c) : (s.rider r).credit = (s.rider r).inFlight := by
  have hnot := hl.not_holds hfree r
  cases hpc : s.rider r with
  | locked => rw [hpc] at hnot; exact absurd rfl hnot
  | found i => rw [hpc] at hnot; exact absurd rfl hnot
  | freed i => rw [hpc] at hnot; exact absurd rfl hnot
  | signalling i => rw [hpc] at hnot; exact absurd rfl hnot
  | booking o => rfl
  | counted i => rfl
  | refused => rfl
  | blocked => rfl
  | waking res => rfl
  | woken res => rfl
  | cleared res => rfl
  | gaveUp => rfl
  | riding i => rfl
  | ending i => rfl
  | ended i => rfl
  | leaving => rfl
  | paying => rfl
  | posted => rfl
  | paid => rfl

theorem delivered_no_lost_wakeup {s : State c}
    (h : (service c).Reach (fun s a => s.delivers a = true) s) : NoLostWakeup s := by
  intro hfree hflight r hr
  have hl := (State.bookingOk_of_reachable h.reachable).lock
  have hcredit := (State.wakeful_of_reach h).credit r hr
  have hzero : tally RiderPc.credit s.rider = 0 := by
    rw [tally_eq_zero]
    intro j
    rw [credit_eq_inFlight hl hfree,hflight j]
  rw [hzero] at hcredit
  exact hcredit

def onePremier : Config := ⟨1,3,1,fun _ => .premier⟩

def premierActs (rs : List (Fin 3)) : List (Act onePremier) := rs.map fun r => .rider r

theorem delivered_to_waiting_premier :
    NoLostWakeup ((service onePremier).after
      (premierActs [0,0,0,0,1,1,1,2,2,2,0,0,0,0,0,0,1,1,1,1,1,1,1])) := by
  apply delivered_no_lost_wakeup
  apply System.reach_after
  · decide +kernel
  · decide +kernel

theorem premier_left_blocked :
    ¬ ∀ (c : Config) (s : State c), (service c).Reachable s → NoLostWakeup s := by
  intro h
  have hrun : ((service poolPair).checked (fun _ _ => True) (service poolPair).init
      (ridesOf [0,0,0,0,1,1,1,1,2,2,2,0,0,0,0,0,0])).any (fun s => s.checkCab = none ∧
        (∀ r, (s.rider r).inFlight = false) ∧ s.rider (2 : Fin 3) = .blocked ∧
        ¬ s.totalCabsOpen ≤ 0) = true := by decide +kernel
  obtain ⟨hr,hp⟩ := System.reach_checked hrun
  obtain ⟨hfree,hflight,hblocked,hopen⟩ := of_decide_eq_true hp
  exact hopen (h poolPair _ hr hfree hflight _ hblocked)

end Cabs
