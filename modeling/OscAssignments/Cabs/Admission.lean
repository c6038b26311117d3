import Mathlib.Tactic
import OscAssignments.Cabs.Occupancy

namespace Cabs
open Runs Tally

variable {c : Config}

def RiderPc.uncounted : RiderPc c → Bool
  | found _ => true
  | freed _ => true
  | _ => false

def Cab.waits (cab : Cab c) : Bool := cab.state = .waitState

def Cab.isFull (cab : Cab c) : Bool := cab.state = .onRidePoolFull

namespace State
variable {s t : State c} {r : RiderId c} {i : CabId c}

def Suits (s : State c) (r : RiderId c) (i : CabId c) : Prop :=
  usefulCab (some (c.cabType r)) (s.taxis i).state = true

def GetsCab (s : State c) (r : RiderId c) : Prop :=
  ∃ i t, (service c).step s (.rider r) = .ok t ∧ t.rider r = .found i

def PutToWait (s : State c) (r : RiderId c) : Prop :=
  ∃ t, (service c).step s (.rider r) = .ok t ∧ t.rider r = .refused

theorem suits_of_waiting (h : (s.taxis i).state = .waitState) : s.Suits r i := by
  unfold Suits
  cases c.cabType r with
  | pool => simp [usefulCab,h]
  | premier => simp [usefulCab,h]

theorem tally_boarded {cab : Cab c} (h : s.findCab r = some (i,cab))
    (ht : t.taxis = Function.update s.taxis i cab) :
    tally Cab.waits t.taxis + tally Cab.isFull s.taxis + 1 =
      tally Cab.waits s.taxis + tally Cab.isFull t.taxis := by
  have hother : ∀ (p : Cab c → Bool) j, j ≠ i → p (t.taxis j) = p (s.taxis j) := by
    intro p j hj
    rw [ht,Function.update_of_ne hj]
  have hi : t.taxis i = cab := by rw [ht,Function.update_self]
  have hw := tally_change (p := Cab.waits) (hother Cab.waits)
  have hf := tally_change (p := Cab.isFull) (hother Cab.isFull)
  rw [hi] at hw hf
  rcases findCab_cases h with ⟨-,hst,rfl⟩ | ⟨-,hst,rfl⟩ | ⟨-,hst,rfl⟩
  · simp [Cab.waits,Cab.isFull,hst] at hw hf
    omega
  · simp [Cab.waits,Cab.isFull,hst] at hw hf
    omega
  · simp [Cab.waits,Cab.isFull,hst] at hw hf
    omega

theorem vacate_state {cab : Cab c} (h : cab.state ≠ .waitState) :
    (vacate cab r).state = if cab.state = .onRidePoolFull then .onRidePoolOne else .waitState := by
  unfold vacate
  cases hst : cab.state with
  | waitState => exact absurd hst h
  | onRidePoolOne => rfl
  | onRidePremier => rfl
  | onRidePoolFull =>
    simp only
    split <;> rfl

theorem tally_vacated (hi : (s.taxis i).state ≠ .waitState)
    (ht : t.taxis = Function.update s.taxis i (vacate (s.taxis i) r)) :
    tally Cab.waits t.taxis + tally Cab.isFull s.taxis =
      tally Cab.waits s.taxis + tally Cab.isFull t.taxis + 1 := by
  have hother : ∀ (p : Cab c → Bool) j, j ≠ i → p (t.taxis j) = p (s.taxis j) := by
    intro p j hj
    rw [ht,Function.update_of_ne hj]
  have hv : (t.taxis i).state =
      if (s.taxis i).state = .onRidePoolFull then .onRidePoolOne else .waitState := by
    rw [ht,Function.update_self,vacate_state hi]
  have hw := tally_change (p := Cab.waits) (hother Cab.waits)
  have hf := tally_change (p := Cab.isFull) (hother Cab.isFull)
  rcases eq_or_ne (s.taxis i).state .onRidePoolFull with hst | hst
  · simp [Cab.waits,Cab.isFull,hv,hst] at hw hf
    omega
  · simp [Cab.waits,Cab.isFull,hv,hst,hi] at hw hf
    omega

def Balanced (s : State c) : Prop :=
  s.totalCabsOpen + tally Cab.isFull s.taxis =
    tally Cab.waits s.taxis + tally RiderPc.uncounted s.rider

inductive BalanceEffect (s : State c) (r : RiderId c) (t : State c) : Prop
  | keep : t.totalCabsOpen = s.totalCabsOpen → t.taxis = s.taxis →
      (t.rider r).uncounted = (s.rider r).uncounted → BalanceEffect s r t
  | enter {i : CabId c} {cab : Cab c} : t.totalCabsOpen = s.totalCabsOpen →
      s.findCab r = some (i,cab) → t.taxis = Function.update s.taxis i cab →
      (s.rider r).uncounted = false → (t.rider r).uncounted = true → BalanceEffect s r t
  | take : t.totalCabsOpen = s.totalCabsOpen - 1 → t.taxis = s.taxis →
      (s.rider r).uncounted = true → (t.rider r).uncounted = false → BalanceEffect s r t
  | give : t.totalCabsOpen = s.totalCabsOpen + 1 → t.taxis = s.taxis →
      (s.rider r).uncounted = false → (t.rider r).uncounted = true → BalanceEffect s r t
  | exit {i : CabId c} : t.totalCabsOpen = s.totalCabsOpen → (s.rider r).cab = some i →
      t.taxis = Function.update s.taxis i (vacate (s.taxis i) r) →
      (s.rider r).uncounted = true → (t.rider r).uncounted = false → BalanceEffect s r t

theorem Moves.balanceEffect (h : Moves s r t) : BalanceEffect s r t := by
  cases h with
  | lock hpc => exact .keep rfl rfl (by simp [hpc,RiderPc.uncounted])
  | find hpc _ hf =>
    exact .enter rfl hf rfl (by simp [hpc,RiderPc.uncounted]) (by simp [RiderPc.uncounted])
  | refuse hpc => exact .keep rfl rfl (by simp [hpc,RiderPc.uncounted])
  | count hpc =>
    exact .take rfl rfl (by simp [hpc,RiderPc.uncounted]) (by simp [RiderPc.uncounted])
  | board hpc => exact .keep rfl rfl (by simp [hpc,RiderPc.uncounted])
  | block hpc => exact .keep rfl rfl (by simp [hpc,RiderPc.uncounted])
  | relock hpc => exact .keep rfl rfl (by simp [hpc,RiderPc.uncounted])
  | clear hpc => exact .keep rfl rfl (by simp [hpc,RiderPc.uncounted])
  | giveUp hpc => exact .keep rfl rfl (by simp [hpc,RiderPc.uncounted])
  | retry hpc => exact .keep rfl rfl (by simp [hpc,RiderPc.uncounted])
  | finish hpc => exact .keep rfl rfl (by simp [hpc,RiderPc.uncounted])
  | lockEnd hpc => exact .keep rfl rfl (by simp [hpc,RiderPc.uncounted])
  | uncount hpc =>
    exact .give rfl rfl (by simp [hpc,RiderPc.uncounted]) (by simp [RiderPc.uncounted])
  | vacate hpc =>
    exact .exit rfl (by rw [hpc]; rfl) rfl (by simp [hpc,RiderPc.uncounted])
      (by simp [RiderPc.uncounted])
  | signal hpc =>
    exact .keep signalTarget_same.2.2 signalTarget_same.1 (by simp [hpc,RiderPc.uncounted])
  | leave hpc => exact .keep rfl rfl (by simp [hpc,RiderPc.uncounted])
  | post hpc => exact .keep rfl rfl (by simp [hpc,RiderPc.uncounted])
  | pay hpc => exact .keep rfl rfl (by simp [hpc,RiderPc.uncounted])

theorem Balanced.moves (hs : Balanced s) (hb : BookingOk s) (h : Moves s r t) : Balanced t := by
  have hu := tally_change (p := RiderPc.uncounted) (f := s.rider) (g := t.rider) (i := r)
    fun _ hj => h.others RiderPc.uncounted rfl hj
  unfold Balanced at hs ⊢
  cases h.balanceEffect with
  | keep ho ht hr =>
    rw [hr] at hu
    rw [ho,ht]
    omega
  | enter ho hf ht h0 h1 =>
    have hcab := tally_boarded hf ht
    rw [h0,h1,Bool.toNat_false,Bool.toNat_true] at hu
    omega
  | take ho ht h0 h1 =>
    rw [h0,h1,Bool.toNat_false,Bool.toNat_true] at hu
    rw [ho,ht]
    omega
  | give ho ht h0 h1 =>
    rw [h0,h1,Bool.toNat_false,Bool.toNat_true] at hu
    rw [ho,ht]
    omega
  | exit ho hi ht h0 h1 =>
    have hcab := tally_vacated (riding_occupied hb hi) ht
    rw [h0,h1,Bool.toNat_false,Bool.toNat_true] at hu
    omega

theorem Balanced.step (hs : Balanced s) (hb : BookingOk s) {a : Act c} (h : s.step a = .ok t) :
    Balanced t := by
  rcases step_cases h with ⟨r,-,h⟩ | ⟨r,res,hw,-,rfl⟩ | ⟨k,-,h⟩ | ⟨-,h,-⟩
  · exact hs.moves hb h
  · have hsame : tally RiderPc.uncounted (s.goto r (.waking res)).rider =
        tally RiderPc.uncounted s.rider := by
      apply tally_congr
      intro j
      rw [goto_rider]
      rcases eq_or_ne j r with rfl | hj
      · rw [Function.update_self,hw]
        rfl
      · rw [Function.update_of_ne hj]
    unfold Balanced
    rw [hsame]
    exact hs
  · obtain ⟨h1,-,h3,-,h5⟩ := h.sameBooking
    unfold Balanced
    rw [h1,h3,h5]
    exact hs
  · obtain ⟨h1,-,h3,-,h5⟩ := h
    unfold Balanced
    rw [h1,h3,h5]
    exact hs

theorem balanced_of_reachable (h : (service c).Reachable s) : Balanced s := by
  have main : BookingOk s ∧ Balanced s := by
    refine h.invariant (fun s => BookingOk s ∧ Balanced s) ⟨bookingOk_init c,?_⟩ ?_
    · have hf : tally Cab.isFull (init c).taxis = 0 := tally_eq_zero.mpr fun _ => rfl
      have hu : tally RiderPc.uncounted (init c).rider = 0 := tally_eq_zero.mpr fun _ => rfl
      have hw : tally Cab.waits (init c).taxis = c.cabsCount := by
        simp [tally,init,Cab.waits]
      change Balanced (init c)
      unfold Balanced
      rw [hf,hu,hw]
      rfl
    · intro s a t _ hs _ ht
      exact ⟨hs.1.step ht,hs.2.step hs.1 ht⟩
  exact main.2

theorem open_eq_of_locked (h : (service c).Reachable s) (hr : s.rider r = .locked) :
    s.totalCabsOpen + tally Cab.isFull s.taxis = tally Cab.waits s.taxis := by
  have hb := balanced_of_reachable h
  have hlock := (bookingOk_of_reachable h).lock
  have hz : tally RiderPc.uncounted s.rider = 0 := by
    rw [tally_eq_zero]
    intro j
    cases hj : (s.rider j).uncounted with
    | false => rfl
    | true =>
      have hholds : (s.rider j).holds = true := by
        cases hpc : s.rider j with
        | found i => rfl
        | freed i => rfl
        | _ => rw [hpc] at hj; cases hj
      have hjr := hlock.unique hholds (show (s.rider r).holds = true by rw [hr]; rfl)
      rw [hjr,hr] at hj
      cases hj
  unfold Balanced at hb
  omega

theorem locked_step (h : (service c).Reachable s) (hr : s.rider r = .locked) :
    (0 < s.totalCabsOpen ∧ ∃ i cab, s.findCab r = some (i,cab) ∧
      (service c).step s (.rider r) = .ok ((s.setCab i cab).goto r (.found i))) ∨
    (s.totalCabsOpen ≤ 0 ∧ (service c).step s (.rider r) = .ok (s.goto r .refused)) := by
  rcases lt_or_ge 0 s.totalCabsOpen with hpos | hle
  · obtain ⟨i,hi⟩ := exists_waiting (bookingOk_of_reachable h) hr hpos
    obtain ⟨⟨j,cab⟩,hf⟩ := findCab_of_waiting (r := r) hi
    refine .inl ⟨hpos,j,cab,hf,?_⟩
    change s.riderStep r = _
    simp only [riderStep,hr,if_pos hpos,hf]
  · refine .inr ⟨hle,?_⟩
    change s.riderStep r = _
    simp only [riderStep,hr,if_neg (not_lt.mpr hle)]

theorem getsCab_iff (h : (service c).Reachable s) (hr : s.rider r = .locked) :
    s.GetsCab r ↔ 0 < s.totalCabsOpen := by
  rcases locked_step h hr with ⟨hpos,i,cab,-,hstep⟩ | ⟨hle,hstep⟩
  · exact iff_of_true ⟨i,_,hstep,by simp⟩ hpos
  · refine iff_of_false ?_ (not_lt.mpr hle)
    rintro ⟨i,t,ht,hi⟩
    rw [hstep] at ht
    cases ht
    simp at hi

theorem putToWait_iff (h : (service c).Reachable s) (hr : s.rider r = .locked) :
    s.PutToWait r ↔ s.totalCabsOpen ≤ 0 := by
  rcases locked_step h hr with ⟨hpos,i,cab,-,hstep⟩ | ⟨hle,hstep⟩
  · refine iff_of_false ?_ (not_le.mpr hpos)
    rintro ⟨t,ht,hw⟩
    rw [hstep] at ht
    cases ht
    simp at hw
  · exact iff_of_true ⟨_,hstep,by simp⟩ hle

theorem suits_of_open (h : (service c).Reachable s) (hr : s.rider r = .locked)
    (hpos : 0 < s.totalCabsOpen) : ∃ i, s.Suits r i := by
  obtain ⟨i,hi⟩ := exists_waiting (bookingOk_of_reachable h) hr hpos
  exact ⟨i,suits_of_waiting hi⟩

structure Admits (s : State c) (r : RiderId c) : Prop where
  immediate : s.GetsCab r ↔ ∃ i, s.Suits r i
  waits : s.PutToWait r → ∀ i, ¬ s.Suits r i

end State

theorem bookCab_admits_iff {s : State c} {r : RiderId c} (h : (service c).Reachable s)
    (hr : s.rider r = .locked) :
    s.Admits r ↔
      ((∃ i, s.Suits r i) → tally Cab.isFull s.taxis < tally Cab.waits s.taxis) := by
  have hopen := State.open_eq_of_locked h hr
  have hgets := State.getsCab_iff h hr
  have hwaits := State.putToWait_iff h hr
  constructor
  · intro ha hsuit
    have hpos := hgets.mp (ha.immediate.mpr hsuit)
    omega
  · intro hcond
    refine ⟨⟨fun hg => State.suits_of_open h hr (hgets.mp hg),?_⟩,?_⟩
    · intro hsuit
      have hlt := hcond hsuit
      exact hgets.mpr (by omega)
    · intro hw i hi
      have hlt := hcond ⟨i,hi⟩
      have hle := hwaits.mp hw
      omega

theorem bookCab_admits_first :
    ((service poolPair).after (ridesOf [0])).Admits (0 : Fin 3) := by
  have hrun : ((service poolPair).checked (fun _ _ => True) (service poolPair).init
      (ridesOf [0])).any (fun s => decide (s.rider (0 : Fin 3) = .locked ∧
        tally Cab.isFull s.taxis < tally Cab.waits s.taxis)) = true := by
    decide +kernel
  obtain ⟨hr,hlock⟩ := System.reach_checked hrun
  obtain ⟨hlock,hlt⟩ := of_decide_eq_true hlock
  exact (bookCab_admits_iff hr hlock).mpr fun _ => hlt

theorem bookCab_refuses_with_free_cab :
    ¬ ∀ (c : Config) (s : State c) (r : RiderId c), (service c).Reachable s →
      s.rider r = .locked → s.Admits r := by
  intro h
  have hrun : ((service poolPair).checked (fun _ _ => True) (service poolPair).init
      (ridesOf [0,0,0,0,1,1,1,1,2])).any (fun s => decide (s.rider (2 : Fin 3) = .locked ∧
        s.totalCabsOpen = 0 ∧ (s.taxis (1 : Fin 2)).state = .waitState)) = true := by
    decide +kernel
  obtain ⟨hr,hs⟩ := System.reach_checked hrun
  obtain ⟨hlock,hopen,hwait⟩ := of_decide_eq_true hs
  have ha := h poolPair _ (2 : Fin 3) hr hlock
  have hpos := (State.getsCab_iff hr hlock).mp (ha.immediate.mpr ⟨_,State.suits_of_waiting hwait⟩)
  omega

end Cabs
