import Mathlib.Tactic
import OscAssignments.Lib.Tally
import OscAssignments.Cabs.Moves

namespace Cabs
open Runs Tally

variable {c : Config}

def Cab.Has (cab : Cab c) (r : RiderId c) : Prop := cab.rider1 = some r ∨ cab.rider2 = some r

inductive Cab.Shape : Cab c → Prop
  | empty : Shape ⟨.waitState,none,none⟩
  | one {r : RiderId c} : c.cabType r = .pool → Shape ⟨.onRidePoolOne,some r,none⟩
  | full {r r' : RiderId c} : r ≠ r' → c.cabType r = .pool → c.cabType r' = .pool →
      Shape ⟨.onRidePoolFull,some r,some r'⟩
  | alone {r : RiderId c} : c.cabType r = .premier → Shape ⟨.onRidePremier,some r,none⟩

namespace RiderPc

def cab : RiderPc c → Option (CabId c)
  | found i => some i
  | counted i => some i
  | riding i => some i
  | ending i => some i
  | ended i => some i
  | freed i => some i
  | _ => none

def aboard (pc : RiderPc c) : Bool := pc.cab.isSome

def counts : RiderPc c → Bool
  | counted _ => true
  | riding _ => true
  | ending _ => true
  | ended _ => true
  | _ => false

def choosing : RiderPc c → Option (CabId c)
  | found i => some i
  | _ => none

def holds : RiderPc c → Bool
  | locked => true
  | found _ => true
  | counted _ => true
  | refused => true
  | woken _ => true
  | cleared _ => true
  | ended _ => true
  | freed _ => true
  | signalling _ => true
  | leaving => true
  | _ => false

end RiderPc

namespace State
variable {s t : State c} {r : RiderId c} {i : CabId c}

@[simp] theorem goto_totalCabsOpen (pc : RiderPc c) :
    (s.goto r pc).totalCabsOpen = s.totalCabsOpen := rfl

@[simp] theorem goto_rider (pc : RiderPc c) :
    (s.goto r pc).rider = Function.update s.rider r pc := rfl

theorem signalTarget_eq :
    (s.signalTarget r i = s ∧ ∀ j, s.target r i = some j → s.rider j ≠ .blocked) ∨
      ∃ j, s.target r i = some j ∧ s.rider j = .blocked ∧
        s.signalTarget r i = s.goto j (.waking .signalled) := by
  unfold signalTarget
  cases ht : s.target r i with
  | none => exact .inl ⟨rfl,by intro j hj; cases hj⟩
  | some j =>
    simp only [State.signal]
    split
    case isTrue hb => exact .inr ⟨j,rfl,hb,rfl⟩
    case isFalse hb =>
      refine .inl ⟨rfl,?_⟩
      intro j' hj'
      cases hj'
      exact hb

theorem signalTarget_keeps {β : Type} (f : RiderPc c → β)
    (hf : f (.waking .signalled) = f .blocked) (j : RiderId c) :
    f ((s.signalTarget r i).rider j) = f (s.rider j) := by
  rcases signalTarget_eq (s := s) (r := r) (i := i) with ⟨he,-⟩ | ⟨j',-,hb,he⟩
  · rw [he]
  · rw [he,goto_rider]
    rcases eq_or_ne j j' with rfl | hne
    · rw [Function.update_self,hb,hf]
    · rw [Function.update_of_ne hne]

theorem signalTarget_same : (s.signalTarget r i).taxis = s.taxis ∧
    (s.signalTarget r i).checkCab = s.checkCab ∧
    (s.signalTarget r i).totalCabsOpen = s.totalCabsOpen := by
  rcases signalTarget_eq (s := s) (r := r) (i := i) with ⟨he,-⟩ | ⟨j',-,-,he⟩
  · rw [he]
    exact ⟨rfl,rfl,rfl⟩
  · rw [he]
    exact ⟨rfl,rfl,rfl⟩

theorem Moves.others {β : Type} (f : RiderPc c → β) (hf : f (.waking .signalled) = f .blocked)
    (h : Moves s r t) {j : RiderId c} (hj : j ≠ r) : f (t.rider j) = f (s.rider j) := by
  cases h with
  | signal hpc =>
    rw [goto_rider,Function.update_of_ne hj]
    exact signalTarget_keeps f hf j
  | lock => exact congrArg f (Function.update_of_ne hj _ _)
  | find => exact congrArg f (Function.update_of_ne hj _ _)
  | refuse => exact congrArg f (Function.update_of_ne hj _ _)
  | count => exact congrArg f (Function.update_of_ne hj _ _)
  | board => exact congrArg f (Function.update_of_ne hj _ _)
  | block => exact congrArg f (Function.update_of_ne hj _ _)
  | relock => exact congrArg f (Function.update_of_ne hj _ _)
  | clear => exact congrArg f (Function.update_of_ne hj _ _)
  | giveUp => exact congrArg f (Function.update_of_ne hj _ _)
  | retry => exact congrArg f (Function.update_of_ne hj _ _)
  | finish => exact congrArg f (Function.update_of_ne hj _ _)
  | lockEnd => exact congrArg f (Function.update_of_ne hj _ _)
  | uncount => exact congrArg f (Function.update_of_ne hj _ _)
  | vacate => exact congrArg f (Function.update_of_ne hj _ _)
  | leave => exact congrArg f (Function.update_of_ne hj _ _)
  | post => exact congrArg f (Function.update_of_ne hj _ _)
  | pay => exact congrArg f (Function.update_of_ne hj _ _)

inductive LockEffect (s : State c) (r : RiderId c) (t : State c) : Prop
  | keep : t.checkCab = s.checkCab → (t.rider r).holds = (s.rider r).holds → LockEffect s r t
  | acquire : s.checkCab = none → t.checkCab = some r → (t.rider r).holds = true →
      LockEffect s r t
  | release : t.checkCab = none → (s.rider r).holds = true → (t.rider r).holds = false →
      LockEffect s r t

theorem Moves.lockEffect (h : Moves s r t) : LockEffect s r t := by
  cases h with
  | lock hpc hfree => exact .acquire hfree rfl (by simp [RiderPc.holds])
  | find hpc => exact .keep rfl (by simp [hpc,RiderPc.holds])
  | refuse hpc => exact .keep rfl (by simp [hpc,RiderPc.holds])
  | count hpc => exact .keep rfl (by simp [hpc,RiderPc.holds])
  | board hpc => exact .release rfl (by simp [hpc,RiderPc.holds]) (by simp [RiderPc.holds])
  | block hpc => exact .release rfl (by simp [hpc,RiderPc.holds]) (by simp [RiderPc.holds])
  | relock hpc hfree => exact .acquire hfree rfl (by simp [RiderPc.holds])
  | clear hpc => exact .keep rfl (by simp [hpc,RiderPc.holds])
  | giveUp hpc => exact .release rfl (by simp [hpc,RiderPc.holds]) (by simp [RiderPc.holds])
  | retry hpc => exact .release rfl (by simp [hpc,RiderPc.holds]) (by simp [RiderPc.holds])
  | finish hpc => exact .keep rfl (by simp [hpc,RiderPc.holds])
  | lockEnd hpc hfree => exact .acquire hfree rfl (by simp [RiderPc.holds])
  | uncount hpc => exact .keep rfl (by simp [hpc,RiderPc.holds])
  | vacate hpc => exact .keep rfl (by simp [hpc,RiderPc.holds])
  | signal hpc => exact .keep signalTarget_same.2.1 (by simp [hpc,RiderPc.holds])
  | leave hpc => exact .release rfl (by simp [hpc,RiderPc.holds]) (by simp [RiderPc.holds])
  | post hpc => exact .keep rfl (by simp [hpc,RiderPc.holds])
  | pay hpc => exact .keep rfl (by simp [hpc,RiderPc.holds])

def LockOk (s : State c) : Prop := ∀ r, s.checkCab = some r ↔ (s.rider r).holds = true

theorem LockOk.moves (hs : LockOk s) (h : Moves s r t) : LockOk t := by
  have hother : ∀ j, j ≠ r → (t.rider j).holds = (s.rider j).holds :=
    fun j hj => h.others RiderPc.holds rfl hj
  intro j
  cases h.lockEffect with
  | keep hc hr =>
    rw [hc,hs j]
    rcases eq_or_ne j r with rfl | hj
    · rw [hr]
    · rw [hother j hj]
  | acquire hfree hc hr =>
    rw [hc]
    rcases eq_or_ne j r with rfl | hj
    · simp only [hr]
    · rw [hother j hj,← hs j,hfree]
      simp [hj.symm]
  | release hc hr hr' =>
    rw [hc]
    rcases eq_or_ne j r with rfl | hj
    · rw [hr']
      simp
    · rw [hother j hj,← hs j,(hs r).mpr hr]
      simp [hj.symm]

inductive CabEffect (s : State c) (r : RiderId c) (t : State c) : Prop
  | keep : t.taxis = s.taxis → (t.rider r).cab = (s.rider r).cab → CabEffect s r t
  | enter {i : CabId c} {cab : Cab c} : s.rider r = .locked → s.findCab r = some (i,cab) →
      t.taxis = Function.update s.taxis i cab → (t.rider r).cab = some i → CabEffect s r t
  | exit {i : CabId c} : s.rider r = .freed i →
      t.taxis = Function.update s.taxis i (State.vacate (s.taxis i) r) →
      (t.rider r).cab = none → CabEffect s r t

theorem Moves.cabEffect (h : Moves s r t) : CabEffect s r t := by
  cases h with
  | lock hpc => exact .keep rfl (by simp [hpc,RiderPc.cab])
  | find hpc _ hf => exact .enter hpc hf rfl (by simp [RiderPc.cab])
  | refuse hpc => exact .keep rfl (by simp [hpc,RiderPc.cab])
  | count hpc => exact .keep rfl (by simp [hpc,RiderPc.cab])
  | board hpc => exact .keep rfl (by simp [hpc,RiderPc.cab])
  | block hpc => exact .keep rfl (by simp [hpc,RiderPc.cab])
  | relock hpc => exact .keep rfl (by simp [hpc,RiderPc.cab])
  | clear hpc => exact .keep rfl (by simp [hpc,RiderPc.cab])
  | giveUp hpc => exact .keep rfl (by simp [hpc,RiderPc.cab])
  | retry hpc => exact .keep rfl (by simp [hpc,RiderPc.cab])
  | finish hpc => exact .keep rfl (by simp [hpc,RiderPc.cab])
  | lockEnd hpc => exact .keep rfl (by simp [hpc,RiderPc.cab])
  | uncount hpc => exact .keep rfl (by simp [hpc,RiderPc.cab])
  | vacate hpc => exact .exit hpc rfl (by simp [RiderPc.cab])
  | signal hpc => exact .keep signalTarget_same.1 (by simp [hpc,RiderPc.cab])
  | leave hpc => exact .keep rfl (by simp [hpc,RiderPc.cab])
  | post hpc => exact .keep rfl (by simp [hpc,RiderPc.cab])
  | pay hpc => exact .keep rfl (by simp [hpc,RiderPc.cab])

inductive CountEffect (s : State c) (r : RiderId c) (t : State c) : Prop
  | keep : t.totalCabsOpen = s.totalCabsOpen → (t.rider r).counts = (s.rider r).counts →
      CountEffect s r t
  | take {i : CabId c} : s.rider r = .found i → t.totalCabsOpen = s.totalCabsOpen - 1 →
      (t.rider r).counts = true → CountEffect s r t
  | give {i : CabId c} : s.rider r = .ended i → t.totalCabsOpen = s.totalCabsOpen + 1 →
      (t.rider r).counts = false → CountEffect s r t

theorem Moves.countEffect (h : Moves s r t) : CountEffect s r t := by
  cases h with
  | lock hpc => exact .keep rfl (by simp [hpc,RiderPc.counts])
  | find hpc => exact .keep rfl (by simp [hpc,RiderPc.counts])
  | refuse hpc => exact .keep rfl (by simp [hpc,RiderPc.counts])
  | count hpc => exact .take hpc rfl (by simp [RiderPc.counts])
  | board hpc => exact .keep rfl (by simp [hpc,RiderPc.counts])
  | block hpc => exact .keep rfl (by simp [hpc,RiderPc.counts])
  | relock hpc => exact .keep rfl (by simp [hpc,RiderPc.counts])
  | clear hpc => exact .keep rfl (by simp [hpc,RiderPc.counts])
  | giveUp hpc => exact .keep rfl (by simp [hpc,RiderPc.counts])
  | retry hpc => exact .keep rfl (by simp [hpc,RiderPc.counts])
  | finish hpc => exact .keep rfl (by simp [hpc,RiderPc.counts])
  | lockEnd hpc => exact .keep rfl (by simp [hpc,RiderPc.counts])
  | uncount hpc => exact .give hpc rfl (by simp [RiderPc.counts])
  | vacate hpc => exact .keep rfl (by simp [hpc,RiderPc.counts])
  | signal hpc => exact .keep signalTarget_same.2.2 (by simp [hpc,RiderPc.counts])
  | leave hpc => exact .keep rfl (by simp [hpc,RiderPc.counts])
  | post hpc => exact .keep rfl (by simp [hpc,RiderPc.counts])
  | pay hpc => exact .keep rfl (by simp [hpc,RiderPc.counts])

theorem firstIn_some {st : CabState} (h : s.firstIn st = some i) : (s.taxis i).state = st := by
  have := List.find?_some h
  simpa using this

theorem firstIn_none {st : CabState} (h : s.firstIn st = none) (i : CabId c) :
    (s.taxis i).state ≠ st := by
  have := List.find?_eq_none.mp h i (List.mem_finRange i)
  simpa using this

theorem shape_waiting {cab : Cab c} (h : cab.Shape) (hw : cab.state = .waitState) :
    cab = ⟨.waitState,none,none⟩ := by
  cases h with
  | empty => rfl
  | one => cases hw
  | full => cases hw
  | alone => cases hw

theorem shape_poolOne {cab : Cab c} (h : cab.Shape) (hw : cab.state = .onRidePoolOne) :
    ∃ a, c.cabType a = .pool ∧ cab = ⟨.onRidePoolOne,some a,none⟩ := by
  cases h with
  | empty => cases hw
  | one ha => exact ⟨_,ha,rfl⟩
  | full => cases hw
  | alone => cases hw

theorem findCab_cases {cab : Cab c} (h : s.findCab r = some (i,cab)) :
    (c.cabType r = .pool ∧ (s.taxis i).state = .onRidePoolOne ∧
        cab = { s.taxis i with state := .onRidePoolFull, rider2 := some r }) ∨
      (c.cabType r = .pool ∧ (s.taxis i).state = .waitState ∧
        cab = { s.taxis i with state := .onRidePoolOne, rider1 := some r }) ∨
      (c.cabType r = .premier ∧ (s.taxis i).state = .waitState ∧
        cab = { s.taxis i with rider1 := some r, state := .onRidePremier }) := by
  unfold findCab at h
  cases hty : c.cabType r with
  | pool =>
    rw [hty] at h
    simp only at h
    cases hone : s.firstIn .onRidePoolOne with
    | some i' =>
      rw [hone] at h
      cases h
      exact .inl ⟨rfl,firstIn_some hone,rfl⟩
    | none =>
      rw [hone] at h
      simp only at h
      cases hw : s.firstIn .waitState with
      | some i' =>
        rw [hw] at h
        cases h
        exact .inr (.inl ⟨rfl,firstIn_some hw,rfl⟩)
      | none =>
        rw [hw] at h
        cases h
  | premier =>
    rw [hty] at h
    simp only at h
    cases hw : s.firstIn .waitState with
    | some i' =>
      rw [hw] at h
      cases h
      exact .inr (.inr ⟨rfl,firstIn_some hw,rfl⟩)
    | none =>
      rw [hw] at h
      cases h

theorem findCab_spec {cab : Cab c} (hi : (s.taxis i).Shape) (hr : ¬ (s.taxis i).Has r)
    (h : s.findCab r = some (i,cab)) :
    cab.Shape ∧ ∀ r', cab.Has r' ↔ (s.taxis i).Has r' ∨ r' = r := by
  rcases findCab_cases h with ⟨hty,hst,rfl⟩ | ⟨hty,hst,rfl⟩ | ⟨hty,hst,rfl⟩
  · obtain ⟨a,ha,he⟩ := shape_poolOne hi hst
    rw [he] at hr ⊢
    have hne : a ≠ r := by
      rintro rfl
      exact hr (.inl rfl)
    refine ⟨.full hne ha hty,?_⟩
    intro r'
    simp only [Cab.Has]
    grind
  · rw [shape_waiting hi hst]
    refine ⟨.one hty,?_⟩
    intro r'
    simp only [Cab.Has]
    grind
  · rw [shape_waiting hi hst]
    refine ⟨.alone hty,?_⟩
    intro r'
    simp only [Cab.Has]
    grind

theorem findCab_of_waiting (h : (s.taxis i).state = .waitState) :
    ∃ x, s.findCab r = some x := by
  have hw : ∃ i', s.firstIn .waitState = some i' := by
    cases hf : s.firstIn .waitState with
    | some i' => exact ⟨i',rfl⟩
    | none => exact absurd h (firstIn_none hf i)
  obtain ⟨i',hw⟩ := hw
  unfold findCab
  cases c.cabType r with
  | pool =>
    cases s.firstIn .onRidePoolOne with
    | some i'' => exact ⟨_,rfl⟩
    | none =>
      rw [hw]
      exact ⟨_,rfl⟩
  | premier =>
    rw [hw]
    exact ⟨_,rfl⟩

theorem vacate_spec {cab : Cab c} (hs : cab.Shape) (hr : cab.Has r) :
    (State.vacate cab r).Shape ∧ ∀ r', (State.vacate cab r).Has r' ↔ cab.Has r' ∧ r' ≠ r := by
  cases hs with
  | empty => simp [Cab.Has] at hr
  | @one a ha =>
    have hra : a = r := by simpa [Cab.Has] using hr
    refine ⟨.empty,?_⟩
    intro r'
    simp only [State.vacate,Cab.Has]
    grind
  | @full a b hab ha hb =>
    rcases eq_or_ne a r with rfl | hne
    · refine ⟨?_,?_⟩
      · simp only [State.vacate,if_true]
        exact .one hb
      · intro r'
        simp only [State.vacate,if_true,Cab.Has]
        grind
    · refine ⟨?_,?_⟩
      · simp only [State.vacate,Option.some.injEq,if_neg hne]
        exact .one ha
      · intro r'
        simp only [State.vacate,Option.some.injEq,if_neg hne,Cab.Has]
        simp only [Cab.Has] at hr
        grind
  | @alone a ha =>
    have hra : a = r := by simpa [Cab.Has] using hr
    refine ⟨.empty,?_⟩
    intro r'
    simp only [State.vacate,Cab.Has]
    grind

structure Recorded (s : State c) : Prop where
  shape : ∀ i, (s.taxis i).Shape
  records : ∀ i r, (s.taxis i).Has r ↔ (s.rider r).cab = some i

theorem Recorded.replace (hs : Recorded s) {cab : Cab c} {o : Option (CabId c)}
    (hshape : cab.Shape) (hothers : ∀ j, j ≠ r → (t.rider j).cab = (s.rider j).cab)
    (ht : t.taxis = Function.update s.taxis i cab) (hr : (t.rider r).cab = o)
    (hold : ∀ i', i' ≠ i → (s.rider r).cab ≠ some i') (hnew : ∀ i', i' ≠ i → o ≠ some i')
    (hcab : ∀ j, j ≠ r → (cab.Has j ↔ (s.taxis i).Has j)) (hcabr : cab.Has r ↔ o = some i) :
    Recorded t := by
  refine ⟨?_,?_⟩
  · intro i'
    rw [ht]
    rcases eq_or_ne i' i with rfl | hne
    · rw [Function.update_self]
      exact hshape
    · rw [Function.update_of_ne hne]
      exact hs.shape i'
  · intro i' j
    rw [ht]
    rcases eq_or_ne i' i with rfl | hne
    · rw [Function.update_self]
      rcases eq_or_ne j r with rfl | hj
      · rw [hcabr,hr]
      · rw [hcab j hj,hothers j hj]
        exact hs.records i' j
    · rw [Function.update_of_ne hne,hs.records i' j]
      rcases eq_or_ne j r with rfl | hj
      · rw [hr]
        exact iff_of_false (hold i' hne) (hnew i' hne)
      · rw [hothers j hj]

theorem Recorded.moves (hs : Recorded s) (h : Moves s r t) : Recorded t := by
  have hother : ∀ j, j ≠ r → (t.rider j).cab = (s.rider j).cab :=
    fun j hj => h.others RiderPc.cab rfl hj
  cases h.cabEffect with
  | keep ht hr =>
    have hall : ∀ j, (t.rider j).cab = (s.rider j).cab := by
      intro j
      rcases eq_or_ne j r with rfl | hj
      · exact hr
      · exact hother j hj
    refine ⟨?_,?_⟩
    · rw [ht]
      exact hs.shape
    · intro i j
      rw [ht,hall j]
      exact hs.records i j
  | @enter i cab hpc hf ht hr =>
    have hnone : (s.rider r).cab = none := by rw [hpc]; rfl
    have hnot : ¬ (s.taxis i).Has r := by
      rw [hs.records,hnone]
      simp
    obtain ⟨hshape,hhas⟩ := findCab_spec (hs.shape i) hnot hf
    refine hs.replace hshape hother ht hr ?_ ?_ ?_ ?_
    · intro i' _
      rw [hnone]
      simp
    · intro i' hne he
      exact hne (Option.some.inj he).symm
    · intro j hj
      rw [hhas j]
      simp [hj]
    · rw [hhas r]
      simp
  | @exit i hpc ht hr =>
    have hsome : (s.rider r).cab = some i := by rw [hpc]; rfl
    obtain ⟨hshape,hhas⟩ := vacate_spec (hs.shape i) ((hs.records i r).mpr hsome)
    refine hs.replace hshape hother ht hr ?_ ?_ ?_ ?_
    · intro i' hne he
      rw [hsome] at he
      exact hne (Option.some.inj he).symm
    · intro i' _
      simp
    · intro j hj
      rw [hhas j]
      simp [hj]
    · rw [hhas r]
      simp

structure Counted (s : State c) : Prop where
  total : s.totalCabsOpen + tally RiderPc.counts s.rider = c.cabsCount
  nonneg : 0 ≤ s.totalCabsOpen
  room : ∀ r i, s.rider r = .found i → 0 < s.totalCabsOpen

theorem Moves.total (h : Moves s r t) :
    t.totalCabsOpen + tally RiderPc.counts t.rider =
      s.totalCabsOpen + tally RiderPc.counts s.rider := by
  have hch := tally_change (p := RiderPc.counts) (f := s.rider) (g := t.rider) (i := r)
    fun j hj => h.others RiderPc.counts rfl hj
  cases h.countEffect with
  | keep ht hr =>
    rw [hr] at hch
    omega
  | take hpc ht hr =>
    rw [hr,hpc] at hch
    simp only [RiderPc.counts,Bool.toNat_true,Bool.toNat_false] at hch
    omega
  | give hpc ht hr =>
    rw [hr,hpc] at hch
    simp only [RiderPc.counts,Bool.toNat_true,Bool.toNat_false] at hch
    omega

theorem Moves.choosing_room (h : Moves s r t) (hc : (t.rider r).choosing = some i) :
    0 < t.totalCabsOpen := by
  cases h with
  | find _ hpos _ => exact hpos
  | lock => simp [RiderPc.choosing] at hc
  | refuse => simp [RiderPc.choosing] at hc
  | count => simp [RiderPc.choosing] at hc
  | board => simp [RiderPc.choosing] at hc
  | block => simp [RiderPc.choosing] at hc
  | relock => simp [RiderPc.choosing] at hc
  | clear => simp [RiderPc.choosing] at hc
  | giveUp => simp [RiderPc.choosing] at hc
  | retry => simp [RiderPc.choosing] at hc
  | finish => simp [RiderPc.choosing] at hc
  | lockEnd => simp [RiderPc.choosing] at hc
  | uncount => simp [RiderPc.choosing] at hc
  | vacate => simp [RiderPc.choosing] at hc
  | signal => simp [RiderPc.choosing] at hc
  | leave => simp [RiderPc.choosing] at hc
  | post => simp [RiderPc.choosing] at hc
  | pay => simp [RiderPc.choosing] at hc

theorem choosing_eq {pc : RiderPc c} (h : pc.choosing = some i) : pc = .found i := by
  cases pc with
  | found j =>
    cases h
    rfl
  | booking o => cases h
  | locked => cases h
  | counted j => cases h
  | refused => cases h
  | blocked => cases h
  | waking res => cases h
  | woken res => cases h
  | cleared res => cases h
  | gaveUp => cases h
  | riding j => cases h
  | ending j => cases h
  | ended j => cases h
  | freed j => cases h
  | signalling j => cases h
  | leaving => cases h
  | paying => cases h
  | posted => cases h
  | paid => cases h

theorem LockOk.unique (hs : LockOk s) {j : RiderId c} (hr : (s.rider r).holds = true)
    (hj : (s.rider j).holds = true) : r = j := by
  have h1 := (hs r).mpr hr
  have h2 := (hs j).mpr hj
  rw [h1] at h2
  exact Option.some.inj h2

theorem Counted.moves (hs : Counted s) (hl : LockOk s) (h : Moves s r t) : Counted t := by
  have htotal := h.total
  refine ⟨by have := hs.total; omega,?_,?_⟩
  · cases h.countEffect with
    | keep ht _ =>
      rw [ht]
      exact hs.nonneg
    | take hpc ht _ =>
      have := hs.room r _ hpc
      omega
    | give _ ht _ =>
      have := hs.nonneg
      omega
  · intro j i hj
    rcases eq_or_ne j r with rfl | hne
    · exact h.choosing_room (i := i) (by rw [hj]; rfl)
    · have hfound : s.rider j = .found i := by
        apply choosing_eq
        rw [← h.others RiderPc.choosing rfl hne,hj]
        rfl
      have hroom := hs.room j i hfound
      have hholds : (s.rider j).holds = true := by rw [hfound]; rfl
      cases h.countEffect with
      | keep ht _ =>
        rw [ht]
        exact hroom
      | take hpc _ _ => exact absurd (hl.unique hholds (by rw [hpc]; rfl)) hne
      | give hpc _ _ => exact absurd (hl.unique hholds (by rw [hpc]; rfl)) hne

structure BookingOk (s : State c) : Prop where
  lock : LockOk s
  recorded : Recorded s
  counted : Counted s

theorem BookingOk.same (hs : BookingOk s) (h : SameBooking s t) : BookingOk t := by
  obtain ⟨h1,-,h3,h4,h5⟩ := h
  refine ⟨?_,⟨?_,?_⟩,⟨?_,?_,?_⟩⟩
  · intro r
    rw [h4,h5]
    exact hs.lock r
  · rw [h1]
    exact hs.recorded.shape
  · rw [h1,h5]
    exact hs.recorded.records
  · rw [h3,h5]
    exact hs.counted.total
  · rw [h3]
    exact hs.counted.nonneg
  · rw [h3,h5]
    exact hs.counted.room

theorem BookingOk.wake (hs : BookingOk s) (hb : s.rider r = .blocked) (res : Wake) :
    BookingOk (s.goto r (.waking res)) := by
  have hkeep : ∀ {β : Type} (f : RiderPc c → β), f (.waking res) = f .blocked →
      ∀ j, f ((s.goto r (.waking res)).rider j) = f (s.rider j) := by
    intro β f hf j
    rw [goto_rider]
    rcases eq_or_ne j r with rfl | hj
    · rw [Function.update_self,hb,hf]
    · rw [Function.update_of_ne hj]
  refine ⟨?_,⟨hs.recorded.shape,?_⟩,⟨?_,hs.counted.nonneg,?_⟩⟩
  · intro j
    rw [hkeep RiderPc.holds rfl j]
    exact hs.lock j
  · intro i j
    rw [hkeep RiderPc.cab rfl j]
    exact hs.recorded.records i j
  · rw [tally_congr (hkeep RiderPc.counts rfl)]
    exact hs.counted.total
  · intro j i hj
    apply hs.counted.room j i
    apply choosing_eq
    rw [← hkeep RiderPc.choosing rfl j,hj]
    rfl

theorem BookingOk.step (hs : BookingOk s) {a : Act c} (h : s.step a = .ok t) : BookingOk t := by
  rcases step_cases h with ⟨r,-,h⟩ | ⟨r,res,hb,-,rfl⟩ | ⟨k,-,h⟩ | ⟨-,h,-⟩
  · exact ⟨hs.lock.moves h,hs.recorded.moves h,hs.counted.moves hs.lock h⟩
  · exact hs.wake hb res
  · exact hs.same h.sameBooking
  · exact hs.same h

theorem bookingOk_init (c : Config) : BookingOk (init c) := by
  refine ⟨?_,⟨fun _ => .empty,?_⟩,⟨?_,?_,?_⟩⟩
  · intro r
    simp [init,RiderPc.holds]
  · intro i r
    simp [init,Cab.Has,RiderPc.cab]
  · have hz : tally RiderPc.counts (init c).rider = 0 := tally_eq_zero.mpr fun _ => rfl
    rw [hz]
    simp [init]
  · simp [init]
  · intro r i hr
    cases hr

theorem bookingOk_of_reachable (h : (service c).Reachable s) : BookingOk s :=
  h.invariant BookingOk (bookingOk_init c) fun _ _ _ _ hs _ ht => hs.step ht

theorem exists_waiting (hs : BookingOk s) (hl : s.rider r = .locked) (hpos : 0 < s.totalCabsOpen) :
    ∃ i, (s.taxis i).state = .waitState := by
  by_contra hnone
  have hfirst : ∀ i, ∃ a, (s.taxis i).rider1 = some a := by
    intro i
    have hi := hs.recorded.shape i
    generalize hcab : s.taxis i = cab at hi
    cases hi with
    | empty => exact absurd ⟨i,by rw [hcab]⟩ hnone
    | one => exact ⟨_,rfl⟩
    | full => exact ⟨_,rfl⟩
    | alone => exact ⟨_,rfl⟩
  choose g hg using hfirst
  have hcab : ∀ i, (s.rider (g i)).cab = some i :=
    fun i => (hs.recorded.records i (g i)).mp (.inl (hg i))
  have hinj : Function.Injective g := by
    intro i j hij
    have hi := hcab i
    rw [hij,hcab j] at hi
    exact (Option.some.inj hi).symm
  have hcounts : ∀ i, (s.rider (g i)).counts = true := by
    intro i
    have hi := hcab i
    have hfree : (s.rider (g i)).holds = true → g i = r :=
      fun hh => hs.lock.unique hh (by rw [hl]; rfl)
    cases hpc : s.rider (g i) with
    | found j =>
      rw [hfree (by rw [hpc]; rfl),hl] at hpc
      cases hpc
    | freed j =>
      rw [hfree (by rw [hpc]; rfl),hl] at hpc
      cases hpc
    | counted j => rfl
    | riding j => rfl
    | ending j => rfl
    | ended j => rfl
    | booking o => rw [hpc] at hi; cases hi
    | locked => rw [hpc] at hi; cases hi
    | refused => rw [hpc] at hi; cases hi
    | blocked => rw [hpc] at hi; cases hi
    | waking res => rw [hpc] at hi; cases hi
    | woken res => rw [hpc] at hi; cases hi
    | cleared res => rw [hpc] at hi; cases hi
    | gaveUp => rw [hpc] at hi; cases hi
    | signalling j => rw [hpc] at hi; cases hi
    | leaving => rw [hpc] at hi; cases hi
    | paying => rw [hpc] at hi; cases hi
    | posted => rw [hpc] at hi; cases hi
    | paid => rw [hpc] at hi; cases hi
  have hcard := card_le_tally (p := RiderPc.counts) (f := s.rider) g hinj hcounts
  rw [Fintype.card_fin] at hcard
  have := hs.counted.total
  omega

theorem riding_occupied (hs : BookingOk s) (hr : (s.rider r).cab = some i) :
    (s.taxis i).state ≠ .waitState := by
  intro hw
  have hhas := (hs.recorded.records i r).mpr hr
  rw [shape_waiting (hs.recorded.shape i) hw] at hhas
  simp [Cab.Has] at hhas

theorem riderStep_ne_assertion (hs : BookingOk s) (r : RiderId c) :
    s.riderStep r ≠ .error .assertion := by
  unfold riderStep
  cases hpc : s.rider r with
  | booking o =>
    simp only
    split <;> simp
  | locked =>
    simp only
    split
    case isTrue hpos =>
      obtain ⟨i,hi⟩ := exists_waiting hs hpc hpos
      obtain ⟨⟨i',cab⟩,hf⟩ := findCab_of_waiting (r := r) hi
      rw [hf]
      simp
    case isFalse => simp
  | waking res =>
    simp only
    split <;> simp
  | cleared res => cases res <;> simp
  | riding i =>
    have hne := riding_occupied (i := i) hs (r := r) (by rw [hpc]; rfl)
    simp only [if_neg hne]
    simp
  | ending i =>
    simp only
    split <;> simp
  | found i => simp
  | counted i => simp
  | refused => simp
  | blocked => simp
  | woken res => simp
  | gaveUp => simp
  | ended i => simp
  | freed i => simp
  | signalling i => simp
  | leaving => simp
  | paying => simp
  | posted => simp
  | paid => simp

theorem wakeUp_ne_assertion (s : State c) (r : RiderId c) (res : Wake) :
    s.wakeUp r res ≠ .error .assertion := by
  unfold wakeUp
  split <;> simp

theorem serverStep_ne_assertion (s : State c) (k : ServerId c) :
    s.serverStep k ≠ .error .assertion := by
  unfold serverStep
  cases s.server k with
  | test => simp only; split <;> simp
  | semWait => simp only; split <;> simp
  | recheck => simp only; split <;> simp
  | pop =>
    simp only
    split
    · simp
    · split <;> simp
  | serving r => simp
  | closed => simp

theorem mainStep_ne_assertion (s : State c) : s.mainStep ≠ .error .assertion := by
  unfold mainStep
  cases s.main with
  | joinRiders i =>
    simp only
    split
    · split <;> simp
    · simp
  | postOne i => simp only; split <;> simp
  | postTwo i => simp
  | postThree i => simp only; split <;> simp
  | joinServer i =>
    simp only
    split
    · split <;> simp
    · simp
  | finished => simp

theorem LockOk.not_holds (hs : LockOk s) (hfree : s.checkCab = none) (r : RiderId c) :
    (s.rider r).holds ≠ true := by
  intro hh
  have hheld := (hs r).mpr hh
  rw [hfree] at hheld
  cases hheld

theorem counts_eq_aboard (hs : LockOk s) (hfree : s.checkCab = none) (r : RiderId c) :
    (s.rider r).counts = (s.rider r).aboard := by
  have hnot := hs.not_holds hfree r
  cases hpc : s.rider r with
  | found i => rw [hpc] at hnot; exact absurd rfl hnot
  | freed i => rw [hpc] at hnot; exact absurd rfl hnot
  | booking o => rfl
  | locked => rfl
  | counted i => rfl
  | refused => rfl
  | blocked => rfl
  | waking res => rfl
  | woken res => rfl
  | cleared res => rfl
  | gaveUp => rfl
  | riding i => rfl
  | ending i => rfl
  | ended i => rfl
  | signalling i => rfl
  | leaving => rfl
  | paying => rfl
  | posted => rfl
  | paid => rfl

end State

structure Cab.Agrees (cab : Cab c) : Prop where
  waiting : cab.state = .waitState ↔ cab.rider1 = none ∧ cab.rider2 = none
  single : cab.state = .onRidePremier ∨ cab.state = .onRidePoolOne ↔
    (∃ r, cab.rider1 = some r) ∧ cab.rider2 = none
  full : cab.state = .onRidePoolFull ↔
    ∃ r r', r ≠ r' ∧ cab.rider1 = some r ∧ cab.rider2 = some r'

theorem Cab.Shape.agrees {cab : Cab c} (h : cab.Shape) : cab.Agrees := by
  cases h with
  | empty => exact ⟨by simp,by simp,by simp⟩
  | one ha => exact ⟨by simp,by simp,by simp⟩
  | full hne _ _ => exact ⟨by simp,by simp,by simp [hne]⟩
  | alone ha => exact ⟨by simp,by simp,by simp⟩

theorem Cab.Shape.premier_alone {cab : Cab c} (h : cab.Shape) {r r' : RiderId c}
    (hr : c.cabType r = .premier) (hhas : cab.Has r) (hhas' : cab.Has r') : r' = r := by
  cases h with
  | empty => simp [Cab.Has] at hhas
  | one ha =>
    simp only [Cab.Has,Option.some.injEq,reduceCtorEq,or_false] at hhas hhas'
    rw [← hhas,← hhas']
  | full hne ha hb =>
    simp only [Cab.Has,Option.some.injEq] at hhas
    rcases hhas with rfl | rfl
    · rw [ha] at hr
      cases hr
    · rw [hb] at hr
      cases hr
  | alone ha =>
    simp only [Cab.Has,Option.some.injEq,reduceCtorEq,or_false] at hhas hhas'
    rw [← hhas,← hhas']

def poolPair : Config := ⟨2,3,1,fun r => if r.val = 2 then .premier else .pool⟩

def ridesOf (rs : List (Fin 3)) : List (Act poolPair) := rs.map fun r => .rider r

theorem cabs_agree_with_riders {s : State c} (h : (service c).Reachable s) :
    (∀ i, (s.taxis i).Agrees) ∧
      (∀ r, (s.rider r).aboard = true → ∃! i, (s.taxis i).Has r) ∧
      (∀ r i, c.cabType r = .premier → (s.taxis i).Has r → ∀ r', (s.taxis i).Has r' → r' = r) ∧
      ∀ r, (s.rider r).aboard = false → ∀ i, ¬ (s.taxis i).Has r := by
  obtain ⟨-,hs,-⟩ := State.bookingOk_of_reachable h
  refine ⟨fun i => (hs.shape i).agrees,?_,?_,?_⟩
  · intro r hr
    obtain ⟨i,hi⟩ := Option.isSome_iff_exists.mp hr
    refine ⟨i,(hs.records i r).mpr hi,?_⟩
    intro j hj
    have := (hs.records j r).mp hj
    rw [hi] at this
    exact (Option.some.inj this).symm
  · intro r i hp hhas r' hhas'
    exact (hs.shape i).premier_alone hp hhas hhas'
  · intro r hr i hhas
    have := (hs.records i r).mp hhas
    rw [RiderPc.aboard,this] at hr
    cases hr

theorem cabs_agree_when_shared :
    (service poolPair).Reachable ((service poolPair).after (ridesOf [0,0,0,0,1,1,1,1])) ∧
      ∃! i, (((service poolPair).after (ridesOf [0,0,0,0,1,1,1,1])).taxis i).Has (1 : Fin 3) := by
  have hrun : ((service poolPair).checked (fun _ _ => True) (service poolPair).init
      (ridesOf [0,0,0,0,1,1,1,1])).any (fun s => (s.rider (1 : Fin 3)).aboard) = true := by
    decide +kernel
  obtain ⟨hr,haboard⟩ := System.reach_checked hrun
  exact ⟨hr,(cabs_agree_with_riders hr).2.1 _ haboard⟩

theorem totalCabsOpen_counts_riders {s : State c} (h : (service c).Reachable s) :
    (s.checkCab = none →
        s.totalCabsOpen = c.cabsCount - tally RiderPc.aboard s.rider ∧ 0 ≤ s.totalCabsOpen) ∧
      (∀ r, s.rider r = .locked → 0 < s.totalCabsOpen → ∃ found, s.findCab r = some found) ∧
      ∀ a, (service c).step s a ≠ .error .assertion := by
  have hs := State.bookingOk_of_reachable h
  refine ⟨?_,?_,?_⟩
  · intro hfree
    have htotal := hs.counted.total
    have hsame := tally_congr (State.counts_eq_aboard hs.lock hfree)
    rw [hsame] at htotal
    exact ⟨by omega,hs.counted.nonneg⟩
  · intro r hl hpos
    obtain ⟨i,hi⟩ := State.exists_waiting hs hl hpos
    exact State.findCab_of_waiting hi
  · intro a
    cases a with
    | rider r => exact State.riderStep_ne_assertion hs r
    | expire r => exact State.wakeUp_ne_assertion s r _
    | spurious r => exact State.wakeUp_ne_assertion s r _
    | server k => exact State.serverStep_ne_assertion s k
    | main => exact State.mainStep_ne_assertion s

theorem totalCabsOpen_counts_shared_pair :
    (service poolPair).Reachable ((service poolPair).after (ridesOf [0,0,0,0,1,1,1,1])) ∧
      ((service poolPair).after (ridesOf [0,0,0,0,1,1,1,1])).totalCabsOpen = 0 := by
  have hr : (service poolPair).Reachable
      ((service poolPair).after (ridesOf [0,0,0,0,1,1,1,1])) :=
    System.reachable_after (by decide +kernel)
  refine ⟨hr,?_⟩
  obtain ⟨htotal,-⟩ := (totalCabsOpen_counts_riders hr).1 (by decide +kernel)
  rw [htotal]
  decide +kernel

end Cabs
