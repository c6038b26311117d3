import Mathlib.Tactic
import OscAssignments.Biryani.Serving

namespace Biryani
open Runs Mutexes

variable {c : Config}

def StudentPc.took : StudentPc c → Bool
  | .slotted _ => true
  | .seated _ => true
  | .done => true
  | _ => false

def MainPc.pastStudent (x : StudentId c) : MainPc c → Bool
  | .joinStudents i => x.val < i
  | _ => true

def MainPc.pastTable (t : TableId c) : MainPc c → Bool
  | .joinTables i => t.val < i
  | .robotFinal _ => true
  | .joinRobot _ => true
  | .finished => true
  | _ => false

namespace State
variable {s u : State c} {x : StudentId c} {t : TableId c} {r : RobotId c}

def TakesCounted (s : State c) : Prop :=
  ∀ x, (s.taken.map Prod.fst).count x = (s.student x).took.toNat

structure Joined (s : State c) : Prop where
  students : ∀ x, s.main.pastStudent x = true → s.student x = .done
  tables : ∀ t, s.main.pastTable t = true → s.table t = .left

structure Served (s : State c) : Prop where
  owns : s.Owns
  informed : s.Informed
  rounds : ∀ t, (s.round t).Ok ident
  takes : s.TakesCounted
  joined : s.Joined

theorem took_studentGoto {v : State c} {pc : StudentPc c} (hs : s.TakesCounted)
    (htaken : v.taken = s.taken) (hst : v.student = s.student)
    (hpc : pc.took = (s.student x).took) : (v.studentGoto x pc).TakesCounted := by
  intro y
  have hy := hs y
  rcases eq_or_ne y x with rfl | hne
  · rw [studentGoto_self,hpc,← hy]
    exact congrArg (fun l => (l.map Prod.fst).count y) htaken
  · simp only [studentGoto,Function.update_of_ne hne,htaken,hst]
    exact hy

theorem StudentMoves.takesCounted (h : StudentMoves s x u) (hs : s.TakesCounted) :
    u.TakesCounted := by
  cases h with
  | lock hpc _ => exact took_studentGoto hs rfl rfl (by rw [hpc]; rfl)
  | wrap hpc => exact took_studentGoto hs rfl rfl (by rw [hpc]; rfl)
  | @take t hpc _ _ =>
    intro y
    have hy := hs y
    simp only [studentGoto,takeSlot,List.map_append,List.count_append,hy]
    rcases eq_or_ne y x with rfl | hne
    · simp [hpc,StudentPc.took]
    · simp [hne,hne.symm,setTable]
  | pass hpc => exact took_studentGoto hs rfl rfl (by rw [hpc]; rfl)
  | leave hpc => exact took_studentGoto hs rfl rfl (by rw [hpc]; rfl)
  | sit hpc _ => exact took_studentGoto hs rfl rfl (by rw [hpc]; rfl)
  | finish hpc => exact took_studentGoto hs rfl rfl (by rw [hpc]; rfl)

theorem StudentMoves.not_done (h : StudentMoves s x u) : s.student x ≠ .done := by
  cases h <;> simp [*]

theorem StudentMoves.elsewhere (h : StudentMoves s x u) :
    u.main = s.main ∧ u.table = s.table ∧ ∀ y, y ≠ x → u.student y = s.student y := by
  cases h <;> exact ⟨rfl,rfl,fun y hne => Function.update_of_ne hne _ s.student⟩

theorem TableMoves.not_left (h : TableMoves s t u) : s.table t ≠ .left := by
  cases h with
  | jump hj =>
    intro hl
    rw [hl] at hj
    cases hj
  | lock hl' _ =>
    intro hl
    rw [hl] at hl'
    cases hl'
  | unlock hl' =>
    intro hl
    rw [hl] at hl'
    cases hl'
  | reset hpc => simp [hpc]
  | takeVessel hpc => simp [hpc]
  | fill hpc => simp [hpc]
  | openRound hpc => simp [hpc]
  | serveRound hpc => simp [hpc]

theorem TableMoves.elsewhere (h : TableMoves s t u) :
    u.main = s.main ∧ u.student = s.student ∧ u.taken = s.taken ∧
      ∀ t', t' ≠ t → u.table t' = s.table t' := by
  cases h <;> exact ⟨rfl,rfl,rfl,fun t' hne => Function.update_of_ne hne _ s.table⟩

theorem RobotMoves.elsewhere (h : RobotMoves s r u) :
    u.main = s.main ∧ u.student = s.student ∧ u.taken = s.taken ∧ u.table = s.table := by
  cases h <;> exact ⟨rfl,rfl,rfl,rfl⟩

theorem MainMoves.elsewhere (h : MainMoves s u) :
    u.student = s.student ∧ u.taken = s.taken ∧ u.table = s.table := by
  cases h with
  | zeroSlots =>
    rw [zeroSlots_eq]
    exact ⟨rfl,rfl,rfl⟩
  | zeroVessels =>
    rw [zeroVessels_eq]
    exact ⟨rfl,rfl,rfl⟩
  | zeroFinal =>
    rw [zeroVessels_eq]
    exact ⟨rfl,rfl,rfl⟩
  | jump => exact ⟨rfl,rfl,rfl⟩
  | endGame => exact ⟨rfl,rfl,rfl⟩
  | lock => exact ⟨rfl,rfl,rfl⟩
  | unlock => exact ⟨rfl,rfl,rfl⟩

theorem TakesCounted.congr (hs : s.TakesCounted) (hst : u.student = s.student)
    (htaken : u.taken = s.taken) : u.TakesCounted := by
  intro x
  rw [hst,htaken]
  exact hs x

theorem Moves.takesCounted {a : Act c} (h : Moves s a u) (hs : s.TakesCounted) :
    u.TakesCounted := by
  cases h with
  | student h => exact h.takesCounted hs
  | table h =>
    obtain ⟨_,hst,htaken,_⟩ := h.elsewhere
    exact hs.congr hst htaken
  | robot h =>
    obtain ⟨_,hst,htaken,_⟩ := h.elsewhere
    exact hs.congr hst htaken
  | main h =>
    obtain ⟨hst,htaken,_⟩ := h.elsewhere
    exact hs.congr hst htaken

theorem MainJump.joined {pc pc' : MainPc c} (h : MainJump s pc pc')
    (hst : ∀ x, pc.pastStudent x = true → s.student x = .done)
    (htb : ∀ t, pc.pastTable t = true → s.table t = .left) :
    (∀ x, pc'.pastStudent x = true → s.student x = .done) ∧
      ∀ t, pc'.pastTable t = true → s.table t = .left := by
  cases h with
  | @joinStudent x hd =>
    refine ⟨?_,nofun⟩
    intro y hy
    have hle : y.val < x.val + 1 := of_decide_eq_true hy
    rcases Nat.lt_succ_iff_lt_or_eq.mp hle with hlt | he
    · exact hst y (decide_eq_true hlt)
    · rw [Fin.ext he]
      exact hd
  | studentsJoined hi => exact ⟨fun x _ => hst x (decide_eq_true (x.isLt.trans_le hi)),nofun⟩
  | @tablesZeroed again i =>
    cases again with
    | true => exact ⟨fun x _ => hst x rfl,fun t ht => by simp [MainPc.pastTable] at ht⟩
    | false => exact ⟨fun x _ => hst x rfl,nofun⟩
  | robotsZeroed => exact ⟨fun x _ => hst x rfl,nofun⟩
  | @joinTable t hd =>
    refine ⟨fun x _ => hst x rfl,?_⟩
    intro t' ht
    have hle : t'.val < t.val + 1 := of_decide_eq_true ht
    rcases Nat.lt_succ_iff_lt_or_eq.mp hle with hlt | he
    · exact htb t' (decide_eq_true hlt)
    · rw [Fin.ext he]
      exact hd
  | tablesJoined hi =>
    exact ⟨fun x _ => hst x rfl,fun t _ => htb t (decide_eq_true (t.isLt.trans_le hi))⟩
  | finish => exact ⟨fun x _ => hst x rfl,fun t _ => htb t rfl⟩
  | joinRobot => exact ⟨fun x _ => hst x rfl,fun t _ => htb t rfl⟩

theorem Joined.goto (hs : s.Joined) {pc : MainPc c} (hst : u.student = s.student)
    (htb : u.table = s.table) (hu : u.main = pc)
    (hx : ∀ x, pc.pastStudent x = true → s.main.pastStudent x = true)
    (ht : ∀ t, pc.pastTable t = true → s.main.pastTable t = true) : u.Joined := by
  subst hu
  constructor
  · intro x hp
    rw [hst]
    exact hs.students x (hx x hp)
  · intro t hp
    rw [htb]
    exact hs.tables t (ht t hp)

theorem MainMoves.joined (h : MainMoves s u) (hs : s.Joined) : u.Joined := by
  obtain ⟨hst,_,htb⟩ := h.elsewhere
  cases h with
  | jump hj =>
    obtain ⟨hx,ht⟩ := hj.joined hs.students hs.tables
    exact ⟨hx,ht⟩
  | endGame hpc => exact hs.goto hst htb rfl (fun _ _ => by rw [hpc]; rfl) nofun
  | lock hl _ =>
    apply hs.goto hst htb rfl
    · intro x
      generalize s.main = pc at hl
      cases hl <;> exact fun _ => rfl
    · intro t
      generalize s.main = pc at hl
      cases hl <;> exact nofun
  | unlock hl =>
    apply hs.goto hst htb rfl
    · intro x
      generalize s.main = pc at hl
      cases hl <;> exact fun _ => rfl
    · intro t
      generalize s.main = pc at hl
      cases hl <;> exact nofun
  | zeroSlots hpc => exact hs.goto hst htb rfl (fun _ _ => by rw [hpc]; rfl) nofun
  | zeroVessels hpc => exact hs.goto hst htb rfl (fun _ _ => by rw [hpc]; rfl) nofun
  | zeroFinal hpc =>
    exact hs.goto hst htb rfl (fun _ _ => by rw [hpc]; rfl) fun _ _ => by rw [hpc]; rfl

theorem Moves.joined {a : Act c} (h : Moves s a u) (hs : s.Joined) : u.Joined := by
  cases h with
  | @student x _ h =>
    obtain ⟨hm,htb,hst⟩ := h.elsewhere
    constructor
    · intro y hp
      rw [hm] at hp
      have hy := hs.students y hp
      rcases eq_or_ne y x with rfl | hne
      · exact absurd hy h.not_done
      · rw [hst y hne]
        exact hy
    · rw [hm,htb]
      exact hs.tables
  | @table t _ _ h =>
    obtain ⟨hm,hst,_,htb⟩ := h.elsewhere
    constructor
    · rw [hm,hst]
      exact hs.students
    · intro t' hp
      rw [hm] at hp
      have ht := hs.tables t' hp
      rcases eq_or_ne t' t with rfl | hne
      · exact absurd ht h.not_left
      · rw [htb t' hne]
        exact ht
  | robot h =>
    obtain ⟨hm,hst,_,htb⟩ := h.elsewhere
    constructor
    · rw [hm,hst]
      exact hs.students
    · rw [hm,htb]
      exact hs.tables
  | main h => exact h.joined hs

theorem served_init : (init c).Served where
  owns := owns_init
  informed := informed_init
  rounds := round_init
  takes := fun _ => rfl
  joined := ⟨fun _ h => by simp [init,MainPc.pastStudent] at h,nofun⟩

theorem Moves.served {a : Act c} (h : Moves s a u) (hs : s.Served) : u.Served where
  owns := h.owns hs.owns
  informed := h.informed hs.owns hs.informed
  rounds := fun t => (h.round hs.owns hs.informed t).ok ident_injective ident_ne (hs.rounds t)
  takes := h.takesCounted hs.takes
  joined := h.joined hs.joined

theorem served_of_reach {ok : State c → Act c → Prop} (h : (mess c).Reach ok s) : s.Served :=
  h.invariant Served served_init fun _ _ _ _ hs _ ht => (step_moves ht).served hs

structure RoundAccounted (s : State c) (t : TableId c) : Prop where
  recordedFirst : (s.tables t).readyToServe = true → ∀ j, j < 10 →
    (s.tables t).studentsEatingHere j = ((s.recorded t)[j]?.map ident).getD (-1)
  withinOffer : 0 ≤ (s.tables t).slotsLeft ∧
    (s.recorded t).length + (s.tables t).slotsLeft ≤ s.offered t
  offer : s.offered t ≤ 10 ∧ ((s.tables t).readyToServe = true → 1 ≤ s.offered t)
  search : ∀ x, s.student x = .slotted t → ∃ j, j ≤ 9 ∧
    firstFree (s.tables t).studentsEatingHere = some j ∧ j = (s.recorded t).length

def waiting (s : State c) (x : StudentId c) (t : TableId c) : Prop :=
  s.student x = .slotted t ∨ ((s.tables t).readyToServe = true ∧ x ∈ s.recorded t)

instance (s : State c) (x : StudentId c) (t : TableId c) : Decidable (s.waiting x t) :=
  inferInstanceAs (Decidable (_ ∨ _ ∧ _))

structure Accounts (s : State c) : Prop where
  rounds : ∀ t, s.RoundAccounted t
  search : ∀ x, s.step (.student x) ≠ .error .outOfBounds
  oneSlot : (s.taken.map Prod.fst).Nodup
  waits : ∀ x t, (x,t) ∈ s.taken → s.waiting x t → ∀ t', s.served.count (t',ident x) = 0
  announced : ∀ x t, (x,t) ∈ s.taken → ¬ s.waiting x t →
    ∀ t', s.served.count (t',ident x) = if t' = t then 1 else 0
  untaken : ∀ x t, (x,t) ∉ s.taken → s.served.count (t,ident x) = 0
  cleared : ∀ t rand u, s.step (.table t rand) = .ok u →
    s.table t = .opening ∨ s.table t = .announcing →
    ∀ x, (x,t) ∈ u.taken → u.served.count (t,ident x) = 1
  finished : s.main = .finished → ∀ x, ∃ t, (x,t) ∈ s.taken ∧ s.served.count (t,ident x) = 1

theorem Served.roundAccounted (hs : s.Served) (t : TableId c) : s.RoundAccounted t where
  recordedFirst := (hs.rounds t).lined
  withinOffer := ⟨(hs.rounds t).nonneg,(hs.rounds t).fits⟩
  offer := ⟨(hs.rounds t).bound,(hs.rounds t).opened⟩
  search := by
    intro x hx
    obtain ⟨hlt,hf⟩ := (hs.rounds t).firstFree_eq ident_ne (x := x) (decide_eq_true hx)
    exact ⟨_,Nat.le_of_lt_succ hlt,hf,rfl⟩

theorem Served.nodup (hs : s.Served) : (s.taken.map Prod.fst).Nodup := by
  rw [List.nodup_iff_count_le_one]
  intro x
  rw [hs.takes x]
  cases (s.student x).took <;> decide

theorem Served.given_eq_one (hs : s.Served) (h : (x,t) ∈ s.taken) : (s.round t).given x = 1 :=
  List.count_eq_one_of_mem (List.Nodup.of_map _ hs.nodup) h

theorem Served.given_eq_zero (h : (x,t) ∉ s.taken) : (s.round t).given x = 0 :=
  List.count_eq_zero.mpr h

theorem Served.announced_of_not_taken (hs : s.Served) (h : (x,t) ∉ s.taken) :
    s.served.count (t,ident x) = 0 := by
  have hl := (hs.rounds t).ledger x
  rw [Served.given_eq_zero h] at hl
  have ha : (s.round t).announced x = 0 := by omega
  exact ha

theorem Served.same_table (hs : s.Served) {t' : TableId c} (h : (x,t) ∈ s.taken)
    (h' : (x,t') ∈ s.taken) : t' = t := by
  have he := List.inj_on_of_nodup_map hs.nodup h' h rfl
  exact congrArg Prod.snd he

theorem Served.announced_waiting (hs : s.Served) (h : (x,t) ∈ s.taken) (hw : s.waiting x t) :
    s.served.count (t,ident x) = 0 := by
  have hl := (hs.rounds t).ledger x
  rw [hs.given_eq_one h] at hl
  have ha : (s.round t).announced x = 0 := by
    rcases hw with hp | ⟨hr,hm⟩
    · have hp' : (s.round t).pending x = true := decide_eq_true hp
      rw [hp',Bool.toNat_true] at hl
      omega
    · have hr' : (s.round t).ready = true := hr
      have hc : 0 < (s.round t).recorded.count x := List.count_pos_iff.mpr hm
      rw [hr',if_pos rfl] at hl
      omega
  exact ha

theorem Served.announced_once (hs : s.Served) (h : (x,t) ∈ s.taken) (hw : ¬ s.waiting x t) :
    s.served.count (t,ident x) = 1 := by
  have hl := (hs.rounds t).ledger x
  have hp : (s.round t).pending x = false := decide_eq_false fun hp => hw (.inl hp)
  rw [hs.given_eq_one h,hp,Bool.toNat_false] at hl
  have ha : (s.round t).announced x = 1 := by
    cases hr : (s.round t).ready with
    | false =>
      rw [hr] at hl
      simpa using hl.symm
    | true =>
      have hc : (s.round t).recorded.count x = 0 :=
        List.count_eq_zero.mpr fun hm => hw (.inr ⟨hr,hm⟩)
      rw [hr,if_pos rfl,hc] at hl
      omega
  exact ha

theorem Served.not_waiting (hs : s.Served) (hr : (s.tables t).readyToServe = false) :
    ¬ s.waiting x t := by
  rintro (hp | ⟨hr',_⟩)
  · have hn := ((hs.rounds t).closed hr).2 x
    exact absurd hp (of_decide_eq_false hn)
  · rw [hr] at hr'
    cases hr'

theorem TableMoves.clears (h : TableMoves s t u) (hs : s.Served) (hu : u.Served)
    (hpc : s.table t = .opening ∨ s.table t = .announcing) (hx : (x,t) ∈ u.taken) :
    u.served.count (t,ident x) = 1 := by
  have hready := hs.informed.ready t
  cases h with
  | reset hpc' => simp [hpc'] at hpc
  | jump hj =>
    rcases hpc with hpc | hpc
    · rw [hpc] at hj
      cases hj
    · rw [hpc] at hj
      cases hj
  | lock hl _ =>
    rcases hpc with hpc | hpc
    · rw [hpc] at hl
      cases hl
    · rw [hpc] at hl
      cases hl
  | unlock hl =>
    rcases hpc with hpc | hpc
    · rw [hpc] at hl
      cases hl
    · rw [hpc] at hl
      cases hl
  | takeVessel hpc' => simp [hpc'] at hpc
  | fill hpc' => simp [hpc'] at hpc
  | openRound hpc' =>
    rw [hpc'] at hready
    exact hs.announced_once hx (hs.not_waiting hready)
  | serveRound =>
    apply hu.announced_once hx
    apply hu.not_waiting
    exact congrArg Round.ready (round_serveRound s t)

theorem Served.studentStep_ne (hs : s.Served) (x : StudentId c) :
    s.step (.student x) ≠ .error .outOfBounds := by
  intro h
  simp only [step,studentStep] at h
  cases hpc : s.student x with
  | slotted t =>
    obtain ⟨j,_,hj,_⟩ := (hs.roundAccounted t).search x hpc
    simp [hpc,hj] at h
  | seeking i =>
    simp only [hpc] at h
    split at h
    · simp only [lock] at h
      split at h
      · cases h
      · cases h
    · cases h
  | looking t =>
    simp only [hpc] at h
    split at h
    · cases h
    · cases h
  | passing t => simp [hpc] at h
  | seated t => simp [hpc] at h
  | done => simp [hpc] at h

theorem Served.all_served (hs : s.Served) (hm : s.main = .finished) (x : StudentId c) :
    ∃ t, (x,t) ∈ s.taken ∧ s.served.count (t,ident x) = 1 := by
  have htook := hs.takes x
  rw [hs.joined.students x (by rw [hm]; rfl)] at htook
  have hx : x ∈ s.taken.map Prod.fst := List.count_pos_iff.mp (by rw [htook]; exact Nat.one_pos)
  obtain ⟨⟨y,t⟩,hin,rfl⟩ := List.mem_map.mp hx
  have hready := hs.informed.ready t
  rw [hs.joined.tables t (by rw [hm]; rfl)] at hready
  exact ⟨t,hin,hs.announced_once hin (hs.not_waiting hready)⟩

end State

def diners (n : Nat) : Config := ⟨1,n,1⟩

def chef (n : Nat) : RobotId (diners n) := (⟨0,Nat.one_pos⟩ : Fin 1)

def counter (n : Nat) : TableId (diners n) := (⟨0,Nat.one_pos⟩ : Fin 1)

def diner {n : Nat} (x : Fin n) : StudentId (diners n) := x

def firstDiner : Fin 1 := ⟨0,Nat.one_pos⟩

def robotTurns (n k : Nat) : List (Act (diners n)) := List.replicate k (.robot (chef n) 0 0)

def tableTurns (n k rand : Nat) : List (Act (diners n)) :=
  List.replicate k (.table (counter n) rand)

def studentTurns {n : Nat} (x : Fin n) : List (Act (diners n)) :=
  List.replicate 4 (.student (diner x))

def firstMeal : List (Act (diners 1)) :=
  robotTurns 1 5 ++ tableTurns 1 17 0 ++ studentTurns firstDiner ++ tableTurns 1 4 0

theorem accounts_of_reach {s : State c} (h : (mess c).Reachable s) : s.Accounts := by
  have hs := State.served_of_reach h
  refine ⟨hs.roundAccounted,hs.studentStep_ne,hs.nodup,?_,?_,?_,?_,hs.all_served⟩
  · intro x t hx hw t'
    rcases eq_or_ne t' t with rfl | hne
    · exact hs.announced_waiting hx hw
    · exact hs.announced_of_not_taken fun hx' => hne (hs.same_table hx hx')
  · intro x t hx hw t'
    rcases eq_or_ne t' t with rfl | hne
    · rw [if_pos rfl]
      exact hs.announced_once hx hw
    · rw [if_neg hne]
      exact hs.announced_of_not_taken fun hx' => hne (hs.same_table hx hx')
  · exact fun x t hx => hs.announced_of_not_taken hx
  · intro t rand u ht hpc x hx
    have hm := State.tableStep_moves ht
    have hu : u.Served := (show State.Moves s (.table t rand) u from .table hm).served hs
    exact hm.clears hs hu hpc hx

end Biryani
