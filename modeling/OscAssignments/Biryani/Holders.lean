import Mathlib.Tactic
import OscAssignments.Lib.Mutex
import OscAssignments.Biryani.Steps

namespace Biryani
open Runs Mutexes

namespace State
variable {c : Config} {s u : State c} {x : StudentId c} {t : TableId c} {r : RobotId c}

@[simp] theorem studentGoto_self (s : State c) (x : StudentId c) (pc : StudentPc c) :
    (s.studentGoto x pc).student x = pc := by
  simp [studentGoto]

@[simp] theorem tableGoto_self (s : State c) (t : TableId c) (pc : TablePc c) :
    (s.tableGoto t pc).table t = pc := by
  simp [tableGoto]

@[simp] theorem robotGoto_self (s : State c) (r : RobotId c) (pc : RobotPc) :
    (s.robotGoto r pc).robot r = pc := by
  simp [robotGoto]

theorem holding_studentGoto {pc : StudentPc c} {th : Thread c} (h : th ≠ .student x) :
    (s.studentGoto x pc).holding th = s.holding th := by
  cases th with
  | student y =>
    have hne : y ≠ x := fun he => h (he ▸ rfl)
    simp only [holding,studentGoto,Function.update_of_ne hne]
  | table t => rfl
  | robot r => rfl
  | main => rfl

theorem holding_tableGoto {pc : TablePc c} {th : Thread c} (h : th ≠ .table t) :
    (s.tableGoto t pc).holding th = s.holding th := by
  cases th with
  | table t' =>
    have hne : t' ≠ t := fun he => h (he ▸ rfl)
    simp only [holding,tableGoto,Function.update_of_ne hne]
  | student x => rfl
  | robot r => rfl
  | main => rfl

theorem holding_robotGoto {pc : RobotPc} {th : Thread c} (h : th ≠ .robot r) :
    (s.robotGoto r pc).holding th = s.holding th := by
  cases th with
  | robot r' =>
    have hne : r' ≠ r := fun he => h (he ▸ rfl)
    simp only [holding,robotGoto,Function.update_of_ne hne]
  | student x => rfl
  | table t => rfl
  | main => rfl

theorem holding_mainGoto {pc : MainPc c} {th : Thread c} (h : th ≠ .main) :
    (s.mainGoto pc).holding th = s.holding th := by
  cases th with
  | main => exact absurd rfl h
  | student x => rfl
  | table t => rfl
  | robot r => rfl

theorem zeroSlots_eq (s : State c) (t : TableId c) :
    s.zeroSlots t = { s with tables := (s.zeroSlots t).tables } := by
  unfold zeroSlots
  split
  · rfl
  · rfl

theorem zeroVessels_eq (s : State c) (r : RobotId c) :
    s.zeroVessels r = { s with robots := (s.zeroVessels r).robots } := by
  unfold zeroVessels
  split
  · rfl
  · rfl

def Owns (s : State c) : Prop := Owned s.mutex s.holding

def OwnsExactly (s : State c) : Prop := Exact s.mutex s.holding

theorem owns_init : (init c).Owns := by
  constructor
  · intro th
    cases th <;> exact List.nodup_nil
  · intro th m hm
    cases th <;> cases hm

theorem ownsExactly_init : (init c).OwnsExactly := by
  intro th m h
  cases h

theorem StudentMoves.handles (h : StudentMoves s x u) :
    Handles s.mutex (.student x) (s.holding (.student x)) u.mutex (u.holding (.student x)) := by
  simp only [holding]
  cases h with
  | lock hpc hfree =>
    rw [hpc,studentGoto_self]
    exact .acquire hfree
  | wrap hpc =>
    rw [hpc,studentGoto_self]
    exact .keep
  | take hpc _ _ =>
    rw [hpc,studentGoto_self]
    exact .keep
  | pass hpc =>
    rw [hpc,studentGoto_self]
    exact .keep
  | leave hpc =>
    rw [hpc,studentGoto_self]
    exact .release
  | sit hpc _ =>
    rw [hpc,studentGoto_self]
    exact .keep
  | finish hpc =>
    rw [hpc,studentGoto_self]
    exact .release

theorem StudentMoves.others (h : StudentMoves s x u) {th : Thread c} (hne : th ≠ .student x) :
    u.holding th = s.holding th := by
  cases h <;> exact holding_studentGoto hne

theorem TableLock.handles {pc pc' : TablePc c} {m : Mutex c} (h : TableLock t pc m pc')
    (hfree : s.mutex m = none) :
    Handles s.mutex (.table t) (pc.holding t) (s.acquire m (.table t)).mutex (pc'.holding t) := by
  cases h <;> exact .acquire hfree

theorem TableUnlock.handles {pc pc' : TablePc c} {m : Mutex c} (h : TableUnlock t pc m pc') :
    Handles s.mutex (.table t) (pc.holding t) (s.unlock m).mutex (pc'.holding t) := by
  cases h with
  | refill => exact .release
  | @robot r flag =>
    cases flag with
    | true => exact .release
    | false => exact .release
  | @peek x =>
    rcases lt_or_ge 0 x with hx | hx
    · rw [if_pos hx]
      exact .release
    · rw [if_neg (not_lt.mpr hx)]
      exact .release
  | ready => exact .release
  | poll => exact .release
  | finish => exact .release

theorem TableJump.holding_eq {pc pc' : TablePc c} (h : TableJump s t pc pc') :
    pc'.holding t = pc.holding t ∨ (pc = .entered ∧ pc' = .serving ∧ s.gameOver = true) := by
  cases h with
  | @proceed flag =>
    cases flag with
    | true => exact .inl rfl
    | false => exact .inl rfl
  | refuse hover => exact .inr ⟨rfl,rfl,hover⟩
  | quitScan => exact .inl rfl
  | tryRobot => exact .inl rfl
  | noRobot => exact .inl rfl
  | emptyRobot => exact .inl rfl
  | quit => exact .inl rfl
  | close => exact .inl rfl
  | look => exact .inl rfl
  | peek => exact .inl rfl
  | allow => exact .inl rfl
  | full => exact .inl rfl
  | wait => exact .inl rfl
  | leave => exact .inl rfl
  | resume => exact .inl rfl

theorem TableMoves.handles (h : TableMoves s t u) :
    Handles s.mutex (.table t) (s.holding (.table t)) u.mutex (u.holding (.table t)) ∨
      (s.table t = .entered ∧ s.gameOver = true ∧ u = s.tableGoto t .serving) := by
  simp only [holding]
  cases h with
  | jump hj =>
    rcases hj.holding_eq with he | ⟨hpc,rfl,hover⟩
    · left
      rw [tableGoto_self,he]
      exact .keep
    · exact .inr ⟨hpc,hover,rfl⟩
  | lock hl hfree =>
    left
    rw [tableGoto_self]
    exact TableLock.handles hl hfree
  | unlock hl =>
    left
    rw [tableGoto_self]
    exact TableUnlock.handles hl
  | reset hpc =>
    left
    rw [hpc,tableGoto_self]
    exact .keep
  | takeVessel hpc _ =>
    left
    rw [hpc,tableGoto_self]
    exact .keep
  | fill hpc =>
    left
    rw [hpc,tableGoto_self]
    exact .keep
  | openRound hpc =>
    left
    rw [hpc,tableGoto_self]
    exact .keep
  | serveRound hpc =>
    left
    rw [hpc,tableGoto_self]
    exact .keep

theorem TableMoves.others (h : TableMoves s t u) {th : Thread c} (hne : th ≠ .table t) :
    u.holding th = s.holding th := by
  cases h <;> exact holding_tableGoto hne

theorem RobotMoves.handles (h : RobotMoves s r u) (howns : s.Owns) :
    Handles s.mutex (.robot r) (s.holding (.robot r)) u.mutex (u.holding (.robot r)) := by
  have hmine := howns.holds (p := .robot r) (m := .robotMutexes r)
  simp only [holding] at hmine ⊢
  cases h with
  | jump hj =>
    rw [robotGoto_self]
    generalize s.robot r = pc at hj
    cases hj <;> exact .keep
  | lock hl hfree =>
    rw [robotGoto_self]
    generalize s.robot r = pc at hl
    cases hl <;> exact .acquire hfree
  | unlock hl =>
    rw [robotGoto_self]
    generalize s.robot r = pc at hl
    cases hl <;> exact .release
  | fill hpc =>
    rw [hpc,robotGoto_self]
    exact .keep
  | retake hpc hfree =>
    rw [hpc] at hmine
    rw [hmine List.mem_cons_self] at hfree
    cases hfree

theorem RobotMoves.others (h : RobotMoves s r u) {th : Thread c} (hne : th ≠ .robot r) :
    u.holding th = s.holding th := by
  cases h <;> exact holding_robotGoto hne

theorem MainMoves.handles (h : MainMoves s u) :
    Handles s.mutex .main (s.holding .main) u.mutex (u.holding .main) := by
  simp only [holding]
  cases h with
  | jump hj =>
    generalize s.main = pc at hj
    cases hj with
    | @tablesZeroed again i =>
      cases again with
      | true => exact .keep
      | false => exact .keep
    | joinStudent => exact .keep
    | studentsJoined => exact .keep
    | robotsZeroed => exact .keep
    | joinTable => exact .keep
    | tablesJoined => exact .keep
    | finish => exact .keep
    | joinRobot => exact .keep
  | endGame hpc =>
    rw [hpc]
    exact .keep
  | lock hl hfree =>
    generalize s.main = pc at hl
    cases hl <;> exact .acquire hfree
  | unlock hl =>
    generalize s.main = pc at hl
    cases hl <;> exact .release
  | zeroSlots hpc =>
    rw [hpc,zeroSlots_eq]
    exact .keep
  | zeroVessels hpc =>
    rw [hpc,zeroVessels_eq]
    exact .keep
  | zeroFinal hpc =>
    rw [hpc,zeroVessels_eq]
    exact .keep

theorem MainMoves.others (h : MainMoves s u) {th : Thread c} (hne : th ≠ .main) :
    u.holding th = s.holding th := by
  cases h with
  | zeroSlots =>
    rw [holding_mainGoto hne,zeroSlots_eq]
    rfl
  | zeroVessels =>
    rw [holding_mainGoto hne,zeroVessels_eq]
    rfl
  | zeroFinal =>
    rw [holding_mainGoto hne,zeroVessels_eq]
    rfl
  | jump => exact holding_mainGoto hne
  | endGame => exact holding_mainGoto hne
  | lock => exact holding_mainGoto hne
  | unlock => exact holding_mainGoto hne

theorem Moves.owns {a : Act c} (h : Moves s a u) (hs : s.Owns) : u.Owns := by
  cases h with
  | student h => exact Owned.step hs h.handles fun _ => h.others
  | @table t rand _ h =>
    rcases h.handles with hh | ⟨hpc,_,rfl⟩
    · exact Owned.step hs hh fun _ => h.others
    · apply Owned.forget (p := .table t) (m := .tableMutexes t) hs
      · simp only [holding]
        rw [hpc,tableGoto_self]
        rfl
      · exact fun _ => h.others
  | robot h => exact Owned.step hs (h.handles hs) fun _ => h.others
  | main h => exact Owned.step hs h.handles fun _ => h.others

def refuses (s : State c) : Act c → Prop
  | .table t _ => s.table t = .entered ∧ s.gameOver = true
  | _ => False

theorem Moves.ownsExactly {a : Act c} (h : Moves s a u) (ho : s.Owns) (hs : s.OwnsExactly)
    (hok : ¬ s.refuses a) : u.OwnsExactly := by
  cases h with
  | student h => exact Exact.step hs h.handles fun _ => h.others
  | table h =>
    rcases h.handles with hh | ⟨hpc,hover,_⟩
    · exact Exact.step hs hh fun _ => h.others
    · exact absurd ⟨hpc,hover⟩ hok
  | robot h => exact Exact.step hs (h.handles ho) fun _ => h.others
  | main h => exact Exact.step hs h.handles fun _ => h.others

end State
end Biryani
