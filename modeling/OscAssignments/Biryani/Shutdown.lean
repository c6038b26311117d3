import Mathlib.Tactic
import OscAssignments.Biryani.Served

namespace Biryani
open Runs Mutexes

variable {c : Config}

def StudentPc.owed : StudentPc c → Nat
  | .looking _ => 3
  | .slotted _ => 2
  | .seated _ => 1
  | .passing _ => 1
  | _ => 0

def TablePc.owed : TablePc c → Nat
  | .checkRobot _ => 5
  | .lockTable _ => 4
  | .fill _ => 3
  | .unlockTable _ => 2
  | .unlockRobot _ _ => 1
  | .peek => 2
  | .unlockPeek _ => 1
  | .entered => 3
  | .opening => 2
  | .opened => 1
  | .waitCheck => 3
  | .announcing => 2
  | .announced => 1
  | .waitUnlock => 1
  | _ => 0

def RobotPc.owed : RobotPc → Nat
  | .fill _ _ => 2
  | .unlockFill => 1
  | .waitCheck => 3
  | .trylock => 2
  | .unlockLast => 1
  | .waitUnlock => 1
  | _ => 0

def MainPc.owed : MainPc c → Nat
  | .tableZero _ _ => 2
  | .tableUnlock _ _ => 1
  | .robotZero _ => 2
  | .robotUnlock _ => 1
  | _ => 0

def Thread.act : Thread c → Act c
  | .student x => .student x
  | .table t => .table t 0
  | .robot r => .robot r 0 0
  | .main => .main

namespace State
variable {s u : State c} {x : StudentId c} {t : TableId c} {r : RobotId c} {m : Mutex c}

def finished (s : State c) : Thread c → Prop
  | .student x => s.student x = .done
  | .table t => s.table t = .left
  | .robot r => s.robot r = .left
  | .main => s.main = .finished

def owed (s : State c) : Thread c → Nat
  | .student x => (s.student x).owed
  | .table t => (s.table t).owed
  | .robot r => (s.robot r).owed
  | .main => s.main.owed

structure Released (s : State c) : Prop where
  table : ∀ t, s.table t = .serving → ∀ m, s.mutex m ≠ some (.table t)
  student : ∀ x, s.student x = .done → ∀ m, s.mutex m ≠ some (.student x)
  robot : ∀ r, s.robot r = .left → ∀ m, s.mutex m ≠ some (.robot r)

def mainAwaits (s : State c) : Mutex c → Prop
  | .tableMutexes t => ∃ again, s.main = .tableLock again t
  | .robotMutexes r => s.main = .robotLock r

def Frees (s : State c) (m : Mutex c) : Prop :=
  ∃ ts u, (mess c).Path s ts u ∧ u.mutex m = none

structure ShutsDown (s : State c) : Prop where
  released : s.Released
  unblocked : ∀ m th, s.mainAwaits m → s.mutex m = some th → ¬ s.finished th ∧ s.Frees m

def inTime (s : State c) : Act c → Prop
  | .table t _ => s.table t = .enter → s.gameOver = false
  | .main => s.main = .endGame → ∀ t, s.table t ≠ .entered
  | _ => True

instance (s : State c) (a : Act c) : Decidable (s.inTime a) :=
  match a with
  | .student _ => isTrue trivial
  | .table _ _ => inferInstanceAs (Decidable (_ → _))
  | .robot _ _ _ => isTrue trivial
  | .main => inferInstanceAs (Decidable (_ → ∀ _, _))

def Punctual (s : State c) : Prop := ∀ t, s.table t = .entered → s.gameOver = false

theorem Punctual.not_refuses (hs : s.Punctual) (a : Act c) : ¬ s.refuses a := by
  cases a with
  | table t rand =>
    rintro ⟨hpc,hover⟩
    rw [hs t hpc] at hover
    cases hover
  | student x => exact not_false
  | robot r rand rand' => exact not_false
  | main => exact not_false

theorem TableJump.not_entered {pc pc' : TablePc c} (h : TableJump s t pc pc') :
    pc' ≠ .entered := by
  cases h with
  | @proceed flag => cases flag <;> exact nofun
  | _ => exact nofun

theorem TableUnlock.not_entered {pc pc' : TablePc c} (h : TableUnlock t pc m pc') :
    pc' ≠ .entered := by
  cases h with
  | @robot r flag => cases flag <;> exact nofun
  | @peek y =>
    rcases lt_or_ge 0 y with hy | hy
    · rw [if_pos hy]
      exact nofun
    · rw [if_neg (not_lt.mpr hy)]
      exact nofun
  | _ => exact nofun

theorem TableMoves.punctual (h : TableMoves s t u) (hs : s.Punctual)
    (hok : s.table t = .enter → s.gameOver = false) : u.Punctual := by
  have hgoto : ∀ {v : State c} {pc : TablePc c}, v.table = s.table → v.gameOver = s.gameOver →
      (pc = .entered → s.gameOver = false) → (v.tableGoto t pc).Punctual := by
    intro v pc htable hover hpc t' ht
    refine Eq.trans hover ?_
    rcases eq_or_ne t' t with rfl | hne
    · rw [tableGoto_self] at ht
      exact hpc ht
    · rw [tableGoto_of_ne v pc hne,htable] at ht
      exact hs t' ht
  cases h with
  | reset => exact hgoto rfl rfl nofun
  | jump hj => exact hgoto rfl rfl fun hpc => absurd hpc hj.not_entered
  | lock hl _ =>
    refine hgoto rfl rfl ?_
    rintro rfl
    generalize s.table t = pc at hl hok
    cases hl
    exact hok rfl
  | unlock hl => exact hgoto rfl rfl fun hpc => absurd hpc (TableUnlock.not_entered hl)
  | takeVessel => exact hgoto rfl rfl nofun
  | fill => exact hgoto rfl rfl nofun
  | openRound => exact hgoto rfl rfl nofun
  | serveRound => exact hgoto rfl rfl nofun

theorem MainMoves.punctual (h : MainMoves s u) (hs : s.Punctual)
    (hok : s.main = .endGame → ∀ t, s.table t ≠ .entered) : u.Punctual := by
  cases h with
  | endGame hpc => exact fun t ht => absurd ht (hok hpc t)
  | jump => exact hs
  | lock => exact hs
  | unlock => exact hs
  | zeroSlots =>
    rw [zeroSlots_eq]
    exact hs
  | zeroVessels =>
    rw [zeroVessels_eq]
    exact hs
  | zeroFinal =>
    rw [zeroVessels_eq]
    exact hs

theorem Moves.punctual {a : Act c} (h : Moves s a u) (hs : s.Punctual) (hok : s.inTime a) :
    u.Punctual := by
  cases h with
  | student h => cases h <;> exact hs
  | table h => exact h.punctual hs hok
  | robot h => cases h <;> exact hs
  | main h => exact h.punctual hs hok

structure Orderly (s : State c) : Prop where
  served : s.Served
  exactly : s.OwnsExactly
  punctual : s.Punctual

theorem Moves.orderly {a : Act c} (h : Moves s a u) (hs : s.Orderly) (hok : s.inTime a) :
    u.Orderly where
  served := h.served hs.served
  exactly := h.ownsExactly hs.served.owns hs.exactly (hs.punctual.not_refuses a)
  punctual := h.punctual hs.punctual hok

theorem orderly_of_reach (h : (mess c).Reach inTime s) : s.Orderly := by
  apply h.invariant Orderly
  · exact ⟨served_init,ownsExactly_init,nofun⟩
  · exact fun _ _ _ _ hs hok ht => (step_moves ht).orderly hs hok

theorem OwnsExactly.released (h : s.OwnsExactly) : s.Released where
  table := by
    intro t ht m hm
    have hin := h _ _ hm
    simp only [holding,ht] at hin
    cases hin
  student := by
    intro x hx m hm
    have hin := h _ _ hm
    simp only [holding,hx] at hin
    cases hin
  robot := by
    intro r hr m hm
    have hin := h _ _ hm
    simp only [holding,hr] at hin
    cases hin

theorem OwnsExactly.not_finished (h : s.OwnsExactly) {th : Thread c} (hm : s.mutex m = some th) :
    ¬ s.finished th := by
  intro hf
  have hin := h _ _ hm
  cases th with
  | student x =>
    simp only [holding,show s.student x = .done from hf] at hin
    cases hin
  | table t =>
    simp only [holding,show s.table t = .left from hf] at hin
    cases hin
  | robot r =>
    simp only [holding,show s.robot r = .left from hf] at hin
    cases hin
  | main =>
    simp only [holding,show s.main = .finished from hf] at hin
    cases hin

theorem student_works (hs : s.Served) (h : 0 < (s.student x).owed) :
    ∃ u, s.step (.student x) = .ok u ∧ (u.student x).owed < (s.student x).owed := by
  cases hpc : s.student x with
  | seeking i => simp [hpc,StudentPc.owed] at h
  | looking t =>
    rcases Classical.em ((s.tables t).readyToServe = true ∧ 0 < (s.tables t).slotsLeft) with hr | hr
    · refine ⟨(s.takeSlot x t).studentGoto x (.slotted t),?_,?_⟩
      · simp only [step,studentStep,hpc,if_pos hr]
      · rw [studentGoto_self]
        simp [StudentPc.owed]
    · refine ⟨s.studentGoto x (.passing t),?_,?_⟩
      · simp only [step,studentStep,hpc,if_neg hr]
      · rw [studentGoto_self]
        simp [StudentPc.owed]
  | passing t =>
    refine ⟨(s.unlock (.tableMutexes t)).studentGoto x (.seeking (t + 1)),?_,?_⟩
    · simp only [step,studentStep,hpc]
    · rw [studentGoto_self]
      simp [StudentPc.owed]
  | slotted t =>
    obtain ⟨j,_,hj,_⟩ := (hs.roundAccounted t).search x hpc
    refine ⟨(s.record x t j).studentGoto x (.seated t),?_,?_⟩
    · simp only [step,studentStep,hpc,hj]
    · rw [studentGoto_self]
      simp [StudentPc.owed]
  | seated t =>
    refine ⟨(s.unlock (.tableMutexes t)).studentGoto x .done,?_,?_⟩
    · simp only [step,studentStep,hpc]
    · rw [studentGoto_self]
      simp [StudentPc.owed]
  | done => simp [hpc,StudentPc.owed] at h

theorem table_goes {v : State c} {pc l : TablePc c}
    (hstep : s.step (.table t 0) = .ok (v.tableGoto t l)) (hlt : l.owed < pc.owed) :
    ∃ u, s.step (.table t 0) = .ok u ∧ (u.table t).owed < pc.owed := by
  refine ⟨_,hstep,?_⟩
  rw [tableGoto_self]
  exact hlt

theorem table_works (hs : s.Punctual) (h : 0 < (s.table t).owed)
    (hfree : ∀ r, s.table t = .lockTable r → s.mutex (.tableMutexes t) = none) :
    ∃ u, s.step (.table t 0) = .ok u ∧ (u.table t).owed < (s.table t).owed := by
  generalize hpc : s.table t = pc at h ⊢
  cases pc with
  | checkRobot r =>
    rcases lt_or_ge 0 (s.robots r).biryaniVesselsRemaining with hpos | hpos
    · refine table_goes (v := s.takeVessel t r) (l := .lockTable r) ?_ ?_
      · simp only [step,tableStep,hpc,if_pos hpos]
      · simp [TablePc.owed]
    · refine table_goes (v := s) (l := .unlockRobot r false) ?_ ?_
      · simp only [step,tableStep,hpc,if_neg (not_lt.mpr hpos)]
      · simp [TablePc.owed]
  | lockTable r =>
    refine table_goes (v := s.acquire (.tableMutexes t) (.table t)) (l := .fill r) ?_ ?_
    · simp only [step,tableStep,hpc,lock,if_pos (hfree r hpc)]
      rfl
    · simp [TablePc.owed]
  | unlockRobot r flag =>
    refine table_goes (by simp only [step,tableStep,hpc]; rfl) ?_
    cases flag with
    | true => simp [TablePc.owed]
    | false => simp [TablePc.owed]
  | unlockPeek y =>
    refine table_goes (by simp only [step,tableStep,hpc]; rfl) ?_
    split
    · simp [TablePc.owed]
    · simp [TablePc.owed]
  | entered =>
    refine table_goes (v := s) (l := .opening) ?_ ?_
    · simp [step,tableStep,hpc,hs t hpc]
    · simp [TablePc.owed]
  | waitCheck =>
    rcases Classical.em ((s.tables t).slotsLeft = 0) with hz | hz
    · refine table_goes (v := s) (l := .announcing) ?_ ?_
      · simp only [step,tableStep,hpc,if_pos hz]
      · simp [TablePc.owed]
    · refine table_goes (v := s) (l := .waitUnlock) ?_ ?_
      · simp only [step,tableStep,hpc,if_neg hz]
      · simp [TablePc.owed]
  | fill r | unlockTable r | peek | opening | opened | waitUnlock | announcing | announced =>
    refine table_goes (by simp only [step,tableStep,hpc]; rfl) ?_
    simp [TablePc.owed]
  | _ => simp [TablePc.owed] at h

theorem robot_goes {v : State c} {pc l : RobotPc}
    (hstep : s.step (.robot r 0 0) = .ok (v.robotGoto r l)) (hlt : l.owed < pc.owed) :
    ∃ u, s.step (.robot r 0 0) = .ok u ∧ (u.robot r).owed < pc.owed := by
  refine ⟨_,hstep,?_⟩
  rw [robotGoto_self]
  exact hlt

theorem robot_works (hs : s.Owns) (h : 0 < (s.robot r).owed) :
    ∃ u, s.step (.robot r 0 0) = .ok u ∧ (u.robot r).owed < (s.robot r).owed := by
  have hmine := hs.holds (p := .robot r) (m := .robotMutexes r)
  simp only [holding] at hmine
  generalize hpc : s.robot r = pc at h hmine ⊢
  cases pc with
  | waitCheck =>
    rcases Classical.em ((s.robots r).biryaniVesselsRemaining = 0) with hz | hz
    · refine robot_goes (v := s) (l := .trylock) ?_ ?_
      · simp only [step,robotStep,hpc,if_pos hz]
      · simp [RobotPc.owed]
    · refine robot_goes (v := s) (l := .waitUnlock) ?_ ?_
      · simp only [step,robotStep,hpc,if_neg hz]
      · simp [RobotPc.owed]
  | trylock =>
    refine robot_goes (v := s) (l := .unlockLast) ?_ ?_
    · simp [step,robotStep,hpc,hmine List.mem_cons_self]
    · simp [RobotPc.owed]
  | fill n size | unlockFill | waitUnlock | unlockLast =>
    refine robot_goes (by simp only [step,robotStep,hpc]; rfl) ?_
    simp [RobotPc.owed]
  | _ => simp [RobotPc.owed] at h

theorem main_works (h : 0 < s.main.owed) :
    ∃ u, s.step .main = .ok u ∧ u.main.owed < s.main.owed := by
  cases hpc : s.main with
  | tableZero again t | tableUnlock again t | robotZero r | robotUnlock r =>
    refine ⟨_,by simp only [step,mainStep,hpc]; rfl,?_⟩
    simp [mainGoto,MainPc.owed]
  | _ => simp [hpc,MainPc.owed] at h

theorem holding_of_owed {th : Thread c} (h : s.owed th = 0) : s.holding th = [] := by
  cases th with
  | student x =>
    simp only [owed] at h
    simp only [holding]
    generalize s.student x = pc at h
    cases pc <;> first | rfl | cases h
  | table t =>
    simp only [owed] at h
    simp only [holding]
    generalize s.table t = pc at h
    cases pc <;> first | rfl | cases h
  | robot r =>
    simp only [owed] at h
    simp only [holding]
    generalize s.robot r = pc at h
    cases pc <;> first | rfl | cases h
  | main =>
    simp only [owed] at h
    simp only [holding]
    generalize s.main = pc at h
    cases pc <;> first | rfl | cases h

theorem inTime_act {th : Thread c} (h : 0 < s.owed th) : s.inTime th.act := by
  cases th with
  | student x => trivial
  | table t =>
    intro hpc
    simp only [owed,hpc] at h
    cases h
  | robot r => trivial
  | main =>
    intro hpc
    simp only [owed,hpc] at h
    cases h

theorem table_mutex_holder {th : Thread c} (h : .tableMutexes t ∈ s.holding th)
    (hmain : s.main.holding = []) : (∃ x, th = .student x) ∨ th = .table t := by
  cases th with
  | student x => exact .inl ⟨x,rfl⟩
  | table t' =>
    right
    simp only [holding] at h
    generalize s.table t' = pc at h
    cases pc <;> simp_all [TablePc.holding]
  | robot r =>
    simp only [holding] at h
    generalize s.robot r = pc at h
    cases pc <;> simp [RobotPc.holding] at h
  | main =>
    simp only [holding,hmain] at h
    cases h

def Clear (s : State c) (th : Thread c) : Prop :=
  ∀ t, th = .table t → ∀ th', th' ≠ th → .tableMutexes t ∉ s.holding th'

theorem Clear.shrink {th : Thread c} (h : s.Clear th)
    (hu : ∀ th', u.holding th' = [] ∨ u.holding th' = s.holding th') : u.Clear th := by
  intro t ht th' hne hm
  rcases hu th' with he | he
  · rw [he] at hm
    cases hm
  · rw [he] at hm
    exact h t ht th' hne hm

theorem Moves.others {th th' : Thread c} (h : Moves s th.act u) (hne : th' ≠ th) :
    u.holding th' = s.holding th' := by
  cases th with
  | student x =>
    cases h with
    | student h => exact h.others hne
  | table t =>
    cases h with
    | table h => exact h.others hne
  | robot r =>
    cases h with
    | robot h => exact h.others hne
  | main =>
    cases h with
    | main h => exact h.others hne

theorem Orderly.works (hs : s.Orderly) {th : Thread c} (hfree : s.Clear th) (h : 0 < s.owed th) :
    ∃ u, s.step th.act = .ok u ∧ u.owed th < s.owed th := by
  cases th with
  | student x => exact student_works hs.served h
  | robot r => exact robot_works hs.served.owns h
  | main => exact main_works h
  | table t =>
    apply table_works hs.punctual h
    intro r hpc
    cases hm : s.mutex (.tableMutexes t) with
    | none => rfl
    | some th' =>
      have hin := hs.exactly th' _ hm
      rcases eq_or_ne th' (.table t) with rfl | hne
      · simp [holding,hpc,TablePc.holding] at hin
      · exact absurd hin (hfree t rfl th' hne)

theorem Orderly.release (hs : s.Orderly) {th : Thread c} (hfree : s.Clear th) :
    ∃ u, (mess c).Leads inTime s u ∧ u.Orderly ∧ u.holding th = [] ∧
      ∀ th', th' ≠ th → u.holding th' = s.holding th' := by
  let I : State c → Prop := fun v => v.Orderly ∧ ∀ th', th' ≠ th → v.holding th' = s.holding th'
  have hstep : ∀ v, I v → ∃ w, (mess c).Leads inTime v w ∧
      ((I w ∧ w.owed th = 0) ∨ (I w ∧ w.owed th < v.owed th)) := by
    rintro v ⟨hv,hother⟩
    rcases Nat.eq_zero_or_pos (v.owed th) with hz | hpos
    · exact ⟨v,.refl v,.inl ⟨⟨hv,hother⟩,hz⟩⟩
    · have hclear : v.Clear th := fun t ht th' hne hm => hfree t ht th' hne (hother th' hne ▸ hm)
      obtain ⟨w,hw,hlt⟩ := hv.works hclear hpos
      have hm := step_moves hw
      have hok := inTime_act hpos
      refine ⟨w,.one hok hw,.inr ⟨⟨hm.orderly hv hok,?_⟩,hlt⟩⟩
      intro th' hne
      rw [hm.others hne]
      exact hother th' hne
  obtain ⟨u,hu,⟨hi,hother⟩,hz⟩ := System.Leads.until I _ _ hstep ⟨hs,fun _ _ => rfl⟩
  exact ⟨u,hu,hi,holding_of_owed hz,hother⟩

theorem Orderly.releases {l : List (Thread c)} (hs : s.Orderly) (hfree : ∀ th ∈ l, s.Clear th) :
    ∃ u, (mess c).Leads inTime s u ∧ u.Orderly ∧ (∀ th ∈ l, u.holding th = []) ∧
      ∀ th, u.holding th = [] ∨ u.holding th = s.holding th := by
  induction l generalizing s with
  | nil => exact ⟨s,.refl s,hs,nofun,fun _ => .inr rfl⟩
  | cons a l ih =>
    obtain ⟨v,hv,hsv,ha,hother⟩ := hs.release (hfree a List.mem_cons_self)
    have hshrink : ∀ th, v.holding th = [] ∨ v.holding th = s.holding th := by
      intro th
      rcases eq_or_ne th a with rfl | hne
      · exact .inl ha
      · exact .inr (hother th hne)
    obtain ⟨u,hu,hsu,hl,hrest⟩ :=
      ih hsv fun th hm => (hfree th (List.mem_cons_of_mem a hm)).shrink hshrink
    refine ⟨u,hv.trans hu,hsu,?_,?_⟩
    · intro th hm
      rcases List.mem_cons.mp hm with rfl | hm
      · exact (hrest th).elim id fun he => he.trans ha
      · exact hl th hm
    · intro th
      rcases hrest th with he | he
      · exact .inl he
      · rw [he]
        exact hshrink th

def Still (s : State c) : Prop := ∀ th, s.holding th = []

theorem Orderly.quiesce (hs : s.Orderly) :
    ∃ u, (mess c).Leads inTime s u ∧ u.Orderly ∧ u.Still := by
  let others : List (Thread c) := .main :: ((List.finRange _).map .student ++
    (List.finRange _).map .robot)
  have hothers : ∀ th ∈ others, s.Clear th := by
    rintro th hm t rfl
    simp [others] at hm
  obtain ⟨v,hv,hsv,hnone,_⟩ := hs.releases hothers
  have htables : ∀ th ∈ (List.finRange c.tableCount).map Thread.table, v.Clear th := by
    rintro th - t rfl th' hne hm
    rcases table_mutex_holder hm (hnone .main List.mem_cons_self) with ⟨x,rfl⟩ | rfl
    · rw [hnone (.student x) (by simp [others])] at hm
      cases hm
    · exact hne rfl
  obtain ⟨u,hu,hsu,htable,hshrink⟩ := hsv.releases htables
  refine ⟨u,hv.trans hu,hsu,?_⟩
  intro th
  have hback : v.holding th = [] → u.holding th = [] := fun he =>
    (hshrink th).elim id fun h => h.trans he
  cases th with
  | student x => exact hback (hnone _ (by simp [others]))
  | table t => exact htable _ (by simp)
  | robot r => exact hback (hnone _ (by simp [others]))
  | main => exact hback (hnone _ List.mem_cons_self)

theorem OwnsExactly.free (h : s.OwnsExactly) (hs : s.Still) (m : Mutex c) : s.mutex m = none := by
  cases hm : s.mutex m with
  | none => rfl
  | some th =>
    have hin := h th m hm
    rw [hs th] at hin
    cases hin

theorem Orderly.frees (hs : s.Orderly) (m : Mutex c) : s.Frees m := by
  obtain ⟨u,hu,hsu,hstill⟩ := hs.quiesce
  obtain ⟨ts,hp⟩ := hu.path
  exact ⟨ts,u,hp,hsu.exactly.free hstill m⟩

theorem late_return_leaks (hs : s.Owns) (hpc : s.table t = .entered) (hover : s.gameOver = true) :
    ∃ u, s.step (.table t 0) = .ok u ∧ ¬ u.Released := by
  have hheld : s.mutex (.tableMutexes t) = some (.table t) := by
    apply hs.holds
    simp only [holding,hpc]
    exact List.mem_cons_self
  refine ⟨s.tableGoto t .serving,?_,?_⟩
  · simp [step,tableStep,hpc,hover]
  · intro h
    exact h.table t (tableGoto_self s t _) _ hheld

end State

def mainTurns (n k : Nat) : List (Act (diners n)) := List.replicate k .main

def peekingRun : List (Act (diners 1)) := firstMeal ++ tableTurns 1 2 0 ++ mainTurns 1 3

def returnRun : List (Act (diners 1)) :=
  firstMeal ++ tableTurns 1 4 0 ++ mainTurns 1 3 ++ tableTurns 1 2 0

def leakRun : List (Act (diners 1)) := returnRun ++ tableTurns 1 2 0

theorem shutdown_releases {s : State c} (h : (mess c).Reach State.inTime s) : s.ShutsDown := by
  have hs := State.orderly_of_reach h
  exact ⟨hs.exactly.released,fun m th hm hth => ⟨hs.exactly.not_finished hth,hs.frees m⟩⟩

theorem shutdown_releases_peeking :
    (mess (diners 1)).Reach State.inTime ((mess (diners 1)).after peekingRun) ∧
      ((mess (diners 1)).after peekingRun).mainAwaits (.tableMutexes (counter 1)) ∧
      ((mess (diners 1)).after peekingRun).mutex (.tableMutexes (counter 1)) =
        some (.table (counter 1)) ∧
      ((mess (diners 1)).after peekingRun).Frees (.tableMutexes (counter 1)) := by
  have hrun : ((mess (diners 1)).checked State.inTime (mess (diners 1)).init peekingRun).any
      (fun s => s.main = .tableLock false (counter 1) ∧
        s.mutex (.tableMutexes (counter 1)) = some (.table (counter 1))) = true := by
    decide +kernel
  obtain ⟨hr,hp⟩ := System.reach_checked hrun
  obtain ⟨hpc,hheld⟩ := of_decide_eq_true hp
  have hmain : ((mess (diners 1)).after peekingRun).mainAwaits (.tableMutexes (counter 1)) :=
    ⟨false,hpc⟩
  exact ⟨hr,hmain,hheld,((shutdown_releases hr).unblocked _ _ hmain hheld).2⟩

theorem shutdown_leaks :
    ((mess (diners 1)).Reachable ((mess (diners 1)).after returnRun) ∧
        ¬ ((mess (diners 1)).after returnRun).Released) ∧
      (mess (diners 1)).Reachable ((mess (diners 1)).after leakRun) ∧
      ((mess (diners 1)).after leakRun).mainAwaits (.tableMutexes (counter 1)) ∧
      ((mess (diners 1)).after leakRun).mutex (.tableMutexes (counter 1)) =
        some (.table (counter 1)) ∧
      ((mess (diners 1)).after leakRun).finished (.table (counter 1)) ∧
      ¬ ((mess (diners 1)).after leakRun).ShutsDown := by
  have hreturn : ((mess (diners 1)).checked (fun _ _ => True) (mess (diners 1)).init returnRun).any
      (fun s => s.table (counter 1) = .serving ∧
        s.mutex (.tableMutexes (counter 1)) = some (.table (counter 1))) = true := by
    decide +kernel
  have hleak : ((mess (diners 1)).checked (fun _ _ => True) (mess (diners 1)).init leakRun).any
      (fun s => s.main = .tableLock false (counter 1) ∧ s.table (counter 1) = .left ∧
        s.mutex (.tableMutexes (counter 1)) = some (.table (counter 1))) = true := by
    decide +kernel
  obtain ⟨hr,hp⟩ := System.reach_checked hreturn
  obtain ⟨hpc,hheld⟩ := of_decide_eq_true hp
  obtain ⟨hr',hp'⟩ := System.reach_checked hleak
  obtain ⟨hmain,hleft,hheld'⟩ := of_decide_eq_true hp'
  have hawaits : ((mess (diners 1)).after leakRun).mainAwaits (.tableMutexes (counter 1)) :=
    ⟨false,hmain⟩
  refine ⟨⟨hr,fun hrel => hrel.table _ hpc _ hheld⟩,hr',hawaits,hheld',hleft,?_⟩
  intro hs
  exact (hs.unblocked _ _ hawaits hheld').1 hleft

end Biryani
