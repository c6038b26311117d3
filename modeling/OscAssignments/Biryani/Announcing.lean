import Mathlib.Tactic
import OscAssignments.Biryani.Shutdown

namespace Biryani
open Runs Mutexes

variable {c : Config}

def MainPc.ended : MainPc c → Bool
  | .joinStudents _ => false
  | .endGame => false
  | _ => true

def MainPc.zeroed (t : TableId c) : MainPc c → Bool
  | .joinStudents _ => false
  | .endGame => false
  | .tableLock again i => again || t.val < i
  | .tableZero again t' => again || t.val < t'
  | .tableUnlock again t' => again || t.val ≤ t'
  | _ => true

def MainPc.togo : MainPc c → Nat
  | .joinStudents i => (c.studentCount - i) + 3 * c.tableCount + 3
  | .endGame => 3 * c.tableCount + 2
  | .tableLock false i => 3 * (c.tableCount - i) + 1
  | .tableZero false t => 3 * (c.tableCount - t)
  | .tableUnlock false t => 3 * (c.tableCount - t) - 1
  | _ => 0

def seats (n : Nat) (t i : Nat) : Nat := if i ≤ t then t - i else (n - i) + t + 1

namespace State
variable {s u : State c} {x : StudentId c} {t : TableId c} {r : RobotId c} {m : Mutex c}

structure Shut (s : State c) : Prop where
  ended : s.main.ended = true → s.gameOver = true
  zeroed : ∀ t, s.main.zeroed t = true → (s.tables t).slotsLeft = 0 ∧ s.table t ≠ .opening

def Announces (s : State c) : Prop :=
  ∀ x t, (x,t) ∈ s.taken → ∃ u, (mess c).Leads inTime s u ∧ u.served.count (t,ident x) = 1

theorem shut_init : (init c).Shut := ⟨nofun,nofun⟩

theorem ended_of_zeroed {pc : MainPc c} (h : pc.zeroed t = true) : pc.ended = true := by
  cases pc <;> first | rfl | cases h

theorem StudentMoves.slots (h : StudentMoves s x u) (t' : TableId c) :
    (u.tables t').slotsLeft = (s.tables t').slotsLeft ∨ 0 < (s.tables t').slotsLeft := by
  cases h with
  | @take t _ _ hpos =>
    rcases eq_or_ne t' t with rfl | hne
    · exact .inr hpos
    · exact .inl (congrArg Table.slotsLeft (setTable_of_ne s _ hne))
  | @sit t j _ _ =>
    left
    rcases eq_or_ne t' t with rfl | hne
    · simp [studentGoto,record,setTable]
    · exact congrArg Table.slotsLeft (setTable_of_ne s _ hne)
  | _ => exact .inl rfl

theorem TableMoves.slots (h : TableMoves s t u) (t' : TableId c) :
    (u.tables t').slotsLeft = (s.tables t').slotsLeft ∨ (t' = t ∧ s.table t = .opening) := by
  have hset : ∀ tb : Table, tb.slotsLeft = (s.tables t).slotsLeft →
      ((s.setTable t tb).tables t').slotsLeft = (s.tables t').slotsLeft := by
    intro tb htb
    rcases eq_or_ne t' t with rfl | hne
    · rw [setTable_self,htb]
    · rw [setTable_of_ne s _ hne]
  cases h with
  | openRound hpc =>
    rcases eq_or_ne t' t with rfl | hne
    · exact .inr ⟨rfl,hpc⟩
    · exact .inl (congrArg Table.slotsLeft (setTable_of_ne s _ hne))
  | reset => exact .inl (hset _ rfl)
  | fill => exact .inl (hset _ rfl)
  | serveRound => exact .inl (hset _ rfl)
  | _ => exact .inl rfl

theorem TableJump.opening {pc : TablePc c} (h : TableJump s t pc .opening) : pc = .entered := by
  generalize hpc' : TablePc.opening = pc' at h
  cases h with
  | allow => rfl
  | @proceed flag => cases flag <;> cases hpc'
  | _ => cases hpc'

theorem TableUnlock.not_opening {pc pc' : TablePc c} (h : TableUnlock t pc m pc') :
    pc' ≠ .opening := by
  cases h with
  | @robot r flag => cases flag <;> exact nofun
  | @peek y =>
    split
    · exact nofun
    · exact nofun
  | _ => exact nofun

theorem TableMoves.opening (h : TableMoves s t u) (hu : u.table t = .opening) :
    s.table t = .entered := by
  cases h with
  | jump hj =>
    rw [tableGoto_self] at hu
    rw [hu] at hj
    exact hj.opening
  | lock hl _ =>
    rw [tableGoto_self] at hu
    rw [hu] at hl
    generalize s.table t = pc at hl
    cases hl
  | unlock hl =>
    rw [tableGoto_self] at hu
    exact absurd hu (TableUnlock.not_opening hl)
  | _ =>
    rw [tableGoto_self] at hu
    cases hu

theorem TableMoves.same (h : TableMoves s t u) : u.gameOver = s.gameOver := by
  cases h <;> rfl

theorem StudentMoves.same (h : StudentMoves s x u) : u.gameOver = s.gameOver := by
  cases h <;> rfl

theorem RobotMoves.same (h : RobotMoves s r u) : u.gameOver = s.gameOver ∧ u.tables = s.tables := by
  cases h <;> exact ⟨rfl,rfl⟩

theorem MainMoves.slots (h : MainMoves s u) (t : TableId c)
    (hn : 0 ≤ (s.tables t).slotsLeft) :
    ((∀ again, s.main ≠ .tableZero again t) ∧ u.tables t = s.tables t) ∨
      ((∃ again, s.main = .tableZero again t) ∧ (u.tables t).slotsLeft = 0) := by
  have hkeep : ∀ {pc : MainPc c}, s.main = pc → (∀ again, pc ≠ .tableZero again t) →
      ∀ again, s.main ≠ .tableZero again t := fun he h => he ▸ h
  cases h with
  | @zeroSlots again t' hpc =>
    have htb : ((s.zeroSlots t').mainGoto (.tableUnlock again t')).tables =
        (s.setTable t' { s.tables t' with slotsLeft := min 0 (s.tables t').slotsLeft }).tables :=
      zeroSlots_tables s t'
    rw [htb]
    rcases eq_or_ne t t' with rfl | hne
    · right
      rw [setTable_self]
      exact ⟨⟨again,hpc⟩,min_eq_left hn⟩
    · left
      refine ⟨hkeep hpc ?_,setTable_of_ne s _ hne⟩
      rintro again' he
      cases he
      exact hne rfl
  | zeroVessels hpc =>
    rw [zeroVessels_eq]
    exact .inl ⟨hkeep hpc nofun,rfl⟩
  | zeroFinal hpc =>
    rw [zeroVessels_eq]
    exact .inl ⟨hkeep hpc nofun,rfl⟩
  | endGame hpc => exact .inl ⟨hkeep hpc nofun,rfl⟩
  | jump hj =>
    left
    generalize s.main = pc at hj
    cases hj <;> exact ⟨nofun,rfl⟩
  | lock hl _ =>
    left
    generalize s.main = pc at hl
    cases hl <;> exact ⟨nofun,rfl⟩
  | unlock hl =>
    left
    generalize s.main = pc at hl
    cases hl <;> exact ⟨nofun,rfl⟩

theorem MainJump.zeroed {pc pc' : MainPc c} (h : MainJump s pc pc') (hz : pc'.zeroed t = true) :
    pc.zeroed t = true := by
  cases h with
  | joinStudent => cases hz
  | studentsJoined => cases hz
  | @tablesZeroed again i hi =>
    have hlt : t.val < i := t.isLt.trans_le hi
    simp [MainPc.zeroed,hlt]
  | _ => rfl

theorem MainMoves.zeroed (h : MainMoves s u) (hz : u.main.zeroed t = true)
    (hne : ∀ again, s.main ≠ .tableZero again t) : s.main.zeroed t = true := by
  cases h with
  | jump hj => exact hj.zeroed hz
  | endGame => simp [mainGoto,MainPc.zeroed] at hz
  | lock hl _ =>
    generalize s.main = pc at hl
    cases hl with
    | table => exact hz
    | robot => rfl
  | unlock hl =>
    generalize s.main = pc at hl
    cases hl with
    | @table again t' =>
      simp only [mainGoto,MainPc.zeroed,Nat.lt_succ_iff] at hz
      exact hz
    | robot => rfl
  | @zeroSlots again t' hpc =>
    have hlt : t.val ≠ t'.val := fun he => hne again (hpc.trans (by rw [Fin.ext he]))
    rw [hpc]
    simp only [mainGoto,MainPc.zeroed,Bool.or_eq_true,decide_eq_true_eq] at hz ⊢
    exact hz.imp_right fun hle => lt_of_le_of_ne hle hlt
  | zeroVessels hpc => rw [hpc]; rfl
  | zeroFinal hpc => rw [hpc]; rfl

theorem MainMoves.ends (h : MainMoves s u) (hs : s.main.ended = true → s.gameOver = true)
    (hu : u.main.ended = true) : u.gameOver = true := by
  cases h with
  | endGame => rfl
  | jump hj =>
    apply hs
    generalize s.main = pc at hj
    cases hj with
    | joinStudent => cases hu
    | studentsJoined => cases hu
    | _ => rfl
  | lock hl _ =>
    apply hs
    generalize s.main = pc at hl
    cases hl <;> rfl
  | unlock hl =>
    apply hs
    generalize s.main = pc at hl
    cases hl <;> rfl
  | zeroSlots hpc =>
    rw [zeroSlots_eq]
    exact hs (by rw [hpc]; rfl)
  | zeroVessels hpc =>
    rw [zeroVessels_eq]
    exact hs (by rw [hpc]; rfl)
  | zeroFinal hpc =>
    rw [zeroVessels_eq]
    exact hs (by rw [hpc]; rfl)

theorem Owns.not_opening (ho : s.Owns) (h : .tableMutexes t ∈ s.main.holding) :
    s.table t ≠ .opening := by
  intro hpc
  have hin : .tableMutexes t ∈ s.holding (.table t) := by
    simp only [holding,hpc]
    exact List.mem_cons_self
  have hmain : .tableMutexes t ∈ s.holding .main := h
  cases ho.unique hin hmain

theorem MainMoves.shut (h : MainMoves s u) (hs : s.Served) (hshut : s.Shut) : u.Shut where
  ended := h.ends hshut.ended
  zeroed := by
    intro t hz
    obtain ⟨_,_,htable⟩ := h.elsewhere
    rw [htable]
    rcases h.slots t (hs.roundAccounted t).withinOffer.1 with ⟨hne,he⟩ | ⟨⟨again,hpc⟩,he⟩
    · rw [he]
      exact hshut.zeroed t (h.zeroed hz hne)
    · refine ⟨he,hs.owns.not_opening ?_⟩
      rw [hpc]
      exact List.mem_cons_self

theorem TableMoves.shut (h : TableMoves s t u) (hs : s.Punctual) (hshut : s.Shut) : u.Shut := by
  obtain ⟨hmain,_,_,htable⟩ := h.elsewhere
  constructor
  · rw [hmain,h.same]
    exact hshut.ended
  · intro t' hz
    rw [hmain] at hz
    obtain ⟨hslots,hnot⟩ := hshut.zeroed t' hz
    constructor
    · rcases h.slots t' with he | ⟨rfl,hpc⟩
      · rw [he]
        exact hslots
      · exact absurd hpc hnot
    · intro hu
      rcases eq_or_ne t' t with rfl | hne
      · have hover := hs t' (h.opening hu)
        rw [hshut.ended (ended_of_zeroed hz)] at hover
        cases hover
      · rw [htable t' hne] at hu
        exact hnot hu

theorem StudentMoves.shut (h : StudentMoves s x u) (hshut : s.Shut) : u.Shut := by
  obtain ⟨hmain,htable,_⟩ := h.elsewhere
  constructor
  · rw [hmain,h.same]
    exact hshut.ended
  · intro t hz
    rw [hmain] at hz
    obtain ⟨hslots,hnot⟩ := hshut.zeroed t hz
    rw [htable]
    rcases h.slots t with he | hpos
    · rw [he]
      exact ⟨hslots,hnot⟩
    · omega

theorem RobotMoves.shut (h : RobotMoves s r u) (hshut : s.Shut) : u.Shut := by
  obtain ⟨hmain,_,_,htable⟩ := h.elsewhere
  obtain ⟨hover,htables⟩ := h.same
  constructor
  · rw [hmain,hover]
    exact hshut.ended
  · rw [hmain,htable,htables]
    exact hshut.zeroed

theorem Moves.shut {a : Act c} (h : Moves s a u) (hs : s.Orderly) (hshut : s.Shut) : u.Shut := by
  cases h with
  | student h => exact h.shut hshut
  | table h => exact h.shut hs.punctual hshut
  | robot h => exact h.shut hshut
  | main h => exact h.shut hs.served hshut

structure Tidy (s : State c) : Prop where
  orderly : s.Orderly
  shut : s.Shut

theorem tidy_of_reach (h : (mess c).Reach inTime s) : s.Tidy := by
  refine ⟨orderly_of_reach h,?_⟩
  apply h.invariant Shut shut_init
  exact fun _ _ _ hr hs _ ht => (step_moves ht).shut (orderly_of_reach hr) hs

theorem Tidy.leads (hs : s.Tidy) (h : (mess c).Leads inTime s u) : u.Tidy := by
  apply h.preserves Tidy hs
  intro v a w hv hok hw
  have hm := step_moves hw
  exact ⟨hm.orderly hv.orderly hok,hm.shut hv.orderly hv.shut⟩

theorem Moves.taken {a : Act c} (h : Moves s a u) (hx : (x,t) ∈ s.taken) : (x,t) ∈ u.taken := by
  cases h with
  | student h =>
    cases h with
    | take => exact List.mem_append_left _ hx
    | _ => exact hx
  | table h => exact h.elsewhere.2.2.1 ▸ hx
  | robot h => exact h.elsewhere.2.2.1 ▸ hx
  | main h => exact h.elsewhere.2.1 ▸ hx

theorem MainMoves.togo (h : MainMoves s u) : u.main.togo ≤ s.main.togo := by
  cases h with
  | jump hj =>
    generalize s.main = pc at hj
    cases hj with
    | @joinStudent x _ =>
      simp only [mainGoto,MainPc.togo]
      omega
    | studentsJoined =>
      simp only [mainGoto,MainPc.togo]
      omega
    | @tablesZeroed again i => cases again <;> exact Nat.zero_le _
    | _ => exact le_rfl
  | endGame hpc =>
    simp only [hpc,mainGoto,MainPc.togo]
    omega
  | lock hl _ =>
    generalize s.main = pc at hl
    cases hl with
    | @table again t =>
      cases again with
      | true => exact le_rfl
      | false => exact Nat.le_succ _
    | robot => exact le_rfl
  | unlock hl =>
    generalize s.main = pc at hl
    cases hl with
    | @table again t =>
      cases again with
      | true => exact le_rfl
      | false =>
        simp only [mainGoto,MainPc.togo]
        omega
    | robot => exact le_rfl
  | @zeroSlots again t hpc =>
    cases again with
    | true => exact Nat.zero_le _
    | false =>
      simp only [hpc,mainGoto,MainPc.togo]
      omega
  | zeroVessels hpc => exact Nat.zero_le _
  | zeroFinal hpc => exact Nat.zero_le _

theorem Moves.togo {a : Act c} (h : Moves s a u) : u.main.togo ≤ s.main.togo := by
  cases h with
  | student h => rw [h.elsewhere.1]
  | table h => rw [h.elsewhere.1]
  | robot h => rw [h.elsewhere.1]
  | main h => exact h.togo

theorem Still.student (hs : s.Still) (x : StudentId c) :
    s.student x = .done ∨ ∃ i, s.student x = .seeking i := by
  have hx := hs (.student x)
  simp only [holding] at hx
  cases hpc : s.student x with
  | done => exact .inl rfl
  | seeking i => exact .inr ⟨i,rfl⟩
  | _ =>
    rw [hpc] at hx
    cases hx

theorem Still.table (hs : s.Still) (h : (s.table t).ready = true) : s.table t = .waitLock := by
  have ht := hs (.table t)
  simp only [holding] at ht
  generalize s.table t = pc at h ht
  cases pc with
  | waitLock => rfl
  | opened | waitCheck | waitUnlock | announcing => cases ht
  | _ => cases h

theorem leads_step {v : State c} {a : Act c} (hs : s.step a = .ok v) (hok : s.inTime a)
    (h : (mess c).Leads inTime v u) : (mess c).Leads inTime s u :=
  .step hok hs h

theorem leads_one {a : Act c} (hs : s.step a = .ok u) (hok : s.inTime a) :
    (mess c).Leads inTime s u :=
  .one hok hs

theorem closes (hfree : s.mutex (.tableMutexes t) = none) (hpc : s.table t = .waitLock)
    (hz : (s.tables t).slotsLeft = 0) :
    ∃ u, (mess c).Leads inTime s u ∧ (u.table t).ready = false := by
  let v := (s.acquire (.tableMutexes t) (.table t)).tableGoto t .waitCheck
  have hv : s.step (.table t 0) = .ok v := by
    simp only [step,tableStep,hpc,lock,if_pos hfree]
    rfl
  have hvt : v.table t = .waitCheck := tableGoto_self _ t _
  have hw : v.step (.table t 0) = .ok (v.tableGoto t .announcing) := by
    simp only [step,tableStep,hvt]
    exact if_pos hz
  have hwt : (v.tableGoto t .announcing).table t = .announcing := tableGoto_self _ t _
  have hu : (v.tableGoto t .announcing).step (.table t 0) =
      .ok (((v.tableGoto t .announcing).serveRound t).tableGoto t .announced) := by
    simp only [step,tableStep,hwt]
  refine ⟨_,leads_step hv ?_ (leads_step hw ?_ (leads_one hu ?_)),?_⟩
  · intro he
    rw [hpc] at he
    cases he
  · intro he
    rw [hvt] at he
    cases he
  · intro he
    rw [hwt] at he
    cases he
  · rw [tableGoto_self]
    rfl

theorem sits (hs : s.Orderly) (h : s.student x = .slotted t) :
    ∃ u, (mess c).Leads inTime s u ∧ u.student x = .done ∧ u.main = s.main := by
  obtain ⟨j,_,hj,_⟩ := (hs.served.roundAccounted t).search x h
  have hv : s.step (.student x) = .ok ((s.record x t j).studentGoto x (.seated t)) := by
    simp only [step,studentStep,h,hj]
  have hu : ((s.record x t j).studentGoto x (.seated t)).step (.student x) =
      .ok ((((s.record x t j).studentGoto x (.seated t)).unlock (.tableMutexes t)).studentGoto x
        .done) := by
    simp only [step,studentStep,studentGoto_self]
  exact ⟨_,leads_step hv trivial (leads_one hu trivial),studentGoto_self _ x _,rfl⟩

theorem visits (hs : s.Orderly) (hfree : s.mutex (.tableMutexes t) = none)
    (hpc : s.student x = .seeking t) :
    ∃ u, (mess c).Leads inTime s u ∧ u.main = s.main ∧ (u.student x = .done ∨
      (u.student x = .seeking (t + 1) ∧ u.mutex = s.mutex ∧ u.tables = s.tables ∧
        ¬ ((s.tables t).readyToServe = true ∧ 0 < (s.tables t).slotsLeft))) := by
  let v := (s.acquire (.tableMutexes t) (.student x)).studentGoto x (.looking t)
  have hv : s.step (.student x) = .ok v := by
    simp only [step,studentStep,hpc,dif_pos t.isLt,lock,Fin.eta,if_pos hfree]
    rfl
  have hvx : v.student x = .looking t := studentGoto_self _ x _
  have hsv := (step_moves hv).orderly hs trivial
  rcases Classical.em ((s.tables t).readyToServe = true ∧ 0 < (s.tables t).slotsLeft) with hr | hr
  · have hw : v.step (.student x) = .ok ((v.takeSlot x t).studentGoto x (.slotted t)) := by
      simp only [step,studentStep,hvx]
      exact if_pos hr
    have hsw := (step_moves hw).orderly hsv trivial
    obtain ⟨u,hu,hd,hmain⟩ := sits hsw (studentGoto_self _ x _)
    exact ⟨u,leads_step hv trivial (leads_step hw trivial hu),hmain,.inl hd⟩
  · have hw : v.step (.student x) = .ok (v.studentGoto x (.passing t)) := by
      simp only [step,studentStep,hvx]
      exact if_neg hr
    have hu : (v.studentGoto x (.passing t)).step (.student x) =
        .ok (((v.studentGoto x (.passing t)).unlock (.tableMutexes t)).studentGoto x
          (.seeking (t + 1))) := by
      simp only [step,studentStep,studentGoto_self]
    refine ⟨_,leads_step hv trivial (leads_step hw trivial (leads_one hu trivial)),rfl,
      .inr ⟨studentGoto_self _ x _,?_,rfl,hr⟩⟩
    change Function.update (Function.update s.mutex (.tableMutexes t) _) (.tableMutexes t) none = _
    rw [Function.update_idem,← hfree,Function.update_eq_self]

def seatsAway (t : TableId c) (x : StudentId c) (s : State c) : Nat :=
  match s.student x with
  | .seeking i => seats c.tableCount t i
  | _ => 0

theorem seat (hs : s.Tidy) (hstill : s.Still) (hr : (s.tables t).readyToServe = true)
    (hpos : 0 < (s.tables t).slotsLeft) (x : StudentId c) :
    ∃ u, (mess c).Leads inTime s u ∧ u.student x = .done ∧ u.main = s.main := by
  let I : State c → Prop := fun v => v.Tidy ∧ (∀ m, v.mutex m = none) ∧ v.main = s.main ∧
    v.tables = s.tables ∧ ∃ i, v.student x = .seeking i
  rcases hstill.student x with hd | hi
  · exact ⟨s,.refl s,hd,rfl⟩
  · refine System.Leads.until I _ (seatsAway t x) ?_
      ⟨hs,hs.orderly.exactly.free hstill,rfl,rfl,hi⟩
    rintro v ⟨hv,hfree,hmain,htables,i,hpc⟩
    rcases lt_or_ge i c.tableCount with hlt | hge
    · obtain ⟨u,hu,hum,hd | ⟨hnext,humu,hut,hnot⟩⟩ :=
        visits (t := ⟨i,hlt⟩) hv.orderly (hfree _) hpc
      · exact ⟨u,hu,.inl ⟨hd,hum.trans hmain⟩⟩
      · refine ⟨u,hu,.inr ⟨⟨hv.leads hu,?_,hum.trans hmain,hut.trans htables,_,hnext⟩,?_⟩⟩
        · rw [humu]
          exact hfree
        · have hne : i ≠ t.val := by
            rintro rfl
            rw [htables] at hnot
            exact hnot ⟨hr,hpos⟩
          have ht := t.isLt
          simp only [seatsAway,hnext,hpc,seats]
          split
          · split <;> omega
          · split <;> omega
    · have hu : v.step (.student x) = .ok (v.studentGoto x (.seeking 0)) := by
        simp only [step,studentStep,hpc,dif_neg (not_lt.mpr hge)]
      have hlead : (mess c).Leads inTime v (v.studentGoto x (.seeking 0)) := leads_one hu trivial
      refine ⟨_,hlead,.inr ⟨⟨hv.leads hlead,hfree,hmain,htables,_,studentGoto_self _ x _⟩,?_⟩⟩
      have ht := t.isLt
      simp only [seatsAway,studentGoto_self,hpc,seats]
      split
      · split <;> omega
      · split <;> omega

theorem Tidy.advance (hs : s.Tidy) {v : State c} (hv : s.step .main = .ok v)
    (hok : s.inTime .main) (hlt : v.main.togo < s.main.togo) :
    ∃ u, (mess c).Leads inTime s u ∧ (u.Tidy ∧ u.Still) ∧ u.main.togo < s.main.togo := by
  have hlead : (mess c).Leads inTime s v := leads_one hv hok
  obtain ⟨u,hu,_,hstill⟩ := (hs.leads hlead).orderly.quiesce
  have hle : u.main.togo ≤ v.main.togo := by
    apply hu.preserves (fun w => w.main.togo ≤ v.main.togo) le_rfl
    exact fun _ _ _ hw _ ht => (step_moves ht).togo.trans hw
  have hall := hlead.trans hu
  exact ⟨u,hall,⟨hs.leads hall,hstill⟩,hle.trans_lt hlt⟩

theorem Tidy.joins (hs : s.Tidy) (hstill : s.Still) (hr : (s.tables t).readyToServe = true)
    (hpos : 0 < (s.tables t).slotsLeft) {i : Nat} (hpc : s.main = .joinStudents i) :
    ∃ u, (mess c).Leads inTime s u ∧ (u.Tidy ∧ u.Still) ∧ u.main.togo < s.main.togo := by
  rcases lt_or_ge i c.studentCount with hi | hi
  · obtain ⟨v,hv,hd,hmain⟩ := seat hs hstill hr hpos ⟨i,hi⟩
    have hvpc := hmain.trans hpc
    have hw : v.step .main = .ok (v.mainGoto (.joinStudents (i + 1))) := by
      simp only [step,mainStep,hvpc,dif_pos hi,if_pos hd]
    have hok : v.inTime .main := fun he => by
      rw [hvpc] at he
      cases he
    have hlt : (v.mainGoto (.joinStudents (i + 1))).main.togo < v.main.togo := by
      simp only [mainGoto,hvpc,MainPc.togo]
      omega
    obtain ⟨u,hu,hsu,htogo⟩ := (hs.leads hv).advance hw hok hlt
    exact ⟨u,hv.trans hu,hsu,hmain ▸ htogo⟩
  · have hw : s.step .main = .ok (s.mainGoto .endGame) := by
      simp only [step,mainStep,hpc,dif_neg (not_lt.mpr hi)]
    have hok : s.inTime .main := fun he => by
      rw [hpc] at he
      cases he
    apply hs.advance hw hok
    simp only [mainGoto,hpc,MainPc.togo]
    omega

theorem Tidy.ends (hs : s.Tidy) (hstill : s.Still) (hpc : s.main = .endGame) :
    ∃ u, (mess c).Leads inTime s u ∧ (u.Tidy ∧ u.Still) ∧ u.main.togo < s.main.togo := by
  have hw : s.step .main = .ok ({ s with gameOver := true }.mainGoto (.tableLock false 0)) := by
    simp only [step,mainStep,hpc]
  apply hs.advance hw
  · intro _ t he
    have ht := hstill (.table t)
    simp only [holding,he] at ht
    cases ht
  · simp only [mainGoto,hpc,MainPc.togo]
    omega

theorem Tidy.locks (hs : s.Tidy) (hstill : s.Still) {i : Nat} (hi : i < c.tableCount)
    (hpc : s.main = .tableLock false i) :
    ∃ u, (mess c).Leads inTime s u ∧ (u.Tidy ∧ u.Still) ∧ u.main.togo < s.main.togo := by
  have hfree := hs.orderly.exactly.free hstill (.tableMutexes ⟨i,hi⟩)
  have hw : s.step .main =
      .ok ((s.acquire (.tableMutexes ⟨i,hi⟩) .main).mainGoto (.tableZero false ⟨i,hi⟩)) := by
    simp only [step,mainStep,hpc,dif_pos hi,lock,if_pos hfree]
    rfl
  have hok : s.inTime .main := fun he => by
    rw [hpc] at he
    cases he
  apply hs.advance hw hok
  simp only [mainGoto,hpc,MainPc.togo]
  omega

theorem Tidy.proceeds (hs : s.Tidy) (hstill : s.Still) (hr : (s.tables t).readyToServe = true)
    (hpos : 0 < (s.tables t).slotsLeft) :
    ∃ u, (mess c).Leads inTime s u ∧ (u.Tidy ∧ u.Still) ∧ u.main.togo < s.main.togo := by
  have hnot : s.main.zeroed t = false := by
    cases hz : s.main.zeroed t with
    | false => rfl
    | true =>
      have hslots := (hs.shut.zeroed t hz).1
      omega
  have hmain := hstill .main
  simp only [holding] at hmain
  cases hpc : s.main with
  | joinStudents i => exact hpc ▸ hs.joins hstill hr hpos hpc
  | endGame => exact hpc ▸ hs.ends hstill hpc
  | tableLock again i =>
    rw [hpc] at hnot
    obtain ⟨rfl,hle⟩ := Bool.or_eq_false_iff.mp hnot
    have hi : i ≤ t.val := not_lt.mp (of_decide_eq_false hle)
    exact hpc ▸ hs.locks hstill (hi.trans_lt t.isLt) hpc
  | tableZero again t' | tableUnlock again t' =>
    rw [hpc] at hmain
    cases hmain
  | _ =>
    rw [hpc] at hnot
    cases hnot

theorem Tidy.closes (hs : s.Tidy) (hstill : s.Still) (t : TableId c) :
    ∃ u, (mess c).Leads inTime s u ∧ (u.table t).ready = false := by
  refine System.Leads.until (fun v => v.Tidy ∧ v.Still) _ (fun v => v.main.togo) ?_ ⟨hs,hstill⟩
  rintro v ⟨hv,hvs⟩
  cases hready : (v.table t).ready with
  | false => exact ⟨v,.refl v,.inl hready⟩
  | true =>
    have hserved := hv.orderly.served
    have hr : (v.tables t).readyToServe = true := (hserved.informed.ready t).trans hready
    rcases eq_or_lt_of_le (hserved.roundAccounted t).withinOffer.1 with hz | hpos
    · obtain ⟨u,hu,hclosed⟩ :=
        State.closes (hv.orderly.exactly.free hvs _) (hvs.table hready) hz.symm
      exact ⟨u,hu,.inl hclosed⟩
    · obtain ⟨u,hu,hsu,hlt⟩ := hv.proceeds hvs hr hpos
      exact ⟨u,hu,.inr ⟨hsu,hlt⟩⟩

theorem Tidy.announces (hs : s.Tidy) : s.Announces := by
  intro x t hx
  obtain ⟨v,hv,_,hstill⟩ := hs.orderly.quiesce
  obtain ⟨u,hu,hclosed⟩ := (hs.leads hv).closes hstill t
  have hlead := hv.trans hu
  have hserved := (hs.leads hlead).orderly.served
  have hux : (x,t) ∈ u.taken :=
    hlead.preserves (fun w => (x,t) ∈ w.taken) hx fun _ _ _ hw _ ht => (step_moves ht).taken hw
  refine ⟨u,hlead,hserved.announced_once hux (hserved.not_waiting ?_)⟩
  rw [hserved.informed.ready t]
  exact hclosed

def TablePolls (pc : TablePc c) : Prop := pc = .waitLock ∨ pc = .waitCheck ∨ pc = .waitUnlock

structure Stuck (s : State c) (t t' : TableId c) : Prop where
  owns : s.Owns
  main : s.main = .tableLock false t
  held : s.mutex (.tableMutexes t) = some (.table t)
  left : s.table t = .left
  students : ∀ x, s.student x = .done
  polls : TablePolls (s.table t')
  slots : 0 < (s.tables t').slotsLeft

theorem MainMoves.not_stuck (h : MainMoves s u) (hpc : s.main = .tableLock false t) :
    s.mutex (.tableMutexes t) = none := by
  cases h with
  | lock hl hfree =>
    rw [hpc] at hl
    generalize hi : t.val = i at hl
    cases hl with
    | table =>
      rw [Fin.ext hi]
      exact hfree
  | jump hj =>
    rw [hpc] at hj
    cases hj with
    | tablesZeroed hle => exact absurd t.isLt (not_lt.mpr hle)
  | unlock hl =>
    rw [hpc] at hl
    cases hl
  | endGame hpc' =>
    rw [hpc] at hpc'
    cases hpc'
  | zeroSlots hpc' =>
    rw [hpc] at hpc'
    cases hpc'
  | zeroVessels hpc' =>
    rw [hpc] at hpc'
    cases hpc'
  | zeroFinal hpc' =>
    rw [hpc] at hpc'
    cases hpc'

theorem TableMoves.polls (h : TableMoves s t u) (hpc : TablePolls (s.table t))
    (hpos : 0 < (s.tables t).slotsLeft) :
    TablePolls (u.table t) ∧ u.tables = s.tables ∧ u.served = s.served := by
  have hgoto : ∀ {v : State c} {pc : TablePc c}, v.tables = s.tables → v.served = s.served →
      TablePolls pc → TablePolls ((v.tableGoto t pc).table t) ∧
        (v.tableGoto t pc).tables = s.tables ∧ (v.tableGoto t pc).served = s.served := by
    intro v pc htables hserved hp
    rw [tableGoto_self]
    exact ⟨hp,htables,hserved⟩
  unfold TablePolls at hpc
  cases h with
  | jump hj =>
    refine hgoto rfl rfl ?_
    generalize s.table t = pc at hj hpc
    cases hj with
    | wait => exact .inr (.inr rfl)
    | full hz => omega
    | _ => simp at hpc
  | lock hl _ =>
    refine hgoto rfl rfl ?_
    generalize s.table t = pc at hl hpc
    cases hl with
    | poll => exact .inr (.inl rfl)
    | _ => simp at hpc
  | unlock hl =>
    refine hgoto rfl rfl ?_
    generalize s.table t = pc at hl hpc
    cases hl with
    | poll => exact .inl rfl
    | _ => simp at hpc
  | reset hpc' | takeVessel hpc' | fill hpc' | openRound hpc' | serveRound hpc' =>
    simp [hpc'] at hpc

theorem TableMoves.served_count {t' : TableId c} (h : TableMoves s t u) (hne : t' ≠ t) (i : Int) :
    u.served.count (t',i) = s.served.count (t',i) := by
  cases h with
  | serveRound =>
    change (s.served ++ (announce (s.tables t).studentsEatingHere).map (Prod.mk t)).count (t',i) = _
    rw [List.count_append]
    refine Nat.add_eq_left.mpr (List.count_eq_zero.mpr fun hm => ?_)
    obtain ⟨_,_,he⟩ := List.mem_map.mp hm
    exact hne (congrArg Prod.fst he).symm
  | _ => rfl

theorem RobotMoves.served_eq (h : RobotMoves s r u) : u.served = s.served := by
  cases h <;> rfl

theorem TableMoves.keeps {t' : TableId c} (h : TableMoves s t' u) (ho : s.Owns)
    (hheld : s.mutex (.tableMutexes t) = some (.table t)) (hne : t' ≠ t) :
    u.mutex (.tableMutexes t) = some (.table t) := by
  rcases h.handles with hh | ⟨_,_,rfl⟩
  · refine hh.frame ?_ hheld
    intro hm
    have he := (ho.holds hm).symm.trans hheld
    cases he
    exact hne rfl
  · exact hheld

theorem RobotMoves.keeps (h : RobotMoves s r u) (ho : s.Owns)
    (hheld : s.mutex (.tableMutexes t) = some (.table t)) :
    u.mutex (.tableMutexes t) = some (.table t) := by
  refine (h.handles ho).frame ?_ hheld
  intro hm
  have he := (ho.holds hm).symm.trans hheld
  cases he

theorem Stuck.step {a : Act c} {t' : TableId c} (hs : s.Stuck t t') (h : Moves s a u) :
    u.Stuck t t' ∧ ∀ i, u.served.count (t',i) = s.served.count (t',i) := by
  have howns := h.owns hs.owns
  cases h with
  | @student x _ h => exact absurd (hs.students x) h.not_done
  | main h =>
    have hnone := h.not_stuck hs.main
    rw [hs.held] at hnone
    cases hnone
  | robot h =>
    obtain ⟨hmain,hst,_,htable⟩ := h.elsewhere
    obtain ⟨_,htables⟩ := h.same
    refine ⟨⟨howns,?_,h.keeps hs.owns hs.held,?_,?_,?_,?_⟩,fun i => by rw [h.served_eq]⟩
    · exact hmain.trans hs.main
    · exact htable ▸ hs.left
    · exact hst ▸ hs.students
    · exact htable ▸ hs.polls
    · exact htables ▸ hs.slots
  | @table k rand _ h =>
    obtain ⟨hmain,hst,_,htable⟩ := h.elsewhere
    have hkt : k ≠ t := fun he => h.not_left (he ▸ hs.left)
    have hheld := h.keeps hs.owns hs.held hkt
    have hleft := (htable t hkt.symm).trans hs.left
    rcases eq_or_ne t' k with rfl | hne
    · obtain ⟨hpolls,htables,hserved⟩ := h.polls hs.polls hs.slots
      refine ⟨⟨howns,hmain.trans hs.main,hheld,hleft,hst ▸ hs.students,hpolls,?_⟩,?_⟩
      · exact htables ▸ hs.slots
      · exact fun i => by rw [hserved]
    · refine ⟨⟨howns,hmain.trans hs.main,hheld,hleft,hst ▸ hs.students,?_,?_⟩,
        h.served_count hne⟩
      · exact (htable t' hne) ▸ hs.polls
      · rcases h.slots t' with he | ⟨he,_⟩
        · exact he ▸ hs.slots
        · exact absurd he hne

theorem Stuck.leads {ok : State c → Act c → Prop} {t' : TableId c} (hs : s.Stuck t t')
    (h : (mess c).Leads ok s u) (i : Int) : u.served.count (t',i) = s.served.count (t',i) := by
  have hI : u.Stuck t t' ∧ u.served.count (t',i) = s.served.count (t',i) := by
    apply h.preserves (fun v => v.Stuck t t' ∧ v.served.count (t',i) = s.served.count (t',i))
      ⟨hs,rfl⟩
    rintro v a w ⟨hv,he⟩ _ hw
    obtain ⟨hw,hserved⟩ := hv.step (step_moves hw)
    exact ⟨hw,(hserved i).trans he⟩
  exact hI.2

end State

theorem students_announced_once :
    (∀ s : State c, (mess c).Reachable s → s.Accounts) ∧
      ∀ s : State c, (mess c).Reach State.inTime s → s.Announces :=
  ⟨fun _ h => accounts_of_reach h,fun _ h => (State.tidy_of_reach h).announces⟩

def twoTables : Config := ⟨1,1,2⟩

def firstTable : TableId twoTables := (⟨0,Nat.two_pos⟩ : Fin 2)

def secondTable : TableId twoTables := (⟨1,Nat.one_lt_two⟩ : Fin 2)

def soleStudent : StudentId twoTables := (⟨0,Nat.one_pos⟩ : Fin 1)

def seatedRun : List (Act twoTables) :=
  List.replicate 5 (.robot (⟨0,Nat.one_pos⟩ : Fin 1) 1 0) ++
    List.replicate 13 (.table firstTable 0) ++ List.replicate 17 (.table secondTable 1) ++
    List.replicate 7 (.student soleStudent)

def unannouncedRun : List (Act twoTables) :=
  seatedRun ++ [.table firstTable 0] ++ List.replicate 3 .main ++
    List.replicate 3 (.table firstTable 0)

theorem students_announced_once_seated :
    (mess twoTables).Reach State.inTime ((mess twoTables).after seatedRun) ∧
      ((mess twoTables).after seatedRun).served = [] ∧
      ∃ u, (mess twoTables).Leads State.inTime ((mess twoTables).after seatedRun) u ∧
        u.served.count (secondTable,State.ident soleStudent) = 1 := by
  have hrun : ((mess twoTables).checked State.inTime (mess twoTables).init seatedRun).any
      (fun s => (soleStudent,secondTable) ∈ s.taken ∧ s.served = []) = true := by
    decide +kernel
  obtain ⟨hr,hp⟩ := System.reach_checked hrun
  obtain ⟨htaken,hserved⟩ := of_decide_eq_true hp
  exact ⟨hr,hserved,students_announced_once.2 _ hr _ _ htaken⟩

theorem students_unannounced :
    (mess twoTables).Reachable ((mess twoTables).after unannouncedRun) ∧
      (soleStudent,secondTable) ∈ ((mess twoTables).after unannouncedRun).taken ∧
      ∀ u, (mess twoTables).Leads (fun _ _ => True) ((mess twoTables).after unannouncedRun) u →
        u.served.count (secondTable,State.ident soleStudent) = 0 := by
  have hrun : ((mess twoTables).checked (fun _ _ => True) (mess twoTables).init unannouncedRun).any
      (fun s => (s.main = .tableLock false 0 ∧
          s.mutex (.tableMutexes firstTable) = some (.table firstTable) ∧
          s.table firstTable = .left ∧ (∀ x, s.student x = .done) ∧
          s.table secondTable = .waitLock ∧ 0 < (s.tables secondTable).slotsLeft) ∧
        (soleStudent,secondTable) ∈ s.taken ∧ s.served = []) = true := by
    decide +kernel
  obtain ⟨hr,hp⟩ := System.reach_checked hrun
  obtain ⟨⟨hmain,hheld,hleft,hdone,hpolls,hpos⟩,htaken,hserved⟩ := of_decide_eq_true hp
  have hstuck : ((mess twoTables).after unannouncedRun).Stuck firstTable secondTable :=
    ⟨(State.served_of_reach hr).owns,hmain,hheld,hleft,hdone,.inl hpolls,hpos⟩
  refine ⟨hr,htaken,?_⟩
  intro u hu
  rw [hstuck.leads hu,hserved]
  rfl

end Biryani
