import Mathlib.Tactic
import OscAssignments.Biryani.Holders
import OscAssignments.Biryani.Rounds

namespace Biryani
open Runs Mutexes

variable {c : Config}

def TablePc.ready : TablePc c → Bool
  | .opened => true
  | .waitLock => true
  | .waitCheck => true
  | .waitUnlock => true
  | .announcing => true
  | _ => false

def TablePc.Knows (tb : Table) : TablePc c → Prop
  | .unlockPeek x => x = tb.biryaniAmountRemaining
  | .enter => 0 < tb.biryaniAmountRemaining
  | .entered => 0 < tb.biryaniAmountRemaining
  | .opening => 0 < tb.biryaniAmountRemaining
  | .announcing => tb.slotsLeft = 0
  | _ => True

theorem TablePc.Knows.change {pc : TablePc c} {tb tb' : Table} (h : pc.Knows tb)
    (hb : tb'.biryaniAmountRemaining = tb.biryaniAmountRemaining)
    (hs : pc = .announcing → tb'.slotsLeft = 0) : pc.Knows tb' := by
  cases pc with
  | unlockPeek x => exact h.trans hb.symm
  | enter => exact lt_of_lt_of_eq h hb.symm
  | entered => exact lt_of_lt_of_eq h hb.symm
  | opening => exact lt_of_lt_of_eq h hb.symm
  | announcing => exact hs rfl
  | _ => trivial

namespace State
variable {s u : State c} {x : StudentId c} {t : TableId c} {r : RobotId c}

def ident (x : StudentId c) : Int := (x : Int)

theorem ident_injective : Function.Injective (ident : StudentId c → Int) := by
  intro x y h
  exact Fin.ext (Int.ofNat.inj h)

theorem ident_ne (x : StudentId c) : ident x ≠ -1 := by
  unfold ident
  omega

structure Informed (s : State c) : Prop where
  ready : ∀ t, (s.tables t).readyToServe = (s.table t).ready
  knows : ∀ t, (s.table t).Knows (s.tables t)

theorem informed_init : (init c).Informed := ⟨fun _ => rfl,fun _ => trivial⟩

theorem Informed.of_table (hs : s.Informed) (hpc : ∀ t', t' ≠ t → u.table t' = s.table t')
    (htb : ∀ t', t' ≠ t → u.tables t' = s.tables t')
    (hr : (u.tables t).readyToServe = (u.table t).ready) (hk : (u.table t).Knows (u.tables t)) :
    u.Informed := by
  constructor
  · intro t'
    rcases eq_or_ne t' t with rfl | hne
    · exact hr
    · rw [hpc t' hne,htb t' hne]
      exact hs.ready t'
  · intro t'
    rcases eq_or_ne t' t with rfl | hne
    · exact hk
    · rw [hpc t' hne,htb t' hne]
      exact hs.knows t'

theorem setTable_self (s : State c) (t : TableId c) (tb : Table) : (s.setTable t tb).tables t = tb := by
  simp [setTable]

theorem setTable_of_ne {t' : TableId c} (s : State c) (tb : Table) (h : t' ≠ t) :
    (s.setTable t tb).tables t' = s.tables t' := by
  simp [setTable,h]

theorem tableGoto_of_ne {t' : TableId c} (s : State c) (pc : TablePc c) (h : t' ≠ t) :
    (s.tableGoto t pc).table t' = s.table t' := by
  simp [tableGoto,h]

theorem Owns.not_announcing (ho : s.Owns) {p : Thread c} (hp : p ≠ .table t)
    (hm : .tableMutexes t ∈ s.holding p) : s.table t ≠ .announcing := by
  intro ha
  apply hp
  apply ho.unique hm
  simp only [holding,ha]
  exact List.mem_cons_self

theorem Informed.of_setTable (hs : s.Informed) {tb : Table} (hpc : u.table = s.table)
    (htb : u.tables = (s.setTable t tb).tables)
    (hr : tb.readyToServe = (s.tables t).readyToServe)
    (hb : tb.biryaniAmountRemaining = (s.tables t).biryaniAmountRemaining)
    (hna : s.table t ≠ .announcing) : u.Informed := by
  have htb' : u.tables t = tb := (congrFun htb t).trans (setTable_self s t tb)
  apply hs.of_table (t := t)
  · exact fun t' _ => congrFun hpc t'
  · exact fun t' hne => (congrFun htb t').trans (setTable_of_ne s tb hne)
  · rw [htb',hpc,hr]
    exact hs.ready t
  · rw [htb',hpc]
    exact (hs.knows t).change hb fun ha => absurd ha hna

theorem StudentMoves.informed (h : StudentMoves s x u) (ho : s.Owns) (hs : s.Informed) :
    u.Informed := by
  have hna : ∀ t, .tableMutexes t ∈ (s.student x).holding → s.table t ≠ .announcing :=
    fun t hm => ho.not_announcing (p := .student x) nofun hm
  cases h with
  | lock => exact ⟨hs.ready,hs.knows⟩
  | wrap => exact ⟨hs.ready,hs.knows⟩
  | take hpc =>
    rw [hpc] at hna
    exact hs.of_setTable rfl rfl rfl rfl (hna _ List.mem_cons_self)
  | pass => exact ⟨hs.ready,hs.knows⟩
  | leave => exact ⟨hs.ready,hs.knows⟩
  | sit hpc =>
    rw [hpc] at hna
    exact hs.of_setTable rfl rfl rfl rfl (hna _ List.mem_cons_self)
  | finish => exact ⟨hs.ready,hs.knows⟩

theorem TableJump.informed {pc pc' : TablePc c} (h : TableJump s t pc pc')
    (hk : pc.Knows (s.tables t)) : pc'.ready = pc.ready ∧ pc'.Knows (s.tables t) := by
  cases h with
  | @proceed flag =>
    cases flag with
    | true => exact ⟨rfl,trivial⟩
    | false => exact ⟨rfl,trivial⟩
  | peek => exact ⟨rfl,rfl⟩
  | allow => exact ⟨rfl,hk⟩
  | full hz => exact ⟨rfl,hz⟩
  | quitScan => exact ⟨rfl,trivial⟩
  | tryRobot => exact ⟨rfl,trivial⟩
  | noRobot => exact ⟨rfl,trivial⟩
  | emptyRobot => exact ⟨rfl,trivial⟩
  | quit => exact ⟨rfl,trivial⟩
  | close => exact ⟨rfl,trivial⟩
  | look => exact ⟨rfl,trivial⟩
  | refuse => exact ⟨rfl,trivial⟩
  | wait => exact ⟨rfl,trivial⟩
  | leave => exact ⟨rfl,trivial⟩
  | resume => exact ⟨rfl,trivial⟩

theorem TableLock.informed {pc pc' : TablePc c} {m : Mutex c} (h : TableLock t pc m pc')
    (hk : pc.Knows (s.tables t)) : pc'.ready = pc.ready ∧ pc'.Knows (s.tables t) := by
  cases h with
  | robot => exact ⟨rfl,trivial⟩
  | refill => exact ⟨rfl,trivial⟩
  | peek => exact ⟨rfl,trivial⟩
  | enter => exact ⟨rfl,hk⟩
  | poll => exact ⟨rfl,trivial⟩

theorem TableUnlock.informed {pc pc' : TablePc c} {m : Mutex c} (h : TableUnlock t pc m pc')
    (hk : pc.Knows (s.tables t)) : pc'.ready = pc.ready ∧ pc'.Knows (s.tables t) := by
  cases h with
  | @robot r flag =>
    cases flag with
    | true => exact ⟨rfl,trivial⟩
    | false => exact ⟨rfl,trivial⟩
  | @peek y =>
    rcases lt_or_ge 0 y with hy | hy
    · rw [if_pos hy]
      exact ⟨rfl,lt_of_lt_of_eq hy hk⟩
    · rw [if_neg (not_lt.mpr hy)]
      exact ⟨rfl,trivial⟩
  | refill => exact ⟨rfl,trivial⟩
  | ready => exact ⟨rfl,trivial⟩
  | poll => exact ⟨rfl,trivial⟩
  | finish => exact ⟨rfl,trivial⟩

theorem Informed.goto (hs : s.Informed) {pc : TablePc c} (hu : u.table = s.table)
    (htb : u.tables = s.tables)
    (h : pc.ready = (s.table t).ready ∧ pc.Knows (s.tables t)) : (u.tableGoto t pc).Informed := by
  apply hs.of_table (t := t)
  · intro t' hne
    rw [tableGoto_of_ne u pc hne,hu]
  · exact fun t' _ => congrFun htb t'
  · rw [tableGoto_self,h.1]
    exact (congrArg Table.readyToServe (congrFun htb t)).trans (hs.ready t)
  · rw [tableGoto_self]
    exact (congrFun htb t).symm ▸ h.2

theorem TableMoves.informed (h : TableMoves s t u) (hs : s.Informed) : u.Informed := by
  have hset : ∀ (s' : State c) (tb : Table) (pc : TablePc c), s'.table = s.table →
      s'.tables = (s.setTable t tb).tables → tb.readyToServe = pc.ready → pc.Knows tb →
      (s'.tableGoto t pc).Informed := by
    intro s' tb pc hpc htb hr hk
    have htb' : (s'.tableGoto t pc).tables t = tb := (congrFun htb t).trans (setTable_self s t tb)
    apply hs.of_table (t := t)
    · intro t' hne
      rw [tableGoto_of_ne s' pc hne,hpc]
    · exact fun t' hne => (congrFun htb t').trans (setTable_of_ne s tb hne)
    · rw [htb',tableGoto_self,hr]
    · rw [htb',tableGoto_self]
      exact hk
  have hready := hs.ready t
  cases h with
  | reset hpc =>
    rw [hpc] at hready
    exact hset _ _ _ rfl rfl hready trivial
  | jump hj => exact hs.goto rfl rfl (hj.informed (hs.knows t))
  | lock hl _ => exact hs.goto rfl rfl (TableLock.informed hl (hs.knows t))
  | unlock hl => exact hs.goto rfl rfl (TableUnlock.informed hl (hs.knows t))
  | @takeVessel r hpc _ =>
    refine hs.goto (u := s.takeVessel t r) rfl rfl ?_
    rw [hpc]
    exact ⟨rfl,trivial⟩
  | fill hpc =>
    rw [hpc] at hready
    exact hset _ _ _ rfl rfl hready trivial
  | openRound hpc => exact hset _ _ _ rfl rfl rfl trivial
  | serveRound hpc => exact hset _ _ _ rfl rfl rfl trivial

theorem RobotMoves.informed (h : RobotMoves s r u) (hs : s.Informed) : u.Informed := by
  cases h <;> exact ⟨hs.ready,hs.knows⟩

theorem zeroSlots_tables (s : State c) (t : TableId c) : (s.zeroSlots t).tables =
    (s.setTable t { s.tables t with slotsLeft := min 0 (s.tables t).slotsLeft }).tables := by
  unfold zeroSlots
  split
  case isTrue hpos => rw [min_eq_left hpos.le]
  case isFalse hpos =>
    rw [min_eq_right (not_lt.mp hpos)]
    exact (Function.update_eq_self t s.tables).symm

theorem MainMoves.informed (h : MainMoves s u) (ho : s.Owns) (hs : s.Informed) : u.Informed := by
  cases h with
  | jump => exact ⟨hs.ready,hs.knows⟩
  | endGame => exact ⟨hs.ready,hs.knows⟩
  | lock => exact ⟨hs.ready,hs.knows⟩
  | unlock => exact ⟨hs.ready,hs.knows⟩
  | @zeroSlots again t hpc =>
    have htable : (s.zeroSlots t).table = s.table := by rw [zeroSlots_eq]
    have hna := ho.not_announcing (p := .main) (t := t) nofun (by
      simp only [holding,hpc]
      exact List.mem_cons_self)
    exact hs.of_setTable htable (zeroSlots_tables s t) rfl rfl hna
  | zeroVessels =>
    rw [zeroVessels_eq]
    exact ⟨hs.ready,hs.knows⟩
  | zeroFinal =>
    rw [zeroVessels_eq]
    exact ⟨hs.ready,hs.knows⟩

theorem Moves.informed {a : Act c} (h : Moves s a u) (ho : s.Owns) (hs : s.Informed) :
    u.Informed := by
  cases h with
  | student h => exact h.informed ho hs
  | table h => exact h.informed hs
  | robot h => exact h.informed hs
  | main h => exact h.informed ho hs

def round (s : State c) (t : TableId c) : Round (StudentId c) where
  ready := (s.tables t).readyToServe
  slots := (s.tables t).slotsLeft
  cells := (s.tables t).studentsEatingHere
  offered := s.offered t
  recorded := s.recorded t
  pending := fun x => s.student x = .slotted t
  given := fun x => s.taken.count (x,t)
  announced := fun x => s.served.count (t,ident x)

theorem round_init (t : TableId c) : ((init c).round t).Ok ident where
  nonneg := le_refl 0
  closed := fun _ => ⟨rfl,fun _ => rfl⟩
  fits := le_refl 0
  room := nofun
  bound := Int.zero_le_ofNat 10
  opened := nofun
  lined := nofun
  ledger := fun _ => rfl

theorem pending_studentGoto (s : State c) (x y : StudentId c) (pc : StudentPc c) (t : TableId c) :
    ((s.studentGoto x pc).round t).pending y =
      if y = x then decide (pc = .slotted t) else (s.round t).pending y := by
  rcases eq_or_ne y x with rfl | hne
  · simp [round]
  · simp [round,studentGoto,hne]

theorem round_studentGoto {pc : StudentPc c} (h : s.student x ≠ .slotted t)
    (hpc : pc ≠ .slotted t) : (s.studentGoto x pc).round t = s.round t := by
  apply Round.ext
  · rfl
  · rfl
  · rfl
  · rfl
  · rfl
  · funext y
    rw [pending_studentGoto]
    rcases eq_or_ne y x with rfl | hne
    · rw [if_pos rfl]
      simp [round,h,hpc]
    · rw [if_neg hne]
  · rfl
  · rfl

theorem Owns.slotted_unique (ho : s.Owns) {y : StudentId c} (hx : .tableMutexes t ∈ (s.student x).holding)
    (hy : s.student y = .slotted t) : y = x := by
  have he : Thread.student y = Thread.student x := by
    apply ho.unique (m := .tableMutexes t)
    · simp only [holding,hy]
      exact List.mem_cons_self
    · exact hx
  cases he
  rfl

theorem round_take (hpc : s.student x = .looking t) (ho : s.Owns) :
    (∀ y, (s.round t).pending y = false) ∧
      ((s.takeSlot x t).studentGoto x (.slotted t)).round t = { s.round t with
        slots := (s.round t).slots - 1
        pending := fun y => y = x
        given := fun y => (s.round t).given y + (decide (y = x)).toNat } := by
  have hnone : ∀ y, (s.round t).pending y = false := by
    intro y
    apply decide_eq_false
    intro hy
    have hyx := ho.slotted_unique (by rw [hpc]; exact List.mem_cons_self) hy
    rw [hyx,hpc] at hy
    cases hy
  refine ⟨hnone,?_⟩
  have htb : ((s.takeSlot x t).studentGoto x (.slotted t)).tables t =
      { s.tables t with slotsLeft := (s.tables t).slotsLeft - 1 } := setTable_self s t _
  apply Round.ext
  · exact (congrArg Table.readyToServe htb :)
  · exact (congrArg Table.slotsLeft htb :)
  · exact (congrArg Table.studentsEatingHere htb :)
  · rfl
  · rfl
  · funext y
    rw [pending_studentGoto]
    rcases eq_or_ne y x with rfl | hne
    · simp
    · rw [if_neg hne]
      exact (hnone y).trans (decide_eq_false hne).symm
  · funext y
    simp only [round,takeSlot,studentGoto,List.count_append,List.count_singleton]
    rcases eq_or_ne y x with rfl | hne
    · simp
    · simp [hne,hne.symm]
  · rfl

theorem round_sit {j : Nat} (hpc : s.student x = .slotted t) (ho : s.Owns) :
    (∀ y, (s.round t).pending y = decide (y = x)) ∧
      ((s.record x t j).studentGoto x (.seated t)).round t = { s.round t with
        cells := Function.update (s.round t).cells j (ident x)
        recorded := (s.round t).recorded ++ [x]
        pending := fun _ => false } := by
  have hmine : ∀ y, (s.round t).pending y = decide (y = x) := by
    intro y
    rcases eq_or_ne y x with rfl | hne
    · simp [round,hpc]
    · rw [decide_eq_false hne]
      apply decide_eq_false
      intro hy
      exact hne (ho.slotted_unique (by rw [hpc]; exact List.mem_cons_self) hy)
  refine ⟨hmine,?_⟩
  have htb : ((s.record x t j).studentGoto x (.seated t)).tables t = { s.tables t with
      studentsEatingHere := Function.update (s.tables t).studentsEatingHere j (ident x) } :=
    setTable_self s t _
  apply Round.ext
  · exact (congrArg Table.readyToServe htb :)
  · exact (congrArg Table.slotsLeft htb :)
  · exact (congrArg Table.studentsEatingHere htb :)
  · rfl
  · simp [round,record,studentGoto]
  · funext y
    rw [pending_studentGoto]
    rcases eq_or_ne y x with rfl | hne
    · simp
    · rw [if_neg hne]
      exact (hmine y).trans (decide_eq_false hne)
  · rfl
  · rfl

theorem round_of_ne {t' : TableId c} {tb : Table} (hne : t' ≠ t)
    (htb : u.tables = (s.setTable t tb).tables) (ho : u.offered t' = s.offered t')
    (hr : u.recorded t' = s.recorded t') (hst : u.student = s.student)
    (hg : ∀ y, u.taken.count (y,t') = s.taken.count (y,t'))
    (ha : ∀ y : StudentId c, u.served.count (t',ident y) = s.served.count (t',ident y)) :
    u.round t' = s.round t' := by
  have htb' : u.tables t' = s.tables t' := (congrFun htb t').trans (setTable_of_ne s tb hne)
  apply Round.ext
  · exact congrArg Table.readyToServe htb'
  · exact congrArg Table.slotsLeft htb'
  · exact congrArg Table.studentsEatingHere htb'
  · exact ho
  · exact hr
  · funext y
    simp only [round,hst]
  · funext y
    exact hg y
  · funext y
    exact ha y

theorem idle_studentGoto {v : State c} {pc : StudentPc c} (hv : v.round t = s.round t)
    (h : v.student x ≠ .slotted t) (hpc : pc ≠ .slotted t) :
    Round.Step ident (s.round t) ((v.studentGoto x pc).round t) := by
  rw [round_studentGoto h hpc,hv]
  exact .idle

theorem StudentMoves.round (h : StudentMoves s x u) (ho : s.Owns) (t' : TableId c) :
    Round.Step ident (s.round t') (u.round t') := by
  cases h with
  | lock hpc _ => exact idle_studentGoto rfl (by simp [acquire,hpc]) (by simp)
  | wrap hpc => exact idle_studentGoto rfl (by simp [hpc]) (by simp)
  | @take t hpc hready hpos =>
    rcases eq_or_ne t' t with rfl | hne
    · obtain ⟨hnone,he⟩ := round_take hpc ho
      rw [he]
      exact .take hready hpos hnone
    · apply idle_studentGoto
      · refine round_of_ne (s := s) (u := s.takeSlot x t) hne rfl rfl rfl rfl ?_ fun _ => rfl
        intro y
        simp [takeSlot,List.count_append,hne.symm]
      · simp [takeSlot,setTable,hpc]
      · simpa using hne.symm
  | pass hpc => exact idle_studentGoto rfl (by simp [hpc]) (by simp)
  | leave hpc => exact idle_studentGoto rfl (by simp [unlock,hpc]) (by simp)
  | @sit t j hpc hj =>
    rcases eq_or_ne t' t with rfl | hne
    · obtain ⟨hmine,he⟩ := round_sit (j := j) hpc ho
      rw [he]
      exact .sit hmine hj
    · apply idle_studentGoto
      · refine round_of_ne (s := s) (u := s.record x t j) hne rfl rfl ?_ rfl (fun _ => rfl)
          fun _ => rfl
        simp [record,hne]
      · simpa [record,setTable,hpc] using hne.symm
      · simp
  | finish hpc => exact idle_studentGoto rfl (by simp [unlock,hpc]) (by simp)

theorem genRandomInRange_mem (rand : Nat) {n : Int} (hn : 0 < n) :
    1 ≤ genRandomInRange rand 1 n ∧ genRandomInRange rand 1 n ≤ n := by
  have h1 := Int.emod_nonneg rand (show n - 1 + 1 ≠ 0 by omega)
  have h2 := Int.emod_lt_of_pos rand (show 0 < n - 1 + 1 by omega)
  unfold genRandomInRange
  omega

theorem round_setRemaining (s : State c) (t t' : TableId c) (n : Int) :
    (s.setTable t { s.tables t with biryaniAmountRemaining := n }).round t' = s.round t' := by
  rcases eq_or_ne t' t with rfl | hne
  · simp only [round,setTable_self]
    rfl
  · simp only [round,setTable_of_ne s _ hne]
    rfl

theorem Owns.no_pending (ho : s.Owns) (hm : .tableMutexes t ∈ (s.table t).holding t)
    (y : StudentId c) : (s.round t).pending y = false := by
  apply decide_eq_false
  intro hy
  have he : Thread.student y = Thread.table t := by
    apply ho.unique (m := .tableMutexes t)
    · simp only [holding,hy]
      exact List.mem_cons_self
    · exact hm
  cases he

theorem round_openRound (s : State c) (t : TableId c) (rand : Nat) :
    (s.openRound t rand).round t = { s.round t with
      ready := true
      slots := genRandomInRange rand 1 (min 10 (s.tables t).biryaniAmountRemaining)
      cells := clear (s.round t).cells
      offered := genRandomInRange rand 1 (min 10 (s.tables t).biryaniAmountRemaining)
      recorded := [] } := by
  have htb := setTable_self s t { s.tables t with
    studentsEatingHere := clear (s.tables t).studentsEatingHere
    slotsLeft := genRandomInRange rand 1 (min 10 (s.tables t).biryaniAmountRemaining)
    readyToServe := true }
  apply Round.ext
  · exact (congrArg Table.readyToServe htb :)
  · exact (congrArg Table.slotsLeft htb :)
  · exact (congrArg Table.studentsEatingHere htb :)
  · exact Function.update_self t _ s.offered
  · exact Function.update_self t _ s.recorded
  · rfl
  · rfl
  · rfl

theorem round_serveRound (s : State c) (t : TableId c) :
    (s.serveRound t).round t = { s.round t with
      ready := false
      cells := clear (s.round t).cells
      announced := fun y =>
        (s.round t).announced y + (announce (s.round t).cells).count (ident y) } := by
  have htb := setTable_self s t { s.tables t with
    readyToServe := false
    studentsEatingHere := clear (s.tables t).studentsEatingHere }
  apply Round.ext
  · exact (congrArg Table.readyToServe htb :)
  · exact (congrArg Table.slotsLeft htb :)
  · exact (congrArg Table.studentsEatingHere htb :)
  · rfl
  · rfl
  · rfl
  · rfl
  · funext y
    simp only [round,serveRound,List.count_append]
    rw [List.count_map_of_injective _ _ (Prod.mk_right_injective t)]

theorem TableMoves.round (h : TableMoves s t u) (ho : s.Owns) (hs : s.Informed) (t' : TableId c) :
    Round.Step ident (s.round t') (u.round t') := by
  have hready := hs.ready t
  have hknows := hs.knows t
  cases h with
  | reset =>
    have he := round_setRemaining s t t' 0
    exact he ▸ .idle
  | jump => exact .idle
  | lock => exact .idle
  | unlock => exact .idle
  | takeVessel => exact .idle
  | @fill r =>
    have he := round_setRemaining s t t'
      ((s.tables t).biryaniAmountRemaining + (s.robots r).vesselSize)
    exact he ▸ .idle
  | @openRound rand hpc =>
    rcases eq_or_ne t' t with rfl | hne
    · rw [hpc] at hready hknows
      have hpos : 0 < min 10 (s.tables t').biryaniAmountRemaining := lt_min (by decide) hknows
      obtain ⟨h1,h2⟩ := genRandomInRange_mem rand hpos
      have he := round_openRound s t' rand
      exact he ▸ .opens hready h1 (h2.trans (min_le_left _ _))
    · have he : (s.openRound t rand).round t' = s.round t' := by
        refine round_of_ne (s := s) (u := s.openRound t rand) hne rfl ?_ ?_ rfl (fun _ => rfl)
          fun _ => rfl
        · simp [State.openRound,hne]
        · simp [State.openRound,hne]
      exact he ▸ .idle
  | serveRound hpc =>
    rcases eq_or_ne t' t with rfl | hne
    · have hnone := ho.no_pending (t := t') (by rw [hpc]; exact List.mem_cons_self)
      rw [hpc] at hready hknows
      have he := round_serveRound s t'
      exact he ▸ .serve hready hknows hnone
    · have he : (s.serveRound t).round t' = s.round t' := by
        refine round_of_ne (s := s) (u := s.serveRound t) hne rfl rfl rfl rfl (fun _ => rfl) ?_
        intro y
        simp [State.serveRound,List.count_append,List.count_eq_zero,hne.symm]
      exact he ▸ .idle

theorem RobotMoves.round (h : RobotMoves s r u) (t : TableId c) :
    Round.Step ident (s.round t) (u.round t) := by
  cases h <;> exact .idle

theorem round_zeroSlots (s : State c) (t t' : TableId c) :
    Round.Step ident (s.round t') ((s.zeroSlots t).round t') := by
  have htb := zeroSlots_tables s t
  rw [zeroSlots_eq,htb]
  rcases eq_or_ne t' t with rfl | hne
  · have he := setTable_self s t' { s.tables t' with slotsLeft := min 0 (s.tables t').slotsLeft }
    have hr : ({ s with tables := (s.setTable t' { s.tables t' with
        slotsLeft := min 0 (s.tables t').slotsLeft }).tables } : State c).round t' =
        { s.round t' with slots := min 0 (s.round t').slots } := by
      apply Round.ext
      · exact (congrArg Table.readyToServe he :)
      · exact (congrArg Table.slotsLeft he :)
      · exact (congrArg Table.studentsEatingHere he :)
      · rfl
      · rfl
      · rfl
      · rfl
      · rfl
    exact hr ▸ .zero
  · have hr : ({ s with tables := (s.setTable t { s.tables t with
        slotsLeft := min 0 (s.tables t).slotsLeft }).tables } : State c).round t' = s.round t' :=
      round_of_ne hne rfl rfl rfl rfl (fun _ => rfl) fun _ => rfl
    exact hr ▸ .idle

theorem MainMoves.round (h : MainMoves s u) (t' : TableId c) :
    Round.Step ident (s.round t') (u.round t') := by
  cases h with
  | jump => exact .idle
  | endGame => exact .idle
  | lock => exact .idle
  | unlock => exact .idle
  | @zeroSlots again t => exact round_zeroSlots s t t'
  | zeroVessels =>
    rw [zeroVessels_eq]
    exact .idle
  | zeroFinal =>
    rw [zeroVessels_eq]
    exact .idle

theorem Moves.round {a : Act c} (h : Moves s a u) (ho : s.Owns) (hs : s.Informed) (t : TableId c) :
    Round.Step ident (s.round t) (u.round t) := by
  cases h with
  | student h => exact h.round ho t
  | table h => exact h.round ho hs t
  | robot h => exact h.round t
  | main h => exact h.round t

end State
end Biryani
