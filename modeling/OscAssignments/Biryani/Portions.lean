import Mathlib.Tactic
import OscAssignments.Biryani.Served

namespace Biryani
open Runs

variable {c : Config}

def RobotPc.unfilled : RobotPc → Bool
  | .cooking => true
  | .cooked _ _ => true
  | .lockFill _ _ => true
  | .fill _ _ => true
  | _ => false

def RobotPc.batch : RobotPc → Option Int
  | .cooked _ size => some size
  | .lockFill _ size => some size
  | .fill _ size => some size
  | _ => none

def TablePc.pouring : TablePc c → Option (RobotId c)
  | .lockTable r => some r
  | .fill r => some r
  | _ => none

namespace State
variable {s u : State c} {x : StudentId c} {t : TableId c} {r : RobotId c}

def vessels (s : State c) (r : RobotId c) : Int := (s.robots r).biryaniVesselsRemaining

structure Vessels (s : State c) : Prop where
  unfilled : ∀ r, (s.robot r).unfilled = true → s.vessels r = 0 ∧ ∀ e ∈ s.loads, e.1 ≠ r
  below : ∀ e ∈ s.loads, s.vessels e.1 < e.2.1
  nodup : (s.loads.map fun e => (e.1,e.2.1)).Nodup

structure Portions (s : State c) : Prop where
  remaining : ∀ t, (s.tables t).biryaniAmountRemaining = s.loaded t
  start : ∀ t, s.table t = .start → s.loaded t = 0
  portion : ∀ t, s.loaded t = 0 ∨ 25 ≤ s.loaded t
  opened : ∀ t, (s.table t).ready = true → 0 < s.loaded t
  fed : ∀ e ∈ s.taken, 0 < s.loaded e.2
  sized : ∀ r, 0 < s.vessels r → 25 ≤ (s.robots r).vesselSize
  batch : ∀ r size, (s.robot r).batch = some size → 25 ≤ size
  pouring : ∀ t r, (s.table t).pouring = some r → 25 ≤ (s.robots r).vesselSize

theorem vessels_init : (init c).Vessels where
  unfilled := fun _ _ => ⟨rfl,nofun⟩
  below := nofun
  nodup := List.nodup_nil

theorem portions_init : (init c).Portions where
  remaining := fun _ => rfl
  start := fun _ _ => rfl
  portion := fun _ => .inl rfl
  opened := nofun
  fed := nofun
  sized := fun _ h => absurd h (lt_irrefl 0)
  batch := nofun
  pouring := nofun

theorem Vessels.lower (hs : s.Vessels) (hv : ∀ r, u.vessels r = s.vessels r ∨ u.vessels r = min 0 (s.vessels r))
    (hl : u.loads = s.loads)
    (hpc : ∀ r, (u.robot r).unfilled = true → (s.robot r).unfilled = true) : u.Vessels := by
  constructor
  · intro r hr
    obtain ⟨hz,hno⟩ := hs.unfilled r (hpc r hr)
    rw [hl]
    refine ⟨?_,hno⟩
    rcases hv r with he | he
    · rw [he,hz]
    · rw [he,hz,min_self]
  · intro e he
    rw [hl] at he
    have hb := hs.below e he
    rcases hv e.1 with hve | hve
    · rw [hve]
      exact hb
    · rw [hve]
      exact (min_le_right _ _).trans_lt hb
  · rw [hl]
    exact hs.nodup

theorem StudentMoves.vessels (h : StudentMoves s x u) (hs : s.Vessels) : u.Vessels := by
  cases h <;> exact hs.lower (fun _ => .inl rfl) rfl fun _ hr => hr

theorem vessels_takeVessel (s : State c) (t : TableId c) (r r' : RobotId c) :
    (s.takeVessel t r).vessels r' = if r' = r then s.vessels r - 1 else s.vessels r' := by
  rcases eq_or_ne r' r with rfl | hne
  · simp [State.vessels,takeVessel,setRobot]
  · simp [State.vessels,takeVessel,setRobot,hne]

theorem vessels_takeVessel_le (s : State c) (t : TableId c) (r r' : RobotId c) :
    (s.takeVessel t r).vessels r' ≤ s.vessels r' := by
  rw [vessels_takeVessel]
  split
  next he =>
    subst he
    omega
  next => exact le_rfl

theorem Vessels.take (hs : s.Vessels) (hpos : 0 < s.vessels r) : (s.takeVessel t r).Vessels := by
  have hloads : (s.takeVessel t r).loads = s.loads ++ [(r,s.vessels r,t)] := rfl
  constructor
  · intro r' hr
    obtain ⟨hz,hno⟩ := hs.unfilled r' hr
    have hne : r ≠ r' := by
      rintro rfl
      rw [hz] at hpos
      exact absurd hpos (lt_irrefl 0)
    rw [vessels_takeVessel,if_neg hne.symm]
    refine ⟨hz,?_⟩
    intro e he
    rw [hloads] at he
    rcases List.mem_append.mp he with he | he
    · exact hno e he
    · rw [List.mem_singleton.mp he]
      exact hne
  · intro e he
    rw [hloads] at he
    rcases List.mem_append.mp he with he | he
    · exact (vessels_takeVessel_le s t r e.1).trans_lt (hs.below e he)
    · rw [List.mem_singleton.mp he,vessels_takeVessel,if_pos rfl]
      simp
  · rw [hloads,List.map_append,List.nodup_append']
    refine ⟨hs.nodup,List.nodup_singleton _,?_⟩
    intro k hk hk'
    obtain ⟨e,he,rfl⟩ := List.mem_map.mp hk
    have hb := hs.below e he
    have heq : (e.1,e.2.1) = (r,s.vessels r) := by simpa using hk'
    obtain ⟨h1,h2⟩ := Prod.mk.inj heq
    rw [h1,h2] at hb
    exact absurd hb (lt_irrefl _)

theorem TableMoves.vessels (h : TableMoves s t u) (hs : s.Vessels) : u.Vessels := by
  cases h with
  | @takeVessel r _ hpos =>
    exact (hs.take (t := t) hpos).lower (fun _ => .inl rfl) rfl fun _ hr => hr
  | reset => exact hs.lower (fun _ => .inl rfl) rfl fun _ hr => hr
  | jump => exact hs.lower (fun _ => .inl rfl) rfl fun _ hr => hr
  | lock => exact hs.lower (fun _ => .inl rfl) rfl fun _ hr => hr
  | unlock => exact hs.lower (fun _ => .inl rfl) rfl fun _ hr => hr
  | fill => exact hs.lower (fun _ => .inl rfl) rfl fun _ hr => hr
  | openRound => exact hs.lower (fun _ => .inl rfl) rfl fun _ hr => hr
  | serveRound => exact hs.lower (fun _ => .inl rfl) rfl fun _ hr => hr

theorem robotGoto_of_ne {r' : RobotId c} (s : State c) (pc : RobotPc) (h : r' ≠ r) :
    (s.robotGoto r pc).robot r' = s.robot r' := by
  simp [robotGoto,h]

theorem Vessels.goto {v : State c} {pc : RobotPc} (hs : s.Vessels) (hr : v.robots = s.robots)
    (hl : v.loads = s.loads) (hv : v.robot = s.robot)
    (hpc : pc.unfilled = true → (s.robot r).unfilled = true) : (v.robotGoto r pc).Vessels := by
  apply hs.lower
  · intro r'
    left
    exact congrArg (fun f => (f r').biryaniVesselsRemaining) hr
  · exact hl
  · intro r' hu
    rcases eq_or_ne r' r with rfl | hne
    · rw [robotGoto_self] at hu
      exact hpc hu
    · rw [robotGoto_of_ne v pc hne,hv] at hu
      exact hu

def Cooks (pc pc' : RobotPc) : Prop :=
  (pc'.unfilled = true → pc.unfilled = true) ∧
    ∀ size, pc'.batch = some size → pc.batch = some size ∨ 25 ≤ size

theorem RobotJump.cooks {pc pc' : RobotPc} (h : RobotJump s r pc pc') : Cooks pc pc' := by
  cases h with
  | @cook rand rand' =>
    refine ⟨fun _ => rfl,?_⟩
    intro size hsize
    have hmod := Int.emod_nonneg rand' (show (50 - 25 + 1 : Int) ≠ 0 by decide)
    right
    cases hsize
    unfold genRandomInRange
    omega
  | quit => exact ⟨nofun,nofun⟩
  | prepare => exact ⟨fun _ => rfl,fun _ hsize => .inl hsize⟩
  | stop => exact ⟨nofun,nofun⟩
  | ready => exact ⟨nofun,nofun⟩
  | emptied => exact ⟨nofun,nofun⟩
  | wait => exact ⟨nofun,nofun⟩
  | tried => exact ⟨nofun,nofun⟩

theorem RobotLock.cooks {pc pc' : RobotPc} (h : RobotLock pc pc') : Cooks pc pc' := by
  cases h with
  | fill => exact ⟨fun _ => rfl,fun _ hsize => .inl hsize⟩
  | poll => exact ⟨nofun,nofun⟩

theorem RobotUnlock.cooks {pc pc' : RobotPc} (h : RobotUnlock pc pc') : Cooks pc pc' := by
  cases h <;> exact ⟨nofun,nofun⟩

theorem RobotMoves.vessels (h : RobotMoves s r u) (hs : s.Vessels) : u.Vessels := by
  cases h with
  | jump hj => exact hs.goto rfl rfl rfl hj.cooks.1
  | lock hl _ => exact hs.goto rfl rfl rfl (RobotLock.cooks hl).1
  | unlock hl => exact hs.goto rfl rfl rfl (RobotUnlock.cooks hl).1
  | @fill n size hpc =>
    obtain ⟨_,hno⟩ := hs.unfilled r (by rw [hpc]; rfl)
    have hother : ∀ r', r' ≠ r →
        ((s.setRobot r ⟨n,size⟩).robotGoto r .unlockFill).vessels r' = s.vessels r' := by
      intro r' hne
      simp [State.vessels,setRobot,robotGoto,hne]
    constructor
    · intro r' hu
      rcases eq_or_ne r' r with rfl | hne
      · rw [robotGoto_self] at hu
        cases hu
      · rw [robotGoto_of_ne _ _ hne] at hu
        rw [hother r' hne]
        exact hs.unfilled r' hu
    · intro e he
      rw [hother e.1 (hno e he)]
      exact hs.below e he
    · exact hs.nodup
  | retake => exact hs.goto rfl rfl rfl fun hu => absurd hu Bool.false_ne_true

theorem vessels_zeroVessels (s : State c) (r r' : RobotId c) :
    (s.zeroVessels r).vessels r' = s.vessels r' ∨
      (s.zeroVessels r).vessels r' = min 0 (s.vessels r') := by
  unfold zeroVessels
  split
  case isFalse => exact .inl rfl
  case isTrue hpos =>
    rcases eq_or_ne r' r with rfl | hne
    · right
      rw [State.vessels,State.vessels,min_eq_left hpos.le]
      simp [setRobot]
    · left
      simp [State.vessels,setRobot,hne]

theorem Vessels.zero (hs : s.Vessels) (r : RobotId c) : (s.zeroVessels r).Vessels := by
  apply hs.lower (vessels_zeroVessels s r)
  · rw [zeroVessels_eq]
  · rw [zeroVessels_eq]
    exact fun _ hr => hr

theorem MainMoves.vessels (h : MainMoves s u) (hs : s.Vessels) : u.Vessels := by
  cases h with
  | jump => exact hs.lower (fun _ => .inl rfl) rfl fun _ hr => hr
  | endGame => exact hs.lower (fun _ => .inl rfl) rfl fun _ hr => hr
  | lock => exact hs.lower (fun _ => .inl rfl) rfl fun _ hr => hr
  | unlock => exact hs.lower (fun _ => .inl rfl) rfl fun _ hr => hr
  | zeroSlots =>
    rw [zeroSlots_eq]
    exact hs.lower (fun _ => .inl rfl) rfl fun _ hr => hr
  | zeroVessels => exact (hs.zero _).lower (fun _ => .inl rfl) rfl fun _ hr => hr
  | zeroFinal => exact (hs.zero _).lower (fun _ => .inl rfl) rfl fun _ hr => hr

theorem Moves.vessels {a : Act c} (h : Moves s a u) (hs : s.Vessels) : u.Vessels := by
  cases h with
  | student h => exact h.vessels hs
  | table h => exact h.vessels hs
  | robot h => exact h.vessels hs
  | main h => exact h.vessels hs

structure SameKitchen (s u : State c) : Prop where
  table : u.table = s.table
  robot : u.robot = s.robot
  loaded : u.loaded = s.loaded
  remaining : ∀ t, (u.tables t).biryaniAmountRemaining = (s.tables t).biryaniAmountRemaining
  vessels : ∀ r, u.vessels r ≤ s.vessels r ∨ u.vessels r ≤ 0
  size : ∀ r, (u.robots r).vesselSize = (s.robots r).vesselSize

theorem Portions.of_same (hs : s.Portions) (h : SameKitchen s u)
    (hfed : ∀ e ∈ u.taken, 0 < s.loaded e.2) : u.Portions where
  remaining := by
    intro t
    rw [h.remaining,h.loaded]
    exact hs.remaining t
  start := by
    rw [h.table,h.loaded]
    exact hs.start
  portion := by
    rw [h.loaded]
    exact hs.portion
  opened := by
    rw [h.table,h.loaded]
    exact hs.opened
  fed := by
    rw [h.loaded]
    exact hfed
  sized := by
    intro r hpos
    rw [h.size]
    apply hs.sized
    rcases h.vessels r with hle | hle
    · exact hpos.trans_le hle
    · exact absurd hpos (not_lt.mpr hle)
  batch := by
    rw [h.robot]
    exact hs.batch
  pouring := by
    intro t r hp
    rw [h.table] at hp
    rw [h.size]
    exact hs.pouring t r hp

theorem SameKitchen.of_setTable {tb : Table} (htable : u.table = s.table) (hrobot : u.robot = s.robot)
    (hloaded : u.loaded = s.loaded) (hrobots : u.robots = s.robots)
    (htb : u.tables = (s.setTable t tb).tables)
    (hb : tb.biryaniAmountRemaining = (s.tables t).biryaniAmountRemaining) : SameKitchen s u where
  table := htable
  robot := hrobot
  loaded := hloaded
  remaining := by
    intro t'
    rw [htb]
    rcases eq_or_ne t' t with rfl | hne
    · rw [setTable_self,hb]
    · rw [setTable_of_ne s tb hne]
  vessels := fun r => .inl (le_of_eq (congrArg (fun f => (f r).biryaniVesselsRemaining) hrobots))
  size := fun r => congrArg (fun f => (f r).vesselSize) hrobots

theorem StudentMoves.portions (h : StudentMoves s x u) (hi : s.Informed) (hs : s.Portions) :
    u.Portions := by
  cases h with
  | @take t hpc hready hpos =>
    refine hs.of_same (.of_setTable rfl rfl rfl rfl rfl rfl) ?_
    intro e he
    rcases List.mem_append.mp he with he | he
    · exact hs.fed e he
    · rw [List.mem_singleton.mp he]
      rw [hi.ready t] at hready
      exact hs.opened t hready
  | sit => exact hs.of_same (.of_setTable rfl rfl rfl rfl rfl rfl) hs.fed
  | lock => exact hs.of_same ⟨rfl,rfl,rfl,fun _ => rfl,fun _ => .inl le_rfl,fun _ => rfl⟩ hs.fed
  | wrap => exact hs.of_same ⟨rfl,rfl,rfl,fun _ => rfl,fun _ => .inl le_rfl,fun _ => rfl⟩ hs.fed
  | pass => exact hs.of_same ⟨rfl,rfl,rfl,fun _ => rfl,fun _ => .inl le_rfl,fun _ => rfl⟩ hs.fed
  | leave => exact hs.of_same ⟨rfl,rfl,rfl,fun _ => rfl,fun _ => .inl le_rfl,fun _ => rfl⟩ hs.fed
  | finish => exact hs.of_same ⟨rfl,rfl,rfl,fun _ => rfl,fun _ => .inl le_rfl,fun _ => rfl⟩ hs.fed

def Calm (pc pc' : TablePc c) : Prop :=
  pc' ≠ .start ∧ ∀ r, pc'.pouring = some r → pc.pouring = some r

theorem TableJump.calm {pc pc' : TablePc c} (h : TableJump s t pc pc') : Calm pc pc' := by
  cases h with
  | @proceed flag => cases flag <;> exact ⟨nofun,nofun⟩
  | _ => exact ⟨nofun,nofun⟩

theorem TableLock.calm {pc pc' : TablePc c} {m : Mutex c} (h : TableLock t pc m pc') :
    Calm pc pc' := by
  cases h with
  | refill => exact ⟨nofun,fun _ hp => hp⟩
  | _ => exact ⟨nofun,nofun⟩

theorem TableUnlock.calm {pc pc' : TablePc c} {m : Mutex c} (h : TableUnlock t pc m pc') :
    Calm pc pc' := by
  cases h with
  | @robot r flag => cases flag <;> exact ⟨nofun,nofun⟩
  | @peek y =>
    rcases lt_or_ge 0 y with hy | hy
    · rw [if_pos hy]
      exact ⟨nofun,nofun⟩
    · rw [if_neg (not_lt.mpr hy)]
      exact ⟨nofun,nofun⟩
  | _ => exact ⟨nofun,nofun⟩

structure LocalKitchen (s u : State c) (t : TableId c) : Prop where
  table : ∀ t', t' ≠ t → u.table t' = s.table t'
  tables : ∀ t', t' ≠ t → u.tables t' = s.tables t'
  loaded : ∀ t', t' ≠ t → u.loaded t' = s.loaded t'
  robot : u.robot = s.robot
  taken : u.taken = s.taken
  vessels : ∀ r, u.vessels r ≤ s.vessels r
  size : ∀ r, (u.robots r).vesselSize = (s.robots r).vesselSize

theorem Portions.of_local (hs : s.Portions) (h : LocalKitchen s u t)
    (hrem : (u.tables t).biryaniAmountRemaining = u.loaded t) (hgrow : s.loaded t ≤ u.loaded t)
    (hstart : u.table t ≠ .start) (hportion : u.loaded t = 0 ∨ 25 ≤ u.loaded t)
    (hopened : (u.table t).ready = true → 0 < u.loaded t)
    (hpour : ∀ r, (u.table t).pouring = some r → 25 ≤ (s.robots r).vesselSize) : u.Portions where
  remaining := by
    intro t'
    rcases eq_or_ne t' t with rfl | hne
    · exact hrem
    · rw [h.tables t' hne,h.loaded t' hne]
      exact hs.remaining t'
  start := by
    intro t' ht
    rcases eq_or_ne t' t with rfl | hne
    · exact absurd ht hstart
    · rw [h.table t' hne] at ht
      rw [h.loaded t' hne]
      exact hs.start t' ht
  portion := by
    intro t'
    rcases eq_or_ne t' t with rfl | hne
    · exact hportion
    · rw [h.loaded t' hne]
      exact hs.portion t'
  opened := by
    intro t' ht
    rcases eq_or_ne t' t with rfl | hne
    · exact hopened ht
    · rw [h.table t' hne] at ht
      rw [h.loaded t' hne]
      exact hs.opened t' ht
  fed := by
    intro e he
    rw [h.taken] at he
    have hpos := hs.fed e he
    rcases eq_or_ne e.2 t with heq | hne
    · rw [heq] at hpos ⊢
      exact hpos.trans_le hgrow
    · rw [h.loaded e.2 hne]
      exact hpos
  sized := by
    intro r hpos
    rw [h.size]
    exact hs.sized r (hpos.trans_le (h.vessels r))
  batch := by
    rw [h.robot]
    exact hs.batch
  pouring := by
    intro t' r hp
    rw [h.size]
    rcases eq_or_ne t' t with rfl | hne
    · exact hpour r hp
    · rw [h.table t' hne] at hp
      exact hs.pouring t' r hp

theorem LocalKitchen.goto {v : State c} {pc : TablePc c} (htable : v.table = s.table)
    (htables : ∀ t', t' ≠ t → v.tables t' = s.tables t')
    (hloaded : ∀ t', t' ≠ t → v.loaded t' = s.loaded t') (hrobot : v.robot = s.robot)
    (htaken : v.taken = s.taken) (hvessels : ∀ r, v.vessels r ≤ s.vessels r)
    (hsize : ∀ r, (v.robots r).vesselSize = (s.robots r).vesselSize) :
    LocalKitchen s (v.tableGoto t pc) t where
  table := by
    intro t' hne
    rw [tableGoto_of_ne v pc hne,htable]
  tables := htables
  loaded := hloaded
  robot := hrobot
  taken := htaken
  vessels := hvessels
  size := hsize

theorem Portions.goto (hs : s.Portions) {v : State c} {pc : TablePc c}
    (h : LocalKitchen s (v.tableGoto t pc) t)
    (hrem : (v.tables t).biryaniAmountRemaining = (s.tables t).biryaniAmountRemaining)
    (hloaded : v.loaded t = s.loaded t)
    (hc : Calm (s.table t) pc) (hready : pc.ready = true → 0 < s.loaded t) :
    (v.tableGoto t pc).Portions := by
  apply hs.of_local h
  · exact hrem.trans ((hs.remaining t).trans hloaded.symm)
  · exact hloaded.symm.le
  · rw [tableGoto_self]
    exact hc.1
  · exact hloaded.symm ▸ hs.portion t
  · rw [tableGoto_self]
    exact fun hr => hloaded.symm ▸ hready hr
  · intro r hp
    rw [tableGoto_self] at hp
    exact hs.pouring t r (hc.2 r hp)

theorem Portions.setGoto (hs : s.Portions) {v : State c} {tb : Table} {pc : TablePc c}
    (htable : v.table = s.table) (htables : v.tables = (s.setTable t tb).tables)
    (hloaded : v.loaded = s.loaded) (hrobot : v.robot = s.robot) (hrobots : v.robots = s.robots)
    (htaken : v.taken = s.taken) (hb : tb.biryaniAmountRemaining = s.loaded t)
    (hstart : pc ≠ .start) (hpour : pc.pouring = none) (hready : pc.ready = true → 0 < s.loaded t) :
    (v.tableGoto t pc).Portions := by
  have hlocal : LocalKitchen s (v.tableGoto t pc) t := .goto htable
    (fun t' hne => (congrFun htables t').trans (setTable_of_ne s tb hne))
    (fun t' _ => congrFun hloaded t') hrobot htaken
    (fun r => le_of_eq (congrArg (fun f => (f r).biryaniVesselsRemaining) hrobots))
    fun r => congrArg (fun f => (f r).vesselSize) hrobots
  have htb : v.tables t = tb := (congrFun htables t).trans (setTable_self s t tb)
  apply hs.of_local hlocal
  · exact (congrArg Table.biryaniAmountRemaining htb).trans (hb.trans (congrFun hloaded t).symm)
  · exact (congrFun hloaded t).symm.le
  · rw [tableGoto_self]
    exact hstart
  · exact hloaded.symm ▸ hs.portion t
  · rw [tableGoto_self]
    exact fun hr => lt_of_lt_of_eq (hready hr) (congrFun hloaded t).symm
  · intro r hp
    rw [tableGoto_self,hpour] at hp
    cases hp

theorem Portions.takeGoto (hs : s.Portions) (hpos : 0 < s.vessels r) :
    ((s.takeVessel t r).tableGoto t (.lockTable r)).Portions := by
  have hsize : ∀ r', ((s.takeVessel t r).robots r').vesselSize = (s.robots r').vesselSize := by
    intro r'
    rcases eq_or_ne r' r with rfl | hne
    · simp [takeVessel,setRobot]
    · simp [takeVessel,setRobot,hne]
  have hlocal : LocalKitchen s ((s.takeVessel t r).tableGoto t (.lockTable r)) t :=
    .goto rfl (fun _ _ => rfl) (fun _ _ => rfl) rfl rfl (vessels_takeVessel_le s t r) hsize
  apply hs.of_local hlocal
  · exact hs.remaining t
  · exact le_rfl
  · rw [tableGoto_self]
    exact nofun
  · exact hs.portion t
  · rw [tableGoto_self]
    exact nofun
  · intro r' hp
    rw [tableGoto_self] at hp
    cases hp
    exact hs.sized r hpos

theorem Portions.fillGoto (hs : s.Portions) (hsize : 25 ≤ (s.robots r).vesselSize) :
    ((s.fillTable t r).tableGoto t (.unlockTable r)).Portions := by
  have hload : (s.fillTable t r).loaded t = s.loaded t + (s.robots r).vesselSize :=
    Function.update_self t _ s.loaded
  have htb := congrArg Table.biryaniAmountRemaining (setTable_self s t { s.tables t with
    biryaniAmountRemaining := (s.tables t).biryaniAmountRemaining + (s.robots r).vesselSize })
  have hlocal : LocalKitchen s ((s.fillTable t r).tableGoto t (.unlockTable r)) t :=
    .goto rfl (fun _ hne => setTable_of_ne s _ hne)
      (fun _ hne => Function.update_of_ne hne _ s.loaded) rfl rfl (fun _ => le_rfl) fun _ => rfl
  have hrem := hs.remaining t
  have hp := hs.portion t
  apply hs.of_local hlocal
  · exact htb.trans ((congrArg (· + (s.robots r).vesselSize) hrem).trans hload.symm)
  · refine le_trans ?_ hload.symm.le
    omega
  · rw [tableGoto_self]
    exact nofun
  · right
    refine le_trans ?_ hload.symm.le
    omega
  · rw [tableGoto_self]
    exact nofun
  · rw [tableGoto_self]
    exact nofun

theorem TableMoves.portions (h : TableMoves s t u) (hi : s.Informed) (hs : s.Portions) :
    u.Portions := by
  have hknows := hi.knows t
  have hready : ∀ {pc : TablePc c}, pc.ready = (s.table t).ready → pc.ready = true →
      0 < s.loaded t := fun he hr => hs.opened t (he.symm.trans hr)
  cases h with
  | reset hpc => exact hs.setGoto rfl rfl rfl rfl rfl rfl (hs.start t hpc).symm nofun rfl nofun
  | jump hj =>
    exact hs.goto (.goto rfl (fun _ _ => rfl) (fun _ _ => rfl) rfl rfl (fun _ => le_rfl) fun _ => rfl)
      rfl rfl hj.calm (hready (hj.informed hknows).1)
  | lock hl _ =>
    exact hs.goto (.goto rfl (fun _ _ => rfl) (fun _ _ => rfl) rfl rfl (fun _ => le_rfl) fun _ => rfl)
      rfl rfl (TableLock.calm hl) (hready (TableLock.informed hl hknows).1)
  | unlock hl =>
    exact hs.goto (.goto rfl (fun _ _ => rfl) (fun _ _ => rfl) rfl rfl (fun _ => le_rfl) fun _ => rfl)
      rfl rfl (TableUnlock.calm hl) (hready (TableUnlock.informed hl hknows).1)
  | takeVessel _ hpos => exact hs.takeGoto hpos
  | @fill r hpc => exact hs.fillGoto (hs.pouring t r (by rw [hpc]; rfl))
  | openRound hpc =>
    rw [hpc] at hknows
    exact hs.setGoto rfl rfl rfl rfl rfl rfl (hs.remaining t) nofun rfl
      fun _ => lt_of_lt_of_eq hknows (hs.remaining t)
  | serveRound => exact hs.setGoto rfl rfl rfl rfl rfl rfl (hs.remaining t) nofun rfl nofun

theorem Portions.robotGoto {v : State c} {pc : RobotPc} (hs : s.Portions) (hpc : Cooks (s.robot r) pc)
    (htable : v.table = s.table) (htables : v.tables = s.tables) (hloaded : v.loaded = s.loaded)
    (htaken : v.taken = s.taken) (hrobot : v.robot = s.robot)
    (hsized : ∀ r', 0 < v.vessels r' → 25 ≤ (v.robots r').vesselSize)
    (hsize : ∀ r', 25 ≤ (s.robots r').vesselSize → 25 ≤ (v.robots r').vesselSize) :
    (v.robotGoto r pc).Portions where
  remaining := fun t =>
    (congrArg (fun f => (f t).biryaniAmountRemaining) htables).trans
      ((hs.remaining t).trans (congrFun hloaded t).symm)
  start := fun t ht => (congrFun hloaded t).trans (hs.start t ((congrFun htable t).symm.trans ht))
  portion := hloaded.symm ▸ hs.portion
  opened := by
    intro t ht
    refine lt_of_lt_of_eq (hs.opened t ?_) (congrFun hloaded t).symm
    rw [← htable]
    exact ht
  fed := by
    intro e he
    refine lt_of_lt_of_eq (hs.fed e ?_) (congrFun hloaded e.2).symm
    rw [← htaken]
    exact he
  sized := hsized
  batch := by
    intro r' size hb
    rcases eq_or_ne r' r with rfl | hne
    · rw [robotGoto_self] at hb
      rcases hpc.2 size hb with hb | hge
      · exact hs.batch r' size hb
      · exact hge
    · rw [robotGoto_of_ne v pc hne,hrobot] at hb
      exact hs.batch r' size hb
  pouring := by
    intro t r' hp
    apply hsize
    apply hs.pouring t r'
    rw [← htable]
    exact hp

theorem RobotMoves.portions (h : RobotMoves s r u) (hs : s.Portions) : u.Portions := by
  cases h with
  | jump hj => exact hs.robotGoto hj.cooks rfl rfl rfl rfl rfl hs.sized fun _ hge => hge
  | lock hl _ => exact hs.robotGoto (RobotLock.cooks hl) rfl rfl rfl rfl rfl hs.sized fun _ hge => hge
  | unlock hl => exact hs.robotGoto (RobotUnlock.cooks hl) rfl rfl rfl rfl rfl hs.sized fun _ hge => hge
  | @fill n size hpc =>
    have hge := hs.batch r size (by rw [hpc]; rfl)
    have hsize : ∀ r', 25 ≤ (s.robots r').vesselSize →
        25 ≤ ((s.setRobot r ⟨n,size⟩).robots r').vesselSize := by
      intro r' h
      rcases eq_or_ne r' r with rfl | hne
      · simpa [setRobot] using hge
      · simpa [setRobot,hne] using h
    refine hs.robotGoto ⟨nofun,nofun⟩ rfl rfl rfl rfl rfl ?_ hsize
    intro r' hpos
    rcases eq_or_ne r' r with rfl | hne
    · simpa [setRobot] using hge
    · apply hsize
      apply hs.sized
      simpa [State.vessels,setRobot,hne] using hpos
  | retake => exact hs.robotGoto ⟨nofun,nofun⟩ rfl rfl rfl rfl rfl hs.sized fun _ hge => hge

theorem sameKitchen_zeroVessels (s : State c) (r : RobotId c) : SameKitchen s (s.zeroVessels r) where
  table := by rw [zeroVessels_eq]
  robot := by rw [zeroVessels_eq]
  loaded := by rw [zeroVessels_eq]
  remaining := by
    rw [zeroVessels_eq]
    exact fun _ => rfl
  vessels := by
    intro r'
    rcases vessels_zeroVessels s r r' with he | he
    · exact .inl he.le
    · exact .inr (he.trans_le (min_le_left _ _))
  size := by
    intro r'
    unfold zeroVessels
    split
    · rcases eq_or_ne r' r with rfl | hne
      · simp [setRobot]
      · simp [setRobot,hne]
    · rfl

theorem Portions.zero (hs : s.Portions) (r : RobotId c) : (s.zeroVessels r).Portions := by
  apply hs.of_same (sameKitchen_zeroVessels s r)
  rw [zeroVessels_eq]
  exact hs.fed

theorem MainMoves.portions (h : MainMoves s u) (hs : s.Portions) : u.Portions := by
  cases h with
  | jump => exact hs.of_same ⟨rfl,rfl,rfl,fun _ => rfl,fun _ => .inl le_rfl,fun _ => rfl⟩ hs.fed
  | endGame => exact hs.of_same ⟨rfl,rfl,rfl,fun _ => rfl,fun _ => .inl le_rfl,fun _ => rfl⟩ hs.fed
  | lock => exact hs.of_same ⟨rfl,rfl,rfl,fun _ => rfl,fun _ => .inl le_rfl,fun _ => rfl⟩ hs.fed
  | unlock => exact hs.of_same ⟨rfl,rfl,rfl,fun _ => rfl,fun _ => .inl le_rfl,fun _ => rfl⟩ hs.fed
  | @zeroSlots again t =>
    have htb := zeroSlots_tables s t
    rw [zeroSlots_eq]
    exact hs.of_same (.of_setTable rfl rfl rfl rfl htb rfl) hs.fed
  | @zeroVessels r =>
    have hz := hs.zero r
    exact hz.of_same ⟨rfl,rfl,rfl,fun _ => rfl,fun _ => .inl le_rfl,fun _ => rfl⟩ hz.fed
  | @zeroFinal r =>
    have hz := hs.zero r
    exact hz.of_same ⟨rfl,rfl,rfl,fun _ => rfl,fun _ => .inl le_rfl,fun _ => rfl⟩ hz.fed

theorem Moves.portions {a : Act c} (h : Moves s a u) (hi : s.Informed) (hs : s.Portions) :
    u.Portions := by
  cases h with
  | student h => exact h.portions hi hs
  | table h => exact h.portions hi hs
  | robot h => exact h.portions hs
  | main h => exact h.portions hs

structure Stocked (s : State c) : Prop where
  served : s.Served
  vessels : s.Vessels
  portions : s.Portions

theorem stocked_of_reach {ok : State c → Act c → Prop} (h : (mess c).Reach ok s) : s.Stocked := by
  apply h.invariant Stocked
  · exact ⟨served_init,vessels_init,portions_init⟩
  · intro s a u _ hs _ ht
    have hm := step_moves ht
    exact ⟨hm.served hs.served,hm.vessels hs.vessels,hm.portions hs.served.informed hs.portions⟩

def given (s : State c) (t : TableId c) : Nat := (s.taken.map Prod.snd).count t

structure Conserved (s : State c) : Prop where
  vessels : (s.loads.map fun e => (e.1,e.2.1)).Nodup
  bound : ∀ t, s.given t ≤ s.loaded t
  remaining : ∀ t, (s.tables t).biryaniAmountRemaining = s.loaded t - s.given t

def givesSlot (s : State c) : Act c → Prop
  | .student x => ∃ t, s.student x = .looking t ∧ (s.tables t).readyToServe = true ∧
      0 < (s.tables t).slotsLeft
  | _ => False

theorem Stocked.conserved_iff (hs : s.Stocked) : s.Conserved ↔ s.taken = [] := by
  have hrem := hs.portions.remaining
  constructor
  · intro h
    cases htaken : s.taken with
    | nil => rfl
    | cons e l =>
      have hpos : 0 < s.given e.2 := by
        apply List.count_pos_iff.mpr
        rw [htaken]
        exact List.mem_cons_self
      have h1 := h.remaining e.2
      rw [hrem e.2] at h1
      omega
  · intro h
    have hnone : ∀ t, s.given t = 0 := by
      intro t
      rw [given,h]
      rfl
    refine ⟨hs.vessels.nodup,?_,?_⟩
    · intro t
      have hp := hs.portions.portion t
      rw [hnone t]
      omega
    · intro t
      rw [hrem t,hnone t]
      simp

theorem StudentMoves.taken (h : StudentMoves s x u) :
    (s.givesSlot (.student x) ∧ u.taken ≠ []) ∨ u.taken = s.taken := by
  cases h with
  | @take t hpc hready hpos =>
    left
    refine ⟨⟨t,hpc,hready,hpos⟩,?_⟩
    exact List.append_ne_nil_of_right_ne_nil _ (List.cons_ne_nil _ _)
  | lock => exact .inr rfl
  | wrap => exact .inr rfl
  | pass => exact .inr rfl
  | leave => exact .inr rfl
  | sit => exact .inr rfl
  | finish => exact .inr rfl

theorem StudentMoves.gives (h : s.studentStep x = .ok u) (hg : s.givesSlot (.student x)) :
    u.taken ≠ [] := by
  obtain ⟨t,hpc,hready,hpos⟩ := hg
  simp only [studentStep,hpc,hready,hpos,and_self,if_true] at h
  cases h
  exact List.append_ne_nil_of_right_ne_nil _ (List.cons_ne_nil _ _)

theorem taken_eq_nil_iff {a : Act c} (h : s.step a = .ok u) :
    u.taken = [] ↔ s.taken = [] ∧ ¬ s.givesSlot a := by
  cases a with
  | student x =>
    rcases (studentStep_moves h).taken with ⟨hg,hne⟩ | he
    · exact ⟨fun hu => absurd hu hne,fun hu => absurd hg hu.2⟩
    · rw [← he]
      exact ⟨fun hu => ⟨hu,fun hg => StudentMoves.gives h hg hu⟩,fun hu => hu.1⟩
  | table t rand =>
    obtain ⟨_,_,htaken,_⟩ := (tableStep_moves h).elsewhere
    rw [htaken]
    exact ⟨fun hu => ⟨hu,not_false⟩,fun hu => hu.1⟩
  | robot r rand rand' =>
    obtain ⟨_,_,htaken,_⟩ := (robotStep_moves h).elsewhere
    rw [htaken]
    exact ⟨fun hu => ⟨hu,not_false⟩,fun hu => hu.1⟩
  | main =>
    obtain ⟨_,htaken,_⟩ := (mainStep_moves h).elsewhere
    rw [htaken]
    exact ⟨fun hu => ⟨hu,not_false⟩,fun hu => hu.1⟩

theorem taken_eq_nil_of_path {ts : List (State c × Act c × State c)}
    (h : (mess c).Path (mess c).init ts s) :
    s.taken = [] ↔ ∀ tr ∈ ts, ¬ tr.1.givesSlot tr.2.1 := by
  apply h.rule (fun ts s => s.taken = [] ↔ ∀ tr ∈ ts, ¬ tr.1.givesSlot tr.2.1)
  · exact ⟨fun _ _ htr => absurd htr List.not_mem_nil,fun _ => rfl⟩
  · intro ts s a u _ ih hs
    rw [taken_eq_nil_iff hs,ih]
    constructor
    · rintro ⟨hts,ha⟩ tr htr
      rcases List.mem_append.mp htr with htr | htr
      · exact hts tr htr
      · rw [List.mem_singleton.mp htr]
        exact ha
    · intro hall
      exact ⟨fun tr htr => hall tr (List.mem_append_left _ htr),
        hall (s,a,u) (List.mem_append_right _ List.mem_cons_self)⟩

theorem given_le_loaded (h : (mess c).Reachable s) (hc : c.studentCount ≤ 25) (t : TableId c) :
    s.given t ≤ s.loaded t := by
  have hs := stocked_of_reach h
  rcases hs.portions.portion t with hz | hge
  · have hnone : s.given t = 0 := by
      apply List.count_eq_zero.mpr
      intro hm
      obtain ⟨e,he,rfl⟩ := List.mem_map.mp hm
      exact absurd (hs.portions.fed e he) (by rw [hz]; exact lt_irrefl 0)
    rw [hnone,hz]
    rfl
  · have hlen : (s.taken.map Prod.fst).length ≤ c.studentCount := by
      simpa using hs.served.nodup.length_le_card
    have hcount : s.given t ≤ (s.taken.map Prod.snd).length := List.count_le_length
    rw [List.length_map] at hlen hcount
    omega

end State

def overdraw : List (Act (diners 26)) :=
  robotTurns 26 5 ++ tableTurns 26 17 9 ++ ((List.finRange 26).take 10).flatMap studentTurns ++
    tableTurns 26 12 9 ++ (((List.finRange 26).drop 10).take 10).flatMap studentTurns ++
    tableTurns 26 12 9 ++ ((List.finRange 26).drop 20).flatMap studentTurns

theorem portions_conserved_iff {s : State c} {ts : List (State c × Act c × State c)}
    (h : (mess c).Path (mess c).init ts s) :
    s.Conserved ↔ ∀ tr ∈ ts, ¬ tr.1.givesSlot tr.2.1 := by
  have hr : (mess c).Reachable s := h.reach fun _ _ => trivial
  rw [(State.stocked_of_reach hr).conserved_iff]
  exact State.taken_eq_nil_of_path h

theorem portions_kept_until_first_slot :
    (mess (diners 1)).Path (mess (diners 1)).init
        ((mess (diners 1)).transitions (mess (diners 1)).init (robotTurns 1 5 ++ tableTurns 1 17 0))
        ((mess (diners 1)).after (robotTurns 1 5 ++ tableTurns 1 17 0)) ∧
      ((mess (diners 1)).after (robotTurns 1 5 ++ tableTurns 1 17 0)).Conserved := by
  have hok : ((robotTurns 1 5 ++ tableTurns 1 17 0).foldlM (mess (diners 1)).step
      (mess (diners 1)).init).isOk = true := by decide +kernel
  obtain ⟨s,hp,hs⟩ := System.path_transitions hok
  rw [System.after_eq hs]
  refine ⟨hp,(portions_conserved_iff hp).mpr ?_⟩
  intro tr htr
  rcases List.mem_append.mp (System.act_mem_of_transitions htr) with hact | hact
  · rw [List.eq_of_mem_replicate hact]
    exact not_false
  · rw [List.eq_of_mem_replicate hact]
    exact not_false

theorem portions_overdrawn :
    (mess (diners 26)).Reachable ((mess (diners 26)).after overdraw) ∧
      ((mess (diners 26)).after overdraw).gameOver = false ∧
      ((mess (diners 26)).after overdraw).given (counter 26) = 26 ∧
      ((mess (diners 26)).after overdraw).loaded (counter 26) = 25 ∧
      (((mess (diners 26)).after overdraw).tables (counter 26)).biryaniAmountRemaining = 25 ∧
      ¬ ((mess (diners 26)).after overdraw).Conserved := by
  have hrun : ((mess (diners 26)).checked (fun _ _ => True) (mess (diners 26)).init overdraw).any
      (fun s => s.gameOver = false ∧ s.given (counter 26) = 26 ∧ s.loaded (counter 26) = 25 ∧
        (s.tables (counter 26)).biryaniAmountRemaining = 25) = true := by decide +kernel
  obtain ⟨hr,hp⟩ := System.reach_checked hrun
  obtain ⟨hover,hgiven,hloaded,hrem⟩ := of_decide_eq_true hp
  refine ⟨hr,hover,hgiven,hloaded,hrem,?_⟩
  intro hcons
  have hb := hcons.bound (counter 26)
  rw [hgiven,hloaded] at hb
  exact absurd hb (by decide)

end Biryani
