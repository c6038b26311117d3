import OscAssignments.Xv6.QueueSpec
import OscAssignments.Xv6.Statistics

namespace Xv6
open Runs

def Op.ofFork : Op → Bool
  | .allocproc => true
  | .kalloc _ => true
  | .copyuvm _ => true
  | _ => false

namespace Machine
variable {b : Build} {m m' : Machine} {c ncpu : Nat} {op : Op} {p np : Slot} {ts : List Trans}

inductive FailedFork (ncpu : Nat) (p : Slot) (m : Machine) : List Trans → Machine → Prop
  | full {c : Nat} {m' : Machine} (hp : (m.cpu c).proc = some p)
      (hfind : findUnused m.kern = none)
      (hs : (xv6 .mlfq ncpu).step m ⟨c,.allocproc⟩ = .ok m') :
      FailedFork ncpu p m [(m,⟨c,.allocproc⟩,m')] m'
  | late {c c' : Nat} {m₁ m₂ m' : Machine} {ts : List Trans} {op : Op} {np : Slot}
      (hp : (m.cpu c).proc = some p) (hfind : findUnused m.kern = some np)
      (hs : (xv6 .mlfq ncpu).step m ⟨c,.allocproc⟩ = .ok m₁)
      (hpath : (xv6 .mlfq ncpu).Path m₁ ts m₂) (hin : ∀ tr ∈ ts, tr.2.2.task (some p) ≠ .code)
      (hp' : (m₂.cpu c').proc = some p) (hop : op = .kalloc false ∨ op = .copyuvm false)
      (hs' : (xv6 .mlfq ncpu).step m₂ ⟨c',op⟩ = .ok m') :
      FailedFork ncpu p m ((m,⟨c,.allocproc⟩,m₁) :: ts ++ [(m₂,⟨c',op⟩,m')]) m'

def forkStep (p : Slot) (tr : Trans) : Bool :=
  tr.2.1.op.ofFork && (tr.1.cpu tr.2.1.cpu).proc = some p

def otherActions (p : Slot) (ts : List Trans) : List Action :=
  (ts.filter fun tr => !forkStep p tr).map fun tr => tr.2.1

structure ForkUndone (ncpu : Nat) (p : Slot) (m : Machine) (ts : List Trans) (m' : Machine) :
    Prop where
  others : ∃ us n, (xv6 .mlfq ncpu).Path m us n ∧
    us.map (fun tr => tr.2.1) = otherActions p ts ∧ (∀ q, window m'.kern q = window n.kern q) ∧
      ∀ x, (m'.kern.proc x).state = (n.kern.proc x).state
  hidden : ∀ x, pidSlot m'.kern m.kern.nextpid = some x → (m'.kern.proc x).state ≠ .unused

theorem pidSlot_eq (hs : Sane m) (hp : 0 < (m.kern.proc p).pid) :
    pidSlot m.kern (m.kern.proc p).pid = some p := by
  unfold pidSlot
  cases hf : allSlots.find? fun x => ((m.kern.proc x).pid : Int) = ((m.kern.proc p).pid : Nat) with
  | none =>
    have := List.find?_eq_none.mp hf p (mem_allSlots p)
    simp at this
  | some x =>
    have hx := List.find?_some hf
    simp only [decide_eq_true_eq,Nat.cast_inj] at hx
    rw [hs.pids.inj x p hx (hx ▸ hp)]

theorem effect_child (he : Effect b m c op m') {o : Option Slot}
    (h : (m.task o).child = some np) : m'.task o = .code ∨ (m'.task o).child = some np := by
  have hset : ∀ {o' : Option Slot} {t : Task}, m'.task = (m.setTask o' t).task →
      (o = o' → t = .code ∨ t.child = some np) →
        m'.task o = .code ∨ (m'.task o).child = some np := by
    intro o' t ht hown
    rw [ht,setTask_task]
    split_ifs with ho
    · exact hown ho
    · exact .inr h
  cases effect_taskStep he with
  | kept ht =>
    rw [ht]
    exact .inr h
  | begun hown ht =>
    refine hset ht fun ho => ?_
    rw [ho,hown] at h
    cases h
  | enqueued _ hown ht =>
    refine hset ht fun ho => .inr ?_
    rw [ho,hown] at h
    exact h
  | copied hown ht =>
    refine hset ht fun ho => .inr ?_
    rw [ho,hown] at h
    exact h
  | ended ht => exact hset ht fun _ => .inl rfl

structure Building (p np : Slot) (d : Nat) (m : Machine) : Prop where
  sane : Sane m
  child : (m.task (some p)).child = some np
  pid : (m.kern.proc np).pid = d

theorem Building.step {d : Nat} (h : Building p np d m) (he : Effect b m c op m')
    (hin : m'.task (some p) ≠ .code) : Building p np d m' := by
  have hst := h.sane.child _ np h.child
  refine ⟨effect_sane he h.sane,(effect_child he h.child).resolve_left hin,?_⟩
  rw [← h.pid]
  exact ((effect_fates h.sane he).fate np).pid_kept (by simp [hst]) (by simp [hst])

theorem Building.fails {d : Nat} (h : Building p np d m) (hp : (m.cpu c).proc = some p)
    (hop : op = .kalloc false ∨ op = .copyuvm false) (he : Effect b m c op m') :
    (m'.kern.proc np).state = .unused ∧ (m'.kern.proc np).pid = d := by
  have hself : ∀ {x : Slot}, (m.task (some p)).child = some x →
      m'.kern = m.kern.setState x .unused →
        (m'.kern.proc np).state = .unused ∧ (m'.kern.proc np).pid = d := by
    intro x hx hk
    obtain rfl := Option.some.inj (hx.symm.trans h.child)
    rw [hk,Kernel.setState_state,if_pos rfl,Kernel.setState_pid]
    exact ⟨rfl,h.pid⟩
  cases he with
  | allocFailed _ ht =>
    rw [hp] at ht
    exact hself (by rw [ht]; rfl) rfl
  | @copyFailed x _ hp' _ ht =>
    obtain rfl := Option.some.inj (hp'.symm.trans hp)
    exact hself (by rw [ht]; rfl) rfl
  | _ => simp at hop

theorem alloc_building (hs : Sane m) (hp : (m.cpu c).proc = some p)
    (hfind : findUnused m.kern = some np) (he : Effect b m c .allocproc m') :
    Building p np m.kern.nextpid m' := by
  have hs' := effect_sane he hs
  cases he with
  | tableFull hnone => simp [hfind] at hnone
  | @alloc x _ _ _ hx =>
    obtain rfl := Option.some.inj (hx.symm.trans hfind)
    refine ⟨hs',?_,?_⟩
    · simp [hp,Task.child]
    · simp [takeSlot]

theorem FailedFork.leaves_pid (hs : Sane m) (h : FailedFork ncpu p m ts m')
    (hfind : findUnused m.kern = some np) :
    Sane m' ∧ (m'.kern.proc np).state = .unused ∧
      (m'.kern.proc np).pid = m.kern.nextpid := by
  cases h with
  | full _ hnone _ => simp [hfind] at hnone
  | @late c c' m₁ m₂ _ us op x hp hx hs₁ hpath hin hp' hop hs' =>
    have hb := alloc_building hs hp hfind (step_effect hs₁)
    have hb₂ : Building p np m.kern.nextpid m₂ :=
      hpath.preserves _ hb fun s a t hm ht hb => hb.step (step_effect ht) (hin _ hm)
    exact ⟨step_sane hb₂.sane hs',hb₂.fails hp' hop (step_effect hs')⟩

theorem mlfq_fork_undone_iff (h : (xv6 .mlfq ncpu).Reachable m) (hf : FailedFork ncpu p m ts m') :
    ForkUndone ncpu p m ts m' ↔ findUnused m.kern = none := by
  have hs := reachable_sane h
  constructor
  · intro hu
    cases hfind : findUnused m.kern with
    | none => rfl
    | some np =>
      obtain ⟨hs',hst,hpid⟩ := hf.leaves_pid hs hfind
      have hpos : 0 < (m'.kern.proc np).pid := by
        have := hs.pids.lt np
        omega
      have hfound := pidSlot_eq hs' hpos
      rw [hpid] at hfound
      exact absurd hst (hu.hidden np hfound)
  · intro hnone
    cases hf with
    | late _ hsome _ _ _ _ _ _ => simp [hnone] at hsome
    | @full c m' hp _ hstep =>
      have hm : m' = m := by
        cases step_effect hstep with
        | tableFull _ => rfl
        | alloc _ _ _ hsome => simp [hnone] at hsome
      subst hm
      refine ⟨⟨[],m',.nil _,?_,fun _ => rfl,fun _ => rfl⟩,?_⟩
      · simp [otherActions,forkStep,Op.ofFork,hp]
      · intro x hx
        have hx := List.find?_some hx
        simp only [decide_eq_true_eq,Nat.cast_inj] at hx
        have hlt := hs.pids.lt x
        omega

def fullTableRun : List Action := bootRun ++ (List.replicate 63 forkRun).flatten

theorem mlfq_fork_undone_iff_full :
    ∃ m', (xv6 .mlfq 1).step ((xv6 .mlfq 1).after fullTableRun) ⟨0,.allocproc⟩ = .ok m' ∧
      ForkUndone 1 0 ((xv6 .mlfq 1).after fullTableRun)
        [((xv6 .mlfq 1).after fullTableRun,⟨0,.allocproc⟩,m')] m' := by
  have hrun : ((xv6 .mlfq 1).checked (fun _ _ => True) (xv6 .mlfq 1).init fullTableRun).any
      (fun m => findUnused m.kern = none && (m.cpu 0).proc = some 0 &&
        ((xv6 .mlfq 1).step m ⟨0,.allocproc⟩).isOk) = true := by decide +kernel
  obtain ⟨hreach,hend⟩ := System.reach_checked hrun
  generalize (xv6 .mlfq 1).after fullTableRun = m at hreach hend ⊢
  simp only [Bool.and_eq_true,decide_eq_true_eq] at hend
  obtain ⟨⟨hfull,hp⟩,hok⟩ := hend
  cases hs : (xv6 .mlfq 1).step m ⟨0,.allocproc⟩ with
  | error e =>
    rw [hs] at hok
    cases hok
  | ok m' => exact ⟨m',rfl,(mlfq_fork_undone_iff hreach (.full hp hfull hs)).mpr hfull⟩

def copyFailedRun : List Action := [⟨0,.kalloc true⟩]

theorem mlfq_fork_leaves_pid :
    ¬ ∀ (ncpu : Nat) (p : Slot) (m m' : Machine) (ts : List Trans),
      (xv6 .mlfq ncpu).Reachable m → FailedFork ncpu p m ts m' → ForkUndone ncpu p m ts m' := by
  intro h
  have hok : ((bootRun ++ [Action.mk 0 .allocproc] ++ copyFailedRun ++
      [Action.mk 0 (.copyuvm false)]).foldlM (xv6 .mlfq 1).step boot).isOk = true := by
    decide +kernel
  have hmid := System.isOk_of_append hok
  have halloc := System.isOk_of_append hmid
  have hf := FailedFork.late (p := 0) (by decide +kernel)
    (show findUnused ((xv6 .mlfq 1).after bootRun).kern = some 1 by decide +kernel)
    (System.step_after halloc) (System.path_after hmid) (by decide +kernel) (by decide +kernel)
    (.inr rfl) (System.step_after hok)
  have hu := h 1 0 _ _ _ (System.reachable_after (System.isOk_of_append halloc)) hf
  have hfound := hu.hidden 1 (by decide +kernel)
  exact hfound (by decide +kernel)

end Machine
end Xv6
