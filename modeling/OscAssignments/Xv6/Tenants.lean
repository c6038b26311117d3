import Mathlib.Data.List.DropRight
import OscAssignments.Xv6.Ledger
import OscAssignments.Xv6.Waits

namespace Xv6
open Runs

namespace Machine

inductive Fate (m : Machine) (c : Nat) (op : Op) (m' : Machine) (x : Slot) : Prop
  | stays (hst : (m'.kern.proc x).state = (m.kern.proc x).state)
      (hpid : (m'.kern.proc x).pid = (m.kern.proc x).pid)
  | woken (hst : (m.kern.proc x).state = .sleeping) (hst' : (m'.kern.proc x).state = .runnable)
      (hpid : (m'.kern.proc x).pid = (m.kern.proc x).pid)
  | taken (hop : op = .allocproc) (hfind : findUnused m.kern = some x)
      (hst' : (m'.kern.proc x).state = .embryo) (hpid : (m'.kern.proc x).pid = m.kern.nextpid)
  | abandoned (hst : (m.kern.proc x).state = .embryo) (hst' : (m'.kern.proc x).state = .unused)
      (hpid : (m'.kern.proc x).pid = (m.kern.proc x).pid)
  | born (htask : m.task (m.cpu c).proc = .enqueued x ∨ m.task (m.cpu c).proc = .copied x)
      (hst' : (m'.kern.proc x).state = .runnable)
      (hpid : (m'.kern.proc x).pid = (m.kern.proc x).pid)
  | dispatched (hd : Dispatched ⟨c,op⟩ m' x) (hst : (m.kern.proc x).state = .runnable)
      (hst' : (m'.kern.proc x).state = .running)
      (hpid : (m'.kern.proc x).pid = (m.kern.proc x).pid)
  | left (hp : (m.cpu c).proc = some x) (hst : (m.kern.proc x).state = .running)
      (hst' : (m'.kern.proc x).state = .runnable ∨ (m'.kern.proc x).state = .sleeping ∨
        (m'.kern.proc x).state = .zombie)
      (hpid : (m'.kern.proc x).pid = (m.kern.proc x).pid)
  | reaped (hst : (m.kern.proc x).state = .zombie) (hst' : (m'.kern.proc x).state = .unused)
      (hpid : (m'.kern.proc x).pid = 0)

def allocates (m : Machine) (op : Op) : Bool := op = .allocproc && (findUnused m.kern).isSome

structure Fates (m : Machine) (c : Nat) (op : Op) (m' : Machine) : Prop where
  fate : ∀ x, Fate m c op m' x
  nextpid : m'.kern.nextpid = m.kern.nextpid + (m.allocates op).toNat

variable {b : Build} {m m' : Machine} {c : Nat} {op : Op} {p : Slot}

theorem not_allocates (h : op ≠ .allocproc) : m.allocates op = false := by
  simp [allocates,h]

theorem Fates.touch (hop : op ≠ .allocproc) (h : Touches p m.kern m'.kern)
    (hp : Fate m c op m' p) : Fates m c op m' := by
  refine ⟨?_,by rw [h.nextpid,not_allocates hop]; rfl⟩
  intro x
  rcases eq_or_ne x p with rfl | hx
  · exact hp
  · rcases h.others x hx with hst | ⟨hst,hst'⟩
    · exact .stays hst (h.pid x)
    · exact .woken hst hst' (h.pid x)

theorem Fates.wakes (hop : op ≠ .allocproc) (h : Wakes m.kern m'.kern) : Fates m c op m' := by
  refine ⟨?_,by rw [h.nextpid,not_allocates hop]; rfl⟩
  intro x
  rcases h.state x with hst | ⟨hst,hst'⟩
  · exact .stays hst (h.pid x)
  · exact .woken hst hst' (h.pid x)

theorem Fates.faces (hop : op ≠ .allocproc) (h : SameFaces m.kern m'.kern) : Fates m c op m' :=
  .wakes hop h.wakes

theorem waitLoop_fates {k : Kernel} {y : Bool} (hop : op ≠ .allocproc)
    (hp : (m.cpu c).proc = some p) (hrun : (m.kern.proc p).state = .running)
    (hst : ∀ x, (k.proc x).state = (m.kern.proc x).state)
    (hpid : ∀ x, (k.proc x).pid = (m.kern.proc x).pid) (hn : k.nextpid = m.kern.nextpid) :
    Fates m c op ({ m with kern := k }.waitLoop c p y) := by
  have hk : Touches p m.kern k := ⟨fun x _ => .inl (hst x),hpid,hn⟩
  unfold waitLoop
  cases hw : waitResult k p with
  | reaped z =>
    have hz := (waitResult_reaped hw).2
    refine ⟨?_,?_⟩
    · intro x
      rcases eq_or_ne x z with rfl | hx
      · refine .reaped ((hst x).symm.trans hz) ?_ ?_
        · simp [reap]
        · simp [reap]
      · refine .stays ?_ ?_
        · simp [reap,hx,hst]
        · simp [reap,hx,hpid]
    · rw [not_allocates hop]
      exact hn
  | failed =>
    exact .touch hop hk (.stays (hst p) (hpid p))
  | sleep =>
    refine .touch hop (p := p) ⟨?_,?_,hn⟩ (.left hp hrun (.inr (.inl ?_)) ?_)
    · intro x hx
      simp [goToSleep,leave,hx,hst]
    · intro x
      by_cases hx : x = p <;> simp [goToSleep,leave,hx,hpid]
    · simp [goToSleep,leave]
    · simp [goToSleep,leave,hpid]

theorem enter_fates {k : Kernel} {prio : Int} (hop : op = .sched ∨ op = .back)
    (hst : (m.kern.proc p).state = .runnable) (hk : Touches p m.kern k)
    (hrun : (k.proc p).state = .running) :
    Fates m c op ({ m with kern := k }.enter c p prio) := by
  refine .touch ?_ hk (.dispatched ⟨hop,?_,?_⟩ hst hrun (hk.pid p))
  · rcases hop with rfl | rfl <;> simp
  · simp [enter]
  · simp [enter]

theorem scan_fates {next : Nat} {prio : Int} (hop : op = .sched ∨ op = .back) :
    Fates m c op (m.scan b c next prio) := by
  unfold scan
  cases hs : scanTable b m.kern next prio with
  | none => exact .faces (by rcases hop with rfl | rfl <;> simp) (.refl _)
  | some p =>
    have hp := List.find?_some hs
    simp only [scanned,Bool.and_eq_true,decide_eq_true_eq] at hp
    exact enter_fates hop hp.1.2 (touches_setProc rfl) (by simp [Kernel.setState])

theorem endTask_fates {x : Slot} {st : ProcState} (hop : op ≠ .allocproc)
    (hk : m'.kern = m.kern.setState x st)
    (hnp : (m'.kern.proc x).state = st → (m'.kern.proc x).pid = (m.kern.proc x).pid →
      Fate m c op m' x) : Fates m c op m' := by
  refine .touch (p := x) hop ?_ (hnp ?_ ?_)
  · rw [hk]
    exact touches_setProc rfl
  · rw [hk,Kernel.setState_state,if_pos rfl]
  · rw [hk,Kernel.setState_pid]

theorem effect_fates (hs : Sane m) (he : Effect b m c op m') : Fates m c op m' := by
  cases he with
  | tableFull hfind =>
    exact ⟨fun x => .stays rfl rfl,by simp [allocates,hfind]⟩
  | @alloc np _ _ _ hfind =>
    refine ⟨?_,by simp [allocates,hfind,takeSlot]⟩
    intro x
    rcases eq_or_ne x np with rfl | hx
    · exact .taken rfl hfind (by simp [takeSlot]) (by simp [takeSlot])
    · exact .stays (by simp [takeSlot,hx]) (by simp [takeSlot,hx])
  | setup _ _ hk => exact .faces (by simp) (setupProc_faces hk)
  | @setupInit np _ _ _ hk =>
    have h := setupProc_faces hk
    exact .touch (p := np) (by simp) ⟨fun x _ => .inl (h.state x),h.pid,h.nextpid⟩
      (.stays (h.state np) (h.pid np))
  | @allocFailed np _ htask =>
    refine endTask_fates (x := np) (by simp) rfl (.abandoned ?_)
    exact hs.child _ np (by rw [htask]; rfl)
  | @copied p np hp _ _ =>
    obtain ⟨hst,hpid,hn⟩ := forkCopy_same b m.kern p np
    exact .touch (p := np) (by simp) ⟨fun x _ => .inl (hst x),hpid,hn⟩ (.stays (hst np) (hpid np))
  | @copyFailed p np hp _ htask =>
    refine endTask_fates (x := np) (by simp) rfl (.abandoned ?_)
    exact hs.child (some p) np (by rw [htask]; rfl)
  | @initRunnable np _ _ htask =>
    exact endTask_fates (x := np) (by simp) rfl (.born (.inl htask))
  | @forkRunnable np _ _ htask =>
    exact endTask_fates (x := np) (by simp) rfl (.born (.inr htask))
  | @exited p k hp _ _ hloc hk =>
    have hx := (exit_exited hk).2
    refine .touch (by simp) hx.touches (.left hp ?_ (.inr (.inr hx.self)) (hx.pid p))
    exact hs.running c p hp (by rcases hloc with e | e <;> simp [e])
  | waited hp hloc _ _ =>
    exact waitLoop_fates (by simp) hp (hs.running c _ hp (by simp [hloc])) (fun _ => rfl)
      (fun _ => rfl) rfl
  | @slept p _ hp hloc _ _ _ =>
    refine .touch (p := p) (by simp) (touches_setProc rfl) ?_
    refine .left hp (hs.running c p hp (by simp [hloc])) (.inr (.inl ?_)) ?_
    · simp [goToSleep,Machine.leave]
    · simp [goToSleep,Machine.leave]
  | woke _ _ hk => exact .wakes (by simp) (wakeup1_woken hk).toWakes
  | killed _ => exact .wakes (by simp) (kill_wakes _ _)
  | prioSet _ _ => exact .faces (by simp) (setPrio_faces _ _ _)
  | faulted _ => exact .wakes (by simp) (fault_wakes _ _)
  | tickIdle _ _ hk => exact .faces (by simp) (advanceTicks_faces hk)
  | timerIdle _ _ => exact .faces (by simp) (.refl _)
  | tickCode _ _ hk => exact .faces (by simp) (advanceTicks_faces hk)
  | timerCode _ _ _ => exact .faces (by simp) (account_faces _ _)
  | wokeTicksIdle _ _ hk => exact .wakes (by simp) (wakeup1_woken hk).toWakes
  | wokeTicksCode _ _ _ hk =>
    exact .wakes (by simp) ((wakeup1_woken hk).toWakes.trans (account_faces _ _).wakes)
  | decided _ _ _ => exact .faces (by simp) (.refl _)
  | preempted _ _ _ _ => exact .faces (by simp) (.refl _)
  | @yielded p hp hloc _ =>
    refine .touch (p := p) (by simp) (touches_setProc rfl) ?_
    refine .left hp (hs.running c p hp (by simp [hloc])) (.inl ?_) ?_
    · simp [Kernel.setState,Machine.leave]
    · simp [Kernel.setState,Machine.leave]
  | schedScan _ _ _ => exact scan_fates (.inl rfl)
  | schedFcfs _ _ _ hmin =>
    exact enter_fates (.inl rfl) (minctimeProc_runnable hmin) (touches_setProc rfl)
      (by simp [Kernel.setState])
  | schedFcfsNone _ _ _ _ => exact .faces (by simp) (.refl _)
  | schedMlfq _ _ _ hsel hdis =>
    have hf := selectMlfq_faces hsel
    obtain ⟨ht,hrun⟩ := dispatchMlfq_touches hdis
    exact enter_fates (.inl rfl) ((hf.state _).symm.trans (dispatchMlfq_eq_ok hdis).1)
      (hf.touches ht) hrun
  | schedMlfqNone _ _ _ hsel => exact .faces (by simp) (selectMlfq_faces hsel)
  | resumed _ _ _ _ => exact .faces (by simp) (.refl _)
  | @resumedSlept p _ _ _ _ =>
    refine .touch (p := p) (by simp) (touches_setProc rfl) (.stays ?_ ?_)
    · simp [clearChan]
    · simp [clearChan]
  | @resumedWait p _ hp hloc _ _ =>
    refine waitLoop_fates (by simp) hp (hs.running c p hp (by simp [hloc])) ?_ ?_ rfl <;>
      intro x <;> by_cases hx : x = p <;> simp [clearChan,hx]
  | backScan _ _ _ _ => exact scan_fates (.inr rfl)
  | backRelease _ _ _ _ => exact .faces (by simp) (.refl _)
  | backMlfq _ _ _ _ hk => exact .faces (by simp) (requeue_faces hk)

inductive TaskStep (m : Machine) (c : Nat) (op : Op) (m' : Machine) : Prop
  | kept (h : m'.task = m.task)
  | begun {np : Slot} (ht : m.task (m.cpu c).proc = .code)
      (h : m'.task = (m.setTask (m.cpu c).proc (.alloc np)).task)
  | enqueued {np : Slot} (hop : op = .kalloc true) (ht : m.task (m.cpu c).proc = .alloc np)
      (h : m'.task = (m.setTask (m.cpu c).proc (.enqueued np)).task)
  | copied {np : Slot} (ht : m.task (m.cpu c).proc = .enqueued np)
      (h : m'.task = (m.setTask (m.cpu c).proc (.copied np)).task)
  | ended {o : Option Slot} (h : m'.task = (m.setTask o .code).task)

theorem effect_taskStep (he : Effect b m c op m') : TaskStep m c op m' := by
  cases he with
  | alloc _ ht _ _ => exact .begun ht rfl
  | setup _ ht _ => exact .enqueued rfl ht rfl
  | setupInit _ ht _ => exact .enqueued rfl ht rfl
  | copied hp _ ht =>
    rw [← hp] at ht
    exact .copied ht (by rw [hp]; rfl)
  | allocFailed _ _ => exact .ended rfl
  | copyFailed _ _ _ => exact .ended rfl
  | initRunnable _ _ _ => exact .ended rfl
  | forkRunnable _ _ _ => exact .ended rfl
  | waited _ _ _ _ => exact .kept (by unfold waitLoop; split <;> rfl)
  | resumedWait _ _ _ _ => exact .kept (by unfold waitLoop; split <;> rfl)
  | schedScan _ _ _ => exact .kept (by unfold scan; split <;> rfl)
  | backScan _ _ _ _ => exact .kept (by unfold scan; split <;> rfl)
  | _ => exact .kept rfl

theorem Posts.tick_or_quiet (h : Posts b m c m' op) :
    isTick (m,⟨c,op⟩,m') = true ∧ TickPosted b m.kern m'.kern ∨
      isTick (m,⟨c,op⟩,m') = false ∧ m'.kern.ticks = m.kern.ticks ∧
        ∀ p, (m'.kern.proc p).stat.actualTicks = (m.kern.proc p).stat.actualTicks := by
  have hno : op ≠ .timer ∨ c ≠ 0 → isTick (m,⟨c,op⟩,m') = false := by
    intro hop
    simp only [isTick,Bool.and_eq_false_iff,decide_eq_false_iff_not]
    exact hop
  have hpost : ∀ {x : Slot} {f : Ledger → Ledger}, op ≠ .timer ∨ c ≠ 0 →
      Posted x f m.kern m'.kern → (∀ l, (f l).actualTicks = l.actualTicks) →
      isTick (m,⟨c,op⟩,m') = false ∧ m'.kern.ticks = m.kern.ticks ∧
        ∀ p, (m'.kern.proc p).stat.actualTicks = (m.kern.proc p).stat.actualTicks := by
    intro x f hop hp hf
    exact ⟨hno hop,hp.ticks,hp.field Ledger.actualTicks hf⟩
  cases h with
  | same hb hop _ _ =>
    exact .inr ⟨hno hop,hb.ticks,fun p => congrArg Ledger.actualTicks (hb.ledger p)⟩
  | created _ hp => exact .inr (hpost (.inl (by simp)) hp fun _ => rfl)
  | copied _ hp => exact .inr (hpost (.inl (by simp)) hp fun _ => rfl)
  | prioSet hp => exact .inr (hpost (.inl (by simp)) hp fun _ => rfl)
  | ticked hc _ ht => exact .inl ⟨by simp [isTick,hc],ht⟩
  | accounted _ _ hop _ hp =>
    refine .inr (hpost ?_ hp fun _ => rfl)
    rcases hop with ⟨-,hc⟩ | ⟨rfl,-⟩
    · exact .inr hc
    · exact .inl (by simp)
  | dispatched _ _ hp => exact .inr (hpost (.inl (by simp)) hp fun _ => rfl)

structure Settled (m : Machine) (d : Nat) (x : Slot) : Prop where
  lt : d < m.kern.nextpid
  only : ∀ y, (m.kern.proc y).pid = d → y = x

theorem settled_of_pid {d : Nat} {x : Slot} (hs : Sane m) (hd : 0 < d)
    (hx : (m.kern.proc x).pid = d) : Settled m d x := by
  refine ⟨hx ▸ hs.pids.lt x,?_⟩
  intro y hy
  exact hs.pids.inj y x (hy.trans hx.symm) (hy ▸ hd)

theorem Fate.pid_eq {x : Slot} (h : Fate m c op m' x) :
    (m'.kern.proc x).pid = (m.kern.proc x).pid ∨ (m'.kern.proc x).pid = m.kern.nextpid ∨
      (m'.kern.proc x).pid = 0 := by
  cases h with
  | taken _ _ _ hpid => exact .inr (.inl hpid)
  | reaped _ _ hpid => exact .inr (.inr hpid)
  | stays _ hpid => exact .inl hpid
  | woken _ _ hpid => exact .inl hpid
  | abandoned _ _ hpid => exact .inl hpid
  | born _ _ hpid => exact .inl hpid
  | dispatched _ _ _ hpid => exact .inl hpid
  | left _ _ _ hpid => exact .inl hpid

theorem Fate.pid_kept {x : Slot} (h : Fate m c op m' x) (hu : (m.kern.proc x).state ≠ .unused)
    (hz : (m.kern.proc x).state ≠ .zombie) : (m'.kern.proc x).pid = (m.kern.proc x).pid := by
  cases h with
  | taken _ hfind _ _ => exact absurd (by simpa using List.find?_some hfind) hu
  | reaped hst _ _ => exact absurd hst hz
  | stays _ hpid => exact hpid
  | woken _ _ hpid => exact hpid
  | abandoned _ _ hpid => exact hpid
  | born _ _ hpid => exact hpid
  | dispatched _ _ _ hpid => exact hpid
  | left _ _ _ hpid => exact hpid

theorem Settled.step {d : Nat} {x : Slot} (h : Settled m d x) (hd : 0 < d)
    (hf : Fates m c op m') : Settled m' d x := by
  have hlt := h.lt
  refine ⟨by rw [hf.nextpid]; omega,?_⟩
  intro y hy
  rcases (hf.fate y).pid_eq with e | e | e
  · exact h.only y (e.symm.trans hy)
  · omega
  · omega

variable {ncpu : Nat} {ts us : List Trans}

theorem path_sane (hs : Sane m) (h : (xv6 b ncpu).Path m ts m') : Sane m' :=
  h.preserves Sane hs fun _ _ _ _ ht hs => step_sane hs ht

theorem Settled.path {d : Nat} {x : Slot} (hx : Settled m d x) (hs : Sane m) (hd : 0 < d)
    (h : (xv6 b ncpu).Path m ts m') : Settled m' d x := by
  refine (h.preserves (fun m => Sane m ∧ Settled m d x) ⟨hs,hx⟩ ?_).2
  rintro s a t _ ht ⟨hs,hx⟩
  exact ⟨step_sane hs ht,hx.step hd (effect_fates hs (step_effect ht))⟩

theorem path_mem {tr : Trans} (hs : Sane m) (h : (xv6 b ncpu).Path m ts m') (htr : tr ∈ ts) :
    Sane tr.1 ∧ Effect b tr.1 tr.2.1.cpu tr.2.1.op tr.2.2 ∧
      ∃ us, (xv6 b ncpu).Path tr.2.2 us m' := by
  obtain ⟨pre,post,rfl⟩ := List.append_of_mem htr
  obtain ⟨h1,h2,h3⟩ := h.split
  exact ⟨path_sane hs h1,step_effect h2,post,h3⟩

theorem settled_of_mem {tr : Trans} {d : Nat} {x : Slot} (hs : Sane m)
    (h : (xv6 b ncpu).Path m ts m') (htr : tr ∈ ts) (hd : 0 < d)
    (hx : (tr.1.kern.proc x).pid = d) : Settled m' d x := by
  obtain ⟨hs1,he,us,h'⟩ := path_mem hs h htr
  have h1 := (settled_of_pid hs1 hd hx).step hd (effect_fates hs1 he)
  exact h1.path (effect_sane he hs1) hd h'

theorem settled_of_mem_after {tr : Trans} {d : Nat} {x : Slot} (hs : Sane m)
    (h : (xv6 b ncpu).Path m ts m') (htr : tr ∈ ts) (hd : 0 < d)
    (hx : (tr.2.2.kern.proc x).pid = d) : Settled m' d x := by
  obtain ⟨hs1,he,us,h'⟩ := path_mem hs h htr
  have hs2 := effect_sane he hs1
  exact (settled_of_pid hs2 hd hx).path hs2 hd h'

def allocated (tr : Trans) : Option Nat :=
  if tr.1.allocates tr.2.1.op then some tr.1.kern.nextpid else none

def allocations (ts : List Trans) : List Nat := ts.filterMap allocated

def life (d : Nat) (ts : List Trans) : List Trans := ts.rtakeWhile fun tr => allocated tr ≠ some d

theorem allocations_eq (h : (xv6 b ncpu).Path boot ts m) :
    allocations ts = List.range' 1 (m.kern.nextpid - 1) ∧ 1 ≤ m.kern.nextpid := by
  have main : Sane m ∧ allocations ts = List.range' 1 (m.kern.nextpid - 1) ∧
      1 ≤ m.kern.nextpid := by
    refine h.rule (fun ts m => Sane m ∧ allocations ts = List.range' 1 (m.kern.nextpid - 1) ∧
      1 ≤ m.kern.nextpid) ⟨sane_boot,rfl,le_rfl⟩ ?_
    rintro ts s a t _ ⟨hs,hts,hn⟩ ht
    have hf := effect_fates hs (step_effect ht)
    refine ⟨step_sane hs ht,?_,by rw [hf.nextpid]; omega⟩
    unfold allocations at hts ⊢
    rw [List.filterMap_append,hts,hf.nextpid]
    cases ha : s.allocates a.op with
    | false => simp [allocated,ha]
    | true =>
      have he : s.kern.nextpid + true.toNat - 1 = s.kern.nextpid - 1 + 1 := by
        simp only [Bool.toNat_true]
        omega
      rw [he,List.range'_concat]
      simp only [List.filterMap_cons,List.filterMap_nil,allocated,ha,if_true]
      congr 2
      omega
  exact main.2

theorem nextpid_le {tr : Trans} (hs : Sane m) (h : (xv6 b ncpu).Path m ts m') (htr : tr ∈ ts) :
    tr.1.kern.nextpid ≤ m'.kern.nextpid := by
  obtain ⟨hs1,he,us,h'⟩ := path_mem hs h htr
  have hstep := (effect_fates hs1 he).nextpid
  refine (h'.preserves (fun s => Sane s ∧ tr.1.kern.nextpid ≤ s.kern.nextpid)
    ⟨effect_sane he hs1,by omega⟩ ?_).2
  rintro s a t _ ht ⟨hs,hle⟩
  have := (effect_fates hs (step_effect ht)).nextpid
  exact ⟨step_sane hs ht,by omega⟩

theorem countP_life {d : Nat} {P : Trans → Bool} (h : (xv6 b ncpu).Path boot ts m)
    (hP : ∀ tr ∈ ts, P tr = true → d < tr.1.kern.nextpid) :
    (life d ts).countP P = ts.countP P := by
  refine h.rule (fun ts _ => (∀ tr ∈ ts, P tr = true → d < tr.1.kern.nextpid) →
    (life d ts).countP P = ts.countP P) (fun _ => rfl) ?_ hP
  intro ts s a t hp ih ht hP
  have hts : ∀ tr ∈ ts, P tr = true → d < tr.1.kern.nextpid := fun tr hm =>
    hP tr (List.mem_append_left _ hm)
  unfold life at ih ⊢
  rw [List.rtakeWhile_concat]
  split_ifs with hd
  · rw [List.countP_append,List.countP_append,ih hts]
  · simp only [ne_eq,decide_not,Bool.not_eq_true',decide_eq_false_iff_not,not_not] at hd
    have hn : s.kern.nextpid = d := by
      unfold allocated at hd
      simp only at hd
      split_ifs at hd
      exact Option.some.inj hd
    rw [List.countP_nil,eq_comm,List.countP_eq_zero]
    intro tr hm hPt
    have hlt := hP tr hm hPt
    rcases List.mem_append.mp hm with hm | hm
    · have := nextpid_le sane_boot hp hm
      omega
    · rw [List.mem_singleton] at hm
      subst hm
      exact absurd hlt (by simp [hn])

end Machine
end Xv6
