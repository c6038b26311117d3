import OscAssignments.Xv6.Effects

namespace Xv6
open Runs

namespace Machine
variable (m : Machine) (c x : Nat) (s : Cpu) (l : Loc) (o o' : Option Slot) (t : Task) (p y : Slot)
  (ctx : Ctx)

@[simp] theorem setCpu_cpu : (m.setCpu c s).cpu x = if x = c then s else m.cpu x := by
  simp [setCpu,Function.update_apply]

@[simp] theorem setCpu_kern : (m.setCpu c s).kern = m.kern := rfl
@[simp] theorem setCpu_lock : (m.setCpu c s).lock = m.lock := rfl
@[simp] theorem setCpu_task : (m.setCpu c s).task = m.task := rfl
@[simp] theorem setCpu_ctx : (m.setCpu c s).ctx = m.ctx := rfl

@[simp] theorem setLoc_cpu :
    (m.setLoc c l).cpu x = if x = c then { m.cpu c with loc := l } else m.cpu x := by
  simp [setLoc]

@[simp] theorem setLoc_kern : (m.setLoc c l).kern = m.kern := rfl
@[simp] theorem setLoc_lock : (m.setLoc c l).lock = m.lock := rfl
@[simp] theorem setLoc_task : (m.setLoc c l).task = m.task := rfl
@[simp] theorem setLoc_ctx : (m.setLoc c l).ctx = m.ctx := rfl

@[simp] theorem setTask_task : (m.setTask o t).task o' = if o' = o then t else m.task o' := by
  simp [setTask,Function.update_apply]

@[simp] theorem setTask_kern : (m.setTask o t).kern = m.kern := rfl
@[simp] theorem setTask_cpu : (m.setTask o t).cpu = m.cpu := rfl
@[simp] theorem setTask_lock : (m.setTask o t).lock = m.lock := rfl
@[simp] theorem setTask_ctx : (m.setTask o t).ctx = m.ctx := rfl

@[simp] theorem setCtx_ctx : (m.setCtx p ctx).ctx y = if y = p then ctx else m.ctx y := by
  simp [setCtx,Function.update_apply]

@[simp] theorem setCtx_kern : (m.setCtx p ctx).kern = m.kern := rfl
@[simp] theorem setCtx_cpu : (m.setCtx p ctx).cpu = m.cpu := rfl
@[simp] theorem setCtx_lock : (m.setCtx p ctx).lock = m.lock := rfl
@[simp] theorem setCtx_task : (m.setCtx p ctx).task = m.task := rfl

theorem curproc_eq_ok {m : Machine} {c : Nat} {p : Slot} :
    m.curproc c = .ok p ↔ (m.cpu c).proc = some p := by
  unfold curproc
  cases (m.cpu c).proc <;> simp

inductive Effect (b : Build) (m : Machine) (c : Nat) : Op → Machine → Prop
  | tableFull (hfind : findUnused m.kern = none) : Effect b m c .allocproc m
  | alloc {np : Slot} (hloc : (m.cpu c).loc = .booting ∨ (m.cpu c).loc = .code)
      (htask : m.task (m.cpu c).proc = .code) (hlock : m.lock = none)
      (hfind : findUnused m.kern = some np) :
      Effect b m c .allocproc
        ({ m with kern := takeSlot m.kern np }.setTask (m.cpu c).proc (.alloc np))
  | setup {np : Slot} {k : Kernel} (hloc : (m.cpu c).loc = .code)
      (htask : m.task (m.cpu c).proc = .alloc np) (hk : setupProc b m.kern np = .ok k) :
      Effect b m c (.kalloc true)
        (({ m with kern := k }.setCtx np .forkret).setTask (m.cpu c).proc (.enqueued np))
  | setupInit {np : Slot} {k : Kernel} (hloc : (m.cpu c).loc = .booting)
      (htask : m.task (m.cpu c).proc = .alloc np) (hk : setupProc b m.kern np = .ok k) :
      Effect b m c (.kalloc true)
        (({ m with kern := { k with initproc := some np } }.setCtx np .forkret).setTask
          (m.cpu c).proc (.enqueued np))
  | allocFailed {np : Slot} (hloc : (m.cpu c).loc = .code)
      (htask : m.task (m.cpu c).proc = .alloc np) :
      Effect b m c (.kalloc false)
        ({ m with kern := m.kern.setState np .unused }.setTask (m.cpu c).proc .code)
  | copied {p np : Slot} (hp : (m.cpu c).proc = some p) (hloc : (m.cpu c).loc = .code)
      (htask : m.task (some p) = .enqueued np) :
      Effect b m c (.copyuvm true)
        ({ m with kern := forkCopy b m.kern p np }.setTask (some p) (.copied np))
  | copyFailed {p np : Slot} (hp : (m.cpu c).proc = some p) (hloc : (m.cpu c).loc = .code)
      (htask : m.task (some p) = .enqueued np) :
      Effect b m c (.copyuvm false)
        ({ m with kern := m.kern.setState np .unused }.setTask (some p) .code)
  | initRunnable {np : Slot} (hloc : (m.cpu c).loc = .booting) (hlock : m.lock = none)
      (htask : m.task (m.cpu c).proc = .enqueued np) :
      Effect b m c .setRunnable
        (({ m with kern := m.kern.setState np .runnable }.setTask (m.cpu c).proc .code).setLoc
          c .idle)
  | forkRunnable {np : Slot} (hloc : (m.cpu c).loc = .code) (hlock : m.lock = none)
      (htask : m.task (m.cpu c).proc = .copied np) :
      Effect b m c .setRunnable
        ({ m with kern := m.kern.setState np .runnable }.setTask (m.cpu c).proc .code)
  | exited {p : Slot} {k : Kernel} (hp : (m.cpu c).proc = some p) (htask : m.task (some p) = .code)
      (hlock : m.lock = none) (hloc : (m.cpu c).loc = .code ∨ (m.cpu c).loc = .trap .tail)
      (hk : Xv6.exit b m.kern p = .ok k) :
      Effect b m c .exit ({ m with kern := k }.leave c p .forkret)
  | waited {p : Slot} {x : Bool} (hp : (m.cpu c).proc = some p) (hloc : (m.cpu c).loc = .code)
      (htask : m.task (some p) = .code) (hlock : m.lock = none) :
      Effect b m c (.wait x) (m.waitLoop c p x)
  | slept {p : Slot} {chan : Chan} (hp : (m.cpu c).proc = some p) (hloc : (m.cpu c).loc = .code)
      (htask : m.task (some p) = .code) (hlock : m.lock = none) (hchan : chan.isProc = false) :
      Effect b m c (.sleep chan) ({ m with kern := goToSleep m.kern p chan }.leave c p .slept)
  | woke {chan : Chan} {k : Kernel} (hlock : m.lock = none) (hchan : chan.isProc = false)
      (hk : wakeup1 b m.kern (some chan) = .ok k) :
      Effect b m c (.wakeup chan) { m with kern := k }
  | killed {pid : Int} (hlock : m.lock = none) :
      Effect b m c (.kill pid) { m with kern := Xv6.kill m.kern pid }
  | prioSet {p : Slot} {v : Int} (hp : (m.cpu c).proc = some p) (hlock : m.lock = none) :
      Effect b m c (.setPrio v) { m with kern := Xv6.setPrio m.kern p v }
  | faulted {p : Slot} (hp : (m.cpu c).proc = some p) :
      Effect b m c .fault
        { m with kern := m.kern.setProc p { m.kern.proc p with killed := true } }
  | tickIdle {k : Kernel} (hc : c = 0) (hloc : (m.cpu c).loc = .idle)
      (hk : advanceTicks b m = .ok k) :
      Effect b m c .timer ({ m with kern := k }.setLoc c .idleTrap)
  | timerIdle (hc : c ≠ 0) (hloc : (m.cpu c).loc = .idle) : Effect b m c .timer m
  | tickCode {k : Kernel} (hc : c = 0) (hloc : (m.cpu c).loc = .code)
      (hk : advanceTicks b m = .ok k) :
      Effect b m c .timer ({ m with kern := k }.setLoc c (.trap .wakeTicks))
  | timerCode {p : Slot} (hc : c ≠ 0) (hp : (m.cpu c).proc = some p)
      (hloc : (m.cpu c).loc = .code) :
      Effect b m c .timer ({ m with kern := account m.kern p }.setLoc c (.trap .tail))
  | wokeTicksIdle {k : Kernel} (hloc : (m.cpu c).loc = .idleTrap) (hlock : m.lock = none)
      (hk : wakeup1 b m.kern (some .ticks) = .ok k) :
      Effect b m c .wakeTicks ({ m with kern := k }.setLoc c .idle)
  | wokeTicksCode {p : Slot} {k : Kernel} (hp : (m.cpu c).proc = some p)
      (hloc : (m.cpu c).loc = .trap .wakeTicks) (hlock : m.lock = none)
      (hk : wakeup1 b m.kern (some .ticks) = .ok k) :
      Effect b m c .wakeTicks ({ m with kern := account k p }.setLoc c (.trap .tail))
  | decided {p : Slot} {l : Loc} (hp : (m.cpu c).proc = some p)
      (hloc : (m.cpu c).loc = .trap .tail) (hl : tailTarget b m.kern p = .ok l) :
      Effect b m c .tail (m.setLoc c l)
  | preempted {p : Slot} {y : Bool} (hp : (m.cpu c).proc = some p)
      (hloc : (m.cpu c).loc = .trap .preempt) (hlock : m.lock = none)
      (hy : y = decide ((if b = .mlfq then timeToPreempt b m.kern (getQIdx m.kern p) false
        else timeToPreempt b m.kern (m.kern.proc p).priority true) ≠ 0)) :
      Effect b m c .preempt (m.setLoc c (if y then .trap .yield else .code))
  | yielded {p : Slot} (hp : (m.cpu c).proc = some p) (hloc : (m.cpu c).loc = .trap .yield)
      (hlock : m.lock = none) :
      Effect b m c .yield ({ m with kern := m.kern.setState p .runnable }.leave c p .yielded)
  | schedScan {prio : Int} (hloc : (m.cpu c).loc = .idle) (hlock : m.lock = none)
      (hb : b = .default ∨ b = .pbs ∧ prio = minPrio m.kern) :
      Effect b m c .sched (m.scan b c 0 prio)
  | schedFcfs {p : Slot} (hloc : (m.cpu c).loc = .idle) (hlock : m.lock = none) (hb : b = .fcfs)
      (hmin : minctimeProc m.kern = some p) :
      Effect b m c .sched ({ m with kern := m.kern.setState p .running }.enter c p 101)
  | schedFcfsNone (hloc : (m.cpu c).loc = .idle) (hlock : m.lock = none) (hb : b = .fcfs)
      (hmin : minctimeProc m.kern = none) : Effect b m c .sched (m.release c)
  | schedMlfq {p : Slot} {k k' : Kernel} (hloc : (m.cpu c).loc = .idle) (hlock : m.lock = none)
      (hb : b = .mlfq) (hsel : selectMlfq m.kern = .ok (some p, k))
      (hdis : dispatchMlfq k p = .ok k') :
      Effect b m c .sched ({ m with kern := k' }.enter c p 101)
  | schedMlfqNone {k : Kernel} (hloc : (m.cpu c).loc = .idle) (hlock : m.lock = none)
      (hb : b = .mlfq) (hsel : selectMlfq m.kern = .ok (none, k)) :
      Effect b m c .sched ({ m with kern := k }.release c)
  | resumed {p : Slot} (hp : (m.cpu c).proc = some p) (hloc : (m.cpu c).loc = .switched)
      (hlock : m.lock = some c) (hctx : m.ctx p = .forkret ∨ m.ctx p = .yielded) :
      Effect b m c .resume { m.setLoc c .code with lock := none }
  | resumedSlept {p : Slot} (hp : (m.cpu c).proc = some p) (hloc : (m.cpu c).loc = .switched)
      (hlock : m.lock = some c) (hctx : m.ctx p = .slept) :
      Effect b m c .resume { m.setLoc c .code with kern := clearChan m.kern p, lock := none }
  | resumedWait {p : Slot} {x : Bool} (hp : (m.cpu c).proc = some p)
      (hloc : (m.cpu c).loc = .switched) (hlock : m.lock = some c) (hctx : m.ctx p = .waiting x) :
      Effect b m c .resume ({ m with kern := clearChan m.kern p }.waitLoop c p x)
  | backScan {p : Slot} {prio : Int} (hp : (m.cpu c).proc = some p)
      (hloc : (m.cpu c).loc = .returned) (hlock : m.lock = some c)
      (hb : b = .default ∨ b = .pbs ∧ prio = (m.cpu c).minPrio ∧ prio ≤ minPrio m.kern) :
      Effect b m c .back (m.scan b c (m.cpu c).next prio)
  | backRelease {p : Slot} (hp : (m.cpu c).proc = some p) (hloc : (m.cpu c).loc = .returned)
      (hlock : m.lock = some c)
      (hb : b = .fcfs ∨ b = .pbs ∧ minPrio m.kern < (m.cpu c).minPrio) :
      Effect b m c .back (m.release c)
  | backMlfq {p : Slot} {k : Kernel} (hp : (m.cpu c).proc = some p)
      (hloc : (m.cpu c).loc = .returned) (hlock : m.lock = some c) (hb : b = .mlfq)
      (hk : requeue m.kern p = .ok k) :
      Effect b m c .back ({ m with kern := k }.release c)

variable {b : Build} {m m' : Machine} {c : Nat}

theorem allocproc_effect (h : m.allocproc c = .ok m') : Effect b m c .allocproc m' := by
  unfold allocproc at h
  simp only at h
  obtain ⟨_,hn,h⟩ := bind_eq_ok.mp h
  obtain ⟨hloc,htask,hlock⟩ := need_eq_ok.mp hn
  cases hf : findUnused m.kern with
  | none =>
    rw [hf] at h
    cases h
    exact .tableFull hf
  | some np =>
    rw [hf] at h
    cases h
    exact .alloc hloc htask hlock hf

theorem kalloc_effect {success : Bool} (h : m.kalloc b c success = .ok m') :
    Effect b m c (.kalloc success) m' := by
  unfold kalloc at h
  simp only at h
  cases ht : m.task (m.cpu c).proc with
  | alloc np =>
    rw [ht] at h
    cases success with
    | true =>
      simp only [if_true] at h
      obtain ⟨_,hn,h⟩ := bind_eq_ok.mp h
      obtain ⟨k,hk,h⟩ := bind_eq_ok.mp h
      cases h
      rcases need_eq_ok.mp hn with hloc | hloc
      · rw [if_pos hloc]
        exact .setupInit hloc ht hk
      · rw [if_neg (by simp [hloc])]
        exact .setup hloc ht hk
    | false =>
      simp only [Bool.false_eq_true,if_false] at h
      obtain ⟨_,hn,h⟩ := bind_eq_ok.mp h
      cases h
      exact .allocFailed (need_eq_ok.mp hn) ht
  | code => rw [ht] at h; cases h
  | enqueued np => rw [ht] at h; cases h
  | copied np => rw [ht] at h; cases h

theorem copyuvm_effect {success : Bool} (h : m.copyuvm b c success = .ok m') :
    Effect b m c (.copyuvm success) m' := by
  unfold copyuvm at h
  obtain ⟨_,hn,h⟩ := bind_eq_ok.mp h
  obtain ⟨p,hp,h⟩ := bind_eq_ok.mp h
  have hloc := need_eq_ok.mp hn
  have hp := curproc_eq_ok.mp hp
  cases ht : m.task (some p) with
  | enqueued np =>
    rw [ht] at h
    cases success with
    | true =>
      cases h
      exact .copied hp hloc ht
    | false =>
      cases h
      exact .copyFailed hp hloc ht
  | code => rw [ht] at h; cases h
  | alloc np => rw [ht] at h; cases h
  | copied np => rw [ht] at h; cases h

theorem setRunnable_effect (h : m.setRunnable c = .ok m') : Effect b m c .setRunnable m' := by
  unfold setRunnable at h
  obtain ⟨_,hn,h⟩ := bind_eq_ok.mp h
  have hlock := need_eq_ok.mp hn
  simp only at h
  split at h
  · rename_i np hloc ht
    cases h
    exact .initRunnable hloc hlock ht
  · rename_i np hloc ht
    cases h
    exact .forkRunnable hloc hlock ht
  · cases h

theorem exit_effect (h : m.exit b c = .ok m') : Effect b m c .exit m' := by
  unfold exit at h
  obtain ⟨p,hp,h⟩ := bind_eq_ok.mp h
  obtain ⟨_,hn,h⟩ := bind_eq_ok.mp h
  obtain ⟨htask,hlock,hloc⟩ := need_eq_ok.mp hn
  obtain ⟨k,hk,h⟩ := bind_eq_ok.mp h
  cases h
  exact .exited (curproc_eq_ok.mp hp) htask hlock (hloc.imp id And.left) hk

theorem wait_effect {x : Bool} (h : m.wait c x = .ok m') : Effect b m c (.wait x) m' := by
  unfold wait at h
  obtain ⟨p,hp,h⟩ := bind_eq_ok.mp h
  obtain ⟨_,hn,h⟩ := bind_eq_ok.mp h
  obtain ⟨⟨hloc,htask⟩,hlock⟩ := need_eq_ok.mp hn
  cases h
  have hp := curproc_eq_ok.mp hp
  exact .waited hp hloc (hp ▸ htask) hlock

theorem sleep_effect {chan : Chan} (h : m.sleep c chan = .ok m') :
    Effect b m c (.sleep chan) m' := by
  unfold sleep at h
  obtain ⟨p,hp,h⟩ := bind_eq_ok.mp h
  obtain ⟨_,hn,h⟩ := bind_eq_ok.mp h
  obtain ⟨⟨hloc,htask⟩,hlock,hchan⟩ := need_eq_ok.mp hn
  cases h
  have hp := curproc_eq_ok.mp hp
  exact .slept hp hloc (hp ▸ htask) hlock hchan

theorem wakeup_effect {chan : Chan} (h : m.wakeup b c chan = .ok m') :
    Effect b m c (.wakeup chan) m' := by
  unfold wakeup at h
  obtain ⟨_,hn,h⟩ := bind_eq_ok.mp h
  obtain ⟨_,hlock,hchan⟩ := need_eq_ok.mp hn
  obtain ⟨k,hk,h⟩ := bind_eq_ok.mp h
  cases h
  exact .woke hlock hchan hk

theorem timer_effect (h : m.timer b c = .ok m') : Effect b m c .timer m' := by
  unfold timer at h
  split at h
  · rename_i hloc
    split_ifs at h with hc
    · obtain ⟨k,hk,h⟩ := bind_eq_ok.mp h
      cases h
      exact .tickIdle hc hloc hk
    · cases h
      exact .timerIdle hc hloc
  · rename_i hloc
    split_ifs at h with hc
    · obtain ⟨k,hk,h⟩ := bind_eq_ok.mp h
      cases h
      exact .tickCode hc hloc hk
    · obtain ⟨p,hp,h⟩ := bind_eq_ok.mp h
      cases h
      exact .timerCode hc (curproc_eq_ok.mp hp) hloc
  · cases h

theorem wakeTicks_effect (h : m.wakeTicks b c = .ok m') : Effect b m c .wakeTicks m' := by
  unfold wakeTicks at h
  obtain ⟨_,hn,h⟩ := bind_eq_ok.mp h
  have hlock := need_eq_ok.mp hn
  split at h
  · rename_i hloc
    obtain ⟨k,hk,h⟩ := bind_eq_ok.mp h
    cases h
    exact .wokeTicksIdle hloc hlock hk
  · rename_i hloc
    obtain ⟨p,hp,h⟩ := bind_eq_ok.mp h
    obtain ⟨k,hk,h⟩ := bind_eq_ok.mp h
    cases h
    exact .wokeTicksCode (curproc_eq_ok.mp hp) hloc hlock hk
  · cases h

theorem sched_effect (h : m.sched b c = .ok m') : Effect b m c .sched m' := by
  unfold sched at h
  obtain ⟨_,hn,h⟩ := bind_eq_ok.mp h
  obtain ⟨hloc,hlock⟩ := need_eq_ok.mp hn
  cases b with
  | default =>
    cases h
    exact .schedScan hloc hlock (.inl rfl)
  | pbs =>
    cases h
    exact .schedScan hloc hlock (.inr ⟨rfl,rfl⟩)
  | fcfs =>
    cases hm : minctimeProc m.kern with
    | none =>
      simp only [hm] at h
      cases h
      exact .schedFcfsNone hloc hlock rfl hm
    | some p =>
      simp only [hm] at h
      cases h
      exact .schedFcfs hloc hlock rfl hm
  | mlfq =>
    obtain ⟨⟨a,k⟩,hs,h⟩ := bind_eq_ok.mp h
    cases a with
    | none =>
      cases h
      exact .schedMlfqNone hloc hlock rfl hs
    | some p =>
      obtain ⟨k',hd,h⟩ := bind_eq_ok.mp h
      cases h
      exact .schedMlfq hloc hlock rfl hs hd

theorem resume_effect (h : m.resume c = .ok m') : Effect b m c .resume m' := by
  unfold resume at h
  obtain ⟨p,hp,h⟩ := bind_eq_ok.mp h
  obtain ⟨_,hn,h⟩ := bind_eq_ok.mp h
  obtain ⟨hloc,hlock⟩ := need_eq_ok.mp hn
  have hp := curproc_eq_ok.mp hp
  cases hx : m.ctx p with
  | forkret =>
    rw [hx] at h
    cases h
    exact .resumed hp hloc hlock (.inl hx)
  | yielded =>
    rw [hx] at h
    cases h
    exact .resumed hp hloc hlock (.inr hx)
  | slept =>
    rw [hx] at h
    cases h
    exact .resumedSlept hp hloc hlock hx
  | waiting x =>
    rw [hx] at h
    cases h
    exact .resumedWait hp hloc hlock hx

theorem back_effect (h : m.back b c = .ok m') : Effect b m c .back m' := by
  unfold back at h
  obtain ⟨p,hp,h⟩ := bind_eq_ok.mp h
  obtain ⟨_,hn,h⟩ := bind_eq_ok.mp h
  obtain ⟨hloc,hlock⟩ := need_eq_ok.mp hn
  have hp := curproc_eq_ok.mp hp
  cases b with
  | default =>
    cases h
    exact .backScan hp hloc hlock (.inl rfl)
  | fcfs =>
    cases h
    exact .backRelease hp hloc hlock (.inl rfl)
  | pbs =>
    simp only at h
    split_ifs at h with hlt
    · cases h
      exact .backRelease hp hloc hlock (.inr ⟨rfl,hlt⟩)
    · cases h
      exact .backScan hp hloc hlock (.inr ⟨rfl,rfl,not_lt.mp hlt⟩)
  | mlfq =>
    obtain ⟨k,hk,h⟩ := bind_eq_ok.mp h
    cases h
    exact .backMlfq hp hloc hlock rfl hk

theorem stepOn_effect {op : Op} (h : m.stepOn b c op = .ok m') : Effect b m c op m' := by
  cases op with
  | allocproc => exact allocproc_effect h
  | kalloc success => exact kalloc_effect h
  | copyuvm success => exact copyuvm_effect h
  | setRunnable => exact setRunnable_effect h
  | exit => exact exit_effect h
  | wait x => exact wait_effect h
  | sleep chan => exact sleep_effect h
  | wakeup chan => exact wakeup_effect h
  | kill pid =>
    obtain ⟨_,hn,h⟩ := bind_eq_ok.mp h
    cases h
    exact .killed (need_eq_ok.mp hn).2
  | setPrio v =>
    obtain ⟨p,hp,h⟩ := bind_eq_ok.mp h
    obtain ⟨_,hn,h⟩ := bind_eq_ok.mp h
    cases h
    exact .prioSet (curproc_eq_ok.mp hp) (need_eq_ok.mp hn).2
  | fault =>
    obtain ⟨p,hp,h⟩ := bind_eq_ok.mp h
    obtain ⟨_,_,h⟩ := bind_eq_ok.mp h
    cases h
    exact .faulted (curproc_eq_ok.mp hp)
  | timer => exact timer_effect h
  | wakeTicks => exact wakeTicks_effect h
  | tail =>
    obtain ⟨p,hp,h⟩ := bind_eq_ok.mp h
    obtain ⟨_,hn,h⟩ := bind_eq_ok.mp h
    obtain ⟨l,hl,h⟩ := bind_eq_ok.mp h
    cases h
    exact .decided (curproc_eq_ok.mp hp) (need_eq_ok.mp hn) hl
  | preempt =>
    obtain ⟨p,hp,h⟩ := bind_eq_ok.mp h
    obtain ⟨_,hn,h⟩ := bind_eq_ok.mp h
    obtain ⟨hloc,hlock⟩ := need_eq_ok.mp hn
    cases h
    simpa only [decide_eq_true_eq] using
      Effect.preempted (b := b) (curproc_eq_ok.mp hp) hloc hlock rfl
  | yield =>
    obtain ⟨p,hp,h⟩ := bind_eq_ok.mp h
    obtain ⟨_,hn,h⟩ := bind_eq_ok.mp h
    obtain ⟨hloc,hlock⟩ := need_eq_ok.mp hn
    cases h
    exact .yielded (curproc_eq_ok.mp hp) hloc hlock
  | sched => exact sched_effect h
  | resume => exact resume_effect h
  | back => exact back_effect h

end Machine
end Xv6
