import OscAssignments.Xv6.Sane

namespace Xv6
open Runs

structure Quiet (k k' : Kernel) : Prop where
  state : ∀ p, (k'.proc p).state = (k.proc p).state ∨
    (k.proc p).state = .sleeping ∧ (k'.proc p).state = .runnable ∨
      (k.proc p).state = .runnable ∧ (k'.proc p).state = .running
  pid : ∀ p, (k'.proc p).pid = (k.proc p).pid
  parent : ∀ p, (k'.proc p).parent = (k.proc p).parent
  chan : ∀ p, (k'.proc p).state = .sleeping → (k'.proc p).chan = (k.proc p).chan
  nextpid : k'.nextpid = k.nextpid
  initproc : k'.initproc = k.initproc

theorem SameFaces.quiet {k k' : Kernel} (h : SameFaces k k') : Quiet k k' :=
  ⟨fun p => .inl (h.state p),h.pid,h.parent,fun p _ => h.chan p,h.nextpid,h.initproc⟩

theorem SameFaces.trans_quiet {k k' k'' : Kernel} (h : SameFaces k k') (h' : Quiet k' k'') :
    Quiet k k'' where
  state p := by
    rw [← h.state p]
    exact h'.state p
  pid p := (h'.pid p).trans (h.pid p)
  parent p := (h'.parent p).trans (h.parent p)
  chan p hp := (h'.chan p hp).trans (h.chan p)
  nextpid := h'.nextpid.trans h.nextpid
  initproc := h'.initproc.trans h.initproc

theorem Quiet.trans_faces {k k' k'' : Kernel} (h : Quiet k k') (h' : SameFaces k' k'') :
    Quiet k k'' where
  state p := by
    rw [h'.state p]
    exact h.state p
  pid p := (h'.pid p).trans (h.pid p)
  parent p := (h'.parent p).trans (h.parent p)
  chan p hp := (h'.chan p).trans (h.chan p ((h'.state p).symm.trans hp))
  nextpid := h'.nextpid.trans h.nextpid
  initproc := h'.initproc.trans h.initproc

theorem Wakes.quiet {k k' : Kernel} (h : Wakes k k')
    (hpar : ∀ p, (k'.proc p).parent = (k.proc p).parent) : Quiet k k' :=
  ⟨fun p => (h.state p).imp_right .inl,h.pid,hpar,fun p _ => h.chan p,h.nextpid,h.initproc⟩

theorem quiet_setProc {k : Kernel} {p : Slot} {r : Proc} (hpid : r.pid = (k.proc p).pid)
    (hpar : r.parent = (k.proc p).parent)
    (hst : (k.proc p).state = .runnable ∨ (k.proc p).state = .running)
    (hr : r.state = .running) : Quiet k (k.setProc p r) := by
  refine ⟨?_,?_,?_,?_,rfl,rfl⟩ <;> intro x <;> by_cases hx : x = p
  · subst hx
    rcases hst with hst | hst <;> simp [hst,hr]
  all_goals simp [hx,hpid,hpar,hr]

theorem kill_parent (k : Kernel) (pid : Int) (p : Slot) :
    ((kill k pid).proc p).parent = (k.proc p).parent := by
  unfold kill
  cases allSlots.find? fun p => ((k.proc p).pid : Int) = pid with
  | none => rfl
  | some x =>
    simp only
    split_ifs <;> by_cases hx : p = x <;> simp [Kernel.setState,hx]

theorem forkCopy_faces (b : Build) (k : Kernel) (p np : Slot) :
    SameFaces (k.setProc np ((forkCopy b k p np).proc np)) (forkCopy b k p np) := by
  unfold forkCopy
  simp only
  split_ifs <;> refine ⟨?_,?_,?_,?_,?_,rfl,rfl⟩ <;> intro x <;> by_cases hx : x = np <;> simp [hx]

theorem Quiet.sleeping {k k' : Kernel} {p : Slot} (h : Quiet k k')
    (hp : (k'.proc p).state = .sleeping) : (k.proc p).state = .sleeping := by
  rcases h.state p with hs | ⟨_,hs⟩ | ⟨_,hs⟩
  · exact hs ▸ hp
  · rw [hs] at hp
    cases hp
  · rw [hs] at hp
    cases hp

theorem Quiet.state_iff {k k' : Kernel} {p : Slot} {st : ProcState} (h : Quiet k k')
    (hst : st = .unused ∨ st = .embryo ∨ st = .zombie) :
    (k'.proc p).state = st ↔ (k.proc p).state = st := by
  rcases h.state p with hs | ⟨hs,hs'⟩ | ⟨hs,hs'⟩
  · rw [hs]
  · rcases hst with rfl | rfl | rfl <;> simp [hs,hs']
  · rcases hst with rfl | rfl | rfl <;> simp [hs,hs']

def Op.idles : Op → Bool
  | .wakeup _ => true
  | .kill _ => true
  | .setPrio _ => true
  | .fault => true
  | .timer => true
  | .wakeTicks => true
  | .tail => true
  | .preempt => true
  | .sched => true
  | .back => true
  | _ => false

namespace Machine
variable {b : Build} {m m' : Machine} {c : Nat} {op : Op}

structure Idles (m m' : Machine) : Prop where
  kern : Quiet m.kern m'.kern
  task : m'.task = m.task
  ctx : m'.ctx = m.ctx
  booting : ∀ x, (m'.cpu x).loc = .booting → (m.cpu x).loc = .booting

theorem idles_setLoc {k : Kernel} {l : Loc} (hk : Quiet m.kern k) (hl : l ≠ .booting) :
    Idles m ({ m with kern := k }.setLoc c l) := by
  refine ⟨hk,rfl,rfl,?_⟩
  intro x hx
  by_cases hxc : x = c
  · simp [hxc] at hx
    exact absurd hx hl
  · simpa [hxc] using hx

theorem idles_kern {k : Kernel} (hk : Quiet m.kern k) : Idles m { m with kern := k } :=
  ⟨hk,rfl,rfl,fun _ hx => hx⟩

theorem idles_release {k : Kernel} (hk : Quiet m.kern k) :
    Idles m ({ m with kern := k }.release c) := by
  refine ⟨hk,rfl,rfl,?_⟩
  intro x hx
  by_cases hxc : x = c
  · simp [release,hxc] at hx
  · simpa [release,hxc] using hx

theorem idles_enter {k : Kernel} {p : Slot} {prio : Int} (hk : Quiet m.kern k) :
    Idles m ({ m with kern := k }.enter c p prio) := by
  refine ⟨hk,rfl,rfl,?_⟩
  intro x hx
  by_cases hxc : x = c
  · simp [enter,hxc] at hx
  · simpa [enter,hxc] using hx

theorem idles_scan {next : Nat} {prio : Int} : Idles m (m.scan b c next prio) := by
  unfold scan
  cases hs : scanTable b m.kern next prio with
  | none => exact idles_release (SameFaces.refl _).quiet
  | some p =>
    have hp := List.find?_some hs
    simp only [scanned,Bool.and_eq_true,decide_eq_true_eq] at hp
    exact idles_enter (quiet_setProc rfl rfl (.inl hp.1.2) rfl)

theorem dispatchMlfq_quiet {k k' : Kernel} {p : Slot} (h : dispatchMlfq k p = .ok k') :
    Quiet k k' := by
  obtain ⟨hst,q,a,k1,_,hpop,rfl⟩ := dispatchMlfq_eq_ok h
  have hf := popFront_faces hpop
  exact hf.trans_quiet (quiet_setProc rfl rfl (.inl ((hf.state p).trans hst)) rfl)

theorem Effect.idles (he : Effect b m c op m') (hop : op.idles = true) :
    Idles m m' := by
  cases he with
  | woke _ _ hk =>
    have hw := wakeup1_woken hk
    exact idles_kern (hw.toWakes.quiet hw.parent)
  | killed _ => exact idles_kern ((kill_wakes _ _).quiet (kill_parent _ _))
  | prioSet _ _ => exact idles_kern (setPrio_faces _ _ _).quiet
  | @faulted p _ =>
    refine idles_kern ((fault_wakes _ _).quiet ?_)
    intro x
    by_cases hx : x = p <;> simp [hx]
  | tickIdle _ _ hk => exact idles_setLoc (advanceTicks_faces hk).quiet (by decide)
  | timerIdle _ _ => exact idles_kern (SameFaces.refl _).quiet
  | tickCode _ _ hk => exact idles_setLoc (advanceTicks_faces hk).quiet (by decide)
  | timerCode _ _ _ => exact idles_setLoc (account_faces _ _).quiet (by decide)
  | wokeTicksIdle _ _ hk =>
    have hw := wakeup1_woken hk
    exact idles_setLoc (hw.toWakes.quiet hw.parent) (by decide)
  | wokeTicksCode _ _ _ hk =>
    have hw := wakeup1_woken hk
    exact idles_setLoc ((hw.toWakes.quiet hw.parent).trans_faces (account_faces _ _)) (by decide)
  | decided _ _ hl =>
    refine idles_setLoc (SameFaces.refl _).quiet ?_
    rcases tailTarget_loc hl with rfl | rfl | rfl <;> decide
  | @preempted p y _ _ _ _ => exact idles_setLoc (SameFaces.refl _).quiet (by cases y <;> decide)
  | schedScan _ _ _ => exact idles_scan
  | schedFcfs _ _ _ hmin =>
    exact idles_enter (quiet_setProc rfl rfl (.inl (minctimeProc_runnable hmin)) rfl)
  | schedFcfsNone _ _ _ _ => exact idles_release (SameFaces.refl _).quiet
  | schedMlfq _ _ _ hsel hdis =>
    exact idles_enter ((selectMlfq_faces hsel).trans_quiet (dispatchMlfq_quiet hdis))
  | schedMlfqNone _ _ _ hsel => exact idles_release (selectMlfq_faces hsel).quiet
  | backScan _ _ _ _ => exact idles_scan
  | backRelease _ _ _ _ => exact idles_release (SameFaces.refl _).quiet
  | backMlfq _ _ _ _ hk => exact idles_release (requeue_faces hk).quiet
  | _ => cases hop

theorem clearChan_idles {p : Slot} (hs : Sane m) (hp : (m.cpu c).proc = some p)
    (hloc : (m.cpu c).loc = .switched) : Idles m { m with kern := clearChan m.kern p } := by
  have hrun := hs.running c p hp (by simp [hloc])
  exact idles_kern (quiet_setProc rfl rfl (.inr hrun) hrun)

structure Family (m : Machine) : Prop where
  waiting : ∀ p x, (m.kern.proc p).state = .sleeping → m.ctx p = .waiting x →
    (m.kern.proc p).chan = some (.proc p) ∧
      ∀ z, (m.kern.proc z).parent = some p → (m.kern.proc z).state ≠ .zombie
  unused : ∀ p, (m.kern.proc p).state = .unused → (m.kern.proc p).parent = none
  fresh : ∀ o np, m.task o = .alloc np ∨ m.task o = .enqueued np → (m.kern.proc np).parent = none
  copied : ∀ o np, m.task o = .copied np → ∃ p, o = some p ∧ (m.kern.proc np).parent = some p
  init : ∀ i, m.kern.initproc = some i → (m.kern.proc i).parent = none ∧
    (m.kern.proc i).state ≠ .unused ∧ (m.kern.proc i).state ≠ .zombie
  heir : ∀ p np, (m.task (some p)).child = some np → m.kern.initproc ≠ some np
  booted : ∀ np, m.task none = .enqueued np → m.kern.initproc = some np
  self : ∀ p, (m.kern.proc p).parent ≠ some p

theorem family_boot : Family boot where
  waiting _ _ h := by cases h
  unused _ _ := rfl
  fresh _ _ h := by rcases h with h | h <;> cases h
  copied _ _ h := by cases h
  init _ h := by cases h
  heir _ _ h := by cases h
  booted _ h := by cases h
  self _ h := by cases h

namespace Family

theorem congr (h : Family m) (hk : m'.kern = m.kern) (ht : m'.task = m.task)
    (hc : m'.ctx = m.ctx) : Family m' := by
  cases m
  cases m'
  cases hk
  cases ht
  cases hc
  exact ⟨h.waiting,h.unused,h.fresh,h.copied,h.init,h.heir,h.booted,h.self⟩

theorem idles (h : Family m) (hi : Idles m m') : Family m' := by
  obtain ⟨hk,ht,hc,_⟩ := hi
  refine ⟨?_,?_,?_,?_,?_,?_,?_,?_⟩
  · intro p x hp hx
    obtain ⟨hch,hz⟩ := h.waiting p x (hk.sleeping hp) (hc ▸ hx)
    refine ⟨(hk.chan p hp).trans hch,?_⟩
    intro z hz' hzs
    exact hz z ((hk.parent z).symm.trans hz') ((hk.state_iff (by simp)).mp hzs)
  · intro p hp
    exact (hk.parent p).trans (h.unused p ((hk.state_iff (by simp)).mp hp))
  · intro o np ho
    exact (hk.parent np).trans (h.fresh o np (ht ▸ ho))
  · intro o np ho
    obtain ⟨p,hp,hpar⟩ := h.copied o np (ht ▸ ho)
    exact ⟨p,hp,(hk.parent np).trans hpar⟩
  · intro i hin
    obtain ⟨h1,h2,h3⟩ := h.init i (hk.initproc ▸ hin)
    exact ⟨(hk.parent i).trans h1,fun e => h2 ((hk.state_iff (by simp)).mp e),
      fun e => h3 ((hk.state_iff (by simp)).mp e)⟩
  · intro p np hp
    rw [hk.initproc]
    exact h.heir p np (ht ▸ hp)
  · intro np hnp
    rw [hk.initproc]
    exact h.booted np (ht ▸ hnp)
  · intro p
    rw [hk.parent]
    exact h.self p

theorem alloc (h : Family m) {np : Slot} {o : Option Slot}
    (hu : (m.kern.proc np).state = .unused) (ho : m.task o = .code) :
    Family ({ m with kern := takeSlot m.kern np }.setTask o (.alloc np)) := by
  have hst := takeSlot_state m.kern np
  have hpar := takeSlot_parent m.kern np
  have hch := takeSlot_chan m.kern np
  refine ⟨?_,?_,?_,?_,?_,?_,?_,?_⟩
  · intro p x hp hx
    have hpn : p ≠ np := by
      rintro rfl
      simp [hst] at hp
    obtain ⟨h1,h2⟩ := h.waiting p x (by simpa [hst,hpn] using hp) hx
    refine ⟨(hch p).trans h1,?_⟩
    intro z hz
    simp only [setTask_kern,hst]
    split_ifs
    · decide
    · exact h2 z ((hpar z).symm.trans hz)
  · intro p hp
    have hpn : p ≠ np := by
      rintro rfl
      simp [hst] at hp
    exact (hpar p).trans (h.unused p (by simpa [hst,hpn] using hp))
  · intro o' n hn
    refine (hpar n).trans ?_
    by_cases ho' : o' = o
    · simp [ho'] at hn
      exact hn ▸ h.unused np hu
    · exact h.fresh o' n (by simpa [ho'] using hn)
  · intro o' n hn
    have ho' : o' ≠ o := by
      rintro rfl
      simp at hn
    obtain ⟨p,hp,hp'⟩ := h.copied o' n (by simpa [ho'] using hn)
    exact ⟨p,hp,(hpar n).trans hp'⟩
  · intro i hi
    obtain ⟨h1,h2,h3⟩ := h.init i hi
    have hin : i ≠ np := by
      rintro rfl
      exact h2 hu
    exact ⟨(hpar i).trans h1,by simpa [hst,hin] using h2,by simpa [hst,hin] using h3⟩
  · intro p n hn hi
    by_cases hp : some p = o
    · simp [hp,Task.child] at hn
      exact (h.init n hi).2.1 (hn ▸ hu)
    · exact h.heir p n (by simpa [hp] using hn) hi
  · intro n hn
    have hno : none ≠ o := by
      rintro rfl
      simp at hn
    exact h.booted n (by simpa [hno] using hn)
  · intro p hp
    exact h.self p ((hpar p).symm.trans hp)

theorem setCtx (h : Family m) {np : Slot} (hnp : (m.kern.proc np).state = .embryo) {x : Ctx} :
    Family (m.setCtx np x) := by
  refine ⟨?_,h.unused,h.fresh,h.copied,h.init,h.heir,h.booted,h.self⟩
  intro p y hp hy
  have hpn : p ≠ np := by
    rintro rfl
    rw [setCtx_kern,hnp] at hp
    cases hp
  exact h.waiting p y hp (by simpa [hpn] using hy)

theorem setup (h : Family m) {np : Slot} {o : Option Slot} (ho : m.task o = .alloc np)
    (hin : o = none → m.kern.initproc = some np) : Family (m.setTask o (.enqueued np)) := by
  refine ⟨h.waiting,h.unused,?_,?_,h.init,?_,?_,h.self⟩
  · intro o' n hn
    by_cases ho' : o' = o
    · simp [ho'] at hn
      exact hn ▸ h.fresh o np (.inl ho)
    · exact h.fresh o' n (by simpa [ho'] using hn)
  · intro o' n hn
    have ho' : o' ≠ o := by
      rintro rfl
      simp at hn
    exact h.copied o' n (by simpa [ho'] using hn)
  · intro p n hn
    by_cases hp : some p = o
    · subst hp
      simp [Task.child] at hn
      exact hn ▸ h.heir p np (by rw [ho]; rfl)
    · exact h.heir p n (by simpa [hp] using hn)
  · intro n hn
    by_cases hno : none = o
    · simp [hno] at hn
      exact hn ▸ hin hno.symm
    · exact h.booted n (by simpa [hno] using hn)

theorem setInit (h : Family m) (hs : Sane m) {np : Slot} (ho : m.task none = .alloc np) :
    Family { m with kern := { m.kern with initproc := some np } } := by
  have he := h.fresh none np (.inl ho)
  have hst := hs.child none np (by rw [ho]; rfl)
  refine ⟨h.waiting,h.unused,h.fresh,h.copied,?_,?_,?_,h.self⟩
  · rintro i hi
    cases hi
    exact ⟨he,by simp [hst],by simp [hst]⟩
  · rintro p n hn hi
    cases hi
    cases hs.child_inj (some p) none np hn (by rw [ho]; rfl)
  · intro n hn
    rw [ho] at hn
    cases hn

theorem endTask (h : Family m) (hs : Sane m) {np : Slot} {o : Option Slot} {st : ProcState}
    (ho : (m.task o).child = some np) (hst : st = .runnable ∨ st = .unused ∧
      m.kern.initproc ≠ some np ∧ (m.kern.proc np).parent = none) :
    Family ({ m with kern := m.kern.setState np st }.setTask o .code) := by
  have hnp := hs.child o np ho
  have hsx := m.kern.setState_state np st
  have hpar := m.kern.setState_parent np st
  have hch := m.kern.setState_chan np st
  have hne : ∀ {o' : Option Slot} {t : Task}, t ≠ .code →
      (if o' = o then Task.code else m.task o') = t → o' ≠ o ∧ m.task o' = t := by
    intro o' t ht he
    split_ifs at he with hoo
    · exact absurd he.symm ht
    · exact ⟨hoo,he⟩
  refine ⟨?_,?_,?_,?_,?_,?_,?_,?_⟩
  · intro p x hp hx
    have hpn : p ≠ np := by
      rintro rfl
      simp only [setTask_kern,hsx,if_true] at hp
      rcases hst with hst | hst <;> simp [hst] at hp
    obtain ⟨h1,h2⟩ := h.waiting p x (by simpa [hsx,hpn] using hp) hx
    refine ⟨(hch p).trans h1,?_⟩
    intro z hz
    simp only [setTask_kern,hsx]
    split_ifs
    · rcases hst with hst | hst <;> simp [hst]
    · exact h2 z ((hpar z).symm.trans hz)
  · intro p hp
    refine (hpar p).trans ?_
    rcases eq_or_ne p np with rfl | hpn
    · rcases hst with rfl | hst
      · simp [hsx] at hp
      · exact hst.2.2
    · exact h.unused p (by simpa [hsx,hpn] using hp)
  · intro o' n hn
    refine (hpar n).trans (h.fresh o' n ?_)
    simp only [setTask_task] at hn
    exact hn.imp (fun e => (hne (by simp) e).2) (fun e => (hne (by simp) e).2)
  · intro o' n hn
    obtain ⟨p,hp,hp'⟩ := h.copied o' n (hne (by simp) (by simpa using hn)).2
    exact ⟨p,hp,(hpar n).trans hp'⟩
  · intro i hi
    obtain ⟨h1,h2,h3⟩ := h.init i hi
    refine ⟨(hpar i).trans h1,?_,?_⟩ <;> simp only [setTask_kern,hsx] <;> split_ifs with hin
    · rcases hst with hst | hst
      · simp [hst]
      · exact absurd (hin ▸ hi) hst.2.1
    · exact h2
    · rcases hst with hst | hst <;> simp [hst]
    · exact h3
  · intro p n hn
    by_cases hp : some p = o
    · simp [hp,Task.child] at hn
    · exact h.heir p n (by simpa [hp] using hn)
  · intro n hn
    exact h.booted n (hne (by simp) (by simpa using hn)).2
  · intro p hp
    exact h.self p ((hpar p).symm.trans hp)

theorem forkCopy (h : Family m) (hs : Sane m) {p np : Slot}
    (hrun : (m.kern.proc p).state = .running) (ho : m.task (some p) = .enqueued np) :
    Family ({ m with kern := forkCopy b m.kern p np }.setTask (some p) (.copied np)) := by
  have hnp := hs.child (some p) np (by rw [ho]; rfl)
  have hni := h.heir p np (by rw [ho]; rfl)
  obtain ⟨hst,_,_⟩ := forkCopy_same b m.kern p np
  have hpar : ∀ x, ((Xv6.forkCopy b m.kern p np).proc x).parent =
      if x = np then some p else (m.kern.proc x).parent := by
    intro x
    unfold Xv6.forkCopy
    by_cases hx : x = np <;> split_ifs <;> simp [hx]
  have hch : ∀ x, ((Xv6.forkCopy b m.kern p np).proc x).chan = (m.kern.proc x).chan := by
    intro x
    unfold Xv6.forkCopy
    by_cases hx : x = np <;> split_ifs <;> simp [hx]
  have hinit : (Xv6.forkCopy b m.kern p np).initproc = m.kern.initproc := by
    unfold Xv6.forkCopy
    split_ifs <;> rfl
  have hother : ∀ {o' n}, o' ≠ some p → (m.task o').child = some n → n ≠ np := by
    rintro o' n ho' hn rfl
    exact ho' (hs.child_inj o' (some p) n hn (by rw [ho]; rfl))
  refine ⟨?_,?_,?_,?_,?_,?_,?_,?_⟩
  · intro q x hq hx
    obtain ⟨h1,h2⟩ := h.waiting q x ((hst q).symm.trans hq) hx
    refine ⟨(hch q).trans h1,?_⟩
    intro z hz
    have hzs := hst z
    simp only [setTask_kern] at hz ⊢
    rw [hzs]
    rw [hpar] at hz
    split_ifs at hz with hzn
    · rw [hzn,hnp]
      decide
    · exact h2 z hz
  · intro q hq
    have hqn : q ≠ np := by
      rintro rfl
      rw [setTask_kern,hst,hnp] at hq
      cases hq
    simpa [hpar,hqn] using h.unused q ((hst q).symm.trans hq)
  · intro o' n hn
    have ho' : o' ≠ some p := by
      rintro rfl
      simp at hn
    have hn' : m.task o' = .alloc n ∨ m.task o' = .enqueued n := by simpa [ho'] using hn
    have hnn := hother ho' (n := n) (by rcases hn' with e | e <;> rw [e] <;> rfl)
    simpa [hpar,hnn] using h.fresh o' n hn'
  · intro o' n hn
    by_cases ho' : o' = some p
    · simp [ho'] at hn
      exact ⟨p,ho',by rw [setTask_kern,hpar,if_pos hn.symm]⟩
    · have hn' : m.task o' = .copied n := by simpa [ho'] using hn
      have hnn := hother ho' (n := n) (by rw [hn']; rfl)
      simpa [hpar,hnn] using h.copied o' n hn'
  · intro i hi
    obtain ⟨h1,h2,h3⟩ := h.init i (hinit ▸ hi)
    have hin : i ≠ np := by
      rintro rfl
      exact hni (hinit ▸ hi)
    refine ⟨by simpa [hpar,hin] using h1,?_,?_⟩ <;> rw [setTask_kern,hst]
    · exact h2
    · exact h3
  · intro q n hn
    rw [setTask_kern,hinit]
    rcases eq_or_ne q p with rfl | hq
    · simp [Task.child] at hn
      exact hn ▸ hni
    · exact h.heir q n (by simpa [hq] using hn)
  · intro n hn
    rw [setTask_kern,hinit]
    exact h.booted n (by simpa using hn)
  · intro q hq
    rw [setTask_kern,hpar] at hq
    split_ifs at hq with hqn
    · cases hq
      rw [hqn,hnp] at hrun
      cases hrun
    · exact h.self q hq

theorem leave (h : Family m) {p : Slot} {r : Proc} {x : Ctx}
    (hpar : r.parent = (m.kern.proc p).parent) (hst : r.state = .runnable ∨ r.state = .sleeping)
    (hw : ∀ y, r.state = .sleeping → x = .waiting y → r.chan = some (.proc p) ∧
      ∀ z, (m.kern.proc z).parent = some p → (m.kern.proc z).state ≠ .zombie) :
    Family ({ m with kern := m.kern.setProc p r }.leave c p x) := by
  have hsz : ∀ z, ((m.kern.setProc p r).proc z).state = .zombie →
      (m.kern.proc z).state = .zombie := by
    intro z hz
    by_cases hzp : z = p
    · rcases hst with hst | hst <;> simp [hzp,hst] at hz
    · simpa [hzp] using hz
  have hpx : ∀ z, ((m.kern.setProc p r).proc z).parent = (m.kern.proc z).parent := by
    intro z
    by_cases hz : z = p <;> simp [hz,hpar]
  refine ⟨?_,?_,?_,?_,?_,h.heir,h.booted,?_⟩
  · intro q y hq hy
    rcases eq_or_ne q p with rfl | hqp
    · obtain ⟨h1,h2⟩ := hw y (by simpa [Machine.leave] using hq) (by simpa [Machine.leave] using hy)
      refine ⟨by simpa [Machine.leave] using h1,?_⟩
      intro z hz hzs
      exact h2 z ((hpx z).symm.trans hz) (hsz z hzs)
    · obtain ⟨h1,h2⟩ := h.waiting q y (by simpa [Machine.leave,hqp] using hq)
        (by simpa [Machine.leave,hqp] using hy)
      refine ⟨by simpa [Machine.leave,hqp] using h1,?_⟩
      intro z hz hzs
      exact h2 z ((hpx z).symm.trans hz) (hsz z hzs)
  · intro q hq
    have hqp : q ≠ p := by
      rintro rfl
      rcases hst with hst | hst <;> simp [Machine.leave,hst] at hq
    exact (hpx q).trans (h.unused q (by simpa [Machine.leave,hqp] using hq))
  · intro o n hn
    exact (hpx n).trans (h.fresh o n hn)
  · intro o n hn
    obtain ⟨q,hq,hq'⟩ := h.copied o n hn
    exact ⟨q,hq,(hpx n).trans hq'⟩
  · intro i hi
    obtain ⟨h1,h2,h3⟩ := h.init i hi
    refine ⟨(hpx i).trans h1,?_,fun e => h3 (hsz i e)⟩
    by_cases hip : i = p
    · rcases hst with hst | hst <;> simp [Machine.leave,hip,hst]
    · simpa [Machine.leave,hip] using h2
  · intro q hq
    exact h.self q ((hpx q).symm.trans hq)

theorem exited (h : Family m) {p : Slot} {k : Kernel} {x : Ctx} (hp : m.task (some p) = .code)
    (hnp : m.kern.initproc ≠ some p) (hk : Exited p m.kern k) :
    Family ({ m with kern := k }.leave c p x) := by
  have hz : ∀ z, (k.proc z).state = .zombie → z = p ∨ (m.kern.proc z).state = .zombie := by
    intro z hzs
    by_cases hzp : z = p
    · exact .inl hzp
    · rcases hk.others z hzp with e | ⟨_,e⟩
      · exact .inr (e ▸ hzs)
      · rw [e] at hzs
        cases hzs
  have hsl : ∀ q, (k.proc q).state = .sleeping → q ≠ p ∧ (m.kern.proc q).state = .sleeping := by
    intro q hq
    have hqp : q ≠ p := by
      rintro rfl
      rw [hk.self] at hq
      cases hq
    refine ⟨hqp,?_⟩
    rcases hk.others q hqp with e | ⟨e,_⟩
    · exact e ▸ hq
    · exact e
  have hnone : ∀ q, (m.kern.proc q).parent = none → (k.proc q).parent = none := by
    intro q hq
    rw [hk.parent,hq]
    simp
  refine ⟨?_,?_,?_,?_,?_,?_,?_,?_⟩
  · intro q y hq hy
    obtain ⟨hqp,hqs⟩ := hsl q hq
    obtain ⟨h1,h2⟩ := h.waiting q y hqs (by simpa [Machine.leave,hqp] using hy)
    refine ⟨(hk.chan q).trans h1,?_⟩
    intro z hpar hzs
    change (k.proc z).parent = some q at hpar
    rw [hk.parent] at hpar
    split_ifs at hpar with hzp
    · rcases hz z hzs with rfl | hzz
      · exact h.self z hzp
      · exact hk.awake_init z hzp hzz q (by rw [h1,hpar]; rfl) hq
    · rcases hz z hzs with rfl | hzz
      · exact hk.awake_parent q (by rw [h1,hpar]; rfl) hq
      · exact h2 z hpar hzz
  · intro q hq
    have hqp : q ≠ p := by
      rintro rfl
      cases hk.self.symm.trans hq
    apply hnone q
    rcases hk.others q hqp with e | ⟨_,e⟩
    · exact h.unused q (e ▸ hq)
    · cases e.symm.trans hq
  · intro o n hn
    exact hnone n (h.fresh o n hn)
  · intro o n hn
    obtain ⟨q,rfl,hq⟩ := h.copied o n hn
    have hqp : q ≠ p := by
      rintro rfl
      cases hp.symm.trans hn
    refine ⟨q,rfl,?_⟩
    change (k.proc n).parent = some q
    rw [hk.parent,hq,if_neg (by simpa using hqp)]
  · intro i hi
    have hi' : m.kern.initproc = some i := hk.initproc ▸ hi
    obtain ⟨h1,h2,h3⟩ := h.init i hi'
    have hip : i ≠ p := by
      rintro rfl
      exact hnp hi'
    refine ⟨hnone i h1,?_,?_⟩
    · intro e
      rcases hk.others i hip with e' | ⟨_,e'⟩
      · exact h2 (e' ▸ e)
      · cases e'.symm.trans e
    · intro e
      rcases hz i e with e' | e'
      · exact hip e'
      · exact h3 e'
  · intro q n hn
    change k.initproc ≠ some n
    rw [hk.initproc]
    exact h.heir q n hn
  · intro n hn
    exact hk.initproc.trans (h.booted n hn)
  · intro q hq
    change (k.proc q).parent = some q at hq
    rw [hk.parent] at hq
    split_ifs at hq with hqp
    · rw [(h.init q hq).1] at hqp
      cases hqp
    · exact h.self q hq

theorem reap (h : Family m) (hs : Sane m) {z : Slot} (hz : (m.kern.proc z).state = .zombie) :
    Family { m with kern := Xv6.reap m.kern z } := by
  have hst := reap_state m.kern z
  have hpar := reap_parent m.kern z
  have hnone : ∀ x, (m.kern.proc x).parent = none →
      ((Xv6.reap m.kern z).proc x).parent = none := by
    intro x hx
    rw [hpar,hx]
    simp
  refine ⟨?_,?_,?_,?_,?_,h.heir,h.booted,?_⟩
  · intro p x hp hx
    have hpz : p ≠ z := by
      rintro rfl
      simp [hst] at hp
    obtain ⟨h1,h2⟩ := h.waiting p x (by simpa [hst,hpz] using hp) hx
    refine ⟨by simpa [Xv6.reap,hpz] using h1,?_⟩
    intro y hy hys
    have hyz : y ≠ z := by
      rintro rfl
      simp [hst] at hys
    exact h2 y (by simpa [hpar,hyz] using hy) (by simpa [hst,hyz] using hys)
  · intro p hp
    change ((Xv6.reap m.kern z).proc p).parent = none
    rw [hpar]
    split_ifs with hpz
    · rfl
    · exact h.unused p (by simpa [hst,hpz] using hp)
  · intro o n hn
    exact hnone n (h.fresh o n hn)
  · intro o n hn
    obtain ⟨p,hp,hpn⟩ := h.copied o n hn
    have hnz : n ≠ z := by
      rintro rfl
      cases hz.symm.trans (hs.child o n (by rw [show m.task o = .copied n from hn]; rfl))
    exact ⟨p,hp,by simpa [hpar,hnz] using hpn⟩
  · intro i hi
    obtain ⟨h1,h2,h3⟩ := h.init i hi
    have hiz : i ≠ z := by
      rintro rfl
      exact h3 hz
    exact ⟨hnone i h1,by simpa [hst,hiz] using h2,by simpa [hst,hiz] using h3⟩
  · intro p hp
    change ((Xv6.reap m.kern z).proc p).parent = some p at hp
    rw [hpar] at hp
    split_ifs at hp
    exact h.self p hp

theorem waitLoop (h : Family m) (hs : Sane m) {p : Slot} {x : Bool} : Family (m.waitLoop c p x) := by
  unfold Machine.waitLoop
  cases hw : waitResult m.kern p with
  | reaped z =>
    exact (h.reap hs (waitResult_reaped hw).2).congr rfl rfl rfl
  | failed => exact h.congr rfl rfl rfl
  | sleep =>
    refine h.leave rfl (.inr rfl) ?_
    intro y _ _
    exact ⟨rfl,waitResult_sleep hw⟩

end Family

theorem effect_family (he : Effect b m c op m') (hs : Sane m) (h : Family m) : Family m' := by
  by_cases hop : op.idles = true
  · exact h.idles (he.idles hop)
  cases he with
  | tableFull _ => exact h
  | alloc _ htask _ hfind =>
    have hu := List.find?_some hfind
    exact h.alloc (by simpa using hu) htask
  | @setup np k hloc ht hk =>
    have hf := setupProc_faces hk
    have he := (hf.state np).trans (hs.child _ _ (by rw [ht]; rfl))
    refine ((h.idles (idles_kern hf.quiet)).setCtx he).setup ht ?_
    intro hn
    have := (hs.proc_none c).mp hn
    simp [hloc,Loc.empty] at this
  | @setupInit np k hloc ht hk =>
    have hf := setupProc_faces hk
    have he := (hf.state np).trans (hs.child _ _ (by rw [ht]; rfl))
    have hn : (m.cpu c).proc = none := (hs.proc_none c).mpr (by simp [hloc,Loc.empty])
    have hi := (h.idles (idles_kern hf.quiet)).setInit (hs.wakes hf.wakes) (hn ▸ ht)
    exact (hi.setCtx he).setup ht fun _ => rfl
  | @allocFailed np hloc ht =>
    obtain ⟨p,hp⟩ := hs.exists_proc (c := c) (by simp [hloc,Loc.empty])
    refine h.endTask hs (by rw [ht]; rfl) (.inr ⟨rfl,?_,h.fresh _ _ (.inl ht)⟩)
    exact h.heir p np (by rw [← hp,ht]; rfl)
  | copied hp hloc ht => exact h.forkCopy hs (hs.running c _ hp (by simp [hloc])) ht
  | copyFailed hp hloc ht =>
    refine h.endTask hs (by rw [ht]; rfl) (.inr ⟨rfl,?_,h.fresh _ _ (.inr ht)⟩)
    exact h.heir _ _ (by rw [ht]; rfl)
  | initRunnable _ _ ht => exact (h.endTask hs (by rw [ht]; rfl) (.inl rfl)).congr rfl rfl rfl
  | forkRunnable _ _ ht => exact h.endTask hs (by rw [ht]; rfl) (.inl rfl)
  | exited _ ht _ _ hk =>
    obtain ⟨hni,hx⟩ := exit_exited hk
    exact h.exited ht hni hx
  | waited _ _ _ _ => exact h.waitLoop hs
  | slept _ _ _ _ _ => exact h.leave rfl (.inr rfl) fun _ _ hx => by cases hx
  | yielded _ _ _ => exact h.leave rfl (.inl rfl) fun _ _ hx => by cases hx
  | resumed _ _ _ _ => exact h.congr rfl rfl rfl
  | resumedSlept hp hloc _ _ =>
    exact (h.idles (clearChan_idles hs hp hloc)).congr rfl rfl rfl
  | resumedWait hp hloc _ _ =>
    exact (h.idles (clearChan_idles hs hp hloc)).waitLoop hs.clearChan
  | _ => exact absurd rfl hop

end Machine
end Xv6
