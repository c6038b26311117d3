import OscAssignments.Xv6.Losing

namespace Xv6
open Runs

def QueuedOnce (k : Kernel) (p : Slot) : Prop :=
  (allLevels.flatMap (window k)).count (some p) = 1 ∧ AtPosition k p

def Dispatchable (k : Kernel) (p : Slot) : Prop :=
  (k.proc p).state = .runnable ∧ (k.proc p).killed = false ∧
    (InQueue k p ∨ ∃ q, k.prioQSize q = 0 ∧ allSlots.find? (runnableAt k q) = some p)

instance (k : Kernel) (p : Slot) : Decidable (Dispatchable k p) :=
  inferInstanceAs (Decidable (_ ∧ _ ∧ (_ ∨ ∃ _, _)))

theorem QOk.queuedOnce {k : Kernel} {L : Queues} {q : Level} {p : Slot} (h : QOk k L)
    (hp : p ∈ L q) : QueuedOnce k p := by
  refine ⟨?_,h.atPosition hp⟩
  have hmem : p ∈ allLevels.flatMap L := List.mem_flatMap.mpr ⟨q,mem_allLevels q,hp⟩
  rw [h.flatMap_window]
  apply List.count_eq_one_of_mem
  · exact h.nodup_all.map (Option.some_injective _)
  · exact List.mem_map_of_mem hmem

section Refilled
variable {k : Kernel} {L : Queues} {q : Level} {p : Slot}

theorem idx_refilled (h : QOk k L) (hp : p ∈ refilled k L allSlots q) :
    getQIdx k p = q.val := by
  unfold refilled at hp
  split_ifs at hp
  · rw [Option.mem_toList] at hp
    have := List.find?_some hp
    simp only [runnableAt,Bool.and_eq_true,decide_eq_true_eq] at this
    exact this.2
  · exact h.idx hp

theorem dispatchable_iff (hk : PidOk k) (h : QOk k L) :
    Dispatchable k p ↔ (∃ q, p ∈ refilled k L allSlots q) ∧ dead k p = false := by
  constructor
  · rintro ⟨hst,hkill,hq⟩
    have hpos := hk.pos p (by simp [hst])
    refine ⟨?_,dead_eq_false.mpr ⟨hkill,by omega,hst⟩⟩
    rcases hq with hq | ⟨q,hz,hf⟩
    · obtain ⟨q,hq⟩ := h.inQueue_iff.mp hq
      exact ⟨q,subset_refilled hq⟩
    · refine ⟨q,?_⟩
      unfold refilled
      rw [if_pos (h.size_eq_zero.mp hz),hf]
      exact List.mem_singleton.mpr rfl
  · rintro ⟨⟨q,hq⟩,hd⟩
    obtain ⟨hkill,_,hst⟩ := dead_eq_false.mp hd
    refine ⟨hst,hkill,?_⟩
    unfold refilled at hq
    split_ifs at hq with hnil
    · exact .inr ⟨q,h.size_eq_zero.mpr hnil,by simpa using hq⟩
    · exact .inl (h.inQueue_iff.mpr ⟨q,hq⟩)

end Refilled

namespace Machine
variable {m m' : Machine} {c ncpu : Nat} {p : Slot} {L : Queues}

theorem reach_queues (h : (xv6 .mlfq ncpu).Reach TickSafe m) : Sane m ∧ ∃ L, QInv m L := by
  refine h.invariant (fun m => Sane m ∧ ∃ L, QInv m L) ⟨sane_boot,_,qInv_boot⟩ ?_
  rintro s a t _ ⟨hs,L,hq⟩ hok ht
  obtain ⟨L',hc⟩ := effect_carried (step_effect ht) hs hq hok
  exact ⟨step_sane hs ht,L',hc.inv⟩

theorem mem_of_not_lost (hs : Sane m) (hlock : m.lock = none) (hno : ¬ Lost m L p)
    (hst : (m.kern.proc p).state = .runnable) : ∃ q, p ∈ L q := by
  by_contra hin
  apply hno
  exact ⟨hst,fun q hq => hin ⟨q,hq⟩,fun y _ => hs.not_returned hlock y⟩

theorem tickSafe_of_kept {a : Action} (hs : Sane m) (hq : QInv m L) (hno : ∀ p, ¬ Lost m L p)
    (ht : (xv6 .mlfq ncpu).step m a = .ok m') : TickSafe m a := by
  obtain ⟨c,op⟩ := a
  intro hop hc x hx
  cases hop
  cases hc
  have hlock : m.lock = none := by
    have htick : ∀ k, advanceTicks .mlfq m = .ok k → m.lock = none := by
      intro k hk
      unfold advanceTicks at hk
      rw [if_pos rfl] at hk
      obtain ⟨_,hn,_⟩ := bind_eq_ok.mp hk
      exact need_eq_ok.mp hn
    cases step_effect ht with
    | tickIdle _ _ hk => exact htick _ hk
    | tickCode _ _ hk => exact htick _ hk
    | timerIdle hc _ => exact absurd rfl hc
    | timerCode hc _ _ => exact absurd rfl hc
  have hst : (m.kern.proc x).state = .runnable := aged_runnable (k := ticked m.kern) hx
  exact hq.toQOk.inQueue_iff.mpr (mem_of_not_lost hs hlock (hno x) hst)

theorem reach_kept (h : (xv6 .mlfq ncpu).Reach (fun m a => ∀ p, ¬ LostBy m a p) m) :
    Sane m ∧ ∃ L, QInv m L ∧ ∀ p, ¬ Lost m L p := by
  refine h.invariant (fun m => Sane m ∧ ∃ L, QInv m L ∧ ∀ p, ¬ Lost m L p) ?_ ?_
  · refine ⟨sane_boot,_,qInv_boot,?_⟩
    rintro p ⟨hst,_⟩
    cases hst
  · rintro s a t _ ⟨hs,L,hq,hno⟩ hok ht
    obtain ⟨L',hc⟩ := effect_carried (step_effect ht) hs hq (tickSafe_of_kept hs hq hno ht)
    refine ⟨step_sane hs ht,L',hc.inv,?_⟩
    intro p hp
    rcases hc.lost p hp with hp | hp
    · exact hno p hp
    · exact hok p hp

def earlyPassRun : List Action :=
  [⟨0,.allocproc⟩,⟨0,.kalloc true⟩,⟨1,.sched⟩,⟨0,.setRunnable⟩]

structure PassOutcome (ncpu : Nat) (m : Machine) (c : Nat) (m' : Machine) : Prop where
  step : (xv6 .mlfq ncpu).step m ⟨c,.sched⟩ = .ok m'
  choice : ∀ p, Dispatched ⟨c,.sched⟩ m' p → Dispatchable m.kern p ∧
    ∀ x, Dispatchable m.kern x → getQIdx m.kern p ≤ getQIdx m.kern x
  busy : ∀ x, Dispatchable m.kern x → ∃ p, Dispatched ⟨c,.sched⟩ m' p

theorem mlfq_sched_eq (hc : c < ncpu) (hidle : (m.cpu c).loc = .idle) (hlock : m.lock = none) :
    (xv6 .mlfq ncpu).step m ⟨c,.sched⟩ = (do
      let (a,k) ← selectMlfq m.kern
      match a with
      | some p => do
        let k ← dispatchMlfq k p
        .ok ({ m with kern := k }.enter c p 101)
      | none => .ok ({ m with kern := k }.release c)) := by
  rw [step_eq hc]
  show m.sched .mlfq c = _
  unfold sched
  rw [need_of ⟨hidle,hlock⟩]
  rfl

theorem mlfq_pass (hs : Sane m) (hq : QInv m L) (hc : c < ncpu)
    (hidle : (m.cpu c).loc = .idle) (hlock : m.lock = none) : ∃ m', PassOutcome ncpu m c m' := by
  obtain ⟨a,s,hsel,hS⟩ := selectMlfq_eq hs.pids hq.toKQ
  have hstep := mlfq_sched_eq hc hidle hlock
  have hdis : ∀ x, Dispatchable m.kern x ↔ _ := fun x =>
    dispatchable_iff hs.pids hq.toQOk
  rw [hsel,ok_bind] at hstep
  cases a with
  | none =>
    obtain ⟨hnil,_⟩ := hS.idle rfl
    refine ⟨_,hstep,?_,?_⟩
    · intro p hp
      exact absurd hp (not_dispatched (by simp [release]))
    · intro x hx
      obtain ⟨⟨r,hr⟩,hd⟩ := (hdis x).mp hx
      rw [dead_of_live_nil (hnil r) hr] at hd
      cases hd
  | some p =>
    obtain ⟨q,rest,hbelow,hlive,hok⟩ := hS.found p rfl
    obtain ⟨k',hdisp,_,_⟩ := dispatchMlfq_queues hS.faces hlive hok
    simp only [hdisp,ok_bind] at hstep
    obtain ⟨hmem,hd⟩ := live_head hlive
    have hcpu : (({ m with kern := k' }.enter c p 101).cpu c).proc = some p := by simp [enter]
    refine ⟨_,hstep,?_,?_⟩
    · rintro x ⟨_,_,hx⟩
      rw [hcpu] at hx
      cases hx
      refine ⟨(hdis p).mpr ⟨⟨q,hmem⟩,hd⟩,?_⟩
      intro y hy
      obtain ⟨⟨r,hr⟩,hyd⟩ := (hdis y).mp hy
      rw [idx_refilled hq.toQOk hmem,idx_refilled hq.toQOk hr]
      by_contra hlt
      have hrq : r < q := by
        rw [Fin.lt_def]
        omega
      rw [dead_of_live_nil (hbelow r hrq) hr] at hyd
      cases hyd
    · intro x _
      exact ⟨p,.inl rfl,by simp [enter],hcpu⟩

theorem PassOutcome.eq {m1 : Machine} (h : PassOutcome ncpu m c m')
    (h1 : (xv6 .mlfq ncpu).step m ⟨c,.sched⟩ = .ok m1) : m1 = m' := by
  rw [h.step] at h1
  exact (Except.ok.inj h1).symm

theorem mlfq_dispatches_minimal_iff (h : (xv6 .mlfq ncpu).Reach TickSafe m) (hc : c < ncpu)
    (hidle : (m.cpu c).loc = .idle) (hlock : m.lock = none) :
    (∀ m' p, (xv6 .mlfq ncpu).step m ⟨c,.sched⟩ = .ok m' → Dispatched ⟨c,.sched⟩ m' p →
        ∀ x, (m.kern.proc x).state = .runnable → getQIdx m.kern p ≤ getQIdx m.kern x) ↔
      ((∃ p, Dispatchable m.kern p) → ∃ p, Dispatchable m.kern p ∧
        ∀ x, (m.kern.proc x).state = .runnable → getQIdx m.kern p ≤ getQIdx m.kern x) := by
  obtain ⟨hs,L,hq⟩ := reach_queues h
  obtain ⟨m1,ho⟩ := mlfq_pass hs hq hc hidle hlock
  constructor
  · rintro hall ⟨x,hx⟩
    obtain ⟨p,hp⟩ := ho.busy x hx
    exact ⟨p,(ho.choice p hp).1,hall m1 p ho.step hp⟩
  · intro hmin m2 p hm hp x hx
    have he := ho.eq hm
    subst he
    obtain ⟨hpd,hle⟩ := ho.choice p hp
    obtain ⟨y,hy,hyx⟩ := hmin ⟨p,hpd⟩
    exact (hle y hy).trans (hyx x hx)

theorem mlfq_dispatches_minimal_iff_demoted :
    let m := (xv6 .mlfq 1).after demotedParentRun
    ((m.kern.proc 0).state = .runnable ∧ getQIdx m.kern 0 = 1) ∧
      ((m.kern.proc 1).state = .runnable ∧ getQIdx m.kern 1 = 0) ∧
      ∀ m' p, (xv6 .mlfq 1).step m ⟨0,.sched⟩ = .ok m' → Dispatched ⟨0,.sched⟩ m' p →
        ∀ x, (m.kern.proc x).state = .runnable → getQIdx m.kern p ≤ getQIdx m.kern x :=
  ⟨by decide +kernel,by decide +kernel,
    (mlfq_dispatches_minimal_iff (System.reach_after (by decide +kernel) (by decide +kernel))
      (by decide) (by decide +kernel) (by decide +kernel)).mpr (by decide +kernel)⟩

def killedChildRun : List Action := bootRun ++ forkRun ++ [⟨0,.kill 2⟩]

def demotedRun : List Action := killedChildRun ++ sliceEndRun

theorem mlfq_dispatches_not_minimal :
    ¬ ∀ (ncpu : Nat) (m m' : Machine) (c : Nat) (p x : Slot), (xv6 .mlfq ncpu).Reachable m →
      (xv6 .mlfq ncpu).step m ⟨c,.sched⟩ = .ok m' → Dispatched ⟨c,.sched⟩ m' p →
        (m.kern.proc x).state = .runnable → getQIdx m.kern p ≤ getQIdx m.kern x := by
  intro h
  have hle := h 1 ((xv6 .mlfq 1).after demotedRun) _ 0 0 1
    (System.reachable_after (by decide +kernel)) (System.step_after (by decide +kernel))
    (by decide +kernel) (by decide +kernel)
  have hlt : getQIdx ((xv6 .mlfq 1).after demotedRun).kern 1 <
      getQIdx ((xv6 .mlfq 1).after demotedRun).kern 0 := by decide +kernel
  omega

theorem mlfq_pass_dispatches_iff (h : (xv6 .mlfq ncpu).Reach TickSafe m) (hc : c < ncpu)
    (hidle : (m.cpu c).loc = .idle) (hlock : m.lock = none) :
    (((∃ p, (m.kern.proc p).state = .runnable) → Passes .mlfq ncpu m c) ↔
        ((∃ p, (m.kern.proc p).state = .runnable) → ∃ p, Dispatchable m.kern p)) ∧
      ∀ m' p, (xv6 .mlfq ncpu).step m ⟨c,.sched⟩ = .ok m' → Dispatched ⟨c,.sched⟩ m' p →
        (m.kern.proc p).state = .runnable ∧ (m.kern.proc p).killed = false := by
  obtain ⟨hs,L,hq⟩ := reach_queues h
  obtain ⟨m1,ho⟩ := mlfq_pass hs hq hc hidle hlock
  refine ⟨⟨?_,?_⟩,?_⟩
  · intro hpass hr
    obtain ⟨m2,p,hm,hp⟩ := hpass hr
    have he := ho.eq hm
    subst he
    exact ⟨p,(ho.choice p hp).1⟩
  · intro hd hr
    obtain ⟨x,hx⟩ := hd hr
    obtain ⟨p,hp⟩ := ho.busy x hx
    exact ⟨m1,p,ho.step,hp⟩
  · intro m2 p hm hp
    have he := ho.eq hm
    subst he
    obtain ⟨hst,hkill,_⟩ := (ho.choice p hp).1
    exact ⟨hst,hkill⟩

theorem mlfq_pass_dispatches_iff_demoted :
    Passes .mlfq 1 ((xv6 .mlfq 1).after demotedParentRun) 0 :=
  (mlfq_pass_dispatches_iff (System.reach_after (by decide +kernel) (by decide +kernel))
    (by decide) (by decide +kernel) (by decide +kernel)).1.mpr (by decide +kernel)
      ⟨0,by decide +kernel⟩

def waitingParentRun : List Action := killedChildRun ++ [⟨0,.wait false⟩,⟨0,.back⟩]

theorem mlfq_pass_idles_with_runnable :
    ¬ ∀ (ncpu : Nat) (m : Machine) (c : Nat), (xv6 .mlfq ncpu).Reachable m → c < ncpu →
      (m.cpu c).loc = .idle → m.lock = none → (∃ p, (m.kern.proc p).state = .runnable) →
        Passes .mlfq ncpu m c := by
  intro h
  have hok : ((waitingParentRun ++ [Action.mk 0 .sched]).foldlM (xv6 .mlfq 1).step
      (xv6 .mlfq 1).init).isOk = true := by decide +kernel
  have hpass := h 1 _ 0 (System.reachable_after (System.isOk_of_append hok)) (by decide)
    (by decide +kernel) (by decide +kernel) (by decide +kernel)
  exact not_passes (System.step_after hok) (by decide +kernel) hpass

theorem mlfq_tick_keeps_iff (h : (xv6 .mlfq ncpu).Reach TickSafe m) :
    TickKeeps m.kern ↔ ∀ p, aged (ticked m.kern) p = true → InQueue m.kern p := by
  obtain ⟨hs,L,hq⟩ := reach_queues h
  constructor
  · intro ht
    exact hq.toQOk.queued_of_tickKeeps hs.pids ht
  · intro hp
    exact hq.toQOk.tickKeeps_of_queued hs.pids hp

def demotedWaitRun : List Action := demotedInitRun ++ idleTicksRun 81

theorem mlfq_tick_keeps_iff_waited :
    let m := (xv6 .mlfq 1).after demotedWaitRun
    aged (ticked m.kern) 0 = true ∧ getQIdx m.kern 0 = 1 ∧ TickKeeps m.kern := by
  have hrun : ((xv6 .mlfq 1).checked TickSafe (xv6 .mlfq 1).init demotedWaitRun).any
      (fun m => aged (ticked m.kern) 0 = true ∧ getQIdx m.kern 0 = 1 ∧ TickSafe m ⟨0,.timer⟩) =
        true := by decide +kernel
  obtain ⟨hreach,hlast⟩ := System.reach_checked hrun
  obtain ⟨haged,hlevel,hsafe⟩ := of_decide_eq_true hlast
  exact ⟨haged,hlevel,(mlfq_tick_keeps_iff hreach).mpr (hsafe rfl rfl)⟩

def longWaitRun : List Action := earlyPassRun ++ idleTicksRun 82

theorem mlfq_tick_breaks_queues :
    ¬ ∀ (ncpu : Nat) (m : Machine), (xv6 .mlfq ncpu).Reachable m → m.lock = none →
      TickKeeps m.kern := by
  intro h
  have hrun : ((xv6 .mlfq 2).checked TickSafe (xv6 .mlfq 2).init longWaitRun).any
      (fun m => m.lock = none ∧ ¬ InQueue m.kern 0 ∧ aged (ticked m.kern) 0 = true) = true := by
    decide +kernel
  obtain ⟨hr,hp⟩ := System.reach_checked hrun
  obtain ⟨hlock,hnot,haged⟩ := of_decide_eq_true hp
  obtain ⟨hs,L,hq⟩ := reach_queues hr
  exact hnot (hq.toQOk.queued_of_tickKeeps hs.pids (h 2 _ hr.reachable hlock) 0 haged)

theorem mlfq_back_eq (hc : c < ncpu) (hp : (m.cpu c).proc = some p)
    (hloc : (m.cpu c).loc = .returned) (hlock : m.lock = some c) :
    (xv6 .mlfq ncpu).step m ⟨c,.back⟩ = (do
      let k ← requeue m.kern p
      .ok ({ m with kern := k }.release c)) := by
  rw [step_eq hc]
  show m.back .mlfq c = _
  unfold back
  rw [curproc_eq_ok.mpr hp,ok_bind,need_of ⟨hloc,hlock⟩]
  rfl

theorem mlfq_returned_queued_iff (h : (xv6 .mlfq ncpu).Reach TickSafe m) (hc : c < ncpu)
    (hp : (m.cpu c).proc = some p) (hloc : (m.cpu c).loc = .returned)
    (hst : (m.kern.proc p).state = .runnable) :
    ∃ m', (xv6 .mlfq ncpu).step m ⟨c,.back⟩ = .ok m' ∧ m'.lock = none ∧
      (InQueue m'.kern p ↔ keepsTurn m.kern p) := by
  obtain ⟨hs,L,hq⟩ := reach_queues h
  have hlock : m.lock = some c := (hs.lock_iff c).mpr (by rw [hloc]; rfl)
  obtain ⟨k,L',hk,hok,hin,_,_⟩ := requeue_queues hs.pids hq.toKQ (hq.apart c p hp)
  have hstep := mlfq_back_eq hc hp hloc hlock
  rw [hk,ok_bind] at hstep
  refine ⟨_,hstep,rfl,?_⟩
  calc
    InQueue k p ↔ ∃ q, p ∈ L' q := hok.toQOk.inQueue_iff
    _ ↔ (m.kern.proc p).state = .sleeping ∨
        (m.kern.proc p).state = .runnable ∧ keepsTurn m.kern p := hin
    _ ↔ keepsTurn m.kern p := by simp [hst]

def yieldedRun : List Action := bootRun ++ [⟨0,.timer⟩,⟨0,.wakeTicks⟩,⟨0,.tail⟩,⟨0,.yield⟩]

theorem mlfq_returned_queued_iff_timer :
    ∃ m', (xv6 .mlfq 1).step ((xv6 .mlfq 1).after yieldedRun) ⟨0,.back⟩ = .ok m' ∧
      m'.lock = none ∧
        (InQueue m'.kern 0 ↔ keepsTurn ((xv6 .mlfq 1).after yieldedRun).kern 0) :=
  mlfq_returned_queued_iff (System.reach_after (by decide +kernel) (by decide +kernel))
    (by decide) (by decide +kernel) (by decide +kernel) (by decide +kernel)

def lateYieldRun : List Action :=
  userinitRun ++ [⟨1,.sched⟩,⟨1,.resume⟩,⟨0,.timer⟩,⟨0,.wakeTicks⟩,⟨0,.timer⟩,⟨0,.wakeTicks⟩,
    ⟨1,.timer⟩,⟨1,.tail⟩,⟨1,.yield⟩]

theorem mlfq_returned_unqueued :
    ¬ ∀ (ncpu : Nat) (m m' : Machine) (c : Nat) (p : Slot), (xv6 .mlfq ncpu).Reachable m →
      (m.cpu c).proc = some p → (m.cpu c).loc = .returned →
        (m.kern.proc p).state = .runnable → (xv6 .mlfq ncpu).step m ⟨c,.back⟩ = .ok m' →
          InQueue m'.kern p := by
  intro h
  have hq := h 2 ((xv6 .mlfq 2).after lateYieldRun) _ 1 0
    (System.reachable_after (by decide +kernel)) (by decide +kernel) (by decide +kernel)
    (by decide +kernel) (System.step_after (by decide +kernel))
  have hnot : ¬ InQueue ((xv6 .mlfq 2).after (lateYieldRun ++ [⟨1,.back⟩])).kern 0 := by
    decide +kernel
  exact hnot hq

end Machine
end Xv6
