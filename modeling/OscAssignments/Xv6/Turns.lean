import OscAssignments.Xv6.Sane

namespace Xv6
open Runs

structure Kept (p : Slot) (k k' : Kernel) : Prop where
  ticks : k'.ticks = k.ticks
  idx : getQIdx k' p = getQIdx k p
  latest : (k'.proc p).latestQTime = (k.proc p).latestQTime

namespace Kept
variable {p x : Slot} {k k' k'' : Kernel}

theorem refl (p : Slot) (k : Kernel) : Kept p k k := ⟨rfl,rfl,rfl⟩

theorem trans (h : Kept p k k') (h' : Kept p k' k'') : Kept p k k'' :=
  ⟨h'.ticks.trans h.ticks,h'.idx.trans h.idx,h'.latest.trans h.latest⟩

theorem of_proc (ht : k'.ticks = k.ticks) (hp : k'.proc = k.proc) : Kept p k k' := by
  refine ⟨ht,?_,?_⟩
  · unfold getQIdx
    rw [hp]
  · rw [hp]

theorem setProc {r : Proc} (hi : r.stat.allotedQ.1 = (k.proc x).stat.allotedQ.1)
    (hl : r.latestQTime = (k.proc x).latestQTime) : Kept p k (k.setProc x r) := by
  refine ⟨rfl,?_,?_⟩
  · unfold getQIdx
    rw [Kernel.setProc_proc]
    split_ifs with h
    · rw [hi,h]
    · rfl
  · rw [Kernel.setProc_proc]
    split_ifs with h
    · rw [hl,h]
    · rfl

theorem setProc_ne {r : Proc} (hx : p ≠ x) : Kept p k (k.setProc x r) := by
  refine ⟨rfl,?_,?_⟩
  · unfold getQIdx
    rw [Kernel.setProc_proc,if_neg hx]
  · rw [Kernel.setProc_proc,if_neg hx]

theorem setState (st : ProcState) : Kept p k (k.setState x st) := setProc rfl rfl

theorem setAllotedQ {a : Int × Int} (ha : a.1 = getQIdx k x) : Kept p k (k.setAllotedQ x a) :=
  setProc ha rfl

theorem getTicks (h : Kept p k k') : getTicks k' p = getTicks k p := by
  unfold Xv6.getTicks
  rw [h.ticks,h.latest]

theorem foldlM {α : Type} {f : Kernel → α → Except Halt Kernel}
    (hf : ∀ k a k', f k a = .ok k' → Kept p k k') (l : List α) (h : l.foldlM f k = .ok k') :
    Kept p k k' :=
  foldlM_preserves (Kept p k) (fun s a t hs ht => hs.trans (hf s a t ht)) l (.refl p k) h

end Kept

section Queues
variable {k k' : Kernel} {q : Level} {p x : Slot}

theorem pushBack_kept (hx : p ≠ x) (h : pushBack k q x = .ok k') : Kept p k k' := by
  rcases pushBack_cases h with rfl | rfl
  · exact .refl p k'
  · exact Kept.trans (.setProc_ne hx) (.of_proc rfl rfl)

theorem pushBack_kept_own (hq : level (getQIdx k x) = .ok q) (h : pushBack k q x = .ok k') :
    Kept p k k' := by
  rcases pushBack_cases h with rfl | rfl
  · exact .refl p k'
  · exact Kept.trans (.setAllotedQ (level_eq_ok.mp hq).symm) (.of_proc rfl rfl)

theorem popFront_kept {a : Option Slot} (h : popFront k q = .ok (a,k')) : Kept p k k' := by
  obtain ⟨_,rfl⟩ := popFront_eq_ok h
  exact .of_proc rfl rfl

theorem closeGap_kept {b : Int} (n : Nat) :
    ∀ {i : Int} {k k' : Kernel}, closeGap q b n i k = .ok k' → Kept p k k' := by
  induction n with
  | zero =>
    intro i k k' h
    cases h
  | succ n ih =>
    intro i k k' h
    unfold closeGap at h
    split_ifs at h
    · cases h
      exact .refl p _
    · obtain ⟨c,_,h⟩ := bind_eq_ok.mp h
      cases c with
      | none => cases h
      | some r =>
        have hc : Kept p k (k.setCell q i (some r)) := .of_proc rfl rfl
        refine hc.trans (Kept.trans ?_ (ih h))
        exact .setAllotedQ rfl

theorem deleteIdx_kept {i : Int} (h : deleteIdx k q i = .ok k') : Kept p k k' := by
  unfold deleteIdx at h
  obtain ⟨c,_,h⟩ := bind_eq_ok.mp h
  cases c with
  | none => cases h
  | some r =>
    have hc : Kept p k ((k.setCell q i none).setSize q (k.prioQSize q - 1)) := .of_proc rfl rfl
    exact hc.trans (closeGap_kept _ h)

theorem incPrio_eq_ok (h : incPrio k p = .ok k') :
    ∃ q dest k1, level (getQIdx k p) = .ok q ∧ deleteIdx k q (getQPos k p) = .ok k1 ∧
      pushBack k1 dest p = .ok k' ∧ dest.val = q.val - 1 := by
  unfold incPrio at h
  simp only at h
  split_ifs at h
  obtain ⟨q,hq,h⟩ := bind_eq_ok.mp h
  obtain ⟨k1,hd,h⟩ := bind_eq_ok.mp h
  split_ifs at h with hz
  · refine ⟨q,q,k1,hq,hd,h,?_⟩
    rw [hz]
    rfl
  · obtain ⟨dest,hdest,h⟩ := bind_eq_ok.mp h
    refine ⟨q,dest,k1,hq,hd,h,?_⟩
    have h1 := level_eq_ok.mp hq
    have h2 := level_eq_ok.mp hdest
    omega

theorem incPrio_kept (hx : p ≠ x) (h : incPrio k x = .ok k') : Kept p k k' := by
  obtain ⟨_,_,_,_,hd,hp,_⟩ := incPrio_eq_ok h
  exact (deleteIdx_kept hd).trans (pushBack_kept hx hp)

theorem ageProc_kept (hx : p ≠ x ∨ (k.proc x).state ≠ .runnable) (h : ageProc k x = .ok k') :
    Kept p k k' := by
  rcases ageProc_cases h with rfl | ⟨q,_,rfl⟩ | ⟨hr,h⟩
  · exact .refl p _
  · exact .setProc rfl rfl
  · rcases hx with hx | hx
    · exact incPrio_kept hx h
    · exact absurd hr hx

theorem ageAll_kept {l : List Slot} (hp : p ∉ l ∨ (k.proc p).state ≠ .runnable)
    (h : l.foldlM ageProc k = .ok k') : Kept p k k' := by
  have main : SameFaces k k' ∧ Kept p k k' := by
    refine foldlM_rule (fun pre s => (∀ x ∈ pre, x ∈ l) → SameFaces k s ∧ Kept p k s) ?_ l
      (fun _ => ⟨.refl k,.refl p k⟩) h fun x hx => hx
    intro pre s a t hs ht hmem
    obtain ⟨hf,hk⟩ := hs fun x hx => hmem x (List.mem_append_left _ hx)
    refine ⟨hf.trans (ageProc_faces ht),hk.trans (ageProc_kept ?_ ht)⟩
    rcases eq_or_ne p a with rfl | hne
    · rcases hp with hp | hp
      · exact absurd (hmem p (by simp)) hp
      · exact .inr (by rw [hf.state]; exact hp)
    · exact .inl hne
  exact main.2

theorem updateStatsAndAging_kept (hp : (k.proc p).state ≠ .runnable)
    (h : updateStatsAndAging k = .ok k') : Kept p { k with ticks := k.ticks + 1 } k' :=
  ageAll_kept (.inr hp) h

theorem refill_kept (h : refill k x = .ok k') : Kept p k k' := by
  unfold refill at h
  split_ifs at h
  · obtain ⟨q,hq,h⟩ := bind_eq_ok.mp h
    split_ifs at h
    · exact pushBack_kept_own hq h
    · cases h
      exact .refl p _
  · cases h
    exact .refl p _

theorem discardDead_kept (n : Nat) :
    ∀ {k k' : Kernel} {a : Option Slot}, discardDead q n k = .ok (a,k') → Kept p k k' := by
  induction n with
  | zero =>
    intro k k' a h
    unfold discardDead at h
    split_ifs at h
    cases h
    exact .refl p _
  | succ n ih =>
    intro k k' a h
    unfold discardDead at h
    split_ifs at h
    · cases h
      exact .refl p _
    · obtain ⟨c,_,h⟩ := bind_eq_ok.mp h
      split_ifs at h
      · obtain ⟨⟨d,k1⟩,hp,h⟩ := bind_eq_ok.mp h
        exact (popFront_kept hp).trans (ih h)
      · cases h
        exact .refl p _

theorem selectMlfq_kept {a : Option Slot} (h : selectMlfq k = .ok (a,k')) : Kept p k k' := by
  unfold selectMlfq at h
  obtain ⟨k1,hr,h⟩ := bind_eq_ok.mp h
  have hs : Kept p k1 k' := by
    refine foldlM_preserves (fun f : Option Slot × Kernel => Kept p k1 f.2) ?_ _ (.refl p k1) h
    rintro ⟨d,k2⟩ q ⟨d',k3⟩ hk hq
    cases d with
    | some p =>
      cases hq
      exact hk
    | none => exact hk.trans (discardDead_kept _ hq)
  exact (Kept.foldlM (fun _ _ _ => refill_kept) _ hr).trans hs

theorem decPrio_eq_ok {retain : Bool} (h : decPrio k p retain = .ok k') :
    ∃ q, pushBack (k.setProc p { k.proc p with latestQTime := k.ticks }) q p = .ok k' := by
  unfold decPrio at h
  simp only at h
  split_ifs at h
  · obtain ⟨q,_,h⟩ := bind_eq_ok.mp h
    exact ⟨q,h⟩
  · obtain ⟨q,_,h⟩ := bind_eq_ok.mp h
    exact ⟨q,h⟩

theorem requeue_kept (hx : p ≠ x) (h : requeue k x = .ok k') : Kept p k k' := by
  have hdec : ∀ {retain : Bool}, decPrio k x retain = .ok k' → Kept p k k' := by
    intro retain hd
    obtain ⟨q,hd⟩ := decPrio_eq_ok hd
    exact Kept.trans (.setProc_ne hx) (pushBack_kept hx hd)
  unfold requeue at h
  obtain ⟨q,_,h⟩ := bind_eq_ok.mp h
  simp only at h
  split_ifs at h
  · exact hdec h
  · exact hdec h
  · cases h
    exact .refl p _

end Queues

section Table
variable {b : Build} {k k' : Kernel} {p x : Slot}

theorem wakeProc_kept {chan : Option Chan} (h : wakeProc b chan k x = .ok k') : Kept p k k' := by
  unfold wakeProc at h
  split_ifs at h
  · obtain ⟨k1,hq,h⟩ := bind_eq_ok.mp h
    cases h
    have h1 : Kept p k k1 := by
      unfold enqueueWoken at hq
      split_ifs at hq
      · obtain ⟨q,hlev,hq⟩ := bind_eq_ok.mp hq
        exact pushBack_kept_own hlev hq
      · cases hq
        exact .refl p _
    exact h1.trans (.setState _)
  · cases h
    exact .refl p _

theorem wakeup1_kept {chan : Option Chan} (h : wakeup1 b k chan = .ok k') : Kept p k k' :=
  Kept.foldlM (fun _ _ _ => wakeProc_kept) allSlots h

theorem abandonChild_kept {curproc : Slot} (h : abandonChild b curproc k x = .ok k') :
    Kept p k k' := by
  unfold abandonChild at h
  simp only at h
  split_ifs at h
  · refine Kept.trans ?_ (wakeup1_kept h)
    exact .setProc rfl rfl
  · cases h
    exact .setProc rfl rfl
  · cases h
    exact .refl p _

theorem exit_kept {curproc : Slot} (h : exit b k curproc = .ok k') : Kept p k k' := by
  unfold exit at h
  split_ifs at h
  obtain ⟨k1,hw,h⟩ := bind_eq_ok.mp h
  obtain ⟨k2,ha,h⟩ := bind_eq_ok.mp h
  cases h
  have h0 : Kept p k (k.setProc curproc { k.proc curproc with etime := k.ticks }) := .setProc rfl rfl
  have h2 : Kept p k1 k2 := Kept.foldlM (fun _ _ _ => abandonChild_kept) allSlots ha
  exact ((h0.trans (wakeup1_kept hw)).trans h2).trans (.setState _)

theorem setupProc_kept (hx : p ≠ x) (h : setupProc b k x = .ok k') : Kept p k k' := by
  unfold setupProc at h
  simp only at h
  have h0 : Kept p k (if b = .pbs then
      k.setProc x { k.proc x with priority := defaultPriority } else k) := by
    split_ifs
    · exact .setProc rfl rfl
    · exact .refl p _
  generalize (if b = .pbs then
      k.setProc x { k.proc x with priority := defaultPriority } else k) = k0 at h h0
  unfold initProcMyStyle at h
  split_ifs at h
  · cases h
    exact h0
  · obtain ⟨k1,hq,h⟩ := bind_eq_ok.mp h
    cases h
    have h1 : Kept p k0 k1 := by
      unfold enqueueNew at hq
      split_ifs at hq
      · obtain ⟨k2,hp,hq⟩ := bind_eq_ok.mp hq
        cases hq
        exact (pushBack_kept hx hp).trans (.setProc_ne hx)
      · cases hq
        exact .refl p _
    exact (h0.trans h1).trans (.setProc_ne hx)

theorem takeSlot_kept : Kept p k (takeSlot k x) := by
  have h : Kept p k (k.setProc x { k.proc x with state := .embryo, pid := k.nextpid }) :=
    .setProc rfl rfl
  exact h.trans (.of_proc rfl rfl)

theorem forkCopy_kept {curproc np : Slot} : Kept p k (forkCopy b k curproc np) := by
  have h : Kept p k (k.setProc np { k.proc np with parent := some curproc }) := .setProc rfl rfl
  unfold forkCopy
  simp only
  split_ifs
  · exact h.trans (.setProc rfl rfl)
  · exact h

theorem kill_kept {pid : Int} : Kept p k (kill k pid) := by
  unfold kill
  cases allSlots.find? fun p => ((k.proc p).pid : Int) = pid with
  | none => exact .refl p _
  | some x =>
    have h : Kept p k (k.setProc x { k.proc x with killed := true }) := .setProc rfl rfl
    simp only
    split_ifs
    · exact h.trans (.setState _)
    · exact h

theorem setPrio_kept {v : Int} : Kept p k (setPrio k x v) := by
  unfold setPrio
  split_ifs
  · exact .refl p _
  · exact .setProc rfl rfl

theorem account_kept : Kept p k (Machine.account k x) := by
  unfold Machine.account
  split_ifs
  · exact .setProc rfl rfl
  · exact .refl p _

end Table

namespace Machine
variable {m m' : Machine} {c : Nat} {op : Op} {p : Slot}

theorem waitLoop_kept {k : Kernel} {x : Slot} {y : Bool} (hk : Kept p m.kern k) :
    Kept p m.kern ({ m with kern := k }.waitLoop c x y).kern := by
  unfold waitLoop
  split
  · exact hk.trans (.setProc rfl rfl)
  · exact hk
  · exact hk.trans (.setProc rfl rfl)

inductive QueueTurn (m : Machine) (c : Nat) (p : Slot) (m' : Machine) : Op → Prop
  | kept {op : Op} (h : Kept p m.kern m'.kern) : QueueTurn m c p m' op
  | tick (hc : c = 0) (h : updateStatsAndAging m.kern = .ok m'.kern) : QueueTurn m c p m' .timer
  | created (htask : m.task (m.cpu c).proc = .alloc p) : QueueTurn m c p m' (.kalloc true)
  | dispatched (hp : (m'.cpu c).proc = some p) (hloc : (m'.cpu c).loc = .switched)
      (ht : m'.kern.ticks = m.kern.ticks) (hq : getQIdx m'.kern p = getQIdx m.kern p)
      (hl : (m'.kern.proc p).latestQTime = m.kern.ticks) : QueueTurn m c p m' .sched
  | requeued (hp : (m.cpu c).proc = some p) (hloc : (m.cpu c).loc = .returned)
      (h : requeue m.kern p = .ok m'.kern) : QueueTurn m c p m' .back

theorem dispatch_stamps {k k' : Kernel} (hsel : selectMlfq m.kern = .ok (some p,k))
    (hdis : dispatchMlfq k p = .ok k') :
    k'.ticks = m.kern.ticks ∧ getQIdx k' p = getQIdx m.kern p ∧
      (k'.proc p).latestQTime = m.kern.ticks := by
  obtain ⟨_,q,a,k1,_,hpop,rfl⟩ := dispatchMlfq_eq_ok hdis
  have h1 : Kept p m.kern k1 := (selectMlfq_kept hsel).trans (popFront_kept hpop)
  refine ⟨h1.ticks,?_,?_⟩
  · rw [← h1.idx]
    simp [getQIdx]
  · simp [h1.ticks]

theorem dispatch_turn {k k' : Kernel} {x : Slot} (hsel : selectMlfq m.kern = .ok (some x,k))
    (hdis : dispatchMlfq k x = .ok k') :
    QueueTurn m c p ({ m with kern := k' }.enter c x 101) .sched := by
  rcases eq_or_ne p x with rfl | hne
  · obtain ⟨ht,hq,hl⟩ := dispatch_stamps hsel hdis
    exact .dispatched (by simp [enter]) (by simp [enter]) ht hq hl
  · obtain ⟨_,q,a,k1,_,hpop,rfl⟩ := dispatchMlfq_eq_ok hdis
    exact .kept (((selectMlfq_kept hsel).trans (popFront_kept hpop)).trans (.setProc_ne hne))

theorem sched_stamps (he : Effect .mlfq m c .sched m') (hp : (m'.cpu c).proc = some p) :
    m'.kern.ticks = m.kern.ticks ∧ getQIdx m'.kern p = getQIdx m.kern p ∧
      (m'.kern.proc p).latestQTime = m.kern.ticks := by
  cases he with
  | schedScan _ _ hb => simp at hb
  | schedFcfs _ _ hb _ => cases hb
  | schedFcfsNone _ _ hb _ => cases hb
  | @schedMlfq x _ _ _ _ _ hsel hdis =>
    have hx : x = p := by simpa [enter] using hp
    subst hx
    exact dispatch_stamps hsel hdis
  | schedMlfqNone _ _ _ _ => simp [release] at hp

theorem effect_turn (he : Effect .mlfq m c op m') (p : Slot) : QueueTurn m c p m' op := by
  cases he with
  | tableFull _ => exact .kept (.refl p _)
  | alloc _ _ _ _ => exact .kept takeSlot_kept
  | @setup np _ _ ht hk =>
    rcases eq_or_ne p np with rfl | hne
    · exact .created ht
    · exact .kept (setupProc_kept hne hk)
  | @setupInit np _ _ ht hk =>
    rcases eq_or_ne p np with rfl | hne
    · exact .created ht
    · exact .kept ((setupProc_kept hne hk).trans (.of_proc rfl rfl))
  | allocFailed _ _ => exact .kept (.setState _)
  | @copied x np _ _ _ =>
    have h : Kept p m.kern (forkCopy .mlfq m.kern x np) := forkCopy_kept
    exact .kept h
  | copyFailed _ _ _ => exact .kept (.setState _)
  | initRunnable _ _ _ => exact .kept (.setState _)
  | forkRunnable _ _ _ => exact .kept (.setState _)
  | exited _ _ _ _ hk => exact .kept (exit_kept hk)
  | waited _ _ _ _ => exact .kept (waitLoop_kept (.refl p _))
  | slept _ _ _ _ _ => exact .kept (.setProc rfl rfl)
  | woke _ _ hk => exact .kept (wakeup1_kept hk)
  | killed _ => exact .kept kill_kept
  | prioSet _ _ => exact .kept setPrio_kept
  | faulted _ => exact .kept (.setProc rfl rfl)
  | tickIdle hc _ hk =>
    obtain ⟨_,_,hk⟩ := bind_eq_ok.mp hk
    exact .tick hc hk
  | timerIdle _ _ => exact .kept (.refl p _)
  | tickCode hc _ hk =>
    obtain ⟨_,_,hk⟩ := bind_eq_ok.mp hk
    exact .tick hc hk
  | timerCode _ _ _ => exact .kept account_kept
  | wokeTicksIdle _ _ hk => exact .kept (wakeup1_kept hk)
  | wokeTicksCode _ _ _ hk => exact .kept ((wakeup1_kept hk).trans account_kept)
  | decided _ _ _ => exact .kept (.refl p _)
  | preempted _ _ _ _ => exact .kept (.refl p _)
  | yielded _ _ _ => exact .kept (.setState _)
  | schedScan _ _ hb => simp at hb
  | schedFcfs _ _ hb _ => cases hb
  | schedFcfsNone _ _ hb _ => cases hb
  | schedMlfq _ _ _ hsel hdis => exact dispatch_turn hsel hdis
  | schedMlfqNone _ _ _ hsel => exact .kept (selectMlfq_kept hsel)
  | resumed _ _ _ _ => exact .kept (.refl p _)
  | resumedSlept _ _ _ _ => exact .kept (.setProc rfl rfl)
  | resumedWait _ _ _ _ => exact .kept (waitLoop_kept (.setProc rfl rfl))
  | backScan _ _ _ hb => simp at hb
  | backRelease _ _ _ hb => simp at hb
  | @backMlfq x _ hp hloc _ _ hk =>
    rcases eq_or_ne p x with rfl | hne
    · exact .requeued hp hloc hk
    · exact .kept (requeue_kept hne hk)

end Machine
end Xv6
