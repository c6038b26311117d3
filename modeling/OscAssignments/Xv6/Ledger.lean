import OscAssignments.Xv6.Turns

namespace Xv6
open Runs

structure Ledger where
  numRun : BitVec 32
  actualTicks : Level → BitVec 32
  ctime : BitVec 32
  rtime : BitVec 32
  priority : Int

def ledger (r : Proc) : Ledger :=
  ⟨r.stat.numRun,r.stat.actualTicks,r.ctime,r.rtime,r.priority⟩

structure Posted (p : Slot) (f : Ledger → Ledger) (k k' : Kernel) : Prop where
  ticks : k'.ticks = k.ticks
  self : ledger (k'.proc p) = f (ledger (k.proc p))
  others : ∀ x, x ≠ p → ledger (k'.proc x) = ledger (k.proc x)

structure SameBooks (k k' : Kernel) : Prop where
  ticks : k'.ticks = k.ticks
  ledger : ∀ p, ledger (k'.proc p) = ledger (k.proc p)

namespace SameBooks
variable {k k' k'' : Kernel} {p : Slot}

theorem refl (k : Kernel) : SameBooks k k := ⟨rfl,fun _ => rfl⟩

theorem trans (h : SameBooks k k') (h' : SameBooks k' k'') : SameBooks k k'' :=
  ⟨h'.ticks.trans h.ticks,fun p => (h'.ledger p).trans (h.ledger p)⟩

theorem of_proc (ht : k'.ticks = k.ticks) (hp : k'.proc = k.proc) : SameBooks k k' :=
  ⟨ht,fun p => by rw [hp]⟩

theorem setProc {r : Proc} (h : Xv6.ledger r = Xv6.ledger (k.proc p)) :
    SameBooks k (k.setProc p r) := by
  refine ⟨rfl,?_⟩
  intro x
  rw [Kernel.setProc_proc]
  split_ifs with hx
  · rw [h,hx]
  · rfl

theorem setState (st : ProcState) : SameBooks k (k.setState p st) := setProc rfl

theorem posted {f : Ledger → Ledger} (h : SameBooks k k') (h' : Posted p f k' k'') :
    Posted p f k k'' where
  ticks := h'.ticks.trans h.ticks
  self := by rw [h'.self,h.ledger]
  others x hx := (h'.others x hx).trans (h.ledger x)

theorem frames : Frames SameBooks :=
  ⟨refl,trans,fun hp _ _ ht => of_proc ht hp,fun _ _ _ => setProc rfl⟩

end SameBooks

theorem posted_setProc {k : Kernel} {p : Slot} {r : Proc} {f : Ledger → Ledger}
    (h : ledger r = f (ledger (k.proc p))) : Posted p f k (k.setProc p r) where
  ticks := rfl
  self := by rw [Kernel.setProc_proc,if_pos rfl,h]
  others x hx := by rw [Kernel.setProc_proc,if_neg hx]

theorem Posted.field {α : Type} {k k' : Kernel} {p : Slot} {f : Ledger → Ledger} (g : Ledger → α)
    (h : Posted p f k k') (hf : ∀ l, g (f l) = g l) (x : Slot) :
    g (ledger (k'.proc x)) = g (ledger (k.proc x)) := by
  rcases eq_or_ne x p with rfl | hx
  · rw [h.self,hf]
  · rw [h.others x hx]

section Table
variable {b : Build} {k k' : Kernel} {p x : Slot}

theorem wakeProc_books {chan : Option Chan} (h : wakeProc b chan k x = .ok k') :
    SameBooks k k' := by
  unfold wakeProc at h
  split_ifs at h
  · obtain ⟨k1,hq,h⟩ := bind_eq_ok.mp h
    cases h
    have h1 : SameBooks k k1 := by
      unfold enqueueWoken at hq
      split_ifs at hq
      · obtain ⟨q,_,hq⟩ := bind_eq_ok.mp hq
        exact SameBooks.frames.pushBack hq
      · cases hq
        exact .refl _
    exact h1.trans (.setState _)
  · cases h
    exact .refl _

theorem wakeup1_books {chan : Option Chan} (h : wakeup1 b k chan = .ok k') : SameBooks k k' :=
  SameBooks.frames.foldlM (fun _ _ _ => wakeProc_books) allSlots h

theorem abandonChild_books {curproc : Slot} (h : abandonChild b curproc k x = .ok k') :
    SameBooks k k' := by
  unfold abandonChild at h
  simp only at h
  split_ifs at h
  · refine SameBooks.trans ?_ (wakeup1_books h)
    exact .setProc rfl
  · cases h
    exact .setProc rfl
  · cases h
    exact .refl _

theorem exit_books {curproc : Slot} (h : exit b k curproc = .ok k') : SameBooks k k' := by
  unfold exit at h
  split_ifs at h
  obtain ⟨k1,hw,h⟩ := bind_eq_ok.mp h
  obtain ⟨k2,ha,h⟩ := bind_eq_ok.mp h
  cases h
  have h0 : SameBooks k (k.setProc curproc { k.proc curproc with etime := k.ticks }) :=
    .setProc rfl
  have h2 : SameBooks k1 k2 := SameBooks.frames.foldlM (fun _ _ _ => abandonChild_books) allSlots ha
  exact ((h0.trans (wakeup1_books hw)).trans h2).trans (.setState _)

theorem takeSlot_books : SameBooks k (takeSlot k x) := by
  have h : SameBooks k (k.setProc x { k.proc x with state := .embryo, pid := k.nextpid }) :=
    .setProc rfl
  exact h.trans (.of_proc rfl rfl)

theorem kill_books {pid : Int} : SameBooks k (kill k pid) := by
  unfold kill
  cases allSlots.find? fun p => ((k.proc p).pid : Int) = pid with
  | none => exact .refl _
  | some x =>
    have h : SameBooks k (k.setProc x { k.proc x with killed := true }) := .setProc rfl
    simp only
    split_ifs
    · exact h.trans (.setState _)
    · exact h

def opened (b : Build) (now : BitVec 32) (l : Ledger) : Ledger :=
  { l with ctime := now, rtime := 0, priority := if b = .pbs then defaultPriority else l.priority }

theorem setupProc_books (hpid : (k.proc x).pid ≠ 0) (h : setupProc b k x = .ok k') :
    Posted x (opened b k.ticks) k k' := by
  unfold setupProc at h
  simp only at h
  have h0 : Posted x (fun l => { l with priority := if b = .pbs then defaultPriority else l.priority })
      k (if b = .pbs then k.setProc x { k.proc x with priority := defaultPriority } else k) := by
    split_ifs with hb
    · exact posted_setProc (by simp [ledger])
    · exact ⟨rfl,by simp [ledger],fun _ _ => rfl⟩
  have hf : SameFaces k (if b = .pbs then
      k.setProc x { k.proc x with priority := defaultPriority } else k) := by
    split_ifs
    · exact sameFaces_setProc rfl rfl rfl rfl rfl
    · exact .refl _
  generalize (if b = .pbs then
      k.setProc x { k.proc x with priority := defaultPriority } else k) = k0 at h h0 hf
  unfold initProcMyStyle at h
  rw [if_neg (by rw [hf.pid]; exact hpid)] at h
  obtain ⟨k1,hq,h⟩ := bind_eq_ok.mp h
  cases h
  have h1 : SameBooks k0 k1 := by
    unfold enqueueNew at hq
    split_ifs at hq
    · obtain ⟨k2,hp,hq⟩ := bind_eq_ok.mp hq
      cases hq
      exact (SameBooks.frames.pushBack hp).trans (.setProc rfl)
    · cases hq
      exact .refl _
  refine ⟨h1.ticks.trans h0.ticks,?_,?_⟩
  · have hself := (h1.ledger x).trans h0.self
    simp only [Kernel.setProc_proc,if_true]
    simp only [ledger,Ledger.mk.injEq,opened] at hself ⊢
    exact ⟨hself.1,hself.2.1,h1.ticks.trans h0.ticks,trivial,hself.2.2.2.2⟩
  · intro y hy
    rw [Kernel.setProc_proc,if_neg hy]
    exact (h1.ledger y).trans (h0.others y hy)

theorem forkCopy_books {curproc np : Slot} :
    Posted np (fun l => { l with priority := if b = .pbs then forkPriority k np else l.priority })
      k (forkCopy b k curproc np) := by
  have h : SameBooks k (k.setProc np { k.proc np with parent := some curproc }) := .setProc rfl
  have hprio : forkPriority (k.setProc np { k.proc np with parent := some curproc }) np =
      forkPriority k np := by
    simp [forkPriority,ifMeraProc]
  unfold forkCopy
  simp only
  split_ifs with hb
  · refine h.posted (posted_setProc ?_)
    rw [hprio]
    rfl
  · exact ⟨rfl,h.ledger np,fun x _ => h.ledger x⟩

theorem setPrio_books {v : Int} :
    Posted p (fun l => { l with priority := if v < -1 ∨ v > 100 then l.priority else v })
      k (setPrio k p v) := by
  unfold setPrio
  split_ifs with hv
  · exact ⟨rfl,rfl,fun _ _ => rfl⟩
  · exact posted_setProc rfl

theorem account_books (h : (k.proc p).state = .running) :
    Posted p (fun l => { l with rtime := l.rtime + 1 }) k (Machine.account k p) := by
  unfold Machine.account
  rw [if_pos h]
  exact posted_setProc rfl

end Table

section Ticks
variable {k k' : Kernel} {p x : Slot} {q : Level}

def countsTick (k : Kernel) (p : Slot) (q : Level) : Bool :=
  (k.proc p).state = .running && !(k.proc p).killed && getQIdx k p = (q.val : Int)

def ticksPosted (k : Kernel) (p : Slot) (l : Ledger) : Ledger :=
  { l with actualTicks := fun q => l.actualTicks q + BitVec.ofNat 32 (countsTick k p q).toNat }

structure TickPosted (b : Build) (k k' : Kernel) : Prop where
  ticks : k'.ticks = k.ticks + 1
  ledger : ∀ p, ledger (k'.proc p) =
    if b = .mlfq then ticksPosted k p (ledger (k.proc p)) else ledger (k.proc p)

theorem ticksPosted_eq_self {l : Ledger} (h : ∀ q, countsTick k p q = false) :
    ticksPosted k p l = l := by
  simp [ticksPosted,h]

theorem countTick_posted (hq : getQIdx k p = q.val) (hst : (k.proc p).state = .running)
    (hk : (k.proc p).killed = false) : Posted p (ticksPosted k p) k (countTick k p q) := by
  refine posted_setProc ?_
  simp only [ledger,ticksPosted,Ledger.mk.injEq,and_true,true_and]
  funext q'
  rcases eq_or_ne q' q with rfl | hne
  · simp [countsTick,hq,hst,hk]
  · have hne' : ¬ ((q.val : Int) = (q'.val : Int)) := by
      intro he
      exact hne (Fin.ext (by omega))
    simp [countsTick,hq,hst,hk,hne,hne']

theorem ageProc_posted (hpid : (k.proc p).state ≠ .unused → 0 < (k.proc p).pid)
    (h : ageProc k p = .ok k') : Posted p (ticksPosted k p) k k' := by
  have hsame : (∀ q, countsTick k p q = false) → SameBooks k k' →
      Posted p (ticksPosted k p) k k' := by
    intro hno hb
    refine ⟨hb.ticks,?_,fun x _ => hb.ledger x⟩
    rw [ticksPosted_eq_self hno]
    exact hb.ledger p
  have hage := h
  unfold ageProc at h
  simp only at h
  by_cases hskip : (k.proc p).killed ∨ (k.proc p).pid = 0
  · rw [if_pos hskip] at h
    cases h
    refine hsame ?_ (.refl _)
    intro q
    rcases hskip with hk | hz
    · simp [countsTick,hk]
    · have hst : (k.proc p).state = .unused := by
        by_contra hne
        have := hpid hne
        omega
      simp [countsTick,hst]
  · rw [if_neg hskip] at h
    rcases not_or.mp hskip with ⟨hk,-⟩
    by_cases hst : (k.proc p).state = .running
    · rw [if_pos (.inr hst)] at h
      obtain ⟨q,hq,h⟩ := bind_eq_ok.mp h
      simp only [hst,if_true,reduceCtorEq,false_and,if_false] at h
      cases h
      exact countTick_posted (level_eq_ok.mp hq) hst (by simpa using hk)
    · refine hsame (fun q => by simp [countsTick,hst]) ?_
      rcases ageProc_cases hage with rfl | ⟨q,hrun,-⟩ | ⟨-,hinc⟩
      · exact .refl _
      · exact absurd hrun hst
      · exact SameBooks.frames.incPrio hinc

theorem countsTick_congr (hf : SameFaces k k') (hi : getQIdx k' p = getQIdx k p) (q : Level) :
    countsTick k' p q = countsTick k p q := by
  simp only [countsTick,hf.state,hf.killed,hi]

structure AgedPosted (k : Kernel) (pre : List Slot) (s : Kernel) : Prop where
  faces : SameFaces k s
  idx : ∀ p, p ∉ pre → getQIdx s p = getQIdx k p
  ticks : s.ticks = k.ticks
  ledger : ∀ p, ledger (s.proc p) =
    if p ∈ pre then ticksPosted k p (ledger (k.proc p)) else ledger (k.proc p)

theorem AgedPosted.snoc {pre : List Slot} {s t : Kernel} {a : Slot} (hk : PidOk k)
    (h : AgedPosted k pre s) (ha : a ∉ pre) (ht : ageProc s a = .ok t) :
    AgedPosted k (pre ++ [a]) t := by
  have hpost : Posted a (ticksPosted s a) s t := by
    refine ageProc_posted ?_ ht
    rw [h.faces.state,h.faces.pid]
    exact hk.pos a
  refine ⟨h.faces.trans (ageProc_faces ht),?_,hpost.ticks.trans h.ticks,?_⟩
  · intro p hp
    simp only [List.mem_append,List.mem_singleton,not_or] at hp
    exact (ageProc_kept (.inl hp.2) ht).idx.trans (h.idx p hp.1)
  · intro p
    rcases eq_or_ne p a with rfl | hne
    · rw [hpost.self,h.ledger,if_neg ha,if_pos (by simp)]
      simp only [ticksPosted,countsTick_congr h.faces (h.idx p ha)]
    · rw [hpost.others p hne,h.ledger]
      simp [hne]

theorem ageAll_posted {l : List Slot} (hk : PidOk k) (hl : l.Nodup)
    (h : l.foldlM ageProc k = .ok k') : AgedPosted k l k' := by
  refine foldlM_rule (fun pre s => pre.Nodup → AgedPosted k pre s) ?_ l ?_ h hl
  · intro pre s a t hs ht hnd
    obtain ⟨hpre,-,hdis⟩ := List.nodup_append'.mp hnd
    exact (hs hpre).snoc hk (fun hm => hdis hm (by simp)) ht
  · intro _
    exact ⟨.refl k,fun _ _ => rfl,rfl,fun p => by simp⟩

theorem updateStatsAndAging_posted (hk : PidOk k) (h : updateStatsAndAging k = .ok k') :
    TickPosted .mlfq k k' := by
  have hk' : PidOk { k with ticks := k.ticks + 1 } := ⟨hk.lt,hk.pos,hk.inj⟩
  have hp := ageAll_posted hk' (List.nodup_finRange nproc) h
  refine ⟨hp.ticks,?_⟩
  intro p
  rw [hp.ledger,if_pos (List.mem_finRange p),if_pos rfl]
  rfl

end Ticks

def Op.ordinary : Op → Bool
  | .timer => false
  | .wakeTicks => false
  | .sched => false
  | .back => false
  | _ => true

namespace Machine
variable {b : Build} {m m' : Machine} {c : Nat} {op : Op}

inductive Posts (b : Build) (m : Machine) (c : Nat) (m' : Machine) : Op → Prop
  | same {op : Op} (h : SameBooks m.kern m'.kern) (hop : op ≠ .timer ∨ c ≠ 0)
      (hw : op = .wakeTicks → (m.cpu c).loc ≠ .trap .wakeTicks)
      (hd : b = .mlfq → ∀ p, ¬ Dispatched ⟨c,op⟩ m' p) : Posts b m c m' op
  | created {np : Slot} (htask : m.task (m.cpu c).proc = .alloc np)
      (h : Posted np (opened b m.kern.ticks) m.kern m'.kern) : Posts b m c m' (.kalloc true)
  | copied {np : Slot} (htask : m.task (m.cpu c).proc = .enqueued np)
      (h : Posted np (fun l => { l with
        priority := if b = .pbs then forkPriority m.kern np else l.priority }) m.kern m'.kern) :
      Posts b m c m' (.copyuvm true)
  | prioSet {p : Slot} {v : Int}
      (h : Posted p (fun l => { l with
        priority := if v < -1 ∨ v > 100 then l.priority else v }) m.kern m'.kern) :
      Posts b m c m' (.setPrio v)
  | ticked (hc : c = 0) (hloc : (m.cpu c).loc = .idle ∧ (m'.cpu c).loc = .idleTrap ∨
        (m.cpu c).loc = .code ∧ (m'.cpu c).loc = .trap .wakeTicks)
      (h : TickPosted b m.kern m'.kern) : Posts b m c m' .timer
  | accounted {op : Op} {p : Slot} (hp : (m.cpu c).proc = some p)
      (hrun : (m.kern.proc p).state = .running)
      (hop : op = .timer ∧ c ≠ 0 ∨ op = .wakeTicks ∧ (m.cpu c).loc = .trap .wakeTicks)
      (hloc : (m'.cpu c).loc = .trap .tail)
      (h : Posted p (fun l => { l with rtime := l.rtime + 1 }) m.kern m'.kern) : Posts b m c m' op
  | dispatched {p : Slot} (hb : b = .mlfq) (hd : Dispatched ⟨c,.sched⟩ m' p)
      (h : Posted p (fun l => { l with numRun := l.numRun + 1 }) m.kern m'.kern) :
      Posts b m c m' .sched

theorem not_dispatched_op {p : Slot} (h : op.ordinary = true) : ¬ Dispatched ⟨c,op⟩ m' p := by
  rintro ⟨rfl | rfl,-⟩
  · cases h
  · cases h

theorem waitLoop_books {k : Kernel} {x : Slot} {y : Bool} (hk : SameBooks m.kern k) :
    SameBooks m.kern ({ m with kern := k }.waitLoop c x y).kern := by
  unfold waitLoop
  split
  · exact hk.trans (.setProc rfl)
  · exact hk
  · exact hk.trans (.setProc rfl)

theorem scan_books {next : Nat} {prio : Int} : SameBooks m.kern (m.scan b c next prio).kern := by
  unfold scan
  split
  · exact .setState _
  · exact .refl _

theorem advanceTicks_posted {k : Kernel} (hs : Sane m) (h : advanceTicks b m = .ok k) :
    TickPosted b m.kern k := by
  unfold advanceTicks at h
  split_ifs at h with hb
  · obtain ⟨_,_,h⟩ := bind_eq_ok.mp h
    rw [hb]
    exact updateStatsAndAging_posted hs.pids h
  · cases h
    exact ⟨rfl,fun p => by rw [if_neg hb]⟩

theorem dispatchMlfq_posted {k k' : Kernel} {p : Slot} (h : dispatchMlfq k p = .ok k') :
    Posted p (fun l => { l with numRun := l.numRun + 1 }) k k' := by
  obtain ⟨_,q,a,k1,_,hpop,rfl⟩ := dispatchMlfq_eq_ok h
  exact (SameBooks.frames.popFront hpop).posted (posted_setProc rfl)

theorem setup_posted {np : Slot} {k : Kernel} (hs : Sane m)
    (htask : m.task (m.cpu c).proc = .alloc np) (hk : setupProc b m.kern np = .ok k) :
    Posted np (opened b m.kern.ticks) m.kern k := by
  have hst := hs.child _ np (by rw [htask]; rfl)
  have hpid := hs.pids.pos np (by simp [hst])
  exact setupProc_books (by omega) hk

theorem effect_posts (hs : Sane m) (he : Effect b m c op m') : Posts b m c m' op := by
  have hquiet : ∀ {op : Op}, SameBooks m.kern m'.kern → op.ordinary = true → Posts b m c m' op := by
    intro op h hop
    refine .same h (.inl ?_) ?_ fun _ _ => not_dispatched_op hop
    · rintro rfl
      cases hop
    · rintro rfl
      cases hop
  cases he with
  | tableFull _ => exact hquiet (.refl _) rfl
  | alloc _ _ _ _ => exact hquiet takeSlot_books rfl
  | setup _ ht hk => exact .created ht (setup_posted hs ht hk)
  | setupInit _ ht hk =>
    have h := setup_posted hs ht hk
    exact .created ht ⟨h.ticks,h.self,h.others⟩
  | allocFailed _ _ => exact hquiet (.setState _) rfl
  | copied hp _ ht => exact .copied (hp ▸ ht) forkCopy_books
  | copyFailed _ _ _ => exact hquiet (.setState _) rfl
  | initRunnable _ _ _ => exact hquiet (.setState _) rfl
  | forkRunnable _ _ _ => exact hquiet (.setState _) rfl
  | exited _ _ _ _ hk => exact hquiet (exit_books hk) rfl
  | waited _ _ _ _ => exact hquiet (waitLoop_books (.refl _)) rfl
  | slept _ _ _ _ _ => exact hquiet (.setProc rfl) rfl
  | woke _ _ hk => exact hquiet (wakeup1_books hk) rfl
  | killed _ => exact hquiet kill_books rfl
  | prioSet _ _ => exact .prioSet setPrio_books
  | faulted _ => exact hquiet (.setProc rfl) rfl
  | tickIdle hc hloc hk =>
    exact .ticked hc (.inl ⟨hloc,by simp⟩) (advanceTicks_posted hs hk)
  | timerIdle hc _ =>
    refine .same (.refl _) (.inr hc) (by simp) fun _ _ => ?_
    rintro ⟨h | h,-⟩ <;> cases h
  | tickCode hc hloc hk =>
    exact .ticked hc (.inr ⟨hloc,by simp⟩) (advanceTicks_posted hs hk)
  | timerCode hc hp hloc =>
    have hrun := hs.running c _ hp (by simp [hloc])
    exact .accounted hp hrun (.inl ⟨rfl,hc⟩) (by simp) (account_books hrun)
  | wokeTicksIdle hloc _ hk =>
    refine .same (wakeup1_books hk) (.inl (by simp)) (by simp [hloc]) fun _ _ => ?_
    rintro ⟨h | h,-⟩ <;> cases h
  | wokeTicksCode hp hloc _ hk =>
    have hrun := hs.running c _ hp (by simp [hloc])
    have hst := (wakeup1_woken hk).toWakes.not_sleeping (by rw [hrun]; decide)
    exact .accounted hp hrun (.inr ⟨rfl,hloc⟩) (by simp)
      ((wakeup1_books hk).posted (account_books (hst.trans hrun)))
  | decided _ _ _ => exact hquiet (.refl _) rfl
  | preempted _ _ _ _ => exact hquiet (.refl _) rfl
  | yielded _ _ _ => exact hquiet (.setState _) rfl
  | schedScan _ _ hb =>
    refine .same scan_books (.inl (by simp)) (by simp) ?_
    rintro rfl
    simp at hb
  | schedFcfs _ _ hb _ =>
    refine .same (.setState _) (.inl (by simp)) (by simp) ?_
    rintro rfl
    cases hb
  | schedFcfsNone _ _ _ _ =>
    exact .same (.refl _) (.inl (by simp)) (by simp) fun _ _ => not_dispatched (by simp [release])
  | @schedMlfq p _ _ _ _ hb hsel hdis =>
    refine .dispatched (p := p) hb ⟨.inl rfl,by simp [enter],by simp [enter]⟩ ?_
    exact (SameBooks.frames.selectMlfq hsel).posted (dispatchMlfq_posted hdis)
  | schedMlfqNone _ _ _ hsel =>
    exact .same (SameBooks.frames.selectMlfq hsel) (.inl (by simp)) (by simp) fun _ _ =>
      not_dispatched (by simp [release])
  | resumed _ _ _ _ => exact hquiet (.refl _) rfl
  | resumedSlept _ _ _ _ => exact hquiet (.setProc rfl) rfl
  | resumedWait _ _ _ _ =>
    exact hquiet (waitLoop_books (.setProc rfl)) rfl
  | backScan _ _ _ hb =>
    refine .same scan_books (.inl (by simp)) (by simp) ?_
    rintro rfl
    simp at hb
  | backRelease _ _ _ _ =>
    exact .same (.refl _) (.inl (by simp)) (by simp) fun _ _ => not_dispatched (by simp [release])
  | backMlfq _ _ _ _ hk =>
    exact .same (SameBooks.frames.requeue (.setProc rfl) hk) (.inl (by simp)) (by simp) fun _ _ =>
      not_dispatched (by simp [release])

end Machine

end Xv6
