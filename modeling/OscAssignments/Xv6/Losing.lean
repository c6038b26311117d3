import Mathlib.Data.List.TakeWhile
import OscAssignments.Xv6.Select

namespace Xv6
open Runs

def QueuedAhead (k : Kernel) (y x : Slot) : Prop :=
  ∃ q r, some y ∈ window k q ∧ some x ∈ window k r ∧
    (q < r ∨ q = r ∧ [some y,some x].Sublist (window k q))

instance (k : Kernel) (y x : Slot) : Decidable (QueuedAhead k y x) :=
  inferInstanceAs (Decidable (∃ _ _, _))

namespace Machine

def LostBy (m : Machine) (a : Action) (p : Slot) : Prop :=
  match a.op with
  | .kill pid => allSlots.find? (fun x => ((m.kern.proc x).pid : Int) = pid) = some p ∧
      (m.kern.proc p).state = .sleeping ∧ ¬ InQueue m.kern p
  | .setRunnable => (m.task (m.cpu a.cpu).proc).child = some p ∧ ¬ InQueue m.kern p
  | .back => (m.cpu a.cpu).proc = some p ∧ (m.kern.proc p).state = .runnable ∧
      ¬ keepsTurn m.kern p
  | .sched => (m.kern.proc p).state = .runnable ∧ (m.kern.proc p).killed = true ∧
      ∀ y, dead m.kern y = false → ¬ QueuedAhead m.kern y p
  | _ => False

instance (m : Machine) (a : Action) (p : Slot) : Decidable (LostBy m a p) :=
  match a with
  | ⟨_,.kill _⟩ | ⟨_,.back⟩ => inferInstanceAs (Decidable (_ ∧ _ ∧ _))
  | ⟨_,.setRunnable⟩ => inferInstanceAs (Decidable (_ ∧ _))
  | ⟨_,.sched⟩ => inferInstanceAs (Decidable (_ ∧ _ ∧ ∀ _, _ → _))
  | ⟨_,.allocproc⟩ | ⟨_,.kalloc _⟩ | ⟨_,.copyuvm _⟩ | ⟨_,.exit⟩ | ⟨_,.wait _⟩ | ⟨_,.sleep _⟩
  | ⟨_,.wakeup _⟩ | ⟨_,.setPrio _⟩ | ⟨_,.fault⟩ | ⟨_,.timer⟩ | ⟨_,.wakeTicks⟩ | ⟨_,.tail⟩
  | ⟨_,.preempt⟩ | ⟨_,.yield⟩ | ⟨_,.resume⟩ => inferInstanceAs (Decidable False)

def TickSafe (m : Machine) (a : Action) : Prop :=
  a.op = .timer → a.cpu = 0 → ∀ p, aged (ticked m.kern) p = true → InQueue m.kern p

instance (m : Machine) (a : Action) : Decidable (TickSafe m a) :=
  inferInstanceAs (Decidable (_ → _ → ∀ _, _ → _))

structure QInv (m : Machine) (L : Queues) : Prop extends KQ m.kern L where
  apart : ∀ c p, (m.cpu c).proc = some p → ∀ q, p ∉ L q

theorem qInv_boot : QInv boot (fun _ => []) where
  holds q := ⟨le_refl 0,show (0 : Int) < maxProcCount by decide,rfl,Nat.zero_le _,fun i hi => absurd hi (Nat.not_lt_zero i)⟩
  record q i hi := absurd hi (Nat.not_lt_zero i)
  level p := ⟨0,rfl⟩
  pid q p hp := absurd hp List.not_mem_nil
  off q p hp := absurd hp List.not_mem_nil
  young q p hp := absurd hp List.not_mem_nil
  apart c p _ q := List.not_mem_nil

def Lost (m : Machine) (L : Queues) (p : Slot) : Prop :=
  (m.kern.proc p).state = .runnable ∧ (∀ q, p ∉ L q) ∧
    ∀ c, (m.cpu c).proc = some p → (m.cpu c).loc ≠ .returned

structure Carried (m : Machine) (L : Queues) (a : Action) (m' : Machine) (L' : Queues) :
    Prop where
  inv : QInv m' L'
  lost : ∀ p, Lost m' L' p → Lost m L p ∨ LostBy m a p

variable {m m' : Machine} {c : Nat} {op : Op} {L L' : Queues} {p : Slot}

theorem Sane.off_all_cpus (hs : Sane m) {x : Slot}
    (hx : (m.kern.proc x).state = .embryo ∨ (m.kern.proc x).state = .sleeping ∧ m.lock = none)
    (y : Nat) : (m.cpu y).proc ≠ some x := by
  intro hy
  by_cases hr : (m.cpu y).loc = .returned
  · rcases hx with hx | ⟨_,hl⟩
    · exact (hs.left y x hy hr).2 hx
    · exact hs.not_returned hl y hr
  · have hrun := hs.running y x hy hr
    rcases hx with hx | ⟨hx,_⟩ <;> cases hx.symm.trans hrun

theorem carried (hs : Sane m) (he : Effect .mlfq m c op m') (h1 : op ≠ .sched) (h2 : op ≠ .back)
    (hq : QInv m L) (hk : KQ m'.kern L') (hold : ∀ q, ∀ x ∈ L q, ∃ r, x ∈ L' r)
    (hnew : ∀ q, ∀ x ∈ L' q, (∃ r, x ∈ L r) ∨ ∀ y, (m.cpu y).proc ≠ some x)
    (hrun : ∀ x, (m'.kern.proc x).state = .runnable → (m.kern.proc x).state = .runnable ∨
      (∃ q, x ∈ L' q) ∨ (∃ y, (m'.cpu y).proc = some x ∧ (m'.cpu y).loc = .returned) ∨
        LostBy m ⟨c,op⟩ x) : Carried m L ⟨c,op⟩ m' L' := by
  constructor
  · refine ⟨hk,?_⟩
    intro y x hy q hx
    rw [(effect_keeps_cpu he h1 h2 y).1] at hy
    rcases hnew q x hx with ⟨r,hr⟩ | hno
    · exact hq.apart y x hy r hr
    · exact hno y hy
  · rintro x ⟨hst,hnot,hcpu⟩
    rcases hrun x hst with hst | ⟨q,hx⟩ | ⟨y,hy,hr⟩ | hlost
    · left
      refine ⟨hst,?_,?_⟩
      · intro q hx
        obtain ⟨r,hr⟩ := hold q x hx
        exact hnot r hr
      · intro y hy hr
        have hsame := effect_returned he hs h2 hr
        exact hcpu y (hsame ▸ hy) (hsame ▸ hr)
    · exact absurd hx (hnot q)
    · exact absurd hr (hcpu y hy)
    · exact .inr hlost

theorem carried_same (hs : Sane m) (he : Effect .mlfq m c op m') (h1 : op ≠ .sched)
    (h2 : op ≠ .back) (hq : QInv m L) (hk : KQ m'.kern L)
    (hrun : ∀ x, (m'.kern.proc x).state = .runnable → (m.kern.proc x).state = .runnable ∨
      (∃ q, x ∈ L q) ∨ (∃ y, (m'.cpu y).proc = some x ∧ (m'.cpu y).loc = .returned) ∨
        LostBy m ⟨c,op⟩ x) : ∃ L', Carried m L ⟨c,op⟩ m' L' :=
  ⟨L,carried hs he h1 h2 hq hk (fun q _ hx => ⟨q,hx⟩) (fun q _ hx => .inl ⟨q,hx⟩) hrun⟩

theorem waitLoop_queues {x : Bool} (h : KQ m.kern L) :
    KQ (m.waitLoop c p x).kern L ∧
      ∀ y, ((m.waitLoop c p x).kern.proc y).state = .runnable →
        (m.kern.proc y).state = .runnable := by
  unfold waitLoop
  cases hw : waitResult m.kern p with
  | reaped z =>
    have hz := (waitResult_reaped hw).2
    refine ⟨h.offQueue rfl fun q hq => (h.off q z hq).2 hz,?_⟩
    intro y hy
    by_cases hyz : y = z
    · simp [reap,hyz] at hy
    · simpa [reap,hyz] using hy
  | failed => exact ⟨h,fun _ hy => hy⟩
  | sleep =>
    refine ⟨h.setProc rfl rfl (.inr (.inl rfl)),?_⟩
    intro y hy
    by_cases hyp : y = p
    · simp [leave,goToSleep,hyp] at hy
    · simpa [leave,goToSleep,hyp] using hy

theorem takeSlot_queues {k : Kernel} {np : Slot} (hk : PidOk k) (h : KQ k L)
    (hu : (k.proc np).state = .unused) : KQ (takeSlot k np) L := by
  have hpos := hk.lt np
  have hst := takeSlot_state k np
  refine h.sameQueues ⟨rfl,rfl,rfl,?_⟩ ?_ ?_ ?_
  · intro x
    by_cases hx : x = np <;> simp [takeSlot,hx]
  · intro q x hx
    have := h.pid q x hx
    by_cases hxn : x = np
    · simp [takeSlot,hxn]
      omega
    · simpa [takeSlot,hxn] using this
  · intro q x hx
    rw [hst]
    split_ifs
    · exact ⟨by decide,by decide⟩
    · exact h.off q x hx
  · intro q x hx
    rw [hst]
    split_ifs with hxn
    · intro _
      exact h.young q x hx (.inl (hxn ▸ hu))
    · exact h.young q x hx

theorem setState_unused_queues {k : Kernel} {np : Slot} (h : KQ k L)
    (he : (k.proc np).state = .embryo) : KQ (k.setState np .unused) L := by
  refine h.sameQueues (sameQueues_setProc rfl) ?_ ?_ ?_ <;> intro q x hx <;>
    by_cases hxn : x = np
  · simpa [Kernel.setState,hxn] using hxn ▸ h.pid q x hx
  · simpa [Kernel.setState,hxn] using h.pid q x hx
  · simp [Kernel.setState,hxn]
  · simpa [Kernel.setState,hxn] using h.off q x hx
  · intro _
    exact h.young q x hx (.inr (hxn ▸ he))
  · simpa [Kernel.setState,hxn] using h.young q x hx

theorem account_queues (k : Kernel) (p : Slot) : SameQueues k (account k p) := by
  unfold account
  split_ifs
  · exact sameQueues_setProc rfl
  · exact .refl k

theorem tick_queues {k k' : Kernel} (hk : PidOk k) (h : KQ k L)
    (hsafe : ∀ p, aged (ticked k) p = true → InQueue k p) (ht : updateStatsAndAging k = .ok k') :
    ∃ L', KQ k' L' ∧ (∀ q, ∀ x ∈ L q, ∃ r, x ∈ L' r) ∧ ∀ q, ∀ x ∈ L' q, ∃ r, x ∈ L r := by
  have hmem : ∀ p, aged (ticked k) p = true → ∃ q, p ∈ L q := fun p hp =>
    h.toQOk.inQueue_iff.mp (hsafe p hp)
  have hkt : PidOk (ticked k) := ⟨hk.lt,hk.pos,hk.inj⟩
  obtain ⟨k1,hk1,hu⟩ := age_prefix hkt h.toQOk.ticked (List.nodup_finRange nproc) fun x _ =>
    hmem x
  have he : updateStatsAndAging k = .ok k1 := hk1
  rw [ht] at he
  cases he
  have hst : ∀ x, (k'.proc x).state = (k.proc x).state := hu.faces.state
  refine ⟨_,⟨hu.ok,?_,?_⟩,?_,?_⟩
  · intro q x hx
    rw [hst]
    rcases mem_agedQueues.mp hx with ⟨hx,_⟩ | ⟨_,hx,_⟩
    · exact h.off q x hx
    · have hr : (k.proc x).state = .runnable := aged_runnable (k := ticked k) hx
      simp [hr]
  · intro q x hx
    rw [hst]
    rcases mem_agedQueues.mp hx with ⟨hx,_⟩ | ⟨_,hx,_⟩
    · exact h.young q x hx
    · have hr : (k.proc x).state = .runnable := aged_runnable (k := ticked k) hx
      simp [hr]
  · intro q x hx
    cases ha : aged (ticked k) x with
    | true => exact ⟨_,mem_agedQueues.mpr (.inr ⟨List.mem_finRange x,ha,rfl⟩)⟩
    | false => exact ⟨q,mem_agedQueues.mpr (.inl ⟨hx,by simp [ha]⟩)⟩
  · intro q x hx
    rcases mem_agedQueues.mp hx with ⟨hx,_⟩ | ⟨_,hx,_⟩
    · exact ⟨q,hx⟩
    · exact hmem x hx

theorem setProc_runnable {k : Kernel} {p x : Slot} {r : Proc}
    (hx : ((k.setProc p r).proc x).state = .runnable)
    (hr : r.state = .runnable → (k.proc p).state = .runnable) : (k.proc x).state = .runnable := by
  rcases eq_or_ne x p with rfl | hxp
  · exact hr (by simpa using hx)
  · simpa [hxp] using hx

theorem kill_queues {k : Kernel} (pid : Int) (h : KQ k L) :
    KQ (Xv6.kill k pid) L ∧ ∀ x, ((Xv6.kill k pid).proc x).state = .runnable →
      (k.proc x).state = .runnable ∨
        allSlots.find? (fun y => ((k.proc y).pid : Int) = pid) = some x ∧
          (k.proc x).state = .sleeping := by
  unfold Xv6.kill
  cases hf : allSlots.find? fun y => ((k.proc y).pid : Int) = pid with
  | none => exact ⟨h,fun _ hx => .inl hx⟩
  | some p =>
    have h1 : KQ (k.setProc p { k.proc p with killed := true }) L :=
      h.setProc rfl rfl (.inr (.inr rfl))
    have hrun : ∀ x, ((k.setProc p { k.proc p with killed := true }).proc x).state = .runnable →
        (k.proc x).state = .runnable := fun x hx => setProc_runnable hx id
    simp only
    split_ifs with hs
    · refine ⟨h1.setProc rfl rfl (.inl rfl),?_⟩
      intro x hx
      rcases eq_or_ne x p with rfl | hxp
      · exact .inr ⟨rfl,by simpa using hs⟩
      · left
        apply hrun x
        simpa [Kernel.setState,hxp] using hx
    · exact ⟨h1,fun x hx => .inl (hrun x hx)⟩

theorem dropped {α : Type} {P : α → Bool} {l : List α} {x : α} (hm : x ∈ l)
    (hx : x ∉ l.dropWhile P) : P x = true := by
  rw [← List.takeWhile_append_dropWhile (p := P) (l := l),List.mem_append] at hm
  exact List.mem_takeWhile_imp (hm.resolve_right hx)

theorem ahead_of_dropped {α : Type} {P : α → Bool} {l : List α} {x y : α}
    (h : [y,x].Sublist l) (hx : x ∉ l.dropWhile P) : P y = true := by
  induction l with
  | nil => cases h
  | cons a t ih =>
    have hm := h.subset (show x ∈ [y,x] by simp)
    rw [List.dropWhile_cons] at hx
    split_ifs at hx with ha
    · cases h with
      | cons _ h => exact ih h hx
      | cons_cons _ h => exact ha
    · exact absurd hm hx

theorem queuedAhead_iff {k : Kernel} {x y : Slot} (h : QOk k L) :
    QueuedAhead k y x ↔ ∃ q r, y ∈ L q ∧ x ∈ L r ∧ (q < r ∨ q = r ∧ [y,x].Sublist (L q)) := by
  have hsub : ∀ q, [some y,some x].Sublist ((L q).map some) ↔ [y,x].Sublist (L q) := by
    intro q
    constructor
    · intro hs
      obtain ⟨l,hl,he⟩ := List.sublist_map_iff.mp hs
      rcases l with _ | ⟨a,_ | ⟨b,_ | ⟨c,l⟩⟩⟩ <;> simp_all
    · intro hs
      exact hs.map some
  simp only [QueuedAhead,h.window_eq,hsub,List.mem_map,Option.some.injEq,exists_eq_right]

theorem dead_of_live_nil {k : Kernel} {q : Level} {x : Slot} (h : live k L q = [])
    (hx : x ∈ L q) : dead k x = true := by
  apply dropped hx
  rw [show (L q).dropWhile (dead k) = [] from h]
  exact List.not_mem_nil

theorem dropped_lostBy {q : Level} (hs : Sane m) (hq : QOk m.kern L)
    (hrun : (m.kern.proc p).state = .runnable) (hp : p ∈ L q)
    (hbelow : ∀ r < q, live m.kern (refilled m.kern L allSlots) r = [])
    (hdrop : p ∉ live m.kern (refilled m.kern L allSlots) q) : LostBy m ⟨c,.sched⟩ p := by
  have hLq : refilled m.kern L allSlots q = L q := if_neg (List.ne_nil_of_mem hp)
  have hdrop' : p ∉ (L q).dropWhile (dead m.kern) := by
    rw [← hLq]
    exact hdrop
  have hpos := hs.pids.pos p (by simp [hrun])
  have hdead := dropped hp hdrop'
  refine ⟨hrun,?_,?_⟩
  · by_contra hk
    have : dead m.kern p = false :=
      dead_eq_false.mpr ⟨by simpa using hk,by omega,hrun⟩
    rw [this] at hdead
    cases hdead
  · intro y hy ha
    obtain ⟨r,r',hyr,hpr,hle⟩ := (queuedAhead_iff hq).mp ha
    have hrq := hq.same_level hpr hp
    subst hrq
    have hyd : dead m.kern y = true := by
      rcases hle with hlt | ⟨rfl,hsub⟩
      · exact dead_of_live_nil (hbelow r hlt) (subset_refilled hyr)
      · exact ahead_of_dropped hsub hdrop'
    rw [hy] at hyd
    cases hyd

theorem sched_carried (hs : Sane m) (hq : QInv m L) (hlock : m.lock = none) {k k' : Kernel}
    (hsel : selectMlfq m.kern = .ok (some p,k)) (hdis : dispatchMlfq k p = .ok k') :
    ∃ L', Carried m L ⟨c,.sched⟩ ({ m with kern := k' }.enter c p 101) L' := by
  obtain ⟨a,s,hsel',hS⟩ := selectMlfq_eq hs.pids hq.toKQ
  rw [hsel] at hsel'
  cases hsel'
  obtain ⟨q,rest,hbelow,hlive,hok⟩ := hS.found p rfl
  obtain ⟨k1,hdis',hok',hframe⟩ := dispatchMlfq_queues hS.faces hlive hok
  rw [hdis] at hdis'
  cases hdis'
  have hrun := (dispatchMlfq_touches hdis).2
  have hnot : ∀ r, p ∉ remaining (refilled m.kern L allSlots) q rest r := by
    intro r hr
    exact (hok'.off r p hr).1 hrun
  refine ⟨_,⟨hok',?_⟩,?_⟩
  · intro y x hy r hr
    rcases eq_or_ne y c with rfl | hyc
    · have hx : x = p := by simpa [enter] using hy.symm
      exact hnot r (hx ▸ hr)
    · have hy' : (m.cpu y).proc = some x := by simpa [enter,hyc] using hy
      have hrest : ∀ z ∈ rest, z ∈ refilled m.kern L allSlots q := fun z hz =>
        live_subset (by rw [hlive]; exact List.mem_cons_of_mem p hz)
      have hx := mem_of_remaining hrest hr
      rcases mem_refilled hx with hx | hx
      · exact hq.apart y x hy' r hx
      · have hr' := hs.running y x hy' (hs.not_returned hlock y)
        cases hx.symm.trans hr'
  · rintro x ⟨hst,hout,_⟩
    have hxp : x ≠ p := by
      rintro rfl
      cases hst.symm.trans hrun
    have hst' : (m.kern.proc x).state = .runnable := by
      rw [← hS.faces.state x,← hframe x hxp]
      exact hst
    by_cases hin : ∃ r, x ∈ L r
    · right
      obtain ⟨r,hr⟩ := hin
      obtain ⟨hnil,hdrop⟩ := passed_over hbelow hlive (subset_refilled hr) hxp (hout r)
      exact dropped_lostBy hs hq.toQOk hst' hr hnil hdrop
    · left
      refine ⟨hst',fun r hr => hin ⟨r,hr⟩,?_⟩
      intro y _
      exact hs.not_returned hlock y

theorem schedNone_carried (hs : Sane m) (hq : QInv m L) (hlock : m.lock = none) {k : Kernel}
    (hsel : selectMlfq m.kern = .ok (none,k)) :
    ∃ L', Carried m L ⟨c,.sched⟩ ({ m with kern := k }.release c) L' := by
  obtain ⟨a,s,hsel',hS⟩ := selectMlfq_eq hs.pids hq.toKQ
  rw [hsel] at hsel'
  cases hsel'
  obtain ⟨hnil,hok⟩ := hS.idle rfl
  refine ⟨_,⟨hok,fun _ _ _ _ => List.not_mem_nil⟩,?_⟩
  rintro x ⟨hst,_,_⟩
  have hst' : (m.kern.proc x).state = .runnable := by
    rw [← hS.faces.state x]
    exact hst
  by_cases hin : ∃ r, x ∈ L r
  · right
    obtain ⟨r,hr⟩ := hin
    refine dropped_lostBy hs hq.toQOk hst' hr (fun r' _ => hnil r') ?_
    rw [hnil r]
    exact List.not_mem_nil
  · left
    refine ⟨hst',fun r hr => hin ⟨r,hr⟩,?_⟩
    intro y _
    exact hs.not_returned hlock y

theorem back_carried (hs : Sane m) (hq : QInv m L) (hp : (m.cpu c).proc = some p)
    (hlock : m.lock = some c) {k : Kernel} (hk : requeue m.kern p = .ok k) :
    ∃ L', Carried m L ⟨c,.back⟩ ({ m with kern := k }.release c) L' := by
  obtain ⟨k1,L',hk',hok,hin,hold,hnew⟩ := requeue_queues hs.pids hq.toKQ (hq.apart c p hp)
  rw [hk] at hk'
  cases hk'
  have hf := requeue_faces hk
  refine ⟨L',⟨hok,?_⟩,?_⟩
  · intro y x hy r hr
    by_cases hyc : y = c
    · simp [release,hyc] at hy
    · have hy' : (m.cpu y).proc = some x := by simpa [release,hyc] using hy
      rcases hnew r x hr with hr | rfl
      · exact hq.apart y x hy' r hr
      · exact hyc (hs.proc_inj y c x hy' hp)
  · rintro x ⟨hst,hout,_⟩
    have hst' : (m.kern.proc x).state = .runnable := by
      rw [← hf.state x]
      exact hst
    rcases eq_or_ne x p with rfl | hxp
    · right
      refine ⟨hp,hst',?_⟩
      intro hkeep
      obtain ⟨r,hr⟩ := hin.mpr (.inr ⟨hst',hkeep⟩)
      exact hout r hr
    · left
      refine ⟨hst',fun r hr => hout r (hold r x hr),?_⟩
      intro y hy
      apply hs.only_returned (.inr hlock)
      rintro rfl
      rw [hp] at hy
      exact hxp (Option.some.inj hy).symm

theorem carried_faces (hs : Sane m) (he : Effect .mlfq m c op m') (h1 : op ≠ .sched)
    (h2 : op ≠ .back) (hq : QInv m L) (hsame : SameQueues m.kern m'.kern)
    (hf : SameFaces m.kern m'.kern) : ∃ L', Carried m L ⟨c,op⟩ m' L' :=
  carried_same hs he h1 h2 hq (hq.toKQ.faces hsame hf) fun x hx => .inl (hf.state x ▸ hx)

theorem carried_setProc (hs : Sane m) (he : Effect .mlfq m c op m') (h1 : op ≠ .sched)
    (h2 : op ≠ .back) (hq : QInv m L) {r : Proc} (hk : m'.kern = m.kern.setProc p r)
    (ha : r.stat.allotedQ = (m.kern.proc p).stat.allotedQ) (hpid : r.pid = (m.kern.proc p).pid)
    (hst : r.state = .sleeping ∨ r.state = (m.kern.proc p).state) :
    ∃ L', Carried m L ⟨c,op⟩ m' L' := by
  refine carried_same hs he h1 h2 hq (hk ▸ hq.toKQ.setProc ha hpid (.inr hst)) ?_
  intro x hx
  rw [hk] at hx
  refine .inl (setProc_runnable hx ?_)
  rcases hst with e | e <;> simp [e]

theorem carried_unused (hs : Sane m) (he : Effect .mlfq m c op m') (h1 : op ≠ .sched)
    (h2 : op ≠ .back) (hq : QInv m L) {o : Option Slot} (ht : (m.task o).child = some p)
    (hk : m'.kern = m.kern.setState p .unused) : ∃ L', Carried m L ⟨c,op⟩ m' L' := by
  have hok := setState_unused_queues hq.toKQ (hs.child o p ht)
  refine carried_same hs he h1 h2 hq (hk ▸ hok) ?_
  intro x hx
  rw [hk] at hx
  exact .inl (setProc_runnable hx (by simp))

theorem carried_setup (hs : Sane m) (he : Effect .mlfq m c op m') (h1 : op ≠ .sched)
    (h2 : op ≠ .back) (hq : QInv m L) {np : Slot} {k : Kernel}
    (hnp : (m.kern.proc np).state = .embryo) (hk : setupProc .mlfq m.kern np = .ok k)
    (hproc : m'.kern.proc = k.proc) (hsame : SameQueues k m'.kern) :
    ∃ L', Carried m L ⟨c,op⟩ m' L' := by
  obtain ⟨L',hok,hold,hnew⟩ := setupProc_queues hs.pids hq.toKQ hnp hk
  have hf := setupProc_faces hk
  have hok' : KQ m'.kern L' := by
    refine hok.sameQueues hsame ?_ ?_ ?_ <;> rw [hproc]
    · exact hok.pid
    · exact hok.off
    · exact hok.young
  refine ⟨L',carried hs he h1 h2 hq hok' (fun q x hx => ⟨q,hold q x hx⟩) ?_ ?_⟩
  · intro q x hx
    rcases hnew q x hx with hx | rfl
    · exact .inl ⟨q,hx⟩
    · exact .inr fun y => hs.off_all_cpus (.inl hnp) y
  · intro x hx
    rw [hproc,hf.state] at hx
    exact .inl hx

theorem carried_wakeful (hs : Sane m) (he : Effect .mlfq m c op m') (h1 : op ≠ .sched)
    (h2 : op ≠ .back) (hq : QInv m L) (hlock : m.lock = none) {k : Kernel}
    (hw : Wakeful m.kern L k L') (hsame : SameQueues k m'.kern) (hf : SameFaces k m'.kern) :
    ∃ L', Carried m L ⟨c,op⟩ m' L' := by
  have hok : KQ m'.kern L' := hw.ok.faces hsame hf
  refine ⟨L',carried hs he h1 h2 hq hok (fun q x hx => ⟨q,hw.old q x hx⟩) ?_ ?_⟩
  · intro q x hx
    rcases hw.new q x hx with hx | hx
    · exact .inl ⟨q,hx⟩
    · exact .inr fun y => hs.off_all_cpus (.inr ⟨hx,hlock⟩) y
  · intro x hx
    rw [hf.state] at hx
    exact (hw.woken x hx).imp_right .inl

theorem carried_tick (hs : Sane m) (he : Effect .mlfq m 0 .timer m') (hq : QInv m L)
    (hsafe : TickSafe m ⟨0,.timer⟩) (hk : advanceTicks .mlfq m = .ok m'.kern) :
    ∃ L', Carried m L ⟨0,.timer⟩ m' L' := by
  have hf := advanceTicks_faces hk
  unfold advanceTicks at hk
  rw [if_pos rfl] at hk
  obtain ⟨_,_,hk⟩ := bind_eq_ok.mp hk
  obtain ⟨L',hok,hold,hnew⟩ := tick_queues hs.pids hq.toKQ (hsafe rfl rfl) hk
  refine ⟨L',carried hs he (by simp) (by simp) hq hok hold (fun q x hx => .inl (hnew q x hx)) ?_⟩
  intro x hx
  rw [hf.state] at hx
  exact .inl hx

theorem carried_child (hs : Sane m) (he : Effect .mlfq m c .setRunnable m') (hq : QInv m L)
    {np : Slot} (ht : (m.task (m.cpu c).proc).child = some np)
    (hk : m'.kern = m.kern.setState np .runnable) :
    ∃ L', Carried m L ⟨c,.setRunnable⟩ m' L' := by
  have hok : KQ m'.kern L := hk ▸ hq.toKQ.setProc rfl rfl (.inl rfl)
  refine carried_same hs he (by simp) (by simp) hq hok ?_
  intro x hx
  rcases eq_or_ne x np with rfl | hxn
  · by_cases hin : ∃ q, x ∈ L q
    · exact .inr (.inl hin)
    · exact .inr (.inr (.inr ⟨ht,fun h => hin (hq.toQOk.inQueue_iff.mp h)⟩))
  · rw [hk] at hx
    left
    simpa [Kernel.setState,hxn] using hx

theorem carried_kill (hs : Sane m) {pid : Int} (he : Effect .mlfq m c (.kill pid) m')
    (hq : QInv m L) (hk : m'.kern = Xv6.kill m.kern pid) :
    ∃ L', Carried m L ⟨c,.kill pid⟩ m' L' := by
  obtain ⟨hok,hrun⟩ := kill_queues pid hq.toKQ
  refine carried_same hs he (by simp) (by simp) hq (hk ▸ hok) ?_
  intro x hx
  rw [hk] at hx
  rcases hrun x hx with hx | ⟨hf,hsl⟩
  · exact .inl hx
  · by_cases hin : ∃ q, x ∈ L q
    · exact .inr (.inl hin)
    · exact .inr (.inr (.inr ⟨hf,hsl,fun h => hin (hq.toQOk.inQueue_iff.mp h)⟩))

theorem effect_carried (he : Effect .mlfq m c op m') (hs : Sane m) (hq : QInv m L)
    (hsafe : TickSafe m ⟨c,op⟩) : ∃ L', Carried m L ⟨c,op⟩ m' L' := by
  have he' := he
  cases he with
  | tableFull _ => exact carried_faces hs he' (by simp) (by simp) hq (.refl _) (.refl _)
  | alloc _ _ _ hfind =>
    have hu := by simpa using List.find?_some hfind
    refine carried_same hs he' (by simp) (by simp) hq (takeSlot_queues hs.pids hq.toKQ hu) ?_
    intro x hx
    exact .inl (setProc_runnable hx (by simp))
  | setup _ ht hk =>
    have hnp := hs.child _ _ (by rw [ht]; rfl)
    exact carried_setup hs he' (by simp) (by simp) hq hnp hk rfl (.refl _)
  | setupInit _ ht hk =>
    have hnp := hs.child _ _ (by rw [ht]; rfl)
    exact carried_setup hs he' (by simp) (by simp) hq hnp hk rfl ⟨rfl,rfl,rfl,fun _ => rfl⟩
  | @allocFailed np _ ht =>
    have hch : (m.task (m.cpu c).proc).child = some np := by rw [ht]; rfl
    exact carried_unused hs he' (by simp) (by simp) hq hch rfl
  | copied _ _ _ => exact carried_setProc hs he' (by simp) (by simp) hq rfl rfl rfl (.inr rfl)
  | @copyFailed p np _ _ ht =>
    have hch : (m.task (some p)).child = some np := by rw [ht]; rfl
    exact carried_unused hs he' (by simp) (by simp) hq hch rfl
  | initRunnable _ _ ht => exact carried_child hs he' hq (by rw [ht]; rfl) rfl
  | forkRunnable _ _ ht => exact carried_child hs he' hq (by rw [ht]; rfl) rfl
  | @exited p k hp _ hlock _ hk =>
    have hrun := hs.running c p hp (hs.not_returned hlock c)
    obtain ⟨L',hok,hold,hnew,hwoken⟩ := exit_queues hs.pids hq.toKQ (hq.apart c p hp) hrun hk
    refine ⟨L',carried hs he' (by simp) (by simp) hq hok (fun q x hx => ⟨q,hold q x hx⟩) ?_ ?_⟩
    · intro q x hx
      rcases hnew q x hx with hx | hx
      · exact .inl ⟨q,hx⟩
      · exact .inr fun y => hs.off_all_cpus (.inr ⟨hx,hlock⟩) y
    · intro x hx
      exact (hwoken x hx).imp_right .inl
  | waited _ _ _ _ =>
    obtain ⟨hok,hrun⟩ := waitLoop_queues (m := m) hq.toKQ
    exact carried_same hs he' (by simp) (by simp) hq hok fun x hx => .inl (hrun x hx)
  | slept _ _ _ _ _ =>
    exact carried_setProc hs he' (by simp) (by simp) hq rfl rfl rfl (.inl rfl)
  | woke hlock _ hk =>
    obtain ⟨L',hw⟩ := wakeup1_wakeful hs.pids hq.toKQ hk
    exact carried_wakeful hs he' (by simp) (by simp) hq hlock hw (.refl _) (.refl _)
  | killed _ => exact carried_kill hs he' hq rfl
  | prioSet _ _ =>
    refine carried_faces hs he' (by simp) (by simp) hq ?_ (setPrio_faces _ _ _)
    show SameQueues m.kern (Xv6.setPrio m.kern _ _)
    unfold Xv6.setPrio
    split_ifs
    · exact .refl _
    · exact sameQueues_setProc rfl
  | faulted _ => exact carried_setProc hs he' (by simp) (by simp) hq rfl rfl rfl (.inr rfl)
  | tickIdle hc _ hk =>
    subst hc
    exact carried_tick hs he' hq hsafe hk
  | timerIdle _ _ => exact carried_faces hs he' (by simp) (by simp) hq (.refl _) (.refl _)
  | tickCode hc _ hk =>
    subst hc
    exact carried_tick hs he' hq hsafe hk
  | timerCode _ _ _ =>
    refine carried_faces hs he' (by simp) (by simp) hq (account_queues _ _) (account_faces _ _)
  | wokeTicksIdle _ hlock hk =>
    obtain ⟨L',hw⟩ := wakeup1_wakeful hs.pids hq.toKQ hk
    exact carried_wakeful hs he' (by simp) (by simp) hq hlock hw (.refl _) (.refl _)
  | wokeTicksCode _ _ hlock hk =>
    obtain ⟨L',hw⟩ := wakeup1_wakeful hs.pids hq.toKQ hk
    exact carried_wakeful hs he' (by simp) (by simp) hq hlock hw (account_queues _ _)
      (account_faces _ _)
  | decided _ _ _ => exact carried_faces hs he' (by simp) (by simp) hq (.refl _) (.refl _)
  | preempted _ _ _ _ => exact carried_faces hs he' (by simp) (by simp) hq (.refl _) (.refl _)
  | @yielded p hp _ _ =>
    have h1 : KQ (m.kern.setState p .runnable) L := hq.toKQ.setProc rfl rfl (.inl rfl)
    refine carried_same hs he' (by simp) (by simp) hq h1 ?_
    intro x hx
    rcases eq_or_ne x p with rfl | hxp
    · exact .inr (.inr (.inl ⟨c,by simp [leave,hp],by simp [leave]⟩))
    · left
      simpa [leave,Kernel.setState,hxp] using hx
  | schedScan _ _ hb => simp at hb
  | schedFcfs _ _ hb _ => cases hb
  | schedFcfsNone _ _ hb _ => cases hb
  | schedMlfq _ hlock _ hsel hdis => exact sched_carried hs hq hlock hsel hdis
  | schedMlfqNone _ hlock _ hsel => exact schedNone_carried hs hq hlock hsel
  | resumed _ _ _ _ => exact carried_faces hs he' (by simp) (by simp) hq (.refl _) (.refl _)
  | resumedSlept _ _ _ _ =>
    exact carried_setProc hs he' (by simp) (by simp) hq rfl rfl rfl (.inr rfl)
  | @resumedWait p y _ _ _ _ =>
    have h1 : KQ (clearChan m.kern p) L := hq.toKQ.setProc rfl rfl (.inr (.inr rfl))
    obtain ⟨hok,hrun⟩ := waitLoop_queues (m := { m with kern := clearChan m.kern p }) (c := c)
      (p := p) (x := y) h1
    refine carried_same hs he' (by simp) (by simp) hq hok ?_
    intro x hx
    exact .inl (setProc_runnable (hrun x hx) id)
  | backScan _ _ _ hb => simp at hb
  | backRelease _ _ _ hb => simp at hb
  | backMlfq hp _ hlock _ hk => exact back_carried hs hq hp hlock hk

end Machine
end Xv6
