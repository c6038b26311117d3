import OscAssignments.Xv6.Sane

namespace Xv6
open Runs

section MinPrio
variable {k : Kernel}

theorem foldl_lowerPrio_le (l : List Slot) :
    ∀ v, l.foldl (lowerPrio k) v ≤ v ∧
      ∀ p ∈ l, (k.proc p).state = .runnable → l.foldl (lowerPrio k) v ≤ (k.proc p).priority := by
  induction l with
  | nil =>
    intro v
    exact ⟨le_refl v,by simp⟩
  | cons a l ih =>
    intro v
    obtain ⟨hle,hall⟩ := ih (lowerPrio k v a)
    have hv : lowerPrio k v a ≤ v := by
      unfold lowerPrio
      split_ifs <;> omega
    refine ⟨hle.trans hv,?_⟩
    intro p hp hst
    rcases List.mem_cons.mp hp with rfl | hp
    · have hpa : lowerPrio k v p ≤ (k.proc p).priority := by
        unfold lowerPrio
        simp only [hst,true_and]
        split_ifs <;> omega
      exact hle.trans hpa
    · exact hall p hp hst

theorem foldl_lowerPrio_attained (l : List Slot) :
    ∀ v, l.foldl (lowerPrio k) v = v ∨
      ∃ p ∈ l, (k.proc p).state = .runnable ∧
        (k.proc p).priority = l.foldl (lowerPrio k) v := by
  induction l with
  | nil =>
    intro v
    exact .inl rfl
  | cons a l ih =>
    intro v
    rcases ih (lowerPrio k v a) with h | ⟨p,hp,hst,he⟩
    · by_cases ha : (k.proc a).state = .runnable ∧ (k.proc a).priority < v
      · refine .inr ⟨a,List.mem_cons_self,ha.1,?_⟩
        rw [List.foldl_cons,h,lowerPrio,if_pos ha]
      · left
        rw [List.foldl_cons,h,lowerPrio,if_neg ha]
    · exact .inr ⟨p,List.mem_cons_of_mem a hp,hst,he⟩

theorem minPrio_le {p : Slot} (hp : (k.proc p).state = .runnable) :
    minPrio k ≤ (k.proc p).priority :=
  (foldl_lowerPrio_le allSlots 101).2 p (mem_allSlots p) hp

theorem minPrio_le_sentinel : minPrio k ≤ 101 := (foldl_lowerPrio_le allSlots 101).1

theorem minPrio_attained {p : Slot} (hp : (k.proc p).state = .runnable)
    (hle : (k.proc p).priority ≤ 101) :
    ∃ x, (k.proc x).state = .runnable ∧ (k.proc x).priority = minPrio k := by
  rcases foldl_lowerPrio_attained allSlots 101 with h | ⟨x,_,hx,he⟩
  · have hmin := minPrio_le hp
    have h101 : minPrio k = 101 := h
    exact ⟨p,hp,by omega⟩
  · exact ⟨x,hx,he⟩

theorem scanTable_some {next : Nat} {prio : Int} {p : Slot}
    (h : scanTable .pbs k next prio = some p) :
    next ≤ p.val ∧ (k.proc p).state = .runnable ∧ (k.proc p).priority = prio := by
  have := List.find?_some h
  simp only [scanned,Bool.and_eq_true,decide_eq_true_eq,ne_eq,not_true_eq_false,decide_false,
    Bool.false_or] at this
  exact ⟨this.1.1,this.1.2,this.2⟩

theorem scanTable_le {next : Nat} {prio : Int} {p : Slot} (hn : next ≤ p.val)
    (hst : (k.proc p).state = .runnable) (hp : (k.proc p).priority = prio) :
    ∃ x, scanTable .pbs k next prio = some x ∧ x ≤ p := by
  have hsc : scanned .pbs k next prio p = true := by simp [scanned,hn,hst,hp]
  cases h : scanTable .pbs k next prio with
  | none =>
    have := List.find?_eq_none.mp h p (mem_allSlots p)
    exact absurd hsc this
  | some x =>
    refine ⟨x,rfl,?_⟩
    obtain ⟨_,pre,post,hl,hpre⟩ := List.find?_eq_some_iff_append.mp h
    by_contra hlt
    have hsorted : allSlots.Pairwise (· < ·) := List.pairwise_lt_finRange nproc
    rw [hl] at hsorted
    have hmem : p ∈ pre ++ x :: post := hl ▸ mem_allSlots p
    rcases List.mem_append.mp hmem with hm | hm
    · have := hpre p hm
      simp [hsc] at this
    · rcases List.mem_cons.mp hm with rfl | hm
      · exact hlt (le_refl _)
      · have hx := (List.pairwise_append.mp hsorted).2.1
        exact hlt ((List.pairwise_cons.mp hx).1 p hm).le

end MinPrio

namespace Machine

variable {m m' : Machine} {c : Nat} {op : Op} {p : Slot}

theorem scan_dispatched {next : Nat} {prio : Int}
    (hd : Dispatched ⟨c,op⟩ (m.scan .pbs c next prio) p) :
    scanTable .pbs m.kern next prio = some p := by
  obtain ⟨_,_,hp⟩ := hd
  unfold scan at hp
  cases hs : scanTable .pbs m.kern next prio with
  | none => simp [hs,release] at hp
  | some x =>
    simp only [hs] at hp
    simpa [enter] using hp

theorem scan_cpu {next : Nat} {prio : Int} (hs : scanTable .pbs m.kern next prio = some p) :
    (m.scan .pbs c next prio).cpu c = ⟨some p,.switched,prio,p.val + 1⟩ := by
  unfold scan
  rw [hs]
  simp [enter]

def Scanning (m : Machine) (c : Nat) (op : Op) (next : Nat) (prio : Int) : Prop :=
  op = .sched ∧ (m.cpu c).loc = .idle ∧ next = 0 ∧ prio = minPrio m.kern ∨
    op = .back ∧ next = (m.cpu c).next ∧ prio = (m.cpu c).minPrio ∧ prio ≤ minPrio m.kern

theorem pbs_dispatched (he : Effect .pbs m c op m') (hd : Dispatched ⟨c,op⟩ m' p) :
    ∃ next prio, Scanning m c op next prio ∧ scanTable .pbs m.kern next prio = some p ∧
      m'.cpu c = ⟨some p,.switched,prio,p.val + 1⟩ := by
  obtain ⟨hop,hloc',hp'⟩ := hd
  cases he with
  | @schedScan prio hloc _ hb =>
    obtain ⟨_,rfl⟩ := hb.resolve_left (by decide)
    have hs := scan_dispatched ⟨hop,hloc',hp'⟩
    exact ⟨0,_,.inl ⟨rfl,hloc,rfl,rfl⟩,hs,scan_cpu hs⟩
  | @backScan x prio _ _ _ hb =>
    obtain ⟨_,rfl,hle⟩ := hb.resolve_left (by decide)
    have hs := scan_dispatched ⟨hop,hloc',hp'⟩
    exact ⟨_,_,.inr ⟨rfl,rfl,rfl,hle⟩,hs,scan_cpu hs⟩
  | schedFcfs _ _ hb _ => cases hb
  | schedFcfsNone _ _ hb _ => cases hb
  | schedMlfq _ _ hb _ _ => cases hb
  | schedMlfqNone _ _ hb _ => cases hb
  | backRelease _ _ _ _ => simp [release] at hp'
  | backMlfq _ _ _ hb _ => cases hb
  | _ => simp at hop

theorem Scanning.le_minPrio {next : Nat} {prio : Int} (h : Scanning m c op next prio) :
    prio ≤ minPrio m.kern := by
  rcases h with ⟨_,_,_,rfl⟩ | ⟨_,_,_,hle⟩
  · exact le_refl _
  · exact hle

theorem pbs_dispatches_minimal {ncpu : Nat} {a : Action} (_h : (xv6 .pbs ncpu).Reachable m)
    (hs : (xv6 .pbs ncpu).step m a = .ok m') (hd : Dispatched a m' p) :
    (m.kern.proc p).state = .runnable ∧
      ∀ x, (m.kern.proc x).state = .runnable →
        (m.kern.proc p).priority ≤ (m.kern.proc x).priority := by
  obtain ⟨next,prio,hsc,hs,_⟩ := pbs_dispatched (step_effect hs) hd
  obtain ⟨_,hst,hprio⟩ := scanTable_some hs
  refine ⟨hst,?_⟩
  intro x hx
  calc
    (m.kern.proc p).priority = prio := hprio
    _ ≤ minPrio m.kern := hsc.le_minPrio
    _ ≤ (m.kern.proc x).priority := minPrio_le hx

theorem pbs_dispatches_minimal_forked :
    (((xv6 .pbs 1).after (bootRun ++ forkRun ++ tickRun)).kern.proc 1).state = .runnable ∧
      ∀ x, (((xv6 .pbs 1).after (bootRun ++ forkRun ++ tickRun)).kern.proc x).state = .runnable →
        (((xv6 .pbs 1).after (bootRun ++ forkRun ++ tickRun)).kern.proc 1).priority ≤
          (((xv6 .pbs 1).after (bootRun ++ forkRun ++ tickRun)).kern.proc x).priority :=
  pbs_dispatches_minimal (System.reachable_after (by decide +kernel))
    (System.step_after (a := ⟨0,.back⟩) (by decide +kernel)) (by decide +kernel)

theorem pbs_sched (he : Effect .pbs m c .sched m') :
    m' = m.scan .pbs c 0 (minPrio m.kern) := by
  cases he with
  | schedScan _ _ hb =>
    obtain ⟨_,rfl⟩ := hb.resolve_left (by decide)
    rfl
  | schedFcfs _ _ hb _ => cases hb
  | schedFcfsNone _ _ hb _ => cases hb
  | schedMlfq _ _ hb _ _ => cases hb
  | schedMlfqNone _ _ hb _ => cases hb

theorem pbs_sched_eq {ncpu : Nat} (hc : c < ncpu) (hidle : (m.cpu c).loc = .idle)
    (hlock : m.lock = none) :
    (xv6 .pbs ncpu).step m ⟨c,.sched⟩ = .ok (m.scan .pbs c 0 (minPrio m.kern)) := by
  rw [step_eq hc]
  show m.sched .pbs c = _
  unfold sched
  rw [need_of ⟨hidle,hlock⟩]
  rfl

theorem pbs_pass_dispatches_iff {ncpu : Nat} (_h : (xv6 .pbs ncpu).Reachable m) (hc : c < ncpu)
    (hidle : (m.cpu c).loc = .idle) (hlock : m.lock = none) :
    ((∃ p, (m.kern.proc p).state = .runnable) → Passes .pbs ncpu m c) ↔
      ((∃ p, (m.kern.proc p).state = .runnable) →
        ∃ p, (m.kern.proc p).state = .runnable ∧ (m.kern.proc p).priority ≤ 101) := by
  have hs := pbs_sched_eq hc hidle hlock
  constructor
  · intro hd hr
    obtain ⟨m',p,hm,hp⟩ := hd hr
    rw [hs] at hm
    cases hm
    obtain ⟨_,hst,hprio⟩ := scanTable_some (scan_dispatched hp)
    exact ⟨p,hst,hprio.trans_le minPrio_le_sentinel⟩
  · intro hle hr
    obtain ⟨p,hst,hp⟩ := hle hr
    obtain ⟨x,hx,hprio⟩ := minPrio_attained hst hp
    obtain ⟨y,hy,_⟩ := scanTable_le (Nat.zero_le _) hx hprio
    refine ⟨_,y,hs,.inl rfl,?_⟩
    simp [scan_cpu hy]

def failedForkRun : List Action := [⟨0,.allocproc⟩,⟨0,.kalloc false⟩]

def lowPrioRun : List Action :=
  bootRun ++ (List.replicate 202 failedForkRun).flatten ++ forkRun ++ [⟨0,.wait false⟩,⟨0,.back⟩]

theorem pbs_pass_dispatches_iff_boot : Passes .pbs 1 ((xv6 .pbs 1).after userinitRun) 0 :=
  (pbs_pass_dispatches_iff (System.reachable_after (by decide +kernel)) (by decide)
    (by decide +kernel) (by decide +kernel)).mpr (by decide +kernel) ⟨0,by decide +kernel⟩

theorem pbs_pass_idles_with_runnable :
    ¬ ∀ (ncpu : Nat) (m : Machine) (c : Nat), (xv6 .pbs ncpu).Reachable m → c < ncpu →
      (m.cpu c).loc = .idle → m.lock = none → (∃ p, (m.kern.proc p).state = .runnable) →
        Passes .pbs ncpu m c := by
  intro h
  have hrun : ((xv6 .pbs 1).checked (fun _ _ => True) (xv6 .pbs 1).init lowPrioRun).any
      (fun m => (m.cpu 0).loc = .idle ∧ m.lock = none ∧ (m.kern.proc 1).state = .runnable ∧
        ((xv6 .pbs 1).step m ⟨0,.sched⟩).toOption.any (fun m' => (m'.cpu 0).loc = .idle)) = true := by
    decide +kernel
  obtain ⟨hreach,hp⟩ := System.reach_checked hrun
  obtain ⟨hidle,hlock,hst,hsched⟩ := of_decide_eq_true hp
  have hpass := h 1 _ 0 hreach (by decide) hidle hlock ⟨1,hst⟩
  obtain ⟨m',p,hs,hd⟩ := hpass
  rw [hs] at hsched
  exact not_dispatched (of_decide_eq_true hsched) hd

theorem scan_cases {next : Nat} {prio : Int} :
    (∃ p, scanTable .pbs m.kern next prio = some p ∧
        (m.scan .pbs c next prio).cpu c = ⟨some p,.switched,prio,p.val + 1⟩) ∨
      scanTable .pbs m.kern next prio = none ∧ ((m.scan .pbs c next prio).cpu c).proc = none := by
  cases hs : scanTable .pbs m.kern next prio with
  | none =>
    right
    unfold scan
    simp [hs,release]
  | some p => exact .inl ⟨p,rfl,scan_cpu hs⟩

theorem pbs_cases (he : Effect .pbs m c op m') :
    (∃ p, Dispatched ⟨c,op⟩ m' p) ∨
      ((m'.cpu c).proc = (m.cpu c).proc ∧ (m'.cpu c).minPrio = (m.cpu c).minPrio ∧
        (m'.cpu c).next = (m.cpu c).next) ∨
      ((m'.cpu c).proc = none ∧ ((m.cpu c).loc = .idle ∨ op = .back ∧
        (minPrio m.kern < (m.cpu c).minPrio ∨
          scanTable .pbs m.kern (m.cpu c).next (m.cpu c).minPrio = none))) := by
  by_cases h1 : op = .sched
  · subst h1
    have hm := pbs_sched he
    rcases scan_cases (m := m) (c := c) with ⟨p,_,hp⟩ | ⟨_,hp⟩
    · exact .inl ⟨p,.inl rfl,by rw [hm,hp],by rw [hm,hp]⟩
    · refine .inr (.inr ⟨by rw [hm,hp],.inl ?_⟩)
      cases he with
      | schedScan hloc _ _ => exact hloc
      | schedFcfs _ _ hb _ => cases hb
      | schedFcfsNone _ _ hb _ => cases hb
      | schedMlfq _ _ hb _ _ => cases hb
      | schedMlfqNone _ _ hb _ => cases hb
  · by_cases h2 : op = .back
    · subst h2
      cases he with
      | @backScan x prio _ _ _ hb =>
        obtain ⟨_,rfl,hle⟩ := hb.resolve_left (by decide)
        rcases scan_cases (m := m) (c := c) with ⟨p,_,hp⟩ | ⟨hn,hp⟩
        · exact .inl ⟨p,.inr rfl,by rw [hp],by rw [hp]⟩
        · exact .inr (.inr ⟨hp,.inr ⟨rfl,.inr hn⟩⟩)
      | backRelease _ _ _ hb =>
        obtain ⟨_,hlt⟩ := hb.resolve_left (by decide)
        exact .inr (.inr ⟨by simp [release],.inr ⟨rfl,.inl hlt⟩⟩)
      | backMlfq _ _ _ hb _ => cases hb
    · exact .inr (.inl (effect_keeps_cpu he h1 h2 c))

section RoundRobin
variable {A B : Slot} {v : Int}

def CutsShort (v : Int) (m : Machine) (a : Action) : Prop :=
  a.op = .back ∧ (m.cpu a.cpu).minPrio = v ∧ minPrio m.kern < v

instance (v : Int) (m : Machine) (a : Action) : Decidable (CutsShort v m a) :=
  inferInstanceAs (Decidable (_ ∧ _ ∧ _))

def StaysRunnable (B : Slot) : List (Machine × Action × Machine) → Prop
  | [] => True
  | tr :: ts =>
    (tr.1.kern.proc B).state = .runnable ∧ (Dispatched tr.2.1 tr.2.2 B ∨ StaysRunnable B ts)

instance decidableStaysRunnable (B : Slot) :
    (ts : List (Machine × Action × Machine)) → Decidable (StaysRunnable B ts)
  | [] => inferInstanceAs (Decidable True)
  | _ :: ts =>
    have := decidableStaysRunnable B ts
    inferInstanceAs (Decidable (_ ∧ (_ ∨ _)))

theorem StaysRunnable.runnable {d : Machine × Action × Machine}
    {ts : List (Machine × Action × Machine)} (h : StaysRunnable B (ts ++ [d]))
    (hno : ∀ tr ∈ ts, ¬ Dispatched tr.2.1 tr.2.2 B) :
    ∀ tr ∈ ts ++ [d], (tr.1.kern.proc B).state = .runnable := by
  induction ts with
  | nil =>
    intro tr hm
    rw [List.mem_singleton.mp hm]
    exact h.1
  | cons x ts ih =>
    intro tr hm
    rcases List.mem_cons.mp hm with rfl | hm
    · exact h.1
    · have hrest := h.2.resolve_left (hno x List.mem_cons_self)
      exact ih hrest (fun y hy => hno y (List.mem_cons_of_mem x hy)) tr hm

structure Turn (A B : Slot) (v : Int) (s t : Machine) (a : Action)
    (mid : List (Machine × Action × Machine)) (s' t' : Machine) (a' : Action) : Prop where
  distinct : A ≠ B
  reachable : (xv6 .pbs 1).Reachable s
  first : (xv6 .pbs 1).step s a = .ok t
  dispatched : Dispatched a t A
  path : (xv6 .pbs 1).Path t mid s'
  second : (xv6 .pbs 1).step s' a' = .ok t'
  again : Dispatched a' t' A
  next : ∀ tr ∈ mid, ¬ Dispatched tr.2.1 tr.2.2 A
  same : ∀ tr ∈ (s,a,t) :: mid ++ [(s',a',t')],
    (tr.1.kern.proc A).priority = v ∧ (tr.1.kern.proc B).priority = v
  waits : StaysRunnable B ((s,a,t) :: mid ++ [(s',a',t')])

structure Ahead (A B : Slot) (v : Int) (m : Machine) : Prop where
  sane : Sane m
  busy : (m.cpu 0).proc ≠ none
  prio : (m.cpu 0).minPrio = v
  passed : A.val < (m.cpu 0).next
  before : (m.cpu 0).next ≤ B.val

theorem Ahead.dispatched (h : Ahead A B v m) (he : Effect .pbs m 0 op m')
    (hB : (m.kern.proc B).state = .runnable) (hv : (m.kern.proc B).priority = v)
    (hd : Dispatched ⟨0,op⟩ m' p) (hpB : p ≠ B) : Ahead A B v m' ∧ p ≠ A := by
  obtain ⟨next,prio,hsc,hs,hcpu⟩ := pbs_dispatched he hd
  rcases hsc with ⟨_,hloc,_,_⟩ | ⟨_,rfl,rfl,_⟩
  · exact absurd ((h.sane.proc_none 0).mpr (by simp [hloc,Loc.empty])) h.busy
  · obtain ⟨hn,_,_⟩ := scanTable_some hs
    obtain ⟨x,hx,hxB⟩ := scanTable_le h.before hB (hv.trans h.prio.symm)
    rw [hs] at hx
    cases hx
    have hlt : p.val < B.val := lt_of_le_of_ne hxB (by simpa [Fin.ext_iff] using hpB)
    have hpass := h.passed
    refine ⟨⟨effect_sane he h.sane,?_,?_,?_,?_⟩,?_⟩
    · simp [hcpu]
    · rw [hcpu]
      exact h.prio
    · rw [hcpu]
      exact Nat.lt_succ_of_lt (hpass.trans_le hn)
    · rw [hcpu]
      exact hlt
    · rintro rfl
      omega

theorem Ahead.step (h : Ahead A B v m) (he : Effect .pbs m 0 op m')
    (hB : (m.kern.proc B).state = .runnable) (hv : (m.kern.proc B).priority = v)
    (hd : ¬ Dispatched ⟨0,op⟩ m' B) (hc : ¬ CutsShort v m ⟨0,op⟩) : Ahead A B v m' := by
  rcases pbs_cases he with ⟨p,hp⟩ | ⟨h1,h2,h3⟩ | ⟨_,hrel⟩
  · refine (h.dispatched he hB hv hp ?_).1
    rintro rfl
    exact hd hp
  · exact ⟨effect_sane he h.sane,h1 ▸ h.busy,h2 ▸ h.prio,h3 ▸ h.passed,h3 ▸ h.before⟩
  · exfalso
    rcases hrel with hloc | ⟨rfl,hlt | hn⟩
    · exact h.busy ((h.sane.proc_none 0).mpr (by simp [hloc,Loc.empty]))
    · exact hc ⟨rfl,h.prio,by rw [← h.prio]; exact hlt⟩
    · obtain ⟨x,hx,_⟩ := scanTable_le h.before hB (hv.trans h.prio.symm)
      rw [hn] at hx
      cases hx

structure Behind (A B : Slot) (v : Int) (m : Machine) : Prop where
  sane : Sane m
  apart : (m.cpu 0).proc ≠ none → (m.cpu 0).minPrio = v →
    (m.cpu 0).next ≤ B.val ∨ A.val < (m.cpu 0).next

theorem Behind.dispatched (h : Behind A B v m) (he : Effect .pbs m 0 op m') (hBA : B < A)
    (hB : (m.kern.proc B).state = .runnable) (hv : (m.kern.proc B).priority = v)
    (hA : (m.kern.proc A).priority = v) (hd : Dispatched ⟨0,op⟩ m' p) (hpB : p ≠ B) :
    Behind A B v m' ∧ p ≠ A := by
  obtain ⟨next,prio,hsc,hs,hcpu⟩ := pbs_dispatched he hd
  obtain ⟨hn,_,hprio⟩ := scanTable_some hs
  have hside : prio = v → next ≤ B.val ∨ A.val < next := by
    intro hpv
    rcases hsc with ⟨_,_,rfl,_⟩ | ⟨rfl,rfl,rfl,_⟩
    · exact .inl (Nat.zero_le _)
    · apply h.apart _ hpv
      cases he with
      | backScan hp _ _ _ => simp [hp]
      | backRelease hp _ _ _ => simp [hp]
      | backMlfq hp _ _ _ _ => simp [hp]
  have hmain : prio = v → p.val < B.val ∨ A.val < p.val := by
    intro hpv
    rcases hside hpv with hle | hlt
    · obtain ⟨x,hx,hxB⟩ := scanTable_le hle hB (hv.trans hpv.symm)
      rw [hs] at hx
      cases hx
      exact .inl (lt_of_le_of_ne hxB (by simpa [Fin.ext_iff] using hpB))
    · exact .inr (hlt.trans_le hn)
  refine ⟨⟨effect_sane he h.sane,?_⟩,?_⟩
  · rw [hcpu]
    intro _ hpv
    rcases hmain hpv with hlt | hlt
    · exact .inl hlt
    · exact .inr (Nat.lt_succ_of_lt hlt)
  · rintro rfl
    have := hmain (hprio.symm.trans hA)
    have hBA' : B.val < p.val := hBA
    omega

theorem Behind.step (h : Behind A B v m) (he : Effect .pbs m 0 op m') (hBA : B < A)
    (hB : (m.kern.proc B).state = .runnable) (hv : (m.kern.proc B).priority = v)
    (hA : (m.kern.proc A).priority = v) (hd : ¬ Dispatched ⟨0,op⟩ m' B) : Behind A B v m' := by
  rcases pbs_cases he with ⟨p,hp⟩ | ⟨h1,h2,h3⟩ | ⟨hn,_⟩
  · refine (h.dispatched he hBA hB hv hA hp ?_).1
    rintro rfl
    exact hd hp
  · refine ⟨effect_sane he h.sane,?_⟩
    rw [h1,h2,h3]
    exact h.apart
  · exact ⟨effect_sane he h.sane,fun hp => absurd hn hp⟩

theorem one_cpu {a : Action} (hs : (xv6 .pbs 1).step m a = .ok m') :
    a.cpu = 0 ∧ Effect .pbs m 0 a.op m' := by
  have he := step_effect hs
  obtain ⟨_,hn,_⟩ := bind_eq_ok.mp hs
  have hlt := need_eq_ok.mp hn
  have h0 : a.cpu = 0 := by omega
  exact ⟨h0,h0 ▸ he⟩

variable {s t s' t' : Machine} {a a' : Action} {mid : List (Machine × Action × Machine)}

theorem Turn.runnable (h : Turn A B v s t a mid s' t' a')
    (hno : ∀ tr ∈ mid, ¬ Dispatched tr.2.1 tr.2.2 B) {tr : Machine × Action × Machine}
    (hm : tr ∈ mid ++ [(s',a',t')]) : (tr.1.kern.proc B).state = .runnable := by
  refine StaysRunnable.runnable h.waits ?_ tr (List.mem_cons_of_mem _ hm)
  intro x hx hd
  rcases List.mem_cons.mp hx with rfl | hx
  · exact h.distinct (Option.some.inj (h.dispatched.2.2.symm.trans hd.2.2))
  · exact hno x hx hd

theorem Turn.same_mid (h : Turn A B v s t a mid s' t' a') {tr : Machine × Action × Machine}
    (hm : tr ∈ mid ++ [(s',a',t')]) :
    (tr.1.kern.proc A).priority = v ∧ (tr.1.kern.proc B).priority = v :=
  h.same tr (List.mem_cons_of_mem _ hm)

theorem Turn.opening (h : Turn A B v s t a mid s' t' a') :
    Sane t ∧ (t.cpu 0).proc = some A ∧ (t.cpu 0).minPrio = v ∧ (t.cpu 0).next = A.val + 1 := by
  obtain ⟨h0,he⟩ := one_cpu h.first
  have hd : Dispatched ⟨0,a.op⟩ t A := h0 ▸ h.dispatched
  obtain ⟨next,prio,_,hs,hcpu⟩ := pbs_dispatched he hd
  obtain ⟨_,_,hprio⟩ := scanTable_some hs
  have hA := (h.same (s,a,t) List.mem_cons_self).1
  refine ⟨effect_sane he (reachable_sane h.reachable),by rw [hcpu],?_,by rw [hcpu]⟩
  rw [hcpu]
  exact hprio.symm.trans hA

theorem Turn.ahead (h : Turn A B v s t a mid s' t' a') (hAB : A < B)
    (hno : ∀ tr ∈ mid, ¬ Dispatched tr.2.1 tr.2.2 B)
    (hc : ∀ tr ∈ mid, ¬ CutsShort v tr.1 tr.2.1) : False := by
  obtain ⟨hs,hp,hv,hn⟩ := h.opening
  have hstart : Ahead A B v t := ⟨hs,by simp [hp],hv,by omega,by rw [hn]; exact hAB⟩
  have hend : Ahead A B v s' := by
    refine h.path.preserves (Ahead A B v) hstart ?_
    intro x y z hm hst hx
    have hm' : (x,y,z) ∈ mid ++ [(s',a',t')] := List.mem_append_left _ hm
    obtain ⟨h0,he⟩ := one_cpu hst
    have hd : ¬ Dispatched ⟨0,y.op⟩ z B := h0 ▸ hno _ hm
    have hcut : ¬ CutsShort v x ⟨0,y.op⟩ := h0 ▸ hc _ hm
    exact hx.step he (h.runnable hno hm') (h.same_mid hm').2 hd hcut
  have hm : (s',a',t') ∈ mid ++ [(s',a',t')] := by simp
  obtain ⟨h0,he⟩ := one_cpu h.second
  have hd : Dispatched ⟨0,a'.op⟩ t' A := h0 ▸ h.again
  exact (hend.dispatched he (h.runnable hno hm) (h.same_mid hm).2 hd h.distinct).2 rfl

theorem Turn.behind (h : Turn A B v s t a mid s' t' a') (hBA : B < A)
    (hno : ∀ tr ∈ mid, ¬ Dispatched tr.2.1 tr.2.2 B) : False := by
  obtain ⟨hs,_,_,hn⟩ := h.opening
  have hend : Behind A B v s' := by
    refine h.path.preserves (Behind A B v) ⟨hs,fun _ _ => .inr (by omega)⟩ ?_
    intro x y z hm hst hx
    have hm' : (x,y,z) ∈ mid ++ [(s',a',t')] := List.mem_append_left _ hm
    obtain ⟨hA,hB⟩ := h.same_mid hm'
    obtain ⟨h0,he⟩ := one_cpu hst
    have hd : ¬ Dispatched ⟨0,y.op⟩ z B := h0 ▸ hno _ hm
    exact hx.step he hBA (h.runnable hno hm') hB hA hd
  have hm : (s',a',t') ∈ mid ++ [(s',a',t')] := by simp
  obtain ⟨hA,hB⟩ := h.same_mid hm
  obtain ⟨h0,he⟩ := one_cpu h.second
  have hd : Dispatched ⟨0,a'.op⟩ t' A := h0 ▸ h.again
  exact (hend.dispatched he hBA (h.runnable hno hm) hB hA hd h.distinct).2 rfl

theorem pbs_round_robin (h : Turn A B v s t a mid s' t' a')
    (hc : B < A ∨ ∀ tr ∈ mid, ¬ CutsShort v tr.1 tr.2.1) :
    ∃ tr ∈ mid, Dispatched tr.2.1 tr.2.2 B := by
  by_contra hne
  have hno : ∀ tr ∈ mid, ¬ Dispatched tr.2.1 tr.2.2 B := fun tr hm hd => hne ⟨tr,hm,hd⟩
  rcases lt_trichotomy A B with hAB | hAB | hBA
  · exact h.ahead hAB hno (hc.resolve_left (lt_asymm hAB))
  · exact h.distinct hAB
  · exact h.behind hBA hno

def twoRun : List Action :=
  bootRun ++ forkRun ++ tickRun ++ [⟨0,.back⟩,⟨0,.resume⟩] ++ tickRun ++ [⟨0,.back⟩]

def turnRun : List Action :=
  [⟨0,.resume⟩] ++ tickRun ++ [⟨0,.back⟩,⟨0,.resume⟩] ++ tickRun ++ [⟨0,.back⟩]

def cutRun : List Action :=
  [⟨0,.resume⟩] ++ forkRun ++ tickRun ++
    [⟨0,.back⟩,⟨0,.sched⟩,⟨0,.resume⟩,⟨0,.sleep (.other 0)⟩,⟨0,.back⟩]

theorem turn_after (A B : Slot) (v : Int) (pre acts : List Action) (a a' : Action)
    (hok : ((pre ++ [a] ++ acts ++ [a']).foldlM (xv6 .pbs 1).step boot).isOk = true)
    (hAB : A ≠ B) (hd : Dispatched a ((xv6 .pbs 1).after (pre ++ [a])) A)
    (hd' : Dispatched a' ((xv6 .pbs 1).after (pre ++ [a] ++ acts ++ [a'])) A)
    (hnext : ∀ tr ∈ (xv6 .pbs 1).transitions ((xv6 .pbs 1).after (pre ++ [a])) acts,
      ¬ Dispatched tr.2.1 tr.2.2 A)
    (hsame : ∀ tr ∈ ((xv6 .pbs 1).after pre,a,(xv6 .pbs 1).after (pre ++ [a])) ::
        (xv6 .pbs 1).transitions ((xv6 .pbs 1).after (pre ++ [a])) acts ++
        [((xv6 .pbs 1).after (pre ++ [a] ++ acts),a',
          (xv6 .pbs 1).after (pre ++ [a] ++ acts ++ [a']))],
      (tr.1.kern.proc A).priority = v ∧ (tr.1.kern.proc B).priority = v)
    (hwaits : StaysRunnable B (((xv6 .pbs 1).after pre,a,(xv6 .pbs 1).after (pre ++ [a])) ::
        (xv6 .pbs 1).transitions ((xv6 .pbs 1).after (pre ++ [a])) acts ++
        [((xv6 .pbs 1).after (pre ++ [a] ++ acts),a',
          (xv6 .pbs 1).after (pre ++ [a] ++ acts ++ [a']))])) :
    Turn A B v ((xv6 .pbs 1).after pre) ((xv6 .pbs 1).after (pre ++ [a])) a
      ((xv6 .pbs 1).transitions ((xv6 .pbs 1).after (pre ++ [a])) acts)
      ((xv6 .pbs 1).after (pre ++ [a] ++ acts))
      ((xv6 .pbs 1).after (pre ++ [a] ++ acts ++ [a'])) a' := by
  have h2 := System.isOk_of_append hok
  have h1 := System.isOk_of_append h2
  exact ⟨hAB,System.reachable_after (System.isOk_of_append h1),System.step_after h1,hd,
    System.path_after h2,System.step_after hok,hd',hnext,hsame,hwaits⟩

theorem pbs_round_robin_two :
    ∃ tr ∈ (xv6 .pbs 1).transitions ((xv6 .pbs 1).after (twoRun ++ [⟨0,.sched⟩])) turnRun,
      Dispatched tr.2.1 tr.2.2 1 :=
  pbs_round_robin
    (turn_after 0 1 60 twoRun turnRun ⟨0,.sched⟩ ⟨0,.sched⟩ (by decide +kernel) (by decide)
      (by decide +kernel) (by decide +kernel) (by decide +kernel) (by decide +kernel)
      (by decide +kernel))
    (.inr (by decide +kernel))

theorem pbs_not_round_robin :
    ¬ ∀ (A B : Slot) (v : Int) (s t : Machine) (a : Action)
      (mid : List (Machine × Action × Machine)) (s' t' : Machine) (a' : Action),
      Turn A B v s t a mid s' t' a' → ∃ tr ∈ mid, Dispatched tr.2.1 tr.2.2 B := by
  intro h
  have hturn := turn_after 0 1 60 twoRun cutRun ⟨0,.sched⟩ ⟨0,.sched⟩ (by decide +kernel)
    (by decide) (by decide +kernel) (by decide +kernel) (by decide +kernel) (by decide +kernel)
    (by decide +kernel)
  have hno : ¬ ∃ tr ∈ (xv6 .pbs 1).transitions ((xv6 .pbs 1).after (twoRun ++ [⟨0,.sched⟩]))
      cutRun, Dispatched tr.2.1 tr.2.2 1 := by decide +kernel
  exact hno (h _ _ _ _ _ _ _ _ _ _ hturn)

end RoundRobin
end Machine
end Xv6
