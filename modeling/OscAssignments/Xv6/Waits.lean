import OscAssignments.Xv6.Aging
import OscAssignments.Xv6.Turns

namespace Xv6
open Runs

abbrev Trans := Machine × Action × Machine

def waitsIn (p : Slot) (q : Level) (m : Machine) : Prop :=
  (m.kern.proc p).state = .runnable ∧ getQIdx m.kern p = q.val

def isTick (tr : Trans) : Bool := tr.2.1.op = .timer && tr.2.1.cpu = 0

def Ages (m : Machine) (a : Action) (p : Slot) (q : Level) : Prop :=
  a.op = .timer ∧ a.cpu = 0 ∧ aged (ticked m.kern) p = true ∧ getQIdx m.kern p = q.val

def enters (p : Slot) (tr : Trans) : Bool :=
  (tr.2.2.kern.proc p).state = .runnable &&
    ((tr.1.kern.proc p).state ≠ .runnable || getQIdx tr.2.2.kern p ≠ getQIdx tr.1.kern p ||
      (tr.2.1.op = .back && (tr.1.cpu tr.2.1.cpu).proc = some p) ||
      (isTick tr && aged (ticked tr.1.kern) p))

structure Waited (p : Slot) (q : Level) (ts : List Trans) (m : Machine) : Prop where
  now : waitsIn p q m
  long : ∃ pre suf, ts = pre ++ suf ∧
    (∀ tr ∈ suf, waitsIn p q tr.1 ∧ enters p tr = false) ∧
    waitLimit q ≤ suf.countP isTick + 1

def StampedAhead (p : Slot) (ts : List Trans) : Prop :=
  ∀ e ∈ (ts.filter (enters p)).getLast?, getTicks (ticked e.2.2.kern) p ≤ 0

theorem ageAll_clock {k k' : Kernel} {l : List Slot} (h : l.foldlM ageProc k = .ok k') :
    SameClock k k' :=
  foldlM_preserves (SameClock k) (fun _ _ _ hs ht => hs.trans (ageProc_clock ht)) l (.refl k) h

theorem aged_at_turn {k s : Kernel} {pre post : List Slot} {p : Slot}
    (hl : allSlots = pre ++ p :: post) (h : pre.foldlM ageProc (ticked k) = .ok s) :
    aged s p = aged (ticked k) p := by
  have hnd := List.nodup_finRange nproc
  rw [show List.finRange nproc = pre ++ p :: post from hl] at hnd
  have hp : p ∉ pre := fun hm => (List.disjoint_of_nodup_append hnd) hm List.mem_cons_self
  exact aged_congr (foldlM_faces (fun _ _ _ => ageProc_faces) pre h) (ageAll_clock h)
    (ageAll_kept (.inl hp) h).idx

theorem ageProc_at_turn {k s : Kernel} {pre post : List Slot} {p : Slot} {q : Level}
    (hl : allSlots = pre ++ p :: post) (h : pre.foldlM ageProc (ticked k) = .ok s)
    (hq : getQIdx s p = q.val) (ha : aged (ticked k) p = true) : ageProc s p = incPrio s p := by
  rw [← aged_at_turn hl h] at ha
  have hlev : levelOf s p = q := by
    unfold levelOf
    rw [hq,level_val]
  simp only [aged,hlev,Bool.and_eq_true,decide_eq_true_eq,Bool.not_eq_true'] at ha
  obtain ⟨⟨⟨hk,hpid⟩,hr⟩,hlim⟩ := ha
  unfold ageProc
  simp only [hk,hr,hq,level_val,ok_bind]
  rw [if_neg (by simpa using hpid),if_pos (by simp)]
  simp only [reduceCtorEq,if_false]
  rw [if_pos ⟨trivial,hlim⟩]

theorem not_enters {p : Slot} {tr : Trans} (h : enters p tr = false)
    (hr : (tr.2.2.kern.proc p).state = .runnable) :
    (tr.1.kern.proc p).state = .runnable ∧ getQIdx tr.2.2.kern p = getQIdx tr.1.kern p ∧
      ¬ (tr.2.1.op = .back ∧ (tr.1.cpu tr.2.1.cpu).proc = some p) ∧
      (isTick tr = true → aged (ticked tr.1.kern) p = false) := by
  simp only [enters,hr,decide_true,Bool.true_and,Bool.or_eq_false_iff,decide_eq_false_iff_not,
    not_not,ne_eq,Bool.and_eq_false_iff] at h
  obtain ⟨⟨⟨hst,hq⟩,hback⟩,hage⟩ := h
  refine ⟨hst,hq,?_,?_⟩
  · rintro ⟨hop,hp⟩
    rcases hback with h | h
    · exact h hop
    · exact h hp
  · intro ht
    exact hage.resolve_left (by simp [ht])

theorem suffix_of_last {α : Type} {P : α → Prop} {pre suf pre' suf' : List α} {e : α}
    (h : pre ++ e :: suf = pre' ++ suf') (he : ¬ P e) (hall : ∀ x ∈ suf', P x) :
    suf' <:+ suf := by
  have h' : suf' <:+ pre ++ e :: suf := ⟨pre',h.symm⟩
  have h0 : e :: suf <:+ pre ++ e :: suf := ⟨pre,rfl⟩
  rcases List.suffix_or_suffix_of_suffix h' h0 with hs | hs
  · rcases List.suffix_cons_iff.mp hs with rfl | hs
    · exact absurd (hall e List.mem_cons_self) he
    · exact hs
  · exact absurd (hall e (hs.subset List.mem_cons_self)) he

theorem getLast?_filter_entry {α : Type} {P : α → Bool} {pre suf : List α} {e : α}
    (he : P e = true) (hall : ∀ x ∈ suf, P x = false) :
    ((pre ++ e :: suf).filter P).getLast? = some e := by
  have hsuf : suf.filter P = [] := by
    rw [List.filter_eq_nil_iff]
    intro x hx
    simp [hall x hx]
  rw [List.filter_append,List.filter_cons_of_pos he,hsuf,List.getLast?_concat]

theorem reaches_limit_iff {d : BitVec 32} {w : Int} {n : Nat} (hw : 2 ≤ w) (hmax : w < 2 ^ 30)
    (hnow : w ≤ (d + BitVec.ofNat 32 (n + 1)).toInt + 1)
    (hbefore : ∀ j, 0 < j → j ≤ n → (d + BitVec.ofNat 32 j).toInt + 1 < w) :
    w ≤ n + 1 ↔ (d + 1).toInt ≤ 0 := by
  have hval : ∀ j : Nat, (d + BitVec.ofNat 32 j).toInt =
      if 2 * ((d.toNat + j) % 2 ^ 32) < 2 ^ 32 then (((d.toNat + j) % 2 ^ 32 : Nat) : Int)
        else (((d.toNat + j) % 2 ^ 32 : Nat) : Int) - 2 ^ 32 := by
    intro j
    rw [BitVec.toInt_eq_toNat_cond,BitVec.toNat_add,BitVec.toNat_ofNat,Nat.add_mod_mod]
    rfl
  have hd := d.isLt
  have h1 : (d + 1).toInt = (d + BitVec.ofNat 32 1).toInt := rfl
  rw [h1,hval]
  rw [hval] at hnow
  constructor
  · intro hn
    have hfirst := hbefore 1 Nat.one_pos (by omega)
    have hlimit := hbefore (w - 1).toNat (by omega) (by omega)
    rw [hval] at hfirst hlimit
    split_ifs at hfirst hlimit ⊢ <;> omega
  · intro hd1
    by_contra hn
    split_ifs at hnow hd1 <;> omega

def Condemned (p : Slot) (k k' : Kernel) : Prop :=
  (k.proc p).killed = true → (k'.proc p).killed = true ∨ (k'.proc p).state = .unused

section Condemned
variable {k k' k'' : Kernel} {p x : Slot}

theorem Condemned.of_eq (h : (k'.proc p).killed = (k.proc p).killed) : Condemned p k k' :=
  fun hk => .inl (h.trans hk)

theorem Condemned.trans_eq (h : (k'.proc p).killed = (k.proc p).killed)
    (h' : Condemned p k' k'') : Condemned p k k'' :=
  fun hk => h' (h.trans hk)

theorem Condemned.setProc {r : Proc}
    (hr : r.killed = (k.proc x).killed ∨ r.killed = true ∨ r.state = .unused) :
    Condemned p k (k.setProc x r) := by
  intro hk
  rw [Kernel.setProc_proc]
  split_ifs with hx
  · rcases hr with h | h | h
    · exact .inl (h.trans (hx ▸ hk))
    · exact .inl h
    · exact .inr h
  · exact .inl hk

theorem forkCopy_condemned {b : Build} {curproc np : Slot} :
    Condemned p k (forkCopy b k curproc np) := by
  refine .of_eq ?_
  unfold forkCopy
  simp only
  split_ifs
  · rcases eq_or_ne p np with rfl | hp
    · simp
    · simp [hp]
  · rcases eq_or_ne p np with rfl | hp
    · simp
    · simp [hp]

theorem kill_condemned {pid : Int} : Condemned p k (kill k pid) := by
  unfold kill
  cases allSlots.find? fun p => ((k.proc p).pid : Int) = pid with
  | none => exact .of_eq rfl
  | some x =>
    simp only
    split_ifs
    · intro hk
      rcases eq_or_ne p x with rfl | hp
      · simp [Kernel.setState]
      · simp [Kernel.setState,hp,hk]
    · exact .setProc (.inr (.inl rfl))

theorem clearChan_killed : ((Machine.clearChan k x).proc p).killed = (k.proc p).killed := by
  rcases eq_or_ne p x with rfl | hp
  · simp [Machine.clearChan]
  · simp [Machine.clearChan,hp]

end Condemned

namespace Machine
variable {ncpu c : Nat} {m m' : Machine} {a : Action} {op : Op} {p : Slot} {q : Level}

theorem timer_ticks (he : Effect .mlfq m 0 .timer m') : updateStatsAndAging m.kern = .ok m'.kern := by
  cases he with
  | tickIdle _ _ hk =>
    obtain ⟨_,_,hk⟩ := bind_eq_ok.mp hk
    exact hk
  | timerIdle hc _ => exact absurd rfl hc
  | tickCode _ _ hk =>
    obtain ⟨_,_,hk⟩ := bind_eq_ok.mp hk
    exact hk
  | timerCode hc _ _ => exact absurd rfl hc

theorem waitLoop_condemned {k : Kernel} {x : Slot} {y : Bool}
    (hk : (k.proc p).killed = (m.kern.proc p).killed) :
    Condemned p m.kern ({ m with kern := k }.waitLoop c x y).kern := by
  unfold waitLoop
  split
  · exact Condemned.trans_eq hk (.setProc (.inr (.inr rfl)))
  · exact .of_eq hk
  · exact Condemned.trans_eq hk (.setProc (.inl rfl))

theorem scan_condemned {b : Build} {next : Nat} {prio : Int} :
    Condemned p m.kern (m.scan b c next prio).kern := by
  unfold scan
  split
  · exact .setProc (.inl rfl)
  · exact .of_eq rfl

theorem effect_condemned {b : Build} (he : Effect b m c op m') (p : Slot) :
    Condemned p m.kern m'.kern := by
  cases he with
  | alloc _ _ _ _ => exact .setProc (.inl rfl)
  | setup _ _ hk => exact .of_eq ((setupProc_faces hk).killed p)
  | setupInit _ _ hk => exact .of_eq ((setupProc_faces hk).killed p)
  | allocFailed _ _ => exact .setProc (.inl rfl)
  | copied _ _ _ => exact forkCopy_condemned
  | copyFailed _ _ _ => exact .setProc (.inl rfl)
  | initRunnable _ _ _ => exact .setProc (.inl rfl)
  | forkRunnable _ _ _ => exact .setProc (.inl rfl)
  | exited _ _ _ _ hk => exact .of_eq ((exit_exited hk).2.killed p)
  | waited _ _ _ _ => exact waitLoop_condemned rfl
  | slept _ _ _ _ _ => exact .setProc (.inl rfl)
  | woke _ _ hk => exact .of_eq ((wakeup1_woken hk).killed p)
  | killed _ => exact kill_condemned
  | prioSet _ _ => exact .of_eq ((setPrio_faces _ _ _).killed p)
  | faulted _ => exact .setProc (.inr (.inl rfl))
  | tickIdle _ _ hk => exact .of_eq ((advanceTicks_faces hk).killed p)
  | tickCode _ _ hk => exact .of_eq ((advanceTicks_faces hk).killed p)
  | timerCode _ _ _ => exact .of_eq ((account_faces _ _).killed p)
  | wokeTicksIdle _ _ hk => exact .of_eq ((wakeup1_woken hk).killed p)
  | wokeTicksCode _ _ _ hk =>
    exact .of_eq (((account_faces _ _).killed p).trans ((wakeup1_woken hk).killed p))
  | yielded _ _ _ => exact .setProc (.inl rfl)
  | schedScan _ _ _ => exact scan_condemned
  | schedFcfs _ _ _ _ => exact .setProc (.inl rfl)
  | schedMlfq _ _ _ hsel hdis =>
    obtain ⟨_,q,a,k1,_,hpop,rfl⟩ := dispatchMlfq_eq_ok hdis
    have hf := (selectMlfq_faces hsel).trans (popFront_faces hpop)
    exact Condemned.trans_eq (hf.killed p) (.setProc (.inl rfl))
  | schedMlfqNone _ _ _ hsel => exact .of_eq ((selectMlfq_faces hsel).killed p)
  | resumedSlept _ _ _ _ => exact .setProc (.inl rfl)
  | resumedWait _ _ _ _ => exact waitLoop_condemned clearChan_killed
  | backScan _ _ _ _ => exact scan_condemned
  | backMlfq _ _ _ _ hk => exact .of_eq ((requeue_faces hk).killed p)
  | _ => exact .of_eq rfl

theorem stay_clock (hs : Sane m) (he : Effect .mlfq m c op m')
    (hno : enters p (m,⟨c,op⟩,m') = false) (hr : (m'.kern.proc p).state = .runnable) :
    (m'.kern.proc p).latestQTime = (m.kern.proc p).latestQTime ∧
      m'.kern.ticks = m.kern.ticks + BitVec.ofNat 32 (isTick (m,⟨c,op⟩,m')).toNat := by
  obtain ⟨hold,-,hback,-⟩ := not_enters hno hr
  rcases Bool.eq_false_or_eq_true (isTick (m,⟨c,op⟩,m')) with ht | ht
  · rw [ht]
    have hop : op = .timer ∧ c = 0 := by simpa [isTick] using ht
    rw [hop.1,hop.2] at he
    have hc := ageAll_clock (timer_ticks he)
    exact ⟨hc.latest p,hc.ticks⟩
  · rw [ht,Bool.toNat_false]
    suffices (m'.kern.proc p).latestQTime = (m.kern.proc p).latestQTime ∧
        m'.kern.ticks = m.kern.ticks from ⟨this.1,this.2.trans (BitVec.add_zero _).symm⟩
    cases effect_turn he p with
    | kept hk => exact ⟨hk.latest,hk.ticks⟩
    | tick hc _ => simp [isTick,hc] at ht
    | created htask =>
      have hchild := hs.child _ p (by rw [htask]; rfl)
      rw [hold] at hchild
      cases hchild
    | dispatched hp hloc _ _ _ =>
      have hrun := (effect_sane he hs).running c p hp (by simp [hloc])
      rw [hr] at hrun
      cases hrun
    | requeued hp _ _ => exact absurd ⟨rfl,hp⟩ hback

def sinceStamp (p : Slot) (m : Machine) : BitVec 32 :=
  m.kern.ticks - (m.kern.proc p).latestQTime

structure Waiting (p : Slot) (e : Trans) (suf : List Trans) (m : Machine) : Prop where
  entry : enters p e = true
  stays : ∀ tr ∈ suf, enters p tr = false ∧ (tr.1.kern.proc p).state = .runnable ∧
    getQIdx tr.1.kern p = getQIdx m.kern p
  elapsed : sinceStamp p m = sinceStamp p e.2.2 + BitVec.ofNat 32 (suf.countP isTick)
  passed : (m.kern.proc p).killed = false → ∀ j, 0 < j → j ≤ suf.countP isTick →
    (sinceStamp p e.2.2 + BitVec.ofNat 32 j).toInt + 1 < waitLimit (levelOf m.kern p)

theorem getTicks_ticked (p : Slot) (m : Machine) :
    getTicks (ticked m.kern) p = (sinceStamp p m + 1).toInt := by
  unfold getTicks sinceStamp ticked
  congr 1
  bv_omega

theorem spared_at_tick (hs : Sane m) (hr : (m.kern.proc p).state = .runnable)
    (hk : (m.kern.proc p).killed = false) (ha : aged (ticked m.kern) p = false) :
    (sinceStamp p m + 1).toInt + 1 < waitLimit (levelOf m.kern p) := by
  rw [← getTicks_ticked]
  by_contra hle
  have hpid := hs.pids.pos p (by simp [hr])
  have hlim : waitLimit (levelOf (ticked m.kern) p) ≤ getTicks (ticked m.kern) p + 1 :=
    not_lt.mp hle
  have : aged (ticked m.kern) p = true := by
    simp only [aged,Bool.and_eq_true,decide_eq_true_eq,Bool.not_eq_true',ne_eq]
    exact ⟨⟨⟨hk,Nat.pos_iff_ne_zero.mp hpid⟩,hr⟩,hlim⟩
  rw [ha] at this
  cases this

theorem Waiting.start {tr : Trans} (h : enters p tr = true) : Waiting p tr [] tr.2.2 where
  entry := h
  stays _ htr := absurd htr List.not_mem_nil
  elapsed := (BitVec.add_zero _).symm
  passed _ _ hj hle := absurd hj (Nat.not_lt.mpr hle)

theorem Waiting.step {e : Trans} {suf : List Trans} (hs : Sane m) (h : Waiting p e suf m)
    (he : Effect .mlfq m c op m') (hno : enters p (m,⟨c,op⟩,m') = false)
    (hr : (m'.kern.proc p).state = .runnable) :
    Waiting p e (suf ++ [(m,⟨c,op⟩,m')]) m' := by
  obtain ⟨hold,hidx,-,hage⟩ := not_enters hno hr
  obtain ⟨hlatest,hticks⟩ := stay_clock hs he hno hr
  have hlevel : levelOf m'.kern p = levelOf m.kern p := by
    unfold levelOf
    rw [hidx]
  have hsince : sinceStamp p m' = sinceStamp p m +
      BitVec.ofNat 32 (isTick (m,⟨c,op⟩,m')).toNat := by
    unfold sinceStamp
    rw [hlatest,hticks]
    bv_omega
  refine ⟨h.entry,?_,?_,?_⟩
  · intro tr htr
    rw [hidx]
    rcases List.mem_append.mp htr with htr | htr
    · exact h.stays tr htr
    · rw [List.mem_singleton.mp htr]
      exact ⟨hno,hold,rfl⟩
  · rw [hsince,h.elapsed,countP_snoc,BitVec.ofNat_add,BitVec.add_assoc]
  · intro hk' j hj hle
    have hk : (m.kern.proc p).killed = false := by
      by_contra hkilled
      rcases effect_condemned he p (Bool.of_not_eq_false hkilled) with h' | h'
      · simp [hk'] at h'
      · simp [hr] at h'
    rw [hlevel]
    rw [countP_snoc] at hle
    rcases Nat.lt_or_ge (suf.countP isTick) j with hlast | hle'
    · have ht : isTick (m,⟨c,op⟩,m') = true := by
        by_contra hnt
        rw [Bool.of_not_eq_true hnt,Bool.toNat_false] at hle
        omega
      rw [ht,Bool.toNat_true] at hle
      obtain rfl : j = suf.countP isTick + 1 := by omega
      rw [BitVec.ofNat_add,← BitVec.add_assoc,← h.elapsed]
      exact spared_at_tick hs hold hk (hage ht)
    · exact h.passed hk j hj hle'

theorem path_waiting {ts : List Trans} (h : (xv6 .mlfq ncpu).Path boot ts m)
    (hr : (m.kern.proc p).state = .runnable) :
    ∃ pre e suf, ts = pre ++ e :: suf ∧ Waiting p e suf m := by
  have main : Sane m ∧ ((m.kern.proc p).state = .runnable →
      ∃ pre e suf, ts = pre ++ e :: suf ∧ Waiting p e suf m) := by
    refine h.rule (fun ts m => Sane m ∧ ((m.kern.proc p).state = .runnable →
      ∃ pre e suf, ts = pre ++ e :: suf ∧ Waiting p e suf m)) ⟨sane_boot,fun hr => by cases hr⟩ ?_
    rintro ts s ⟨c,op⟩ t _ ⟨hs,ih⟩ hst
    refine ⟨step_sane hs hst,?_⟩
    intro hr
    rcases Bool.eq_false_or_eq_true (enters p (s,⟨c,op⟩,t)) with hin | hno
    · exact ⟨ts,(s,⟨c,op⟩,t),[],rfl,.start hin⟩
    · obtain ⟨pre,e,suf,rfl,hw⟩ := ih (not_enters hno hr).1
      exact ⟨pre,e,suf ++ [(s,⟨c,op⟩,t)],by simp,hw.step hs (step_effect hst) hno hr⟩
  exact main.2 hr

theorem Waiting.waited_iff {ts pre suf : List Trans} {e : Trans} (h : Waiting p e suf m)
    (hts : ts = pre ++ e :: suf) (hnow : waitsIn p q m) :
    Waited p q ts m ↔ waitLimit q ≤ suf.countP isTick + 1 := by
  constructor
  · rintro ⟨-,pre',suf',hts',hall,hlong⟩
    have hsub := suffix_of_last (P := fun tr => enters p tr = false) (hts.symm.trans hts')
      (by simp [h.entry]) fun tr htr => (hall tr htr).2
    have := hsub.sublist.countP_le (p := isTick)
    omega
  · intro hlong
    refine ⟨hnow,pre ++ [e],suf,by simp [hts],?_,hlong⟩
    intro tr htr
    obtain ⟨hno,hr,hq⟩ := h.stays tr htr
    exact ⟨⟨hr,hq.trans hnow.2⟩,hno⟩

theorem waitLimit_bounds (q : Level) : 2 ≤ waitLimit q ∧ waitLimit q < 2 ^ 30 := by
  revert q
  decide

theorem mlfq_ages_after_wait_iff {ts : List Trans} (h : (xv6 .mlfq ncpu).Path boot ts m)
    (ha : Ages m a p q) : Waited p q ts m ↔ StampedAhead p ts := by
  obtain ⟨-,-,haged,hq⟩ := ha
  have hr : (m.kern.proc p).state = .runnable := aged_runnable (k := ticked m.kern) haged
  have hlevel : levelOf m.kern p = q := by
    rw [levelOf,hq,level_val]
  obtain ⟨pre,e,suf,hts,hw⟩ := path_waiting h hr
  obtain ⟨h2,hmax⟩ := waitLimit_bounds q
  simp only [aged,Bool.and_eq_true,decide_eq_true_eq,Bool.not_eq_true'] at haged
  obtain ⟨⟨⟨hk,-⟩,-⟩,hlim⟩ := haged
  have hnow : waitLimit q ≤
      (sinceStamp p e.2.2 + BitVec.ofNat 32 (suf.countP isTick + 1)).toInt + 1 := by
    rw [BitVec.ofNat_add,← BitVec.add_assoc,← hw.elapsed,← hlevel]
    rw [getTicks_ticked] at hlim
    exact hlim
  have hlast : (ts.filter (enters p)).getLast? = some e := by
    rw [hts]
    exact getLast?_filter_entry hw.entry fun tr htr => (hw.stays tr htr).1
  rw [hw.waited_iff hts ⟨hr,hq⟩,reaches_limit_iff h2 hmax hnow fun j hj hle =>
    hlevel ▸ hw.passed hk j hj hle]
  unfold StampedAhead
  rw [hlast]
  simp [getTicks_ticked]

def withTicks (m : Machine) (t : BitVec 32) : Machine := { m with kern := { m.kern with ticks := t } }

structure Dozing (m : Machine) : Prop where
  loc : (m.cpu 0).loc = .idle
  lock : m.lock = none
  asleep : ∀ p, ¬ ((m.kern.proc p).state = .sleeping ∧ (m.kern.proc p).chan = some .ticks)
  still : ∀ p, (m.kern.proc p).state ≠ .runnable ∧ (m.kern.proc p).state ≠ .running

theorem wakeup1_dozing {b : Build} {k : Kernel}
    (h : ∀ p, ¬ ((k.proc p).state = .sleeping ∧ (k.proc p).chan = some .ticks)) :
    wakeup1 b k (some .ticks) = .ok k := by
  have main : ∀ l : List Slot, l.foldlM (wakeProc b (some .ticks)) k = .ok k := by
    intro l
    induction l with
    | nil => rfl
    | cons p l ih =>
      rw [List.foldlM_cons,wakeProc,if_neg (h p)]
      exact ih
  exact main allSlots

theorem ageAll_still {k : Kernel}
    (h : ∀ p, (k.proc p).state ≠ .runnable ∧ (k.proc p).state ≠ .running) (l : List Slot) :
    l.foldlM ageProc k = .ok k := by
  induction l with
  | nil => rfl
  | cons p l ih =>
    have hp : ageProc k p = .ok k := by
      unfold ageProc
      simp only [h p,or_self,if_false]
      split_ifs <;> rfl
    rw [List.foldlM_cons,hp]
    exact ih

theorem Dozing.advanceTicks (h : Dozing m) (b : Build) :
    Machine.advanceTicks b m = .ok { m.kern with ticks := m.kern.ticks + 1 } := by
  unfold Machine.advanceTicks
  split_ifs
  · rw [need,if_pos h.lock,ok_bind]
    exact ageAll_still (k := ticked m.kern) h.still allSlots
  · rfl

theorem Dozing.tick (h : Dozing m) (b : Build) :
    ∃ ts, (xv6 b 1).Path m ts (m.withTicks (m.kern.ticks + 1)) ∧ ts.countP isTick = 1 := by
  have h1 : (xv6 b 1).step m ⟨0,.timer⟩ =
      .ok ((m.withTicks (m.kern.ticks + 1)).setLoc 0 .idleTrap) := by
    rw [step_eq Nat.one_pos]
    simp only [stepOn,timer,h.loc,if_true,h.advanceTicks b]
    rfl
  have h2 : (xv6 b 1).step ((m.withTicks (m.kern.ticks + 1)).setLoc 0 .idleTrap) ⟨0,.wakeTicks⟩ =
      .ok (m.withTicks (m.kern.ticks + 1)) := by
    rw [step_eq Nat.one_pos]
    have hw : wakeup1 b (m.withTicks (m.kern.ticks + 1)).kern (some .ticks) =
        .ok (m.withTicks (m.kern.ticks + 1)).kern := wakeup1_dozing h.asleep
    have hcpu : ((m.withTicks (m.kern.ticks + 1)).setLoc 0 .idleTrap).setLoc 0 .idle =
        m.withTicks (m.kern.ticks + 1) := by
      have hl := h.loc
      simp only [setLoc,setCpu,withTicks,Machine.mk.injEq,true_and,and_true,
        Function.update_self,Function.update_idem]
      rw [← hl]
      exact Function.update_eq_self 0 m.cpu
    have hlock : ((m.withTicks (m.kern.ticks + 1)).setLoc 0 .idleTrap).lock = none := h.lock
    simp only [stepOn,wakeTicks,need,if_pos hlock,setLoc_cpu,setLoc_kern,if_true,hw,ok_bind]
    exact congrArg Except.ok hcpu
  exact ⟨_,.cons h1 (.cons h2 (.nil _)),rfl⟩

theorem Dozing.ticks (h : Dozing m) (b : Build) (n : Nat) :
    ∃ ts, (xv6 b 1).Path m ts (m.withTicks (m.kern.ticks + BitVec.ofNat 32 n)) ∧
      ts.countP isTick = n := by
  induction n with
  | zero =>
    refine ⟨[],?_,rfl⟩
    have hz : m.kern.ticks + BitVec.ofNat 32 0 = m.kern.ticks := BitVec.add_zero _
    rw [hz]
    exact .nil m
  | succ n ih =>
    obtain ⟨ts,hp,hc⟩ := ih
    obtain ⟨us,hp',hc'⟩ := Dozing.tick (m := m.withTicks (m.kern.ticks + BitVec.ofNat 32 n))
      ⟨h.loc,h.lock,h.asleep,h.still⟩ b
    refine ⟨ts ++ us,?_,by rw [List.countP_append,hc,hc']⟩
    have ht : m.kern.ticks + BitVec.ofNat 32 (n + 1) =
        m.kern.ticks + BitVec.ofNat 32 n + 1 := by
      rw [BitVec.ofNat_add,← BitVec.add_assoc]
      rfl
    rw [ht]
    exact hp.append hp'

def initSlot : Slot := ⟨0,Nat.succ_pos 63⟩

def agesInit (m : Machine) : Bool :=
  aged (ticked m.kern) initSlot && getQIdx m.kern initSlot = (highestPrioQ.val : Int)

theorem ages_init (h : agesInit m = true) : Ages m ⟨0,.timer⟩ initSlot highestPrioQ := by
  obtain ⟨h1,h2⟩ := Bool.and_eq_true_iff.mp h
  exact ⟨rfl,rfl,h1,of_decide_eq_true h2⟩

def pauseRun : List Action := bootRun ++ [⟨0,.sleep (.other 7)⟩,⟨0,.back⟩]

def paused : Machine := ((xv6 .mlfq 1).after pauseRun).withTicks (BitVec.ofNat 32 (2 ^ 32 - 1))

def wakeAndWaitRun : List Action := ⟨0,.wakeup (.other 7)⟩ :: idleTicksRun 83

def stampedAheadNow (tr : Trans) : Bool := getTicks (ticked tr.2.2.kern) initSlot ≤ 0

theorem mlfq_ages_after_wait_iff_paused :
    ∃ ts m, (xv6 .mlfq 1).Path boot ts m ∧ Ages m ⟨0,.timer⟩ initSlot highestPrioQ ∧
      Waited initSlot highestPrioQ ts m := by
  have hpause : (pauseRun.foldlM (xv6 .mlfq 1).step boot).isOk = true := by decide +kernel
  have hpath := System.path_run hpause
  have hd : Dozing ((xv6 .mlfq 1).after pauseRun) := ⟨by decide +kernel,by decide +kernel,
    by decide +kernel,by decide +kernel⟩
  obtain ⟨us,hidle,-⟩ := hd.ticks .mlfq (2 ^ 32 - 1)
  have hmid : ((xv6 .mlfq 1).after pauseRun).withTicks
      (((xv6 .mlfq 1).after pauseRun).kern.ticks + BitVec.ofNat 32 (2 ^ 32 - 1)) = paused := by
    have h0 : ((xv6 .mlfq 1).after pauseRun).kern.ticks = 0 := by decide +kernel
    rw [h0]
    rfl
  rw [hmid] at hidle
  have hages : (wakeAndWaitRun.foldlM (xv6 .mlfq 1).step paused).toOption.any agesInit = true := by
    decide +kernel
  have hok : (wakeAndWaitRun.foldlM (xv6 .mlfq 1).step paused).isOk = true := by
    cases hrun : wakeAndWaitRun.foldlM (xv6 .mlfq 1).step paused with
    | error e =>
      rw [hrun] at hages
      cases hages
    | ok m => rfl
  obtain ⟨m,hwait,hm⟩ := System.path_transitions hok
  rw [hm] at hages
  have hlast : (((xv6 .mlfq 1).transitions paused wakeAndWaitRun).filter
      (enters initSlot)).getLast?.any stampedAheadNow = true := by decide +kernel
  refine ⟨_,m,(hpath.append hidle).append hwait,ages_init hages,?_⟩
  refine (mlfq_ages_after_wait_iff ((hpath.append hidle).append hwait) (ages_init hages)).mpr ?_
  intro e he
  obtain ⟨e',he',hahead⟩ := (Option.any_eq_true _ _).mp hlast
  rw [List.filter_append,List.getLast?_append,he'] at he
  obtain rfl := Option.some.inj he
  exact of_decide_eq_true hahead

def longSleepRun : List Action :=
  bootRun ++ [⟨0,.sleep (.other 7)⟩,⟨0,.back⟩] ++ idleTicksRun 83

def wakesToAge (s : Machine) : Bool :=
  (s.kern.proc initSlot).state ≠ .runnable &&
    ((xv6 .mlfq 1).step s ⟨0,.wakeup (.other 7)⟩).toOption.any agesInit

theorem not_waited_of_woken {tr : Trans} {ts : List Trans}
    (h : (tr.1.kern.proc initSlot).state ≠ .runnable) :
    ¬ Waited initSlot highestPrioQ (ts ++ [tr]) m := by
  rintro ⟨-,pre,suf,hts,hall,hlim⟩
  rcases List.eq_nil_or_concat suf with rfl | ⟨init,last,rfl⟩
  · exact absurd hlim (by decide)
  · rw [List.concat_eq_append,← List.append_assoc] at hts
    obtain ⟨-,hlast⟩ := List.append_inj' hts rfl
    have hw := (hall last (by simp)).1
    rw [← List.singleton_injective hlast] at hw
    exact h hw.1

theorem ages_woken {s : Machine} {ts : List Trans} (hp : (xv6 .mlfq 1).Path boot ts s)
    (h : wakesToAge s = true) : ∃ us m, (xv6 .mlfq 1).Path boot us m ∧
      Ages m ⟨0,.timer⟩ initSlot highestPrioQ ∧ ¬ Waited initSlot highestPrioQ us m := by
  obtain ⟨hsleep,hstep⟩ := Bool.and_eq_true_iff.mp h
  cases hm : (xv6 .mlfq 1).step s ⟨0,.wakeup (.other 7)⟩ with
  | error e =>
    rw [hm] at hstep
    cases hstep
  | ok m =>
    rw [hm] at hstep
    exact ⟨_,m,hp.append (.cons hm (.nil m)),ages_init hstep,
      not_waited_of_woken (of_decide_eq_true hsleep)⟩

theorem mlfq_ages_after_sleep :
    ¬ ∀ (ncpu : Nat) (ts : List Trans) (m : Machine) (a : Action) (p : Slot) (q : Level),
      (xv6 .mlfq ncpu).Path boot ts m → Ages m a p q → Waited p q ts m := by
  intro h
  have hrun : ((xv6 .mlfq 1).checked (fun _ _ => True) (xv6 .mlfq 1).init longSleepRun).any
      wakesToAge = true := by decide +kernel
  obtain ⟨hrun,-,hwakes⟩ := System.run_checked hrun
  obtain ⟨s,hp,hs⟩ := System.path_transitions (M := xv6 .mlfq 1) (by rw [hrun]; rfl)
  rw [hrun] at hs
  obtain ⟨us,m,hp,hages,hno⟩ := ages_woken hp (Except.ok.inj hs ▸ hwakes)
  exact hno (h 1 us m _ _ _ hp hages)

end Machine
end Xv6
