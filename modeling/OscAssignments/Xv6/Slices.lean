import OscAssignments.Xv6.Turns

namespace Xv6
open Runs

def ran (k : Kernel) (p : Slot) : Nat := (k.ticks - (k.proc p).latestQTime).toNat

theorem Kept.ran {p : Slot} {k k' : Kernel} (h : Kept p k k') : ran k' p = ran k p := by
  unfold Xv6.ran
  rw [h.ticks,h.latest]

theorem getTicks_eq_ran {k : Kernel} {p : Slot} (h : ran k p ≤ 16) : getTicks k p = ran k p := by
  unfold getTicks
  unfold ran at h ⊢
  exact BitVec.toInt_eq_toNat_of_lt (by omega)

theorem ran_tick {k : Kernel} {p : Slot} (h : ran k p ≤ 16) :
    ran { k with ticks := k.ticks + 1 } p = ran k p + 1 := by
  unfold ran at h ⊢
  simp only
  bv_omega

theorem slice_le (q : Level) : 2 ^ q.val ≤ 16 := by
  have h : q.val ≤ 4 := Nat.le_of_lt_succ q.isLt
  calc 2 ^ q.val ≤ 2 ^ 4 := Nat.pow_le_pow_right (by norm_num) h
    _ = 16 := by norm_num

def demoteTo (q : Level) : Level :=
  ⟨min (q.val + 1) 4,(Nat.min_le_right _ 4).trans_lt (by decide)⟩

def stamped (k : Kernel) (p : Slot) : Kernel :=
  k.setProc p { k.proc p with latestQTime := k.ticks }

theorem decPrio_demotes {k : Kernel} {p : Slot} {q : Level} (h : getQIdx k p = q.val) :
    decPrio k p false = pushBack (stamped k p) (demoteTo q) p := by
  have hlt : q.val < 5 := q.isLt
  unfold decPrio
  simp only [h]
  rw [if_neg (by omega)]
  rcases Nat.lt_or_ge q.val 4 with hq | hq
  · have hto : ((q.val : Int) + 1) = (demoteTo q).val := by
      simp only [demoteTo]
      omega
    rw [if_neg (by simp; omega),hto,level_val]
    rfl
  · have hto : q = demoteTo q := Fin.ext (by simp only [demoteTo]; omega)
    rw [if_pos (by simp; omega),level_val,← hto]
    rfl

theorem decPrio_retains {k : Kernel} {p : Slot} {q : Level} (h : getQIdx k p = q.val) :
    decPrio k p true = pushBack (stamped k p) q p := by
  unfold decPrio
  simp only [h]
  rw [if_neg (by omega),if_pos (by simp),level_val]
  rfl

structure SliceReturn (k : Kernel) (p : Slot) (q : Level) : Prop where
  bounds : (k.proc p).state = .runnable → 1 ≤ getTicks k p ∧ getTicks k p ≤ 2 ^ q.val
  full : (k.proc p).state = .runnable → getTicks k p = 2 ^ q.val →
    requeue k p = decPrio k p false
  early : (k.proc p).state = .runnable → getTicks k p ≠ 2 ^ q.val →
    requeue k p = decPrio k p true
  slept : (k.proc p).state = .sleeping → requeue k p = decPrio k p true
  demotes : decPrio k p false = pushBack (stamped k p) (demoteTo q) p
  retains : decPrio k p true = pushBack (stamped k p) q p

theorem sliceReturn {k : Kernel} {p : Slot} {q : Level} (hq : getQIdx k p = q.val)
    (hle : ran k p ≤ 2 ^ q.val) (hpos : (k.proc p).state = .runnable → 1 ≤ ran k p) :
    SliceReturn k p q := by
  have hticks : getTicks k p = ran k p := getTicks_eq_ran (hle.trans (slice_le q))
  have hpow : ((2 ^ q.val : Nat) : Int) = 2 ^ q.val := by push_cast; rfl
  have hreq : requeue k p =
      if (k.proc p).state = .sleeping ∨
          (k.proc p).state = .runnable ∧ 0 < getTicks k p ∧ getTicks k p < 2 ^ q.val then
        decPrio k p true
      else if (k.proc p).state = .runnable ∧ getTicks k p = 2 ^ q.val then decPrio k p false
      else .ok k := by
    unfold requeue
    rw [hq,level_val]
    rfl
  refine ⟨?_,?_,?_,?_,decPrio_demotes hq,decPrio_retains hq⟩
  · intro hr
    have h1 := hpos hr
    rw [hticks,← hpow]
    omega
  · intro hr hfull
    rw [hreq,if_neg (by simp [hr,hfull]),if_pos ⟨hr,hfull⟩]
  · intro hr hne
    have h1 := hpos hr
    have hlt : getTicks k p < 2 ^ q.val := by
      rw [hticks,← hpow] at hne ⊢
      omega
    rw [hreq,if_pos (.inr ⟨hr,by omega,hlt⟩)]
  · intro hs
    rw [hreq,if_pos (.inl hs)]

namespace Machine
variable {m m' : Machine} {op : Op} {p : Slot} {q : Level} {n : Nat}

def within (q : Level) (st : ProcState) (n : Nat) : Loc → Prop
  | .trap .preempt => 1 ≤ n ∧ n < 2 ^ q.val
  | .trap _ => 1 ≤ n ∧ n ≤ 2 ^ q.val
  | .returned => n ≤ 2 ^ q.val ∧ (st = .runnable → 1 ≤ n)
  | _ => n < 2 ^ q.val

structure InSlice (m : Machine) (p : Slot) (q : Level) (n : Nat) : Prop where
  proc : (m.cpu 0).proc = some p
  idx : getQIdx m.kern p = q.val
  ran : ran m.kern p = n
  within : within q (m.kern.proc p).state n (m.cpu 0).loc

theorem InSlice.le (h : InSlice m p q n) : n ≤ 2 ^ q.val := by
  have hw := h.within
  unfold Machine.within at hw
  split at hw
  · exact hw.2.le
  · exact hw.2
  · exact hw.1
  · exact hw.le

theorem InSlice.move (h : InSlice m p q n) (hk : Kept p m.kern m'.kern)
    (hproc : (m'.cpu 0).proc = (m.cpu 0).proc)
    (hw : Machine.within q (m'.kern.proc p).state n (m'.cpu 0).loc) : InSlice m' p q n :=
  ⟨hproc.trans h.proc,hk.idx.trans h.idx,hk.ran.trans h.ran,hw⟩

theorem InSlice.stay (h : InSlice m p q n) (hk : Kept p m.kern m'.kern)
    (hcpu : m'.cpu 0 = m.cpu 0) (hst : (m'.kern.proc p).state = (m.kern.proc p).state) :
    InSlice m' p q n :=
  h.move hk (by rw [hcpu]) (by rw [hcpu,hst]; exact h.within)

theorem InSlice.run (h : InSlice m p q n) (hk : Kept p m.kern m'.kern)
    (hcpu : m'.cpu 0 = m.cpu 0) (hl : (m.cpu 0).loc ≠ .returned) : InSlice m' p q n := by
  refine h.move hk (by rw [hcpu]) ?_
  have hw := h.within
  rw [hcpu]
  unfold Machine.within at hw ⊢
  split at hw
  · exact hw
  · exact hw
  · next he => exact absurd he hl
  · exact hw

theorem within_of_lt {st : ProcState} {l : Loc} (hn : n < 2 ^ q.val)
    (hl : l = .code ∨ l = .returned ∧ st ≠ .runnable) : within q st n l := by
  rcases hl with rfl | ⟨rfl,hst⟩
  · exact hn
  · exact ⟨hn.le,fun he => absurd he hst⟩

theorem within_tail {k : Kernel} {l : Loc} (hq : getQIdx k p = q.val) (hn : 1 ≤ ran k p)
    (hle : ran k p ≤ 2 ^ q.val) (hr : (k.proc p).state = .running)
    (hl : tailTarget .mlfq k p = .ok l) : within q (k.proc p).state (ran k p) l := by
  have hticks : getTicks k p = ran k p := getTicks_eq_ran (hle.trans (slice_le q))
  have hpow : ((2 ^ q.val : Nat) : Int) = 2 ^ q.val := by push_cast; rfl
  unfold tailTarget at hl
  simp only [hq,level_val,ok_bind,hr,if_true] at hl
  rw [if_neg (by omega)] at hl
  cases hl
  rw [hticks,← hpow]
  split_ifs with hc
  · exact ⟨hn,hle⟩
  · refine ⟨hn,?_⟩
    by_contra hge
    exact hc ⟨by omega,by omega⟩

theorem waitLoop_slice {k : Kernel} {y : Bool} (h : InSlice m p q n) (hk : Kept p m.kern k)
    (hn : n < 2 ^ q.val) : InSlice ({ m with kern := k }.waitLoop 0 p y) p q n := by
  refine h.move (waitLoop_kept hk) ?_ (within_of_lt hn ?_)
  · unfold waitLoop
    split
    · simp
    · simp
    · simp [leave]
  · unfold waitLoop
    split
    · exact .inl (by simp)
    · exact .inl (by simp)
    · exact .inr ⟨by simp [leave],by simp [leave,goToSleep]⟩

theorem effect_slice (he : Effect .mlfq m 0 op m') (hs : Sane m) (h : InSlice m p q n)
    (hback : op ≠ .back) : InSlice m' p q (if op = .timer then n + 1 else n) := by
  have hproc := h.proc
  have hw := h.within
  have hrun : (m.cpu 0).loc ≠ .returned → (m.kern.proc p).state = .running := hs.running 0 p hproc
  have hbusy : (m.cpu 0).loc.empty = false := by
    rw [Bool.eq_false_iff]
    intro hc
    rw [(hs.proc_none 0).mpr hc] at hproc
    cases hproc
  have hcode : (m.cpu 0).loc = .code → n < 2 ^ q.val := fun hl => by rwa [hl] at hw
  have hsame : ∀ {x : Slot}, (m.cpu 0).proc = some x → x = p := by
    intro x hx
    rw [hproc] at hx
    exact (Option.some.inj hx).symm
  have htick : ∀ {k : Kernel}, (m.cpu 0).loc = .code → advanceTicks .mlfq m = .ok k →
      InSlice ({ m with kern := k }.setLoc 0 (.trap .wakeTicks)) p q (n + 1) := by
    intro k hloc hk
    obtain ⟨_,_,hk⟩ := bind_eq_ok.mp hk
    have hst := hrun (by simp [hloc])
    have hkept : Kept p _ k := updateStatsAndAging_kept (by simp [hst]) hk
    have hlt := hcode hloc
    have hn : ran m.kern p ≤ 16 := h.ran ▸ hlt.le.trans (slice_le q)
    refine ⟨by simpa using hproc,hkept.idx.trans h.idx,?_,?_⟩
    · change ran k p = n + 1
      rw [hkept.ran,ran_tick hn,h.ran]
    · simp only [setLoc_cpu,if_true]
      exact ⟨by omega,by omega⟩
  cases he with
  | tableFull _ => exact h
  | alloc hloc _ _ _ => exact h.run takeSlot_kept rfl (by rcases hloc with hl | hl <;> simp [hl])
  | @setup np k hloc ht hk =>
    have hchild := hs.child _ np (by rw [ht]; rfl)
    have hne : p ≠ np := by
      rintro rfl
      rw [hrun (by simp [hloc])] at hchild
      cases hchild
    exact h.run (setupProc_kept hne hk) rfl (by simp [hloc])
  | setupInit hloc _ _ => simp [hloc,Loc.empty] at hbusy
  | allocFailed hloc _ => exact h.run (.setState _) rfl (by simp [hloc])
  | @copied x np _ hloc _ =>
    have hk : Kept p m.kern (forkCopy .mlfq m.kern x np) := forkCopy_kept
    exact h.run hk rfl (by simp [hloc])
  | copyFailed _ hloc _ => exact h.run (.setState _) rfl (by simp [hloc])
  | initRunnable hloc _ _ => simp [hloc,Loc.empty] at hbusy
  | forkRunnable hloc _ _ => exact h.run (.setState _) rfl (by simp [hloc])
  | exited hp _ _ _ hk =>
    obtain rfl := hsame hp
    refine h.move (exit_kept hk) (by simp [leave]) ?_
    simp only [leave,setLoc_cpu,if_true]
    exact ⟨h.le,fun hr => by simp [(exit_exited hk).2.self] at hr⟩
  | waited hp hloc _ _ =>
    obtain rfl := hsame hp
    exact waitLoop_slice h (.refl _ _) (hcode hloc)
  | slept hp hloc _ _ _ =>
    obtain rfl := hsame hp
    refine h.move (.setProc rfl rfl) (by simp [leave]) (within_of_lt (hcode hloc) (.inr ?_))
    simp [leave,goToSleep]
  | woke hl _ hk => exact h.run (wakeup1_kept hk) rfl (hs.not_returned hl 0)
  | killed hl => exact h.run kill_kept rfl (hs.not_returned hl 0)
  | prioSet _ hl => exact h.run setPrio_kept rfl (hs.not_returned hl 0)
  | @faulted x _ =>
    refine h.stay (.setProc rfl rfl) rfl ?_
    rcases eq_or_ne p x with rfl | hne
    · simp
    · simp [hne]
  | tickIdle _ hloc _ => simp [hloc,Loc.empty] at hbusy
  | timerIdle hc _ => exact absurd rfl hc
  | tickCode _ hloc hk => exact htick hloc hk
  | timerCode hc _ _ => exact absurd rfl hc
  | wokeTicksIdle hloc _ _ => simp [hloc,Loc.empty] at hbusy
  | wokeTicksCode _ hloc _ hk =>
    rw [hloc] at hw
    refine h.move ((wakeup1_kept hk).trans account_kept) (by simp) ?_
    simp only [setLoc_cpu,if_true]
    exact hw
  | decided hp hloc hl =>
    obtain rfl := hsame hp
    rw [hloc] at hw
    refine h.move (.refl _ _) (by simp) ?_
    have hn := h.ran
    subst hn
    simp only [setLoc_cpu,if_true]
    exact within_tail h.idx hw.1 hw.2 (hrun (by simp [hloc])) hl
  | @preempted x y _ hloc _ _ =>
    rw [hloc] at hw
    refine h.move (.refl _ _) (by simp) ?_
    simp only [setLoc_cpu,if_true]
    cases y with
    | true => exact ⟨hw.1,hw.2.le⟩
    | false => exact hw.2
  | yielded hp hloc _ =>
    rw [hloc] at hw
    refine h.move (.setState _) (by simp [leave]) ?_
    simp only [leave,setLoc_cpu,if_true]
    exact ⟨hw.2,fun _ => hw.1⟩
  | schedScan hloc _ _ => simp [hloc,Loc.empty] at hbusy
  | schedFcfs hloc _ _ _ => simp [hloc,Loc.empty] at hbusy
  | schedFcfsNone hloc _ _ _ => simp [hloc,Loc.empty] at hbusy
  | schedMlfq hloc _ _ _ _ => simp [hloc,Loc.empty] at hbusy
  | schedMlfqNone hloc _ _ _ => simp [hloc,Loc.empty] at hbusy
  | resumed _ hloc _ _ =>
    rw [hloc] at hw
    refine h.move (.refl _ _) (by simp) ?_
    simp only [setLoc_cpu,if_true]
    exact hw
  | resumedSlept _ hloc _ _ =>
    rw [hloc] at hw
    refine h.move (.setProc rfl rfl) (by simp) ?_
    simp only [setLoc_cpu,if_true]
    exact hw
  | resumedWait hp hloc _ _ =>
    obtain rfl := hsame hp
    rw [hloc] at hw
    exact waitLoop_slice h (.setProc rfl rfl) hw
  | backScan _ _ _ _ => exact absurd rfl hback
  | backRelease _ _ _ _ => exact absurd rfl hback
  | backMlfq _ _ _ _ _ => exact absurd rfl hback

def ticksOf (ts : List (Machine × Action × Machine)) : Nat :=
  ts.countP fun tr => tr.2.1.op = .timer

theorem path_slice {m1 m2 : Machine} {ts : List (Machine × Action × Machine)}
    (hp : (xv6 .mlfq 1).Path m1 ts m2) (hs : Sane m1) (h : InSlice m1 p q n)
    (hback : ∀ tr ∈ ts, tr.2.1.op ≠ .back) : Sane m2 ∧ InSlice m2 p q (n + ticksOf ts) := by
  induction hp generalizing n with
  | nil => exact ⟨hs,h⟩
  | @cons s t u a ts hst _ ih =>
    have hcpu : a.cpu = 0 := by
      obtain ⟨_,hc,_⟩ := bind_eq_ok.mp hst
      have hlt : a.cpu < 1 := need_eq_ok.mp hc
      omega
    have he := step_effect hst
    rw [hcpu] at he
    have h1 := effect_slice he hs h (hback _ List.mem_cons_self)
    obtain ⟨hs2,h2⟩ := ih (step_sane hs hst) h1 fun tr htr => hback tr (List.mem_cons_of_mem _ htr)
    refine ⟨hs2,?_⟩
    have hcount : (if a.op = .timer then n + 1 else n) + ticksOf ts =
        n + ticksOf ((s,a,t) :: ts) := by
      unfold ticksOf
      rw [List.countP_cons]
      rcases eq_or_ne a.op .timer with hop | hop
      · simp only [hop,if_true,decide_true]
        omega
      · simp only [hop,if_false,decide_false,Bool.false_eq_true,add_zero]
    rw [← hcount]
    exact h2

theorem mlfq_slice {m1 m2 : Machine} {ts : List (Machine × Action × Machine)}
    (h : (xv6 .mlfq 1).Reachable m) (hstep : (xv6 .mlfq 1).step m ⟨0,.sched⟩ = .ok m1)
    (hdisp : Dispatched ⟨0,.sched⟩ m1 p) (hq : getQIdx m.kern p = q.val)
    (hpath : (xv6 .mlfq 1).Path m1 ts m2) (hback : ∀ tr ∈ ts, tr.2.1.op ≠ .back) :
    ticksOf ts ≤ 2 ^ q.val ∧ getQIdx m2.kern p = q.val ∧
      ((m2.cpu 0).loc = .returned → SliceReturn m2.kern p q) := by
  have hs1 := step_sane (reachable_sane h) hstep
  obtain ⟨-,hloc,hproc⟩ := hdisp
  have h1 : InSlice m1 p q 0 := by
    obtain ⟨ht,hi,hl⟩ := sched_stamps (step_effect hstep) hproc
    refine ⟨hproc,hi.trans hq,?_,?_⟩
    · unfold ran
      rw [ht,hl,BitVec.sub_self]
      rfl
    · rw [hloc]
      exact Nat.two_pow_pos _
  obtain ⟨-,h2⟩ := path_slice hpath hs1 h1 hback
  rw [zero_add] at h2
  refine ⟨h2.le,h2.idx,?_⟩
  intro hret
  have hw := h2.within
  rw [hret] at hw
  have hran := h2.ran
  exact sliceReturn h2.idx (hran ▸ hw.1) fun hr => hran ▸ hw.2 hr

def firstSlice : List Action :=
  [⟨0,.resume⟩,⟨0,.timer⟩,⟨0,.wakeTicks⟩,⟨0,.tail⟩,⟨0,.yield⟩]

theorem mlfq_slice_of_init :
    (((xv6 .mlfq 1).after (userinitRun ++ [⟨0,.sched⟩] ++ firstSlice)).cpu 0).loc = .returned ∧
      SliceReturn ((xv6 .mlfq 1).after (userinitRun ++ [⟨0,.sched⟩] ++ firstSlice)).kern ⟨0,by decide⟩
        highestPrioQ := by
  have hok : ((userinitRun ++ [(⟨0,.sched⟩ : Action)] ++ firstSlice).foldlM (xv6 .mlfq 1).step
      (xv6 .mlfq 1).init).isOk = true := by decide +kernel
  have hret : (((xv6 .mlfq 1).after (userinitRun ++ [⟨0,.sched⟩] ++ firstSlice)).cpu 0).loc =
      .returned := by decide +kernel
  have hpre := System.isOk_of_append hok
  refine ⟨hret,(mlfq_slice (m := (xv6 .mlfq 1).after userinitRun)
    (System.reachable_after (System.isOk_of_append hpre)) (System.step_after hpre) ?_ ?_
    (System.path_after hok) ?_).2.2 hret⟩
  · decide +kernel
  · decide +kernel
  · intro tr htr
    have hact := System.act_mem_of_transitions htr
    simp only [firstSlice,List.mem_cons,List.not_mem_nil,or_false] at hact
    rcases hact with he | he | he | he | he <;> simp [he]

end Machine
end Xv6
