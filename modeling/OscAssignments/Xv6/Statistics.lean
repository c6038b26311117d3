import OscAssignments.Xv6.Tenants

namespace Xv6
open Runs

structure Pinfo where
  pid : Int
  runtime : Int
  numRun : Int
  allotedQ : Int × Int
  ticks : Level → Int

def pidSlot (k : Kernel) (pid : Int) : Option Slot :=
  allSlots.find? fun p => ((k.proc p).pid : Int) = pid

def pinfo (k : Kernel) (p : Slot) (pid : Int) : Pinfo :=
  ⟨pid,(k.proc p).rtime.toInt,(k.proc p).stat.numRun.toInt,(k.proc p).stat.allotedQ,
    fun q => ((k.proc p).stat.actualTicks q).toInt⟩

def getpinfo (k k' : Kernel) (ps : BitVec 32) (pid : Int) : Except Halt (Option Pinfo) :=
  if ps = 0 then .error (.panic "Pointer is empty :/")
  else if pid = 0 then .error (.panic "Pid is not set")
  else
    match pidSlot k pid with
    | none => .ok none
    | some p => if ((k'.proc p).pid : Int) ≠ pid then .ok none else .ok (some (pinfo k' p pid))

theorem getpinfo_some {k k' : Kernel} {ps : BitVec 32} {pid : Int} {r : Pinfo}
    (h : getpinfo k k' ps pid = .ok (some r)) :
    pid ≠ 0 ∧ ∃ p, ((k'.proc p).pid : Int) = pid ∧ r = pinfo k' p pid := by
  unfold getpinfo at h
  split_ifs at h with hps hpid
  cases hf : pidSlot k pid with
  | none =>
    rw [hf] at h
    cases h
  | some p =>
    rw [hf] at h
    simp only at h
    split_ifs at h with hne
    · cases h
    · cases h
      exact ⟨hpid,p,not_not.mp hne,rfl⟩

namespace Machine

def slotDispatched (p : Slot) (tr : Trans) : Bool := decide (Dispatched tr.2.1 tr.2.2 p)

def slotTicked (p : Slot) (q : Level) (tr : Trans) : Bool := isTick tr && countsTick tr.1.kern p q

def pidDispatched (d : Nat) (tr : Trans) : Bool :=
  allSlots.any fun x => slotDispatched x tr && (tr.2.2.kern.proc x).pid = d

def pidTicked (d : Nat) (q : Level) (tr : Trans) : Bool :=
  allSlots.any fun x => slotTicked x q tr && (tr.1.kern.proc x).pid = d

def earlierDispatched (p : Slot) (d : Nat) (tr : Trans) : Bool :=
  slotDispatched p tr && (tr.2.2.kern.proc p).pid ≠ d

def earlierTicked (p : Slot) (d : Nat) (q : Level) (tr : Trans) : Bool :=
  slotTicked p q tr && (tr.1.kern.proc p).pid ≠ d

structure Tallied (ts : List Trans) (d : Nat) (r : Pinfo) : Prop where
  numRun : r.numRun = (life d ts).countP (pidDispatched d)
  ticks : ∀ q, r.ticks q = (life d ts).countP (pidTicked d q)

structure CountersOwned (ts : List Trans) (p : Slot) (d : Nat) : Prop where
  runs : (life d ts).countP (pidDispatched d) < 2 ^ 31
  ticks : ∀ q, (life d ts).countP (pidTicked d q) < 2 ^ 31
  earlierRuns : 2 ^ 32 ∣ ts.countP (earlierDispatched p d)
  earlierTicks : ∀ q, 2 ^ 32 ∣ ts.countP (earlierTicked p d q)

variable {m m' : Machine} {c ncpu : Nat} {op : Op} {p : Slot} {ts us : List Trans}

theorem Posts.numRun (h : Posts .mlfq m c m' op) (p : Slot) : (m'.kern.proc p).stat.numRun =
    (m.kern.proc p).stat.numRun + BitVec.ofNat 32 (slotDispatched p (m,⟨c,op⟩,m')).toNat := by
  unfold slotDispatched
  have hno : ¬ Dispatched ⟨c,op⟩ m' p → (ledger (m'.kern.proc p)).numRun =
      (ledger (m.kern.proc p)).numRun → (m'.kern.proc p).stat.numRun =
        (m.kern.proc p).stat.numRun +
          BitVec.ofNat 32 (decide (Dispatched ⟨c,op⟩ m' p)).toNat := by
    intro hd hl
    rw [decide_eq_false hd]
    exact hl.trans (BitVec.add_zero _).symm
  cases h with
  | same hb _ _ hd => exact hno (hd rfl p) (by rw [hb.ledger])
  | created _ hp => exact hno (not_dispatched_op rfl) (hp.field Ledger.numRun (fun _ => rfl) p)
  | copied _ hp => exact hno (not_dispatched_op rfl) (hp.field Ledger.numRun (fun _ => rfl) p)
  | prioSet hp => exact hno (not_dispatched_op rfl) (hp.field Ledger.numRun (fun _ => rfl) p)
  | ticked _ _ ht =>
    refine hno ?_ ?_
    · rintro ⟨e | e,-⟩ <;> cases e
    · rw [ht.ledger,if_pos rfl]
      rfl
  | accounted _ _ hop _ hp =>
    refine hno ?_ (hp.field Ledger.numRun (fun _ => rfl) p)
    rcases hop with ⟨rfl,-⟩ | ⟨rfl,-⟩ <;> rintro ⟨e | e,-⟩ <;> cases e
  | @dispatched x _ hd hp =>
    rcases eq_or_ne p x with rfl | hx
    · simp only [hd,decide_true,Bool.toNat_true]
      exact congrArg Ledger.numRun hp.self
    · refine hno ?_ (by rw [hp.others p hx])
      intro hd'
      exact hx (Option.some.inj (hd'.2.2.symm.trans hd.2.2))

theorem Posts.actualTicks (h : Posts .mlfq m c m' op) (p : Slot) (q : Level) :
    (m'.kern.proc p).stat.actualTicks q = (m.kern.proc p).stat.actualTicks q +
      BitVec.ofNat 32 (slotTicked p q (m,⟨c,op⟩,m')).toNat := by
  rcases h.tick_or_quiet with ⟨ht,hp⟩ | ⟨ht,-,hl⟩
  · have hl := hp.ledger p
    rw [if_pos rfl] at hl
    rw [slotTicked,ht,Bool.true_and]
    exact congrFun (congrArg Ledger.actualTicks hl) q
  · rw [slotTicked,ht,Bool.false_and,Bool.toNat_false,hl]
    exact (BitVec.add_zero _).symm

theorem path_tallies (h : (xv6 .mlfq ncpu).Path boot ts m) (p : Slot) :
    (m.kern.proc p).stat.numRun = BitVec.ofNat 32 (ts.countP (slotDispatched p)) ∧
      ∀ q, (m.kern.proc p).stat.actualTicks q = BitVec.ofNat 32 (ts.countP (slotTicked p q)) := by
  have main : Sane m ∧ (m.kern.proc p).stat.numRun = BitVec.ofNat 32 (ts.countP (slotDispatched p)) ∧
      ∀ q, (m.kern.proc p).stat.actualTicks q = BitVec.ofNat 32 (ts.countP (slotTicked p q)) := by
    refine h.rule (fun ts m => Sane m ∧ (m.kern.proc p).stat.numRun =
      BitVec.ofNat 32 (ts.countP (slotDispatched p)) ∧ ∀ q, (m.kern.proc p).stat.actualTicks q =
        BitVec.ofNat 32 (ts.countP (slotTicked p q))) ⟨sane_boot,rfl,fun _ => rfl⟩ ?_
    rintro ts s a t _ ⟨hs,hn,hq⟩ ht
    have hp := effect_posts hs (step_effect ht)
    refine ⟨step_sane hs ht,?_,?_⟩
    · rw [hp.numRun p,hn,countP_snoc,BitVec.ofNat_add]
    · intro q
      rw [hp.actualTicks p q,hq,countP_snoc,BitVec.ofNat_add]
  exact main.2

theorem ran_dispatched (h : (xv6 .mlfq ncpu).Path boot ts m)
    (hrun : (m.kern.proc p).state = .running) :
    ∃ tr ∈ ts, slotDispatched p tr = true ∧ (tr.2.2.kern.proc p).pid = (m.kern.proc p).pid := by
  have main : Sane m ∧ ((m.kern.proc p).state = .running → ∃ tr ∈ ts,
      slotDispatched p tr = true ∧ (tr.2.2.kern.proc p).pid = (m.kern.proc p).pid) := by
    refine h.rule (fun ts m => Sane m ∧ ((m.kern.proc p).state = .running → ∃ tr ∈ ts,
      slotDispatched p tr = true ∧ (tr.2.2.kern.proc p).pid = (m.kern.proc p).pid))
      ⟨sane_boot,fun h => by cases h⟩ ?_
    rintro ts s a t _ ⟨hs,ih⟩ ht
    refine ⟨step_sane hs ht,?_⟩
    intro hrun
    cases (effect_fates hs (step_effect ht)).fate p with
    | stays hst hpid =>
      obtain ⟨tr,hm,hd,he⟩ := ih (hst.symm.trans hrun)
      exact ⟨tr,List.mem_append_left _ hm,hd,he.trans hpid.symm⟩
    | dispatched hd _ _ _ =>
      exact ⟨(s,a,t),by simp,decide_eq_true hd,rfl⟩
    | woken _ hst' _ => simp [hrun] at hst'
    | taken _ _ hst' _ => simp [hrun] at hst'
    | abandoned _ hst' _ => simp [hrun] at hst'
    | born _ hst' _ => simp [hrun] at hst'
    | left _ _ hst' _ => simp [hrun] at hst'
    | reaped _ hst' _ => simp [hrun] at hst'
  exact main.2 hrun

section Pid
variable {d : Nat} (h : (xv6 .mlfq ncpu).Path boot ts m) (hd : 0 < d)
  (hp : (m.kern.proc p).pid = d)
include h hd hp

theorem pidDispatched_eq {tr : Trans} (htr : tr ∈ ts) :
    pidDispatched d tr = (slotDispatched p tr && decide ((tr.2.2.kern.proc p).pid = d)) := by
  rw [Bool.eq_iff_iff]
  simp only [pidDispatched,List.any_eq_true,Bool.and_eq_true,decide_eq_true_eq]
  constructor
  · rintro ⟨x,-,hx,hpid⟩
    obtain rfl := (settled_of_mem_after sane_boot h htr hd hpid).only p hp
    exact ⟨hx,hpid⟩
  · rintro ⟨hx,hpid⟩
    exact ⟨p,mem_allSlots p,hx,hpid⟩

theorem pidTicked_eq {tr : Trans} (htr : tr ∈ ts) (q : Level) :
    pidTicked d q tr = (slotTicked p q tr && decide ((tr.1.kern.proc p).pid = d)) := by
  rw [Bool.eq_iff_iff]
  simp only [pidTicked,List.any_eq_true,Bool.and_eq_true,decide_eq_true_eq]
  constructor
  · rintro ⟨x,-,hx,hpid⟩
    obtain rfl := (settled_of_mem sane_boot h htr hd hpid).only p hp
    exact ⟨hx,hpid⟩
  · rintro ⟨hx,hpid⟩
    exact ⟨p,mem_allSlots p,hx,hpid⟩

theorem life_dispatched : (life d ts).countP (pidDispatched d) =
    (ts.filter (slotDispatched p)).countP fun tr => decide ((tr.2.2.kern.proc p).pid = d) := by
  rw [countP_life h,List.countP_filter]
  · refine List.countP_congr fun tr htr => ?_
    rw [pidDispatched_eq h hd hp htr,Bool.and_comm]
  · intro tr htr hpd
    obtain ⟨hs1,he,-⟩ := path_mem sane_boot h htr
    rw [pidDispatched_eq h hd hp htr,Bool.and_eq_true,decide_eq_true_eq] at hpd
    have hop := (of_decide_eq_true hpd.1 : Dispatched _ _ _).1
    have hn := (effect_fates hs1 he).nextpid
    rw [not_allocates (by rcases hop with e | e <;> simp [e])] at hn
    have hlt := (effect_sane he hs1).pids.lt p
    rw [hpd.2,hn] at hlt
    exact hlt

theorem life_ticked (q : Level) : (life d ts).countP (pidTicked d q) =
    ts.countP fun tr => slotTicked p q tr && decide ((tr.1.kern.proc p).pid = d) := by
  rw [countP_life h]
  · exact List.countP_congr fun tr htr => by rw [pidTicked_eq h hd hp htr]
  · intro tr htr hpd
    obtain ⟨hs1,-,-⟩ := path_mem sane_boot h htr
    rw [pidTicked_eq h hd hp htr,Bool.and_eq_true,decide_eq_true_eq] at hpd
    exact hpd.2 ▸ hs1.pids.lt p

omit hd hp in
theorem slotTicked_own (hown : ∀ tr ∈ ts, slotDispatched p tr = true →
    (tr.2.2.kern.proc p).pid = d) {q : Level} {tr : Trans} (htr : tr ∈ ts)
    (ht : slotTicked p q tr = true) : (tr.1.kern.proc p).pid = d := by
  obtain ⟨pre,post,rfl⟩ := List.append_of_mem htr
  obtain ⟨hpre,-,-⟩ := h.split
  have hrun : (tr.1.kern.proc p).state = .running := by
    simp only [slotTicked,countsTick,Bool.and_eq_true,decide_eq_true_eq] at ht
    exact ht.2.1.1
  obtain ⟨tr',hm,hd',he⟩ := ran_dispatched hpre hrun
  exact he.symm.trans (hown tr' (List.mem_append_left _ hm) hd')

end Pid

theorem toInt_ofNat_add_eq_iff {n e : Nat} :
    (BitVec.ofNat 32 (n + e)).toInt = n ↔ n < 2 ^ 31 ∧ 2 ^ 32 ∣ e := by
  rw [BitVec.toInt_eq_toNat_cond,BitVec.toNat_ofNat]
  split_ifs <;> omega

section Split
variable {d : Nat} (h : (xv6 .mlfq ncpu).Path boot ts m) (hd : 0 < d)
  (hp : (m.kern.proc p).pid = d)
include h hd hp

theorem countP_slotDispatched : ts.countP (slotDispatched p) =
    (life d ts).countP (pidDispatched d) + ts.countP (earlierDispatched p d) := by
  rw [life_dispatched h hd hp,List.countP_eq_length_filter,
    List.length_eq_countP_add_countP fun tr : Trans => decide ((tr.2.2.kern.proc p).pid = d)]
  congr 1
  rw [List.countP_filter]
  refine List.countP_congr fun tr _ => ?_
  rw [earlierDispatched,Bool.and_comm]
  simp

theorem countP_slotTicked (q : Level) : ts.countP (slotTicked p q) =
    (life d ts).countP (pidTicked d q) + ts.countP (earlierTicked p d q) := by
  rw [life_ticked h hd hp,List.countP_eq_length_filter,
    List.length_eq_countP_add_countP fun tr : Trans => decide ((tr.1.kern.proc p).pid = d),
    List.countP_filter,List.countP_filter]
  congr 1
  · exact List.countP_congr fun tr _ => by rw [Bool.and_comm]
  · refine List.countP_congr fun tr _ => ?_
    rw [earlierTicked,Bool.and_comm]
    simp

theorem pinfo_tallied_iff (pid : Int) :
    Tallied ts d (pinfo m.kern p pid) ↔ CountersOwned ts p d := by
  obtain ⟨hn,hq⟩ := path_tallies h p
  rw [countP_slotDispatched h hd hp] at hn
  have hticks : ∀ q, ((m.kern.proc p).stat.actualTicks q).toInt =
      (life d ts).countP (pidTicked d q) ↔ (life d ts).countP (pidTicked d q) < 2 ^ 31 ∧
        2 ^ 32 ∣ ts.countP (earlierTicked p d q) := by
    intro q
    rw [hq q,countP_slotTicked h hd hp q]
    exact toInt_ofNat_add_eq_iff
  have hruns : (m.kern.proc p).stat.numRun.toInt = (life d ts).countP (pidDispatched d) ↔
      (life d ts).countP (pidDispatched d) < 2 ^ 31 ∧
        2 ^ 32 ∣ ts.countP (earlierDispatched p d) := by
    rw [hn]
    exact toInt_ofNat_add_eq_iff
  constructor
  · rintro ⟨h1,h2⟩
    obtain ⟨hlt,hdvd⟩ := hruns.mp h1
    exact ⟨hlt,fun q => ((hticks q).mp (h2 q)).1,hdvd,fun q => ((hticks q).mp (h2 q)).2⟩
  · intro ho
    exact ⟨hruns.mpr ⟨ho.runs,ho.earlierRuns⟩,
      fun q => (hticks q).mpr ⟨ho.ticks q,ho.earlierTicks q⟩⟩

end Split

theorem CountersOwned.of_first {d : Nat} (h : (xv6 .mlfq ncpu).Path boot ts m)
    (hown : ∀ tr ∈ ts, Dispatched tr.2.1 tr.2.2 p → (tr.2.2.kern.proc p).pid = d)
    (hr : (life d ts).countP (pidDispatched d) < 2 ^ 31)
    (ht : ∀ q, (life d ts).countP (pidTicked d q) < 2 ^ 31) : CountersOwned ts p d := by
  have hown' : ∀ tr ∈ ts, slotDispatched p tr = true → (tr.2.2.kern.proc p).pid = d :=
    fun tr htr hd => hown tr htr (of_decide_eq_true hd)
  refine ⟨hr,ht,?_,?_⟩
  · rw [List.countP_eq_zero.mpr]
    · exact dvd_zero _
    · intro tr htr he
      simp only [earlierDispatched,Bool.and_eq_true,decide_eq_true_eq] at he
      exact he.2 (hown' tr htr he.1)
  · intro q
    rw [List.countP_eq_zero.mpr]
    · exact dvd_zero _
    · intro tr htr he
      simp only [earlierTicked,Bool.and_eq_true,decide_eq_true_eq] at he
      exact he.2 (slotTicked_own h hown' htr he.1)

def tickedForkRun : List Action := demotedParentRun ++ [⟨0,.sched⟩]

def reapedRun : List Action :=
  bootRun ++ forkRun ++ [⟨0,.wait true⟩,⟨0,.back⟩,⟨0,.sched⟩,⟨0,.resume⟩,⟨0,.exit⟩,⟨0,.back⟩,
    ⟨0,.sched⟩,⟨0,.resume⟩]

def reusedRun : List Action := reapedRun ++ forkRun

end Machine
end Xv6
