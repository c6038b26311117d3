import OscAssignments.Xv6.QueueSpec

namespace Xv6
open Runs

structure SameClock (k k' : Kernel) : Prop where
  ticks : k'.ticks = k.ticks
  latest : ∀ p, (k'.proc p).latestQTime = (k.proc p).latestQTime

theorem SameClock.refl (k : Kernel) : SameClock k k := ⟨rfl,fun _ => rfl⟩

theorem SameClock.trans {k k' k'' : Kernel} (h : SameClock k k') (h' : SameClock k' k'') :
    SameClock k k'' :=
  ⟨h'.ticks.trans h.ticks,fun p => (h'.latest p).trans (h.latest p)⟩

theorem sameClock_setProc {k : Kernel} {p : Slot} {r : Proc}
    (hr : r.latestQTime = (k.proc p).latestQTime) : SameClock k (k.setProc p r) := by
  refine ⟨rfl,?_⟩
  intro x
  by_cases hx : x = p <;> simp [hx,hr]

theorem sameClock_setAllotedQ (k : Kernel) (p : Slot) (a : Int × Int) :
    SameClock k (k.setAllotedQ p a) :=
  sameClock_setProc rfl

theorem SameClock.getTicks {k k' : Kernel} (h : SameClock k k') (p : Slot) :
    getTicks k' p = getTicks k p := by
  unfold Xv6.getTicks
  rw [h.ticks,h.latest]

theorem sameClock_frames : Frames SameClock := by
  refine ⟨.refl,.trans,?_,sameClock_setAllotedQ⟩
  intro k k' hp _ _ ht
  exact ⟨ht,fun p => by rw [hp]⟩

theorem ageProc_clock {k k' : Kernel} {p : Slot} (h : ageProc k p = .ok k') : SameClock k k' :=
  sameClock_frames.ageProc (fun _ => sameClock_setProc rfl) h

def levelOf (k : Kernel) (p : Slot) : Level :=
  match level (getQIdx k p) with
  | .ok q => q
  | .error _ => highestPrioQ

def aged (k : Kernel) (p : Slot) : Bool :=
  !(k.proc p).killed && (k.proc p).pid ≠ 0 && (k.proc p).state = .runnable &&
    waitLimit (levelOf k p) ≤ getTicks k p + 1

theorem aged_runnable {k : Kernel} {p : Slot} (h : aged k p = true) :
    (k.proc p).state = .runnable := by
  simp only [aged,Bool.and_eq_true,decide_eq_true_eq] at h
  exact h.1.2

theorem aged_congr {k k' : Kernel} {p : Slot} (hf : SameFaces k k') (hc : SameClock k k')
    (hq : getQIdx k' p = getQIdx k p) : aged k' p = aged k p := by
  unfold aged levelOf
  rw [hf.killed,hf.pid,hf.state,hc.getTicks,hq]

namespace QOk
variable {k k' : Kernel} {L : Queues} {q : Level} {p : Slot}

theorem levelOf_eq (h : QOk k L) (hp : p ∈ L q) : levelOf k p = q := by
  unfold levelOf
  rw [h.level_of_mem hp]

theorem level_levelOf (h : QOk k L) (p : Slot) : Xv6.level (getQIdx k p) = .ok (levelOf k p) := by
  obtain ⟨q,_,hq⟩ := h.exists_level p
  unfold levelOf
  rw [hq]

theorem frame (h : QOk k L) (hq : k'.prioQ = k.prioQ) (hs : k'.prioQSize = k.prioQSize)
    (ht : k'.prioQStart = k.prioQStart)
    (ha : ∀ x, (k'.proc x).stat.allotedQ = (k.proc x).stat.allotedQ)
    (hpid : ∀ r, ∀ x ∈ L r, 0 < (k'.proc x).pid) : QOk k' L := by
  have hring : ∀ r, ring k' r = ring k r := fun r =>
    ring_congr (by rw [hq]) (by rw [ht]) (by rw [hs])
  refine ⟨?_,?_,?_,hpid⟩
  · intro r
    rw [hring]
    exact h.holds r
  · intro r i hi
    rw [ha,h.record r i hi,position_congr (by rw [ht])]
  · intro x
    unfold getQIdx
    rw [ha]
    exact h.level x

theorem ageProc_eq (h : QOk k L) (hp : aged k p = true → ∃ q, p ∈ L q)
    (hpid : ∀ x, (k.proc x).pid = (k.proc p).pid → 0 < (k.proc x).pid → x = p) :
    ∃ k', ageProc k p = .ok k' ∧
      QOk k' (if aged k p then promote L p (promoteTo (levelOf k p)) else L) ∧
      ∀ x, x ≠ p → getQIdx k' x = getQIdx k x := by
  unfold ageProc
  simp only
  by_cases hskip : (k.proc p).killed ∨ (k.proc p).pid = 0
  · have hna : aged k p = false := by
      rcases hskip with e | e <;> simp [aged,e]
    rw [if_pos hskip,hna]
    exact ⟨k,rfl,h,fun _ _ => rfl⟩
  · rw [if_neg hskip,h.level_levelOf p]
    rw [not_or] at hskip
    by_cases hrun : (k.proc p).state = .runnable
    · simp only [hrun,true_or,if_true,ok_bind,reduceCtorEq,if_false,true_and]
      by_cases hw : waitLimit (levelOf k p) ≤ getTicks k p + 1
      · have ha : aged k p = true := by simp [aged,hskip,hrun,hw]
        obtain ⟨q,hq⟩ := hp ha
        have hpos := h.pid q p hq
        obtain ⟨k',hk,hok,hidx⟩ := h.incPrio_eq hq fun x hx => hpid x hx (by omega)
        rw [if_pos hw,ha,h.levelOf_eq hq]
        exact ⟨k',hk,hok,hidx⟩
      · have hna : aged k p = false := by simp [aged,hw]
        rw [if_neg hw,hna]
        exact ⟨k,rfl,h,fun _ _ => rfl⟩
    · have hna : aged k p = false := by simp [aged,hrun]
      rw [hna]
      by_cases hr : (k.proc p).state = .running
      · simp only [hr,or_true,if_true,ok_bind,reduceCtorEq,false_and,if_false]
        have hst : ∀ x, ((countTick k p (levelOf k p)).proc x).stat.allotedQ =
            (k.proc x).stat.allotedQ := by
          intro x
          by_cases hx : x = p <;> simp [countTick,hx]
        refine ⟨_,rfl,?_,?_⟩
        · refine h.frame rfl rfl rfl hst ?_
          intro r x hx
          have hx' := h.pid r x hx
          by_cases hxp : x = p
          · simpa [countTick,hxp] using hxp ▸ hx'
          · simpa [countTick,hxp] using hx'
        · intro x _
          unfold getQIdx
          rw [hst]
      · rw [if_neg (by simp [hrun,hr])]
        exact ⟨k,rfl,h,fun _ _ => rfl⟩

end QOk

def agedQueues (k : Kernel) (L : Queues) (pre : List Slot) : Queues := fun r =>
  (L r).filter (fun x => !(aged k x && decide (x ∈ pre))) ++
    pre.filter fun x => aged k x && decide (promoteTo (levelOf k x) = r)

theorem mem_agedQueues {k : Kernel} {L : Queues} {pre : List Slot} {r : Level} {x : Slot} :
    x ∈ agedQueues k L pre r ↔ x ∈ L r ∧ (aged k x = true → x ∉ pre) ∨
      x ∈ pre ∧ aged k x = true ∧ promoteTo (levelOf k x) = r := by
  unfold agedQueues
  rw [List.mem_append,List.mem_filter,List.mem_filter]
  cases aged k x <;> simp

theorem agedQueues_nil (k : Kernel) (L : Queues) : agedQueues k L [] = L := by
  funext r
  simp [agedQueues]

theorem agedQueues_skip {k : Kernel} {L : Queues} {pre : List Slot} {a : Slot}
    (ha : aged k a = false) : agedQueues k L (pre ++ [a]) = agedQueues k L pre := by
  funext r
  unfold agedQueues
  rw [List.filter_append]
  simp only [List.filter_cons,ha,Bool.false_and,List.filter_nil,Bool.false_eq_true,if_false,
    List.append_nil]
  congr 1
  apply List.filter_congr
  intro x _
  by_cases hx : x = a
  · simp [hx,ha]
  · simp [hx]

theorem agedQueues_promote {k : Kernel} {L : Queues} {pre : List Slot} {a : Slot}
    (ha : aged k a = true) (hpre : a ∉ pre) :
    agedQueues k L (pre ++ [a]) =
      promote (agedQueues k L pre) a (promoteTo (levelOf k a)) := by
  funext r
  have hold : ((L r).filter fun x => !(aged k x && decide (x ∈ pre ++ [a]))) =
      ((L r).filter fun x => !(aged k x && decide (x ∈ pre))).filter (· ≠ a) := by
    rw [List.filter_filter]
    apply List.filter_congr
    intro x _
    by_cases hx : x = a
    · simp [hx,ha]
    · simp [hx]
  have hpush : (pre.filter fun x => aged k x && decide (promoteTo (levelOf k x) = r)).filter
      (· ≠ a) = pre.filter fun x => aged k x && decide (promoteTo (levelOf k x) = r) := by
    rw [List.filter_eq_self]
    intro x hx
    have hxa : x ≠ a := by
      rintro rfl
      exact hpre (List.mem_filter.mp hx).1
    simpa using hxa
  have hnew : (([a] : List Slot).filter fun x =>
      aged k x && decide (promoteTo (levelOf k x) = r)) =
      if r = promoteTo (levelOf k a) then [a] else [] := by
    by_cases hr : r = promoteTo (levelOf k a)
    · simp [ha,hr]
    · simp [ha,hr,Ne.symm hr]
  unfold promote
  rw [agedQueues,agedQueues,List.filter_append,List.filter_append,hold,hpush,hnew,
    List.append_assoc]

structure AgedUpTo (k : Kernel) (L : Queues) (pre : List Slot) (s : Kernel) : Prop where
  ok : QOk s (agedQueues k L pre)
  faces : SameFaces k s
  clock : SameClock k s
  idx : ∀ x, x ∉ pre → getQIdx s x = getQIdx k x

theorem AgedUpTo.aged_eq {k s : Kernel} {L : Queues} {pre : List Slot} {a : Slot}
    (h : AgedUpTo k L pre s) (ha : a ∉ pre) : aged s a = aged k a :=
  aged_congr h.faces h.clock (h.idx a ha)

theorem AgedUpTo.step {k s : Kernel} {L : Queues} {pre : List Slot} {a : Slot} (hk : PidOk k)
    (h : AgedUpTo k L pre s) (ha : a ∉ pre) (hq : aged k a = true → ∃ q, a ∈ L q) :
    ∃ t, ageProc s a = .ok t ∧ AgedUpTo k L (pre ++ [a]) t := by
  have hage := h.aged_eq ha
  have hmem : aged s a = true → ∃ q, a ∈ agedQueues k L pre q := by
    intro he
    obtain ⟨q,hq⟩ := hq (hage ▸ he)
    exact ⟨q,mem_agedQueues.mpr (.inl ⟨hq,fun _ => ha⟩)⟩
  have hpid : ∀ x, (s.proc x).pid = (s.proc a).pid → 0 < (s.proc x).pid → x = a := by
    intro x
    rw [h.faces.pid,h.faces.pid]
    exact hk.inj x a
  obtain ⟨t,ht,hok,hidx⟩ := h.ok.ageProc_eq hmem hpid
  refine ⟨t,ht,?_,h.faces.trans (ageProc_faces ht),h.clock.trans (ageProc_clock ht),?_⟩
  · have hlev : levelOf s a = levelOf k a := by
      unfold levelOf
      rw [h.idx a ha]
    rw [hage,hlev] at hok
    cases hka : aged k a with
    | true =>
      rw [agedQueues_promote hka ha]
      simpa [hka] using hok
    | false =>
      rw [agedQueues_skip hka]
      simpa [hka] using hok
  · intro x hx
    rw [List.mem_append,List.mem_singleton,not_or] at hx
    exact (hidx x hx.2).trans (h.idx x hx.1)

theorem age_prefix {k : Kernel} {L : Queues} {pre : List Slot} (hk : PidOk k) (h : QOk k L)
    (hnd : pre.Nodup) (hq : ∀ x ∈ pre, aged k x = true → ∃ q, x ∈ L q) :
    ∃ s, pre.foldlM ageProc k = .ok s ∧ AgedUpTo k L pre s := by
  refine foldlM_total (AgedUpTo k L) ?_ ?_
  · exact ⟨by rw [agedQueues_nil]; exact h,.refl k,.refl k,fun _ _ => rfl⟩
  · intro l a post s hl hs
    have hmem : a ∈ pre := by simp [hl]
    have ha : a ∉ l := by
      rw [hl] at hnd
      intro hal
      exact (List.disjoint_of_nodup_append hnd) hal List.mem_cons_self
    exact hs.step hk ha (hq a hmem)

def ticked (k : Kernel) : Kernel := { k with ticks := k.ticks + 1 }

def AtPosition (k : Kernel) (p : Slot) : Prop :=
  ∃ (q : Level) (i : Nat), (i : Int) < k.prioQSize q ∧
    (k.proc p).stat.allotedQ = ((q.val : Int),position k q i) ∧
    k.prioQ q (position k q i) = some p

structure TickKeeps (k : Kernel) : Prop where
  calls : ∀ pre p post, allSlots = pre ++ p :: post →
    ∃ s, pre.foldlM ageProc (ticked k) = .ok s ∧ (∀ q, 0 ≤ s.prioQSize q) ∧
      (aged s p = true → AtPosition s p)
  result : ∃ k', updateStatsAndAging k = .ok k' ∧ (∀ q, 0 ≤ k'.prioQSize q) ∧
    (allLevels.flatMap (window k')).Perm (allLevels.flatMap (window k)) ∧
    ∀ r, window k' r = (window k r).filter (fun c => !c.any (aged (ticked k))) ++
      (allSlots.filter fun p => aged (ticked k) p && decide (promoteTo (levelOf k p) = r)).map some

theorem AtPosition.inQueue {k : Kernel} {p : Slot} (h : AtPosition k p) : InQueue k p := by
  obtain ⟨q,i,hi,_,hc⟩ := h
  refine ⟨q,?_⟩
  unfold window RingBuf.window
  rw [List.mem_map]
  refine ⟨i,?_,hc⟩
  rw [List.mem_range]
  exact (Int.lt_toNat).mpr hi

namespace QOk
variable {k k' : Kernel} {L : Queues} {p : Slot}

theorem atPosition (h : QOk k L) {q : Level} (hp : p ∈ L q) : AtPosition k p := by
  obtain ⟨i,hi,rfl⟩ := List.getElem_of_mem hp
  refine ⟨q,i,?_,h.record q i hi,(h.queue _).prioQ_eq hi⟩
  have hs : k.prioQSize q = (L q).length := (h.holds q).size_eq
  omega

theorem size_nonneg (h : QOk k L) (q : Level) : 0 ≤ k.prioQSize q := by
  have hs : k.prioQSize q = (L q).length := (h.holds q).size_eq
  omega

theorem ticked (h : QOk k L) : QOk (Xv6.ticked k) L :=
  h.frame rfl rfl rfl (fun _ => rfl) h.pid

theorem nodup_all (h : QOk k L) : (allLevels.flatMap L).Nodup := by
  rw [List.nodup_flatMap]
  refine ⟨fun q _ => h.nodup q,?_⟩
  refine (List.nodup_finRange _).imp ?_
  intro q r hqr x hx hx'
  exact hqr (h.same_level hx hx')

theorem flatMap_window (h : QOk k L) :
    allLevels.flatMap (window k) = (allLevels.flatMap L).map some := by
  rw [List.map_flatMap]
  congr 1
  funext q
  exact h.window_eq q

theorem collection_perm {L' : Queues} (h : QOk k L) (h' : QOk k' L')
    (hm : ∀ x, (∃ q, x ∈ L' q) ↔ ∃ q, x ∈ L q) :
    (allLevels.flatMap (window k')).Perm (allLevels.flatMap (window k)) := by
  rw [h.flatMap_window,h'.flatMap_window]
  apply List.Perm.map
  rw [List.perm_ext_iff_of_nodup h'.nodup_all h.nodup_all]
  intro x
  simpa using hm x

theorem tickKeeps_of_queued (h : QOk k L) (hk : PidOk k)
    (hq : ∀ p, aged (Xv6.ticked k) p = true → InQueue k p) : TickKeeps k := by
  have ht := h.ticked
  have hkt : PidOk (Xv6.ticked k) := ⟨hk.lt,hk.pos,hk.inj⟩
  have hmem : ∀ p, aged (Xv6.ticked k) p = true → ∃ q, p ∈ L q := fun p hp =>
    h.inQueue_iff.mp (hq p hp)
  constructor
  · intro pre p post hl
    have hnd : pre.Nodup := by
      have := List.nodup_finRange nproc
      rw [show List.finRange nproc = pre ++ p :: post from hl] at this
      exact this.of_append_left
    have hp : p ∉ pre := by
      have := List.nodup_finRange nproc
      rw [show List.finRange nproc = pre ++ p :: post from hl] at this
      intro hpp
      exact (List.disjoint_of_nodup_append this) hpp List.mem_cons_self
    obtain ⟨s,hs,hu⟩ := age_prefix hkt ht hnd fun x _ => hmem x
    refine ⟨s,hs,hu.ok.size_nonneg,?_⟩
    intro ha
    obtain ⟨q,hq⟩ := hmem p (hu.aged_eq hp ▸ ha)
    exact hu.ok.atPosition (mem_agedQueues.mpr (.inl ⟨hq,fun _ => hp⟩))
  · obtain ⟨k',hk',hu⟩ := age_prefix hkt ht (List.nodup_finRange nproc) fun x _ => hmem x
    refine ⟨k',hk',hu.ok.size_nonneg,h.collection_perm hu.ok ?_,?_⟩
    · intro x
      constructor
      · rintro ⟨q,hx⟩
        rcases mem_agedQueues.mp hx with ⟨hx,_⟩ | ⟨_,hx,_⟩
        · exact ⟨q,hx⟩
        · exact hmem x hx
      · rintro ⟨q,hx⟩
        cases ha : aged (Xv6.ticked k) x with
        | true =>
          exact ⟨_,mem_agedQueues.mpr (.inr ⟨mem_allSlots x,ha,rfl⟩)⟩
        | false => exact ⟨q,mem_agedQueues.mpr (.inl ⟨hx,by simp [ha]⟩)⟩
    · intro r
      rw [hu.ok.window_eq,h.window_eq,agedQueues,List.map_append,List.filter_map]
      congr 2
      apply List.filter_congr
      intro x _
      simp

theorem queued_of_tickKeeps (h : QOk k L) (hk : PidOk k) (ht : TickKeeps k) (p : Slot)
    (hp : aged (Xv6.ticked k) p = true) : InQueue k p := by
  have hkt : PidOk (Xv6.ticked k) := ⟨hk.lt,hk.pos,hk.inj⟩
  by_contra hno
  obtain ⟨x,hx⟩ : ∃ x, allSlots.find? (fun p => aged (Xv6.ticked k) p && !decide (InQueue k p)) =
      some x := by
    rw [← Option.isSome_iff_exists,List.find?_isSome]
    exact ⟨p,mem_allSlots p,by simp [hp,hno]⟩
  obtain ⟨hlost,pre,post,hl,hpre⟩ := List.find?_eq_some_iff_append.mp hx
  simp only [Bool.and_eq_true,Bool.not_eq_true',decide_eq_false_iff_not] at hlost
  have hnd := List.nodup_finRange nproc
  rw [show List.finRange nproc = pre ++ x :: post from hl] at hnd
  have hxp : x ∉ pre := fun hm => (List.disjoint_of_nodup_append hnd) hm List.mem_cons_self
  have hqueued : ∀ y ∈ pre, aged (Xv6.ticked k) y = true → ∃ q, y ∈ L q := by
    intro y hy ha
    have := hpre y hy
    rw [ha] at this
    exact h.inQueue_iff.mp (by simpa using this)
  obtain ⟨s,hs,hu⟩ := age_prefix hkt h.ticked hnd.of_append_left hqueued
  obtain ⟨s',hs',_,hat⟩ := ht.calls pre x post hl
  rw [hs] at hs'
  cases hs'
  obtain ⟨q,hq⟩ := hu.ok.inQueue_iff.mp (hat (hu.aged_eq hxp ▸ hlost.1)).inQueue
  rcases mem_agedQueues.mp hq with ⟨hm,_⟩ | ⟨hm,_⟩
  · exact hlost.2 (h.inQueue_iff.mpr ⟨q,hm⟩)
  · exact hxp hm

end QOk
end Xv6
