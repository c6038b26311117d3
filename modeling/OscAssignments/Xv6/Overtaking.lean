import OscAssignments.Xv6.Losing

namespace Xv6
open Runs

structure WellQueued (k : Kernel) : Prop where
  pids : PidOk k
  once : ∃ L, QOk k L
  waiting : ∀ p, (k.proc p).state = .runnable → InQueue k p

theorem pair_sublist_append {α : Type} {x y : α} {l r : List α} (hx : x ∈ l) (hy : y ∈ r) :
    [x,y].Sublist (l ++ r) :=
  (List.singleton_sublist.mpr hx).append (List.singleton_sublist.mpr hy)

namespace WellQueued
variable {k : Kernel} {a b : Slot} {qa qb : Level}

theorem tickKeeps (h : WellQueued k) : TickKeeps k := by
  obtain ⟨L,hL⟩ := h.once
  exact hL.tickKeeps_of_queued h.pids fun p hp => h.waiting p (aged_runnable (k := ticked k) hp)

theorem levelOf_eq (h : WellQueued k) (ha : some a ∈ window k qa) : levelOf k a = qa := by
  obtain ⟨L,hL⟩ := h.once
  exact hL.levelOf_eq (hL.mem_window.mp ha)

end WellQueued

section Tick
variable {k k' : Kernel} {a b : Slot} {qa qb : Level}
  (hw : ∀ r, window k' r = (window k r).filter (fun c => !c.any (aged (ticked k))) ++
    (allSlots.filter fun p => aged (ticked k) p && decide (promoteTo (levelOf k p) = r)).map some)

include hw

theorem mem_promoted (hq : levelOf k a = qa) (ha : aged (ticked k) a = true) :
    some a ∈ window k' (promoteTo qa) := by
  rw [hw,List.mem_append]
  exact .inr (by simp [ha,hq])

theorem mem_unaged (hb : some b ∈ window k qb) (hno : aged (ticked k) b = false) :
    some b ∈ window k' qb := by
  rw [hw,List.mem_append,List.mem_filter]
  exact .inl ⟨hb,by simp [hno]⟩

theorem promoted_ahead (hq : levelOf k a = qa) (ha : aged (ticked k) a = true)
    (hb : some b ∈ window k qb) (hno : aged (ticked k) b = false) (hlt : promoteTo qa < qb) :
    QueuedAhead k' a b :=
  ⟨promoteTo qa,qb,mem_promoted hw hq ha,mem_unaged hw hb hno,.inl hlt⟩

theorem rotated_behind (hq : levelOf k a = highestPrioQ) (ha : aged (ticked k) a = true)
    (hb : some b ∈ window k highestPrioQ) (hno : aged (ticked k) b = false) :
    QueuedAhead k' b a := by
  have hma := mem_promoted hw hq ha
  refine ⟨highestPrioQ,highestPrioQ,mem_unaged hw hb hno,hma,.inr ⟨rfl,?_⟩⟩
  rw [hw]
  apply pair_sublist_append
  · exact List.mem_filter.mpr ⟨hb,by simp [hno]⟩
  · exact List.mem_map.mpr ⟨a,List.mem_filter.mpr ⟨mem_allSlots a,by simp [ha,hq]; rfl⟩,rfl⟩

end Tick

theorem promoteTo_lt {qa qb : Level} (hle : qa ≤ qb) (hne : ¬ (qa = highestPrioQ ∧ qb = highestPrioQ)) :
    promoteTo qa < qb := by
  have h1 : qa.val ≤ qb.val := hle
  have h2 : ¬ (qa.val = 0 ∧ qb.val = 0) := fun h => hne ⟨Fin.ext h.1,Fin.ext h.2⟩
  change qa.val - 1 < qb.val
  omega

theorem QueuedAhead.le {k : Kernel} {a b : Slot} (h : QueuedAhead k a b) :
    ∃ qa qb, some a ∈ window k qa ∧ some b ∈ window k qb ∧ qa ≤ qb := by
  obtain ⟨qa,qb,ha,hb,hlt | ⟨rfl,-⟩⟩ := h
  · exact ⟨qa,qb,ha,hb,hlt.le⟩
  · exact ⟨qa,qa,ha,hb,le_rfl⟩

theorem aging_keeps_order {k : Kernel} {a b : Slot} (h : WellQueued k) (hab : QueuedAhead k a b)
    (ha : aged (ticked k) a = true) (hb : aged (ticked k) b = false) :
    ∃ k', updateStatsAndAging k = .ok k' ∧
      (¬ (some a ∈ window k highestPrioQ ∧ some b ∈ window k highestPrioQ) →
        QueuedAhead k' a b) ∧
      (some a ∈ window k highestPrioQ → some b ∈ window k highestPrioQ → QueuedAhead k' b a) := by
  obtain ⟨k',hk,-,-,hw⟩ := h.tickKeeps.result
  obtain ⟨qa,qb,hma,hmb,hle⟩ := hab.le
  refine ⟨k',hk,?_,?_⟩
  · intro hno
    refine promoted_ahead hw (h.levelOf_eq hma) ha hmb hb (promoteTo_lt hle ?_)
    rintro ⟨rfl,rfl⟩
    exact hno ⟨hma,hmb⟩
  · intro h0 h0'
    exact rotated_behind hw (h.levelOf_eq h0) ha h0' hb

def longWaiting : Slot := ⟨0,by decide⟩

def newcomer : Slot := ⟨1,by decide⟩

def unqueuedPair : Kernel where
  proc p := if p = longWaiting then { state := .runnable, pid := 1 }
    else if p = newcomer then { state := .runnable, pid := 2, latestQTime := 83 } else {}
  nextpid := 3
  ticks := 83

def waitingPair (q : Level) : Kernel := pushed (pushed unqueuedPair q longWaiting) q newcomer

theorem pair_cases {x : Slot} (hx : (unqueuedPair.proc x).pid ≠ 0) : x = longWaiting ∨ x = newcomer := by
  unfold unqueuedPair at hx
  simp only at hx
  split_ifs at hx with h0 h1
  · exact .inl h0
  · exact .inr h1
  · exact absurd rfl hx

theorem pidOk_pair : PidOk unqueuedPair where
  lt p := by
    unfold unqueuedPair
    simp only
    split_ifs <;> decide
  pos p hp := by
    unfold unqueuedPair at hp ⊢
    simp only at hp ⊢
    split_ifs at hp ⊢
    · exact Nat.one_pos
    · exact Nat.two_pos
    · exact absurd rfl hp
  inj p p' he hpos := by
    rcases pair_cases hpos.ne' with rfl | rfl <;> rcases pair_cases (he ▸ hpos.ne') with rfl | rfl
    · rfl
    · exact absurd he (by decide)
    · exact absurd he (by decide)
    · rfl

theorem qOk_pair (q : Level) :
    QOk (waitingPair q) (Function.update (fun _ => []) q [longWaiting,newcomer]) := by
  have h0 : QOk unqueuedPair (fun _ => []) := by
    refine ⟨?_,fun q i hi => absurd hi (Nat.not_lt_zero i),?_,fun q p hp => absurd hp List.not_mem_nil⟩
    · intro q
      exact ⟨le_refl 0,show (0 : Int) < maxProcCount by decide,rfl,Nat.zero_le _,
        fun i hi => absurd hi (Nat.not_lt_zero i)⟩
    · intro p
      refine ⟨highestPrioQ,?_⟩
      unfold getQIdx unqueuedPair
      simp only
      split_ifs <;> rfl
  have h1 := h0.pushed (q := q) (p := longWaiting) (fun r => List.not_mem_nil) (by decide)
  have h2 := h1.pushed (q := q) (p := newcomer) ?_ (by rw [(pushed_faces _ _ _).pid]; decide)
  · rw [Function.update_self,Function.update_idem] at h2
    exact h2
  · intro r hr
    rcases eq_or_ne r q with rfl | hne
    · rw [Function.update_self] at hr
      revert hr
      decide
    · rw [Function.update_of_ne hne] at hr
      exact absurd hr List.not_mem_nil

theorem pair_faces (q : Level) : SameFaces unqueuedPair (waitingPair q) :=
  (pushed_faces _ q longWaiting).trans (pushed_faces _ q newcomer)

theorem window_pair (q : Level) : window (waitingPair q) q = [some longWaiting,some newcomer] := by
  rw [(qOk_pair q).window_eq,Function.update_self]
  rfl

theorem wellQueued_pair (q : Level) : WellQueued (waitingPair q) where
  pids := pidOk_pair.wakes (pair_faces q).wakes
  once := ⟨_,qOk_pair q⟩
  waiting p hp := by
    have hpid := (pidOk_pair.wakes (pair_faces q).wakes).pos p (by rw [hp]; decide)
    rw [(pair_faces q).pid] at hpid
    refine ⟨q,?_⟩
    rw [window_pair]
    rcases pair_cases hpid.ne' with rfl | rfl
    · exact List.mem_cons_self
    · exact List.mem_cons_of_mem _ List.mem_cons_self

theorem ahead_pair (q : Level) : QueuedAhead (waitingPair q) longWaiting newcomer := by
  refine ⟨q,q,?_,?_,.inr ⟨rfl,?_⟩⟩
  · rw [window_pair]
    exact List.mem_cons_self
  · rw [window_pair]
    exact List.mem_cons_of_mem _ List.mem_cons_self
  · rw [window_pair]

theorem aging_keeps_order_below :
    ∃ k', updateStatsAndAging (waitingPair ⟨1,by decide⟩) = .ok k' ∧
      QueuedAhead k' longWaiting newcomer := by
  obtain ⟨k',hk,hkeep,-⟩ := aging_keeps_order (wellQueued_pair ⟨1,by decide⟩)
    (ahead_pair ⟨1,by decide⟩) (by decide +kernel) (by decide +kernel)
  refine ⟨k',hk,hkeep ?_⟩
  decide +kernel

theorem rotation_loses_lead :
    ¬ ∀ (k : Kernel) (a b : Slot), WellQueued k → (k.proc a).state = .runnable →
      (k.proc b).state = .runnable → QueuedAhead k a b → aged (ticked k) a = true →
      aged (ticked k) b = false → ∀ k', updateStatsAndAging k = .ok k' → QueuedAhead k' a b := by
  intro h
  have hrun : (updateStatsAndAging (waitingPair highestPrioQ)).toOption.any
      (fun k' => ¬ QueuedAhead k' longWaiting newcomer) = true := by decide +kernel
  cases hk : updateStatsAndAging (waitingPair highestPrioQ) with
  | error e =>
    rw [hk] at hrun
    cases hrun
  | ok k' =>
    rw [hk] at hrun
    have hno : ¬ QueuedAhead k' longWaiting newcomer := of_decide_eq_true hrun
    exact hno (h _ _ _ (wellQueued_pair highestPrioQ) (by decide +kernel) (by decide +kernel)
      (ahead_pair highestPrioQ) (by decide +kernel) (by decide +kernel) k' hk)

end Xv6
