import OscAssignments.Xv6.Ledger

namespace Xv6
open Runs

def rejectsPrio (newPriority : Int) : Bool := newPriority < -1 || newPriority > 100

def setPrioReturn (k : Kernel) (p : Slot) (newPriority : Int) : Int :=
  if rejectsPrio newPriority then -1 else (k.proc p).priority

structure PrioOk (k : Kernel) : Prop where
  range : ∀ p, 0 ≤ (k.proc p).priority ∧ (k.proc p).priority ≤ 100
  returns : ∀ p v, setPrioReturn k p v = -1 ↔ rejectsPrio v = true
  unchanged : ∀ p v, rejectsPrio v = true → setPrio k p v = k

def PrioSafe (m : Machine) (a : Action) : Prop :=
  match a.op with
  | .setPrio newPriority => newPriority ≠ -1
  | .copyuvm true => ∀ np, m.task (m.cpu a.cpu).proc = .enqueued np → (m.kern.proc np).pid ≤ 201
  | _ => True

instance (m : Machine) (a : Action) : Decidable (PrioSafe m a) := by
  unfold PrioSafe
  split <;> infer_instance

def InRange (k : Kernel) : Prop := ∀ p, 0 ≤ (k.proc p).priority ∧ (k.proc p).priority ≤ 100

theorem InRange.prioOk {k : Kernel} (h : InRange k) : PrioOk k := by
  refine ⟨h,?_,?_⟩
  · intro p v
    unfold setPrioReturn
    split_ifs with hv
    · simp [hv]
    · have hp := h p
      exact iff_of_false (by omega) hv
  · intro p v hv
    unfold setPrio
    rw [if_pos (by simpa [rejectsPrio] using hv)]

theorem InRange.books {k k' : Kernel} (h : InRange k)
    (hl : ∀ p, (ledger (k'.proc p)).priority = (ledger (k.proc p)).priority) : InRange k' := by
  intro p
  have he : (k'.proc p).priority = (k.proc p).priority := hl p
  rw [he]
  exact h p

theorem InRange.posted {k k' : Kernel} {p : Slot} {f : Ledger → Ledger} (h : InRange k)
    (hp : Posted p f k k') (hf : 0 ≤ (f (ledger (k.proc p))).priority ∧
      (f (ledger (k.proc p))).priority ≤ 100) : InRange k' := by
  intro x
  rcases eq_or_ne x p with rfl | hx
  · rw [← hp.self] at hf
    exact hf
  · have he : (k'.proc x).priority = (k.proc x).priority :=
      congrArg Ledger.priority (hp.others x hx)
    rw [he]
    exact h x

theorem forkPriority_range {k : Kernel} {np : Slot} (h : (k.proc np).pid ≤ 201) :
    0 ≤ forkPriority k np ∧ forkPriority k np ≤ 100 := by
  unfold forkPriority
  split_ifs
  · omega
  · decide

namespace Machine
variable {m m' : Machine} {c : Nat} {op : Op}

theorem inRange_step (h : InRange m.kern) (hp : Posts .pbs m c m' op) (hok : PrioSafe m ⟨c,op⟩) :
    InRange m'.kern := by
  cases hp with
  | same hb => exact h.books fun p => by rw [hb.ledger]
  | created _ hp => exact h.posted hp (by simp [opened,defaultPriority])
  | copied htask hp =>
    refine h.posted hp ?_
    simpa using forkPriority_range (hok _ htask)
  | @prioSet p v hp =>
    refine h.posted hp ?_
    have hr := h p
    have hv : v ≠ -1 := hok
    simp only
    split_ifs with hrej
    · exact hr
    · omega
  | ticked _ _ ht => exact h.books fun p => by rw [ht.ledger,if_neg (by decide)]
  | accounted _ _ _ _ hp => exact h.posted hp (h _)
  | dispatched hb => cases hb

theorem pbs_priority_range {ncpu : Nat} (h : (xv6 .pbs ncpu).Reach PrioSafe m) :
    PrioOk m.kern := by
  have main : Sane m ∧ InRange m.kern := by
    refine h.invariant (fun m => Sane m ∧ InRange m.kern) ⟨sane_boot,?_⟩ ?_
    · intro p
      have h0 : ((xv6 .pbs ncpu).init.kern.proc p).priority = 0 := rfl
      omega
    · rintro s ⟨c,op⟩ t _ ⟨hs,hr⟩ hok ht
      exact ⟨step_sane hs ht,inRange_step hr (effect_posts hs (step_effect ht)) hok⟩
  exact main.2.prioOk

def setTwiceRun : List Action := bootRun ++ forkRun ++ [⟨0,.setPrio 0⟩,⟨0,.setPrio 101⟩]

theorem pbs_priority_range_set_twice : PrioOk ((xv6 .pbs 1).after setTwiceRun).kern := by
  have hrun : ((xv6 .pbs 1).checked PrioSafe (xv6 .pbs 1).init setTwiceRun).any
      (fun _ => true) = true := by decide +kernel
  exact pbs_priority_range (System.reach_checked hrun).1

def setMinusOneRun : List Action := bootRun ++ [⟨0,.setPrio (-1)⟩]

theorem pbs_priority_below_range :
    ¬ ∀ m, (xv6 .pbs 1).Reachable m → PrioOk m.kern := by
  intro h
  have hrun : ((xv6 .pbs 1).checked (fun _ _ => True) (xv6 .pbs 1).init setMinusOneRun).any
      (fun m => (m.kern.proc 0).priority = -1) = true := by decide +kernel
  obtain ⟨hr,hm⟩ := System.reach_checked hrun
  have hneg := of_decide_eq_true hm
  have := ((h _ hr).range 0).1
  omega

end Machine
end Xv6
