import OscAssignments.Xv6.Tenants

namespace Xv6
open Runs

section Least
variable {k : Kernel} {p q : Slot}

def Earlier (k : Kernel) (p q : Slot) : Prop :=
  (k.proc p).ctime.toInt < (k.proc q).ctime.toInt ∨
    (k.proc p).ctime.toInt = (k.proc q).ctime.toInt ∧ p ≤ q

instance (k : Kernel) (p q : Slot) : Decidable (Earlier k p q) :=
  inferInstanceAs (Decidable (_ ∨ _ ∧ _))

def LeastCtime (k : Kernel) (p : Slot) : Prop :=
  ∀ q, (k.proc q).state = .runnable → Earlier k p q

instance (k : Kernel) (p : Slot) : Decidable (LeastCtime k p) :=
  inferInstanceAs (Decidable (∀ _ : Slot, _))

theorem Earlier.antisymm (h : Earlier k p q) (h' : Earlier k q p) : p = q := by
  rcases h with h | ⟨h,hpq⟩
  · rcases h' with h' | ⟨h',-⟩ <;> omega
  · rcases h' with h' | ⟨-,hqp⟩
    · omega
    · exact le_antisymm hpq hqp

def Scanned (k : Kernel) (pre : List Slot) : Option Slot → Prop
  | some p => p ∈ pre ∧ ∀ q ∈ pre, (k.proc q).state = .runnable → Earlier k p q
  | none => ∀ q ∈ pre, (k.proc q).state ≠ .runnable

theorem Scanned.snoc {pre : List Slot} {best : Option Slot} {x : Slot} (h : Scanned k pre best)
    (hx : ∀ y ∈ pre, y < x) : Scanned k (pre ++ [x]) (earlierCtime k best x) := by
  unfold earlierCtime
  by_cases hr : (k.proc x).state = .runnable
  · rw [if_pos hr]
    cases best with
    | none =>
      refine ⟨by simp,?_⟩
      intro q hq hqr
      rcases List.mem_append.mp hq with hq | hq
      · exact absurd hqr (h q hq)
      · rw [List.mem_singleton.mp hq]
        exact .inr ⟨rfl,le_rfl⟩
    | some y =>
      obtain ⟨hy,hleast⟩ := h
      simp only
      split_ifs with hlt
      · refine ⟨by simp,?_⟩
        intro q hq hqr
        rcases List.mem_append.mp hq with hq | hq
        · rcases hleast q hq hqr with e | ⟨e,-⟩
          · exact .inl (by omega)
          · exact .inl (by omega)
        · rw [List.mem_singleton.mp hq]
          exact .inr ⟨rfl,le_rfl⟩
      · refine ⟨List.mem_append_left _ hy,?_⟩
        intro q hq hqr
        rcases List.mem_append.mp hq with hq | hq
        · exact hleast q hq hqr
        · rw [List.mem_singleton.mp hq]
          rcases lt_or_eq_of_le (not_lt.mp hlt) with e | e
          · exact .inl e
          · exact .inr ⟨e,(hx y hy).le⟩
  · rw [if_neg hr]
    cases best with
    | none =>
      intro q hq hqr
      rcases List.mem_append.mp hq with hq | hq
      · exact h q hq hqr
      · exact hr (List.mem_singleton.mp hq ▸ hqr)
    | some y =>
      refine ⟨List.mem_append_left _ h.1,?_⟩
      intro q hq hqr
      rcases List.mem_append.mp hq with hq | hq
      · exact h.2 q hq hqr
      · exact absurd (List.mem_singleton.mp hq ▸ hqr) hr

theorem scanned_foldl (post : List Slot) :
    ∀ (pre : List Slot) (best : Option Slot), (pre ++ post).Pairwise (· < ·) → Scanned k pre best →
      Scanned k (pre ++ post) (post.foldl (earlierCtime k) best) := by
  induction post with
  | nil =>
    intro pre best _ h
    rw [List.append_nil]
    exact h
  | cons x post ih =>
    intro pre best hsort h
    have hx : ∀ y ∈ pre, y < x := by
      intro y hy
      exact (List.pairwise_append.mp hsort).2.2 y hy x List.mem_cons_self
    have hsplit : pre ++ x :: post = (pre ++ [x]) ++ post := by simp
    rw [hsplit] at hsort ⊢
    exact ih _ _ hsort (h.snoc hx)

theorem minctimeProc_least (h : minctimeProc k = some p) : LeastCtime k p := by
  have hscan := scanned_foldl (k := k) allSlots [] none (List.pairwise_lt_finRange nproc)
    (by intro q hq; cases hq)
  rw [show allSlots.foldl (earlierCtime k) none = some p from h] at hscan
  intro q hq
  exact hscan.2 q (mem_allSlots q) hq

end Least

namespace Machine
variable {m m' : Machine} {ncpu : Nat} {p q : Slot} {ts : List Trans} {a : Action}

def FirstAllocated (ts : List Trans) (m : Machine) (p : Slot) : Prop :=
  ∀ q, q ≠ p → (m.kern.proc q).state = .runnable →
    List.Sublist [(m.kern.proc p).pid,(m.kern.proc q).pid] (allocations ts)

instance (ts : List Trans) (m : Machine) (p : Slot) : Decidable (FirstAllocated ts m p) :=
  inferInstanceAs (Decidable (∀ _ : Slot, _))

theorem pair_sublist_range' {x y s n : Nat} (hx : s ≤ x) (hxy : x < y) (hy : y < s + n) :
    List.Sublist [x,y] (List.range' s n) := by
  have hsplit : List.range' s n =
      List.range' s (x - s) ++ x :: List.range' (x + 1) (n - (x - s) - 1) := by
    have h1 : n = (x - s) + (n - (x - s)) := by omega
    have h2 : n - (x - s) = (n - (x - s) - 1) + 1 := by omega
    conv_lhs => rw [h1,← List.range'_append_1]
    rw [show s + (x - s) = x by omega]
    conv_lhs => rw [h2,List.range'_succ]
  rw [hsplit]
  refine List.Sublist.trans ?_ (List.sublist_append_right _ _)
  refine .cons_cons x (List.singleton_sublist.mpr ?_)
  rw [List.mem_range'_1]
  omega

theorem allocated_before_iff {b : Build} (h : (xv6 b ncpu).Path boot ts m)
    (hp : (m.kern.proc p).state ≠ .unused) :
    List.Sublist [(m.kern.proc p).pid,(m.kern.proc q).pid] (allocations ts) ↔
      (m.kern.proc p).pid < (m.kern.proc q).pid := by
  have hs := path_sane sane_boot h
  obtain ⟨hall,-⟩ := allocations_eq h
  rw [hall]
  constructor
  · intro hsub
    exact List.pairwise_iff_forall_sublist.mp List.pairwise_lt_range' hsub
  · intro hlt
    have hpos := hs.pids.pos p hp
    have hq := hs.pids.lt q
    exact pair_sublist_range' hpos hlt (by omega)

theorem firstAllocated_unique {b : Build} (h : (xv6 b ncpu).Path boot ts m)
    (hp : (m.kern.proc p).state = .runnable) (hq : (m.kern.proc q).state = .runnable)
    (hfp : FirstAllocated ts m p) (hfq : FirstAllocated ts m q) : p = q := by
  by_contra hne
  have h1 := (allocated_before_iff h (by simp [hp])).mp (hfp q (Ne.symm hne) hq)
  have h2 := (allocated_before_iff h (by simp [hq])).mp (hfq p hne hp)
  omega

theorem exists_firstAllocated {b : Build} (h : (xv6 b ncpu).Path boot ts m)
    (hp : (m.kern.proc p).state = .runnable) :
    ∃ f, (m.kern.proc f).state = .runnable ∧ FirstAllocated ts m f := by
  have hs := path_sane sane_boot h
  obtain ⟨f,hf,hmin⟩ := Finset.exists_min_image
    (Finset.univ.filter fun x => (m.kern.proc x).state = .runnable)
    (fun x => (m.kern.proc x).pid) ⟨p,by simp [hp]⟩
  simp only [Finset.mem_filter,Finset.mem_univ,true_and] at hf hmin
  refine ⟨f,hf,?_⟩
  intro q hne hq
  rw [allocated_before_iff h (by simp [hf])]
  refine lt_of_le_of_ne (hmin q hq) ?_
  intro he
  exact hne (hs.pids.inj f q he (hs.pids.pos f (by simp [hf]))).symm

theorem fcfs_dispatch (hs : (xv6 .fcfs ncpu).step m a = .ok m') (hd : Dispatched a m' p) :
    minctimeProc m.kern = some p := by
  obtain ⟨c,op⟩ := a
  obtain ⟨hop,hloc,hp⟩ := hd
  have he := step_effect hs
  simp only at hop hloc hp he
  cases he with
  | schedScan _ _ hb => simp at hb
  | @schedFcfs x _ _ _ hmin =>
    simp [enter] at hp
    rw [hmin,hp]
  | schedFcfsNone _ _ _ _ => simp [release] at hloc
  | schedMlfq _ _ hb _ _ => cases hb
  | schedMlfqNone _ _ hb _ => cases hb
  | backScan _ _ _ hb => simp at hb
  | backRelease _ _ _ _ => simp [release] at hloc
  | backMlfq _ _ _ hb _ => cases hb
  | _ => simp at hop

theorem fcfs_dispatches_first_iff (h : (xv6 .fcfs ncpu).Path boot ts m)
    (hs : (xv6 .fcfs ncpu).step m a = .ok m') (hd : Dispatched a m' p) :
    FirstAllocated ts m p ↔ ∀ f, (m.kern.proc f).state = .runnable → FirstAllocated ts m f →
      LeastCtime m.kern f := by
  have hmin := fcfs_dispatch hs hd
  have hp := minctimeProc_runnable hmin
  have hleast := minctimeProc_least hmin
  constructor
  · intro hfp f hf hff
    obtain rfl := firstAllocated_unique h hf hp hff hfp
    exact hleast
  · intro hcond
    obtain ⟨f,hf,hff⟩ := exists_firstAllocated h hp
    obtain rfl := (hcond f hf hff p hp).antisymm (hleast f hf)
    exact hff

def twinsRun : List Action :=
  bootRun ++ forkRun ++ forkRun ++ [⟨0,.sleep (.other 0)⟩,⟨0,.back⟩]

theorem fcfs_dispatches_first_iff_twins :
    FirstAllocated ((xv6 .fcfs 1).transitions boot twinsRun) ((xv6 .fcfs 1).after twinsRun) 1 := by
  have hok : ((twinsRun ++ [Action.mk 0 .sched]).foldlM (xv6 .fcfs 1).step boot).isOk = true := by
    decide +kernel
  have hpath := System.path_run (System.isOk_of_append hok)
  exact (fcfs_dispatches_first_iff hpath (System.step_after hok) (by decide +kernel)).mpr
    (by decide +kernel)

def reusedSlotRun : List Action :=
  bootRun ++ forkRun ++ forkRun ++ [⟨0,.wait true⟩,⟨0,.back⟩,⟨0,.sched⟩,⟨0,.resume⟩,⟨0,.exit⟩,
    ⟨0,.back⟩,⟨0,.sched⟩,⟨0,.resume⟩] ++ forkRun ++ [⟨0,.sleep (.other 0)⟩,⟨0,.back⟩]

theorem fcfs_dispatches_latecomer :
    ¬ ∀ (ncpu : Nat) (ts : List Trans) (m m' : Machine) (a : Action) (p : Slot),
      (xv6 .fcfs ncpu).Path boot ts m → (xv6 .fcfs ncpu).step m a = .ok m' →
        Dispatched a m' p → FirstAllocated ts m p := by
  intro h
  have hok : ((reusedSlotRun ++ [Action.mk 0 .sched]).foldlM (xv6 .fcfs 1).step boot).isOk =
      true := by
    decide +kernel
  have hfirst := h 1 _ _ _ _ 1 (System.path_run (System.isOk_of_append hok))
    (System.step_after hok) (by decide +kernel)
  have hlate : ¬ FirstAllocated ((xv6 .fcfs 1).transitions boot reusedSlotRun)
      ((xv6 .fcfs 1).after reusedSlotRun) 1 := by decide +kernel
  exact hlate hfirst

end Machine
end Xv6
