import OscAssignments.Lib.Runs
import OscAssignments.Xv6.Machine

namespace Xv6
open Runs

structure SameFaces (k k' : Kernel) : Prop where
  state : ∀ p, (k'.proc p).state = (k.proc p).state
  pid : ∀ p, (k'.proc p).pid = (k.proc p).pid
  parent : ∀ p, (k'.proc p).parent = (k.proc p).parent
  chan : ∀ p, (k'.proc p).chan = (k.proc p).chan
  killed : ∀ p, (k'.proc p).killed = (k.proc p).killed
  nextpid : k'.nextpid = k.nextpid
  initproc : k'.initproc = k.initproc

theorem SameFaces.refl (k : Kernel) : SameFaces k k :=
  ⟨fun _ => rfl,fun _ => rfl,fun _ => rfl,fun _ => rfl,fun _ => rfl,rfl,rfl⟩

theorem SameFaces.trans {k k' k'' : Kernel} (h : SameFaces k k') (h' : SameFaces k' k'') :
    SameFaces k k'' where
  state p := (h'.state p).trans (h.state p)
  pid p := (h'.pid p).trans (h.pid p)
  parent p := (h'.parent p).trans (h.parent p)
  chan p := (h'.chan p).trans (h.chan p)
  killed p := (h'.killed p).trans (h.killed p)
  nextpid := h'.nextpid.trans h.nextpid
  initproc := h'.initproc.trans h.initproc

theorem sameFaces_setProc {k : Kernel} {p : Slot} {r : Proc} (hst : r.state = (k.proc p).state)
    (hpid : r.pid = (k.proc p).pid) (hpar : r.parent = (k.proc p).parent)
    (hchan : r.chan = (k.proc p).chan) (hk : r.killed = (k.proc p).killed) :
    SameFaces k (k.setProc p r) := by
  refine ⟨?_,?_,?_,?_,?_,rfl,rfl⟩ <;> intro x <;> rw [Kernel.setProc_proc] <;>
    split_ifs with h
  all_goals first | rfl | (subst h; assumption)

theorem sameFaces_setAllotedQ (k : Kernel) (p : Slot) (a : Int × Int) :
    SameFaces k (k.setAllotedQ p a) :=
  sameFaces_setProc rfl rfl rfl rfl rfl

theorem sameFaces_of_proc {k k' : Kernel} (hp : k'.proc = k.proc) (hn : k'.nextpid = k.nextpid)
    (hi : k'.initproc = k.initproc) : SameFaces k k' := by
  refine ⟨?_,?_,?_,?_,?_,hn,hi⟩ <;> intro x <;> rw [hp]

theorem pushBack_cases {k k' : Kernel} {q : Level} {p : Slot} (h : pushBack k q p = .ok k') :
    k' = k ∨ k' = ((k.setAllotedQ p (q.val, backIndex k q)).setCell q (backIndex k q)
      (some p)).setSize q (k.prioQSize q + 1) := by
  unfold pushBack at h
  obtain ⟨found,_,h⟩ := bind_eq_ok.mp h
  cases found with
  | true =>
    cases h
    exact .inl rfl
  | false =>
    simp only [Bool.false_eq_true,if_false] at h
    split_ifs at h
    cases h
    exact .inr rfl

theorem popFront_eq_ok {k k' : Kernel} {q : Level} {a : Option Slot}
    (h : popFront k q = .ok (a,k')) :
    getFront k q = .ok a ∧ k' = (k.setStart q
      (if k.prioQStart q + 1 = maxProcCount then 0 else k.prioQStart q + 1)).setSize q
        (k.prioQSize q - 1) := by
  unfold popFront at h
  split_ifs at h
  obtain ⟨a',ha,h⟩ := bind_eq_ok.mp h
  cases h
  exact ⟨ha,rfl⟩

theorem ageProc_cases {k k' : Kernel} {p : Slot} (h : ageProc k p = .ok k') :
    k' = k ∨ (∃ q, (k.proc p).state = .running ∧ k' = countTick k p q) ∨
      ((k.proc p).state = .runnable ∧ incPrio k p = .ok k') := by
  unfold ageProc at h
  simp only at h
  by_cases hskip : (k.proc p).killed ∨ (k.proc p).pid = 0
  · rw [if_pos hskip] at h
    cases h
    exact .inl rfl
  · rw [if_neg hskip] at h
    by_cases hst : (k.proc p).state = .runnable ∨ (k.proc p).state = .running
    · rw [if_pos hst] at h
      obtain ⟨q,_,h⟩ := bind_eq_ok.mp h
      rcases hst with hst | hst
      · simp only [hst,reduceCtorEq,if_false,true_and] at h
        split_ifs at h
        · exact .inr (.inr ⟨hst,h⟩)
        · cases h
          exact .inl rfl
      · simp only [hst,reduceCtorEq,if_true,false_and,if_false] at h
        cases h
        exact .inr (.inl ⟨q,hst,rfl⟩)
    · rw [if_neg hst] at h
      cases h
      exact .inl rfl

structure Frames (R : Kernel → Kernel → Prop) : Prop where
  refl : ∀ k, R k k
  trans : ∀ {k k' k''}, R k k' → R k' k'' → R k k''
  queue : ∀ {k k'}, k'.proc = k.proc → k'.nextpid = k.nextpid → k'.initproc = k.initproc →
    k'.ticks = k.ticks → R k k'
  allot : ∀ k p a, R k (k.setAllotedQ p a)

namespace Frames
variable {R : Kernel → Kernel → Prop} {k k' : Kernel} {q : Level} {p : Slot}

theorem foldlM {α : Type} {f : Kernel → α → Except Halt Kernel} (hR : Frames R)
    (hf : ∀ k a k', f k a = .ok k' → R k k') (l : List α) (h : l.foldlM f k = .ok k') : R k k' :=
  foldlM_preserves (R k) (fun s a t hs ht => hR.trans hs (hf s a t ht)) l (hR.refl k) h

theorem pushBack (hR : Frames R) (h : pushBack k q p = .ok k') : R k k' := by
  rcases pushBack_cases h with rfl | rfl
  · exact hR.refl _
  · exact hR.trans (hR.allot k p _) (hR.queue rfl rfl rfl rfl)

theorem popFront (hR : Frames R) {a : Option Slot} (h : popFront k q = .ok (a,k')) : R k k' := by
  obtain ⟨_,rfl⟩ := popFront_eq_ok h
  exact hR.queue rfl rfl rfl rfl

theorem closeGap (hR : Frames R) {b : Int} (n : Nat) :
    ∀ {i : Int} {k k' : Kernel}, closeGap q b n i k = .ok k' → R k k' := by
  induction n with
  | zero =>
    intro i k k' h
    cases h
  | succ n ih =>
    intro i k k' h
    unfold Xv6.closeGap at h
    split_ifs at h
    · cases h
      exact hR.refl _
    · obtain ⟨c,_,h⟩ := bind_eq_ok.mp h
      cases c with
      | none => cases h
      | some r =>
        have hc : R k (k.setCell q i (some r)) := hR.queue rfl rfl rfl rfl
        exact hR.trans (hR.trans hc (hR.allot _ r _)) (ih h)

theorem deleteIdx (hR : Frames R) {i : Int} (h : deleteIdx k q i = .ok k') : R k k' := by
  unfold Xv6.deleteIdx at h
  obtain ⟨c,_,h⟩ := bind_eq_ok.mp h
  cases c with
  | none => cases h
  | some r =>
    have hc : R k ((k.setCell q i none).setSize q (k.prioQSize q - 1)) := hR.queue rfl rfl rfl rfl
    exact hR.trans hc (hR.closeGap _ h)

theorem incPrio (hR : Frames R) (h : incPrio k p = .ok k') : R k k' := by
  unfold Xv6.incPrio at h
  simp only at h
  split_ifs at h
  obtain ⟨q,_,h⟩ := bind_eq_ok.mp h
  obtain ⟨k1,hd,h⟩ := bind_eq_ok.mp h
  split_ifs at h
  · exact hR.trans (hR.deleteIdx hd) (hR.pushBack h)
  · obtain ⟨dest,_,h⟩ := bind_eq_ok.mp h
    exact hR.trans (hR.deleteIdx hd) (hR.pushBack h)

theorem ageProc (hR : Frames R) (hcount : ∀ q, R k (countTick k p q)) (h : ageProc k p = .ok k') :
    R k k' := by
  rcases ageProc_cases h with rfl | ⟨q,_,rfl⟩ | ⟨_,h⟩
  · exact hR.refl _
  · exact hcount q
  · exact hR.incPrio h

theorem refill (hR : Frames R) (h : refill k p = .ok k') : R k k' := by
  unfold Xv6.refill at h
  split_ifs at h
  · obtain ⟨q,_,h⟩ := bind_eq_ok.mp h
    split_ifs at h
    · exact hR.pushBack h
    · cases h
      exact hR.refl _
  · cases h
    exact hR.refl _

theorem discardDead (hR : Frames R) (n : Nat) :
    ∀ {k k' : Kernel} {a : Option Slot}, discardDead q n k = .ok (a,k') → R k k' := by
  induction n with
  | zero =>
    intro k k' a h
    unfold Xv6.discardDead at h
    split_ifs at h
    cases h
    exact hR.refl _
  | succ n ih =>
    intro k k' a h
    unfold Xv6.discardDead at h
    split_ifs at h
    · cases h
      exact hR.refl _
    · obtain ⟨c,_,h⟩ := bind_eq_ok.mp h
      split_ifs at h
      · obtain ⟨⟨d,k1⟩,hp,h⟩ := bind_eq_ok.mp h
        exact hR.trans (hR.popFront hp) (ih h)
      · cases h
        exact hR.refl _

theorem selectMlfq (hR : Frames R) {a : Option Slot} (h : selectMlfq k = .ok (a,k')) : R k k' := by
  unfold Xv6.selectMlfq at h
  obtain ⟨k1,hr,h⟩ := bind_eq_ok.mp h
  have hs : R k1 k' := by
    refine foldlM_preserves (fun f : Option Slot × Kernel => R k1 f.2) ?_ _ (hR.refl k1) h
    rintro ⟨d,k2⟩ q ⟨d',k3⟩ hk hq
    cases d with
    | some p =>
      cases hq
      exact hk
    | none => exact hR.trans hk (hR.discardDead _ hq)
  exact hR.trans (hR.foldlM (fun _ _ _ => hR.refill) _ hr) hs

theorem decPrio (hR : Frames R) {retain : Bool}
    (hstamp : R k (k.setProc p { k.proc p with latestQTime := k.ticks }))
    (h : decPrio k p retain = .ok k') : R k k' := by
  unfold Xv6.decPrio at h
  simp only at h
  split_ifs at h
  · obtain ⟨q,_,h⟩ := bind_eq_ok.mp h
    exact hR.trans hstamp (hR.pushBack h)
  · obtain ⟨q,_,h⟩ := bind_eq_ok.mp h
    exact hR.trans hstamp (hR.pushBack h)

theorem requeue (hR : Frames R)
    (hstamp : R k (k.setProc p { k.proc p with latestQTime := k.ticks }))
    (h : requeue k p = .ok k') : R k k' := by
  unfold Xv6.requeue at h
  obtain ⟨q,_,h⟩ := bind_eq_ok.mp h
  simp only at h
  split_ifs at h
  · exact hR.decPrio hstamp h
  · exact hR.decPrio hstamp h
  · cases h
    exact hR.refl _

end Frames

theorem sameFaces_frames : Frames SameFaces :=
  ⟨.refl,.trans,fun hp hn hi _ => sameFaces_of_proc hp hn hi,sameFaces_setAllotedQ⟩

theorem pushBack_faces {k k' : Kernel} {q : Level} {p : Slot} (h : pushBack k q p = .ok k') :
    SameFaces k k' :=
  sameFaces_frames.pushBack h

theorem popFront_faces {k k' : Kernel} {q : Level} {a : Option Slot}
    (h : popFront k q = .ok (a,k')) : SameFaces k k' :=
  sameFaces_frames.popFront h

theorem deleteIdx_faces {k k' : Kernel} {q : Level} {i : Int} (h : deleteIdx k q i = .ok k') :
    SameFaces k k' :=
  sameFaces_frames.deleteIdx h

theorem ageProc_faces {k k' : Kernel} {p : Slot} (h : ageProc k p = .ok k') : SameFaces k k' :=
  sameFaces_frames.ageProc (fun _ => sameFaces_setProc rfl rfl rfl rfl rfl) h

theorem foldlM_faces {α : Type} {f : Kernel → α → Except Halt Kernel}
    (hf : ∀ k a k', f k a = .ok k' → SameFaces k k') (l : List α) {k k' : Kernel}
    (h : l.foldlM f k = .ok k') : SameFaces k k' :=
  sameFaces_frames.foldlM hf l h

theorem updateStatsAndAging_faces {k k' : Kernel} (h : updateStatsAndAging k = .ok k') :
    SameFaces k k' := by
  have ht : SameFaces k { k with ticks := k.ticks + 1 } := sameFaces_of_proc rfl rfl rfl
  exact ht.trans (foldlM_faces (fun _ _ _ => ageProc_faces) allSlots h)

theorem selectMlfq_faces {k k' : Kernel} {a : Option Slot} (h : selectMlfq k = .ok (a,k')) :
    SameFaces k k' :=
  sameFaces_frames.selectMlfq h

theorem requeue_faces {k k' : Kernel} {p : Slot} (h : requeue k p = .ok k') : SameFaces k k' :=
  sameFaces_frames.requeue (sameFaces_setProc rfl rfl rfl rfl rfl) h

end Xv6
