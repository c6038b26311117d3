import OscAssignments.Xv6.Frame

namespace Xv6
open Runs

structure Wakes (k k' : Kernel) : Prop where
  state : ∀ p, (k'.proc p).state = (k.proc p).state ∨
    (k.proc p).state = .sleeping ∧ (k'.proc p).state = .runnable
  pid : ∀ p, (k'.proc p).pid = (k.proc p).pid
  chan : ∀ p, (k'.proc p).chan = (k.proc p).chan
  nextpid : k'.nextpid = k.nextpid
  initproc : k'.initproc = k.initproc

theorem SameFaces.wakes {k k' : Kernel} (h : SameFaces k k') : Wakes k k' :=
  ⟨fun p => .inl (h.state p),h.pid,h.chan,h.nextpid,h.initproc⟩

theorem Wakes.refl (k : Kernel) : Wakes k k := (SameFaces.refl k).wakes

theorem Wakes.trans {k k' k'' : Kernel} (h : Wakes k k') (h' : Wakes k' k'') : Wakes k k'' where
  state p := by
    rcases h.state p with hs | ⟨hs,hr⟩
    · rw [← hs]
      exact h'.state p
    · rcases h'.state p with hs' | ⟨hs',_⟩
      · exact .inr ⟨hs,hs'.trans hr⟩
      · rw [hr] at hs'
        cases hs'
  pid p := (h'.pid p).trans (h.pid p)
  chan p := (h'.chan p).trans (h.chan p)
  nextpid := h'.nextpid.trans h.nextpid
  initproc := h'.initproc.trans h.initproc

theorem Wakes.not_sleeping {k k' : Kernel} (h : Wakes k k') {p : Slot}
    (hp : (k.proc p).state ≠ .sleeping) : (k'.proc p).state = (k.proc p).state := by
  rcases h.state p with hs | ⟨hs,_⟩
  · exact hs
  · exact absurd hs hp

theorem Wakes.sleeping {k k' : Kernel} (h : Wakes k k') {p : Slot}
    (hp : (k'.proc p).state = .sleeping) : (k.proc p).state = .sleeping := by
  rcases h.state p with hs | ⟨hs,_⟩
  · rw [← hs]
    exact hp
  · exact hs

theorem Wakes.state_iff {k k' : Kernel} (h : Wakes k k') {p : Slot} {st : ProcState}
    (h1 : st ≠ .sleeping) (h2 : st ≠ .runnable) :
    (k'.proc p).state = st ↔ (k.proc p).state = st := by
  rcases h.state p with hs | ⟨hs,hr⟩
  · rw [hs]
  · rw [hs,hr]
    exact ⟨fun e => absurd e.symm h2,fun e => absurd e.symm h1⟩

theorem enqueueWoken_faces {b : Build} {k k' : Kernel} {p : Slot}
    (h : enqueueWoken b k p = .ok k') : SameFaces k k' := by
  unfold enqueueWoken at h
  split_ifs at h
  · obtain ⟨q,_,h⟩ := bind_eq_ok.mp h
    exact pushBack_faces h
  · cases h
    exact .refl _

structure Woken (ch : Option Chan) (woken : Slot → Prop) (k k' : Kernel) : Prop extends
    Wakes k k' where
  parent : ∀ p, (k'.proc p).parent = (k.proc p).parent
  killed : ∀ p, (k'.proc p).killed = (k.proc p).killed
  awake : ∀ p, woken p → (k.proc p).chan = ch → (k'.proc p).state ≠ .sleeping
  kept : ∀ p, (k.proc p).chan ≠ ch → (k'.proc p).state = (k.proc p).state

theorem wakeProc_woken {b : Build} {chan : Option Chan} {k k' : Kernel} {p : Slot}
    (h : wakeProc b chan k p = .ok k') : Woken chan (· = p) k k' := by
  unfold wakeProc at h
  split_ifs at h with hs
  · obtain ⟨k1,hq,h⟩ := bind_eq_ok.mp h
    cases h
    have hf := enqueueWoken_faces hq
    refine ⟨⟨?_,?_,?_,hf.nextpid,hf.initproc⟩,?_,?_,?_,?_⟩ <;> intro x
    · by_cases hx : x = p <;> simp [Kernel.setState,hx,hs.1,hf.state]
    · by_cases hx : x = p <;> simp [Kernel.setState,hx,hf.pid]
    · by_cases hx : x = p <;> simp [Kernel.setState,hx,hf.chan]
    · by_cases hx : x = p <;> simp [Kernel.setState,hx,hf.parent]
    · by_cases hx : x = p <;> simp [Kernel.setState,hx,hf.killed]
    · rintro rfl _
      simp [Kernel.setState]
    · intro hc
      have hx : x ≠ p := fun e => hc (e ▸ hs.2)
      simp [Kernel.setState,hx,hf.state]
  · cases h
    refine ⟨.refl _,fun _ => rfl,fun _ => rfl,?_,fun _ _ => rfl⟩
    rintro x rfl hc he
    exact hs ⟨he,hc⟩

theorem wakeup1_woken {b : Build} {k k' : Kernel} {chan : Option Chan}
    (h : wakeup1 b k chan = .ok k') : Woken chan (fun _ => True) k k' := by
  have hI : Woken chan (· ∈ allSlots) k k' := by
    refine foldlM_rule (fun pre t => Woken chan (· ∈ pre) k t) ?_ allSlots ?_ h
    · intro pre s a t hs ht
      have hw := wakeProc_woken ht
      refine ⟨hs.toWakes.trans hw.toWakes,?_,?_,?_,?_⟩ <;> intro x
      · exact (hw.parent x).trans (hs.parent x)
      · exact (hw.killed x).trans (hs.killed x)
      · intro hx hc he
        rcases List.mem_append.mp hx with hx | hx
        · exact hs.awake x hx hc (hw.toWakes.sleeping he)
        · exact hw.awake x (by simpa using hx) ((hs.chan x).trans hc) he
      · intro hc
        exact (hw.kept x (by rwa [hs.chan x])).trans (hs.kept x hc)
    · exact ⟨.refl k,fun _ => rfl,fun _ => rfl,fun _ hx => by simp at hx,fun _ _ => rfl⟩
  exact ⟨hI.toWakes,hI.parent,hI.killed,fun p _ => hI.awake p (mem_allSlots p),hI.kept⟩

structure Abandoned (curproc : Slot) (done : Slot → Prop) (k k' : Kernel) : Prop extends
    Wakes k k' where
  parent : ∀ p, done p → (k'.proc p).parent =
    if (k.proc p).parent = some curproc then k.initproc else (k.proc p).parent
  parent_rest : ∀ p, ¬ done p → (k'.proc p).parent = (k.proc p).parent
  killed : ∀ p, (k'.proc p).killed = (k.proc p).killed
  awake : ∀ z, done z → (k.proc z).parent = some curproc → (k.proc z).state = .zombie →
    ∀ p, (k.proc p).chan = k.initproc.map .proc → (k'.proc p).state ≠ .sleeping
  kept : ∀ p, (k.proc p).chan ≠ k.initproc.map .proc → (k'.proc p).state = (k.proc p).state

theorem abandonChild_abandoned {b : Build} {curproc : Slot} {k k' : Kernel} {p : Slot}
    (h : abandonChild b curproc k p = .ok k') : Abandoned curproc (· = p) k k' := by
  unfold abandonChild at h
  simp only at h
  by_cases hc : (k.proc p).parent = some curproc
  · rw [if_pos hc] at h
    set k1 := k.setProc p { k.proc p with parent := k.initproc } with hk1
    have hp1 : ∀ x, (k1.proc x).parent = if x = p then k.initproc else (k.proc x).parent := by
      intro x
      by_cases hx : x = p <;> simp [hk1,hx]
    have hs1 : ∀ x, (k1.proc x).state = (k.proc x).state := by
      intro x
      by_cases hx : x = p <;> simp [hk1,hx]
    have hw1 : Wakes k k1 := by
      refine ⟨fun x => .inl (hs1 x),?_,?_,rfl,rfl⟩ <;> intro x <;>
        by_cases hx : x = p <;> simp [hk1,hx]
    have hd1 : ∀ x, (k1.proc x).killed = (k.proc x).killed := by
      intro x
      by_cases hx : x = p <;> simp [hk1,hx]
    clear_value k1
    by_cases hz : (k1.proc p).state = .zombie
    · rw [if_pos hz,hw1.initproc] at h
      have hw := wakeup1_woken h
      refine ⟨hw1.trans hw.toWakes,?_,?_,?_,?_,?_⟩
      · rintro x rfl
        rw [hw.parent,hp1,if_pos rfl,if_pos hc]
      · intro x hx
        rw [hw.parent,hp1,if_neg hx]
      · intro x
        rw [hw.killed,hd1]
      · intro z _ _ _ x hx
        exact hw.awake x trivial ((hw1.chan x).trans hx)
      · intro x hx
        rw [hw.kept x (by rwa [hw1.chan x]),hs1]
    · rw [if_neg hz] at h
      cases h
      refine ⟨hw1,?_,?_,hd1,?_,fun x _ => hs1 x⟩
      · rintro x rfl
        rw [hp1,if_pos rfl,if_pos hc]
      · intro x hx
        rw [hp1,if_neg hx]
      · rintro z rfl _ hzz
        exact absurd ((hs1 z).trans hzz) hz
  · rw [if_neg hc] at h
    cases h
    refine ⟨.refl _,?_,fun _ _ => rfl,fun _ => rfl,?_,fun _ _ => rfl⟩
    · rintro x rfl
      rw [if_neg hc]
    · rintro z rfl hz
      exact absurd hz hc

theorem Abandoned.snoc {curproc a : Slot} {pre : List Slot} {k s t : Kernel}
    (hs : Abandoned curproc (· ∈ pre) k s) (ha : Abandoned curproc (· = a) s t) :
    Abandoned curproc (· ∈ pre ++ [a]) k t := by
  have hw := hs.toWakes.trans ha.toWakes
  refine ⟨hw,?_,?_,?_,?_,?_⟩
  · intro x hx
    by_cases hxa : x = a
    · rw [ha.parent x hxa,hs.initproc]
      by_cases hp : x ∈ pre
      · rw [hs.parent x hp]
        split_ifs <;> simp_all
      · rw [hs.parent_rest x hp]
    · have hp : x ∈ pre := by simpa [hxa] using hx
      rw [ha.parent_rest x hxa,hs.parent x hp]
  · intro x hx
    simp only [List.mem_append,List.mem_singleton,not_or] at hx
    rw [ha.parent_rest x hx.2,hs.parent_rest x hx.1]
  · intro x
    rw [ha.killed,hs.killed]
  · intro z hz hpar hzom x hc
    by_cases hp : z ∈ pre
    · intro he
      exact hs.awake z hp hpar hzom x hc (ha.toWakes.sleeping he)
    · have hza : z = a := by simpa [hp] using hz
      refine ha.awake z hza ?_ ?_ x ?_
      · rw [hs.parent_rest z hp,hpar]
      · exact (hs.toWakes.state_iff (by decide) (by decide)).mpr hzom
      · rw [hs.chan,hs.initproc,hc]
  · intro x hc
    rw [ha.kept x (by rwa [hs.chan,hs.initproc]),hs.kept x hc]

theorem abandonChildren_abandoned {b : Build} {curproc : Slot} {k k' : Kernel}
    (h : allSlots.foldlM (abandonChild b curproc) k = .ok k') :
    Abandoned curproc (· ∈ allSlots) k k' := by
  refine foldlM_rule (fun pre t => Abandoned curproc (· ∈ pre) k t) ?_ allSlots ?_ h
  · intro pre s a t hs ht
    exact hs.snoc (abandonChild_abandoned ht)
  · exact ⟨.refl k,fun _ hx => by simp at hx,fun _ _ => rfl,fun _ => rfl,
      fun _ hx => by simp at hx,fun _ _ => rfl⟩

structure Exited (curproc : Slot) (k k' : Kernel) : Prop where
  self : (k'.proc curproc).state = .zombie
  others : ∀ p, p ≠ curproc → (k'.proc p).state = (k.proc p).state ∨
    (k.proc p).state = .sleeping ∧ (k'.proc p).state = .runnable
  pid : ∀ p, (k'.proc p).pid = (k.proc p).pid
  chan : ∀ p, (k'.proc p).chan = (k.proc p).chan
  parent : ∀ p, (k'.proc p).parent =
    if (k.proc p).parent = some curproc then k.initproc else (k.proc p).parent
  killed : ∀ p, (k'.proc p).killed = (k.proc p).killed
  nextpid : k'.nextpid = k.nextpid
  initproc : k'.initproc = k.initproc
  awake_parent : ∀ p, (k.proc p).chan = (k.proc curproc).parent.map .proc →
    (k'.proc p).state ≠ .sleeping
  awake_init : ∀ z, (k.proc z).parent = some curproc → (k.proc z).state = .zombie →
    ∀ p, (k.proc p).chan = k.initproc.map .proc → (k'.proc p).state ≠ .sleeping

theorem exit_exited {b : Build} {k k' : Kernel} {curproc : Slot} (h : exit b k curproc = .ok k') :
    k.initproc ≠ some curproc ∧ Exited curproc k k' := by
  unfold exit at h
  split_ifs at h with hinit
  simp only at h
  have h0 : SameFaces k (k.setProc curproc { k.proc curproc with etime := k.ticks }) :=
    sameFaces_setProc rfl rfl rfl rfl rfl
  generalize k.setProc curproc { k.proc curproc with etime := k.ticks } = k0 at h h0
  obtain ⟨k1,hw,h⟩ := bind_eq_ok.mp h
  obtain ⟨k2,ha,h⟩ := bind_eq_ok.mp h
  cases h
  have hw := wakeup1_woken hw
  have ha := abandonChildren_abandoned ha
  have hk := (h0.wakes.trans hw.toWakes).trans ha.toWakes
  have hst : ∀ x, x ≠ curproc → ((k2.setState curproc .zombie).proc x).state =
      (k2.proc x).state := by
    intro x hx
    simp [Kernel.setState,hx]
  have hne : ∀ x, (k2.proc x).state ≠ .sleeping →
      ((k2.setState curproc .zombie).proc x).state ≠ .sleeping := by
    intro x hx
    by_cases hc : x = curproc
    · simp [Kernel.setState,hc]
    · rwa [hst x hc]
  refine ⟨hinit,?_,?_,?_,?_,?_,?_,hk.nextpid,hk.initproc,?_,?_⟩
  · simp [Kernel.setState]
  · intro x hx
    rw [hst x hx]
    exact hk.state x
  · intro x
    by_cases hx : x = curproc <;> simp [Kernel.setState,hx,hk.pid]
  · intro x
    by_cases hx : x = curproc <;> simp [Kernel.setState,hx,hk.chan]
  · intro x
    have hpar : (k2.proc x).parent =
        if (k.proc x).parent = some curproc then k.initproc else (k.proc x).parent := by
      rw [ha.parent x (mem_allSlots x),hw.parent,h0.parent,hw.initproc,h0.initproc]
    rcases eq_or_ne x curproc with rfl | hx
    · simpa [Kernel.setState] using hpar
    · simpa [Kernel.setState,hx] using hpar
  · intro x
    have hkill : (k2.proc x).killed = (k.proc x).killed := by
      rw [ha.killed,hw.killed,h0.killed]
    rcases eq_or_ne x curproc with rfl | hx
    · simpa [Kernel.setState] using hkill
    · simpa [Kernel.setState,hx] using hkill
  · intro x hc
    apply hne
    intro he
    refine hw.awake x trivial ?_ (ha.toWakes.sleeping he)
    rw [h0.chan,h0.parent,hc]
  · intro z hpar hz x hc
    apply hne
    refine ha.awake z (mem_allSlots z) ?_ ?_ x ?_
    · rw [hw.parent,h0.parent,hpar]
    · rw [hw.toWakes.state_iff (by decide) (by decide),h0.state,hz]
    · rw [hw.chan,h0.chan,hw.initproc,h0.initproc,hc]

theorem setupProc_faces {b : Build} {k k' : Kernel} {p : Slot} (h : setupProc b k p = .ok k') :
    SameFaces k k' := by
  unfold setupProc at h
  simp only at h
  have h0 : SameFaces k (if b = .pbs then
      k.setProc p { k.proc p with priority := defaultPriority } else k) := by
    split_ifs
    · exact sameFaces_setProc rfl rfl rfl rfl rfl
    · exact .refl _
  generalize (if b = .pbs then
      k.setProc p { k.proc p with priority := defaultPriority } else k) = k0 at h h0
  unfold initProcMyStyle at h
  split_ifs at h
  · cases h
    exact h0
  · obtain ⟨k1,hq,h⟩ := bind_eq_ok.mp h
    cases h
    have h1 : SameFaces k0 k1 := by
      unfold enqueueNew at hq
      split_ifs at hq
      · obtain ⟨k2,hp,hq⟩ := bind_eq_ok.mp hq
        cases hq
        exact (pushBack_faces hp).trans (sameFaces_setProc rfl rfl rfl rfl rfl)
      · cases hq
        exact .refl _
    exact (h0.trans h1).trans (sameFaces_setProc rfl rfl rfl rfl rfl)

section Fields
variable (k : Kernel) (p x : Slot)

theorem takeSlot_state :
    ((takeSlot k p).proc x).state = if x = p then .embryo else (k.proc x).state := by
  by_cases hx : x = p <;> simp [takeSlot,hx]

theorem takeSlot_pid :
    ((takeSlot k p).proc x).pid = if x = p then k.nextpid else (k.proc x).pid := by
  by_cases hx : x = p <;> simp [takeSlot,hx]

theorem takeSlot_parent : ((takeSlot k p).proc x).parent = (k.proc x).parent := by
  by_cases hx : x = p <;> simp [takeSlot,hx]

theorem takeSlot_chan : ((takeSlot k p).proc x).chan = (k.proc x).chan := by
  by_cases hx : x = p <;> simp [takeSlot,hx]

theorem reap_state :
    ((reap k p).proc x).state = if x = p then .unused else (k.proc x).state := by
  by_cases hx : x = p <;> simp [reap,hx]

theorem reap_pid : ((reap k p).proc x).pid = if x = p then 0 else (k.proc x).pid := by
  by_cases hx : x = p <;> simp [reap,hx]

theorem reap_parent :
    ((reap k p).proc x).parent = if x = p then none else (k.proc x).parent := by
  by_cases hx : x = p <;> simp [reap,hx]

end Fields

structure Touches (p : Slot) (k k' : Kernel) : Prop where
  others : ∀ x, x ≠ p → (k'.proc x).state = (k.proc x).state ∨
    (k.proc x).state = .sleeping ∧ (k'.proc x).state = .runnable
  pid : ∀ x, (k'.proc x).pid = (k.proc x).pid
  nextpid : k'.nextpid = k.nextpid

theorem Touches.state_of_ne {p x : Slot} {k k' : Kernel} (h : Touches p k k') (hx : x ≠ p)
    (hs : (k.proc x).state ≠ .sleeping) : (k'.proc x).state = (k.proc x).state := by
  rcases h.others x hx with he | ⟨he,_⟩
  · exact he
  · exact absurd he hs

theorem SameFaces.touches {p : Slot} {k k' k'' : Kernel} (h : SameFaces k k')
    (h' : Touches p k' k'') : Touches p k k'' where
  others x hx := by
    rw [← h.state x]
    exact h'.others x hx
  pid x := (h'.pid x).trans (h.pid x)
  nextpid := h'.nextpid.trans h.nextpid

theorem Exited.touches {p : Slot} {k k' : Kernel} (h : Exited p k k') : Touches p k k' :=
  ⟨h.others,h.pid,h.nextpid⟩

theorem touches_setProc {p : Slot} {k : Kernel} {r : Proc} (hr : r.pid = (k.proc p).pid) :
    Touches p k (k.setProc p r) := by
  refine ⟨?_,?_,rfl⟩
  · intro x hx
    simp [hx]
  · intro x
    by_cases hx : x = p <;> simp [hx,hr]

end Xv6
