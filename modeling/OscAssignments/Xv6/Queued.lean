import OscAssignments.Xv6.Aging

namespace Xv6
open Runs

structure KQ (k : Kernel) (L : Queues) : Prop extends QOk k L where
  off : ∀ q, ∀ p ∈ L q, (k.proc p).state ≠ .running ∧ (k.proc p).state ≠ .zombie
  young : ∀ q, ∀ p ∈ L q, (k.proc p).state = .unused ∨ (k.proc p).state = .embryo → q = 0

structure SameQueues (k k' : Kernel) : Prop where
  prioQ : k'.prioQ = k.prioQ
  prioQSize : k'.prioQSize = k.prioQSize
  prioQStart : k'.prioQStart = k.prioQStart
  alloted : ∀ p, (k'.proc p).stat.allotedQ = (k.proc p).stat.allotedQ

theorem sameQueues_setProc {k : Kernel} {p : Slot} {r : Proc}
    (hr : r.stat.allotedQ = (k.proc p).stat.allotedQ) : SameQueues k (k.setProc p r) := by
  refine ⟨rfl,rfl,rfl,?_⟩
  intro x
  by_cases hx : x = p <;> simp [hx,hr]

theorem SameQueues.refl (k : Kernel) : SameQueues k k := ⟨rfl,rfl,rfl,fun _ => rfl⟩

theorem QOk.sameQueues {k k' : Kernel} {L : Queues} (h : QOk k L) (hs : SameQueues k k')
    (hpid : ∀ q, ∀ p ∈ L q, 0 < (k'.proc p).pid) : QOk k' L :=
  h.frame hs.prioQ hs.prioQSize hs.prioQStart hs.alloted hpid

namespace KQ
variable {k k' : Kernel} {L : Queues} {q : Level} {p : Slot}

theorem sameQueues (h : KQ k L) (hs : SameQueues k k')
    (hpid : ∀ q, ∀ x ∈ L q, 0 < (k'.proc x).pid)
    (hoff : ∀ q, ∀ x ∈ L q, (k'.proc x).state ≠ .running ∧ (k'.proc x).state ≠ .zombie)
    (hyoung : ∀ q, ∀ x ∈ L q, (k'.proc x).state = .unused ∨ (k'.proc x).state = .embryo →
      q = 0) : KQ k' L :=
  ⟨h.toQOk.sameQueues hs hpid,hoff,hyoung⟩

theorem faces (h : KQ k L) (hs : SameQueues k k') (hf : SameFaces k k') : KQ k' L := by
  refine h.sameQueues hs ?_ ?_ ?_ <;> intro q x hx
  · rw [hf.pid]
    exact h.pid q x hx
  · rw [hf.state]
    exact h.off q x hx
  · rw [hf.state]
    exact h.young q x hx

theorem offQueue (h : KQ k L) {r : Proc} (hs : r.stat.allotedQ = (k.proc p).stat.allotedQ)
    (hp : ∀ q, p ∉ L q) : KQ (k.setProc p r) L := by
  have hne : ∀ q, ∀ x ∈ L q, x ≠ p := by
    rintro q x hx rfl
    exact hp q hx
  refine h.sameQueues (sameQueues_setProc hs) ?_ ?_ ?_ <;> intro q x hx
  · simpa [hne q x hx] using h.pid q x hx
  · simpa [hne q x hx] using h.off q x hx
  · simpa [hne q x hx] using h.young q x hx

theorem setProc (h : KQ k L) {r : Proc} (hs : r.stat.allotedQ = (k.proc p).stat.allotedQ)
    (hpid : r.pid = (k.proc p).pid)
    (hst : r.state = .runnable ∨ r.state = .sleeping ∨ r.state = (k.proc p).state) :
    KQ (k.setProc p r) L := by
  have hpx : ∀ x, ((k.setProc p r).proc x).pid = (k.proc x).pid := by
    intro x
    by_cases hx : x = p <;> simp [hx,hpid]
  have hsx : ∀ x, ((k.setProc p r).proc x).state = .runnable ∨
      ((k.setProc p r).proc x).state = .sleeping ∨
      ((k.setProc p r).proc x).state = (k.proc x).state := by
    intro x
    by_cases hx : x = p
    · simpa [hx] using hst
    · simp [hx]
  refine h.sameQueues (sameQueues_setProc hs) ?_ ?_ ?_ <;> intro q x hx
  · rw [hpx]
    exact h.pid q x hx
  · rcases hsx x with e | e | e <;> rw [e]
    · decide
    · decide
    · exact h.off q x hx
  · rcases hsx x with e | e | e <;> rw [e]
    · simp
    · simp
    · exact h.young q x hx

theorem pushed (h : KQ k L) (hp : ∀ r, p ∉ L r) (hpid : 0 < (k.proc p).pid)
    (hoff : (k.proc p).state ≠ .running ∧ (k.proc p).state ≠ .zombie)
    (hyoung : (k.proc p).state = .unused ∨ (k.proc p).state = .embryo → q = 0) :
    KQ (Xv6.pushed k q p) (Function.update L q (L q ++ [p])) := by
  have hf := pushed_faces k q p
  have hmem : ∀ r x, x ∈ Function.update L q (L q ++ [p]) r → x ∈ L r ∨ r = q ∧ x = p := by
    intro r x hx
    rcases eq_or_ne r q with rfl | hr
    · rw [Function.update_self,List.mem_append,List.mem_singleton] at hx
      exact hx.imp_right fun e => ⟨rfl,e⟩
    · rw [Function.update_of_ne hr] at hx
      exact .inl hx
  refine ⟨h.toQOk.pushed hp hpid,?_,?_⟩ <;> intro r x hx <;> rw [hf.state] <;>
    rcases hmem r x hx with hx | ⟨rfl,rfl⟩
  · exact h.off r x hx
  · exact hoff
  · exact h.young r x hx
  · exact hyoung

theorem pushBack (h : KQ k L) (hk : PidOk k) (hlev : ∀ r, p ∈ L r → r = q)
    (hpid : 0 < (k.proc p).pid)
    (hoff : (k.proc p).state ≠ .running ∧ (k.proc p).state ≠ .zombie)
    (hyoung : (k.proc p).state = .unused ∨ (k.proc p).state = .embryo → q = 0) :
    ∃ k' L', Xv6.pushBack k q p = .ok k' ∧ KQ k' L' ∧ p ∈ L' q ∧
      (∀ r, ∀ x ∈ L r, x ∈ L' r) ∧ ∀ r, ∀ x ∈ L' r, x ∈ L r ∨ x = p := by
  have hpush := h.toQOk.pushBack_eq (q := q) (p := p) fun x hx => hk.inj x p hx (by omega)
  by_cases hp : p ∈ L q
  · rw [if_pos hp] at hpush
    exact ⟨k,L,hpush,h,hp,fun _ _ hx => hx,fun _ _ hx => .inl hx⟩
  · rw [if_neg hp] at hpush
    have hnot : ∀ r, p ∉ L r := by
      intro r hr
      exact hp (hlev r hr ▸ hr)
    refine ⟨_,_,hpush,h.pushed hnot hpid hoff hyoung,by simp,?_,?_⟩
    · intro r x hx
      rcases eq_or_ne r q with rfl | hr
      · simp [hx]
      · simpa [hr] using hx
    · intro r x hx
      rcases eq_or_ne r q with rfl | hr
      · simpa using hx
      · left
        simpa [hr] using hx

end KQ

structure Wakeful (k : Kernel) (L : Queues) (k' : Kernel) (L' : Queues) : Prop extends
    Wakes k k' where
  ok : KQ k' L'
  old : ∀ q, ∀ p ∈ L q, p ∈ L' q
  new : ∀ q, ∀ p ∈ L' q, p ∈ L q ∨ (k.proc p).state = .sleeping
  woken : ∀ p, (k'.proc p).state = .runnable → (k.proc p).state = .runnable ∨ ∃ q, p ∈ L' q

namespace Wakeful
variable {k k' k'' : Kernel} {L L' L'' : Queues}

theorem of_same (h : KQ k L) (hs : SameQueues k k') (hw : Wakes k k')
    (hst : ∀ p, (k'.proc p).state = (k.proc p).state) : Wakeful k L k' L where
  toWakes := hw
  ok := by
    refine h.sameQueues hs ?_ ?_ ?_ <;> intro q x hx
    · rw [hw.pid]
      exact h.pid q x hx
    · rw [hst]
      exact h.off q x hx
    · rw [hst]
      exact h.young q x hx
  old _ _ hp := hp
  new _ _ hp := .inl hp
  woken p hp := .inl (hst p ▸ hp)

theorem refl (h : KQ k L) : Wakeful k L k L := of_same h (.refl _) (.refl _) fun _ => rfl

theorem trans (h : Wakeful k L k' L') (h' : Wakeful k' L' k'' L'') : Wakeful k L k'' L'' where
  toWakes := h.toWakes.trans h'.toWakes
  ok := h'.ok
  old q p hp := h'.old q p (h.old q p hp)
  new q p hp := by
    rcases h'.new q p hp with hp | hp
    · exact h.new q p hp
    · exact .inr (h.toWakes.sleeping hp)
  woken p hp := by
    rcases h'.woken p hp with hp | hp
    · exact (h.woken p hp).imp_right fun ⟨q,hq⟩ => ⟨q,h'.old q p hq⟩
    · exact .inr hp

end Wakeful

theorem wakeProc_wakeful {k k' : Kernel} {L : Queues} {chan : Option Chan} {p : Slot}
    (hk : PidOk k) (h : KQ k L) (hw : wakeProc .mlfq chan k p = .ok k') :
    ∃ L', Wakeful k L k' L' := by
  have hwakes := (wakeProc_woken hw).toWakes
  unfold wakeProc at hw
  split_ifs at hw with hs
  · obtain ⟨k1,hq,hw⟩ := bind_eq_ok.mp hw
    cases hw
    unfold enqueueWoken at hq
    rw [if_pos rfl] at hq
    obtain ⟨q,hlevel,hq⟩ := bind_eq_ok.mp hq
    have hidx := level_eq_ok.mp hlevel
    have hlev : ∀ r, p ∈ L r → r = q := by
      intro r hr
      have := (h.toQOk.idx hr).symm.trans hidx
      exact Fin.ext (by exact_mod_cast this)
    have hpos := hk.pos p (by simp [hs.1])
    obtain ⟨k2,L',hpush,hok,hmem,hold,hnew⟩ :=
      h.pushBack hk hlev hpos (by simp [hs.1]) (by simp [hs.1])
    rw [hq] at hpush
    cases hpush
    have hf := pushBack_faces hq
    refine ⟨L',hwakes,?_,hold,?_,?_⟩
    · exact hok.setProc rfl rfl (.inl rfl)
    · intro r x hx
      rcases hnew r x hx with hx | rfl
      · exact .inl hx
      · exact .inr hs.1
    · intro x hx
      by_cases hxp : x = p
      · exact .inr ⟨q,hxp ▸ hmem⟩
      · left
        rw [← hf.state x]
        simpa [Kernel.setState,hxp] using hx
  · cases hw
    exact ⟨L,.refl h⟩

theorem wakeup1_wakeful {k k' : Kernel} {L : Queues} {chan : Option Chan} (hk : PidOk k)
    (h : KQ k L) (hw : wakeup1 .mlfq k chan = .ok k') : ∃ L', Wakeful k L k' L' := by
  refine foldlM_preserves (fun s => ∃ L', Wakeful k L s L') ?_ allSlots
    ⟨L,.refl h⟩ hw
  rintro s a t ⟨L1,h1⟩ ht
  obtain ⟨L2,h2⟩ := wakeProc_wakeful (hk.wakes h1.toWakes) h1.ok ht
  exact ⟨L2,h1.trans h2⟩

theorem abandonChild_wakeful {k k' : Kernel} {L : Queues} {curproc p : Slot} (hk : PidOk k)
    (h : KQ k L) (ha : abandonChild .mlfq curproc k p = .ok k') : ∃ L', Wakeful k L k' L' := by
  unfold abandonChild at ha
  simp only at ha
  split_ifs at ha with hc hz
  · set k1 := k.setProc p { k.proc p with parent := k.initproc } with hk1
    have hst : ∀ x, (k1.proc x).state = (k.proc x).state := by
      intro x
      by_cases hx : x = p <;> simp [hk1,hx]
    have hw1 : Wakes k k1 := by
      refine ⟨fun x => .inl (hst x),?_,?_,rfl,rfl⟩ <;> intro x <;>
        by_cases hx : x = p <;> simp [hk1,hx]
    have hq1 : SameQueues k k1 := sameQueues_setProc rfl
    have h1 := Wakeful.of_same h hq1 hw1 hst
    obtain ⟨L2,h2⟩ := wakeup1_wakeful (hk.wakes hw1) h1.ok ha
    exact ⟨L2,h1.trans h2⟩
  · cases ha
    have hst : ∀ x, ((k.setProc p { k.proc p with parent := k.initproc }).proc x).state =
        (k.proc x).state := by
      intro x
      by_cases hx : x = p <;> simp [hx]
    refine ⟨L,.of_same h (sameQueues_setProc rfl) ⟨fun x => .inl (hst x),?_,?_,rfl,rfl⟩ hst⟩ <;>
      intro x <;> by_cases hx : x = p <;> simp [hx]
  · cases ha
    exact ⟨L,.refl h⟩

theorem abandonChildren_wakeful {k k' : Kernel} {L : Queues} {curproc : Slot} (hk : PidOk k)
    (h : KQ k L) (ha : allSlots.foldlM (abandonChild .mlfq curproc) k = .ok k') :
    ∃ L', Wakeful k L k' L' := by
  refine foldlM_preserves (fun s => ∃ L', Wakeful k L s L') ?_ allSlots ⟨L,.refl h⟩ ha
  rintro s a t ⟨L1,h1⟩ ht
  obtain ⟨L2,h2⟩ := abandonChild_wakeful (hk.wakes h1.toWakes) h1.ok ht
  exact ⟨L2,h1.trans h2⟩

theorem exit_queues {k k' : Kernel} {L : Queues} {p : Slot} (hk : PidOk k) (h : KQ k L)
    (hp : ∀ q, p ∉ L q) (hrun : (k.proc p).state = .running) (he : exit .mlfq k p = .ok k') :
    ∃ L', KQ k' L' ∧ (∀ q, ∀ x ∈ L q, x ∈ L' q) ∧
      (∀ q, ∀ x ∈ L' q, x ∈ L q ∨ (k.proc x).state = .sleeping) ∧
      ∀ x, (k'.proc x).state = .runnable → (k.proc x).state = .runnable ∨ ∃ q, x ∈ L' q := by
  unfold exit at he
  split_ifs at he
  simp only at he
  have hf : SameFaces k (k.setProc p { k.proc p with etime := k.ticks }) :=
    sameFaces_setProc rfl rfl rfl rfl rfl
  obtain ⟨k1,hw,he⟩ := bind_eq_ok.mp he
  obtain ⟨k2,ha,he⟩ := bind_eq_ok.mp he
  cases he
  have hq : SameQueues k (k.setProc p { k.proc p with etime := k.ticks }) := sameQueues_setProc rfl
  have h0 := Wakeful.of_same h hq hf.wakes hf.state
  obtain ⟨L1,h1⟩ := wakeup1_wakeful (hk.wakes hf.wakes) h0.ok hw
  have h01 := h0.trans h1
  obtain ⟨L2,h2⟩ := abandonChildren_wakeful (hk.wakes h01.toWakes) h1.ok ha
  have h02 := h01.trans h2
  have hp2 : ∀ q, p ∉ L2 q := by
    intro q hq
    rcases h02.new q p hq with hq | hq
    · exact hp q hq
    · rw [hrun] at hq
      cases hq
  refine ⟨L2,h2.ok.offQueue rfl hp2,h02.old,h02.new,?_⟩
  intro x hx
  apply h02.woken x
  by_cases hxp : x = p
  · simp [Kernel.setState,hxp] at hx
  · simpa [Kernel.setState,hxp] using hx

theorem setupProc_queues {k k' : Kernel} {L : Queues} {np : Slot} (hk : PidOk k) (h : KQ k L)
    (hnp : (k.proc np).state = .embryo) (hs : setupProc .mlfq k np = .ok k') :
    ∃ L', KQ k' L' ∧ (∀ q, ∀ x ∈ L q, x ∈ L' q) ∧ ∀ q, ∀ x ∈ L' q, x ∈ L q ∨ x = np := by
  have hpos := hk.pos np (by simp [hnp])
  unfold setupProc initProcMyStyle enqueueNew at hs
  simp only [reduceCtorEq,if_false,if_true] at hs
  rw [if_neg (by omega)] at hs
  obtain ⟨k2,hq,hs⟩ := bind_eq_ok.mp hs
  cases hs
  obtain ⟨k1,hpush,hq⟩ := bind_eq_ok.mp hq
  cases hq
  have hlev : ∀ r, np ∈ L r → r = highestPrioQ := fun r hr => h.young r np hr (.inr hnp)
  obtain ⟨k3,L',hpush',hok,_,hold,hnew⟩ :=
    h.pushBack hk hlev hpos (by simp [hnp]) (fun _ => rfl)
  rw [hpush] at hpush'
  cases hpush'
  have h2 := hok.setProc (p := np) (r := { k1.proc np with latestQTime := k1.ticks }) rfl rfl
    (.inr (.inr rfl))
  exact ⟨L',h2.setProc rfl rfl (.inr (.inr rfl)),hold,hnew⟩

theorem decPrio_queues {k : Kernel} {L : Queues} {p : Slot} (hk : PidOk k) (h : KQ k L)
    (hp : ∀ q, p ∉ L q) (hst : (k.proc p).state = .sleeping ∨ (k.proc p).state = .runnable)
    (retain : Bool) :
    ∃ k' L', decPrio k p retain = .ok k' ∧ KQ k' L' ∧ (∃ q, p ∈ L' q) ∧
      (∀ q, ∀ x ∈ L q, x ∈ L' q) ∧ ∀ q, ∀ x ∈ L' q, x ∈ L q ∨ x = p := by
  obtain ⟨q,hq,_⟩ := h.toQOk.exists_level p
  set k0 := k.setProc p { k.proc p with latestQTime := k.ticks } with hk0
  have hf : SameFaces k k0 := sameFaces_setProc rfl rfl rfl rfl rfl
  have h0 : KQ k0 L := h.faces (sameQueues_setProc rfl) hf
  have hpos : 0 < (k0.proc p).pid := by
    rw [hf.pid]
    exact hk.pos p (by rcases hst with e | e <;> simp [e])
  have hst0 : (k0.proc p).state = .sleeping ∨ (k0.proc p).state = .runnable := by
    rw [hf.state]
    exact hst
  have hpush : ∀ r : Level, ∃ k' L', pushBack k0 r p = .ok k' ∧ KQ k' L' ∧ (∃ q, p ∈ L' q) ∧
      (∀ q, ∀ x ∈ L q, x ∈ L' q) ∧ ∀ q, ∀ x ∈ L' q, x ∈ L q ∨ x = p := by
    intro r
    obtain ⟨k',L',h1,h2,h3,h4,h5⟩ := h0.pushBack (q := r) (hk.wakes hf.wakes)
      (fun s hs => absurd hs (hp s)) hpos (by rcases hst0 with e | e <;> simp [e])
      (by rcases hst0 with e | e <;> simp [e])
    exact ⟨k',L',h1,h2,⟨r,h3⟩,h4,h5⟩
  unfold decPrio
  simp only [hq]
  rw [if_neg (by omega)]
  split_ifs with hlast
  · rw [level_val,ok_bind]
    exact hpush q
  · have hlt : q.val + 1 < pqCount := by
      have := q.isLt
      rw [not_or] at hlast
      have h4 := hlast.1
      norm_num at h4
      omega
    have hnext : ((q.val : Int) + 1) = ((⟨q.val + 1,hlt⟩ : Level).val : Int) := by
      push_cast
      rfl
    rw [hnext,level_val,ok_bind]
    exact hpush _

def keepsTurn (k : Kernel) (p : Slot) : Prop :=
  1 ≤ getTicks k p ∧ getTicks k p ≤ 2 ^ (levelOf k p).val

instance (k : Kernel) (p : Slot) : Decidable (keepsTurn k p) :=
  inferInstanceAs (Decidable (_ ∧ _))

theorem requeue_queues {k : Kernel} {L : Queues} {p : Slot} (hk : PidOk k) (h : KQ k L)
    (hp : ∀ q, p ∉ L q) :
    ∃ k' L', requeue k p = .ok k' ∧ KQ k' L' ∧
      ((∃ q, p ∈ L' q) ↔ (k.proc p).state = .sleeping ∨
        (k.proc p).state = .runnable ∧ keepsTurn k p) ∧
      (∀ q, ∀ x ∈ L q, x ∈ L' q) ∧ ∀ q, ∀ x ∈ L' q, x ∈ L q ∨ x = p := by
  unfold requeue keepsTurn
  rw [h.toQOk.level_levelOf p,ok_bind]
  simp only
  split_ifs with h1 h2
  · have hst : (k.proc p).state = .sleeping ∨ (k.proc p).state = .runnable := h1.imp_right And.left
    obtain ⟨k',L',hd,hok,hmem,hold,hnew⟩ := decPrio_queues hk h hp hst true
    refine ⟨k',L',hd,hok,iff_of_true hmem ?_,hold,hnew⟩
    exact h1.imp_right fun ⟨e,ha,hb⟩ => ⟨e,by omega,hb.le⟩
  · obtain ⟨k',L',hd,hok,hmem,hold,hnew⟩ := decPrio_queues hk h hp (.inr h2.1) false
    refine ⟨k',L',hd,hok,iff_of_true hmem (.inr ⟨h2.1,?_,h2.2.le⟩),hold,hnew⟩
    rw [h2.2]
    exact one_le_pow₀ (by norm_num)
  · refine ⟨k,L,rfl,h,?_,fun _ _ hx => hx,fun _ _ hx => .inl hx⟩
    refine iff_of_false (fun ⟨q,hq⟩ => hp q hq) ?_
    rintro (e | ⟨e,ha,hb⟩)
    · exact h1 (.inl e)
    · rcases hb.lt_or_eq with hlt | heq
      · exact h1 (.inr ⟨e,by omega,hlt⟩)
      · exact h2 ⟨e,heq⟩

end Xv6
