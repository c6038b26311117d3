import OscAssignments.Xv6.Steps

namespace Xv6
open Runs

def Task.child : Task → Option Slot
  | .code => none
  | .alloc np => some np
  | .enqueued np => some np
  | .copied np => some np

def Loc.atomic : Loc → Bool
  | .switched => true
  | .returned => true
  | _ => false

def Loc.empty : Loc → Bool
  | .booting => true
  | .idle => true
  | .idleTrap => true
  | _ => false

structure PidOk (k : Kernel) : Prop where
  lt : ∀ p, (k.proc p).pid < k.nextpid
  pos : ∀ p, (k.proc p).state ≠ .unused → 0 < (k.proc p).pid
  inj : ∀ p p', (k.proc p).pid = (k.proc p').pid → 0 < (k.proc p).pid → p = p'

theorem PidOk.touches {k k' : Kernel} {p : Slot} (h : PidOk k) (hk : Touches p k k')
    (hp : (k'.proc p).state ≠ .unused → (k.proc p).state ≠ .unused) : PidOk k' where
  lt x := by
    rw [hk.pid,hk.nextpid]
    exact h.lt x
  pos x hx := by
    rw [hk.pid]
    apply h.pos x
    rcases eq_or_ne x p with rfl | hxp
    · exact hp hx
    · intro he
      exact hx ((hk.state_of_ne hxp (by simp [he])).trans he)
  inj x y := by
    rw [hk.pid,hk.pid]
    exact h.inj x y

theorem Wakes.touches {k k' : Kernel} (h : Wakes k k') (p : Slot) : Touches p k k' :=
  ⟨fun x _ => h.state x,h.pid,h.nextpid⟩

theorem PidOk.wakes {k k' : Kernel} (h : PidOk k) (hk : Wakes k k') : PidOk k' := by
  refine h.touches (hk.touches 0) ?_
  intro hx he
  exact hx ((hk.state_iff (by decide) (by decide)).mpr he)

theorem waitResult_reaped {k : Kernel} {p z : Slot} (h : waitResult k p = .reaped z) :
    (k.proc z).parent = some p ∧ (k.proc z).state = .zombie := by
  unfold waitResult at h
  cases hf : findZombie k p with
  | none =>
    rw [hf] at h
    simp only at h
    split_ifs at h
  | some y =>
    rw [hf] at h
    cases h
    have := List.find?_some hf
    simpa [isChild] using this

theorem waitResult_sleep {k : Kernel} {p : Slot} (h : waitResult k p = .sleep) (z : Slot)
    (hz : (k.proc z).parent = some p) : (k.proc z).state ≠ .zombie := by
  unfold waitResult at h
  cases hf : findZombie k p with
  | none =>
    have := List.find?_eq_none.mp hf z (mem_allSlots z)
    simpa [isChild,hz] using this
  | some y =>
    rw [hf] at h
    cases h

namespace Machine

structure Sane (m : Machine) : Prop where
  pids : PidOk m.kern
  lock_iff : ∀ c, m.lock = some c ↔ (m.cpu c).loc.atomic = true
  proc_none : ∀ c, (m.cpu c).proc = none ↔ (m.cpu c).loc.empty = true
  proc_inj : ∀ c c' p, (m.cpu c).proc = some p → (m.cpu c').proc = some p → c = c'
  running : ∀ c p, (m.cpu c).proc = some p → (m.cpu c).loc ≠ .returned →
    (m.kern.proc p).state = .running
  left : ∀ c p, (m.cpu c).proc = some p → (m.cpu c).loc = .returned →
    (m.kern.proc p).state ≠ .unused ∧ (m.kern.proc p).state ≠ .embryo
  child : ∀ o np, (m.task o).child = some np → (m.kern.proc np).state = .embryo
  child_inj : ∀ o o' np, (m.task o).child = some np → (m.task o').child = some np → o = o'
  busy : ∀ p, m.task (some p) ≠ .code →
    (∃ c, (m.cpu c).proc = some p ∧ (m.cpu c).loc.atomic = false) ∨
      m.ctx p = .yielded ∧
        ((m.kern.proc p).state = .running ∨ (m.kern.proc p).state = .runnable)

theorem boot_cpu (c : Nat) : (boot.cpu c).proc = none ∧ (boot.cpu c).loc.empty = true ∧
    (boot.cpu c).loc.atomic = false := by
  by_cases hc : c = 0 <;> simp [boot,hc,Loc.empty,Loc.atomic]

theorem sane_boot : Sane boot where
  pids := ⟨fun _ => Nat.one_pos,fun _ h => absurd rfl h,fun _ _ _ h => absurd h (Nat.lt_irrefl 0)⟩
  lock_iff c := by simp [boot_cpu c,show boot.lock = none from rfl]
  proc_none c := by simp [boot_cpu c]
  proc_inj c _ _ h := by simp [boot_cpu c] at h
  running c _ h := by simp [boot_cpu c] at h
  left c _ h := by simp [boot_cpu c] at h
  child _ _ h := by cases h
  child_inj _ _ _ h := by cases h
  busy _ h := absurd rfl h

namespace Sane
variable {m : Machine} {c : Nat} {p : Slot} {k : Kernel}

theorem lock_unique (h : Sane m) {c' : Nat} (hc : m.lock = some c)
    (ha : (m.cpu c').loc.atomic = true) : c' = c := by
  have := (h.lock_iff c').mpr ha
  rw [hc] at this
  exact (Option.some.inj this).symm

theorem not_returned (h : Sane m) (hl : m.lock = none) (c : Nat) : (m.cpu c).loc ≠ .returned := by
  intro hr
  have := (h.lock_iff c).mpr (by simp [hr,Loc.atomic])
  rw [hl] at this
  cases this

theorem only_returned (h : Sane m) {c' : Nat} (hl : m.lock = none ∨ m.lock = some c)
    (hc : c' ≠ c) : (m.cpu c').loc ≠ .returned := by
  rcases hl with hl | hl
  · exact h.not_returned hl c'
  · intro hr
    exact hc (h.lock_unique hl (by simp [hr,Loc.atomic]))

theorem runnable_off_cpu (h : Sane m) (hl : m.lock = none ∨ m.lock = some c)
    (hp : (m.kern.proc p).state ≠ .running) {c' : Nat} (hc : c' ≠ c) :
    (m.cpu c').proc ≠ some p := by
  intro he
  exact hp (h.running c' p he (h.only_returned hl hc))

theorem exists_proc (h : Sane m) (hl : (m.cpu c).loc.empty = false) :
    ∃ p, (m.cpu c).proc = some p := by
  cases hp : (m.cpu c).proc with
  | none =>
    have := (h.proc_none c).mp hp
    rw [hl] at this
    cases this
  | some p => exact ⟨p,rfl⟩

theorem busy_state (h : Sane m) (hp : m.task (some p) ≠ .code) :
    (m.kern.proc p).state = .running ∨ (m.kern.proc p).state = .runnable := by
  rcases h.busy p hp with ⟨c,hc,ha⟩ | ⟨_,hs⟩
  · exact .inl (h.running c p hc (by rintro hr; simp [hr,Loc.atomic] at ha))
  · exact hs

theorem wakes (h : Sane m) (hk : Wakes m.kern k) : Sane { m with kern := k } where
  pids := h.pids.wakes hk
  lock_iff := h.lock_iff
  proc_none := h.proc_none
  proc_inj := h.proc_inj
  running c x hx hr := (hk.state_iff (by decide) (by decide)).mpr (h.running c x hx hr)
  left c x hx hr := by
    obtain ⟨h1,h2⟩ := h.left c x hx hr
    exact ⟨fun e => h1 ((hk.state_iff (by decide) (by decide)).mp e),
      fun e => h2 ((hk.state_iff (by decide) (by decide)).mp e)⟩
  child o np ho := (hk.state_iff (by decide) (by decide)).mpr (h.child o np ho)
  child_inj := h.child_inj
  busy x hx := by
    refine (h.busy x hx).imp_right (And.imp_right ?_)
    rintro (hs | hs)
    · exact .inl ((hk.state_iff (by decide) (by decide)).mpr hs)
    · exact .inr ((hk.not_sleeping (by simp [hs])).trans hs)

theorem setLoc (h : Sane m) {l : Loc} (ha : l.atomic = false)
    (ha' : (m.cpu c).loc.atomic = false) (he : l.empty = (m.cpu c).loc.empty) :
    Sane (m.setLoc c l) where
  pids := h.pids
  lock_iff x := by
    rcases eq_or_ne x c with rfl | hx
    · simpa [ha,ha'] using h.lock_iff x
    · simpa [hx] using h.lock_iff x
  proc_none x := by
    rcases eq_or_ne x c with rfl | hx
    · simpa [he] using h.proc_none x
    · simpa [hx] using h.proc_none x
  proc_inj x y q hx hy := by
    apply h.proc_inj x y q
    · by_cases hc : x = c <;> simpa [hc] using hx
    · by_cases hc : y = c <;> simpa [hc] using hy
  running x q hx hxr := by
    rcases eq_or_ne x c with rfl | hc
    · exact h.running x q (by simpa using hx) (by rintro hr; simp [hr,Loc.atomic] at ha')
    · exact h.running x q (by simpa [hc] using hx) (by simpa [hc] using hxr)
  left x q hx hxr := by
    rcases eq_or_ne x c with rfl | hc
    · simp at hxr
      simp [hxr,Loc.atomic] at ha
    · exact h.left x q (by simpa [hc] using hx) (by simpa [hc] using hxr)
  child := h.child
  child_inj := h.child_inj
  busy x hx := by
    refine (h.busy x hx).imp_left ?_
    rintro ⟨y,hy,hya⟩
    refine ⟨y,?_,?_⟩ <;> by_cases hc : y = c <;> simp_all

theorem lock_ne_of_ne {y : Nat} (hl : m.lock = none ∨ m.lock = some c) (hy : y ≠ c) :
    m.lock ≠ some y := by
  rcases hl with hl | hl
  · simp [hl]
  · simp [hl,hy.symm]

theorem leave (h : Sane m) {x : Ctx} (hp : (m.cpu c).proc = some p)
    (hr : (m.cpu c).loc ≠ .returned) (hl : m.lock = none ∨ m.lock = some c)
    (hk : Touches p m.kern k) (hu : (k.proc p).state ≠ .unused) (he : (k.proc p).state ≠ .embryo)
    (hb : m.task (some p) = .code ∨ x = .yielded ∧ (k.proc p).state = .runnable) :
    Sane ({ m with kern := k }.leave c p x) where
  pids := h.pids.touches hk fun _ => by simp [h.running c p hp hr]
  lock_iff y := by
    rcases eq_or_ne y c with rfl | hy
    · simp [Machine.leave,Loc.atomic]
    · have hn := lock_ne_of_ne hl hy
      simpa [Machine.leave,hy,Ne.symm hy,hn] using h.lock_iff y
  proc_none y := by
    rcases eq_or_ne y c with rfl | hy
    · simp [Machine.leave,hp,Loc.empty]
    · simpa [Machine.leave,hy] using h.proc_none y
  proc_inj y z q hy hz := by
    apply h.proc_inj y z q
    · by_cases hc : y = c <;> simpa [Machine.leave,hc] using hy
    · by_cases hc : z = c <;> simpa [Machine.leave,hc] using hz
  running y q hy hyr := by
    have hyc : y ≠ c := by
      rintro rfl
      simp [Machine.leave] at hyr
    have hyq : (m.cpu y).proc = some q := by simpa [Machine.leave,hyc] using hy
    have hqp : q ≠ p := by
      rintro rfl
      exact hyc (h.proc_inj y c q hyq hp)
    have hq := h.running y q hyq (by simpa [Machine.leave,hyc] using hyr)
    exact (hk.state_of_ne hqp (by simp [hq])).trans hq
  left y q hy hyr := by
    rcases eq_or_ne y c with rfl | hyc
    · have hq : p = q := by simpa [Machine.leave,hp] using hy
      subst hq
      exact ⟨hu,he⟩
    · exact absurd (by simpa [Machine.leave,hyc] using hyr) (h.only_returned hl hyc)
  child o np ho := by
    have hs := h.child o np ho
    have hnp : np ≠ p := by
      rintro rfl
      rw [h.running c np hp hr] at hs
      cases hs
    exact (hk.state_of_ne hnp (by simp [hs])).trans hs
  child_inj := h.child_inj
  busy y hy := by
    rcases eq_or_ne y p with rfl | hyp
    · obtain ⟨hx,hs⟩ := hb.resolve_left hy
      exact .inr ⟨by simp [Machine.leave,hx],.inr hs⟩
    · rcases h.busy y hy with ⟨z,hz,ha⟩ | ⟨hx,hs⟩
      · have hzc : z ≠ c := by
          rintro rfl
          exact hyp (Option.some.inj (hz.symm.trans hp))
        exact .inl ⟨z,by simpa [Machine.leave,hzc] using hz,by simpa [Machine.leave,hzc] using ha⟩
      · refine .inr ⟨by simpa [Machine.leave,hyp] using hx,?_⟩
        have hst := hk.state_of_ne hyp (by rcases hs with hs | hs <;> simp [hs])
        exact hs.imp hst.trans hst.trans

theorem off_cpu (h : Sane m) (hloc : (m.cpu c).loc = .idle ∨ (m.cpu c).loc = .returned)
    {c' : Nat} (hc' : (m.cpu c').proc = some p) (ha : (m.cpu c').loc.atomic = false) : c' ≠ c := by
  rintro rfl
  rcases hloc with hloc | hloc
  · have hn := (h.proc_none c').mpr (by simp [hloc,Loc.empty])
    rw [hc'] at hn
    cases hn
  · simp [hloc,Loc.atomic] at ha

theorem release (h : Sane m) (hl : m.lock = none ∨ m.lock = some c)
    (hloc : (m.cpu c).loc = .idle ∨ (m.cpu c).loc = .returned) : Sane (m.release c) where
  pids := h.pids
  lock_iff y := by
    rcases eq_or_ne y c with rfl | hy
    · simp [Machine.release,Loc.atomic]
    · have hn := lock_ne_of_ne hl hy
      have := h.lock_iff y
      simp [hn] at this
      simp [Machine.release,hy,this]
  proc_none y := by
    rcases eq_or_ne y c with rfl | hy
    · simp [Machine.release,Loc.empty]
    · simpa [Machine.release,hy] using h.proc_none y
  proc_inj y z q hy hz := by
    have hyc : y ≠ c := by
      rintro rfl
      simp [Machine.release] at hy
    have hzc : z ≠ c := by
      rintro rfl
      simp [Machine.release] at hz
    exact h.proc_inj y z q (by simpa [Machine.release,hyc] using hy)
      (by simpa [Machine.release,hzc] using hz)
  running y q hy hyr := by
    have hyc : y ≠ c := by
      rintro rfl
      simp [Machine.release] at hy
    exact h.running y q (by simpa [Machine.release,hyc] using hy)
      (by simpa [Machine.release,hyc] using hyr)
  left y q hy hyr := by
    have hyc : y ≠ c := by
      rintro rfl
      simp [Machine.release] at hy
    exact h.left y q (by simpa [Machine.release,hyc] using hy)
      (by simpa [Machine.release,hyc] using hyr)
  child := h.child
  child_inj := h.child_inj
  busy x hx := by
    refine (h.busy x hx).imp_left ?_
    rintro ⟨y,hy,ha⟩
    have hyc := h.off_cpu hloc hy ha
    exact ⟨y,by simpa [Machine.release,hyc] using hy,by simpa [Machine.release,hyc] using ha⟩

theorem enter (h : Sane m) {prio : Int} (hl : m.lock = none ∨ m.lock = some c)
    (hloc : (m.cpu c).loc = .idle ∨ (m.cpu c).loc = .returned)
    (hst : (m.kern.proc p).state = .runnable) (hk : Touches p m.kern k)
    (hrun : (k.proc p).state = .running) : Sane ({ m with kern := k }.enter c p prio) where
  pids := h.pids.touches hk fun _ => by simp [hst]
  lock_iff y := by
    rcases eq_or_ne y c with rfl | hy
    · simp [Machine.enter,Loc.atomic]
    · have hn := lock_ne_of_ne hl hy
      simpa [Machine.enter,hy,Ne.symm hy,hn] using h.lock_iff y
  proc_none y := by
    rcases eq_or_ne y c with rfl | hy
    · simp [Machine.enter,Loc.empty]
    · simpa [Machine.enter,hy] using h.proc_none y
  proc_inj y z q hy hz := by
    have hoff : ∀ {x}, x ≠ c → (m.cpu x).proc ≠ some p := fun hx =>
      h.runnable_off_cpu hl (by simp [hst]) hx
    by_cases hyc : y = c <;> by_cases hzc : z = c
    · rw [hyc,hzc]
    · subst hyc
      have : q = p := by simpa [Machine.enter] using hy.symm
      subst this
      exact absurd (by simpa [Machine.enter,hzc] using hz) (hoff hzc)
    · subst hzc
      have : q = p := by simpa [Machine.enter] using hz.symm
      subst this
      exact absurd (by simpa [Machine.enter,hyc] using hy) (hoff hyc)
    · exact h.proc_inj y z q (by simpa [Machine.enter,hyc] using hy)
        (by simpa [Machine.enter,hzc] using hz)
  running y q hy hyr := by
    rcases eq_or_ne y c with rfl | hyc
    · have : q = p := by simpa [Machine.enter] using hy.symm
      subst this
      exact hrun
    · have hyq : (m.cpu y).proc = some q := by simpa [Machine.enter,hyc] using hy
      have hqp : q ≠ p := by
        rintro rfl
        exact h.runnable_off_cpu hl (by simp [hst]) hyc hyq
      have hq := h.running y q hyq (by simpa [Machine.enter,hyc] using hyr)
      exact (hk.state_of_ne hqp (by simp [hq])).trans hq
  left y q hy hyr := by
    have hyc : y ≠ c := by
      rintro rfl
      simp [Machine.enter] at hyr
    exact absurd (by simpa [Machine.enter,hyc] using hyr) (h.only_returned hl hyc)
  child o np ho := by
    have hs := h.child o np ho
    have hnp : np ≠ p := by
      rintro rfl
      rw [hst] at hs
      cases hs
    exact (hk.state_of_ne hnp (by simp [hs])).trans hs
  child_inj := h.child_inj
  busy y hy := by
    rcases h.busy y hy with ⟨z,hz,ha⟩ | ⟨hx,hs⟩
    · have hzc := h.off_cpu hloc hz ha
      exact .inl ⟨z,by simpa [Machine.enter,hzc] using hz,by simpa [Machine.enter,hzc] using ha⟩
    · refine .inr ⟨hx,?_⟩
      rcases eq_or_ne y p with rfl | hyp
      · exact .inl hrun
      · have hst := hk.state_of_ne hyp (by rcases hs with hs | hs <;> simp [hs])
        exact hs.imp hst.trans hst.trans

theorem resumed (h : Sane m) (hp : (m.cpu c).proc = some p) (hloc : (m.cpu c).loc = .switched)
    (hl : m.lock = some c) : Sane { m.setLoc c .code with lock := none } where
  pids := h.pids
  lock_iff y := by
    rcases eq_or_ne y c with rfl | hy
    · simp [Loc.atomic]
    · have := h.lock_iff y
      simp [hl,Ne.symm hy] at this
      simp [hy,this]
  proc_none y := by
    rcases eq_or_ne y c with rfl | hy
    · simp [hp,Loc.empty]
    · simpa [hy] using h.proc_none y
  proc_inj y z q hy hz := by
    apply h.proc_inj y z q
    · by_cases hc : y = c <;> simpa [hc] using hy
    · by_cases hc : z = c <;> simpa [hc] using hz
  running y q hy hyr := by
    rcases eq_or_ne y c with rfl | hyc
    · exact h.running y q (by simpa using hy) (by simp [hloc])
    · exact h.running y q (by simpa [hyc] using hy) (by simpa [hyc] using hyr)
  left y q hy hyr := by
    have hyc : y ≠ c := by
      rintro rfl
      simp at hyr
    exact h.left y q (by simpa [hyc] using hy) (by simpa [hyc] using hyr)
  child := h.child
  child_inj := h.child_inj
  busy x hx := by
    rcases h.busy x hx with ⟨y,hy,ha⟩ | hs
    · have hyc : y ≠ c := by
        rintro rfl
        simp [hloc,Loc.atomic] at ha
      exact .inl ⟨y,by simpa [hyc] using hy,by simpa [hyc] using ha⟩
    · exact .inr hs

theorem alloc (h : Sane m) {np : Slot}
    (hloc : (m.cpu c).loc = .booting ∨ (m.cpu c).loc = .code)
    (hu : (m.kern.proc np).state = .unused) :
    Sane ({ m with kern := takeSlot m.kern np }.setTask (m.cpu c).proc (.alloc np)) := by
  have hst := takeSlot_state m.kern np
  have hpid := takeSlot_pid m.kern np
  have hne : ∀ x, (m.kern.proc x).state ≠ .unused → x ≠ np := by
    rintro x hx rfl
    exact hx hu
  have hpos := h.pids.lt np
  refine ⟨⟨?_,?_,?_⟩,h.lock_iff,h.proc_none,h.proc_inj,?_,?_,?_,?_,?_⟩
  · intro x
    change ((takeSlot m.kern np).proc x).pid < m.kern.nextpid + 1
    rw [hpid]
    split_ifs
    · omega
    · exact (h.pids.lt x).trans (Nat.lt_succ_self _)
  · intro x hx
    change 0 < ((takeSlot m.kern np).proc x).pid
    change ((takeSlot m.kern np).proc x).state ≠ _ at hx
    rw [hst] at hx
    rw [hpid]
    split_ifs at hx ⊢
    · omega
    · exact h.pids.pos x hx
  · intro x y
    change ((takeSlot m.kern np).proc x).pid = ((takeSlot m.kern np).proc y).pid →
      0 < ((takeSlot m.kern np).proc x).pid → x = y
    have hx := h.pids.lt x
    have hy := h.pids.lt y
    rw [hpid,hpid]
    split_ifs with h1 h2
    · intros
      rw [h1,h2]
    · intro e
      omega
    · intro e
      omega
    · exact h.pids.inj x y
  · intro x q hx hr
    have hq := h.running x q hx hr
    change ((takeSlot m.kern np).proc q).state = _
    rw [hst,if_neg (hne q (by simp [hq])),hq]
  · intro x q hx hr
    obtain ⟨h1,h2⟩ := h.left x q hx hr
    change ((takeSlot m.kern np).proc q).state ≠ _ ∧ ((takeSlot m.kern np).proc q).state ≠ _
    rw [hst,if_neg (hne q h1)]
    exact ⟨h1,h2⟩
  · intro o n ho
    change ((takeSlot m.kern np).proc n).state = _
    rw [hst]
    split_ifs with hn
    · rfl
    · by_cases hoc : o = (m.cpu c).proc
      · simp [hoc,Task.child] at ho
        exact absurd ho.symm hn
      · exact h.child o n (by simpa [hoc] using ho)
  · intro o o' n ho ho'
    have hold : ∀ x, (m.task x).child = some n → n ≠ np := by
      intro x hx
      exact hne n (by simp [h.child x n hx])
    by_cases h1 : o = (m.cpu c).proc <;> by_cases h2 : o' = (m.cpu c).proc
    · rw [h1,h2]
    · simp [h1,Task.child] at ho
      exact absurd ho.symm (hold o' (by simpa [h2] using ho'))
    · simp [h2,Task.child] at ho'
      exact absurd ho'.symm (hold o (by simpa [h1] using ho))
    · exact h.child_inj o o' n (by simpa [h1] using ho) (by simpa [h2] using ho')
  · intro x hx
    by_cases hxc : some x = (m.cpu c).proc
    · exact .inl ⟨c,hxc.symm,by rcases hloc with hl | hl <;> simp [hl,Loc.atomic]⟩
    · refine (h.busy x (by simpa [hxc] using hx)).imp_right (And.imp_right ?_)
      intro hs
      change ((takeSlot m.kern np).proc x).state = _ ∨ ((takeSlot m.kern np).proc x).state = _
      rw [hst,if_neg (hne x (by rcases hs with hs | hs <;> simp [hs]))]
      exact hs

theorem setCtx (h : Sane m) (hp : (m.kern.proc p).state = .embryo) (x : Ctx) :
    Sane (m.setCtx p x) := by
  refine ⟨h.pids,h.lock_iff,h.proc_none,h.proc_inj,h.running,h.left,h.child,h.child_inj,?_⟩
  intro y hy
  have hs := h.busy_state hy
  have hyp : y ≠ p := by
    rintro rfl
    simp [hp] at hs
  refine (h.busy y hy).imp_right (And.imp_left ?_)
  intro hx
  simpa [hyp] using hx

theorem keepTask (h : Sane m) {o : Option Slot} {t : Task} (ht : t.child = (m.task o).child)
    (hc : m.task o ≠ .code) : Sane (m.setTask o t) := by
  have hch : ∀ x, ((m.setTask o t).task x).child = (m.task x).child := by
    intro x
    by_cases hx : x = o <;> simp [hx,ht]
  refine ⟨h.pids,h.lock_iff,h.proc_none,h.proc_inj,h.running,h.left,?_,?_,?_⟩
  · intro x np hx
    exact h.child x np (hch x ▸ hx)
  · intro x y np hx hy
    exact h.child_inj x y np (hch x ▸ hx) (hch y ▸ hy)
  · intro x hx
    apply h.busy x
    by_cases hxo : some x = o
    · rw [hxo]
      exact hc
    · simpa [hxo] using hx

theorem endTask (h : Sane m) {o : Option Slot} {np : Slot} (ht : (m.task o).child = some np)
    (st : ProcState) :
    Sane ({ m with kern := m.kern.setState np st }.setTask o .code) := by
  have hnp := h.child o np ht
  have hst : ∀ x, x ≠ np → ((m.kern.setState np st).proc x).state = (m.kern.proc x).state := by
    intro x hx
    simp [Kernel.setState,hx]
  have hne : ∀ x, (m.kern.proc x).state ≠ .embryo → x ≠ np := by
    rintro x hx rfl
    exact hx hnp
  have hch : ∀ x n, ((if x = o then Task.code else m.task x)).child = some n →
      x ≠ o ∧ (m.task x).child = some n := by
    intro x n hx
    split_ifs at hx with hxo
    · cases hx
    · exact ⟨hxo,hx⟩
  refine ⟨?_,h.lock_iff,h.proc_none,h.proc_inj,?_,?_,?_,?_,?_⟩
  · exact h.pids.touches (p := np) (touches_setProc rfl) fun _ => by simp [hnp]
  · intro x q hx hr
    have hq := h.running x q hx hr
    exact (hst q (hne q (by simp [hq]))).trans hq
  · intro x q hx hr
    obtain ⟨h1,h2⟩ := h.left x q hx hr
    have := hst q (hne q h2)
    exact ⟨fun e => h1 (this ▸ e),fun e => h2 (this ▸ e)⟩
  · intro x n hx
    obtain ⟨hxo,hx'⟩ := hch x n (by simpa using hx)
    have hn : n ≠ np := by
      intro he
      exact hxo (h.child_inj x o n hx' (he ▸ ht))
    exact (hst n hn).trans (h.child x n hx')
  · intro x y n hx hy
    exact h.child_inj x y n (hch x n (by simpa using hx)).2 (hch y n (by simpa using hy)).2
  · intro x hx
    have hxo : some x ≠ o := by
      rintro rfl
      simp at hx
    refine (h.busy x (by simpa [hxo] using hx)).imp_right (And.imp_right ?_)
    intro hs
    have hxn := hst x (hne x (by rcases hs with hs | hs <;> simp [hs]))
    exact hs.imp hxn.trans hxn.trans

theorem reap (h : Sane m) {z : Slot} (hl : m.lock = none ∨ m.lock = some c)
    (hr : (m.cpu c).loc ≠ .returned) (hz : (m.kern.proc z).state = .zombie) :
    Sane { m with kern := Xv6.reap m.kern z } := by
  have hst : ∀ x, x ≠ z → ((Xv6.reap m.kern z).proc x).state = (m.kern.proc x).state := by
    intro x hx
    simp [Xv6.reap,hx]
  have hpid := reap_pid m.kern z
  have hne : ∀ x, (m.kern.proc x).state ≠ .zombie → x ≠ z := by
    rintro x hx rfl
    exact hx hz
  have hall : ∀ x, (m.cpu x).loc ≠ .returned := by
    intro x
    rcases eq_or_ne x c with rfl | hx
    · exact hr
    · exact h.only_returned hl hx
  refine ⟨⟨?_,?_,?_⟩,h.lock_iff,h.proc_none,h.proc_inj,?_,?_,?_,h.child_inj,?_⟩
  · intro x
    have := h.pids.lt x
    change ((Xv6.reap m.kern z).proc x).pid < m.kern.nextpid
    rw [hpid]
    split_ifs <;> omega
  · intro x hx
    have hxz : x ≠ z := by
      rintro rfl
      simp [Xv6.reap] at hx
    change 0 < ((Xv6.reap m.kern z).proc x).pid
    rw [hpid,if_neg hxz]
    exact h.pids.pos x (hst x hxz ▸ hx)
  · intro x y
    change ((Xv6.reap m.kern z).proc x).pid = ((Xv6.reap m.kern z).proc y).pid →
      0 < ((Xv6.reap m.kern z).proc x).pid → x = y
    rw [hpid,hpid]
    split_ifs
    · intro _ hlt
      exact absurd hlt (Nat.lt_irrefl 0)
    · intro _ hlt
      exact absurd hlt (Nat.lt_irrefl 0)
    · intro he hlt
      omega
    · exact h.pids.inj x y
  · intro x q hx hxr
    have hq := h.running x q hx hxr
    exact (hst q (hne q (by simp [hq]))).trans hq
  · intro x q _ hxr
    exact absurd hxr (hall x)
  · intro o np ho
    have hs := h.child o np ho
    exact (hst np (hne np (by simp [hs]))).trans hs
  · intro x hx
    refine (h.busy x hx).imp_right (And.imp_right ?_)
    intro hs
    have hxz := hst x (hne x (by rcases hs with hs | hs <;> simp [hs]))
    exact hs.imp hxz.trans hxz.trans

theorem unlock (h : Sane m) (hp : (m.cpu c).proc = some p)
    (hloc : (m.cpu c).loc = .code ∧ m.lock = none ∨
      (m.cpu c).loc = .switched ∧ m.lock = some c) :
    Sane { m.setLoc c .code with lock := none } := by
  rcases hloc with ⟨hloc,hl⟩ | ⟨hloc,hl⟩
  · have h' := h.setLoc (c := c) (l := .code) rfl (by simp [hloc,Loc.atomic]) (by simp [hloc])
    have he : { m.setLoc c .code with lock := none } = m.setLoc c .code := by
      cases m
      cases hl
      rfl
    rw [he]
    exact h'
  · exact h.resumed hp hloc hl

theorem waitLoop (h : Sane m) {x : Bool} (hp : (m.cpu c).proc = some p)
    (htask : m.task (some p) = .code)
    (hloc : (m.cpu c).loc = .code ∧ m.lock = none ∨
      (m.cpu c).loc = .switched ∧ m.lock = some c) : Sane (m.waitLoop c p x) := by
  have hl : m.lock = none ∨ m.lock = some c := hloc.imp And.right And.right
  have hr : (m.cpu c).loc ≠ .returned := by
    rcases hloc with hloc | hloc <;> simp [hloc.1]
  unfold Machine.waitLoop
  cases hw : waitResult m.kern p with
  | reaped z =>
    have hz := (waitResult_reaped hw).2
    exact (h.reap hl hr hz).unlock (p := p) hp hloc
  | failed => exact h.unlock hp hloc
  | sleep =>
    exact h.leave hp hr hl (touches_setProc rfl) (by simp [goToSleep]) (by simp [goToSleep])
      (.inl htask)

theorem scan (h : Sane m) {b : Build} {next : Nat} {prio : Int}
    (hl : m.lock = none ∨ m.lock = some c)
    (hloc : (m.cpu c).loc = .idle ∨ (m.cpu c).loc = .returned) : Sane (m.scan b c next prio) := by
  unfold Machine.scan
  cases hs : scanTable b m.kern next prio with
  | none => exact h.release hl hloc
  | some p =>
    have hp := List.find?_some hs
    simp only [scanned,Bool.and_eq_true,decide_eq_true_eq] at hp
    exact h.enter hl hloc hp.1.2 (touches_setProc rfl) (by simp [Kernel.setState])

theorem sameState (h : Sane m) (hst : ∀ x, (k.proc x).state = (m.kern.proc x).state)
    (hpid : ∀ x, (k.proc x).pid = (m.kern.proc x).pid) (hn : k.nextpid = m.kern.nextpid) :
    Sane { m with kern := k } := by
  have ht : Touches 0 m.kern k := ⟨fun x _ => .inl (hst x),hpid,hn⟩
  refine ⟨h.pids.touches ht (by simp [hst]),h.lock_iff,h.proc_none,h.proc_inj,?_,?_,?_,
    h.child_inj,?_⟩
  · simpa [hst] using h.running
  · simpa [hst] using h.left
  · simpa [hst] using h.child
  · simpa [hst] using h.busy

theorem clearChan (h : Sane m) : Sane { m with kern := Machine.clearChan m.kern p } := by
  refine h.sameState ?_ ?_ rfl <;> intro x <;> by_cases hx : x = p <;>
    simp [Machine.clearChan,hx]

theorem waiting_code (h : Sane m) {x : Bool} (hp : (m.cpu c).proc = some p)
    (hloc : (m.cpu c).loc = .switched) (hctx : m.ctx p = .waiting x) :
    m.task (some p) = .code := by
  by_contra hne
  rcases h.busy p hne with ⟨c',hc',ha⟩ | ⟨hy,_⟩
  · obtain rfl := h.proc_inj c' c p hc' hp
    simp [hloc,Loc.atomic] at ha
  · simp [hctx] at hy

end Sane

variable {b : Build} {m m' : Machine} {c : Nat}

theorem kill_wakes (k : Kernel) (pid : Int) : Wakes k (Xv6.kill k pid) := by
  unfold Xv6.kill
  cases allSlots.find? fun p => ((k.proc p).pid : Int) = pid with
  | none => exact .refl k
  | some p =>
    simp only
    split_ifs with hs
    · refine ⟨?_,?_,?_,rfl,rfl⟩ <;> intro x <;> by_cases hx : x = p <;>
        simp_all [Kernel.setState]
    · refine ⟨?_,?_,?_,rfl,rfl⟩ <;> intro x <;> by_cases hx : x = p <;> simp [hx]

theorem setPrio_faces (k : Kernel) (p : Slot) (v : Int) : SameFaces k (Xv6.setPrio k p v) := by
  unfold Xv6.setPrio
  split_ifs
  · exact .refl k
  · exact sameFaces_setProc rfl rfl rfl rfl rfl

theorem account_faces (k : Kernel) (p : Slot) : SameFaces k (account k p) := by
  unfold account
  split_ifs
  · exact sameFaces_setProc rfl rfl rfl rfl rfl
  · exact .refl k

theorem advanceTicks_faces {k : Kernel} (h : advanceTicks b m = .ok k) : SameFaces m.kern k := by
  unfold advanceTicks at h
  split_ifs at h
  · obtain ⟨_,_,h⟩ := bind_eq_ok.mp h
    exact updateStatsAndAging_faces h
  · cases h
    exact sameFaces_of_proc rfl rfl rfl

theorem fault_wakes (k : Kernel) (p : Slot) :
    Wakes k (k.setProc p { k.proc p with killed := true }) := by
  refine ⟨?_,?_,?_,rfl,rfl⟩ <;> intro x <;> by_cases hx : x = p <;> simp [hx]

theorem tailTarget_loc {k : Kernel} {p : Slot} {l : Loc} (h : tailTarget b k p = .ok l) :
    l = .code ∨ l = .trap .yield ∨ l = .trap .preempt := by
  unfold tailTarget at h
  cases b with
  | default =>
    cases h
    split_ifs <;> simp
  | fcfs =>
    cases h
    simp
  | pbs =>
    cases h
    split_ifs <;> simp
  | mlfq =>
    simp only at h
    by_cases hneg : getQIdx k p < 0
    · rw [if_pos hneg] at h
      cases h
    · rw [if_neg hneg] at h
      obtain ⟨q,_,h⟩ := bind_eq_ok.mp h
      cases h
      split_ifs <;> simp

theorem forkCopy_same (b : Build) (k : Kernel) (p np : Slot) :
    (∀ x, ((forkCopy b k p np).proc x).state = (k.proc x).state) ∧
      (∀ x, ((forkCopy b k p np).proc x).pid = (k.proc x).pid) ∧
      (forkCopy b k p np).nextpid = k.nextpid := by
  unfold forkCopy
  simp only
  split_ifs <;> refine ⟨?_,?_,rfl⟩ <;> intro x <;> by_cases hx : x = np <;> simp [hx]

theorem dispatchMlfq_eq_ok {k k' : Kernel} {p : Slot} (h : dispatchMlfq k p = .ok k') :
    (k.proc p).state = .runnable ∧ ∃ q a k1, level (getQIdx k p) = .ok q ∧
      popFront k q = .ok (a,k1) ∧
      k' = k1.setProc p { k1.proc p with
        stat := { (k1.proc p).stat with numRun := (k1.proc p).stat.numRun + 1 },
        latestQTime := k1.ticks, state := .running } := by
  unfold dispatchMlfq at h
  split_ifs at h with hst
  obtain ⟨q,hq,h⟩ := bind_eq_ok.mp h
  obtain ⟨⟨a,k1⟩,hpop,h⟩ := bind_eq_ok.mp h
  cases h
  exact ⟨not_not.mp hst,q,a,k1,hq,hpop,rfl⟩

theorem dispatchMlfq_touches {k k' : Kernel} {p : Slot} (h : dispatchMlfq k p = .ok k') :
    Touches p k k' ∧ (k'.proc p).state = .running := by
  obtain ⟨_,q,a,k1,_,hpop,rfl⟩ := dispatchMlfq_eq_ok h
  exact ⟨(popFront_faces hpop).touches (touches_setProc rfl),by simp⟩

theorem minctimeProc_runnable {k : Kernel} {p : Slot} (h : minctimeProc k = some p) :
    (k.proc p).state = .runnable := by
  have main : ∀ (l : List Slot) (best : Option Slot),
      (∀ x, best = some x → (k.proc x).state = .runnable) →
      ∀ x, l.foldl (earlierCtime k) best = some x → (k.proc x).state = .runnable := by
    intro l
    induction l with
    | nil =>
      intro best hb x hx
      exact hb x hx
    | cons a l ih =>
      intro best hb x hx
      refine ih (earlierCtime k best a) ?_ x hx
      intro y hy
      unfold earlierCtime at hy
      split_ifs at hy with ha
      · cases best with
        | none =>
          cases hy
          exact ha
        | some z =>
          simp only at hy
          split_ifs at hy
          · cases hy
            exact ha
          · cases hy
            exact hb _ rfl
      · exact hb y hy
  exact main allSlots none (by simp) p h

theorem effect_sane {op : Op} (he : Effect b m c op m') (h : Sane m) : Sane m' := by
  cases he with
  | tableFull _ => exact h
  | alloc hloc _ _ hfind =>
    have hu := List.find?_some hfind
    exact h.alloc hloc (by simpa using hu)
  | setup _ ht hk =>
    have hf := setupProc_faces hk
    have he := (hf.state _).trans (h.child _ _ (by rw [ht]; rfl))
    exact ((h.wakes hf.wakes).setCtx he _).keepTask (by simp [ht,Task.child]) (by simp [ht])
  | @setupInit np k _ ht hk =>
    have hf := setupProc_faces hk
    have he := (hf.state _).trans (h.child _ _ (by rw [ht]; rfl))
    have h' : Sane { m with kern := { k with initproc := some np } } :=
      h.sameState hf.state hf.pid hf.nextpid
    exact (h'.setCtx he _).keepTask (by simp [ht,Task.child]) (by simp [ht])
  | allocFailed _ ht => exact h.endTask (by simp [ht,Task.child]) .unused
  | @copied p np _ _ ht =>
    obtain ⟨hst,hpid,hn⟩ := forkCopy_same b m.kern p np
    have h' := h.sameState hst hpid hn
    exact h'.keepTask (by simp [ht,Task.child]) (by simp [ht])
  | copyFailed _ _ ht => exact h.endTask (by simp [ht,Task.child]) .unused
  | initRunnable hloc _ ht =>
    refine (h.endTask (by simp [ht,Task.child]) .runnable).setLoc rfl ?_ ?_ <;>
      simp [hloc,Loc.atomic,Loc.empty]
  | forkRunnable _ _ ht => exact h.endTask (by simp [ht,Task.child]) .runnable
  | exited hp ht hl hloc hk =>
    have hx := (exit_exited hk).2
    have hr : (m.cpu c).loc ≠ .returned := by
      rcases hloc with hloc | hloc <;> simp [hloc]
    exact h.leave hp hr (.inl hl) hx.touches (by simp [hx.self]) (by simp [hx.self]) (.inl ht)
  | waited hp hloc ht hl => exact h.waitLoop hp ht (.inl ⟨hloc,hl⟩)
  | slept hp hloc ht hl _ =>
    exact h.leave hp (by simp [hloc]) (.inl hl) (touches_setProc rfl) (by simp [goToSleep])
      (by simp [goToSleep]) (.inl ht)
  | woke _ _ hk => exact h.wakes (wakeup1_woken hk).toWakes
  | killed _ => exact h.wakes (kill_wakes _ _)
  | prioSet _ _ => exact h.wakes (setPrio_faces _ _ _).wakes
  | faulted _ => exact h.wakes (fault_wakes _ _)
  | tickIdle _ hloc hk =>
    refine (h.wakes (advanceTicks_faces hk).wakes).setLoc rfl ?_ ?_ <;>
      simp [hloc,Loc.atomic,Loc.empty]
  | timerIdle _ _ => exact h
  | tickCode _ hloc hk =>
    refine (h.wakes (advanceTicks_faces hk).wakes).setLoc rfl ?_ ?_ <;>
      simp [hloc,Loc.atomic,Loc.empty]
  | timerCode _ _ hloc =>
    refine (h.wakes (account_faces _ _).wakes).setLoc rfl ?_ ?_ <;>
      simp [hloc,Loc.atomic,Loc.empty]
  | wokeTicksIdle hloc _ hk =>
    refine (h.wakes (wakeup1_woken hk).toWakes).setLoc rfl ?_ ?_ <;>
      simp [hloc,Loc.atomic,Loc.empty]
  | @wokeTicksCode p k _ hloc _ hk =>
    have hw := (wakeup1_woken hk).toWakes.trans (account_faces k p).wakes
    refine (h.wakes hw).setLoc rfl ?_ ?_ <;> simp [hloc,Loc.atomic,Loc.empty]
  | decided _ hloc hl =>
    rcases tailTarget_loc hl with rfl | rfl | rfl <;>
      exact h.setLoc rfl (by simp [hloc,Loc.atomic]) (by simp [hloc,Loc.empty])
  | @preempted p y _ hloc _ _ =>
    cases y <;>
      exact h.setLoc rfl (by simp [hloc,Loc.atomic]) (by simp [hloc,Loc.empty])
  | yielded hp hloc hl =>
    exact h.leave hp (by simp [hloc]) (.inl hl) (touches_setProc rfl) (by simp [Kernel.setState])
      (by simp [Kernel.setState]) (.inr ⟨rfl,by simp [Kernel.setState]⟩)
  | schedScan hloc hl _ => exact h.scan (.inl hl) (.inl hloc)
  | schedFcfs hloc hl _ hmin =>
    exact h.enter (.inl hl) (.inl hloc) (minctimeProc_runnable hmin) (touches_setProc rfl)
      (by simp [Kernel.setState])
  | schedFcfsNone hloc hl _ _ => exact h.release (.inl hl) (.inl hloc)
  | schedMlfq hloc hl _ hsel hdis =>
    have hf := selectMlfq_faces hsel
    obtain ⟨ht,hr⟩ := dispatchMlfq_touches hdis
    exact (h.wakes hf.wakes).enter (.inl hl) (.inl hloc) (dispatchMlfq_eq_ok hdis).1 ht hr
  | schedMlfqNone hloc hl _ hsel =>
    exact (h.wakes (selectMlfq_faces hsel).wakes).release (.inl hl) (.inl hloc)
  | resumed hp hloc hl _ => exact h.resumed hp hloc hl
  | resumedSlept hp hloc hl _ =>
    exact h.clearChan.resumed hp hloc hl
  | resumedWait hp hloc hl hctx =>
    exact h.clearChan.waitLoop hp (h.waiting_code hp hloc hctx) (.inr ⟨hloc,hl⟩)
  | backScan _ hloc hl _ => exact h.scan (.inr hl) (.inr hloc)
  | backRelease _ hloc hl _ => exact h.release (.inr hl) (.inr hloc)
  | backMlfq _ hloc hl _ hk =>
    exact (h.wakes (requeue_faces hk).wakes).release (.inr hl) (.inr hloc)

theorem effect_keeps_cpu {op : Op} (he : Effect b m c op m') (h1 : op ≠ .sched)
    (h2 : op ≠ .back) (x : Nat) :
    (m'.cpu x).proc = (m.cpu x).proc ∧ (m'.cpu x).minPrio = (m.cpu x).minPrio ∧
      (m'.cpu x).next = (m.cpu x).next := by
  have hwait : ∀ (k : Kernel) (p : Slot) (y : Bool),
      (({ m with kern := k }.waitLoop c p y).cpu x).proc = (m.cpu x).proc ∧
      (({ m with kern := k }.waitLoop c p y).cpu x).minPrio = (m.cpu x).minPrio ∧
      (({ m with kern := k }.waitLoop c p y).cpu x).next = (m.cpu x).next := by
    intro k p y
    unfold waitLoop
    by_cases hx : x = c <;> split <;> simp [leave,hx]
  cases he with
  | waited _ _ _ _ => exact hwait _ _ _
  | resumedWait _ _ _ _ => exact hwait _ _ _
  | schedScan _ _ _ => exact absurd rfl h1
  | schedFcfs _ _ _ _ => exact absurd rfl h1
  | schedFcfsNone _ _ _ _ => exact absurd rfl h1
  | schedMlfq _ _ _ _ _ => exact absurd rfl h1
  | schedMlfqNone _ _ _ _ => exact absurd rfl h1
  | backScan _ _ _ _ => exact absurd rfl h2
  | backRelease _ _ _ _ => exact absurd rfl h2
  | backMlfq _ _ _ _ _ => exact absurd rfl h2
  | _ => by_cases hx : x = c <;> simp [leave,hx]

theorem effect_returned {op : Op} (he : Effect b m c op m') (hs : Sane m) (hop : op ≠ .back)
    {x : Nat} (hx : (m.cpu x).loc = .returned) : m'.cpu x = m.cpu x := by
  have hwait : ∀ (k : Kernel) (p : Slot) (y : Bool), (m.cpu c).loc ≠ .returned →
      ({ m with kern := k }.waitLoop c p y).cpu x = m.cpu x := by
    intro k p y hc
    have hxc : x ≠ c := by
      rintro rfl
      exact hc hx
    unfold waitLoop
    split <;> simp [leave,hxc]
  have hne : ∀ {l : Loc}, (m.cpu c).loc = l → l ≠ .returned → x ≠ c := by
    rintro l hl hr rfl
    exact hr (hl.symm.trans hx)
  cases he with
  | waited _ hloc _ _ => exact hwait _ _ _ (by simp [hloc])
  | resumedWait _ hloc _ _ => exact hwait _ _ _ (by simp [hloc])
  | initRunnable hloc _ _ => simp [hne hloc (by decide)]
  | exited _ _ hlock _ _ => exact absurd hx (hs.not_returned hlock x)
  | slept _ hloc _ _ _ => simp [leave,hne hloc (by decide)]
  | tickIdle _ hloc _ => simp [hne hloc (by decide)]
  | tickCode _ hloc _ => simp [hne hloc (by decide)]
  | timerCode _ _ hloc => simp [hne hloc (by decide)]
  | wokeTicksIdle hloc _ _ => simp [hne hloc (by decide)]
  | wokeTicksCode _ hloc _ _ => simp [hne hloc (by decide)]
  | decided _ hloc _ => simp [hne hloc (by decide)]
  | preempted _ hloc _ _ => simp [hne hloc (by decide)]
  | yielded _ hloc _ => simp [leave,hne hloc (by decide)]
  | schedScan _ hlock _ => exact absurd hx (hs.not_returned hlock x)
  | schedFcfs _ hlock _ _ => exact absurd hx (hs.not_returned hlock x)
  | schedFcfsNone _ hlock _ _ => exact absurd hx (hs.not_returned hlock x)
  | schedMlfq _ hlock _ _ _ => exact absurd hx (hs.not_returned hlock x)
  | schedMlfqNone _ hlock _ _ => exact absurd hx (hs.not_returned hlock x)
  | resumed _ hloc _ _ => simp [hne hloc (by decide)]
  | resumedSlept _ hloc _ _ => simp [hne hloc (by decide)]
  | backScan _ _ _ _ => exact absurd rfl hop
  | backRelease _ _ _ _ => exact absurd rfl hop
  | backMlfq _ _ _ _ _ => exact absurd rfl hop
  | _ => rfl

theorem step_effect {ncpu : Nat} {a : Action} (h : (xv6 b ncpu).step m a = .ok m') :
    Effect b m a.cpu a.op m' := by
  obtain ⟨_,_,h⟩ := bind_eq_ok.mp h
  exact stepOn_effect h

theorem step_sane {ncpu : Nat} {a : Action} (hs : Sane m) (h : (xv6 b ncpu).step m a = .ok m') :
    Sane m' :=
  effect_sane (step_effect h) hs

theorem reachable_sane {ncpu : Nat} (h : (xv6 b ncpu).Reachable m) : Sane m :=
  h.invariant Sane sane_boot fun _ _ _ _ hs _ ht => step_sane hs ht

def Dispatched (a : Action) (m' : Machine) (p : Slot) : Prop :=
  (a.op = .sched ∨ a.op = .back) ∧ (m'.cpu a.cpu).loc = .switched ∧ (m'.cpu a.cpu).proc = some p

instance (a : Action) (m' : Machine) (p : Slot) : Decidable (Dispatched a m' p) :=
  inferInstanceAs (Decidable (_ ∧ _ ∧ _))

theorem not_dispatched {op : Op} {p : Slot} (h : (m'.cpu c).loc = .idle) : ¬ Dispatched ⟨c,op⟩ m' p := by
  rintro ⟨_,hloc,_⟩
  rw [h] at hloc
  cases hloc

def Passes (b : Build) (ncpu : Nat) (m : Machine) (c : Nat) : Prop :=
  ∃ m' p, (xv6 b ncpu).step m ⟨c,.sched⟩ = .ok m' ∧ Dispatched ⟨c,.sched⟩ m' p

theorem not_passes {ncpu : Nat} (hs : (xv6 b ncpu).step m ⟨c,.sched⟩ = .ok m')
    (h : (m'.cpu c).loc = .idle) : ¬ Passes b ncpu m c := by
  rintro ⟨m1,p,hm,hp⟩
  rw [hs] at hm
  cases hm
  exact not_dispatched h hp

theorem step_eq {ncpu : Nat} {op : Op} (hc : c < ncpu) :
    (xv6 b ncpu).step m ⟨c,op⟩ = m.stepOn b c op := by
  show step b ncpu m ⟨c,op⟩ = _
  unfold step need
  rw [if_pos hc]
  rfl

theorem need_of {P : Prop} [Decidable P] (h : P) : need P = .ok () := if_pos h

def forkRun : List Action :=
  [⟨0,.allocproc⟩,⟨0,.kalloc true⟩,⟨0,.copyuvm true⟩,⟨0,.setRunnable⟩]

def userinitRun : List Action := [⟨0,.allocproc⟩,⟨0,.kalloc true⟩,⟨0,.setRunnable⟩]

def bootRun : List Action := userinitRun ++ [⟨0,.sched⟩,⟨0,.resume⟩]

def idleTicksRun (n : Nat) : List Action :=
  (List.replicate n [⟨0,.timer⟩,⟨0,.wakeTicks⟩]).flatten

def sliceEndRun : List Action :=
  [⟨0,.timer⟩,⟨0,.wakeTicks⟩,⟨0,.tail⟩,⟨0,.yield⟩,⟨0,.back⟩]

def demotedInitRun : List Action := bootRun ++ sliceEndRun

def demotedParentRun : List Action := bootRun ++ forkRun ++ sliceEndRun

def tickRun : List Action :=
  [⟨0,.timer⟩,⟨0,.wakeTicks⟩,⟨0,.tail⟩,⟨0,.preempt⟩,⟨0,.yield⟩]

end Machine
end Xv6
