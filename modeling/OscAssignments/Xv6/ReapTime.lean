import OscAssignments.Xv6.CpuTime

namespace Xv6
open Runs

namespace Machine
variable {b : Build} {m m' n : Machine} {c ncpu d : Nat} {op : Op} {z : Slot} {ts : List Trans}

structure Finished (z : Slot) (d : Nat) (rtime ctime : BitVec 32) (m : Machine) : Prop where
  sane : Sane m
  settled : Settled m d z
  kept : (m.kern.proc z).pid = d → (m.kern.proc z).state = .zombie ∧
    (m.kern.proc z).rtime = rtime ∧ (m.kern.proc z).ctime = ctime

theorem Posts.zombie (hs : Sane m) (h : Posts b m c m' op)
    (hz : (m.kern.proc z).state = .zombie) :
    (m'.kern.proc z).rtime = (m.kern.proc z).rtime ∧
      (m'.kern.proc z).ctime = (m.kern.proc z).ctime := by
  have hbook : ∀ {l : Ledger}, ledger (m'.kern.proc z) = l → l.rtime = (m.kern.proc z).rtime →
      l.ctime = (m.kern.proc z).ctime → (m'.kern.proc z).rtime = (m.kern.proc z).rtime ∧
        (m'.kern.proc z).ctime = (m.kern.proc z).ctime := by
    rintro l rfl hr hc
    exact ⟨hr,hc⟩
  have hpost : ∀ {x : Slot} {f : Ledger → Ledger}, Posted x f m.kern m'.kern →
      (∀ l, (f l).rtime = l.rtime) → (∀ l, (f l).ctime = l.ctime) →
      (m'.kern.proc z).rtime = (m.kern.proc z).rtime ∧
        (m'.kern.proc z).ctime = (m.kern.proc z).ctime := by
    intro x f hp hr hc
    exact ⟨hp.field Ledger.rtime hr z,hp.field Ledger.ctime hc z⟩
  cases h with
  | same hb _ _ _ => exact hbook (hb.ledger z) rfl rfl
  | @created np ht hp =>
    have hne : z ≠ np := by
      rintro rfl
      have := hs.child _ z (by rw [ht]; rfl)
      simp [hz] at this
    exact hbook (hp.others z hne) rfl rfl
  | copied _ hp => exact hpost hp (fun _ => rfl) fun _ => rfl
  | prioSet hp => exact hpost hp (fun _ => rfl) fun _ => rfl
  | ticked _ _ ht =>
    have hl := ht.ledger z
    split_ifs at hl
    · exact hbook hl rfl rfl
    · exact hbook hl rfl rfl
  | @accounted _ x _ hrun _ _ hp =>
    have hne : z ≠ x := by
      rintro rfl
      simp [hz] at hrun
    exact hbook (hp.others z hne) rfl rfl
  | dispatched _ _ hp => exact hpost hp (fun _ => rfl) fun _ => rfl

theorem Finished.step {r t : BitVec 32} (h : Finished z d r t m) (hd : 0 < d)
    (he : Effect b m c op m') : Finished z d r t m' := by
  have hf := effect_fates h.sane he
  refine ⟨effect_sane he h.sane,h.settled.step hd hf,?_⟩
  intro hpid'
  have hlt := h.settled.lt
  have hpid : (m.kern.proc z).pid = d := by
    rcases (hf.fate z).pid_eq with e | e | e
    · exact e.symm.trans hpid'
    · omega
    · omega
  obtain ⟨hz,hr,hc⟩ := h.kept hpid
  obtain ⟨hr',hc'⟩ := (effect_posts h.sane he).zombie h.sane hz
  refine ⟨?_,hr'.trans hr,hc'.trans hc⟩
  cases hf.fate z with
  | stays hst _ => exact hst.trans hz
  | woken hst _ _ => simp [hz] at hst
  | taken _ hfind _ _ =>
    have hun := List.find?_some hfind
    simp [hz] at hun
  | abandoned hst _ _ => simp [hz] at hst
  | born ht _ _ =>
    have hch : (m.task (m.cpu c).proc).child = some z := by
      rcases ht with e | e <;> rw [e] <;> rfl
    have := h.sane.child _ z hch
    simp [hz] at this
  | dispatched _ hst _ _ => simp [hz] at hst
  | left _ hst _ _ => simp [hz] at hst
  | reaped _ _ h0 => omega

theorem Finished.path {r t : BitVec 32} (h : Finished z d r t m) (hd : 0 < d)
    (hp : (xv6 b ncpu).Path m ts n) : Finished z d r t n :=
  hp.preserves (Finished z d r t) h fun _ _ _ _ ht hf => hf.step hd (step_effect ht)

theorem exit_finished (hs : Sane m) (hp : (m.cpu c).proc = some z)
    (hd : (m.kern.proc z).pid = d) (he : Effect b m c .exit m') :
    0 < d ∧ m'.kern.ticks = m.kern.ticks ∧
      Finished z d (m.kern.proc z).rtime (m.kern.proc z).ctime m' := by
  cases he with
  | @exited p k hp' _ hlock hloc hk =>
    obtain rfl := Option.some.inj (hp'.symm.trans hp)
    have hrun := hs.running c p hp (by rcases hloc with e | e <;> simp [e])
    have hd0 : 0 < d := hd ▸ hs.pids.pos p (by simp [hrun])
    have hx := (exit_exited hk).2
    have hb := exit_books hk
    have he : Effect b m c .exit ({ m with kern := k }.leave c p .forkret) :=
      .exited hp ‹_› hlock hloc hk
    have hset := (settled_of_pid hs hd0 hd).step hd0 (effect_fates hs he)
    refine ⟨hd0,hb.ticks,effect_sane he hs,hset,?_⟩
    intro _
    exact ⟨hx.self,congrArg Ledger.rtime (hb.ledger p),congrArg Ledger.ctime (hb.ledger p)⟩

theorem Finished.stores {r t : BitVec 32} {a : Action} {w : WaitxTimes}
    (h : Finished z d r t m) (hs : waitxStores m a = some w) (hd : w.pid = d) :
    w = ⟨d,r.toInt,(m.kern.ticks - t - r).toInt⟩ := by
  obtain ⟨y,_,rfl⟩ := waitxStores_some hs
  obtain rfl := h.settled.only y hd
  obtain ⟨-,hr,hc⟩ := h.kept hd
  simp only [waitxRtime,waitxWtime,hr,hc,WaitxTimes.mk.injEq,and_true]
  exact hd

structure ReapFree (m : Machine) (z : Slot) (w w' : WaitxTimes) : Prop where
  rtime : w.rtime = w'.rtime
  wtime : w.wtime = w'.wtime
  total : BitVec.ofInt 32 (w.wtime + w.rtime) = m.kern.ticks - (m.kern.proc z).ctime

theorem ofNat_eq_zero_iff {N : Nat} : BitVec.ofNat 32 N = 0#32 ↔ 2 ^ 32 ∣ N := by
  rw [BitVec.toNat_eq]
  simp only [BitVec.toNat_ofNat]
  omega

theorem waitx_reap_time_iff {n₁ n₂ : Machine} {ts₁ ts₂ : List Trans} {a₁ a₂ : Action}
    {w₁ w₂ : WaitxTimes} (h : (xv6 b ncpu).Reachable m) (hp : (m.cpu c).proc = some z)
    (hexit : (xv6 b ncpu).step m ⟨c,.exit⟩ = .ok m')
    (h₁ : (xv6 b ncpu).Path m' ts₁ n₁) (h₂ : (xv6 b ncpu).Path m' ts₂ n₂)
    (hw₁ : waitxStores n₁ a₁ = some w₁) (hw₂ : waitxStores n₂ a₂ = some w₂)
    (hd₁ : w₁.pid = (m.kern.proc z).pid) (hd₂ : w₂.pid = (m.kern.proc z).pid) :
    ReapFree m z w₁ w₂ ↔ 2 ^ 32 ∣ ts₁.countP isTick ∧ 2 ^ 32 ∣ ts₂.countP isTick := by
  obtain ⟨hd,ht,hf⟩ := exit_finished (reachable_sane h) hp rfl (step_effect hexit)
  have ht₁ := path_ticks hf.sane h₁
  have ht₂ := path_ticks hf.sane h₂
  rw [ht] at ht₁ ht₂
  have hw₁ := (hf.path hd h₁).stores hw₁ hd₁
  have hw₂ := (hf.path hd h₂).stores hw₂ hd₂
  rw [ht₁] at hw₁
  rw [ht₂] at hw₂
  rw [← ofNat_eq_zero_iff,← ofNat_eq_zero_iff]
  generalize BitVec.ofNat 32 (ts₁.countP isTick) = N₁ at hw₁ ⊢
  generalize BitVec.ofNat 32 (ts₂.countP isTick) = N₂ at hw₂ ⊢
  subst hw₁ hw₂
  constructor
  · rintro ⟨-,hw,htot⟩
    have h12 := BitVec.toInt_inj.mp hw
    simp only [BitVec.ofInt_add,BitVec.ofInt_toInt] at htot
    have h1 : N₁ = 0#32 := by bv_omega
    refine ⟨h1,?_⟩
    bv_omega
  · rintro ⟨rfl,rfl⟩
    refine ⟨rfl,rfl,?_⟩
    simp only [BitVec.ofInt_add,BitVec.ofInt_toInt]
    bv_omega

def childRun : List Action :=
  bootRun ++ forkRun ++ [⟨0,.wait true⟩,⟨0,.back⟩,⟨0,.sched⟩,⟨0,.resume⟩]

def promptRun : List Action := [⟨0,.back⟩,⟨0,.sched⟩]

def wokenRun : List Action := [⟨0,.back⟩,⟨0,.wakeup (.other 0)⟩,⟨0,.sched⟩]

def lateRun : List Action := [⟨0,.back⟩,⟨0,.timer⟩,⟨0,.wakeTicks⟩,⟨0,.sched⟩]

def exitedRun : List Action := childRun ++ [⟨0,.exit⟩]

theorem waitx_reap_time_iff_prompt :
    ReapFree ((xv6 .fcfs 1).after childRun) 1 ⟨2,0,0⟩ ⟨2,0,0⟩ := by
  have hrun : (xv6 .fcfs 1).Reachable ((xv6 .fcfs 1).after childRun) :=
    System.reachable_after (by decide +kernel)
  have hexit : (xv6 .fcfs 1).step ((xv6 .fcfs 1).after childRun) ⟨0,.exit⟩ =
      .ok ((xv6 .fcfs 1).after exitedRun) := System.step_after (by decide +kernel)
  have h₁ : (xv6 .fcfs 1).Path ((xv6 .fcfs 1).after exitedRun)
      ((xv6 .fcfs 1).transitions ((xv6 .fcfs 1).after exitedRun) promptRun)
      ((xv6 .fcfs 1).after (exitedRun ++ promptRun)) := System.path_after (by decide +kernel)
  have h₂ : (xv6 .fcfs 1).Path ((xv6 .fcfs 1).after exitedRun)
      ((xv6 .fcfs 1).transitions ((xv6 .fcfs 1).after exitedRun) wokenRun)
      ((xv6 .fcfs 1).after (exitedRun ++ wokenRun)) := System.path_after (by decide +kernel)
  have hw₁ : waitxStores ((xv6 .fcfs 1).after (exitedRun ++ promptRun)) ⟨0,.resume⟩ =
      some ⟨2,0,0⟩ := by decide +kernel
  have hw₂ : waitxStores ((xv6 .fcfs 1).after (exitedRun ++ wokenRun)) ⟨0,.resume⟩ =
      some ⟨2,0,0⟩ := by decide +kernel
  exact (waitx_reap_time_iff hrun (by decide +kernel) hexit h₁ h₂ hw₁ hw₂ (by decide +kernel)
    (by decide +kernel)).mpr ⟨by decide +kernel,by decide +kernel⟩

theorem waitx_depends_on_reap_time :
    ¬ ∀ (b : Build) (ncpu c : Nat) (m m' n₁ n₂ : Machine) (z : Slot) (ts₁ ts₂ : List Trans)
      (a₁ a₂ : Action) (w₁ w₂ : WaitxTimes), (xv6 b ncpu).Reachable m →
      (m.cpu c).proc = some z → (xv6 b ncpu).step m ⟨c,.exit⟩ = .ok m' →
      (xv6 b ncpu).Path m' ts₁ n₁ → (xv6 b ncpu).Path m' ts₂ n₂ →
      waitxStores n₁ a₁ = some w₁ → waitxStores n₂ a₂ = some w₂ →
      w₁.pid = (m.kern.proc z).pid → w₂.pid = (m.kern.proc z).pid → ReapFree m z w₁ w₂ := by
  intro h
  have hexit : (xv6 .fcfs 1).step ((xv6 .fcfs 1).after childRun) ⟨0,.exit⟩ =
      .ok ((xv6 .fcfs 1).after exitedRun) := System.step_after (by decide +kernel)
  have h₁ : (xv6 .fcfs 1).Path ((xv6 .fcfs 1).after exitedRun)
      ((xv6 .fcfs 1).transitions ((xv6 .fcfs 1).after exitedRun) promptRun)
      ((xv6 .fcfs 1).after (exitedRun ++ promptRun)) := System.path_after (by decide +kernel)
  have h₂ : (xv6 .fcfs 1).Path ((xv6 .fcfs 1).after exitedRun)
      ((xv6 .fcfs 1).transitions ((xv6 .fcfs 1).after exitedRun) lateRun)
      ((xv6 .fcfs 1).after (exitedRun ++ lateRun)) := System.path_after (by decide +kernel)
  have hw := h .fcfs 1 0 _ _ _ _ 1 _ _ ⟨0,.resume⟩ ⟨0,.resume⟩ ⟨2,0,0⟩ ⟨2,0,1⟩
    (System.reachable_after (by decide +kernel)) (by decide +kernel) hexit h₁ h₂
    (by decide +kernel) (by decide +kernel) (by decide +kernel) (by decide +kernel)
  exact absurd hw.wtime (by decide)

end Machine
end Xv6
