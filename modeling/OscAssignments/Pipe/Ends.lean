import OscAssignments.Pipe.Moves
import OscAssignments.Lib.Tally

namespace Pipe
open Runs Tally

variable {n : Nat}

namespace Machine
variable {m m' c : Machine n} {p q : Fin n} {e : End} {a : Act n}

theorem userMode_eq (h : m.userMode p = true) : ∃ ret, m.pc p = .user ret := by
  unfold userMode at h
  split at h
  case h_1 ret hpc => exact ⟨ret,hpc⟩
  case h_2 => cases h

theorem userMode_uses (h : m.userMode p = true) : (m.pc p).uses = none := by
  obtain ⟨ret,hpc⟩ := userMode_eq h
  rw [hpc]
  rfl

theorem userMode_closes (h : m.userMode p = true) : (m.pc p).closes = none := by
  obtain ⟨ret,hpc⟩ := userMode_eq h
  rw [hpc]
  rfl

structure Sane (m : Machine n) : Prop where
  refs : ∀ e, total (fun f => f e) m.fds = m.ref e
  uses : ∀ q e, (m.pc q).uses = some e → 0 < m.fds q e
  isOpen : ∀ e, m.isOpen e = true ↔ 0 < m.ref e ∨ ∃ q, (m.pc q).closes = some e
  closing : ∀ q e, (m.pc q).closes = some e → m.ref e = 0
  once : ∀ q q' e, (m.pc q).closes = some e → (m.pc q').closes = some e → q = q'
  freed : m.freed = true ↔ ∀ e, m.isOpen e = false

structure Calm (m m' : Machine n) : Prop where
  ref : m'.ref = m.ref
  fds : m'.fds = m.fds
  isOpen : m'.isOpen = m.isOpen
  freed : m'.freed = m.freed
  closes : ∀ q, (m'.pc q).closes = (m.pc q).closes
  uses : ∀ q e, (m'.pc q).uses = some e → (m.pc q).uses = some e ∨ 0 < m.fds q e

theorem Calm.wakeup (h : Calm m c) (e : End) : Calm m (c.wakeup e) := by
  refine ⟨h.ref,h.fds,h.isOpen,h.freed,?_,?_⟩
  · intro q
    exact ((c.pc q).closes_wake e).trans (h.closes q)
  · intro q x hx
    exact h.uses q x (((c.pc q).uses_wake e).symm.trans hx)

theorem Calm.unlock (h : Calm m c) : Calm m c.unlock :=
  ⟨h.ref,h.fds,h.isOpen,h.freed,h.closes,h.uses⟩

theorem Calm.setPc (h : Calm m c) {pc : Pc} (hclose : pc.closes = (m.pc p).closes)
    (huse : ∀ e, pc.uses = some e → (m.pc p).uses = some e ∨ 0 < m.fds p e) :
    Calm m (c.setPc p pc) := by
  refine ⟨h.ref,h.fds,h.isOpen,h.freed,?_,?_⟩
  · intro q
    rcases eq_or_ne q p with rfl | hne
    · rw [setPc_pc,Function.update_self,hclose]
    · rw [setPc_pc,Function.update_of_ne hne]
      exact h.closes q
  · intro q x
    rcases eq_or_ne q p with rfl | hne
    · rw [setPc_pc,Function.update_self]
      exact huse x
    · rw [setPc_pc,Function.update_of_ne hne]
      exact h.uses q x

theorem Calm.inside (h : Calm m c) {pc : Pc} (hclose : (m.pc p).closes = none)
    (hclose' : pc.closes = none) (huse : pc.uses = none ∨ pc.uses = (m.pc p).uses) :
    Calm m (c.setPc p pc) := by
  refine h.setPc (hclose'.trans hclose.symm) ?_
  intro e he
  rcases huse with hnone | hsame
  · rw [hnone] at he
    cases he
  · exact .inl (hsame.symm.trans he)

theorem Sane.calm (h : Sane m) (hc : Calm m m') : Sane m' := by
  constructor
  · intro e
    rw [hc.fds,hc.ref]
    exact h.refs e
  · intro q e he
    rw [hc.fds]
    rcases hc.uses q e he with hu | hfd
    · exact h.uses q e hu
    · exact hfd
  · intro e
    simp only [hc.isOpen,hc.ref,hc.closes]
    exact h.isOpen e
  · intro q e
    rw [hc.closes,hc.ref]
    exact h.closing q e
  · intro q q' e
    rw [hc.closes,hc.closes]
    exact h.once q q' e
  · rw [hc.freed,hc.isOpen]
    exact h.freed

theorem total_setFds (m : Machine n) (p : Fin n) (e x : End) (k : Nat) :
    total (fun f => f x) (m.setFds p e k).fds + m.fds p x =
      total (fun f => f x) m.fds + Function.update (m.fds p) e k x := by
  have hchange := total_change (w := fun f : End → Nat => f x) (f := m.fds)
    (g := (m.setFds p e k).fds) (i := p) fun j hj => by
      simp only [setFds,Function.update_of_ne hj]
  rw [hchange]
  simp [setFds]

theorem fds_setFds_pos (m : Machine n) {p q : Fin n} {e x : End} {k : Nat}
    (hk : m.fds p e ≤ k ∨ q ≠ p) (h : 0 < m.fds q x) : 0 < (m.setFds p e k).fds q x := by
  rcases eq_or_ne q p with rfl | hne
  · have hle := hk.resolve_right (· rfl)
    rcases eq_or_ne x e with rfl | hx
    · simp only [setFds,Function.update_self]
      omega
    · simpa [setFds,hx] using h
  · simpa [setFds,hne] using h

theorem Sane.fds_le (h : Sane m) (q : Fin n) (e : End) : m.fds q e ≤ m.ref e := by
  rw [← h.refs e]
  exact Finset.single_le_sum (f := fun i => m.fds i e) (fun _ _ => Nat.zero_le _)
    (Finset.mem_univ q)

theorem Sane.isOpen_of_uses (h : Sane m) (hu : (m.pc q).uses = some e) : m.isOpen e = true :=
  (h.isOpen e).mpr (.inl (Nat.lt_of_lt_of_le (h.uses q e hu) (h.fds_le q e)))

theorem Sane.not_freed (h : Sane m) (ho : m.isOpen e = true) : m.freed = false := by
  cases hf : m.freed with
  | false => rfl
  | true =>
    rw [h.freed.mp hf e] at ho
    cases ho

theorem sane_dup (h : Sane m) (href : 1 ≤ m.ref e) :
    Sane ({ m with ref := Function.update m.ref e (m.ref e + 1) }.setFds q e (m.fds q e + 1)) := by
  have hpos : ∀ x, 0 < Function.update m.ref e (m.ref e + 1) x ↔ 0 < m.ref x := by
    intro x
    rcases eq_or_ne x e with rfl | hx
    · rw [Function.update_self]
      omega
    · rw [Function.update_of_ne hx]
  constructor
  · intro x
    have htotal := total_setFds m q e x (m.fds q e + 1)
    rw [h.refs x] at htotal
    change total _ (m.setFds q e _).fds = Function.update m.ref e (m.ref e + 1) x
    rcases eq_or_ne x e with rfl | hx
    · rw [Function.update_self] at htotal ⊢
      omega
    · rw [Function.update_of_ne hx] at htotal ⊢
      omega
  · intro r x hx
    exact fds_setFds_pos m (.inl (Nat.le_succ _)) (h.uses r x hx)
  · intro x
    change m.isOpen x = true ↔ 0 < Function.update m.ref e (m.ref e + 1) x ∨ _
    rw [hpos]
    exact h.isOpen x
  · intro r x hx
    change Function.update m.ref e (m.ref e + 1) x = 0
    have hzero := h.closing r x hx
    have hsame := hpos x
    omega
  · exact h.once
  · exact h.freed

theorem sane_drop (h : Sane m) (hp : m.userMode p = true) (hfd : 0 < m.fds p e) {k : Nat}
    (hk : m.ref e = k + 1) {pc : Pc} (hpc : k = 0 ∧ pc = .close e ∨ 0 < k ∧ pc = m.pc p) :
    Sane ({ m.setFds p e (m.fds p e - 1) with ref := Function.update m.ref e k }.setPc p pc) := by
  have hopen : m.isOpen e = true := (h.isOpen e).mpr (.inl (by omega))
  have hnot : ∀ r, (m.pc r).closes ≠ some e := by
    intro r hr
    have hzero := h.closing r e hr
    omega
  have hpcuse : pc.uses = none := by
    rcases hpc with ⟨-,rfl⟩ | ⟨-,rfl⟩
    · rfl
    · exact userMode_uses hp
  have hcloses : ∀ x, pc.closes = some x ↔ k = 0 ∧ x = e := by
    intro x
    rcases hpc with ⟨rfl,rfl⟩ | ⟨hpos,rfl⟩
    · simp [Pc.closes,eq_comm]
    · rw [userMode_closes hp]
      exact iff_of_false (by simp) (by omega)
  constructor
  · intro x
    have htotal := total_setFds m p e x (m.fds p e - 1)
    rw [h.refs x] at htotal
    change total _ (m.setFds p e _).fds = Function.update m.ref e k x
    rcases eq_or_ne x e with rfl | hx
    · rw [Function.update_self] at htotal ⊢
      omega
    · rw [Function.update_of_ne hx] at htotal ⊢
      omega
  · intro r x hx
    rcases eq_or_ne r p with rfl | hne
    · rw [setPc_pc,Function.update_self,hpcuse] at hx
      cases hx
    · rw [setPc_pc,Function.update_of_ne hne] at hx
      exact fds_setFds_pos m (.inr hne) (h.uses r x hx)
  · intro x
    change m.isOpen x = true ↔ 0 < Function.update m.ref e k x ∨ _
    rcases eq_or_ne x e with rfl | hx
    · rw [hopen,Function.update_self,eq_self,true_iff]
      rcases Nat.eq_zero_or_pos k with hzero | hpos
      · refine .inr ⟨p,?_⟩
        rw [setPc_pc,Function.update_self]
        exact (hcloses x).mpr ⟨hzero,rfl⟩
      · exact .inl hpos
    · rw [Function.update_of_ne hx,h.isOpen x]
      refine or_congr_right (exists_congr fun r => ?_)
      rcases eq_or_ne r p with rfl | hne
      · rw [setPc_pc,Function.update_self,userMode_closes hp]
        exact iff_of_false (by simp) fun hc => hx ((hcloses x).mp hc).2
      · rw [setPc_pc,Function.update_of_ne hne]
        rfl
  · intro r x hx
    change Function.update m.ref e k x = 0
    rcases eq_or_ne r p with rfl | hne
    · rw [setPc_pc,Function.update_self] at hx
      obtain ⟨hzero,rfl⟩ := (hcloses x).mp hx
      rw [Function.update_self,hzero]
    · rw [setPc_pc,Function.update_of_ne hne] at hx
      have hxe : x ≠ e := by
        rintro rfl
        exact hnot r hx
      rw [Function.update_of_ne hxe]
      exact h.closing r x hx
  · intro r s x hr hs
    rcases eq_or_ne r p with rfl | hrp
    · rcases eq_or_ne s r with rfl | hsr
      · rfl
      · rw [setPc_pc,Function.update_self] at hr
        rw [setPc_pc,Function.update_of_ne hsr] at hs
        obtain ⟨-,rfl⟩ := (hcloses x).mp hr
        exact absurd hs (hnot s)
    · rw [setPc_pc,Function.update_of_ne hrp] at hr
      rcases eq_or_ne s p with rfl | hsp
      · rw [setPc_pc,Function.update_self] at hs
        obtain ⟨-,rfl⟩ := (hcloses x).mp hs
        exact absurd hr (hnot r)
      · rw [setPc_pc,Function.update_of_ne hsp] at hs
        exact h.once r s x hr hs
  · exact h.freed

theorem pipeclose_frame (m : Machine n) (e : End) :
    (m.pipeclose e).ref = m.ref ∧ (m.pipeclose e).fds = m.fds ∧
      (m.pipeclose e).isOpen = Function.update m.isOpen e false ∧
      (m.pipeclose e).pc = fun q => (m.pc q).wake e.other := by
  unfold pipeclose
  dsimp only
  split_ifs <;> exact ⟨rfl,rfl,rfl,rfl⟩

theorem pipeclose_freed (m : Machine n) (e : End) :
    (m.pipeclose e).freed = true ↔ m.freed = true ∨ ∀ x, (m.pipeclose e).isOpen x = false := by
  have hall : (∀ x, (m.pipeclose e).isOpen x = false) ↔
      Function.update m.isOpen e false .read = false ∧
        Function.update m.isOpen e false .write = false := by
    rw [(pipeclose_frame m e).2.2.1]
    constructor
    · exact fun h => ⟨h .read,h .write⟩
    · rintro ⟨hr,hw⟩ x
      cases x with
      | read => exact hr
      | write => exact hw
  rw [hall]
  unfold pipeclose
  dsimp only
  split_ifs with hboth
  · exact iff_of_true rfl (.inr hboth)
  · exact (or_iff_left hboth).symm

theorem sane_pipeclose (h : Sane m) (hpc : m.pc p = .close e) :
    Sane ((m.pipeclose e).setPc p (.user 0)) := by
  obtain ⟨href,hfds,hopen,hpcs⟩ := pipeclose_frame m e
  have hself : (m.pc p).closes = some e := by rw [hpc]; rfl
  have hzero := h.closing p e hself
  have hcloses : ∀ r, (((m.pipeclose e).setPc p (.user 0)).pc r).closes =
      if r = p then none else (m.pc r).closes := by
    intro r
    split_ifs with hr
    · rw [hr,setPc_pc,Function.update_self]
      rfl
    · rw [setPc_pc,Function.update_of_ne hr,hpcs]
      exact (m.pc r).closes_wake _
  have hback : ∀ {r x}, (((m.pipeclose e).setPc p (.user 0)).pc r).closes = some x →
      (m.pc r).closes = some x := by
    intro r x hx
    rw [hcloses] at hx
    split_ifs at hx
    exact hx
  constructor
  · intro x
    change total _ (m.pipeclose e).fds = (m.pipeclose e).ref x
    rw [hfds,href]
    exact h.refs x
  · intro r x hx
    change 0 < (m.pipeclose e).fds r x
    rw [hfds]
    rcases eq_or_ne r p with rfl | hne
    · rw [setPc_pc,Function.update_self] at hx
      cases hx
    · rw [setPc_pc,Function.update_of_ne hne,hpcs] at hx
      exact h.uses r x (((m.pc r).uses_wake _).symm.trans hx)
  · intro x
    change (m.pipeclose e).isOpen x = true ↔ 0 < (m.pipeclose e).ref x ∨ _
    rw [hopen,href]
    rcases eq_or_ne x e with rfl | hx
    · rw [Function.update_self,hzero]
      refine iff_of_false (by simp) ?_
      rintro (hpos | ⟨r,hr⟩)
      · exact absurd hpos (lt_irrefl 0)
      · have hrp := h.once r p x (hback hr) hself
        rw [hcloses,if_pos hrp] at hr
        cases hr
    · rw [Function.update_of_ne hx,h.isOpen x]
      refine or_congr_right (exists_congr fun r => ?_)
      rw [hcloses]
      split_ifs with hr
      · rw [hr,hself]
        exact iff_of_false (fun he => hx (Option.some.inj he).symm) (by simp)
      · rfl
  · intro r x hx
    change (m.pipeclose e).ref x = 0
    rw [href]
    exact h.closing r x (hback hx)
  · intro r s x hr hs
    exact h.once r s x (hback hr) (hback hs)
  · change (m.pipeclose e).freed = true ↔ _
    rw [pipeclose_freed]
    refine or_iff_right fun hfreed => ?_
    have hclosed := h.freed.mp hfreed e
    rw [(h.isOpen e).mpr (.inr ⟨p,hself⟩)] at hclosed
    cases hclosed

theorem effect_sane (he : Effect m a m') (h : Sane m) : Sane m' := by
  have hlocal : ∀ {p : Fin n} {pc : Pc} {c : Machine n}, Calm m c → (m.pc p).closes = none →
      pc.closes = none → (pc.uses = none ∨ pc.uses = (m.pc p).uses) → Sane (c.setPc p pc) :=
    fun hc h1 h2 h3 => h.calm (hc.inside h1 h2 h3)
  have hsame : Calm m m := ⟨rfl,rfl,rfl,rfl,fun _ => rfl,fun _ _ => .inl⟩
  cases he with
  | dup hp hq hfd href => exact sane_dup h href
  | @closeMore p e hp hfd href =>
    have hdrop := sane_drop h hp hfd (k := m.ref e - 1) (by omega) (.inr ⟨by omega,rfl⟩)
    rw [setPc] at hdrop
    simpa only [setFds,Function.update_eq_self] using hdrop
  | closeLast hp hfd href => exact sane_drop h hp hfd (k := 0) (by omega) (.inl ⟨rfl,rfl⟩)
  | callWrite hp hfd =>
    refine h.calm (hsame.setPc (userMode_closes hp).symm ?_)
    rintro e he
    cases he
    exact .inr hfd
  | callRead hp hfd =>
    refine h.calm (hsame.setPc (userMode_closes hp).symm ?_)
    rintro e he
    cases he
    exact .inr hfd
  | kill p =>
    have hkilled : Calm m { m with killed := Function.update m.killed p true } :=
      ⟨rfl,rfl,rfl,rfl,fun _ => rfl,fun _ _ => .inl⟩
    refine h.calm (hkilled.setPc ?_ ?_)
    · rw [Pc.rouse,Pc.closes_wake,Pc.closes_wake]
    · intro e he
      rw [Pc.rouse,Pc.uses_wake,Pc.uses_wake] at he
      exact .inl he
  | pipeclose hpc hlock => exact sane_pipeclose h hpc
  | @lockWrite p addr i hpc hlock =>
    refine hlocal ⟨rfl,rfl,rfl,rfl,fun _ => rfl,fun _ _ => .inl⟩ ?_ rfl (.inr ?_) <;> rw [hpc] <;> rfl
  | lockRead hpc hlock =>
    refine hlocal ⟨rfl,rfl,rfl,rfl,fun _ => rfl,fun _ _ => .inl⟩ ?_ rfl (.inr ?_) <;> rw [hpc] <;> rfl
  | writeDone hpc hend =>
    exact hlocal (hsame.wakeup .read).unlock (by rw [hpc]; rfl) rfl (.inl rfl)
  | writeFails hpc hb hfull hfail =>
    exact hlocal hsame.unlock (by rw [hpc]; rfl) rfl (.inl rfl)
  | writeFull hpc hb hfull hopen hkilled =>
    exact hlocal (hsame.wakeup .read) (by rw [hpc]; rfl) rfl (.inr (by rw [hpc]; rfl))
  | put hpc hb hroom =>
    refine hlocal ⟨rfl,rfl,rfl,rfl,fun _ => rfl,fun _ _ => .inl⟩ ?_ rfl (.inr ?_) <;> rw [hpc] <;> rfl
  | writeSleep hpc => exact hlocal hsame.unlock (by rw [hpc]; rfl) rfl (.inr (by rw [hpc]; rfl))
  | readKilled hpc hempty hopen hkilled =>
    exact hlocal hsame.unlock (by rw [hpc]; rfl) rfl (.inl rfl)
  | readEmpty hpc hempty hopen hkilled =>
    exact hlocal hsame (by rw [hpc]; rfl) rfl (.inr (by rw [hpc]; rfl))
  | readReady hpc hready => exact hlocal hsame (by rw [hpc]; rfl) rfl (.inr (by rw [hpc]; rfl))
  | readSleep hpc => exact hlocal hsame.unlock (by rw [hpc]; rfl) rfl (.inr (by rw [hpc]; rfl))
  | take hpc hsize hready =>
    refine hlocal ⟨rfl,rfl,rfl,rfl,fun _ => rfl,fun _ _ => .inl⟩ ?_ rfl (.inr ?_) <;> rw [hpc] <;> rfl
  | readDone hpc hend =>
    exact hlocal (hsame.wakeup .write).unlock (by rw [hpc]; rfl) rfl (.inl rfl)

variable {data : Nat → UInt8} {p0 : Fin n}

theorem pipealloc_sane : Sane (pipealloc data p0) := by
  constructor
  · intro e
    change ∑ q : Fin n, (if q = p0 then 1 else 0) = 1
    rw [Finset.sum_ite_eq' Finset.univ p0 fun _ => 1,if_pos (Finset.mem_univ p0)]
  · intro q e he
    cases he
  · intro e
    exact iff_of_true rfl (.inl Nat.one_pos)
  · intro q e he
    cases he
  · intro q q' e he
    cases he
  · exact iff_of_false (by simp [pipealloc]) fun h => absurd (h .read) (by simp [pipealloc])

theorem reach_sane (h : (pipe data p0).Reachable m) : Sane m := by
  refine h.invariant Sane pipealloc_sane ?_
  intro s a t _ hs _ ht
  exact effect_sane (step_effect ht) hs

theorem Sane.not_freed_inside (h : Sane m) (hin : (m.pc p).inside = true) : m.freed = false := by
  obtain ⟨e,hu | hc⟩ := (m.pc p).inside_end hin
  · exact h.not_freed (h.isOpen_of_uses hu)
  · exact h.not_freed ((h.isOpen e).mpr (.inr ⟨p,hc⟩))

theorem Sane.run_error (h : Sane m) {f : Fault} (herr : m.run p = .error f) :
    f = .blocked ∧ ((m.pc p).inside = true → m.lock ≠ none) := by
  rcases bind_eq_error.mp herr with hneed | ⟨_,hin,herr⟩
  · obtain ⟨hnot,rfl⟩ := need_eq_error.mp hneed
    exact ⟨rfl,fun hin => absurd hin hnot⟩
  · have hin := need_eq_ok.mp hin
    rw [h.not_freed_inside hin,if_neg Bool.false_ne_true] at herr
    have hlock : ∀ {m' : Machine n}, (do need (m.lock = none); .ok m') = .error f →
        f = .blocked ∧ ((m.pc p).inside = true → m.lock ≠ none) := by
      intro m' hbody
      rcases bind_eq_error.mp hbody with hneed | ⟨_,_,hbody⟩
      · obtain ⟨hnot,rfl⟩ := need_eq_error.mp hneed
        exact ⟨rfl,fun _ => hnot⟩
      · cases hbody
    cases hpc : m.pc p <;> rw [hpc] at herr hin <;> rw [← hpc]
    case close e => exact hlock herr
    case writeLock addr i => exact hlock herr
    case readLock size => exact hlock herr
    case user => cases hin
    case writeAsleep => cases hin
    case readAsleep => cases hin
    all_goals cases herr

theorem Sane.step_error (h : Sane m) {f : Fault} (herr : m.step a = .error f) : f = .blocked := by
  have hpos : ∀ {p e}, 0 < m.fds p e → ¬ m.ref e < 1 := by
    intro p e hfd
    have hle := h.fds_le p e
    omega
  cases a with
  | filedup p q e =>
    rcases bind_eq_error.mp herr with hneed | ⟨_,hneed,herr⟩
    · exact (need_eq_error.mp hneed).2
    · have hfd := (need_eq_ok.mp hneed).2.2
      rcases bind_eq_error.mp herr with herr | ⟨_,_,herr⟩
      · rw [filedup,if_neg (hpos hfd)] at herr
        cases herr
      · cases herr
  | fileclose p e =>
    rcases bind_eq_error.mp herr with hneed | ⟨_,hneed,herr⟩
    · exact (need_eq_error.mp hneed).2
    · have hfd := (need_eq_ok.mp hneed).2
      unfold fileclose at herr
      split_ifs at herr with href
      exact absurd href (hpos hfd)
  | write p addr =>
    rcases bind_eq_error.mp herr with hneed | ⟨_,_,herr⟩
    · exact (need_eq_error.mp hneed).2
    · cases herr
  | read p size =>
    rcases bind_eq_error.mp herr with hneed | ⟨_,_,herr⟩
    · exact (need_eq_error.mp hneed).2
    · cases herr
  | kill p => cases herr
  | run p => exact (h.run_error herr).1

theorem Sane.freed_iff (h : Sane m) :
    m.freed = true ↔ (∀ p e, m.fds p e = 0) ∧ ∀ p e, m.pc p ≠ .close e := by
  rw [h.freed]
  constructor
  · intro hclosed
    have hnot : ∀ e, ¬ (0 < m.ref e ∨ ∃ q, (m.pc q).closes = some e) := by
      intro e he
      rw [← h.isOpen e,hclosed e] at he
      cases he
    refine ⟨fun p e => ?_,fun p e hpc => hnot e (.inr ⟨p,Pc.closes_eq.mpr hpc⟩)⟩
    have hle := h.fds_le p e
    have hzero : ¬ 0 < m.ref e := fun hpos => hnot e (.inl hpos)
    omega
  · rintro ⟨hfds,hpcs⟩ e
    rw [← Bool.not_eq_true,h.isOpen e]
    rintro (hpos | ⟨q,hq⟩)
    · rw [← h.refs e,total,Finset.sum_eq_zero fun i _ => hfds i e] at hpos
      exact absurd hpos (lt_irrefl 0)
    · exact hpcs q e (Pc.closes_eq.mp hq)

theorem page_lifetime (h : (pipe data p0).Reachable m) :
    (m.freed = true ↔ (∀ p e, m.fds p e = 0) ∧ ∀ p e, m.pc p ≠ .close e) ∧
      ∀ a f, (pipe data p0).step m a = .error f → f = .blocked :=
  ⟨(reach_sane h).freed_iff,fun _ _ herr => (reach_sane h).step_error herr⟩

def closedRun (p q : Fin n) : List (Act n) :=
  pipeRun p q ++ [.run q,.run q,.fileclose p .write,.run p,.fileclose q .read,.run q]

theorem page_lifetime_run :
    let m := (pipe (fun _ => 0) 0).after (closedRun (0 : Fin 2) 1)
    m.freed = true ∧ (m.freed = true ↔ (∀ p e, m.fds p e = 0) ∧ ∀ p e, m.pc p ≠ .close e) ∧
      ∀ a f, (pipe (fun _ => 0) 0).step m a = .error f → f = .blocked :=
  ⟨by decide +kernel,page_lifetime (System.reachable_after (by decide +kernel))⟩

end Machine

end Pipe
