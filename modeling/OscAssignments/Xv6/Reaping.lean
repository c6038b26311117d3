import OscAssignments.Xv6.Family

namespace Xv6
open Runs

inductive Event where
  | forked (parent child : Nat)
  | exited (pid : Nat)
  | returned (x : Bool) (parent child : Nat)
  deriving DecidableEq, Repr

def Event.reaped : Event → Option Nat
  | .returned _ _ c => some c
  | _ => none

@[simp] theorem Event.reaped_forked (f c : Nat) : (Event.forked f c).reaped = none := rfl

@[simp] theorem Event.reaped_exited (c : Nat) : (Event.exited c).reaped = none := rfl

@[simp] theorem Event.reaped_returned (x : Bool) (r c : Nat) :
    (Event.returned x r c).reaped = some c := rfl

namespace Machine

def waitEvents (k : Kernel) (p : Slot) (x : Bool) : List Event :=
  match waitResult k p with
  | .reaped z => [.returned x (k.proc p).pid (k.proc z).pid]
  | _ => []

def procEvents (m : Machine) (p : Slot) : Op → List Event
  | .setRunnable =>
    match m.task (some p) with
    | .copied np => [.forked (m.kern.proc p).pid (m.kern.proc np).pid]
    | _ => []
  | .exit => [.exited (m.kern.proc p).pid]
  | .wait x => waitEvents m.kern p x
  | .resume =>
    match m.ctx p with
    | .waiting x => waitEvents (clearChan m.kern p) p x
    | _ => []
  | _ => []

def events (m : Machine) (a : Action) : List Event :=
  match (m.cpu a.cpu).proc with
  | some p => m.procEvents p a.op
  | none => []

def log (ts : List (Machine × Action × Machine)) : List Event :=
  ts.flatMap fun tr => tr.1.events tr.2.1

def InWait (m : Machine) (p : Slot) : Prop :=
  (m.kern.proc p).state = .sleeping ∧ ∃ x, m.ctx p = .waiting x

structure History (m : Machine) (l : List Event) : Prop where
  forked : ∀ f c, .forked f c ∈ l → 0 < c ∧ c < m.kern.nextpid
  grown : ∀ f c, .forked f c ∈ l → ∀ p, (m.kern.proc p).pid = c →
    (m.kern.proc p).state ≠ .unused ∧ (m.kern.proc p).state ≠ .embryo
  orphan : ∀ f c, .forked f c ∈ l → .exited f ∈ l → ∀ p, (m.kern.proc p).pid = c →
    (m.kern.proc p).parent = m.kern.initproc
  parent : ∀ f c, .forked f c ∈ l → .exited f ∉ l → ∀ p, (m.kern.proc p).pid = c →
    ∃ s, (m.kern.proc p).parent = some s ∧ (m.kern.proc s).pid = f ∧
      (m.kern.proc s).state ≠ .unused ∧ (m.kern.proc s).state ≠ .embryo
  origin : ∀ p, (m.kern.proc p).state ≠ .unused → (m.kern.proc p).state ≠ .embryo →
    m.kern.initproc = some p ∨ ∃ f, .forked f (m.kern.proc p).pid ∈ l
  zombie : ∀ p, (m.kern.proc p).state = .zombie → .exited (m.kern.proc p).pid ∈ l
  exited : ∀ c, .exited c ∈ l → 0 < c ∧ c < m.kern.nextpid ∧
    ∀ p, (m.kern.proc p).pid = c → (m.kern.proc p).state = .zombie
  returned : ∀ c, c ∈ l.filterMap Event.reaped → 0 < c ∧ c < m.kern.nextpid ∧
    ∀ p, (m.kern.proc p).pid ≠ c
  nodup : (l.filterMap Event.reaped).Nodup
  booting : ∀ c, (m.cpu c).loc = .booting → c = 0 ∧ l = [] ∧
    ∀ p, (m.kern.proc p).state = .unused ∨ (m.kern.proc p).state = .embryo

theorem history_boot : History boot [] where
  forked _ _ h := by cases h
  grown _ _ h := by cases h
  orphan _ _ h := by cases h
  parent _ _ h := by cases h
  origin _ h := absurd rfl h
  zombie _ h := by cases h
  exited _ h := by cases h
  returned _ h := by cases h
  nodup := .nil
  booting c h := by
    refine ⟨?_,rfl,fun _ => .inl rfl⟩
    by_contra hc
    simp [boot,hc] at h

namespace History
variable {b : Build} {m m' : Machine} {c : Nat} {op : Op} {l : List Event}

theorem keep (h : History m l)
    (hst : ∀ {p st}, st = .unused ∨ st = .embryo ∨ st = .zombie →
      ((m'.kern.proc p).state = st ↔ (m.kern.proc p).state = st))
    (hpid : ∀ p, (m'.kern.proc p).pid = (m.kern.proc p).pid)
    (hpar : ∀ p, (m'.kern.proc p).parent = (m.kern.proc p).parent)
    (hn : m'.kern.nextpid = m.kern.nextpid) (hi : m'.kern.initproc = m.kern.initproc)
    (hb : ∀ x, (m'.cpu x).loc = .booting → (m.cpu x).loc = .booting) : History m' l := by
  refine ⟨?_,?_,?_,?_,?_,?_,?_,?_,h.nodup,?_⟩
  · simpa [hn] using h.forked
  · simpa [hpid,hst] using h.grown
  · simpa [hpid,hpar,hi] using h.orphan
  · simpa [hpid,hpar,hst] using h.parent
  · simpa [hpid,hi,hst] using h.origin
  · simpa [hpid,hst] using h.zombie
  · simpa [hpid,hn,hst] using h.exited
  · simpa [hpid,hn] using h.returned
  · intro c hc
    simpa [hst] using h.booting c (hb c hc)

theorem idles (h : History m l) (hi : Idles m m') : History m' l :=
  h.keep hi.kern.state_iff hi.kern.pid hi.kern.parent hi.kern.nextpid hi.kern.initproc hi.booting

theorem faces (h : History m l) (hk : SameFaces m.kern m'.kern) (hc : m'.cpu = m.cpu) :
    History m' l :=
  h.keep hk.quiet.state_iff hk.pid hk.parent hk.nextpid hk.initproc fun x hx => by rwa [hc] at hx

theorem not_booting (h : History m l) {p : Slot} (hp : (m.kern.proc p).state ≠ .unused)
    (hp' : (m.kern.proc p).state ≠ .embryo) (x : Nat) : (m.cpu x).loc ≠ .booting := by
  intro hx
  rcases (h.booting x hx).2.2 p with e | e
  · exact hp e
  · exact hp' e

theorem unforked (h : History m l) {np : Slot}
    (hnp : (m.kern.proc np).state = .unused ∨ (m.kern.proc np).state = .embryo) {f c : Nat}
    (hf : .forked f c ∈ l) : (m.kern.proc np).pid ≠ c := by
  intro he
  obtain ⟨h1,h2⟩ := h.grown f c hf np he
  rcases hnp with e | e
  · exact h1 e
  · exact h2 e

theorem unexited (h : History m l) {np : Slot} (hnp : (m.kern.proc np).state ≠ .zombie) {c : Nat}
    (hc : .exited c ∈ l) : (m.kern.proc np).pid ≠ c := by
  intro he
  exact hnp ((h.exited c hc).2.2 np he)

theorem alloc (h : History m l) {np : Slot} {o : Option Slot} {t : Task}
    (hu : (m.kern.proc np).state = .unused) :
    History ({ m with kern := takeSlot m.kern np }.setTask o t) l := by
  have hst := takeSlot_state m.kern np
  have hpid := takeSlot_pid m.kern np
  have hpar := takeSlot_parent m.kern np
  have hold : ∀ {p c}, c < m.kern.nextpid → ((takeSlot m.kern np).proc p).pid = c →
      p ≠ np ∧ (m.kern.proc p).pid = c := by
    intro p c hc hp
    rw [hpid] at hp
    split_ifs at hp with hpn
    · omega
    · exact ⟨hpn,hp⟩
  have hnext : (takeSlot m.kern np).nextpid = m.kern.nextpid + 1 := rfl
  refine ⟨?_,?_,?_,?_,?_,?_,?_,?_,h.nodup,?_⟩
  · intro f c hf
    obtain ⟨h1,h2⟩ := h.forked f c hf
    exact ⟨h1,by simp only [setTask_kern,hnext]; omega⟩
  · intro f c hf p hp
    obtain ⟨hpn,hp⟩ := hold (h.forked f c hf).2 hp
    simpa [hst,hpn] using h.grown f c hf p hp
  · intro f c hf he p hp
    obtain ⟨hpn,hp⟩ := hold (h.forked f c hf).2 hp
    exact (hpar p).trans (h.orphan f c hf he p hp)
  · intro f c hf he p hp
    obtain ⟨hpn,hp⟩ := hold (h.forked f c hf).2 hp
    obtain ⟨s,hs1,hs2,hs3,hs4⟩ := h.parent f c hf he p hp
    have hsn : s ≠ np := by
      rintro rfl
      exact hs3 hu
    exact ⟨s,(hpar p).trans hs1,by simpa [hpid,hsn] using hs2,by simpa [hst,hsn] using hs3,
      by simpa [hst,hsn] using hs4⟩
  · intro p hp hp'
    have hpn : p ≠ np := by
      rintro rfl
      simp [hst] at hp'
    have ho := h.origin p (by simpa [hst,hpn] using hp) (by simpa [hst,hpn] using hp')
    simpa [hpid,hpn,takeSlot] using ho
  · intro p hp
    have hpn : p ≠ np := by
      rintro rfl
      simp [hst] at hp
    simpa [hpid,hpn] using h.zombie p (by simpa [hst,hpn] using hp)
  · intro c hc
    obtain ⟨h1,h2,h3⟩ := h.exited c hc
    refine ⟨h1,by simp only [setTask_kern,hnext]; omega,?_⟩
    intro p hp
    obtain ⟨hpn,hp⟩ := hold h2 hp
    simpa [hst,hpn] using h3 p hp
  · intro c hc
    obtain ⟨h1,h2,h3⟩ := h.returned c hc
    refine ⟨h1,by simp only [setTask_kern,hnext]; omega,?_⟩
    intro p hp
    exact h3 p (hold h2 hp).2
  · intro c hc
    obtain ⟨h1,h2,h3⟩ := h.booting c hc
    refine ⟨h1,h2,?_⟩
    intro p
    simp only [setTask_kern,hst]
    split_ifs
    · exact .inr rfl
    · exact h3 p

theorem setInit (h : History m l) (np : Slot) (hb : (m.cpu c).loc = .booting) :
    History { m with kern := { m.kern with initproc := some np } } l := by
  obtain ⟨_,rfl,hst⟩ := h.booting c hb
  refine ⟨h.forked,h.grown,?_,h.parent,?_,h.zombie,h.exited,h.returned,h.nodup,h.booting⟩
  · intro f c hf
    cases hf
  · intro p hp hp'
    rcases hst p with e | e
    · exact absurd e hp
    · exact absurd e hp'

theorem embryo (h : History m l) {np : Slot} {r : Proc}
    (hnp : (m.kern.proc np).state = .embryo) (hpid : r.pid = (m.kern.proc np).pid)
    (hr : r.state = .unused ∨ r.state = .embryo) :
    History { m with kern := m.kern.setProc np r } l := by
  have hrz : r.state ≠ .zombie := by
    rcases hr with e | e <;> simp [e]
  have hpx : ∀ x, ((m.kern.setProc np r).proc x).pid = (m.kern.proc x).pid := by
    intro x
    by_cases hx : x = np <;> simp [hx,hpid]
  refine ⟨h.forked,?_,?_,?_,?_,?_,?_,?_,h.nodup,?_⟩
  · intro f c hf p hp
    replace hp := (hpx p).symm.trans hp
    have hpn : p ≠ np := by
      rintro rfl
      exact h.unforked (.inr hnp) hf hp
    simpa [hpn] using h.grown f c hf p hp
  · intro f c hf he p hp
    replace hp := (hpx p).symm.trans hp
    have hpn : p ≠ np := by
      rintro rfl
      exact h.unforked (.inr hnp) hf hp
    simpa [hpn] using h.orphan f c hf he p hp
  · intro f c hf he p hp
    replace hp := (hpx p).symm.trans hp
    have hpn : p ≠ np := by
      rintro rfl
      exact h.unforked (.inr hnp) hf hp
    obtain ⟨s,hs1,hs2,hs3,hs4⟩ := h.parent f c hf he p hp
    have hsn : s ≠ np := by
      rintro rfl
      exact hs4 hnp
    exact ⟨s,by simpa [hpn] using hs1,by simpa [hsn] using hs2,by simpa [hsn] using hs3,
      by simpa [hsn] using hs4⟩
  · intro p hp hp'
    have hpn : p ≠ np := by
      rintro rfl
      rcases hr with e | e
      · simp [e] at hp
      · simp [e] at hp'
    simpa [hpn] using h.origin p (by simpa [hpn] using hp) (by simpa [hpn] using hp')
  · intro p hp
    have hpn : p ≠ np := by
      rintro rfl
      exact hrz (by simpa using hp)
    simpa [hpn] using h.zombie p (by simpa [hpn] using hp)
  · intro c hc
    obtain ⟨h1,h2,h3⟩ := h.exited c hc
    refine ⟨h1,h2,?_⟩
    intro p hp
    replace hp := (hpx p).symm.trans hp
    have hpn : p ≠ np := by
      rintro rfl
      exact h.unexited (by simp [hnp]) hc hp
    simpa [hpn] using h3 p hp
  · intro c hc
    obtain ⟨h1,h2,h3⟩ := h.returned c hc
    exact ⟨h1,h2,fun p hp => h3 p ((hpx p).symm.trans hp)⟩
  · intro c hc
    obtain ⟨h1,h2,h3⟩ := h.booting c hc
    refine ⟨h1,h2,?_⟩
    intro p
    rcases eq_or_ne p np with rfl | hpn
    · simpa using hr
    · simpa [hpn] using h3 p

theorem leave (h : History m l) {p : Slot} {r : Proc} {x : Ctx}
    (hrun : (m.kern.proc p).state = .running) (hpid : r.pid = (m.kern.proc p).pid)
    (hpar : r.parent = (m.kern.proc p).parent) (hst : r.state = .runnable ∨ r.state = .sleeping) :
    History ({ m with kern := m.kern.setProc p r }.leave c p x) l := by
  refine h.keep ?_ ?_ ?_ rfl rfl ?_
  · intro q st hq
    rcases eq_or_ne q p with rfl | hqp
    · rcases hst with e | e <;> rcases hq with rfl | rfl | rfl <;> simp [Machine.leave,e,hrun]
    · simp [Machine.leave,hqp]
  · intro q
    by_cases hqp : q = p <;> simp [Machine.leave,hqp,hpid]
  · intro q
    by_cases hqp : q = p <;> simp [Machine.leave,hqp,hpar]
  · intro y hy
    by_cases hyc : y = c
    · simp [Machine.leave,hyc] at hy
    · simpa [Machine.leave,hyc] using hy

theorem initRunnable (h : History m l) {np : Slot} (hb : (m.cpu c).loc = .booting)
    (hin : m.kern.initproc = some np) {o : Option Slot} {t : Task} :
    History (({ m with kern := m.kern.setState np .runnable }.setTask o t).setLoc c .idle) l := by
  obtain ⟨hc0,rfl,hst⟩ := h.booting c hb
  have hsx : ∀ x, x ≠ np → ((m.kern.setState np .runnable).proc x).state =
      (m.kern.proc x).state := by
    intro x hx
    simp [Kernel.setState,hx]
  refine ⟨?_,?_,?_,?_,?_,?_,?_,?_,.nil,?_⟩
  · intro f c hf
    cases hf
  · intro f c hf
    cases hf
  · intro f c hf
    cases hf
  · intro f c hf
    cases hf
  · intro p hp hp'
    by_cases hpn : p = np
    · exact .inl (hpn ▸ hin)
    · have hps := hsx p hpn
      rcases hst p with e | e
      · exact absurd (hps.trans e) hp
      · exact absurd (hps.trans e) hp'
  · intro p hp
    by_cases hpn : p = np
    · simp [Kernel.setState,hpn] at hp
    · have hps := (hsx p hpn).symm.trans hp
      rcases hst p with e | e <;> cases e.symm.trans hps
  · intro c hc
    cases hc
  · intro c hc
    cases hc
  · intro x hx
    exfalso
    by_cases hxc : x = c
    · simp [hxc] at hx
    · have := (h.booting x (by simpa [hxc] using hx)).1
      omega

theorem forkRunnable (h : History m l) (hs : Sane m) {p np : Slot}
    (hnp : (m.kern.proc np).state = .embryo) (hpar : (m.kern.proc np).parent = some p)
    (hp : (m.kern.proc p).state = .running) {o : Option Slot} {t : Task} :
    History ({ m with kern := m.kern.setState np .runnable }.setTask o t)
      (l ++ [.forked (m.kern.proc p).pid (m.kern.proc np).pid]) := by
  have hst := m.kern.setState_state np .runnable
  have hpid := m.kern.setState_pid np .runnable
  have hpx := m.kern.setState_parent np .runnable
  have hpos := hs.pids.pos np (by simp [hnp])
  have hpnp : p ≠ np := by
    rintro rfl
    rw [hnp] at hp
    cases hp
  have hfork : ∀ {f c}, .forked f c ∈ l ++ [.forked (m.kern.proc p).pid (m.kern.proc np).pid] →
      .forked f c ∈ l ∨ f = (m.kern.proc p).pid ∧ c = (m.kern.proc np).pid := by
    intro f c hf
    simpa using hf
  have hexit : ∀ {c}, .exited c ∈ l ++ [.forked (m.kern.proc p).pid (m.kern.proc np).pid] ↔
      .exited c ∈ l := by
    intro c
    simp
  have hsame : ∀ {x}, (m.kern.proc x).pid = (m.kern.proc np).pid → x = np := by
    intro x hx
    exact hs.pids.inj x np hx (by omega)
  have hlive : .exited (m.kern.proc p).pid ∉ l := by
    intro he
    exact h.unexited (by simp [hp]) he rfl
  refine ⟨?_,?_,?_,?_,?_,?_,?_,?_,?_,?_⟩
  · intro f c hf
    rcases hfork hf with hf | ⟨rfl,rfl⟩
    · exact h.forked f c hf
    · exact ⟨hpos,hs.pids.lt np⟩
  · intro f c hf x hx
    replace hx := (hpid x).symm.trans hx
    simp only [setTask_kern,hst]
    rcases hfork hf with hf | ⟨rfl,rfl⟩
    · split_ifs
      · exact ⟨by decide,by decide⟩
      · exact h.grown f c hf x hx
    · rw [if_pos (hsame hx)]
      exact ⟨by decide,by decide⟩
  · intro f c hf he x hx
    replace hx := (hpid x).symm.trans hx
    refine (hpx x).trans ?_
    rcases hfork hf with hf | ⟨rfl,rfl⟩
    · exact h.orphan f c hf (hexit.mp he) x hx
    · exact absurd (hexit.mp he) hlive
  · intro f c hf he x hx
    replace hx := (hpid x).symm.trans hx
    rcases hfork hf with hf | ⟨rfl,rfl⟩
    · obtain ⟨s,hs1,hs2,hs3,hs4⟩ := h.parent f c hf (fun e => he (hexit.mpr e)) x hx
      have hsn : s ≠ np := by
        rintro rfl
        exact hs4 hnp
      exact ⟨s,(hpx x).trans hs1,(hpid s).trans hs2,by simpa [hst,hsn] using hs3,
        by simpa [hst,hsn] using hs4⟩
    · obtain rfl := hsame hx
      refine ⟨p,(hpx x).trans hpar,hpid p,?_,?_⟩ <;> simp [hst,hpnp,hp]
  · intro x hx hx'
    rw [setTask_kern,hpid]
    by_cases hxn : x = np
    · exact .inr ⟨(m.kern.proc p).pid,by simp [hxn]⟩
    · have ho := h.origin x (by simpa [hst,hxn] using hx) (by simpa [hst,hxn] using hx')
      refine ho.imp_right ?_
      rintro ⟨f,hf⟩
      exact ⟨f,List.mem_append_left _ hf⟩
  · intro x hx
    have hxn : x ≠ np := by
      rintro rfl
      simp [hst] at hx
    have hz := h.zombie x (by simpa [hst,hxn] using hx)
    exact hexit.mpr (by simpa [hpid] using hz)
  · intro c hc
    obtain ⟨h1,h2,h3⟩ := h.exited c (hexit.mp hc)
    refine ⟨h1,h2,?_⟩
    intro x hx
    have hz := h3 x ((hpid x).symm.trans hx)
    have hxn : x ≠ np := by
      rintro rfl
      cases hnp.symm.trans hz
    simpa [hst,hxn] using hz
  · intro c hc
    obtain ⟨h1,h2,h3⟩ := h.returned c (by simpa using hc)
    exact ⟨h1,h2,fun x hx => h3 x ((hpid x).symm.trans hx)⟩
  · simpa [List.filterMap_cons] using h.nodup
  · intro x hx
    exact absurd hx (h.not_booting (p := p) (by simp [hp]) (by simp [hp]) x)

theorem exit (h : History m l) (hs : Sane m) {p : Slot} {k : Kernel} {x : Ctx}
    (hrun : (m.kern.proc p).state = .running) (hk : Exited p m.kern k) :
    History ({ m with kern := k }.leave c p x) (l ++ [.exited (m.kern.proc p).pid]) := by
  have hpos := hs.pids.pos p (by simp [hrun])
  have hst : ∀ {q st}, st = .unused ∨ st = .embryo →
      ((k.proc q).state = st ↔ (m.kern.proc q).state = st) := by
    intro q st hq
    rcases eq_or_ne q p with rfl | hqp
    · rcases hq with rfl | rfl <;> simp [hk.self,hrun]
    · rcases hk.others q hqp with e | ⟨e,e'⟩
      · rw [e]
      · rcases hq with rfl | rfl <;> simp [e,e']
  have hz : ∀ z, (k.proc z).state = .zombie ↔ z = p ∨ (m.kern.proc z).state = .zombie := by
    intro z
    by_cases hzp : z = p
    · simp [hzp,hk.self]
    · rcases hk.others z hzp with e | ⟨e,e'⟩
      · simp [hzp,e]
      · simp [hzp,e,e']
  have hsame : ∀ {x}, (m.kern.proc x).pid = (m.kern.proc p).pid → x = p := by
    intro x hx
    exact hs.pids.inj x p hx (by omega)
  have hfork : ∀ {f c}, .forked f c ∈ l ++ [.exited (m.kern.proc p).pid] ↔ .forked f c ∈ l := by
    intro f c
    simp
  have hexit : ∀ {c}, .exited c ∈ l ++ [.exited (m.kern.proc p).pid] ↔
      .exited c ∈ l ∨ c = (m.kern.proc p).pid := by
    intro c
    simp
  refine ⟨?_,?_,?_,?_,?_,?_,?_,?_,?_,?_⟩
  · intro f c hf
    have := h.forked f c (hfork.mp hf)
    exact ⟨this.1,this.2.trans_eq hk.nextpid.symm⟩
  · intro f c hf q hq
    obtain ⟨h1,h2⟩ := h.grown f c (hfork.mp hf) q ((hk.pid q).symm.trans hq)
    exact ⟨fun e => h1 ((hst (.inl rfl)).mp e),fun e => h2 ((hst (.inr rfl)).mp e)⟩
  · intro f c hf he q hq
    replace hq := (hk.pid q).symm.trans hq
    change (k.proc q).parent = k.initproc
    rw [hk.parent,hk.initproc]
    by_cases hold : .exited f ∈ l
    · have := h.orphan f c (hfork.mp hf) hold q hq
      split_ifs
      · rfl
      · exact this
    · obtain ⟨s,hs1,hs2,_,_⟩ := h.parent f c (hfork.mp hf) hold q hq
      have hfp := (hexit.mp he).resolve_left hold
      rw [if_pos (by rw [hs1,hsame (hs2.trans hfp)])]
  · intro f c hf he q hq
    replace hq := (hk.pid q).symm.trans hq
    have hold : .exited f ∉ l := fun e => he (hexit.mpr (.inl e))
    have hfp : f ≠ (m.kern.proc p).pid := fun e => he (hexit.mpr (.inr e))
    obtain ⟨s,hs1,hs2,hs3,hs4⟩ := h.parent f c (hfork.mp hf) hold q hq
    have hsp : s ≠ p := by
      rintro rfl
      exact hfp hs2.symm
    refine ⟨s,?_,(hk.pid s).trans hs2,fun e => hs3 ((hst (.inl rfl)).mp e),
      fun e => hs4 ((hst (.inr rfl)).mp e)⟩
    change (k.proc q).parent = some s
    rw [hk.parent,hs1,if_neg (by simpa using hsp)]
  · intro q hq hq'
    have ho := h.origin q (fun e => hq ((hst (.inl rfl)).mpr e))
      (fun e => hq' ((hst (.inr rfl)).mpr e))
    change k.initproc = some q ∨ ∃ f, Event.forked f (k.proc q).pid ∈ _
    rw [hk.initproc,hk.pid]
    refine ho.imp_right ?_
    rintro ⟨f,hf⟩
    exact ⟨f,hfork.mpr hf⟩
  · intro q hq
    change Event.exited (k.proc q).pid ∈ _
    rw [hk.pid]
    rcases (hz q).mp hq with rfl | hq
    · exact hexit.mpr (.inr rfl)
    · exact hexit.mpr (.inl (h.zombie q hq))
  · intro c hc
    change _ ∧ c < k.nextpid ∧ ∀ q, (k.proc q).pid = c → (k.proc q).state = .zombie
    rcases hexit.mp hc with hc | rfl
    · obtain ⟨h1,h2,h3⟩ := h.exited c hc
      refine ⟨h1,hk.nextpid ▸ h2,?_⟩
      intro q hq
      exact (hz q).mpr (.inr (h3 q ((hk.pid q).symm.trans hq)))
    · refine ⟨hpos,hk.nextpid ▸ hs.pids.lt p,?_⟩
      intro q hq
      exact (hz q).mpr (.inl (hsame ((hk.pid q).symm.trans hq)))
  · intro c hc
    obtain ⟨h1,h2,h3⟩ := h.returned c (by simpa using hc)
    refine ⟨h1,h2.trans_eq hk.nextpid.symm,?_⟩
    intro q hq
    exact h3 q ((hk.pid q).symm.trans hq)
  · simpa [List.filterMap_cons] using h.nodup
  · intro y hy
    exfalso
    refine h.not_booting (p := p) (by simp [hrun]) (by simp [hrun]) y ?_
    by_cases hyc : y = c
    · simp [Machine.leave,hyc] at hy
    · simpa [Machine.leave,hyc] using hy

theorem reap (h : History m l) (hs : Sane m) {z : Slot} {x : Bool} {r : Nat}
    (hz : (m.kern.proc z).state = .zombie) :
    History { m with kern := Xv6.reap m.kern z } (l ++ [.returned x r (m.kern.proc z).pid]) := by
  have hpos := hs.pids.pos z (by simp [hz])
  have hst := reap_state m.kern z
  have hpid := reap_pid m.kern z
  have hpar : ∀ q, q ≠ z → ((Xv6.reap m.kern z).proc q).parent = (m.kern.proc q).parent := by
    intro q hq
    simp [Xv6.reap,hq]
  have hold : ∀ {q c}, 0 < c → ((Xv6.reap m.kern z).proc q).pid = c →
      q ≠ z ∧ (m.kern.proc q).pid = c := by
    intro q c hc hq
    rw [hpid] at hq
    split_ifs at hq with hqz
    · omega
    · exact ⟨hqz,hq⟩
  have hfork : ∀ {f c}, .forked f c ∈ l ++ [.returned x r (m.kern.proc z).pid] ↔
      .forked f c ∈ l := by
    intro f c
    simp
  have hexit : ∀ {c}, .exited c ∈ l ++ [.returned x r (m.kern.proc z).pid] ↔
      .exited c ∈ l := by
    intro c
    simp
  have hret : (l ++ [Event.returned x r (m.kern.proc z).pid]).filterMap Event.reaped =
      l.filterMap Event.reaped ++ [(m.kern.proc z).pid] := by
    simp
  refine ⟨?_,?_,?_,?_,?_,?_,?_,?_,?_,?_⟩
  · intro f c hf
    exact h.forked f c (hfork.mp hf)
  · intro f c hf q hq
    obtain ⟨hqz,hq⟩ := hold (h.forked f c (hfork.mp hf)).1 hq
    simpa [hst,hqz] using h.grown f c (hfork.mp hf) q hq
  · intro f c hf he q hq
    obtain ⟨hqz,hq⟩ := hold (h.forked f c (hfork.mp hf)).1 hq
    exact (hpar q hqz).trans (h.orphan f c (hfork.mp hf) (hexit.mp he) q hq)
  · intro f c hf he q hq
    obtain ⟨hqz,hq⟩ := hold (h.forked f c (hfork.mp hf)).1 hq
    replace he : .exited f ∉ l := fun e => he (hexit.mpr e)
    obtain ⟨s,hs1,hs2,hs3,hs4⟩ := h.parent f c (hfork.mp hf) he q hq
    have hsz : s ≠ z := by
      rintro rfl
      exact he (hs2 ▸ h.zombie s hz)
    exact ⟨s,(hpar q hqz).trans hs1,by simpa [hpid,hsz] using hs2,by simpa [hst,hsz] using hs3,
      by simpa [hst,hsz] using hs4⟩
  · intro q hq hq'
    have hqz : q ≠ z := by
      rintro rfl
      simp [hst] at hq
    have ho := h.origin q (by simpa [hst,hqz] using hq) (by simpa [hst,hqz] using hq')
    refine ho.imp_right ?_
    rintro ⟨f,hf⟩
    exact ⟨f,hfork.mpr (by simpa [hpid,hqz] using hf)⟩
  · intro q hq
    have hqz : q ≠ z := by
      rintro rfl
      simp [hst] at hq
    have hx := h.zombie q (by simpa [hst,hqz] using hq)
    exact hexit.mpr (by simpa [hpid,hqz] using hx)
  · intro c hc
    obtain ⟨h1,h2,h3⟩ := h.exited c (hexit.mp hc)
    refine ⟨h1,h2,?_⟩
    intro q hq
    obtain ⟨hqz,hq⟩ := hold h1 hq
    simpa [hst,hqz] using h3 q hq
  · intro c hc
    rw [hret,List.mem_append,List.mem_singleton] at hc
    rcases hc with hc | rfl
    · obtain ⟨h1,h2,h3⟩ := h.returned c hc
      exact ⟨h1,h2,fun q hq => h3 q (hold h1 hq).2⟩
    · refine ⟨hpos,hs.pids.lt z,?_⟩
      intro q hq
      obtain ⟨hqz,hq⟩ := hold hpos hq
      exact hqz (hs.pids.inj q z hq (by omega))
  · rw [hret,List.nodup_append]
    refine ⟨h.nodup,by simp,?_⟩
    intro c hc d hd hcd
    rw [List.mem_singleton] at hd
    exact (h.returned c hc).2.2 z (hcd.trans hd).symm
  · intro y hy
    exact absurd hy (h.not_booting (p := z) (by simp [hz]) (by simp [hz]) y)

theorem setCode (h : History m l) (hk : m'.kern = m.kern)
    (hc : m'.cpu = (m.setLoc c .code).cpu) : History m' l := by
  have hb : ∀ x, (m'.cpu x).loc = .booting → (m.cpu x).loc = .booting := by
    intro x hx
    rw [hc] at hx
    by_cases hxc : x = c
    · simp [hxc] at hx
    · simpa [hxc] using hx
  exact h.keep (by simp [hk]) (by simp [hk]) (by simp [hk]) (by rw [hk]) (by rw [hk]) hb

theorem waitLoop (h : History m l) (hs : Sane m) {p : Slot} {x : Bool}
    (hrun : (m.kern.proc p).state = .running) :
    History (m.waitLoop c p x) (l ++ waitEvents m.kern p x) := by
  unfold Machine.waitLoop waitEvents
  cases hw : waitResult m.kern p with
  | reaped z => exact (h.reap hs (waitResult_reaped hw).2).setCode rfl rfl
  | failed =>
    rw [List.append_nil]
    exact h.setCode rfl rfl
  | sleep =>
    rw [List.append_nil]
    exact h.leave hrun rfl rfl (.inr rfl)

end History

variable {b : Build} {m m' : Machine} {c : Nat} {op : Op} {l : List Event}

theorem events_of_idles (hop : op.idles = true) : m.events ⟨c,op⟩ = [] := by
  unfold events
  cases (m.cpu c).proc with
  | none => rfl
  | some p => cases op <;> first | rfl | cases hop

theorem events_some {p : Slot} (hp : (m.cpu c).proc = some p) :
    m.events ⟨c,op⟩ = m.procEvents p op := by
  unfold events
  rw [hp]

theorem events_quiet (hop : op = .allocproc ∨ (∃ x, op = .kalloc x) ∨ (∃ x, op = .copyuvm x) ∨
    (∃ x, op = .sleep x) ∨ op = .yield) : m.events ⟨c,op⟩ = [] := by
  unfold events
  cases (m.cpu c).proc with
  | none => rfl
  | some p => rcases hop with rfl | ⟨x,rfl⟩ | ⟨x,rfl⟩ | ⟨x,rfl⟩ | rfl <;> rfl

theorem effect_history (he : Effect b m c op m') (hs : Sane m) (hf : Family m)
    (h : History m l) : History m' (l ++ m.events ⟨c,op⟩) := by
  by_cases hop : op.idles = true
  · rw [events_of_idles hop,List.append_nil]
    exact h.idles (he.idles hop)
  cases he with
  | tableFull _ =>
    rw [events_quiet (by simp),List.append_nil]
    exact h
  | alloc _ _ _ hfind =>
    rw [events_quiet (by simp),List.append_nil]
    have hu := List.find?_some hfind
    exact h.alloc (by simpa using hu)
  | setup _ _ hk =>
    rw [events_quiet (by simp),List.append_nil]
    exact h.faces (setupProc_faces hk) rfl
  | @setupInit np k hloc _ hk =>
    rw [events_quiet (by simp),List.append_nil]
    have h' := (h.idles (idles_kern (setupProc_faces hk).quiet)).setInit np hloc
    exact h'.faces (SameFaces.refl _) rfl
  | @allocFailed np _ ht =>
    rw [events_quiet (by simp),List.append_nil]
    have he := hs.child _ _ (by rw [ht]; rfl)
    have h' := h.embryo (r := { m.kern.proc np with state := .unused }) he rfl (.inl rfl)
    exact h'.faces (SameFaces.refl _) rfl
  | @copied p np _ _ ht =>
    rw [events_quiet (by simp),List.append_nil]
    have he := hs.child _ _ (by rw [ht]; rfl)
    have h' := h.embryo (r := (forkCopy b m.kern p np).proc np) he
      ((forkCopy_same b m.kern p np).2.1 np) (.inr (((forkCopy_same b m.kern p np).1 np).trans he))
    exact h'.faces (forkCopy_faces b m.kern p np) rfl
  | @copyFailed p np _ _ ht =>
    rw [events_quiet (by simp),List.append_nil]
    have he := hs.child _ _ (by rw [ht]; rfl)
    have h' := h.embryo (r := { m.kern.proc np with state := .unused }) he rfl (.inl rfl)
    exact h'.faces (SameFaces.refl _) rfl
  | initRunnable hloc _ ht =>
    have hn : (m.cpu c).proc = none := (hs.proc_none c).mpr (by simp [hloc,Loc.empty])
    have hev : m.events ⟨c,.setRunnable⟩ = [] := by simp [events,hn]
    rw [hev,List.append_nil]
    exact h.initRunnable hloc (hf.booted _ (hn ▸ ht))
  | @forkRunnable np hloc _ ht =>
    obtain ⟨p,hp⟩ := hs.exists_proc (c := c) (by simp [hloc,Loc.empty])
    rw [hp] at ht
    rw [events_some hp]
    simp only [procEvents,ht]
    obtain ⟨q,hq,hpar⟩ := hf.copied _ _ ht
    cases hq
    exact h.forkRunnable hs (hs.child _ _ (by rw [ht]; rfl)) hpar
      (hs.running c p hp (by simp [hloc]))
  | exited hp _ _ hloc hk =>
    rw [events_some hp]
    have hr : (m.cpu c).loc ≠ .returned := by
      rcases hloc with e | e <;> simp [e]
    exact h.exit hs (hs.running c _ hp hr) (exit_exited hk).2
  | waited hp hloc _ _ =>
    rw [events_some hp]
    exact h.waitLoop hs (hs.running c _ hp (by simp [hloc]))
  | slept hp hloc _ _ _ =>
    rw [events_quiet (by simp),List.append_nil]
    exact h.leave (hs.running c _ hp (by simp [hloc])) rfl rfl (.inr rfl)
  | yielded hp hloc _ =>
    rw [events_quiet (by simp),List.append_nil]
    exact h.leave (hs.running c _ hp (by simp [hloc])) rfl rfl (.inl rfl)
  | resumed hp _ _ hctx =>
    rw [events_some hp]
    rcases hctx with e | e <;> simp only [procEvents,e,List.append_nil] <;> exact h.setCode rfl rfl
  | resumedSlept hp hloc _ hctx =>
    rw [events_some hp]
    simp only [procEvents,hctx,List.append_nil]
    exact (h.idles (clearChan_idles hs hp hloc)).setCode rfl rfl
  | @resumedWait p x hp hloc _ hctx =>
    rw [events_some hp]
    simp only [procEvents,hctx]
    have hi := clearChan_idles hs hp hloc
    have hrun := hs.clearChan (p := p).running c p hp (by simp [hloc])
    exact (h.idles hi).waitLoop hs.clearChan hrun
  | _ => exact absurd rfl hop

theorem path_history {ncpu : Nat} {ts : List (Machine × Action × Machine)}
    (h : (xv6 b ncpu).Path boot ts m) : Sane m ∧ Family m ∧ History m (log ts) := by
  refine h.rule (fun ts m => Sane m ∧ Family m ∧ History m (log ts))
    ⟨sane_boot,family_boot,history_boot⟩ ?_
  rintro ts s a t _ ⟨hs,hf,hh⟩ ht
  have he := step_effect ht
  have hlog : log (ts ++ [(s,a,t)]) = log ts ++ s.events a := by simp [log]
  rw [hlog]
  exact ⟨effect_sane he hs,effect_family he hs hf,effect_history he hs hf hh⟩

theorem mem_waitEvents {k : Kernel} {p : Slot} {x y : Bool} {r z : Nat}
    (h : .returned x r z ∈ waitEvents k p y) :
    r = (k.proc p).pid ∧ ∃ q, (k.proc q).parent = some p ∧ (k.proc q).state = .zombie ∧
      (k.proc q).pid = z := by
  unfold waitEvents at h
  cases hw : waitResult k p with
  | reaped q =>
    rw [hw] at h
    simp only [List.mem_singleton,Event.returned.injEq] at h
    obtain ⟨h1,h2⟩ := waitResult_reaped hw
    exact ⟨h.2.1,q,h1,h2,h.2.2.symm⟩
  | failed =>
    rw [hw] at h
    cases h
  | sleep =>
    rw [hw] at h
    cases h

theorem mem_events {a : Action} {x : Bool} {r z : Nat} (h : .returned x r z ∈ m.events a) :
    ∃ p q, (m.cpu a.cpu).proc = some p ∧ (m.kern.proc p).pid = r ∧ (m.kern.proc q).pid = z ∧
      (m.kern.proc q).parent = some p ∧ (m.kern.proc q).state = .zombie := by
  obtain ⟨c,op⟩ := a
  cases hp : (m.cpu c).proc with
  | none => simp [events,hp] at h
  | some p =>
    rw [events_some hp] at h
    have hclear : ∀ q, ((clearChan m.kern p).proc q).pid = (m.kern.proc q).pid ∧
        ((clearChan m.kern p).proc q).parent = (m.kern.proc q).parent ∧
        ((clearChan m.kern p).proc q).state = (m.kern.proc q).state := by
      intro q
      by_cases hq : q = p <;> simp [clearChan,hq]
    cases op with
    | wait y =>
      obtain ⟨hr,q,h1,h2,h3⟩ := mem_waitEvents h
      exact ⟨p,q,rfl,hr.symm,h3,h1,h2⟩
    | resume =>
      simp only [procEvents] at h
      cases hx : m.ctx p with
      | waiting y =>
        rw [hx] at h
        obtain ⟨hr,q,h1,h2,h3⟩ := mem_waitEvents h
        obtain ⟨e1,e2,e3⟩ := hclear q
        exact ⟨p,q,rfl,((hclear p).1.symm.trans hr.symm),e1 ▸ h3,e2 ▸ h1,e3 ▸ h2⟩
      | forkret => simp [hx] at h
      | yielded => simp [hx] at h
      | slept => simp [hx] at h
    | setRunnable =>
      simp only [procEvents] at h
      split at h <;> simp at h
    | exit => simp [procEvents] at h
    | _ => cases h

def reapingRun : List Action :=
  [⟨0,.allocproc⟩,⟨0,.kalloc true⟩,⟨0,.setRunnable⟩,⟨0,.sched⟩,⟨0,.resume⟩,⟨0,.allocproc⟩,
    ⟨0,.kalloc true⟩,⟨0,.copyuvm true⟩,⟨0,.setRunnable⟩,⟨0,.wait true⟩,⟨0,.back⟩,⟨0,.resume⟩,
    ⟨0,.exit⟩,⟨0,.back⟩,⟨0,.sched⟩,⟨0,.resume⟩]

end Machine
end Xv6
