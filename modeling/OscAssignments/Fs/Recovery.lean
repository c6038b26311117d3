import OscAssignments.Fs.Crash

namespace Fs
open Runs Redo Xv6

variable {n : Nat}

namespace Machine
variable {sb : Superblock} {m m' : Machine n} {st : Store} {p : Fin n} {b tail : Nat}
  {c : Cache n} {a : Act n}

theorem bounded_empty : Cache.Bounded (n := n) ⟨fun _ => none,[]⟩ :=
  ⟨nofun,fun _ => iff_of_false List.not_mem_nil nofun,List.nodup_nil,Nat.zero_le _⟩

theorem Unread.bwrite {v : Block} (h : m.Unread) : (m.bwrite b v).Unread := by
  intro x
  rw [isReading_bwrite]
  rcases eq_or_ne x b with rfl | hne
  · rw [Function.update_self]
  · rw [Function.update_of_ne hne]
    exact h x

theorem sync_crash (h : Sync sb m st) : Sync sb m.crash { st with current := st.durable } := by
  refine ⟨⟨bounded_empty,fun _ _ _ => rfl,h.kept.wf,h.kept.restored⟩,?_⟩
  exact .readHead rfl (fun b => by simp [isDirty,crash]) (fun _ => rfl) (fun _ => rfl) rfl

theorem mode_readHead (h : Mode sb m st) (hphase : m.phase = .readHead) :
    m.Pins [] ∧ m.Unowned ∧ m.Unread ∧ st.current = st.durable := by
  cases h with
  | readHead _ hpins hfree hunread hcur => exact ⟨hpins,hfree,hunread,hcur⟩
  | restoring hp => rw [hphase] at hp; cases hp
  | running hp => rw [hphase] at hp; cases hp
  | writing hp => rw [hphase] at hp; cases hp
  | installing hp => rw [hphase] at hp; cases hp
  | finishing hp => rw [hphase] at hp; cases hp

theorem mode_restoring (h : Mode sb m st) (hphase : m.phase = .install tail) :
    m.Pins [] ∧ m.Unowned ∧ m.Unread ∧ st.current = st.durable ∧ m.lh = header (m.disk sb.logstart) ∧
      ∀ b, sb.Home b → b ∉ m.lh.drop tail → m.disk b = st.durable b := by
  cases h with
  | readHead hp => rw [hphase] at hp; cases hp
  | restoring hp hpins hfree hunread hcur hlh hdone =>
    rw [hphase] at hp
    cases hp
    exact ⟨hpins,hfree,hunread,hcur,hlh,hdone⟩
  | running hp => rw [hphase] at hp; cases hp
  | writing hp => rw [hphase] at hp; cases hp
  | installing hp => rw [hphase] at hp; cases hp
  | finishing hp => rw [hphase] at hp; cases hp

theorem sync_readHead (h : Sync sb m st) (hphase : m.phase = .readHead) (hc : m.Reload c) :
    Sync sb { m with cache := c, lh := header (m.view sb.logstart), phase := .install 0 } st := by
  obtain ⟨hpins,hfree,hunread,hcur⟩ := mode_readHead h.mode hphase
  have hkept := hc.kept h.kept
  have hview : m.view sb.logstart = m.disk sb.logstart :=
    h.kept.disk_eq hpins hfree List.not_mem_nil
  rw [hview]
  refine ⟨⟨hkept.bounded,hkept.clean,hkept.wf,hkept.restored⟩,?_⟩
  refine .restoring rfl ?_ ?_ (hc.unread (by simp [hphase]) hunread) hcur rfl ?_
  · intro b
    change { m with cache := c }.isDirty b = true ↔ _
    rw [hc.isDirty]
    exact hpins b
  · intro b
    change { m with cache := c }.ownerOf b = none
    rw [hc.ownerOf]
    exact hfree b
  · intro b hb hl
    rw [← h.kept.restored b hb]
    exact (recovered_of_notMem hl).symm

theorem sync_restore (h : Sync sb m st) (hphase : m.phase = .install tail)
    (hb : m.lh[tail]? = some b) (hc : m.Reload c) (hsome : (c b).isSome) :
    Sync sb { { m with cache := c }.bwrite b (m.view (sb.slot tail)) with
      phase := .install (tail + 1) } st := by
  obtain ⟨hpins,hfree,hunread,hcur,hlh,hdone⟩ := mode_restoring h.mode hphase
  have hview : m.view (sb.slot tail) = m.disk (sb.slot tail) :=
    h.kept.disk_eq hpins hfree List.not_mem_nil
  have hmem : b ∈ header (m.disk sb.logstart) := hlh ▸ List.mem_of_getElem? hb
  have hroom := h.kept.wf.room
  obtain ⟨hlt,hget⟩ := List.getElem?_eq_some_iff.mp hb
  have hkept := h.kept.install (v := m.view (sb.slot tail)) hc hsome hmem
  refine ⟨⟨hkept.bounded,hkept.clean,hkept.wf,hkept.restored⟩,?_⟩
  refine .restoring rfl (hpins.bwrite (k := []) hc (by simp)) (hfree.bwrite hc)
    ((hc.unread (by simp [hphase]) hunread).bwrite) hcur ?_ ?_
  · change m.lh = header (Function.update m.disk b _ sb.logstart)
    rw [Function.update_of_ne ((h.kept.wf.home b hmem).ne_logstart (by omega)).symm]
    exact hlh
  · intro x hx hl
    change Function.update m.disk b (m.view (sb.slot tail)) x = st.durable x
    change x ∉ m.lh.drop (tail + 1) at hl
    rcases eq_or_ne x b with rfl | hne
    · rw [Function.update_self,hview,← h.kept.restored x hx]
      exact (restored_at hlh.symm hb hl).symm
    · rw [Function.update_of_ne hne]
      refine hdone x hx ?_
      rw [List.drop_eq_getElem_cons hlt,hget,List.mem_cons,not_or]
      exact ⟨hne,hl⟩

theorem sync_restored (hnlog : 0 < sb.nlog) (hidle : Idle m) (h : Sync sb m st)
    (hphase : m.phase = .install tail) (hend : m.lh[tail]? = none) (hc : m.Reload c)
    (hsome : (c sb.logstart).isSome) :
    Sync sb { { m with lh := [], cache := c }.bwrite sb.logstart
      (encode [] (m.view sb.logstart)) with phase := .up } st := by
  obtain ⟨hpins,hfree,-,hcur,-,hdone⟩ := mode_restoring h.mode hphase
  rw [List.drop_eq_nil_of_le (List.getElem?_eq_none_iff.mp hend)] at hdone
  have hstart : ∀ x, sb.Home x → x ≠ sb.logstart := fun x hx => hx.ne_logstart hnlog
  have hheader : header (Function.update m.disk sb.logstart
      (encode [] (m.view sb.logstart)) sb.logstart) = [] := by
    rw [Function.update_self]
    exact header_encode (by simp) (by simp) _
  have hkept : Kept sb ({ m with cache := c }.bwrite sb.logstart
      (encode [] (m.view sb.logstart))) st := by
    refine h.kept.bwrite hc hsome ?_ ?_
    · rw [hheader]
      exact .nil hnlog
    · intro x hx
      rw [recovered_nil hheader,Function.update_of_ne (hstart x hx)]
      exact hdone x hx (by simp)
  refine ⟨⟨hkept.bounded,hkept.clean,hkept.wf,hkept.restored⟩,?_⟩
  refine .running rfl hidle.committing ?_ ⟨by simp [bwrite,setBuf],by simp [bwrite,setBuf],
    List.nodup_nil⟩ (hpins.bwrite (k := []) hc (by simp)) ⟨?_,?_⟩ hheader
  · intro x hx
    change ({ m with cache := c }.bwrite sb.logstart (encode [] (m.view sb.logstart))).view x = _
    rw [view_bwrite,Function.update_of_ne (hstart x hx),hc.view h.kept.clean,hcur,← hdone x hx (by simp)]
    exact h.kept.disk_eq hpins hfree List.not_mem_nil
  · intro x q
    refine iff_of_false ?_ ?_
    · have hfree' := hfree.bwrite (b := sb.logstart) (v := encode [] (m.view sb.logstart)) hc
      change ({ m with cache := c }.bwrite sb.logstart (encode [] (m.view sb.logstart))).ownerOf x
        ≠ some q
      rw [hfree' x]
      simp
    · rintro ⟨wrote,hq⟩
      exact absurd ((hidle.pc q).symm.trans hq) (by simp)
  · intro q wrote x hq
    exact absurd ((hidle.pc q).symm.trans hq) (by simp)

theorem not_writesHead (h : ∀ p, a ≠ .commit p) : ¬m.WritesHead a := by
  rintro ⟨p,_,ha,-,-⟩
  exact h p ha

theorem not_writesHead_of {s : Stage} (hpc : m.pc p = .commit s)
    (hs : ∀ tail, s = .writeLog tail → m.lh[tail]? ≠ none) : ¬m.WritesHead (.commit p) := by
  rintro ⟨q,tail,ha,hq,hend⟩
  cases ha
  rw [hpc] at hq
  cases hq
  exact hs tail rfl hend

theorem effect_sync (hnlog : logsize ≤ sb.nlog) (he : Effect sb m a m') (hf : Fits sb m a)
    (hok : LogOk m) (h : Sync sb m st) :
    ∃ st', st.Step m.Quiet (m.WritesHead a) a st' ∧ Sync sb m' st' := by
  have hpos : 0 < sb.nlog := Nat.lt_of_lt_of_le (by decide) hnlog
  cases he with
  | sleep _ hpc _ => exact ⟨st,.keep rfl (not_writesHead nofun),sync_sleep h hpc⟩
  | @enter p hup hpc hopen _ =>
    cases hok with
    | recovering hphase _ => exact absurd hup hphase
    | up _ hs _ =>
      exact ⟨st,.keep rfl (not_writesHead nofun),sync_enter h hup hs hpc hopen⟩
  | modify hpc hc hown hsome _ _ _ =>
    obtain ⟨hup,hs,-⟩ := hok.space (by rw [hpc]; simp)
    exact ⟨_,.write _ _ _ (not_writesHead nofun),
      sync_modify h hup hs hpc hc hown hsome hf.1⟩
  | absorb hpc hsome hmem =>
    obtain ⟨hup,hs,-⟩ := hok.space (by rw [hpc]; simp)
    exact ⟨st,.keep rfl (not_writesHead nofun),
      sync_append h hup hs hpc hsome (.inl ⟨hmem,rfl⟩)⟩
  | append hpc hsome hmem _ =>
    obtain ⟨hup,hs,-⟩ := hok.space (by rw [hpc]; simp)
    exact ⟨st,.keep rfl (not_writesHead nofun),
      sync_append h hup hs hpc hsome (.inr ⟨hmem,rfl⟩)⟩
  | leave hpc hopen _ =>
    obtain ⟨hup,hs,-⟩ := hok.space (by rw [hpc]; simp)
    exact ⟨st,.keep rfl (not_writesHead nofun),sync_leave h hup hs hpc hopen⟩
  | last hpc hopen hlast =>
    obtain ⟨hup,hs,-⟩ := hok.space (by rw [hpc]; simp)
    exact ⟨st,.keep rfl (not_writesHead nofun),sync_close h hup hs hpc hopen hlast⟩
  | writeLog hpc hb hc _ hsome =>
    obtain ⟨hup,hs,-⟩ := hok.space (by rw [hpc]; simp)
    refine ⟨st,.keep rfl (not_writesHead_of hpc ?_),sync_writeLog hnlog h hup hs hpc hb hc hsome⟩
    intro tail' he hend
    cases he
    rw [hb] at hend
    cases hend
  | @writeHead p tail _ hpc hend hc hsome =>
    obtain ⟨hup,hs,-⟩ := hok.space (by rw [hpc]; simp)
    have hclosed := hs.committing (p := p) (by rw [hpc]; rfl)
    refine ⟨_,.commit p ⟨p,tail,rfl,hpc,hend⟩ ?_,sync_writeHead hnlog h hup hs hpc hend hc hsome⟩
    exact Tally.tally_eq_zero.mp (hs.closed hclosed).1
  | install hpc hb hc _ hsome =>
    obtain ⟨hup,hs,-⟩ := hok.space (by rw [hpc]; simp)
    exact ⟨st,.keep rfl (not_writesHead_of hpc nofun),sync_install h hup hs hpc hb hc hsome⟩
  | eraseHead hpc hend hc hsome =>
    obtain ⟨hup,hs,-⟩ := hok.space (by rw [hpc]; simp)
    exact ⟨st,.keep rfl (not_writesHead_of hpc nofun),
      sync_eraseHead hpos h hup hs hpc hend hc hsome⟩
  | finish hpc =>
    obtain ⟨hup,hs,-⟩ := hok.space (by rw [hpc]; simp)
    exact ⟨st,.keep rfl (not_writesHead_of hpc nofun),sync_finish h hup hs hpc⟩
  | read _ hc => exact ⟨st,.keep rfl (not_writesHead nofun),hc.kept h.kept,hc.mode h.kept h.mode⟩
  | release hc =>
    exact ⟨st,.keep rfl (not_writesHead nofun),hc.kept h.kept,hc.mode h.kept h.mode⟩
  | crash => exact ⟨_,.crash (not_writesHead nofun),sync_crash h⟩
  | readHead hphase hc _ =>
    exact ⟨st,.keep rfl (not_writesHead nofun),sync_readHead h hphase hc⟩
  | restore hphase hb hc _ hsome =>
    exact ⟨st,.keep rfl (not_writesHead nofun),sync_restore h hphase hb hc hsome⟩
  | restored hphase hend hc hsome =>
    cases hok with
    | up hup _ _ =>
      rw [hup] at hphase
      cases hphase
    | recovering _ hidle =>
      exact ⟨st,.keep rfl (not_writesHead nofun),
        sync_restored hpos hidle h hphase hend hc hsome⟩

def content (sb : Superblock) (m : Machine n) : Nat → Block :=
  if m.phase = .up then m.view else recovered sb m.disk

def expected (sb : Superblock) (m : Machine n) : Act n → Nat → Block
  | .modify _ b data => Function.update (m.content sb) b data
  | .crash => recovered sb m.disk
  | _ => m.content sb

theorem Sync.content (h : Sync sb m st) (hb : sb.Home b) : m.content sb b = st.current b := by
  unfold Machine.content
  cases h.mode with
  | readHead hphase _ _ _ hcur =>
    rw [if_neg (by rw [hphase]; simp),hcur]
    exact h.kept.restored b hb
  | restoring hphase _ _ _ hcur =>
    rw [if_neg (by rw [hphase]; simp),hcur]
    exact h.kept.restored b hb
  | running hphase _ hshown => exact (congrFun (if_pos hphase) b).trans (hshown b hb)
  | writing hphase _ hshown => exact (congrFun (if_pos hphase) b).trans (hshown b hb)
  | installing hphase _ hshown => exact (congrFun (if_pos hphase) b).trans (hshown b hb)
  | finishing hphase _ hshown => exact (congrFun (if_pos hphase) b).trans (hshown b hb)

structure Boots (sb : Superblock) (disk : Nat → Block) : Prop where
  nlog : logsize ≤ sb.nlog
  size : sb.logstart + sb.nlog ≤ fssize
  wf : WfHead sb (header (disk sb.logstart))

def mkfsSuper : Superblock := ⟨1000,941,200,30,2,32,58⟩

def zeroDisk : Nat → Block := fun _ _ => 0

theorem boots_zeroDisk : Boots mkfsSuper zeroDisk := by
  have hhead : header (zeroDisk mkfsSuper.logstart) = [] := by decide +kernel
  refine ⟨by decide,by decide,?_⟩
  rw [hhead]
  exact .nil (by decide)

def crashedRun (p : Fin n) : List (Act n) :=
  [.recover,.recover,.beginOp p,.modify p 60 fun _ => 7,.append p,.endOp p,.commit p,.commit p,
    .crash,.recover]

theorem crashedRun_ok :
    ((crashedRun (0 : Fin 2)).foldlM (fsLog mkfsSuper 2 zeroDisk).step (boot zeroDisk)).isOk = true := by
  decide +kernel

theorem crashedRun_fits : ∀ tr ∈ (fsLog mkfsSuper 2 zeroDisk).transitions (boot zeroDisk)
    (crashedRun 0), Fits mkfsSuper tr.1 tr.2.1 := by
  decide +kernel

section Runs
variable {disk : Nat → Block} (hd : Boots sb disk)
include hd

theorem boot_sync :
    Sync sb (boot disk : Machine n) ⟨recovered sb disk,recovered sb disk⟩ := by
  refine ⟨⟨bounded_empty,fun _ _ _ => rfl,hd.wf,fun _ _ => rfl⟩,?_⟩
  exact .readHead rfl (fun b => by simp [isDirty,boot]) (fun _ => rfl) (fun _ => rfl) rfl

omit hd in
theorem boot_logOk (disk : Nat → Block) : LogOk (boot disk : Machine n) :=
  .recovering (by simp [boot]) ⟨fun _ => rfl,rfl,rfl⟩

theorem reach_sync (h : (fsLog sb n disk).Reach (Fits sb) m) :
    LogOk m ∧ ∃ st, Sync sb m st := by
  refine h.invariant (fun m => LogOk m ∧ ∃ st, Sync sb m st) ?_ ?_
  · exact ⟨boot_logOk disk,_,boot_sync hd⟩
  · rintro s a t _ ⟨hok,st,hs⟩ hf ht
    have he := step_effect ht
    obtain ⟨st',-,hs'⟩ := effect_sync hd.nlog he hf hok hs
    exact ⟨effect_logOk he hf hok,st',hs'⟩

theorem step_sync (h : (fsLog sb n disk).Reach (Fits sb) m) (hf : Fits sb m a)
    (hstep : (fsLog sb n disk).step m a = .ok m') :
    ∃ st st', Sync sb m st ∧ st.Step m.Quiet (m.WritesHead a) a st' ∧ Sync sb m' st' := by
  obtain ⟨hok,st,hs⟩ := reach_sync hd h
  obtain ⟨st',hst,hs'⟩ := effect_sync hd.nlog (step_effect hstep) hf hok hs
  exact ⟨st,st',hs,hst,hs'⟩

theorem step_content (h : (fsLog sb n disk).Reach (Fits sb) m) (hf : Fits sb m a)
    (hstep : (fsLog sb n disk).step m a = .ok m') (hb : sb.Home b) :
    m'.content sb b = m.expected sb a b := by
  obtain ⟨st,st',hs,hst,hs'⟩ := step_sync hd h hf hstep
  have hbefore := hs.content hb
  rw [hs'.content hb]
  cases hst with
  | keep ha _ =>
    rw [← hbefore]
    cases a <;> first | rfl | cases ha
  | write p x data _ =>
    change Function.update st.current x data b = Function.update (m.content sb) x data b
    rcases eq_or_ne b x with rfl | hne
    · rw [Function.update_self,Function.update_self]
    · rw [Function.update_of_ne hne,Function.update_of_ne hne]
      exact hbefore.symm
  | commit _ _ _ => exact hbefore.symm
  | crash _ => exact (hs.kept.restored b hb).symm

theorem step_durable (h : (fsLog sb n disk).Reach (Fits sb) m) (hf : Fits sb m a)
    (hstep : (fsLog sb n disk).step m a = .ok m') :
    (¬m.WritesHead a → ∀ b, sb.Home b → recovered sb m'.disk b = recovered sb m.disk b) ∧
      (m.WritesHead a → m.Quiet ∧
        ∀ b, sb.Home b → recovered sb m'.disk b = m.content sb b) := by
  obtain ⟨st,st',hs,hst,hs'⟩ := step_sync hd h hf hstep
  have hbefore := hs.kept.restored
  have hafter := hs'.kept.restored
  cases hst with
  | keep _ hno =>
    exact ⟨fun _ b hb => (hafter b hb).trans (hbefore b hb).symm,fun hyes => absurd hyes hno⟩
  | write _ _ _ hno =>
    exact ⟨fun _ b hb => (hafter b hb).trans (hbefore b hb).symm,fun hyes => absurd hyes hno⟩
  | commit p hyes hquiet =>
    refine ⟨fun hno => absurd hyes hno,fun _ => ⟨hquiet,?_⟩⟩
    exact fun b hb => (hafter b hb).trans (hs.content hb).symm
  | crash hno =>
    exact ⟨fun _ b hb => (hafter b hb).trans (hbefore b hb).symm,fun hyes => absurd hyes hno⟩

theorem log_refines_store (h : (fsLog sb n disk).Reach (Fits sb) m) (hf : Fits sb m a)
    (hstep : (fsLog sb n disk).step m a = .ok m') :
    (∀ b, sb.Home b → m'.content sb b = m.expected sb a b) ∧
      (¬m.WritesHead a → ∀ b, sb.Home b → recovered sb m'.disk b = recovered sb m.disk b) ∧
      (m.WritesHead a → m.Quiet ∧
        ∀ b, sb.Home b → recovered sb m'.disk b = m.content sb b) :=
  ⟨fun _ hb => step_content hd h hf hstep hb,step_durable hd h hf hstep⟩

omit hd in
theorem log_refines_store_committed :
    let m := (fsLog mkfsSuper 2 zeroDisk).after ((crashedRun 0).take 7)
    let m' := (fsLog mkfsSuper 2 zeroDisk).after ((crashedRun 0).take 7 ++ [.commit 0])
    m.WritesHead (.commit 0) ∧ m.Quiet ∧ recovered mkfsSuper m.disk 60 0 = 0 ∧
      m.content mkfsSuper 60 0 = 7 ∧
      ∀ b, mkfsSuper.Home b → recovered mkfsSuper m'.disk b = m.content mkfsSuper b := by
  have hwrites : ((fsLog mkfsSuper 2 zeroDisk).after ((crashedRun 0).take 7)).WritesHead
      (.commit 0) := ⟨0,1,rfl,by decide +kernel,by decide +kernel⟩
  have hreach : (fsLog mkfsSuper 2 zeroDisk).Reach (Fits mkfsSuper)
      ((fsLog mkfsSuper 2 zeroDisk).after ((crashedRun (0 : Fin 2)).take 7)) :=
    System.reach_after (by decide +kernel) (by decide +kernel)
  obtain ⟨hquiet,hdurable⟩ := (log_refines_store (a := .commit 0) boots_zeroDisk hreach trivial
    (System.step_after (by decide +kernel))).2.2 hwrites
  exact ⟨hwrites,hquiet,by decide +kernel,by decide +kernel,hdurable⟩

def Snapshot (sb : Superblock) (disk : Nat → Block) (ts : List (Machine n × Act n × Machine n))
    (m : Machine n) : Prop :=
  ∃ pre post s, ts = pre ++ post ∧ (fsLog sb n disk).Path (.boot disk) pre s ∧ s.Quiet ∧
    (∀ tr ∈ post, ∀ p, tr.2.1 = .commit p → tr.1.pc p ≠ .commit .finish) ∧
    ∀ b, sb.Home b → recovered sb m.disk b = s.content sb b

omit hd in
theorem LogOk.quiet_of_commit (hok : LogOk m) {s : Stage} (hpc : m.pc p = .commit s) :
    m.Quiet := by
  obtain ⟨-,hs,-⟩ := hok.space (by rw [hpc]; simp)
  exact Tally.tally_eq_zero.mp (hs.closed (hs.committing (p := p) (by rw [hpc]; rfl))).1

omit hd in
theorem finish_quiet (hquiet : m.Quiet) (hpc : m.pc p = .commit .finish)
    (h : m.commit sb p = .ok m') : m'.Quiet := by
  have he : m' = ({ m with committing := false }.setPc p .out).wakeup := by
    unfold commit at h
    rw [hpc] at h
    cases h
    rfl
  intro q
  rw [he]
  rcases wakeup_pc (m := { m with committing := false }.setPc p .out) q with ⟨hq,-⟩ | ⟨hq,-⟩
  · rw [hq]
    rcases eq_or_ne q p with rfl | hne
    · simp [setPc,Pc.active]
    · simpa [setPc,hne] using hquiet q
  · rw [hq]
    rfl

theorem finish_durable (h : (fsLog sb n disk).Reach (Fits sb) m)
    (hpc : m.pc p = .commit .finish) (hb : sb.Home b) :
    recovered sb m.disk b = m.content sb b := by
  obtain ⟨hok,st,hs⟩ := reach_sync hd h
  obtain ⟨hup,hspace,-⟩ := hok.space (by rw [hpc]; simp)
  obtain ⟨-,-,-,-,-,hcommitted⟩ := mode_finishing hs.mode hup hspace hpc
  rw [hs.kept.restored b hb,hs.content hb]
  exact hcommitted b hb

theorem crash_atomic {ts : List (Machine n × Act n × Machine n)}
    (h : (fsLog sb n disk).Path (.boot disk) ts m) (hf : ∀ tr ∈ ts, Fits sb tr.1 tr.2.1) :
    Snapshot sb disk ts m := by
  refine h.rule (fun ts m => (∀ tr ∈ ts, Fits sb tr.1 tr.2.1) → Snapshot sb disk ts m) ?_ ?_ hf
  · exact fun _ => ⟨[],[],.boot disk,rfl,.nil _,fun _ => rfl,by simp,fun _ _ => rfl⟩
  · intro ts s a t hpath ih hstep hf
    have hold : ∀ tr ∈ ts, Fits sb tr.1 tr.2.1 := fun tr htr => hf tr (List.mem_append_left _ htr)
    have hfits : Fits sb s a := hf (s,a,t) (List.mem_append_right _ (List.mem_singleton_self _))
    have hreach : (fsLog sb n disk).Reach (Fits sb) s := hpath.reach hold
    obtain ⟨hok,-⟩ := reach_sync hd hreach
    have hcontent := fun b (hb : sb.Home b) => step_content hd hreach hfits hstep hb
    have hdurable := step_durable hd hreach hfits hstep
    rcases em (∃ p, a = .commit p ∧ s.pc p = .commit .finish) with ⟨p,rfl,hpc⟩ | hnot
    · have hquiet := finish_quiet (hok.quiet_of_commit hpc) hpc hstep
      refine ⟨ts ++ [(s,.commit p,t)],[],t,by simp,hpath.append (.cons hstep (.nil t)),hquiet,
        by simp,?_⟩
      intro b hb
      rw [hcontent b hb]
      have hlast := finish_durable hd hreach hpc hb
      exact (hdurable.1 (not_writesHead_of hpc nofun) b hb).trans hlast
    · have hnot' : ∀ tr ∈ [(s,a,t)], ∀ p, tr.2.1 = .commit p → tr.1.pc p ≠ .commit .finish := by
        intro tr htr p hp hpc
        obtain rfl := List.mem_singleton.mp htr
        exact hnot ⟨p,hp,hpc⟩
      rcases em (s.WritesHead a) with hyes | hno
      case inr =>
        obtain ⟨pre,post,u,rfl,hpre,hu,hpost,hsnap⟩ := ih hold
        refine ⟨pre,post ++ [(s,a,t)],u,by simp,hpre,hu,?_,?_⟩
        · intro tr htr
          rcases List.mem_append.mp htr with htr | htr
          · exact hpost tr htr
          · exact hnot' tr htr
        · intro b hb
          rw [hdurable.1 hno b hb]
          exact hsnap b hb
      case inl =>
        obtain ⟨hquiet,hcommit⟩ := hdurable.2 hyes
        exact ⟨ts,[(s,a,t)],s,rfl,hpath,hquiet,hnot',hcommit⟩

omit hd in
theorem crash_atomic_crashed :
    Snapshot mkfsSuper zeroDisk
      ((fsLog mkfsSuper 2 zeroDisk).transitions (boot zeroDisk) (crashedRun 0))
      ((fsLog mkfsSuper 2 zeroDisk).after (crashedRun 0)) :=
  crash_atomic boots_zeroDisk (System.path_run crashedRun_ok) crashedRun_fits

end Runs

end Machine

end Fs
