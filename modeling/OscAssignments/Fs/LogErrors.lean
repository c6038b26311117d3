import OscAssignments.Fs.Recovery

namespace Fs
open Runs Redo Xv6

variable {n : Nat}

def Waits (e : Halt) : Prop :=
  e = .blocked ∨ e = .panic "incorrect blockno" ∨ e = .panic "bget: no buffers"

theorem need_error {c : Prop} [Decidable c] {e : Halt} (h : need c = .error e) : Waits e := by
  unfold need at h
  split_ifs at h
  cases h
  exact .inl rfl

namespace Machine
variable {sb : Superblock} {m m' : Machine n} {st : Store} {p : Fin n} {b src dst : Nat}
  {a : Act n} {e : Halt} {data : Block} {held : List Nat}

theorem bget_error (h : m.bget held = .error e) : Waits e := by
  unfold bget at h
  split_ifs at h
  split at h
  · cases h
  · cases h
    exact .inr (.inr rfl)

theorem bread_error (h : m.bread held b = .error e) : Waits e := by
  unfold bread at h
  split at h
  · split_ifs at h
    cases h
    exact .inl rfl
  · rcases bind_eq_error.mp h with h | ⟨_,-,h⟩
    · exact bget_error h
    · split_ifs at h
      cases h
      exact .inr (.inl rfl)

theorem copy_error (h : m.copy src dst = .error e) : Waits e := by
  rcases bind_eq_error.mp h with h | ⟨_,-,h⟩
  · exact need_error h
  · rcases bind_eq_error.mp h with h | ⟨_,-,h⟩
    · exact bread_error h
    · rcases bind_eq_error.mp h with h | ⟨_,-,h⟩
      · exact bread_error h
      · cases h

theorem writeHead_error (h : m.writeHead sb = .error e) : Waits e := by
  rcases bind_eq_error.mp h with h | ⟨_,-,h⟩
  · exact bread_error h
  · cases h

theorem beginOp_error (h : m.beginOp p = .error e) : Waits e := by
  rcases bind_eq_error.mp h with h | ⟨_,-,h⟩
  · exact need_error h
  · split_ifs at h

theorem modify_error (hnlog : logsize ≤ sb.nlog) (hok : LogOk m)
    (h : m.modify sb p b data = .error e) : Waits e := by
  unfold modify at h
  split at h
  case h_2 =>
    cases h
    exact .inl rfl
  case h_1 wrote hpc =>
    obtain ⟨-,hs,-⟩ := hok.space (by rw [hpc]; simp)
    have hfits := hs.fits
    have hone := Space.active_pos (p := p) hpc rfl
    have hcount := hs.count
    rcases bind_eq_error.mp h with h | ⟨⟨_,m1⟩,h1,h⟩
    · exact bread_error h
    · obtain ⟨c,rfl,-,-,-,-⟩ := bread_eq_ok h1
      simp only at h
      rw [if_neg (by omega),if_neg (by omega)] at h
      cases h

theorem append_error (hok : LogOk m) (hsync : Sync sb m st) (h : m.append p = .error e) :
    Waits e := by
  unfold append at h
  split at h
  case h_2 =>
    cases h
    exact .inl rfl
  case h_1 wrote b hpc =>
    obtain ⟨hup,hs,-⟩ := hok.space (by rw [hpc]; simp)
    have hopen := hs.not_committing (p := p) (by rw [hpc]; rfl)
    obtain ⟨-,-,-,hown,-⟩ := mode_running hsync.mode hup hs hopen
    have howner := (hown.owner b p).mpr ⟨wrote,hpc⟩
    have hfits := hs.fits
    split at h
    case h_2 hnone =>
      rw [ownerOf,hnone] at howner
      cases howner
    case h_1 buf _ =>
      simp only at h
      split_ifs at h with _ hlog
      exact absurd (show m.lh.length < logsize by omega) hlog

theorem endOp_error (hok : LogOk m) (h : m.endOp p = .error e) : Waits e := by
  unfold endOp at h
  split at h
  case h_2 =>
    cases h
    exact .inl rfl
  case h_1 wrote hpc =>
    obtain ⟨-,hs,-⟩ := hok.space (by rw [hpc]; simp)
    have hopen := hs.not_committing (p := p) (by rw [hpc]; rfl)
    simp only at h
    split_ifs at h with hcomm
    rw [hopen] at hcomm
    cases hcomm

theorem commit_error (h : m.commit sb p = .error e) : Waits e := by
  unfold commit at h
  split at h
  case h_1 | h_2 =>
    split at h
    all_goals
      rcases bind_eq_error.mp h with h | ⟨_,-,h⟩
      · first
          | exact copy_error h
          | exact writeHead_error h
      · cases h
  case h_3 => cases h
  case h_4 =>
    cases h
    exact .inl rfl

theorem read_error (h : m.read b = .error e) : Waits e := by
  rcases bind_eq_error.mp h with h | ⟨_,-,h⟩
  · exact need_error h
  · rcases bind_eq_error.mp h with h | ⟨_,-,h⟩
    · exact bread_error h
    · cases h

theorem release_error (h : m.release b = .error e) : Waits e := by
  unfold release at h
  split at h
  · rcases bind_eq_error.mp h with h | ⟨_,-,h⟩
    · exact need_error h
    · cases h
  · cases h
    exact .inl rfl

theorem readHead_error (hsync : Sync sb m st) (hphase : m.phase = .readHead)
    (h : m.readHead sb = .error e) : Waits e := by
  obtain ⟨hpins,hfree,-,-⟩ := mode_readHead hsync.mode hphase
  rcases bind_eq_error.mp h with h | ⟨⟨_,m1⟩,h1,h⟩
  · exact bread_error h
  · obtain ⟨c,-,-,rfl,-,-⟩ := bread_eq_ok h1
    have hlen := hsync.kept.wf.length
    rw [header,List.length_map,List.length_range] at hlen
    rw [hsync.kept.disk_eq hpins hfree List.not_mem_nil] at h
    simp only at h
    rw [if_neg (by omega)] at h
    cases h

theorem recover_error (hsync : Sync sb m st) (h : m.recover sb = .error e) : Waits e := by
  unfold recover at h
  split at h
  case h_1 hphase =>
    rcases bind_eq_error.mp h with h | ⟨_,-,h⟩
    · exact readHead_error hsync hphase h
    · cases h
  case h_2 =>
    split at h
    all_goals
      rcases bind_eq_error.mp h with h | ⟨_,-,h⟩
      · first
          | exact copy_error h
          | exact writeHead_error h
      · cases h
  case h_3 =>
    cases h
    exact .inl rfl

theorem step_error (hnlog : logsize ≤ sb.nlog) (hok : LogOk m) (hsync : Sync sb m st)
    (h : m.step sb a = .error e) : Waits e := by
  cases a with
  | beginOp p => exact beginOp_error h
  | modify p b data => exact modify_error hnlog hok h
  | append p => exact append_error hok hsync h
  | endOp p => exact endOp_error hok h
  | commit p => exact commit_error h
  | read b => exact read_error h
  | release b => exact release_error h
  | crash => cases h
  | recover => exact recover_error hsync h

theorem LogOk.asleep (hok : LogOk m) (hp : m.pc p = .asleep) :
    (m.committing = true ∨ m.lh.length + (m.outstanding + 1) * maxOpBlocks > logsize) ∧
      ∃ q, (m.pc q).active = true ∨ (m.pc q).commits = true := by
  obtain ⟨-,hs,hasleep⟩ := hok.space (by rw [hp]; simp)
  refine ⟨hasleep p hp,?_⟩
  by_contra hnone
  push Not at hnone
  have hactive : Tally.tally Pc.active m.pc = 0 :=
    Tally.tally_eq_zero.mpr fun q => Bool.eq_false_iff.mpr (hnone q).1
  have hcommits : Tally.tally Pc.commits m.pc = 0 :=
    Tally.tally_eq_zero.mpr fun q => Bool.eq_false_iff.mpr (hnone q).2
  have hopen : m.committing = false := by
    have hc := hs.commits
    rw [hcommits] at hc
    cases hm : m.committing with
    | false => rfl
    | true =>
      rw [hm] at hc
      cases hc
  have hcount := hs.count
  rw [hactive] at hcount
  rcases hasleep p hp with hc | hfull
  · rw [hopen] at hc
    cases hc
  · rw [hs.empty hactive hopen,hcount] at hfull
    exact absurd hfull (by decide)

section Recovery
variable {tail : Nat}

structure Resting (m : Machine n) : Prop where
  bounded : m.Bounded
  pins : m.Pins []
  unowned : m.Unowned
  unread : m.Unread

theorem Resting.unused (h : m.Resting) {buf : Buf n} (hbuf : m.cache b = some buf) :
    buf.unused = true := by
  have hdirty : m.isDirty b = false := Bool.eq_false_iff.mpr fun hd => by
    cases (h.pins b).mp hd
  have howner := h.unowned b
  have hread := h.unread b
  rw [isDirty,hbuf] at hdirty
  rw [ownerOf,hbuf] at howner
  rw [isReading,hbuf] at hread
  change buf.dirty = false at hdirty
  change buf.owner = none at howner
  change buf.reading = false at hread
  simp [Buf.unused,hdirty,howner,hread]

theorem Resting.reload (h : m.Resting) (hphase : m.phase ≠ .up) {c : Cache n} (hc : m.Reload c) :
    Resting { m with cache := c } := by
  refine ⟨hc.bounded h.bounded,?_,?_,hc.unread hphase h.unread⟩
  · unfold Pins
    rw [hc.isDirty]
    exact h.pins
  · unfold Unowned
    rw [hc.ownerOf]
    exact h.unowned

theorem bget_total (h : m.Resting) (hheld : held.length < nbuf) : ∃ m', m.bget held = .ok m' := by
  unfold bget
  split_ifs with hroom
  · exact ⟨m,rfl⟩
  · cases hv : m.cache.lru.reverse.find? (m.recyclable held) with
    | some v => exact ⟨_,rfl⟩
    | none =>
      have hsub : m.cache.lru ⊆ held := by
        intro x hx
        have hnot := List.find?_eq_none.mp hv x (List.mem_reverse.mpr hx)
        obtain ⟨buf,hbuf⟩ := Option.isSome_iff_exists.mp ((h.bounded.listed x).mp hx)
        by_contra hx
        apply hnot
        simp [recyclable,hx,hbuf,h.unused hbuf]
      have hlen := (h.bounded.nodup.subperm hsub).length_le
      omega

theorem bread_total (held : List Nat) (h : m.Resting) (hheld : held.length < nbuf)
    (hb : b < fssize) :
    ∃ c data, m.bread held b = .ok (data,{ m with cache := c }) ∧ m.Reload c := by
  have hok : ∃ r, m.bread held b = .ok r := by
    unfold bread
    cases hc : m.cache b with
    | none =>
      obtain ⟨m1,h1⟩ := bget_total h hheld
      exact ⟨_,bind_eq_ok.mpr ⟨m1,h1,if_pos hb⟩⟩
    | some buf =>
      obtain ⟨-,hown,hread⟩ := unused_eq (h.unused hc)
      exact ⟨_,if_pos ⟨hown,hread⟩⟩
  obtain ⟨⟨data,m1⟩,h1⟩ := hok
  obtain ⟨c,rfl,hc,-,-,-⟩ := bread_eq_ok h1
  exact ⟨c,data,h1,hc⟩

theorem copy_total (h : m.Resting) (hphase : m.phase ≠ .up) (hne : src ≠ dst) (hsrc : src < fssize)
    (hdst : dst < fssize) : ∃ m', m.copy src dst = .ok m' := by
  obtain ⟨c,data,h1,hc⟩ := bread_total [] h (by decide) hsrc
  obtain ⟨c2,data2,h2,-⟩ := bread_total [src] (h.reload hphase hc) (by simp) hdst
  refine ⟨{ m with cache := c2 }.bwrite dst data,?_⟩
  unfold copy
  rw [(need_eq_ok (u := ())).mpr hne]
  simp only [ok_bind,h1,h2]

theorem writeHead_total (h : m.Resting) (hb : sb.logstart < fssize) :
    ∃ m', m.writeHead sb = .ok m' := by
  obtain ⟨c,data,h1,-⟩ := bread_total [] h (by decide) hb
  refine ⟨{ m with cache := c }.bwrite sb.logstart (encode m.lh data),?_⟩
  unfold writeHead
  simp only [ok_bind,h1]

def left (sb : Superblock) (m : Machine n) : Nat :=
  match m.phase with
  | .readHead => (header (m.disk sb.logstart)).length + 2
  | .install tail => m.lh.length - tail + 1
  | .up => 0

theorem recover_total (hsize : sb.logstart + sb.nlog ≤ fssize) (hsync : Sync sb m st)
    (hphase : m.phase ≠ .up) : ∃ m', m.recover sb = .ok m' ∧ m'.left sb + 1 = m.left sb := by
  have hwf := hsync.kept.wf
  have hroom := hwf.room
  have hstart : sb.logstart < fssize := by omega
  have hview : m.Pins [] → m.Unowned → m.view sb.logstart = m.disk sb.logstart :=
    fun hpins hfree => hsync.kept.disk_eq hpins hfree List.not_mem_nil
  cases hp : m.phase with
  | up => exact absurd hp hphase
  | readHead =>
    obtain ⟨hpins,hfree,hunread,-⟩ := mode_readHead hsync.mode hp
    have hrest : m.Resting := ⟨hsync.kept.bounded,hpins,hfree,hunread⟩
    obtain ⟨c,data,h1,hc⟩ := bread_total [] hrest (by decide) hstart
    obtain ⟨-,-,-,hdata,-,-⟩ := bread_eq_ok h1
    rw [hview hpins hfree] at hdata
    have hlen := hwf.length
    rw [header,List.length_map,List.length_range] at hlen
    refine ⟨{ m with cache := c, lh := header data, phase := .install 0 },?_,?_⟩
    · unfold recover readHead
      rw [hp]
      simp only [h1,ok_bind]
      rw [if_neg (by rw [hdata]; omega)]
      rfl
    · rw [hdata]
      simp only [left,hp]
      omega
  | install tail =>
    obtain ⟨hpins,hfree,hunread,-,hlh,-⟩ := mode_restoring hsync.mode hp
    have hrest : m.Resting := ⟨hsync.kept.bounded,hpins,hfree,hunread⟩
    unfold recover
    simp only [hp]
    cases hb : m.lh[tail]? with
    | some b =>
      obtain ⟨hlt,-⟩ := List.getElem?_eq_some_iff.mp hb
      have hmem : b ∈ header (m.disk sb.logstart) := hlh ▸ List.mem_of_getElem? hb
      have hslot : sb.slot tail < fssize := by
        rw [hlh] at hlt
        unfold Superblock.slot
        omega
      have hne : sb.slot tail ≠ b := by
        rw [hlh] at hlt
        exact ((hwf.home b hmem).ne_slot (by omega)).symm
      obtain ⟨m1,h1⟩ := copy_total hrest hphase hne hslot (hwf.small b hmem)
      obtain ⟨c,rfl,-,-,-⟩ := copy_eq_ok h1
      refine ⟨_,by simp only [h1,ok_bind]; rfl,?_⟩
      simp only [left,hp]
      change m.lh.length - (tail + 1) + 1 + 1 = m.lh.length - tail + 1
      omega
    | none =>
      have hlen := List.getElem?_eq_none_iff.mp hb
      obtain ⟨m1,h1⟩ := writeHead_total (m := { m with lh := [], phase := .install tail })
        ⟨hrest.bounded,hrest.pins,hrest.unowned,hrest.unread⟩ hstart
      refine ⟨_,by simp only [h1,ok_bind]; rfl,?_⟩
      simp only [left,hp]
      omega

theorem restored_disk (he : Effect sb m .recover m') (hup : m'.phase = .up) :
    header (m'.disk sb.logstart) = [] := by
  cases he with
  | readHead _ _ _ => cases hup
  | restore _ _ _ _ _ => cases hup
  | restored _ _ _ _ =>
    change header (Function.update m.disk sb.logstart _ sb.logstart) = []
    rw [Function.update_self]
    exact header_encode (by simp) (by simp) _

variable {disk : Nat → Block}

theorem reach_recovers (hd : Boots sb disk) :
    ∀ (k : Nat) {m : Machine n}, (fsLog sb n disk).Reach (Fits sb) m → m.left sb = k →
      ∃ m', (List.replicate k Act.recover).foldlM (fsLog sb n disk).step m = .ok m' ∧
        (m.phase = .up → m' = m) ∧ (m.phase ≠ .up → m'.phase = .up ∧
          ∀ b, sb.Home b → m'.content sb b = recovered sb m.disk b ∧
            m'.disk b = recovered sb m.disk b) := by
  intro k
  induction k with
  | zero =>
    intro m h hleft
    have hup : m.phase = .up := by
      unfold left at hleft
      split at hleft
      · cases hleft
      · cases hleft
      · assumption
    exact ⟨m,rfl,fun _ => rfl,fun hdown => absurd hup hdown⟩
  | succ k ih =>
    intro m h hleft
    obtain ⟨hok,st,hs⟩ := reach_sync hd h
    have hdown : m.phase ≠ .up := by
      intro hup
      rw [left,hup] at hleft
      cases hleft
    obtain ⟨m1,h1,hless⟩ := recover_total hd.size hs hdown
    have hreach : (fsLog sb n disk).Reach (Fits sb) m1 := .step (a := .recover) h trivial h1
    obtain ⟨m2,hrun,hstay,hgo⟩ := ih hreach (by omega)
    have hstep := fun b (hb : sb.Home b) => step_content hd (a := .recover) h trivial h1 hb
    have hsame := (step_durable hd (a := .recover) h trivial h1).1 (not_writesHead nofun)
    refine ⟨m2,?_,fun hup => absurd hup hdown,fun _ => ?_⟩
    · rw [List.replicate_succ,List.foldlM_cons]
      exact bind_eq_ok.mpr ⟨m1,h1,hrun⟩
    · rcases eq_or_ne m1.phase .up with hup1 | hdown1
      · obtain rfl := hstay hup1
        refine ⟨hup1,fun b hb => ⟨?_,?_⟩⟩
        · rw [hstep b hb]
          exact congrFun (if_neg hdown) b
        · rw [← hsame b hb,recovered_nil (restored_disk (step_effect (a := .recover) h1) hup1)]
      · obtain ⟨hup2,hcontent⟩ := hgo hdown1
        refine ⟨hup2,fun b hb => ?_⟩
        rw [← hsame b hb]
        exact hcontent b hb

theorem recovery_completes (hd : Boots sb disk) (h : (fsLog sb n disk).Reach (Fits sb) m)
    (hdown : m.phase ≠ .up) :
    ∃ m', (List.replicate (m.left sb) Act.recover).foldlM (fsLog sb n disk).step m = .ok m' ∧
      m'.phase = .up ∧ ∀ b, sb.Home b → m'.content sb b = recovered sb m.disk b ∧
        m'.disk b = recovered sb m.disk b := by
  obtain ⟨m',hrun,-,hgo⟩ := reach_recovers hd (m.left sb) h rfl
  exact ⟨m',hrun,hgo hdown⟩

theorem recovery_completes_crashed :
    let m := (fsLog mkfsSuper 2 zeroDisk).after (crashedRun 0)
    ∃ m', (List.replicate (m.left mkfsSuper) Act.recover).foldlM
        (fsLog mkfsSuper 2 zeroDisk).step m = .ok m' ∧
      m'.phase = .up ∧ ∀ b, mkfsSuper.Home b →
        m'.content mkfsSuper b = recovered mkfsSuper m.disk b ∧
          m'.disk b = recovered mkfsSuper m.disk b :=
  recovery_completes boots_zeroDisk (System.reach_after crashedRun_ok crashedRun_fits)
    (by decide +kernel)

theorem log_space (hd : Boots sb disk) (h : (fsLog sb n disk).Reach (Fits sb) m) :
    (∀ a e, (fsLog sb n disk).step m a = .error e →
      e = .blocked ∨ e = .panic "incorrect blockno" ∨ e = .panic "bget: no buffers") ∧
      ∀ p, m.pc p = .asleep →
        (m.committing = true ∨ m.lh.length + (m.outstanding + 1) * maxOpBlocks > logsize) ∧
          ∃ q, (m.pc q).active = true ∨ (m.pc q).commits = true := by
  obtain ⟨hok,st,hs⟩ := reach_sync hd h
  exact ⟨fun _ _ he => step_error hd.nlog hok hs he,fun _ hp => hok.asleep hp⟩

theorem log_space_crashed :
    let m := (fsLog mkfsSuper 2 zeroDisk).after (crashedRun 0)
    (∀ a e, (fsLog mkfsSuper 2 zeroDisk).step m a = .error e →
      e = .blocked ∨ e = .panic "incorrect blockno" ∨ e = .panic "bget: no buffers") ∧
      ∀ p, m.pc p = .asleep →
        (m.committing = true ∨ m.lh.length + (m.outstanding + 1) * maxOpBlocks > logsize) ∧
          ∃ q, (m.pc q).active = true ∨ (m.pc q).commits = true :=
  log_space boots_zeroDisk (System.reach_after crashedRun_ok crashedRun_fits)

def logTen (p : Fin 3) (b : Nat) : List (Act 3) :=
  (List.range 10).flatMap fun i => [.modify p (b + i) fun _ => 1,.append p]

example : Except.map (fun _ => ()) (([Act.recover,.recover,.beginOp 0,.beginOp 1,.beginOp 2] ++
    logTen 0 60 ++ logTen 1 70 ++ logTen 2 80).foldlM (fsLog mkfsSuper 3 zeroDisk).step
      (boot zeroDisk)) = .error (.panic "too big a transaction") := by
  decide +kernel

end Recovery

end Machine

end Fs
