import OscAssignments.Pipe.Bytes

namespace Pipe
open Runs

variable {n : Nat}

def Pc.about : Pc → Option End
  | .writeSleep _ _ => some .write
  | .readSleep _ => some .read
  | _ => none

def Pc.asleep : Pc → Option End
  | .writeAsleep _ _ => some .write
  | .readAsleep _ => some .read
  | _ => none

def Pc.moves : Pc → Option End
  | .write _ _ => some .write
  | .read _ _ => some .read
  | _ => none

theorem Pc.about_wake (pc : Pc) (e : End) : (pc.wake e).about = pc.about := by
  rcases pc.wake_cases e with h | ⟨addr,i,rfl,h⟩ | ⟨size,rfl,h⟩ <;> rw [h] <;> rfl

theorem Pc.moves_wake (pc : Pc) (e : End) : (pc.wake e).moves = pc.moves := by
  rcases pc.wake_cases e with h | ⟨addr,i,rfl,h⟩ | ⟨size,rfl,h⟩ <;> rw [h] <;> rfl

theorem Pc.asleep_wake {pc : Pc} {e x : End} (h : (pc.wake e).asleep = some x) :
    pc.asleep = some x ∧ x ≠ e := by
  cases pc <;> cases e <;> cases x <;> simp_all [Pc.wake,Pc.asleep]

theorem Pc.holding_of_moves {pc : Pc} {e : End} (h : pc.moves = some e) : pc.holding = true := by
  cases pc <;> first | rfl | cases h

theorem Pc.holding_of_about {pc : Pc} {e : End} (h : pc.about = some e) : pc.holding = true := by
  cases pc <;> first | rfl | cases h

theorem Pc.uses_of_asleep {pc : Pc} {e : End} (h : pc.asleep = some e) : pc.uses = some e := by
  cases pc <;> first | exact h | cases h

theorem End.other_other (e : End) : e.other.other = e := by
  cases e <;> rfl

namespace Machine
variable {m m' c : Machine n} {p q : Fin n} {e x : End} {a : Act n}

def stuck (m : Machine n) : End → Prop
  | .read => m.empty
  | .write => m.full

structure Waits (m : Machine n) (e : End) : Prop where
  about : ∀ q, (m.pc q).about = some e → m.stuck e ∧ m.isOpen e.other = true
  asleep : ∀ q, (m.pc q).asleep = some e →
    m.isOpen e.other = true ∧ (m.stuck e ∨ ∃ r, (m.pc r).moves = some e.other)

theorem stuck_congr (hr : m'.nread = m.nread) (hw : m'.nwrite = m.nwrite) :
    m'.stuck e ↔ m.stuck e := by
  cases e with
  | read => simp only [stuck,empty,hr,hw]
  | write => simp only [stuck,full,hr,hw]

structure Woken (m c : Machine n) (e : End) : Prop where
  about : ∀ q, (c.pc q).about = (m.pc q).about
  asleep : ∀ q, (c.pc q).asleep = some e → (m.pc q).asleep = some e
  moves : ∀ q, (c.pc q).moves = (m.pc q).moves
  nread : c.nread = m.nread
  nwrite : c.nwrite = m.nwrite
  isOpen : c.isOpen = m.isOpen

theorem Woken.wakeup (m : Machine n) (x e : End) : Woken m (m.wakeup x) e :=
  ⟨fun q => (m.pc q).about_wake x,fun _ hq => (Pc.asleep_wake hq).1,
    fun q => (m.pc q).moves_wake x,rfl,rfl,rfl⟩

theorem Woken.unlock (h : Woken m c e) : Woken m c.unlock e :=
  ⟨h.about,h.asleep,h.moves,h.nread,h.nwrite,h.isOpen⟩

theorem no_sleeper (m : Machine n) (e : End) (q : Fin n) :
    ((m.wakeup e).pc q).asleep ≠ some e :=
  fun hq => (Pc.asleep_wake hq).2 rfl

theorem Waits.setPc (h : Waits m e) (hw : Woken m c e) {pc : Pc}
    (habout : pc.about = some e → m.stuck e ∧ m.isOpen e.other = true)
    (hasleep : pc.asleep = some e → m.isOpen e.other = true ∧ m.stuck e)
    (hmoves : (m.pc p).moves ≠ some e.other ∨ pc.moves = some e.other ∨
      ∀ q, (c.pc q).asleep ≠ some e) : Waits (c.setPc p pc) e := by
  have hstuck : (c.setPc p pc).stuck e ↔ m.stuck e := stuck_congr hw.nread hw.nwrite
  have hopen : (c.setPc p pc).isOpen = m.isOpen := hw.isOpen
  rw [← hstuck] at habout hasleep
  constructor
  · intro q hq
    rw [hopen]
    rcases eq_or_ne q p with rfl | hne
    · rw [setPc_pc,Function.update_self] at hq
      exact habout hq
    · rw [setPc_pc,Function.update_of_ne hne,hw.about] at hq
      rw [hstuck]
      exact h.about q hq
  · intro q hq
    rw [hopen]
    rcases eq_or_ne q p with rfl | hne
    · rw [setPc_pc,Function.update_self] at hq
      obtain ⟨ho,hs⟩ := hasleep hq
      exact ⟨ho,.inl hs⟩
    · rw [setPc_pc,Function.update_of_ne hne] at hq
      obtain ⟨ho,hs⟩ := h.asleep q (hw.asleep q hq)
      refine ⟨ho,hs.imp hstuck.mpr ?_⟩
      rintro ⟨r,hr⟩
      rcases eq_or_ne r p with rfl | hrp
      · rcases hmoves with hnot | hmore | hnone
        · exact absurd hr hnot
        · exact ⟨r,by rw [setPc_pc,Function.update_self]; exact hmore⟩
        · exact absurd hq (hnone q)
      · refine ⟨r,?_⟩
        rw [setPc_pc,Function.update_of_ne hrp,hw.moves]
        exact hr

theorem Waits.copy (h : Waits m e) (hl : Locked m) (hp : (m.pc p).moves = some x)
    (hready : ¬ m.stuck x) {pc : Pc} (hpc : pc.moves = some x) (hsame : c.pc = m.pc)
    (hopen : c.isOpen = m.isOpen) : Waits (c.setPc p pc) e := by
  have hnone : pc.about = none ∧ pc.asleep = none := by
    cases pc <;> first | exact ⟨rfl,rfl⟩ | cases hpc
  have hhold := Pc.holding_of_moves hp
  have hback : ∀ q, q ≠ p → (c.setPc p pc).pc q = m.pc q := by
    intro q hne
    rw [setPc_pc,Function.update_of_ne hne,hsame]
  constructor
  · intro q hq
    rcases eq_or_ne q p with rfl | hne
    · rw [setPc_pc,Function.update_self,hnone.1] at hq
      cases hq
    · rw [hback q hne] at hq
      exact absurd (hl.unique (Pc.holding_of_about hq) hhold) hne
  · intro q hq
    rcases eq_or_ne q p with rfl | hne
    · rw [setPc_pc,Function.update_self,hnone.2] at hq
      cases hq
    · rw [hback q hne] at hq
      obtain ⟨ho,hs⟩ := h.asleep q hq
      refine ⟨(congrFun hopen _).trans ho,.inr ⟨p,?_⟩⟩
      rw [setPc_pc,Function.update_self,hpc]
      rcases hs with hs | ⟨r,hr⟩
      · rcases eq_or_ne x e with rfl | hx
        · exact absurd hs hready
        · revert hx
          cases x <;> cases e <;> simp [End.other]
      · obtain rfl := hl.unique (Pc.holding_of_moves hr) hhold
        exact hp.symm.trans hr

theorem Waits.close (h : Waits m e) (hl : Locked m) (hfree : m.lock = none)
    (hpc : m.pc p = .close x) : Waits ((m.pipeclose x).setPc p (.user 0)) e := by
  obtain ⟨-,-,hopen,hpcs⟩ := pipeclose_frame m x
  obtain ⟨-,hr,hw,-⟩ := pipeclose_buffer m x
  have hstuck : ((m.pipeclose x).setPc p (.user 0)).stuck e ↔ m.stuck e := stuck_congr hr hw
  have hnot : ∀ q, (m.pc q).holding ≠ true := by
    intro q hq
    rw [hl q,hfree] at hq
    cases hq
  constructor
  · intro q hq
    rcases eq_or_ne q p with rfl | hne
    · rw [setPc_pc,Function.update_self] at hq
      cases hq
    · rw [setPc_pc,Function.update_of_ne hne,hpcs] at hq
      rw [Pc.about_wake] at hq
      exact absurd (Pc.holding_of_about hq) (hnot q)
  · intro q hq
    rcases eq_or_ne q p with rfl | hne
    · rw [setPc_pc,Function.update_self] at hq
      cases hq
    · rw [setPc_pc,Function.update_of_ne hne,hpcs] at hq
      obtain ⟨hold,hx⟩ := Pc.asleep_wake hq
      obtain ⟨ho,hs⟩ := h.asleep q hold
      refine ⟨?_,hs.imp hstuck.mpr fun ⟨r,hr⟩ => absurd (Pc.holding_of_moves hr) (hnot r)⟩
      change (m.pipeclose x).isOpen e.other = true
      have hne' : e.other ≠ x := by
        rintro rfl
        exact hx e.other_other.symm
      rw [hopen,Function.update_of_ne hne']
      exact ho

def abandons (m : Machine n) : Act n → Prop
  | .run p => (∃ addr i, m.pc p = .write addr i ∧ i < addr.length) ∧ m.full ∧ m.killed p = true
  | _ => False

theorem effect_waits (he : Effect m a m') (hs : Sane m) (hl : Locked m) (h : Waits m e)
    (ha : e = .read → ¬ m.abandons a) : Waits m' e := by
  have hsame : Woken m m e := ⟨fun _ => rfl,fun _ => id,fun _ => rfl,rfl,rfl,rfl⟩
  cases he with
  | dup hp hq hfd href => exact ⟨h.about,h.asleep⟩
  | closeMore hp hfd href => exact ⟨h.about,h.asleep⟩
  | @closeLast p x hp hfd href =>
    obtain ⟨ret,hpc⟩ := userMode_eq hp
    have hsame' : Woken m { m.setFds p x (m.fds p x - 1) with ref := Function.update m.ref x 0 } e :=
      ⟨fun _ => rfl,fun _ => id,fun _ => rfl,rfl,rfl,rfl⟩
    exact h.setPc hsame' (by simp [Pc.about]) (by simp [Pc.asleep]) (.inl (by rw [hpc]; simp [Pc.moves]))
  | callWrite hp hfd =>
    obtain ⟨ret,hpc⟩ := userMode_eq hp
    exact h.setPc hsame (by simp [Pc.about]) (by simp [Pc.asleep]) (.inl (by rw [hpc]; simp [Pc.moves]))
  | callRead hp hfd =>
    obtain ⟨ret,hpc⟩ := userMode_eq hp
    exact h.setPc hsame (by simp [Pc.about]) (by simp [Pc.asleep]) (.inl (by rw [hpc]; simp [Pc.moves]))
  | kill p =>
    have hkilled : Woken m { m with killed := Function.update m.killed p true } e :=
      ⟨fun _ => rfl,fun _ => id,fun _ => rfl,rfl,rfl,rfl⟩
    refine h.setPc hkilled ?_ ?_ ?_
    · intro hq
      rw [Pc.rouse,Pc.about_wake,Pc.about_wake] at hq
      exact h.about p hq
    · intro hq
      obtain ⟨hq,hw⟩ := Pc.asleep_wake hq
      obtain ⟨-,hr⟩ := Pc.asleep_wake hq
      cases e with
      | read => exact absurd rfl hr
      | write => exact absurd rfl hw
    · rw [Pc.rouse,Pc.moves_wake,Pc.moves_wake]
      exact (ne_or_eq _ _).imp_right .inl
  | pipeclose hpc hlock => exact h.close hl hlock hpc
  | @lockWrite p addr i hpc hlock =>
    have hlocked : Woken m { m with lock := some p } e :=
      ⟨fun _ => rfl,fun _ => id,fun _ => rfl,rfl,rfl,rfl⟩
    exact h.setPc hlocked (by simp [Pc.about]) (by simp [Pc.asleep]) (.inl (by rw [hpc]; simp [Pc.moves]))
  | @lockRead p size hpc hlock =>
    have hlocked : Woken m { m with lock := some p } e :=
      ⟨fun _ => rfl,fun _ => id,fun _ => rfl,rfl,rfl,rfl⟩
    exact h.setPc hlocked (by simp [Pc.about]) (by simp [Pc.asleep]) (.inl (by rw [hpc]; simp [Pc.moves]))
  | writeDone hpc hend =>
    refine h.setPc (Woken.wakeup m .read e).unlock (by simp [Pc.about]) (by simp [Pc.asleep]) ?_
    cases e with
    | read => exact .inr (.inr (no_sleeper m .read))
    | write => exact .inl (by rw [hpc]; simp [Pc.moves,End.other])
  | writeFails hpc hb hfull hfail =>
    refine h.setPc hsame.unlock (by simp [Pc.about]) (by simp [Pc.asleep]) ?_
    cases e with
    | read =>
      refine .inr (.inr fun q hq => ?_)
      rcases hfail with hclosed | hkilled
      · rw [hs.isOpen_of_uses (Pc.uses_of_asleep hq)] at hclosed
        cases hclosed
      · exact ha rfl ⟨⟨_,_,hpc,(List.getElem?_eq_some_iff.mp hb).1⟩,hfull,hkilled⟩
    | write => exact .inl (by rw [hpc]; simp [Pc.moves,End.other])
  | writeFull hpc hb hfull hopen hkilled =>
    refine h.setPc (Woken.wakeup m .read e) ?_ (by simp [Pc.asleep]) ?_
    · rintro ⟨⟩
      exact ⟨hfull,hopen⟩
    · cases e with
      | read => exact .inr (.inr (no_sleeper m .read))
      | write => exact .inl (by rw [hpc]; simp [Pc.moves,End.other])
  | put hpc hb hroom => exact h.copy (x := .write) hl (by rw [hpc]; rfl) hroom rfl rfl rfl
  | @writeSleep p addr i hpc =>
    refine h.setPc hsame.unlock (by simp [Pc.about]) ?_ (.inl (by rw [hpc]; simp [Pc.moves]))
    intro hq
    exact (h.about p (by rw [hpc]; exact hq)).symm
  | readKilled hpc hempty hopen hkilled =>
    exact h.setPc hsame.unlock (by simp [Pc.about]) (by simp [Pc.asleep]) (.inl (by rw [hpc]; simp [Pc.moves]))
  | readEmpty hpc hempty hopen hkilled =>
    refine h.setPc hsame ?_ (by simp [Pc.asleep]) (.inl (by rw [hpc]; simp [Pc.moves]))
    rintro ⟨⟩
    exact ⟨hempty,hopen⟩
  | readReady hpc hready => exact h.setPc hsame (by simp [Pc.about]) (by simp [Pc.asleep]) (.inl (by rw [hpc]; simp [Pc.moves]))
  | @readSleep p size hpc =>
    refine h.setPc hsame.unlock (by simp [Pc.about]) ?_ (.inl (by rw [hpc]; simp [Pc.moves]))
    intro hq
    exact (h.about p (by rw [hpc]; exact hq)).symm
  | take hpc hsize hready => exact h.copy (x := .read) hl (by rw [hpc]; rfl) hready rfl rfl rfl
  | readDone hpc hend =>
    refine h.setPc (Woken.wakeup m .write e).unlock (by simp [Pc.about]) (by simp [Pc.asleep]) ?_
    cases e with
    | read => exact .inl (by rw [hpc]; simp [Pc.moves,End.other])
    | write => exact .inr (.inr (no_sleeper m .write))

variable {data : Nat → UInt8} {p0 : Fin n}

theorem pipealloc_waits : Waits (pipealloc data p0) e := ⟨nofun,nofun⟩

theorem path_waits {ts : List (Machine n × Act n × Machine n)}
    (h : (pipe data p0).Path (pipealloc data p0) ts m)
    (ha : e = .read → ∀ tr ∈ ts, ¬ tr.1.abandons tr.2.1) : Waits m e := by
  refine h.rule (fun ts m => (e = .read → ∀ tr ∈ ts, ¬ tr.1.abandons tr.2.1) → Waits m e)
    (fun _ => pipealloc_waits) ?_ ha
  intro ts s a t hpath ih hstep ha
  obtain ⟨hs,hl,-,-⟩ := path_stream hpath
  refine effect_waits (step_effect hstep) hs hl (ih fun he tr htr => ?_) fun he => ?_
  · exact ha he tr (List.mem_append_left _ htr)
  · exact ha he (s,a,t) (List.mem_append_right _ (List.mem_singleton_self _))

theorem Waits.stuck_of_asleep (h : Waits m e) (hl : Locked m) (hfree : m.lock = none)
    (hq : (m.pc q).asleep = some e) : m.stuck e ∧ m.isOpen e.other = true := by
  obtain ⟨ho,hs | ⟨r,hr⟩⟩ := h.asleep q hq
  · exact ⟨hs,ho⟩
  · rw [(hl r).mp (Pc.holding_of_moves hr)] at hfree
    cases hfree

theorem Sane.run_ok (h : Sane m) (hfree : m.lock = none) (hin : (m.pc p).inside = true) :
    ∃ m', m.run p = .ok m' := by
  cases hr : m.run p with
  | ok m' => exact ⟨m',rfl⟩
  | error f => exact absurd hfree ((h.run_error hr).2 hin)

theorem pipe_sleepers {ts : List (Machine n × Act n × Machine n)}
    (h : (pipe data p0).Path (pipealloc data p0) ts m) (hfree : m.lock = none) :
    (∀ q, (m.pc q).asleep = some .write → m.full ∧ m.isOpen .read = true) ∧
      ((∀ tr ∈ ts, ¬ tr.1.abandons tr.2.1) →
        ∀ q, (m.pc q).asleep = some .read → m.empty ∧ m.isOpen .write = true) ∧
      ∀ q, (m.pc q).inside = true → ∃ m', (pipe data p0).step m (.run q) = .ok m' := by
  obtain ⟨hs,hl,-,-⟩ := path_stream h
  refine ⟨fun q hq => ?_,fun ha q hq => ?_,fun q hq => hs.run_ok hfree hq⟩
  · exact (path_waits (e := .write) h (by simp)).stuck_of_asleep hl hfree hq
  · exact (path_waits (e := .read) h fun _ => ha).stuck_of_asleep hl hfree hq

theorem pipe_sleepers_run :
    let as := (pipeRun (0 : Fin 2) 1).take 8
    let ts := (pipe (fun _ => 0) 0).transitions (pipealloc (fun _ => 0) 0) as
    let m := (pipe (fun _ => 0) 0).after as
    (∀ q, (m.pc q).asleep = some .write → m.full ∧ m.isOpen .read = true) ∧
      ((∀ tr ∈ ts, ¬ tr.1.abandons tr.2.1) →
        ∀ q, (m.pc q).asleep = some .read → m.empty ∧ m.isOpen .write = true) ∧
      ∀ q, (m.pc q).inside = true → ∃ m', (pipe (fun _ => 0) 0).step m (.run q) = .ok m' :=
  pipe_sleepers (System.path_run (by decide +kernel)) (by decide +kernel)

def lostReader (p q : Fin n) : List (Act n) :=
  [.filedup p q .write,.read p 1,.run p,.run p,.run p,.write q (List.replicate 513 7),.run q] ++
    List.replicate 512 (.run q) ++ [.kill q,.run q,.fileclose q .write]

example :
    let m := (pipe (fun _ => 0) 0).after (lostReader (0 : Fin 2) 1)
    m.lock = none ∧ (m.pc 0).asleep = some .read ∧ m.full ∧ m.isOpen .write = true := by
  decide +kernel

end Machine

end Pipe
