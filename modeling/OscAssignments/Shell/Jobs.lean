import Mathlib.Tactic
import OscAssignments.Lib.Runs
import OscAssignments.Lib.Registry

namespace Shell
open Runs Registry

inductive Kid
  | running
  | stopped
  | zombie
  deriving DecidableEq

inductive Pc
  | prompt
  | launched (pid : Nat)
  | foreground (pid : Nat)
  | suspended (pid : Nat)
  | resumed (slot pid : Nat)
  | suspendedJob (slot pid : Nat)
  deriving DecidableEq

structure Jobs where
  pc : Pc
  children : List Nat
  kid : Nat → Kid
  sigchld : Bool
  pendingIDs : List Nat

inductive Refused
  | disabled
  | outOfBounds
  deriving DecidableEq

def maxJobs : Nat := 100

namespace Jobs

inductive Act
  | background (pid : Nat)
  | foreground (pid : Nat)
  | record
  | fg (jobn : Int)
  | bg (jobn : Int) (stops : Bool)
  | stop (pid : Nat)
  | terminate (pid : Nat)
  | waited
  | waitFails (garbage : Bool)
  | deliver (reaped : Option Nat)

def setKid (s : Jobs) (pid : Nat) (k : Kid) : Jobs :=
  { s with kid := fun q => if q = pid then k else s.kid q }

def addJob (s : Jobs) (pid : Nat) : Except Refused Jobs :=
  if s.pendingIDs.length < maxJobs then
    .ok { s with pendingIDs := s.pendingIDs ++ [pid], pc := .prompt }
  else .error .outOfBounds

def jobAt (s : Jobs) (jobn : Int) : Option (Nat × Nat) :=
  if jobn > s.pendingIDs.length ∨ jobn ≤ 0 then none
  else
    match s.pendingIDs[(jobn - 1).toNat]? with
    | some 0 => none
    | some pid => some ((jobn - 1).toNat,pid)
    | none => none

def fork (s : Jobs) (pid : Nat) (pc : Pc) : Except Refused Jobs :=
  if s.pc = .prompt ∧ pid ≠ 0 ∧ pid ∉ s.children then
    .ok { (s.setKid pid .running) with children := pid :: s.children, pc := pc }
  else .error .disabled

def zombies (s : Jobs) : List Nat := s.children.filter fun p => s.kid p == .zombie

def continueKid (s : Jobs) (pid : Nat) : Jobs :=
  if pid ∈ s.children ∧ s.kid pid = .stopped then
    { (s.setKid pid .running) with sigchld := true }
  else s

def childTermination (s : Jobs) : Option Nat → Except Refused Jobs
  | none => if s.zombies = [] then .ok s else .error .disabled
  | some pid =>
    if pid ∈ s.zombies then
      .ok { s with children := s.children.erase pid, pendingIDs := clear pid s.pendingIDs }
    else .error .disabled

def step (s : Jobs) : Act → Except Refused Jobs
  | .background pid => s.fork pid (.launched pid)
  | .foreground pid => s.fork pid (.foreground pid)
  | .record =>
    match s.pc with
    | .launched pid => s.addJob pid
    | .suspended pid => s.addJob pid
    | .suspendedJob slot pid => addJob { s with pendingIDs := s.pendingIDs.set slot 0 } pid
    | _ => .error .disabled
  | .fg jobn =>
    if s.pc = .prompt then
      match s.jobAt jobn with
      | none => .ok s
      | some (slot,pid) => .ok { (s.continueKid pid) with pc := .resumed slot pid }
    else .error .disabled
  | .bg jobn stops =>
    if s.pc = .prompt then
      match s.jobAt jobn with
      | none => .ok s
      | some (_,pid) =>
        if stops ∧ pid ∈ s.children ∧ s.kid pid = .running then .ok { s with sigchld := true }
        else .ok (s.continueKid pid)
    else .error .disabled
  | .stop pid =>
    if pid ∈ s.children ∧ s.kid pid = .running then
      .ok { (s.setKid pid .stopped) with sigchld := true }
    else .error .disabled
  | .terminate pid =>
    if pid ∈ s.children ∧ s.kid pid ≠ .zombie then
      .ok { (s.setKid pid .zombie) with sigchld := true }
    else .error .disabled
  | .waited =>
    match s.pc with
    | .foreground pid =>
      if pid ∉ s.children then .error .disabled
      else
        match s.kid pid with
        | .running => .error .disabled
        | .stopped => .ok { s with pc := .suspended pid }
        | .zombie => .ok { s with children := s.children.erase pid, pc := .prompt }
    | .resumed slot pid =>
      if pid ∉ s.children then .error .disabled
      else
        match s.kid pid with
        | .running => .error .disabled
        | .stopped => .ok { s with pc := .suspendedJob slot pid }
        | .zombie =>
          .ok { s with
            children := s.children.erase pid
            pendingIDs := s.pendingIDs.set slot 0
            pc := .prompt }
    | _ => .error .disabled
  | .waitFails garbage =>
    match s.pc with
    | .foreground pid =>
      if pid ∈ s.children then .error .disabled
      else if garbage then .ok { s with pc := .suspended pid }
      else .ok { s with pc := .prompt }
    | .resumed slot pid =>
      if pid ∈ s.children then .error .disabled
      else if garbage then .ok { s with pc := .suspendedJob slot pid }
      else .ok { s with pendingIDs := s.pendingIDs.set slot 0, pc := .prompt }
    | _ => .error .disabled
  | .deliver reaped =>
    if s.sigchld then childTermination { s with sigchld := false } reaped else .error .disabled

def jobTable : System Jobs Act Refused where
  init := { pc := .prompt, children := [], kid := fun _ => .running, sigchld := false, pendingIDs := [] }
  step := step

end Jobs

def Pc.engaged : Pc → Option Nat
  | .prompt => none
  | .launched pid => some pid
  | .foreground pid => some pid
  | .suspended pid => some pid
  | .resumed _ pid => some pid
  | .suspendedJob _ pid => some pid

def Pc.unlisted : Pc → Option Nat
  | .launched pid => some pid
  | .foreground pid => some pid
  | .suspended pid => some pid
  | _ => none

def Pc.slot : Pc → Option (Nat × Nat)
  | .resumed slot pid => some (slot,pid)
  | .suspendedJob slot pid => some (slot,pid)
  | _ => none

namespace Jobs

def loose (s : Jobs) : List Nat := s.zombies.filter fun p => s.pc != .foreground p

def Orderly (s : Jobs) : Act → Prop
  | .terminate pid => s.pc = .foreground pid ∨ s.loose = []
  | .deliver (some pid) => s.pc.engaged ≠ some pid
  | .record => s.pendingIDs.length < maxJobs
  | _ => True

instance (s : Jobs) : (a : Act) → Decidable (Orderly s a)
  | .terminate pid => inferInstanceAs (Decidable (s.pc = .foreground pid ∨ s.loose = []))
  | .deliver (some pid) => inferInstanceAs (Decidable (s.pc.engaged ≠ some pid))
  | .deliver none => isTrue trivial
  | .record => inferInstanceAs (Decidable (s.pendingIDs.length < maxJobs))
  | .background _ => isTrue trivial
  | .foreground _ => isTrue trivial
  | .fg _ => isTrue trivial
  | .bg _ _ => isTrue trivial
  | .stop _ => isTrue trivial
  | .waited => isTrue trivial
  | .waitFails _ => isTrue trivial

structure Inv (s : Jobs) : Prop where
  nodup : s.children.Nodup
  nonzero : 0 ∉ s.children
  engaged : ∀ p, s.pc.engaged = some p → p ∈ s.children
  slot : ∀ i p, s.pc.slot = some (i,p) → s.pendingIDs[i]? = some p
  alone : ∀ p ∈ s.loose, ∀ q ∈ s.loose, p = q
  raised : s.loose ≠ [] → s.sigchld = true
  once : (entries s.pendingIDs).Nodup
  listed : ∀ p, p ∈ entries s.pendingIDs ↔ p ∈ s.children ∧ s.pc.unlisted ≠ some p
  count : s.pendingIDs.length ≤ maxJobs

theorem mem_zombies {s : Jobs} {p : Nat} : p ∈ s.zombies ↔ p ∈ s.children ∧ s.kid p = .zombie := by
  simp [zombies]

theorem mem_loose {s : Jobs} {p : Nat} :
    p ∈ s.loose ↔ p ∈ s.children ∧ s.kid p = .zombie ∧ s.pc ≠ .foreground p := by
  simp [loose,mem_zombies,and_assoc]

theorem Inv.fewer {s t : Jobs} (h : Inv s) (hz : ∀ p ∈ t.loose, p ∈ s.loose)
    (hs : s.sigchld = true → t.sigchld = true) :
    (∀ p ∈ t.loose, ∀ q ∈ t.loose, p = q) ∧ (t.loose ≠ [] → t.sigchld = true) := by
  refine ⟨fun p hp q hq => h.alone p (hz p hp) q (hz q hq),?_⟩
  intro hne
  obtain ⟨p,hp⟩ := List.exists_mem_of_ne_nil _ hne
  exact hs (h.raised (List.ne_nil_of_mem (hz p hp)))

theorem Inv.of_kids {s t : Jobs} (h : Inv s) (hpc : t.pc = s.pc) (hch : t.children = s.children)
    (hids : t.pendingIDs = s.pendingIDs)
    (hz : (∀ p ∈ t.loose, ∀ q ∈ t.loose, p = q) ∧ (t.loose ≠ [] → t.sigchld = true)) :
    Inv t where
  nodup := by rw [hch]; exact h.nodup
  nonzero := by rw [hch]; exact h.nonzero
  engaged := by rw [hpc,hch]; exact h.engaged
  slot := by rw [hpc,hids]; exact h.slot
  alone := hz.1
  raised := hz.2
  once := by rw [hids]; exact h.once
  listed := by rw [hpc,hch,hids]; exact h.listed
  count := by rw [hids]; exact h.count

theorem Inv.ne_zero {s : Jobs} {pid : Nat} (h : Inv s) (hmem : pid ∈ s.children) : pid ≠ 0 := by
  rintro rfl
  exact h.nonzero hmem

theorem Inv.fork {s t : Jobs} {pid : Nat} {pc : Pc} (h : Inv s) (he : pc.engaged = some pid)
    (hu : pc.unlisted = some pid) (hslot : pc.slot = none) (hst : s.fork pid pc = .ok t) : Inv t := by
  rw [Jobs.fork] at hst
  split at hst
  case isFalse => cases hst
  case isTrue hok =>
    obtain ⟨hpc,hpid,hnew⟩ := hok
    cases hst
    have hz : ∀ p, p ∈ loose { s.setKid pid .running with children := pid :: s.children, pc := pc } →
        p ∈ s.loose := by
      intro p hp
      obtain ⟨hmem,hkid,_⟩ := mem_loose.mp hp
      simp only [setKid] at hkid
      split at hkid
      · cases hkid
      · next hne =>
        exact mem_loose.mpr ⟨List.mem_of_ne_of_mem hne hmem,hkid,by rw [hpc]; simp⟩
    obtain ⟨halone,hraised⟩ := h.fewer hz id
    refine ⟨?_,?_,?_,?_,halone,hraised,h.once,?_,h.count⟩
    · exact List.nodup_cons.mpr ⟨hnew,h.nodup⟩
    · intro h0
      rcases List.mem_cons.mp h0 with h0 | h0
      · exact hpid h0.symm
      · exact h.nonzero h0
    · intro p hp
      rw [he] at hp
      cases hp
      exact List.mem_cons_self
    · intro i p hp
      rw [hslot] at hp
      cases hp
    · intro p
      change p ∈ entries s.pendingIDs ↔ p ∈ pid :: s.children ∧ pc.unlisted ≠ some p
      rw [h.listed p,hpc,hu]
      constructor
      · rintro ⟨hmem,_⟩
        refine ⟨List.mem_cons_of_mem pid hmem,?_⟩
        intro heq
        cases heq
        exact hnew hmem
      · rintro ⟨hmem,hne⟩
        refine ⟨List.mem_of_ne_of_mem ?_ hmem,by simp [Pc.unlisted]⟩
        rintro rfl
        exact hne rfl

theorem Inv.addJob {s t : Jobs} {pid : Nat} {ids : List Nat} (h : Inv s) (hmem : pid ∈ s.children)
    (hout : Without pid s.pendingIDs ids)
    (hothers : ∀ p, p ≠ pid → s.pc.unlisted ≠ some p) (hpc : ∀ p, s.pc ≠ .foreground p)
    (hst : Jobs.addJob { s with pendingIDs := ids } pid = .ok t) : Inv t := by
  have hpid := h.ne_zero hmem
  rw [Jobs.addJob] at hst
  split at hst
  case isFalse => cases hst
  case isTrue hroom =>
    cases hst
    have hz : ∀ p ∈ loose { s with pendingIDs := ids ++ [pid], pc := .prompt }, p ∈ s.loose := by
      intro p hp
      obtain ⟨hp1,hp2,_⟩ := mem_loose.mp hp
      exact mem_loose.mpr ⟨hp1,hp2,hpc p⟩
    obtain ⟨halone,hraised⟩ := h.fewer hz id
    refine ⟨h.nodup,h.nonzero,?_,?_,halone,hraised,?_,?_,?_⟩
    · intro p hp
      cases hp
    · intro i p hp
      cases hp
    · rw [entries_concat hpid]
      refine List.nodup_append.mpr ⟨hout.once,List.nodup_singleton pid,?_⟩
      intro p hp q hq
      rw [List.mem_singleton.mp hq]
      exact ((hout.mem p).mp hp).2
    · intro p
      rw [entries_concat hpid,List.mem_append,List.mem_singleton,hout.mem p,h.listed p]
      constructor
      · rintro (⟨⟨hp,_⟩,_⟩ | rfl)
        · exact ⟨hp,by simp [Pc.unlisted]⟩
        · exact ⟨hmem,by simp [Pc.unlisted]⟩
      · rintro ⟨hp,_⟩
        rcases eq_or_ne p pid with rfl | hne
        · exact .inr rfl
        · exact .inl ⟨⟨hp,hothers p hne⟩,hne⟩
    · have hroom' : ids.length < maxJobs := hroom
      rw [List.length_append,List.length_singleton]
      omega

theorem Inv.without_unlisted {s : Jobs} {pid : Nat} (h : Inv s) (hu : s.pc.unlisted = some pid) :
    Without pid s.pendingIDs s.pendingIDs := by
  refine ⟨h.once,?_⟩
  intro p
  rw [h.listed p,hu]
  constructor
  · rintro ⟨hp,hne⟩
    exact ⟨⟨hp,hne⟩,fun heq => hne (congrArg some heq.symm)⟩
  · exact fun hp => hp.1

theorem Inv.addUnlisted {s t : Jobs} {pid : Nat} (h : Inv s) (he : s.pc.engaged = some pid)
    (hu : s.pc.unlisted = some pid) (hpc : ∀ p, s.pc ≠ .foreground p)
    (hst : s.addJob pid = .ok t) : Inv t := by
  refine h.addJob (h.engaged pid he) (h.without_unlisted hu) ?_ hpc hst
  intro p hne
  rw [hu]
  exact fun heq => hne (Option.some.inj heq).symm

theorem Inv.record {s t : Jobs} (h : Inv s) (hst : step s .record = .ok t) : Inv t := by
  rw [step] at hst
  split at hst
  · next pid hpc =>
    exact h.addUnlisted (by rw [hpc]; rfl) (by rw [hpc]; rfl) (by rw [hpc]; simp) hst
  · next pid hpc =>
    exact h.addUnlisted (by rw [hpc]; rfl) (by rw [hpc]; rfl) (by rw [hpc]; simp) hst
  · next slot pid hpc =>
    have hmem := h.engaged pid (by rw [hpc]; rfl)
    have hslot := h.slot slot pid (by rw [hpc]; rfl)
    refine h.addJob hmem (without_set (h.ne_zero hmem) hslot h.once) ?_ ?_ hst
    · intro p _
      rw [hpc]
      simp [Pc.unlisted]
    · intro p
      rw [hpc]
      simp
  · cases hst

theorem loose_setKid {s : Jobs} {pid : Nat} {k : Kid} (hk : k ≠ .zombie) {sig : Bool} :
    ∀ p ∈ loose { s.setKid pid k with sigchld := sig }, p ∈ s.loose := by
  intro p hp
  obtain ⟨hmem,hkid,hpc⟩ := mem_loose.mp hp
  simp only [setKid] at hkid
  split at hkid
  · exact absurd hkid hk
  · exact mem_loose.mpr ⟨hmem,hkid,hpc⟩

theorem Inv.continueKid {s : Jobs} (h : Inv s) (pid : Nat) : Inv (s.continueKid pid) := by
  rw [Jobs.continueKid]
  split
  · exact h.of_kids rfl rfl rfl (h.fewer (loose_setKid (by simp)) (fun _ => rfl))
  · exact h

theorem continueKid_frame (s : Jobs) (pid : Nat) :
    (s.continueKid pid).children = s.children ∧ (s.continueKid pid).pendingIDs = s.pendingIDs ∧
      (s.continueKid pid).pc = s.pc := by
  rw [Jobs.continueKid]
  split
  · exact ⟨rfl,rfl,rfl⟩
  · exact ⟨rfl,rfl,rfl⟩

theorem jobAt_some {s : Jobs} {jobn : Int} {slot pid : Nat} (h : s.jobAt jobn = some (slot,pid)) :
    s.pendingIDs[slot]? = some pid ∧ pid ≠ 0 := by
  rw [jobAt] at h
  split at h
  · cases h
  · split at h
    · cases h
    · next hne hget =>
      cases h
      refine ⟨hget,?_⟩
      rintro rfl
      exact hne rfl
    · cases h

theorem Inv.fg {s t : Jobs} {jobn : Int} (h : Inv s) (hst : step s (.fg jobn) = .ok t) : Inv t := by
  rw [step] at hst
  split at hst
  case isFalse => cases hst
  case isTrue hpc =>
    split at hst
    · cases hst
      exact h
    · next slot pid hjob =>
      cases hst
      obtain ⟨hget,hpid⟩ := jobAt_some hjob
      have hc := h.continueKid pid
      obtain ⟨hch,hids,hpc'⟩ := continueKid_frame s pid
      have hun : (s.continueKid pid).pc.unlisted = none := by rw [hpc',hpc]; rfl
      have hz : ∀ p ∈ loose { s.continueKid pid with pc := .resumed slot pid },
          p ∈ (s.continueKid pid).loose := by
        intro p hp
        obtain ⟨hp1,hp2,_⟩ := mem_loose.mp hp
        exact mem_loose.mpr ⟨hp1,hp2,by rw [hpc',hpc]; simp⟩
      obtain ⟨halone,hraised⟩ := hc.fewer hz id
      refine ⟨hc.nodup,hc.nonzero,?_,?_,halone,hraised,hc.once,?_,hc.count⟩
      · intro p hp
        cases hp
        rw [hch]
        have hlisted := (h.listed pid).mp (mem_entries.mpr ⟨List.mem_of_getElem? hget,hpid⟩)
        exact hlisted.1
      · intro i p hp
        cases hp
        rw [hids]
        exact hget
      · intro p
        rw [hc.listed p,hun]
        rfl

theorem Inv.bg {s t : Jobs} {jobn : Int} {stops : Bool} (h : Inv s)
    (hst : step s (.bg jobn stops) = .ok t) : Inv t := by
  rw [step] at hst
  split at hst
  case isFalse => cases hst
  case isTrue hpc =>
    split at hst
    · cases hst
      exact h
    · next slot pid hjob =>
      split at hst
      · cases hst
        exact h.of_kids rfl rfl rfl (h.fewer (fun _ hp => hp) (fun _ => rfl))
      · cases hst
        exact h.continueKid pid

theorem Inv.stop {s t : Jobs} {pid : Nat} (h : Inv s) (hst : step s (.stop pid) = .ok t) : Inv t := by
  rw [step] at hst
  split at hst
  · cases hst
    exact h.of_kids rfl rfl rfl (h.fewer (loose_setKid (by simp)) (fun _ => rfl))
  · cases hst

theorem Inv.terminate {s t : Jobs} {pid : Nat} (h : Inv s)
    (hok : s.pc = .foreground pid ∨ s.loose = []) (hst : step s (.terminate pid) = .ok t) :
    Inv t := by
  rw [step] at hst
  split at hst
  · cases hst
    have hsplit : ∀ p ∈ loose { s.setKid pid .zombie with sigchld := true },
        p ∈ s.loose ∨ p = pid ∧ s.pc ≠ .foreground pid := by
      intro p hp
      obtain ⟨hmem,hkid,hpc⟩ := mem_loose.mp hp
      simp only [setKid] at hkid
      split at hkid
      · next heq =>
        subst heq
        exact .inr ⟨rfl,hpc⟩
      · exact .inl (mem_loose.mpr ⟨hmem,hkid,hpc⟩)
    refine h.of_kids rfl rfl rfl ⟨?_,fun _ => rfl⟩
    intro p hp q hq
    rcases hok with hpc | hnone
    · rcases hsplit p hp with hp | ⟨_,hp⟩
      · rcases hsplit q hq with hq | ⟨_,hq⟩
        · exact h.alone p hp q hq
        · exact absurd hpc hq
      · exact absurd hpc hp
    · rw [hnone] at hsplit
      rcases hsplit p hp with hp | ⟨rfl,_⟩
      · cases hp
      · rcases hsplit q hq with hq | ⟨rfl,_⟩
        · cases hq
        · rfl
  · cases hst

theorem Inv.loose_erase {s : Jobs} {pid : Nat} {ids : List Nat} {pc : Pc} {sig : Bool} (h : Inv s)
    (hpc : ∀ p, p ≠ pid → pc ≠ .foreground p → s.pc ≠ .foreground p) :
    ∀ p ∈ loose { s with
        children := s.children.erase pid, pendingIDs := ids, pc := pc, sigchld := sig },
      p ∈ s.loose ∧ p ≠ pid := by
  intro p hp
  obtain ⟨hmem,hkid,hfg⟩ := mem_loose.mp hp
  have hmem' := h.nodup.mem_erase_iff.mp hmem
  exact ⟨mem_loose.mpr ⟨hmem'.2,hkid,hpc p hmem'.1 hfg⟩,hmem'.1⟩

theorem Inv.leave {s : Jobs} {pid : Nat} {ids : List Nat} {pc : Pc} {sig : Bool} (h : Inv s)
    (hout : Without pid s.pendingIDs ids) (hlen : ids.length = s.pendingIDs.length)
    (hz : loose { s with
      children := s.children.erase pid, pendingIDs := ids, pc := pc, sigchld := sig } ≠ [] →
        sig = true)
    (hpc : ∀ p, p ≠ pid → pc ≠ .foreground p → s.pc ≠ .foreground p)
    (heng : ∀ p, pc.engaged = some p → p ≠ pid ∧ s.pc.engaged = some p)
    (hslot : ∀ i p, pc.slot = some (i,p) → ids[i]? = some p)
    (hun : ∀ p, p ≠ pid → (pc.unlisted ≠ some p ↔ s.pc.unlisted ≠ some p)) :
    Inv { s with children := s.children.erase pid, pendingIDs := ids, pc := pc, sigchld := sig } where
  nodup := h.nodup.erase pid
  nonzero := fun h0 => h.nonzero (List.mem_of_mem_erase h0)
  engaged := by
    intro p hp
    obtain ⟨hne,hp'⟩ := heng p hp
    exact h.nodup.mem_erase_iff.mpr ⟨hne,h.engaged p hp'⟩
  slot := hslot
  alone := by
    intro p hp q hq
    exact h.alone p (h.loose_erase hpc p hp).1 q (h.loose_erase hpc q hq).1
  raised := hz
  once := hout.once
  listed := by
    intro p
    change p ∈ entries ids ↔ p ∈ s.children.erase pid ∧ pc.unlisted ≠ some p
    rw [hout.mem p,h.listed p,h.nodup.mem_erase_iff]
    constructor
    · rintro ⟨⟨hmem,hno⟩,hne⟩
      exact ⟨⟨hne,hmem⟩,(hun p hne).mpr hno⟩
    · rintro ⟨⟨hne,hmem⟩,hno⟩
      exact ⟨⟨hmem,(hun p hne).mp hno⟩,hne⟩
  count := by
    change ids.length ≤ maxJobs
    rw [hlen]
    exact h.count

theorem Inv.suspend {s : Jobs} {pc : Pc} (h : Inv s) (he : pc.engaged = s.pc.engaged)
    (hu : pc.unlisted = s.pc.unlisted) (hs : pc.slot = s.pc.slot)
    (hz : ∀ p ∈ loose { s with pc := pc }, p ∈ s.loose) : Inv { s with pc := pc } where
  nodup := h.nodup
  nonzero := h.nonzero
  engaged := by
    intro p hp
    exact h.engaged p (he.symm.trans hp)
  slot := by
    intro i p hp
    exact h.slot i p (hs.symm.trans hp)
  alone := (h.fewer hz id).1
  raised := (h.fewer hz id).2
  once := h.once
  listed := by
    intro p
    change p ∈ entries s.pendingIDs ↔ p ∈ s.children ∧ pc.unlisted ≠ some p
    rw [h.listed p,hu]
  count := h.count

theorem Inv.waited {s t : Jobs} (h : Inv s) (hst : step s .waited = .ok t) : Inv t := by
  rw [step] at hst
  split at hst
  · next pid hpc =>
    have hu : s.pc.unlisted = some pid := by rw [hpc]; rfl
    have hother : ∀ p, p ≠ pid → s.pc ≠ .foreground p := by
      intro p hne
      rw [hpc]
      simp [hne.symm]
    split at hst
    · cases hst
    · split at hst
      · cases hst
      · next hkid =>
        cases hst
        refine h.suspend (by rw [hpc]; rfl) (by rw [hpc]; rfl) (by rw [hpc]; rfl) ?_
        intro p hp
        obtain ⟨hmem,hz,_⟩ := mem_loose.mp hp
        refine mem_loose.mpr ⟨hmem,hz,hother p ?_⟩
        rintro rfl
        have hz' : s.kid p = .zombie := hz
        rw [hkid] at hz'
        cases hz'
      · cases hst
        have hleave : ∀ p, p ≠ pid → Pc.prompt ≠ .foreground p → s.pc ≠ .foreground p :=
          fun p hne _ => hother p hne
        refine h.leave (h.without_unlisted hu) rfl
          (h.fewer (fun p hp => (h.loose_erase hleave p hp).1) id).2 hleave
          (fun _ hp => by cases hp) (fun _ _ hp => by cases hp) ?_
        intro p hne
        rw [hu]
        simp [Pc.unlisted,hne.symm]
  · next slot pid hpc =>
    have hslot := h.slot slot pid (by rw [hpc]; rfl)
    have hother : ∀ p, s.pc ≠ .foreground p := by
      intro p
      rw [hpc]
      simp
    split at hst
    · cases hst
    · next hmem =>
      have hpid := h.ne_zero (not_not.mp hmem)
      split at hst
      · cases hst
      · cases hst
        refine h.suspend (by rw [hpc]; rfl) (by rw [hpc]; rfl) (by rw [hpc]; rfl) ?_
        intro p hp
        obtain ⟨hmem',hz,_⟩ := mem_loose.mp hp
        exact mem_loose.mpr ⟨hmem',hz,hother p⟩
      · cases hst
        have hleave : ∀ p, p ≠ pid → Pc.prompt ≠ .foreground p → s.pc ≠ .foreground p :=
          fun p _ _ => hother p
        refine h.leave (without_set hpid hslot h.once) List.length_set
          (h.fewer (fun p hp => (h.loose_erase hleave p hp).1) id).2 hleave
          (fun _ hp => by cases hp) (fun _ _ hp => by cases hp) ?_
        intro p _
        rw [hpc]
        simp [Pc.unlisted]
  · cases hst

theorem Inv.deliver {s t : Jobs} {reaped : Option Nat} (h : Inv s)
    (hok : Orderly s (.deliver reaped)) (hst : step s (.deliver reaped) = .ok t) : Inv t := by
  rw [step] at hst
  split at hst
  case isFalse => cases hst
  case isTrue _ =>
    cases reaped with
    | none =>
      rw [childTermination] at hst
      split at hst
      · next hz =>
        cases hst
        have hnone : s.loose = [] := by
          have hz' : s.zombies = [] := hz
          rw [loose,hz']
          rfl
        exact h.of_kids rfl rfl rfl ⟨h.alone,fun hne => absurd hnone hne⟩
      · cases hst
    | some pid =>
      rw [childTermination] at hst
      split at hst
      · next hz =>
        cases hst
        have hpid : pid ∈ s.zombies := hz
        have hne : s.pc.engaged ≠ some pid := hok
        have hloose : pid ∈ s.loose := by
          obtain ⟨hmem,hkid⟩ := mem_zombies.mp hpid
          refine mem_loose.mpr ⟨hmem,hkid,?_⟩
          intro hpc
          rw [hpc] at hne
          exact hne rfl
        have hleave : ∀ p, p ≠ pid → s.pc ≠ .foreground p → s.pc ≠ .foreground p :=
          fun _ _ hfg => hfg
        refine h.leave (without_clear h.once) ?_ ?_ hleave ?_ ?_ ?_
        · rw [clear,List.length_map]
        · intro hleft
          obtain ⟨p,hp⟩ := List.exists_mem_of_ne_nil _ hleft
          obtain ⟨hp',hpne⟩ := h.loose_erase hleave p hp
          exact absurd (h.alone p hp' pid hloose) hpne
        · intro p hp
          refine ⟨?_,hp⟩
          rintro rfl
          exact hne hp
        · intro i p hp
          have hp' : p ≠ pid := by
            rintro rfl
            apply hne
            revert hp
            cases s.pc <;> simp [Pc.slot,Pc.engaged]
          exact clear_getElem? (h.slot i p hp) hp'
        · intro p _
          exact Iff.rfl
      · cases hst

theorem inv_step {s t : Jobs} {a : Act} (h : Inv s) (hok : Orderly s a)
    (hst : step s a = .ok t) : Inv t := by
  cases a with
  | background pid => exact h.fork rfl rfl rfl hst
  | foreground pid => exact h.fork rfl rfl rfl hst
  | record => exact h.record hst
  | fg jobn => exact h.fg hst
  | bg jobn stops => exact h.bg hst
  | stop pid => exact h.stop hst
  | terminate pid => exact h.terminate hok hst
  | waited => exact h.waited hst
  | waitFails garbage =>
    rw [step] at hst
    split at hst
    · next pid hpc =>
      rw [if_pos (h.engaged pid (by rw [hpc]; rfl))] at hst
      cases hst
    · next slot pid hpc =>
      rw [if_pos (h.engaged pid (by rw [hpc]; rfl))] at hst
      cases hst
    · cases hst
  | deliver reaped => exact h.deliver hok hst

theorem inv_init : Inv jobTable.init := by
  refine ⟨List.nodup_nil,List.not_mem_nil,?_,?_,?_,?_,List.nodup_nil,?_,Nat.zero_le _⟩
  · intro p hp
    cases hp
  · intro i p hp
    cases hp
  · intro p hp
    cases hp
  · intro hne
    exact absurd rfl hne
  · intro p
    constructor
    · intro hp
      cases hp
    · rintro ⟨hp,_⟩
      cases hp

def Job (s : Jobs) (pid : Nat) : Prop :=
  pid ∈ s.children ∧ s.kid pid ≠ .zombie ∧ s.pc.unlisted ≠ some pid

theorem Inv.entries_iff {s : Jobs} (h : Inv s) (hs : s.sigchld = false) (pid : Nat) :
    pid ∈ entries s.pendingIDs ↔ s.Job pid := by
  have hnone : ∀ p, p ∉ s.loose := by
    intro p hp
    rw [h.raised (List.ne_nil_of_mem hp)] at hs
    cases hs
  rw [h.listed pid,Job]
  constructor
  · rintro ⟨hmem,hno⟩
    refine ⟨hmem,?_,hno⟩
    intro hz
    apply hnone pid
    refine mem_loose.mpr ⟨hmem,hz,?_⟩
    intro hpc
    rw [hpc] at hno
    exact hno rfl
  · rintro ⟨hmem,_,hno⟩
    exact ⟨hmem,hno⟩

theorem addJob_inBounds {s : Jobs} (h : s.pendingIDs.length < maxJobs) (pid : Nat) :
    s.addJob pid ≠ .error .outOfBounds := by
  rw [addJob,if_pos h]
  simp

theorem childTermination_inBounds (s : Jobs) (reaped : Option Nat) :
    s.childTermination reaped ≠ .error .outOfBounds := by
  cases reaped with
  | none =>
    rw [childTermination]
    split
    · simp
    · simp
  | some pid =>
    rw [childTermination]
    split
    · simp
    · simp

theorem step_inBounds {s : Jobs} {a : Act} (hok : Orderly s a) :
    step s a ≠ .error .outOfBounds := by
  cases a with
  | record =>
    have hroom : s.pendingIDs.length < maxJobs := hok
    rw [step]
    split
    · exact addJob_inBounds hroom _
    · exact addJob_inBounds hroom _
    · exact addJob_inBounds (by rw [List.length_set]; exact hroom) _
    · simp
  | deliver reaped =>
    rw [step]
    split
    · exact childTermination_inBounds _ reaped
    · simp
  | background pid =>
    rw [step,fork]
    split
    · simp
    · simp
  | foreground pid =>
    rw [step,fork]
    split
    · simp
    · simp
  | _ =>
    simp only [step]
    repeat' split
    all_goals simp

theorem job_table_exact {s : Jobs} (hr : jobTable.Reach Orderly s) :
    (s.sigchld = false → (entries s.pendingIDs).Nodup ∧
        ∀ pid, pid ∈ entries s.pendingIDs ↔ s.Job pid) ∧
      s.pendingIDs.length ≤ 100 ∧
      ∀ a, Orderly s a → jobTable.step s a ≠ .error .outOfBounds := by
  have hinv : Inv s := by
    refine hr.invariant Inv inv_init ?_
    intro s a t _ hi hok hst
    exact inv_step hi hok hst
  exact ⟨fun hs => ⟨hinv.once,hinv.entries_iff hs⟩,hinv.count,fun _ hok => step_inBounds hok⟩

def stoppedRun : List Act :=
  [.background 10,.record,.foreground 11,.stop 11,.waited,.record,.deliver none,
    .terminate 10,.deliver (some 10),.fg 2,.deliver none,.stop 11,.waited,.record,.deliver none]

theorem job_table_exact_stopped :
    ∃ s, jobTable.Reach Orderly s ∧ s.pendingIDs = [0,0,11] ∧ s.sigchld = false ∧
      ∀ pid, pid ∈ entries s.pendingIDs ↔ s.Job pid := by
  have hrun : (jobTable.checked Orderly jobTable.init stoppedRun).any
      (fun s => s.pendingIDs == [0,0,11] && s.sigchld == false) = true := by
    decide +kernel
  obtain ⟨hreach,hp⟩ := System.reach_checked hrun
  rw [Bool.and_eq_true,beq_iff_eq,beq_iff_eq] at hp
  exact ⟨_,hreach,hp.1,hp.2,((job_table_exact hreach).1 hp.2).2⟩

def mergedRun : List Act :=
  [.background 10,.record,.background 11,.record,.terminate 10,.terminate 11,.deliver (some 10)]

theorem merged_sigchld_leaves_entry :
    jobTable.Reachable (jobTable.after mergedRun) ∧ (jobTable.after mergedRun).pc = .prompt ∧
      (jobTable.after mergedRun).sigchld = false ∧
      11 ∈ entries (jobTable.after mergedRun).pendingIDs ∧ ¬ (jobTable.after mergedRun).Job 11 := by
  refine ⟨System.reachable_after (by decide +kernel),by decide +kernel,by decide +kernel,
    by decide +kernel,?_⟩
  have hzombie : (jobTable.after mergedRun).kid 11 = .zombie := by decide +kernel
  exact fun hjob => hjob.2.1 hzombie

end Jobs
end Shell
