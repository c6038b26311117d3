import Mathlib.Tactic
import OscAssignments.Lib.Slots
import OscAssignments.Shell.Recall

namespace Shell.Descriptors
open Runs Slots

inductive File
  | inherited (n : Nat)
  | path (r : Redirect) (name : Bytes)
  | system
  | pipeRead (k : Nat)
  | pipeWrite (k : Nat)
  deriving DecidableEq

abbrev Fds := Table File

inductive ProcRead
  | missing
  | empty
  | data
  deriving DecidableEq

structure Env where
  opens : Redirect → Bytes → Bool
  pipes : Nat → Bool
  forks : Nat → Bool
  scandir : Bytes → Option Nat
  hostname : Bool
  historyFile : Bool
  statm : Bool
  procStatus : Nat → ProcRead
  watched : Nat → Bool
  refreshes : Nat
  pendingIDs : List Nat

def dup (t : Fds) (fd : Nat) : Option Nat × Fds :=
  match get t fd with
  | none => (none,t)
  | some f =>
    match alloc t f with
    | none => (none,t)
    | some (new,t) => (some new,t)

def dup2 (t : Fds) (fd : Option Nat) (newfd : Nat) : Fds :=
  match fd.bind (get t) with
  | none => t
  | some f => t.set newfd (some f)

def openRedirect (env : Env) (t : Fds) (r : Redirect) (name : Bytes) : Option (Nat × Fds) :=
  if env.opens r name then alloc t (.path r name) else none

def withFile (opened : Bool) (t : Fds) : Fds :=
  if opened then
    match alloc t .system with
    | none => t
    | some (fd,t) => release t fd
  else t

def getProcStatus (r : ProcRead) (t : Fds) : Fds :=
  match r with
  | .missing => t
  | .empty =>
    match alloc t .system with
    | none => t
    | some (_,t) => t
  | .data => withFile true t

def watchPrint (opened : Bool) (t : Fds) : Except Status Fds :=
  if opened then
    match alloc t .system with
    | none => .error .crashed
    | some (fd,t) => .ok (release t fd)
  else .error .crashed

def nightsprint (env : Env) (t : Fds) : Except Status Fds :=
  (List.range (env.refreshes + 1)).foldlM (fun t k => watchPrint (env.watched k) t) t

def atoi (s : Bytes) : Int :=
  let s := s.dropWhile isspace
  let digits (s : Bytes) : Nat :=
    (s.takeWhile fun c => 48 ≤ c && c ≤ 57).foldl (fun n c => 10 * n + (c.toNat - 48)) 0
  match s with
  | 45 :: s => -(digits s : Int)
  | 43 :: s => digits s
  | s => digits s

structure Watch where
  takeInterval : Bool
  interval : Int
  table : Fds

def watchArg (env : Env) (w : Watch) (arg : Bytes) : Except Status Watch :=
  if arg = ascii ['-','n'] then .ok { w with takeInterval := true }
  else if w.takeInterval then .ok { w with interval := atoi arg, takeInterval := false }
  else if w.interval = -1 then .ok w
  else do
    let t ← nightsprint env w.table
    .ok { w with table := t }

def invalidJob (env : Env) (arg : Bytes) : Bool :=
  let jobn := atoi arg
  decide (jobn > env.pendingIDs.length) || decide (jobn ≤ 0) ||
    env.pendingIDs[(jobn - 1).toNat]? == some 0

def runBuiltin (env : Env) (t : Fds) (args : List Bytes) : Builtin → Except Status (Bool × Fds)
  | .ls =>
    match env.scandir (lsTarget args) with
    | none => .error .exited
    | some n => if 1000 < n then .error .outOfBounds else .ok (false,t)
  | .quit => .error .exited
  | .pinfo => .ok (false,withFile env.statm (getProcStatus (env.procStatus 0) t))
  | .nightswatch => do
    let w ← args.tail.foldlM (watchArg env) { takeInterval := false, interval := -1, table := t }
    .ok (false,w.table)
  | .jobs =>
    .ok (false,(env.pendingIDs.filter (· ≠ 0)).foldl (fun t pid => getProcStatus (env.procStatus pid) t) t)
  | .kjob => .ok (args.length != 3 || args[1]?.any (invalidJob env),t)
  | .setenv => .ok (decide (args.length < 2) || decide (3 < args.length),t)
  | .unsetenv => .ok (args.length != 2,t)
  | .getenv => .ok (args.length != 2,t)
  | .fg => .ok (args.length != 2 || args[1]?.any (invalidJob env),t)
  | .bg => .ok (args.length != 2 || args[1]?.any (invalidJob env),t)
  | _ => .ok (false,t)

structure Redirected where
  fds : Fds
  fdin : Option Nat
  fdout : Option Nat
  fd1 : Option Nat
  fd2 : Option Nat

def saveStandard (t : Fds) : Redirected :=
  let (fdin,t) := dup t 0
  let (fdout,t) := dup t 1
  { fds := t, fdin, fdout, fd1 := none, fd2 := none }

def redirectInput (env : Env) (name : Bytes) (r : Redirected) : Except Fds Redirected :=
  if name = [] then .ok r
  else
    match openRedirect env r.fds .input name with
    | none => .error r.fds
    | some (fd,t) => .ok { r with fds := dup2 t (some fd) 0, fd1 := some fd }

def redirectOutput (env : Env) (mode : Redirect) (name : Bytes) (r : Redirected) :
    Except Fds Redirected :=
  if name = [] then .ok r
  else
    match openRedirect env r.fds mode name with
    | none => .error r.fds
    | some (fd,t) => .ok { r with fds := dup2 t (some fd) 1, fd2 := some fd }

def setUp (env : Env) (t : Fds) (p : Parsed) : Except Fds Redirected := do
  let r ← redirectInput env p.inp (saveStandard t)
  let r ← redirectOutput env .output p.outp r
  redirectOutput env .append p.append r

def closeIf (t : Fds) (fd : Option Nat) : Fds :=
  match fd with
  | none => t
  | some fd => release t fd

def restore (r : Redirected) (p : Parsed) : Fds :=
  let t := closeIf (closeIf r.fds r.fd1) r.fd2
  let t := if p.inp ≠ [] then dup2 t r.fdin 0 else t
  if p.outp ≠ [] ∨ p.append ≠ [] then dup2 t r.fdout 1 else t

def runPlain (env : Env) (t : Fds) (p : Parsed) : Except Status Fds :=
  match setUp env t p with
  | .error t => .ok t
  | .ok r =>
    match p.cmd with
    | none => .error .crashed
    | some cmd => do
      let (early,t) ← runBuiltin env r.fds p.args (dispatch cmd)
      .ok (if early then t else restore { r with fds := t } p)

def pipe (t : Fds) (k : Nat) : Option ((Nat × Nat) × Fds) :=
  match alloc t (.pipeRead k) with
  | none => none
  | some (r,t) =>
    match alloc t (.pipeWrite k) with
    | none => none
    | some (w,t) => some ((r,w),t)

structure Fork where
  cmd : Option Bytes
  parent : Fds
  child : Fds

def configureStage (noOfCommands cmdIndex : Nat) (pipes : Bool → Nat × Nat) (t : Fds) : Fds :=
  let parity := cmdIndex % 2 == 1
  if cmdIndex = 0 then dup2 t (some (pipes false).2) 1
  else if cmdIndex = noOfCommands - 1 then dup2 t (some (pipes !parity).1) 0
  else dup2 (dup2 t (some (pipes parity).2) 1) (some (pipes !parity).1) 0

def closeEnds (noOfCommands cmdIndex : Nat) (pipes : Bool → Nat × Nat) (t : Fds) : Fds :=
  let parity := cmdIndex % 2 == 1
  if cmdIndex = 0 then release t (pipes false).2
  else if cmdIndex = noOfCommands - 1 then release t (pipes !parity).1
  else release (release t (pipes parity).2) (pipes !parity).1

def stageLoop (env : Env) (noOfCommands : Nat) (allCmds : List Bytes) :
    Nat → Nat → (Bool → Nat × Nat) → Fds → Except Status (List Fork × Fds)
  | 0, _, _, t => .ok ([],t)
  | left + 1, cmdIndex, pipes, t =>
    if 400 ≤ cmdIndex then .error .outOfBounds
    else if env.pipes cmdIndex then
      match pipe t cmdIndex with
      | none => .ok ([],t)
      | some (ends,t) =>
        let pipes := Function.update pipes (cmdIndex % 2 == 1) ends
        if env.forks cmdIndex then do
          let stage : Fork := ⟨allCmds[cmdIndex]?,t,configureStage noOfCommands cmdIndex pipes t⟩
          let (stages,t) ← stageLoop env noOfCommands allCmds left (cmdIndex + 1) pipes
            (closeEnds noOfCommands cmdIndex pipes t)
          .ok (stage :: stages,t)
        else .ok ([],t)
    else .ok ([],t)

def handlePipelining (env : Env) (t : Fds) (commands : Bytes) :
    Except Status (List Fork × Fds) :=
  let noOfCommands := countPipes commands + 1
  let allCmds := strtok [124] commands
  if 400 < allCmds.length then .error .outOfBounds
  else stageLoop env noOfCommands allCmds noOfCommands 0 (fun _ => (0,0)) t

def execCommand (env : Env) : Nat → History → Fds → Bytes → Except Status Fds
  | 0, _, _, _ => .error .stackOverflow
  | n + 1, h, t, command =>
    if isArrow command then
      match Session.lookUp h command with
      | .missing => .ok t
      | .null => .error (if h.storedCount < maxStored then .crashed else .outOfBounds)
      | .entry p =>
        let line := h.text p
        if command.length < line.length then .error .outOfBounds
        else
          let t := withFile env.hostname t
          let t := if h.texts.getLast? = some line then t else withFile env.historyFile t
          execCommand env n (h.enter line) t line
    else if 0 < countPipes command then do
      let (_,t) ← handlePipelining env t command
      .ok t
    else
      match parse command with
      | .error _ => .error .outOfBounds
      | .ok p => runPlain env t p

@[simp] theorem withFile_eq (opened : Bool) (t : Fds) : withFile opened t = t := by
  rw [withFile]
  split
  · split
    · rfl
    · next fd t' h => exact release_alloc (alloc_spec h)
  · rfl

theorem ne_of_held {t t' : Fds} {i : Nat} (hfree : get t i = none) (h : Held i t') : t' ≠ t := by
  rintro rfl
  rw [Held,hfree] at h
  cases h

theorem held_getProcStatus {i : Nat} {t : Fds} (h : Held i t) (r : ProcRead) :
    Held i (getProcStatus r t) := by
  cases r with
  | missing => exact h
  | empty =>
    rw [getProcStatus]
    split
    · exact h
    · next fd t' ha => exact (h.alloc (alloc_spec ha)).1
  | data =>
    rw [getProcStatus,withFile_eq]
    exact h

theorem getProcStatus_full {t : Fds} (h : free t = 0) (r : ProcRead) : getProcStatus r t = t := by
  cases r with
  | missing => rfl
  | empty => simp only [getProcStatus,alloc_eq_none h]
  | data => rw [getProcStatus,withFile_eq]

theorem watchPrint_eq {opened : Bool} {t t' : Fds} (h : watchPrint opened t = .ok t') : t' = t := by
  rw [watchPrint] at h
  split at h
  · split at h
    · cases h
    · next fd t1 ha =>
      rw [release_alloc (alloc_spec ha)] at h
      exact (Except.ok.inj h).symm
  · cases h

theorem nightsprint_eq {env : Env} {t t' : Fds} (h : nightsprint env t = .ok t') : t' = t :=
  foldlM_preserves (· = t) (fun _ _ _ hs ht => (watchPrint_eq ht).trans hs) _ rfl h

theorem watchArg_table {env : Env} {w w' : Watch} {arg : Bytes} (h : watchArg env w arg = .ok w') :
    w'.table = w.table := by
  rw [watchArg] at h
  split at h
  · cases h
    rfl
  · split at h
    · cases h
      rfl
    · split at h
      · cases h
        rfl
      · obtain ⟨t,ht,hw⟩ := bind_eq_ok.mp h
        cases hw
        exact nightsprint_eq ht

theorem runBuiltin_rule (I : Fds → Prop) (hproc : ∀ r t, I t → I (getProcStatus r t)) {env : Env}
    {t t' : Fds} {args : List Bytes} {b : Builtin} {early : Bool} (ht : I t)
    (h : runBuiltin env t args b = .ok (early,t')) : I t' := by
  cases b with
  | ls =>
    rw [runBuiltin] at h
    split at h
    · cases h
    · split at h
      · cases h
      · cases h
        exact ht
  | quit => cases h
  | pinfo =>
    rw [runBuiltin,withFile_eq] at h
    cases h
    exact hproc _ _ ht
  | nightswatch =>
    obtain ⟨w,hw,hr⟩ := bind_eq_ok.mp h
    cases hr
    refine foldlM_preserves (fun w => I w.table) ?_ _ ht hw
    intro w arg w' hi hst
    rw [watchArg_table hst]
    exact hi
  | jobs =>
    cases h
    generalize env.pendingIDs.filter (· ≠ 0) = pids
    induction pids generalizing t with
    | nil => exact ht
    | cons pid pids ih => exact ih (hproc _ _ ht)
  | _ =>
    cases h
    exact ht

theorem held_dup2 {i : Nat} {t : Fds} (h : Held i t) (fd : Option Nat) (newfd : Nat) :
    Held i (dup2 t fd newfd) := by
  rw [dup2]
  split
  · exact h
  · exact h.set_some newfd _

theorem held_dup {i : Nat} {t : Fds} (h : Held i t) (fd : Nat) : Held i (dup t fd).2 := by
  rw [dup]
  split
  · exact h
  · split
    · exact h
    · next ha => exact (h.alloc (alloc_spec ha)).1

structure Leaked (i : Nat) (r : Redirected) : Prop where
  held : Held i r.fds
  fd1 : r.fd1 ≠ some i
  fd2 : r.fd2 ≠ some i

def Leaves (i : Nat) : Except Fds Redirected → Prop
  | .error t => Held i t
  | .ok r => Leaked i r

theorem openRedirect_spec {env : Env} {t t' : Fds} {r : Redirect} {name : Bytes} {fd : Nat}
    (h : openRedirect env t r name = some (fd,t')) : Allocated t (.path r name) fd t' := by
  rw [openRedirect] at h
  split at h
  · exact alloc_spec h
  · cases h

theorem leaves_redirectInput {i : Nat} {r : Redirected} (h : Leaked i r) (env : Env) (name : Bytes) :
    Leaves i (redirectInput env name r) := by
  rw [redirectInput]
  split
  · exact h
  · split
    · exact h.held
    · next fd t ho =>
      obtain ⟨hheld,hne⟩ := h.held.alloc (openRedirect_spec ho)
      exact ⟨held_dup2 hheld _ _,fun he => hne (Option.some.inj he).symm,h.fd2⟩

theorem leaves_redirectOutput {i : Nat} {r : Redirected} (h : Leaked i r) (env : Env)
    (mode : Redirect) (name : Bytes) : Leaves i (redirectOutput env mode name r) := by
  rw [redirectOutput]
  split
  · exact h
  · split
    · exact h.held
    · next fd t ho =>
      obtain ⟨hheld,hne⟩ := h.held.alloc (openRedirect_spec ho)
      exact ⟨held_dup2 hheld _ _,h.fd1,fun he => hne (Option.some.inj he).symm⟩

theorem leaves_bind {i : Nat} {x : Except Fds Redirected} {f : Redirected → Except Fds Redirected}
    (hx : Leaves i x) (hf : ∀ r, Leaked i r → Leaves i (f r)) : Leaves i (x >>= f) := by
  cases x with
  | error t => exact hx
  | ok r => exact hf r hx

theorem leaves_setUp {i : Nat} {t : Fds} (h : Leaked i (saveStandard t)) (env : Env) (p : Parsed) :
    Leaves i (setUp env t p) := by
  rw [setUp]
  refine leaves_bind (leaves_redirectInput h env p.inp) ?_
  intro r hr
  refine leaves_bind (leaves_redirectOutput hr env .output p.outp) ?_
  intro r hr
  exact leaves_redirectOutput hr env .append p.append

theorem held_closeIf {i : Nat} {t : Fds} {fd : Option Nat} (h : Held i t) (hne : fd ≠ some i) :
    Held i (closeIf t fd) := by
  cases fd with
  | none => exact h
  | some fd => exact h.release fun he => hne (congrArg some he.symm)

theorem held_restore {i : Nat} {r : Redirected} (h : Leaked i r) (p : Parsed) :
    Held i (restore r p) := by
  have hclosed := held_closeIf (held_closeIf h.held h.fd1) h.fd2
  simp only [restore]
  split
  · apply held_dup2
    split
    · exact held_dup2 hclosed _ _
    · exact hclosed
  · split
    · exact held_dup2 hclosed _ _
    · exact hclosed

theorem leaked_saveStandard {t : Fds} (h0 : (get t 0).isSome = true) (hfree : free t ≠ 0) :
    ∃ i, get t i = none ∧ Leaked i (saveStandard t) := by
  obtain ⟨f,hf⟩ := Option.isSome_iff_exists.mp h0
  obtain ⟨i,t1,ha⟩ := exists_alloc hfree f
  have hspec := alloc_spec ha
  have hdup : dup t 0 = (some i,t1) := by simp only [dup,hf,ha]
  refine ⟨i,hspec.was_free,?_,?_,?_⟩
  · simp only [saveStandard,hdup]
    exact held_dup (held_alloc hspec) 1
  · simp [saveStandard]
  · simp [saveStandard]

theorem runPlain_leaks {env : Env} {t t' : Fds} {p : Parsed} (h0 : (get t 0).isSome = true)
    (hfree : free t ≠ 0) (h : runPlain env t p = .ok t') : t' ≠ t := by
  obtain ⟨i,hi,hleak⟩ := leaked_saveStandard h0 hfree
  apply ne_of_held hi
  have hset := leaves_setUp hleak env p
  rw [runPlain] at h
  cases hs : setUp env t p with
  | error t1 =>
    rw [hs] at h hset
    cases h
    exact hset
  | ok r =>
    rw [hs] at hset
    simp only [hs] at h
    split at h
    · cases h
    · next cmd hcmd =>
      obtain ⟨⟨early,t2⟩,hb,hr⟩ := bind_eq_ok.mp h
      have hheld := runBuiltin_rule (Held i) (fun r t ht => held_getProcStatus ht r) hset.held hb
      cases hr
      simp only []
      split
      · exact hheld
      · exact held_restore (r := { r with fds := t2 }) ⟨hheld,hset.fd1,hset.fd2⟩ p

theorem openRedirect_full {env : Env} {t : Fds} (h : free t = 0) (r : Redirect) (name : Bytes) :
    openRedirect env t r name = none := by
  rw [openRedirect]
  split
  · exact alloc_eq_none h _
  · rfl

theorem dup_full {t : Fds} (h : free t = 0) (fd : Nat) : dup t fd = (none,t) := by
  rw [dup]
  split
  · rfl
  · rw [alloc_eq_none h]

theorem saveStandard_full {t : Fds} (h : free t = 0) :
    saveStandard t = ⟨t,none,none,none,none⟩ := by
  simp only [saveStandard,dup_full h]

theorem setUp_full {t : Fds} (h : free t = 0) (env : Env) (p : Parsed) :
    setUp env t p = .error t ∨
      setUp env t p = .ok ⟨t,none,none,none,none⟩ ∧ p.inp = [] ∧ p.outp = [] ∧ p.append = [] := by
  rw [setUp,saveStandard_full h,redirectInput]
  rcases eq_or_ne p.inp [] with hi | hi
  · rw [if_pos hi,ok_bind,redirectOutput]
    rcases eq_or_ne p.outp [] with ho | ho
    · rw [if_pos ho,ok_bind,redirectOutput]
      rcases eq_or_ne p.append [] with ha | ha
      · rw [if_pos ha]
        exact .inr ⟨rfl,hi,ho,ha⟩
      · rw [if_neg ha,openRedirect_full h]
        exact .inl rfl
    · rw [if_neg ho,openRedirect_full h]
      exact .inl rfl
  · rw [if_neg hi,openRedirect_full h]
    exact .inl rfl

theorem runPlain_full {env : Env} {t t' : Fds} {p : Parsed} (hfree : free t = 0)
    (h : runPlain env t p = .ok t') : t' = t := by
  rw [runPlain] at h
  rcases setUp_full hfree env p with hs | ⟨hs,hi,ho,ha⟩
  · simp only [hs] at h
    exact (Except.ok.inj h).symm
  · simp only [hs] at h
    split at h
    · cases h
    · obtain ⟨⟨early,t2⟩,hb,hr⟩ := bind_eq_ok.mp h
      have hkeep : t2 = t := runBuiltin_rule (· = t)
        (fun r u hu => by rw [hu]; exact getProcStatus_full hfree r) rfl hb
      cases hr
      subst hkeep
      simp only [restore,closeIf,hi,ho,ha]
      simp

def Piped (t : Fds) (k r w : Nat) (t₂ : Fds) : Prop :=
  ∃ t₁, Allocated t (.pipeRead k) r t₁ ∧ Allocated t₁ (.pipeWrite k) w t₂

theorem pipe_spec {t t' : Fds} {k r w : Nat} (h : pipe t k = some ((r,w),t')) :
    Piped t k r w t' := by
  rw [pipe] at h
  split at h
  · cases h
  · next r1 t1 h1 =>
    split at h
    · cases h
    · next w1 t2 h2 =>
      cases h
      exact ⟨t1,alloc_spec h1,alloc_spec h2⟩

theorem pipe_none_iff {t : Fds} {k : Nat} : pipe t k = none ↔ free t < 2 := by
  rw [pipe]
  rcases Nat.eq_zero_or_pos (free t) with h0 | hpos
  · rw [alloc_eq_none h0]
    simp only [true_iff]
    omega
  · obtain ⟨r,t1,h1⟩ := exists_alloc hpos.ne' (File.pipeRead k)
    have hcount := (alloc_spec h1).count
    simp only [h1]
    rcases Nat.eq_zero_or_pos (free t1) with h0 | hpos1
    · rw [alloc_eq_none h0]
      simp only [true_iff]
      omega
    · obtain ⟨w,t2,h2⟩ := exists_alloc hpos1.ne' (File.pipeWrite k)
      simp only [h2,reduceCtorEq,false_iff]
      omega

theorem exists_pipe {t : Fds} (k : Nat) (h : 2 ≤ free t) :
    ∃ r w t', pipe t k = some ((r,w),t') ∧ Piped t k r w t' := by
  cases hpipe : pipe t k with
  | none => exact absurd (pipe_none_iff.mp hpipe) (not_lt.mpr h)
  | some v =>
    obtain ⟨⟨r,w⟩,t'⟩ := v
    exact ⟨r,w,t',rfl,pipe_spec hpipe⟩

theorem get_alloc {t t' : Fds} {a : File} {i : Nat} (h : Allocated t a i t') :
    get t' i = some a := by
  rw [h.eq,get_set_self h.lt]

theorem get_alloc_held {t t' : Fds} {a : File} {i j : Nat} (h : Allocated t a i t')
    (hj : Held j t) : get t' j = get t j := by
  rw [h.eq,get_set_ne (hj.alloc h).2]

theorem Piped.held {t t₂ : Fds} {k r w i : Nat} (h : Piped t k r w t₂) (hi : Held i t) :
    Held i t₂ ∧ get t₂ i = get t i ∧ i ≠ r ∧ i ≠ w := by
  obtain ⟨t₁,hr,hw⟩ := h
  have h1 := hi.alloc hr
  have h2 := h1.1.alloc hw
  exact ⟨h2.1,(get_alloc_held hw h1.1).trans (get_alloc_held hr hi),h1.2,h2.2⟩

theorem Piped.get_write {t t₂ : Fds} {k r w : Nat} (h : Piped t k r w t₂) :
    get t₂ w = some (.pipeWrite k) := by
  obtain ⟨t₁,-,hw⟩ := h
  exact get_alloc hw

structure Carried (t₀ : Fds) (cmdIndex : Nat) (pipes : Bool → Nat × Nat) (t : Fds) : Prop where
  was_free : get t₀ (pipes !(cmdIndex % 2 == 1)).1 = none
  lt : (pipes !(cmdIndex % 2 == 1)).1 < t₀.length
  eq : ∃ f, t = t₀.set (pipes !(cmdIndex % 2 == 1)).1 (some f)

theorem Carried.held {t₀ t : Fds} {k : Nat} {pipes : Bool → Nat × Nat}
    (h : Carried t₀ k pipes t) : Held (pipes !(k % 2 == 1)).1 t := by
  obtain ⟨f,rfl⟩ := h.eq
  rw [Held,get_set_self h.lt]
  rfl

theorem parity_succ (k : Nat) : (!((k + 1) % 2 == 1)) = (k % 2 == 1) := by
  rcases Nat.mod_two_eq_zero_or_one k with h | h
  · have h' : (k + 1) % 2 = 1 := by omega
    rw [h,h']
    rfl
  · have h' : (k + 1) % 2 = 0 := by omega
    rw [h,h']
    rfl

theorem Carried.next {t₀ t t1 t2 : Fds} {k r w : Nat} {pipes : Bool → Nat × Nat}
    (h : Carried t₀ k pipes t) (h1 : Allocated t (.pipeRead k) r t1)
    (h2 : Allocated t1 (.pipeWrite k) w t2) :
    get t₀ r = none ∧
      Carried t₀ (k + 1) (Function.update pipes (k % 2 == 1) (r,w))
        (release (release t2 w) (pipes !(k % 2 == 1)).1) := by
  obtain ⟨f,hf⟩ := h.eq
  have hne := (h.held.alloc h1).2
  have hr : get t₀ r = none := by
    have hr1 := h1.was_free
    rw [hf,get_set_ne hne.symm] at hr1
    exact hr1
  have hlt : r < t₀.length := by
    have hlt1 := h1.lt
    rw [hf,List.length_set] at hlt1
    exact hlt1
  refine ⟨hr,?_,?_,File.pipeRead k,?_⟩
  · rw [parity_succ,Function.update_self]
    exact hr
  · rw [parity_succ,Function.update_self]
    exact hlt
  · rw [release_alloc h2,parity_succ,Function.update_self,h1.eq,hf,List.set_comm _ _ hne,release,
      List.set_set]
    rw [← release]
    apply release_free
    rw [get_set_ne hne]
    exact h.was_free

section Stages
variable {env : Env} {n left k : Nat} {allCmds : List Bytes} {pipes : Bool → Nat × Nat}
  {stages : List Fork} {t₀ t t' : Fds}

theorem stageLoop_cases
    (h : stageLoop env n allCmds (left + 1) k pipes t = .ok (stages,t')) :
    ((env.pipes k = false ∨ pipe t k = none) ∧ t' = t) ∨
      ∃ r w t₂, env.pipes k = true ∧ pipe t k = some ((r,w),t₂) ∧
        (t' = t₂ ∨ ∃ rest, stageLoop env n allCmds left (k + 1)
          (Function.update pipes (k % 2 == 1) (r,w))
          (closeEnds n k (Function.update pipes (k % 2 == 1) (r,w)) t₂) = .ok (rest,t')) := by
  rw [stageLoop] at h
  split at h
  · cases h
  · split at h
    · next hpipes =>
      split at h
      · next hnone =>
        cases h
        exact .inl ⟨.inr hnone,rfl⟩
      · next ends t₂ hsome =>
        refine .inr ⟨ends.1,ends.2,t₂,hpipes,hsome,?_⟩
        split at h
        · obtain ⟨⟨rest,t₃⟩,hrest,hr⟩ := bind_eq_ok.mp h
          cases hr
          exact .inr ⟨rest,hrest⟩
        · cases h
          exact .inl rfl
    · next hpipes =>
      cases h
      exact .inl ⟨.inl (Bool.eq_false_of_not_eq_true hpipes),rfl⟩

theorem stageLoop_leaks (hk : k ≠ 0) (hn : k + left = n) (hc : Carried t₀ k pipes t)
    (h : stageLoop env n allCmds left k pipes t = .ok (stages,t')) : t' ≠ t₀ := by
  induction left generalizing k pipes t stages with
  | zero =>
    cases h
    exact ne_of_held hc.was_free hc.held
  | succ left ih =>
    rcases stageLoop_cases h with ⟨-,rfl⟩ | ⟨r,w,t₂,-,hpipe,hrest⟩
    · exact ne_of_held hc.was_free hc.held
    · obtain ⟨t₁,h1,h2⟩ := pipe_spec hpipe
      obtain ⟨hheld1,hne1⟩ := hc.held.alloc h1
      rcases hrest with rfl | ⟨rest,hrest⟩
      · exact ne_of_held hc.was_free (hheld1.alloc h2).1
      · have hother : Function.update pipes (k % 2 == 1) (r,w) (!(k % 2 == 1)) =
            pipes (!(k % 2 == 1)) :=
          Function.update_of_ne (by simp) _ _
        obtain ⟨hr,hnext⟩ := hc.next h1 h2
        rw [closeEnds,if_neg hk,hother,Function.update_self] at hrest
        rcases eq_or_ne k (n - 1) with hlast | hmid
        · obtain rfl : left = 0 := by omega
          rw [if_pos hlast] at hrest
          cases hrest
          exact ne_of_held hr (((held_alloc h1).alloc h2).1.release hne1.symm)
        · rw [if_neg hmid] at hrest
          exact ih (Nat.succ_ne_zero k) (by omega) hnext hrest

theorem handlePipelining_keeps_iff {commands : Bytes}
    (h : handlePipelining env t commands = .ok (stages,t')) :
    t' = t ↔ env.pipes 0 = false ∨ free t < 2 := by
  simp only [handlePipelining] at h
  split at h
  · cases h
  · rcases stageLoop_cases h with ⟨hfails,rfl⟩ | ⟨r,w,t₂,hpipes,hpipe,hrest⟩
    · exact iff_of_true rfl (hfails.imp_right pipe_none_iff.mp)
    · have hlarge : ¬ free t < 2 := by
        rw [← pipe_none_iff (k := 0),hpipe]
        simp
      obtain ⟨t₁,h1,h2⟩ := pipe_spec hpipe
      refine iff_of_false ?_ (by simp [hpipes,hlarge])
      rcases hrest with rfl | ⟨rest,hrest⟩
      · exact ne_of_held h1.was_free ((held_alloc h1).alloc h2).1
      · have hback : release t₂ w = t₁ := release_alloc h2
        exact stageLoop_leaks Nat.one_ne_zero (by omega)
          ⟨h1.was_free,h1.lt,File.pipeRead 0,hback.trans h1.eq⟩ hrest

end Stages

def followed : Nat → History → Bytes → Option Bytes
  | 0, _, _ => none
  | n + 1, h, command =>
    if isArrow command then
      match Session.lookUp h command with
      | .entry p => followed n (h.enter (h.text p)) (h.text p)
      | _ => none
    else some command

def Spares (env : Env) (n : Nat) (h : History) (t : Fds) (command : Bytes) : Prop :=
  match followed n h command with
  | none => True
  | some c =>
    if 0 < countPipes c then env.pipes 0 = false ∨ free t < 2 else free t = 0

structure Standard (t : Fds) : Prop where
  stdin : (get t 0).isSome = true
  stdout : (get t 1).isSome = true

theorem descriptors_kept_iff {env : Env} {t : Fds} (hstd : Standard t) (depth : Nat)
    {h : History} {t' : Fds} {command : Bytes}
    (hret : execCommand env depth h t command = .ok t') :
    t' = t ↔ Spares env depth h t command := by
  induction depth generalizing h command with
  | zero => cases hret
  | succ n ih =>
    rw [execCommand] at hret
    rw [Spares,followed]
    split at hret
    · next ha =>
      rw [if_pos ha]
      split at hret
      · next hl =>
        simp only [hl,iff_true]
        exact (Except.ok.inj hret).symm
      · cases hret
      · next p hl =>
        simp only [withFile_eq,ite_self] at hret
        simp only [hl]
        split at hret
        · cases hret
        · exact ih hret
    · next ha =>
      rw [if_neg ha]
      simp only []
      split at hret
      · next hc =>
        rw [if_pos hc]
        obtain ⟨⟨stages,t₁⟩,hrun,ht⟩ := bind_eq_ok.mp hret
        cases ht
        exact handlePipelining_keeps_iff hrun
      · next hc =>
        rw [if_neg hc]
        split at hret
        · cases hret
        · constructor
          · intro hsame
            by_contra hfree
            exact runPlain_leaks hstd.stdin hfree hret hsame
          · intro hfree
            exact runPlain_full hfree hret

def plainEnv : Env where
  opens _ _ := true
  pipes _ := true
  forks _ := true
  scandir _ := some 3
  hostname := true
  historyFile := true
  statm := true
  procStatus _ := .data
  watched _ := true
  refreshes := 0
  pendingIDs := []

def standardFds : Fds :=
  [some (.inherited 0),some (.inherited 1),some (.inherited 2),none,none,none,none,none]

def pwdFds : Fds :=
  [some (.inherited 0),some (.inherited 1),some (.inherited 2),some (.inherited 0),
    some (.inherited 1),none,none,none]

theorem descriptors_kept_iff_pwd :
    Standard standardFds ∧
      execCommand plainEnv 4 Session.fresh standardFds (ascii ['p','w','d']) = .ok pwdFds ∧
      (pwdFds = standardFds ↔ Spares plainEnv 4 Session.fresh standardFds (ascii ['p','w','d'])) := by
  have hstd : Standard standardFds := ⟨by decide,by decide⟩
  have hret : execCommand plainEnv 4 Session.fresh standardFds (ascii ['p','w','d']) =
      .ok pwdFds := by
    decide +kernel
  exact ⟨hstd,hret,descriptors_kept_iff hstd 4 hret⟩

theorem pwd_leaves_copies :
    ∃ t', execCommand plainEnv 4 Session.fresh standardFds (ascii ['p','w','d']) = .ok t' ∧
      t' ≠ standardFds :=
  ⟨pwdFds,by decide +kernel,by decide⟩

end Shell.Descriptors
