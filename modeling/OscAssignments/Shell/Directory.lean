import Mathlib.Tactic
import OscAssignments.Shell.Parse

namespace Shell.Directory
open Runs Tokens

def slash : UInt8 := 47

def tilde : UInt8 := 126

structure FileSystem where
  isDir : List Bytes → Bool
  enter : List Bytes → Bytes → Option (List Bytes)
  isDir_root : isDir [] = true
  isDir_enter : ∀ d c e, isDir d = true → enter d c = some e → isDir e = true
  named : ∀ d c, isDir (d ++ [c]) = true → isDir d = true ∧ enter d c = some (d ++ [c])
  name : ∀ d, isDir d = true → ∀ c ∈ d, c ≠ [] ∧ slash ∉ c

def FileSystem.resolve (fs : FileSystem) (cwd : List Bytes) (path : Bytes) : Option (List Bytes) :=
  if path = [] then none
  else (strtok [slash] path).foldlM fs.enter (if path.head? = some slash then [] else cwd)

def pathOf (d : List Bytes) : Bytes := d.flatMap (slash :: ·)

def getcwd (cwd : List Bytes) (size : Nat) : Option Bytes :=
  let path := if cwd = [] then [slash] else pathOf cwd
  if path.length < size then some path else none

inductive Halt
  | exited
  | outOfBounds
  deriving DecidableEq

structure Dirs where
  cwd : List Bytes
  currDirectories : List Bytes
  currDirString : Bytes
  expectedHomeDir : Bytes
  deriving DecidableEq

def chdir (fs : FileSystem) (s : Dirs) (path : Bytes) : Bool × Dirs :=
  match fs.resolve s.cwd path with
  | some d => (true,{ s with cwd := d })
  | none => (false,s)

def updatePWD (s : Dirs) : Dirs := { s with currDirString := pathOf s.currDirectories }

def initDirSetup (updateHome : Bool) (s : Dirs) : Except Halt Dirs :=
  let s := if updateHome then { s with expectedHomeDir := (getcwd s.cwd 1000).getD [] } else s
  let temp := (getcwd s.cwd 1000).getD []
  let names := strtok [slash] temp
  if 100 < names.length then .error .outOfBounds
  else .ok (updatePWD { s with currDirectories := names })

def ls (fs : FileSystem) (s : Dirs) (directory : Bytes) (found : Option Nat) : Except Halt Dirs :=
  match found with
  | none => .error .exited
  | some n =>
    if 1000 < n then .error .outOfBounds
    else
      let s := (chdir fs s directory).2
      .ok (chdir fs s s.currDirString).2

def prepare (fs : FileSystem) (s : Dirs) (newDir : Bytes) : Bytes × Dirs :=
  if newDir = [] then (s.expectedHomeDir,(chdir fs s s.expectedHomeDir).2)
  else if newDir.head? = some tilde then
    let rest := newDir.tail
    (if rest.head? = some slash then rest.tail else rest,(chdir fs s s.expectedHomeDir).2)
  else (newDir,s)

def changeDirectory (fs : FileSystem) (s : Dirs) (newDir : Bytes) : Except Halt (Bool × Dirs) :=
  let (newDir,s) := prepare fs s newDir
  if newDir = [] then do
    let s ← initDirSetup false s
    .ok (true,s)
  else
    match chdir fs s newDir with
    | (false,s) => .ok (false,s)
    | (true,s) => do
      let s ← initDirSetup false s
      .ok (true,s)

def cdTarget (args : List Bytes) : Bytes := args[1]?.getD [tilde]

inductive Act
  | cd (args : List Bytes)
  | ls (args : List Bytes) (found : Option Nat)

def step (fs : FileSystem) (s : Dirs) : Act → Except Halt Dirs
  | .cd args => do
    let (_,s) ← changeDirectory fs s (cdTarget args)
    .ok s
  | .ls args found => ls fs s (lsTarget args) found

def shell (fs : FileSystem) (start : Dirs) : System Dirs Act Halt where
  init := start
  step := step fs

theorem tokens_pathOf {d : List Bytes} (h : ∀ c ∈ d, c ≠ [] ∧ slash ∉ c) :
    strtok [slash] (pathOf d) = d := by
  induction d using List.reverseRecOn with
  | nil => rfl
  | append_singleton d c ih =>
    have hc := h c (by simp)
    have hpath : pathOf (d ++ [c]) = pathOf d ++ slash :: c := by simp [pathOf]
    have hword : tokens ([slash].contains ·) c = [c] := by
      apply tokens_word hc.1
      intro b hb
      rw [List.contains_eq_mem,decide_eq_false_iff_not,List.mem_singleton]
      rintro rfl
      exact hc.2 hb
    rw [hpath,strtok,tokens_append_cons _ _ (by decide),hword]
    congr 1
    exact ih fun c' hc' => h c' (by simp [hc'])

theorem pathOf_head {d : List Bytes} (hne : d ≠ []) :
    pathOf d ≠ [] ∧ (pathOf d).head? = some slash := by
  cases d with
  | nil => exact absurd rfl hne
  | cons c d => simp [pathOf]

theorem foldlM_enter {fs : FileSystem} {d : List Bytes} (h : fs.isDir d = true) :
    d.foldlM fs.enter [] = some d := by
  induction d using List.reverseRecOn with
  | nil => rfl
  | append_singleton d c ih =>
    obtain ⟨hd,hc⟩ := fs.named d c h
    rw [List.foldlM_append,ih hd]
    simpa using hc

theorem resolve_pathOf {fs : FileSystem} {d : List Bytes} (h : fs.isDir d = true) (hne : d ≠ [])
    (cwd : List Bytes) : fs.resolve cwd (pathOf d) = some d := by
  obtain ⟨hpath,hhead⟩ := pathOf_head hne
  rw [FileSystem.resolve,if_neg hpath,if_pos hhead,tokens_pathOf (fs.name d h),foldlM_enter h]

theorem resolve_isDir {fs : FileSystem} {cwd d : List Bytes} {path : Bytes}
    (hcwd : fs.isDir cwd = true) (h : fs.resolve cwd path = some d) : fs.isDir d = true := by
  have hwalk : ∀ (names : List Bytes) {b e : List Bytes}, fs.isDir b = true →
      names.foldlM fs.enter b = some e → fs.isDir e = true := by
    intro names
    induction names with
    | nil =>
      intro b e hb he
      cases he
      exact hb
    | cons c names ih =>
      intro b e hb he
      rw [List.foldlM_cons] at he
      obtain ⟨b',hb',he⟩ := Option.bind_eq_some_iff.mp he
      exact ih (fs.isDir_enter b c b' hb hb') he
  rw [FileSystem.resolve] at h
  split at h
  · cases h
  · split at h
    · exact hwalk _ fs.isDir_root h
    · exact hwalk _ hcwd h

structure Nameable (d : List Bytes) : Prop where
  not_root : d ≠ []
  short : (pathOf d).length < 1000
  shallow : d.length ≤ 100

theorem getcwd_nameable {d : List Bytes} (h : Nameable d) : getcwd d 1000 = some (pathOf d) := by
  simp only [getcwd,if_neg h.not_root,if_pos h.short]

structure InStep (fs : FileSystem) (home : List Bytes) (s : Dirs) : Prop where
  cwd : fs.isDir s.cwd = true
  nameable : Nameable s.cwd
  string : s.currDirString = pathOf s.cwd
  home : s.expectedHomeDir = pathOf home

theorem initDirSetup_ok {fs : FileSystem} {s : Dirs} (hd : fs.isDir s.cwd = true)
    (hn : Nameable s.cwd) :
    initDirSetup false s =
      .ok { s with currDirectories := s.cwd, currDirString := pathOf s.cwd } := by
  have hnames : strtok [slash] ((getcwd s.cwd 1000).getD []) = s.cwd := by
    rw [getcwd_nameable hn]
    exact tokens_pathOf (fs.name _ hd)
  simp only [initDirSetup,Bool.false_eq_true,if_false,hnames,
    if_neg (Nat.not_lt.mpr hn.shallow),updatePWD]

def asked (fs : FileSystem) (s : Dirs) (newDir : Bytes) : Option (List Bytes) :=
  let (rest,s) := prepare fs s newDir
  if rest = [] then some s.cwd else fs.resolve s.cwd rest

def Sane (fs : FileSystem) (s : Dirs) : Act → Prop
  | .ls _ found => ∃ n ≤ 1000, found = some n
  | .cd args =>
    match asked fs s (cdTarget args) with
    | some d => Nameable d
    | none => (cdTarget args).head? ≠ some tilde ∨ fs.resolve s.cwd s.expectedHomeDir = some s.cwd

theorem chdir_some {fs : FileSystem} {s : Dirs} {path : Bytes} {d : List Bytes}
    (h : fs.resolve s.cwd path = some d) : chdir fs s path = (true,{ s with cwd := d }) := by
  rw [chdir,h]

theorem chdir_none {fs : FileSystem} {s : Dirs} {path : Bytes}
    (h : fs.resolve s.cwd path = none) : chdir fs s path = (false,s) := by
  rw [chdir,h]

theorem chdir_frame (fs : FileSystem) (s : Dirs) (path : Bytes) :
    ∃ d, (chdir fs s path).2 = { s with cwd := d } := by
  cases h : fs.resolve s.cwd path with
  | some d => exact ⟨d,by rw [chdir_some h]⟩
  | none => exact ⟨s.cwd,by rw [chdir_none h]⟩

theorem chdir_home {fs : FileSystem} {home : List Bytes} {s : Dirs} (h : InStep fs home s)
    (hh : fs.isDir home = true) (hne : home ≠ []) :
    (chdir fs s s.expectedHomeDir).2 = { s with cwd := home } := by
  rw [chdir_some]
  rw [h.home,resolve_pathOf hh hne]

theorem prepare_cases {fs : FileSystem} {home : List Bytes} {s : Dirs} (h : InStep fs home s)
    (hh : fs.isDir home = true) (hne : home ≠ []) (newDir : Bytes) :
    (prepare fs s newDir).2 = s ∨
      (prepare fs s newDir).2 = { s with cwd := home } ∧
        (newDir.head? = some tilde ∨ (prepare fs s newDir).1 = pathOf home) := by
  rw [prepare]
  split
  · exact .inr ⟨chdir_home h hh hne,.inr h.home⟩
  · split
    · next ht => exact .inr ⟨chdir_home h hh hne,.inl ht⟩
    · exact .inl rfl

theorem ls_ok {fs : FileSystem} {home : List Bytes} {s : Dirs} (h : InStep fs home s)
    (directory : Bytes) {n : Nat} (hn : n ≤ 1000) : ls fs s directory (some n) = .ok s := by
  obtain ⟨d,hd⟩ := chdir_frame fs s directory
  have hback : fs.resolve d s.currDirString = some s.cwd := by
    rw [h.string,resolve_pathOf h.cwd h.nameable.not_root]
  simp only [ls,if_neg (Nat.not_lt.mpr hn),hd]
  rw [chdir_some hback]

theorem changeDirectory_some {fs : FileSystem} {home : List Bytes} {s s' : Dirs}
    {newDir rest : Bytes} {d : List Bytes} (hp : prepare fs s newDir = (rest,s'))
    (hs : fs.isDir s'.cwd = true) (hhome : s'.expectedHomeDir = pathOf home)
    (ha : asked fs s newDir = some d) (hn : Nameable d) :
    ∃ t, changeDirectory fs s newDir = .ok (true,t) ∧ InStep fs home t := by
  simp only [asked,hp] at ha
  simp only [changeDirectory,hp]
  split at ha
  · next hrest =>
    cases ha
    rw [if_pos hrest,initDirSetup_ok hs hn]
    exact ⟨_,rfl,hs,hn,rfl,hhome⟩
  · next hrest =>
    have hd := resolve_isDir hs ha
    have hset := initDirSetup_ok (s := { s' with cwd := d }) hd hn
    rw [if_neg hrest,chdir_some ha]
    simp only [hset]
    exact ⟨_,rfl,hd,hn,rfl,hhome⟩

theorem changeDirectory_none {fs : FileSystem} {s s' : Dirs} {newDir rest : Bytes}
    (hp : prepare fs s newDir = (rest,s')) (ha : asked fs s newDir = none) :
    changeDirectory fs s newDir = .ok (false,s') ∧ fs.resolve s'.cwd rest = none := by
  simp only [asked,hp] at ha
  simp only [changeDirectory,hp]
  split at ha
  · cases ha
  · next hrest =>
    rw [if_neg hrest,chdir_none ha]
    exact ⟨rfl,ha⟩

theorem cd_ok {fs : FileSystem} {home : List Bytes} {s : Dirs} (h : InStep fs home s)
    (hh : fs.isDir home = true) (hn : Nameable home) {args : List Bytes}
    (hsane : Sane fs s (.cd args)) :
    ∃ done t, changeDirectory fs s (cdTarget args) = .ok (done,t) ∧ InStep fs home t ∧
      (done = false → t.cwd = s.cwd) := by
  have hcases := prepare_cases h hh hn.not_root (cdTarget args)
  rcases hp : prepare fs s (cdTarget args) with ⟨rest,s'⟩
  simp only [hp] at hcases
  cases ha : asked fs s (cdTarget args) with
  | some d =>
    simp only [Sane,ha] at hsane
    have hs' : fs.isDir s'.cwd = true ∧ s'.expectedHomeDir = pathOf home := by
      rcases hcases with rfl | ⟨rfl,_⟩
      · exact ⟨h.cwd,h.home⟩
      · exact ⟨hh,h.home⟩
    obtain ⟨t,ht,hi⟩ := changeDirectory_some hp hs'.1 hs'.2 ha hsane
    exact ⟨true,t,ht,hi,fun hf => by cases hf⟩
  | none =>
    simp only [Sane,ha] at hsane
    obtain ⟨hcd,hres⟩ := changeDirectory_none hp ha
    refine ⟨false,s',hcd,?_⟩
    have hsame : s' = s := by
      rcases hcases with hs' | ⟨rfl,ht | hrest⟩
      · exact hs'
      · rcases hsane with hno | hat
        · exact absurd ht hno
        · rw [h.home,resolve_pathOf hh hn.not_root] at hat
          rw [Option.some.inj hat]
      · rw [hrest,resolve_pathOf hh hn.not_root] at hres
        cases hres
    rw [hsame]
    exact ⟨h,fun _ => rfl⟩

def Launched (fs : FileSystem) (home : List Bytes) (start : Dirs) : Prop :=
  fs.isDir home = true ∧ Nameable home ∧
    initDirSetup true ⟨home,[],[],[]⟩ = .ok start

theorem inStep_init {fs : FileSystem} {home : List Bytes} {start : Dirs}
    (h : Launched fs home start) : InStep fs home start := by
  obtain ⟨hd,hn,hstart⟩ := h
  have hnames : strtok [slash] (pathOf home) = home := tokens_pathOf (fs.name _ hd)
  simp only [initDirSetup,if_true,getcwd_nameable hn,Option.getD_some,hnames,
    if_neg (Nat.not_lt.mpr hn.shallow)] at hstart
  cases hstart
  exact ⟨hd,hn,rfl,rfl⟩

theorem directory_kept {fs : FileSystem} {home : List Bytes} {start : Dirs}
    (hstart : Launched fs home start) {s : Dirs} (hr : (shell fs start).Reach (Sane fs) s) :
    fs.resolve s.cwd s.currDirString = some s.cwd ∧
      (∀ args found, Sane fs s (.ls args found) →
        ∃ t, ls fs s (lsTarget args) found = .ok t ∧ t.cwd = s.cwd) ∧
      ∀ args, Sane fs s (.cd args) →
        ∃ done t, changeDirectory fs s (cdTarget args) = .ok (done,t) ∧
          (done = false → t.cwd = s.cwd) := by
  have hin : InStep fs home s := by
    refine hr.invariant (InStep fs home) (inStep_init hstart) ?_
    intro s a t _ hi hsane hst
    cases a with
    | ls args found =>
      obtain ⟨n,hn,rfl⟩ := hsane
      have hls := hst.symm.trans (ls_ok hi (lsTarget args) hn)
      cases hls
      exact hi
    | cd args =>
      obtain ⟨done,t',hcd,hi',_⟩ := cd_ok hi hstart.1 hstart.2.1 hsane
      have hst' : step fs s (.cd args) = .ok t := hst
      rw [step,hcd] at hst'
      cases hst'
      exact hi'
  refine ⟨?_,?_,?_⟩
  · rw [hin.string,resolve_pathOf hin.cwd hin.nameable.not_root]
  · rintro args found ⟨n,hn,rfl⟩
    exact ⟨s,ls_ok hin _ hn,rfl⟩
  · intro args hsane
    obtain ⟨done,t,hcd,-,hkeep⟩ := cd_ok hin hstart.1 hstart.2.1 hsane
    exact ⟨done,t,hcd,hkeep⟩

def homeDir : List Bytes := [ascii ['h','o','m','e']]

def subDir : List Bytes := [ascii ['h','o','m','e'],ascii ['s','u','b']]

def treeDirs : List (List Bytes) := [[],homeDir,subDir]

theorem treeDirs_dropLast : ∀ d ∈ treeDirs, d.dropLast ∈ treeDirs := by decide

theorem treeDirs_names : ∀ d ∈ treeDirs, ∀ c ∈ d,
    c ≠ [] ∧ slash ∉ c ∧ c ≠ ascii ['.'] ∧ c ≠ ascii ['.','.'] := by
  decide

def tree : FileSystem where
  isDir d := treeDirs.contains d
  enter d c :=
    if c = ascii ['.'] then some d
    else if c = ascii ['.','.'] then some d.dropLast
    else if treeDirs.contains (d ++ [c]) then some (d ++ [c]) else none
  isDir_root := by decide
  isDir_enter := by
    intro d c e hd he
    rw [List.contains_iff_mem] at hd ⊢
    split at he
    · cases he
      exact hd
    · split at he
      · cases he
        exact treeDirs_dropLast d hd
      · split at he
        · next hc =>
          cases he
          exact List.contains_iff_mem.mp hc
        · cases he
  named := by
    intro d c h
    have hmem := List.contains_iff_mem.mp h
    have hd := treeDirs_dropLast _ hmem
    have hc := treeDirs_names _ hmem c (by simp)
    rw [List.dropLast_concat] at hd
    rw [if_neg hc.2.2.1,if_neg hc.2.2.2,if_pos h]
    exact ⟨List.contains_iff_mem.mpr hd,rfl⟩
  name := by
    intro d h c hc
    have hnames := treeDirs_names d (List.contains_iff_mem.mp h) c hc
    exact ⟨hnames.1,hnames.2.1⟩

def atHome : Dirs :=
  { cwd := homeDir, currDirectories := homeDir, currDirString := pathOf homeDir
    expectedHomeDir := pathOf homeDir }

theorem launched_tree : Launched tree homeDir atHome :=
  ⟨by decide,⟨by decide,by decide,by decide⟩,by decide⟩

theorem directory_kept_sub :
    Launched tree homeDir atHome ∧
      ∃ s, (shell tree atHome).Reach (Sane tree) s ∧ s.cwd = subDir ∧
        tree.resolve s.cwd s.currDirString = some s.cwd := by
  have hsub : Nameable subDir := ⟨by decide,by decide,by decide⟩
  have hcd : Sane tree atHome (.cd [ascii ['c','d'],ascii ['s','u','b']]) := hsub
  have hreach : (shell tree atHome).Reach (Sane tree)
      { atHome with cwd := subDir, currDirectories := subDir, currDirString := pathOf subDir } :=
    .step .init hcd (by decide)
  exact ⟨launched_tree,_,hreach,rfl,(directory_kept launched_tree hreach).1⟩

theorem root_loses_directory :
    let s := (shell tree atHome).after [.cd [ascii ['c','d'],ascii ['/']]]
    let t := (shell tree atHome).after
      [.cd [ascii ['c','d'],ascii ['/']],.ls [ascii ['l','s'],ascii ['h','o','m','e']] (some 3)]
    Launched tree homeDir atHome ∧ (shell tree atHome).Reachable s ∧
      (shell tree atHome).Reachable t ∧
      s.cwd = [] ∧ tree.resolve s.cwd s.currDirString ≠ some s.cwd ∧
      ls tree s (ascii ['h','o','m','e']) (some 3) = .ok t ∧ t.cwd ≠ s.cwd := by
  refine ⟨launched_tree,System.reachable_after (by decide),System.reachable_after (by decide),?_⟩
  decide

end Shell.Directory
