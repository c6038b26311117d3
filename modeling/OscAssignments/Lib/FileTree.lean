import Mathlib.Tactic
import OscAssignments.Lib.Tokens

namespace FileTree
open Tokens

abbrev Bytes := List UInt8
abbrev Inode := Nat

structure Perms where
  read : Bool
  write : Bool
  search : Bool
  deriving DecidableEq, Repr

inductive Node where
  | file (bytes : Bytes) (perms : Perms)
  | dir (entries : List (Bytes × Inode)) (perms : Perms)
  | symlink (target : Bytes)
  deriving DecidableEq, Repr

structure Fs where
  node : Inode → Option Node
  next : Inode
  root : Inode
  cwd : Inode
  masked : Perms
  unused : ∀ i, next ≤ i → node i = none

def slash : UInt8 := 47
def dot : UInt8 := 46
def nameMax : Nat := 255
def pathMax : Nat := 4096
def maxLinks : Nat := 40

inductive Walk where
  | found (i : Inode)
  | missing (d : Inode) (name : Bytes)
  | failed
  deriving DecidableEq, Repr

def components (path : Bytes) : List Bytes :=
  tokens (fun c => c = slash) path ++ if path.getLast? = some slash then [[dot]] else []

namespace Fs
variable (fs : Fs)

def start (d : Inode) (path : Bytes) : Inode := if path.head? = some slash then fs.root else d

def lookup (d : Inode) (name : Bytes) : Walk :=
  match fs.node d with
  | some (.dir entries perms) =>
    if perms.search = false ∨ nameMax < name.length then .failed
    else if name = [dot] then .found d
    else
      match entries.lookup name with
      | some i => .found i
      | none => .missing d name
  | _ => .failed

def through (follow : Inode → List Bytes → Walk) : Inode → List Bytes → Walk
  | d, [] => .found d
  | d, c :: cs =>
    match fs.lookup d c with
    | .found i =>
      match fs.node i with
      | some (.symlink target) =>
        if target = [] then .failed else follow (fs.start d target) (components target ++ cs)
      | some _ => through follow i cs
      | none => .failed
    | .missing d name => if cs = [] then .missing d name else .failed
    | .failed => .failed

def walk : Nat → Inode → List Bytes → Walk
  | 0 => fs.through fun _ _ => .failed
  | n + 1 => fs.through (walk n)

def namei (path : Bytes) : Walk :=
  if path = [] ∨ pathMax ≤ path.length then .failed
  else fs.walk maxLinks (fs.start fs.cwd path) (components path)

def fileAt (i : Inode) : Option (Bytes × Perms) :=
  match fs.node i with
  | some (.file bytes perms) => some (bytes,perms)
  | _ => none

def content (i : Inode) : Bytes := ((fs.fileAt i).map Prod.fst).getD []

def contentOf (path : Bytes) : Option Bytes :=
  match fs.namei path with
  | .found i => (fs.fileAt i).map Prod.fst
  | _ => none

def link (d : Inode) (name : Bytes) (n : Node) : Fs where
  node i :=
    if i = fs.next then some n
    else
      match fs.node i with
      | some (.dir entries perms) =>
        some (.dir (if i = d then entries ++ [(name,fs.next)] else entries) perms)
      | x => x
  next := fs.next + 1
  root := fs.root
  cwd := fs.cwd
  masked := fs.masked
  unused i hi := by
    rw [if_neg (Nat.ne_of_gt hi),fs.unused i (Nat.le_of_succ_le hi)]

def setContent (i : Inode) (bytes : Bytes) : Fs where
  node j :=
    if j = i then
      match fs.node i with
      | some (.file _ perms) => some (.file bytes perms)
      | x => x
    else fs.node j
  next := fs.next
  root := fs.root
  cwd := fs.cwd
  masked := fs.masked
  unused j hj := by
    split_ifs with h
    · rw [fs.unused i (h ▸ hj)]
    · exact fs.unused j hj

def granted (wanted : Perms) : Perms :=
  ⟨wanted.read && !fs.masked.read,wanted.write && !fs.masked.write,
    wanted.search && !fs.masked.search⟩

def writableDir (d : Inode) : Bool :=
  match fs.node d with
  | some (.dir _ perms) => perms.write && perms.search
  | _ => false

def mkdirIn (d : Inode) (name : Bytes) : Fs :=
  match fs.lookup d name with
  | .missing _ _ =>
    if fs.writableDir d then
      fs.link d name (.dir [([dot,dot],d)] (fs.granted ⟨true,true,true⟩))
    else fs
  | _ => fs

def openRead (path : Bytes) : Option Inode :=
  match fs.namei path with
  | .found i => (fs.fileAt i).bind fun f => if f.2.read then some i else none
  | _ => none

def openWrite (path : Bytes) : Option (Inode × Fs) :=
  match fs.namei path with
  | .found i => (fs.fileAt i).bind fun f => if f.2.write then some (i,fs.setContent i []) else none
  | .missing d name =>
    if fs.writableDir d then
      some (fs.next,fs.link d name (.file [] (fs.granted ⟨true,true,false⟩)))
    else none
  | .failed => none

end Fs

def pwrite (bytes : Bytes) (pos : Nat) (data : Bytes) : Bytes :=
  if data = [] then bytes
  else bytes.take pos ++ List.replicate (pos - bytes.length) 0 ++ data ++
    bytes.drop (pos + data.length)

theorem pwrite_end (bytes data : Bytes) : pwrite bytes bytes.length data = bytes ++ data := by
  unfold pwrite
  split_ifs with h
  · rw [h,List.append_nil]
  · simp

theorem pwrite_head {bytes : Bytes} {pos : Nat} (hpos : 0 < pos) (hlen : pos ≤ bytes.length)
    (data : Bytes) : (pwrite bytes pos data)[0]? = bytes[0]? := by
  unfold pwrite
  split_ifs with h
  · rfl
  · rw [List.append_assoc,List.append_assoc,List.getElem?_append_left (by simp; omega),
      List.getElem?_take_of_lt hpos]

theorem length_pwrite {bytes : Bytes} {pos : Nat} (hlen : pos ≤ bytes.length) (data : Bytes) :
    pos + data.length ≤ (pwrite bytes pos data).length := by
  unfold pwrite
  split_ifs with h
  · simp [h,hlen]
  · simp
    omega

section Grows
variable {fs fs' : Fs} {i d : Inode} {name : Bytes} {n : Nat}

structure Grows (fs fs' : Fs) : Prop where
  root : fs'.root = fs.root
  cwd : fs'.cwd = fs.cwd
  file : ∀ i bytes perms, fs.node i = some (.file bytes perms) →
    ∃ bytes', fs'.node i = some (.file bytes' perms)
  dir : ∀ d entries perms, fs.node d = some (.dir entries perms) →
    ∃ more, fs'.node d = some (.dir (entries ++ more) perms)
  symlink : ∀ i target, fs.node i = some (.symlink target) → fs'.node i = some (.symlink target)

theorem Grows.refl (fs : Fs) : Grows fs fs :=
  ⟨rfl,rfl,fun _ bytes _ h => ⟨bytes,h⟩,fun _ _ _ h => ⟨[],by simpa using h⟩,fun _ _ h => h⟩

theorem Grows.trans {fs'' : Fs} (h : Grows fs fs') (h' : Grows fs' fs'') : Grows fs fs'' where
  root := h'.root.trans h.root
  cwd := h'.cwd.trans h.cwd
  file i bytes perms hi := by
    obtain ⟨bytes',hi'⟩ := h.file i bytes perms hi
    exact h'.file i bytes' perms hi'
  dir d entries perms hd := by
    obtain ⟨more,hd'⟩ := h.dir d entries perms hd
    obtain ⟨more',hd''⟩ := h'.dir d _ perms hd'
    exact ⟨more ++ more',by rw [hd'',List.append_assoc]⟩
  symlink i target hi := h'.symlink i target (h.symlink i target hi)

theorem grows_setContent (fs : Fs) (i : Inode) (bytes : Bytes) : Grows fs (fs.setContent i bytes) := by
  have hother : ∀ j, j ≠ i → (fs.setContent i bytes).node j = fs.node j := fun j hj => if_neg hj
  refine ⟨rfl,rfl,?_,?_,?_⟩
  · intro j b perms hj
    rcases eq_or_ne j i with rfl | hne
    · exact ⟨bytes,by simp [Fs.setContent,hj]⟩
    · exact ⟨b,by rw [hother j hne,hj]⟩
  · intro j entries perms hj
    rcases eq_or_ne j i with rfl | hne
    · exact ⟨[],by simp [Fs.setContent,hj]⟩
    · exact ⟨[],by rw [hother j hne,hj,List.append_nil]⟩
  · intro j target hj
    rcases eq_or_ne j i with rfl | hne
    · simp [Fs.setContent,hj]
    · rw [hother j hne,hj]

theorem ne_next {x : Node} (h : fs.node i = some x) : i ≠ fs.next := by
  rintro rfl
  rw [fs.unused fs.next le_rfl] at h
  cases h

theorem grows_link (fs : Fs) (d : Inode) (name : Bytes) (x : Node) :
    Grows fs (fs.link d name x) := by
  refine ⟨rfl,rfl,?_,?_,?_⟩
  · intro i bytes perms hi
    exact ⟨bytes,by simp [Fs.link,ne_next hi,hi]⟩
  · intro i entries perms hi
    rcases eq_or_ne i d with rfl | hne
    · exact ⟨[(name,fs.next)],by simp [Fs.link,ne_next hi,hi]⟩
    · exact ⟨[],by simp [Fs.link,ne_next hi,hi,hne]⟩
  · intro i target hi
    simp [Fs.link,ne_next hi,hi]

theorem Grows.start (h : Grows fs fs') (d : Inode) (path : Bytes) :
    fs'.start d path = fs.start d path := by
  simp [Fs.start,h.root]

theorem lookup_dir {r : Walk} (h : fs.lookup d name = r) (hr : r ≠ .failed) :
    ∃ entries perms, fs.node d = some (.dir entries perms) ∧ perms.search = true ∧
      name.length ≤ nameMax ∧ (name = [dot] ∧ r = .found d ∨ name ≠ [dot] ∧
        ((∃ i, entries.lookup name = some i ∧ r = .found i) ∨
          entries.lookup name = none ∧ r = .missing d name)) := by
  unfold Fs.lookup at h
  split at h
  case h_1 entries perms hd =>
    split_ifs at h with hbad hdot
    · exact absurd h.symm hr
    · obtain ⟨hsearch,hlen⟩ := not_or.mp hbad
      exact ⟨entries,perms,hd,by simpa using hsearch,not_lt.mp hlen,.inl ⟨hdot,h.symm⟩⟩
    · obtain ⟨hsearch,hlen⟩ := not_or.mp hbad
      refine ⟨entries,perms,hd,by simpa using hsearch,not_lt.mp hlen,.inr ⟨hdot,?_⟩⟩
      cases he : entries.lookup name with
      | some i =>
        rw [he] at h
        exact .inl ⟨i,rfl,h.symm⟩
      | none =>
        rw [he] at h
        exact .inr ⟨rfl,h.symm⟩
  case h_2 => exact absurd h.symm hr

def Fs.Solid (fs : Fs) (j : Inode) : Prop :=
  (∃ bytes perms, fs.node j = some (.file bytes perms)) ∨
    ∃ entries perms, fs.node j = some (.dir entries perms)

theorem Grows.solid (h : Grows fs fs') {j : Inode} (hj : fs.Solid j) : fs'.Solid j := by
  rcases hj with ⟨bytes,perms,hn⟩ | ⟨entries,perms,hn⟩
  · obtain ⟨bytes',hn'⟩ := h.file j bytes perms hn
    exact .inl ⟨bytes',perms,hn'⟩
  · obtain ⟨more,hn'⟩ := h.dir j entries perms hn
    exact .inr ⟨_,perms,hn'⟩

section Through
variable {follow : Inode → List Bytes → Walk} {c : Bytes} {cs : List Bytes} {j : Inode}

theorem through_symlink {target : Bytes} (hl : fs.lookup d c = .found j)
    (hn : fs.node j = some (.symlink target)) (ht : target ≠ []) :
    fs.through follow d (c :: cs) = follow (fs.start d target) (components target ++ cs) := by
  rw [Fs.through,hl]
  simp only [hn,if_neg ht]

theorem through_solid (hl : fs.lookup d c = .found j) (hj : fs.Solid j) :
    fs.through follow d (c :: cs) = fs.through follow j cs := by
  rw [Fs.through,hl]
  rcases hj with ⟨_,_,hn⟩ | ⟨_,_,hn⟩
  · simp only [hn]
  · simp only [hn]

theorem through_cases {r : Walk} (h : fs.through follow d (c :: cs) = r) (hr : r ≠ .failed) :
    (∃ j target, fs.lookup d c = .found j ∧ fs.node j = some (.symlink target) ∧ target ≠ [] ∧
      follow (fs.start d target) (components target ++ cs) = r) ∨
    (∃ j, fs.lookup d c = .found j ∧ fs.Solid j ∧ fs.through follow j cs = r) ∨
      cs = [] ∧ fs.lookup d c = r ∧ ∃ d' name, r = .missing d' name := by
  rw [Fs.through] at h
  cases hl : fs.lookup d c with
  | failed =>
    rw [hl] at h
    exact absurd h.symm hr
  | missing d' name =>
    rw [hl] at h
    simp only at h
    split_ifs at h with hcs
    · exact .inr (.inr ⟨hcs,h,d',name,h.symm⟩)
    · exact absurd h.symm hr
  | found j =>
    rw [hl] at h
    cases hn : fs.node j with
    | none =>
      simp only [hn] at h
      exact absurd h.symm hr
    | some x =>
      cases x with
      | symlink target =>
        simp only [hn] at h
        split_ifs at h with ht
        · exact absurd h.symm hr
        · exact .inl ⟨j,target,rfl,hn,ht,h⟩
      | file bytes perms =>
        simp only [hn] at h
        exact .inr (.inl ⟨j,rfl,.inl ⟨bytes,perms,hn⟩,h⟩)
      | dir entries perms =>
        simp only [hn] at h
        exact .inr (.inl ⟨j,rfl,.inr ⟨entries,perms,hn⟩,h⟩)

end Through

theorem Grows.lookup (h : Grows fs fs') (hl : fs.lookup d name = .found i) :
    fs'.lookup d name = .found i := by
  obtain ⟨entries,perms,hd,hsearch,hlen,hcase⟩ := lookup_dir hl (by simp)
  obtain ⟨more,hd'⟩ := h.dir d entries perms hd
  unfold Fs.lookup
  rw [hd']
  simp only [hsearch,Bool.true_eq_false,false_or,if_neg (not_lt.mpr hlen)]
  rcases hcase with ⟨hdot,hr⟩ | ⟨hdot,⟨j,hj,hr⟩ | ⟨-,hr⟩⟩
  · rw [if_pos hdot,hr]
  · rw [if_neg hdot,List.lookup_append,hj,hr]
    rfl
  · cases hr

theorem Grows.through (h : Grows fs fs') {follow follow' : Inode → List Bytes → Walk}
    (hfollow : ∀ d cs, follow d cs = .found i → follow' d cs = .found i) (cs : List Bytes) :
    ∀ d, fs.through follow d cs = .found i → fs'.through follow' d cs = .found i := by
  induction cs with
  | nil =>
    intro d hw
    exact hw
  | cons c cs ih =>
    intro d hw
    rcases through_cases hw (by simp) with ⟨j,target,hl,hn,ht,hw⟩ | ⟨j,hl,hj,hw⟩ | ⟨-,-,_,_,hr⟩
    · rw [through_symlink (h.lookup hl) (h.symlink j target hn) ht,h.start]
      exact hfollow _ _ hw
    · rw [through_solid (h.lookup hl) (h.solid hj)]
      exact ih j hw
    · cases hr

theorem Grows.walk (h : Grows fs fs') :
    ∀ d cs, fs.walk n d cs = .found i → fs'.walk n d cs = .found i := by
  induction n with
  | zero =>
    intro d cs
    exact h.through (fun _ _ h => h) cs d
  | succ n ih =>
    intro d cs
    exact h.through ih cs d

theorem Grows.namei {path : Bytes} (h : Grows fs fs') (hp : fs.namei path = .found i) :
    fs'.namei path = .found i := by
  unfold Fs.namei at hp ⊢
  split_ifs at hp ⊢
  rw [h.cwd,h.start]
  exact h.walk _ _ hp

theorem link_lookup {x : Node} (hl : fs.lookup d name = .missing d name) :
    (fs.link d name x).lookup d name = .found fs.next := by
  obtain ⟨entries,perms,hd,hsearch,hlen,hcase⟩ := lookup_dir hl (by simp)
  have hd' : (fs.link d name x).node d = some (.dir (entries ++ [(name,fs.next)]) perms) := by
    simp [Fs.link,ne_next hd,hd]
  unfold Fs.lookup
  rw [hd']
  simp only [hsearch,Bool.true_eq_false,false_or,if_neg (not_lt.mpr hlen)]
  rcases hcase with ⟨-,hr⟩ | ⟨hdot,⟨j,-,hr⟩ | ⟨hnone,-⟩⟩
  · cases hr
  · cases hr
  · rw [if_neg hdot,List.lookup_append,hnone]
    simp

theorem through_link {bytes : Bytes} {perms : Perms} {follow follow' : Inode → List Bytes → Walk}
    (hfollow : ∀ d' cs, follow d' cs = .missing d name → follow' d' cs = .found fs.next)
    (cs : List Bytes) : ∀ d', fs.through follow d' cs = .missing d name →
      (fs.link d name (.file bytes perms)).through follow' d' cs = .found fs.next := by
  have h := grows_link fs d name (.file bytes perms)
  induction cs with
  | nil =>
    intro d' hw
    cases hw
  | cons c cs ih =>
    intro d' hw
    rcases through_cases hw (by simp) with ⟨j,target,hl,hn,ht,hw⟩ | ⟨j,hl,hj,hw⟩ | ⟨rfl,hl,-⟩
    · rw [through_symlink (h.lookup hl) (h.symlink j target hn) ht,h.start]
      exact hfollow _ _ hw
    · rw [through_solid (h.lookup hl) (h.solid hj)]
      exact ih j hw
    · obtain ⟨_,_,_,_,_,⟨-,hr⟩ | ⟨-,⟨_,-,hr⟩ | ⟨-,hr⟩⟩⟩ := lookup_dir hl (by simp)
      · cases hr
      · cases hr
      · cases hr
        exact through_solid (link_lookup hl) (.inl ⟨bytes,perms,by simp [Fs.link]⟩)

theorem walk_link {bytes : Bytes} {perms : Perms} :
    ∀ d' cs, fs.walk n d' cs = .missing d name →
      (fs.link d name (.file bytes perms)).walk n d' cs = .found fs.next := by
  induction n with
  | zero =>
    intro d' cs
    exact through_link (fun _ _ h => by cases h) cs d'
  | succ n ih =>
    intro d' cs
    exact through_link ih cs d'

theorem namei_link {path bytes : Bytes} {perms : Perms} (hp : fs.namei path = .missing d name) :
    (fs.link d name (.file bytes perms)).namei path = .found fs.next := by
  have h := grows_link fs d name (.file bytes perms)
  unfold Fs.namei at hp ⊢
  split_ifs at hp ⊢
  rw [h.cwd,h.start]
  exact walk_link _ _ hp

theorem through_short {follow : Inode → List Bytes → Walk}
    (hfollow : ∀ d cs, follow d cs = .found i → ∀ c ∈ cs, c.length ≤ nameMax) (cs : List Bytes) :
    ∀ d, fs.through follow d cs = .found i → ∀ c ∈ cs, c.length ≤ nameMax := by
  induction cs with
  | nil =>
    intro d _ c hc
    cases hc
  | cons c cs ih =>
    intro d hw
    rcases through_cases hw (by simp) with ⟨j,target,hl,-,-,hw⟩ | ⟨j,hl,-,hw⟩ | ⟨-,-,_,_,hr⟩
    · obtain ⟨_,_,_,_,hlen,-⟩ := lookup_dir hl (by simp)
      intro c' hc'
      rcases List.mem_cons.mp hc' with rfl | hc'
      · exact hlen
      · exact hfollow _ _ hw c' (List.mem_append_right _ hc')
    · obtain ⟨_,_,_,_,hlen,-⟩ := lookup_dir hl (by simp)
      intro c' hc'
      rcases List.mem_cons.mp hc' with rfl | hc'
      · exact hlen
      · exact ih j hw c' hc'
    · cases hr

theorem walk_short : ∀ d cs, fs.walk n d cs = .found i → ∀ c ∈ cs, c.length ≤ nameMax := by
  induction n with
  | zero =>
    intro d cs
    exact through_short (fun _ _ h => by cases h) cs d
  | succ n ih =>
    intro d cs
    exact through_short ih cs d

theorem namei_short {path : Bytes} (h : fs.namei path = .found i) :
    ∀ c ∈ components path, c.length ≤ nameMax := by
  unfold Fs.namei at h
  split_ifs at h
  exact walk_short _ _ h

end Grows
section Contents
variable {fs : Fs} {i j : Inode} {bytes : Bytes} {perms : Perms}

theorem fileAt_node : fs.fileAt i = some (bytes,perms) ↔ fs.node i = some (.file bytes perms) := by
  unfold Fs.fileAt
  split
  case h_1 b p hn => simp [hn]
  case h_2 hno =>
    constructor
    · intro h
      cases h
    · intro h
      exact absurd h (hno bytes perms)

theorem content_of_fileAt (h : fs.fileAt i = some (bytes,perms)) : fs.content i = bytes := by
  simp [Fs.content,h]

theorem contentOf_of_found {path : Bytes} (hp : fs.namei path = .found i)
    (h : fs.fileAt i = some (bytes,perms)) : fs.contentOf path = some bytes := by
  simp [Fs.contentOf,hp,h]

theorem fileAt_setContent_self (h : fs.fileAt i = some (bytes,perms)) (data : Bytes) :
    (fs.setContent i data).fileAt i = some (data,perms) := by
  rw [fileAt_node] at h ⊢
  simp [Fs.setContent,h]

theorem fileAt_setContent_ne (hj : j ≠ i) (data : Bytes) :
    (fs.setContent i data).fileAt j = fs.fileAt j := by
  simp [Fs.fileAt,Fs.setContent,hj]

theorem fileAt_link {d : Inode} {name : Bytes} {x : Node} (h : fs.fileAt i = some (bytes,perms)) :
    (fs.link d name x).fileAt i = some (bytes,perms) := by
  rw [fileAt_node] at h ⊢
  simp [Fs.link,ne_next h,h]

theorem grows_mkdirIn (fs : Fs) (d : Inode) (name : Bytes) : Grows fs (fs.mkdirIn d name) := by
  unfold Fs.mkdirIn
  split
  · split_ifs
    · exact grows_link fs d name _
    · exact .refl fs
  · exact .refl fs

theorem fileAt_mkdirIn {d : Inode} {name : Bytes} (h : fs.fileAt i = some (bytes,perms)) :
    (fs.mkdirIn d name).fileAt i = some (bytes,perms) := by
  unfold Fs.mkdirIn
  split
  · split_ifs
    · exact fileAt_link h
    · exact h
  · exact h

theorem openRead_some {path : Bytes} (hp : fs.namei path = .found i)
    (h : fs.fileAt i = some (bytes,perms)) (hr : perms.read = true) :
    fs.openRead path = some i := by
  simp [Fs.openRead,hp,h,hr]

theorem openWrite_cases {path : Bytes} {o : Inode} {fs' : Fs}
    (h : fs.openWrite path = some (o,fs')) :
    (∃ bytes perms, fs.namei path = .found o ∧ fs.fileAt o = some (bytes,perms) ∧
      fs' = fs.setContent o []) ∨
    ∃ d name perms, fs.namei path = .missing d name ∧ o = fs.next ∧
      fs' = fs.link d name (.file [] perms) := by
  unfold Fs.openWrite at h
  cases hp : fs.namei path with
  | failed =>
    rw [hp] at h
    cases h
  | found i =>
    rw [hp] at h
    obtain ⟨f,hf,h⟩ := Option.bind_eq_some_iff.mp h
    split_ifs at h
    cases h
    exact .inl ⟨f.1,f.2,rfl,hf,rfl⟩
  | missing d name =>
    rw [hp] at h
    simp only at h
    split_ifs at h
    cases h
    exact .inr ⟨d,name,_,rfl,rfl,rfl⟩

theorem openWrite_some {path : Bytes} {o : Inode} {fs' : Fs}
    (h : fs.openWrite path = some (o,fs')) :
    fs'.namei path = .found o ∧ (∃ perms, fs'.fileAt o = some ([],perms)) ∧
      ∀ j b p, j ≠ o → fs.fileAt j = some (b,p) → fs'.fileAt j = some (b,p) := by
  rcases openWrite_cases h with ⟨bytes,perms,hp,hf,rfl⟩ | ⟨d,name,perms,hp,rfl,rfl⟩
  · refine ⟨(grows_setContent fs o []).namei hp,⟨perms,fileAt_setContent_self hf []⟩,?_⟩
    intro j b p hj hb
    rw [fileAt_setContent_ne hj,hb]
  · refine ⟨namei_link hp,⟨perms,?_⟩,?_⟩
    · rw [fileAt_node]
      simp [Fs.link]
    · intro j b p _ hb
      exact fileAt_link hb

theorem namei_openWrite {path : Bytes} {o : Inode} {fs' : Fs}
    (hi : fs.fileAt i = some (bytes,perms)) (h : fs.openWrite path = some (o,fs')) :
    fs.namei path = .found i ↔ o = i := by
  rcases openWrite_cases h with ⟨_,_,hp,-,-⟩ | ⟨d,name,_,hp,rfl,-⟩
  · rw [hp,Walk.found.injEq]
  · rw [hp]
    constructor
    · intro he
      cases he
    · intro he
      exact absurd he.symm (ne_next (fileAt_node.mp hi))

end Contents
end FileTree
