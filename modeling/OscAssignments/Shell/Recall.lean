import Mathlib.Tactic
import OscAssignments.Shell.Parse

namespace Shell
open Runs Tokens Recent

namespace History

def write (h : History) (p : Nat) (s : Bytes) : History := { h with buffers := h.buffers.set p s }

theorem write_text_ne {h : History} {p q : Nat} (hne : q ≠ p) (s : Bytes) :
    (h.write p s).text q = h.text q := by
  rw [text,text,write,List.getElem?_set_ne hne.symm]

theorem write_text_self {h : History} {p : Nat} (hp : p < h.buffers.length) (s : Bytes) :
    (h.write p s).text p = s := by
  rw [text,write,List.getElem?_set_self hp]
  rfl

theorem alloc_text_of_lt {h : History} {q : Nat} (hq : q < h.buffers.length) (s : Bytes) :
    (h.alloc s).2.text q = h.text q :=
  text_of_append hq [s]

end History

inductive Status
  | running
  | exited
  | crashed
  | outOfBounds
  | stackOverflow
  deriving DecidableEq

structure World where
  opens : Redirect → Bytes → Bool
  scandir : Bytes → Option Nat
  rewrites : Bytes → Option Bytes → Option Bytes
  strays : Bytes → Bool
  usable : Nat → Nat
  enough : ∀ n, n ≤ usable n

structure Session where
  history : History
  status : Status
  pending : List Bytes
  entered : List Bytes

namespace Session

def arrowOffset : Bytes → Int
  | _ :: _ :: c :: rest => (if c = 65 then 1 else -1) + arrowOffset rest
  | _ => 0

inductive Recalled
  | missing
  | null
  | entry (p : Nat)

def lookUp (h : History) (command : Bytes) : Recalled :=
  let offset := arrowOffset command
  if offset < 0 ∨ (h.storedCount : Int) < offset then .missing
  else
    match h.commandHistory[((h.storedCount : Int) - offset).toNat]? with
    | none => .null
    | some p => .entry p

def handleArrows (exec : Session → Nat → Session) (s : Session) (command : Bytes) : Session :=
  match lookUp s.history command with
  | .missing => s
  | .null =>
    { s with status := if s.history.storedCount < maxStored then .crashed else .outOfBounds }
  | .entry p =>
    let line := s.history.text p
    if command.length < line.length then { s with status := .outOfBounds }
    else exec { s with history := s.history.enter line, entered := s.entered ++ [line] }
      s.history.buffers.length

def runStage (exec : Session → Nat → Session) (s : Session) (stage : Bytes) : Session :=
  let child := exec { s with history := (s.history.alloc stage).2 } s.history.buffers.length
  { s with history := { s.history with file := child.history.file } }

def handlePipelining (exec : Session → Nat → Session) (s : Session) (commands : Bytes) : Session :=
  let allCmds := strtok [124] commands
  if 400 < allCmds.length then { s with status := .outOfBounds }
  else allCmds.foldl (runStage exec) s

def finish (w : World) (parsed : Parsed) : Status :=
  if parsed.redirects.all fun r => w.opens r.1 r.2 then
    match parsed.cmd with
    | none => .crashed
    | some cmd =>
      match dispatch cmd with
      | .quit => .exited
      | .ls =>
        match w.scandir (lsTarget parsed.args) with
        | none => .exited
        | some n => if 1000 < n then .outOfBounds else .running
      | _ => .running
  else .running

def runCommand (w : World) (s : Session) (p : Nat) : Session :=
  let command := s.history.text p
  match parse command with
  | .error _ => { s with status := .outOfBounds }
  | .ok parsed =>
    let h := s.history.write p (tokenised command)
    { s with
      history := { h with file := w.rewrites command h.file }
      status := if w.strays command then .outOfBounds else finish w parsed }

def fits (w : World) (command : Bytes) : Bool := command.length + 1 ≤ w.usable command.length

def execCommand (w : World) : Nat → Session → Nat → Session
  | 0, s, _ => { s with status := .stackOverflow }
  | n + 1, s, p =>
    let command := s.history.text p
    if isArrow command then handleArrows (execCommand w n) s command
    else if !fits w command then { s with status := .outOfBounds }
    else if 0 < countPipes command then handlePipelining (execCommand w n) s command
    else runCommand w s p

def takeInput (s : Session) (line : Bytes) : Session :=
  if 100 ≤ line.length then { s with status := .outOfBounds }
  else if line = [] then s
  else
    let x := cstring line
    let commands := tokenizeCommands x
    if isArrow x then { s with pending := commands }
    else { s with history := s.history.enter x, pending := commands, entered := s.entered ++ [line] }

inductive Act
  | enter (line : Bytes)
  | exec (w : World)

def step (depth : Nat) (s : Session) : Act → Except Status Session
  | .enter line =>
    if s.status = .running ∧ s.pending = [] then .ok (takeInput s line) else .error s.status
  | .exec w =>
    match s.status, s.pending with
    | .running, cmd :: rest =>
      .ok (execCommand w depth { s with history := (s.history.alloc cmd).2, pending := rest }
        s.history.buffers.length)
    | _, _ => .error s.status

def shell (depth : Nat) (h : History) : System Session Act Status where
  init := { history := h, status := .running, pending := [], entered := [] }
  step := step depth

def untouched (line : Bytes) : Bool :=
  isArrow line || decide (0 < countPipes line) || tokenised line == line

def quiet (w : World) (child : Bool) : Nat → History → Bytes → Bool
  | 0, _, _ => false
  | n + 1, h, command =>
    if isArrow command then
      match lookUp h command with
      | .missing => true
      | .null => decide (h.storedCount < maxStored)
      | .entry p =>
        let line := h.text p
        decide (line.length ≤ command.length) &&
          (h.texts.getLast? == some line || !child && untouched line) &&
          quiet w child n (h.enter line) line
    else if !fits w command then false
    else if 0 < countPipes command then
      let allCmds := strtok [124] command
      decide (allCmds.length ≤ 400) &&
        allCmds.all fun stage => quiet w true n (h.alloc stage).2 stage
    else
      match parse command with
      | .error _ => false
      | .ok parsed =>
        !w.strays command && finish w parsed != .outOfBounds && w.rewrites command h.file == h.file

def Harmless (depth : Nat) (s : Session) : Act → Prop
  | .enter line => line.length < 100 ∧ 0 ∉ line
  | .exec w =>
    s.pending.head?.all (fun cmd => quiet w false depth (s.history.alloc cmd).2 cmd) = true

instance (depth : Nat) (s : Session) : (a : Act) → Decidable (Harmless depth s a)
  | .enter line => inferInstanceAs (Decidable (line.length < 100 ∧ 0 ∉ line))
  | .exec w => inferInstanceAs
      (Decidable (s.pending.head?.all (fun cmd => quiet w false depth (s.history.alloc cmd).2 cmd) = true))

theorem enter_text_new (h : History) (line : Bytes) :
    (h.enter line).text h.buffers.length = line := by
  rw [History.enter,History.addNewCommand_text,History.alloc_text_new]

theorem enter_text_of_lt {h : History} {q : Nat} (hq : q < h.buffers.length) (line : Bytes) :
    (h.enter line).text q = h.text q := by
  rw [History.enter,History.addNewCommand_text,History.alloc_text_of_lt hq]

theorem enter_of_repeated {h : History} (hs : h.Sound) {line : Bytes}
    (hlast : h.texts.getLast? = some line) : h.enter line = (h.alloc line).2 := by
  rw [History.enter,History.addNewCommand,if_pos]
  rw [History.texts_alloc hs,History.text_alloc,hlast]

theorem enter_buffers (h : History) (line : Bytes) :
    (h.enter line).buffers.length = h.buffers.length + 1 := by
  rw [History.enter,History.addNewCommand_buffers,History.alloc_buffers]

theorem handlePipelining_eq {exec : Session → Nat → Session} {s : Session} {commands : Bytes}
    (hlen : (strtok [124] commands).length ≤ 400)
    (hfile : ∀ stage ∈ strtok [124] commands,
      (exec { s with history := (s.history.alloc stage).2 } s.history.buffers.length).history.file =
        s.history.file) :
    handlePipelining exec s commands = s := by
  rw [handlePipelining]
  simp only [if_neg (Nat.not_lt.mpr hlen)]
  clear hlen
  generalize strtok [124] commands = stages at hfile
  induction stages with
  | nil => rfl
  | cons stage stages ih =>
    have hstage : runStage exec s stage = s := by
      rw [runStage,hfile stage List.mem_cons_self]
    rw [List.foldl_cons,hstage]
    exact ih fun stage' h => hfile stage' (List.mem_cons_of_mem stage h)

theorem child_keeps_file {w : World} (n : Nat) :
    ∀ {s : Session} {p : Nat}, s.history.Sound →
      quiet w true n s.history (s.history.text p) = true →
      (execCommand w n s p).history.file = s.history.file := by
  induction n with
  | zero =>
    intro s p _ _
    rfl
  | succ n ih =>
    intro s p hs hq
    rw [quiet] at hq
    rw [execCommand]
    rcases ha : isArrow (s.history.text p) with _ | _
    case true =>
      simp only [ha,if_true] at hq ⊢
      rw [handleArrows]
      cases hl : lookUp s.history (s.history.text p) with
      | missing => rfl
      | null => rfl
      | entry r =>
        simp only [hl,Bool.and_eq_true,Bool.or_eq_true,decide_eq_true_eq,beq_iff_eq,Bool.not_true,
          Bool.false_and,Bool.false_eq_true,or_false] at hq ⊢
        obtain ⟨⟨hlen,hlast⟩,hq⟩ := hq
        have hfile : (s.history.enter (s.history.text r)).file = s.history.file := by
          rw [enter_of_repeated hs hlast]
          rfl
        rw [if_neg (Nat.not_lt.mpr hlen),ih (hs.enter _) (by rw [enter_text_new]; exact hq),hfile]
    case false =>
      have hfits : fits w (s.history.text p) = true := by
        cases hf : fits w (s.history.text p) with
        | true => rfl
        | false => simp [ha,hf] at hq
      simp only [ha,hfits,Bool.not_true,Bool.false_eq_true,if_false] at hq ⊢
      rcases Nat.eq_zero_or_pos (countPipes (s.history.text p)) with hc | hc
      · simp only [hc,lt_irrefl,if_false] at hq ⊢
        rw [runCommand]
        cases hparse : parse (s.history.text p) with
        | error e => rfl
        | ok parsed =>
          simp only [hparse,Bool.and_eq_true,beq_iff_eq] at hq
          exact hq.2
      · simp only [hc,if_true,Bool.and_eq_true,decide_eq_true_eq] at hq ⊢
        rw [handlePipelining_eq hq.1]
        intro stage hstage
        have hstage' := List.all_eq_true.mp hq.2 stage hstage
        apply ih (hs.alloc stage)
        rw [History.alloc_text_new]
        exact hstage'

structure Kept (retrieved : List Bytes) (s : Session) : Prop where
  sound : s.history.Sound
  texts : s.history.texts = recent maxStored (retrieved ++ s.entered)
  file : s.history.file = some (render newline s.history.texts)

structure Spared (p : Nat) (s t : Session) : Prop where
  pending : t.pending = s.pending
  status : t.status ≠ .outOfBounds ∧ t.status ≠ .stackOverflow
  buffers : s.history.buffers.length ≤ t.history.buffers.length
  texts : ∀ q < s.history.buffers.length, q ≠ p ∨ untouched (s.history.text p) = true →
    t.history.text q = s.history.text q

theorem Kept.enter {retrieved : List Bytes} {s : Session} (h : Kept retrieved s) (line : Bytes) :
    Kept retrieved { s with history := s.history.enter line, entered := s.entered ++ [line] } := by
  refine ⟨h.sound.enter line,?_,?_⟩
  · simp only [History.enter_texts h.sound,h.texts,remember_recent (show 0 < maxStored by decide),
      List.append_assoc]
  · apply History.addNewCommand_file
    rw [History.texts_alloc h.sound]
    exact h.file

theorem Kept.alloc {retrieved : List Bytes} {s : Session} (h : Kept retrieved s) (cmd : Bytes)
    (rest : List Bytes) :
    Kept retrieved { s with history := (s.history.alloc cmd).2, pending := rest } := by
  refine ⟨h.sound.alloc cmd,?_,?_⟩
  · simp only [History.texts_alloc h.sound,h.texts]
  · simp only [History.texts_alloc h.sound]
    exact h.file

theorem texts_write {h : History} {p : Nat} {s : Bytes} (hp : p < h.buffers.length)
    (hs : p ∈ h.commandHistory → s = h.text p) : (h.write p s).texts = h.texts := by
  apply List.map_congr_left
  intro q hq
  rcases eq_or_ne q p with rfl | hne
  · rw [History.write_text_self hp,hs hq]
  · exact History.write_text_ne hne s

theorem runCommand_keeps {retrieved : List Bytes} {w : World} {s : Session} {p : Nat}
    (h : Kept retrieved s) (hp : p < s.history.buffers.length)
    (hstored : p ∈ s.history.commandHistory → tokenised (s.history.text p) = s.history.text p)
    {parsed : Parsed} (hparse : parse (s.history.text p) = .ok parsed)
    (hfile : w.rewrites (s.history.text p) s.history.file = s.history.file) :
    Kept retrieved (runCommand w s p) := by
  have htexts := texts_write hp hstored
  have hrun : (runCommand w s p).history =
      { s.history.write p (tokenised (s.history.text p)) with file := s.history.file } := by
    rw [runCommand,hparse]
    change ({ s.history.write p _ with file := w.rewrites _ s.history.file } : History) = _
    rw [hfile]
  have hentered : (runCommand w s p).entered = s.entered := by
    rw [runCommand,hparse]
  refine ⟨?_,?_,?_⟩
  · rw [hrun]
    refine ⟨?_,h.sound.count,h.sound.exists_file⟩
    intro q hq
    change q < (s.history.buffers.set p _).length
    rw [List.length_set]
    exact h.sound.stored q hq
  · rw [hrun,hentered]
    exact htexts.trans h.texts
  · rw [hrun]
    exact h.file.trans (congrArg (fun ts => some (render newline ts)) htexts.symm)

theorem exec_keeps {retrieved : List Bytes} {w : World} (n : Nat) :
    ∀ {s : Session} {p : Nat}, Kept retrieved s → s.status = .running →
      p < s.history.buffers.length →
      (p ∈ s.history.commandHistory → untouched (s.history.text p) = true) →
      quiet w false n s.history (s.history.text p) = true →
      Kept retrieved (execCommand w n s p) ∧ Spared p s (execCommand w n s p) := by
  induction n with
  | zero =>
    intro s p _ _ _ _ hq
    cases hq
  | succ n ih =>
    intro s p hk hrun hp hstored hq
    have hself : Spared p s s :=
      ⟨rfl,by rw [hrun]; decide,le_rfl,fun q _ _ => rfl⟩
    rw [quiet] at hq
    rw [execCommand]
    rcases ha : isArrow (s.history.text p) with _ | _
    case true =>
      simp only [ha,if_true] at hq ⊢
      rw [handleArrows]
      cases hl : lookUp s.history (s.history.text p) with
      | missing => exact ⟨hk,hself⟩
      | null =>
        simp only [hl,decide_eq_true_eq] at hq
        simp only [if_pos hq]
        exact ⟨⟨hk.sound,hk.texts,hk.file⟩,⟨rfl,⟨by simp,by simp⟩,le_rfl,fun q _ _ => rfl⟩⟩
      | entry r =>
        simp only [hl,Bool.and_eq_true,Bool.or_eq_true,decide_eq_true_eq,beq_iff_eq,Bool.not_false,
          Bool.true_and] at hq ⊢
        obtain ⟨⟨hlen,hsafe⟩,hq⟩ := hq
        rw [if_neg (Nat.not_lt.mpr hlen)]
        have hnew := enter_text_new s.history (s.history.text r)
        have hlen' := enter_buffers s.history (s.history.text r)
        have hstored' : s.history.buffers.length ∈
            (s.history.enter (s.history.text r)).commandHistory →
              untouched (s.history.text r) = true := by
          intro hmem
          rcases hsafe with hlast | hsafe
          · rw [enter_of_repeated hk.sound hlast] at hmem
            exact absurd (hk.sound.stored _ hmem) (lt_irrefl _)
          · exact hsafe
        obtain ⟨hk',hs'⟩ := ih (p := s.history.buffers.length) (hk.enter (s.history.text r)) hrun
          (by simp only [hlen']; omega) (by simp only [hnew]; exact hstored')
          (by simp only [hnew]; exact hq)
        refine ⟨hk',hs'.pending,hs'.status,?_,?_⟩
        · have hle := hs'.buffers
          simp only [hlen'] at hle
          omega
        · intro q hq' _
          rw [hs'.texts q (by simp only [hlen']; omega) (.inl hq'.ne)]
          exact enter_text_of_lt hq' _
    case false =>
      have hfits : fits w (s.history.text p) = true := by
        cases hf : fits w (s.history.text p) with
        | true => rfl
        | false => simp [ha,hf] at hq
      simp only [ha,hfits,Bool.not_true,Bool.false_eq_true,if_false] at hq ⊢
      rcases Nat.eq_zero_or_pos (countPipes (s.history.text p)) with hc | hc
      · simp only [hc,lt_irrefl,if_false] at hq ⊢
        cases hparse : parse (s.history.text p) with
        | error e =>
          simp only [hparse] at hq
          cases hq
        | ok parsed =>
          simp only [hparse,Bool.and_eq_true,Bool.not_eq_true',bne_iff_ne,beq_iff_eq] at hq
          obtain ⟨⟨hstray,hfinish⟩,hfile⟩ := hq
          have htok : untouched (s.history.text p) = true →
              tokenised (s.history.text p) = s.history.text p := by
            intro hu
            simpa [untouched,ha,hc] using hu
          refine ⟨runCommand_keeps hk hp (fun h => htok (hstored h)) hparse hfile,?_⟩
          rw [runCommand,hparse]
          simp only [hstray,Bool.false_eq_true,if_false]
          refine ⟨rfl,⟨hfinish,?_⟩,?_,?_⟩
          · simp only [finish]
            repeat' split
            all_goals simp
          · change _ ≤ (s.history.buffers.set p _).length
            rw [List.length_set]
          · intro q hq' hor
            change (s.history.write p _).text q = _
            rcases eq_or_ne q p with rfl | hne
            · rcases hor with hor | hor
              · exact absurd rfl hor
              · rw [History.write_text_self hp,htok hor]
            · exact History.write_text_ne hne _
      · simp only [hc,if_true,Bool.and_eq_true,decide_eq_true_eq] at hq ⊢
        rw [handlePipelining_eq hq.1]
        · exact ⟨hk,hself⟩
        · intro stage hstage
          apply child_keeps_file n (hk.sound.alloc stage)
          rw [History.alloc_text_new]
          exact List.all_eq_true.mp hq.2 stage hstage

theorem cstring_of_noNul {line : Bytes} (h : 0 ∉ line) : cstring line = line := by
  rw [cstring,List.takeWhile_eq_self_iff]
  intro c hc
  rw [decide_eq_true_eq]
  rintro rfl
  exact h hc

structure Good (retrieved : List Bytes) (s : Session) : Prop extends Kept retrieved s where
  status : s.status ≠ .outOfBounds ∧ s.status ≠ .stackOverflow

theorem takeInput_keeps {retrieved : List Bytes} {s : Session} {line : Bytes}
    (h : Good retrieved s) (hlen : line.length < 100) (hnul : 0 ∉ line) :
    Good retrieved (takeInput s line) ∧
      ∀ q < s.history.buffers.length, (takeInput s line).history.text q = s.history.text q := by
  rw [takeInput,if_neg (Nat.not_le.mpr hlen),cstring_of_noNul hnul]
  split
  · exact ⟨h,fun _ _ => rfl⟩
  · simp only []
    split
    · exact ⟨⟨⟨h.sound,h.texts,h.file⟩,h.status⟩,fun _ _ => rfl⟩
    · have hk := h.toKept.enter line
      exact ⟨⟨⟨hk.sound,hk.texts,hk.file⟩,h.status⟩,fun q hq => enter_text_of_lt hq line⟩

theorem step_keeps {retrieved : List Bytes} {depth : Nat} {s t : Session} {a : Act}
    (h : Good retrieved s) (ha : Harmless depth s a) (hst : step depth s a = .ok t) :
    Good retrieved t ∧
      ∀ q < s.history.buffers.length, t.history.text q = s.history.text q := by
  cases a with
  | enter line =>
    rw [step] at hst
    split at hst
    · cases hst
      exact takeInput_keeps h ha.1 ha.2
    · cases hst
  | exec w =>
    rw [step] at hst
    split at hst
    · next cmd rest hrun hp =>
      cases hst
      rw [Harmless,hp] at ha
      have hnew := History.alloc_text_new s.history cmd
      have hlen := History.alloc_buffers s.history cmd
      obtain ⟨hk,hs⟩ := exec_keeps (w := w) (p := s.history.buffers.length) depth
        (h.toKept.alloc cmd rest) hrun (by simp only [hlen]; omega)
        (fun hm => absurd (h.sound.stored _ hm) (lt_irrefl _))
        (by simp only [hnew]; exact ha)
      refine ⟨⟨hk,hs.status⟩,?_⟩
      intro q hq
      rw [hs.texts q (by simp only [hlen]; omega) (.inl hq.ne)]
      exact History.alloc_text_of_lt hq cmd
    · cases hst

structure Started (file : Bytes) (h : History) : Prop where
  retrieved : History.retrieveStored ⟨[],[],some file⟩ = .ok h
  written : file = render newline h.texts
  collapsed : h.texts.IsChain (· ≠ ·)

theorem retrieveStored_sound {h h' : History} (hs : h.buffers = [])
    (hr : History.retrieveStored h = .ok h') : h'.Sound ∧ h'.file = some (h.file.getD []) := by
  simp only [History.retrieveStored] at hr
  split at hr
  · cases hr
  · split at hr
    · cases hr
    · next hcount =>
      cases hr
      refine ⟨⟨?_,?_,rfl⟩,rfl⟩
      · intro p hp
        rw [List.mem_range'] at hp
        obtain ⟨i,hi,rfl⟩ := hp
        simp only [hs,List.length_nil,List.nil_append]
        omega
      · rw [History.storedCount,List.length_range']
        exact Nat.not_lt.mp hcount

theorem good_init {file : Bytes} {h : History} (hs : Started file h) (depth : Nat) :
    Good h.texts (shell depth h).init := by
  obtain ⟨hsound,hfile⟩ := retrieveStored_sound rfl hs.retrieved
  have hcount : h.texts.length ≤ maxStored := by
    rw [← History.storedCount_eq]
    exact hsound.count
  refine ⟨⟨hsound,?_,?_⟩,⟨by simp [shell],by simp [shell]⟩⟩
  · simp only [shell,List.append_nil]
    exact (recent_eq_self hcount hs.collapsed).symm
  · exact hfile.trans (congrArg some hs.written)

def usableSize (n : Nat) : Nat := max 24 ((n + 23) / 16 * 16 - 8)

def plainWorld : World where
  opens _ _ := true
  scandir _ := some 3
  rewrites _ file := file
  strays _ := false
  usable := usableSize
  enough := by
    intro n
    unfold usableSize
    omega

def up (n : Nat) : Bytes := (List.replicate n [esc,91,65]).flatten

def fresh : History := { buffers := [], commandHistory := [], file := some [] }

def recallRun (first : Bytes) : List Act :=
  [.enter first,.exec plainWorld,.enter (ascii ['p','w','d']),.exec plainWorld,
    .enter (up 2),.exec plainWorld]

end Session
end Shell
