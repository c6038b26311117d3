import Mathlib.Tactic
import OscAssignments.Lib.Runs
import OscAssignments.Lib.Tokens
import OscAssignments.Lib.Recent

namespace Shell
open Tokens Recent

abbrev Bytes := List UInt8

def ascii (cs : List Char) : Bytes := cs.map fun c => UInt8.ofNat c.toNat

def isspace (c : UInt8) : Bool := c == 32 || (9 ≤ c && c ≤ 13)

def newline : UInt8 := 10

def strtok (delims : Bytes) (s : Bytes) : List Bytes := tokens (delims.contains ·) s

def trim (s : Bytes) : Bytes := Tokens.trim isspace s

def cstring (buf : Bytes) : Bytes := buf.takeWhile (· ≠ 0)

inductive Fault
  | outOfBounds
  deriving DecidableEq, Repr

def maxStored : Nat := 20

structure History where
  buffers : List Bytes
  commandHistory : List Nat
  file : Option Bytes
  deriving DecidableEq

namespace History

def text (h : History) (p : Nat) : Bytes := h.buffers[p]?.getD []

def texts (h : History) : List Bytes := h.commandHistory.map h.text

def storedCount (h : History) : Nat := h.commandHistory.length

def alloc (h : History) (s : Bytes) : Nat × History :=
  (h.buffers.length,{ h with buffers := h.buffers ++ [s] })

def writeStored (h : History) : History :=
  match h.file with
  | none => h
  | some _ => { h with file := some (render newline h.texts) }

def addNewCommand (h : History) (cmd : Nat) : History :=
  if h.texts.getLast? = some (h.text cmd) then h
  else if h.storedCount < maxStored then
    writeStored { h with commandHistory := h.commandHistory ++ [cmd] }
  else writeStored { h with commandHistory := h.commandHistory.tail ++ [cmd] }

def readBuf (file : Bytes) : Bytes := file.take 1000 ++ List.replicate (1000 - file.length) 0

def entries (s : Bytes) : List Bytes := ((strtok [newline] s).map trim).filter fun t => !t.isEmpty

def retrieveStored (h : History) : Except Fault History :=
  let file := h.file.getD []
  let buf := readBuf file
  if 0 ∉ buf then .error .outOfBounds
  else
    let found := entries (cstring buf)
    if maxStored < found.length then .error .outOfBounds
    else .ok
      { buffers := h.buffers ++ found
        commandHistory := List.range' h.buffers.length found.length
        file := some file }

def restart (h : History) : History := { buffers := [], commandHistory := [], file := h.file }

structure Sound (h : History) : Prop where
  stored : ∀ p ∈ h.commandHistory, p < h.buffers.length
  count : h.storedCount ≤ maxStored
  exists_file : h.file.isSome = true

theorem text_of_append {h : History} {p : Nat} (hp : p < h.buffers.length) (bs : List Bytes) :
    ({ h with buffers := h.buffers ++ bs } : History).text p = h.text p := by
  rw [text,text,List.getElem?_append_left hp]

theorem writeStored_cases (h : History) :
    h.file = none ∧ h.writeStored = h ∨
      h.file.isSome = true ∧ h.writeStored = { h with file := some (render newline h.texts) } := by
  rw [writeStored]
  split
  · next hno => exact .inl ⟨hno,rfl⟩
  · next hsome => exact .inr ⟨Option.isSome_of_eq_some hsome,rfl⟩

@[simp] theorem writeStored_texts (h : History) : h.writeStored.texts = h.texts := by
  rcases h.writeStored_cases with ⟨-,he⟩ | ⟨-,he⟩
  · rw [he]
  · rw [he]
    rfl

@[simp] theorem writeStored_commandHistory (h : History) :
    h.writeStored.commandHistory = h.commandHistory := by
  rcases h.writeStored_cases with ⟨-,he⟩ | ⟨-,he⟩
  · rw [he]
  · rw [he]

@[simp] theorem writeStored_buffers (h : History) : h.writeStored.buffers = h.buffers := by
  rcases h.writeStored_cases with ⟨-,he⟩ | ⟨-,he⟩
  · rw [he]
  · rw [he]

theorem writeStored_file {h : History} (hf : h.file.isSome = true) :
    h.writeStored.file = some (render newline h.texts) := by
  rcases h.writeStored_cases with ⟨hno,-⟩ | ⟨-,he⟩
  · rw [hno] at hf
    cases hf
  · rw [he]

def kept (h : History) : List Nat :=
  if h.storedCount < maxStored then h.commandHistory else h.commandHistory.tail

theorem addNewCommand_cases (h : History) (p : Nat) :
    h.texts.getLast? = some (h.text p) ∧ h.addNewCommand p = h ∨
      h.texts.getLast? ≠ some (h.text p) ∧
        h.addNewCommand p = writeStored { h with commandHistory := h.kept ++ [p] } := by
  rw [addNewCommand,kept]
  split
  · next hlast => exact .inl ⟨hlast,rfl⟩
  · next hlast =>
    split
    · exact .inr ⟨hlast,rfl⟩
    · exact .inr ⟨hlast,rfl⟩

@[simp] theorem addNewCommand_buffers (h : History) (p : Nat) :
    (h.addNewCommand p).buffers = h.buffers := by
  rcases h.addNewCommand_cases p with ⟨-,he⟩ | ⟨-,he⟩
  · rw [he]
  · rw [he,writeStored_buffers]

theorem addNewCommand_text (h : History) (p q : Nat) : (h.addNewCommand p).text q = h.text q := by
  rw [text,text,addNewCommand_buffers]

theorem storedCount_eq (h : History) : h.storedCount = h.texts.length := (List.length_map _).symm

theorem addNewCommand_texts (h : History) (p : Nat) :
    (h.addNewCommand p).texts = remember maxStored h.texts (h.text p) := by
  rw [remember,← storedCount_eq]
  rcases h.addNewCommand_cases p with ⟨hlast,he⟩ | ⟨hlast,he⟩
  · rw [he,if_pos hlast]
  · rw [he,if_neg hlast,writeStored_texts]
    change (h.kept ++ [p]).map h.text = _
    rw [List.map_append,kept]
    split
    · rfl
    · rw [List.map_tail]
      rfl

theorem mem_addNewCommand {h : History} {p q : Nat}
    (hq : q ∈ (h.addNewCommand p).commandHistory) : q ∈ h.commandHistory ∨ q = p := by
  rcases h.addNewCommand_cases p with ⟨-,he⟩ | ⟨-,he⟩
  · rw [he] at hq
    exact .inl hq
  · rw [he,writeStored_commandHistory] at hq
    rcases List.mem_append.mp hq with hq | hq
    · rw [kept] at hq
      split at hq
      · exact .inl hq
      · exact .inl (List.mem_of_mem_tail hq)
    · exact .inr (List.mem_singleton.mp hq)

theorem addNewCommand_file_isSome {h : History} (hf : h.file.isSome = true) (p : Nat) :
    (h.addNewCommand p).file.isSome = true := by
  rcases h.addNewCommand_cases p with ⟨-,he⟩ | ⟨-,he⟩
  · rw [he]
    exact hf
  · rw [he]
    exact Option.isSome_of_eq_some (writeStored_file hf)

theorem addNewCommand_file {h : History} (hf : h.file = some (render newline h.texts)) (p : Nat) :
    (h.addNewCommand p).file = some (render newline (h.addNewCommand p).texts) := by
  rcases h.addNewCommand_cases p with ⟨-,he⟩ | ⟨-,he⟩
  · rw [he]
    exact hf
  · rw [he,writeStored_texts]
    exact writeStored_file (Option.isSome_of_eq_some hf)

theorem Sound.addNewCommand {h : History} (hs : h.Sound) {p : Nat} (hp : p < h.buffers.length) :
    (h.addNewCommand p).Sound := by
  refine ⟨?_,?_,addNewCommand_file_isSome hs.exists_file p⟩
  · intro q hq
    rw [addNewCommand_buffers]
    rcases mem_addNewCommand hq with hq | rfl
    · exact hs.stored q hq
    · exact hp
  · rw [storedCount_eq,addNewCommand_texts]
    exact length_remember_le (by decide) (by rw [← storedCount_eq]; exact hs.count) _

theorem texts_alloc {h : History} (hs : h.Sound) (s : Bytes) : (h.alloc s).2.texts = h.texts := by
  apply List.map_congr_left
  intro p hp
  exact text_of_append (hs.stored p hp) [s]

theorem text_alloc (h : History) (s : Bytes) : (h.alloc s).2.text (h.alloc s).1 = s := by
  rw [alloc,text,List.getElem?_append_right le_rfl,Nat.sub_self]
  rfl

theorem alloc_text_new (h : History) (s : Bytes) : (h.alloc s).2.text h.buffers.length = s :=
  text_alloc h s

theorem alloc_buffers (h : History) (s : Bytes) :
    (h.alloc s).2.buffers.length = h.buffers.length + 1 :=
  List.length_append

theorem Sound.alloc {h : History} (hs : h.Sound) (s : Bytes) : (h.alloc s).2.Sound := by
  refine ⟨?_,hs.count,hs.exists_file⟩
  intro p hp
  have hlt := hs.stored p hp
  rw [alloc_buffers]
  omega

def enter (h : History) (line : Bytes) : History := (h.alloc line).2.addNewCommand (h.alloc line).1

theorem Sound.enter {h : History} (hs : h.Sound) (line : Bytes) : (h.enter line).Sound := by
  apply (hs.alloc line).addNewCommand
  simp [History.alloc]

theorem enter_texts {h : History} (hs : h.Sound) (line : Bytes) :
    (h.enter line).texts = remember maxStored h.texts line := by
  rw [History.enter,addNewCommand_texts,texts_alloc hs,text_alloc]

end History

structure Line where
  bytes : Bytes
  nonempty : bytes ≠ []
  noNewline : newline ∉ bytes
  noNul : 0 ∉ bytes
  first : isspace (bytes.head nonempty) = false
  last : isspace (bytes.getLast nonempty) = false
  short : bytes.length < 100

namespace History

def opened (file : Bytes) : History := { buffers := [], commandHistory := [], file := some file }

def typed (file : Bytes) (lines : List Line) : History :=
  lines.foldl (fun h l => h.enter l.bytes) (opened file)

theorem typed_sound (file : Bytes) (lines : List Line) :
    (typed file lines).Sound ∧ ∀ t ∈ (typed file lines).texts, ∃ l : Line, l.bytes = t := by
  induction lines using List.reverseRecOn with
  | nil => exact ⟨⟨nofun,Nat.zero_le _,rfl⟩,nofun⟩
  | append_singleton lines l ih =>
    obtain ⟨hs,ht⟩ := ih
    have hnext : typed file (lines ++ [l]) = (typed file lines).enter l.bytes := List.foldl_concat ..
    rw [hnext]
    refine ⟨hs.enter l.bytes,?_⟩
    intro t hmem
    rw [enter_texts hs] at hmem
    rcases mem_remember hmem with hmem | rfl
    · exact ht t hmem
    · exact ⟨l,rfl⟩

theorem readBuf_short {file : Bytes} (hlen : file.length < 1000) :
    readBuf file = file ++ 0 :: List.replicate (999 - file.length) 0 := by
  rw [readBuf,List.take_of_length_le hlen.le,
    show 1000 - file.length = (999 - file.length) + 1 by omega,List.replicate_succ]

theorem cstring_of_noNul {s : Bytes} (hs : 0 ∉ s) (rest : Bytes) :
    cstring (s ++ 0 :: rest) = s := by
  rw [cstring,List.takeWhile_append_of_pos]
  · simp
  · intro c hc
    rw [decide_eq_true_eq]
    rintro rfl
    exact hs hc

theorem nul_mem_readBuf_iff {file : Bytes} (hf : 0 ∉ file) :
    0 ∈ readBuf file ↔ file.length < 1000 := by
  constructor
  · intro h
    rcases List.mem_append.mp h with h | h
    · exact absurd (List.mem_of_mem_take h) hf
    · rw [List.mem_replicate] at h
      omega
  · intro h
    rw [readBuf_short h]
    simp

theorem noNul_render {ts : List Bytes} (h : ∀ t ∈ ts, ∃ l : Line, l.bytes = t) :
    0 ∉ render newline ts := by
  intro hmem
  obtain ⟨t,ht,hmem⟩ := List.mem_flatMap.mp hmem
  obtain ⟨l,rfl⟩ := h t ht
  rcases List.mem_append.mp hmem with hmem | hmem
  · exact l.noNul hmem
  · exact absurd (List.mem_singleton.mp hmem) (by decide)

theorem trim_line (l : Line) : trim l.bytes = l.bytes :=
  trim_eq_self l.nonempty l.first l.last

theorem entries_render {ts : List Bytes} (h : ∀ t ∈ ts, ∃ l : Line, l.bytes = t) :
    entries (render newline ts) = ts := by
  have htok : strtok [newline] (render newline ts) = ts := by
    apply tokens_render (by decide)
    intro t ht
    obtain ⟨l,rfl⟩ := h t ht
    refine ⟨l.nonempty,?_⟩
    intro c hc
    rw [List.contains_eq_mem,decide_eq_false_iff_not,List.mem_singleton]
    rintro rfl
    exact l.noNewline hc
  have htrim : ts.map trim = ts := by
    rw [← List.map_id ts,List.map_map]
    apply List.map_congr_left
    intro t ht
    obtain ⟨l,rfl⟩ := h t ht
    exact trim_line l
  rw [entries,htok,htrim,List.filter_eq_self]
  intro t ht
  obtain ⟨l,rfl⟩ := h t ht
  simp [l.nonempty]

theorem texts_range' (found : List Bytes) (file : Option Bytes) :
    History.texts ⟨found,List.range' 0 found.length,file⟩ = found := by
  apply List.ext_getElem?
  intro i
  rw [texts,List.getElem?_map]
  rcases Nat.lt_or_ge i found.length with hi | hi
  · rw [List.getElem?_range' hi,List.getElem?_eq_getElem hi]
    simp [text,List.getElem?_eq_getElem hi]
  · rw [List.getElem?_eq_none (by simpa using hi),List.getElem?_eq_none hi]
    rfl

theorem retrieveStored_render {ts : List Bytes} (h : ∀ t ∈ ts, ∃ l : Line, l.bytes = t)
    (hcount : ts.length ≤ maxStored) (hlen : (render newline ts).length < 1000) :
    retrieveStored ⟨[],[],some (render newline ts)⟩ =
      .ok ⟨ts,List.range' 0 ts.length,some (render newline ts)⟩ := by
  have hnul := (nul_mem_readBuf_iff (noNul_render h)).mpr hlen
  have hstr : cstring (readBuf (render newline ts)) = render newline ts := by
    rw [readBuf_short hlen,cstring_of_noNul (noNul_render h)]
  simp only [retrieveStored,Option.getD_some,hnul,not_true_eq_false,if_false,hstr,
    entries_render h,if_neg (Nat.not_lt.mpr hcount),List.nil_append,List.length_nil]

theorem retrieveStored_long {ts : List Bytes} (h : ∀ t ∈ ts, ∃ l : Line, l.bytes = t)
    (hlen : 1000 ≤ (render newline ts).length) :
    retrieveStored ⟨[],[],some (render newline ts)⟩ = .error .outOfBounds := by
  have hnul : 0 ∉ readBuf (render newline ts) := by
    rw [nul_mem_readBuf_iff (noNul_render h)]
    omega
  rw [retrieveStored,Option.getD_some,if_pos hnul]

theorem restart_restores_iff (file : Bytes) (lines : List Line) :
    (retrieveStored (restart (writeStored (typed file lines)))).map History.texts =
        .ok (typed file lines).texts ↔
      ((typed file lines).texts.map fun t => t.length + 1).sum < 1000 := by
  obtain ⟨hs,hlines⟩ := typed_sound file lines
  have hcount : (typed file lines).texts.length ≤ maxStored := by
    rw [← storedCount_eq]
    exact hs.count
  rw [← length_render newline,restart,writeStored_file hs.exists_file]
  constructor
  · intro h
    rcases Nat.lt_or_ge (render newline (typed file lines).texts).length 1000 with hlt | hge
    · exact hlt
    · rw [retrieveStored_long hlines hge] at h
      cases h
  · intro hshort
    rw [retrieveStored_render hlines hcount hshort]
    exact congrArg Except.ok (texts_range' _ _)

def longLine (c : UInt8) (hc : c = 97 ∨ c = 98) : Line where
  bytes := List.replicate 99 c
  nonempty := by simp
  noNewline := by rcases hc with rfl | rfl <;> decide
  noNul := by rcases hc with rfl | rfl <;> decide
  first := by rcases hc with rfl | rfl <;> decide
  last := by rcases hc with rfl | rfl <;> decide
  short := by simp

def longLines : List Line :=
  (List.replicate 6 [longLine 97 (.inl rfl),longLine 98 (.inr rfl)]).flatten

theorem restart_loses_long_lines :
    (retrieveStored (restart (writeStored (typed [] longLines)))).map History.texts ≠
      .ok (typed [] longLines).texts := by
  have hlong : (retrieveStored (restart (writeStored (typed [] longLines)))).toBool = false := by
    decide +kernel
  intro h
  cases hr : retrieveStored (restart (writeStored (typed [] longLines))) with
  | error e =>
    rw [hr] at h
    cases h
  | ok t =>
    rw [hr] at hlong
    cases hlong

end History
end Shell
