import Mathlib.Tactic
import OscAssignments.Lib.CString
import OscAssignments.Lib.Runs
import OscAssignments.Shell.Recall

namespace Shell.Line
open Runs Tokens CString

def getchar : Bytes → UInt8 × Bytes
  | [] => (255,[])
  | c :: rest => (c,rest)

def readLoop : Nat → Nat → Buffer → Bytes → Except Fault (Nat × Buffer × Bytes)
  | 0, len, s, stream =>
    let (c,stream) := getchar stream
    if c = newline then .ok (len,s,stream) else .error .outOfBounds
  | room + 1, len, s, stream =>
    let (c,stream) := getchar stream
    if c = newline then .ok (len,s,stream) else readLoop room (len + 1) (s.set len c) stream

def storeCommand (s : Buffer) (ptr : Nat) : List Nat × Buffer :=
  let (actual,s) := trimAt isspace s ptr
  (if text s actual = [] then [] else [actual],s)

def tokenizeCommands (s : Buffer) : List Nat × Buffer :=
  strtokLoop ([59].contains ·) storeCommand s.length s 0

def takeInput (stream : Bytes) : Except Fault (List Nat × Buffer × Bytes) := do
  let (len,s,stream) ← readLoop 100 0 (List.replicate 100 0) stream
  if len = 0 then .ok ([],s,stream)
  else if 0 ∉ s then .error .outOfBounds
  else
    let (commands,s) := tokenizeCommands s
    if 125 < commands.length then .error .outOfBounds else .ok (commands,s,stream)

def lineOf (stream : Bytes) : Bytes := stream.takeWhile (· ≠ newline)

def padded (line : Bytes) : Buffer := line ++ List.replicate (100 - line.length) 0

theorem padded_set {line : Bytes} (h : line.length < 100) (c : UInt8) :
    (padded line).set line.length c = padded (line ++ [c]) := by
  have hpad : List.replicate (100 - line.length) (0 : UInt8) =
      0 :: List.replicate (100 - (line ++ [c]).length) 0 := by
    rw [← List.replicate_succ,List.length_append,List.length_singleton]
    congr 1
    omega
  rw [padded,hpad,padded,List.set_append_right _ _ le_rfl,Nat.sub_self,List.set_cons_zero,
    List.append_assoc]
  rfl

theorem readLoop_cons {room len : Nat} {s : Buffer} {c : UInt8} {stream : Bytes}
    (hc : c ≠ newline) :
    readLoop (room + 1) len s (c :: stream) = readLoop room (len + 1) (s.set len c) stream := by
  rw [readLoop]
  exact if_neg hc

theorem readLoop_full {len : Nat} {s : Buffer} {c : UInt8} {stream : Bytes} (hc : c ≠ newline) :
    readLoop 0 len s (c :: stream) = .error .outOfBounds := by
  rw [readLoop]
  exact if_neg hc

theorem readLoop_line (room : Nat) :
    ∀ (done line rest : Bytes), done.length + room = 100 → newline ∉ line →
      readLoop room done.length (padded done) (line ++ newline :: rest) =
        if line.length ≤ room then .ok (done.length + line.length,padded (done ++ line),rest)
        else .error .outOfBounds := by
  induction room with
  | zero =>
    intro done line rest _ hline
    cases line with
    | nil => simp [readLoop,getchar]
    | cons c line =>
      have hc : c ≠ newline := fun he => hline (he ▸ List.mem_cons_self)
      rw [List.cons_append,readLoop_full hc,if_neg (by simp)]
  | succ room ih =>
    intro done line rest hroom hline
    cases line with
    | nil => simp [readLoop,getchar]
    | cons c line =>
      have hc : c ≠ newline := fun he => hline (he ▸ List.mem_cons_self)
      have hnext := ih (done ++ [c]) line rest
        (by rw [List.length_append,List.length_singleton]; omega)
        (fun hm => hline (List.mem_cons_of_mem c hm))
      rw [List.length_append,List.length_singleton,List.append_assoc] at hnext
      rw [List.cons_append,readLoop_cons hc,padded_set (by omega),hnext,List.length_cons]
      simp only [Nat.add_le_add_iff_right,List.singleton_append]
      rw [show done.length + 1 + line.length = done.length + (line.length + 1) by omega]

theorem readLoop_eof (room : Nat) :
    ∀ {len : Nat} {s : Buffer} {stream : Bytes}, newline ∉ stream →
      readLoop room len s stream = .error .outOfBounds := by
  induction room with
  | zero =>
    intro len s stream h
    cases stream with
    | nil => rfl
    | cons c stream =>
      exact readLoop_full fun he => h (he ▸ List.mem_cons_self)
  | succ room ih =>
    intro len s stream h
    cases stream with
    | nil =>
      rw [readLoop]
      exact ih h
    | cons c stream =>
      rw [readLoop_cons fun he => h (he ▸ List.mem_cons_self)]
      exact ih fun hm => h (List.mem_cons_of_mem c hm)

def storedCommand (x : Nat × Bytes) : List (Nat × Bytes) :=
  if trim x.2 = [] then [] else [(x.1 + (x.2.takeWhile isspace).length,trim x.2)]

theorem trim_length_le (s : Bytes) : (s.takeWhile isspace).length + (trim s).length ≤ s.length := by
  have hsplit := congrArg List.length (List.takeWhile_append_dropWhile (p := isspace) (l := s))
  have hle := (List.rdropWhile_prefix isspace (s.dropWhile isspace)).length_le
  rw [List.length_append] at hsplit
  rw [trim,Tokens.trim]
  omega

theorem visits_storeCommand : Visits storeCommand storedCommand := by
  intro m p w h _
  obtain ⟨m',htrim,hw,hholds⟩ := trimAt_spec isspace h
  have hle := trim_length_le w
  rw [storeCommand,storedCommand]
  simp only [htrim,hholds.text_eq]
  rcases eq_or_ne (trim w) [] with hnil | hne
  · rw [if_pos hnil,if_pos (show Tokens.trim isspace w = [] from hnil)]
    exact ⟨m',rfl,hw,.nil _ _ _⟩
  · rw [if_neg hne,if_neg (show Tokens.trim isspace w ≠ [] from hne)]
    refine ⟨m',rfl,hw,?_,?_,List.pairwise_singleton _ _⟩
    · intro x hx
      rw [List.mem_singleton.mp hx]
      exact hholds
    · intro x hx
      rw [List.mem_singleton.mp hx]
      simp only
      omega

def commandSpans (line : Bytes) : List (Nat × Bytes) :=
  (spans ([59].contains ·) 100 0 line).flatMap storedCommand

theorem commandSpans_texts {line : Bytes} (h : line.length < 100) :
    (commandSpans line).map Prod.snd = Shell.tokenizeCommands line := by
  rw [Shell.tokenizeCommands,strtok,← spans_texts (p := 0) 100 h,commandSpans]
  generalize spans ([59].contains ·) 100 0 line = l
  induction l with
  | nil => rfl
  | cons x l ih =>
    rw [List.flatMap_cons,List.map_append,ih,List.map_cons,List.map_cons,List.filter_cons,
      storedCommand]
    rcases eq_or_ne (trim x.2) [] with hnil | hne
    · rw [if_pos hnil,hnil]
      rfl
    · rw [if_neg hne,if_pos (by simpa using hne)]
      rfl

theorem commandSpans_ne_nil {line : Bytes} {x : Nat × Bytes} (h : x ∈ commandSpans line) :
    x.2 ≠ [] := by
  obtain ⟨y,-,hx⟩ := List.mem_flatMap.mp h
  rw [storedCommand] at hx
  split at hx
  · cases hx
  · next hne =>
    rw [List.mem_singleton.mp hx]
    exact hne

theorem padded_length {line : Bytes} (h : line.length ≤ 100) : (padded line).length = 100 := by
  rw [padded,List.length_append,List.length_replicate]
  omega

theorem cstring_padded (line : Bytes) : cstring (padded line) = cstring line := by
  rw [padded,cstring,cstring]
  generalize 100 - line.length = n
  induction line with
  | nil =>
    cases n with
    | zero => rfl
    | succ n => simp [List.replicate_succ]
  | cons c line ih => rw [List.cons_append,List.takeWhile_cons,List.takeWhile_cons,ih]

theorem padded_holds {line : Bytes} (h : 0 ∈ padded line) : Holds (padded line) 0 (cstring line) := by
  obtain ⟨rest,hrest⟩ := exists_takeWhile_append h
  rw [← cstring_padded line]
  exact .of_drop rest (notMem_takeWhile 0 _) hrest

theorem zero_mem_padded {line : Bytes} (h : line.length < 100) : 0 ∈ padded line := by
  rw [padded,List.mem_append,List.mem_replicate]
  exact .inr ⟨by omega,rfl⟩

theorem tokenizeCommands_spec {line : Bytes} (h : line.length ≤ 100) (hnul : 0 ∈ padded line) :
    ∃ m', tokenizeCommands (padded line) = ((commandSpans (cstring line)).map Prod.fst,m') ∧
      m'.length = 100 ∧ Laid m' 0 99 (commandSpans (cstring line)) := by
  have hholds := padded_holds hnul
  have hlt := hholds.lt_length
  obtain ⟨m',hloop,hw,hlaid⟩ := strtokLoop_spec (d := ([59].contains ·)) (by decide)
    visits_storeCommand 100 hholds
  rw [padded_length h] at hlt
  refine ⟨m',?_,hw.length.trans (padded_length h),hlaid.mono le_rfl (by omega)⟩
  rw [tokenizeCommands,padded_length h]
  exact hloop

theorem takeInput_line {line : Bytes} (hline : newline ∉ line) (hlen : line.length ≤ 100)
    (hnul : 0 ∈ padded line) (rest : Bytes) :
    ∃ s, takeInput (line ++ newline :: rest) =
        .ok ((commandSpans (cstring line)).map Prod.fst,s,rest) ∧
      s.length = 100 ∧ Laid s 0 99 (commandSpans (cstring line)) := by
  have hread := readLoop_line 100 [] line rest rfl hline
  rw [if_pos hlen,List.length_nil,Nat.zero_add,List.nil_append] at hread
  obtain ⟨s,htokenize,hs,hlaid⟩ := tokenizeCommands_spec hlen hnul
  have hcount := hlaid.length_le (fun x hx => commandSpans_ne_nil hx) (Nat.zero_le _)
  have htake : takeInput (line ++ newline :: rest) =
      if line.length = 0 then .ok ([],padded line,rest)
      else if 0 ∉ padded line then .error .outOfBounds
      else if 125 < ((commandSpans (cstring line)).map Prod.fst).length then .error .outOfBounds
      else .ok ((commandSpans (cstring line)).map Prod.fst,s,rest) := by
    rw [takeInput]
    change readLoop 100 0 (padded []) (line ++ newline :: rest) >>= _ = _
    rw [hread,ok_bind]
    simp only [htokenize]
  rcases Nat.eq_zero_or_pos line.length with h0 | h0
  · rw [List.length_eq_zero_iff] at h0
    subst h0
    exact ⟨padded [],by rw [htake]; rfl,rfl,.nil _ _ _⟩
  · refine ⟨s,?_,hs,hlaid⟩
    rw [htake,if_neg (by omega),if_neg (by simpa using hnul),
      if_neg (by rw [List.length_map]; omega)]

theorem takeInput_long {line : Bytes} (hline : newline ∉ line)
    (h : 100 < line.length ∨ 0 ∉ padded line) (rest : Bytes) :
    takeInput (line ++ newline :: rest) = .error .outOfBounds := by
  have hread := readLoop_line 100 [] line rest rfl hline
  rw [List.length_nil,Nat.zero_add,List.nil_append] at hread
  rw [takeInput]
  change readLoop 100 0 (padded []) (line ++ newline :: rest) >>= _ = _
  rcases le_or_gt line.length 100 with hlen | hover
  · have hnul := h.resolve_left (by omega)
    have hpos : line.length ≠ 0 := fun h0 => hnul (zero_mem_padded (by omega))
    rw [hread,if_pos hlen,ok_bind]
    simp only
    rw [if_neg hpos,if_pos hnul]
  · rw [hread,if_neg (by omega)]
    rfl

theorem takeInput_eof {stream : Bytes} (h : newline ∉ stream) :
    takeInput stream = .error .outOfBounds := by
  rw [takeInput,readLoop_eof 100 h]
  rfl

theorem stream_eq {stream : Bytes} (h : newline ∈ stream) :
    ∃ rest, stream = lineOf stream ++ newline :: rest :=
  exists_takeWhile_append h

theorem newline_notMem_lineOf (stream : Bytes) : newline ∉ lineOf stream :=
  notMem_takeWhile newline stream

theorem takeInput_ok {stream : Bytes} {commands : List Nat} {s : Buffer} {rest : Bytes}
    (h : takeInput stream = .ok (commands,s,rest)) :
    s.length = 100 ∧ ∃ l, commands = l.map Prod.fst ∧ Laid s 0 99 l ∧ ∀ x ∈ l, x.2 ≠ [] := by
  have hmem : newline ∈ stream := by
    by_contra hno
    rw [takeInput_eof hno] at h
    cases h
  obtain ⟨after,hstream⟩ := stream_eq hmem
  have hline := newline_notMem_lineOf stream
  have hfits : (lineOf stream).length ≤ 100 ∧ 0 ∈ padded (lineOf stream) := by
    by_contra hno
    rw [hstream,takeInput_long hline ((not_and_or.mp hno).imp_left not_le.mp) after] at h
    cases h
  obtain ⟨s',hrun,hs,hlaid⟩ := takeInput_line hline hfits.1 hfits.2 after
  rw [hstream,hrun] at h
  cases h
  exact ⟨hs,_,rfl,hlaid,fun x hx => commandSpans_ne_nil hx⟩

theorem takeInput_pending {line : Bytes} (hline : newline ∉ line) (hlen : line.length < 100)
    (rest : Bytes) {session : Session} (hidle : session.pending = []) :
    ∃ commands s, takeInput (line ++ newline :: rest) = .ok (commands,s,rest) ∧
      commands.map (text s) = (session.takeInput line).pending := by
  obtain ⟨s,hrun,-,hlaid⟩ := takeInput_line hline hlen.le (zero_mem_padded hlen) rest
  have hshort : (cstring line).length < 100 := (List.takeWhile_prefix _).length_le.trans_lt hlen
  refine ⟨_,s,hrun,?_⟩
  rw [hlaid.texts,commandSpans_texts hshort,Session.takeInput,if_neg (by omega)]
  rcases eq_or_ne line [] with rfl | hne
  · rw [if_pos rfl,hidle]
    rfl
  · rw [if_neg hne]
    simp only
    split <;> rfl

def pieces (line : Bytes) : List Bytes :=
  ((line.splitOnP (· == 59)).map trim).filter fun t => !t.isEmpty

theorem tokenizeCommands_eq_pieces (line : Bytes) : Shell.tokenizeCommands line = pieces line := by
  rw [Shell.tokenizeCommands,strtok_singleton,tokens,pieces]
  generalize line.splitOnP (· == 59) = l
  induction l with
  | nil => rfl
  | cons t l ih =>
    rcases eq_or_ne t [] with rfl | hne
    · exact ih
    · rw [List.filter_cons_of_pos (by simpa using hne),List.map_cons,List.map_cons,
        List.filter_cons,List.filter_cons,ih]

theorem exists_piece {c : UInt8} (hspace : isspace c = false) (hbar : c ≠ 59) {line : Bytes}
    (h : c ∈ line) : ∃ t ∈ pieces line, c ∈ t := by
  obtain ⟨t,ht,hc⟩ := exists_mem_splitOnP (p := (· == 59)) (by simpa using hbar) h
  have htrim : c ∈ trim t := mem_trim hc hspace
  refine ⟨trim t,?_,htrim⟩
  rw [pieces,List.mem_filter]
  refine ⟨List.mem_map_of_mem ht,?_⟩
  have hne : trim t ≠ [] := List.ne_nil_of_mem htrim
  simpa using hne

def Reads (stream : Bytes) : Prop :=
  ∃ commands s rest, takeInput stream = .ok (commands,s,rest) ∧ rest <:+ stream ∧
    (lineOf stream).length ≤ 99 ∧ commands.map (text s) = pieces (lineOf stream)

theorem takeInput_reads_iff (stream : Bytes) :
    Reads stream ↔ newline ∈ stream ∧ (lineOf stream).length ≤ 99 ∧ 0 ∉ lineOf stream := by
  constructor
  · rintro ⟨commands,s,rest,hrun,-,hlen,htexts⟩
    have hmem : newline ∈ stream := by
      by_contra hno
      rw [takeInput_eof hno] at hrun
      cases hrun
    refine ⟨hmem,hlen,?_⟩
    intro hnul
    obtain ⟨t,ht,hzero⟩ := exists_piece (by decide) (by decide) hnul
    rw [← htexts] at ht
    obtain ⟨p,-,rfl⟩ := List.mem_map.mp ht
    exact notMem_takeWhile 0 _ hzero
  · rintro ⟨hmem,hlen,hnul⟩
    obtain ⟨rest,hstream⟩ := stream_eq hmem
    obtain ⟨s,hrun,-,hlaid⟩ := takeInput_line (newline_notMem_lineOf stream) (by omega)
      (zero_mem_padded (by omega)) rest
    rw [← hstream,Session.cstring_of_noNul hnul] at hrun
    rw [Session.cstring_of_noNul hnul] at hlaid
    refine ⟨_,s,rest,hrun,⟨lineOf stream ++ [newline],?_⟩,hlen,?_⟩
    · rw [List.append_assoc]
      exact hstream.symm
    · rw [hlaid.texts,commandSpans_texts (by omega),tokenizeCommands_eq_pieces]

theorem takeInput_overruns_at_eof :
    takeInput (ascii ['l','s']) = .error .outOfBounds ∧ ¬Reads (ascii ['l','s']) := by
  have hrun : takeInput (ascii ['l','s']) = .error .outOfBounds := takeInput_eof (by decide)
  refine ⟨hrun,?_⟩
  rintro ⟨commands,s,rest,hok,-⟩
  rw [hrun] at hok
  cases hok

end Shell.Line
