import Mathlib.Tactic
import Mathlib.Logic.Function.Basic
import OscAssignments.Lib.Runs
import OscAssignments.Shell.Parse

namespace Shell
open Runs Tokens
namespace Args

def amp : Bytes := ascii ['&']

structure Argv where
  args : Nat → Option Bytes := fun _ => none
  argCount : Nat := 0

def Argv.store (a : Argv) (i : Nat) (arg : Option Bytes) : Except Fault Argv :=
  if i < maxArgs then .ok { a with args := Function.update a.args i arg } else .error .outOfBounds

structure Reader where
  hasInput : Bool := false
  hasOutput : Bool := false
  hasAppend : Bool := false
  inp : Bytes := []
  outp : Bytes := []
  append : Bytes := []
  argv : Argv := {}

def Reader.take (s : Reader) (arg : Bytes) : Except Fault Reader :=
  if arg = ascii ['<'] then .ok { s with hasInput := true }
  else if s.hasInput then .ok { s with inp := arg, hasInput := false }
  else if arg = ascii ['>'] then .ok { s with hasOutput := true }
  else if s.hasOutput then .ok { s with outp := arg, hasOutput := false }
  else if arg = ascii ['>','>'] then .ok { s with hasAppend := true }
  else if s.hasAppend then .ok { s with append := arg, hasAppend := false }
  else do
    let argv ← s.argv.store s.argv.argCount (some arg)
    .ok { s with argv := { argv with argCount := argv.argCount + 1 } }

def Argv.trimAll (a : Argv) : Argv :=
  { a with args := fun i => if i < a.argCount then (a.args i).map trim else a.args i }

def shift (d : Nat) : Nat → Nat → (Nat → Option Bytes) → Nat → Option Bytes
  | 0, _, args => args
  | n + 1, j, args => shift d n (j + 1) (Function.update args (j - d) (args j))

def Argv.remove (d : Nat) (a : Argv) (i : Nat) : Argv where
  args := Function.update (shift d (a.argCount - (i + d)) (i + d) a.args) (a.argCount - d) none
  argCount := a.argCount - d

def dropAmp : Nat → Nat → Argv → Except Fault (Bool × Argv)
  | 0, _, a => .ok (false,a)
  | n + 1, i, a =>
    if i < a.argCount then
      match a.args i with
      | none => .error .outOfBounds
      | some arg => if arg = amp then .ok (true,a.remove 1 i) else dropAmp n (i + 1) a
    else .ok (false,a)

def dropRedirects : Nat → Nat → Argv → Except Fault Argv
  | 0, _, a => .ok a
  | n + 1, i, a =>
    if i < a.argCount then
      match a.args i with
      | none => .error .outOfBounds
      | some arg =>
        if isOperator arg then
          if a.argCount < 2 then .error .outOfBounds else dropRedirects n (i + 1) (a.remove 2 i)
        else dropRedirects n (i + 1) a
    else .ok a

structure Read where
  cmd : Option Bytes
  argv : Argv
  isBackgroundJob : Bool
  inp : Bytes
  outp : Bytes
  append : Bytes

def read (command : Bytes) : Except Fault Read := do
  let s ← (strtok [9,32] command).foldlM Reader.take {}
  let argv := s.argv.trimAll
  let cmd := argv.args 0
  let (isBackgroundJob,argv) ← dropAmp argv.argCount 0 argv
  let argv ← dropRedirects argv.argCount 0 argv
  .ok { cmd := cmd, argv := argv, isBackgroundJob := isBackgroundJob
        inp := s.inp, outp := s.outp, append := s.append }

structure Argv.Holds (a : Argv) (l : List Bytes) : Prop where
  count : a.argCount = l.length
  le : l.length ≤ maxArgs
  cells : ∀ i < l.length, a.args i = l[i]?
  ended : l.length < maxArgs → a.args l.length = none

theorem shift_apply {d : Nat} (n : Nat) :
    ∀ {j : Nat} (args : Nat → Option Bytes), 0 < d → d ≤ j → ∀ x,
      shift d n j args x = if j - d ≤ x ∧ x < j - d + n then args (x + d) else args x := by
  induction n with
  | zero =>
    intro j args _ _ x
    rw [shift,if_neg (by omega)]
  | succ n ih =>
    intro j args hd hj x
    rw [shift,ih _ hd (by omega)]
    have hkeep : ∀ y, y ≠ j - d → Function.update args (j - d) (args j) y = args y :=
      fun y hy => Function.update_of_ne hy _ _
    rcases lt_trichotomy x (j - d) with hx | rfl | hx
    · rw [if_neg (by omega),if_neg (by omega),hkeep x hx.ne]
    · rw [if_neg (by omega),if_pos (by omega),Function.update_self]
      congr 1
      omega
    · rcases lt_or_ge x (j - d + (n + 1)) with hlt | hge
      · rw [if_pos (by omega),if_pos (by omega),hkeep (x + d) (by omega)]
      · rw [if_neg (by omega),if_neg (by omega),hkeep x hx.ne']

theorem Argv.Holds.remove {a : Argv} {l : List Bytes} (h : a.Holds l) {d i : Nat} (hd : 0 < d)
    (hdl : d ≤ l.length) (hi : i < l.length) :
    (a.remove d i).Holds ((l.take i ++ l.drop (i + d)).take (l.length - d)) := by
  have hlen : ((l.take i ++ l.drop (i + d)).take (l.length - d)).length = l.length - d := by
    simp only [List.length_take,List.length_append,List.length_drop]
    omega
  have hle := h.le
  refine ⟨?_,by omega,?_,?_⟩
  · rw [hlen,Argv.remove,h.count]
  · intro x hx
    rw [hlen] at hx
    have hne : x ≠ l.length - d := by omega
    rw [Argv.remove,h.count]
    simp only
    rw [Function.update_of_ne hne,shift_apply _ _ hd (by omega),
      List.getElem?_take_of_lt hx]
    rcases lt_or_ge x i with hxi | hxi
    · rw [if_neg (by omega),h.cells x (by omega),
        List.getElem?_append_left (by rw [List.length_take]; omega),List.getElem?_take_of_lt hxi]
    · rw [if_pos (by omega),h.cells (x + d) (by omega),
        List.getElem?_append_right (by rw [List.length_take]; omega),List.getElem?_drop,
        List.length_take]
      congr 1
      omega
  · intro _
    rw [hlen,Argv.remove,h.count]
    exact Function.update_self ..

theorem Argv.Holds.getElem?_eq {a : Argv} {l : List Bytes} (h : a.Holds l) {i : Nat}
    (hi : i < a.argCount) : ∃ arg, a.args i = some arg ∧ l[i]? = some arg := by
  have hi' : i < l.length := h.count ▸ hi
  exact ⟨l[i],by rw [h.cells i hi',List.getElem?_eq_getElem hi'],List.getElem?_eq_getElem hi'⟩

theorem dropAmp_eq {a : Argv} {l : List Bytes} (h : a.Holds l) (n : Nat) :
    ∀ (pre post : List Bytes), l = pre ++ post → post.length ≤ n → amp ∉ pre →
      ∃ a', dropAmp n pre.length a = .ok (l.contains amp,a') ∧ a'.Holds (l.erase amp) := by
  induction n with
  | zero =>
    intro pre post hl hn hpre
    have hpost : post = [] := List.length_eq_zero_iff.mp (by omega)
    have hmem : amp ∉ l := by simpa [hl,hpost] using hpre
    refine ⟨a,?_,by rw [List.erase_of_not_mem hmem]; exact h⟩
    simp [dropAmp,hmem]
  | succ n ih =>
    intro pre post hl hn hpre
    rw [dropAmp]
    cases post with
    | nil =>
      have hmem : amp ∉ l := by simpa [hl] using hpre
      have hend : ¬pre.length < a.argCount := by
        rw [h.count,hl]
        simp
      rw [if_neg hend]
      exact ⟨a,by simp [hmem],by rw [List.erase_of_not_mem hmem]; exact h⟩
    | cons x post =>
      have hi : pre.length < a.argCount := by
        rw [h.count,hl]
        simp
      obtain ⟨arg,harg,hget⟩ := h.getElem?_eq hi
      have hx : arg = x := by
        rw [hl,List.getElem?_append_right le_rfl,Nat.sub_self] at hget
        exact (Option.some.inj hget).symm
      subst hx
      rw [if_pos hi,harg]
      simp only
      rcases eq_or_ne arg amp with rfl | hne
      · rw [if_pos rfl]
        refine ⟨a.remove 1 pre.length,?_,?_⟩
        · have hmem : amp ∈ l := by simp [hl]
          simp [hmem]
        · have hremoved := h.remove (d := 1) (i := pre.length) (by decide)
            (by simp [hl]; omega) (by simp [hl])
          have hlist : (l.take pre.length ++ l.drop (pre.length + 1)).take (l.length - 1) =
              l.erase amp := by
            rw [hl,List.erase_append_right _ hpre,List.erase_cons_head,List.take_left,
              List.drop_append,List.drop_eq_nil_of_le (by omega),List.nil_append,
              Nat.add_sub_cancel_left,List.drop_one,List.tail_cons,List.take_of_length_le]
            simp
          exact hlist ▸ hremoved
      · rw [if_neg hne]
        have hlater := ih (pre ++ [arg]) post (by simp [hl])
          (by simpa using hn) (by simpa using ⟨hpre,hne.symm⟩)
        rwa [List.length_append,List.length_singleton] at hlater

theorem dropRedirects_eq (n : Nat) :
    ∀ {i : Nat} {a : Argv} {l : List Bytes}, a.Holds l →
      (∀ r, dropOperators n i l = .ok r → ∃ a', dropRedirects n i a = .ok a' ∧ a'.Holds r) ∧
        ∀ e, dropOperators n i l = .error e → dropRedirects n i a = .error e := by
  induction n with
  | zero =>
    intro i a l h
    refine ⟨?_,?_⟩
    · intro r hr
      cases hr
      exact ⟨a,rfl,h⟩
    · intro e he
      cases he
  | succ n ih =>
    intro i a l h
    rw [dropOperators,dropRedirects]
    rcases lt_or_ge i a.argCount with hi | hi
    · obtain ⟨arg,harg,hget⟩ := h.getElem?_eq hi
      rw [if_pos hi,harg,hget]
      simp only
      rcases hop : isOperator arg with _ | _
      · exact ih h
      · rcases lt_or_ge l.length 2 with hlen | hlen
        · rw [if_pos rfl,if_pos rfl,if_pos hlen,if_pos (by rw [h.count]; exact hlen)]
          refine ⟨?_,?_⟩
          · intro r hr
            cases hr
          · intro e he
            cases he
            rfl
        · rw [if_pos rfl,if_pos rfl,if_neg (by omega),if_neg (by rw [h.count]; omega)]
          exact ih (h.remove (by decide) hlen (h.count ▸ hi))
    · rw [if_neg (Nat.not_lt.mpr hi),List.getElem?_eq_none (by rw [← h.count]; exact hi)]
      refine ⟨?_,?_⟩
      · intro r hr
        cases hr
        exact ⟨a,rfl,h⟩
      · intro e he
        cases he

structure Reader.Tracks (t : Reader) (s : Scan) : Prop where
  hasInput : t.hasInput = s.hasInput
  hasOutput : t.hasOutput = s.hasOutput
  hasAppend : t.hasAppend = s.hasAppend
  inp : t.inp = s.inp
  outp : t.outp = s.outp
  append : t.append = s.append
  argv : t.argv.Holds s.args
  rest : ∀ i, s.args.length ≤ i → t.argv.args i = none

theorem Argv.Holds.push {a : Argv} {l : List Bytes} (h : a.Holds l) (hl : l.length < maxArgs)
    (hrest : ∀ i, l.length ≤ i → a.args i = none) (arg : Bytes) :
    Argv.Holds ⟨Function.update a.args l.length (some arg),l.length + 1⟩ (l ++ [arg]) ∧
      ∀ i, (l ++ [arg]).length ≤ i → Function.update a.args l.length (some arg) i = none := by
  have hlen : (l ++ [arg]).length = l.length + 1 := by simp
  have hnone : ∀ i, (l ++ [arg]).length ≤ i →
      Function.update a.args l.length (some arg) i = none := by
    intro i hi
    rw [Function.update_of_ne (by omega)]
    exact hrest i (by omega)
  refine ⟨⟨hlen.symm,by omega,?_,fun _ => hnone _ le_rfl⟩,hnone⟩
  intro i hi
  rcases eq_or_ne i l.length with rfl | hne
  · rw [List.getElem?_concat_length]
    exact Function.update_self ..
  · rw [List.getElem?_append_left (by omega)]
    exact (Function.update_of_ne hne _ _).trans (h.cells i (by omega))

theorem take_args (s : Scan) (arg : Bytes) :
    (s.take arg).args = s.args ∨ (s.take arg).args = s.args ++ [arg] := by
  unfold Scan.take
  repeat' split
  all_goals simp

theorem take_args_length_le (s : Scan) (arg : Bytes) :
    s.args.length ≤ (s.take arg).args.length := by
  rcases take_args s arg with hkeep | hpush
  · exact (congrArg List.length hkeep).ge
  · rw [hpush,List.length_append]
    exact Nat.le_add_right _ _

theorem takes_args_length_le (tokens : List Bytes) (s : Scan) :
    s.args.length ≤ (tokens.foldl Scan.take s).args.length := by
  induction tokens generalizing s with
  | nil => exact le_rfl
  | cons arg tokens ih => exact (take_args_length_le s arg).trans (ih (s.take arg))

theorem Reader.Tracks.take {t : Reader} {s : Scan} (h : t.Tracks s) (arg : Bytes) :
    ((s.take arg).args.length ≤ maxArgs → ∃ t', t.take arg = .ok t' ∧ t'.Tracks (s.take arg)) ∧
      (maxArgs < (s.take arg).args.length → t.take arg = .error .outOfBounds) := by
  have hle := h.argv.le
  unfold Scan.take Reader.take
  rw [h.hasInput,h.hasOutput,h.hasAppend]
  split
  · exact ⟨fun _ => ⟨_,rfl,rfl,rfl,rfl,h.inp,h.outp,h.append,h.argv,h.rest⟩,
      fun hlt => absurd hle (not_le.mpr hlt)⟩
  split
  · exact ⟨fun _ => ⟨_,rfl,rfl,rfl,rfl,rfl,h.outp,h.append,h.argv,h.rest⟩,
      fun hlt => absurd hle (not_le.mpr hlt)⟩
  split
  · exact ⟨fun _ => ⟨_,rfl,rfl,rfl,rfl,h.inp,h.outp,h.append,h.argv,h.rest⟩,
      fun hlt => absurd hle (not_le.mpr hlt)⟩
  split
  · exact ⟨fun _ => ⟨_,rfl,rfl,rfl,rfl,h.inp,rfl,h.append,h.argv,h.rest⟩,
      fun hlt => absurd hle (not_le.mpr hlt)⟩
  split
  · exact ⟨fun _ => ⟨_,rfl,rfl,rfl,rfl,h.inp,h.outp,h.append,h.argv,h.rest⟩,
      fun hlt => absurd hle (not_le.mpr hlt)⟩
  split
  · exact ⟨fun _ => ⟨_,rfl,rfl,rfl,rfl,h.inp,h.outp,rfl,h.argv,h.rest⟩,
      fun hlt => absurd hle (not_le.mpr hlt)⟩
  · rw [Argv.store,h.argv.count]
    simp only [List.length_append,List.length_singleton]
    rcases lt_or_ge s.args.length maxArgs with hlt | hge
    · rw [if_pos hlt,ok_bind]
      obtain ⟨hpush,hrest⟩ := h.argv.push hlt h.rest arg
      refine ⟨fun _ => ⟨_,rfl,rfl,rfl,rfl,h.inp,h.outp,h.append,?_,hrest⟩,
        fun hover => by omega⟩
      exact hpush
    · rw [if_neg (not_lt.mpr hge)]
      exact ⟨fun hfit => by omega,fun _ => rfl⟩

theorem Reader.Tracks.takes (tokens : List Bytes) {t : Reader} {s : Scan} (h : t.Tracks s) :
    ((tokens.foldl Scan.take s).args.length ≤ maxArgs →
        ∃ t', tokens.foldlM Reader.take t = .ok t' ∧ t'.Tracks (tokens.foldl Scan.take s)) ∧
      (maxArgs < (tokens.foldl Scan.take s).args.length →
        tokens.foldlM Reader.take t = .error .outOfBounds) := by
  induction tokens generalizing t s with
  | nil => exact ⟨fun _ => ⟨t,rfl,h⟩,fun hlt => absurd h.argv.le (not_le.mpr hlt)⟩
  | cons arg tokens ih =>
    have hmono := takes_args_length_le tokens (s.take arg)
    rw [List.foldl_cons,List.foldlM_cons]
    rcases le_or_gt (s.take arg).args.length maxArgs with hfit | hover
    · obtain ⟨t',ht,htracks⟩ := (h.take arg).1 hfit
      rw [ht]
      exact ih htracks
    · rw [(h.take arg).2 hover]
      exact ⟨fun hfit => by omega,fun _ => rfl⟩

theorem Argv.Holds.trimAll {a : Argv} {l : List Bytes} (h : a.Holds l) :
    a.trimAll.Holds (l.map trim) := by
  refine ⟨by rw [List.length_map]; exact h.count,by rw [List.length_map]; exact h.le,?_,?_⟩
  · intro i hi
    rw [List.length_map] at hi
    rw [Argv.trimAll,List.getElem?_map,← h.cells i hi]
    exact if_pos (h.count ▸ hi)
  · intro hlt
    rw [List.length_map] at hlt ⊢
    rw [Argv.trimAll]
    simp only
    rw [if_neg (by rw [h.count]; omega)]
    exact h.ended hlt

structure Read.Agrees (r : Read) (p : Parsed) : Prop where
  cmd : r.cmd = p.cmd
  argv : r.argv.Holds p.args
  isBackgroundJob : r.isBackgroundJob = p.isBackgroundJob
  inp : r.inp = p.inp
  outp : r.outp = p.outp
  append : r.append = p.append

theorem Argv.Holds.head {a : Argv} {l : List Bytes} (h : a.Holds l) : a.args 0 = l.head? := by
  rw [List.head?_eq_getElem?]
  rcases Nat.eq_zero_or_pos l.length with h0 | h0
  · have hlt : l.length < maxArgs := by rw [h0]; decide
    have hnone := h.ended hlt
    rw [h0] at hnone
    rw [hnone,List.getElem?_eq_none h0.le]
  · exact h.cells 0 h0

theorem Reader.Tracks.start : Reader.Tracks {} Scan.start := by
  refine ⟨rfl,rfl,rfl,rfl,rfl,rfl,⟨rfl,Nat.zero_le _,?_,fun _ => rfl⟩,fun _ _ => rfl⟩
  intro i hi
  cases hi

theorem read_refines_parse (command : Bytes) :
    (∀ p, parse command = .ok p → ∃ r, read command = .ok r ∧ r.Agrees p) ∧
      ∀ e, parse command = .error e → read command = .error e := by
  have htakes := Reader.Tracks.start.takes (strtok [9,32] command)
  unfold parse read
  generalize (strtok [9,32] command).foldl Scan.take Scan.start = s at htakes
  simp only
  rcases le_or_gt s.args.length maxArgs with hfit | hover
  · obtain ⟨t,ht,htracks⟩ := htakes.1 hfit
    have htrim := htracks.argv.trimAll
    obtain ⟨a,hamp,ha⟩ := dropAmp_eq htrim t.argv.trimAll.argCount [] _ rfl
      (by rw [htrim.count]) (by simp)
    have hdrop := dropRedirects_eq (a := a) a.argCount (i := 0) ha
    rw [List.length_nil] at hamp
    rw [if_neg (not_lt.mpr hfit),ht,ok_bind,hamp,ok_bind,show ascii ['&'] = amp from rfl]
    simp only
    rw [ha.count] at hdrop ⊢
    rcases hops : dropOperators ((s.args.map trim).erase amp).length 0
        ((s.args.map trim).erase amp) with e | rest
    · rw [hdrop.2 e hops]
      refine ⟨?_,?_⟩
      · intro p hp
        cases hp
      · intro e' he
        cases he
        rfl
    · obtain ⟨a',ha',hholds⟩ := hdrop.1 rest hops
      rw [ha']
      refine ⟨?_,?_⟩
      · intro p hp
        cases hp
        exact ⟨_,rfl,htrim.head,hholds,rfl,htracks.inp,htracks.outp,htracks.append⟩
      · intro e' he
        cases he
  · rw [if_pos hover,htakes.2 hover]
    refine ⟨?_,?_⟩
    · intro p hp
      cases hp
    · intro e he
      cases he
      rfl

def Paired : List Bytes → Prop
  | [] => True
  | op :: rest =>
    (isOperator op = true → ∃ name ∈ rest.head?, isOperator name = false) ∧ Paired rest

instance decidablePaired : (tokens : List Bytes) → Decidable (Paired tokens)
  | [] => inferInstanceAs (Decidable True)
  | op :: rest =>
    have := decidablePaired rest
    inferInstanceAs (Decidable
      ((isOperator op = true → ∃ name ∈ rest.head?, isOperator name = false) ∧ Paired rest))

def outside : List Bytes → List Bytes
  | [] => []
  | [arg] => if isOperator arg then [] else [arg]
  | arg :: name :: rest => if isOperator arg then outside rest else arg :: outside (name :: rest)

def names (op : Bytes) : List Bytes → List Bytes
  | [] => []
  | [_] => []
  | arg :: name :: rest =>
    if isOperator arg then (if arg = op then [name] else []) ++ names op rest
    else names op (name :: rest)

def lastName (op : Bytes) (tokens : List Bytes) : Bytes := (names op tokens).getLast?.getD []

structure Scanned (s s' : Scan) (tokens : List Bytes) : Prop where
  args : s'.args = s.args ++ outside tokens
  inp : s'.inp = (names (ascii ['<']) tokens).getLast?.getD s.inp
  outp : s'.outp = (names (ascii ['>']) tokens).getLast?.getD s.outp
  append : s'.append = (names (ascii ['>','>']) tokens).getLast?.getD s.append

theorem take_plain {s : Scan} {arg : Bytes} (hs : s.hasInput = false ∧ s.hasOutput = false ∧
    s.hasAppend = false) (harg : isOperator arg = false) :
    s.take arg = { s with args := s.args ++ [arg] } := by
  simp only [isOperator,Bool.or_eq_false_iff,beq_eq_false_iff_ne] at harg
  simp [Scan.take,harg,hs]

section Pairs
variable {s : Scan} {name : Bytes}
  (hs : s.hasInput = false ∧ s.hasOutput = false ∧ s.hasAppend = false)
  (hname : isOperator name = false)

include hs hname

theorem take_input : (s.take (ascii ['<'])).take name = { s with inp := name } := by
  obtain ⟨_,_,_,inp,outp,append,args⟩ := s
  obtain ⟨rfl,rfl,rfl⟩ := hs
  simp only [isOperator,Bool.or_eq_false_iff,beq_eq_false_iff_ne] at hname
  simp [Scan.take,hname]

theorem take_output : (s.take (ascii ['>'])).take name = { s with outp := name } := by
  obtain ⟨_,_,_,inp,outp,append,args⟩ := s
  obtain ⟨rfl,rfl,rfl⟩ := hs
  simp only [isOperator,Bool.or_eq_false_iff,beq_eq_false_iff_ne] at hname
  have hlt : ascii ['>'] ≠ ascii ['<'] := by decide
  simp [Scan.take,hname,hlt]

theorem take_append : (s.take (ascii ['>','>'])).take name = { s with append := name } := by
  obtain ⟨_,_,_,inp,outp,append,args⟩ := s
  obtain ⟨rfl,rfl,rfl⟩ := hs
  simp only [isOperator,Bool.or_eq_false_iff,beq_eq_false_iff_ne] at hname
  have hlt : ascii ['>','>'] ≠ ascii ['<'] := by decide
  have hgt : ascii ['>','>'] ≠ ascii ['>'] := by decide
  simp [Scan.take,hname,hlt,hgt]

end Pairs

theorem isOperator_cases {op : Bytes} (h : isOperator op = true) :
    op = ascii ['<'] ∨ op = ascii ['>'] ∨ op = ascii ['>','>'] := by
  simp only [isOperator,Bool.or_eq_true,beq_iff_eq] at h
  rcases h with (h | h) | h
  · exact .inl h
  · exact .inr (.inr h)
  · exact .inr (.inl h)

theorem getLast?_getD_cons {α : Type} (a b : α) (l : List α) :
    ([a] ++ l).getLast?.getD b = l.getLast?.getD a := by
  cases l with
  | nil => rfl
  | cons x l => simp [List.getLast?_cons]

theorem scanned (tokens : List Bytes) :
    ∀ {s : Scan}, s.hasInput = false ∧ s.hasOutput = false ∧ s.hasAppend = false →
      Paired tokens → Scanned s (tokens.foldl Scan.take s) tokens := by
  fun_induction outside tokens with
  | case1 =>
    intro s _ _
    exact ⟨(List.append_nil _).symm,rfl,rfl,rfl⟩
  | case2 arg harg =>
    intro s _ hp
    obtain ⟨name,hname,-⟩ := hp.1 harg
    cases hname
  | case3 arg harg =>
    intro s hs _
    rw [List.foldl_cons,List.foldl_nil,take_plain hs (by simpa using harg)]
    refine ⟨?_,rfl,rfl,rfl⟩
    rw [outside,if_neg harg]
  | case4 arg name rest harg ih =>
    intro s hs hp
    obtain ⟨hname,hnext⟩ : isOperator name = false ∧ Paired rest := by
      obtain ⟨name',hname,hplain⟩ := hp.1 harg
      cases hname
      exact ⟨hplain,hp.2.2⟩
    rw [List.foldl_cons,List.foldl_cons]
    rcases isOperator_cases harg with rfl | rfl | rfl
    · have h := ih (s := { s with inp := name }) hs hnext
      rw [take_input hs hname]
      refine ⟨?_,?_,?_,?_⟩
      · rw [h.args,outside,if_pos harg]
      · rw [h.inp,names,if_pos harg,if_pos rfl,getLast?_getD_cons]
      · rw [h.outp,names,if_pos harg,if_neg (by decide),List.nil_append]
      · rw [h.append,names,if_pos harg,if_neg (by decide),List.nil_append]
    · have h := ih (s := { s with outp := name }) hs hnext
      rw [take_output hs hname]
      refine ⟨?_,?_,?_,?_⟩
      · rw [h.args,outside,if_pos harg]
      · rw [h.inp,names,if_pos harg,if_neg (by decide),List.nil_append]
      · rw [h.outp,names,if_pos harg,if_pos rfl,getLast?_getD_cons]
      · rw [h.append,names,if_pos harg,if_neg (by decide),List.nil_append]
    · have h := ih (s := { s with append := name }) hs hnext
      rw [take_append hs hname]
      refine ⟨?_,?_,?_,?_⟩
      · rw [h.args,outside,if_pos harg]
      · rw [h.inp,names,if_pos harg,if_neg (by decide),List.nil_append]
      · rw [h.outp,names,if_pos harg,if_neg (by decide),List.nil_append]
      · rw [h.append,names,if_pos harg,if_pos rfl,getLast?_getD_cons]
  | case5 arg name rest harg ih =>
    intro s hs hp
    rw [List.foldl_cons,take_plain hs (by simpa using harg)]
    have h := ih (s := { s with args := s.args ++ [arg] }) hs hp.2
    refine ⟨?_,?_,?_,?_⟩
    · rw [h.args,outside,if_neg harg,List.append_assoc]
      rfl
    · rw [h.inp,names,if_neg harg]
    · rw [h.outp,names,if_neg harg]
    · rw [h.append,names,if_neg harg]

theorem dropOperators_plain {l : List Bytes} (h : ∀ x ∈ l, isOperator x = false) (n : Nat) :
    ∀ i, dropOperators n i l = .ok l := by
  induction n with
  | zero => exact fun _ => rfl
  | succ n ih =>
    intro i
    rw [dropOperators]
    rcases hget : l[i]? with _ | arg
    · rfl
    · simp only [h arg (List.mem_of_getElem? hget)]
      exact ih (i + 1)

def given (tokens : List Bytes) : List Bytes := ((outside tokens).map trim).erase amp

theorem outside_length_le (tokens : List Bytes) : (outside tokens).length ≤ tokens.length := by
  fun_induction outside tokens with
  | case1 => exact le_rfl
  | case2 arg harg => exact Nat.zero_le _
  | case3 arg harg => exact le_rfl
  | case4 arg name rest harg ih =>
    simp only [List.length_cons]
    omega
  | case5 arg name rest harg ih =>
    simp only [List.length_cons] at ih ⊢
    omega

theorem given_length_le (tokens : List Bytes) : (given tokens).length ≤ tokens.length := by
  calc (given tokens).length
      ≤ ((outside tokens).map trim).length := List.length_erase_le
    _ = (outside tokens).length := List.length_map _
    _ ≤ tokens.length := outside_length_le tokens

theorem parse_eq {command : Bytes} (hlen : (strtok [9,32] command).length ≤ maxArgs)
    (hpaired : Paired (strtok [9,32] command))
    (hplain : ∀ x ∈ outside (strtok [9,32] command), isOperator (trim x) = false) :
    parse command = .ok
      { cmd := ((outside (strtok [9,32] command)).map trim).head?
        args := given (strtok [9,32] command)
        isBackgroundJob := ((outside (strtok [9,32] command)).map trim).contains amp
        inp := lastName (ascii ['<']) (strtok [9,32] command)
        outp := lastName (ascii ['>']) (strtok [9,32] command)
        append := lastName (ascii ['>','>']) (strtok [9,32] command) } := by
  have h := scanned (strtok [9,32] command) (s := .start) ⟨rfl,rfl,rfl⟩ hpaired
  have hargs : ((strtok [9,32] command).foldl Scan.take .start).args =
      outside (strtok [9,32] command) := h.args
  have hno : ∀ x ∈ given (strtok [9,32] command), isOperator x = false := by
    intro x hx
    obtain ⟨y,hy,rfl⟩ := List.mem_map.mp (List.mem_of_mem_erase hx)
    exact hplain y hy
  have hle := outside_length_le (strtok [9,32] command)
  unfold parse
  simp only
  rw [hargs,h.inp,h.outp,h.append,if_neg (by omega)]
  change dropOperators (given _).length 0 (given _) >>= _ = _
  rw [dropOperators_plain hno]
  rfl

theorem read_grammar {command : Bytes} (hlen : (strtok [9,32] command).length < 125)
    (hpaired : Paired (strtok [9,32] command))
    (hplain : ∀ x ∈ outside (strtok [9,32] command), isOperator (trim x) = false) :
    ∃ r, read command = .ok r ∧
      r.argv.argCount = (given (strtok [9,32] command)).length ∧
      (∀ i < r.argv.argCount, r.argv.args i = (given (strtok [9,32] command))[i]?) ∧
      r.argv.args r.argv.argCount = none ∧
      r.inp = lastName (ascii ['<']) (strtok [9,32] command) ∧
      r.outp = lastName (ascii ['>']) (strtok [9,32] command) ∧
      r.append = lastName (ascii ['>','>']) (strtok [9,32] command) ∧
      (r.isBackgroundJob = true ↔ ∃ x ∈ outside (strtok [9,32] command), trim x = amp) := by
  obtain ⟨r,hr,hagrees⟩ := (read_refines_parse command).1 _ (parse_eq hlen.le hpaired hplain)
  have hcount := hagrees.argv.count
  have hfit := given_length_le (strtok [9,32] command)
  refine ⟨r,hr,hcount,?_,?_,hagrees.inp,hagrees.outp,hagrees.append,?_⟩
  · intro i hi
    exact hagrees.argv.cells i (hcount ▸ hi)
  · rw [hcount]
    exact hagrees.argv.ended (lt_of_le_of_lt hfit hlen)
  · rw [hagrees.isBackgroundJob]
    simp only [List.contains_iff_mem,List.mem_map]

def sortLine : Bytes :=
  ascii ['s','o','r','t',' ','<',' ','i',' ','-','r',' ','>',' ','o',' ','&']

theorem read_grammar_sort :
    ∃ r, read sortLine = .ok r ∧
      r.argv.argCount = 2 ∧ r.argv.args 2 = none ∧ r.inp = ascii ['i'] ∧ r.outp = ascii ['o'] := by
  have hlen : (strtok [9,32] sortLine).length < 125 := by decide +kernel
  obtain ⟨r,hr,hcount,-,hend,hinp,houtp,-,-⟩ := read_grammar hlen (by decide +kernel)
    (by decide +kernel)
  have htwo : r.argv.argCount = 2 := hcount.trans (by decide +kernel)
  exact ⟨r,hr,htwo,htwo ▸ hend,hinp.trans (by decide +kernel),houtp.trans (by decide +kernel)⟩

def carriage : Bytes := ascii ['e','c','h','o',' ','a'] ++ 13 :: ascii [' ','b']

theorem read_trims_token :
    (strtok [9,32] carriage).length < 125 ∧ Paired (strtok [9,32] carriage) ∧
      (outside (strtok [9,32] carriage)).head? ≠ some amp ∧
      ((outside (strtok [9,32] carriage)).erase amp)[1]? = some (ascii ['a'] ++ [13]) ∧
      ((read carriage).toOption.bind fun r => r.argv.args 1) = some (ascii ['a']) ∧
      ((read carriage).toOption.bind fun r => r.argv.args 1) ≠
        ((outside (strtok [9,32] carriage)).erase amp)[1]? := by
  decide +kernel

end Args
end Shell
