import Mathlib.Tactic
import OscAssignments.Shell.History

namespace Shell
open Tokens

def esc : UInt8 := 27

def isArrow (command : Bytes) : Bool := command.head? == some esc

def countPipes (commands : Bytes) : Nat := commands.count 124

def tokenizeCommands (allCommandsString : Bytes) : List Bytes :=
  ((strtok [59] allCommandsString).map trim).filter fun t => !t.isEmpty

theorem strtok_singleton (d : UInt8) (s : Bytes) : strtok [d] s = tokens (· == d) s := by
  rw [strtok]
  congr 1
  funext c
  rw [Bool.eq_iff_iff]
  simp

structure Scan where
  hasInput : Bool
  hasOutput : Bool
  hasAppend : Bool
  inp : Bytes
  outp : Bytes
  append : Bytes
  args : List Bytes

def Scan.start : Scan := ⟨false,false,false,[],[],[],[]⟩

def Scan.take (s : Scan) (arg : Bytes) : Scan :=
  if arg = ascii ['<'] then { s with hasInput := true }
  else if s.hasInput then { s with inp := arg, hasInput := false }
  else if arg = ascii ['>'] then { s with hasOutput := true }
  else if s.hasOutput then { s with outp := arg, hasOutput := false }
  else if arg = ascii ['>','>'] then { s with hasAppend := true }
  else if s.hasAppend then { s with append := arg, hasAppend := false }
  else { s with args := s.args ++ [arg] }

def isOperator (arg : Bytes) : Bool :=
  arg == ascii ['<'] || arg == ascii ['>','>'] || arg == ascii ['>']

def dropOperators : Nat → Nat → List Bytes → Except Fault (List Bytes)
  | 0, _, args => .ok args
  | n + 1, i, args =>
    match args[i]? with
    | none => .ok args
    | some arg =>
      if isOperator arg then
        if args.length < 2 then .error .outOfBounds
        else dropOperators n (i + 1) ((args.take i ++ args.drop (i + 2)).take (args.length - 2))
      else dropOperators n (i + 1) args

structure Parsed where
  cmd : Option Bytes
  args : List Bytes
  isBackgroundJob : Bool
  inp : Bytes
  outp : Bytes
  append : Bytes
  deriving DecidableEq

def maxArgs : Nat := 125

def parse (command : Bytes) : Except Fault Parsed :=
  let s := (strtok [9,32] command).foldl Scan.take .start
  if maxArgs < s.args.length then .error .outOfBounds
  else do
    let args := s.args.map trim
    let amp := ascii ['&']
    let rest ← dropOperators (args.erase amp).length 0 (args.erase amp)
    .ok
      { cmd := args.head?, args := rest, isBackgroundJob := args.contains amp
        inp := s.inp, outp := s.outp, append := s.append }

def tokenised (command : Bytes) : Bytes :=
  let lead := command.takeWhile fun c => c == 9 || c == 32
  let word := (command.drop lead.length).takeWhile fun c => !(c == 9 || c == 32)
  if word.all isspace then lead ++ word else lead ++ word.rdropWhile isspace

inductive Redirect
  | input
  | output
  | append
  deriving DecidableEq

def Parsed.redirects (p : Parsed) : List (Redirect × Bytes) :=
  [(.input,p.inp),(.output,p.outp),(.append,p.append)].filter fun r => !r.2.isEmpty

inductive Builtin
  | ls | quit | cd | pwd | echo | pinfo | history | nightswatch | jobs | kjob
  | setenv | unsetenv | getenv | fg | bg | overkill | cronjob | external
  deriving DecidableEq

def builtins : List (List Char × Builtin) :=
  [(['l','s'],.ls),(['q','u','i','t'],.quit),(['e','x','i','t'],.quit),(['q'],.quit),
    (['c','d'],.cd),(['p','w','d'],.pwd),(['e','c','h','o'],.echo),
    (['p','i','n','f','o'],.pinfo),(['h','i','s','t','o','r','y'],.history),
    (['n','i','g','h','t','s','w','a','t','c','h'],.nightswatch),(['j','o','b','s'],.jobs),
    (['k','j','o','b'],.kjob),(['s','e','t','e','n','v'],.setenv),
    (['u','n','s','e','t','e','n','v'],.unsetenv),(['g','e','t','e','n','v'],.getenv),
    (['f','g'],.fg),(['b','g'],.bg),(['o','v','e','r','k','i','l','l'],.overkill),
    (['c','r','o','n','j','o','b'],.cronjob)]

def dispatch (cmd : Bytes) : Builtin :=
  ((builtins.find? fun b => ascii b.1 == cmd).map Prod.snd).getD .external

def lsTarget (args : List Bytes) : Bytes :=
  (args.tail.filter fun arg => !arg.isEmpty && arg.head? != some 45 && arg != ascii ['&']).getLast?.getD
    (ascii ['.'])

end Shell
