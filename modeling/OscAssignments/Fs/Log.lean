import OscAssignments.Lib.Runs
import OscAssignments.Lib.Redo
import OscAssignments.Fs.Block
import OscAssignments.Xv6.Proc

namespace Fs
open Runs Redo Xv6

variable {n : Nat}

structure Buf (n : Nat) where
  data : Block
  dirty : Bool
  owner : Option (Fin n)
  reading : Bool

def Buf.unused (buf : Buf n) : Bool := !buf.dirty && buf.owner.isNone && !buf.reading

structure Cache (n : Nat) where
  buf : Nat → Option (Buf n)
  lru : List Nat

instance : CoeFun (Cache n) fun _ => Nat → Option (Buf n) := ⟨Cache.buf⟩

namespace Cache

def set (c : Cache n) (b : Nat) (buf : Option (Buf n)) : Cache n :=
  { c with buf := Function.update c.buf b buf }

def touch (c : Cache n) (b : Nat) : Cache n := { c with lru := b :: c.lru.erase b }

def drop (c : Cache n) (b : Nat) : Cache n := ⟨Function.update c.buf b none,c.lru.erase b⟩

end Cache

inductive Stage where
  | writeLog (tail : Nat)
  | install (tail : Nat)
  | finish
  deriving DecidableEq, Repr

inductive Pc where
  | out
  | begin
  | asleep
  | op (wrote : List Nat)
  | logging (wrote : List Nat) (b : Nat)
  | commit (stage : Stage)
  deriving DecidableEq, Repr

inductive Phase where
  | readHead
  | install (tail : Nat)
  | up
  deriving DecidableEq, Repr

structure Machine (n : Nat) where
  disk : Nat → Block
  cache : Cache n
  lh : List Nat
  outstanding : Int
  committing : Bool
  pc : Fin n → Pc
  phase : Phase

inductive Act (n : Nat) where
  | beginOp (p : Fin n)
  | modify (p : Fin n) (b : Nat) (data : Block)
  | append (p : Fin n)
  | endOp (p : Fin n)
  | commit (p : Fin n)
  | read (b : Nat)
  | release (b : Nat)
  | crash
  | recover

def headWord (i : Nat) : WordIdx := Fin.ofNat nindirect (i + 1)

def encode (lh : List Nat) (b : Block) : Block :=
  lh.zipIdx.foldl (fun b c => b.setWord (headWord c.2) c.1.toUInt32)
    (b.setWord 0 lh.length.toUInt32)

def headCount (b : Block) : Nat :=
  let w := (b.word 0).toNat
  if w < 2 ^ 31 then w else 0

def header (b : Block) : List Nat :=
  (List.range (headCount b)).map fun i => (b.word (headWord i)).toNat

def Superblock.slot (sb : Superblock) (i : Nat) : Nat := sb.logstart + i + 1

def noted (wrote : List Nat) (b : Nat) : List Nat := if b ∈ wrote then wrote else b :: wrote

namespace Machine

def setPc (m : Machine n) (p : Fin n) (pc : Pc) : Machine n :=
  { m with pc := Function.update m.pc p pc }

def setBuf (m : Machine n) (b : Nat) (buf : Option (Buf n)) : Machine n :=
  { m with cache := m.cache.set b buf }

def brelse (m : Machine n) (b : Nat) (buf : Buf n) : Machine n :=
  { m with cache := (m.cache.set b (some buf)).touch b }

def wakeup (m : Machine n) : Machine n :=
  { m with pc := fun p => if m.pc p = .asleep then .begin else m.pc p }

def recyclable (m : Machine n) (held : List Nat) (b : Nat) : Bool :=
  decide (b ∉ held) && (m.cache b).any Buf.unused

def bget (m : Machine n) (held : List Nat) : Except Halt (Machine n) :=
  if m.cache.lru.length < nbuf then .ok m
  else
    match m.cache.lru.reverse.find? (m.recyclable held) with
    | some v => .ok { m with cache := m.cache.drop v }
    | none => .error (.panic "bget: no buffers")

def bread (m : Machine n) (held : List Nat) (b : Nat) : Except Halt (Block × Machine n) :=
  match m.cache b with
  | some buf =>
    if buf.owner = none ∧ buf.reading = false then .ok (buf.data, m.brelse b buf)
    else .error .blocked
  | none => do
    let m ← m.bget held
    if b < fssize then .ok (m.disk b, m.brelse b ⟨m.disk b, false, none, false⟩)
    else .error (.panic "incorrect blockno")

def bwrite (m : Machine n) (b : Nat) (data : Block) : Machine n :=
  { m.setBuf b (some ⟨data, false, none, false⟩) with disk := Function.update m.disk b data }

def copy (m : Machine n) (src dst : Nat) : Except Halt (Machine n) := do
  need (src ≠ dst)
  let (data, m) ← m.bread [] src
  let (_, m) ← m.bread [src] dst
  .ok (m.bwrite dst data)

def writeHead (sb : Superblock) (m : Machine n) : Except Halt (Machine n) := do
  let (buf, m) ← m.bread [] sb.logstart
  .ok (m.bwrite sb.logstart (encode m.lh buf))

def readHead (sb : Superblock) (m : Machine n) : Except Halt (Machine n) := do
  let (buf, m) ← m.bread [] sb.logstart
  if headCount buf > logsize then .error .outOfBounds
  else .ok { m with lh := header buf }

def beginOp (m : Machine n) (p : Fin n) : Except Halt (Machine n) := do
  need (m.phase = .up ∧ (m.pc p = .out ∨ m.pc p = .begin))
  if m.committing then .ok (m.setPc p .asleep)
  else if m.lh.length + (m.outstanding + 1) * maxOpBlocks > logsize then .ok (m.setPc p .asleep)
  else .ok ({ m with outstanding := m.outstanding + 1 }.setPc p (.op []))

def modify (sb : Superblock) (m : Machine n) (p : Fin n) (b : Nat) (data : Block) :
    Except Halt (Machine n) :=
  match m.pc p with
  | .op wrote => do
    let (_, m) ← m.bread [] b
    let dirty := (m.cache b).any (·.dirty)
    if m.lh.length ≥ logsize ∨ (m.lh.length : Int) ≥ sb.nlog - 1 then
      .error (.panic "too big a transaction")
    else if m.outstanding < 1 then .error (.panic "log_write outside of trans")
    else .ok ((m.setBuf b (some ⟨data, dirty, some p, false⟩)).setPc p (.logging wrote b))
  | _ => .error .blocked

def append (m : Machine n) (p : Fin n) : Except Halt (Machine n) :=
  match m.pc p with
  | .logging wrote b =>
    match m.cache b with
    | some buf =>
      let m := m.setPc p (.op (noted wrote b))
      let m := m.brelse b ⟨buf.data, true, none, false⟩
      if b ∈ m.lh then .ok m
      else if m.lh.length < logsize then .ok { m with lh := m.lh ++ [b] }
      else .error .outOfBounds
    | none => .error .nullDeref
  | _ => .error .blocked

def commitStart (m : Machine n) : Stage := if m.lh.length > 0 then .writeLog 0 else .finish

def endOp (m : Machine n) (p : Fin n) : Except Halt (Machine n) :=
  match m.pc p with
  | .op _ =>
    let m := { m with outstanding := m.outstanding - 1 }
    if m.committing then .error (.panic "log.committing")
    else if m.outstanding = 0 then
      .ok ({ m with committing := true }.setPc p (.commit m.commitStart))
    else .ok (m.setPc p .out).wakeup
  | _ => .error .blocked

def commit (sb : Superblock) (m : Machine n) (p : Fin n) : Except Halt (Machine n) :=
  match m.pc p with
  | .commit (.writeLog tail) =>
    match m.lh[tail]? with
    | some b => do
      let m ← m.copy b (sb.slot tail)
      .ok (m.setPc p (.commit (.writeLog (tail + 1))))
    | none => do
      let m ← m.writeHead sb
      .ok (m.setPc p (.commit (.install 0)))
  | .commit (.install tail) =>
    match m.lh[tail]? with
    | some b => do
      let m ← m.copy (sb.slot tail) b
      .ok (m.setPc p (.commit (.install (tail + 1))))
    | none => do
      let m ← { m with lh := [] }.writeHead sb
      .ok (m.setPc p (.commit .finish))
  | .commit .finish => .ok ({ m with committing := false }.setPc p .out).wakeup
  | _ => .error .blocked

def read (m : Machine n) (b : Nat) : Except Halt (Machine n) := do
  need (m.phase = .up)
  let (data, m) ← m.bread [] b
  let dirty := (m.cache b).any (·.dirty)
  .ok (m.setBuf b (some ⟨data, dirty, none, true⟩))

def release (m : Machine n) (b : Nat) : Except Halt (Machine n) :=
  match m.cache b with
  | some buf => do
    need (buf.reading = true)
    .ok (m.brelse b { buf with reading := false })
  | none => .error .blocked

def crash (m : Machine n) : Machine n where
  disk := m.disk
  cache := ⟨fun _ => none,[]⟩
  lh := []
  outstanding := 0
  committing := false
  pc := fun _ => .out
  phase := .readHead

def recover (sb : Superblock) (m : Machine n) : Except Halt (Machine n) :=
  match m.phase with
  | .readHead => do
    let m ← m.readHead sb
    .ok { m with phase := .install 0 }
  | .install tail =>
    match m.lh[tail]? with
    | some b => do
      let m ← m.copy (sb.slot tail) b
      .ok { m with phase := .install (tail + 1) }
    | none => do
      let m ← { m with lh := [] }.writeHead sb
      .ok { m with phase := .up }
  | .up => .error .blocked

def step (sb : Superblock) (m : Machine n) : Act n → Except Halt (Machine n)
  | .beginOp p => m.beginOp p
  | .modify p b data => m.modify sb p b data
  | .append p => m.append p
  | .endOp p => m.endOp p
  | .commit p => m.commit sb p
  | .read b => m.read b
  | .release b => m.release b
  | .crash => .ok m.crash
  | .recover => m.recover sb

def boot (disk : Nat → Block) : Machine n where
  disk := disk
  cache := ⟨fun _ => none,[]⟩
  lh := []
  outstanding := 0
  committing := false
  pc := fun _ => .out
  phase := .readHead

end Machine

def fsLog (sb : Superblock) (n : Nat) (disk : Nat → Block) : System (Machine n) (Act n) Halt where
  init := .boot disk
  step := Machine.step sb

end Fs
