import OscAssignments.Pipe.Code

namespace Pipe
open Runs

variable {n : Nat}

namespace Pc

def holding : Pc → Bool
  | .write _ _ => true
  | .writeSleep _ _ => true
  | .readTest _ => true
  | .readSleep _ => true
  | .read _ _ => true
  | _ => false

def uses : Pc → Option End
  | .user _ => none
  | .close _ => none
  | .writeLock _ _ => some .write
  | .write _ _ => some .write
  | .writeSleep _ _ => some .write
  | .writeAsleep _ _ => some .write
  | .readLock _ => some .read
  | .readTest _ => some .read
  | .readSleep _ => some .read
  | .readAsleep _ => some .read
  | .read _ _ => some .read

def closes : Pc → Option End
  | .close e => some e
  | _ => none

theorem closes_eq {pc : Pc} {e : End} : pc.closes = some e ↔ pc = .close e := by
  cases pc <;> simp [closes]

theorem inside_end (pc : Pc) (h : pc.inside = true) :
    ∃ e, pc.uses = some e ∨ pc.closes = some e := by
  cases pc <;> simp [inside,uses,closes] at h ⊢

theorem wake_cases (pc : Pc) (e : End) :
    pc.wake e = pc ∨ (∃ addr i, pc = .writeAsleep addr i ∧ pc.wake e = .writeLock addr i) ∨
      ∃ size, pc = .readAsleep size ∧ pc.wake e = .readLock size := by
  cases pc with
  | writeAsleep addr i =>
    cases e with
    | read => exact .inl rfl
    | write => exact .inr (.inl ⟨addr,i,rfl,rfl⟩)
  | readAsleep size =>
    cases e with
    | read => exact .inr (.inr ⟨size,rfl,rfl⟩)
    | write => exact .inl rfl
  | _ => exact .inl rfl

variable (pc : Pc) (e : End)

theorem holding_wake : (pc.wake e).holding = pc.holding := by
  rcases pc.wake_cases e with h | ⟨addr,i,rfl,h⟩ | ⟨size,rfl,h⟩ <;> rw [h] <;> rfl

theorem uses_wake : (pc.wake e).uses = pc.uses := by
  rcases pc.wake_cases e with h | ⟨addr,i,rfl,h⟩ | ⟨size,rfl,h⟩ <;> rw [h] <;> rfl

theorem closes_wake : (pc.wake e).closes = pc.closes := by
  rcases pc.wake_cases e with h | ⟨addr,i,rfl,h⟩ | ⟨size,rfl,h⟩ <;> rw [h] <;> rfl

end Pc

namespace Machine
variable {m m' : Machine n} {p q : Fin n} {e : End}

inductive Effect (m : Machine n) : Act n → Machine n → Prop
  | dup {p q : Fin n} {e : End} (hp : m.userMode p = true) (hq : m.userMode q = true)
      (hfd : 0 < m.fds p e) (href : 1 ≤ m.ref e) :
      Effect m (.filedup p q e)
        ({ m with ref := Function.update m.ref e (m.ref e + 1) }.setFds q e (m.fds q e + 1))
  | closeMore {p : Fin n} {e : End} (hp : m.userMode p = true) (hfd : 0 < m.fds p e)
      (href : 1 < m.ref e) :
      Effect m (.fileclose p e)
        { m.setFds p e (m.fds p e - 1) with ref := Function.update m.ref e (m.ref e - 1) }
  | closeLast {p : Fin n} {e : End} (hp : m.userMode p = true) (hfd : 0 < m.fds p e)
      (href : m.ref e = 1) :
      Effect m (.fileclose p e)
        ({ m.setFds p e (m.fds p e - 1) with ref := Function.update m.ref e 0 }.setPc p (.close e))
  | callWrite {p : Fin n} {addr : List UInt8} (hp : m.userMode p = true)
      (hfd : 0 < m.fds p .write) : Effect m (.write p addr) (m.setPc p (.writeLock addr 0))
  | callRead {p : Fin n} {size : Nat} (hp : m.userMode p = true) (hfd : 0 < m.fds p .read) :
      Effect m (.read p size) (m.setPc p (.readLock size))
  | kill (p : Fin n) :
      Effect m (.kill p)
        ({ m with killed := Function.update m.killed p true }.setPc p (m.pc p).rouse)
  | pipeclose {p : Fin n} {e : End} (hpc : m.pc p = .close e) (hlock : m.lock = none) :
      Effect m (.run p) ((m.pipeclose e).setPc p (.user 0))
  | lockWrite {p : Fin n} {addr : List UInt8} {i : Nat} (hpc : m.pc p = .writeLock addr i)
      (hlock : m.lock = none) :
      Effect m (.run p) ({ m with lock := some p }.setPc p (.write addr i))
  | lockRead {p : Fin n} {size : Nat} (hpc : m.pc p = .readLock size) (hlock : m.lock = none) :
      Effect m (.run p) ({ m with lock := some p }.setPc p (.readTest size))
  | writeDone {p : Fin n} {addr : List UInt8} {i : Nat} (hpc : m.pc p = .write addr i)
      (hend : addr[i]? = none) :
      Effect m (.run p) ((m.wakeup .read).unlock.setPc p (.user addr.length))
  | writeFails {p : Fin n} {addr : List UInt8} {i : Nat} {b : UInt8}
      (hpc : m.pc p = .write addr i) (hb : addr[i]? = some b) (hfull : m.full)
      (hfail : m.isOpen .read = false ∨ m.killed p = true) :
      Effect m (.run p) (m.unlock.setPc p (.user (-1)))
  | writeFull {p : Fin n} {addr : List UInt8} {i : Nat} {b : UInt8}
      (hpc : m.pc p = .write addr i) (hb : addr[i]? = some b) (hfull : m.full)
      (hopen : m.isOpen .read = true) (hkilled : m.killed p = false) :
      Effect m (.run p) ((m.wakeup .read).setPc p (.writeSleep addr i))
  | put {p : Fin n} {addr : List UInt8} {i : Nat} {b : UInt8} (hpc : m.pc p = .write addr i)
      (hb : addr[i]? = some b) (hroom : ¬ m.full) :
      Effect m (.run p) ((m.push b).setPc p (.write addr (i + 1)))
  | writeSleep {p : Fin n} {addr : List UInt8} {i : Nat} (hpc : m.pc p = .writeSleep addr i) :
      Effect m (.run p) (m.unlock.setPc p (.writeAsleep addr i))
  | readKilled {p : Fin n} {size : Nat} (hpc : m.pc p = .readTest size) (hempty : m.empty)
      (hopen : m.isOpen .write = true) (hkilled : m.killed p = true) :
      Effect m (.run p) (m.unlock.setPc p (.user (-1)))
  | readEmpty {p : Fin n} {size : Nat} (hpc : m.pc p = .readTest size) (hempty : m.empty)
      (hopen : m.isOpen .write = true) (hkilled : m.killed p = false) :
      Effect m (.run p) (m.setPc p (.readSleep size))
  | readReady {p : Fin n} {size : Nat} (hpc : m.pc p = .readTest size)
      (hready : ¬ m.empty ∨ m.isOpen .write = false) :
      Effect m (.run p) (m.setPc p (.read size []))
  | readSleep {p : Fin n} {size : Nat} (hpc : m.pc p = .readSleep size) :
      Effect m (.run p) (m.unlock.setPc p (.readAsleep size))
  | take {p : Fin n} {size : Nat} {addr : List UInt8} (hpc : m.pc p = .read size addr)
      (hsize : addr.length < size) (hready : ¬ m.empty) :
      Effect m (.run p) (m.pop.setPc p (.read size (addr ++ [m.front])))
  | readDone {p : Fin n} {size : Nat} {addr : List UInt8} (hpc : m.pc p = .read size addr)
      (hend : size ≤ addr.length ∨ m.empty) :
      Effect m (.run p) ((m.wakeup .write).unlock.setPc p (.user addr.length))

theorem pipewrite_effect {addr : List UInt8} {i : Nat} (hpc : m.pc p = .write addr i) :
    Effect m (.run p) (m.pipewrite p addr i) := by
  unfold pipewrite
  split
  case h_1 hend => exact .writeDone hpc hend
  case h_2 b hb =>
    split_ifs with hfull hfail
    · exact .writeFails hpc hb hfull hfail
    · rw [not_or,Bool.not_eq_false,Bool.not_eq_true] at hfail
      exact .writeFull hpc hb hfull hfail.1 hfail.2
    · exact .put hpc hb hfull

theorem readTest_effect {size : Nat} (hpc : m.pc p = .readTest size) :
    Effect m (.run p) (m.readTest p size) := by
  unfold readTest
  split_ifs with hempty hkilled
  · exact .readKilled hpc hempty.1 hempty.2 hkilled
  · exact .readEmpty hpc hempty.1 hempty.2 (Bool.not_eq_true _ ▸ hkilled)
  · rw [not_and_or,Bool.not_eq_true] at hempty
    exact .readReady hpc hempty

theorem piperead_effect {size : Nat} {addr : List UInt8} (hpc : m.pc p = .read size addr) :
    Effect m (.run p) (m.piperead p size addr) := by
  unfold piperead
  split_ifs with hmore
  · exact .take hpc hmore.1 hmore.2
  · rw [not_and_or,not_lt,not_not] at hmore
    exact .readDone hpc hmore

theorem run_effect (h : m.run p = .ok m') : m.freed = false ∧ Effect m (.run p) m' := by
  obtain ⟨_,_,h⟩ := bind_eq_ok.mp h
  split_ifs at h with hfreed
  refine ⟨Bool.not_eq_true _ ▸ hfreed,?_⟩
  cases hpc : m.pc p with
  | user ret => rw [hpc] at h; cases h
  | writeAsleep addr i => rw [hpc] at h; cases h
  | readAsleep size => rw [hpc] at h; cases h
  | close e =>
    rw [hpc] at h
    obtain ⟨_,hlock,h⟩ := bind_eq_ok.mp h
    cases h
    exact .pipeclose hpc (need_eq_ok.mp hlock)
  | writeLock addr i =>
    rw [hpc] at h
    obtain ⟨_,hlock,h⟩ := bind_eq_ok.mp h
    cases h
    exact .lockWrite hpc (need_eq_ok.mp hlock)
  | readLock size =>
    rw [hpc] at h
    obtain ⟨_,hlock,h⟩ := bind_eq_ok.mp h
    cases h
    exact .lockRead hpc (need_eq_ok.mp hlock)
  | write addr i =>
    rw [hpc] at h
    cases h
    exact pipewrite_effect hpc
  | writeSleep addr i =>
    rw [hpc] at h
    cases h
    exact .writeSleep hpc
  | readTest size =>
    rw [hpc] at h
    cases h
    exact readTest_effect hpc
  | readSleep size =>
    rw [hpc] at h
    cases h
    exact .readSleep hpc
  | read size addr =>
    rw [hpc] at h
    cases h
    exact piperead_effect hpc

theorem step_effect {a : Act n} (h : m.step a = .ok m') : Effect m a m' := by
  cases a with
  | filedup p q e =>
    obtain ⟨_,hneed,h⟩ := bind_eq_ok.mp h
    obtain ⟨hp,hq,hfd⟩ := need_eq_ok.mp hneed
    obtain ⟨m1,h1,h⟩ := bind_eq_ok.mp h
    unfold filedup at h1
    split_ifs at h1 with href
    cases h1
    cases h
    exact .dup hp hq hfd (by omega)
  | fileclose p e =>
    obtain ⟨_,hneed,h⟩ := bind_eq_ok.mp h
    obtain ⟨hp,hfd⟩ := need_eq_ok.mp hneed
    unfold fileclose at h
    split_ifs at h with href hmore
    · cases h
      exact .closeMore hp hfd (by simp only [setFds] at hmore; omega)
    · cases h
      exact .closeLast hp hfd (by simp only [setFds] at href hmore; omega)
  | write p addr =>
    obtain ⟨_,hneed,h⟩ := bind_eq_ok.mp h
    obtain ⟨hp,hfd⟩ := need_eq_ok.mp hneed
    cases h
    exact .callWrite hp hfd
  | read p size =>
    obtain ⟨_,hneed,h⟩ := bind_eq_ok.mp h
    obtain ⟨hp,hfd⟩ := need_eq_ok.mp hneed
    cases h
    exact .callRead hp hfd
  | kill p =>
    cases h
    exact .kill p
  | run p => exact (run_effect h).2

end Machine

end Pipe
