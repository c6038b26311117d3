import OscAssignments.Console.Line
import OscAssignments.Lib.Monitor

namespace Console
open Runs Counter Xv6

variable {n : Nat}

namespace Pc

def holding : Pc → Bool
  | .read _ _ _ => true
  | .sleep _ _ _ => true
  | _ => false

def call : Pc → Option (Nat × Nat × List UInt8)
  | .user _ _ => none
  | .lock target k dst => some (target,k,dst)
  | .read target k dst => some (target,k,dst)
  | .sleep target k dst => some (target,k,dst)
  | .asleep target k dst => some (target,k,dst)

def waits : Pc → Bool
  | .sleep _ _ _ => true
  | .asleep _ _ _ => true
  | _ => false

theorem wake_cases (pc : Pc) :
    pc.wake = pc ∨ ∃ target k dst, pc = .asleep target k dst ∧ pc.wake = .lock target k dst := by
  cases pc with
  | asleep target k dst => exact .inr ⟨target,k,dst,rfl,rfl⟩
  | _ => exact .inl rfl

theorem holding_wake (pc : Pc) : pc.wake.holding = pc.holding := by
  rcases pc.wake_cases with h | ⟨target,k,dst,rfl,h⟩
  · rw [h]
  · rw [h]
    rfl

theorem call_wake (pc : Pc) : pc.wake.call = pc.call := by
  rcases pc.wake_cases with h | ⟨target,k,dst,rfl,h⟩
  · rw [h]
  · rw [h]
    rfl

end Pc

namespace Machine
variable {m m' c : Machine n} {g : List UInt8} {t : Tty} {p q : Fin n} {a : Act n}

inductive Effect (m : Machine n) : Act n → Machine n → Prop
  | key (c : UInt8) (hlock : m.lock = none) : Effect m (.key c) (m.consoleintr c)
  | call {p : Fin n} (target : Nat) (hp : m.userMode p = true) :
      Effect m (.read p target) (m.setPc p (.lock target target []))
  | kill (p : Fin n) :
      Effect m (.kill p)
        ({ m with killed := Function.update m.killed p true }.setPc p (m.pc p).wake)
  | lock {p : Fin n} {target k : Nat} {dst : List UInt8} (hpc : m.pc p = .lock target k dst)
      (hlock : m.lock = none) :
      Effect m (.run p) ({ m with lock := some p }.setPc p (.read target k dst))
  | sleep {p : Fin n} {target k : Nat} {dst : List UInt8} (hpc : m.pc p = .sleep target k dst) :
      Effect m (.run p) (m.unlock.setPc p (.asleep target k dst))
  | all {p : Fin n} {target : Nat} {dst : List UInt8} (hpc : m.pc p = .read target 0 dst) :
      Effect m (.run p) (m.unlock.setPc p (.user (target - 0 : Nat) dst))
  | killed {p : Fin n} {target k : Nat} {dst : List UInt8} (hpc : m.pc p = .read target k dst)
      (hmore : k ≠ 0) (hempty : m.r = m.w) (hkilled : m.killed p = true) :
      Effect m (.run p) (m.unlock.setPc p (.user (-1) dst))
  | empty {p : Fin n} {target k : Nat} {dst : List UInt8} (hpc : m.pc p = .read target k dst)
      (hmore : k ≠ 0) (hempty : m.r = m.w) (hkilled : m.killed p = false) :
      Effect m (.run p) (m.setPc p (.sleep target k dst))
  | putBack {p : Fin n} {target k : Nat} {dst : List UInt8} (hpc : m.pc p = .read target k dst)
      (hmore : k ≠ 0) (hready : m.r ≠ m.w) (heof : m.cell m.r = C 'D') (hsome : k < target) :
      Effect m (.run p) (m.unlock.setPc p (.user (target - k : Int) dst))
  | eof {p : Fin n} {target k : Nat} {dst : List UInt8} (hpc : m.pc p = .read target k dst)
      (hmore : k ≠ 0) (hready : m.r ≠ m.w) (heof : m.cell m.r = C 'D') (hnone : target ≤ k) :
      Effect m (.run p) ({ m with r := m.r + 1 }.unlock.setPc p (.user (target - k : Int) dst))
  | line {p : Fin n} {target k : Nat} {dst : List UInt8} (hpc : m.pc p = .read target k dst)
      (hmore : k ≠ 0) (hready : m.r ≠ m.w) (hline : m.cell m.r = newline) :
      Effect m (.run p) ({ m with r := m.r + 1 }.unlock.setPc p
        (.user (target - (k - 1 : Nat) : Int) (dst ++ [m.cell m.r])))
  | copy {p : Fin n} {target k : Nat} {dst : List UInt8} (hpc : m.pc p = .read target k dst)
      (hmore : k ≠ 0) (hready : m.r ≠ m.w) (hplain : Tty.endsLine (m.cell m.r) = false) :
      Effect m (.run p) ({ m with r := m.r + 1 }.setPc p
        (.read target (k - 1) (dst ++ [m.cell m.r])))

theorem consoleread_effect {target k : Nat} {dst : List UInt8} (hpc : m.pc p = .read target k dst) :
    Effect m (.run p) (m.consoleread p target k dst) := by
  unfold consoleread
  dsimp only
  split_ifs with hk hempty hkilled heof hsome hline
  · subst hk
    exact .all hpc
  · exact .killed hpc hk hempty hkilled
  · exact .empty hpc hk hempty (Bool.not_eq_true _ ▸ hkilled)
  · rw [BitVec.add_sub_cancel]
    exact .putBack hpc hk hempty heof hsome
  · exact .eof hpc hk hempty heof (not_lt.mp hsome)
  · exact .line hpc hk hempty hline
  · refine .copy hpc hk hempty ?_
    rw [Tty.endsLine,decide_eq_false_iff_not,not_or]
    exact ⟨hline,heof⟩

theorem step_effect (h : m.step a = .ok m') : Effect m a m' := by
  cases a with
  | key x =>
    obtain ⟨_,hneed,h⟩ := bind_eq_ok.mp h
    cases h
    exact .key x (need_eq_ok.mp hneed)
  | read p target =>
    obtain ⟨_,hneed,h⟩ := bind_eq_ok.mp h
    cases h
    exact .call target (need_eq_ok.mp hneed)
  | kill p =>
    cases h
    exact .kill p
  | run p =>
    change m.run p = .ok m' at h
    unfold run at h
    split at h
    case h_1 => cases h
    case h_2 => cases h
    case h_3 target k dst hpc =>
      obtain ⟨_,hneed,h⟩ := bind_eq_ok.mp h
      cases h
      exact .lock hpc (need_eq_ok.mp hneed)
    case h_4 target k dst hpc =>
      cases h
      exact consoleread_effect hpc
    case h_5 target k dst hpc =>
      cases h
      exact .sleep hpc

theorem userMode_eq (h : m.userMode p = true) : ∃ ret dst, m.pc p = .user ret dst := by
  unfold userMode at h
  split at h
  case h_1 ret dst hpc => exact ⟨ret,dst,hpc⟩
  case h_2 => cases h

theorem consoleintr_frame (m : Machine n) (x : UInt8) :
    (m.consoleintr x).lock = m.lock ∧ (m.consoleintr x).r = m.r ∧
      ((m.consoleintr x).pc = m.pc ∧ (m.consoleintr x).w = m.w ∨
        (m.consoleintr x).pc = fun p => (m.pc p).wake) := by
  obtain ⟨hr,hw⟩ := m.toInput.key_frame x
  unfold consoleintr
  dsimp only
  split_ifs with hwakes
  · exact ⟨rfl,hr,.inr rfl⟩
  · exact ⟨rfl,hr,.inl ⟨rfl,hw (Bool.eq_false_of_not_eq_true hwakes)⟩⟩

theorem consoleintr_input (m : Machine n) (x : UInt8) :
    (m.consoleintr x).toInput = (m.toInput.key x).1 := by
  unfold consoleintr
  dsimp only
  split_ifs <;> rfl

def Locked (m : Machine n) : Prop := Monitor.Locked Pc.holding m.pc m.lock

theorem effect_locked (he : Effect m a m') (h : Locked m) : Locked m' := by
  have hsame : ∀ q, (m.pc q).holding = (m.pc q).holding := fun _ => rfl
  have hrelease : ∀ {p : Fin n} {pc : Pc} (r : BitVec 32), (m.pc p).holding = true →
      pc.holding = false → Locked ({ m with r := r }.unlock.setPc p pc) := by
    intro p pc r hp hpc
    exact h.update hsame (.inr (.inr ⟨hp,rfl,hpc⟩))
  cases he with
  | key x hlock =>
    obtain ⟨hl,-,⟨hpc,-⟩ | hpc⟩ := consoleintr_frame m x
    · rw [Locked,hl,hpc]
      exact h
    · rw [Locked,hl,hpc]
      intro q
      rw [Pc.holding_wake]
      exact h q
  | call target hp =>
    obtain ⟨ret,dst,hpc⟩ := userMode_eq hp
    exact h.update hsame (.inl ⟨by rw [hpc]; rfl,rfl⟩)
  | kill p =>
    exact h.update hsame (.inl ⟨Pc.holding_wake _,rfl⟩)
  | @lock p target k dst hpc hlock =>
    exact h.update hsame (.inr (.inl ⟨hlock,rfl,rfl⟩))
  | sleep hpc => exact hrelease m.r (by rw [hpc]; rfl) rfl
  | all hpc => exact hrelease m.r (by rw [hpc]; rfl) rfl
  | killed hpc => exact hrelease m.r (by rw [hpc]; rfl) rfl
  | empty hpc => exact h.update hsame (.inl ⟨by rw [hpc]; rfl,rfl⟩)
  | putBack hpc => exact hrelease m.r (by rw [hpc]; rfl) rfl
  | eof hpc => exact hrelease (m.r + 1) (by rw [hpc]; rfl) rfl
  | line hpc => exact hrelease (m.r + 1) (by rw [hpc]; rfl) rfl
  | copy hpc =>
    exact h.update hsame (.inl ⟨by rw [hpc]; rfl,rfl⟩)

def take (m : Machine n) : Act n → Option UInt8
  | .run p =>
    match m.pc p with
    | .read target k _ =>
      if k = 0 ∨ m.r = m.w ∨ (m.cell m.r = C 'D' ∧ k < target) then none else some (m.cell m.r)
    | _ => none
  | _ => none

def expected (m : Machine n) : Act n → Tty
  | .key c => m.tty.key c
  | a => { m.tty with ready := m.tty.ready.drop (m.take a).toList.length }

theorem shows_effect (h : m.Shows g t) (he : Effect m a m') :
    m'.Shows (g ++ (m.take a).toList) (m.expected a) ∧
      ∀ x, m.take a = some x → t.ready.head? = some x := by
  have hkeep : ∀ {m' : Machine n}, (∀ x, a ≠ .key x) → m.take a = none →
      m'.toInput = m.toInput → m'.Shows (g ++ (m.take a).toList) (m.expected a) ∧
        ∀ x, m.take a = some x → t.ready.head? = some x := by
    intro m' ha htake hinput
    have hexp : m.expected a = t := by
      unfold expected
      split
      · exact absurd rfl (ha _)
      · rw [htake,h.tty_eq]
        rfl
    rw [hexp,htake,Option.toList_none,List.append_nil]
    exact ⟨hinput ▸ h,by simp⟩
  have hmove : ∀ {p : Fin n} {m' : Machine n}, a = .run p → m.r ≠ m.w →
      m.take a = some (m.cell m.r) → m'.toInput = { m.toInput with r := m.r + 1 } →
      m'.Shows (g ++ (m.take a).toList) (m.expected a) ∧
        ∀ x, m.take a = some x → t.ready.head? = some x := by
    rintro p m' rfl hready htake hinput
    obtain ⟨rest,hcons,hpop⟩ := h.pop hready
    have hexp : m.expected (.run p) =
        { m.tty with ready := m.tty.ready.drop (m.take (.run p)).toList.length } := rfl
    rw [hexp,htake,h.tty_eq,hcons]
    refine ⟨hinput ▸ hpop,?_⟩
    rintro x ⟨⟩
    rfl
  cases he with
  | key x hlock =>
    have hexp : m.expected (.key x) = m.tty.key x := rfl
    have htake : m.take (.key x) = none := rfl
    rw [hexp,h.tty_eq,htake,Option.toList_none,List.append_nil]
    exact ⟨consoleintr_input m x ▸ h.key x,by simp⟩
  | call target hp => exact hkeep nofun rfl rfl
  | kill p => exact hkeep nofun rfl rfl
  | lock hpc => exact hkeep nofun (by rw [take,hpc]) rfl
  | sleep hpc => exact hkeep nofun (by rw [take,hpc]) rfl
  | all hpc => exact hkeep nofun (by rw [take,hpc]; exact if_pos (.inl rfl)) rfl
  | killed hpc hmore hempty =>
    exact hkeep nofun (by rw [take,hpc]; exact if_pos (.inr (.inl hempty))) rfl
  | empty hpc hmore hempty =>
    exact hkeep nofun (by rw [take,hpc]; exact if_pos (.inr (.inl hempty))) rfl
  | putBack hpc hmore hready heof hsome =>
    exact hkeep nofun (by rw [take,hpc]; exact if_pos (.inr (.inr ⟨heof,hsome⟩))) rfl
  | eof hpc hmore hready heof hnone =>
    refine hmove rfl hready ?_ rfl
    rw [take,hpc]
    refine if_neg ?_
    rintro (hk | hk | ⟨-,hk⟩)
    · exact hmore hk
    · exact hready hk
    · omega
  | line hpc hmore hready hline =>
    refine hmove rfl hready ?_ rfl
    rw [take,hpc]
    refine if_neg ?_
    rintro (hk | hk | ⟨hk,-⟩)
    · exact hmore hk
    · exact hready hk
    · rw [hline] at hk
      exact absurd hk (by decide)
  | copy hpc hmore hready hplain =>
    refine hmove rfl hready ?_ rfl
    rw [take,hpc]
    refine if_neg ?_
    rintro (hk | hk | ⟨hk,-⟩)
    · exact hmore hk
    · exact hready hk
    · rw [hk] at hplain
      exact absurd hplain (by decide)

end Machine

end Console
