import Mathlib.Tactic
import OscAssignments.Shell.Recall

namespace Shell
open Runs
namespace Session

def thirds : Bytes → Bytes
  | _ :: _ :: c :: rest => c :: thirds rest
  | _ => []

def ups (command : Bytes) : Nat := (thirds command).countP (· = 65)

def downs (command : Bytes) : Nat := (thirds command).countP (· ≠ 65)

theorem arrowOffset_eq (command : Bytes) :
    arrowOffset command = (ups command : Int) - downs command := by
  fun_induction thirds command with
  | case1 a b c rest ih =>
    rcases eq_or_ne c 65 with rfl | hc
    · simp only [arrowOffset,ups,downs,thirds,List.countP_cons] at ih ⊢
      simp [ih]
      omega
    · simp only [arrowOffset,ups,downs,thirds,List.countP_cons] at ih ⊢
      simp [ih,hc]
      omega
  | case2 command h =>
    rw [arrowOffset.eq_2 command h,ups,downs,thirds.eq_2 command h]
    rfl

def Recalls (exec : Session → Nat → Session) (s : Session) (command : Bytes) : Prop :=
  (lookUp s.history command = .missing ∧ handleArrows exec s command = s) ∨
    ∃ i p line, i < s.history.storedCount ∧ s.history.commandHistory[i]? = some p ∧
      line = s.history.text p ∧ lookUp s.history command = .entry p ∧
      line.length + 1 ≤ command.length + 1 ∧
      handleArrows exec s command =
        exec { s with history := s.history.enter line, entered := s.entered ++ [line] }
          s.history.buffers.length ∧
      (s.history.enter line).text s.history.buffers.length = line

def Recallable (h : History) (command : Bytes) : Prop :=
  ups command < downs command ∨ h.storedCount + downs command < ups command ∨
    (downs command < ups command ∧
      ∀ p, h.commandHistory[h.storedCount + downs command - ups command]? = some p →
        (h.text p).length ≤ command.length)

theorem lookUp_missing {h : History} {command : Bytes}
    (hn : ups command < downs command ∨ h.storedCount + downs command < ups command) :
    lookUp h command = .missing := by
  rw [lookUp]
  simp only [arrowOffset_eq]
  rw [if_pos (by omega)]

theorem lookUp_index {h : History} {command : Bytes} {i : Nat}
    (hi : i + ups command = h.storedCount + downs command) (hlow : downs command ≤ ups command) :
    ¬(arrowOffset command < 0 ∨ (h.storedCount : Int) < arrowOffset command) ∧
      ((h.storedCount : Int) - arrowOffset command).toNat = i := by
  rw [arrowOffset_eq]
  omega

theorem lookUp_entry {h : History} {command : Bytes} {i p : Nat}
    (hi : i + ups command = h.storedCount + downs command) (hlow : downs command ≤ ups command)
    (hp : h.commandHistory[i]? = some p) : lookUp h command = .entry p := by
  obtain ⟨hin,heq⟩ := lookUp_index hi hlow
  rw [lookUp]
  simp only [if_neg hin,heq,hp]

theorem lookUp_null {h : History} {command : Bytes} (heq : ups command = downs command) :
    lookUp h command = .null := by
  obtain ⟨hin,hi⟩ := lookUp_index (h := h) (i := h.storedCount) (by omega) heq.ge
  have hnone : h.commandHistory[h.storedCount]? = none := List.getElem?_eq_none le_rfl
  rw [lookUp]
  simp only [if_neg hin,hi,hnone]

section Cases
variable {exec : Session → Nat → Session} {s : Session} {command : Bytes}

theorem recalls_missing (h : lookUp s.history command = .missing) : Recalls exec s command := by
  refine .inl ⟨h,?_⟩
  rw [handleArrows,h]

theorem not_recalls_null (h : lookUp s.history command = .null) : ¬Recalls exec s command := by
  rintro (⟨hm,-⟩ | ⟨i,p,line,-,-,-,he,-,-,-⟩)
  · rw [h] at hm
    cases hm
  · rw [h] at he
    cases he

theorem recalls_entry {i p : Nat} (h : lookUp s.history command = .entry p)
    (hp : s.history.commandHistory[i]? = some p) :
    Recalls exec s command ↔ (s.history.text p).length ≤ command.length := by
  constructor
  · rintro (⟨hm,-⟩ | ⟨i',p',line,-,-,rfl,he,hfit,-,-⟩)
    · rw [h] at hm
      cases hm
    · rw [h] at he
      cases he
      omega
  · intro hfit
    have hi : i < s.history.storedCount := (List.getElem?_eq_some_iff.mp hp).1
    refine .inr ⟨i,p,_,hi,hp,rfl,h,by omega,?_,enter_text_new _ _⟩
    rw [handleArrows,h]
    exact if_neg (Nat.not_lt.mpr hfit)

end Cases

theorem recalls_iff_recallable (exec : Session → Nat → Session) (s : Session) (command : Bytes) :
    Recalls exec s command ↔ Recallable s.history command := by
  rcases lt_trichotomy (ups command) (downs command) with hlt | heq | hgt
  · exact ⟨fun _ => .inl hlt,fun _ => recalls_missing (lookUp_missing (.inl hlt))⟩
  · constructor
    · intro h
      exact absurd h (not_recalls_null (lookUp_null heq))
    · rintro (h | h | h) <;> omega
  · rcases lt_or_ge (s.history.storedCount + downs command) (ups command) with hover | hin
    · exact ⟨fun _ => .inr (.inl hover),fun _ => recalls_missing (lookUp_missing (.inr hover))⟩
    · have hlt : s.history.storedCount + downs command - ups command <
          s.history.commandHistory.length := by
        rw [← History.storedCount]
        omega
      have hget := List.getElem?_eq_getElem hlt
      rw [recalls_entry (lookUp_entry (by omega) hgt.le hget) hget]
      constructor
      · intro hfit
        refine .inr (.inr ⟨hgt,?_⟩)
        intro p hp
        rw [hget] at hp
        cases hp
        exact hfit
      · rintro (h | h | ⟨-,hfit⟩)
        · omega
        · omega
        · exact hfit _ hget

def upThenDown : Bytes := [esc,91,65,esc,91,66]

theorem arrows_fault :
    let s := (shell 4 fresh).after [.enter (ascii ['e','c','h','o',' ','a']),.exec plainWorld]
    (shell 4 fresh).Reachable s ∧ s.status = .running ∧ s.history.storedCount = 1 ∧
      isArrow upThenDown = true ∧
      (handleArrows (execCommand plainWorld 4) s upThenDown).status = .crashed ∧
      ¬Recalls (execCommand plainWorld 4) s upThenDown ∧ isArrow (up 1) = true ∧
      (handleArrows (execCommand plainWorld 4) s (up 1)).status = .outOfBounds ∧
      ¬Recalls (execCommand plainWorld 4) s (up 1) := by
  refine ⟨System.reachable_after (by decide +kernel),by decide +kernel,by decide +kernel,
    by decide +kernel,by decide +kernel,?_,by decide +kernel,by decide +kernel,?_⟩
  · exact not_recalls_null (lookUp_null (by decide +kernel))
  · rw [recalls_entry (i := 0) (p := 0) (lookUp_entry (i := 0) (by decide +kernel) (by decide +kernel)
      (by decide +kernel)) (by decide +kernel)]
    decide +kernel

end Session
end Shell
