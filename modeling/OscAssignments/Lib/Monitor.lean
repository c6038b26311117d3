import Mathlib.Tactic
import Mathlib.Logic.Function.Basic

namespace Monitor
variable {ι P : Type} [DecidableEq ι] {holding : P → Bool} {pc pc' : ι → P} {lock lock' : Option ι}
  {p q : ι} {x : P}

def Locked (holding : P → Bool) (pc : ι → P) (lock : Option ι) : Prop :=
  ∀ q, holding (pc q) = true ↔ lock = some q

omit [DecidableEq ι] in
theorem Locked.unique (h : Locked holding pc lock) (hp : holding (pc p) = true)
    (hq : holding (pc q) = true) : p = q :=
  Option.some.inj (((h p).mp hp).symm.trans ((h q).mp hq))

omit [DecidableEq ι] in
theorem Locked.not_holding (h : Locked holding pc none) (q : ι) : holding (pc q) = false := by
  rw [← Bool.not_eq_true,h q]
  simp

theorem Locked.update (h : Locked holding pc lock) (hsame : ∀ q, holding (pc' q) = holding (pc q))
    (hand : (holding x = holding (pc p) ∧ lock' = lock) ∨
      (lock = none ∧ lock' = some p ∧ holding x = true) ∨
        (holding (pc p) = true ∧ lock' = none ∧ holding x = false)) :
    Locked holding (Function.update pc' p x) lock' := by
  intro q
  rcases eq_or_ne q p with rfl | hne
  · rw [Function.update_self]
    rcases hand with ⟨hkeep,rfl⟩ | ⟨-,hlock,hhold⟩ | ⟨-,hlock,hhold⟩
    · rw [hkeep]
      exact h q
    · exact iff_of_true hhold hlock
    · rw [hlock,hhold]
      exact iff_of_false (by simp) (by simp)
  · rw [Function.update_of_ne hne,hsame q]
    rcases hand with ⟨-,rfl⟩ | ⟨hfree,hlock,-⟩ | ⟨hheld,hlock,-⟩
    · exact h q
    · rw [h q,hfree,hlock]
      exact iff_of_false (by simp) fun he => hne (Option.some.inj he).symm
    · rw [hlock]
      exact iff_of_false (fun hq => hne (h.unique hq hheld)) (by simp)

end Monitor
