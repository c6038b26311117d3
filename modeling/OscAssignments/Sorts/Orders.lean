import Mathlib.Tactic
import OscAssignments.Sorts.Agreement

namespace Sorts
open ForkJoin Segments

def orderedQuicksortIn (rightFirst : Int → Int → Bool) : Nat → Int → Int → Code Unit
  | 0, _, _ => .stuck
  | n + 1, l, r =>
    if r ≤ l then pure ()
    else if r - l + 1 ≤ 5 then insertionSort l r
    else do
      let pivotIdx ← partition l r
      if rightFirst l r then do
        orderedQuicksortIn rightFirst n (pivotIdx + 1) r
        orderedQuicksortIn rightFirst n l (pivotIdx - 1)
      else do
        orderedQuicksortIn rightFirst n l (pivotIdx - 1)
        orderedQuicksortIn rightFirst n (pivotIdx + 1) r

def orderedQuicksort (rightFirst : Int → Int → Bool) (l r : Int) : Code Unit :=
  orderedQuicksortIn rightFirst (depth l r) l r

section Commuting
variable {choose : List Int → Nat} {rightFirst : Int → Int → Bool}

theorem run_halves_comm {n : Nat} {l r p : Int} {m m₁ m₂ n₁ n₂ : Memory Unit}
    (h₁ : (normalQuicksortIn n l (p - 1)).run (exec (bySegment choose)) m = .returned () m₁)
    (h₂ : (normalQuicksortIn n (p + 1) r).run (exec (bySegment choose)) m₁ = .returned () m₂)
    (k₁ : (normalQuicksortIn n (p + 1) r).run (exec (bySegment choose)) m = .returned () n₁)
    (k₂ : (normalQuicksortIn n l (p - 1)).run (exec (bySegment choose)) n₁ = .returned () n₂) :
    m₂ = n₂ := by
  have hl : (normalQuicksortIn n l (p - 1)).Uses (exec (bySegment choose)) (Op.Within l (p - 1)) :=
    uses_normalQuicksortIn n
  have hr : (normalQuicksortIn n (p + 1) r).Uses (exec (bySegment choose)) (Op.Within (p + 1) r) :=
    uses_normalQuicksortIn n
  have hcomm := Prog.run_comm hl hr
    (fun o o' ho ho' => indep_of_disjoint (c := choose) (by omega) ho ho') m
  rw [h₁,k₁] at hcomm
  simp only [Outcome.state?_returned,Option.bind_some,h₂,k₂] at hcomm
  exact Option.some.inj hcomm

theorem run_orderedQuicksortIn {n : Nat} {l r : Int} (hn : r - l + 1 < n) (hn0 : 0 < n)
    (m : Memory Unit) :
    (orderedQuicksortIn rightFirst n l r).run (exec (bySegment choose)) m =
      (normalQuicksortIn n l r).run (exec (bySegment choose)) m := by
  induction n generalizing l r m with
  | zero => omega
  | succ n ih =>
    rcases le_or_gt r l with hrl | hlr
    · rw [orderedQuicksortIn,normalQuicksortIn,if_pos hrl,if_pos hrl]
    · rcases le_or_gt (r - l + 1) 5 with hlen | hlen
      · simp only [orderedQuicksortIn,normalQuicksortIn,if_neg (not_le.mpr hlr),if_pos hlen]
      · obtain ⟨p,m1,m2,m3,h⟩ := exists_halves (d := bySegment choose) (n := n) (by omega) hlen m
        have hlow := h.low
        have hhigh := h.high
        have hleft := ih (l := l) (r := p - 1) (by omega) (by omega)
        have hright := ih (l := p + 1) (r := r) (by omega) (by omega)
        rw [h.whole,orderedQuicksortIn,if_neg (by omega),if_neg (by omega),Prog.bind_eq,
          Prog.run_bind_returned h.split]
        cases rightFirst l r with
        | false =>
          simp only [Bool.false_eq_true,if_false,Prog.bind_eq,Prog.run_bind,hleft,h.left,
            Outcome.andThen_returned,hright,h.right]
        | true =>
          obtain ⟨n2,k2,-⟩ := run_normalQuicksortIn (d := bySegment choose) (n := n) (l := p + 1)
            (r := r) (by omega) (by omega) m1
          obtain ⟨n3,k3,-⟩ := run_normalQuicksortIn (d := bySegment choose) (n := n) (l := l)
            (r := p - 1) (by omega) (by omega) n2
          simp only [if_true,Prog.bind_eq,Prog.run_bind,hright,k2,Outcome.andThen_returned,hleft,
            k3,run_halves_comm h.left h.right k2 k3]

end Commuting

end Sorts
