import Mathlib.Tactic
import OscAssignments.Sorts.Code

namespace Sorts
open ForkJoin

def Op.Within (l r : Int) : Op → Prop
  | .read i => l ≤ i ∧ i ≤ r
  | .write i _ => l ≤ i ∧ i ≤ r
  | .rand l' r' => l ≤ l' ∧ r' ≤ r

theorem Op.Within.mono {l r l' r' : Int} {o : Op} (h : o.Within l r) (hl : l' ≤ l) (hr : r ≤ r') :
    o.Within l' r' := by
  cases o with
  | read i => exact ⟨hl.trans h.1,h.2.trans hr⟩
  | write i v => exact ⟨hl.trans h.1,h.2.trans hr⟩
  | rand a b => exact ⟨hl.trans h.1,h.2.trans hr⟩

section Bodies
variable {R : Type} {d : Source R} {l r : Int}

theorem uses_write {i v : Int} (h : l ≤ i ∧ i ≤ r) : (write i v).Uses (exec d) (Op.Within l r) :=
  ⟨h,fun _ => trivial⟩

theorem uses_swap {i j : Int} (hi : l ≤ i ∧ i ≤ r) (hj : l ≤ j ∧ j ≤ r) :
    (swap i j).Uses (exec d) (Op.Within l r) := by
  refine ⟨hi,fun t => ⟨hj,fun x => ?_⟩⟩
  exact (uses_write hi).bind fun _ _ => uses_write hj

theorem uses_loop {body : Int → Code Unit} {k u : Int} (n : Nat) {i : Int} (hn : i + n = u)
    (hi : k ≤ i) (hbody : ∀ x, k ≤ x → x < u → (body x).Uses (exec d) (Op.Within l r)) :
    (loop body n i).Uses (exec d) (Op.Within l r) := by
  induction n generalizing i with
  | zero => exact trivial
  | succ n ih => exact (hbody i hi (by omega)).bind fun _ _ => ih (by omega) (by omega)

theorem uses_forUpTo {body : Int → Code Unit} {k u : Int}
    (hbody : ∀ x, k ≤ x → x < u → (body x).Uses (exec d) (Op.Within l r)) :
    (forUpTo k u body).Uses (exec d) (Op.Within l r) := by
  rcases le_or_gt k u with hku | huk
  · exact uses_loop (u - k).toNat (show k + _ = u by omega) le_rfl hbody
  · have h0 : (u - k).toNat = 0 := by omega
    rw [forUpTo,h0]
    exact trivial

theorem uses_exchange {i j : Int} (hi : l ≤ i ∧ i ≤ r) (hj : l ≤ j ∧ j ≤ r) :
    (exchange r i j).Uses (exec d) (Op.Within l r) := by
  refine ⟨hj,fun y => ⟨hi,fun x => ?_⟩⟩
  change (if y < x ∧ j ≤ r then swap i j else .ret ()).Uses (exec d) (Op.Within l r)
  split
  · exact uses_swap hi hj
  · exact trivial

theorem uses_insertionSort : (insertionSort l r).Uses (exec d) (Op.Within l r) := by
  apply uses_forUpTo
  intro i hi hir
  apply uses_forUpTo
  intro j hj hjr
  exact uses_exchange ⟨hi,by omega⟩ ⟨by omega,by omega⟩

theorem obeys_scanUp {pivot : Int} (n : Nat) {i : Int} (hi : l - 1 ≤ i) (hir : i ≤ r) :
    (scanUp r pivot n i).Obeys (exec d) (Op.Within l r) fun i' => i < i' ∧ i' ≤ r + 1 := by
  induction n generalizing i with
  | zero => exact trivial
  | succ n ih =>
    rw [scanUp]
    split
    case isTrue h =>
      refine ⟨⟨by omega,h⟩,fun x => ?_⟩
      change Prog.Obeys (exec d) _ _ (if x < pivot then scanUp r pivot n (i + 1) else .ret (i + 1))
      split
      · exact (ih (by omega) h).mono (fun _ ho => ho) fun a ha => ⟨by omega,ha.2⟩
      · exact ⟨by omega,by omega⟩
    case isFalse h => exact ⟨by omega,by omega⟩

theorem obeys_scanDown {pivot : Int} (n : Nat) {j : Int} (hj : l ≤ j) (hjr : j ≤ r + 1) :
    (scanDown l pivot n j).Obeys (exec d) (Op.Within l r) fun j' => l - 1 ≤ j' ∧ j' < j := by
  induction n generalizing j with
  | zero => exact trivial
  | succ n ih =>
    rw [scanDown]
    split
    case isTrue h =>
      refine ⟨⟨h,by omega⟩,fun x => ?_⟩
      change Prog.Obeys (exec d) _ _ (if pivot < x then scanDown l pivot n (j - 1) else .ret (j - 1))
      split
      · exact (ih h (by omega)).mono (fun _ ho => ho) fun a ha => ⟨ha.1,by omega⟩
      · exact ⟨by omega,by omega⟩
    case isFalse h => exact ⟨by omega,by omega⟩

theorem obeys_partitionLoop {pivot : Int} (n : Nat) {i j : Int} (hi : l - 1 ≤ i) (hij : i < j)
    (hj : j ≤ r + 1) :
    (partitionLoop l r pivot n i j).Obeys (exec d) (Op.Within l r) fun p => l - 1 ≤ p ∧ p ≤ r := by
  induction n generalizing i j with
  | zero => exact trivial
  | succ n ih =>
    refine (obeys_scanUp (d := d) (l := l) _ hi (by omega)).bind fun i' hi' => ?_
    refine (obeys_scanDown (d := d) (r := r) _ (by omega) hj).bind fun j' hj' => ?_
    change Prog.Obeys (exec d) _ _ (if j' ≤ i' then .ret j' else
      (swap i' j').bind fun _ => partitionLoop l r pivot n i' j')
    split
    case isTrue h => exact ⟨hj'.1,by omega⟩
    case isFalse h =>
      refine (uses_swap ⟨by omega,by omega⟩ ⟨by omega,by omega⟩).bind fun _ _ => ?_
      exact ih (by omega) (by omega) (by omega)

theorem obeys_partition (hlr : l ≤ r) :
    (partition l r).Obeys (exec d) (Op.Within l r) fun p => l - 1 ≤ p ∧ p ≤ r := by
  refine ⟨⟨le_rfl,le_rfl⟩,fun x => ?_⟩
  have hlen : 0 < r - l + 1 := by omega
  have h0 := Int.emod_nonneg x hlen.ne'
  have h1 := Int.emod_lt_of_pos x hlen
  refine ⟨⟨by omega,by omega⟩,fun pivot => ?_⟩
  exact obeys_partitionLoop _ le_rfl (by omega) le_rfl

theorem uses_normalQuicksortIn (n : Nat) {l r : Int} :
    (normalQuicksortIn n l r).Uses (exec d) (Op.Within l r) := by
  induction n generalizing l r with
  | zero => exact trivial
  | succ n ih =>
    rw [normalQuicksortIn]
    split
    · exact trivial
    · split
      · exact uses_insertionSort
      · refine (obeys_partition (by omega)).bind fun p hp => ?_
        have hl : (normalQuicksortIn n l (p - 1)).Uses (exec d) (Op.Within l r) :=
          ih.mono (fun _ ho => ho.mono le_rfl (by omega)) fun _ h => h
        have hr : (normalQuicksortIn n (p + 1) r).Uses (exec d) (Op.Within l r) :=
          ih.mono (fun _ ho => ho.mono (by omega) le_rfl) fun _ h => h
        exact hl.bind fun _ _ => hr

end Bodies
end Sorts
