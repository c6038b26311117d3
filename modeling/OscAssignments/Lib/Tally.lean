import Mathlib.Tactic
import Mathlib.Data.Fintype.Card
import Mathlib.Data.Fintype.Pi

namespace Tally

variable {ι α : Type} [Fintype ι]

def tally (p : α → Bool) (f : ι → α) : Nat := (Finset.univ.filter fun i => p (f i) = true).card

theorem tally_congr {p q : α → Bool} {f g : ι → α} (h : ∀ i, p (f i) = q (g i)) :
    tally p f = tally q g := by
  unfold tally
  congr 1
  ext i
  simp only [Finset.mem_filter,Finset.mem_univ,true_and,h i]

theorem tally_eq_zero {p : α → Bool} {f : ι → α} : tally p f = 0 ↔ ∀ i, p (f i) = false := by
  unfold tally
  rw [Finset.card_eq_zero,Finset.filter_eq_empty_iff]
  simp

theorem card_le_tally {κ : Type} [Fintype κ] {p : α → Bool} {f : ι → α} (g : κ → ι)
    (hg : Function.Injective g) (h : ∀ k, p (f (g k)) = true) : Fintype.card κ ≤ tally p f := by
  unfold tally
  rw [← Finset.card_univ]
  exact Finset.card_le_card_of_injOn g (fun k _ => by simpa using h k) (fun a _ b _ he => hg he)

theorem tally_change [DecidableEq ι] {p : α → Bool} {f g : ι → α} {i : ι}
    (h : ∀ j, j ≠ i → p (g j) = p (f j)) :
    tally p g + (p (f i)).toNat = tally p f + (p (g i)).toNat := by
  have hsplit : ∀ g : ι → α,
      tally p g = ((Finset.univ.erase i).filter fun j => p (g j) = true).card + (p (g i)).toNat := by
    intro g
    unfold tally
    rw [← Finset.insert_erase (Finset.mem_univ i),Finset.filter_insert]
    cases hp : p (g i) with
    | true =>
      rw [if_pos rfl,Finset.card_insert_of_notMem (by simp),Finset.erase_insert (by simp)]
      rfl
    | false =>
      rw [if_neg (by decide),Finset.erase_insert (by simp)]
      rfl
  have hrest : ((Finset.univ.erase i).filter fun j => p (g j) = true) =
      (Finset.univ.erase i).filter fun j => p (f j) = true := by
    apply Finset.filter_congr
    intro j hj
    rw [h j (Finset.ne_of_mem_erase hj)]
  rw [hsplit g,hsplit f,hrest]
  omega

def total (w : α → Nat) (f : ι → α) : Nat := ∑ i, w (f i)

theorem total_congr {w v : α → Nat} {f g : ι → α} (h : ∀ i, w (f i) = v (g i)) :
    total w f = total v g :=
  Finset.sum_congr rfl fun i _ => h i

theorem total_change [DecidableEq ι] {w : α → Nat} {f g : ι → α} {i : ι}
    (h : ∀ j, j ≠ i → w (g j) = w (f j)) : total w g + w (f i) = total w f + w (g i) := by
  have hrest : ∑ j ∈ Finset.univ.erase i, w (g j) = ∑ j ∈ Finset.univ.erase i, w (f j) :=
    Finset.sum_congr rfl fun j hj => h j (Finset.ne_of_mem_erase hj)
  have hf := Finset.add_sum_erase Finset.univ (fun j => w (f j)) (Finset.mem_univ i)
  have hg := Finset.add_sum_erase Finset.univ (fun j => w (g j)) (Finset.mem_univ i)
  unfold total
  omega

theorem tally_eq_total (p : α → Bool) (f : ι → α) : tally p f = total (fun a => (p a).toNat) f := by
  unfold tally total
  rw [Finset.card_filter]
  apply Finset.sum_congr rfl
  intro i _
  change (if p (f i) = true then 1 else 0) = (p (f i)).toNat
  cases p (f i) <;> rfl

theorem tally_le_total {p : α → Bool} {w : α → Nat} {f : ι → α}
    (h : ∀ i, (p (f i)).toNat ≤ w (f i)) : tally p f ≤ total w f := by
  rw [tally_eq_total]
  exact Finset.sum_le_sum fun i _ => h i

theorem total_le_tally {p : α → Bool} {w : α → Nat} {f : ι → α} {c : Nat}
    (h : ∀ i, w (f i) ≤ c * (p (f i)).toNat) : total w f ≤ c * tally p f := by
  rw [tally_eq_total,total,total,Finset.mul_sum]
  exact Finset.sum_le_sum fun i _ => h i

end Tally
