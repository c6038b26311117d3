import Mathlib.Tactic
import Mathlib.Logic.Equiv.Basic
import Mathlib.Logic.Function.Basic

namespace Segments

variable {β : Type}

def Rearranged (l r : Int) (a b : Int → β) : Prop :=
  ∃ σ : Equiv.Perm Int, (∀ x, x < l ∨ r < x → σ x = x) ∧ ∀ x, b x = a (σ x)

def swapped (a : Int → β) (i j : Int) : Int → β := fun x => a (Equiv.swap i j x)

theorem swapped_eq_update (a : Int → β) (i j : Int) :
    Function.update (Function.update a i (a j)) j (a i) = swapped a i j := by
  funext x
  unfold swapped
  by_cases hj : x = j
  · rw [hj,Function.update_self,Equiv.swap_apply_right]
  · rw [Function.update_of_ne hj]
    by_cases hi : x = i
    · rw [hi,Function.update_self,Equiv.swap_apply_left]
    · rw [Function.update_of_ne hi,Equiv.swap_apply_of_ne_of_ne hi hj]

@[simp] theorem swapped_left (a : Int → β) (i j : Int) : swapped a i j i = a j := by
  rw [swapped,Equiv.swap_apply_left]

@[simp] theorem swapped_right (a : Int → β) (i j : Int) : swapped a i j j = a i := by
  rw [swapped,Equiv.swap_apply_right]

theorem swapped_of_ne {a : Int → β} {i j x : Int} (hi : x ≠ i) (hj : x ≠ j) :
    swapped a i j x = a x := by
  rw [swapped,Equiv.swap_apply_of_ne_of_ne hi hj]

namespace Rearranged
variable {l r : Int} {a b c : Int → β}

theorem refl (l r : Int) (a : Int → β) : Rearranged l r a a :=
  ⟨Equiv.refl Int,fun _ _ => rfl,fun _ => rfl⟩

theorem trans (h : Rearranged l r a b) (h' : Rearranged l r b c) : Rearranged l r a c := by
  obtain ⟨σ,hσ,hb⟩ := h
  obtain ⟨τ,hτ,hc⟩ := h'
  refine ⟨τ.trans σ,?_,?_⟩
  · intro x hx
    rw [Equiv.trans_apply,hτ x hx,hσ x hx]
  · intro x
    rw [hc x,hb (τ x),Equiv.trans_apply]

theorem symm (h : Rearranged l r a b) : Rearranged l r b a := by
  obtain ⟨σ,hσ,hb⟩ := h
  refine ⟨σ.symm,?_,?_⟩
  · intro x hx
    rw [Equiv.symm_apply_eq]
    exact (hσ x hx).symm
  · intro x
    rw [hb,Equiv.apply_symm_apply]

theorem mono {l' r' : Int} (h : Rearranged l r a b) (hl : l' ≤ l) (hr : r ≤ r') :
    Rearranged l' r' a b := by
  obtain ⟨σ,hσ,hb⟩ := h
  refine ⟨σ,?_,hb⟩
  intro x hx
  exact hσ x (by omega)

theorem outside (h : Rearranged l r a b) {x : Int} (hx : x < l ∨ r < x) : b x = a x := by
  obtain ⟨σ,hσ,hb⟩ := h
  rw [hb,hσ x hx]

theorem swap {i j : Int} (hi : l ≤ i ∧ i ≤ r) (hj : l ≤ j ∧ j ≤ r) :
    Rearranged l r a (swapped a i j) := by
  refine ⟨Equiv.swap i j,?_,fun _ => rfl⟩
  intro x hx
  exact Equiv.swap_apply_of_ne_of_ne (by omega) (by omega)

theorem exists_inside (h : Rearranged l r a b) {x : Int} (hx : l ≤ x ∧ x ≤ r) :
    ∃ y, (l ≤ y ∧ y ≤ r) ∧ b x = a y := by
  obtain ⟨σ,hσ,hb⟩ := h
  refine ⟨σ x,?_,hb x⟩
  by_contra hn
  have hfix : σ (σ x) = σ x := hσ (σ x) (by omega)
  have : σ x = x := σ.injective hfix
  omega

theorem forall_inside {P : β → Prop} (h : Rearranged l r a b)
    (ha : ∀ x, l ≤ x → x ≤ r → P (a x)) (x : Int) (hl : l ≤ x) (hr : x ≤ r) : P (b x) := by
  obtain ⟨y,hy,he⟩ := h.exists_inside ⟨hl,hr⟩
  rw [he]
  exact ha y hy.1 hy.2

end Rearranged

section Order
variable [Preorder β]

def Ascending (a : Int → β) (l r : Int) : Prop := ∀ x y, l ≤ x → x ≤ y → y ≤ r → a x ≤ a y

theorem Ascending.mono {a : Int → β} {l r l' r' : Int} (h : Ascending a l r) (hl : l ≤ l')
    (hr : r' ≤ r) : Ascending a l' r' := by
  intro x y hx hxy hy
  exact h x y (by omega) hxy (by omega)

theorem Ascending.congr {a b : Int → β} {l r : Int} (h : Ascending a l r)
    (hab : ∀ x, l ≤ x → x ≤ r → b x = a x) : Ascending b l r := by
  intro x y hx hxy hy
  rw [hab x hx (by omega),hab y (by omega) hy]
  exact h x y hx hxy hy

theorem ascending_of_le {a : Int → β} {l r : Int} (h : r ≤ l) : Ascending a l r := by
  intro x y hx hxy hy
  have : x = y := by omega
  rw [this]

theorem ascending_split {a : Int → β} {l r p : Int} (hl : l ≤ p) (hr : p ≤ r) :
    Ascending a l r ↔ Ascending a l (p - 1) ∧ (∀ x, l ≤ x → x < p → a x ≤ a p) ∧
      (∀ x, p < x → x ≤ r → a p ≤ a x) ∧ Ascending a (p + 1) r := by
  constructor
  · intro h
    refine ⟨h.mono le_rfl (by omega),?_,?_,h.mono (by omega) le_rfl⟩
    · intro x hx hxp
      exact h x p hx (by omega) hr
    · intro x hpx hx
      exact h p x hl (by omega) hx
  · rintro ⟨h1,h2,h3,h4⟩ x y hx hxy hy
    rcases lt_trichotomy y p with hyp | rfl | hyp
    · exact h1 x y hx hxy (by omega)
    · rcases eq_or_lt_of_le hxy with rfl | hxy
      · exact le_rfl
      · exact h2 x hx hxy
    · rcases lt_trichotomy x p with hxp | rfl | hxp
      · exact (h2 x hx hxp).trans (h3 y hyp hy)
      · exact h3 y hyp hy
      · exact h4 x y (by omega) hxy hy

end Order
end Segments
