import Mathlib.Tactic
import OscAssignments.Biryani.Mess

namespace Biryani

@[ext] structure Round (α : Type) where
  ready : Bool
  slots : Int
  cells : Nat → Int
  offered : Int
  recorded : List α
  pending : α → Bool
  given : α → Nat
  announced : α → Nat

namespace Round
variable {α : Type} {ident : α → Int}

inductive Step [DecidableEq α] (ident : α → Int) (r : Round α) : Round α → Prop
  | idle : Step ident r r
  | zero : Step ident r { r with slots := min 0 r.slots }
  | take {x : α} : r.ready = true → 0 < r.slots → (∀ y, r.pending y = false) →
      Step ident r { r with
        slots := r.slots - 1
        pending := fun y => y = x
        given := fun y => r.given y + (decide (y = x)).toNat }
  | sit {x : α} {j : Nat} : (∀ y, r.pending y = decide (y = x)) → firstFree r.cells = some j →
      Step ident r { r with
        cells := Function.update r.cells j (ident x)
        recorded := r.recorded ++ [x]
        pending := fun _ => false }
  | opens {n : Int} : r.ready = false → 1 ≤ n → n ≤ 10 →
      Step ident r { r with
        ready := true
        slots := n
        cells := clear r.cells
        offered := n
        recorded := [] }
  | serve : r.ready = true → r.slots = 0 → (∀ y, r.pending y = false) →
      Step ident r { r with
        ready := false
        cells := clear r.cells
        announced := fun y => r.announced y + (announce r.cells).count (ident y) }

def Lined (ident : α → Int) (l : List α) (cells : Nat → Int) : Prop :=
  ∀ j, j < 10 → cells j = (l[j]?.map ident).getD (-1)

structure Ok [DecidableEq α] (ident : α → Int) (r : Round α) : Prop where
  nonneg : 0 ≤ r.slots
  closed : r.ready = false → r.slots = 0 ∧ ∀ x, r.pending x = false
  fits : r.recorded.length + r.slots ≤ r.offered
  room : ∀ x, r.pending x = true → r.recorded.length + r.slots + 1 ≤ r.offered
  bound : r.offered ≤ 10
  opened : r.ready = true → 1 ≤ r.offered
  lined : r.ready = true → Lined ident r.recorded r.cells
  ledger : ∀ x, r.given x =
    (r.pending x).toNat + (if r.ready then r.recorded.count x else 0) + r.announced x

theorem lined_clear (cells : Nat → Int) : Lined ident [] (clear cells) := by
  intro j hj
  simp [clear,hj]

theorem lined_append {l : List α} {cells : Nat → Int} (h : Lined ident l cells) (x : α) :
    Lined ident (l ++ [x]) (Function.update cells l.length (ident x)) := by
  intro j hj
  rcases lt_trichotomy j l.length with hlt | rfl | hgt
  · rw [Function.update_of_ne hlt.ne,h j hj,List.getElem?_append_left hlt]
  · simp
  · rw [Function.update_of_ne hgt.ne',h j hj,List.getElem?_eq_none hgt.le,
      List.getElem?_eq_none (by simpa using hgt)]

theorem firstFree_of_lined (hid : ∀ x, ident x ≠ -1) {l : List α} {cells : Nat → Int}
    (h : Lined ident l cells) (hl : l.length < 10) : firstFree cells = some l.length := by
  unfold firstFree
  rw [List.find?_range_eq_some]
  refine ⟨?_,?_,?_⟩
  · simp [h l.length hl]
  · rw [List.mem_range]
    omega
  · intro j hj
    have hcell := h j (by omega)
    rw [List.getElem?_eq_getElem hj] at hcell
    simp [hcell,hid]

theorem announce_of_lined (hid : ∀ x, ident x ≠ -1) {l : List α} {cells : Nat → Int}
    (h : Lined ident l cells) (hl : l.length ≤ 10) : announce cells = l.map ident := by
  have hrow : (List.range 10).map cells = l.map ident ++ List.replicate (10 - l.length) (-1) := by
    apply List.ext_getElem?
    intro j
    rcases lt_or_ge j 10 with hj | hj
    · rcases lt_or_ge j l.length with hjl | hjl
      · rw [List.getElem?_append_left (by simpa using hjl)]
        simp [hj,h j hj,List.getElem?_eq_getElem hjl]
      · rw [List.getElem?_append_right (by simpa using hjl)]
        have hr : j - l.length < 10 - l.length := by omega
        simp [hj,h j hj,List.getElem?_eq_none hjl,hr]
    · rw [List.getElem?_eq_none (by simpa using hj),List.getElem?_eq_none (by simp; omega)]
  unfold announce
  rw [hrow,List.takeWhile_append_of_pos]
  · cases 10 - l.length with
    | zero => simp
    | succ n => simp [List.replicate_succ]
  · intro i hi
    obtain ⟨x,_,rfl⟩ := List.mem_map.mp hi
    simpa using hid x

section ok
variable [DecidableEq α]

theorem Ok.length_le {r : Round α} (h : r.Ok ident) : r.recorded.length ≤ 10 := by
  have h1 := h.fits
  have h2 := h.bound
  have h3 := h.nonneg
  omega

theorem Ok.ready_of_pending {r : Round α} (h : r.Ok ident) {x : α} (hx : r.pending x = true) :
    r.ready = true := by
  cases hr : r.ready with
  | true => rfl
  | false =>
    have hn := (h.closed hr).2 x
    rw [hx] at hn
    cases hn

theorem Ok.firstFree_eq {r : Round α} (hid : ∀ x, ident x ≠ -1) (h : r.Ok ident) {x : α}
    (hx : r.pending x = true) :
    r.recorded.length < 10 ∧ firstFree r.cells = some r.recorded.length := by
  have h1 := h.room x hx
  have h2 := h.bound
  have h3 := h.nonneg
  have hlt : r.recorded.length < 10 := by omega
  exact ⟨hlt,firstFree_of_lined hid (h.lined (h.ready_of_pending hx)) hlt⟩

theorem Step.ok (hinj : Function.Injective ident) (hid : ∀ x, ident x ≠ -1) {r r' : Round α}
    (h : Step ident r r') (hr : r.Ok ident) : r'.Ok ident := by
  cases h with
  | idle => exact hr
  | zero =>
    have hn := hr.nonneg
    have hf := hr.fits
    refine ⟨?_,?_,?_,?_,hr.bound,hr.opened,hr.lined,hr.ledger⟩
    · simp only
      omega
    · intro hc
      simp only
      exact ⟨by omega,(hr.closed hc).2⟩
    · simp only
      omega
    · intro x hx
      have hroom := hr.room x hx
      simp only
      omega
  | @take x hready hpos hnone =>
    have hf := hr.fits
    refine ⟨?_,?_,?_,?_,hr.bound,hr.opened,hr.lined,?_⟩
    · simp only
      omega
    · intro hc
      rw [hready] at hc
      cases hc
    · simp only
      omega
    · intro y _
      simp only
      omega
    · intro y
      have hl := hr.ledger y
      rw [hnone y] at hl
      simp only [Bool.toNat_false] at hl ⊢
      omega
  | @sit x j hpend hj =>
    have hx : r.pending x = true := by simp [hpend]
    have hready := hr.ready_of_pending hx
    obtain ⟨hlt,hfree⟩ := hr.firstFree_eq hid hx
    have hroom := hr.room x hx
    rw [hfree] at hj
    cases hj
    refine ⟨hr.nonneg,?_,?_,?_,hr.bound,hr.opened,fun _ => lined_append (hr.lined hready) x,?_⟩
    · intro hc
      rw [hready] at hc
      cases hc
    · simp only [List.length_append,List.length_singleton]
      omega
    · intro y hy
      cases hy
    · intro y
      have hl := hr.ledger y
      rw [hpend y] at hl
      simp only [hready,if_true,List.count_append,Bool.toNat_false] at hl ⊢
      rcases eq_or_ne y x with rfl | hne
      · simp at hl ⊢
        omega
      · simp [hne,hne.symm] at hl ⊢
        omega
  | @opens n hc h1 h10 =>
    obtain ⟨_,hnone⟩ := hr.closed hc
    refine ⟨?_,?_,?_,?_,h10,fun _ => h1,fun _ => lined_clear r.cells,?_⟩
    · simp only
      omega
    · intro hn
      cases hn
    · simp
    · intro x hx
      simp only [hnone x] at hx
      cases hx
    · intro x
      have hl := hr.ledger x
      simpa [hc] using hl
  | serve hready hzero hnone =>
    refine ⟨hr.nonneg,fun _ => ⟨hzero,hnone⟩,hr.fits,hr.room,hr.bound,?_,?_,?_⟩
    · intro hn
      cases hn
    · intro hn
      cases hn
    · intro x
      have hl := hr.ledger x
      simp only [announce_of_lined hid (hr.lined hready) hr.length_le,
        List.count_map_of_injective _ ident hinj,hready,hnone x,if_true,if_false,
        Bool.false_eq_true] at hl ⊢
      omega

end ok

end Round
end Biryani
