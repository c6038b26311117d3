import Mathlib.Data.List.Basic

namespace LinkRing

variable {α : Type} {next next' : α → α} {x y z : α} {l l₁ l₂ : List α}

def Leads (next : α → α) (x : α) (l : List α) (y : α) : Prop := (x :: l).map next = l ++ [y]

def Circle (next : α → α) (x : α) (l : List α) : Prop := Leads next x l x

@[simp] theorem leads_nil : Leads next x [] y ↔ next x = y := by
  simp [Leads]

@[simp] theorem leads_cons : Leads next x (z :: l) y ↔ next x = z ∧ Leads next z l y := by
  simp [Leads]

theorem leads_append : Leads next x (l₁ ++ z :: l₂) y ↔ Leads next x l₁ z ∧ Leads next z l₂ y := by
  induction l₁ generalizing x with
  | nil => exact leads_cons.trans (and_congr_left' leads_nil.symm)
  | cons a l₁ ih => rw [List.cons_append,leads_cons,leads_cons,ih,and_assoc]

theorem Leads.congr (h : Leads next x l y) (hn : ∀ a ∈ x :: l, next' a = next a) :
    Leads next' x l y := by
  rw [Leads,List.map_congr_left hn]
  exact h

theorem Leads.next_head (h : Leads next x l y) : next x = l.headD y := by
  cases l with
  | nil => exact leads_nil.mp h
  | cons a l => exact (leads_cons.mp h).1

namespace Circle

theorem rotate (h : Circle next x (l₁ ++ y :: l₂)) : Circle next y (l₂ ++ x :: l₁) :=
  leads_append.mpr (leads_append.mp h).symm

theorem remove (h : Circle next x (y :: l)) (hx : next' x = next y)
    (hl : ∀ a ∈ l, next' a = next a) : Circle next' x l := by
  have hmap : next y :: l.map next = l ++ [x] := (leads_cons.mp h).2
  rw [Circle,Leads,List.map_cons,hx,List.map_congr_left hl]
  exact hmap

end Circle

def seek (next : α → α) (P : α → Bool) : Nat → α → Option α
  | 0, _ => none
  | n + 1, x => if P x then some x else seek next P n (next x)

theorem seek_eq (P : α → Bool) {n : Nat} (hn : l.length + 1 < n) (h : Leads next x l y)
    (hno : ∀ a ∈ x :: l, P a = false) (hy : P y = true) : seek next P n x = some y := by
  induction l generalizing x n with
  | nil =>
    obtain ⟨n,rfl⟩ : ∃ k, n = k + 2 := ⟨n - 2,by simp at hn; omega⟩
    simp [seek,hno x,leads_nil.mp h,hy]
  | cons a l ih =>
    obtain ⟨n,rfl⟩ : ∃ k, n = k + 1 := ⟨n - 1,by omega⟩
    obtain ⟨ha,hl⟩ := leads_cons.mp h
    rw [seek,hno x List.mem_cons_self,if_neg Bool.false_ne_true,ha]
    exact ih (by simpa using hn) hl fun b hb => hno b (List.mem_cons_of_mem x hb)

end LinkRing
