import Mathlib.Tactic

namespace Slots

variable {α : Type}

abbrev Table (α : Type) := List (Option α)

def get (t : Table α) (i : Nat) : Option α := t[i]?.getD none

def free (t : Table α) : Nat := t.countP (·.isNone)

def alloc (t : Table α) (a : α) : Option (Nat × Table α) :=
  (t.findIdx? (·.isNone)).map fun i => (i,t.set i (some a))

def release (t : Table α) (i : Nat) : Table α := t.set i none

def Held (i : Nat) (t : Table α) : Prop := (get t i).isSome = true

theorem get_set_ne {t : Table α} {i j : Nat} (h : j ≠ i) (o : Option α) :
    get (t.set i o) j = get t j := by
  rw [get,get,List.getElem?_set_ne h.symm]

theorem get_set_self {t : Table α} {i : Nat} (h : i < t.length) (o : Option α) :
    get (t.set i o) i = o := by
  rw [get,List.getElem?_set_self h]
  rfl

theorem alloc_eq_none {t : Table α} (h : free t = 0) (a : α) : alloc t a = none := by
  have hnone : t.findIdx? (·.isNone) = none := by
    rw [List.findIdx?_eq_none_iff]
    intro o ho
    exact Bool.eq_false_iff.mpr (List.countP_eq_zero.mp h o ho)
  rw [alloc,hnone]
  rfl

structure Allocated (t : Table α) (a : α) (i : Nat) (t' : Table α) : Prop where
  lt : i < t.length
  was_free : get t i = none
  eq : t' = t.set i (some a)
  count : free t' + 1 = free t

theorem allocated_set {t : Table α} {i : Nat} (hlt : i < t.length) (hfree : get t i = none) (a : α) :
    Allocated t a i (t.set i (some a)) := by
  have hget : t[i] = none := by
    rwa [get,List.getElem?_eq_getElem hlt] at hfree
  have hpos : 0 < t.countP (·.isNone) :=
    List.countP_pos_iff.mpr ⟨t[i],List.getElem_mem hlt,by rw [hget]; rfl⟩
  refine ⟨hlt,hfree,rfl,?_⟩
  rw [free,free,List.countP_set hlt,hget]
  simp only [Option.isNone_none,if_true,Option.isNone_some,Bool.false_eq_true,if_false]
  omega

theorem alloc_spec {t t' : Table α} {a : α} {i : Nat} (h : alloc t a = some (i,t')) :
    Allocated t a i t' := by
  obtain ⟨j,hj,heq⟩ := Option.map_eq_some_iff.mp h
  cases heq
  obtain ⟨hlt,hnone,-⟩ := List.findIdx?_eq_some_iff_getElem.mp hj
  have hget : get t i = none := by
    rw [get,List.getElem?_eq_getElem hlt]
    exact Option.isNone_iff_eq_none.mp hnone
  exact allocated_set hlt hget a

theorem exists_alloc {t : Table α} (h : free t ≠ 0) (a : α) : ∃ i t', alloc t a = some (i,t') := by
  cases hf : t.findIdx? (·.isNone) with
  | some i => exact ⟨i,t.set i (some a),by rw [alloc,hf]; rfl⟩
  | none =>
    rw [List.findIdx?_eq_none_iff] at hf
    refine absurd (List.countP_eq_zero.mpr ?_) h
    intro o ho
    rw [hf o ho]
    exact Bool.false_ne_true

theorem release_free {t : Table α} {i : Nat} (h : get t i = none) : release t i = t := by
  apply List.ext_getElem?
  intro j
  rw [release]
  rcases eq_or_ne j i with rfl | hne
  · rcases Nat.lt_or_ge j t.length with hlt | hge
    · rw [get,List.getElem?_eq_getElem hlt] at h
      rw [List.getElem?_set_self hlt,List.getElem?_eq_getElem hlt]
      exact congrArg some h.symm
    · rw [List.getElem?_eq_none hge,List.getElem?_eq_none (by rw [List.length_set]; exact hge)]
  · rw [List.getElem?_set_ne hne.symm]

theorem release_alloc {t t' : Table α} {a : α} {i : Nat} (h : Allocated t a i t') :
    release t' i = t := by
  rw [release,h.eq,List.set_set]
  exact release_free h.was_free

theorem held_alloc {t t' : Table α} {a : α} {i : Nat} (h : Allocated t a i t') : Held i t' := by
  rw [Held,h.eq,get_set_self h.lt]
  rfl

theorem Held.alloc {t t' : Table α} {a : α} {i j : Nat} (hj : Held j t) (h : Allocated t a i t') :
    Held j t' ∧ j ≠ i := by
  have hne : j ≠ i := by
    rintro rfl
    rw [Held,h.was_free] at hj
    cases hj
  rw [Held,h.eq,get_set_ne hne]
  exact ⟨hj,hne⟩

theorem Held.lt {t : Table α} {i : Nat} (h : Held i t) : i < t.length := by
  by_contra hge
  rw [Held,get,List.getElem?_eq_none (Nat.not_lt.mp hge)] at h
  cases h

theorem Held.release {t : Table α} {i j : Nat} (hj : Held j t) (hne : j ≠ i) :
    Held j (release t i) := by
  rw [Held,Slots.release,get_set_ne hne]
  exact hj

theorem Held.set_some {t : Table α} {j : Nat} (hj : Held j t) (i : Nat) (a : α) :
    Held j (t.set i (some a)) := by
  rcases eq_or_ne j i with rfl | hne
  · rw [Held,get_set_self hj.lt]
    rfl
  · rw [Held,get_set_ne hne]
    exact hj

end Slots
