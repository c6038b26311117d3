import Mathlib.Tactic

namespace Mutexes

variable {T M : Type}

structure Owned (holder : M → Option T) (holding : T → List M) : Prop where
  nodup : ∀ p, (holding p).Nodup
  holds : ∀ {p m}, m ∈ holding p → holder m = some p

def Exact (holder : M → Option T) (holding : T → List M) : Prop :=
  ∀ p m, holder m = some p → m ∈ holding p

inductive Handles [DecidableEq M] (holder : M → Option T) (p : T) :
    List M → (M → Option T) → List M → Prop
  | keep {held : List M} : Handles holder p held holder held
  | acquire {held : List M} {m : M} : holder m = none →
      Handles holder p held (Function.update holder m (some p)) (m :: held)
  | release {held : List M} {m : M} :
      Handles holder p (m :: held) (Function.update holder m none) held

variable {holder holder' : M → Option T} {holding holding' : T → List M} {p q : T} {m : M}
variable {held held' : List M}

theorem Owned.unique (h : Owned holder holding) (hm : m ∈ holding p) (hm' : m ∈ holding q) :
    p = q := by
  have he := (h.holds hm).symm.trans (h.holds hm')
  exact Option.some.inj he

section step
variable [DecidableEq M]

theorem Handles.own (hs : Handles holder p held holder' held') (hn : held.Nodup)
    (hh : ∀ m ∈ held, holder m = some p) :
    held'.Nodup ∧ ∀ m ∈ held', holder' m = some p := by
  cases hs with
  | keep => exact ⟨hn,hh⟩
  | @acquire _ m hfree =>
    have hne : ∀ {k}, k ∈ held → k ≠ m := by
      rintro k hk rfl
      rw [hh _ hk] at hfree
      cases hfree
    refine ⟨List.nodup_cons.mpr ⟨fun hm => hne hm rfl,hn⟩,?_⟩
    intro k hk
    rcases List.mem_cons.mp hk with rfl | hk
    · rw [Function.update_self]
    · rw [Function.update_of_ne (hne hk)]
      exact hh k hk
  | release =>
    obtain ⟨hnot,hn⟩ := List.nodup_cons.mp hn
    refine ⟨hn,?_⟩
    intro k hk
    rw [Function.update_of_ne]
    · exact hh k (List.mem_cons_of_mem _ hk)
    · rintro rfl
      exact hnot hk

theorem Handles.frame (hs : Handles holder p held holder' held') (hm : m ∉ held)
    (hh : holder m = some q) : holder' m = some q := by
  cases hs with
  | keep => exact hh
  | acquire hfree =>
    rw [Function.update_of_ne]
    · exact hh
    · rintro rfl
      rw [hh] at hfree
      cases hfree
  | release =>
    rw [Function.update_of_ne]
    · exact hh
    · rintro rfl
      exact hm List.mem_cons_self

theorem Handles.back (hs : Handles holder p held holder' held') (hh : holder' m = some q) :
    (q = p ∧ m ∈ held') ∨ (holder m = some q ∧ (m ∈ held → m ∈ held')) := by
  cases hs with
  | keep => exact .inr ⟨hh,id⟩
  | @acquire _ k hfree =>
    rcases eq_or_ne m k with rfl | hne
    · rw [Function.update_self] at hh
      exact .inl ⟨(Option.some.inj hh).symm,List.mem_cons_self⟩
    · rw [Function.update_of_ne hne] at hh
      exact .inr ⟨hh,List.mem_cons_of_mem _⟩
  | @release _ k =>
    rcases eq_or_ne m k with rfl | hne
    · rw [Function.update_self] at hh
      cases hh
    · rw [Function.update_of_ne hne] at hh
      exact .inr ⟨hh,fun hm => (List.mem_cons.mp hm).resolve_left hne⟩

theorem Owned.step (h : Owned holder holding)
    (hs : Handles holder p (holding p) holder' (holding' p))
    (hother : ∀ q, q ≠ p → holding' q = holding q) : Owned holder' holding' := by
  have hth := hs.own (h.nodup p) fun _ hm => h.holds hm
  constructor
  · intro u
    rcases eq_or_ne u p with rfl | hne
    · exact hth.1
    · rw [hother u hne]
      exact h.nodup u
  · intro u k hk
    rcases eq_or_ne u p with rfl | hne
    · exact hth.2 k hk
    · rw [hother u hne] at hk
      exact hs.frame (fun hm => hne (h.unique hk hm)) (h.holds hk)

theorem Exact.step (h : Exact holder holding)
    (hs : Handles holder p (holding p) holder' (holding' p))
    (hother : ∀ q, q ≠ p → holding' q = holding q) : Exact holder' holding' := by
  intro u m hm
  rcases hs.back hm with ⟨rfl,hin⟩ | ⟨hm,hkeep⟩
  · exact hin
  · rcases eq_or_ne u p with rfl | hne
    · exact hkeep (h u m hm)
    · rw [hother u hne]
      exact h u m hm

end step

theorem Owned.forget (h : Owned holder holding) (hs : holding p = m :: holding' p)
    (hother : ∀ q, q ≠ p → holding' q = holding q) : Owned holder holding' := by
  have hn := h.nodup p
  rw [hs] at hn
  constructor
  · intro u
    rcases eq_or_ne u p with rfl | hne
    · exact (List.nodup_cons.mp hn).2
    · rw [hother u hne]
      exact h.nodup u
  · intro u k hk
    rcases eq_or_ne u p with rfl | hne
    · apply h.holds
      rw [hs]
      exact List.mem_cons_of_mem _ hk
    · rw [hother u hne] at hk
      exact h.holds hk

end Mutexes
