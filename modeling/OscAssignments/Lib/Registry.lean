import Mathlib.Tactic

namespace Registry

variable {α : Type} [Zero α] [DecidableEq α]

def entries (l : List α) : List α := l.filter (· ≠ 0)

theorem mem_entries {l : List α} {a : α} : a ∈ entries l ↔ a ∈ l ∧ a ≠ 0 := by
  simp [entries]

theorem entries_concat {a : α} (ha : a ≠ 0) (l : List α) : entries (l ++ [a]) = entries l ++ [a] := by
  simp [entries,ha]

structure Without (a : α) (l l' : List α) : Prop where
  once : (entries l').Nodup
  mem : ∀ b, b ∈ entries l' ↔ b ∈ entries l ∧ b ≠ a

theorem without_set {l : List α} {i : Nat} {a : α} (ha : a ≠ 0) (hi : l[i]? = some a)
    (h : (entries l).Nodup) : Without a l (l.set i 0) := by
  obtain ⟨hlt,hget⟩ := List.getElem?_eq_some_iff.mp hi
  have hsplit : l = l.take i ++ a :: l.drop (i + 1) := by
    rw [← hget,List.getElem_cons_drop,List.take_append_drop]
  have hset : entries (l.set i 0) = entries (l.take i) ++ entries (l.drop (i + 1)) := by
    rw [List.set_eq_take_append_cons_drop,if_pos hlt]
    simp [entries]
  have hall : entries l = entries (l.take i) ++ a :: entries (l.drop (i + 1)) := by
    conv_lhs => rw [hsplit]
    simp [entries,ha]
  have hnodup : (a :: (entries (l.take i) ++ entries (l.drop (i + 1)))).Nodup := by
    rw [hall] at h
    exact List.nodup_middle.mp h
  rw [List.nodup_cons] at hnodup
  refine ⟨by rw [hset]; exact hnodup.2,?_⟩
  intro b
  rw [hset,hall]
  constructor
  · intro hb
    refine ⟨?_,?_⟩
    · rcases List.mem_append.mp hb with hb | hb
      · exact List.mem_append_left _ hb
      · exact List.mem_append_right _ (List.mem_cons_of_mem a hb)
    · rintro rfl
      exact hnodup.1 hb
  · rintro ⟨hb,hne⟩
    rcases List.mem_append.mp hb with hb | hb
    · exact List.mem_append_left _ hb
    · exact List.mem_append_right _ (List.mem_of_ne_of_mem hne hb)

def clear (a : α) (l : List α) : List α := l.map fun b => if b = a then 0 else b

theorem entries_clear {a : α} (l : List α) : entries (clear a l) = (entries l).filter (· ≠ a) := by
  induction l with
  | nil => rfl
  | cons b l ih =>
    rw [clear,List.map_cons]
    change entries ((if b = a then 0 else b) :: clear a l) = _
    rcases eq_or_ne b a with rfl | hne
    · rw [if_pos rfl]
      have hleft : entries ((0 : α) :: clear b l) = entries (clear b l) := by simp [entries]
      rw [hleft,ih]
      rcases eq_or_ne b 0 with rfl | hb
      · simp [entries]
      · simp [entries,hb]
    · rw [if_neg hne]
      rcases eq_or_ne b 0 with rfl | hb
      · have hleft : entries ((0 : α) :: clear a l) = entries (clear a l) := by simp [entries]
        rw [hleft,ih]
        simp [entries]
      · have hleft : entries (b :: clear a l) = b :: entries (clear a l) := by simp [entries,hb]
        rw [hleft,ih]
        simp [entries,hb,hne]

theorem without_clear {a : α} {l : List α} (h : (entries l).Nodup) : Without a l (clear a l) := by
  refine ⟨by rw [entries_clear]; exact h.filter _,?_⟩
  intro b
  rw [entries_clear,List.mem_filter,decide_eq_true_eq]

theorem clear_getElem? {a b : α} {l : List α} {i : Nat} (hi : l[i]? = some b) (hne : b ≠ a) :
    (clear a l)[i]? = some b := by
  rw [clear,List.getElem?_map,hi]
  exact congrArg some (if_neg hne)

end Registry
