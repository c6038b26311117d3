import Mathlib.Tactic
import Mathlib.Logic.Function.Basic

namespace Redo
variable {α β : Type}

def slotted (slot : Nat → β) (l : List α) : List (α × β) := l.zipIdx.map fun c => (c.1,slot c.2)

theorem slotted_fst (slot : Nat → β) (l : List α) : (slotted slot l).map Prod.fst = l := by
  rw [slotted,List.map_map]
  exact List.zipIdx_map_fst 0 l

theorem slotted_congr {slot slot' : Nat → β} {l : List α}
    (h : ∀ i < l.length, slot i = slot' i) : slotted slot l = slotted slot' l := by
  apply List.map_congr_left
  intro c hc
  obtain ⟨-,hlt,-⟩ := List.mem_zipIdx hc
  rw [h c.2 (by omega)]

theorem slotted_split (slot : Nat → β) (pre : List α) (a : α) (post : List α) :
    ∃ rest, slotted slot (pre ++ a :: post) = slotted slot pre ++ (a,slot pre.length) :: rest ∧
      rest.map Prod.fst = post := by
  refine ⟨(post.zipIdx (pre.length + 1)).map fun c => (c.1,slot c.2),?_,?_⟩
  · simp [slotted,List.zipIdx_append]
  · rw [List.map_map]
    exact List.zipIdx_map_fst _ post

variable [DecidableEq α]

def replay : List (α × β) → (α → β) → α → β
  | [], d => d
  | (a,v) :: ws, d => replay ws (Function.update d a v)

variable {ws vs : List (α × β)} {d e : α → β} {a b : α} {v : β}

theorem replay_append (ws vs : List (α × β)) (d : α → β) :
    replay (ws ++ vs) d = replay vs (replay ws d) := by
  induction ws generalizing d with
  | nil => rfl
  | cons w ws ih => exact ih _

theorem replay_of_notMem (h : b ∉ ws.map Prod.fst) (d : α → β) : replay ws d b = d b := by
  induction ws generalizing d with
  | nil => rfl
  | cons w ws ih =>
    rw [List.map_cons,List.mem_cons,not_or] at h
    obtain ⟨hne,hrest⟩ := h
    change replay ws (Function.update d w.1 w.2) b = d b
    rw [ih hrest,Function.update_of_ne hne]

theorem replay_congr (h : b ∈ ws.map Prod.fst ∨ d b = e b) : replay ws d b = replay ws e b := by
  induction ws generalizing d e with
  | nil =>
    rcases h with h | h
    · cases h
    · exact h
  | cons w ws ih =>
    apply ih
    rcases eq_or_ne b w.1 with rfl | hne
    · exact .inr (by rw [Function.update_self,Function.update_self])
    · rcases h with h | h
      · rw [List.map_cons,List.mem_cons] at h
        exact .inl (h.resolve_left hne)
      · exact .inr (by rw [Function.update_of_ne hne,Function.update_of_ne hne,h])

theorem replay_update (h : a ∈ ws.map Prod.fst) (d : α → β) (v : β) :
    replay ws (Function.update d a v) = replay ws d := by
  funext b
  apply replay_congr
  rcases eq_or_ne b a with rfl | hne
  · exact .inl h
  · exact .inr (Function.update_of_ne hne _ _)

theorem replay_last (h : a ∉ vs.map Prod.fst) (d : α → β) :
    replay (ws ++ (a,v) :: vs) d a = v := by
  rw [replay_append]
  change replay vs (Function.update _ a v) a = v
  rw [replay_of_notMem h,Function.update_self]

end Redo
