import Mathlib.Tactic
import Mathlib.Data.List.DropRight

namespace Tokens

variable {α : Type}

def tokens (p : α → Bool) (l : List α) : List (List α) :=
  (l.splitOnP p).filter fun t => !t.isEmpty

variable {p : α → Bool}

theorem length_splitOnP (l : List α) : (l.splitOnP p).length = l.countP p + 1 := by
  induction l with
  | nil => rfl
  | cons a l ih =>
    rw [List.splitOnP_cons_eq_if_modifyHead,List.countP_cons]
    rcases p a with _ | _
    · simpa using ih
    · simpa using ih

theorem length_tokens_iff (l : List α) :
    (tokens p l).length = l.countP p + 1 ↔ ∀ t ∈ l.splitOnP p, t ≠ [] := by
  rw [tokens,← length_splitOnP,List.length_filter_eq_length_iff]
  simp

theorem tokens_eq_splitOnP {l : List α} (h : ∀ t ∈ l.splitOnP p, t ≠ []) :
    tokens p l = l.splitOnP p := by
  rw [tokens,List.filter_eq_self]
  simpa using h

theorem exists_mem_splitOnP {c : α} (hc : p c = false) {l : List α} (h : c ∈ l) :
    ∃ t ∈ l.splitOnP p, c ∈ t := by
  induction l with
  | nil => cases h
  | cons x l ih =>
    rw [List.splitOnP_cons_eq_if_modifyHead]
    rcases hx : p x with _ | _
    · rw [if_neg Bool.false_ne_true]
      rcases hl : l.splitOnP p with _ | ⟨u,us⟩
      · exact absurd hl (List.splitOnP_ne_nil _ _)
      · rw [List.modifyHead_cons]
        rcases List.mem_cons.mp h with rfl | hm
        · exact ⟨_,List.mem_cons_self,List.mem_cons_self⟩
        · obtain ⟨t,ht,hct⟩ := ih hm
          rw [hl] at ht
          rcases List.mem_cons.mp ht with rfl | ht
          · exact ⟨_,List.mem_cons_self,List.mem_cons_of_mem x hct⟩
          · exact ⟨t,List.mem_cons_of_mem _ ht,hct⟩
    · rw [if_pos rfl]
      have hne : c ≠ x := by
        rintro rfl
        rw [hx] at hc
        cases hc
      obtain ⟨t,ht,hct⟩ := ih ((List.mem_cons.mp h).resolve_left hne)
      exact ⟨t,List.mem_cons_of_mem _ ht,hct⟩

theorem tokens_append_cons (l r : List α) {d : α} (hd : p d = true) :
    tokens p (l ++ d :: r) = tokens p l ++ tokens p r := by
  rw [tokens,List.splitOnP_append_cons l r hd,List.filter_append]
  rfl

theorem tokens_word {w : List α} (hne : w ≠ []) (hw : ∀ c ∈ w, p c = false) :
    tokens p w = [w] := by
  rw [tokens,List.splitOnP_eq_singleton hw]
  simp [hne]

def render (d : α) (ls : List (List α)) : List α := ls.flatMap (· ++ [d])

theorem render_cons (d : α) (l : List α) (ls : List (List α)) :
    render d (l :: ls) = l ++ d :: render d ls := by
  simp [render]

theorem length_render (d : α) (ls : List (List α)) :
    (render d ls).length = (ls.map fun l => l.length + 1).sum := by
  induction ls with
  | nil => rfl
  | cons l ls ih =>
    rw [render_cons,List.length_append,List.length_cons,ih,List.map_cons,List.sum_cons]
    omega

theorem tokens_render {d : α} (hd : p d = true) {ls : List (List α)}
    (h : ∀ l ∈ ls, l ≠ [] ∧ ∀ c ∈ l, p c = false) : tokens p (render d ls) = ls := by
  induction ls with
  | nil => rfl
  | cons l ls ih =>
    have hl := h l List.mem_cons_self
    rw [render_cons,tokens_append_cons l _ hd,tokens_word hl.1 hl.2,
      ih fun l' hl' => h l' (List.mem_cons_of_mem l hl')]
    rfl

def trim (space : α → Bool) (l : List α) : List α := (l.dropWhile space).rdropWhile space

theorem trim_eq_self {space : α → Bool} {l : List α} (hne : l ≠ [])
    (hfirst : space (l.head hne) = false) (hlast : space (l.getLast hne) = false) :
    trim space l = l := by
  rw [trim,List.dropWhile_eq_self_iff.mpr,List.rdropWhile_eq_self_iff.mpr]
  · intro _
    simp [hlast]
  · intro hl
    rw [← List.head_eq_getElem_zero hne,hfirst]
    decide

theorem notMem_takeWhile [DecidableEq α] (a : α) (l : List α) : a ∉ l.takeWhile (· ≠ a) := by
  intro h
  have hne := List.mem_takeWhile_imp h
  simp at hne

theorem exists_takeWhile_append [DecidableEq α] {a : α} {l : List α} (h : a ∈ l) :
    ∃ rest, l = l.takeWhile (· ≠ a) ++ a :: rest := by
  induction l with
  | nil => cases h
  | cons b l ih =>
    rcases eq_or_ne b a with rfl | hne
    · exact ⟨l,by simp⟩
    · obtain ⟨rest,hrest⟩ := ih ((List.mem_cons.mp h).resolve_left hne.symm)
      refine ⟨rest,?_⟩
      rw [List.takeWhile_cons_of_pos (by simpa using hne),List.cons_append,← hrest]

theorem mem_dropWhile {space : α → Bool} {l : List α} {c : α} (h : c ∈ l) (hc : space c = false) :
    c ∈ l.dropWhile space := by
  rw [← List.takeWhile_append_dropWhile (p := space) (l := l)] at h
  rcases List.mem_append.mp h with hm | hm
  · have htrue := List.mem_takeWhile_imp hm
    rw [hc] at htrue
    cases htrue
  · exact hm

theorem mem_trim {space : α → Bool} {l : List α} {c : α} (h : c ∈ l) (hc : space c = false) :
    c ∈ trim space l := by
  rw [trim,List.rdropWhile,List.mem_reverse]
  exact mem_dropWhile (List.mem_reverse.mpr (mem_dropWhile h hc)) hc

end Tokens
