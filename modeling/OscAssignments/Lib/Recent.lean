import Mathlib.Tactic
import Mathlib.Data.List.Destutter
import Mathlib.Data.List.DropRight

namespace Recent

variable {α : Type} [DecidableEq α]

def remember (n : Nat) (ts : List α) (a : α) : List α :=
  if ts.getLast? = some a then ts
  else if ts.length < n then ts ++ [a]
  else ts.tail ++ [a]

theorem mem_remember {n : Nat} {ts : List α} {a b : α} (h : b ∈ remember n ts a) :
    b ∈ ts ∨ b = a := by
  rw [remember] at h
  split at h
  · exact .inl h
  · split at h
    · simpa using h
    · rcases List.mem_append.mp h with h | h
      · exact .inl (List.mem_of_mem_tail h)
      · exact .inr (List.mem_singleton.mp h)

theorem length_remember_le {n : Nat} (hn : 0 < n) {ts : List α} (h : ts.length ≤ n) (a : α) :
    (remember n ts a).length ≤ n := by
  rw [remember]
  split
  · exact h
  · split
    · rw [List.length_append,List.length_singleton]
      omega
    · rw [List.length_append,List.length_singleton,List.length_tail]
      omega

def recent (n : Nat) (l : List α) : List α := (l.destutter (· ≠ ·)).rtake n

theorem destutter'_concat (a b : α) (l : List α) :
    (l ++ [a]).destutter' (· ≠ ·) b =
      if (l.destutter' (· ≠ ·) b).getLast? = some a then l.destutter' (· ≠ ·) b
      else l.destutter' (· ≠ ·) b ++ [a] := by
  induction l generalizing b with
  | nil =>
    rw [List.nil_append,List.destutter'_singleton,List.destutter'_nil]
    rcases eq_or_ne b a with rfl | hne
    · simp
    · simp [hne]
  | cons c l ih =>
    rcases eq_or_ne b c with rfl | hne
    · rw [List.cons_append,List.destutter'_cons_neg _ (not_not.mpr rfl),
        List.destutter'_cons_neg _ (not_not.mpr rfl),ih]
    · rw [List.cons_append,List.destutter'_cons_pos _ hne,List.destutter'_cons_pos _ hne,ih]
      obtain ⟨d,ds,hd⟩ := List.exists_cons_of_ne_nil (List.destutter'_ne_nil (· ≠ ·) (l := l) (a := c))
      rw [hd,List.getLast?_cons_cons]
      split
      · rfl
      · rfl

theorem destutter_concat (a : α) (l : List α) :
    (l ++ [a]).destutter (· ≠ ·) =
      if (l.destutter (· ≠ ·)).getLast? = some a then l.destutter (· ≠ ·)
      else l.destutter (· ≠ ·) ++ [a] := by
  cases l with
  | nil => simp
  | cons b l =>
    rw [List.cons_append,List.destutter_cons',List.destutter_cons']
    exact destutter'_concat a b l

omit [DecidableEq α] in
theorem getLast?_rtake {n : Nat} (hn : 0 < n) (l : List α) : (l.rtake n).getLast? = l.getLast? := by
  obtain ⟨n,rfl⟩ := Nat.exists_eq_succ_of_ne_zero hn.ne'
  induction l using List.reverseRecOn with
  | nil => rw [List.rtake_nil]
  | append_singleton l a _ =>
    rw [List.rtake_concat_succ,List.getLast?_concat,List.getLast?_concat]

theorem remember_recent {n : Nat} (hn : 0 < n) (l : List α) (a : α) :
    remember n (recent n l) a = recent n (l ++ [a]) := by
  rw [remember,recent,recent]
  rw [getLast?_rtake hn,destutter_concat]
  split
  · rfl
  · generalize l.destutter (· ≠ ·) = ds
    obtain ⟨n,rfl⟩ : ∃ m, n = m + 1 := ⟨n - 1,by omega⟩
    rw [List.rtake_concat_succ]
    have hlen : (ds.rtake (n + 1)).length = min (n + 1) ds.length := by
      rw [List.rtake,List.length_drop]
      omega
    split
    · next hlt =>
      rw [hlen] at hlt
      rw [List.rtake,List.rtake,show ds.length - (n + 1) = 0 by omega,
        show ds.length - n = 0 by omega]
    · next hge =>
      rw [hlen] at hge
      rw [List.rtake,List.rtake,← List.drop_one,List.drop_drop,
        show ds.length - (n + 1) + 1 = ds.length - n by omega]

theorem recent_eq_self {n : Nat} {l : List α} (hl : l.length ≤ n) (hc : l.IsChain (· ≠ ·)) :
    recent n l = l := by
  rw [recent,List.destutter_of_isChain _ l hc,List.rtake,show l.length - n = 0 by omega,
    List.drop_zero]

end Recent
