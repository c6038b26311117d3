import Mathlib.Tactic

namespace Programs

variable {α σ : Type}

inductive Action (α σ : Type)
  | read (k : Option α → σ)
  | write (a : α) (s : σ)
  | exit

def alone (next : σ → Action α σ) : Nat → σ → List α → List α → Option (List α)
  | 0, _, _, _ => none
  | n + 1, s, x, y =>
    match next s with
    | .read k =>
      match x with
      | [] => alone next n (k none) [] y
      | a :: x => alone next n (k (some a)) x y
    | .write a s => alone next n s x (y ++ [a])
    | .exit => some y

theorem length_le_alone {next : σ → Action α σ} (n : Nat) :
    ∀ {s : σ} {x y out : List α}, alone next n s x y = some out → y.length ≤ out.length := by
  induction n with
  | zero =>
    intro s x y out h
    cases h
  | succ n ih =>
    intro s x y out h
    rw [alone] at h
    split at h
    · split at h
      · exact ih h
      · exact ih h
    · have hlen := ih h
      rw [List.length_append] at hlen
      omega
    · cases h
      exact le_rfl

structure Program (α : Type) where
  State : Type
  start : State
  next : State → Action α State
  fn : List α → List α
  computes : ∀ x, ∃ n, alone next n start x [] = some (fn x)

def compose (fs : List (Program α)) (x : List α) : List α := fs.foldl (fun d f => f.fn d) x

theorem compose_take_succ {fs : List (Program α)} {k : Nat} {f : Program α} (h : fs[k]? = some f)
    (x : List α) : compose (fs.take (k + 1)) x = f.fn (compose (fs.take k) x) := by
  rw [compose,List.take_add_one,h]
  exact List.foldl_concat ..

def emitNext : List α → Action α (List α)
  | [] => .exit
  | a :: w => .write a w

theorem alone_emit (w : List α) :
    ∀ x y : List α, alone emitNext (w.length + 1) w x y = some (y ++ w) := by
  induction w with
  | nil =>
    intro x y
    rw [List.append_nil]
    rfl
  | cons a w ih =>
    intro x y
    have hstep : alone emitNext ((a :: w).length + 1) (a :: w) x y =
        alone emitNext (w.length + 1) w x (y ++ [a]) := rfl
    rw [hstep,ih,List.append_assoc]
    rfl

def emit (w : List α) : Program α where
  State := List α
  start := w
  next := emitNext
  fn _ := w
  computes x := ⟨w.length + 1,by rw [alone_emit,List.nil_append]⟩

inductive Copying (α : Type)
  | reading
  | writing (a : α)
  | done

def copyNext : Copying α → Action α (Copying α)
  | .reading => .read fun
    | none => .done
    | some a => .writing a
  | .writing a => .write a .reading
  | .done => .exit

theorem alone_copy (x : List α) :
    ∀ y : List α, alone copyNext (2 * x.length + 2) .reading x y = some (y ++ x) := by
  induction x with
  | nil =>
    intro y
    rw [List.append_nil]
    rfl
  | cons a x ih =>
    intro y
    have hstep : alone copyNext (2 * (a :: x).length + 2) .reading (a :: x) y =
        alone copyNext (2 * x.length + 2) .reading x (y ++ [a]) := rfl
    rw [hstep,ih,List.append_assoc]
    rfl

def copy : Program α where
  State := Copying α
  start := .reading
  next := copyNext
  fn x := x
  computes x := ⟨2 * x.length + 2,by rw [alone_copy,List.nil_append]⟩

end Programs
