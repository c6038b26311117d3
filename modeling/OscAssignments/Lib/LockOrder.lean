import Mathlib.Tactic
import Mathlib.Logic.Relation
import Mathlib.Logic.Function.Basic
import OscAssignments.Lib.Runs

namespace LockOrder
open Runs

section Waiting
variable {T L R : Type} {holds wants : T → L → Prop}

def WaitsFor (holds wants : T → L → Prop) (c d : T) : Prop := ∃ l, wants c l ∧ holds d l

theorem rank_le [Preorder R] (rank : L → R)
    (h : ∀ c l l', holds c l → wants c l' → rank l < rank l') {c d : T}
    (hw : Relation.TransGen (WaitsFor holds wants) c d) :
    ∃ l l', wants c l ∧ holds d l' ∧ rank l ≤ rank l' := by
  induction hw with
  | single hw =>
    obtain ⟨l,hc,hd⟩ := hw
    exact ⟨l,l,hc,hd,le_refl _⟩
  | tail _ hw ih =>
    obtain ⟨l,l',hc,hd,hle⟩ := ih
    obtain ⟨x,hx,he⟩ := hw
    exact ⟨l,x,hc,he,hle.trans (h _ l' x hd hx).le⟩

theorem no_cycle_of_rank [Preorder R] (rank : L → R)
    (h : ∀ c l l', holds c l → wants c l' → rank l < rank l') (c : T) :
    ¬ Relation.TransGen (WaitsFor holds wants) c c := by
  intro hw
  obtain ⟨l,l',hl,hl',hle⟩ := rank_le rank h hw
  exact lt_irrefl _ ((h c l' l hl' hl).trans_le hle)

end Waiting

inductive Instr (L : Type) where
  | acquire (l : L)
  | release (l : L)
  deriving DecidableEq, Repr

def under {L : Type} (l : L) (body : List (Instr L)) : List (Instr L) :=
  .acquire l :: (body ++ [.release l])

structure State (L : Type) where
  holder : L → Option Nat := fun _ => none
  rest : Nat → List (Instr L) := fun _ => []

inductive Act (P : Type) where
  | start (c : Nat) (p : P)
  | exec (c : Nat)

inductive Stuck where
  | busy
  | spins
  | finished

variable {L P : Type}

namespace State

def Holds (s : State L) (c : Nat) (l : L) : Prop := s.holder l = some c

def Wants (s : State L) (c : Nat) (l : L) : Prop := (s.rest c).head? = some (.acquire l)

instance (s : State L) (c : Nat) (l : L) : Decidable (s.Holds c l) :=
  inferInstanceAs (Decidable (_ = _))

def Cycle (s : State L) : Prop := ∃ c, Relation.TransGen (WaitsFor s.Holds s.Wants) c c

theorem cycle_of_two {s : State L} {c d : Nat} (l r : L) (hc : s.Wants c l) (hd : s.Holds d l)
    (hd' : s.Wants d r) (hc' : s.Holds c r) : s.Cycle :=
  ⟨c,.tail (.single ⟨l,hc,hd⟩) ⟨r,hd',hc'⟩⟩

def held (s : State L) (c : Nat) (l : L) : Bool := s.holder l = some c

variable [DecidableEq L]

instance (s : State L) (c : Nat) (l : L) : Decidable (s.Wants c l) :=
  inferInstanceAs (Decidable (_ = _))

def exec (s : State L) (c : Nat) : Except Stuck (State L) :=
  match s.rest c with
  | [] => .error .finished
  | .acquire l :: r =>
    if s.holder l = none then
      .ok ⟨Function.update s.holder l (some c),Function.update s.rest c r⟩
    else .error .spins
  | .release l :: r => .ok ⟨Function.update s.holder l none,Function.update s.rest c r⟩

def start (s : State L) (c : Nat) (r : List (Instr L)) : Except Stuck (State L) :=
  if s.rest c = [] then .ok { s with rest := Function.update s.rest c r } else .error .busy

end State

variable [DecidableEq L]

def machine (n : Nat) (script : Nat → P → List (Instr L)) : System (State L) (Act P) Stuck where
  init := {}
  step s a :=
    match a with
    | .start c p => if c < n then s.start c (script c p) else .error .busy
    | .exec c => s.exec c

inductive Move (script : Nat → P → List (Instr L)) (s : State L) : Act P → State L → Prop
  | start {c : Nat} {p : P} (hr : s.rest c = []) :
      Move script s (.start c p) ⟨s.holder,Function.update s.rest c (script c p)⟩
  | acquire {c : Nat} {l : L} {r : List (Instr L)} (hr : s.rest c = .acquire l :: r)
      (hl : s.holder l = none) :
      Move script s (.exec c) ⟨Function.update s.holder l (some c),Function.update s.rest c r⟩
  | release {c : Nat} {l : L} {r : List (Instr L)} (hr : s.rest c = .release l :: r) :
      Move script s (.exec c) ⟨Function.update s.holder l none,Function.update s.rest c r⟩

variable {n : Nat} {script : Nat → P → List (Instr L)} {s t : State L} {a : Act P}

theorem step_move (h : (machine n script).step s a = .ok t) : Move script s a t := by
  cases a with
  | start c p =>
    simp only [machine,State.start] at h
    split_ifs at h with hc hr
    cases h
    exact .start hr
  | exec c =>
    simp only [machine,State.exec] at h
    split at h
    · cases h
    · rename_i l r hr
      split_ifs at h with hl
      cases h
      exact .acquire hr hl
    · rename_i l r hr
      cases h
      exact .release hr

section Keeps
variable {allowed : (L → Bool) → L → Bool} {held : L → Bool} {l : L} {r : List (Instr L)} {c : Nat}

def Keeps (allowed : (L → Bool) → L → Bool) : (L → Bool) → List (Instr L) → Prop
  | held, [] => ∀ l, held l = false
  | held, .acquire l :: r =>
    held l = false ∧ allowed held l = true ∧ Keeps allowed (Function.update held l true) r
  | held, .release l :: r => held l = true ∧ Keeps allowed (Function.update held l false) r

theorem Keeps.under {body : List (Instr L)} (hl : held l = false) (ha : allowed held l = true)
    (hbody : ∀ r, Keeps allowed (Function.update held l true) r →
      Keeps allowed (Function.update held l true) (body ++ r))
    (h : Keeps allowed held r) : Keeps allowed held (under l body ++ r) := by
  unfold LockOrder.under
  rw [List.cons_append,List.append_assoc]
  refine ⟨hl,ha,hbody _ ⟨Function.update_self _ _ _,?_⟩⟩
  rw [Function.update_idem,← hl,Function.update_eq_self]
  exact h

theorem Keeps.repeated {block : List (Instr L)}
    (hb : ∀ r, Keeps allowed held r → Keeps allowed held (block ++ r)) (k : Nat)
    (h : Keeps allowed held r) : Keeps allowed held ((List.replicate k block).flatten ++ r) := by
  induction k with
  | zero => exact h
  | succ k ih =>
    rw [List.replicate_succ,List.flatten_cons,List.append_assoc]
    exact hb _ ih

theorem held_of_holder {x : Option Nat} (hx : s.holder l = x) (y : Option Nat) (d : Nat)
    (hd : x ≠ some d) (hy : y ≠ some d) (r : Nat → List (Instr L)) :
    State.held ⟨Function.update s.holder l y,r⟩ d = s.held d := by
  funext z
  rcases eq_or_ne z l with rfl | hz
  · simp [State.held,hx,hd,hy]
  · simp [State.held,hz]

theorem held_update (y : Option Nat) (d : Nat) (r : Nat → List (Instr L)) :
    State.held ⟨Function.update s.holder l y,r⟩ d =
      Function.update (s.held d) l (decide (y = some d)) := by
  funext z
  rcases eq_or_ne z l with rfl | hz
  · simp [State.held]
  · simp [State.held,hz]

theorem move_keeps (hscript : ∀ c p, Keeps allowed (fun _ => false) (script c p))
    (hm : Move script s a t) (h : ∀ c, Keeps allowed (s.held c) (s.rest c)) (d : Nat) :
    Keeps allowed (t.held d) (t.rest d) := by
  cases hm with
  | @start c p hr =>
    rcases eq_or_ne d c with rfl | hd
    · have hnone := h d
      rw [hr] at hnone
      have he : State.held (⟨s.holder,Function.update s.rest d (script d p)⟩ : State L) d =
          fun _ => false := funext hnone
      rw [he]
      simpa using hscript d p
    · simp only [Function.update_of_ne hd]
      exact h d
  | @acquire c l r hr hl =>
    rcases eq_or_ne d c with rfl | hd
    · have hk := h d
      rw [hr] at hk
      rw [held_update]
      simpa using hk.2.2
    · rw [held_of_holder hl (some c) d (by simp) (by simpa using Ne.symm hd)]
      simpa [hd] using h d
  | @release c l r hr =>
    have hk := h c
    rw [hr] at hk
    have hl : s.holder l = some c := by simpa [State.held] using hk.1
    rcases eq_or_ne d c with rfl | hd
    · rw [held_update]
      simpa using hk.2
    · rw [held_of_holder hl none d (by simpa using Ne.symm hd) (by simp)]
      simpa [hd] using h d

theorem reach_keeps {ok : State L → Act P → Prop}
    (hscript : ∀ c p, Keeps allowed (fun _ => false) (script c p))
    (h : (machine n script).Reach ok s) (c : Nat) : Keeps allowed (s.held c) (s.rest c) := by
  refine h.invariant (fun s => ∀ c, Keeps allowed (s.held c) (s.rest c)) ?_ ?_ c
  · intro c l
    rfl
  · intro s a t _ hk _ ht
    exact move_keeps hscript (step_move ht) hk

theorem Keeps.of_wants (h : Keeps allowed (s.held c) (s.rest c)) (hw : s.Wants c l) :
    s.held c l = false ∧ allowed (s.held c) l = true := by
  unfold State.Wants at hw
  cases hr : s.rest c with
  | nil =>
    rw [hr] at hw
    cases hw
  | cons i r =>
    rw [hr] at hw h
    cases hw
    exact ⟨h.1,h.2.1⟩

end Keeps

section Crossing
variable {l l' : L} {c : Nat}

def nests (l l' : L) (r : List (Instr L)) : Bool :=
  (r.takeWhile (· ≠ .release l)).contains (.acquire l')

def State.takes (s : State L) (c : Nat) (l l' : L) : Bool :=
  (s.rest c).head? = some (.acquire l) && nests l l' (s.rest c).tail &&
    (s.holder l').any fun d => nests l' l (s.rest d)

def State.crosses (s : State L) (l l' : L) : Act P → Bool
  | .start _ _ => false
  | .exec c => s.takes c l l' || s.takes c l' l

def State.Crossed (s : State L) (l l' : L) : Prop :=
  ∃ c d, s.Holds c l ∧ nests l l' (s.rest c) = true ∧ s.Holds d l' ∧ nests l' l (s.rest d) = true

theorem nests_cons {i : Instr L} {r : List (Instr L)} (hi : i ≠ .release l)
    (h : nests l l' r = true) : nests l l' (i :: r) = true := by
  unfold nests at h ⊢
  rw [List.takeWhile_cons_of_pos (by simpa using hi),List.contains_cons,h,Bool.or_true]

theorem nests_of_wants (h : s.Wants c l') : nests l l' (s.rest c) = true := by
  unfold State.Wants at h
  cases hr : s.rest c with
  | nil =>
    rw [hr] at h
    cases h
  | cons i r =>
    rw [hr] at h
    cases h
    simp [nests]

theorem held_nests (hm : Move script s a t) (hfree : ∀ c, s.rest c = [] → ∀ l, ¬ s.Holds c l)
    (hh : t.Holds c l) (hn : nests l l' (t.rest c) = true) :
    (s.Holds c l ∧ nests l l' (s.rest c) = true) ∨
      a = .exec c ∧ (s.rest c).head? = some (.acquire l) ∧ nests l l' (s.rest c).tail = true := by
  cases hm with
  | @start d p hr =>
    rcases eq_or_ne c d with rfl | hd
    · exact absurd hh (hfree c hr l)
    · simp only [Function.update_of_ne hd] at hn
      exact .inl ⟨hh,hn⟩
  | @acquire d x r hr hx =>
    rcases eq_or_ne l x with rfl | hxl
    · have hd : d = c := by simpa [State.Holds] using hh
      subst hd
      simp only [Function.update_self] at hn
      exact .inr ⟨rfl,by simp [hr],by simpa [hr] using hn⟩
    · have hs : s.Holds c l := by simpa [State.Holds,hxl] using hh
      rcases eq_or_ne c d with rfl | hd
      · simp only [Function.update_self] at hn
        exact .inl ⟨hs,hr ▸ nests_cons (by simp) hn⟩
      · simp only [Function.update_of_ne hd] at hn
        exact .inl ⟨hs,hn⟩
  | @release d x r hr =>
    have hxl : l ≠ x := by
      rintro rfl
      simp [State.Holds] at hh
    have hs : s.Holds c l := by simpa [State.Holds,hxl] using hh
    rcases eq_or_ne c d with rfl | hd
    · simp only [Function.update_self] at hn
      exact .inl ⟨hs,hr ▸ nests_cons (by simpa using hxl.symm) hn⟩
    · simp only [Function.update_of_ne hd] at hn
      exact .inl ⟨hs,hn⟩

theorem move_uncrossed (hne : l ≠ l') (hm : Move script s a t)
    (hfree : ∀ c, s.rest c = [] → ∀ l, ¬ s.Holds c l) (hno : s.crosses l l' a = false)
    (h : ¬ s.Crossed l l') : ¬ t.Crossed l l' := by
  rintro ⟨c,d,hc,hcn,hd,hdn⟩
  have htakes : ∀ x y e f, a = .exec e → (s.rest e).head? = some (.acquire x) →
      nests x y (s.rest e).tail = true → s.Holds f y → nests y x (s.rest f) = true →
        s.takes e x y = true := by
    intro x y e f _ h1 h2 h3 h4
    have h3 : s.holder y = some f := h3
    simp [State.takes,h1,h2,h3,h4]
  rcases held_nests hm hfree hc hcn with ⟨hc,hcn⟩ | ⟨ha,hh,ht⟩
  · rcases held_nests hm hfree hd hdn with ⟨hd,hdn⟩ | ⟨ha,hh,ht⟩
    · exact h ⟨c,d,hc,hcn,hd,hdn⟩
    · have := htakes l' l d c ha hh ht hc hcn
      subst ha
      simp [State.crosses,this] at hno
  · rcases held_nests hm hfree hd hdn with ⟨hd,hdn⟩ | ⟨ha',hh',_⟩
    · have := htakes l l' c d ha hh ht hd hdn
      subst ha
      simp [State.crosses,this] at hno
    · rw [ha] at ha'
      cases ha'
      rw [hh] at hh'
      cases hh'
      exact hne rfl

theorem reach_uncrossed {allowed : (L → Bool) → L → Bool} (hne : l ≠ l')
    (hscript : ∀ c p, Keeps allowed (fun _ => false) (script c p))
    (h : (machine n script).Reach (fun s a => s.crosses l l' a = false) s) :
    ¬ s.Crossed l l' := by
  refine h.invariant (fun s => ¬ s.Crossed l l') ?_ ?_
  · rintro ⟨c,_,hc,_⟩
    cases hc
  · intro s a t hr hno hok ht
    refine move_uncrossed hne (step_move ht) ?_ hok hno
    intro c hc x hx
    have hk := reach_keeps hscript hr c
    rw [hc] at hk
    have := hk x
    simp [State.held,show s.holder x = some c from hx] at this

end Crossing
end LockOrder
