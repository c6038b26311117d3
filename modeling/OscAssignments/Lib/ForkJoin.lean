import Mathlib.Tactic
import Mathlib.Logic.Relation

namespace ForkJoin

inductive Prog (O V : Type) : Type → Type 1
  | ret {α : Type} (a : α) : Prog O V α
  | act {α : Type} (o : O) (k : V → Prog O V α) : Prog O V α
  | fork {α : Type} (p q : Prog O V Unit) (k : Prog O V α) : Prog O V α
  | exit {α : Type} : Prog O V α
  | stuck {α : Type} : Prog O V α

inductive Outcome (α S : Type) where
  | returned (a : α) (s : S)
  | exited (s : S)
  | stuck

namespace Outcome
variable {α β S T : Type}

def state? : Outcome α S → Option S
  | returned _ s => some s
  | exited s => some s
  | stuck => none

def andThen : Outcome α S → (α → S → Outcome β S) → Outcome β S
  | returned a s, f => f a s
  | exited s, _ => exited s
  | stuck, _ => stuck

def mapState (g : S → T) : Outcome α S → Outcome α T
  | returned a s => returned a (g s)
  | exited s => exited (g s)
  | stuck => stuck

@[simp] theorem state?_returned (a : α) (s : S) : (returned a s).state? = some s := rfl

@[simp] theorem andThen_returned (a : α) (s : S) (f : α → S → Outcome β S) :
    (returned a s).andThen f = f a s := rfl

@[simp] theorem state?_mapState (g : S → T) (x : Outcome α S) :
    (x.mapState g).state? = x.state?.map g := by
  cases x with
  | returned a s => rfl
  | exited s => rfl
  | stuck => rfl

def Related (M : S → S → Prop) : Outcome α S → Outcome α S → Prop
  | .returned a s, .returned b t => a = b ∧ M s t
  | .exited s, .exited t => M s t
  | .stuck, .stuck => True
  | _, _ => False

theorem Related.state? {M : S → S → Prop} {x y : Outcome α S} (h : Related M x y) :
    (x.state? = none ∧ y.state? = none) ∨
      ∃ s t, x.state? = some s ∧ y.state? = some t ∧ M s t := by
  cases x with
  | returned a s =>
    cases y with
    | returned b t => exact .inr ⟨s,t,rfl,rfl,h.2⟩
    | exited t => cases h
    | stuck => cases h
  | exited s =>
    cases y with
    | returned b t => cases h
    | exited t => exact .inr ⟨s,t,rfl,rfl,h⟩
    | stuck => cases h
  | stuck =>
    cases y with
    | returned b t => cases h
    | exited t => cases h
    | stuck => exact .inl ⟨rfl,rfl⟩

end Outcome

namespace Prog
variable {O V S α β : Type}

def bind : Prog O V α → (α → Prog O V β) → Prog O V β
  | .ret a, f => f a
  | .act o k, f => .act o (fun v => (k v).bind f)
  | .fork p q k, f => .fork p q (k.bind f)
  | .exit, _ => .exit
  | .stuck, _ => .stuck

instance : Monad (Prog O V) where
  pure := .ret
  bind := .bind

@[simp] theorem bind_eq (p : Prog O V α) (f : α → Prog O V β) : (p >>= f) = p.bind f := rfl

def call (o : O) : Prog O V V := .act o .ret

def join : Option S → (S → Outcome α S) → Outcome α S
  | some s, f => f s
  | none, _ => .stuck

def run (exec : O → S → V × S) {α : Type} : Prog O V α → S → Outcome α S
  | .ret a, s => .returned a s
  | .act o k, s => (k (exec o s).1).run exec (exec o s).2
  | .fork p q k, s => join (p.run exec s).state? fun t => join (q.run exec t).state? (k.run exec)
  | .exit, s => .exited s
  | .stuck, _ => .stuck

section Running
variable {exec : O → S → V × S}

@[simp] theorem run_ret (a : α) (s : S) :
    (Prog.ret a : Prog O V α).run exec s = .returned a s := rfl

@[simp] theorem run_exit (s : S) : (Prog.exit : Prog O V α).run exec s = .exited s := rfl

@[simp] theorem run_act (o : O) (k : V → Prog O V α) (s : S) :
    (Prog.act o k).run exec s = (k (exec o s).1).run exec (exec o s).2 := rfl

@[simp] theorem join_some (s : S) (f : S → Outcome α S) : join (some s) f = f s := rfl

theorem join_join (x : Option S) (g : S → Option S) (f : S → Outcome α S) :
    join x (fun t => join (g t) f) = join (x.bind g) f := by
  cases x with
  | none => rfl
  | some s => rfl

theorem join_congr {x : Option S} {f g : S → Outcome α S} (h : ∀ s, f s = g s) :
    join x f = join x g := by
  cases x with
  | none => rfl
  | some s => exact h s

theorem join_andThen (x : Option S) (f : S → Outcome α S) (g : α → S → Outcome β S) :
    (join x f).andThen g = join x fun s => (f s).andThen g := by
  cases x with
  | none => rfl
  | some s => rfl

theorem run_bind (p : Prog O V α) (f : α → Prog O V β) (s : S) :
    (p.bind f).run exec s = (p.run exec s).andThen fun a t => (f a).run exec t := by
  induction p generalizing s with
  | ret a => rfl
  | act o k ih => exact ih _ _ _
  | fork p q k _ _ ih =>
    simp only [bind,run,join_join,join_andThen]
    exact join_congr (ih f)
  | exit => rfl
  | stuck => rfl

theorem run_bind_returned {p : Prog O V α} {f : α → Prog O V β} {s t : S} {a : α}
    (h : p.run exec s = .returned a t) : (p.bind f).run exec s = (f a).run exec t := by
  rw [run_bind,h]
  rfl

end Running

section Races
variable (exec : O → S → V × S)

def Indep (o o' : O) : Prop :=
  ∀ s, (exec o (exec o' s).2).1 = (exec o s).1 ∧ (exec o' (exec o s).2).1 = (exec o' s).1 ∧
    (exec o (exec o' s).2).2 = (exec o' (exec o s).2).2

def Obeys (P : O → Prop) {α : Type} (Q : α → Prop) : Prog O V α → Prop
  | .ret a => Q a
  | .act o k => P o ∧ ∀ v, (k v).Obeys P Q
  | .fork p q k =>
    (∃ P₁ P₂ : O → Prop, p.Obeys P₁ (fun _ => True) ∧ q.Obeys P₂ (fun _ => True) ∧
      (∀ o, P₁ o → P o) ∧ (∀ o, P₂ o → P o) ∧ ∀ o o', P₁ o → P₂ o' → Indep exec o o') ∧
      k.Obeys P Q
  | .exit => True
  | .stuck => True

abbrev Uses (P : O → Prop) (p : Prog O V α) : Prop := p.Obeys exec P fun _ => True

variable {exec} {P P' : O → Prop} {Q Q' : α → Prop}

theorem Indep.symm {o o' : O} (h : Indep exec o o') : Indep exec o' o := by
  intro s
  obtain ⟨h1,h2,h3⟩ := h s
  exact ⟨h2,h1,h3.symm⟩

theorem Obeys.mono {p : Prog O V α} (h : p.Obeys exec P Q) (hP : ∀ o, P o → P' o)
    (hQ : ∀ a, Q a → Q' a) : p.Obeys exec P' Q' := by
  induction p with
  | ret a => exact hQ a h
  | act o k ih => exact ⟨hP o h.1,fun v => ih v (h.2 v) hQ⟩
  | fork p q k _ _ ihk =>
    obtain ⟨⟨P₁,P₂,hp,hq,h1,h2,hi⟩,hk⟩ := h
    exact ⟨⟨P₁,P₂,hp,hq,fun o ho => hP o (h1 o ho),fun o ho => hP o (h2 o ho),hi⟩,ihk hk hQ⟩
  | exit => exact trivial
  | stuck => exact trivial

theorem Obeys.bind {R : β → Prop} {p : Prog O V α} {f : α → Prog O V β} (h : p.Obeys exec P Q)
    (hf : ∀ a, Q a → (f a).Obeys exec P R) : (p.bind f).Obeys exec P R := by
  induction p with
  | ret a => exact hf a h
  | act o k ih => exact ⟨h.1,fun v => ih v (h.2 v) hf⟩
  | fork p q k _ _ ihk => exact ⟨h.1,ihk h.2 hf⟩
  | exit => exact trivial
  | stuck => exact trivial

def Respects (exec : O → S → V × S) (P : O → Prop) (M : S → S → Prop) : Prop :=
  ∀ o s t, P o → M s t → (exec o s).1 = (exec o t).1 ∧ M (exec o s).2 (exec o t).2

theorem Obeys.run_related {M : S → S → Prop} (hM : Respects exec P M) {p : Prog O V α}
    (h : p.Obeys exec P Q) {s t : S} (hst : M s t) :
    Outcome.Related M (p.run exec s) (p.run exec t) := by
  induction p generalizing s t with
  | ret a => exact ⟨rfl,hst⟩
  | act o k ih =>
    obtain ⟨hv,hM'⟩ := hM o s t h.1 hst
    rw [run_act,run_act,hv]
    exact ih _ (h.2 _) hM'
  | fork p q k ihp ihq ihk =>
    obtain ⟨⟨P₁,P₂,hp,hq,h1,h2,-⟩,hk⟩ := h
    simp only [run]
    rcases (ihp (hp.mono h1 fun _ ha => ha) hst).state? with ⟨hs,ht⟩ | ⟨s1,t1,hs,ht,hst⟩
    · rw [hs,ht]
      exact trivial
    · rw [hs,ht,join_some,join_some]
      rcases (ihq (hq.mono h2 fun _ ha => ha) hst).state? with ⟨hs,ht⟩ | ⟨s2,t2,hs,ht,hst⟩
      · rw [hs,ht]
        exact trivial
      · rw [hs,ht]
        exact ihk hk hst
  | exit => exact hst
  | stuck => exact trivial

theorem run_exec {p : Prog O V α} {o : O} (hp : p.Obeys exec P Q)
    (ho : ∀ o', P o' → Indep exec o o') (s : S) :
    p.run exec (exec o s).2 = (p.run exec s).mapState fun t => (exec o t).2 := by
  induction p generalizing s with
  | ret a => rfl
  | act o' k ih =>
    obtain ⟨-,hv,hs⟩ := ho o' hp.1 s
    simp only [run_act,hv,← hs]
    exact ih _ (hp.2 _) _
  | fork p q k ihp ihq ihk =>
    obtain ⟨⟨P₁,P₂,hp,hq,h1,h2,-⟩,hk⟩ := hp
    simp only [run,ihp (hp.mono h1 fun _ ha => ha),Outcome.state?_mapState]
    cases (p.run exec s).state? with
    | none => rfl
    | some t =>
      simp only [Option.map_some,join_some,ihq (hq.mono h2 fun _ ha => ha),
        Outcome.state?_mapState]
      cases (q.run exec t).state? with
      | none => rfl
      | some u => exact ihk hk u
  | exit => rfl
  | stuck => rfl

theorem exec_run {p : Prog O V α} {o : O} (hp : p.Obeys exec P Q)
    (ho : ∀ o', P o' → Indep exec o o') {s t : S} (h : (p.run exec s).state? = some t) :
    (exec o t).1 = (exec o s).1 := by
  induction p generalizing s t with
  | ret a =>
    cases h
    rfl
  | act o' k ih =>
    obtain ⟨hv,-,-⟩ := ho o' hp.1 s
    exact (ih _ (hp.2 _) h).trans hv
  | fork p q k ihp ihq ihk =>
    obtain ⟨⟨P₁,P₂,hp,hq,h1,h2,-⟩,hk⟩ := hp
    simp only [run] at h
    cases hps : (p.run exec s).state? with
    | none =>
      rw [hps] at h
      cases h
    | some u =>
      rw [hps,join_some] at h
      cases hqs : (q.run exec u).state? with
      | none =>
        rw [hqs] at h
        cases h
      | some v =>
        rw [hqs,join_some] at h
        exact ((ihk hk h).trans (ihq (hq.mono h2 fun _ ha => ha) hqs)).trans
          (ihp (hp.mono h1 fun _ ha => ha) hps)
  | exit =>
    cases h
    rfl
  | stuck => cases h

theorem state?_join (x : Option S) (f : S → Outcome α S) :
    (join x f).state? = x.bind fun s => (f s).state? := by
  cases x with
  | none => rfl
  | some s => rfl

theorem run_comm {P' : O → Prop} {R : β → Prop} {p : Prog O V α} {q : Prog O V β}
    (hp : p.Obeys exec P Q) (hq : q.Obeys exec P' R)
    (hi : ∀ o o', P o → P' o' → Indep exec o o') (s : S) :
    (p.run exec s).state?.bind (fun t => (q.run exec t).state?) =
      (q.run exec s).state?.bind fun t => (p.run exec t).state? := by
  induction p generalizing P s with
  | ret a => simp [run_ret]
  | exit => simp [run_exit,Outcome.state?]
  | stuck => simp [run,Outcome.state?]
  | act o k ih =>
    have ho : ∀ o', P' o' → Indep exec o o' := fun o' ho' => hi o o' hp.1 ho'
    rw [run_act,ih _ (hp.2 _) hi,run_exec hq ho,Outcome.state?_mapState]
    cases ht : (q.run exec s).state? with
    | none => rfl
    | some t =>
      rw [Option.map_some,Option.bind_some,Option.bind_some,run_act,exec_run hq ho ht]
  | fork p₁ p₂ k ih₁ ih₂ ihk =>
    obtain ⟨⟨P₁,P₂,h₁,h₂,hP₁,hP₂,-⟩,hk⟩ := hp
    have hi₁ : ∀ o o', P₁ o → P' o' → Indep exec o o' := fun o o' ho => hi o o' (hP₁ o ho)
    have hi₂ : ∀ o o', P₂ o → P' o' → Indep exec o o' := fun o o' ho => hi o o' (hP₂ o ho)
    simp only [run,state?_join,Option.bind_assoc,ihk hk hi]
    simp only [← Option.bind_assoc,ih₂ h₂ hi₂]
    simp only [Option.bind_assoc]
    rw [← Option.bind_assoc,ih₁ h₁ hi₁,Option.bind_assoc]

def Finished {α : Type} : Prog O V α → Prop
  | .ret _ => True
  | .exit => True
  | _ => False

variable (exec) in
inductive Step : {α : Type} → Prog O V α → S → Prog O V α → S → Prop
  | act {α : Type} {o : O} {k : V → Prog O V α} {s : S} :
      Step (.act o k) s (k (exec o s).1) (exec o s).2
  | left {α : Type} {p p' q : Prog O V Unit} {k : Prog O V α} {s s' : S} :
      Step p s p' s' → Step (.fork p q k) s (.fork p' q k) s'
  | right {α : Type} {p q q' : Prog O V Unit} {k : Prog O V α} {s s' : S} :
      Step q s q' s' → Step (.fork p q k) s (.fork p q' k) s'
  | join {α : Type} {p q : Prog O V Unit} {k : Prog O V α} {s : S} :
      p.Finished → q.Finished → Step (.fork p q k) s k s

variable (exec) in
def Next {α : Type} (c c' : Prog O V α × S) : Prop := Step exec c.1 c.2 c'.1 c'.2

def ending : Prog O V α × S → Outcome α S
  | (.ret a, s) => .returned a s
  | (.exit, s) => .exited s
  | _ => .stuck

variable (exec) in
structure EverySchedule (p : Prog O V α) (s : S) (Q : Outcome α S → Prop) : Prop where
  stops : Acc (fun c' c => Next exec c c') (p,s)
  result : ∀ c, Relation.ReflTransGen (Next exec) (p,s) c → (∀ c', ¬ Next exec c c') →
    Q (ending c)

theorem Step.obeys {p p' : Prog O V α} {s s' : S} (h : Step exec p s p' s')
    (hp : p.Obeys exec P Q) : p'.Obeys exec P Q := by
  induction h generalizing P with
  | act => exact hp.2 _
  | left _ ih =>
    obtain ⟨⟨P₁,P₂,hp,hq,hi⟩,hk⟩ := hp
    exact ⟨⟨P₁,P₂,ih hp,hq,hi⟩,hk⟩
  | right _ ih =>
    obtain ⟨⟨P₁,P₂,hp,hq,hi⟩,hk⟩ := hp
    exact ⟨⟨P₁,P₂,hp,ih hq,hi⟩,hk⟩
  | join => exact hp.2

theorem Step.after_run {R : β → Prop} {p : Prog O V β} {q q' : Prog O V α} {s s' : S}
    (h : Step exec q s q' s') (hp : p.Obeys exec P R) (hq : q.Obeys exec P' Q)
    (hi : ∀ o o', P o → P' o' → Indep exec o o') :
    ∃ f : S → S, (p.run exec s').state? = (p.run exec s).state?.map f ∧
      ∀ t, (p.run exec s).state? = some t → Step exec q t q' (f t) := by
  induction h generalizing P' with
  | @act α o k s =>
    have ho : ∀ o', P o' → Indep exec o o' := fun o' ho' => (hi o' o ho' hq.1).symm
    refine ⟨fun t => (exec o t).2,?_,?_⟩
    · rw [run_exec hp ho,Outcome.state?_mapState]
    · intro t ht
      rw [← exec_run hp ho ht]
      exact .act
  | left _ ih =>
    obtain ⟨⟨P₁,P₂,hp₁,-,h1,-⟩,-⟩ := hq
    obtain ⟨f,hf,hstep⟩ := ih hp₁ fun o o' ho ho' => hi o o' ho (h1 o' ho')
    exact ⟨f,hf,fun t ht => .left (hstep t ht)⟩
  | right _ ih =>
    obtain ⟨⟨P₁,P₂,-,hp₂,-,h2,-⟩,-⟩ := hq
    obtain ⟨f,hf,hstep⟩ := ih hp₂ fun o o' ho ho' => hi o o' ho (h2 o' ho')
    exact ⟨f,hf,fun t ht => .right (hstep t ht)⟩
  | join hp' hq' =>
    refine ⟨id,by simp,?_⟩
    intro t _
    exact .join hp' hq'

theorem run_of_finished {p : Prog O V α} (h : p.Finished) (s : S) :
    (p.run exec s).state? = some s := by
  cases p with
  | ret a => rfl
  | exit => rfl
  | act o k => cases h
  | fork p q k => cases h
  | stuck => cases h

theorem Step.run_eq {p p' : Prog O V α} {s s' : S} (h : Step exec p s p' s')
    (hp : p.Obeys exec P Q) : p'.run exec s' = p.run exec s := by
  induction p generalizing P s s' with
  | ret a => cases h
  | act o k _ =>
    cases h
    rfl
  | fork p q k ihp ihq _ =>
    obtain ⟨⟨P₁,P₂,hP,hQ,-,-,hi⟩,-⟩ := hp
    cases h with
    | left h => simp only [run,ihp h hP]
    | right h =>
      obtain ⟨f,hf,hstep⟩ := h.after_run hP hQ hi
      simp only [run,hf]
      cases ht : (p.run exec s).state? with
      | none => rfl
      | some t => simp only [Option.map_some,join_some,ihq (hstep t ht) hQ]
    | join h h' => simp only [run,run_of_finished h,run_of_finished h',join_some]
  | exit => cases h
  | stuck => cases h

theorem run_eq_of_steps {c c' : Prog O V α × S}
    (h : Relation.ReflTransGen (Next exec) c c') (hp : c.1.Obeys exec P Q) :
    c'.1.Obeys exec P Q ∧ c'.1.run exec c'.2 = c.1.run exec c.2 := by
  induction h with
  | refl => exact ⟨hp,rfl⟩
  | tail _ hs ih => exact ⟨hs.obeys ih.1,(hs.run_eq ih.1).trans ih.2⟩

theorem exists_step {p : Prog O V α} {s : S} (h : p.run exec s ≠ .stuck) (hf : ¬ p.Finished) :
    ∃ p' s', Step exec p s p' s' := by
  induction p generalizing s with
  | ret a => exact absurd trivial hf
  | act o k _ => exact ⟨_,_,.act⟩
  | fork p q k ihp ihq _ =>
    rcases Classical.em p.Finished with hpe | hpe
    · rcases Classical.em q.Finished with hqe | hqe
      · exact ⟨k,s,.join hpe hqe⟩
      · have hq : q.run exec s ≠ .stuck := by
          intro hq
          simp only [run,run_of_finished hpe,join_some,hq] at h
          exact h rfl
        obtain ⟨q',s',hs⟩ := ihq hq hqe
        exact ⟨_,s',.right hs⟩
    · have hps : p.run exec s ≠ .stuck := by
        intro hps
        simp only [run,hps] at h
        exact h rfl
      obtain ⟨p',s',hs⟩ := ihp hps hpe
      exact ⟨_,s',.left hs⟩
  | exit => exact absurd trivial hf
  | stuck => exact absurd rfl h

inductive Shrinks : {α : Type} → Prog O V α → Prog O V α → Prop
  | act {α : Type} {o : O} {k : V → Prog O V α} {v : V} : Shrinks (k v) (.act o k)
  | left {α : Type} {p p' q : Prog O V Unit} {k : Prog O V α} :
      Shrinks p' p → Shrinks (.fork p' q k) (.fork p q k)
  | right {α : Type} {p q q' : Prog O V Unit} {k : Prog O V α} :
      Shrinks q' q → Shrinks (.fork p q' k) (.fork p q k)
  | join {α : Type} {p q : Prog O V Unit} {k : Prog O V α} : Shrinks k (.fork p q k)

theorem acc_fork {p q : Prog O V Unit} {k : Prog O V α} (hp : Acc Shrinks p) (hq : Acc Shrinks q)
    (hk : Acc Shrinks k) : Acc Shrinks (Prog.fork p q k) := by
  induction hp generalizing q with
  | intro p hp ihp =>
    induction hq with
    | intro q hq ihq =>
      constructor
      intro x hx
      cases hx with
      | left h => exact ihp _ h ⟨q,hq⟩
      | right h => exact ihq _ h
      | join => exact hk

theorem acc_shrinks (p : Prog O V α) : Acc Shrinks p := by
  induction p with
  | ret a =>
    constructor
    intro x hx
    cases hx
  | act o k ih =>
    constructor
    intro x hx
    cases hx with
    | act => exact ih _
  | fork p q k ihp ihq ihk => exact acc_fork ihp ihq ihk
  | exit =>
    constructor
    intro x hx
    cases hx
  | stuck =>
    constructor
    intro x hx
    cases hx

theorem Step.shrinks {p p' : Prog O V α} {s s' : S} (h : Step exec p s p' s') : Shrinks p' p := by
  induction h with
  | act => exact .act
  | left _ ih => exact .left ih
  | right _ ih => exact .right ih
  | join => exact .join

theorem acc_next (p : Prog O V α) (s : S) : Acc (fun c' c => Next exec c c') (p,s) := by
  have main : Acc (InvImage Shrinks (Prod.fst : Prog O V α × S → Prog O V α)) (p,s) :=
    InvImage.accessible _ (acc_shrinks p)
  exact Subrelation.accessible (fun h => h.shrinks) main

theorem ending_of_finished {p : Prog O V α} {s : S} (h : p.Finished) :
    ending (p,s) = p.run exec s := by
  cases p with
  | ret a => rfl
  | exit => rfl
  | act o k => cases h
  | fork p q k => cases h
  | stuck => cases h

theorem everySchedule_of_run {p : Prog O V α} {s : S} (hp : p.Obeys exec P Q)
    (hs : p.run exec s ≠ .stuck) {B : Outcome α S → Prop} (hB : B (p.run exec s)) :
    EverySchedule exec p s B := by
  refine ⟨acc_next p s,?_⟩
  intro c hc hend
  obtain ⟨-,hrun⟩ := run_eq_of_steps hc hp
  have hfin : c.1.Finished := by
    by_contra hn
    obtain ⟨p',s',h⟩ := exists_step (hrun ▸ hs) hn
    exact hend (p',s') h
  have hend : ending (c.1,c.2) = c.1.run exec c.2 := ending_of_finished hfin
  rw [hrun] at hend
  exact hend ▸ hB

end Races

structure Lens (T S : Type) where
  get : T → S
  set : T → S → T
  get_set : ∀ t s, get (set t s) = s
  set_get : ∀ t, set t (get t) = t
  set_set : ∀ t s s', set (set t s) s' = set t s'

def mapOp {O O' V α : Type} (f : O → O') : Prog O V α → Prog O' V α
  | .ret a => .ret a
  | .act o k => .act (f o) fun v => (k v).mapOp f
  | .fork p q k => .fork (p.mapOp f) (q.mapOp f) (k.mapOp f)
  | .exit => .exit
  | .stuck => .stuck

section Embedding
variable {O' T : Type} {exec : O → S → V × S} {exec' : O' → T → V × T} {f : O → O'} {L : Lens T S}

def Embeds (exec : O → S → V × S) (exec' : O' → T → V × T) (f : O → O') (L : Lens T S) : Prop :=
  ∀ o t, exec' (f o) t = ((exec o (L.get t)).1,L.set t (exec o (L.get t)).2)

theorem mapState_set_set (t : T) (s : S) (x : Outcome α S) :
    x.mapState (L.set (L.set t s)) = x.mapState (L.set t) := by
  cases x with
  | returned a u => simp only [Outcome.mapState,L.set_set]
  | exited u => simp only [Outcome.mapState,L.set_set]
  | stuck => rfl

theorem run_mapOp (h : Embeds exec exec' f L) (p : Prog O V α) (t : T) :
    (p.mapOp f).run exec' t = (p.run exec (L.get t)).mapState (L.set t) := by
  induction p generalizing t with
  | ret a => simp only [mapOp,run_ret,Outcome.mapState,L.set_get]
  | act o k ih => simp only [mapOp,run_act,h o t,ih,L.get_set,mapState_set_set]
  | fork p q k ihp ihq ihk =>
    simp only [mapOp,run,ihp,Outcome.state?_mapState]
    cases (p.run exec (L.get t)).state? with
    | none => rfl
    | some u =>
      simp only [Option.map_some,join_some,ihq,L.get_set,Outcome.state?_mapState]
      cases (q.run exec u).state? with
      | none => rfl
      | some v => simp only [Option.map_some,join_some,ihk,L.get_set,mapState_set_set]
  | exit => simp only [mapOp,run_exit,Outcome.mapState,L.set_get]
  | stuck => rfl

theorem Indep.map (h : Embeds exec exec' f L) {o o' : O} (hi : Indep exec o o') :
    Indep exec' (f o) (f o') := by
  intro t
  obtain ⟨h1,h2,h3⟩ := hi (L.get t)
  simp only [h o,h o',L.get_set,L.set_set]
  exact ⟨h1,h2,congrArg (L.set t) h3⟩

theorem Obeys.mapOp (h : Embeds exec exec' f L) {P : O → Prop} {Q : α → Prop} {p : Prog O V α}
    (hp : p.Obeys exec P Q) : (p.mapOp f).Obeys exec' (fun o' => ∃ o, P o ∧ f o = o') Q := by
  induction p generalizing P with
  | ret a => exact hp
  | act o k ih => exact ⟨⟨o,hp.1,rfl⟩,fun v => ih v (hp.2 v)⟩
  | fork p q k ihp ihq ihk =>
    obtain ⟨⟨P₁,P₂,hp,hq,h1,h2,hi⟩,hk⟩ := hp
    refine ⟨⟨_,_,ihp hp,ihq hq,?_,?_,?_⟩,ihk hk⟩
    · rintro _ ⟨o,ho,rfl⟩
      exact ⟨o,h1 o ho,rfl⟩
    · rintro _ ⟨o,ho,rfl⟩
      exact ⟨o,h2 o ho,rfl⟩
    · rintro _ _ ⟨o,ho,rfl⟩ ⟨o',ho',rfl⟩
      exact (hi o o' ho ho').map h
  | exit => exact trivial
  | stuck => exact trivial

end Embedding
end Prog
end ForkJoin
