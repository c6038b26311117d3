import Mathlib.Tactic

namespace Runs

variable {S A E α β : Type}

theorem bind_eq_ok {x : Except E α} {f : α → Except E β} {b : β} :
    (x >>= f) = .ok b ↔ ∃ a, x = .ok a ∧ f a = .ok b := by
  cases x with
  | ok a =>
    constructor
    · intro h
      exact ⟨a,rfl,h⟩
    · rintro ⟨_,h,hf⟩
      cases h
      exact hf
  | error e =>
    constructor
    · intro h
      cases h
    · rintro ⟨_,h,_⟩
      cases h

theorem bind_eq_error {x : Except E α} {f : α → Except E β} {e : E} :
    (x >>= f) = .error e ↔ x = .error e ∨ ∃ a, x = .ok a ∧ f a = .error e := by
  cases x with
  | ok a =>
    constructor
    · intro h
      exact .inr ⟨a,rfl,h⟩
    · rintro (h | ⟨_,h,hf⟩)
      · cases h
      · cases h
        exact hf
  | error d =>
    constructor
    · intro h
      cases h
      exact .inl rfl
    · rintro (h | ⟨_,h,_⟩)
      · cases h
        rfl
      · cases h

@[simp] theorem ok_bind (a : α) (f : α → Except E β) : (Except.ok a >>= f) = f a := rfl

@[simp] theorem error_bind (e : E) (f : α → Except E β) :
    ((Except.error e : Except E α) >>= f) = .error e := rfl

@[simp] theorem pure_eq_ok (a : α) : (pure a : Except E α) = .ok a := rfl

theorem countP_snoc {P : α → Bool} {l : List α} {a : α} :
    (l ++ [a]).countP P = l.countP P + (P a).toNat := by
  rw [List.countP_append,List.countP_singleton]
  cases P a with
  | true => rfl
  | false => rfl

theorem foldlM_preserves {f : S → α → Except E S} (I : S → Prop)
    (hf : ∀ s a t, I s → f s a = .ok t → I t) :
    ∀ (l : List α) {s t : S}, I s → l.foldlM f s = .ok t → I t := by
  intro l
  induction l with
  | nil =>
    intro s t hs h
    cases h
    exact hs
  | cons a l ih =>
    intro s t hs h
    obtain ⟨u,hu,h⟩ := bind_eq_ok.mp h
    exact ih (hf s a u hs hu) h

theorem foldlM_rule {f : S → α → Except E S} (I : List α → S → Prop)
    (hf : ∀ pre s a t, I pre s → f s a = .ok t → I (pre ++ [a]) t) :
    ∀ (l : List α) {s t : S}, I [] s → l.foldlM f s = .ok t → I l t := by
  have main : ∀ (post pre : List α) {s t : S}, I pre s → post.foldlM f s = .ok t →
      I (pre ++ post) t := by
    intro post
    induction post with
    | nil =>
      intro pre s t hs h
      cases h
      simpa using hs
    | cons a post ih =>
      intro pre s t hs h
      obtain ⟨u,hu,h⟩ := bind_eq_ok.mp h
      simpa using ih (pre ++ [a]) (hf pre s a u hs hu) h
  intro l s t hs h
  exact main l [] hs h

theorem foldlM_total {f : S → α → Except E S} (I : List α → S → Prop) {l : List α} {s : S}
    (hs : I [] s)
    (hf : ∀ pre a post s, l = pre ++ a :: post → I pre s →
      ∃ t, f s a = .ok t ∧ I (pre ++ [a]) t) :
    ∃ t, l.foldlM f s = .ok t ∧ I l t := by
  have main : ∀ post pre s, l = pre ++ post → I pre s →
      ∃ t, post.foldlM f s = .ok t ∧ I l t := by
    intro post
    induction post with
    | nil =>
      intro pre s hl hi
      rw [List.append_nil] at hl
      exact ⟨s,rfl,hl ▸ hi⟩
    | cons a post ih =>
      intro pre s hl hi
      obtain ⟨u,hu,hi⟩ := hf pre a post s hl hi
      obtain ⟨t,ht,hi⟩ := ih (pre ++ [a]) u (by simpa using hl) hi
      exact ⟨t,by rw [List.foldlM_cons,hu]; exact ht,hi⟩
  exact main l [] s rfl hs

def calls (f : S → α → Except E S) : List α → S → List (S × α)
  | [], _ => []
  | a :: l, s =>
    (s,a) :: match f s a with
      | .ok t => calls f l t
      | .error _ => []

theorem calls_preserves {f : S → α → Except E S} (I : S → Prop)
    (hf : ∀ s a t, I s → f s a = .ok t → I t) {l : List α} {s : S} (hs : I s) {c : S × α}
    (h : c ∈ calls f l s) : I c.1 := by
  induction l generalizing s with
  | nil => cases h
  | cons a l ih =>
    rw [calls] at h
    rcases List.mem_cons.mp h with rfl | h
    · exact hs
    · cases hfa : f s a with
      | error e =>
        rw [hfa] at h
        cases h
      | ok t =>
        rw [hfa] at h
        exact ih (hf s a t hs hfa) h

def emitted (f : S → A → Option β) (ts : List (S × A × S)) : List β :=
  ts.filterMap fun tr => f tr.1 tr.2.1

theorem emitted_snoc (f : S → A → Option β) (ts : List (S × A × S)) (s : S) (a : A) (t : S) :
    emitted f (ts ++ [(s,a,t)]) = emitted f ts ++ (f s a).toList := by
  rw [emitted,List.filterMap_append]
  cases h : f s a with
  | none => simp [emitted,h]
  | some b => simp [emitted,h]

structure System (S A E : Type) where
  init : S
  step : S → A → Except E S

namespace System
variable (M : System S A E)

inductive Reach (ok : S → A → Prop) : S → Prop
  | init : Reach ok M.init
  | step {s t : S} {a : A} : Reach ok s → ok s a → M.step s a = .ok t → Reach ok t

abbrev Reachable (s : S) : Prop := M.Reach (fun _ _ => True) s

variable {M} {ok : S → A → Prop}

theorem Reach.invariant (I : S → Prop) (hinit : I M.init)
    (hstep : ∀ s a t, M.Reach ok s → I s → ok s a → M.step s a = .ok t → I t)
    {s : S} (h : M.Reach ok s) : I s := by
  induction h with
  | init => exact hinit
  | step hr hok hs ih => exact hstep _ _ _ hr ih hok hs

theorem Reach.run {as : List A} {s t : S} (h : M.Reach (fun _ _ => True) s)
    (hr : as.foldlM M.step s = .ok t) : M.Reachable t :=
  foldlM_preserves M.Reachable (fun _ _ _ hs ht => .step hs trivial ht) as h hr

variable (M) in
inductive Path : S → List (S × A × S) → S → Prop
  | nil (s : S) : Path s [] s
  | cons {s t u : S} {a : A} {ts : List (S × A × S)} :
      M.step s a = .ok t → Path t ts u → Path s ((s, a, t) :: ts) u

theorem Path.append {s t u : S} {ts us : List (S × A × S)} (h : M.Path s ts t)
    (h' : M.Path t us u) : M.Path s (ts ++ us) u := by
  induction h with
  | nil => exact h'
  | cons hs _ ih => exact .cons hs (ih h')

theorem Path.split {pre post : List (S × A × S)} {tr : S × A × S} :
    ∀ {s u : S}, M.Path s (pre ++ tr :: post) u →
      M.Path s pre tr.1 ∧ M.step tr.1 tr.2.1 = .ok tr.2.2 ∧ M.Path tr.2.2 post u := by
  induction pre with
  | nil =>
    intro s u h
    cases h with
    | cons hs h => exact ⟨.nil _,hs,h⟩
  | cons x pre ih =>
    intro s u h
    cases h with
    | cons hs h =>
      obtain ⟨h1,h2,h3⟩ := ih h
      exact ⟨.cons hs h1,h2,h3⟩

theorem Path.rule {s₀ : S} (I : List (S × A × S) → S → Prop) (hinit : I [] s₀)
    (hstep : ∀ ts s a t, M.Path s₀ ts s → I ts s → M.step s a = .ok t → I (ts ++ [(s,a,t)]) t)
    {ts : List (S × A × S)} {u : S} (h : M.Path s₀ ts u) : I ts u := by
  have main : ∀ (post pre : List (S × A × S)) (s : S), M.Path s₀ pre s → I pre s →
      M.Path s post u → I (pre ++ post) u := by
    intro post
    induction post with
    | nil =>
      intro pre s _ hi hp
      cases hp
      simpa using hi
    | cons x post ih =>
      intro pre s hpre hi hp
      cases hp with
      | cons hs hp =>
        have hpre' := hpre.append (.cons hs (.nil _))
        simpa using ih _ _ hpre' (hstep pre s _ _ hpre hi hs) hp
  exact main ts [] s₀ (.nil _) hinit h

theorem Path.preserves (I : S → Prop) {s u : S} {ts : List (S × A × S)} (h : M.Path s ts u)
    (hs : I s) (hstep : ∀ s a t, (s,a,t) ∈ ts → M.step s a = .ok t → I s → I t) : I u := by
  induction h with
  | nil => exact hs
  | cons hst _ ih =>
    apply ih
    · exact hstep _ _ _ List.mem_cons_self hst hs
    · intro s a t hm
      exact hstep s a t (List.mem_cons_of_mem _ hm)

variable (M) in
inductive Leads (ok : S → A → Prop) : S → S → Prop
  | refl (s : S) : Leads ok s s
  | step {s t u : S} {a : A} : ok s a → M.step s a = .ok t → Leads ok t u → Leads ok s u

theorem Leads.trans {s t u : S} (h : M.Leads ok s t) (h' : M.Leads ok t u) : M.Leads ok s u := by
  induction h with
  | refl => exact h'
  | step hok hs _ ih => exact .step hok hs (ih h')

theorem Leads.preserves (I : S → Prop) {s u : S} (h : M.Leads ok s u) (hs : I s)
    (hstep : ∀ s a t, I s → ok s a → M.step s a = .ok t → I t) : I u := by
  induction h with
  | refl => exact hs
  | step hok hst _ ih => exact ih (hstep _ _ _ hs hok hst)

theorem Leads.one {s t : S} {a : A} (hok : ok s a) (hs : M.step s a = .ok t) : M.Leads ok s t :=
  .step hok hs (.refl t)

theorem Leads.until (I G : S → Prop) (rank : S → Nat)
    (hstep : ∀ s, I s → ∃ t, M.Leads ok s t ∧ (G t ∨ (I t ∧ rank t < rank s))) {s : S}
    (hs : I s) : ∃ u, M.Leads ok s u ∧ G u := by
  generalize hn : rank s = n
  induction n using Nat.strongRecOn generalizing s with
  | ind n ih =>
    obtain ⟨t,ht,hg | ⟨hi,hlt⟩⟩ := hstep s hs
    · exact ⟨t,ht,hg⟩
    · obtain ⟨u,hu,hg⟩ := ih (rank t) (hn ▸ hlt) hi rfl
      exact ⟨u,ht.trans hu,hg⟩

theorem Leads.path {s u : S} (h : M.Leads ok s u) : ∃ ts, M.Path s ts u := by
  induction h with
  | refl s => exact ⟨[],.nil s⟩
  | step _ hs _ ih =>
    obtain ⟨ts,hp⟩ := ih
    exact ⟨_,.cons hs hp⟩

variable (M) in
def transitions : S → List A → List (S × A × S)
  | _, [] => []
  | s, a :: as =>
    match M.step s a with
    | .ok t => (s, a, t) :: transitions t as
    | .error _ => []

theorem path_transitions {as : List A} :
    ∀ {s : S}, (as.foldlM M.step s).isOk = true →
      ∃ t, M.Path s (M.transitions s as) t ∧ as.foldlM M.step s = .ok t := by
  induction as with
  | nil =>
    intro s _
    exact ⟨s,.nil s,rfl⟩
  | cons a as ih =>
    intro s h
    rw [List.foldlM_cons] at h ⊢
    cases hs : M.step s a with
    | error e =>
      rw [hs] at h
      cases h
    | ok u =>
      rw [hs] at h
      obtain ⟨t,hp,hr⟩ := ih h
      refine ⟨t,?_,hr⟩
      rw [transitions,hs]
      exact .cons hs hp

variable (M) in
def after (as : List A) : S :=
  match as.foldlM M.step M.init with
  | .ok s => s
  | .error _ => M.init

theorem after_eq {as : List A} {s : S} (h : as.foldlM M.step M.init = .ok s) : M.after as = s := by
  rw [after,h]

theorem foldlM_after {as : List A} (h : (as.foldlM M.step M.init).isOk = true) :
    as.foldlM M.step M.init = .ok (M.after as) := by
  cases hs : as.foldlM M.step M.init with
  | ok s => rw [after_eq hs]
  | error e =>
    rw [hs] at h
    cases h

theorem isOk_of_append {as bs : List A} (h : ((as ++ bs).foldlM M.step M.init).isOk = true) :
    (as.foldlM M.step M.init).isOk = true := by
  rw [List.foldlM_append] at h
  cases hs : as.foldlM M.step M.init with
  | ok s => rfl
  | error e =>
    rw [hs] at h
    cases h

theorem reachable_after {as : List A} (h : (as.foldlM M.step M.init).isOk = true) :
    M.Reachable (M.after as) :=
  Reach.run .init (foldlM_after h)

variable (M) in
def checked (ok : S → A → Prop) [∀ s a, Decidable (ok s a)] : S → List A → Option S
  | s, [] => some s
  | s, a :: as =>
    if ok s a then
      match M.step s a with
      | .ok t => checked ok t as
      | .error _ => none
    else none

theorem checked_some [∀ s a, Decidable (ok s a)] {as : List A} :
    ∀ {s t : S}, M.checked ok s as = some t →
      as.foldlM M.step s = .ok t ∧ (M.Reach ok s → M.Reach ok t) := by
  induction as with
  | nil =>
    intro s t h
    cases h
    exact ⟨rfl,id⟩
  | cons a as ih =>
    intro s t h
    rw [checked] at h
    split at h
    case isFalse => cases h
    case isTrue hok =>
      cases hs : M.step s a with
      | error e =>
        rw [hs] at h
        cases h
      | ok u =>
        rw [hs] at h
        obtain ⟨hrun,hreach⟩ := ih h
        refine ⟨?_,fun hr => hreach (.step hr hok hs)⟩
        rw [List.foldlM_cons,hs]
        exact hrun

theorem run_checked [∀ s a, Decidable (ok s a)] {as : List A} {p : S → Bool}
    (h : (M.checked ok M.init as).any p = true) :
    as.foldlM M.step M.init = .ok (M.after as) ∧ M.Reach ok (M.after as) ∧
      p (M.after as) = true := by
  cases hs : M.checked ok M.init as with
  | none =>
    rw [hs] at h
    cases h
  | some s =>
    rw [hs] at h
    obtain ⟨hrun,hreach⟩ := checked_some hs
    rw [after_eq hrun]
    exact ⟨hrun,hreach .init,h⟩

theorem reach_checked [∀ s a, Decidable (ok s a)] {as : List A} {p : S → Bool}
    (h : (M.checked ok M.init as).any p = true) :
    M.Reach ok (M.after as) ∧ p (M.after as) = true :=
  (run_checked h).2

theorem Reach.reachable {s : S} (h : M.Reach ok s) : M.Reachable s :=
  h.invariant M.Reachable .init fun _ _ _ _ hs _ ht => .step hs trivial ht

theorem path_after {as bs : List A} (h : ((as ++ bs).foldlM M.step M.init).isOk = true) :
    M.Path (M.after as) (M.transitions (M.after as) bs) (M.after (as ++ bs)) := by
  have hab := foldlM_after h
  rw [List.foldlM_append] at hab
  obtain ⟨s,hs,hb⟩ := bind_eq_ok.mp hab
  rw [after_eq hs]
  have hok : (bs.foldlM M.step s).isOk = true := by rw [hb]; rfl
  obtain ⟨t,hp,ht⟩ := path_transitions hok
  rw [hb] at ht
  cases ht
  exact hp

theorem path_run {as : List A} (h : (as.foldlM M.step M.init).isOk = true) :
    M.Path M.init (M.transitions M.init as) (M.after as) := by
  obtain ⟨t,hp,ht⟩ := path_transitions h
  rw [after_eq ht]
  exact hp

theorem act_mem_of_transitions {as : List A} {tr : S × A × S} :
    ∀ {s : S}, tr ∈ M.transitions s as → tr.2.1 ∈ as := by
  induction as with
  | nil =>
    intro s h
    cases h
  | cons a as ih =>
    intro s h
    unfold transitions at h
    cases hs : M.step s a with
    | error e =>
      rw [hs] at h
      cases h
    | ok t =>
      rw [hs] at h
      rcases List.mem_cons.mp h with rfl | h
      · exact List.mem_cons_self
      · exact List.mem_cons_of_mem a (ih h)

theorem Path.reach {ts : List (S × A × S)} {u : S} (h : M.Path M.init ts u)
    (hok : ∀ tr ∈ ts, ok tr.1 tr.2.1) : M.Reach ok u :=
  h.preserves (M.Reach ok) .init fun _ _ _ hm ht hr => .step hr (hok _ hm) ht

theorem reach_after {as : List A} (h : (as.foldlM M.step M.init).isOk = true)
    (hok : ∀ tr ∈ M.transitions M.init as, ok tr.1 tr.2.1) : M.Reach ok (M.after as) := by
  obtain ⟨t,hp,ht⟩ := path_transitions h
  rw [after_eq ht]
  exact hp.reach hok

theorem step_after {as : List A} {a : A} (h : ((as ++ [a]).foldlM M.step M.init).isOk = true) :
    M.step (M.after as) a = .ok (M.after (as ++ [a])) := by
  have hp := path_after h
  cases hs : M.step (M.after as) a with
  | error e =>
    rw [transitions,hs] at hp
    have hab := foldlM_after h
    rw [List.foldlM_append] at hab
    obtain ⟨s,hs',hb⟩ := bind_eq_ok.mp hab
    rw [after_eq hs'] at hs
    rw [List.foldlM_cons,hs] at hb
    cases hb
  | ok t =>
    rw [transitions,hs] at hp
    cases hp with
    | cons _ hp =>
      cases hp
      rfl

end System
end Runs
