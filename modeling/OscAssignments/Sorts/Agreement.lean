import Mathlib.Tactic
import OscAssignments.Sorts.Sorting

namespace Sorts
open ForkJoin

inductive Buffer where
  | arr
  | brr
  | crr
  deriving DecidableEq

abbrev Stores := Buffer → Memory Unit

def execOn (choose : List Int → Nat) (o : Buffer × Op) (s : Stores) : Int × Stores :=
  ((exec (bySegment choose) o.2 (s o.1)).1,
    Function.update s o.1 (exec (bySegment choose) o.2 (s o.1)).2)

def runSorts (n : Nat) : Prog (Buffer × Op) Int Unit := do
  (quicksort 0 (n - 1)).mapOp (Prod.mk Buffer.arr)
  .fork ((threadedQuicksort 0 (n - 1)).mapOp (Prod.mk Buffer.brr)) (.ret ()) (.ret ())
  (normalQuicksort 0 (n - 1)).mapOp (Prod.mk Buffer.crr)

def copies (xs : List Int) : Stores := fun _ => ⟨load xs,()⟩

section Races
variable {c : List Int → Nat}

theorem segment_update {a : Cells} {l r i v : Int} (h : i < l ∨ r < i) :
    segment (Function.update a i v) l r = segment a l r := by
  unfold segment
  apply List.map_congr_left
  intro k hk
  have hk' := List.mem_range.mp hk
  exact Function.update_of_ne (by omega) _ _

theorem segment_after {a b l r : Int} (h : r < a ∨ b < l) {o : Op} (ho : o.Within a b)
    (m : Memory Unit) :
    segment (exec (bySegment c) o m).2.arr l r = segment m.arr l r := by
  cases o with
  | read i => rfl
  | write i v =>
    obtain ⟨h1,h2⟩ := ho
    exact segment_update (by omega)
  | rand a' b' => rfl

theorem read_after {a b i : Int} (h : i < a ∨ b < i) {o : Op} (ho : o.Within a b)
    (m : Memory Unit) : (exec (bySegment c) o m).2.arr i = m.arr i := by
  cases o with
  | read j => rfl
  | write j v =>
    obtain ⟨h1,h2⟩ := ho
    exact Function.update_of_ne (by omega) _ _
  | rand a' b' => rfl

theorem value_after {l r l' r' : Int} (h : r < l' ∨ r' < l) {o o' : Op} (ho : o.Within l r)
    (ho' : o'.Within l' r') (m : Memory Unit) :
    (exec (bySegment c) o (exec (bySegment c) o' m).2).1 =
      (exec (bySegment c) o m).1 := by
  cases o with
  | read i =>
    obtain ⟨h1,h2⟩ := ho
    exact read_after (by omega) ho' m
  | write i v => rfl
  | rand a b =>
    obtain ⟨h1,h2⟩ := ho
    have hseg := segment_after (c := c) (l := a) (r := b) (by omega) ho' m
    exact congrArg (fun xs => (c xs : Int)) hseg

theorem memory_after {l r l' r' : Int} (h : r < l') {o o' : Op} (ho : o.Within l r)
    (ho' : o'.Within l' r') (m : Memory Unit) :
    (exec (bySegment c) o (exec (bySegment c) o' m).2).2 =
      (exec (bySegment c) o' (exec (bySegment c) o m).2).2 := by
  cases o with
  | read i => rfl
  | rand a b => rfl
  | write i v =>
    cases o' with
    | read j => rfl
    | rand a b => rfl
    | write j w =>
      have hne : i ≠ j := by
        obtain ⟨h1,h2⟩ := ho
        obtain ⟨h3,h4⟩ := ho'
        omega
      simp only [exec]
      rw [Function.update_comm hne]

theorem indep_of_disjoint {l r l' r' : Int} (h : r < l') {o o' : Op} (ho : o.Within l r)
    (ho' : o'.Within l' r') : Prog.Indep (exec (bySegment c)) o o' := by
  intro m
  exact ⟨value_after (.inl h) ho ho' m,value_after (.inr h) ho' ho m,memory_after h ho ho' m⟩

theorem obeys_fork {l r p : Int} {x y : Code Unit}
    (hx : x.Uses (exec (bySegment c)) (Op.Within l (p - 1)))
    (hy : y.Uses (exec (bySegment c)) (Op.Within (p + 1) r)) (hp : l - 1 ≤ p ∧ p ≤ r) :
    (Prog.fork x y (.ret ())).Uses (exec (bySegment c)) (Op.Within l r) := by
  refine ⟨⟨_,_,hx,hy,?_,?_,?_⟩,trivial⟩
  · intro o ho
    exact ho.mono le_rfl (by omega)
  · intro o ho
    exact ho.mono (by omega) le_rfl
  · intro o o' ho ho'
    exact indep_of_disjoint (by omega) ho ho'

theorem uses_quicksortIn (n : Nat) {l r : Int} :
    (quicksortIn n l r).Uses (exec (bySegment c)) (Op.Within l r) := by
  induction n generalizing l r with
  | zero => exact trivial
  | succ n ih =>
    rw [quicksortIn]
    split
    · exact trivial
    · split
      · exact uses_insertionSort
      · refine (obeys_partition (by omega)).bind fun p hp => ?_
        exact obeys_fork (ih.bind fun _ _ => trivial) (ih.bind fun _ _ => trivial) hp

theorem uses_threadedQuicksortIn (n : Nat) {l r : Int} :
    (threadedQuicksortIn n l r).Uses (exec (bySegment c)) (Op.Within l r) := by
  induction n generalizing l r with
  | zero => exact trivial
  | succ n ih =>
    rw [threadedQuicksortIn]
    split
    · exact trivial
    · split
      · exact uses_insertionSort
      · exact (obeys_partition (by omega)).bind fun p hp => obeys_fork ih ih hp

end Races

section Runs
variable {R : Type} {d : Source R}

theorem run_threadedQuicksortIn {n : Nat} {l r : Int} (hn : r - l + 1 < n) (hn0 : 0 < n)
    (m : Memory R) :
    (threadedQuicksortIn n l r).run (exec d) m = (normalQuicksortIn n l r).run (exec d) m := by
  induction n generalizing l r m with
  | zero => omega
  | succ n ih =>
    rcases le_or_gt r l with hrl | hlr
    · rw [threadedQuicksortIn,normalQuicksortIn,if_pos hrl,if_pos hrl]
    · rcases le_or_gt (r - l + 1) 5 with hlen | hlen
      · simp only [threadedQuicksortIn,normalQuicksortIn,if_neg (not_le.mpr hlr),if_pos hlen]
      · obtain ⟨p,m1,m2,m3,h⟩ := exists_halves (d := d) (n := n) (by omega) hlen m
        have hlow := h.low
        have hhigh := h.high
        rw [h.whole,threadedQuicksortIn,if_neg (by omega),if_neg (by omega),Prog.bind_eq,
          Prog.run_bind_returned h.split]
        simp only [Prog.run,ih (l := l) (r := p - 1) (by omega) (by omega),h.left,
          Outcome.state?_returned,Prog.join_some,ih (l := p + 1) (r := r) (by omega) (by omega),
          h.right]

theorem andThen_exited_state? (x : Outcome Unit (Memory R)) :
    (x.andThen fun _ s => (.exited s : Outcome Unit (Memory R))).state? = x.state? := by
  cases x with
  | returned a s => rfl
  | exited s => rfl
  | stuck => rfl

theorem run_quicksortIn {n : Nat} {l r : Int} (hn : r - l + 1 < n) (hn0 : 0 < n) (m : Memory R) :
    ((quicksortIn n l r).run (exec d) m).state? = ((normalQuicksortIn n l r).run (exec d) m).state? ∧
      (l < r → (quicksortIn n l r).run (exec d) m = (normalQuicksortIn n l r).run (exec d) m) := by
  induction n generalizing l r m with
  | zero => omega
  | succ n ih =>
    rcases le_or_gt r l with hrl | hlr
    · rw [quicksortIn,normalQuicksortIn,if_pos hrl,if_pos hrl]
      exact ⟨rfl,fun h => absurd h (by omega)⟩
    · suffices h : (quicksortIn (n + 1) l r).run (exec d) m =
          (normalQuicksortIn (n + 1) l r).run (exec d) m from ⟨congrArg _ h,fun _ => h⟩
      rcases le_or_gt (r - l + 1) 5 with hlen | hlen
      · simp only [quicksortIn,normalQuicksortIn,if_neg (not_le.mpr hlr),if_pos hlen]
      · obtain ⟨p,m1,m2,m3,h⟩ := exists_halves (d := d) (n := n) (by omega) hlen m
        have hlow := h.low
        have hhigh := h.high
        have hleft := (ih (l := l) (r := p - 1) (by omega) (by omega) m1).1
        have hright := (ih (l := p + 1) (r := r) (by omega) (by omega) m2).1
        rw [h.whole,quicksortIn,if_neg (by omega),if_neg (by omega),Prog.bind_eq,
          Prog.run_bind_returned h.split]
        simp only [Prog.run,Prog.bind_eq,Prog.run_bind]
        rw [andThen_exited_state?,hleft,h.left]
        simp only [Outcome.state?_returned,Prog.join_some]
        rw [andThen_exited_state?,hright,h.right]
        rfl

end Runs

section Threads
variable {c : List Int → Nat}

def bufferLens (b : Buffer) : Prog.Lens Stores (Memory Unit) where
  get s := s b
  set s m := Function.update s b m
  get_set s m := Function.update_self b m s
  set_get s := Function.update_eq_self b s
  set_set s m m' := by rw [Function.update_idem]

theorem embeds_buffer (b : Buffer) :
    Prog.Embeds (exec (bySegment c)) (execOn c) (Prod.mk b) (bufferLens b) := by
  intro o s
  rfl

theorem run_onBuffer (b : Buffer) {p : Code Unit} {s : Stores} {m' : Memory Unit}
    (h : p.run (exec (bySegment c)) (s b) = .returned () m') :
    (p.mapOp (Prod.mk b)).run (execOn c) s = .returned () (Function.update s b m') := by
  have hp : p.run (exec (bySegment c)) ((bufferLens b).get s) = .returned () m' := h
  rw [Prog.run_mapOp (embeds_buffer b),hp]
  rfl

theorem run_runSorts {n : Nat} (hn : 2 ≤ n) {m m' : Memory Unit}
    (h : (normalQuicksort 0 (n - 1)).run (exec (bySegment c)) m = .returned () m') :
    ∃ s, (runSorts n).run (execOn c) (fun _ => m) = .returned () s ∧ ∀ b, s b = m' := by
  have hd := depth_spec 0 ((n : Int) - 1)
  have hq : (quicksort 0 (n - 1)).run (exec (bySegment c)) m = .returned () m' :=
    ((run_quicksortIn hd.1 hd.2 m).2 (by omega)).trans h
  have ht : (threadedQuicksort 0 (n - 1)).run (exec (bySegment c)) m = .returned () m' :=
    (run_threadedQuicksortIn hd.1 hd.2 m).trans h
  let s₀ : Stores := fun _ => m
  let s₁ := Function.update s₀ .arr m'
  let s₂ := Function.update s₁ .brr m'
  have h1 : ((quicksort 0 (n - 1)).mapOp (Prod.mk Buffer.arr)).run (execOn c) s₀ =
      .returned () s₁ := run_onBuffer .arr hq
  have h2 : ((threadedQuicksort 0 (n - 1)).mapOp (Prod.mk Buffer.brr)).run (execOn c) s₁ =
      .returned () s₂ := run_onBuffer .brr ht
  have h3 : ((normalQuicksort 0 (n - 1)).mapOp (Prod.mk Buffer.crr)).run (execOn c) s₂ =
      .returned () (Function.update s₂ .crr m') := run_onBuffer .crr h
  refine ⟨Function.update s₂ .crr m',?_,?_⟩
  · rw [runSorts,Prog.bind_eq,Prog.run_bind_returned h1]
    simp only [Prog.bind_eq,Prog.bind,Prog.run,h2,Outcome.state?_returned,Prog.join_some]
    exact h3
  · intro b
    cases b with
    | arr => rfl
    | brr => rfl
    | crr => rfl

theorem uses_onBuffer (b : Buffer) {l r : Int} {p : Code Unit}
    (h : p.Uses (exec (bySegment c)) (Op.Within l r)) :
    (p.mapOp (Prod.mk b)).Uses (execOn c) fun _ => True :=
  (h.mapOp (embeds_buffer b)).mono (fun _ _ => trivial) fun _ h => h

theorem uses_runSorts (n : Nat) : (runSorts n).Uses (execOn c) fun _ => True := by
  refine (uses_onBuffer .arr (uses_quicksortIn _)).bind fun _ _ => ?_
  refine ⟨⟨_,fun _ => False,uses_onBuffer .brr (uses_threadedQuicksortIn _),trivial,?_,?_,?_⟩,?_⟩
  · intro o _
    trivial
  · intro o ho
    cases ho
  · intro o o' _ ho'
    cases ho'
  · exact uses_onBuffer .crr (uses_normalQuicksortIn _)

end Threads

def Agreed (n : Nat) (o : Outcome Unit Stores) : Prop :=
  ∃ s, o = .returned () s ∧ ∀ b i, 0 ≤ i → i < n → (s b).arr i = (s .crr).arr i

end Sorts
