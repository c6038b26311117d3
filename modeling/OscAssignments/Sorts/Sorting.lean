import Mathlib.Tactic
import OscAssignments.Sorts.Partition
import OscAssignments.Sorts.Footprint

namespace Sorts
open ForkJoin Segments

section Recursion
variable {R : Type} {d : Source R}

theorem run_normalQuicksortIn_succ {n : Nat} {l r p : Int} {m m' : Memory R}
    (hlen : 5 < r - l + 1) (hp : (partition l r).run (exec d) m = .returned p m') :
    (normalQuicksortIn (n + 1) l r).run (exec d) m =
      ((normalQuicksortIn n l (p - 1)).run (exec d) m').andThen
        fun _ => (normalQuicksortIn n (p + 1) r).run (exec d) := by
  rw [normalQuicksortIn,if_neg (by omega),if_neg (by omega),Prog.bind_eq,
    Prog.run_bind_returned hp,Prog.bind_eq,Prog.run_bind]

theorem normalQuicksortIn_short {n k : Nat} {l r : Int} (hlen : r - l + 1 ≤ 5) :
    normalQuicksortIn (n + 1) l r = normalQuicksortIn (k + 1) l r := by
  rcases le_or_gt r l with hrl | hlr
  · simp only [normalQuicksortIn,if_pos hrl]
  · simp only [normalQuicksortIn,if_neg (not_le.mpr hlr),if_pos hlen]

theorem run_normalQuicksortIn {n : Nat} {l r : Int} (hn : r - l + 1 < n) (hn0 : 0 < n)
    (m : Memory R) :
    ∃ m', (normalQuicksortIn n l r).run (exec d) m = .returned () m' ∧
      Rearranged l r m.arr m'.arr := by
  induction n generalizing l r m with
  | zero => omega
  | succ n ih =>
    rcases le_or_gt r l with hrl | hlr
    · refine ⟨m,?_,.refl l r _⟩
      rw [normalQuicksortIn,if_pos hrl]
      rfl
    · rcases le_or_gt (r - l + 1) 5 with hlen | hlen
      · obtain ⟨m',hm,hp,-,-⟩ := run_insertionSort (d := d) hlr.le m
        refine ⟨m',?_,hp⟩
        rw [normalQuicksortIn,if_neg (by omega),if_pos hlen]
        exact hm
      · obtain ⟨v,p,m1,h1,hpart⟩ := run_partition (d := d) hlr.le m
        have hlow := hpart.low
        have hhigh := hpart.high
        obtain ⟨m2,h2,hr2⟩ := ih (l := l) (r := p - 1) (by omega) (by omega) m1
        obtain ⟨m3,h3,hr3⟩ := ih (l := p + 1) (r := r) (by omega) (by omega) m2
        refine ⟨m3,?_,?_⟩
        · rw [run_normalQuicksortIn_succ hlen h1,h2]
          exact h3
        · exact (hpart.rearranged.trans (hr2.mono le_rfl (by omega))).trans
            (hr3.mono (by omega) le_rfl)

structure Halves (d : Source R) (n : Nat) (l r p : Int) (m m₁ m₂ m₃ : Memory R) : Prop where
  low : l ≤ p
  high : p ≤ r
  split : (partition l r).run (exec d) m = .returned p m₁
  left : (normalQuicksortIn n l (p - 1)).run (exec d) m₁ = .returned () m₂
  right : (normalQuicksortIn n (p + 1) r).run (exec d) m₂ = .returned () m₃
  whole : (normalQuicksortIn (n + 1) l r).run (exec d) m = .returned () m₃

theorem exists_halves {n : Nat} {l r : Int} (hn : r - l < n) (hlen : 5 < r - l + 1)
    (m : Memory R) : ∃ p m₁ m₂ m₃, Halves d n l r p m m₁ m₂ m₃ := by
  obtain ⟨v,p,m₁,h₁,hpart⟩ := run_partition (d := d) (show l ≤ r by omega) m
  have hlow := hpart.low
  have hhigh := hpart.high
  obtain ⟨m₂,h₂,-⟩ := run_normalQuicksortIn (d := d) (n := n) (l := l) (r := p - 1)
    (by omega) (by omega) m₁
  obtain ⟨m₃,h₃,-⟩ := run_normalQuicksortIn (d := d) (n := n) (l := p + 1) (r := r)
    (by omega) (by omega) m₂
  refine ⟨p,m₁,m₂,m₃,hlow,by omega,h₁,h₂,h₃,?_⟩
  rw [run_normalQuicksortIn_succ hlen h₁,h₂,Outcome.andThen_returned,h₃]

theorem run_normalQuicksortIn_eq {n k : Nat} {l r : Int} (hn : r - l + 1 < n) (hn0 : 0 < n)
    (hk : n ≤ k) (m : Memory R) :
    (normalQuicksortIn k l r).run (exec d) m = (normalQuicksortIn n l r).run (exec d) m := by
  induction n generalizing k l r m with
  | zero => omega
  | succ n ih =>
    obtain ⟨k,rfl⟩ : ∃ k', k = k' + 1 := ⟨k - 1,by omega⟩
    rcases le_or_gt (r - l + 1) 5 with hlen | hlen
    · rw [normalQuicksortIn_short hlen]
    · obtain ⟨v,p,m1,h1,hpart⟩ := run_partition (d := d) (show l ≤ r by omega) m
      have hlow := hpart.low
      have hhigh := hpart.high
      obtain ⟨m2,h2,-⟩ := run_normalQuicksortIn (d := d) (n := n) (l := l) (r := p - 1)
        (by omega) (by omega) m1
      rw [run_normalQuicksortIn_succ hlen h1,run_normalQuicksortIn_succ hlen h1,
        ih (by omega) (by omega) (by omega) m1,h2]
      exact ih (by omega) (by omega) (by omega) m2

theorem depth_spec (l r : Int) : r - l + 1 < depth l r ∧ 0 < depth l r := by
  unfold depth
  omega

theorem run_normalQuicksort (l r : Int) (m : Memory R) :
    ∃ m', (normalQuicksort l r).run (exec d) m = .returned () m' ∧ Rearranged l r m.arr m'.arr :=
  run_normalQuicksortIn (depth_spec l r).1 (depth_spec l r).2 m

theorem run_normalQuicksort_split {l r p : Int} {m m' : Memory R} (hlen : 5 < r - l + 1)
    (hp : (partition l r).run (exec d) m = .returned p m') (hlow : l ≤ p) (hhigh : p ≤ r) :
    (normalQuicksort l r).run (exec d) m =
      ((normalQuicksort l (p - 1)).run (exec d) m').andThen
        fun _ => (normalQuicksort (p + 1) r).run (exec d) := by
  have hd : ∀ l' r', r' - l' < r - l → depth l' r' ≤ (r - l + 1).toNat := by
    intro l' r' h
    unfold depth
    omega
  rw [normalQuicksort,depth,run_normalQuicksortIn_succ hlen hp,
    run_normalQuicksortIn_eq (depth_spec _ _).1 (depth_spec _ _).2 (hd l (p - 1) (by omega))]
  congr 1
  funext _ m2
  exact run_normalQuicksortIn_eq (depth_spec _ _).1 (depth_spec _ _).2 (hd (p + 1) r (by omega)) m2

theorem run_normalQuicksort_short {l r : Int} (hlen : r - l + 1 ≤ 5) (m : Memory R) :
    ∃ m', (normalQuicksort l r).run (exec d) m = .returned () m' ∧ Ascending m'.arr l r ∧
      m'.rng = m.rng := by
  rcases le_or_gt r l with hrl | hlr
  · refine ⟨m,?_,ascending_of_le hrl,rfl⟩
    rw [normalQuicksort,depth,normalQuicksortIn,if_pos hrl]
    rfl
  · obtain ⟨m',hm,-,hs,hg⟩ := run_insertionSort (d := d) hlr.le m
    refine ⟨m',?_,hs,hg⟩
    rw [normalQuicksort,depth,normalQuicksortIn,if_neg (by omega),if_pos hlen]
    exact hm

def Largest (a : Cells) (l p : Int) : Prop := ∀ x, l ≤ x → x < p → a x ≤ a p

theorem ascending_iff_of_parted {l r v p : Int} {m m1 : Memory R} (hpart : Parted l r v p m m1)
    {b c : Cells} (hb : Rearranged l (p - 1) m1.arr b) (hc : Rearranged (p + 1) r b c) :
    Ascending c l r ↔ Ascending b l (p - 1) ∧ Largest m1.arr l p ∧ Ascending c (p + 1) r := by
  have hcp : c p = m1.arr p := by
    rw [hc.outside (.inl (by omega)),hb.outside (.inr (by omega))]
  have hcb : ∀ x, l ≤ x → x ≤ p - 1 → c x = b x := fun x _ hx => hc.outside (.inl (by omega))
  have hbr : ∀ x, p + 1 ≤ x → x ≤ r → v ≤ b x := by
    intro x hx hxr
    rw [hb.outside (.inr (by omega))]
    exact hpart.right x (by omega) hxr
  rw [ascending_split hpart.low hpart.high]
  constructor
  · rintro ⟨h1,h2,-,h4⟩
    refine ⟨h1.congr fun x hx hxp => (hcb x hx hxp).symm,?_,h4⟩
    have hle : ∀ x, l ≤ x → x ≤ p - 1 → b x ≤ m1.arr p := by
      intro x hx hxp
      rw [← hcb x hx hxp,← hcp]
      exact h2 x hx (by omega)
    intro x hx hxp
    exact hb.symm.forall_inside (P := fun w => w ≤ m1.arr p) hle x hx (by omega)
  · rintro ⟨h1,h2,h3⟩
    refine ⟨h1.congr hcb,?_,?_,h3⟩
    · intro x hx hxp
      rw [hcp,hcb x hx (by omega)]
      exact hb.forall_inside (P := fun w => w ≤ m1.arr p) (fun y hy hyp => h2 y hy (by omega))
        x hx (by omega)
    · intro x hx hxr
      rw [hcp]
      exact (hpart.left p hpart.low le_rfl).trans
        (hc.forall_inside (P := fun w => v ≤ w) hbr x (by omega) hxr)

end Recursion

section Landing
variable {f : Nat → Nat}

variable (f) in
inductive Lands : Int → Int → Memory Nat → Nat → Prop
  | short {l r : Int} {m : Memory Nat} : r - l + 1 ≤ 5 → Lands l r m m.rng
  | split {l r p : Int} {m m' : Memory Nat} {k k' : Nat} : 5 < r - l + 1 →
      (partition l r).run (exec (sequence f)) m = .returned p m' → Largest m'.arr l p →
      Lands l (p - 1) m' k → Lands (p + 1) r { m' with rng := k } k' → Lands l r m k'

structure Agree (l r : Int) (m m' : Memory Nat) : Prop where
  rng : m.rng = m'.rng
  arr : ∀ x, l ≤ x → x ≤ r → m.arr x = m'.arr x

theorem Agree.mono {l r l' r' : Int} {m m' : Memory Nat} (h : Agree l r m m') (hl : l ≤ l')
    (hr : r' ≤ r) : Agree l' r' m m' :=
  ⟨h.rng,fun x hx hxr => h.arr x (hl.trans hx) (hxr.trans hr)⟩

theorem respects_agree (l r : Int) :
    Prog.Respects (exec (sequence f)) (Op.Within l r) (Agree l r) := by
  intro o m m' ho h
  cases o with
  | read i => exact ⟨h.arr i ho.1 ho.2,h⟩
  | write i v =>
    refine ⟨rfl,h.rng,?_⟩
    intro x hx hxr
    change Function.update m.arr i v x = Function.update m'.arr i v x
    rcases eq_or_ne x i with rfl | hne
    · rw [Function.update_self,Function.update_self]
    · rw [Function.update_of_ne hne,Function.update_of_ne hne]
      exact h.arr x hx hxr
  | rand a b =>
    refine ⟨?_,?_,h.arr⟩
    · simp only [exec,sequence,h.rng]
    · simp only [exec,sequence,h.rng]

theorem partition_agree {l r p : Int} {m m1 m' : Memory Nat} (hlr : l ≤ r) (h : Agree l r m m')
    (hp : (partition l r).run (exec (sequence f)) m = .returned p m1) :
    ∃ m1', (partition l r).run (exec (sequence f)) m' = .returned p m1' ∧ Agree l r m1 m1' := by
  have hrel := (obeys_partition (d := sequence f) hlr).run_related (respects_agree (f := f) l r) h
  obtain ⟨v,q,m2,hq,-⟩ := run_partition (d := sequence f) hlr m'
  rw [hp,hq] at hrel
  obtain ⟨rfl,hagree⟩ := hrel
  exact ⟨m2,hq,hagree⟩

theorem Lands.congr {l r : Int} {m m' : Memory Nat} {k : Nat} (h : Lands f l r m k)
    (ha : Agree l r m m') : Lands f l r m' k := by
  induction h generalizing m' with
  | short hlen =>
    rw [ha.rng]
    exact .short hlen
  | @split l r p m m1 k k' hlen hp hlarge _ _ ihl ihr =>
    obtain ⟨m2,h2,ha2⟩ := partition_agree (by omega) ha hp
    obtain ⟨v,q,m3,h3,hpart⟩ := run_partition (d := sequence f) (show l ≤ r by omega) m'
    rw [h2] at h3
    cases h3
    have hlow := hpart.low
    have hhigh := hpart.high
    have hlarge' : Largest m2.arr l p := by
      intro x hx hxp
      rw [← ha2.arr x hx (by omega),← ha2.arr p hlow hhigh]
      exact hlarge x hx hxp
    have ha3 : Agree l r { m1 with rng := k } { m2 with rng := k } := ⟨rfl,ha2.arr⟩
    exact .split hlen h2 hlarge' (ihl (ha2.mono le_rfl (by omega)))
      (ihr (ha3.mono (by omega) le_rfl))

theorem ascending_iff_lands (n : Nat) {l r : Int} (hn : r - l + 1 ≤ n) {m m' : Memory Nat}
    (h : (normalQuicksort l r).run (exec (sequence f)) m = .returned () m') :
    (Ascending m'.arr l r ↔ Lands f l r m m'.rng) ∧ ∀ k, Lands f l r m k → k = m'.rng := by
  induction n using Nat.strong_induction_on generalizing l r m m' with
  | h n ih =>
    rcases le_or_gt (r - l + 1) 5 with hlen | hlen
    · obtain ⟨m1,h1,hs,hg⟩ := run_normalQuicksort_short (d := sequence f) hlen m
      rw [h] at h1
      cases h1
      refine ⟨iff_of_true hs (hg ▸ .short hlen),?_⟩
      intro k hk
      cases hk with
      | short => exact hg.symm
      | split hlt => omega
    · obtain ⟨v,p,m1,h1,hpart⟩ := run_partition (d := sequence f) (show l ≤ r by omega) m
      have hlow := hpart.low
      have hhigh := hpart.high
      obtain ⟨m2,h2,hr2⟩ := run_normalQuicksort (d := sequence f) l (p - 1) m1
      obtain ⟨m3,h3,hr3⟩ := run_normalQuicksort (d := sequence f) (p + 1) r m2
      have hm3 : m3 = m' := by
        rw [run_normalQuicksort_split hlen h1 hlow hhigh,h2] at h
        have h' : (normalQuicksort (p + 1) r).run (exec (sequence f)) m2 = .returned () m' := h
        rw [h3] at h'
        cases h'
        rfl
      subst hm3
      obtain ⟨ihl,hl⟩ := ih (n - 1) (by omega) (l := l) (r := p - 1) (by omega) h2
      obtain ⟨ihr,hr⟩ := ih (n - 1) (by omega) (l := p + 1) (r := r) (by omega) h3
      have ha : Agree (p + 1) r { m1 with rng := m2.rng } m2 :=
        ⟨rfl,fun x hx _ => (hr2.outside (.inr (by omega))).symm⟩
      have ha' : Agree (p + 1) r m2 { m1 with rng := m2.rng } :=
        ⟨rfl,fun x hx hxr => (ha.arr x hx hxr).symm⟩
      have hinv : ∀ k, Lands f l r m k →
          Largest m1.arr l p ∧ Lands f l (p - 1) m1 m2.rng ∧ Lands f (p + 1) r m2 k := by
        intro k hk
        cases hk with
        | short hs => omega
        | split _ h1' hlarge hl' hr' =>
          rw [h1] at h1'
          cases h1'
          cases hl _ hl'
          exact ⟨hlarge,hl',hr'.congr ha⟩
      refine ⟨?_,fun k hk => hr k (hinv k hk).2.2⟩
      rw [ascending_iff_of_parted hpart hr2 hr3,ihl,ihr]
      constructor
      · rintro ⟨hl',hp,hr'⟩
        exact .split hlen h1 hp hl' (hr'.congr ha')
      · intro hk
        obtain ⟨hp,hl',hr'⟩ := hinv _ hk
        exact ⟨hl',hp,hr'⟩

end Landing

end Sorts
