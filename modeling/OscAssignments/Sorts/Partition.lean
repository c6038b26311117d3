import Mathlib.Tactic
import OscAssignments.Lib.Segments
import OscAssignments.Sorts.Code

namespace Sorts
open ForkJoin Segments

variable {R : Type} {d : Source R}

@[simp] theorem run_read_bind {α : Type} (i : Int) (f : Int → Code α) (m : Memory R) :
    ((read i).bind f).run (exec d) m = (f (m.arr i)).run (exec d) m := rfl

theorem run_swap (i j : Int) (m : Memory R) :
    (swap i j).run (exec d) m = .returned () { m with arr := swapped m.arr i j } := by
  rw [← swapped_eq_update]
  rfl

theorem run_swap_bind {α : Type} (i j : Int) (f : Unit → Code α) (m : Memory R) :
    ((swap i j).bind f).run (exec d) m =
      (f ()).run (exec d) { m with arr := swapped m.arr i j } :=
  Prog.run_bind_returned (run_swap i j m)

theorem run_loop (I : Int → Memory R → Prop) {body : Int → Code Unit} {u : Int}
    (hbody : ∀ i m, i < u → I i m → ∃ m', (body i).run (exec d) m = .returned () m' ∧ I (i + 1) m')
    (n : Nat) {i : Int} {m : Memory R} (hn : i + n = u) (hi : I i m) :
    ∃ m', (loop body n i).run (exec d) m = .returned () m' ∧ I u m' := by
  induction n generalizing i m with
  | zero =>
    have : i = u := by omega
    exact ⟨m,rfl,this ▸ hi⟩
  | succ n ih =>
    obtain ⟨m1,h1,hi⟩ := hbody i m (by omega) hi
    obtain ⟨m2,h2,hi⟩ := ih (by omega) hi
    refine ⟨m2,?_,hi⟩
    rw [loop,Prog.bind_eq,Prog.run_bind_returned h1]
    exact h2

theorem run_forUpTo (I : Int → Memory R → Prop) {body : Int → Code Unit} {l u : Int} (hlu : l ≤ u)
    (hbody : ∀ i m, l ≤ i → i < u → I i m →
      ∃ m', (body i).run (exec d) m = .returned () m' ∧ I (i + 1) m')
    {m : Memory R} (hl : I l m) :
    ∃ m', (forUpTo l u body).run (exec d) m = .returned () m' ∧ I u m' := by
  have hstep : ∀ i m, i < u → l ≤ i ∧ I i m →
      ∃ m', (body i).run (exec d) m = .returned () m' ∧ l ≤ i + 1 ∧ I (i + 1) m' := by
    intro i m hi h
    obtain ⟨m',hm,h'⟩ := hbody i m h.1 hi h.2
    exact ⟨m',hm,by omega,h'⟩
  obtain ⟨m',hm,-,hu⟩ := run_loop (fun i m => l ≤ i ∧ I i m) hstep (u - l).toNat
    (show l + _ = u by omega) ⟨le_rfl,hl⟩
  exact ⟨m',hm,hu⟩

structure Sweep (l r i j : Int) (m₀ m : Memory R) : Prop where
  rearranged : Rearranged i r m₀.arr m.arr
  least : ∀ x, i < x → x < j → m.arr i ≤ m.arr x
  rng : m.rng = m₀.rng

theorem run_exchange {l r i j : Int} (hij : i < j) (hj : j ≤ r) {m₀ m : Memory R}
    (h : Sweep l r i j m₀ m) :
    ∃ m', (exchange r i j).run (exec d) m = .returned () m' ∧ Sweep l r i (j + 1) m₀ m' := by
  by_cases hlt : m.arr j < m.arr i
  · refine ⟨{ m with arr := swapped m.arr i j },?_,?_,?_,h.rng⟩
    · simp only [exchange,Prog.bind_eq,run_read_bind,hlt,hj,and_self,if_true]
      exact run_swap i j m
    · exact h.rearranged.trans (.swap ⟨le_rfl,by omega⟩ ⟨by omega,hj⟩)
    · intro x hix hxj
      change swapped m.arr i j i ≤ swapped m.arr i j x
      rw [swapped_left]
      rcases eq_or_lt_of_le (Int.lt_add_one_iff.mp hxj) with rfl | hxj
      · rw [swapped_right]
        exact hlt.le
      · rw [swapped_of_ne (by omega) (by omega)]
        exact hlt.le.trans (h.least x hix hxj)
  · refine ⟨m,?_,h.rearranged,?_,h.rng⟩
    · simp only [exchange,Prog.bind_eq,run_read_bind,hlt,false_and,if_false]
      rfl
    · intro x hix hxj
      rcases eq_or_lt_of_le (Int.lt_add_one_iff.mp hxj) with rfl | hxj
      · exact not_lt.mp hlt
      · exact h.least x hix hxj

structure Selected (l r i : Int) (m₀ m : Memory R) : Prop where
  rearranged : Rearranged l r m₀.arr m.arr
  below : ∀ x y, l ≤ x → x < i → x ≤ y → y ≤ r → m.arr x ≤ m.arr y
  rng : m.rng = m₀.rng

theorem Selected.sweep {l r i : Int} (hl : l ≤ i) {m₀ m m' : Memory R} (h : Selected l r i m₀ m)
    (hs : Sweep l r i (r + 1) m m') : Selected l r (i + 1) m₀ m' := by
  refine ⟨h.rearranged.trans (hs.rearranged.mono hl le_rfl),?_,hs.rng.trans h.rng⟩
  intro x y hx hxi hxy hy
  rcases eq_or_lt_of_le (Int.lt_add_one_iff.mp hxi) with rfl | hxi
  · rcases eq_or_lt_of_le hxy with rfl | hxy
    · exact le_rfl
    · exact hs.least y hxy (by omega)
  · rw [hs.rearranged.outside (.inl hxi)]
    rcases lt_or_ge y i with hyi | hyi
    · rw [hs.rearranged.outside (.inl hyi)]
      exact h.below x y hx hxi hxy hy
    · exact hs.rearranged.forall_inside (P := fun v => m.arr x ≤ v)
        (fun z hz hzr => h.below x z hx hxi (by omega) hzr) y hyi hy

theorem run_sweep {l r i : Int} (hi : i < r) (m : Memory R) :
    ∃ m', (forUpTo (i + 1) (r + 1) fun j => exchange r i j).run (exec d) m = .returned () m' ∧
      Sweep l r i (r + 1) m m' := by
  apply run_forUpTo (Sweep l r i · m) (by omega)
  · intro j m' hj hjr hs
    exact run_exchange (by omega) (by omega) hs
  · refine ⟨.refl i r _,?_,rfl⟩
    intro x hx hx'
    omega

theorem run_selection {l r : Int} (hlr : l ≤ r) (m : Memory R) :
    ∃ m', (insertionSort l r).run (exec d) m = .returned () m' ∧ Selected l r r m m' := by
  apply run_forUpTo (Selected l r · m) hlr
  · intro i m₁ hl hr hi
    obtain ⟨m₂,h₂,hs⟩ := run_sweep (l := l) hr m₁
    exact ⟨m₂,h₂,hi.sweep hl hs⟩
  · refine ⟨.refl l r _,?_,rfl⟩
    intro x y hx hx'
    omega

theorem run_insertionSort {l r : Int} (hlr : l ≤ r) (m : Memory R) :
    ∃ m', (insertionSort l r).run (exec d) m = .returned () m' ∧
      Rearranged l r m.arr m'.arr ∧ Ascending m'.arr l r ∧ m'.rng = m.rng := by
  obtain ⟨m',hm,h⟩ := run_selection hlr m
  refine ⟨m',hm,h.rearranged,?_,h.rng⟩
  intro x y hx hxy hy
  rcases eq_or_lt_of_le hxy with rfl | hlt
  · exact le_rfl
  · exact h.below x y hx (by omega) hxy hy

theorem run_scanUp {r pivot : Int} (n : Nat) {i k : Int} {m : Memory R} (hn : r + 1 - i ≤ n)
    (hik : i < k) (hkr : k ≤ r) (hk : pivot ≤ m.arr k) :
    ∃ i', (scanUp r pivot n i).run (exec d) m = .returned i' m ∧ i < i' ∧ i' ≤ k ∧
      pivot ≤ m.arr i' ∧ ∀ x, i < x → x < i' → m.arr x < pivot := by
  induction n generalizing i with
  | zero => omega
  | succ n ih =>
    simp only [scanUp,if_pos (show i + 1 ≤ r by omega),Prog.bind_eq,run_read_bind]
    by_cases hlt : m.arr (i + 1) < pivot
    · have hne : i + 1 ≠ k := by
        rintro rfl
        omega
      obtain ⟨i',hrun,hi,hik',hp,hx⟩ := ih (i := i + 1) (by omega) (by omega)
      refine ⟨i',by rw [if_pos hlt,hrun],by omega,hik',hp,?_⟩
      intro x hx1 hx2
      rcases eq_or_lt_of_le (Int.add_one_le_iff.mpr hx1) with rfl | hx1
      · exact hlt
      · exact hx x hx1 hx2
    · refine ⟨i + 1,by rw [if_neg hlt]; rfl,by omega,by omega,not_lt.mp hlt,?_⟩
      intro x hx1 hx2
      omega

theorem run_scanDown {l pivot : Int} (n : Nat) {j k : Int} {m : Memory R} (hn : j + 1 - l ≤ n)
    (hkj : k < j) (hlk : l ≤ k) (hk : m.arr k ≤ pivot) :
    ∃ j', (scanDown l pivot n j).run (exec d) m = .returned j' m ∧ j' < j ∧ k ≤ j' ∧
      m.arr j' ≤ pivot ∧ ∀ x, j' < x → x < j → pivot < m.arr x := by
  induction n generalizing j with
  | zero => omega
  | succ n ih =>
    simp only [scanDown,if_pos (show l ≤ j - 1 by omega),Prog.bind_eq,run_read_bind]
    by_cases hlt : pivot < m.arr (j - 1)
    · have hne : j - 1 ≠ k := by
        rintro rfl
        omega
      obtain ⟨j',hrun,hj,hkj',hp,hx⟩ := ih (j := j - 1) (by omega) (by omega)
      refine ⟨j',by rw [if_pos hlt,hrun],by omega,hkj',hp,?_⟩
      intro x hx1 hx2
      rcases eq_or_lt_of_le (Int.le_sub_one_iff.mpr hx2) with rfl | hx2
      · exact hlt
      · exact hx x hx1 hx2
    · refine ⟨j - 1,by rw [if_neg hlt]; rfl,by omega,by omega,not_lt.mp hlt,?_⟩
      intro x hx1 hx2
      omega

structure Crossing (l r pivot i j : Int) (a : Cells) : Prop where
  low : l - 1 ≤ i
  order : i < j
  high : j ≤ r + 1
  left : ∀ x, l ≤ x → x ≤ i → a x ≤ pivot
  right : ∀ x, j ≤ x → x ≤ r → pivot ≤ a x
  above : ∃ x, i < x ∧ x ≤ r ∧ pivot ≤ a x
  below : ∃ x, l ≤ x ∧ x < j ∧ a x ≤ pivot

structure Parted (l r pivot p : Int) (m m' : Memory R) : Prop where
  low : l ≤ p
  high : p ≤ r
  rearranged : Rearranged l r m.arr m'.arr
  left : ∀ x, l ≤ x → x ≤ p → m'.arr x ≤ pivot
  right : ∀ x, p < x → x ≤ r → pivot ≤ m'.arr x
  rng : m'.rng = m.rng

theorem Crossing.stop {l r pivot i j i' j' : Int} {m : Memory R} (h : Crossing l r pivot i j m.arr)
    (hix : ∀ x, i < x → x < i' → m.arr x < pivot)
    (hj : j' < j) (hlj : l ≤ j') (hjp : m.arr j' ≤ pivot)
    (hjx : ∀ x, j' < x → x < j → pivot < m.arr x) (hle : j' ≤ i') : Parted l r pivot j' m m := by
  refine ⟨hlj,by have := h.high; omega,.refl l r _,?_,?_,rfl⟩
  · intro x hx hxj
    rcases le_or_gt x i with hxi | hxi
    · exact h.left x hx hxi
    · rcases eq_or_lt_of_le hxj with rfl | hxj
      · exact hjp
      · exact (hix x hxi (by omega)).le
  · intro x hx hxr
    rcases lt_or_ge x j with hxj | hxj
    · exact (hjx x hx hxj).le
    · exact h.right x hxj hxr

theorem Crossing.swap {l r pivot i j i' j' : Int} {a : Cells} (h : Crossing l r pivot i j a)
    (hi : i < i') (hip : pivot ≤ a i') (hix : ∀ x, i < x → x < i' → a x < pivot)
    (hj : j' < j) (hjp : a j' ≤ pivot) (hjx : ∀ x, j' < x → x < j → pivot < a x)
    (hlt : i' < j') : Crossing l r pivot i' j' (swapped a i' j') := by
  have hlow := h.low
  have hhigh := h.high
  refine ⟨by omega,hlt,by omega,?_,?_,⟨j',hlt,by omega,by simpa using hip⟩,
    ⟨i',by omega,hlt,by simpa using hjp⟩⟩
  · intro x hx hxi
    rcases eq_or_lt_of_le hxi with rfl | hxi
    · rw [swapped_left]
      exact hjp
    · rw [swapped_of_ne (by omega) (by omega)]
      rcases le_or_gt x i with hxi' | hxi'
      · exact h.left x hx hxi'
      · exact (hix x hxi' hxi).le
  · intro x hx hxr
    rcases eq_or_lt_of_le hx with rfl | hx
    · rw [swapped_right]
      exact hip
    · rw [swapped_of_ne (by omega) (by omega)]
      rcases lt_or_ge x j with hxj | hxj
      · exact (hjx x hx hxj).le
      · exact h.right x hxj hxr

theorem Crossing.start {l r pivot k : Int} {a : Cells} (hl : l ≤ k) (hr : k ≤ r)
    (hp : pivot ≤ a k) (hp' : a k ≤ pivot) : Crossing l r pivot (l - 1) (r + 1) a := by
  refine ⟨le_rfl,by omega,le_rfl,?_,?_,⟨k,by omega,hr,hp⟩,⟨k,hl,by omega,hp'⟩⟩
  · intro x hx hx'
    omega
  · intro x hx hx'
    omega

structure Scanned (l r pivot i j i' j' : Int) (a : Cells) : Prop where
  up : i < i'
  upHigh : i' ≤ r
  upStop : pivot ≤ a i'
  upPassed : ∀ x, i < x → x < i' → a x < pivot
  down : j' < j
  downLow : l ≤ j'
  downStop : a j' ≤ pivot
  downPassed : ∀ x, j' < x → x < j → pivot < a x

theorem Crossing.scans {l r pivot i j : Int} {m : Memory R} (h : Crossing l r pivot i j m.arr) :
    ∃ i' j', (scanUp r pivot (r + 1 - i).toNat i).run (exec d) m = .returned i' m ∧
      (scanDown l pivot (j + 1 - l).toNat j).run (exec d) m = .returned j' m ∧
      Scanned l r pivot i j i' j' m.arr := by
  obtain ⟨x,hix,hxr,hx⟩ := h.above
  obtain ⟨y,hly,hyj,hy⟩ := h.below
  obtain ⟨i',hup,hi,hix',hip,hiu⟩ := run_scanUp (d := d) (m := m) (r + 1 - i).toNat
    (by omega) hix hxr hx
  obtain ⟨j',hdown,hj,hyj',hjp,hjd⟩ := run_scanDown (d := d) (m := m) (j + 1 - l).toNat
    (by omega) hyj hly hy
  exact ⟨i',j',hup,hdown,hi,by omega,hip,hiu,hj,by omega,hjp,hjd⟩

theorem run_partitionLoop {l r pivot : Int} (n : Nat) {i j : Int} {m : Memory R}
    (hn : j - i ≤ n) (h : Crossing l r pivot i j m.arr) :
    ∃ p m', (partitionLoop l r pivot n i j).run (exec d) m = .returned p m' ∧
      Parted l r pivot p m m' := by
  induction n generalizing i j m with
  | zero =>
    have := h.order
    omega
  | succ n ih =>
    obtain ⟨i',j',hup,hdown,hs⟩ := h.scans (d := d)
    simp only [partitionLoop,Prog.bind_eq]
    rw [Prog.run_bind_returned hup,Prog.run_bind_returned hdown]
    by_cases hle : j' ≤ i'
    · rw [if_pos hle]
      exact ⟨j',m,rfl,h.stop hs.upPassed hs.down hs.downLow hs.downStop hs.downPassed hle⟩
    · have hlt : i' < j' := not_le.mp hle
      have hlow := h.low
      have hhigh := h.high
      have hi := hs.up
      have hj := hs.down
      rw [if_neg hle,run_swap_bind]
      obtain ⟨p,m',hrun,hp⟩ := ih (m := { m with arr := swapped m.arr i' j' }) (by omega)
        (h.swap hi hs.upStop hs.upPassed hj hs.downStop hs.downPassed hlt)
      refine ⟨p,m',hrun,hp.low,hp.high,?_,hp.left,hp.right,hp.rng⟩
      exact (Rearranged.swap ⟨by omega,by omega⟩ ⟨by omega,by omega⟩).trans hp.rearranged

theorem run_partition_at {l r k : Int} (hl : l ≤ k) (hr : k ≤ r) (m : Memory R)
    (hk : l + ((d m.rng m.arr l r).1 : Int) % (r - l + 1) = k) :
    ∃ p m', (partition l r).run (exec d) m = .returned p m' ∧
      Parted l r (m.arr k) p { m with rng := (d m.rng m.arr l r).2 } m' := by
  have hc : Crossing l r (m.arr k) (l - 1) (r + 1) m.arr := .start hl hr le_rfl le_rfl
  obtain ⟨p,m',hrun,hp⟩ := run_partitionLoop (d := d) (r - l + 1 + 1).toNat
    (m := { m with rng := (d m.rng m.arr l r).2 }) (by omega) hc
  refine ⟨p,m',?_,hp⟩
  rw [← hrun,← hk]
  rfl

theorem run_partition {l r : Int} (hlr : l ≤ r) (m : Memory R) :
    ∃ pivot p m', (partition l r).run (exec d) m = .returned p m' ∧
      Parted l r pivot p { m with rng := (d m.rng m.arr l r).2 } m' := by
  have hlen : 0 < r - l + 1 := by omega
  have h0 := Int.emod_nonneg ((d m.rng m.arr l r).1 : Int) hlen.ne'
  have h1 := Int.emod_lt_of_pos ((d m.rng m.arr l r).1 : Int) hlen
  generalize hk : l + ((d m.rng m.arr l r).1 : Int) % (r - l + 1) = k
  exact ⟨m.arr k,run_partition_at (by omega) (by omega) m hk⟩

theorem segment_perm {l r : Int} {a b : Cells} (h : Rearranged l r a b) :
    (segment b l r).Perm (segment a l r) := by
  obtain ⟨σ,hσ,hb⟩ := h
  let xs : List Int := (List.range (r - l + 1).toNat).map fun k : Nat => l + k
  have hmem : ∀ x, x ∈ xs ↔ l ≤ x ∧ x ≤ r := by
    intro x
    simp only [xs,List.mem_map,List.mem_range]
    constructor
    · rintro ⟨k,hk,rfl⟩
      omega
    · intro hx
      exact ⟨(x - l).toNat,by omega,by omega⟩
  have hnodup : xs.Nodup := List.nodup_range.map fun x y hxy => by simpa using hxy
  have hcells : ∀ c : Cells, segment c l r = xs.map c := fun c => (List.map_map ..).symm
  have hkeep : ∀ x, σ x ∈ xs ↔ x ∈ xs := by
    intro x
    rw [hmem,hmem]
    by_cases hx : x < l ∨ r < x
    · rw [hσ x hx]
    · constructor
      · intro _
        omega
      · intro _
        by_contra hn
        have : σ x = x := σ.injective (hσ (σ x) (by omega))
        omega
  have hperm : (xs.map σ).Perm xs := by
    apply (List.perm_ext_iff_of_nodup (hnodup.map σ.injective) hnodup).mpr
    intro x
    rw [List.mem_map]
    constructor
    · rintro ⟨y,hy,rfl⟩
      exact (hkeep y).mpr hy
    · intro hx
      exact ⟨σ.symm x,(hkeep _).mp (by simpa using hx),by simp⟩
  have hbs : xs.map b = (xs.map σ).map a :=
    (List.map_congr_left fun x _ => hb x).trans (List.map_map ..).symm
  rw [hcells,hcells,hbs]
  exact hperm.map a

end Sorts
