import Mathlib.Tactic
import OscAssignments.Sorts.Agreement

namespace Sorts
open ForkJoin Segments

def mid (l r : Int) : Int := ((l + r).bmod (2 ^ 32)).tdiv 2

def mergeRight (r i : Int) : Nat → Int → List Int → Code (Int × List Int)
  | 0, _, _ => .stuck
  | n + 1, j, sorted =>
    if j ≤ r then do
      let y ← read j
      let x ← read i
      if y ≤ x then do
        let v ← read j
        mergeRight r i n (j + 1) (sorted ++ [v])
      else pure (j, sorted)
    else pure (j, sorted)

def mergeLeft (mid r : Int) : Nat → Int → Int → List Int → Code (Int × Int × List Int)
  | 0, _, _, _ => .stuck
  | n + 1, i, j, sorted =>
    if i ≤ mid then do
      let (j, sorted) ← mergeRight r i (r + 2 - j).toNat j sorted
      let x ← read i
      mergeLeft mid r n (i + 1) j (sorted ++ [x])
    else pure (i, j, sorted)

def drain (u : Int) : Nat → Int → List Int → Code (List Int)
  | 0, _, _ => .stuck
  | n + 1, i, sorted =>
    if i ≤ u then do
      let x ← read i
      drain u n (i + 1) (sorted ++ [x])
    else pure sorted

def copyBack : Int → List Int → Code Unit
  | _, [] => pure ()
  | i, x :: xs => do
    write i x
    copyBack (i + 1) xs

def merge (l r : Int) : Code Unit := do
  let (i, j, sorted) ← mergeLeft (mid l r) r (mid l r + 2 - l).toNat l (mid l r + 1) []
  let sorted ← drain (mid l r) (mid l r + 2 - i).toNat i sorted
  let sorted ← drain r (r + 2 - j).toNat j sorted
  copyBack l sorted

def normalMergesortIn : Nat → Int → Int → Code Unit
  | 0, _, _ => .stuck
  | n + 1, l, r =>
    if r < l then pure ()
    else if r - l + 1 ≤ 5 then insertionSort l r
    else do
      normalMergesortIn n l (mid l r)
      normalMergesortIn n (mid l r + 1) r
      merge l r

def mergesortIn : Nat → Int → Int → Code Unit
  | 0, _, _ => .stuck
  | n + 1, l, r =>
    if r < l then .exit
    else if r - l + 1 ≤ 5 then insertionSort l r
    else .fork
      (do mergesortIn n l (mid l r); .exit)
      (do mergesortIn n (mid l r + 1) r; .exit)
      (merge l r)

def threadedMergesortIn : Nat → Int → Int → Code Unit
  | 0, _, _ => .stuck
  | n + 1, l, r =>
    if r < l then pure ()
    else if r - l + 1 ≤ 5 then insertionSort l r
    else .fork
      (threadedMergesortIn n l (mid l r))
      (threadedMergesortIn n (mid l r + 1) r)
      (merge l r)

def normalMergesort (l r : Int) : Code Unit := normalMergesortIn (depth l r) l r

def mergesort (l r : Int) : Code Unit := mergesortIn (depth l r) l r

def threadedMergesort (l r : Int) : Code Unit := threadedMergesortIn (depth l r) l r

structure Narrow (l r : Int) : Prop where
  low : -2 ^ 30 < l
  high : r < 2 ^ 30

theorem Narrow.mid_eq {l r : Int} (h : Narrow l r) (hlr : l ≤ r) :
    mid l r = (l + r).tdiv 2 := by
  obtain ⟨hlow,hhigh⟩ := h
  rw [mid,Int.bmod_eq_of_le (by omega) (by omega)]

theorem Narrow.mid_bounds {l r : Int} (h : Narrow l r) (hlr : l + 1 < r) :
    l ≤ mid l r ∧ mid l r < r := by
  have hdiv := Int.mul_tdiv_add_tmod (l + r) 2
  have hlt := Int.tmod_lt_of_pos (l + r) (b := 2) (by decide)
  have hgt := Int.lt_tmod_of_pos (l + r) (b := 2) (by decide)
  rw [h.mid_eq (by omega)]
  omega

theorem Narrow.left {l p r : Int} (h : Narrow l r) (hpr : p ≤ r) : Narrow l p :=
  ⟨h.low,hpr.trans_lt h.high⟩

theorem Narrow.right {l p r : Int} (h : Narrow l r) (hlp : l ≤ p) : Narrow (p + 1) r :=
  ⟨by have hlow := h.low; omega,h.high⟩

section Segment
variable {a b : Cells} {l p r : Int}

theorem segment_nil (h : r < l) : segment a l r = [] := by
  have hzero : (r - l + 1).toNat = 0 := by omega
  rw [segment,hzero]
  rfl

theorem segment_append (hl : l ≤ p + 1) (hr : p ≤ r) :
    segment a l r = segment a l p ++ segment a (p + 1) r := by
  have hlen : (r - l + 1).toNat = (p - l + 1).toNat + (r - (p + 1) + 1).toNat := by omega
  rw [segment,hlen,List.range_add,List.map_append,List.map_map]
  congr 1
  apply List.map_congr_left
  intro k _
  change a (l + ((p - l + 1).toNat + k : Nat)) = a (p + 1 + k)
  congr 1
  omega

theorem segment_singleton (a : Cells) (l : Int) : segment a l l = [a l] := by
  have hone : (l - l + 1).toNat = 1 := by omega
  rw [segment,hone]
  simp

theorem segment_snoc (h : l ≤ r) : segment a l r = segment a l (r - 1) ++ [a r] := by
  rw [segment_append (p := r - 1) (by omega) (by omega),Int.sub_add_cancel,segment_singleton]

theorem segment_cons (h : l ≤ r) : segment a l r = a l :: segment a (l + 1) r := by
  rw [segment_append (p := l) (by omega) h,segment_singleton]
  rfl

theorem mem_segment {v : Int} : v ∈ segment a l r ↔ ∃ x, l ≤ x ∧ x ≤ r ∧ a x = v := by
  rw [segment,List.mem_map]
  constructor
  · rintro ⟨k,hk,rfl⟩
    have hk' := List.mem_range.mp hk
    exact ⟨l + k,by omega,by omega,rfl⟩
  · rintro ⟨x,hl,hr,rfl⟩
    refine ⟨(x - l).toNat,List.mem_range.mpr (by omega),?_⟩
    congr 1
    omega

theorem segment_congr (h : ∀ x, l ≤ x → x ≤ r → b x = a x) : segment b l r = segment a l r := by
  unfold segment
  apply List.map_congr_left
  intro k hk
  have hk' := List.mem_range.mp hk
  exact h _ (by omega) (by omega)

theorem length_segment (a : Cells) (l r : Int) : (segment a l r).length = (r - l + 1).toNat := by
  rw [segment,List.length_map,List.length_range]

theorem ascending_of_pairwise (h : (segment a l r).Pairwise (· ≤ ·)) : Ascending a l r := by
  intro x y hx hxy hy
  rcases eq_or_lt_of_le hxy with rfl | hlt
  · exact le_rfl
  · rw [segment_append (p := x) (by omega) (by omega),List.pairwise_append] at h
    exact h.2.2 _ (mem_segment.mpr ⟨x,hx,le_rfl,rfl⟩) _ (mem_segment.mpr ⟨y,by omega,hy,rfl⟩)

theorem pairwise_of_ascending (h : Ascending a l r) : (segment a l r).Pairwise (· ≤ ·) := by
  rw [segment,List.pairwise_map]
  refine List.pairwise_lt_range.imp_of_mem ?_
  intro j k hj hk hjk
  have hk' := List.mem_range.mp hk
  exact h _ _ (by omega) (by omega) (by omega)

end Segment

section Runs
variable {R : Type} {d : Source R} {l p r i j : Int} {m : Memory R} {sorted : List Int}

structure Merged (a : Cells) (l p r i j : Int) (sorted : List Int) : Prop where
  perm : sorted.Perm (segment a l (i - 1) ++ segment a (p + 1) (j - 1))
  ordered : sorted.Pairwise (· ≤ ·)
  left : ∀ v ∈ sorted, ∀ x, i ≤ x → x ≤ p → v ≤ a x
  right : ∀ v ∈ sorted, ∀ y, j ≤ y → y ≤ r → v ≤ a y

theorem Merged.push {a : Cells} {v : Int} {i' j' : Int} (h : Merged a l p r i j sorted)
    (hperm : (segment a l (i' - 1) ++ segment a (p + 1) (j' - 1)).Perm
      ((segment a l (i - 1) ++ segment a (p + 1) (j - 1)) ++ [v]))
    (hi : i ≤ i') (hj : j ≤ j') (hle : ∀ u ∈ sorted, u ≤ v)
    (hleft : ∀ x, i' ≤ x → x ≤ p → v ≤ a x) (hright : ∀ y, j' ≤ y → y ≤ r → v ≤ a y) :
    Merged a l p r i' j' (sorted ++ [v]) := by
  refine ⟨(h.perm.append_right [v]).trans hperm.symm,?_,?_,?_⟩
  · rw [List.pairwise_append]
    refine ⟨h.ordered,List.pairwise_singleton _ _,fun u hu w hw => ?_⟩
    rw [List.mem_singleton.mp hw]
    exact hle u hu
  · intro u hu x hx hxp
    rcases List.mem_append.mp hu with hu | hu
    · exact h.left u hu x (by omega) hxp
    · rw [List.mem_singleton.mp hu]
      exact hleft x hx hxp
  · intro u hu y hy hyr
    rcases List.mem_append.mp hu with hu | hu
    · exact h.right u hu y (by omega) hyr
    · rw [List.mem_singleton.mp hu]
      exact hright y hy hyr

theorem Merged.takeRight {a : Cells} (h : Merged a l p r i j sorted) (hpj : p < j) (hjr : j ≤ r)
    (hli : l ≤ i) (hle : a j ≤ a i) (hl : Ascending a l p)
    (hr : Ascending a (p + 1) r) : Merged a l p r i (j + 1) (sorted ++ [a j]) := by
  refine h.push ?_ le_rfl (by omega) ?_ ?_ ?_
  · rw [Int.add_sub_cancel,segment_snoc (l := p + 1) (r := j) (by omega),List.append_assoc]
  · exact fun u hu => h.right u hu j le_rfl hjr
  · exact fun x hx hxp => hle.trans (hl i x hli hx hxp)
  · exact fun y hy hyr => hr j y (by omega) (by omega) hyr

theorem Merged.takeLeft {a : Cells} (h : Merged a l p r i j sorted) (hpj : p < j) (hli : l ≤ i)
    (hip : i ≤ p) (hlt : j ≤ r → a i < a j) (hl : Ascending a l p) (hr : Ascending a (p + 1) r) :
    Merged a l p r (i + 1) j (sorted ++ [a i]) := by
  refine h.push ?_ (by omega) le_rfl ?_ ?_ ?_
  · rw [Int.add_sub_cancel,segment_snoc (l := l) (r := i) hli,List.append_assoc,List.append_assoc]
    exact List.perm_append_comm.append_left _
  · exact fun u hu => h.left u hu i le_rfl hip
  · exact fun x hx hxp => hl i x hli (by omega) hxp
  · exact fun y hy hyr => (hlt (by omega)).le.trans (hr j y (by omega) hy hyr)

theorem run_mergeRight (n : Nat) (hn : r + 1 - j < n) (hpj : p < j) (hjr : j ≤ r + 1) (hli : l ≤ i)
    (hl : Ascending m.arr l p) (hr : Ascending m.arr (p + 1) r)
    (h : Merged m.arr l p r i j sorted) :
    ∃ k xs, (mergeRight r i n j sorted).run (exec d) m = .returned (k,xs) m ∧ p < k ∧ k ≤ r + 1 ∧
      Merged m.arr l p r i k xs ∧ (k ≤ r → m.arr i < m.arr k) := by
  induction n generalizing j sorted with
  | zero => omega
  | succ n ih =>
    rw [mergeRight]
    split_ifs with hjr'
    · simp only [Prog.bind_eq,run_read_bind]
      split_ifs with hle
      · exact ih (by omega) (by omega) (by omega) (h.takeRight hpj hjr' hli hle hl hr)
      · exact ⟨j,sorted,rfl,hpj,hjr,h,fun _ => not_le.mp hle⟩
    · exact ⟨j,sorted,rfl,hpj,hjr,h,fun hj => absurd hj hjr'⟩

theorem run_mergeLeft (n : Nat) (hn : p + 1 - i < n) (hpj : p < j) (hjr : j ≤ r + 1) (hli : l ≤ i)
    (hip : i ≤ p + 1) (hl : Ascending m.arr l p) (hr : Ascending m.arr (p + 1) r)
    (h : Merged m.arr l p r i j sorted) :
    ∃ k xs, (mergeLeft p r n i j sorted).run (exec d) m = .returned (p + 1,k,xs) m ∧
      p < k ∧ k ≤ r + 1 ∧ Merged m.arr l p r (p + 1) k xs := by
  induction n generalizing i j sorted with
  | zero => omega
  | succ n ih =>
    rw [mergeLeft]
    split_ifs with hle
    · obtain ⟨k,xs,hrun,hpk,hkr,hk,hlt⟩ := run_mergeRight (d := d) (r + 2 - j).toNat (by omega) hpj hjr
        hli hl hr h
      rw [Prog.bind_eq,Prog.run_bind_returned hrun]
      simp only [Prog.bind_eq,run_read_bind]
      exact ih (by omega) hpk hkr (by omega) (by omega) (hk.takeLeft hpk hli hle hlt hl hr)
    · obtain rfl : i = p + 1 := by omega
      exact ⟨j,sorted,rfl,hpj,hjr,h⟩

theorem run_drain {u : Int} (n : Nat) (hn : u + 1 - i < n) (hiu : i ≤ u + 1) :
    (drain u n i sorted).run (exec d) m = .returned (sorted ++ segment m.arr i u) m := by
  induction n generalizing i sorted with
  | zero => omega
  | succ n ih =>
    rw [drain]
    split_ifs with hle
    · simp only [Prog.bind_eq,run_read_bind]
      rw [ih (by omega) (by omega),segment_cons hle,List.append_assoc]
      rfl
    · rw [segment_nil (by omega),List.append_nil]
      rfl

theorem Merged.rest {a : Cells} {xs : List Int} (h : Merged a l p r (p + 1) j xs) (hlp : l ≤ p + 1)
    (hpr : p ≤ r) (hpj : p < j) (hjr : j ≤ r + 1) (hr : Ascending a (p + 1) r) :
    (xs ++ segment a j r).Perm (segment a l r) ∧ (xs ++ segment a j r).Pairwise (· ≤ ·) := by
  have hsplit : segment a l r = (segment a l p ++ segment a (p + 1) (j - 1)) ++ segment a j r := by
    rw [segment_append hlp hpr,segment_append (l := p + 1) (p := j - 1) (by omega) (by omega),
      Int.sub_add_cancel,List.append_assoc]
  constructor
  · rw [hsplit]
    refine List.Perm.append_right _ ?_
    have hperm := h.perm
    rwa [Int.add_sub_cancel] at hperm
  · refine List.pairwise_append.mpr ⟨h.ordered,?_,?_⟩
    · exact pairwise_of_ascending (hr.mono (by omega) le_rfl)
    · intro v hv w hw
      obtain ⟨y,hjy,hyr,rfl⟩ := mem_segment.mp hw
      exact h.right v hv y hjy hyr

theorem run_copyBack (xs : List Int) (m : Memory R) :
    ∃ a, (copyBack l xs).run (exec d) m = .returned () { m with arr := a } ∧
      segment a l (l + xs.length - 1) = xs ∧ ∀ x, x < l ∨ l + xs.length ≤ x → a x = m.arr x := by
  induction xs generalizing l m with
  | nil => exact ⟨m.arr,rfl,segment_nil (by simp),fun _ _ => rfl⟩
  | cons v xs ih =>
    obtain ⟨a,hrun,hseg,hout⟩ := ih (l := l + 1) { m with arr := Function.update m.arr l v }
    have hend : l + ((v :: xs).length : Int) - 1 = l + 1 + xs.length - 1 := by
      rw [List.length_cons]
      omega
    refine ⟨a,hrun,?_,?_⟩
    · have hhead : a l = v := by
        rw [hout l (.inl (by omega))]
        exact Function.update_self ..
      rw [hend,segment_cons (by omega),hhead,hseg]
    · intro x hx
      rw [List.length_cons] at hx
      rw [hout x (by omega)]
      exact Function.update_of_ne (by omega) _ _

structure Arranged (l r : Int) (m m' : Memory R) : Prop where
  perm : (segment m'.arr l r).Perm (segment m.arr l r)
  ascending : Ascending m'.arr l r
  outside : ∀ x, x < l ∨ r < x → m'.arr x = m.arr x
  rng : m'.rng = m.rng

theorem run_merge (hlp : l ≤ mid l r) (hpr : mid l r ≤ r) (hl : Ascending m.arr l (mid l r))
    (hr : Ascending m.arr (mid l r + 1) r) :
    ∃ m', (merge l r).run (exec d) m = .returned () m' ∧ Arranged l r m m' := by
  have hstart : Merged m.arr l (mid l r) r l (mid l r + 1) [] := by
    refine ⟨?_,.nil,by simp,by simp⟩
    rw [segment_nil (by omega),segment_nil (by omega)]
    exact .nil
  obtain ⟨j,xs,hrun,hpj,hjr,hj⟩ := run_mergeLeft (d := d) (mid l r + 2 - l).toNat (by omega)
    (by omega) (by omega) le_rfl (by omega) hl hr hstart
  obtain ⟨hperm,hsorted⟩ := hj.rest (by omega) hpr hpj hjr hr
  have hlen : ((xs ++ segment m.arr j r).length : Int) = r - l + 1 := by
    rw [hperm.length_eq,length_segment]
    omega
  obtain ⟨a,hcopy,hseg,hout⟩ := run_copyBack (d := d) (l := l) (xs ++ segment m.arr j r) m
  have hend : l + ((xs ++ segment m.arr j r).length : Int) - 1 = r := by omega
  rw [hend] at hseg
  refine ⟨{ m with arr := a },?_,?_,?_,?_,rfl⟩
  · rw [merge,Prog.bind_eq,Prog.run_bind_returned hrun]
    simp only [Prog.bind_eq]
    rw [Prog.run_bind_returned (run_drain _ (by omega) (by omega)),segment_nil (by omega),
      List.append_nil,Prog.run_bind_returned (run_drain _ (by omega) (by omega))]
    exact hcopy
  · rw [hseg]
    exact hperm
  · apply ascending_of_pairwise
    rw [hseg]
    exact hsorted
  · exact fun x hx => hout x (by omega)

theorem Arranged.halves {m₁ m₂ : Memory R} (hl : l ≤ p + 1) (hr : p ≤ r) (h1 : Arranged l p m m₁)
    (h2 : Arranged (p + 1) r m₁ m₂) :
    (segment m₂.arr l r).Perm (segment m.arr l r) ∧ Ascending m₂.arr l p ∧
      Ascending m₂.arr (p + 1) r ∧ (∀ x, x < l ∨ r < x → m₂.arr x = m.arr x) ∧ m₂.rng = m.rng := by
  have hkeep : ∀ x, x ≤ p → m₂.arr x = m₁.arr x := fun x hx => h2.outside x (.inl (by omega))
  have hbefore : ∀ x, p < x → m₁.arr x = m.arr x := fun x hx => h1.outside x (.inr hx)
  refine ⟨?_,?_,h2.ascending,?_,h2.rng.trans h1.rng⟩
  · rw [segment_append hl hr,segment_append (a := m.arr) hl hr]
    refine List.Perm.append ?_ ?_
    · rw [segment_congr fun x _ hx => hkeep x hx]
      exact h1.perm
    · rw [← segment_congr (a := m.arr) fun x hx _ => hbefore x (by omega)]
      exact h2.perm
  · exact h1.ascending.congr fun x _ hx => hkeep x hx
  · intro x hx
    rw [h2.outside x (by omega),h1.outside x (by omega)]

theorem Arranged.trans_merge {m₁ m₂ : Memory R}
    (h1 : (segment m₁.arr l r).Perm (segment m.arr l r))
    (hout : ∀ x, x < l ∨ r < x → m₁.arr x = m.arr x) (hrng : m₁.rng = m.rng)
    (h2 : Arranged l r m₁ m₂) : Arranged l r m m₂ :=
  ⟨h2.perm.trans h1,h2.ascending,fun x hx => (h2.outside x hx).trans (hout x hx),h2.rng.trans hrng⟩

theorem arranged_of_lt (h : r < l) : Arranged l r m m :=
  ⟨.refl _,ascending_of_le h.le,fun _ _ => rfl,rfl⟩

theorem run_insertionSort_arranged (hlr : l ≤ r) (m : Memory R) :
    ∃ m', (insertionSort l r).run (exec d) m = .returned () m' ∧ Arranged l r m m' := by
  obtain ⟨m',hrun,hre,hasc,hrng⟩ := run_insertionSort (d := d) hlr m
  exact ⟨m',hrun,segment_perm hre,hasc,fun x hx => hre.outside hx,hrng⟩

structure Halved (d : Source R) (n : Nat) (l r : Int) (m m₁ m₂ m₃ : Memory R) : Prop where
  left : (normalMergesortIn n l (mid l r)).run (exec d) m = .returned () m₁
  right : (normalMergesortIn n (mid l r + 1) r).run (exec d) m₁ = .returned () m₂
  merged : (merge l r).run (exec d) m₂ = .returned () m₃
  arranged : Arranged l r m m₃

def Arranges (d : Source R) (n : Nat) (l r : Int) : Prop :=
  ∀ m, ∃ m', (normalMergesortIn n l r).run (exec d) m = .returned () m' ∧ Arranged l r m m'

theorem Arranges.halved {n : Nat} (hs : Narrow l r) (hlen : 5 < r - l + 1) (hl : Arranges d n l (mid l r))
    (hr : Arranges d n (mid l r + 1) r) (m : Memory R) :
    ∃ m₁ m₂ m₃, Halved d n l r m m₁ m₂ m₃ := by
  obtain ⟨hlo,hhi⟩ := hs.mid_bounds (by omega)
  obtain ⟨m₁,h1,a1⟩ := hl m
  obtain ⟨m₂,h2,a2⟩ := hr m₁
  obtain ⟨hperm,hasc,hasc',hout,hrng⟩ := a1.halves (by omega) (by omega) a2
  obtain ⟨m₃,h3,a3⟩ := run_merge (d := d) hlo hhi.le hasc hasc'
  exact ⟨m₁,m₂,m₃,h1,h2,h3,a3.trans_merge hperm hout hrng⟩

theorem Halved.whole {n : Nat} {m₁ m₂ m₃ : Memory R} (hlen : 5 < r - l + 1)
    (h : Halved d n l r m m₁ m₂ m₃) :
    (normalMergesortIn (n + 1) l r).run (exec d) m = .returned () m₃ := by
  rw [normalMergesortIn,if_neg (by omega),if_neg (by omega),Prog.bind_eq,
    Prog.run_bind_returned h.left,Prog.bind_eq,Prog.run_bind_returned h.right]
  exact h.merged

theorem arranges {n : Nat} (hs : Narrow l r) (hn : r - l + 1 < n) (hn0 : 0 < n) :
    Arranges d n l r := by
  induction n generalizing l r with
  | zero => omega
  | succ n ih =>
    intro m
    rcases lt_or_ge r l with hrl | hlr
    · refine ⟨m,?_,arranged_of_lt hrl⟩
      rw [normalMergesortIn,if_pos hrl]
      rfl
    · rcases le_or_gt (r - l + 1) 5 with hlen | hlen
      · rw [normalMergesortIn,if_neg (by omega),if_pos hlen]
        exact run_insertionSort_arranged hlr m
      · obtain ⟨hlo,hhi⟩ := hs.mid_bounds (by omega)
        obtain ⟨m₁,m₂,m₃,h⟩ := Arranges.halved (d := d) hs hlen
          (ih (hs.left hhi.le) (by omega) (by omega)) (ih (hs.right hlo) (by omega) (by omega)) m
        exact ⟨m₃,h.whole hlen,h.arranged⟩

theorem exists_halved {n : Nat} (hs : Narrow l r) (hn : r - l < n) (hlen : 5 < r - l + 1)
    (m : Memory R) :
    ∃ m₁ m₂ m₃, Halved d n l r m m₁ m₂ m₃ := by
  obtain ⟨hlo,hhi⟩ := hs.mid_bounds (by omega)
  exact Arranges.halved hs hlen (arranges (hs.left hhi.le) (by omega) (by omega))
    (arranges (hs.right hlo) (by omega) (by omega)) m

theorem run_threadedMergesortIn {n : Nat} (hs : Narrow l r) (hn : r - l + 1 < n) (hn0 : 0 < n)
    (m : Memory R) :
    (threadedMergesortIn n l r).run (exec d) m = (normalMergesortIn n l r).run (exec d) m := by
  induction n generalizing l r m with
  | zero => omega
  | succ n ih =>
    rcases lt_or_ge r l with hrl | hlr
    · rw [threadedMergesortIn,normalMergesortIn,if_pos hrl,if_pos hrl]
    · rcases le_or_gt (r - l + 1) 5 with hlen | hlen
      · simp only [threadedMergesortIn,normalMergesortIn,if_neg (not_lt.mpr hlr),if_pos hlen]
      · obtain ⟨hlo,hhi⟩ := hs.mid_bounds (by omega)
        obtain ⟨m₁,m₂,m₃,h⟩ := exists_halved (d := d) (n := n) hs (by omega) hlen m
        rw [h.whole hlen,threadedMergesortIn,if_neg (by omega),if_neg (by omega)]
        simp only [Prog.run,ih (hs.left hhi.le) (by omega) (by omega),h.left,
          Outcome.state?_returned,Prog.join_some,ih (hs.right hlo) (by omega) (by omega),
          h.right,h.merged]

theorem run_mergesortIn {n : Nat} (hs : Narrow l r) (hlr : l ≤ r) (hn : r - l + 1 < n) (m : Memory R) :
    (mergesortIn n l r).run (exec d) m = (normalMergesortIn n l r).run (exec d) m := by
  induction n generalizing l r m with
  | zero => omega
  | succ n ih =>
    rcases le_or_gt (r - l + 1) 5 with hlen | hlen
    · simp only [mergesortIn,normalMergesortIn,if_neg (not_lt.mpr hlr),if_pos hlen]
    · obtain ⟨hlo,hhi⟩ := hs.mid_bounds (by omega)
      obtain ⟨m₁,m₂,m₃,h⟩ := exists_halved (d := d) (n := n) hs (by omega) hlen m
      rw [h.whole hlen,mergesortIn,if_neg (by omega),if_neg (by omega)]
      simp only [Prog.run,Prog.bind_eq,Prog.run_bind]
      rw [andThen_exited_state?,ih (hs.left hhi.le) hlo (by omega),h.left]
      simp only [Outcome.state?_returned,Prog.join_some]
      rw [andThen_exited_state?,ih (hs.right hlo) (by omega) (by omega),h.right]
      exact h.merged

end Runs

section Footprint
variable {R : Type} {d : Source R} {l p r i j : Int}

theorem obeys_mergeRight (n : Nat) {sorted : List Int} (hi : l ≤ i ∧ i ≤ r) (hj : l ≤ j)
    (hjr : j ≤ r + 1) :
    (mergeRight r i n j sorted).Obeys (exec d) (Op.Within l r) fun a =>
      j ≤ a.1 ∧ a.1 ≤ r + 1 ∧ (a.2.length : Int) = sorted.length + (a.1 - j) := by
  induction n generalizing j sorted with
  | zero => exact trivial
  | succ n ih =>
    rw [mergeRight]
    split
    case isTrue hle =>
      refine ⟨⟨hj,hle⟩,fun y => ⟨hi,fun x => ?_⟩⟩
      dsimp only
      change Prog.Obeys (exec d) _ _ (if y ≤ x then
        .act (.read j) fun v => mergeRight r i n (j + 1) (sorted ++ [v]) else .ret (j,sorted))
      split
      · refine ⟨⟨hj,hle⟩,fun v => (ih (by omega) (by omega)).mono (fun _ ho => ho) ?_⟩
        rintro ⟨k,xs⟩ ⟨h1,h2,h3⟩
        rw [List.length_append,List.length_singleton] at h3
        exact ⟨by omega,h2,by omega⟩
      · exact ⟨le_rfl,hjr,by simp⟩
    case isFalse hle => exact ⟨le_rfl,hjr,by simp⟩

theorem obeys_mergeLeft (n : Nat) {sorted : List Int} (hi : l ≤ i) (hip : i ≤ p + 1) (hpr : p ≤ r)
    (hj : l ≤ j) (hjr : j ≤ r + 1) :
    (mergeLeft p r n i j sorted).Obeys (exec d) (Op.Within l r) fun a =>
      a.1 = p + 1 ∧ j ≤ a.2.1 ∧ a.2.1 ≤ r + 1 ∧
        (a.2.2.length : Int) = sorted.length + (p + 1 - i) + (a.2.1 - j) := by
  induction n generalizing i j sorted with
  | zero => exact trivial
  | succ n ih =>
    rw [mergeLeft]
    split
    case isTrue hle =>
      refine (obeys_mergeRight _ ⟨hi,by omega⟩ hj hjr).bind ?_
      rintro ⟨k,xs⟩ ⟨h1,h2,h3⟩
      refine ⟨⟨hi,by omega⟩,fun x => ?_⟩
      refine (ih (by omega) (by omega) (by omega) h2).mono (fun _ ho => ho) ?_
      rintro ⟨i',k',ys⟩ ⟨h4,h5,h6,h7⟩
      rw [List.length_append,List.length_singleton] at h7
      dsimp only at *
      exact ⟨h4,by omega,h6,by omega⟩
    case isFalse hle =>
      obtain rfl : i = p + 1 := by omega
      exact ⟨rfl,le_rfl,hjr,by simp⟩

theorem obeys_drain (n : Nat) {u : Int} {sorted : List Int} (hi : l ≤ i) (hiu : i ≤ u + 1)
    (hur : u ≤ r) :
    (drain u n i sorted).Obeys (exec d) (Op.Within l r) fun xs =>
      (xs.length : Int) = sorted.length + (u + 1 - i) := by
  induction n generalizing i sorted with
  | zero => exact trivial
  | succ n ih =>
    rw [drain]
    split
    case isTrue hle =>
      refine ⟨⟨hi,by omega⟩,fun x => (ih (by omega) (by omega)).mono (fun _ ho => ho) ?_⟩
      intro xs hxs
      rw [List.length_append,List.length_singleton] at hxs
      omega
    case isFalse hle =>
      change (sorted.length : Int) = _
      omega

theorem uses_copyBack (xs : List Int) (hi : l ≤ i) (hlen : i + xs.length ≤ r + 1) :
    (copyBack i xs).Uses (exec d) (Op.Within l r) := by
  induction xs generalizing i with
  | nil => exact trivial
  | cons x xs ih =>
    rw [List.length_cons] at hlen
    exact (uses_write ⟨hi,by omega⟩).bind fun _ _ => ih (by omega) (by omega)

theorem uses_merge (hlp : l ≤ mid l r) (hpr : mid l r ≤ r) :
    (merge l r).Uses (exec d) (Op.Within l r) := by
  refine (obeys_mergeLeft _ le_rfl (by omega) hpr (by omega) (by omega)).bind ?_
  rintro ⟨i,j,xs⟩ ⟨rfl,h1,h2,h3⟩
  refine (obeys_drain _ (by omega) le_rfl hpr).bind fun ys h4 => ?_
  refine (obeys_drain _ (by omega) h2 le_rfl).bind fun zs h5 => ?_
  refine uses_copyBack zs le_rfl ?_
  rw [List.length_nil] at h3
  dsimp only at *
  omega

theorem uses_normalMergesortIn (n : Nat) (hs : Narrow l r) :
    (normalMergesortIn n l r).Uses (exec d) (Op.Within l r) := by
  induction n generalizing l r with
  | zero => exact trivial
  | succ n ih =>
    rw [normalMergesortIn]
    split
    · exact trivial
    · split
      · exact uses_insertionSort
      · obtain ⟨hlo,hhi⟩ := hs.mid_bounds (by omega)
        have hleft : (normalMergesortIn n l (mid l r)).Uses (exec d) (Op.Within l r) :=
          (ih (hs.left hhi.le)).mono (fun _ ho => ho.mono le_rfl hhi.le) fun _ h => h
        have hright : (normalMergesortIn n (mid l r + 1) r).Uses (exec d) (Op.Within l r) :=
          (ih (hs.right hlo)).mono (fun _ ho => ho.mono (by omega) le_rfl) fun _ h => h
        exact hleft.bind fun _ _ => hright.bind fun _ _ => uses_merge hlo hhi.le

end Footprint

section Schedules
variable {c : List Int → Nat} {l r : Int}

theorem uses_halves {p : Int} {x y k : Code Unit}
    (hx : x.Uses (exec (bySegment c)) (Op.Within l p))
    (hy : y.Uses (exec (bySegment c)) (Op.Within (p + 1) r))
    (hk : k.Uses (exec (bySegment c)) (Op.Within l r)) (hl : l ≤ p + 1) (hr : p ≤ r) :
    (Prog.fork x y k).Uses (exec (bySegment c)) (Op.Within l r) := by
  refine ⟨⟨_,_,hx,hy,?_,?_,?_⟩,hk⟩
  · intro o ho
    exact ho.mono le_rfl hr
  · intro o ho
    exact ho.mono hl le_rfl
  · intro o o' ho ho'
    exact indep_of_disjoint (by omega) ho ho'

theorem uses_threadedMergesortIn (n : Nat) (hs : Narrow l r) :
    (threadedMergesortIn n l r).Uses (exec (bySegment c)) (Op.Within l r) := by
  induction n generalizing l r with
  | zero => exact trivial
  | succ n ih =>
    rw [threadedMergesortIn]
    split
    · exact trivial
    · split
      · exact uses_insertionSort
      · obtain ⟨hlo,hhi⟩ := hs.mid_bounds (by omega)
        exact uses_halves (ih (hs.left hhi.le)) (ih (hs.right hlo)) (uses_merge hlo hhi.le)
          (by omega) hhi.le

theorem uses_mergesortIn (n : Nat) (hs : Narrow l r) :
    (mergesortIn n l r).Uses (exec (bySegment c)) (Op.Within l r) := by
  induction n generalizing l r with
  | zero => exact trivial
  | succ n ih =>
    rw [mergesortIn]
    split
    · exact trivial
    · split
      · exact uses_insertionSort
      · obtain ⟨hlo,hhi⟩ := hs.mid_bounds (by omega)
        exact uses_halves ((ih (hs.left hhi.le)).bind fun _ _ => trivial)
          ((ih (hs.right hlo)).bind fun _ _ => trivial) (uses_merge hlo hhi.le) (by omega) hhi.le

end Schedules

theorem mergesorts_arrange (choose : List Int → Nat) {l r : Int} (hs : Narrow l r)
    (m : Memory Unit) :
    ∃ m', Arranged l r m m' ∧
      Prog.EverySchedule (exec (bySegment choose)) (normalMergesort l r) m (· = .returned () m') ∧
      Prog.EverySchedule (exec (bySegment choose)) (threadedMergesort l r) m
        (· = .returned () m') ∧
      Prog.EverySchedule (exec (bySegment choose)) (mergesort l r) m
        (· = if l ≤ r then .returned () m' else .exited m) := by
  obtain ⟨hd,hd0⟩ := depth_spec l r
  obtain ⟨m',hrun,harr⟩ := arranges (d := bySegment choose) hs hd hd0 m
  have hthread : (threadedMergesort l r).run (exec (bySegment choose)) m = .returned () m' :=
    (run_threadedMergesortIn hs hd hd0 m).trans hrun
  have hfork : (mergesort l r).run (exec (bySegment choose)) m =
      if l ≤ r then .returned () m' else .exited m := by
    split_ifs with hlr
    · exact (run_mergesortIn hs hlr hd m).trans hrun
    · rw [mergesort,depth,mergesortIn,if_pos (not_le.mp hlr)]
      rfl
  refine ⟨m',harr,?_,?_,?_⟩
  · refine Prog.everySchedule_of_run (uses_normalMergesortIn (depth l r) hs) ?_ hrun
    exact fun hstuck => by cases hrun.symm.trans hstuck
  · refine Prog.everySchedule_of_run (uses_threadedMergesortIn (depth l r) hs) ?_ hthread
    exact fun hstuck => by cases hthread.symm.trans hstuck
  · refine Prog.everySchedule_of_run (uses_mergesortIn (depth l r) hs) ?_ hfork
    intro hstuck
    rw [mergesort] at hfork
    rw [hfork] at hstuck
    split_ifs at hstuck

theorem Arranged.sorts {l r : Int} {R : Type} {m m' : Memory R} {xs : List Int}
    (h : Arranged l r m m') (hperm : xs.Perm (segment m.arr l r)) (hxs : xs.Pairwise (· ≤ ·)) :
    segment m'.arr l r = xs :=
  (h.perm.trans hperm.symm).eq_of_pairwise' (pairwise_of_ascending h.ascending) hxs

theorem mergesorts_arrange_run :
    ∃ m', segment m'.arr 1 7 = [1,2,3,4,5,6,7] ∧
      Prog.EverySchedule (exec (bySegment fun _ => 0)) (mergesort 1 7)
        ⟨load [9,7,3,5,1,6,2,4,8],()⟩ (· = .returned () m') := by
  obtain ⟨m',harr,-,-,hfork⟩ := mergesorts_arrange (fun _ => 0) (l := 1) (r := 7)
    ⟨by decide,by decide⟩ ⟨load [9,7,3,5,1,6,2,4,8],()⟩
  exact ⟨m',harr.sorts (by decide) (by decide),hfork⟩

end Sorts
