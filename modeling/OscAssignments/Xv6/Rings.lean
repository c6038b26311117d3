import OscAssignments.Lib.RingBuf
import OscAssignments.Lib.Runs
import OscAssignments.Xv6.Queue

namespace Xv6
open Runs

def ring (k : Kernel) (q : Level) : RingBuf Slot := ⟨k.prioQ q,k.prioQStart q,k.prioQSize q⟩

def position (k : Kernel) (q : Level) (i : Nat) : Int := (ring k q).index maxProcCount i

theorem ring_congr {k k' : Kernel} {q : Level} (h1 : k'.prioQ q = k.prioQ q)
    (h2 : k'.prioQStart q = k.prioQStart q) (h3 : k'.prioQSize q = k.prioQSize q) :
    ring k' q = ring k q := by
  unfold ring
  rw [h1,h2,h3]

theorem position_congr {k k' : Kernel} {q : Level} (h : k'.prioQStart q = k.prioQStart q)
    (i : Nat) : position k' q i = position k q i := by
  simp [position,ring,RingBuf.index,h]

@[simp] theorem setAllotedQ_alloted (k : Kernel) (p x : Slot) (a : Int × Int) :
    ((k.setAllotedQ p a).proc x).stat.allotedQ =
      if x = p then a else (k.proc x).stat.allotedQ := by
  by_cases hx : x = p <;> simp [Kernel.setAllotedQ,hx]

def pushed (k : Kernel) (q : Level) (p : Slot) : Kernel :=
  ((k.setAllotedQ p ((q.val : Int),backIndex k q)).setCell q (backIndex k q) (some p)).setSize q
    (k.prioQSize q + 1)

@[simp] theorem pushed_alloted (k : Kernel) (q : Level) (p x : Slot) :
    ((pushed k q p).proc x).stat.allotedQ =
      if x = p then ((q.val : Int),backIndex k q) else (k.proc x).stat.allotedQ :=
  setAllotedQ_alloted k p x _

@[simp] theorem pushed_prioQStart (k : Kernel) (q : Level) (p : Slot) :
    (pushed k q p).prioQStart = k.prioQStart := rfl

theorem pushed_ring (k : Kernel) (q r : Level) (p : Slot) :
    ring (pushed k q p) r = if r = q then
      { ring k q with cell := Function.update (ring k q).cell (backIndex k q) (some p)
                      size := (ring k q).size + 1 } else ring k r := by
  rcases eq_or_ne r q with rfl | hr
  · simp [pushed,ring,Kernel.setCell,Kernel.setSize,Kernel.setAllotedQ,Kernel.setProc]
  · simp [pushed,ring,Kernel.setCell,Kernel.setSize,Kernel.setAllotedQ,Kernel.setProc,hr]

structure Reads (k : Kernel) (q : Level) (l : List Slot) : Prop where
  holds : (ring k q).Holds maxProcCount l
  nodup : l.Nodup

namespace Reads
variable {k k' : Kernel} {q : Level} {l : List Slot} {p : Slot}

theorem length_le (h : Reads k q l) : l.length ≤ nproc := by
  have hle := h.nodup.length_le_card
  rwa [Fintype.card_fin] at hle

theorem length_lt (h : Reads k q l) : l.length < maxProcCount :=
  lt_of_le_of_lt h.length_le (by decide)

theorem prioQ_eq (h : Reads k q l) {i : Nat} (hi : i < l.length) :
    k.prioQ q (position k q i) = some l[i] :=
  h.holds.cell_eq i hi

theorem cell_eq (h : Reads k q l) {i : Nat} (hi : i < l.length) :
    cell k q (position k q i) = .ok (some l[i]) := by
  unfold cell
  rw [if_pos ⟨h.holds.index_nonneg hi.le,h.holds.index_lt hi.le⟩]
  exact congrArg Except.ok (h.prioQ_eq hi)

theorem backIndex_eq (h : Reads k q l) : backIndex k q = position k q l.length := h.holds.back_eq

theorem backIndex_bounds (h : Reads k q l) : 0 ≤ backIndex k q ∧ backIndex k q < maxProcCount := by
  rw [h.backIndex_eq]
  exact ⟨h.holds.index_nonneg le_rfl,h.holds.index_lt le_rfl⟩

theorem position_zero (h : Reads k q l) : position k q 0 = k.prioQStart q :=
  RingBuf.index_zero h.holds.start_nonneg h.holds.start_lt

theorem position_succ (h : Reads k q l) {i : Nat} (hi : i < l.length) :
    (position k q i + 1).tmod maxProcCount = position k q (i + 1) :=
  RingBuf.index_succ h.holds.start_nonneg h.holds.start_lt (hi.trans h.length_lt)

theorem position_injective (h : Reads k q l) {i i' : Nat} (hi : i ≤ l.length) (hi' : i' ≤ l.length)
    (he : position k q i = position k q i') : i = i' :=
  RingBuf.index_injective h.holds.start_nonneg h.holds.start_lt (hi.trans_lt h.length_lt)
    (hi'.trans_lt h.length_lt) he

theorem getElem_injective (h : Reads k q l) {i i' : Nat} (hi : i < l.length) (hi' : i' < l.length)
    (he : l[i] = l[i']) : i = i' :=
  h.nodup.getElem_inj_iff.mp he

theorem findPid_eq (h : Reads k q l) {pid : Nat} :
    ∀ (n i : Nat), i ≤ l.length → l.length - i < n →
      findPid k q pid (position k q l.length) n (position k q i) =
        .ok ((l.drop i).any fun x => (k.proc x).pid = pid) := by
  intro n
  induction n with
  | zero =>
    intro i _ hn
    omega
  | succ n ih =>
    intro i hi hn
    unfold findPid
    rcases eq_or_lt_of_le hi with rfl | hlt
    · simp
    · have hne : position k q i ≠ position k q l.length :=
        fun he => hlt.ne (h.position_injective hi le_rfl he)
      rw [if_neg hne,h.cell_eq hlt,ok_bind,List.drop_eq_getElem_cons hlt,List.any_cons]
      simp only
      split_ifs with hp
      · simp [hp]
      · rw [h.position_succ hlt,ih (i + 1) (by omega) (by omega)]
        simp [hp]

theorem pushBack_eq (h : Reads k q l) (p : Slot) :
    pushBack k q p =
      .ok (if ∃ x ∈ l, (k.proc x).pid = (k.proc p).pid then k else pushed k q p) := by
  unfold pushBack
  rw [h.backIndex_eq,← h.position_zero,h.findPid_eq _ _ (Nat.zero_le _)
    (by have := h.length_lt; omega),List.drop_zero,ok_bind]
  rcases hany : l.any fun x => (k.proc x).pid = (k.proc p).pid with _ | _
  · have hno : ¬∃ x ∈ l, (k.proc x).pid = (k.proc p).pid := by
      intro hx
      simp only [List.any_eq_false,decide_eq_true_eq] at hany
      obtain ⟨x,hx,he⟩ := hx
      exact hany x hx he
    have hb := h.backIndex_bounds
    rw [h.backIndex_eq] at hb
    rw [if_neg hno,if_neg (by simp)]
    simp only
    rw [if_pos hb,pushed,h.backIndex_eq]
  · rw [List.any_eq_true] at hany
    rw [if_pos rfl,if_pos (by simpa using hany)]

theorem pushed (h : Reads k q l) (hp : p ∉ l) : Reads (Xv6.pushed k q p) q (l ++ [p]) := by
  refine ⟨?_,?_⟩
  · rw [pushed_ring,if_pos rfl,h.backIndex_eq]
    exact h.holds.push h.length_lt p
  · exact List.nodup_append.mpr ⟨h.nodup,List.nodup_singleton p,by
      rintro x hx _ hy rfl
      exact hp (List.mem_singleton.mp hy ▸ hx)⟩

theorem front_eq (h : Reads k q (p :: l)) : getFront k q = .ok (some p) := by
  have hne : k.prioQSize q ≠ 0 := h.holds.size_eq_zero.not.mpr (by simp)
  have hc := h.cell_eq (i := 0) (by simp)
  rw [h.position_zero] at hc
  unfold getFront
  rw [if_neg hne,hc]
  rfl

theorem popFront_eq (h : Reads k q (p :: l)) :
    popFront k q = .ok (some p,(k.setStart q
      (if k.prioQStart q + 1 = maxProcCount then 0 else k.prioQStart q + 1)).setSize q
        (k.prioQSize q - 1)) := by
  have hne : k.prioQSize q ≠ 0 := h.holds.size_eq_zero.not.mpr (by simp)
  unfold popFront
  rw [if_neg hne,h.front_eq]
  rfl

theorem popped (h : Reads k q (p :: l)) (hr : ring k' q = (ring k q).popFront maxProcCount) :
    Reads k' q l :=
  ⟨hr ▸ h.holds.pop rfl,h.nodup.of_cons⟩

end Reads

structure Shifted (k k' : Kernel) (q : Level) (l : List Slot) (j m : Nat) : Prop where
  others : ∀ r, r ≠ q → ring k' r = ring k r
  start : k'.prioQStart q = k.prioQStart q
  size : k'.prioQSize q = k.prioQSize q - 1
  low : ∀ i < j, k'.prioQ q (position k q i) = k.prioQ q (position k q i)
  shifted : ∀ i, j ≤ i → i < m →
    k'.prioQ q (position k q i) = k.prioQ q (position k q (i + 1))
  rest : ∀ i, m < i → i < l.length →
    k'.prioQ q (position k q i) = k.prioQ q (position k q i)
  moved : ∀ i (h : i < l.length), j < i → i ≤ m →
    (k'.proc l[i]).stat.allotedQ = ((k.proc l[i]).stat.allotedQ.1,position k q (i - 1))
  kept : ∀ x, (∀ i (h : i < l.length), j < i → i ≤ m → x ≠ l[i]) →
    (k'.proc x).stat.allotedQ = (k.proc x).stat.allotedQ

namespace Reads
variable {k k' : Kernel} {q : Level} {l : List Slot} {p : Slot} {j m : Nat}

theorem setCell_ne (h : Reads k q l) {i : Nat} (hi : i < l.length) (hm : m < l.length) (him : i ≠ m)
    (c : Option Slot) :
    (k'.setCell q (position k q m) c).prioQ q (position k q i) = k'.prioQ q (position k q i) := by
  have hne : position k q i ≠ position k q m :=
    fun he => him (h.position_injective hi.le hm.le he)
  simp [Kernel.setCell,Function.update_of_ne hne]

theorem shift_start (h : Reads k q l) (hj : j < l.length) :
    Shifted k ((k.setCell q (position k q j) none).setSize q (k.prioQSize q - 1)) q l j j := by
  refine ⟨?_,rfl,by simp [Kernel.setSize],?_,?_,?_,?_,?_⟩
  · intro r hr
    apply ring_congr <;> simp [Kernel.setCell,Kernel.setSize,hr]
  · intro i hi
    exact h.setCell_ne (hi.trans hj) hj hi.ne none
  · intro i h1 h2
    omega
  · intro i h1 h2
    exact h.setCell_ne h2 hj h1.ne' none
  · intro i _ h1 h2
    omega
  · intro x _
    rfl

theorem shift_step (h : Reads k q l) (hs : Shifted k k' q l j m) (hjm : j ≤ m)
    (hm : m + 1 < l.length) :
    Shifted k ((k'.setCell q (position k q m) (some l[m + 1])).setAllotedQ l[m + 1]
      ((k.proc l[m + 1]).stat.allotedQ.1,position k q m)) q l j (m + 1) := by
  have hcell : ∀ i < l.length, i ≠ m →
      (k'.setCell q (position k q m) (some l[m + 1])).prioQ q (position k q i) =
        k'.prioQ q (position k q i) :=
    fun i hi him => h.setCell_ne hi (by omega) him _
  refine ⟨?_,hs.start,hs.size,?_,?_,?_,?_,?_⟩
  · intro r hr
    rw [← hs.others r hr]
    apply ring_congr <;> simp [Kernel.setCell,Kernel.setAllotedQ,hr]
  · intro i hi
    exact (hcell i (by omega) (by omega)).trans (hs.low i hi)
  · intro i h1 h2
    rcases eq_or_ne i m with rfl | him
    · rw [h.prioQ_eq hm]
      simp [Kernel.setCell,Kernel.setAllotedQ]
    · exact (hcell i (by omega) him).trans (hs.shifted i h1 (by omega))
  · intro i h1 h2
    exact (hcell i h2 (by omega)).trans (hs.rest i (by omega) h2)
  · intro i hi h1 h2
    rw [setAllotedQ_alloted]
    rcases eq_or_ne i (m + 1) with rfl | him
    · rw [if_pos rfl]
      rfl
    · rw [if_neg fun he => him (h.getElem_injective hi hm he)]
      exact hs.moved i hi h1 (by omega)
  · intro x hx
    rw [setAllotedQ_alloted,if_neg (hx (m + 1) hm (by omega) le_rfl)]
    exact hs.kept x fun i hi h1 h2 => hx i hi h1 (by omega)

theorem closeGap_eq (h : Reads k q l) :
    ∀ n m k', j ≤ m → m < l.length → l.length - 1 - m < n → Shifted k k' q l j m →
      ∃ k'', closeGap q (position k q (l.length - 1)) n (position k q m) k' = .ok k'' ∧
        Shifted k k'' q l j (l.length - 1) := by
  intro n
  induction n with
  | zero =>
    intro m k' _ _ hn
    omega
  | succ n ih =>
    intro m k' hjm hm hn hs
    unfold closeGap
    rcases eq_or_ne m (l.length - 1) with rfl | he
    · rw [if_pos rfl]
      exact ⟨k',rfl,hs⟩
    · have hm1 : m + 1 < l.length := by omega
      have hne : position k q m ≠ position k q (l.length - 1) :=
        fun hp => he (h.position_injective hm.le (by omega) hp)
      have hcell : cell k' q (position k q (m + 1)) = .ok (some l[m + 1]) := by
        rw [← h.cell_eq hm1]
        unfold cell
        rw [hs.rest (m + 1) (by omega) hm1]
      have hidx : (k'.proc l[m + 1]).stat.allotedQ = (k.proc l[m + 1]).stat.allotedQ := by
        apply hs.kept
        intro i hi _ him hii
        have := h.getElem_injective hm1 hi hii
        omega
      obtain ⟨k'',hk,hs'⟩ := ih (m + 1) _ (by omega) hm1 (by omega) (h.shift_step hs hjm hm1)
      refine ⟨k'',?_,hs'⟩
      rw [if_neg hne]
      simp only
      rw [h.position_succ hm,hcell,ok_bind]
      simp only [Kernel.setCell_proc,hidx]
      exact hk

theorem backIndex_erased (h : Reads k q l) (hj : j < l.length) :
    backIndex ((k.setCell q (position k q j) none).setSize q (k.prioQSize q - 1)) q =
      position k q (l.length - 1) := by
  have h0 : 0 ≤ k.prioQStart q := h.holds.start_nonneg
  have hsz : k.prioQSize q = l.length := h.holds.size_eq
  have hstart : (ring k q).start = k.prioQStart q := rfl
  unfold backIndex position RingBuf.index
  simp only [Kernel.setCell_prioQStart,Kernel.setSize,Function.update_self]
  rw [Int.tmod_eq_emod_of_nonneg (by omega),hsz,hstart]
  congr 1
  omega

theorem deleteIdx_eq (h : Reads k q l) (hj : j < l.length) :
    ∃ k', deleteIdx k q (position k q j) = .ok k' ∧ Shifted k k' q l j (l.length - 1) := by
  have hfuel : l.length - 1 - j < maxProcCount := by
    have := h.length_lt
    omega
  obtain ⟨k',hk,hs⟩ := h.closeGap_eq maxProcCount j _ le_rfl hj hfuel (h.shift_start hj)
  refine ⟨k',?_,hs⟩
  unfold deleteIdx
  rw [h.cell_eq hj,ok_bind]
  simp only [h.backIndex_erased hj]
  exact hk

theorem erased (h : Reads k q l) (hj : j < l.length) (hs : Shifted k k' q l j (l.length - 1)) :
    Reads k' q (l.eraseIdx j) := by
  refine ⟨h.holds.erase hj hs.start hs.size ?_ ?_,h.nodup.eraseIdx j⟩
  · intro i hi
    exact hs.low i hi
  · intro i h1 h2
    exact hs.shifted i h1 (by omega)

end Reads

def Recorded (k : Kernel) (q : Level) (l : List Slot) : Prop :=
  ∀ i (h : i < l.length), getQPos k l[i] = position k q i

namespace Reads
variable {k k' : Kernel} {q : Level} {l : List Slot} {p : Slot} {j : Nat}

theorem recorded_pushed (h : Reads k q l) (hp : p ∉ l) (hr : Recorded k q l) :
    Recorded (Xv6.pushed k q p) q (l ++ [p]) := by
  intro i hi
  have hpos : position (Xv6.pushed k q p) q i = position k q i := position_congr rfl i
  rw [hpos,getQPos,pushed_alloted]
  rcases lt_or_ge i l.length with hlt | hge
  · have hne : l[i] ≠ p := fun he => hp (he ▸ List.getElem_mem hlt)
    rw [List.getElem_append_left hlt,if_neg hne]
    exact hr i hlt
  · have he : i = l.length := by
      simp only [List.length_append,List.length_cons,List.length_nil] at hi
      omega
    subst he
    rw [List.getElem_concat_length rfl,if_pos rfl,h.backIndex_eq]

theorem recorded_popped (hproc : k'.proc = k.proc)
    (hring : ring k' q = (ring k q).popFront maxProcCount) (hr : Recorded k q (p :: l)) :
    Recorded k' q l := by
  intro i hi
  have hpos : position k' q i = position k q (i + 1) := by
    unfold position
    rw [hring]
    exact RingBuf.index_popFront (ring k q) i
  rw [hpos,← hr (i + 1) (by simpa using hi),getQPos,hproc]
  rfl

theorem recorded_erased (h : Reads k q l) (hj : j < l.length)
    (hs : Shifted k k' q l j (l.length - 1)) (hr : Recorded k q l) :
    Recorded k' q (l.eraseIdx j) := by
  intro i hi
  rw [List.length_eraseIdx_of_lt hj] at hi
  rw [position_congr hs.start]
  rcases lt_or_ge i j with hij | hij
  · rw [List.getElem_eraseIdx_of_lt _ hij,getQPos,hs.kept]
    · exact hr i (by omega)
    · intro i' hi' h1 _ he
      have := h.getElem_injective (by omega) hi' he
      omega
  · rw [List.getElem_eraseIdx_of_ge _ hij,getQPos,
      hs.moved (i + 1) (by omega) (by omega) (by omega)]
    rfl

end Reads

structure Becomes (k k' : Kernel) (q : Level) (l l' : List Slot) : Prop where
  reads : (ring k' q).Holds maxProcCount l'
  start : 0 ≤ k'.prioQStart q ∧ k'.prioQStart q < maxProcCount
  nodup : l'.Nodup
  length : l'.length ≤ nproc
  recorded : Recorded k q l → Recorded k' q l'
  others : ∀ r, r ≠ q → ring k' r = ring k r

theorem Reads.becomes {k k' : Kernel} {q : Level} {l l' : List Slot} (h : Reads k' q l')
    (hr : Recorded k q l → Recorded k' q l') (ho : ∀ r, r ≠ q → ring k' r = ring k r) :
    Becomes k k' q l l' :=
  ⟨h.holds,⟨h.holds.start_nonneg,h.holds.start_lt⟩,h.nodup,h.length_le,hr,ho⟩

theorem queue_refines_list {k : Kernel} {q : Level} {l : List Slot}
    (hl : (ring k q).Holds maxProcCount l) (hnd : l.Nodup) :
    (∀ p, (∃ x ∈ l, (k.proc x).pid = (k.proc p).pid) → pushBack k q p = .ok k) ∧
    (∀ p, (¬∃ x ∈ l, (k.proc x).pid = (k.proc p).pid) →
      ∃ k', pushBack k q p = .ok k' ∧ Becomes k k' q l (l ++ [p])) ∧
    (∀ p t, l = p :: t → getFront k q = .ok (some p) ∧
      ∃ k', popFront k q = .ok (some p,k') ∧ Becomes k k' q l t) ∧
    ∀ i, i < l.length → ∃ k', deleteIdx k q (position k q i) = .ok k' ∧
      Becomes k k' q l (l.eraseIdx i) := by
  have h : Reads k q l := ⟨hl,hnd⟩
  refine ⟨?_,?_,?_,?_⟩
  · intro p hp
    rw [h.pushBack_eq,if_pos hp]
  · intro p hp
    have hmem : p ∉ l := fun hm => hp ⟨p,hm,rfl⟩
    refine ⟨pushed k q p,by rw [h.pushBack_eq,if_neg hp],?_⟩
    exact (h.pushed hmem).becomes (h.recorded_pushed hmem)
      fun r hr => by rw [pushed_ring,if_neg hr]
  · rintro p t rfl
    refine ⟨h.front_eq,_,h.popFront_eq,?_⟩
    generalize hk : (k.setStart q _).setSize q _ = k'
    have hring : ring k' q = (ring k q).popFront maxProcCount := by
      subst hk
      simp only [ring,RingBuf.popFront,Kernel.setStart,Kernel.setSize,Function.update_self]
      rfl
    refine (h.popped hring).becomes (Reads.recorded_popped (by subst hk; rfl) hring) ?_
    intro r hr
    subst hk
    apply ring_congr <;> simp [Kernel.setStart,Kernel.setSize,hr]
  · intro i hi
    obtain ⟨k',hk,hs⟩ := h.deleteIdx_eq hi
    exact ⟨k',hk,(h.erased hi hs).becomes (h.recorded_erased hi hs) hs.others⟩

def oldest : Slot := ⟨5,by decide⟩

def younger : Slot := ⟨6,by decide⟩

def outsider : Slot := ⟨7,by decide⟩

def wrappedKernel : Kernel where
  proc p := { pid := p.val + 1
              stat := { allotedQ := (0,if p = oldest then 9999 else 0) } }
  prioQ _ i := if i = 9999 then some oldest else if i = 0 then some younger else none
  prioQSize _ := 2
  prioQStart _ := 9999

theorem wrappedKernel_holds :
    (ring wrappedKernel ⟨0,by decide⟩).Holds maxProcCount [oldest,younger] := by
  refine ⟨by decide,by decide,rfl,by decide,?_⟩
  intro i hi
  match i, hi with
  | 0, _ => rfl
  | 1, _ => rfl

theorem queue_refines_list_wrapped :
    (∃ k', pushBack wrappedKernel ⟨0,by decide⟩ outsider = .ok k' ∧
      Becomes wrappedKernel k' ⟨0,by decide⟩ [oldest,younger] [oldest,younger,outsider]) ∧
    ∃ k', deleteIdx wrappedKernel ⟨0,by decide⟩ 9999 = .ok k' ∧
      Becomes wrappedKernel k' ⟨0,by decide⟩ [oldest,younger] [younger] := by
  obtain ⟨-,hpush,-,hdelete⟩ := queue_refines_list wrappedKernel_holds (by decide)
  exact ⟨hpush outsider (by decide),hdelete 0 (by decide)⟩

end Xv6
