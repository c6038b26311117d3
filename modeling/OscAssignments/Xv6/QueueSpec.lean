import OscAssignments.Xv6.Rings
import OscAssignments.Xv6.Sane

namespace Xv6
open Runs

def window (k : Kernel) (q : Level) : List (Option Slot) := (ring k q).window maxProcCount

def InQueue (k : Kernel) (p : Slot) : Prop := ∃ q, some p ∈ window k q

instance (k : Kernel) (p : Slot) : Decidable (InQueue k p) :=
  inferInstanceAs (Decidable (∃ _, _))

abbrev Queues := Level → List Slot

structure QOk (k : Kernel) (L : Queues) : Prop where
  holds : ∀ q, (ring k q).Holds maxProcCount (L q)
  record : ∀ q i (h : i < (L q).length),
    (k.proc (L q)[i]).stat.allotedQ = ((q.val : Int),position k q i)
  level : ∀ p, ∃ q : Level, getQIdx k p = q.val
  pid : ∀ q, ∀ p ∈ L q, 0 < (k.proc p).pid

namespace QOk
variable {k k' : Kernel} {L : Queues} {q r : Level} {p : Slot}

theorem idx (h : QOk k L) (hp : p ∈ L q) : getQIdx k p = q.val := by
  obtain ⟨i,hi,rfl⟩ := List.getElem_of_mem hp
  unfold getQIdx
  rw [h.record q i hi]

theorem level_of_mem (h : QOk k L) (hp : p ∈ L q) : Xv6.level (getQIdx k p) = .ok q := by
  rw [h.idx hp,level_val]

theorem exists_level (h : QOk k L) (p : Slot) :
    ∃ q : Level, getQIdx k p = q.val ∧ Xv6.level (getQIdx k p) = .ok q := by
  obtain ⟨q,hq⟩ := h.level p
  exact ⟨q,hq,by rw [hq,level_val]⟩

theorem same_level (h : QOk k L) (hq : p ∈ L q) (hr : p ∈ L r) : q = r := by
  have he := (h.idx hq).symm.trans (h.idx hr)
  exact Fin.ext (by exact_mod_cast he)

theorem nodup (h : QOk k L) (q : Level) : (L q).Nodup := by
  rw [List.nodup_iff_injective_get]
  intro i j hij
  have hi := h.record q i i.isLt
  have hj := h.record q j j.isLt
  have he : (L q)[i.val] = (L q)[j.val] := hij
  rw [he,hj] at hi
  have hidx := (Prod.ext_iff.mp hi).2
  exact Fin.ext ((h.holds q).index_injective j.isLt i.isLt hidx).symm

theorem queue (h : QOk k L) (q : Level) : Reads k q (L q) := ⟨h.holds q,h.nodup q⟩

theorem length_lt (h : QOk k L) (q : Level) : (L q).length < maxProcCount := (h.queue q).length_lt

theorem window_eq (h : QOk k L) (q : Level) : window k q = (L q).map some :=
  (h.holds q).window_eq

theorem mem_window (h : QOk k L) : some p ∈ window k q ↔ p ∈ L q := by
  rw [h.window_eq]
  simp

theorem inQueue_iff (h : QOk k L) : InQueue k p ↔ ∃ q, p ∈ L q :=
  exists_congr fun _ => h.mem_window

theorem size_eq_zero (h : QOk k L) : k.prioQSize q = 0 ↔ L q = [] :=
  (h.holds q).size_eq_zero

end QOk

theorem pushed_getQIdx (k : Kernel) (q : Level) (p x : Slot) :
    getQIdx (pushed k q p) x = if x = p then (q.val : Int) else getQIdx k x := by
  unfold getQIdx
  rw [pushed_alloted]
  split_ifs <;> rfl

theorem pushed_faces (k : Kernel) (q : Level) (p : Slot) : SameFaces k (pushed k q p) :=
  (sameFaces_setAllotedQ k p _).trans (sameFaces_of_proc rfl rfl rfl)

namespace QOk
variable {k k' : Kernel} {L : Queues} {q r : Level} {p : Slot}

theorem pushed (h : QOk k L) (hp : ∀ r, p ∉ L r) (hpid : 0 < (k.proc p).pid) :
    QOk (Xv6.pushed k q p) (Function.update L q (L q ++ [p])) := by
  have hpos : ∀ r i, position (Xv6.pushed k q p) r i = position k r i :=
    fun r i => position_congr rfl i
  refine ⟨?_,?_,?_,?_⟩
  · intro r
    rw [pushed_ring]
    split_ifs with hr
    · subst hr
      rw [Function.update_self,(h.queue r).backIndex_eq]
      exact (h.holds r).push (h.length_lt r) p
    · rw [Function.update_of_ne hr]
      exact h.holds r
  · intro r i hi
    rw [hpos]
    rcases eq_or_ne r q with rfl | hr
    · simp only [Function.update_self] at hi ⊢
      by_cases hlt : i < (L r).length
      · rw [List.getElem_append_left hlt,pushed_alloted,if_neg ?_]
        · exact h.record r i hlt
        · intro he
          exact hp r (he ▸ List.getElem_mem hlt)
      · have he : i = (L r).length := by
          simp only [List.length_append,List.length_cons,List.length_nil] at hi
          omega
        subst he
        rw [List.getElem_concat_length rfl,pushed_alloted,if_pos rfl,(h.queue r).backIndex_eq]
    · simp only [Function.update_of_ne hr] at hi ⊢
      rw [pushed_alloted,if_neg ?_]
      · exact h.record r i hi
      · intro he
        exact hp r (he ▸ List.getElem_mem hi)
  · intro x
    rw [pushed_getQIdx]
    split_ifs
    · exact ⟨q,rfl⟩
    · exact h.level x
  · intro r x hx
    rw [(pushed_faces k q p).pid]
    rcases eq_or_ne r q with rfl | hr
    · rw [Function.update_self,List.mem_append,List.mem_singleton] at hx
      rcases hx with hx | rfl
      · exact h.pid r x hx
      · exact hpid
    · rw [Function.update_of_ne hr] at hx
      exact h.pid r x hx

theorem pushBack_eq (h : QOk k L) (hpid : ∀ x, (k.proc x).pid = (k.proc p).pid → x = p) :
    pushBack k q p = .ok (if p ∈ L q then k else Xv6.pushed k q p) := by
  have hiff : (∃ x ∈ L q, (k.proc x).pid = (k.proc p).pid) ↔ p ∈ L q := by
    constructor
    · rintro ⟨x,hx,he⟩
      exact hpid x he ▸ hx
    · intro hp
      exact ⟨p,hp,rfl⟩
  rw [(h.queue q).pushBack_eq p,if_congr hiff rfl rfl]

def popped (k : Kernel) (q : Level) : Kernel :=
  (k.setStart q (if k.prioQStart q + 1 = maxProcCount then 0 else k.prioQStart q + 1)).setSize q
    (k.prioQSize q - 1)

@[simp] theorem popped_proc (k : Kernel) (q : Level) : (popped k q).proc = k.proc := rfl

theorem popped_ring (k : Kernel) (q r : Level) :
    ring (popped k q) r = if r = q then (ring k q).popFront maxProcCount else ring k r := by
  rcases eq_or_ne r q with rfl | hr
  · rw [if_pos rfl]
    simp only [popped,ring,RingBuf.popFront,Kernel.setStart,Kernel.setSize,Function.update_self]
    rfl
  · rw [if_neg hr]
    simp only [popped,ring,Kernel.setStart,Kernel.setSize,Function.update_of_ne hr]

theorem popFront_eq (h : QOk k L) {t : List Slot} (hl : L q = p :: t) :
    popFront k q = .ok (some p,popped k q) :=
  Reads.popFront_eq (hl ▸ h.queue q)

theorem popped_ok (h : QOk k L) {t : List Slot} (hl : L q = p :: t) :
    QOk (popped k q) (Function.update L q t) := by
  refine ⟨?_,?_,h.level,?_⟩
  · intro r
    rw [popped_ring]
    split_ifs with hr
    · subst hr
      rw [Function.update_self]
      exact (h.holds r).pop hl
    · rw [Function.update_of_ne hr]
      exact h.holds r
  · intro r i hi
    have hpos : position (popped k q) r i =
        if r = q then position k q (i + 1) else position k r i := by
      unfold position
      rw [popped_ring]
      split_ifs
      · exact RingBuf.index_popFront (ring k q) i
      · rfl
    rw [hpos]
    rcases eq_or_ne r q with rfl | hr
    · simp only [Function.update_self] at hi ⊢
      have hrec := h.record r (i + 1) (by simpa [hl] using hi)
      simpa [hl] using hrec
    · simp only [Function.update_of_ne hr,if_neg hr] at hi ⊢
      exact h.record r i hi
  · intro r x hx
    rcases eq_or_ne r q with rfl | hr
    · rw [Function.update_self] at hx
      exact h.pid r x (hl ▸ List.mem_cons_of_mem p hx)
    · rw [Function.update_of_ne hr] at hx
      exact h.pid r x hx

end QOk

structure Gap (k k' : Kernel) (q : Level) (l : List Slot) (j m : Nat) : Prop where
  others : ∀ r, r ≠ q → ring k' r = ring k r
  start : k'.prioQStart q = k.prioQStart q
  size : k'.prioQSize q = k.prioQSize q - 1
  low : ∀ i < j, k'.prioQ q (position k q i) = k.prioQ q (position k q i)
  shifted : ∀ i, j ≤ i → i < m →
    k'.prioQ q (position k q i) = k.prioQ q (position k q (i + 1))
  rest : ∀ i, m < i → i < l.length →
    k'.prioQ q (position k q i) = k.prioQ q (position k q i)
  moved : ∀ i (h : i < l.length), j < i → i ≤ m →
    (k'.proc l[i]).stat.allotedQ = ((q.val : Int),position k q (i - 1))
  kept : ∀ x, (∀ i (h : i < l.length), j < i → i ≤ m → x ≠ l[i]) →
    (k'.proc x).stat.allotedQ = (k.proc x).stat.allotedQ

namespace QOk
variable {k k' : Kernel} {L : Queues} {q r : Level} {p : Slot} {j m : Nat}

theorem getElem_injective (h : QOk k L) {i i' : Nat} (hi : i < (L q).length)
    (hi' : i' < (L q).length) (he : (L q)[i] = (L q)[i']) : i = i' :=
  (h.queue q).getElem_injective hi hi' he

theorem gap (h : QOk k L) (hs : Shifted k k' q (L q) j m) : Gap k k' q (L q) j m := by
  refine ⟨hs.others,hs.start,hs.size,hs.low,hs.shifted,hs.rest,?_,hs.kept⟩
  intro i hi h1 h2
  rw [hs.moved i hi h1 h2,h.record q i hi]

theorem gap_ok (h : QOk k L) (hj : j < (L q).length) (hf : SameFaces k k')
    (hg : Gap k k' q (L q) j ((L q).length - 1)) :
    QOk k' (Function.update L q ((L q).eraseIdx j)) ∧ ∀ x, getQIdx k' x = getQIdx k x := by
  have hlen : ((L q).eraseIdx j).length = (L q).length - 1 := List.length_eraseIdx_of_lt hj
  have hpos : ∀ r i, position k' r i = position k r i := by
    intro r i
    rcases eq_or_ne r q with rfl | hr
    · exact position_congr hg.start i
    · unfold position
      rw [hg.others r hr]
  have hkept : ∀ x, x ∉ L q → (k'.proc x).stat.allotedQ = (k.proc x).stat.allotedQ := by
    intro x hx
    apply hg.kept
    rintro i hi _ _ rfl
    exact hx (List.getElem_mem hi)
  have hqidx : ∀ x, getQIdx k' x = getQIdx k x := by
    intro x
    by_cases hx : ∃ i, ∃ (h : i < (L q).length), j < i ∧ x = (L q)[i]
    · obtain ⟨i,hi,hji,rfl⟩ := hx
      unfold getQIdx
      rw [hg.moved i hi hji (by omega),h.record q i hi]
    · unfold getQIdx
      rw [hg.kept]
      intro i hi hji _ he
      exact hx ⟨i,hi,hji,he⟩
  refine ⟨⟨?_,?_,?_,?_⟩,hqidx⟩
  · intro r
    rcases eq_or_ne r q with rfl | hr
    · rw [Function.update_self]
      refine (h.holds r).erase hj hg.start hg.size ?_ ?_
      · intro i hi
        exact hg.low i hi
      · intro i h1 h2
        exact hg.shifted i h1 (by omega)
    · rw [Function.update_of_ne hr,hg.others r hr]
      exact h.holds r
  · intro r i hi
    rw [hpos]
    rcases eq_or_ne r q with rfl | hr
    · simp only [Function.update_self] at hi ⊢
      rw [hlen] at hi
      by_cases hij : i < j
      · rw [List.getElem_eraseIdx_of_lt _ hij,hg.kept,h.record r i (by omega)]
        intro i' hi' h1 _ he
        have := h.getElem_injective (by omega) hi' he
        omega
      · rw [List.getElem_eraseIdx_of_ge _ (by omega),
          hg.moved (i + 1) (by omega) (by omega) (by omega)]
        rfl
    · simp only [Function.update_of_ne hr] at hi ⊢
      rw [hkept,h.record r i hi]
      intro hx
      exact hr (h.same_level (List.getElem_mem hi) hx)
  · intro x
    rw [hqidx]
    exact h.level x
  · intro r x hx
    rw [hf.pid]
    rcases eq_or_ne r q with rfl | hr
    · rw [Function.update_self] at hx
      exact h.pid r x (List.mem_of_mem_eraseIdx hx)
    · rw [Function.update_of_ne hr] at hx
      exact h.pid r x hx

theorem deleteIdx_eq (h : QOk k L) (hj : j < (L q).length) :
    ∃ k', deleteIdx k q (position k q j) = .ok k' ∧
      QOk k' (Function.update L q ((L q).eraseIdx j)) ∧ ∀ x, getQIdx k' x = getQIdx k x := by
  obtain ⟨k',hdel,hs⟩ := (h.queue q).deleteIdx_eq hj
  exact ⟨k',hdel,h.gap_ok hj (deleteIdx_faces hdel) (h.gap hs)⟩

end QOk

def promoteTo (q : Level) : Level := ⟨q.val - 1,by omega⟩

def promote (L : Queues) (p : Slot) (d : Level) : Queues := fun r =>
  (L r).filter (· ≠ p) ++ if r = d then [p] else []

namespace QOk
variable {k k' : Kernel} {L : Queues} {q r : Level} {p : Slot} {j m : Nat}

theorem eraseIdx_eq_filter (h : QOk k L) (hj : j < (L q).length) :
    (L q).eraseIdx j = (L q).filter (· ≠ (L q)[j]) := by
  rw [← (h.nodup q).erase_getElem j hj,(h.nodup q).erase_eq_filter]
  apply List.filter_congr
  intro x _
  rw [Bool.eq_iff_iff]
  simp

theorem update_erase_push (h : QOk k L) (hj : j < (L q).length) (d : Level) :
    Function.update (Function.update L q ((L q).eraseIdx j)) d
      (Function.update L q ((L q).eraseIdx j) d ++ [(L q)[j]]) = promote L (L q)[j] d := by
  have herase : ∀ r, Function.update L q ((L q).eraseIdx j) r =
      (L r).filter (· ≠ (L q)[j]) := by
    intro r
    rcases eq_or_ne r q with rfl | hr
    · rw [Function.update_self,h.eraseIdx_eq_filter hj]
    · rw [Function.update_of_ne hr,eq_comm,List.filter_eq_self]
      intro x hx
      have hne : x ≠ (L q)[j] := by
        rintro rfl
        exact hr (h.same_level hx (List.getElem_mem hj))
      simpa using hne
  funext r
  unfold promote
  rcases eq_or_ne r d with rfl | hr
  · rw [Function.update_self,herase,if_pos rfl]
  · rw [Function.update_of_ne hr,herase,if_neg hr,List.append_nil]

theorem incPrio_eq (h : QOk k L) (hp : p ∈ L q)
    (hpid : ∀ x, (k.proc x).pid = (k.proc p).pid → x = p) :
    ∃ k', incPrio k p = .ok k' ∧ QOk k' (promote L p (promoteTo q)) ∧
      ∀ x, x ≠ p → getQIdx k' x = getQIdx k x := by
  obtain ⟨j,hj,rfl⟩ := List.getElem_of_mem hp
  have hidx : getQIdx k (L q)[j] = q.val := h.idx hp
  have hposq : getQPos k (L q)[j] = position k q j := by
    unfold getQPos
    rw [h.record q j hj]
  have h0 : 0 ≤ position k q j := (h.holds q).index_nonneg hj.le
  obtain ⟨k1,hdel,h1,hq1⟩ := h.deleteIdx_eq hj
  have hf := deleteIdx_faces hdel
  have hnot : ∀ r, (L q)[j] ∉ Function.update L q ((L q).eraseIdx j) r := by
    intro r hr
    rcases eq_or_ne r q with rfl | hrq
    · rw [Function.update_self,h.eraseIdx_eq_filter hj] at hr
      simp at hr
    · rw [Function.update_of_ne hrq] at hr
      exact hrq (h.same_level hr hp)
  have hpush : pushBack k1 (promoteTo q) (L q)[j] = .ok (Xv6.pushed k1 (promoteTo q) (L q)[j]) := by
    have hpid1 : ∀ x, (k1.proc x).pid = (k1.proc (L q)[j]).pid → x = (L q)[j] := by
      intro x hx
      rw [hf.pid,hf.pid] at hx
      exact hpid x hx
    rw [h1.pushBack_eq hpid1,if_neg (hnot _)]
  have hinc : incPrio k (L q)[j] = .ok (Xv6.pushed k1 (promoteTo q) (L q)[j]) := by
    unfold incPrio
    simp only [hidx,hposq]
    rw [if_neg (by omega),level_val,ok_bind,hdel,ok_bind]
    by_cases hz : q = highestPrioQ
    · have hto : promoteTo q = q := by
        rw [hz]
        rfl
      rw [if_pos hz,← hpush,hto]
    · have hpos : q.val ≠ 0 := fun e => hz (Fin.ext e)
      have hto : ((q.val : Int) - 1) = (promoteTo q).val := by
        simp only [promoteTo]
        omega
      rw [if_neg hz,hto,level_val,ok_bind,hpush]
  have hpos1 : 0 < (k1.proc (L q)[j]).pid := by
    rw [hf.pid]
    exact h.pid q _ hp
  refine ⟨_,hinc,?_,?_⟩
  · rw [← h.update_erase_push hj]
    exact h1.pushed hnot hpos1
  · intro x hx
    rw [pushed_getQIdx,if_neg hx]
    exact hq1 x

end QOk
end Xv6
