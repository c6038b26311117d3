import Mathlib.Tactic
import Mathlib.Logic.Function.Basic

structure RingBuf (α : Type) where
  cell : Int → Option α
  start : Int
  size : Int

namespace RingBuf
variable {α : Type} {N : Nat} {r : RingBuf α} {l : List α}

def index (N : Nat) (r : RingBuf α) (i : Nat) : Int := (r.start + i) % N

def window (N : Nat) (r : RingBuf α) : List (Option α) :=
  (List.range r.size.toNat).map fun i => r.cell (r.index N i)

def popFront (N : Nat) (r : RingBuf α) : RingBuf α :=
  { r with start := if r.start + 1 = N then 0 else r.start + 1
           size := r.size - 1 }

theorem index_popFront (r : RingBuf α) (i : Nat) :
    (r.popFront N).index N i = r.index N (i + 1) := by
  unfold index popFront
  push_cast
  split_ifs with hw
  · rw [show r.start + (i + 1) = i + N by omega,Int.add_emod_right,zero_add]
  · ring_nf

structure Holds (N : Nat) (r : RingBuf α) (l : List α) : Prop where
  start_nonneg : 0 ≤ r.start
  start_lt : r.start < N
  size_eq : r.size = l.length
  length_le : l.length ≤ N
  cell_eq : ∀ i (h : i < l.length), r.cell (r.index N i) = some l[i]

theorem index_of_lt (h0 : 0 ≤ r.start) {i : Nat} (hi : r.start + i < N) :
    r.index N i = r.start + i := by
  unfold index
  exact Int.emod_eq_of_lt (by omega) hi

theorem index_of_ge (h1 : r.start < N) {i : Nat} (hi : N ≤ r.start + i) (hN : i ≤ N) :
    r.index N i = r.start + i - N := by
  unfold index
  rw [← Int.sub_emod_right]
  exact Int.emod_eq_of_lt (by omega) (by omega)

theorem index_cases (h0 : 0 ≤ r.start) (h1 : r.start < N) {i : Nat} (hi : i ≤ N) :
    (r.start + i < N ∧ r.index N i = r.start + i) ∨
      (N ≤ r.start + i ∧ r.index N i = r.start + i - N) := by
  by_cases h : r.start + i < N
  · exact .inl ⟨h,index_of_lt h0 h⟩
  · exact .inr ⟨by omega,index_of_ge h1 (by omega) hi⟩

theorem index_nonneg (h0 : 0 ≤ r.start) (h1 : r.start < N) {i : Nat} (hi : i ≤ N) :
    0 ≤ r.index N i := by
  rcases index_cases h0 h1 hi with ⟨_,h⟩ | ⟨_,h⟩ <;> omega

theorem index_lt (h0 : 0 ≤ r.start) (h1 : r.start < N) {i : Nat} (hi : i ≤ N) :
    r.index N i < N := by
  rcases index_cases h0 h1 hi with ⟨_,h⟩ | ⟨_,h⟩ <;> omega

theorem index_injective (h0 : 0 ≤ r.start) (h1 : r.start < N) {i j : Nat} (hi : i < N) (hj : j < N)
    (h : r.index N i = r.index N j) : i = j := by
  rcases index_cases h0 h1 hi.le with ⟨_,hi'⟩ | ⟨_,hi'⟩ <;>
    rcases index_cases h0 h1 hj.le with ⟨_,hj'⟩ | ⟨_,hj'⟩ <;> omega

theorem index_succ (h0 : 0 ≤ r.start) (h1 : r.start < N) {i : Nat} (hi : i < N) :
    (r.index N i + 1).tmod N = r.index N (i + 1) := by
  have hn := index_nonneg h0 h1 hi.le
  rw [Int.tmod_eq_emod_of_nonneg (by omega)]
  unfold index
  rw [Int.emod_add_emod]
  push_cast
  ring_nf

theorem index_zero (h0 : 0 ≤ r.start) (h1 : r.start < N) : r.index N 0 = r.start := by
  rw [index_of_lt h0 (by simpa using h1)]
  simp

namespace Holds

theorem index_nonneg (h : Holds N r l) {i : Nat} (hi : i ≤ l.length) : 0 ≤ r.index N i :=
  RingBuf.index_nonneg h.start_nonneg h.start_lt (hi.trans h.length_le)

theorem index_lt (h : Holds N r l) {i : Nat} (hi : i ≤ l.length) : r.index N i < N :=
  RingBuf.index_lt h.start_nonneg h.start_lt (hi.trans h.length_le)

theorem index_injective (h : Holds N r l) {i j : Nat} (hi : i < l.length) (hj : j < l.length)
    (he : r.index N i = r.index N j) : i = j :=
  RingBuf.index_injective h.start_nonneg h.start_lt (hi.trans_le h.length_le)
    (hj.trans_le h.length_le) he

theorem back_eq (h : Holds N r l) : (r.start + r.size).tmod N = r.index N l.length := by
  have := h.start_nonneg
  rw [h.size_eq,Int.tmod_eq_emod_of_nonneg (by omega)]
  rfl

theorem front (h : Holds N r l) {a : α} {t : List α} (hl : l = a :: t) :
    r.cell r.start = some a := by
  subst hl
  have hc := h.cell_eq 0 (by simp)
  rw [index_zero h.start_nonneg h.start_lt] at hc
  exact hc

theorem size_eq_zero (h : Holds N r l) : r.size = 0 ↔ l = [] := by
  rw [h.size_eq]
  simp

theorem window_eq (h : Holds N r l) : r.window N = l.map some := by
  unfold window
  rw [h.size_eq,Int.toNat_natCast]
  apply List.ext_getElem
  · simp
  · intro i h1 h2
    simpa using h.cell_eq i (by simpa using h1)

theorem push (h : Holds N r l) (hl : l.length < N) (a : α) :
    Holds N { r with cell := Function.update r.cell (r.index N l.length) (some a)
                     size := r.size + 1 } (l ++ [a]) := by
  refine ⟨h.start_nonneg,h.start_lt,by simp [h.size_eq],by simpa using hl,?_⟩
  intro i hi
  change Function.update r.cell _ _ (r.index N i) = _
  rcases eq_or_ne i l.length with rfl | he
  · simp
  · have hlt : i < l.length := by
      simp only [List.length_append,List.length_cons,List.length_nil] at hi
      omega
    have hne : r.index N i ≠ r.index N l.length := fun hh =>
      he (RingBuf.index_injective h.start_nonneg h.start_lt (hlt.trans hl) hl hh)
    rw [Function.update_of_ne hne,List.getElem_append_left hlt]
    exact h.cell_eq i hlt

theorem pop (h : Holds N r l) {a : α} {t : List α} (hl : l = a :: t) :
    Holds N (r.popFront N) t := by
  subst hl
  have h0 := h.start_nonneg
  have h1 := h.start_lt
  have hle := h.length_le
  simp only [List.length_cons] at hle
  refine ⟨?_,?_,by simp [popFront,h.size_eq],by omega,?_⟩
  · unfold popFront
    dsimp only
    split_ifs <;> omega
  · unfold popFront
    dsimp only
    split_ifs <;> omega
  · intro i hi
    have hc := h.cell_eq (i + 1) (by simpa using hi)
    rw [List.getElem_cons_succ] at hc
    rw [← hc,← index_popFront]
    rfl

theorem erase (h : Holds N r l) {r' : RingBuf α} {j : Nat} (hj : j < l.length)
    (hstart : r'.start = r.start) (hsize : r'.size = r.size - 1)
    (hlow : ∀ i < j, r'.cell (r.index N i) = r.cell (r.index N i))
    (hhigh : ∀ i, j ≤ i → i + 1 < l.length → r'.cell (r.index N i) = r.cell (r.index N (i + 1))) :
    Holds N r' (l.eraseIdx j) := by
  have hidx : ∀ i, r'.index N i = r.index N i := fun i => by simp [index,hstart]
  have hlen : (l.eraseIdx j).length = l.length - 1 := List.length_eraseIdx_of_lt hj
  refine ⟨hstart ▸ h.start_nonneg,hstart ▸ h.start_lt,?_,?_,?_⟩
  · rw [hsize,h.size_eq,hlen]
    omega
  · have := h.length_le
    omega
  · intro i hi
    rw [hlen] at hi
    rw [hidx]
    by_cases hij : i < j
    · rw [hlow i hij,List.getElem_eraseIdx_of_lt _ hij]
      exact h.cell_eq i (by omega)
    · rw [hhigh i (by omega) (by omega),List.getElem_eraseIdx_of_ge _ (by omega)]
      exact h.cell_eq (i + 1) (by omega)

end Holds
end RingBuf
