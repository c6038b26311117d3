import Mathlib.Tactic
import Mathlib.Logic.Function.Basic

namespace Counter
variable {w N : Nat} {α : Type}

def index (N : Nat) (c : BitVec w) : Nat := c.toNat % N

theorem index_ofNat (hN : N ∣ 2 ^ w) (k : Nat) : index N (BitVec.ofNat w k) = k % N := by
  rw [index,BitVec.toNat_ofNat]
  exact Nat.mod_mod_of_dvd k hN

theorem ofNat_inj {a b : Nat} (hab : a ≤ b) (h : b < a + 2 ^ w) :
    BitVec.ofNat w a = BitVec.ofNat w b ↔ a = b := by
  constructor
  · intro he
    have hmod := congrArg BitVec.toNat he
    rw [BitVec.toNat_ofNat,BitVec.toNat_ofNat] at hmod
    have hdvd := (Nat.modEq_iff_dvd' hab).mp hmod
    have hlt : b - a < 2 ^ w := by omega
    have hzero := Nat.eq_zero_of_dvd_of_lt hdvd hlt
    omega
  · rintro rfl
    rfl

theorem ofNat_succ (a : Nat) : BitVec.ofNat w a + 1 = BitVec.ofNat w (a + 1) := by
  rw [BitVec.ofNat_add]
  rfl

theorem ofNat_pred {a : Nat} (h : 0 < a) : BitVec.ofNat w a - 1 = BitVec.ofNat w (a - 1) := by
  obtain ⟨b,rfl⟩ := Nat.exists_eq_succ_of_ne_zero h.ne'
  rw [← ofNat_succ,Nat.succ_sub_one]
  exact BitVec.add_sub_cancel _ _

theorem ofNat_sub {a b : Nat} (hab : a ≤ b) (h : b < a + 2 ^ w) :
    (BitVec.ofNat w b - BitVec.ofNat w a).toNat = b - a := by
  obtain ⟨d,rfl⟩ := Nat.exists_eq_add_of_le hab
  rw [BitVec.ofNat_add,BitVec.add_comm,BitVec.add_sub_cancel,BitVec.toNat_ofNat]
  rw [Nat.add_sub_cancel_left]
  exact Nat.mod_eq_of_lt (by omega)

theorem mod_ne {N i j : Nat} (hij : i < j) (h : j < i + N) : i % N ≠ j % N := by
  intro he
  have hdvd := (Nat.modEq_iff_dvd' hij.le).mp he
  have hzero := Nat.eq_zero_of_dvd_of_lt hdvd (by omega)
  omega

def Holds (N : Nat) (cell : Nat → α) (r : Nat) (l : List α) : Prop :=
  ∀ k (h : k < l.length), r ≤ k → cell (k % N) = l[k]

namespace Holds
variable {cell : Nat → α} {r : Nat} {l : List α}

theorem push (h : Holds N cell r l) (hroom : l.length < r + N) (a : α) :
    Holds N (Function.update cell (l.length % N) a) r (l ++ [a]) := by
  intro k hk hr
  rw [List.length_append,List.length_singleton] at hk
  rcases Nat.lt_succ_iff_lt_or_eq.mp hk with hlt | rfl
  · rw [Function.update_of_ne (mod_ne hlt (by omega)),List.getElem_append_left hlt]
    exact h k hlt hr
  · rw [Function.update_self]
    simp

theorem advance (h : Holds N cell r l) {r' : Nat} (hr : r ≤ r') : Holds N cell r' l :=
  fun k hk hle => h k hk (hr.trans hle)

theorem dropLast (h : Holds N cell r l) : Holds N cell r l.dropLast := by
  intro k hk hr
  rw [List.length_dropLast] at hk
  rw [List.getElem_dropLast]
  exact h k (by omega) hr

theorem of_prefix (h : Holds N cell r l) {l' : List α} (hl : l' <+: l) : Holds N cell r l' := by
  intro k hk hr
  rw [hl.getElem hk]
  exact h k (Nat.lt_of_lt_of_le hk hl.length_le) hr

end Holds

def contents (N : Nat) (cell : Nat → α) (r t : BitVec w) : List α :=
  (List.range (t - r).toNat).map fun k => cell (index N (r + BitVec.ofNat w k))

theorem length_contents (cell : Nat → α) (r t : BitVec w) :
    (contents N cell r t).length = (t - r).toNat := by
  rw [contents,List.length_map,List.length_range]

theorem contents_eq {cell : Nat → α} {r : Nat} {l : List α} (hN : N ∣ 2 ^ w)
    (h : Holds N cell r l) (hr : r ≤ l.length) (hw : l.length < r + 2 ^ w) :
    contents N cell (BitVec.ofNat w r) (BitVec.ofNat w l.length) = l.drop r := by
  apply List.ext_getElem
  · rw [length_contents,ofNat_sub hr hw,List.length_drop]
  · intro k hk hk'
    rw [List.length_drop] at hk'
    simp only [contents,List.getElem_map,List.getElem_range,List.getElem_drop]
    rw [← BitVec.ofNat_add,index_ofNat hN]
    exact h (r + k) (by omega) (Nat.le_add_right r k)

structure Ring (N : Nat) (cell : Nat → α) (r t : BitVec w) (g a : List α) : Prop where
  tail : r = BitVec.ofNat w g.length
  head : t = BitVec.ofNat w a.length
  gone : g <+: a
  room : a.length ≤ g.length + N
  cells : Holds N cell g.length a

namespace Ring
variable {cell : Nat → α} {r t : BitVec w} {g a : List α} (hN : N ∣ 2 ^ w) (hlt : N < 2 ^ w)

theorem nil (cell : Nat → α) : Ring N cell (0 : BitVec w) 0 [] [] :=
  ⟨rfl,rfl,List.nil_prefix,Nat.zero_le _,fun k hk _ => absurd hk (Nat.not_lt_zero k)⟩

include hlt in
theorem near (h : Ring N cell r t g a) : a.length < g.length + 2 ^ w :=
  Nat.lt_of_le_of_lt h.room (Nat.add_lt_add_left hlt _)

include hlt in
theorem count (h : Ring N cell r t g a) : (t - r).toNat = a.length - g.length := by
  rw [h.tail,h.head]
  exact ofNat_sub h.gone.length_le (h.near hlt)

include hlt in
theorem full_iff (h : Ring N cell r t g a) :
    t = r + BitVec.ofNat w N ↔ a.length = g.length + N := by
  rw [h.tail,h.head,← BitVec.ofNat_add]
  refine ofNat_inj h.room (Nat.lt_of_le_of_lt (?_ : _ ≤ a.length + N) ?_)
  · exact Nat.add_le_add_right h.gone.length_le N
  · exact Nat.add_lt_add_left hlt _

include hlt in
theorem empty_iff (h : Ring N cell r t g a) : r = t ↔ g = a := by
  rw [h.tail,h.head,ofNat_inj h.gone.length_le (h.near hlt)]
  exact ⟨fun hl => h.gone.eq_of_length hl,fun he => by rw [he]⟩

include hN in
theorem push (h : Ring N cell r t g a) (hroom : a.length < g.length + N) (b : α) :
    Ring N (Function.update cell (index N t) b) r (t + 1) g (a ++ [b]) := by
  have hindex : index N t = a.length % N := by
    rw [h.head]
    exact index_ofNat hN a.length
  refine ⟨h.tail,?_,h.gone.trans (List.prefix_append a [b]),?_,?_⟩
  · rw [h.head,ofNat_succ,List.length_append,List.length_singleton]
  · rw [List.length_append,List.length_singleton]
    exact hroom
  · rw [hindex]
    exact h.cells.push hroom b

include hN in
theorem pop (h : Ring N cell r t g a) (hready : g ≠ a) :
    Ring N cell (r + 1) t (g ++ [cell (index N r)]) a := by
  obtain ⟨rest,rfl⟩ := h.gone
  obtain ⟨b,rest,rfl⟩ := List.exists_cons_of_ne_nil (l := rest) fun hn =>
    hready (by rw [hn,List.append_nil])
  have hfront : cell (index N r) = b := by
    have hcell := h.cells g.length (by simp) (le_refl _)
    rw [List.getElem_append_right (le_refl _)] at hcell
    simp only [Nat.sub_self,List.getElem_cons_zero] at hcell
    rw [h.tail,← hcell]
    exact congrArg cell (index_ofNat hN g.length)
  have hroom := h.room
  refine ⟨?_,h.head,?_,?_,?_⟩
  · rw [h.tail,ofNat_succ,List.length_append,List.length_singleton]
  · exact ⟨rest,by rw [hfront]; simp⟩
  · simp only [List.length_append,List.length_singleton] at hroom ⊢
    omega
  · exact h.cells.advance (by rw [List.length_append]; omega)

theorem unpush (h : Ring N cell r t g a) (hmore : g.length < a.length) :
    Ring N cell r (t - 1) g a.dropLast := by
  refine ⟨h.tail,?_,?_,?_,h.cells.dropLast⟩
  · rw [h.head,ofNat_pred (by omega),List.length_dropLast]
  · obtain ⟨rest,rfl⟩ := h.gone
    have hne : rest ≠ [] := by
      rintro rfl
      simp at hmore
    rw [List.dropLast_append_of_ne_nil hne]
    exact List.prefix_append g _
  · have hroom := h.room
    rw [List.length_dropLast]
    omega

include hN in
theorem last (h : Ring N cell r t g a) (hmore : g.length < a.length) :
    cell (index N (t - 1)) = a[a.length - 1] := by
  rw [h.head,ofNat_pred (by omega)]
  rw [index_ofNat hN]
  exact h.cells (a.length - 1) (by omega) (by omega)

theorem split (h : Ring N cell r t g a) {k : List α} (hg : g <+: k) (hk : k <+: a) :
    Ring N cell r (BitVec.ofNat w k.length) g k ∧ Ring N cell (BitVec.ofNat w k.length) t k a := by
  have hroom := h.room
  have hgk := hg.length_le
  have hka := hk.length_le
  exact ⟨⟨h.tail,rfl,hg,by omega,h.cells.of_prefix hk⟩,
    ⟨rfl,h.head,hk,by omega,h.cells.advance hgk⟩⟩

include hN hlt in
theorem contents_eq (h : Ring N cell r t g a) : g ++ contents N cell r t = a := by
  rw [h.tail,h.head,Counter.contents_eq hN h.cells h.gone.length_le (h.near hlt)]
  obtain ⟨rest,rfl⟩ := h.gone
  rw [List.drop_left]

end Ring
end Counter
