import OscAssignments.Console.Code
import OscAssignments.Lib.Counter

namespace Console
open Counter

structure Tty where
  ready : List UInt8
  pending : List UInt8
  deriving DecidableEq, Repr

namespace Tty

def size (t : Tty) : Nat := t.ready.length + t.pending.length

def endsLine (c : UInt8) : Bool := c = newline ∨ c = C 'D'

def enter (t : Tty) (c : UInt8) : Tty :=
  if endsLine c ∨ t.size + 1 = inputBuf then ⟨t.ready ++ (t.pending ++ [c]),[]⟩
  else ⟨t.ready,t.pending ++ [c]⟩

def key (t : Tty) (c : UInt8) : Tty :=
  if c = C 'P' then t
  else if c = C 'U' then { t with pending := [] }
  else if c = C 'H' ∨ c = delete then { t with pending := t.pending.dropLast }
  else if c ≠ 0 ∧ t.size < inputBuf then t.enter (if c = carriage then newline else c)
  else t

end Tty

namespace Input

def tty (i : Input) : Tty := ⟨contents inputBuf i.buf i.r i.w,contents inputBuf i.buf i.w i.e⟩

structure Shows (i : Input) (g : List UInt8) (t : Tty) : Prop where
  ring : Ring inputBuf i.buf i.r i.e g (g ++ (t.ready ++ t.pending))
  mark : i.w = BitVec.ofNat 32 (g ++ t.ready).length
  plain : ∀ x ∈ t.pending, Tty.endsLine x = false
  full : t.size = inputBuf → t.pending = []

namespace Shows
variable {i : Input} {g : List UInt8} {t : Tty}

theorem size_le (h : Shows i g t) : t.size ≤ inputBuf := by
  have hroom := h.ring.room
  simp only [List.length_append] at hroom
  unfold Tty.size
  omega

theorem halves (h : Shows i g t) :
    Ring inputBuf i.buf i.r i.w g (g ++ t.ready) ∧
      Ring inputBuf i.buf i.w i.e (g ++ t.ready) (g ++ (t.ready ++ t.pending)) := by
  rw [h.mark]
  exact h.ring.split (List.prefix_append g _)
    (by rw [← List.append_assoc]; exact List.prefix_append _ _)

theorem tty_eq (h : Shows i g t) : i.tty = t := by
  obtain ⟨h1,h2⟩ := h.halves
  have hready := h1.contents_eq (by decide) (by decide)
  have hpending := h2.contents_eq (by decide) (by decide)
  rw [← List.append_assoc] at hpending
  rw [tty,List.append_cancel_left hready,List.append_cancel_left hpending]

theorem w_eq_e (h : Shows i g t) : i.e = i.w ↔ t.pending = [] := by
  rw [eq_comm,h.halves.2.empty_iff (by decide),← List.append_assoc]
  exact List.self_eq_append_right

theorem r_eq_w (h : Shows i g t) : i.r = i.w ↔ t.ready = [] := by
  rw [h.halves.1.empty_iff (by decide)]
  exact List.self_eq_append_right

theorem count (h : Shows i g t) : (i.e - i.r).toNat = t.size := by
  rw [h.ring.count (by decide)]
  simp only [List.length_append,Tty.size]
  omega

theorem erase (h : Shows i g t) (hne : t.pending ≠ []) :
    Shows { i with e := i.e - 1 } g ⟨t.ready,t.pending.dropLast⟩ := by
  have hlen := List.length_pos_of_ne_nil hne
  have hring := h.ring.unpush (by simp only [List.length_append]; omega)
  rw [← List.append_assoc,List.dropLast_append_of_ne_nil hne,List.append_assoc] at hring
  refine ⟨hring,h.mark,fun x hx => h.plain x (List.mem_of_mem_dropLast hx),?_⟩
  intro hfull
  have hle := h.size_le
  simp only [Tty.size,List.length_dropLast] at hfull hle
  omega

theorem last_plain (h : Shows i g t) (hne : t.pending ≠ []) : i.cell (i.e - 1) ≠ newline := by
  have hlen := List.length_pos_of_ne_nil hne
  have hlast := h.ring.last (by decide) (by simp only [List.length_append]; omega)
  have hmem : i.cell (i.e - 1) ∈ t.pending := by
    change i.buf (index inputBuf (i.e - 1)) ∈ _
    rw [hlast,← List.getLast_eq_getElem (by simp [hne]),
      List.getLast_append_of_right_ne_nil _ _ (by simp [hne]),
      List.getLast_append_of_right_ne_nil _ _ hne]
    exact List.getLast_mem hne
  intro he
  have hplain := h.plain _ hmem
  rw [he] at hplain
  cases hplain

theorem kill (h : Shows i g t) {k : Nat} (hk : k = t.pending.length) :
    Shows (killLine k i) g ⟨t.ready,[]⟩ := by
  induction k generalizing i t with
  | zero =>
    have hnil := List.eq_nil_of_length_eq_zero hk.symm
    rw [killLine,← hnil]
    exact h
  | succ k ih =>
    have hne : t.pending ≠ [] := List.ne_nil_of_length_pos (by omega)
    rw [killLine,if_pos ⟨fun he => hne (h.w_eq_e.mp he),h.last_plain hne⟩]
    have hless : k = t.pending.dropLast.length := by
      rw [List.length_dropLast]
      omega
    exact ih (t := ⟨t.ready,t.pending.dropLast⟩) (h.erase hne) hless

theorem pop (h : Shows i g t) (hready : i.r ≠ i.w) :
    ∃ rest, t.ready = i.cell i.r :: rest ∧
      Shows { i with r := i.r + 1 } (g ++ [i.cell i.r]) ⟨rest,t.pending⟩ := by
  have hne : t.ready ≠ [] := fun hn => hready (h.r_eq_w.mpr hn)
  have hpop := h.halves.1.pop (by decide) fun he => hne (List.self_eq_append_right.mp he)
  obtain ⟨rest,hrest⟩ := hpop.gone
  rw [List.append_assoc,List.singleton_append] at hrest
  have hcons := (List.append_cancel_left hrest).symm
  refine ⟨rest,hcons,⟨?_,?_,h.plain,?_⟩⟩
  · have hring := h.ring.pop (by decide) fun he => by
      rw [List.self_eq_append_right,List.append_eq_nil_iff] at he
      exact hne he.1
    rw [hcons] at hring
    change Ring inputBuf i.buf (i.r + 1) i.e (g ++ [i.cell i.r]) (_ ++ (rest ++ t.pending))
    rw [List.append_assoc]
    exact hring
  · rw [List.append_assoc,List.singleton_append]
    change i.w = _
    rw [h.mark,hcons]
    rfl
  · intro hfull
    have hle := h.size_le
    rw [Tty.size,hcons] at hle
    simp only [Tty.size,List.length_cons] at hfull hle
    omega

theorem store (h : Shows i g t) (hsize : t.size < inputBuf) (c : UInt8) :
    Ring inputBuf (i.store c).buf (i.store c).r (i.store c).e g
      (g ++ (t.ready ++ (t.pending ++ [c]))) := by
  have hpush := h.ring.push (by decide) (b := c) (by
    simp only [List.length_append,Tty.size] at hsize ⊢
    omega)
  rw [List.append_assoc,List.append_assoc] at hpush
  exact hpush

theorem enter (h : Shows i g t) (hsize : t.size < inputBuf) (c : UInt8) :
    Shows (i.enter c).1 g (t.enter c) := by
  have hring := h.store hsize c
  have hfull : (i.store c).e = (i.store c).r + BitVec.ofNat 32 inputBuf ↔
      t.size + 1 = inputBuf := by
    rw [hring.full_iff (by decide)]
    simp only [List.length_append,List.length_singleton,Tty.size]
    omega
  have hcond : (c = newline ∨ c = C 'D' ∨
      (i.store c).e = (i.store c).r + BitVec.ofNat 32 inputBuf) ↔
        (Tty.endsLine c = true ∨ t.size + 1 = inputBuf) := by
    rw [hfull,← or_assoc,Tty.endsLine,decide_eq_true_eq]
  unfold Input.enter Tty.enter
  simp only [hcond]
  split_ifs with h1
  · refine ⟨?_,?_,by simp,fun _ => rfl⟩
    · rw [List.append_nil]
      exact hring
    · exact hring.head
  · rw [not_or,Bool.not_eq_true] at h1
    refine ⟨hring,h.mark,?_,?_⟩
    · intro x hx
      rcases List.mem_append.mp hx with hx | hx
      · exact h.plain x hx
      · rw [List.mem_singleton.mp hx]
        exact h1.1
    · intro hsz
      simp only [Tty.size,List.length_append,List.length_singleton] at hsz h1
      omega

theorem key (h : Shows i g t) (c : UInt8) : Shows (i.key c).1 g (t.key c) := by
  unfold Input.key Tty.key
  rw [h.count]
  generalize (if c = carriage then newline else c) = x
  split_ifs with h1 h2 h3 h4 h5
  · exact h
  · refine h.kill ?_
    rw [h.halves.2.count (by decide)]
    simp only [List.length_append]
    omega
  · exact h.erase fun hn => h4 (h.w_eq_e.mpr hn)
  · have hn := h.w_eq_e.mp (not_not.mp h4)
    obtain ⟨u,v⟩ := t
    obtain rfl : v = [] := hn
    exact h
  · exact h.enter h5.2 _
  · exact h

end Shows

end Input

end Console
