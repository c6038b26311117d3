import Mathlib.Tactic
import Mathlib.Data.List.DropRight
import OscAssignments.Lib.Tokens

namespace CString
open Tokens

abbrev Buffer := List UInt8

def text (m : Buffer) (p : Nat) : List UInt8 := (m.drop p).takeWhile (· ≠ 0)

structure Holds (m : Buffer) (p : Nat) (s : List UInt8) : Prop where
  noNul : 0 ∉ s
  cells : ∀ j ≤ s.length, m[p + j]? = (s ++ [0])[j]?

structure Within (a b : Nat) (m m' : Buffer) : Prop where
  length : m'.length = m.length
  outside : ∀ x, x < a ∨ b ≤ x → m'[x]? = m[x]?

namespace Within
variable {a b c : Nat} {m m' m'' : Buffer}

theorem refl (a b : Nat) (m : Buffer) : Within a b m m := ⟨rfl,fun _ _ => rfl⟩

theorem trans (h : Within a b m m') (h' : Within a b m' m'') : Within a b m m'' :=
  ⟨h'.length.trans h.length,fun x hx => (h'.outside x hx).trans (h.outside x hx)⟩

theorem mono {a' b' : Nat} (h : Within a b m m') (ha : a' ≤ a) (hb : b ≤ b') : Within a' b' m m' :=
  ⟨h.length,fun x hx => h.outside x (by omega)⟩

theorem set {i : Nat} (ha : a ≤ i) (hb : i < b) (v : UInt8) : Within a b m (m.set i v) := by
  refine ⟨List.length_set,?_⟩
  intro x hx
  rw [List.getElem?_set_ne (by omega)]

end Within

namespace Holds
variable {m m' : Buffer} {p : Nat} {s : List UInt8}

theorem drop_eq (h : Holds m p s) : m.drop p = s ++ 0 :: m.drop (p + s.length + 1) := by
  apply List.ext_getElem?
  intro j
  rw [List.getElem?_drop]
  rcases le_or_gt j s.length with hj | hj
  · have hlt : j < (s ++ [0]).length := by
      rw [List.length_append]
      exact Nat.lt_succ_of_le hj
    rw [List.append_cons s 0 (m.drop _),List.getElem?_append_left hlt]
    exact h.cells j hj
  · rw [List.getElem?_append_right hj.le,show j - s.length = (j - s.length - 1) + 1 by omega,
      List.getElem?_cons_succ,List.getElem?_drop]
    congr 1
    omega

theorem of_drop (rest : List UInt8) (hs : 0 ∉ s) (h : m.drop p = s ++ 0 :: rest) : Holds m p s := by
  refine ⟨hs,?_⟩
  intro j hj
  have hlt : j < (s ++ [0]).length := by
    rw [List.length_append]
    exact Nat.lt_succ_of_le hj
  rw [← List.getElem?_drop,h,List.append_cons s 0 rest,List.getElem?_append_left hlt]

theorem text_eq (h : Holds m p s) : text m p = s := by
  have hs : ∀ c ∈ s, decide (c ≠ 0) = true := by
    intro c hc
    rw [decide_eq_true_eq]
    rintro rfl
    exact h.noNul hc
  rw [text,h.drop_eq,List.takeWhile_append_of_pos hs,List.takeWhile_cons_of_neg (by simp),
    List.append_nil]

theorem lt_length (h : Holds m p s) : p + s.length < m.length := by
  have hc := h.cells s.length le_rfl
  rw [List.getElem?_concat_length] at hc
  exact (List.getElem?_eq_some_iff.mp hc).1

theorem congr (h : Holds m p s) (he : ∀ x, p ≤ x → x ≤ p + s.length → m'[x]? = m[x]?) :
    Holds m' p s := by
  refine ⟨h.noNul,?_⟩
  intro j hj
  rw [he (p + j) (by omega) (by omega)]
  exact h.cells j hj

theorem within {a b : Nat} (h : Holds m p s) (hw : Within a b m m')
    (hd : p + s.length < a ∨ b ≤ p) : Holds m' p s :=
  h.congr fun x h1 h2 => hw.outside x (by omega)

theorem right {t : List UInt8} (h : Holds m p (s ++ t)) : Holds m (p + s.length) t := by
  refine ⟨fun hm => h.noNul (List.mem_append_right s hm),?_⟩
  intro j hj
  have hc := h.cells (s.length + j) (by rw [List.length_append]; omega)
  rw [List.append_assoc,List.getElem?_append_right (by omega),Nat.add_sub_cancel_left] at hc
  rw [← hc,Nat.add_assoc]

theorem cut {t : List UInt8} (h : Holds m p (s ++ t)) : Holds (m.set (p + s.length) 0) p s := by
  refine ⟨fun hm => h.noNul (List.mem_append_left t hm),?_⟩
  intro j hj
  have hlt := h.lt_length
  rw [List.length_append] at hlt
  rcases eq_or_ne j s.length with rfl | hne
  · rw [List.getElem?_set_self (by omega),List.getElem?_concat_length]
  · have hc := h.cells j (by rw [List.length_append]; omega)
    rw [List.getElem?_set_ne (by omega),hc,List.append_assoc,
      List.getElem?_append_left (by omega),List.getElem?_append_left (by omega)]

theorem of_text (h : p + (text m p).length < m.length) : Holds m p (text m p) := by
  have hmem : 0 ∈ m.drop p := by
    by_contra hno
    have hall : text m p = m.drop p := by
      rw [text,List.takeWhile_eq_self_iff]
      intro c hc
      rw [decide_eq_true_eq]
      rintro rfl
      exact hno hc
    rw [hall,List.length_drop] at h
    omega
  obtain ⟨rest,hrest⟩ := exists_takeWhile_append hmem
  exact .of_drop rest (notMem_takeWhile 0 _) hrest

end Holds

def strtokAt (d : UInt8 → Bool) (m : Buffer) (p : Nat) : Option (Nat × Nat × Buffer) :=
  let start := p + ((m.drop p).takeWhile d).length
  let word := (m.drop start).takeWhile fun c => decide (c ≠ 0) && !d c
  if word = [] then none
  else
    let stop := start + word.length
    if m[stop]? = some 0 then some (start,stop,m) else some (start,stop + 1,m.set stop 0)

def strtokLoop (d : UInt8 → Bool) (visit : Buffer → Nat → List Nat × Buffer) :
    Nat → Buffer → Nat → List Nat × Buffer
  | 0, m, _ => ([],m)
  | n + 1, m, p =>
    match strtokAt d m p with
    | none => ([],m)
    | some (start,save,m) =>
      let (here,m) := visit m start
      let (later,m) := strtokLoop d visit n m save
      (here ++ later,m)

def spans (d : UInt8 → Bool) : Nat → Nat → List UInt8 → List (Nat × List UInt8)
  | 0, _, _ => []
  | n + 1, p, s =>
    let lead := s.takeWhile d
    let word := (s.dropWhile d).takeWhile fun c => !d c
    if word = [] then []
    else
      (p + lead.length,word) ::
        spans d n (p + lead.length + word.length + 1) ((s.dropWhile d).drop (word.length + 1))

def trimAt (space : UInt8 → Bool) (m : Buffer) (p : Nat) : Nat × Buffer :=
  let q := p + ((text m p).takeWhile space).length
  let s := text m q
  if s = [] then (q,m) else (q,m.set (q + (s.rdropWhile space).length) 0)

def strcat (m : Buffer) (p : Nat) (s : List UInt8) : Option Buffer :=
  let e := p + (text m p).length
  if e + s.length < m.length then
    some (m.take e ++ s ++ 0 :: m.drop (e + s.length + 1))
  else none

section Strtok
variable {d : UInt8 → Bool} {m : Buffer} {p : Nat} {s : List UInt8}

theorem takeWhile_drop (h : Holds m p s) {f : UInt8 → Bool} (hf : f 0 = false) :
    (m.drop p).takeWhile f = s.takeWhile f := by
  rw [h.drop_eq]
  induction s generalizing p with
  | nil => simp [hf]
  | cons c s ih =>
    rw [List.cons_append,List.takeWhile_cons,List.takeWhile_cons]
    split
    · have htail : Holds m (p + 1) s := h.right (s := [c])
      have heq : p + (c :: s).length + 1 = p + 1 + s.length + 1 := by
        rw [List.length_cons]
        omega
      rw [heq,ih htail]
    · rfl

theorem takeWhile_word {s : List UInt8} (h : 0 ∉ s) :
    s.takeWhile (fun c => decide (c ≠ 0) && !d c) = s.takeWhile fun c => !d c := by
  induction s with
  | nil => rfl
  | cons c s ih =>
    have hc : c ≠ 0 := fun he => h (he ▸ List.mem_cons_self)
    rw [List.takeWhile_cons,List.takeWhile_cons,ih fun hm => h (List.mem_cons_of_mem c hm)]
    simp [hc]

structure Parts (d : UInt8 → Bool) (s lead word tail : List UInt8) : Prop where
  eq : s = lead ++ (word ++ tail)
  lead_eq : s.takeWhile d = lead
  rest_eq : s.dropWhile d = word ++ tail
  word_eq : (word ++ tail).takeWhile (fun c => !d c) = word
  leads : ∀ c ∈ lead, d c = true
  plain : ∀ c ∈ word, d c = false
  stops : ∀ c ∈ tail.head?, d c = true
  ended : word = [] → tail = []

theorem head?_dropWhile {f : UInt8 → Bool} {s : List UInt8} {c : UInt8}
    (h : (s.dropWhile f).head? = some c) : f c = false := by
  have := List.head?_dropWhile_not f s
  rw [h] at this
  exact this

theorem exists_parts (d : UInt8 → Bool) (s : List UInt8) :
    ∃ lead word tail, Parts d s lead word tail := by
  have hrest := List.takeWhile_append_dropWhile (p := fun c => !d c) (l := s.dropWhile d)
  refine ⟨s.takeWhile d,(s.dropWhile d).takeWhile fun c => !d c,
    (s.dropWhile d).dropWhile fun c => !d c,?_,rfl,hrest.symm,by rw [hrest],?_,?_,?_,?_⟩
  · rw [hrest,List.takeWhile_append_dropWhile]
  · exact fun c hc => List.mem_takeWhile_imp hc
  · exact fun c hc => by simpa using List.mem_takeWhile_imp hc
  · exact fun c hc => by simpa using head?_dropWhile hc
  · intro hnil
    rw [hnil,List.nil_append] at hrest
    rcases hs : s.dropWhile d with _ | ⟨c,r⟩
    · rfl
    · have hc : d c = false := head?_dropWhile (s := s) (by rw [hs]; rfl)
      rw [hs] at hnil
      simp [hc] at hnil

variable {lead word tail : List UInt8}

theorem strtokAt_eq (hd : d 0 = false) (h : Holds m p s) (hp : Parts d s lead word tail) :
    strtokAt d m p =
      if word = [] then none
      else if m[p + lead.length + word.length]? = some 0 then
        some (p + lead.length,p + lead.length + word.length,m)
      else some (p + lead.length,p + lead.length + word.length + 1,
        m.set (p + lead.length + word.length) 0) := by
  have hlead : (m.drop p).takeWhile d = lead := (takeWhile_drop h hd).trans hp.lead_eq
  have hrest : Holds m (p + lead.length) (word ++ tail) := by
    rw [hp.eq] at h
    exact h.right
  have hword : (m.drop (p + lead.length)).takeWhile (fun c => decide (c ≠ 0) && !d c) = word := by
    rw [takeWhile_drop hrest (by simp),takeWhile_word hrest.noNul,hp.word_eq]
  rw [strtokAt]
  simp only [hlead,hword]

structure Next (m m' : Buffer) (p save : Nat) (s lead word tail : List UInt8) : Prop where
  within : Within p (p + s.length) m m'
  token : Holds m' (p + lead.length) word
  later : Holds m' save (tail.drop 1)
  save_eq : save = p + lead.length + word.length + 1 ∨ save = p + s.length ∧ tail = []
  length : save + (tail.drop 1).length = p + s.length

theorem strtokAt_some (hd : d 0 = false) (h : Holds m p s) (hp : Parts d s lead word tail)
    (hw : word ≠ []) :
    ∃ save m', strtokAt d m p = some (p + lead.length,save,m') ∧
      Next m m' p save s lead word tail := by
  have hs : Holds m p (lead ++ (word ++ tail)) := hp.eq ▸ h
  have hlen : s.length = lead.length + (word.length + tail.length) := by
    rw [hp.eq,List.length_append,List.length_append]
  have htail : Holds m (p + lead.length + word.length) tail := hs.right.right
  rw [strtokAt_eq hd h hp,if_neg hw]
  cases tail with
  | nil =>
    have hzero : m[p + lead.length + word.length]? = some 0 := htail.cells 0 le_rfl
    rw [if_pos hzero]
    refine ⟨_,_,rfl,.refl _ _ _,?_,htail,.inr ⟨by rw [hlen]; simp; omega,rfl⟩,?_⟩
    · rw [List.append_nil] at hs
      exact hs.right
    · simp only [List.drop_nil,List.length_nil] at hlen ⊢
      omega
  | cons c tail =>
    have hc : m[p + lead.length + word.length]? = some c := htail.cells 0 (Nat.zero_le _)
    have hne : c ≠ 0 := by
      rintro rfl
      exact htail.noNul List.mem_cons_self
    rw [hc,if_neg (by simpa using hne)]
    have hset : Within (p + lead.length + word.length) (p + lead.length + word.length + 1) m
        (m.set (p + lead.length + word.length) 0) := .set le_rfl (Nat.lt_succ_self _) 0
    rw [List.length_cons] at hlen
    refine ⟨_,_,rfl,hset.mono (by omega) (by omega),hs.right.cut,?_,.inl rfl,?_⟩
    · have hright : Holds m (p + lead.length + word.length + 1) tail := htail.right (s := [c])
      exact hright.within hset (.inr le_rfl)
    · simp only [List.drop_succ_cons,List.drop_zero]
      omega

theorem spans_nil (d : UInt8 → Bool) (n p : Nat) : spans d n p [] = [] := by
  cases n with
  | zero => rfl
  | succ n => rfl

theorem spans_succ (hp : Parts d s lead word tail) (n : Nat) :
    spans d (n + 1) p s =
      if word = [] then []
      else (p + lead.length,word) ::
        spans d n (p + lead.length + word.length + 1) (tail.drop 1) := by
  rw [spans]
  simp only [hp.lead_eq,hp.rest_eq,hp.word_eq,List.drop_length_add_append]

theorem tokens_skip (hlead : ∀ c ∈ lead, d c = true) : tokens d (lead ++ s) = tokens d s := by
  induction lead with
  | nil => rfl
  | cons c lead ih =>
    have hc := tokens_append_cons [] (lead ++ s) (hlead c List.mem_cons_self)
    rw [List.nil_append] at hc
    rw [List.cons_append,hc,ih fun x hx => hlead x (List.mem_cons_of_mem c hx)]
    rfl

theorem spans_texts (n : Nat) :
    ∀ {p : Nat} {s : List UInt8}, s.length < n → (spans d n p s).map Prod.snd = tokens d s := by
  induction n with
  | zero =>
    intro p s hn
    omega
  | succ n ih =>
    intro p s hn
    obtain ⟨lead,word,tail,hp⟩ := exists_parts d s
    have hlen := congrArg List.length hp.eq
    rw [List.length_append,List.length_append] at hlen
    rw [spans_succ hp,hp.eq,tokens_skip hp.leads]
    split
    case isTrue hnil =>
      rw [hnil,hp.ended hnil]
      rfl
    case isFalse hne =>
      rw [List.map_cons]
      cases htail : tail with
      | nil =>
        rw [List.append_nil,List.drop_nil,spans_nil,tokens_word hne hp.plain]
        rfl
      | cons c rest =>
        have hc : d c = true := hp.stops c (by rw [htail]; rfl)
        have hrest : rest.length < n := by
          rw [htail,List.length_cons] at hlen
          omega
        rw [List.drop_succ_cons,List.drop_zero,ih hrest,tokens_append_cons word rest hc,
          tokens_word hne hp.plain]
        rfl

end Strtok

def Before (x y : Nat × List UInt8) : Prop := x.1 + x.2.length < y.1

structure Laid (m : Buffer) (a b : Nat) (l : List (Nat × List UInt8)) : Prop where
  holds : ∀ x ∈ l, Holds m x.1 x.2
  inside : ∀ x ∈ l, a ≤ x.1 ∧ x.1 + x.2.length ≤ b
  ordered : l.Pairwise Before

namespace Laid
variable {m m' : Buffer} {a b c e : Nat} {l l' : List (Nat × List UInt8)}

theorem nil (m : Buffer) (a b : Nat) : Laid m a b [] := by
  refine ⟨?_,?_,.nil⟩
  · intro x hx
    cases hx
  · intro x hx
    cases hx

theorem within (h : Laid m a b l) (hw : Within c e m m') (hd : b < c ∨ e ≤ c) : Laid m' a b l := by
  refine ⟨?_,h.inside,h.ordered⟩
  intro x hx
  have hin := h.inside x hx
  exact (h.holds x hx).congr fun y _ hy => hw.outside y (by omega)

theorem mono (h : Laid m a b l) (ha : c ≤ a) (hb : b ≤ e) : Laid m c e l :=
  ⟨h.holds,fun x hx => ⟨ha.trans (h.inside x hx).1,(h.inside x hx).2.trans hb⟩,h.ordered⟩

theorem append (h : Laid m a b l) (h' : Laid m c e l') (hbc : b < c ∨ l' = []) (hac : a ≤ c)
    (hbe : b ≤ e) : Laid m a e (l ++ l') := by
  refine ⟨?_,?_,List.pairwise_append.mpr ⟨h.ordered,h'.ordered,?_⟩⟩
  · intro x hx
    rcases List.mem_append.mp hx with hx | hx
    · exact h.holds x hx
    · exact h'.holds x hx
  · intro x hx
    rcases List.mem_append.mp hx with hx | hx
    · exact ⟨(h.inside x hx).1,(h.inside x hx).2.trans hbe⟩
    · exact ⟨hac.trans (h'.inside x hx).1,(h'.inside x hx).2⟩
  · intro x hx y hy
    rcases hbc with hbc | rfl
    · have h1 := (h.inside x hx).2
      have h2 := (h'.inside y hy).1
      unfold Before
      omega
    · cases hy

theorem sublist (h : Laid m a b l) (hs : l'.Sublist l) : Laid m a b l' :=
  ⟨fun x hx => h.holds x (hs.subset hx),fun x hx => h.inside x (hs.subset hx),h.ordered.sublist hs⟩

theorem length_le (h : Laid m a b l) (hne : ∀ x ∈ l, x.2 ≠ []) (hab : a ≤ b + 1) :
    a + 2 * l.length ≤ b + 1 := by
  induction l generalizing a with
  | nil =>
    rw [List.length_nil]
    omega
  | cons x l ih =>
    have hx := h.inside x List.mem_cons_self
    have hpos := List.length_pos_iff.mpr (hne x List.mem_cons_self)
    obtain ⟨hfirst,hrest⟩ := List.pairwise_cons.mp h.ordered
    have hlaid : Laid m (x.1 + x.2.length + 1) b l :=
      ⟨fun y hy => h.holds y (List.mem_cons_of_mem x hy),
        fun y hy => ⟨hfirst y hy,(h.inside y (List.mem_cons_of_mem x hy)).2⟩,hrest⟩
    have hlen := ih hlaid (fun y hy => hne y (List.mem_cons_of_mem x hy)) (by omega)
    rw [List.length_cons]
    omega

theorem texts (h : Laid m a b l) : (l.map Prod.fst).map (text m) = l.map Prod.snd := by
  rw [List.map_map]
  exact List.map_congr_left fun x hx => (h.holds x hx).text_eq

end Laid

def Visits (visit : Buffer → Nat → List Nat × Buffer)
    (out : Nat × List UInt8 → List (Nat × List UInt8)) : Prop :=
  ∀ m p w, Holds m p w → w ≠ [] → ∃ m', visit m p = ((out (p,w)).map Prod.fst,m') ∧
    Within p (p + w.length) m m' ∧ Laid m' p (p + w.length) (out (p,w))

theorem strtokLoop_spec {d : UInt8 → Bool} (hd : d 0 = false)
    {visit : Buffer → Nat → List Nat × Buffer} {out : Nat × List UInt8 → List (Nat × List UInt8)}
    (hv : Visits visit out) (n : Nat) :
    ∀ {m : Buffer} {p : Nat} {s : List UInt8}, Holds m p s →
      ∃ m', strtokLoop d visit n m p = (((spans d n p s).flatMap out).map Prod.fst,m') ∧
        Within p (p + s.length) m m' ∧ Laid m' p (p + s.length) ((spans d n p s).flatMap out) := by
  induction n with
  | zero =>
    intro m p s _
    exact ⟨m,rfl,.refl _ _ _,.nil _ _ _⟩
  | succ n ih =>
    intro m p s h
    obtain ⟨lead,word,tail,hp⟩ := exists_parts d s
    rw [strtokLoop,spans_succ hp]
    rcases eq_or_ne word [] with hnil | hne
    · rw [strtokAt_eq hd h hp,if_pos hnil,if_pos hnil]
      exact ⟨m,rfl,.refl _ _ _,.nil _ _ _⟩
    · obtain ⟨save,m1,hstrtok,hnext⟩ := strtokAt_some hd h hp hne
      have hlen := congrArg List.length hp.eq
      rw [List.length_append,List.length_append] at hlen
      have hsave := hnext.length
      have hbounds : p + lead.length + word.length ≤ save := by
        rcases hnext.save_eq with hs | ⟨hs,-⟩ <;> omega
      obtain ⟨m2,hvisit,hw2,hlaid2⟩ := hv m1 (p + lead.length) word hnext.token hne
      obtain ⟨m3,hloop,hw3,hlaid3⟩ := ih (hnext.later.within hw2 (.inr hbounds))
      have hspans : spans d n save (tail.drop 1) =
          spans d n (p + lead.length + word.length + 1) (tail.drop 1) := by
        rcases hnext.save_eq with rfl | ⟨-,rfl⟩
        · rfl
        · rw [List.drop_nil,spans_nil,spans_nil]
      have hapart : p + lead.length + word.length < save ∨ save + (tail.drop 1).length ≤ save := by
        rcases hnext.save_eq with hs | ⟨-,rfl⟩
        · omega
        · exact .inr (by simp)
      have hempty : p + lead.length + word.length < save ∨
          (spans d n save (tail.drop 1)).flatMap out = [] := by
        rcases hnext.save_eq with hs | ⟨-,rfl⟩
        · omega
        · exact .inr (by rw [List.drop_nil,spans_nil]; rfl)
      rw [hstrtok,if_neg hne,List.flatMap_cons,← hspans,List.map_append]
      refine ⟨m3,?_,?_,?_⟩
      · simp only [hvisit,hloop]
      · exact (hnext.within.trans (hw2.mono (by omega) (by omega))).trans
          (hw3.mono (by omega) (by omega))
      · exact ((hlaid2.within hw3 hapart).append hlaid3 hempty (by omega) (by omega)).mono
          (by omega) (by omega)

theorem set_same {m : Buffer} {i : Nat} {v : UInt8} (h : m[i]? = some v) : m.set i v = m := by
  apply List.ext_getElem?
  intro j
  rcases eq_or_ne i j with rfl | hne
  · rw [List.getElem?_set_self (List.getElem?_eq_some_iff.mp h).1,h]
  · rw [List.getElem?_set_ne hne]

theorem trimAt_spec (space : UInt8 → Bool) {m : Buffer} {p : Nat} {s : List UInt8}
    (h : Holds m p s) :
    ∃ m', trimAt space m p = (p + (s.takeWhile space).length,m') ∧
      Within p (p + s.length) m m' ∧
      Holds m' (p + (s.takeWhile space).length) (Tokens.trim space s) := by
  have hsplit := List.takeWhile_append_dropWhile (p := space) (l := s)
  have hlen := congrArg List.length hsplit
  rw [List.length_append] at hlen
  have hq : Holds m (p + (s.takeWhile space).length) (s.dropWhile space) := by
    rw [← hsplit] at h
    exact h.right
  rw [trimAt]
  simp only [h.text_eq,hq.text_eq,Tokens.trim]
  generalize s.takeWhile space = lead at hsplit hlen hq ⊢
  generalize s.dropWhile space = rest at hsplit hlen hq ⊢
  rcases eq_or_ne rest [] with rfl | hne
  · rw [if_pos rfl]
    exact ⟨m,rfl,.refl _ _ _,hq⟩
  · rw [if_neg hne]
    obtain ⟨cut,hcut⟩ := List.rdropWhile_prefix space rest
    have hcutlen := congrArg List.length hcut
    rw [List.length_append] at hcutlen
    have hs : Holds m (p + lead.length) (rest.rdropWhile space ++ cut) := by
      rw [hcut]
      exact hq
    refine ⟨_,rfl,?_,hs.cut⟩
    rcases eq_or_ne cut [] with rfl | hcutne
    · have hzero : m[p + lead.length + (rest.rdropWhile space).length]? = some 0 := by
        rw [List.append_nil] at hs
        exact (hs.cells _ le_rfl).trans List.getElem?_concat_length
      rw [set_same hzero]
      exact .refl _ _ _
    · have hpos := List.length_pos_iff.mpr hcutne
      exact .set (by omega) (by omega) 0

theorem strcat_spec {m : Buffer} {p : Nat} {s : List UInt8} (h : Holds m p s) {t : List UInt8}
    (ht : 0 ∉ t) (hfit : p + s.length + t.length < m.length) :
    ∃ m', strcat m p t = some m' ∧ Holds m' p (s ++ t) ∧
      Within (p + s.length) (p + s.length + t.length + 1) m m' := by
  have hlen : (m.take (p + s.length)).length = p + s.length := by
    rw [List.length_take]
    omega
  rw [strcat]
  simp only [h.text_eq]
  rw [if_pos hfit]
  refine ⟨_,rfl,?_,?_,?_⟩
  · refine .of_drop (m.drop (p + s.length + t.length + 1)) ?_ ?_
    · rw [List.mem_append]
      rintro (hm | hm)
      · exact h.noNul hm
      · exact ht hm
    · have hdrop : (m.take (p + s.length)).drop p = s := by
        rw [List.drop_take,Nat.add_sub_cancel_left,h.drop_eq,List.take_left]
      rw [List.append_assoc,List.drop_append_of_le_length (by omega),hdrop,List.append_assoc]
  · simp only [List.length_append,hlen,List.length_cons,List.length_drop]
    omega
  · intro x hx
    rcases hx with hx | hx
    · rw [List.append_assoc,List.getElem?_append_left (by omega),List.getElem?_take_of_lt hx]
    · rw [List.append_assoc,List.getElem?_append_right (by omega),
        List.getElem?_append_right (by omega),hlen,
        show x - (p + s.length) - t.length = x - (p + s.length + t.length + 1) + 1 by omega,
        List.getElem?_cons_succ,List.getElem?_drop]
      congr 1
      omega

theorem strcat_none {m : Buffer} {p : Nat} {s : List UInt8} (h : Holds m p s) {t : List UInt8}
    (hover : m.length ≤ p + s.length + t.length) : strcat m p t = none := by
  rw [strcat]
  simp only [h.text_eq]
  rw [if_neg (by omega)]

end CString
