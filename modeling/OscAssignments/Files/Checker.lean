import Mathlib.Tactic
import OscAssignments.Files.Reversal

namespace Reversal.Checker
open Runs

def isRevedFrom (a b : Buffer) (len i j : Int) : Except Fault Bool :=
  if i < len then do
    let x ← load a i
    let y ← load b j
    if x ≠ y then .ok false else isRevedFrom a b len (i + 1) (j - 1)
  else .ok true
termination_by (len - i).toNat

def isReved (a b : Buffer) (len : Int) : Except Fault Bool := isRevedFrom a b len 0 (len - 1)

def min (x y : Int) : Int := if x < y then x else y

structure Walk where
  fileSize : Int
  multiplePrintStep : Int
  steps : Int
  left : Int

def walk (st_size : Nat) : Walk :=
  let fileSize := toInt st_size
  let multiplePrintStep := max (min (fileSize.tdiv 1000) 1000000) 1
  let steps := fileSize.tdiv multiplePrintStep
  { fileSize, multiplePrintStep, steps, left := toInt (fileSize - steps * multiplePrintStep) }

structure Readers where
  fd1 : Input
  fd2 : Input
  buf : Buffer
  buf2 : Buffer

def compare (count : Int) (r : Readers) : Except Fault (Bool × Readers) := do
  let (fd1,buf) ← read r.fd1 r.buf count.toNat
  let (fd2,buf2) ← read r.fd2 r.buf2 count.toNat
  let same ← isReved buf buf2 (toInt count)
  pure (same,{ fd1, fd2, buf, buf2 })

def chunks (w : Walk) : Nat → Int → Readers → Except Fault (Option Readers)
  | 0, i, r => if i < w.steps then .error .outOfFuel else .ok (some r)
  | n + 1, i, r =>
    if i < w.steps then do
      let (same,r) ← compare w.multiplePrintStep r
      if same then
        chunks w n (toInt (i + 1)) { r with fd1 := lseek r.fd1 (-2 * w.multiplePrintStep) .cur }
      else .ok none
    else .ok (some r)

def reversed (newFile oldFile : Option (List UInt8)) (junk junk2 : Nat → UInt8) :
    Except Fault Int :=
  match newFile, oldFile with
  | none, _ => .ok (-1)
  | some _, none => .ok (-1)
  | some new, some old =>
    if new.length ≠ old.length then .ok 0
    else do
      let w := walk new.length
      let r : Readers :=
        { fd1 := lseek ⟨new,0⟩ (-w.multiplePrintStep) .fromEnd, fd2 := ⟨old,0⟩
          buf := (List.range w.multiplePrintStep.toNat).map junk
          buf2 := (List.range w.multiplePrintStep.toNat).map junk2 }
      match ← chunks w w.steps.toNat 0 r with
      | none => .ok 0
      | some r => do
        let (same,_) ← compare w.left { r with fd1 := lseek r.fd1 0 .set }
        .ok (if same then 1 else 0)

theorem isRevedFrom_ok {a b : Buffer} {len : Nat} (ha : len ≤ a.length) (hb : len ≤ b.length)
    (n : Nat) : ∀ i, i + n = len → isRevedFrom a b len i (len - 1 - i) =
      .ok (decide (∀ k, i ≤ k → k < len → a[k]? = b[len - 1 - k]?)) := by
  induction n with
  | zero =>
    intro i hi
    rw [isRevedFrom,if_neg (by omega)]
    congr 1
    rw [eq_comm,decide_eq_true_eq]
    intro k h1 h2
    omega
  | succ n ih =>
    intro i hi
    have hj : ((len : Int) - 1 - i) = ((len - 1 - i : Nat) : Int) := by omega
    have hnext := ih (i + 1) (by omega)
    have hcast : ((len : Int) - 1 - ((i + 1 : Nat) : Int)) = ((len - 1 - i : Nat) : Int) - 1 := by
      omega
    rw [hcast,Nat.cast_add,Nat.cast_one] at hnext
    rw [isRevedFrom,if_pos (by omega),hj,load_ok (by omega),ok_bind,load_ok (by omega),ok_bind]
    split
    · next hne =>
      congr 1
      rw [eq_comm,decide_eq_false_iff_not]
      intro hall
      have hi' := hall i le_rfl (by omega)
      rw [List.getElem?_eq_getElem (by omega),List.getElem?_eq_getElem (by omega)] at hi'
      exact hne (Option.some.inj hi')
    · next heq =>
      rw [hnext]
      congr 1
      rw [decide_eq_decide]
      constructor
      · intro hall k h1 h2
        rcases eq_or_lt_of_le h1 with rfl | hlt
        · rw [List.getElem?_eq_getElem (by omega),List.getElem?_eq_getElem (by omega)]
          exact congrArg some (not_not.mp heq)
        · exact hall k (by omega) h2
      · intro hall k h1 h2
        exact hall k (by omega) h2

theorem take_eq_reverse_iff {a b : Buffer} {len : Nat} (ha : len ≤ a.length)
    (hb : len ≤ b.length) :
    (∀ k, 0 ≤ k → k < len → a[k]? = b[len - 1 - k]?) ↔ a.take len = (b.take len).reverse := by
  have hla : (a.take len).length = len := List.length_take_of_le ha
  have hlb : (b.take len).length = len := List.length_take_of_le hb
  constructor
  · intro h
    apply List.ext_getElem?
    intro k
    rcases Nat.lt_or_ge k len with hk | hk
    · rw [List.getElem?_take_of_lt hk,List.getElem?_reverse (by omega),hlb,
        List.getElem?_take_of_lt (by omega)]
      exact h k (Nat.zero_le k) hk
    · rw [List.getElem?_eq_none (by omega),List.getElem?_eq_none (by rw [List.length_reverse]; omega)]
  · intro h k _ hk
    have hk' : (a.take len)[k]? = (b.take len).reverse[k]? := by rw [h]
    rwa [List.getElem?_take_of_lt hk,List.getElem?_reverse (by omega),hlb,
      List.getElem?_take_of_lt (by omega)] at hk'

theorem isReved_ok {a b : Buffer} {len : Nat} (ha : len ≤ a.length) (hb : len ≤ b.length) :
    isReved a b len = .ok (decide (a.take len = (b.take len).reverse)) := by
  have h := isRevedFrom_ok ha hb len 0 (zero_add len)
  rw [Nat.cast_zero,sub_zero] at h
  rw [isReved,h]
  congr 1
  rw [decide_eq_decide]
  exact take_eq_reverse_iff ha hb

structure Walked (n : Nat) (w : Walk) (step steps left : Nat) : Prop where
  step_eq : w.multiplePrintStep = step
  step_pos : 0 < step
  step_le : step ≤ 1000000
  lt_steps : ∀ i : Nat, (i : Int) < w.steps ↔ i < steps
  steps_lt : steps < 2 ^ 31
  left_eq : w.left = left
  left_lt : left < step
  covers : steps * step + left ≤ n
  exact : n < 2 ^ 31 → steps * step + left = n

theorem walk_step (n : Nat) :
    (walk n).multiplePrintStep = max (min ((toInt n).tdiv 1000) 1000000) 1 := by
  simp only [walk]

theorem walk_steps (n : Nat) : (walk n).steps = (toInt n).tdiv (walk n).multiplePrintStep := by
  simp only [walk]

theorem walk_left (n : Nat) :
    (walk n).left = toInt (toInt n - (walk n).steps * (walk n).multiplePrintStep) := by
  simp only [walk]

theorem step_of_neg {s : Int} (h : s < 0) : max (min (s.tdiv 1000) 1000000) 1 = 1 := by
  have hd : s.tdiv 1000 ≤ 0 := by
    rw [← neg_neg s,Int.neg_tdiv,neg_nonpos]
    exact Int.tdiv_nonneg (by omega) (by norm_num)
  rw [min,if_pos (by omega),max,if_neg (by omega)]

theorem walked_of_neg {n : Nat} (h : toInt n < 0) : Walked n (walk n) 1 0 0 := by
  have hs : (walk n).multiplePrintStep = (1 : Nat) := by
    rw [walk_step,step_of_neg h,Nat.cast_one]
  refine ⟨hs,Nat.one_pos,by norm_num,?_,by norm_num,?_,Nat.one_pos,by omega,?_⟩
  · intro i
    rw [walk_steps,hs,Nat.cast_one,Int.tdiv_one]
    omega
  · rw [walk_left,walk_steps,hs,Nat.cast_one,Int.tdiv_one,mul_one,sub_self]
    rfl
  · intro hn
    rw [toInt_eq (by omega) (by exact_mod_cast hn)] at h
    omega

theorem walked_of_nat {n s : Nat} (h : toInt n = s) : ∃ step steps left,
    Walked n (walk n) step steps left := by
  have hlt : toInt n < 2 ^ 31 := toInt_lt n
  have hle : toInt n ≤ n := toInt_le n.cast_nonneg
  rw [h] at hlt hle
  have hpos := (max_pos (min ((s : Int) / 1000) 1000000)).1
  generalize hs : max (min ((s : Int) / 1000) 1000000) 1 = x at hpos
  obtain ⟨step,rfl⟩ := Int.eq_ofNat_of_zero_le hpos.le
  have hstep : 0 < step := by omega
  have hcases := clamp_cases hs
  have hw : (walk n).multiplePrintStep = step := by
    rw [walk_step,h,Int.tdiv_eq_ediv_of_nonneg (by omega)]
    exact hs
  have hsteps : (walk n).steps = (s / step : Nat) := by
    rw [walk_steps,hw,h,Int.tdiv_eq_ediv_of_nonneg (by omega)]
    exact (Int.natCast_div s step).symm
  have hmod : s % step + s / step * step = s := by
    rw [Nat.mul_comm]
    exact Nat.mod_add_div s step
  have hmodlt : s % step < step := Nat.mod_lt s hstep
  refine ⟨step,s / step,s % step,hw,hstep,?_,?_,?_,?_,hmodlt,by omega,?_⟩
  · rcases hcases with hc | hc | hc
    · omega
    · omega
    · omega
  · intro i
    rw [hsteps]
    omega
  · have hdiv := Nat.div_le_self s step
    omega
  · have he : toInt n - (walk n).steps * (walk n).multiplePrintStep = (s % step : Nat) := by
      rw [h,hw,hsteps]
      have hmod' : ((s % step : Nat) : Int) + ((s / step : Nat) : Int) * step = s := by
        exact_mod_cast hmod
      omega
    have hle' : ((s % step : Nat) : Int) ≤ s := by exact_mod_cast Nat.mod_le s step
    rw [walk_left,he]
    exact toInt_eq (Int.natCast_nonneg _) (by norm_num; exact hle'.trans_lt hlt)
  · intro hn
    rw [toInt_eq (by omega) (by exact_mod_cast hn)] at h
    omega

theorem walked (n : Nat) : ∃ step steps left, Walked n (walk n) step steps left := by
  rcases lt_or_ge (toInt n) 0 with h | h
  · exact ⟨1,0,0,walked_of_neg h⟩
  · obtain ⟨s,hs⟩ := Int.eq_ofNat_of_zero_le h
    exact walked_of_nat hs

def Mirrored (new old : List UInt8) (p q count : Nat) : Prop :=
  ∀ i < count, new[p + count - 1 - i]? = old[q + i]?

instance (new old : List UInt8) (p q count : Nat) : Decidable (Mirrored new old p q count) :=
  inferInstanceAs (Decidable (∀ i < count, _))

theorem mirrored_add (new old : List UInt8) (p q a b : Nat) :
    Mirrored new old p q (a + b) ↔ Mirrored new old (p + b) q a ∧ Mirrored new old p (q + a) b := by
  constructor
  · intro h
    constructor
    · intro i hi
      rw [← h i (by omega)]
      congr 1
      omega
    · intro i hi
      rw [Nat.add_assoc,← h (a + i) (by omega)]
      congr 1
      omega
  · rintro ⟨ha,hb⟩ i hi
    rcases Nat.lt_or_ge i a with hia | hia
    · rw [← ha i hia]
      congr 1
      omega
    · have := hb (i - a) (by omega)
      rw [show q + a + (i - a) = q + i by omega] at this
      rw [← this]
      congr 1
      omega

theorem mirrored_iff {new old : List UInt8} {p q count : Nat} (hnew : p + count ≤ new.length)
    (hold : q + count ≤ old.length) :
    (new.drop p).take count = ((old.drop q).take count).reverse ↔ Mirrored new old p q count := by
  rw [← take_eq_reverse_iff (by rw [List.length_drop]; omega) (by rw [List.length_drop]; omega)]
  constructor
  · intro h i hi
    have := h (count - 1 - i) (Nat.zero_le _) (by omega)
    rw [List.getElem?_drop,List.getElem?_drop,show count - 1 - (count - 1 - i) = i by omega] at this
    rw [← this]
    congr 1
    omega
  · intro h k _ hk
    have := h (count - 1 - k) (by omega)
    rw [List.getElem?_drop,List.getElem?_drop,← this]
    congr 1
    omega

theorem eq_reverse_iff {new old : List UInt8} (hlen : new.length = old.length) :
    new = old.reverse ↔ Mirrored new old 0 0 new.length := by
  rw [← mirrored_iff (by omega) (by omega),List.drop_zero,List.drop_zero,List.take_length,hlen,
    List.take_length]

structure Fed (new old : List UInt8) (step : Nat) (r : Readers) : Prop where
  file1 : r.fd1.bytes = new
  file2 : r.fd2.bytes = old
  buf : r.buf.length = step
  buf2 : r.buf2.length = step

theorem compare_ok {new old : List UInt8} {step count : Nat} {r : Readers}
    (h : Fed new old step r) (hcount : count ≤ step) (hstep : step ≤ 1000000)
    (h1 : r.fd1.pos + count ≤ new.length) (h2 : r.fd2.pos + count ≤ old.length) :
    ∃ r', compare count r = .ok (decide (Mirrored new old r.fd1.pos r.fd2.pos count),r') ∧
      Fed new old step r' ∧ r'.fd1.pos = r.fd1.pos + count ∧ r'.fd2.pos = r.fd2.pos + count := by
  have hb := h.buf
  have hb2 := h.buf2
  have hle1 : count ≤ r.buf.length := by omega
  have hle2 : count ≤ r.buf2.length := by omega
  have hend1 : r.fd1.pos + count ≤ r.fd1.bytes.length := by rw [h.file1]; exact h1
  have hend2 : r.fd2.pos + count ≤ r.fd2.bytes.length := by rw [h.file2]; exact h2
  have hr1 := read_ok hle1 hend1
  have hr2 := read_ok hle2 hend2
  rw [h.file1] at hr1
  rw [h.file2] at hr2
  have hlen1 : ((new.drop r.fd1.pos).take count).length = count := by
    rw [List.length_take,List.length_drop]
    omega
  have hlen2 : ((old.drop r.fd2.pos).take count).length = count := by
    rw [List.length_take,List.length_drop]
    omega
  have htake1 : ((new.drop r.fd1.pos).take count ++ r.buf.drop count).take count =
      (new.drop r.fd1.pos).take count := by
    rw [List.take_append_of_le_length hlen1.ge,List.take_of_length_le hlen1.le]
  have htake2 : ((old.drop r.fd2.pos).take count ++ r.buf2.drop count).take count =
      (old.drop r.fd2.pos).take count := by
    rw [List.take_append_of_le_length hlen2.ge,List.take_of_length_le hlen2.le]
  have hfull1 : ((new.drop r.fd1.pos).take count ++ r.buf.drop count).length = step := by
    rw [List.length_append,List.length_drop]
    omega
  have hfull2 : ((old.drop r.fd2.pos).take count ++ r.buf2.drop count).length = step := by
    rw [List.length_append,List.length_drop]
    omega
  have hint : toInt count = count := toInt_eq (Int.natCast_nonneg _) (by norm_num; omega)
  have hrev := isReved_ok (hcount.trans hfull1.ge) (hcount.trans hfull2.ge)
  rw [htake1,htake2] at hrev
  refine ⟨⟨{ r.fd1 with pos := r.fd1.pos + count },{ r.fd2 with pos := r.fd2.pos + count },
    (new.drop r.fd1.pos).take count ++ r.buf.drop count,
    (old.drop r.fd2.pos).take count ++ r.buf2.drop count⟩,?_,⟨h.file1,h.file2,hfull1,hfull2⟩,rfl,rfl⟩
  simp only [compare,Int.toNat_natCast,hr1,ok_bind,hr2,hint,hrev,pure_eq_ok]
  simp only [mirrored_iff h1 h2,h.file1,h.file2]

structure Matched (new old : List UInt8) (step steps k : Nat) (r : Readers) : Prop extends
    Fed new old step r where
  pos1 : k < steps → r.fd1.pos + (k + 1) * step = new.length
  pos2 : r.fd2.pos = k * step
  same : Mirrored new old (new.length - k * step) 0 (k * step)

theorem matched_init {new old : List UInt8} {step steps left : Nat} {w : Walk}
    (hw : Walked new.length w step steps left) (junk junk2 : Nat → UInt8) :
    Matched new old step steps 0
      ⟨lseek ⟨new,0⟩ (-w.multiplePrintStep) .fromEnd,⟨old,0⟩,
        (List.range w.multiplePrintStep.toNat).map junk,
        (List.range w.multiplePrintStep.toNat).map junk2⟩ := by
  have hcov := hw.covers
  refine ⟨⟨?_,rfl,?_,?_⟩,?_,?_,?_⟩
  · change (lseek ⟨new,0⟩ _ _).bytes = new
    rw [lseek]
    split
    · rfl
    · rfl
  · rw [List.length_map,List.length_range,hw.step_eq]
    exact Int.toNat_natCast step
  · rw [List.length_map,List.length_range,hw.step_eq]
    exact Int.toNat_natCast step
  · intro hk
    have hmul : 1 * step ≤ steps * step := Nat.mul_le_mul_right step hk
    change (lseek ⟨new,0⟩ _ _).pos + _ = _
    rw [lseek,hw.step_eq,Whence.base,if_neg (by simp only []; omega)]
    simp only []
    omega
  · exact (Nat.zero_mul step).symm
  · intro i hi
    omega

theorem lseek_bytes (f : Input) (offset : Int) (c : Whence) : (lseek f offset c).bytes = f.bytes := by
  rw [lseek]
  split
  · rfl
  · rfl

theorem chunk_mirrored {new old : List UInt8} {step steps k : Nat} {r : Readers}
    (h : Matched new old step steps k r) (hk : k < steps) :
    Mirrored new old (new.length - (k + 1) * step) 0 ((k + 1) * step) ↔
      Mirrored new old r.fd1.pos r.fd2.pos step := by
  have hpos := h.pos1 hk
  rw [Nat.succ_mul] at hpos ⊢
  rw [mirrored_add,zero_add,h.pos2,show new.length - (k * step + step) = r.fd1.pos by omega,
    show r.fd1.pos + step = new.length - k * step by omega]
  exact and_iff_right h.same

theorem mirrored_shorter {new old : List UInt8} {a b : Nat} (hab : a ≤ b) (hb : b ≤ new.length)
    (h : Mirrored new old (new.length - b) 0 b) : Mirrored new old (new.length - a) 0 a := by
  intro i hi
  rw [← h i (by omega)]
  congr 1
  omega

theorem chunks_ok {new old : List UInt8} {w : Walk} {step steps left : Nat}
    (hw : Walked new.length w step steps left) (hlen : new.length = old.length) (n : Nat) :
    ∀ {k : Nat} {r : Readers}, k + n = steps → Matched new old step steps k r →
      (chunks w n k r = .ok none ∧
          ¬ Mirrored new old (new.length - steps * step) 0 (steps * step)) ∨
        ∃ r', chunks w n k r = .ok (some r') ∧ Matched new old step steps steps r' := by
  induction n with
  | zero =>
    intro k r hn h
    obtain rfl : k = steps := by omega
    refine .inr ⟨r,?_,h⟩
    rw [chunks,if_neg (by rw [hw.lt_steps]; omega)]
  | succ n ih =>
    intro k r hn h
    have hk : k < steps := by omega
    have hpos := h.pos1 hk
    have hcov := hw.covers
    have hmul : (k + 1) * step ≤ steps * step := Nat.mul_le_mul_right step hk
    have hsucc : (k + 1) * step = k * step + step := Nat.succ_mul k step
    have hpos2 := h.pos2
    obtain ⟨r1,hr1,hfed,hp1,hp2⟩ := compare_ok h.toFed le_rfl hw.step_le (by omega)
      (by rw [hpos2]; omega)
    rw [← hw.step_eq] at hr1
    rw [chunks,if_pos (by rw [hw.lt_steps]; omega),hr1,ok_bind]
    rcases Decidable.em (Mirrored new old r.fd1.pos r.fd2.pos step) with hm | hm
    · have hlt := hw.steps_lt
      have hint : toInt ((k : Int) + 1) = ((k + 1 : Nat) : Int) := by
        rw [toInt_eq (by omega) (by norm_num at hlt ⊢; omega)]
        omega
      simp only [hm,decide_true,if_true,hint]
      refine ih (by omega) ⟨⟨?_,hfed.file2,hfed.buf,hfed.buf2⟩,?_,?_,?_⟩
      · exact (lseek_bytes _ _ _).trans hfed.file1
      · intro hk'
        have hmul' : (k + 1 + 1) * step ≤ steps * step := Nat.mul_le_mul_right step hk'
        have hsucc' : (k + 1 + 1) * step = k * step + step + step := by rw [Nat.succ_mul,hsucc]
        change (lseek r1.fd1 _ _).pos + _ = _
        rw [lseek,hw.step_eq,Whence.base,hp1,if_neg (by omega)]
        simp only []
        omega
      · rw [hp2,hpos2,hsucc]
      · exact (chunk_mirrored h hk).mpr hm
    · left
      refine ⟨by simp [hm],?_⟩
      intro hall
      exact hm ((chunk_mirrored h hk).mp (mirrored_shorter hmul (by omega) hall))

theorem reversed_ok {new old : List UInt8} {step steps left : Nat} (junk junk2 : Nat → UInt8)
    (hw : Walked new.length (walk new.length) step steps left) (hlen : new.length = old.length) :
    reversed (some new) (some old) junk junk2 = .ok 1 ↔
      Mirrored new old (new.length - steps * step) 0 (steps * step) ∧
        Mirrored new old 0 (steps * step) left := by
  have hfuel : (walk new.length).steps.toNat = steps := by
    have h1 := hw.lt_steps steps
    have h2 := hw.lt_steps (steps - 1)
    omega
  have hcov := hw.covers
  rw [reversed,if_neg (not_not.mpr hlen)]
  simp only [hfuel]
  rcases chunks_ok hw hlen steps (zero_add steps) (matched_init hw junk junk2) with
    ⟨hc,hno⟩ | ⟨r,hc,hm⟩
  · rw [Nat.cast_zero] at hc
    rw [hc]
    constructor
    · intro h
      cases h
    · intro h
      exact absurd h.1 hno
  · rw [Nat.cast_zero] at hc
    rw [hc,ok_bind]
    have hseek : lseek r.fd1 0 .set = { r.fd1 with pos := 0 } := rfl
    obtain ⟨r',hr',-⟩ := compare_ok (r := { r with fd1 := lseek r.fd1 0 .set })
      ⟨hm.file1,hm.file2,hm.buf,hm.buf2⟩ hw.left_lt.le hw.step_le
      (by rw [hseek]; simp only []; omega)
      (by simp only [hm.pos2]; omega)
    simp only [hw.left_eq,hr',ok_bind]
    simp only [hseek,hm.pos2]
    rcases Decidable.em (Mirrored new old 0 (steps * step) left) with hl | hl
    · simp [hl,hm.same]
    · simp [hl]

def covered (n : Nat) : Nat := (walk n).steps.toNat * (walk n).multiplePrintStep.toNat

def leftover (n : Nat) : Nat := (walk n).left.toNat

structure Telling (new old : List UInt8) : Prop where
  genuine : new = old.reverse → ∀ i < leftover new.length,
    old[covered new.length + i]? = old[old.length - leftover new.length + i]?
  forged : new ≠ old.reverse →
    (∃ i < covered new.length, new[new.length - 1 - i]? ≠ old[i]?) ∨
      ∃ i < leftover new.length,
        new[leftover new.length - 1 - i]? ≠ old[covered new.length + i]?

theorem Walked.covered_eq {n step steps left : Nat} (hw : Walked n (walk n) step steps left) :
    covered n = steps * step ∧ leftover n = left := by
  have h1 := hw.lt_steps steps
  have h2 := hw.lt_steps (steps - 1)
  have hsteps : (walk n).steps.toNat = steps := by omega
  unfold covered leftover
  rw [hsteps,hw.step_eq,hw.left_eq,Int.toNat_natCast,Int.toNat_natCast]
  exact ⟨rfl,rfl⟩

theorem reversed_eq_one_iff {new old : List UInt8} (junk junk2 : Nat → UInt8)
    (hlen : new.length = old.length) :
    reversed (some new) (some old) junk junk2 = .ok 1 ↔
      Mirrored new old (new.length - covered new.length) 0 (covered new.length) ∧
        Mirrored new old 0 (covered new.length) (leftover new.length) := by
  obtain ⟨step,steps,left,hw⟩ := walked new.length
  rw [hw.covered_eq.1,hw.covered_eq.2]
  exact reversed_ok junk junk2 hw hlen

theorem mirrored_of_reverse {old : List UInt8} {p q count : Nat} (hp : p + count ≤ old.length) :
    Mirrored old.reverse old p q count ↔
      ∀ i < count, old[q + i]? = old[old.length - (p + count) + i]? := by
  apply forall₂_congr
  intro i hi
  rw [List.getElem?_reverse (by omega),eq_comm]
  rw [show old.length - 1 - (p + count - 1 - i) = old.length - (p + count) + i by omega]

theorem not_mirrored_iff {new old : List UInt8} {p q count : Nat} :
    ¬ Mirrored new old p q count ↔ ∃ i < count, new[p + count - 1 - i]? ≠ old[q + i]? := by
  unfold Mirrored
  push Not
  rfl

theorem reversed_iff_telling {new old : List UInt8} (junk junk2 : Nat → UInt8)
    (hlen : new.length = old.length) :
    (reversed (some new) (some old) junk junk2 = .ok 1 ↔ new = old.reverse) ↔ Telling new old := by
  obtain ⟨step,steps,left,hw⟩ := walked new.length
  have hcov := hw.covers
  rw [← hw.covered_eq.1,← hw.covered_eq.2] at hcov
  have hfirst : new.length - covered new.length + covered new.length = new.length := by omega
  rw [reversed_eq_one_iff junk junk2 hlen]
  rcases Decidable.em (new = old.reverse) with rfl | hne
  · rw [List.length_reverse] at *
    have hall : Mirrored old.reverse old (old.length - covered old.length) 0
        (covered old.length) := by
      rw [mirrored_of_reverse (by omega)]
      intro i _
      rw [hfirst,Nat.sub_self]
    have hrest : Mirrored old.reverse old 0 (covered old.length) (leftover old.length) ↔ _ :=
      mirrored_of_reverse (by omega)
    rw [zero_add] at hrest
    rw [hrest]
    constructor
    · intro h
      refine ⟨?_,fun hno => absurd rfl hno⟩
      rw [List.length_reverse]
      exact fun _ => (h.mpr rfl).2
    · intro h
      have hg := h.genuine rfl
      rw [List.length_reverse] at hg
      exact ⟨fun _ => rfl,fun _ => ⟨hall,hg⟩⟩
  · have hex : ¬ Mirrored new old (new.length - covered new.length) 0 (covered new.length) ↔ _ :=
      not_mirrored_iff
    have hex' : ¬ Mirrored new old 0 (covered new.length) (leftover new.length) ↔ _ :=
      not_mirrored_iff
    simp only [hfirst,zero_add] at hex hex'
    constructor
    · intro h
      refine ⟨fun he => absurd he hne,fun _ => ?_⟩
      rw [← hex,← hex',← not_and_or]
      exact fun hm => hne (h.mp hm)
    · intro h
      have hf := h.forged hne
      rw [← hex,← hex',← not_and_or] at hf
      exact ⟨fun hm => absurd hm hf,fun he => absurd he hne⟩

theorem telling_of_small {new old : List UInt8} (hlen : new.length = old.length)
    (hsmall : new.length < 2 ^ 31) : Telling new old := by
  obtain ⟨step,steps,left,hw⟩ := walked new.length
  have hexact := hw.exact hsmall
  rw [← hw.covered_eq.1,← hw.covered_eq.2] at hexact
  have hadd := mirrored_add new old 0 0 (covered new.length) (leftover new.length)
  rw [hexact,zero_add,zero_add] at hadd
  rw [← reversed_iff_telling (fun _ => 0) (fun _ => 0) hlen,
    reversed_eq_one_iff _ _ hlen,eq_reverse_iff hlen,hadd,
    show new.length - covered new.length = leftover new.length by omega]

theorem reversed_checks_iff (new old : List UInt8) (junk junk2 : Nat → UInt8) :
    (reversed (some new) (some old) junk junk2 = .ok 1 ↔ new = old.reverse) ↔
      new.length ≠ old.length ∨ new.length < 2 ^ 31 ∨ Telling new old := by
  rcases eq_or_ne new.length old.length with hlen | hlen
  · rw [reversed_iff_telling junk junk2 hlen]
    constructor
    · exact fun h => .inr (.inr h)
    · rintro (h | h | h)
      · exact absurd hlen h
      · exact telling_of_small hlen h
      · exact h
  · have hno : new ≠ old.reverse := by
      rintro rfl
      exact hlen List.length_reverse
    rw [reversed,if_pos hlen]
    constructor
    · exact fun _ => .inl hlen
    · intro _
      constructor
      · intro h
        cases h
      · exact fun h => absurd h hno

theorem reversed_accepts_unequal :
    reversed (some (List.replicate (2 ^ 31) 97)) (some (List.replicate (2 ^ 31) 98))
        (fun _ => 0) (fun _ => 0) = .ok 1 ∧
      (List.replicate (2 ^ 31) 97 : List UInt8) ≠ (List.replicate (2 ^ 31) 98).reverse := by
  have hneg : toInt ((2 ^ 31 : Nat) : Int) < 0 := by
    unfold toInt Int.bmod
    norm_num
  have hw : Walked (List.replicate (2 ^ 31) (97 : UInt8)).length
      (walk (List.replicate (2 ^ 31) (97 : UInt8)).length) 1 0 0 := by
    rw [List.length_replicate]
    exact walked_of_neg hneg
  have hlen : (List.replicate (2 ^ 31) (97 : UInt8)).length =
      (List.replicate (2 ^ 31) (98 : UInt8)).length := by
    rw [List.length_replicate,List.length_replicate]
  constructor
  · rw [reversed_ok _ _ hw hlen]
    exact ⟨fun i hi => by omega,fun i hi => by omega⟩
  · rw [List.reverse_replicate]
    intro h
    have h0 := congrArg List.head? h
    rw [List.head?_replicate,List.head?_replicate] at h0
    simp at h0

end Reversal.Checker
