import Mathlib.Tactic
import OscAssignments.Lib.Runs

namespace Reversal
open Runs

inductive Fault where
  | bufferOverrun
  | divideByZero
  | outOfFuel
  deriving DecidableEq

inductive Whence where
  | set
  | cur
  | fromEnd
  deriving DecidableEq

structure Input where
  bytes : List UInt8
  pos : Nat

abbrev Buffer := List UInt8

def Whence.base (f : Input) : Whence → Int
  | .set => 0
  | .cur => f.pos
  | .fromEnd => f.bytes.length

def lseek (f : Input) (offset : Int) (w : Whence) : Input :=
  if w.base f + offset < 0 then f else { f with pos := (w.base f + offset).toNat }

def read (f : Input) (buf : Buffer) (count : Nat) : Except Fault (Input × Buffer) :=
  if buf.length < count then .error .bufferOverrun
  else
    let got := (f.bytes.drop f.pos).take count
    .ok ({ f with pos := f.pos + got.length },got ++ buf.drop got.length)

def write (out : List UInt8) (buf : Buffer) (count : Nat) : Except Fault (List UInt8) :=
  if buf.length < count then .error .bufferOverrun else .ok (out ++ buf.take count)

def load (buf : Buffer) (i : Int) : Except Fault UInt8 :=
  if 0 ≤ i then
    match buf[i.toNat]? with
    | some x => .ok x
    | none => .error .bufferOverrun
  else .error .bufferOverrun

def store (buf : Buffer) (i : Int) (x : UInt8) : Except Fault Buffer :=
  if 0 ≤ i ∧ i < buf.length then .ok (buf.set i.toNat x) else .error .bufferOverrun

def swap (str : Buffer) (i j : Int) : Except Fault Buffer := do
  let t ← load str i
  let x ← load str j
  let str ← store str i x
  store str j t

def reverseFrom (str : Buffer) (i j : Int) : Except Fault Buffer :=
  if i ≤ j then do
    let str ← swap str i j
    reverseFrom str (i + 1) (j - 1)
  else .ok str
termination_by (j - i + 1).toNat

def reverse (str : Buffer) (len : Int) : Except Fault Buffer := reverseFrom str 0 (len - 1)

def toInt (x : Int) : Int := Int.bmod x (2 ^ 32)

def min (a b : Int) : Int := if toInt a < toInt b then toInt a else toInt b

def max (x y : Int) : Int := if x > y then x else y

structure Plan where
  fileSize : Int
  multiplePrintStep : Int
  steps : Int
  updateStep : Int

def plan (fileSize : Int) : Plan :=
  let multiplePrintStep := max (min (fileSize / 1000) 1000000) 1
  let steps := fileSize / multiplePrintStep
  { fileSize, multiplePrintStep, steps, updateStep := max 1 (steps / 100) }

structure Job where
  fdIn : Input
  buf : Buffer
  fdOut : List UInt8
  progress : List Int

def divide (x y : Int) : Except Fault Int := if y = 0 then .error .divideByZero else .ok (x / y)

def remainder (x y : Int) : Except Fault Int := if y = 0 then .error .divideByZero else .ok (x % y)

def writeProgress (p : Plan) (i : Int) (job : Job) : Except Fault Job := do
  let rem ← remainder i p.updateStep
  if rem = 0 then do
    let percent ← divide (i * p.multiplePrintStep * 100) p.fileSize
    pure { job with progress := job.progress ++ [percent] }
  else pure job

def chunk (p : Plan) (i : Int) (job : Job) : Except Fault Job := do
  let (fdIn,buf) ← read job.fdIn job.buf p.multiplePrintStep.toNat
  let buf ← reverse buf (toInt p.multiplePrintStep)
  let fdOut ← write job.fdOut buf p.multiplePrintStep.toNat
  let fdIn := lseek fdIn (-2 * p.multiplePrintStep) .cur
  writeProgress p i { job with fdIn, buf, fdOut }

def chunks (p : Plan) : Nat → Int → Job → Except Fault Job
  | 0, i, job => if i < p.steps then .error .outOfFuel else .ok job
  | n + 1, i, job =>
    if i < p.steps then do
      let job ← chunk p i job
      chunks p n (toInt (i + 1)) job
    else .ok job

def rest (p : Plan) (job : Job) : Except Fault Job := do
  let left := toInt (p.fileSize - p.steps * p.multiplePrintStep)
  let fdIn := lseek job.fdIn 0 .set
  let (fdIn,buf) ← read fdIn job.buf left.toNat
  let buf ← reverse buf left
  let fdOut ← write job.fdOut buf left.toNat
  pure { fdIn, buf, fdOut, progress := job.progress ++ [100] }

def reverseFile (bytes : List UInt8) (junk : Nat → UInt8) : Except Fault Job := do
  let p := plan bytes.length
  let buf := (List.range p.multiplePrintStep.toNat).map junk
  let fdIn := lseek ⟨bytes,0⟩ (-p.multiplePrintStep) .fromEnd
  let job ← chunks p p.steps.toNat 0 { fdIn, buf, fdOut := [], progress := [] }
  rest p job

theorem load_ok {buf : Buffer} {i : Nat} (h : i < buf.length) : load buf i = .ok buf[i] := by
  rw [load,if_pos (by omega),Int.toNat_natCast,List.getElem?_eq_getElem h]

theorem store_ok {buf : Buffer} {i : Nat} (h : i < buf.length) (x : UInt8) :
    store buf i x = .ok (buf.set i x) := by
  rw [store,if_pos ⟨by omega,by omega⟩,Int.toNat_natCast]

theorem swap_ok {buf : Buffer} {i j : Nat} (hi : i < buf.length) (hj : j < buf.length) :
    swap buf i j = .ok ((buf.set i buf[j]).set j buf[i]) := by
  rw [swap,load_ok hi,ok_bind,load_ok hj,ok_bind,store_ok hi,ok_bind,
    store_ok (by rw [List.length_set]; exact hj)]

theorem getElem?_swapped {buf : Buffer} {i j k : Nat} (hi : i < buf.length) (hj : j < buf.length) :
    ((buf.set i buf[j]).set j buf[i])[k]? =
      if k = j then buf[i]? else if k = i then buf[j]? else buf[k]? := by
  grind

def mirrored (buf : Buffer) (i n k : Nat) : Option UInt8 :=
  if i ≤ k ∧ k < i + n then buf[2 * i + n - 1 - k]? else buf[k]?

theorem reverseFrom_succ {buf : Buffer} {i n : Nat} (hn : 0 < n) (h : i + n ≤ buf.length) :
    reverseFrom buf i (i + n - 1) =
      reverseFrom ((buf.set i buf[i + n - 1]).set (i + n - 1) buf[i]) (i + 1) (i + n - 1 - 1) := by
  have hj : ((i : Int) + n - 1) = ((i + n - 1 : Nat) : Int) := by omega
  rw [reverseFrom,if_pos (by omega),hj,swap_ok (by omega) (by omega),ok_bind]

theorem reverseFrom_ok (n : Nat) : ∀ (buf : Buffer) (i : Nat), i + n ≤ buf.length →
    ∃ r, reverseFrom buf i (i + n - 1) = .ok r ∧ r.length = buf.length ∧
      ∀ k, r[k]? = mirrored buf i n k := by
  induction n using Nat.strong_induction_on with
  | h n ih =>
    intro buf i hn
    rcases Nat.eq_zero_or_pos n with rfl | hpos
    · refine ⟨buf,?_,rfl,?_⟩
      · rw [reverseFrom,if_neg (by omega)]
      · intro k
        rw [mirrored,if_neg (by omega)]
    · rw [reverseFrom_succ hpos hn]
      generalize hb : (buf.set i buf[i + n - 1]).set (i + n - 1) buf[i] = b
      have hblen : b.length = buf.length := by
        rw [← hb,List.length_set,List.length_set]
      have hbk : ∀ k, b[k]? =
          if k = i + n - 1 then buf[i]? else if k = i then buf[i + n - 1]? else buf[k]? := by
        intro k
        rw [← hb]
        exact getElem?_swapped (by omega) (by omega)
      rcases Nat.lt_or_ge n 2 with h2 | h2
      · obtain rfl : n = 1 := by omega
        refine ⟨b,?_,hblen,?_⟩
        · rw [reverseFrom,if_neg (by omega)]
        · intro k
          rw [hbk,mirrored]
          split
          · next hk => rw [if_pos (by omega),hk]; congr 1; omega
          · next hk => rw [if_neg (by omega),if_neg (by omega)]
      · obtain ⟨r,hr,hlen,hk⟩ := ih (n - 2) (by omega) b (i + 1) (by omega)
        have hcast : ((i + 1 : Nat) : Int) + ((n - 2 : Nat) : Int) - 1 = i + n - 1 - 1 := by omega
        rw [hcast,Nat.cast_add,Nat.cast_one] at hr
        refine ⟨r,hr,hlen.trans hblen,?_⟩
        intro k
        rw [hk,mirrored,mirrored,hbk,hbk]
        split
        · next h => rw [if_neg (by omega),if_neg (by omega),if_pos (by omega)]; congr 1; omega
        · next h =>
          split
          · next h' => rw [if_pos (by omega)]; congr 1; omega
          · next h' =>
            split
            · next h'' => rw [if_pos (by omega)]; congr 1; omega
            · next h'' => rw [if_neg (by omega)]

theorem reverse_ok {buf : Buffer} {len : Nat} (h : len ≤ buf.length) :
    reverse buf len = .ok ((buf.take len).reverse ++ buf.drop len) := by
  obtain ⟨r,hr,hlen,hk⟩ := reverseFrom_ok len buf 0 (by omega)
  rw [reverse]
  simp only [Nat.cast_zero,zero_add] at hr
  rw [hr]
  congr 1
  apply List.ext_getElem?
  intro k
  rw [hk,mirrored]
  rcases Nat.lt_or_ge k len with hlt | hge
  · rw [if_pos (by omega),List.getElem?_append_left (by simp; omega),
      List.getElem?_reverse (by simp; omega),List.getElem?_take_of_lt (by simp; omega)]
    congr 1
    simp
    omega
  · rw [if_neg (by omega),List.getElem?_append_right (by simp; omega),List.getElem?_drop]
    congr 1
    simp
    omega

theorem toInt_le {x : Int} (h : 0 ≤ x) : toInt x ≤ x := by
  unfold toInt Int.bmod
  norm_num
  omega

theorem toInt_lt (x : Int) : toInt x < 2 ^ 31 := by
  unfold toInt Int.bmod
  norm_num
  omega

theorem toInt_eq {x : Int} (h0 : 0 ≤ x) (h : x < 2 ^ 31) : toInt x = x := by
  unfold toInt Int.bmod
  norm_num at h ⊢
  omega

structure Planned (n : Nat) (p : Plan) (step steps : Nat) : Prop where
  fileSize : p.fileSize = n
  step_eq : p.multiplePrintStep = step
  steps_eq : p.steps = steps
  step_pos : 0 < step
  step_le : step ≤ 1000000
  steps_lt : steps < 2 ^ 31
  covers : steps * step ≤ n
  fits : n < (steps + 1) * step
  updateStep : 0 < p.updateStep

theorem max_pos (x : Int) : 0 < max x 1 ∧ 0 < max 1 x := by
  unfold max
  split
  · split
    · omega
    · omega
  · split
    · omega
    · omega

theorem clamp_cases {n step : Nat}
    (hs : max (if (n : Int) / 1000 < 1000000 then (n : Int) / 1000 else 1000000) 1 = step) :
    (step = 1 ∧ n < 2000) ∨ (1 < step ∧ step < 1000000 ∧ n < 1000 * (step + 1)) ∨
      (step = 1000000 ∧ 1000000000 ≤ n) := by
  unfold max at hs
  split at hs
  · split at hs
    · omega
    · omega
  · split at hs
    · omega
    · omega

theorem steps_lt_of_step {n step : Nat} (h : (n : Int) / 1000 < 2 ^ 31)
    (hs : max (min ((n : Int) / 1000) 1000000) 1 = step) : n / step < 2 ^ 31 := by
  rw [min,toInt_eq (by omega) h,toInt_eq (by norm_num) (by norm_num)] at hs
  rcases clamp_cases hs with ⟨rfl,hn⟩ | ⟨h1,-,hn⟩ | ⟨rfl,hn⟩
  · rw [Nat.div_one]
    omega
  · have hlt : n / step < 2000 := by
      rw [Nat.div_lt_iff_lt_mul (by omega)]
      omega
    omega
  · omega

theorem step_bounds (x : Int) :
    ∃ step : Nat, max (min x 1000000) 1 = step ∧ 0 < step ∧ step ≤ 1000000 := by
  have hpos := (max_pos (min x 1000000)).1
  obtain ⟨step,hs⟩ := Int.eq_ofNat_of_zero_le hpos.le
  refine ⟨step,hs,by omega,?_⟩
  have hmin : min x 1000000 ≤ 1000000 := by
    rw [min,toInt_eq (x := 1000000) (by norm_num) (by norm_num)]
    split
    · omega
    · omega
  unfold max at hs
  split at hs
  · omega
  · omega

theorem planned_of_steps {n : Nat} (h : (plan n).steps < 2 ^ 31) :
    ∃ step steps, Planned n (plan n) step steps := by
  obtain ⟨step,hs,hpos,hle⟩ := step_bounds ((n : Int) / 1000)
  have hsteps : (plan n).steps = ((n / step : Nat) : Int) := by
    simp only [plan,hs]
    exact (Int.natCast_div n step).symm
  refine ⟨step,n / step,?_,?_,hsteps,hpos,hle,?_,Nat.div_mul_le_self n step,?_,?_⟩
  · simp only [plan]
  · simp only [plan,hs]
  · rw [hsteps] at h
    exact_mod_cast h
  · rw [Nat.mul_comm]
    exact Nat.lt_mul_div_succ n hpos
  · simp only [plan]
    exact (max_pos _).2

theorem planned {n : Nat} (h : (n : Int) / 1000 < 2 ^ 31) :
    ∃ step steps, Planned n (plan n) step steps := by
  obtain ⟨step,hs,-,-⟩ := step_bounds ((n : Int) / 1000)
  apply planned_of_steps
  simp only [plan,hs]
  rw [← Int.natCast_div]
  exact_mod_cast steps_lt_of_step h hs

theorem read_ok {f : Input} {buf : Buffer} {count : Nat} (hbuf : count ≤ buf.length)
    (hfile : f.pos + count ≤ f.bytes.length) :
    read f buf count = .ok ({ f with pos := f.pos + count },
      (f.bytes.drop f.pos).take count ++ buf.drop count) := by
  have hlen : ((f.bytes.drop f.pos).take count).length = count := by
    rw [List.length_take,List.length_drop]
    omega
  simp only [read,if_neg (not_lt.mpr hbuf),hlen]

theorem write_ok {out : List UInt8} {buf : Buffer} {count : Nat} (h : count ≤ buf.length) :
    write out buf count = .ok (out ++ buf.take count) := by
  rw [write,if_neg (not_lt.mpr h)]

theorem writeProgress_ok {n step steps : Nat} {p : Plan} (hp : Planned n p step steps) (hn : 0 < n)
    (i : Int) (job : Job) :
    ∃ progress, writeProgress p i job = .ok { job with progress } := by
  have hu : p.updateStep ≠ 0 := hp.updateStep.ne'
  have hf : p.fileSize ≠ 0 := by
    rw [hp.fileSize]
    omega
  simp only [writeProgress,remainder,if_neg hu,ok_bind,divide,if_neg hf]
  split
  · exact ⟨_,rfl⟩
  · exact ⟨job.progress,rfl⟩

structure Reversed (bytes : List UInt8) (step steps k : Nat) (job : Job) : Prop where
  file : job.fdIn.bytes = bytes
  pos : k < steps → job.fdIn.pos + (k + 1) * step = bytes.length
  buf : job.buf.length = step
  out : job.fdOut = (bytes.drop (bytes.length - k * step)).reverse

theorem take_append_written {bytes : List UInt8} {pos step m : Nat} (h : pos + step = m) :
    ((bytes.drop m).reverse ++ ((bytes.drop pos).take step).reverse) = (bytes.drop pos).reverse := by
  rw [← List.reverse_append,← h,← List.drop_drop,List.take_append_drop]

theorem transfer_ok (f : Input) {buf : Buffer} {count : Nat} (out : List UInt8)
    (hbuf : count ≤ buf.length) (hfile : f.pos + count ≤ f.bytes.length) :
    ∃ b b', read f buf count = .ok ({ f with pos := f.pos + count },b) ∧
      reverse b count = .ok b' ∧ b'.length = buf.length ∧
      write out b' count = .ok (out ++ ((f.bytes.drop f.pos).take count).reverse) := by
  generalize hgot : (f.bytes.drop f.pos).take count = got
  have hlen : got.length = count := by
    rw [← hgot,List.length_take,List.length_drop]
    omega
  have hb : (got ++ buf.drop count).length = buf.length := by
    rw [List.length_append,List.length_drop]
    omega
  have htake : (got ++ buf.drop count).take count = got := by
    rw [← hlen,List.take_left]
  have hdrop : (got ++ buf.drop count).drop count = buf.drop count := by
    rw [List.drop_append_of_le_length (by omega),List.drop_eq_nil_of_le (by omega),
      List.nil_append]
  refine ⟨got ++ buf.drop count,got.reverse ++ buf.drop count,?_,?_,?_,?_⟩
  · rw [read_ok hbuf hfile,hgot]
  · rw [reverse_ok (by omega),htake,hdrop]
  · rw [List.length_append,List.length_reverse,List.length_drop]
    omega
  · rw [write_ok (by simp; omega)]
    congr 2
    have hrev : got.reverse.length = count := by rw [List.length_reverse,hlen]
    rw [← hrev,List.take_left]

theorem chunk_ok {bytes : List UInt8} {p : Plan} {step steps k : Nat}
    (hp : Planned bytes.length p step steps) (hk : k < steps) {job : Job}
    (h : Reversed bytes step steps k job) :
    ∃ job', chunk p k job = .ok job' ∧ Reversed bytes step steps (k + 1) job' := by
  have hpos := h.pos hk
  have hstep := hp.step_pos
  have hle := hp.step_le
  have hsucc : (k + 1) * step = k * step + step := Nat.succ_mul k step
  have hsucc' : (k + 1 + 1) * step = k * step + step + step := by rw [Nat.succ_mul,hsucc]
  obtain ⟨b,b',hr,hrev,hb,hw⟩ := transfer_ok job.fdIn job.fdOut h.buf.ge
    (by rw [h.file]; omega)
  have htoInt : toInt p.multiplePrintStep = step := by
    rw [hp.step_eq]
    exact toInt_eq (by omega) (by norm_num; omega)
  have hcount : p.multiplePrintStep.toNat = step := by
    rw [hp.step_eq]
    exact Int.toNat_natCast step
  have hn : 0 < bytes.length := by omega
  simp only [chunk,hcount,htoInt,hr,ok_bind,hrev,hw]
  generalize hf : lseek { job.fdIn with pos := job.fdIn.pos + step } (-2 * p.multiplePrintStep) .cur = f
  obtain ⟨progress,hprog⟩ := writeProgress_ok hp hn k
    { job with fdIn := f, buf := b', fdOut := job.fdOut ++
      ((job.fdIn.bytes.drop job.fdIn.pos).take step).reverse }
  refine ⟨_,hprog,?_,?_,?_,?_⟩
  · change f.bytes = bytes
    rw [← hf,lseek]
    split
    · exact h.file
    · exact h.file
  · intro hk'
    have hcov : (k + 1 + 1) * step ≤ steps * step := Nat.mul_le_mul_right step hk'
    have := hp.covers
    change f.pos + (k + 1 + 1) * step = bytes.length
    rw [← hf,lseek,hp.step_eq,Whence.base,if_neg (by simp only []; omega)]
    simp only []
    omega
  · exact hb.trans h.buf
  · change job.fdOut ++ _ = _
    rw [h.out,h.file]
    have he : bytes.length - (k + 1) * step = job.fdIn.pos := by omega
    rw [he]
    exact take_append_written (by omega)

theorem chunks_ok {bytes : List UInt8} {p : Plan} {step steps : Nat}
    (hp : Planned bytes.length p step steps) (n : Nat) {k : Nat} (hn : k + n = steps) {job : Job}
    (h : Reversed bytes step steps k job) :
    ∃ job', chunks p n k job = .ok job' ∧ Reversed bytes step steps steps job' := by
  induction n generalizing k job with
  | zero =>
    obtain rfl : k = steps := by omega
    refine ⟨job,?_,h⟩
    rw [chunks,hp.steps_eq,if_neg (lt_irrefl _)]
  | succ n ih =>
    obtain ⟨job1,h1,hr1⟩ := chunk_ok hp (by omega) h
    obtain ⟨job2,h2,hr2⟩ := ih (k := k + 1) (by omega) hr1
    refine ⟨job2,?_,hr2⟩
    have hlt := hp.steps_lt
    have hint : toInt ((k : Int) + 1) = ((k + 1 : Nat) : Int) := by
      rw [toInt_eq (by omega) (by omega)]
      omega
    rw [chunks,hp.steps_eq,if_pos (by omega),h1,ok_bind,hint]
    exact h2

theorem rest_ok {bytes : List UInt8} {p : Plan} {step steps : Nat}
    (hp : Planned bytes.length p step steps) {job : Job} (h : Reversed bytes step steps steps job) :
    ∃ job', rest p job = .ok job' ∧ job'.fdOut = bytes.reverse := by
  have hcov := hp.covers
  have hfit := hp.fits
  have hle := hp.step_le
  rw [Nat.succ_mul] at hfit
  obtain ⟨left,hleft⟩ : ∃ left, left + steps * step = bytes.length :=
    ⟨bytes.length - steps * step,by omega⟩
  have hint : toInt (p.fileSize - p.steps * p.multiplePrintStep) = left := by
    have he : p.fileSize - p.steps * p.multiplePrintStep = left := by
      rw [hp.fileSize,hp.steps_eq,hp.step_eq,← hleft]
      push_cast
      omega
    rw [he]
    exact toInt_eq (by omega) (by norm_num; omega)
  have hseek : lseek job.fdIn 0 .set = { job.fdIn with pos := 0 } := rfl
  have hbuf : left ≤ job.buf.length := by
    rw [h.buf]
    omega
  have hfile : 0 + left ≤ job.fdIn.bytes.length := by
    rw [h.file]
    omega
  obtain ⟨b,b',hr,hrev,-,hw⟩ := transfer_ok { job.fdIn with pos := 0 } job.fdOut hbuf hfile
  simp only [rest,hint,hseek,Int.toNat_natCast,hr,ok_bind,hrev,hw,pure_eq_ok]
  refine ⟨_,rfl,?_⟩
  change job.fdOut ++ _ = _
  have he : bytes.length - steps * step = left := by omega
  rw [h.out,h.file,he]
  exact take_append_written (by omega)

theorem reversed_init {bytes : List UInt8} {p : Plan} {step steps : Nat}
    (hp : Planned bytes.length p step steps) (junk : Nat → UInt8) :
    Reversed bytes step steps 0 ⟨lseek ⟨bytes,0⟩ (-p.multiplePrintStep) .fromEnd,
      (List.range p.multiplePrintStep.toNat).map junk,[],[]⟩ := by
  have hcov := hp.covers
  refine ⟨?_,?_,?_,?_⟩
  · change (lseek ⟨bytes,0⟩ _ _).bytes = bytes
    rw [lseek]
    split
    · rfl
    · rfl
  · intro hk
    have hmul : 1 * step ≤ steps * step := Nat.mul_le_mul_right step hk
    change (lseek ⟨bytes,0⟩ _ _).pos + _ = _
    rw [lseek,hp.step_eq,Whence.base,if_neg (by simp only []; omega)]
    simp only []
    omega
  · rw [List.length_map,List.length_range,hp.step_eq]
    exact Int.toNat_natCast step
  · simp

theorem reverseFile_of_planned {bytes : List UInt8} {step steps : Nat}
    (hp : Planned bytes.length (plan bytes.length) step steps) (junk : Nat → UInt8) :
    ∃ job, reverseFile bytes junk = .ok job ∧ job.fdOut = bytes.reverse := by
  obtain ⟨job1,h1,hr1⟩ := chunks_ok hp steps (zero_add steps) (reversed_init hp junk)
  obtain ⟨job2,h2,hout⟩ := rest_ok hp hr1
  refine ⟨job2,?_,hout⟩
  have hsteps : (plan bytes.length).steps.toNat = steps := by
    rw [hp.steps_eq]
    exact Int.toNat_natCast steps
  simp only [reverseFile,hsteps]
  rw [Nat.cast_zero] at h1
  rw [h1,ok_bind]
  exact h2

theorem reverseFile_reverses (bytes : List UInt8) (junk : Nat → UInt8)
    (h : (bytes.length : Int) / 1000 < 2 ^ 31) :
    ∃ job, reverseFile bytes junk = .ok job ∧ job.fdOut = bytes.reverse := by
  obtain ⟨step,steps,hp⟩ := planned h
  exact reverseFile_of_planned hp junk

theorem reverseFile_reverses_abc :
    ((3 : Int) / 1000 < 2 ^ 31) ∧
      ∃ job, reverseFile [97,98,99] (fun _ => 0) = .ok job ∧ job.fdOut = [99,98,97] :=
  ⟨by decide,reverseFile_reverses [97,98,99] (fun _ => 0) (by decide)⟩

end Reversal
