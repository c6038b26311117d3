import Mathlib.Tactic
import Mathlib.Data.Rat.Floor
import OscAssignments.Shell.Descriptors

namespace Shell
namespace Cron
open Descriptors

def int (x : Int) : Int := x.bmod (2 ^ 32)

def atoiInt (s : Bytes) : Int := int (max (-(2 ^ 63)) (min (2 ^ 63 - 1) (atoi s)))

structure Needs where
  command : Bool := false
  interval : Bool := false
  time : Bool := false

structure Options where
  needs : Needs := {}
  cmd : Bytes := []
  interval : Int := -1
  time : Int := -1

def takeArg (o : Options) (arg : Bytes) : Except Fault Options :=
  if arg = ascii ['-','c'] then .ok { o with needs := { o.needs with command := true } }
  else if arg = ascii ['-','t'] then
    .ok { o with needs := { o.needs with command := false, interval := true } }
  else if arg = ascii ['-','p'] then
    .ok { o with needs := { o.needs with command := false, time := true } }
  else
    let cmd := if o.needs.command then o.cmd ++ arg ++ [32] else o.cmd
    if 1000 ≤ cmd.length then .error .outOfBounds
    else .ok
      { needs := { o.needs with interval := false, time := false }
        cmd := cmd
        interval := if o.needs.interval then atoiInt arg else o.interval
        time := if o.needs.time then atoiInt arg else o.time }

structure Job where
  cmd : Bytes
  interval : Int
  time : Int
  deriving DecidableEq

def cronjobParse (args : List Bytes) : Except Fault (Option Job) := do
  let o ← args.foldlM takeArg {}
  .ok (if o.cmd = [] ∨ o.interval = -1 ∨ o.time = -1 then none
    else some ⟨o.cmd,o.interval,o.time⟩)

inductive Ran
  | returned
  | exited
  | hangs
  deriving DecidableEq

structure Clock where
  ran : Nat → Ran
  left : Nat → Nat

structure Trace where
  slept : Nat := 0
  executed : Nat := 0
  deriving DecidableEq

def Ran.resume : Ran → Trace → Option Trace → Option Trace
  | .returned, _, rest => rest
  | .exited, t, _ => some t
  | .hangs, _, _ => none

def cronLoop (w : Clock) (interval time : Int) : Nat → Int → Trace → Option Trace
  | 0, _, _ => none
  | n + 1, curr, t =>
    if curr < time then
      let sleepTime := if int (time - curr) ≤ interval then int (time - curr) else interval
      let seconds := (sleepTime % 2 ^ 32).toNat
      let t' : Trace := ⟨t.slept + (seconds - w.left t.executed),t.executed + 1⟩
      (w.ran t.executed).resume t' (cronLoop w interval time n (int (curr + sleepTime)) t')
    else some t

def cronJob (w : Clock) (job : Job) (n : Nat) : Option Trace :=
  cronLoop w job.interval job.time n 0 {}

def Punctual (w : Clock) (job : Job) : Prop :=
  ∃ n t, cronJob w job n = some t ∧ (t.slept : Int) = max job.time 0 ∧
    (t.executed : Int) = if job.time ≤ 0 then 0 else ⌈(job.time : ℚ) / job.interval⌉

structure Steady (w : Clock) (job : Job) : Prop where
  interval : 0 < job.interval
  slept : ∀ k : Nat, k * job.interval < job.time → w.left k = 0
  returned : ∀ k : Nat, (k + 1) * job.interval < job.time → w.ran k = .returned
  ended : ∀ k : Nat, k * job.interval < job.time → w.ran k ≠ .hangs

theorem int_eq {x : Int} (hl : -(2 ^ 31) ≤ x) (hr : x < 2 ^ 31) : int x = x := by
  unfold int
  rw [Int.bmod_def]
  omega

theorem int_bounds (x : Int) : -(2 ^ 31) ≤ int x ∧ int x < 2 ^ 31 := by
  unfold int
  rw [Int.bmod_def]
  omega

structure Ranged (o : Options) : Prop where
  interval : -(2 ^ 31) ≤ o.interval ∧ o.interval < 2 ^ 31
  time : -(2 ^ 31) ≤ o.time ∧ o.time < 2 ^ 31

theorem takeArg_ranged {o o' : Options} {arg : Bytes} (h : Ranged o) (ho : takeArg o arg = .ok o') :
    Ranged o' := by
  unfold takeArg at ho
  split at ho
  · cases ho
    exact ⟨h.interval,h.time⟩
  · split at ho
    · cases ho
      exact ⟨h.interval,h.time⟩
    · split at ho
      · cases ho
        exact ⟨h.interval,h.time⟩
      · simp only at ho
        generalize (if o.needs.command = true then o.cmd ++ arg ++ [32] else o.cmd) = cmd at ho
        split at ho
        · cases ho
        · cases ho
          refine ⟨?_,?_⟩
          · simp only
            split
            · exact int_bounds _
            · exact h.interval
          · simp only
            split
            · exact int_bounds _
            · exact h.time

theorem takeArgs_ranged {o' : Options} (args : List Bytes) {o : Options} (h : Ranged o)
    (ho : args.foldlM takeArg o = .ok o') : Ranged o' := by
  induction args generalizing o with
  | nil =>
    cases ho
    exact h
  | cons arg args ih =>
    rw [List.foldlM_cons] at ho
    rcases harg : takeArg o arg with e | o1
    · rw [harg] at ho
      cases ho
    · rw [harg] at ho
      exact ih (takeArg_ranged h harg) ho

theorem time_lt_of_accepted {args : List Bytes} {job : Job} (h : cronjobParse args = .ok (some job)) :
    job.time < 2 ^ 31 := by
  unfold cronjobParse at h
  rcases ho : args.foldlM takeArg {} with e | o
  · rw [ho] at h
    cases h
  · rw [ho] at h
    have hr : Ranged o := takeArgs_ranged args ⟨by decide,by decide⟩ ho
    change Except.ok (if _ then none else some _) = _ at h
    split at h
    · cases h
    · cases h
      exact hr.time.2

section Rounds
variable {w : Clock} {i time : Int}

theorem cronLoop_round (hi : 0 < i) (ht : time < 2 ^ 31) {k : Nat} (hk : k * i < time) (n s : Nat) :
    cronLoop w i time (n + 1) (k * i) ⟨s,k⟩ =
      (w.ran k).resume ⟨s + ((min ((k + 1) * i) time - k * i).toNat - w.left k),k + 1⟩
        (cronLoop w i time n (min ((k + 1) * i) time)
          ⟨s + ((min ((k + 1) * i) time - k * i).toNat - w.left k),k + 1⟩) := by
  have h0 : 0 ≤ k * i := by positivity
  have hdiff : int (time - k * i) = time - k * i := int_eq (by omega) (by omega)
  have hsucc : (k + 1 : Int) * i = k * i + i := by ring
  have hsleep : (if time - k * i ≤ i then time - k * i else i) = min ((k + 1) * i) time - k * i := by
    split <;> omega
  have hmod : (min ((k + 1) * i) time - k * i) % 2 ^ 32 = min ((k + 1) * i) time - k * i :=
    Int.emod_eq_of_lt (by omega) (by omega)
  rw [cronLoop,if_pos hk]
  simp only [hdiff,hsleep,hmod]
  rw [add_sub_cancel,int_eq (by omega) (by omega)]

theorem cronLoop_end {curr : Int} (h : time ≤ curr) (n : Nat) (t : Trace) :
    cronLoop w i time (n + 1) curr t = some t := by
  rw [cronLoop,if_neg (by omega)]

theorem resume_eq_some {r : Ran} {t c : Trace} {rest : Option Trace}
    (h : r.resume t rest = some c) :
    (r = .returned ∧ rest = some c) ∨ (r = .exited ∧ t = c) := by
  cases r with
  | returned => exact .inl ⟨rfl,h⟩
  | exited =>
    cases h
    exact .inr ⟨rfl,rfl⟩
  | hangs => cases h

structure Sound (w : Clock) (rounds j : Nat) : Prop where
  slept : w.left j = 0
  ended : w.ran j ≠ .hangs
  returned : j + 1 < rounds → w.ran j = .returned

variable {rounds : Nat}

theorem cronLoop_some (hi : 0 < i) (ht : time < 2 ^ 31)
    (hr : ∀ k : Nat, k * i < time ↔ k < rounds) (n : Nat) :
    ∀ {k s : Nat} {c : Trace}, cronLoop w i time n (min (k * i) time) ⟨s,k⟩ = some c →
      (c.slept : Int) ≤ s + (time - min (k * i) time) ∧
        (c.executed = rounds → (c.slept : Int) = s + (time - min (k * i) time) →
          ∀ j, k ≤ j → j < rounds → Sound w rounds j) := by
  induction n with
  | zero =>
    intro k s c h
    cases h
  | succ n ih =>
    intro k s c h
    rcases lt_or_ge (k * i) time with hk | hk
    · have hsucc : (k + 1 : Int) * i = k * i + i := by ring
      rw [min_eq_left hk.le] at h ⊢
      rw [cronLoop_round hi ht hk] at h
      generalize hs : (min ((k + 1) * i) time - k * i).toNat = seconds at h
      rcases resume_eq_some h with ⟨hran,hrest⟩ | ⟨hran,rfl⟩
      · have hlater := ih (k := k + 1) (s := s + (seconds - w.left k)) (c := c)
          (by push_cast; exact hrest)
        push_cast at hlater
        refine ⟨by omega,?_⟩
        intro hexec hslept j hkj hj
        rcases eq_or_lt_of_le hkj with rfl | hlt
        · exact ⟨by omega,by rw [hran]; decide,fun _ => hran⟩
        · exact hlater.2 hexec (by omega) j hlt hj
      · refine ⟨by push_cast; omega,?_⟩
        intro hexec hslept j hkj hj
        simp only at hexec hslept
        push_cast at hslept
        have hj : j = k := by omega
        subst hj
        exact ⟨by omega,by rw [hran]; decide,fun hlt => by omega⟩
    · rw [min_eq_right hk] at h ⊢
      rw [cronLoop_end le_rfl] at h
      cases h
      refine ⟨by simp,?_⟩
      intro _ _ j hkj hj
      have hlt : ¬k < rounds := fun hlt => absurd ((hr k).mpr hlt) (by omega)
      omega

theorem cronLoop_of_sound (hi : 0 < i) (ht : time < 2 ^ 31)
    (hr : ∀ k : Nat, k * i < time ↔ k < rounds) (h : ∀ j < rounds, Sound w rounds j) (d : Nat) :
    ∀ {k s : Nat}, k + d = rounds →
      ∃ n c, cronLoop w i time n (min (k * i) time) ⟨s,k⟩ = some c ∧ c.executed = rounds ∧
        (c.slept : Int) = s + (time - min (k * i) time) := by
  induction d with
  | zero =>
    intro k s hk
    have hend : time ≤ k * i := by
      have := (hr k).not.mpr (by omega)
      omega
    rw [min_eq_right hend]
    exact ⟨1,⟨s,k⟩,cronLoop_end le_rfl 0 _,hk,by simp⟩
  | succ d ih =>
    intro k s hk
    have hlt : k * i < time := (hr k).mpr (by omega)
    have hsucc : (k + 1 : Int) * i = k * i + i := by ring
    obtain ⟨hslept,hended,hreturned⟩ := h k (by omega)
    rw [min_eq_left hlt.le]
    generalize hs : (min ((k + 1) * i) time - k * i).toNat = seconds
    obtain ⟨n,c,hrest,hexec,htotal⟩ := ih (k := k + 1) (s := s + (seconds - w.left k)) (by omega)
    push_cast at hrest htotal
    rcases hran : w.ran k with _ | _ | _
    · refine ⟨n + 1,c,?_,hexec,by omega⟩
      rw [cronLoop_round hi ht hlt,hran,hs]
      exact hrest
    · have hlast : k + 1 = rounds := by
        by_contra hne
        rw [hreturned (by omega)] at hran
        cases hran
      have hover := (hr (k + 1)).not.mpr (by omega)
      push_cast at hover
      refine ⟨1,⟨s + (seconds - w.left k),k + 1⟩,?_,hlast,by push_cast; omega⟩
      rw [cronLoop_round hi ht hlt,hran,hs]
      rfl
    · exact absurd hran hended

end Rounds

theorem cronLoop_executed {w : Clock} {i time : Int} (n : Nat) :
    ∀ {curr : Int} {t c : Trace}, cronLoop w i time n curr t = some c →
      t.executed ≤ c.executed ∧ (curr < time → t.executed < c.executed) := by
  induction n with
  | zero =>
    intro curr t c h
    cases h
  | succ n ih =>
    intro curr t c h
    rcases lt_or_ge curr time with hlt | hge
    · rw [cronLoop,if_pos hlt] at h
      simp only at h
      rcases resume_eq_some h with ⟨-,hrest⟩ | ⟨-,rfl⟩
      · have hle := (ih hrest).1
        simp only at hle
        omega
      · simp only
        omega
    · rw [cronLoop_end hge] at h
      cases h
      exact ⟨le_rfl,fun hlt => by omega⟩

theorem lt_ceil_iff {i : Int} (hi : 0 < i) (time : Int) (k : Nat) :
    k * i < time ↔ k < ⌈(time : ℚ) / i⌉.toNat := by
  have hq : (0 : ℚ) < i := by exact_mod_cast hi
  rw [Int.lt_toNat,Int.lt_ceil,lt_div_iff₀ hq]
  norm_cast

theorem ceil_nonpos {i time : Int} (hi : i ≤ 0) (ht : 0 < time) : ⌈(time : ℚ) / i⌉ ≤ 0 := by
  have ht' : (0 : ℚ) ≤ time := by exact_mod_cast ht.le
  have hi' : (i : ℚ) ≤ 0 := by exact_mod_cast hi
  rw [Int.ceil_le,Int.cast_zero]
  exact div_nonpos_of_nonneg_of_nonpos ht' hi'

theorem steady_iff {w : Clock} {job : Job} (hi : 0 < job.interval) :
    Steady w job ↔ ∀ j < ⌈(job.time : ℚ) / job.interval⌉.toNat,
      Sound w ⌈(job.time : ℚ) / job.interval⌉.toNat j := by
  have hr := fun k => lt_ceil_iff hi job.time k
  constructor
  · intro h j hj
    refine ⟨h.slept j ((hr j).mpr hj),h.ended j ((hr j).mpr hj),fun hlt => h.returned j ?_⟩
    exact_mod_cast (hr (j + 1)).mpr hlt
  · intro h
    refine ⟨hi,fun k hk => (h k ((hr k).mp hk)).slept,?_,fun k hk => (h k ((hr k).mp hk)).ended⟩
    intro k hk
    have hlt := (hr (k + 1)).mp (by exact_mod_cast hk)
    exact (h k (by omega)).returned hlt

theorem cronJob_punctual_iff {args : List Bytes} {job : Job}
    (h : cronjobParse args = .ok (some job)) (w : Clock) :
    Punctual w job ↔ job.time ≤ 0 ∨ Steady w job := by
  have ht := time_lt_of_accepted h
  rcases le_or_gt job.time 0 with htime | htime
  · refine ⟨fun _ => .inl htime,fun _ => ⟨1,{},cronLoop_end htime 0 _,?_,?_⟩⟩
    · rw [max_eq_right htime]
      rfl
    · rw [if_pos htime]
      rfl
  · have hno : ¬job.time ≤ 0 := by omega
    rw [Punctual,max_eq_left htime.le,if_neg hno,or_iff_right hno]
    rcases le_or_gt job.interval 0 with hi | hi
    · constructor
      · rintro ⟨n,t,hrun,-,hexec⟩
        have hone := (cronLoop_executed n hrun).2 htime
        have hceil := ceil_nonpos hi htime
        rw [← hexec] at hceil
        simp only at hone
        omega
      · intro hs
        have := hs.interval
        omega
    · have hr := fun k => lt_ceil_iff hi job.time k
      have hpos : 0 ≤ ⌈(job.time : ℚ) / job.interval⌉ :=
        Int.ceil_nonneg (div_nonneg (by exact_mod_cast htime.le) (by exact_mod_cast hi.le))
      have hzero : min (((0 : Nat) : Int) * job.interval) job.time = 0 := by
        rw [Nat.cast_zero,zero_mul,min_eq_left htime.le]
      rw [steady_iff hi]
      constructor
      · rintro ⟨n,t,hrun,hslept,hexec⟩ j hj
        have hsome := cronLoop_some (w := w) hi ht hr n (k := 0) (s := 0) (c := t)
          (by rw [hzero]; exact hrun)
        refine hsome.2 (by omega) ?_ j (Nat.zero_le j) hj
        rw [hzero,hslept]
        simp
      · intro hs
        obtain ⟨n,c,hrun,hexec,hslept⟩ := cronLoop_of_sound (w := w) hi ht hr hs _
          (k := 0) (s := 0) (Nat.zero_add _)
        rw [hzero] at hrun hslept
        refine ⟨n,c,hrun,by simpa using hslept,?_⟩
        rw [hexec,Int.toNat_of_nonneg hpos]

def everyReturn : Clock := ⟨fun _ => .returned,fun _ => 0⟩

def cronLine (interval : Char) : Bytes :=
  ascii ['c','r','o','n','j','o','b',' ','-','c',' ','l','s',' ','-','t',' ',interval,' ','-','p',
    ' ','5']

def cronArgs (interval : Char) : List Bytes := strtok [9,32] (cronLine interval)

theorem cronJob_punctual_ls :
    cronjobParse (cronArgs '2') = .ok (some ⟨ascii ['l','s',' '],2,5⟩) ∧
      Punctual everyReturn ⟨ascii ['l','s',' '],2,5⟩ := by
  have h : cronjobParse (cronArgs '2') = .ok (some ⟨ascii ['l','s',' '],2,5⟩) := by decide +kernel
  refine ⟨h,(cronJob_punctual_iff h everyReturn).mpr (.inr ⟨by decide,?_,?_,?_⟩)⟩
  · exact fun _ _ => rfl
  · exact fun _ _ => rfl
  · intro _ _ he
    cases he

theorem cronLoop_zero {w : Clock} {time : Int} (hw : ∀ k, w.ran k = .returned) (ht : 0 < time)
    (hr : time < 2 ^ 31) (n : Nat) : ∀ t, cronLoop w 0 time n 0 t = none := by
  induction n with
  | zero => exact fun _ => rfl
  | succ n ih =>
    intro t
    rw [cronLoop,if_pos ht]
    simp only [sub_zero,int_eq (show -(2 ^ 31) ≤ time by omega) hr,if_neg (not_le.mpr ht),hw]
    exact ih _

theorem cronJob_never_ends :
    cronjobParse (cronArgs '0') = .ok (some ⟨ascii ['l','s',' '],0,5⟩) ∧
      (∀ n, cronJob everyReturn ⟨ascii ['l','s',' '],0,5⟩ n = none) ∧
      ¬Punctual everyReturn ⟨ascii ['l','s',' '],0,5⟩ := by
  have hnone : ∀ n, cronJob everyReturn ⟨ascii ['l','s',' '],0,5⟩ n = none :=
    fun n => cronLoop_zero (fun _ => rfl) (by decide) (by decide) n _
  refine ⟨by decide +kernel,hnone,?_⟩
  rintro ⟨n,t,hrun,-⟩
  rw [hnone n] at hrun
  cases hrun

end Cron
end Shell
