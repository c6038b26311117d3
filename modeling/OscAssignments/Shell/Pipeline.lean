import Mathlib.Tactic
import Mathlib.Logic.Relation
import OscAssignments.Lib.Programs
import OscAssignments.Shell.Descriptors

namespace Shell
open Programs

abbrev Stage := Program UInt8

structure Pipe where
  bytes : Bytes
  parentWrites : Bool
  childWrites : Bool

inductive Phase
  | top
  | running (f : Stage) (s : f.State)
  | exited

@[ext] structure Pipeline where
  cmdIndex : Nat
  phase : Phase
  input : Bytes
  output : Bytes
  pipes : Bool → Pipe

namespace Pipeline

def parity (s : Pipeline) : Bool := s.cmdIndex % 2 == 1

def setPipe (s : Pipeline) (p : Bool) (q : Pipe) : Pipeline :=
  { s with pipes := fun r => if r = p then q else s.pipes r }

def fork (s : Pipeline) (f : Stage) : Pipeline :=
  let s := s.setPipe s.parity ⟨[],true,false⟩
  { s with
    phase := .running f f.start
    pipes := fun p => { s.pipes p with childWrites := (s.pipes p).parentWrites } }

def receive (s : Pipeline) : Option (Option UInt8 × Pipeline) :=
  if s.cmdIndex = 0 then
    match s.input with
    | [] => some (none,s)
    | b :: rest => some (some b,{ s with input := rest })
  else
    match (s.pipes !s.parity).bytes with
    | [] =>
      if (s.pipes !s.parity).parentWrites || (s.pipes !s.parity).childWrites then none
      else some (none,s)
    | b :: rest => some (some b,s.setPipe (!s.parity) { s.pipes (!s.parity) with bytes := rest })

def isLast (noOfCommands : Nat) (s : Pipeline) : Prop :=
  s.cmdIndex ≠ 0 ∧ s.cmdIndex = noOfCommands - 1

instance (n : Nat) (s : Pipeline) : Decidable (isLast n s) :=
  inferInstanceAs (Decidable (s.cmdIndex ≠ 0 ∧ s.cmdIndex = n - 1))

def send (noOfCommands cap : Nat) (s : Pipeline) (b : UInt8) : Option Pipeline :=
  if s.isLast noOfCommands then some { s with output := s.output ++ [b] }
  else if (s.pipes s.parity).bytes.length < cap then
    some (s.setPipe s.parity { s.pipes s.parity with bytes := (s.pipes s.parity).bytes ++ [b] })
  else none

def childExits (s : Pipeline) : Pipeline :=
  { s with
    phase := .exited
    pipes := fun p => { s.pipes p with childWrites := false } }

def reap (noOfCommands : Nat) (s : Pipeline) : Pipeline :=
  let closed :=
    if s.isLast noOfCommands then s
    else s.setPipe s.parity { s.pipes s.parity with parentWrites := false }
  { closed with cmdIndex := s.cmdIndex + 1, phase := .top }

def step (stages : List Stage) (cap : Nat) (s : Pipeline) : Option Pipeline :=
  match s.phase with
  | .top => (stages[s.cmdIndex]?).map s.fork
  | .running f st =>
    match f.next st with
    | .read k =>
      match s.receive with
      | none => none
      | some (b,s) => some { s with phase := .running f (k b) }
    | .write b st =>
      match s.send stages.length cap b with
      | none => none
      | some s => some { s with phase := .running f st }
    | .exit => some s.childExits
  | .exited => some (s.reap stages.length)

def handlePipelining (stages : List Stage) (input : Bytes) : Except Fault Pipeline :=
  if 400 < stages.length then .error .outOfBounds
  else .ok
    { cmdIndex := 0, phase := .top, input, output := [], pipes := fun _ => ⟨[],false,false⟩ }

def Steps (stages : List Stage) (cap : Nat) : Pipeline → Pipeline → Prop :=
  Relation.ReflTransGen fun s t => step stages cap s = some t

def Composes (stages : List Stage) (cap : Nat) (input : Bytes) : Prop :=
  ∃ s t, handlePipelining stages input = .ok s ∧ Steps stages cap s t ∧
    t.phase = .top ∧ t.cmdIndex = stages.length ∧ t.output = compose stages input

def place (n : Nat) (s : Pipeline) (x y : Bytes) (ph : Phase) : Pipeline where
  cmdIndex := s.cmdIndex
  phase := ph
  input := if s.cmdIndex = 0 then x else s.input
  output := if s.isLast n then y else s.output
  pipes := fun p =>
    if p = s.parity then ⟨if s.isLast n then [] else y,true,true⟩
    else if s.cmdIndex = 0 then s.pipes p
    else ⟨x,false,false⟩

theorem not_ne_self (p : Bool) : (!p) ≠ p := by
  cases p <;> decide

@[simp] theorem place_cmdIndex (n : Nat) (s : Pipeline) (x y : Bytes) (ph : Phase) :
    (place n s x y ph).cmdIndex = s.cmdIndex := rfl

@[simp] theorem place_parity (n : Nat) (s : Pipeline) (x y : Bytes) (ph : Phase) :
    (place n s x y ph).parity = s.parity := rfl

@[simp] theorem place_isLast (n : Nat) (s : Pipeline) (x y : Bytes) (ph : Phase) :
    (place n s x y ph).isLast n ↔ s.isLast n := Iff.rfl

theorem place_before {n : Nat} {s : Pipeline} {x y : Bytes} {ph : Phase} (h0 : s.cmdIndex ≠ 0) :
    (place n s x y ph).pipes (!s.parity) = ⟨x,false,false⟩ := by
  simp only [place,if_neg (not_ne_self s.parity),if_neg h0]

theorem place_after {n : Nat} {s : Pipeline} {x y : Bytes} {ph : Phase} (hl : ¬ s.isLast n) :
    (place n s x y ph).pipes s.parity = ⟨y,true,true⟩ := by
  simp only [place,if_true,if_neg hl]

theorem eq_parity_of_ne {p : Bool} {s : Pipeline} (h : p ≠ !s.parity) : p = s.parity := by
  cases p <;> cases hs : s.parity <;> simp_all

theorem receive_nil (n : Nat) (s : Pipeline) (y : Bytes) (ph : Phase) :
    receive (place n s [] y ph) = some (none,place n s [] y ph) := by
  rcases eq_or_ne s.cmdIndex 0 with h0 | h0
  · have hin : (place n s [] y ph).input = [] := if_pos h0
    rw [receive,place_cmdIndex,if_pos h0,hin]
  · rw [receive,place_cmdIndex,if_neg h0,place_parity,place_before h0]
    rfl

theorem receive_cons (n : Nat) (s : Pipeline) (b : UInt8) (x y : Bytes) (ph : Phase) :
    receive (place n s (b :: x) y ph) = some (some b,place n s x y ph) := by
  rcases eq_or_ne s.cmdIndex 0 with h0 | h0
  · have hin : (place n s (b :: x) y ph).input = b :: x := if_pos h0
    rw [receive,place_cmdIndex,if_pos h0,hin]
    simp only [place,if_pos h0]
  · rw [receive,place_cmdIndex,if_neg h0,place_parity,place_before h0]
    simp only [setPipe,place,if_neg h0]
    congr 3
    funext p
    rcases eq_or_ne p (!s.parity) with rfl | hp
    · rw [if_pos rfl,if_neg (not_ne_self s.parity)]
    · rw [if_neg hp,if_pos (eq_parity_of_ne hp),if_pos (eq_parity_of_ne hp)]

theorem send_place {n cap : Nat} {s : Pipeline} {x y : Bytes} {ph : Phase} (b : UInt8)
    (h : s.isLast n ∨ y.length < cap) :
    send n cap (place n s x y ph) b = some (place n s x (y ++ [b]) ph) := by
  rcases Decidable.em (s.isLast n) with hl | hl
  · rw [send,if_pos ((place_isLast n s x y ph).mpr hl)]
    simp only [place,if_pos hl]
  · rw [send,if_neg ((place_isLast n s x y ph).not.mpr hl),place_parity,place_after hl,
      if_pos (h.resolve_left hl)]
    simp only [setPipe,place,if_neg hl]
    congr 2
    funext p
    rcases eq_or_ne p s.parity with rfl | hp
    · rw [if_pos rfl,if_pos rfl]
    · rw [if_neg hp,if_neg hp,if_neg hp]

theorem send_full {n cap : Nat} {s : Pipeline} {x y : Bytes} {ph : Phase} (b : UInt8)
    (hl : ¬ s.isLast n) (hy : cap ≤ y.length) : send n cap (place n s x y ph) b = none := by
  rw [send,if_neg ((place_isLast n s x y ph).not.mpr hl),place_parity,place_after hl,
    if_neg (Nat.not_lt.mpr hy)]

section Child
variable {stages : List Stage} {cap : Nat} {s : Pipeline} {f : Stage}

theorem step_read_nil {st : f.State} {k : Option UInt8 → f.State} {y : Bytes}
    (h : f.next st = .read k) :
    step stages cap (place stages.length s [] y (.running f st)) =
      some (place stages.length s [] y (.running f (k none))) := by
  have hphase : (place stages.length s [] y (.running f st)).phase = .running f st := rfl
  rw [step,hphase]
  simp only [h,receive_nil]
  rfl

theorem step_read_cons {st : f.State} {k : Option UInt8 → f.State} {b : UInt8} {x y : Bytes}
    (h : f.next st = .read k) :
    step stages cap (place stages.length s (b :: x) y (.running f st)) =
      some (place stages.length s x y (.running f (k (some b)))) := by
  have hphase : (place stages.length s (b :: x) y (.running f st)).phase = .running f st := rfl
  rw [step,hphase]
  simp only [h,receive_cons]
  rfl

theorem step_write {st st' : f.State} {b : UInt8} {x y : Bytes} (h : f.next st = .write b st')
    (hfit : s.isLast stages.length ∨ y.length < cap) :
    step stages cap (place stages.length s x y (.running f st)) =
      some (place stages.length s x (y ++ [b]) (.running f st')) := by
  have hphase : (place stages.length s x y (.running f st)).phase = .running f st := rfl
  rw [step,hphase]
  simp only [h,send_place b hfit]
  rfl

theorem step_write_full {st st' : f.State} {b : UInt8} {x y : Bytes} (h : f.next st = .write b st')
    (hl : ¬ s.isLast stages.length) (hy : cap ≤ y.length) :
    step stages cap (place stages.length s x y (.running f st)) = none := by
  have hphase : (place stages.length s x y (.running f st)).phase = .running f st := rfl
  rw [step,hphase]
  simp only [h,send_full b hl hy]

theorem step_exit {st : f.State} {x y : Bytes} (h : f.next st = .exit) :
    step stages cap (place stages.length s x y (.running f st)) =
      some (place stages.length s x y .exited).childExits := by
  have hphase : (place stages.length s x y (.running f st)).phase = .running f st := rfl
  rw [step,hphase]
  simp only [h]
  rfl

theorem child_ends (fuel : Nat) :
    ∀ {st : f.State} {x y out : Bytes}, alone f.next fuel st x y = some out →
      s.isLast stages.length ∨ out.length ≤ cap →
      ∃ x', Steps stages cap (place stages.length s x y (.running f st))
        (place stages.length s x' out .exited).childExits := by
  induction fuel with
  | zero =>
    intro st x y out h _
    cases h
  | succ fuel ih =>
    intro st x y out h hfit
    rw [alone] at h
    split at h
    · next k hk =>
      split at h
      · obtain ⟨x',hsteps⟩ := ih h hfit
        exact ⟨x',.head (step_read_nil hk) hsteps⟩
      · obtain ⟨x',hsteps⟩ := ih h hfit
        exact ⟨x',.head (step_read_cons hk) hsteps⟩
    · next b st' hw =>
      obtain ⟨x',hsteps⟩ := ih h hfit
      have hlen := length_le_alone fuel h
      rw [List.length_append,List.length_singleton] at hlen
      refine ⟨x',.head (step_write hw ?_) hsteps⟩
      rcases hfit with hl | hle
      · exact .inl hl
      · exact .inr (by omega)
    · next he =>
      cases h
      exact ⟨x,.single (step_exit he)⟩

theorem child_waits (fuel : Nat) :
    ∀ {st : f.State} {x y out : Bytes}, alone f.next fuel st x y = some out →
      ¬ s.isLast stages.length → cap < out.length → y.length ≤ cap →
      ∃ x' y' st', Steps stages cap (place stages.length s x y (.running f st))
          (place stages.length s x' y' (.running f st')) ∧
        step stages cap (place stages.length s x' y' (.running f st')) = none := by
  induction fuel with
  | zero =>
    intro st x y out h
    cases h
  | succ fuel ih =>
    intro st x y out h hl hlong hy
    rw [alone] at h
    split at h
    · next k hk =>
      split at h
      · obtain ⟨x',y',st',hsteps,hnone⟩ := ih h hl hlong hy
        exact ⟨x',y',st',.head (step_read_nil hk) hsteps,hnone⟩
      · obtain ⟨x',y',st',hsteps,hnone⟩ := ih h hl hlong hy
        exact ⟨x',y',st',.head (step_read_cons hk) hsteps,hnone⟩
    · next b st' hw =>
      rcases Nat.lt_or_ge y.length cap with hlt | hge
      · have hy' : (y ++ [b]).length ≤ cap := by
          rw [List.length_append,List.length_singleton]
          omega
        obtain ⟨x',y',st',hsteps,hnone⟩ := ih h hl hlong hy'
        exact ⟨x',y',st',.head (step_write hw (.inr hlt)) hsteps,hnone⟩
      · exact ⟨x,y,st,.refl,step_write_full hw hl hge⟩
    · cases h
      omega

end Child

structure At (stages : List Stage) (input : Bytes) (k : Nat) (s : Pipeline) : Prop where
  phase : s.phase = .top
  index : s.cmdIndex = k
  source : k = 0 → s.input = input
  before : k < stages.length →
    s.pipes (!s.parity) = ⟨if k = 0 then [] else compose (stages.take k) input,false,false⟩
  output : s.output = if k = stages.length then compose stages input else []

theorem At.fork_eq {stages : List Stage} {input : Bytes} {k : Nat} {s : Pipeline}
    (h : At stages input k s) (hk : k < stages.length) (f : Stage) :
    s.fork f = place stages.length s (compose (stages.take k) input) []
      (.running f f.start) := by
  have hbefore := h.before hk
  have hout : s.output = [] := by rw [h.output,if_neg hk.ne]
  apply Pipeline.ext
  · rfl
  · rfl
  · change s.input = if s.cmdIndex = 0 then compose (stages.take k) input else s.input
    split
    · next h0 =>
      rw [h.index] at h0
      subst h0
      exact h.source rfl
    · rfl
  · change s.output = if s.isLast stages.length then [] else s.output
    rw [hout,ite_self]
  · funext p
    rcases eq_or_ne p s.parity with rfl | hp
    · simp only [fork,setPipe,place,if_true,ite_self]
    · have hp' : p = !s.parity := by
        cases p <;> cases hs : s.parity <;> simp_all
      simp only [fork,setPipe,place,if_neg hp]
      rw [hp',hbefore,h.index]
      split
      · rfl
      · rfl

theorem parity_of_succ {s t : Pipeline} (h : t.cmdIndex = s.cmdIndex + 1) :
    (!t.parity) = s.parity := by
  rw [parity,parity,h]
  exact Descriptors.parity_succ s.cmdIndex

theorem At.next {stages : List Stage} {input : Bytes} {k : Nat} {s : Pipeline} {x : Bytes}
    (hn : 2 ≤ stages.length) (h : At stages input k s) (hk : k < stages.length) :
    At stages input (k + 1)
      ((place stages.length s x (compose (stages.take (k + 1)) input) .exited).childExits.reap
        stages.length) := by
  have hindex := h.index
  have hlast : (place stages.length s x (compose (stages.take (k + 1)) input)
      .exited).childExits.isLast stages.length ↔ s.isLast stages.length := Iff.rfl
  have hiff : s.isLast stages.length ↔ k + 1 = stages.length := by
    rw [isLast,hindex]
    omega
  refine ⟨rfl,?_,fun h0 => absurd h0 (Nat.succ_ne_zero k),?_,?_⟩
  · rw [reap]
    exact congrArg (· + 1) hindex
  · intro hk'
    have hl : ¬ s.isLast stages.length := by
      rw [hiff]
      omega
    rw [parity_of_succ (s := s) rfl,reap,if_neg (hlast.not.mpr hl)]
    simp only [setPipe,childExits,place,parity,if_neg hl,if_true,if_neg (Nat.succ_ne_zero k)]
  · rw [reap]
    rcases Decidable.em (s.isLast stages.length) with hl | hl
    · have hkn := hiff.mp hl
      rw [if_pos (hlast.mpr hl),if_pos hkn]
      simp only [childExits,place,if_pos hl]
      rw [List.take_of_length_le hkn.ge]
    · have hkn := hiff.not.mp hl
      rw [if_neg (hlast.not.mpr hl),if_neg hkn]
      simp only [setPipe,childExits,place,if_neg hl]
      rw [h.output,if_neg hk.ne]

theorem step_top {stages : List Stage} {cap : Nat} {input : Bytes} {k : Nat} {s : Pipeline}
    (h : At stages input k s) (hk : k < stages.length) :
    step stages cap s = some (s.fork stages[k]) := by
  rw [step,h.phase]
  simp only [h.index]
  rw [List.getElem?_eq_getElem hk]
  rfl

theorem stage_ends {stages : List Stage} {cap : Nat} {input : Bytes} {k : Nat} {s : Pipeline}
    (hn : 2 ≤ stages.length) (h : At stages input k s) (hk : k < stages.length)
    (hfit : k + 1 < stages.length → (compose (stages.take (k + 1)) input).length ≤ cap) :
    ∃ t, Steps stages cap s t ∧ At stages input (k + 1) t := by
  have hcompose := compose_take_succ (List.getElem?_eq_getElem hk) input
  obtain ⟨fuel,hfuel⟩ := stages[k].computes (compose (stages.take k) input)
  rw [← hcompose] at hfuel
  have hfit' : s.isLast stages.length ∨ (compose (stages.take (k + 1)) input).length ≤ cap := by
    rcases eq_or_ne (k + 1) stages.length with heq | hne
    · exact .inl ⟨by rw [h.index]; omega,by rw [h.index]; omega⟩
    · exact .inr (hfit (by omega))
  obtain ⟨x,hsteps⟩ := child_ends (s := s) fuel hfuel hfit'
  refine ⟨_,?_,h.next (x := x) hn hk⟩
  refine .head (step_top h hk) ?_
  rw [h.fork_eq hk]
  exact hsteps.tail rfl

theorem stage_waits {stages : List Stage} {cap : Nat} {input : Bytes} {k : Nat} {s : Pipeline}
    (h : At stages input k s) (hk : k + 1 < stages.length)
    (hlong : cap < (compose (stages.take (k + 1)) input).length) :
    ∃ t, Steps stages cap s t ∧ step stages cap t = none ∧ t.phase ≠ .top := by
  have hk' : k < stages.length := by omega
  have hcompose := compose_take_succ (List.getElem?_eq_getElem hk') input
  obtain ⟨fuel,hfuel⟩ := stages[k].computes (compose (stages.take k) input)
  rw [← hcompose] at hfuel
  have hl : ¬ s.isLast stages.length := by
    rw [isLast,h.index]
    omega
  obtain ⟨x,y,st,hsteps,hnone⟩ := child_waits (s := s) fuel hfuel hl hlong (Nat.zero_le _)
  refine ⟨_,.head (step_top h hk') ?_,hnone,by simp [place]⟩
  rw [h.fork_eq hk']
  exact hsteps

theorem at_start {stages : List Stage} {input : Bytes} {s : Pipeline} (hn : 2 ≤ stages.length)
    (h : handlePipelining stages input = .ok s) : At stages input 0 s := by
  rw [handlePipelining] at h
  split at h
  · cases h
  · cases h
    refine ⟨rfl,rfl,fun _ => rfl,fun _ => rfl,?_⟩
    rw [if_neg (by omega)]

theorem reaches_stage {stages : List Stage} {cap : Nat} {input : Bytes} {s : Pipeline}
    (hn : 2 ≤ stages.length) (hs : At stages input 0 s) (k : Nat) (hk : k ≤ stages.length)
    (hfit : ∀ j < k, j + 1 < stages.length →
      (compose (stages.take (j + 1)) input).length ≤ cap) :
    ∃ t, Steps stages cap s t ∧ At stages input k t := by
  induction k with
  | zero => exact ⟨s,.refl,hs⟩
  | succ k ih =>
    obtain ⟨t,hst,ht⟩ := ih (by omega) fun j hj => hfit j (by omega)
    obtain ⟨u,htu,hu⟩ := stage_ends hn ht (by omega) (hfit k (by omega))
    exact ⟨u,hst.trans htu,hu⟩

theorem terminal_unique {stages : List Stage} {cap : Nat} {s t u : Pipeline}
    (ht : Steps stages cap s t) (hu : Steps stages cap s u) (hnt : step stages cap t = none)
    (hnu : step stages cap u = none) : t = u := by
  have hright : Relator.RightUnique fun a b => step stages cap a = some b := by
    intro a b c hb hc
    exact Option.some.inj (hb.symm.trans hc)
  rcases ht.total_of_right_unique hright hu with h | h
  · rcases h.cases_head with rfl | ⟨v,hv,_⟩
    · rfl
    · rw [hnt] at hv
      cases hv
  · rcases h.cases_head with rfl | ⟨v,hv,_⟩
    · rfl
    · rw [hnu] at hv
      cases hv

theorem not_composes_of_long {stages : List Stage} {cap : Nat} {input : Bytes} {k : Nat}
    (hn : 2 ≤ stages.length) (hk : k + 1 < stages.length)
    (hfit : ∀ j < k, (compose (stages.take (j + 1)) input).length ≤ cap)
    (hlong : cap < (compose (stages.take (k + 1)) input).length) :
    ¬ Composes stages cap input := by
  rintro ⟨s,t,hs,hst,htop,hindex,-⟩
  obtain ⟨u,hsu,hu⟩ := reaches_stage hn (at_start hn hs) k (by omega) fun j hj _ => hfit j hj
  obtain ⟨v,huv,hnone,hphase⟩ := stage_waits hu hk hlong
  have hend : step stages cap t = none := by
    rw [step,htop]
    simp only [hindex]
    rw [List.getElem?_eq_none le_rfl]
    rfl
  have htv := terminal_unique hst (hsu.trans huv) hend hnone
  rw [htv] at htop
  exact hphase htop

theorem pipeline_composes_iff {stages : List Stage} (hn : 2 ≤ stages.length) (cap : Nat)
    (input : Bytes) :
    Composes stages cap input ↔
      stages.length ≤ 400 ∧
        ∀ k, k + 1 < stages.length → (compose (stages.take (k + 1)) input).length ≤ cap := by
  constructor
  · intro h
    constructor
    · obtain ⟨s,-,hs,-⟩ := h
      rw [handlePipelining] at hs
      split at hs
      · cases hs
      · next hle => exact Nat.not_lt.mp hle
    · intro k
      induction k using Nat.strong_induction_on with
      | _ k ih =>
        intro hk
        by_contra hlong
        exact not_composes_of_long hn hk (fun j hj => ih j hj (by omega)) (Nat.not_le.mp hlong) h
  · rintro ⟨hle,hfit⟩
    have hstart : handlePipelining stages input = .ok
        { cmdIndex := 0, phase := .top, input, output := [], pipes := fun _ => ⟨[],false,false⟩ } :=
      if_neg (Nat.not_lt.mpr hle)
    obtain ⟨t,hst,ht⟩ := reaches_stage hn (at_start hn hstart) stages.length le_rfl
      fun j _ hj => hfit j hj
    exact ⟨_,t,hstart,hst,ht.phase,ht.index,by rw [ht.output,if_pos rfl]⟩

theorem pipeline_composes_short :
    2 ≤ [emit (ascii ['a','b']),copy].length ∧
      Composes [emit (ascii ['a','b']),copy] 65536 [] := by
  refine ⟨le_rfl,(pipeline_composes_iff le_rfl 65536 []).mpr ⟨by decide,?_⟩⟩
  intro k hk
  obtain rfl : k = 0 := Nat.lt_one_iff.mp (Nat.succ_lt_succ_iff.mp hk)
  decide

theorem pipeline_waits_when_full :
    ¬ Composes [emit (List.replicate 65537 97),copy] 65536 [] := by
  apply not_composes_of_long (k := 0) le_rfl (by decide)
  · intro j hj
    exact absurd hj (Nat.not_lt_zero j)
  · change 65536 < (List.replicate 65537 (97 : UInt8)).length
    rw [List.length_replicate]
    decide

end Pipeline
end Shell
