import Mathlib.Data.Fintype.Basic
import OscAssignments.Lib.LockOrder
import OscAssignments.Xv6.Aging
import OscAssignments.Console.Input

namespace Xv6
open Runs LockOrder
open Console (Input)

inductive Lock where
  | cons
  | ptable
  | tickslock
  deriving DecidableEq, Repr

def consoleWakeups : Input → List UInt8 → Nat
  | _, [] => 0
  | i, c :: cs => (if (i.key c).2 then 1 else 0) + consoleWakeups (i.key c).1 cs

def agingPrints : List Slot → Kernel → Nat
  | [], _ => 0
  | p :: ps, k =>
    (if aged k p then 1 else 0) +
      match ageProc k p with
      | .ok k => agingPrints ps k
      | .error _ => 0

inductive Section where
  | cprintf
  | consolewrite
  | consoleread (sleeps : Bool)
  | consoleintr (input : Input) (keys : List UInt8)
  | timer (k : Kernel)
  | sysSleep (sleeps : Bool)
  | sysUptime
  | table
  | scheduler (k : Kernel)

def prints (n : Nat) : List (Instr Lock) := (List.replicate n (under .cons [])).flatten

def wakeups (n : Nat) : List (Instr Lock) := (List.replicate n (under .ptable [])).flatten

def sleepOn (l : Lock) : List (Instr Lock) :=
  [.acquire .ptable,.release l,.release .ptable]

def agingTick (b : Build) (k : Kernel) : List (Instr Lock) :=
  if b = .mlfq then under .ptable (prints (agingPrints allSlots (ticked k))) else []

def schedulerPrints (b : Build) (k : Kernel) : Nat :=
  if b = .fcfs ∧ (minctimeProc k).isSome then 1 else 0

def lockScript (b : Build) (c : Nat) : Section → List (Instr Lock)
  | .cprintf => prints 1
  | .consolewrite => under .cons []
  | .consoleread sleeps => if sleeps then .acquire .cons :: sleepOn .cons else under .cons []
  | .consoleintr input keys => under .cons (wakeups (consoleWakeups input keys))
  | .timer k => under .tickslock (if c = 0 then agingTick b k ++ wakeups 1 else [])
  | .sysSleep sleeps =>
    if sleeps then .acquire .tickslock :: sleepOn .tickslock else under .tickslock []
  | .sysUptime => under .tickslock []
  | .table => under .ptable []
  | .scheduler k => under .ptable (prints (schedulerPrints b k))

def kernelLocks (b : Build) (ncpu : Nat) : System (State Lock) (Act Section) Stuck :=
  machine ncpu (lockScript b)

def outermost (held : Lock → Bool) (l : Lock) : Bool :=
  l ≠ .tickslock || (!held .cons && !held .ptable)

section Scripts
variable {held : Lock → Bool} {r : List (Instr Lock)} {l : Lock}

theorem keeps_brief (hl : held l = false) (ha : outermost held l = true)
    (h : Keeps outermost held r) : Keeps outermost held (under l [] ++ r) :=
  Keeps.under hl ha (fun _ hr => hr) h

theorem keeps_prints (hl : held .cons = false) (n : Nat) (r : List (Instr Lock))
    (h : Keeps outermost held r) : Keeps outermost held (prints n ++ r) :=
  Keeps.repeated (fun _ hr => keeps_brief hl rfl hr) n h

theorem keeps_wakeups (hl : held .ptable = false) (n : Nat) (r : List (Instr Lock))
    (h : Keeps outermost held r) : Keeps outermost held (wakeups n ++ r) :=
  Keeps.repeated (fun _ hr => keeps_brief hl rfl hr) n h

theorem lockScript_keeps (b : Build) (c : Nat) (s : Section) :
    Keeps outermost (fun _ => false) (lockScript b c s) := by
  have hnone : Keeps outermost (fun _ => false) [] := fun _ => rfl
  rw [← List.append_nil (lockScript b c s)]
  cases s with
  | cprintf => exact keeps_prints rfl 1 [] hnone
  | consolewrite => exact keeps_brief rfl rfl hnone
  | consoleread sleeps =>
    cases sleeps with
    | false => exact keeps_brief rfl rfl hnone
    | true =>
      refine ⟨rfl,rfl,rfl,rfl,rfl,rfl,?_⟩
      intro l
      cases l <;> rfl
  | consoleintr input keys =>
    exact Keeps.under rfl rfl (keeps_wakeups rfl _) hnone
  | timer k =>
    refine Keeps.under rfl rfl ?_ hnone
    intro r hr
    split_ifs
    · rw [List.append_assoc]
      unfold agingTick
      split_ifs
      · exact Keeps.under rfl rfl (keeps_prints rfl _) (keeps_wakeups rfl 1 r hr)
      · exact keeps_wakeups rfl 1 r hr
    · exact hr
  | sysSleep sleeps =>
    cases sleeps with
    | false => exact keeps_brief rfl rfl hnone
    | true =>
      refine ⟨rfl,rfl,rfl,rfl,rfl,rfl,?_⟩
      intro l
      cases l <;> rfl
  | sysUptime => exact keeps_brief rfl rfl hnone
  | table => exact keeps_brief rfl rfl hnone
  | scheduler k => exact Keeps.under rfl rfl (keeps_prints rfl _) hnone

end Scripts

def ptableFirst : Lock → Nat
  | .tickslock => 0
  | .ptable => 1
  | .cons => 2

def consFirst : Lock → Nat
  | .tickslock => 0
  | .cons => 1
  | .ptable => 2

variable {b : Build} {ncpu : Nat} {s : State Lock}

theorem lock_ranks (hk : ∀ c, Keeps outermost (s.held c) (s.rest c))
    (hx : ¬ s.Crossed .ptable .cons) :
    (∀ c l l', s.Holds c l → s.Wants c l' → ptableFirst l < ptableFirst l') ∨
      ∀ c l l', s.Holds c l → s.Wants c l' → consFirst l < consFirst l' := by
  have hself : ∀ c l, s.Holds c l → ¬ s.Wants c l := by
    intro c l hl hw
    have := ((hk c).of_wants hw).1
    simp [State.held,show s.holder l = some c from hl] at this
  have htick : ∀ c l, s.Holds c l → ¬ s.Wants c .tickslock := by
    intro c l hl hw
    have hout := ((hk c).of_wants hw).2
    cases l with
    | cons => simp [outermost,State.held,show s.holder .cons = some c from hl] at hout
    | ptable => simp [outermost,State.held,show s.holder .ptable = some c from hl] at hout
    | tickslock => exact hself c .tickslock hl hw
  by_cases hcp : ∃ d, s.Holds d .cons ∧ s.Wants d .ptable
  · right
    obtain ⟨d,hd,hdw⟩ := hcp
    intro c l l' hl hw
    cases l' with
    | tickslock => exact absurd hw (htick c l hl)
    | ptable =>
      cases l with
      | ptable => exact absurd hw (hself c _ hl)
      | cons => decide
      | tickslock => decide
    | cons =>
      cases l with
      | ptable => exact absurd ⟨c,d,hl,nests_of_wants hw,hd,nests_of_wants hdw⟩ hx
      | cons => exact absurd hw (hself c _ hl)
      | tickslock => decide
  · left
    intro c l l' hl hw
    cases l' with
    | tickslock => exact absurd hw (htick c l hl)
    | ptable =>
      cases l with
      | ptable => exact absurd hw (hself c _ hl)
      | cons => exact absurd ⟨c,hl,hw⟩ hcp
      | tickslock => decide
    | cons =>
      cases l with
      | ptable => decide
      | cons => exact absurd hw (hself c _ hl)
      | tickslock => decide

theorem no_lock_cycle
    (h : (kernelLocks b ncpu).Reach (fun s a => s.crosses .ptable .cons a = false) s) :
    ¬ s.Cycle := by
  rintro ⟨c,hc⟩
  have hk := reach_keeps (lockScript_keeps b) h
  have hx := reach_uncrossed (by decide) (lockScript_keeps b) h
  rcases lock_ranks hk hx with hr | hr
  · exact no_cycle_of_rank ptableFirst hr c hc
  · exact no_cycle_of_rank consFirst hr c hc

def agedKernel : Kernel := ((xv6 .mlfq 2).after (Machine.userinitRun ++ Machine.idleTicksRun 82)).kern

def agingTickRun : List (Act Section) :=
  [.start 0 (.timer agedKernel),.exec 0,.exec 0]

def keyPress : Act Section := .start 1 (.consoleintr ⟨fun _ => 0,0,0,0⟩ [Console.newline])

theorem no_lock_cycle_printing :
    ¬ ((kernelLocks .mlfq 2).after (agingTickRun ++ [.exec 0,keyPress])).Cycle := by
  have hrun : ((kernelLocks .mlfq 2).checked (fun s a => s.crosses .ptable .cons a = false)
      (kernelLocks .mlfq 2).init (agingTickRun ++ [.exec 0,keyPress])).any (fun _ => true) = true := by
    decide +kernel
  exact no_lock_cycle (System.reach_checked hrun).1

def Attained (b : Build) (ncpu : Nat) : Act Section → Prop
  | .start _ (.timer k) => ∃ m, (xv6 b ncpu).Reachable m ∧ m.lock = none ∧ m.kern = k
  | .start _ (.scheduler k) => ∃ m, (xv6 b ncpu).Reachable m ∧ m.lock = none ∧ m.kern = k
  | _ => True

theorem lock_cycle_of_aging_and_key :
    ¬ ∀ (b : Build) (ncpu : Nat) (s : State Lock),
      (kernelLocks b ncpu).Reach (fun _ => Attained b ncpu) s → ¬ s.Cycle := by
  intro h
  have haged : ((xv6 .mlfq 2).checked (fun _ _ => True) (xv6 .mlfq 2).init
      (Machine.userinitRun ++ Machine.idleTicksRun 82)).any (fun m => m.lock = none) = true := by
    decide +kernel
  have hrun : ((kernelLocks .mlfq 2).checked (fun _ _ => True) (kernelLocks .mlfq 2).init
      (agingTickRun ++ [keyPress,.exec 1])).any (fun s => (s.Wants 0 .cons ∧ s.Holds 1 .cons) ∧
        s.Wants 1 .ptable ∧ s.Holds 0 .ptable) = true := by decide +kernel
  obtain ⟨hreach,hlock⟩ := System.reach_checked haged
  obtain ⟨hok,-,hp⟩ := System.run_checked hrun
  obtain ⟨⟨hw,hh⟩,hw',hh'⟩ := of_decide_eq_true hp
  refine h .mlfq 2 ((kernelLocks .mlfq 2).after (agingTickRun ++ [keyPress,.exec 1])) ?_ ?_
  · refine System.reach_after (by rw [hok]; rfl) ?_
    intro tr htr
    have hmem := System.act_mem_of_transitions htr
    simp only [agingTickRun,keyPress,List.cons_append,List.nil_append,List.mem_cons,
      List.not_mem_nil,or_false] at hmem
    rcases hmem with e | e | e | e | e <;> rw [e]
    · exact ⟨_,hreach,of_decide_eq_true hlock,rfl⟩
    all_goals trivial
  · exact State.cycle_of_two (c := 0) (d := 1) .cons .ptable hw hh hw' hh'

end Xv6
