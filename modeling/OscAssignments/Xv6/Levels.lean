import OscAssignments.Xv6.Slices

namespace Xv6
open Runs

def LevelsOk (k : Kernel) : Prop := ∀ p, 0 ≤ getQIdx k p ∧ getQIdx k p < pqCount

structure Promoted (k : Kernel) (p : Slot) (k' : Kernel) : Prop where
  call : incPrio k p = .ok k'
  down : getQIdx k' p + 1 = getQIdx k p
  low : 0 ≤ getQIdx k' p

structure Demoted (k : Kernel) (p : Slot) (k' : Kernel) : Prop where
  call : decPrio k p false = .ok k'
  up : getQIdx k' p = getQIdx k p + 1
  high : getQIdx k' p < pqCount

section Queues
variable {k k' : Kernel} {q : Level} {p x : Slot}

theorem pushBack_level (h : pushBack k q p = .ok k') :
    getQIdx k' p = getQIdx k p ∨ getQIdx k' p = q.val := by
  rcases pushBack_cases h with rfl | rfl
  · exact .inl rfl
  · exact .inr (by simp [getQIdx,Kernel.setAllotedQ])

theorem incPrio_level (h : incPrio k p = .ok k') :
    getQIdx k' p = getQIdx k p ∨ Promoted k p k' := by
  obtain ⟨q,dest,k1,hq,hdelete,hpush,hdest⟩ := incPrio_eq_ok h
  have hfrom : getQIdx k p = q.val := level_eq_ok.mp hq
  have hkept : getQIdx k1 p = getQIdx k p := (deleteIdx_kept hdelete).idx
  rcases pushBack_level hpush with hto | hto
  · exact .inl (hto.trans hkept)
  · rcases Nat.eq_zero_or_pos q.val with hz | hpos
    · exact .inl (by omega)
    · exact .inr ⟨h,by omega,by omega⟩

theorem decPrio_level {retain : Bool} (h : decPrio k p retain = .ok k') :
    getQIdx k' p = getQIdx k p ∨ retain = false ∧ Demoted k p k' := by
  have hstamp : getQIdx (stamped k p) p = getQIdx k p := by simp [getQIdx,stamped]
  have hcall := h
  unfold decPrio at h
  simp only at h
  split_ifs at h with hneg hstay
  · obtain ⟨q,hq,hpush⟩ := bind_eq_ok.mp h
    have hfrom := level_eq_ok.mp hq
    rcases pushBack_level hpush with hto | hto
    · exact .inl (hto.trans hstamp)
    · exact .inl (hto.trans hfrom.symm)
  · obtain ⟨q,hq,hpush⟩ := bind_eq_ok.mp h
    have hfrom := level_eq_ok.mp hq
    rcases pushBack_level hpush with hto | hto
    · exact .inl (hto.trans hstamp)
    · have hretain : retain = false := by simpa using fun hr => hstay (.inr hr)
      subst hretain
      exact .inr ⟨rfl,hcall,by omega,by have := q.isLt; omega⟩

theorem requeue_level (h : requeue k p = .ok k') :
    getQIdx k' p = getQIdx k p ∨ Demoted k p k' := by
  unfold requeue at h
  obtain ⟨q,_,h⟩ := bind_eq_ok.mp h
  simp only at h
  split_ifs at h
  · rcases decPrio_level h with hk | ⟨hr,-⟩
    · exact .inl hk
    · cases hr
  · exact (decPrio_level h).imp_right And.right
  · cases h
    exact .inl rfl

theorem ageAll_level {l : List Slot} (hnodup : l.Nodup) (h : l.foldlM ageProc k = .ok k')
    (p : Slot) : getQIdx k' p = getQIdx k p ∨
      ∃ k₁ k₂, (k₁,p) ∈ calls ageProc l k ∧ getQIdx k₁ p = getQIdx k p ∧ Promoted k₁ p k₂ ∧
        getQIdx k' p = getQIdx k₂ p := by
  induction l generalizing k with
  | nil =>
    cases h
    exact .inl rfl
  | cons x l ih =>
    obtain ⟨hx,hl⟩ := List.nodup_cons.mp hnodup
    obtain ⟨k1,hage,hrest⟩ := bind_eq_ok.mp h
    have hcalls : calls ageProc (x :: l) k = (k,x) :: calls ageProc l k1 := by
      rw [calls,hage]
    rw [hcalls]
    rcases eq_or_ne p x with rfl | hne
    · have hkept : getQIdx k' p = getQIdx k1 p := (ageAll_kept (.inl hx) hrest).idx
      rcases ageProc_cases hage with rfl | ⟨q,-,rfl⟩ | ⟨-,hinc⟩
      · exact .inl hkept
      · exact .inl (hkept.trans (by simp [getQIdx,countTick]))
      · rcases incPrio_level hinc with hsame | hp
        · exact .inl (hkept.trans hsame)
        · exact .inr ⟨k,k1,List.mem_cons_self,rfl,hp,hkept⟩
    · have hkept : getQIdx k1 p = getQIdx k p := (ageProc_kept (.inl hne) hage).idx
      rcases ih hl hrest with hsame | ⟨k₁,k₂,hmem,hfrom,hp,hto⟩
      · exact .inl (hsame.trans hkept)
      · exact .inr ⟨k₁,k₂,List.mem_cons_of_mem _ hmem,hfrom.trans hkept,hp,hto⟩

theorem setupProc_level (h : setupProc .mlfq k p = .ok k') :
    getQIdx k' p = getQIdx k p ∨ getQIdx k' p = highestPrioQ.val := by
  unfold setupProc initProcMyStyle at h
  simp only [reduceCtorEq,if_false] at h
  split_ifs at h
  · cases h
    exact .inl rfl
  · obtain ⟨k1,hq,h⟩ := bind_eq_ok.mp h
    unfold enqueueNew at hq
    rw [if_pos rfl] at hq
    obtain ⟨k2,hpush,hq⟩ := bind_eq_ok.mp hq
    cases hq
    cases h
    simpa [getQIdx] using pushBack_level hpush

end Queues

namespace LevelsOk
variable {b : Build} {k k' : Kernel} {p x : Slot}

theorem kept (h : LevelsOk k) (hk : ∀ p, Kept p k k') : LevelsOk k' := by
  intro p
  rw [(hk p).idx]
  exact h p

theorem ageProc (h : LevelsOk k) (hage : ageProc k x = .ok k') : LevelsOk k' := by
  intro p
  have hp := h p
  rcases eq_or_ne p x with rfl | hne
  · rcases ageProc_cases hage with rfl | ⟨q,-,rfl⟩ | ⟨-,hinc⟩
    · exact hp
    · simpa [getQIdx,countTick] using hp
    · rcases incPrio_level hinc with hsame | hup
      · rw [hsame]
        exact hp
      · have hdown := hup.down
        exact ⟨hup.low,by omega⟩
  · rw [(ageProc_kept (.inl hne) hage).idx]
    exact hp

theorem wakeProc {chan : Option Chan} (h : LevelsOk k) (hwake : wakeProc b chan k x = .ok k') :
    LevelsOk k' :=
  h.kept fun _ => wakeProc_kept hwake

theorem abandonChild {curproc : Slot} (h : LevelsOk k)
    (habandon : abandonChild b curproc k x = .ok k') : LevelsOk k' :=
  h.kept fun _ => abandonChild_kept habandon

theorem refill (h : LevelsOk k) (hrefill : refill k x = .ok k') : LevelsOk k' :=
  h.kept fun _ => refill_kept hrefill

end LevelsOk

inductive Site where
  | waitLimit
  | actualTicks
  | prioQ
  | prioQSize
  | prioQStart
  | shift
  deriving DecidableEq, Repr

def Site.size : Site → Int
  | .shift => 31
  | _ => pqCount

abbrev Use := Site × Int

def Use.InRange (u : Use) : Prop := 0 ≤ u.2 ∧ u.2 < u.1.size

def queueUses (qIdx : Int) : List Use := [(.prioQ,qIdx),(.prioQSize,qIdx),(.prioQStart,qIdx)]

def incPrioUses (k : Kernel) (p : Slot) : List Use :=
  queueUses (getQIdx k p) ++
    queueUses (if getQIdx k p = highestPrioQ.val then getQIdx k p else getQIdx k p - 1)

def decPrioUses (k : Kernel) (p : Slot) (retain : Bool) : List Use :=
  queueUses (if getQIdx k p = pqCount - 1 ∨ retain then getQIdx k p else getQIdx k p + 1)

def ageUses (k : Kernel) (p : Slot) : List Use :=
  let r := k.proc p
  if r.killed ∨ r.pid = 0 then []
  else if r.state = .running then [(.actualTicks,getQIdx k p)]
  else if r.state = .runnable then (.waitLimit,getQIdx k p) :: incPrioUses k p
  else []

def agingUses (k : Kernel) : List Use :=
  (calls ageProc allSlots { k with ticks := k.ticks + 1 }).flatMap fun c => ageUses c.1 c.2

def wakeUses (chan : Option Chan) (k : Kernel) (p : Slot) : List Use :=
  if (k.proc p).state = .sleeping ∧ (k.proc p).chan = chan then queueUses (getQIdx k p) else []

def wakeupUses (k : Kernel) (chan : Option Chan) : List Use :=
  (calls (wakeProc .mlfq chan) allSlots k).flatMap fun c => wakeUses chan c.1 c.2

def abandonUses (curproc : Slot) (k : Kernel) (p : Slot) : List Use :=
  if (k.proc p).parent = some curproc then
    let k := k.setProc p { k.proc p with parent := k.initproc }
    if (k.proc p).state = .zombie then wakeupUses k (k.initproc.map .proc) else []
  else []

def exitUses (k : Kernel) (curproc : Slot) : List Use :=
  let k := k.setProc curproc { k.proc curproc with etime := k.ticks }
  let chan := (k.proc curproc).parent.map .proc
  wakeupUses k chan ++
    match wakeup1 .mlfq k chan with
    | .ok k =>
      (calls (abandonChild .mlfq curproc) allSlots k).flatMap fun c => abandonUses curproc c.1 c.2
    | .error _ => []

def refillUses (k : Kernel) (p : Slot) : List Use :=
  if (k.proc p).state = .runnable then queueUses (getQIdx k p) else []

def schedUses (k : Kernel) : List Use :=
  (calls refill allSlots k).flatMap (fun c => refillUses c.1 c.2) ++
    match selectMlfq k with
    | .ok (some p,k) => queueUses (getQIdx k p)
    | _ => []

def requeueUses (k : Kernel) (p : Slot) : List Use :=
  (.shift,getQIdx k p) :: (decPrioUses k p true ++ decPrioUses k p false)

section Uses
variable {k : Kernel} {p : Slot} {u : Use}

theorem queueUses_inRange {qIdx : Int} (h : 0 ≤ qIdx ∧ qIdx < pqCount) (hu : u ∈ queueUses qIdx) :
    u.InRange := by
  simp only [queueUses,List.mem_cons,List.not_mem_nil,or_false] at hu
  rcases hu with rfl | rfl | rfl <;> exact h

theorem shift_inRange (h : LevelsOk k) (p : Slot) : Use.InRange (.shift,getQIdx k p) := by
  have hlow : 0 ≤ getQIdx k p := (h p).1
  have hhigh : getQIdx k p < 5 := (h p).2
  have hfits : (5 : Int) < 31 := by decide
  exact ⟨hlow,hhigh.trans hfits⟩

theorem incPrioUses_inRange (h : LevelsOk k) (hu : u ∈ incPrioUses k p) : u.InRange := by
  have hp := h p
  rcases List.mem_append.mp hu with hu | hu
  · exact queueUses_inRange hp hu
  · refine queueUses_inRange ?_ hu
    split_ifs with hz
    · exact hp
    · have hz' : getQIdx k p ≠ 0 := hz
      omega

theorem decPrioUses_inRange (h : LevelsOk k) {retain : Bool} (hu : u ∈ decPrioUses k p retain) :
    u.InRange := by
  have hp := h p
  refine queueUses_inRange ?_ hu
  split_ifs with hstay
  · exact hp
  · rw [not_or] at hstay
    omega

theorem ageUses_inRange (h : LevelsOk k) (hu : u ∈ ageUses k p) : u.InRange := by
  unfold ageUses at hu
  simp only at hu
  split_ifs at hu
  · cases hu
  · rw [List.mem_singleton.mp hu]
    exact h p
  · rcases List.mem_cons.mp hu with rfl | hu
    · exact h p
    · exact incPrioUses_inRange h hu
  · cases hu

theorem calls_inRange (f : Kernel → Slot → Except Halt Kernel) (uses : Kernel → Slot → List Use)
    (hf : ∀ k p k', LevelsOk k → f k p = .ok k' → LevelsOk k')
    (huses : ∀ k p, LevelsOk k → ∀ u ∈ uses k p, u.InRange) {l : List Slot} (h : LevelsOk k)
    (hu : u ∈ (calls f l k).flatMap fun c => uses c.1 c.2) : u.InRange := by
  obtain ⟨c,hc,hu⟩ := List.mem_flatMap.mp hu
  exact huses c.1 c.2 (calls_preserves LevelsOk hf h hc) u hu

theorem agingUses_inRange (h : LevelsOk k) (hu : u ∈ agingUses k) : u.InRange :=
  calls_inRange ageProc ageUses (fun _ _ _ hk => hk.ageProc) (fun _ _ hk _ => ageUses_inRange hk)
    (k := { k with ticks := k.ticks + 1 }) h hu

theorem wakeupUses_inRange {chan : Option Chan} (h : LevelsOk k) (hu : u ∈ wakeupUses k chan) :
    u.InRange := by
  refine calls_inRange (wakeProc .mlfq chan) (wakeUses chan) (fun _ _ _ hk => hk.wakeProc) ?_ h hu
  intro k p hk u hu
  unfold wakeUses at hu
  split_ifs at hu
  · exact queueUses_inRange (hk p) hu
  · cases hu

theorem abandonUses_inRange {curproc : Slot} (h : LevelsOk k) (hu : u ∈ abandonUses curproc k p) :
    u.InRange := by
  unfold abandonUses at hu
  simp only at hu
  split_ifs at hu
  · have h1 : LevelsOk (k.setProc p { k.proc p with parent := k.initproc }) :=
      h.kept fun _ => .setProc rfl rfl
    exact wakeupUses_inRange h1 hu
  · cases hu
  · cases hu

theorem exitUses_inRange (h : LevelsOk k) (hu : u ∈ exitUses k p) : u.InRange := by
  have h0 : LevelsOk (k.setProc p { k.proc p with etime := k.ticks }) :=
    h.kept fun _ => .setProc rfl rfl
  rcases List.mem_append.mp hu with hu | hu
  · exact wakeupUses_inRange h0 hu
  · split at hu
    · next k1 hwake =>
      have h1 : LevelsOk k1 := h0.kept fun _ => wakeup1_kept hwake
      exact calls_inRange (abandonChild .mlfq p) (abandonUses p) (fun _ _ _ hk => hk.abandonChild)
        (fun _ _ hk _ => abandonUses_inRange hk) h1 hu
    · cases hu

theorem schedUses_inRange (h : LevelsOk k) (hu : u ∈ schedUses k) : u.InRange := by
  rcases List.mem_append.mp hu with hu | hu
  · refine calls_inRange refill refillUses (fun _ _ _ hk => hk.refill) ?_ h hu
    intro k p hk u hu
    unfold refillUses at hu
    split_ifs at hu
    · exact queueUses_inRange (hk p) hu
    · cases hu
  · split at hu
    · next p k1 hselect =>
      have h1 : LevelsOk k1 := h.kept fun _ => selectMlfq_kept hselect
      exact queueUses_inRange (h1 p) hu
    · cases hu

theorem requeueUses_inRange (h : LevelsOk k) (hu : u ∈ requeueUses k p) : u.InRange := by
  rcases List.mem_cons.mp hu with rfl | hu
  · exact shift_inRange h p
  · rcases List.mem_append.mp hu with hu | hu
    · exact decPrioUses_inRange h hu
    · exact decPrioUses_inRange h hu

end Uses

namespace Machine

def levelUses (m : Machine) (c : Nat) : Op → List Use
  | .kalloc true => queueUses highestPrioQ.val
  | .exit => (m.cpu c).proc.toList.flatMap (exitUses m.kern)
  | .wakeup chan => wakeupUses m.kern (some chan)
  | .timer => if c = 0 then agingUses m.kern else []
  | .wakeTicks => wakeupUses m.kern (some .ticks)
  | .tail => (m.cpu c).proc.toList.map fun p => (.shift,getQIdx m.kern p)
  | .sched => schedUses m.kern
  | .back => (m.cpu c).proc.toList.flatMap (requeueUses m.kern)
  | _ => []

variable {m m' : Machine} {c ncpu : Nat} {op : Op} {p : Slot}

theorem levelUses_inRange (h : LevelsOk m.kern) (c : Nat) (op : Op) {u : Use}
    (hu : u ∈ levelUses m c op) : u.InRange := by
  unfold levelUses at hu
  split at hu
  · exact queueUses_inRange ⟨le_rfl,by decide⟩ hu
  · obtain ⟨p,-,hu⟩ := List.mem_flatMap.mp hu
    exact exitUses_inRange h hu
  · exact wakeupUses_inRange h hu
  · split_ifs at hu
    · exact agingUses_inRange h hu
    · cases hu
  · exact wakeupUses_inRange h hu
  · obtain ⟨p,-,rfl⟩ := List.mem_map.mp hu
    exact shift_inRange h p
  · exact schedUses_inRange h hu
  · obtain ⟨p,-,hu⟩ := List.mem_flatMap.mp hu
    exact requeueUses_inRange h hu
  · cases hu

inductive Moved (m : Machine) (c : Nat) (p : Slot) (m' : Machine) : Op → Prop
  | kept {op : Op} (h : getQIdx m'.kern p = getQIdx m.kern p) : Moved m c p m' op
  | created (htask : m.task (m.cpu c).proc = .alloc p)
      (h : getQIdx m'.kern p = highestPrioQ.val) : Moved m c p m' (.kalloc true)
  | promoted {k k' : Kernel} (hc : c = 0)
      (hcall : (k,p) ∈ calls ageProc allSlots { m.kern with ticks := m.kern.ticks + 1 })
      (hfrom : getQIdx k p = getQIdx m.kern p) (h : Promoted k p k')
      (hto : getQIdx m'.kern p = getQIdx k' p) : Moved m c p m' .timer
  | demoted (hp : (m.cpu c).proc = some p) (h : Demoted m.kern p m'.kern) : Moved m c p m' .back

theorem created_level (he : Effect .mlfq m c (.kalloc true) m')
    (htask : m.task (m.cpu c).proc = .alloc p) :
    getQIdx m'.kern p = getQIdx m.kern p ∨ getQIdx m'.kern p = highestPrioQ.val := by
  cases he with
  | setup _ ht hk =>
    rw [htask] at ht
    cases ht
    exact setupProc_level hk
  | setupInit _ ht hk =>
    rw [htask] at ht
    cases ht
    have hk' := setupProc_level hk
    exact hk'

theorem effect_moved (he : Effect .mlfq m c op m') (p : Slot) : Moved m c p m' op := by
  cases effect_turn he p with
  | kept h => exact .kept h.idx
  | tick hc h =>
    rcases ageAll_level (List.nodup_finRange nproc) h p with hsame | ⟨k,k',hcall,hfrom,hp,hto⟩
    · exact .kept hsame
    · exact .promoted hc hcall hfrom hp hto
  | created htask =>
    rcases created_level he htask with hsame | hzero
    · exact .kept hsame
    · exact .created htask hzero
  | dispatched _ _ _ hq _ => exact .kept hq
  | requeued hp _ h =>
    rcases requeue_level h with hsame | hdown
    · exact .kept hsame
    · exact .demoted hp hdown

theorem Moved.range (h : Moved m c p m' op)
    (hp : 0 ≤ getQIdx m.kern p ∧ getQIdx m.kern p < pqCount) :
    0 ≤ getQIdx m'.kern p ∧ getQIdx m'.kern p < pqCount := by
  cases h with
  | kept h =>
    rw [h]
    exact hp
  | created _ h =>
    rw [h]
    decide
  | promoted _ _ hfrom h hto =>
    have hlow := h.low
    have hdown := h.down
    omega
  | demoted _ h =>
    have hup := h.up
    exact ⟨by omega,h.high⟩

theorem Moved.near (h : Moved m c p m' op) (halloc : op ≠ .kalloc true) :
    |getQIdx m'.kern p - getQIdx m.kern p| ≤ 1 := by
  rw [abs_le]
  cases h with
  | kept h => omega
  | created _ _ => exact absurd rfl halloc
  | promoted _ _ hfrom h hto =>
    have hdown := h.down
    omega
  | demoted _ h =>
    have hup := h.up
    omega

theorem reach_levels (h : (xv6 .mlfq ncpu).Reachable m) : LevelsOk m.kern := by
  refine h.invariant (fun m => LevelsOk m.kern) ?_ ?_
  · intro p
    have hzero : (0 : Int) < pqCount := by decide
    exact ⟨le_rfl,hzero⟩
  · rintro s ⟨c,op⟩ t _ hs _ ht p
    exact (effect_moved (step_effect ht) p).range (hs p)

structure LevelSafe (ncpu : Nat) (m : Machine) : Prop where
  levels : ∀ p, 0 ≤ getQIdx m.kern p ∧ getQIdx m.kern p ≤ 4
  uses : ∀ c op, ∀ u ∈ levelUses m c op, 0 ≤ u.2 ∧ u.2 < u.1.size
  moves : ∀ c op m', (xv6 .mlfq ncpu).step m ⟨c,op⟩ = .ok m' → ∀ p, Moved m c p m' op ∧
    (op ≠ .kalloc true → |getQIdx m'.kern p - getQIdx m.kern p| ≤ 1)

theorem mlfq_levels_safe (h : (xv6 .mlfq ncpu).Reachable m) : LevelSafe ncpu m := by
  have hlevels := reach_levels h
  refine ⟨?_,?_,?_⟩
  · intro p
    have hlow : 0 ≤ getQIdx m.kern p := (hlevels p).1
    have hhigh : getQIdx m.kern p < 5 := (hlevels p).2
    omega
  · intro c op u hu
    exact levelUses_inRange hlevels c op hu
  · intro c op m' hstep p
    have hmoved := effect_moved (step_effect hstep) p
    exact ⟨hmoved,hmoved.near⟩

theorem mlfq_levels_safe_demoted :
    let m := (xv6 .mlfq 1).after demotedParentRun
    getQIdx m.kern 0 = 1 ∧ getQIdx m.kern 1 = 0 ∧ LevelSafe 1 m :=
  ⟨by decide +kernel,by decide +kernel,mlfq_levels_safe (System.reachable_after (by decide +kernel))⟩

end Machine
end Xv6
