import OscAssignments.Xv6.Queued

namespace Xv6
open Runs

def runnableAt (k : Kernel) (q : Level) (p : Slot) : Bool :=
  (k.proc p).state = .runnable && getQIdx k p = q.val

def refilled (k : Kernel) (L : Queues) (pre : List Slot) : Queues := fun q =>
  if L q = [] then (pre.find? (runnableAt k q)).toList else L q

theorem refilled_nil (k : Kernel) (L : Queues) : refilled k L [] = L := by
  funext q
  by_cases hq : L q = [] <;> simp [refilled,hq]

theorem refilled_skip {k : Kernel} {L : Queues} {pre : List Slot} {a : Slot}
    (h : ∀ q, refilled k L pre q = [] → runnableAt k q a = false) :
    refilled k L (pre ++ [a]) = refilled k L pre := by
  funext q
  have hq := h q
  unfold refilled at hq ⊢
  split_ifs at hq ⊢ with hl
  · rw [List.find?_append]
    cases hf : pre.find? (runnableAt k q) with
    | some x => rfl
    | none =>
      rw [hf] at hq
      simp [hq rfl]
  · rfl

theorem refilled_push {k : Kernel} {L : Queues} {pre : List Slot} {a : Slot} {q : Level}
    (hrun : (k.proc a).state = .runnable) (hidx : getQIdx k a = q.val)
    (hq : refilled k L pre q = []) :
    refilled k L (pre ++ [a]) =
      Function.update (refilled k L pre) q (refilled k L pre q ++ [a]) := by
  funext r
  rcases eq_or_ne r q with rfl | hr
  · rw [Function.update_self,hq]
    unfold refilled at hq ⊢
    split_ifs at hq ⊢ with hl
    · rw [List.find?_append]
      cases hf : pre.find? (runnableAt k r) with
      | some x =>
        rw [hf] at hq
        simp at hq
      | none => simp [runnableAt,hrun,hidx]
    · exact absurd hq hl
  · rw [Function.update_of_ne hr]
    unfold refilled
    split_ifs
    · have hne : runnableAt k r a = false := by
        have : (r.val : Int) ≠ q.val := fun e => hr (Fin.ext (by exact_mod_cast e))
        simp [runnableAt,hidx,Ne.symm this]
      rw [List.find?_append]
      simp [hne]
    · rfl

theorem mem_refilled {k : Kernel} {L : Queues} {pre : List Slot} {q : Level} {x : Slot}
    (h : x ∈ refilled k L pre q) : x ∈ L q ∨ (k.proc x).state = .runnable := by
  unfold refilled at h
  split_ifs at h
  · rw [Option.mem_toList] at h
    have := List.find?_some h
    simp only [runnableAt,Bool.and_eq_true,decide_eq_true_eq] at this
    exact .inr this.1
  · exact .inl h

theorem subset_refilled {k : Kernel} {L : Queues} {pre : List Slot} {q : Level} {x : Slot}
    (h : x ∈ L q) : x ∈ refilled k L pre q := by
  unfold refilled
  rw [if_neg (List.ne_nil_of_mem h)]
  exact h

structure RefilledTo (k : Kernel) (L : Queues) (pre : List Slot) (s : Kernel) : Prop where
  ok : KQ s (refilled k L pre)
  faces : SameFaces k s
  idx : ∀ x, getQIdx s x = getQIdx k x

theorem RefilledTo.step {k s : Kernel} {L : Queues} {pre : List Slot} (hk : PidOk k)
    (h : RefilledTo k L pre s) (a : Slot) :
    ∃ t, refill s a = .ok t ∧ RefilledTo k L (pre ++ [a]) t := by
  unfold refill
  by_cases hrun : (s.proc a).state = .runnable
  · have hrun' : (k.proc a).state = .runnable := h.faces.state a ▸ hrun
    obtain ⟨q,hidx,hlev⟩ := h.ok.toQOk.exists_level a
    have hidx' : getQIdx k a = q.val := (h.idx a).symm.trans hidx
    have hne : getQIdx s a ≠ noQAllot := by
      rw [hidx]
      unfold noQAllot
      omega
    rw [if_pos hrun,if_neg hne,hlev,ok_bind]
    by_cases hz : s.prioQSize q = 0
    · have hnil := h.ok.toQOk.size_eq_zero.mp hz
      have hnot : ∀ r, a ∉ refilled k L pre r := by
        intro r hr
        have he := (h.ok.toQOk.idx hr).symm.trans hidx
        have hrq : r = q := Fin.ext (by exact_mod_cast he)
        rw [hrq,hnil] at hr
        cases hr
      have hks := hk.wakes h.faces.wakes
      have hpos := hks.pos a (by simp [hrun])
      have hpush := h.ok.toQOk.pushBack_eq (q := q) (p := a) fun x hx => hks.inj x a hx (by omega)
      rw [if_neg (hnot q)] at hpush
      rw [if_pos hz]
      refine ⟨_,hpush,?_,h.faces.trans (pushed_faces s q a),?_⟩
      · rw [refilled_push hrun' hidx' hnil]
        exact h.ok.pushed hnot hpos (by simp [hrun]) (by simp [hrun])
      · intro x
        rw [pushed_getQIdx]
        split_ifs with hx
        · rw [hx,hidx']
        · exact h.idx x
    · rw [if_neg hz]
      refine ⟨s,rfl,?_,h.faces,h.idx⟩
      rw [refilled_skip]
      · exact h.ok
      · intro r hr
        have hrq : r ≠ q := by
          rintro rfl
          exact hz (h.ok.toQOk.size_eq_zero.mpr hr)
        have : (r.val : Int) ≠ q.val := fun e => hrq (Fin.ext (by exact_mod_cast e))
        simp [runnableAt,hidx',Ne.symm this]
  · rw [if_neg hrun]
    refine ⟨s,rfl,?_,h.faces,h.idx⟩
    rw [refilled_skip]
    · exact h.ok
    · intro r _
      simp [runnableAt,← h.faces.state a,hrun]

theorem refill_all {k : Kernel} {L : Queues} (hk : PidOk k) (h : KQ k L) :
    ∃ s, allSlots.foldlM refill k = .ok s ∧ RefilledTo k L allSlots s := by
  refine foldlM_total (RefilledTo k L) ?_ ?_
  · exact ⟨by rw [refilled_nil]; exact h,.refl k,fun _ => rfl⟩
  · intro pre a _ s _ hs
    exact hs.step hk a

def dead (k : Kernel) (p : Slot) : Bool := procIsDead k (some p)

theorem KQ.sub {k k' : Kernel} {L L' : Queues} (h : KQ k L) (hok : QOk k' L')
    (hp : k'.proc = k.proc) (hsub : ∀ q, ∀ x ∈ L' q, x ∈ L q) : KQ k' L' := by
  refine ⟨hok,?_,?_⟩ <;> intro q x hx <;> rw [hp]
  · exact h.off q x (hsub q x hx)
  · exact h.young q x (hsub q x hx)

theorem discardDead_eq {q : Level} :
    ∀ (n : Nat) {k : Kernel} {L : Queues}, KQ k L → (L q).length ≤ n →
      ∃ k', discardDead q n k = .ok (((L q).dropWhile (dead k)).head?,k') ∧
        KQ k' (Function.update L q ((L q).dropWhile (dead k))) ∧ k'.proc = k.proc := by
  have hnil : ∀ (n : Nat) {k : Kernel} {L : Queues}, KQ k L → L q = [] →
      ∃ k', discardDead q n k = .ok (((L q).dropWhile (dead k)).head?,k') ∧
        KQ k' (Function.update L q ((L q).dropWhile (dead k))) ∧ k'.proc = k.proc := by
    intro n k L h hl
    have hz : k.prioQSize q = 0 := h.toQOk.size_eq_zero.mpr hl
    refine ⟨k,?_,?_,rfl⟩
    · cases n <;> simp [discardDead,hz,hl]
    · rw [hl,List.dropWhile_nil,← hl,Function.update_eq_self]
      exact h
  intro n
  induction n with
  | zero =>
    intro k L h hlen
    exact hnil 0 h (List.length_eq_zero_iff.mp (by omega))
  | succ n ih =>
    intro k L h hlen
    cases hl : L q with
    | nil =>
      rw [← hl]
      exact hnil (n + 1) h hl
    | cons a t =>
      have hne : k.prioQSize q ≠ 0 := by
        rw [ne_eq,h.toQOk.size_eq_zero,hl]
        simp
      have hpop := h.toQOk.popFront_eq hl
      have hfront := (popFront_eq_ok hpop).1
      unfold discardDead
      rw [if_neg hne,hfront,ok_bind]
      cases hd : procIsDead k (some a) with
      | true =>
        have h1 : KQ (QOk.popped k q) (Function.update L q t) := by
          refine h.sub (h.toQOk.popped_ok hl) rfl ?_
          intro r x hx
          rcases eq_or_ne r q with rfl | hr
          · rw [Function.update_self] at hx
            exact hl ▸ List.mem_cons_of_mem a hx
          · rwa [Function.update_of_ne hr] at hx
        obtain ⟨k',hk,hok,hp⟩ := ih h1 (by rw [Function.update_self]; simp [hl] at hlen; omega)
        have hdead : dead (QOk.popped k q) = dead k := rfl
        rw [Function.update_self,Function.update_idem,hdead] at hok
        rw [Function.update_self,hdead] at hk
        rw [List.dropWhile_cons,if_pos (show dead k a = true from hd)]
        refine ⟨k',?_,hok,hp⟩
        rw [if_pos rfl,hpop,ok_bind]
        exact hk
      | false =>
        have hlive : (a :: t).dropWhile (dead k) = a :: t := by
          rw [List.dropWhile_cons,if_neg]
          rw [dead,hd]
          decide
        rw [hlive]
        refine ⟨k,by simp,?_,rfl⟩
        rw [← hl,Function.update_eq_self]
        exact h

def remaining (L : Queues) (q : Level) (l : List Slot) : Queues := fun r =>
  if r < q then [] else if r = q then l else L r

def live (k : Kernel) (L : Queues) (q : Level) : List Slot := (L q).dropWhile (dead k)

structure Searched (k : Kernel) (L : Queues) (pre : List Level) (f : Option Slot × Kernel) :
    Prop where
  proc : f.2.proc = k.proc
  idle : f.1 = none → (∀ q ∈ pre, live k L q = []) ∧
    KQ f.2 (fun q => if q ∈ pre then [] else L q)
  found : ∀ p, f.1 = some p → ∃ q rest, (∀ r < q, live k L r = []) ∧ live k L q = p :: rest ∧
    KQ f.2 (remaining L q (p :: rest))

theorem mem_levels_iff {pre post : List Level} {a : Level} (h : allLevels = pre ++ a :: post)
    (q : Level) : q ∈ pre ↔ q < a := by
  have hs : (pre ++ a :: post).Pairwise (· < ·) := h ▸ List.pairwise_lt_finRange pqCount
  have hq : q ∈ pre ++ a :: post := h ▸ mem_allLevels q
  obtain ⟨_,hpost,hcross⟩ := List.pairwise_append.mp hs
  constructor
  · intro hp
    exact hcross q hp a List.mem_cons_self
  · intro hlt
    rcases List.mem_append.mp hq with hp | hp
    · exact hp
    · rcases List.mem_cons.mp hp with rfl | hp
      · exact absurd hlt (lt_irrefl q)
      · exact absurd ((List.pairwise_cons.mp hpost).1 q hp) (lt_asymm hlt)

theorem Searched.step {k : Kernel} {L : Queues} {pre post : List Level} {a : Level}
    {f : Option Slot × Kernel} (hl : allLevels = pre ++ a :: post) (h : Searched k L pre f) :
    ∃ g, searchLevel f a = .ok g ∧ Searched k L (pre ++ [a]) g := by
  obtain ⟨o,s⟩ := f
  cases o with
  | some p =>
    refine ⟨(some p,s),rfl,h.proc,?_,h.found⟩
    intro hn
    cases hn
  | none =>
    obtain ⟨hnil,hok⟩ := h.idle rfl
    have ha : a ∉ pre := fun hm => lt_irrefl a ((mem_levels_iff hl a).mp hm)
    have hLa : (if a ∈ pre then [] else L a) = L a := if_neg ha
    have hdead : dead s = dead k := by
      funext x
      simp [dead,procIsDead,show s.proc = k.proc from h.proc]
    have hlen := (hok.toQOk.length_lt a).le
    obtain ⟨k',hd,hok',hp⟩ := discardDead_eq maxProcCount hok hlen
    rw [hLa,hdead] at hd
    simp only [hLa,hdead] at hok'
    refine ⟨_,hd,hp.trans h.proc,?_,?_⟩
    · intro hn
      have hla : live k L a = [] := List.head?_eq_none_iff.mp hn
      constructor
      · intro q hq
        rcases List.mem_append.mp hq with hq | hq
        · exact hnil q hq
        · rw [List.mem_singleton.mp hq]
          exact hla
      · convert hok' using 1
        funext q
        rcases eq_or_ne q a with rfl | hq
        · rw [Function.update_self]
          simpa [live] using hla.symm
        · rw [Function.update_of_ne hq]
          simp [hq]
    · intro p hps
      obtain ⟨rest,hrest⟩ : ∃ rest, live k L a = p :: rest := by
        cases hla : live k L a with
        | nil =>
          simp only [show (L a).dropWhile (dead k) = [] from hla] at hps
          cases hps
        | cons x t =>
          simp only [show (L a).dropWhile (dead k) = x :: t from hla] at hps
          cases hps
          exact ⟨t,rfl⟩
      refine ⟨a,rest,?_,hrest,?_⟩
      · intro r hr
        exact hnil r ((mem_levels_iff hl r).mpr hr)
      · convert hok' using 1
        funext q
        unfold remaining
        rcases eq_or_ne q a with rfl | hq
        · rw [Function.update_self,if_neg (lt_irrefl q),if_pos rfl]
          exact hrest.symm
        · rw [Function.update_of_ne hq]
          simp [mem_levels_iff hl q,hq]

theorem search_all {k : Kernel} {L : Queues} (h : KQ k L) :
    ∃ f, allLevels.foldlM searchLevel (none,k) = .ok f ∧ Searched k L allLevels f := by
  refine foldlM_total (Searched k L) ?_ ?_
  · refine ⟨rfl,fun _ => ⟨by simp,by simpa using h⟩,?_⟩
    intro p hp
    cases hp
  · intro pre a post f hl hf
    exact hf.step hl

structure Selected (k : Kernel) (L : Queues) (a : Option Slot) (s : Kernel) : Prop where
  faces : SameFaces k s
  idx : ∀ x, getQIdx s x = getQIdx k x
  idle : a = none → (∀ q, live k L q = []) ∧ KQ s (fun _ => [])
  found : ∀ p, a = some p → ∃ q rest, (∀ r < q, live k L r = []) ∧ live k L q = p :: rest ∧
    KQ s (remaining L q (p :: rest))

theorem dead_congr {k k' : Kernel} (h : SameFaces k k') : dead k' = dead k := by
  funext x
  simp [dead,procIsDead,h.killed,h.pid,h.state]

theorem selectMlfq_eq {k : Kernel} {L : Queues} (hk : PidOk k) (h : KQ k L) :
    ∃ a s, selectMlfq k = .ok (a,s) ∧ Selected k (refilled k L allSlots) a s := by
  obtain ⟨k1,hr,h1⟩ := refill_all hk h
  obtain ⟨⟨a,s⟩,hs,h2⟩ := search_all h1.ok
  have hproc : s.proc = k1.proc := h2.proc
  have hsel : selectMlfq k = .ok (a,s) := by
    unfold selectMlfq
    rw [hr,ok_bind,hs]
  have hlive : live k1 = live k := by
    funext L' q
    rw [live,live,dead_congr h1.faces]
  have hnone := h2.idle
  have hsome := h2.found
  rw [hlive] at hnone hsome
  refine ⟨a,s,hsel,selectMlfq_faces hsel,?_,?_,hsome⟩
  · intro x
    rw [← h1.idx x]
    simp only [getQIdx,hproc]
  · intro ha
    obtain ⟨hn,hok⟩ := hnone ha
    exact ⟨fun q => hn q (mem_allLevels q),by simpa using hok⟩

theorem live_subset {k : Kernel} {L : Queues} {q : Level} {x : Slot} (h : x ∈ live k L q) :
    x ∈ L q :=
  (List.dropWhile_sublist _).subset h

theorem live_head {k : Kernel} {L : Queues} {q : Level} {p : Slot} {rest : List Slot}
    (h : live k L q = p :: rest) : p ∈ L q ∧ dead k p = false := by
  constructor
  · exact live_subset (h ▸ List.mem_cons_self)
  · have hl : (L q).dropWhile (dead k) = p :: rest := h
    have hd := List.head_dropWhile_not (dead k) (l := L q) (by simp [hl])
    simpa [hl] using hd

theorem mem_of_remaining {L : Queues} {q r : Level} {l : List Slot} {x : Slot}
    (hl : ∀ y ∈ l, y ∈ L q) (hx : x ∈ remaining L q l r) : x ∈ L r := by
  unfold remaining at hx
  split_ifs at hx with hlt he
  · cases hx
  · exact he ▸ hl x hx
  · exact hx

theorem passed_over {k : Kernel} {L : Queues} {q r : Level} {p x : Slot} {rest : List Slot}
    (hbelow : ∀ r < q, live k L r = []) (hlive : live k L q = p :: rest) (hx : x ∈ L r)
    (hxp : x ≠ p) (hout : x ∉ remaining L q rest r) :
    (∀ r' < r, live k L r' = []) ∧ x ∉ live k L r := by
  rcases lt_trichotomy r q with hlt | rfl | hgt
  · refine ⟨fun r' hr' => hbelow r' (hr'.trans hlt),?_⟩
    rw [hbelow r hlt]
    exact List.not_mem_nil
  · refine ⟨hbelow,?_⟩
    rw [hlive,List.mem_cons,not_or]
    refine ⟨hxp,?_⟩
    simpa [remaining] using hout
  · exact absurd hx (by simpa [remaining,hgt.not_gt,hgt.ne'] using hout)

theorem dead_eq_false {k : Kernel} {p : Slot} :
    dead k p = false ↔ (k.proc p).killed = false ∧ (k.proc p).pid ≠ 0 ∧
      (k.proc p).state = .runnable := by
  simp [dead,procIsDead,and_assoc]

theorem dispatchMlfq_queues {k s : Kernel} {L : Queues} {q : Level} {p : Slot} {rest : List Slot}
    (hf : SameFaces k s) (hlive : live k L q = p :: rest)
    (h : KQ s (remaining L q (p :: rest))) :
    ∃ k', dispatchMlfq s p = .ok k' ∧ KQ k' (remaining L q rest) ∧
      ∀ x, x ≠ p → k'.proc x = s.proc x := by
  have hrun := (dead_eq_false.mp (live_head hlive).2).2.2
  have hLq : remaining L q (p :: rest) q = p :: rest := by simp [remaining]
  have hmem : p ∈ remaining L q (p :: rest) q := by simp [hLq]
  have hpop := h.toQOk.popFront_eq hLq
  have hupd : Function.update (remaining L q (p :: rest)) q rest = remaining L q rest := by
    funext r
    rcases eq_or_ne r q with rfl | hr
    · simp [remaining]
    · simp [remaining,hr]
  have hsub : ∀ r, ∀ x ∈ remaining L q rest r, x ∈ remaining L q (p :: rest) r := by
    intro r x hx
    rcases eq_or_ne r q with rfl | hr
    · simp only [remaining,lt_irrefl,if_false,if_true] at hx ⊢
      exact List.mem_cons_of_mem p hx
    · simpa [remaining,hr] using hx
  have h1 : KQ (QOk.popped s q) (remaining L q rest) :=
    h.sub (hupd ▸ h.toQOk.popped_ok hLq) rfl hsub
  have hnot : ∀ r, p ∉ remaining L q rest r := by
    intro r hr
    have hrq := h.toQOk.same_level (hsub r p hr) hmem
    subst hrq
    have hnd := h.toQOk.nodup r
    rw [hLq] at hnd
    have hpr : p ∈ rest := by simpa [remaining] using hr
    exact (List.nodup_cons.mp hnd).1 hpr
  have hdis : dispatchMlfq s p = .ok ((QOk.popped s q).setProc p
      { (QOk.popped s q).proc p with
        stat := { ((QOk.popped s q).proc p).stat with
          numRun := ((QOk.popped s q).proc p).stat.numRun + 1 },
        latestQTime := (QOk.popped s q).ticks, state := .running }) := by
    unfold dispatchMlfq
    rw [if_neg (by rw [hf.state]; simp [hrun]),h.toQOk.level_of_mem hmem,ok_bind,hpop,ok_bind]
  refine ⟨_,hdis,h1.offQueue rfl hnot,?_⟩
  intro x hx
  simp [hx]

end Xv6
