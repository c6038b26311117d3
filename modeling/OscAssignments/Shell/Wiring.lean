import Mathlib.Tactic
import OscAssignments.Shell.Descriptors

namespace Shell.Wiring
open Runs Slots Descriptors

def executed : Option Bytes → Except Status Bytes
  | none => .error .crashed
  | some cmd => if 1000 ≤ cmd.length then .error .outOfBounds else .ok cmd

section Wires
variable {t₀ t : Fds} {n k : Nat} {pipes : Bool → Nat × Nat}

def Ready (t₀ : Fds) (k : Nat) (pipes : Bool → Nat × Nat) (t : Fds) : Prop :=
  (k = 0 ∧ t = t₀) ∨
    (0 < k ∧ Allocated t₀ (.pipeRead (k - 1)) (pipes !(k % 2 == 1)).1 t)

structure Placed (n : Nat) (t₀ : Fds) (k : Nat) (f : Fork) : Prop where
  stdin : get f.child 0 = if k = 0 then get t₀ 0 else some (.pipeRead (k - 1))
  stdout : get f.child 1 = if k = n - 1 then get t₀ 1 else some (.pipeWrite k)
  closed : ∀ j < k, some (.pipeWrite j) ∉ f.parent

theorem get_dup2_self {t : Fds} {fd newfd : Nat} {f : File} (hfd : get t fd = some f)
    (hnew : Held newfd t) : get (dup2 t (some fd) newfd) newfd = some f := by
  rw [dup2,Option.bind_some,hfd,get_set_self hnew.lt]

theorem get_dup2_ne {t : Fds} {fd newfd i : Nat} (hne : i ≠ newfd) :
    get (dup2 t (some fd) newfd) i = get t i := by
  rw [dup2]
  split
  · rfl
  · exact get_set_ne hne _

theorem mem_alloc {t t' : Fds} {a f : File} {i : Nat} (h : Allocated t a i t')
    (hf : some f ∈ t') : some f ∈ t ∨ f = a := by
  rw [h.eq] at hf
  rcases List.mem_or_eq_of_mem_set hf with hf | hf
  · exact .inl hf
  · exact .inr (Option.some.inj hf)

theorem Ready.free_le (h : Ready t₀ k pipes t) : free t₀ ≤ free t + 1 := by
  rcases h with ⟨-,rfl⟩ | ⟨-,ha⟩
  · omega
  · have := ha.count
    omega

theorem Ready.held (h : Ready t₀ k pipes t) {i : Nat} (hi : Held i t₀) :
    Held i t ∧ get t i = get t₀ i := by
  rcases h with ⟨-,rfl⟩ | ⟨-,ha⟩
  · exact ⟨hi,rfl⟩
  · exact ⟨(hi.alloc ha).1,get_alloc_held ha hi⟩

theorem Ready.closed {r w : Nat} {t₂ : Fds} (h : Ready t₀ k pipes t) (hp : Piped t k r w t₂)
    (hfresh : ∀ j, some (.pipeWrite j) ∉ t₀) : ∀ j < k, some (.pipeWrite j) ∉ t₂ := by
  intro j hj hmem
  obtain ⟨t₁,hr,hw⟩ := hp
  rcases mem_alloc hw hmem with hmem | heq
  · rcases mem_alloc hr hmem with hmem | heq
    · rcases h with ⟨rfl,-⟩ | ⟨-,ha⟩
      · omega
      · rcases mem_alloc ha hmem with hmem | heq
        · exact hfresh j hmem
        · cases heq
    · cases heq
  · cases heq
    exact lt_irrefl _ hj

theorem Ready.placed {r w : Nat} {t₂ : Fds} (h : Ready t₀ k pipes t) (hp : Piped t k r w t₂)
    (hn : 2 ≤ n) (hin : Held 0 t₀) (hout : Held 1 t₀) (hfresh : ∀ j, some (.pipeWrite j) ∉ t₀)
    (cmd : Option Bytes) :
    Placed n t₀ k ⟨cmd,t₂,configureStage n k (Function.update pipes (k % 2 == 1) (r,w)) t₂⟩ := by
  have hsame := (h.held hout).2
  obtain ⟨hin₂,hget0,-,-⟩ := hp.held (h.held hin).1
  obtain ⟨hout₂,hget1,-,hw1⟩ := hp.held (h.held hout).1
  have hw : get t₂ w = some (.pipeWrite k) := hp.get_write
  have hparity : (!(k % 2 == 1)) ≠ (k % 2 == 1) := by simp
  rcases h with ⟨rfl,rfl⟩ | ⟨hk,ha⟩
  · refine ⟨?_,?_,fun j hj => absurd hj (Nat.not_lt_zero j)⟩
    · rw [configureStage,if_pos rfl,if_pos rfl]
      exact (get_dup2_ne (by decide)).trans hget0
    · rw [configureStage,if_pos rfl,if_neg (by omega)]
      exact get_dup2_self hw hout₂
  · have hclosed := Ready.closed (.inr ⟨hk,ha⟩) hp hfresh
    have hread : Held (pipes !(k % 2 == 1)).1 t := held_alloc ha
    obtain ⟨-,hgetr,-,-⟩ := hp.held hread
    have hr1 : (pipes !(k % 2 == 1)).1 ≠ 1 := (hout.alloc ha).2.symm
    have hr : get t₂ (pipes !(k % 2 == 1)).1 = some (.pipeRead (k - 1)) :=
      hgetr.trans (get_alloc ha)
    have hk0 : k ≠ 0 := by omega
    rcases eq_or_ne k (n - 1) with hlast | hmid
    · refine ⟨?_,?_,hclosed⟩
      · rw [configureStage,if_neg hk0,if_pos hlast,if_neg hk0,Function.update_of_ne hparity]
        exact get_dup2_self hr hin₂
      · rw [configureStage,if_neg hk0,if_pos hlast,if_pos hlast]
        exact (get_dup2_ne (by decide)).trans (hget1.trans hsame)
    · refine ⟨?_,?_,hclosed⟩
      · rw [configureStage,if_neg hk0,if_neg hmid,if_neg hk0,Function.update_of_ne hparity,
          Function.update_self]
        refine get_dup2_self ((get_dup2_ne hr1).trans hr) ?_
        rw [Held,get_dup2_ne (by decide)]
        exact hin₂
      · rw [configureStage,if_neg hk0,if_neg hmid,if_neg hmid,Function.update_self]
        exact (get_dup2_ne (by decide)).trans (get_dup2_self hw hout₂)

theorem allocated_release {t t₁ t₂ : Fds} {a b : File} {i j : Nat} (hi : Allocated t a i t₁)
    (hj : Allocated t₁ b j t₂) : Allocated t b j (release t₂ i) := by
  have hne : i ≠ j := ((held_alloc hi).alloc hj).2
  have heq : release t₂ i = t.set j (some b) := by
    rw [hj.eq,release,List.set_comm _ _ hne.symm]
    exact congrArg (List.set · j (some b)) (release_alloc hi)
  have hlt : j < t.length := by
    have := hj.lt
    rwa [hi.eq,List.length_set] at this
  have hfree : get t j = none := by
    rw [← hj.was_free,hi.eq,get_set_ne hne.symm]
  rw [heq]
  exact allocated_set hlt hfree b

theorem Ready.next {r w : Nat} {t₂ : Fds} (h : Ready t₀ k pipes t) (hp : Piped t k r w t₂)
    (hlast : k ≠ n - 1) :
    Ready t₀ (k + 1) (Function.update pipes (k % 2 == 1) (r,w))
      (closeEnds n k (Function.update pipes (k % 2 == 1) (r,w)) t₂) := by
  obtain ⟨t₁,hr,hw⟩ := hp
  refine .inr ⟨Nat.succ_pos k,?_⟩
  rw [parity_succ,Function.update_self,Nat.add_sub_cancel]
  rcases h with ⟨rfl,rfl⟩ | ⟨hk,ha⟩
  · rw [closeEnds,if_pos rfl]
    change Allocated _ _ r (release t₂ w)
    rw [release_alloc hw]
    exact hr
  · have hparity : (!(k % 2 == 1)) ≠ (k % 2 == 1) := by simp
    rw [closeEnds,if_neg (by omega),if_neg hlast,Function.update_self,
      Function.update_of_ne hparity,release_alloc hw]
    exact allocated_release ha hr

theorem stageLoop_placed {env : Env} (allCmds : List Bytes) (hpipes : ∀ k, env.pipes k = true)
    (hforks : ∀ k, env.forks k = true) (hin : Held 0 t₀) (hout : Held 1 t₀) (hfree : 3 ≤ free t₀)
    (hfresh : ∀ j, some (.pipeWrite j) ∉ t₀) (hn : 2 ≤ n) (hfit : n ≤ 400) (left : Nat) :
    ∀ (k : Nat) (pipes : Bool → Nat × Nat) (t : Fds), k + left = n → Ready t₀ k pipes t →
      ∃ stages t', stageLoop env n allCmds left k pipes t = .ok (stages,t') ∧
        stages.length = left ∧
        ∀ (j : Nat) (h : j < stages.length),
          Placed n t₀ (k + j) stages[j] ∧ stages[j].cmd = allCmds[k + j]? := by
  induction left with
  | zero =>
    intro k pipes t _ _
    exact ⟨[],t,rfl,rfl,fun j hj => absurd hj (Nat.not_lt_zero j)⟩
  | succ left ih =>
    intro k pipes t hk hready
    have hroom := hready.free_le
    obtain ⟨r,w,t₂,hpipe,hp⟩ := exists_pipe (t := t) k (by omega)
    have hrest : ∃ stages t', stageLoop env n allCmds left (k + 1)
        (Function.update pipes (k % 2 == 1) (r,w))
        (closeEnds n k (Function.update pipes (k % 2 == 1) (r,w)) t₂) = .ok (stages,t') ∧
        stages.length = left ∧
        ∀ (j : Nat) (h : j < stages.length),
          Placed n t₀ (k + 1 + j) stages[j] ∧ stages[j].cmd = allCmds[k + 1 + j]? := by
      rcases Nat.eq_zero_or_pos left with rfl | hpos
      · exact ⟨[],_,rfl,rfl,fun j hj => absurd hj (Nat.not_lt_zero j)⟩
      · exact ih _ _ _ (by omega) (hready.next hp (by omega))
    obtain ⟨stages,t',hloop,hlen,hplaced⟩ := hrest
    refine ⟨⟨allCmds[k]?,t₂,configureStage n k (Function.update pipes (k % 2 == 1) (r,w)) t₂⟩ :: stages,
      t',?_,by rw [List.length_cons,hlen],?_⟩
    · rw [stageLoop,if_neg (by omega),hpipes,if_pos rfl,hpipe]
      simp only [hforks,if_true]
      rw [hloop]
      rfl
    · intro j hj
      cases j with
      | zero => exact ⟨hready.placed hp hn hin hout hfresh _,rfl⟩
      | succ j =>
        rw [List.getElem_cons_succ,show k + (j + 1) = k + 1 + j by omega]
        exact hplaced j (by simpa using hj)

end Wires

def pieces (commands : Bytes) : List Bytes := commands.splitOnP (· == 124)

theorem pieces_length (commands : Bytes) : (pieces commands).length = countPipes commands + 1 :=
  Tokens.length_splitOnP commands

theorem strtok_length_iff (commands : Bytes) :
    (strtok [124] commands).length = countPipes commands + 1 ↔ ∀ p ∈ pieces commands, p ≠ [] := by
  rw [strtok_singleton]
  exact Tokens.length_tokens_iff commands

theorem strtok_eq_pieces {commands : Bytes} (h : ∀ p ∈ pieces commands, p ≠ []) :
    strtok [124] commands = pieces commands := by
  rw [strtok_singleton]
  exact Tokens.tokens_eq_splitOnP h

structure Serves (env : Env) (t : Fds) : Prop where
  pipes : ∀ k, env.pipes k = true
  forks : ∀ k, env.forks k = true
  stdin : Held 0 t
  stdout : Held 1 t
  room : 3 ≤ free t
  fresh : ∀ k, some (.pipeWrite k) ∉ t

structure Wired (n : Nat) (t : Fds) (stages : List Fork) : Prop where
  length : stages.length = n
  first : ∀ f ∈ stages.head?, get f.child 0 = get t 0
  last : ∀ f ∈ stages.getLast?, get f.child 1 = get t 1
  joined : ∀ (k : Nat) (h : k + 1 < stages.length), ∃ p,
    get stages[k].child 1 = some (.pipeWrite p) ∧ get stages[k + 1].child 0 = some (.pipeRead p) ∧
      some (.pipeWrite p) ∉ stages[k + 1].parent

theorem wired_of_placed {n : Nat} {t : Fds} {stages : List Fork} (hlen : stages.length = n)
    (h : ∀ (k : Nat) (hk : k < stages.length), Placed n t k stages[k]) : Wired n t stages := by
  refine ⟨hlen,?_,?_,?_⟩
  · intro f hf
    rw [List.head?_eq_getElem?] at hf
    obtain ⟨hlt,rfl⟩ := List.getElem?_eq_some_iff.mp hf
    exact (h 0 hlt).stdin.trans (if_pos rfl)
  · intro f hf
    rw [List.getLast?_eq_getElem?] at hf
    obtain ⟨hlt,rfl⟩ := List.getElem?_eq_some_iff.mp hf
    exact (h _ hlt).stdout.trans (if_pos (by rw [hlen]))
  · intro k hk
    refine ⟨k,(h k (by omega)).stdout.trans (if_neg (by omega)),?_,?_⟩
    · exact (h (k + 1) hk).stdin.trans (if_neg (Nat.succ_ne_zero k))
    · exact (h (k + 1) hk).closed k (Nat.lt_succ_self k)

theorem handlePipelining_overrun {env : Env} {t : Fds} {commands : Bytes}
    (h : 400 < (strtok [124] commands).length) :
    handlePipelining env t commands = .error .outOfBounds := by
  rw [handlePipelining]
  exact if_pos h

theorem handlePipelining_fits {env : Env} {t : Fds} {commands : Bytes} (hs : Serves env t)
    (hbar : 0 < countPipes commands) (hfit : (pieces commands).length ≤ 400) :
    ∃ stages t', handlePipelining env t commands = .ok (stages,t') ∧
      Wired (pieces commands).length t stages ∧
      ∀ (k : Nat) (h : k < stages.length), stages[k].cmd = (strtok [124] commands)[k]? := by
  have hlen := pieces_length commands
  have htokens : (strtok [124] commands).length ≤ (pieces commands).length := by
    rw [strtok_singleton,Tokens.tokens]
    exact List.length_filter_le ..
  obtain ⟨stages,t',hloop,hcount,hplaced⟩ := stageLoop_placed (strtok [124] commands)
    hs.pipes hs.forks hs.stdin hs.stdout hs.room hs.fresh (n := (pieces commands).length) (by omega)
    hfit (pieces commands).length 0 (fun _ => (0,0)) t (Nat.zero_add _) (.inl ⟨rfl,rfl⟩)
  simp only [Nat.zero_add] at hplaced
  refine ⟨stages,t',?_,wired_of_placed hcount fun k hk => (hplaced k hk).1,fun k hk => (hplaced k hk).2⟩
  rw [handlePipelining,← hlen]
  exact (if_neg (by omega)).trans hloop

theorem pipeline_wired_iff {env : Env} {t : Fds} (hs : Serves env t) {commands : Bytes}
    (hn : 2 ≤ (pieces commands).length) (hne : ∀ p ∈ pieces commands, p ≠ []) :
    (∃ stages t', handlePipelining env t commands = .ok (stages,t') ∧
        Wired (pieces commands).length t stages) ↔
      (pieces commands).length ≤ 400 := by
  constructor
  · rintro ⟨stages,t',hrun,-⟩
    by_contra hover
    rw [handlePipelining_overrun (by rw [strtok_eq_pieces hne]; omega)] at hrun
    cases hrun
  · intro hfit
    have hlen := pieces_length commands
    obtain ⟨stages,t',hrun,hwired,-⟩ := handlePipelining_fits hs (by omega) hfit
    exact ⟨stages,t',hrun,hwired⟩

theorem serves_standard : Serves plainEnv standardFds := by
  refine ⟨fun _ => rfl,fun _ => rfl,rfl,rfl,by decide,?_⟩
  intro k hk
  simp [standardFds] at hk

theorem pipeline_wired_three :
    ∃ stages t', handlePipelining plainEnv standardFds (ascii ['a','|','b','|','c']) =
        .ok (stages,t') ∧ Wired 3 standardFds stages := by
  have hpieces : 2 ≤ (pieces (ascii ['a','|','b','|','c'])).length := by decide +kernel
  exact (pipeline_wired_iff serves_standard hpieces (by decide +kernel)).mpr (by decide +kernel)

def barred (n : Nat) : Bytes := 97 :: (List.replicate n [124,97]).flatten

theorem pipeline_overruns_allCmds :
    Serves plainEnv standardFds ∧ (pieces (barred 400)).length = 401 ∧
      (∀ p ∈ pieces (barred 400), p ≠ []) ∧
      handlePipelining plainEnv standardFds (barred 400) = .error .outOfBounds ∧
      ¬∃ stages t', handlePipelining plainEnv standardFds (barred 400) = .ok (stages,t') ∧
        Wired 401 standardFds stages := by
  have hlen : (pieces (barred 400)).length = 401 := by decide +kernel
  have hne : ∀ p ∈ pieces (barred 400), p ≠ [] := by decide +kernel
  have hrun : handlePipelining plainEnv standardFds (barred 400) = .error .outOfBounds := by
    apply handlePipelining_overrun
    rw [strtok_eq_pieces hne,hlen]
    decide
  refine ⟨serves_standard,hlen,hne,hrun,?_⟩
  rintro ⟨stages,t',h,-⟩
  rw [hrun] at h
  cases h

def Splits (env : Env) (t : Fds) (commands : Bytes) : Prop :=
  (strtok [124] commands).length = countPipes commands + 1 ∧
    ∃ stages t', handlePipelining env t commands = .ok (stages,t') ∧
      stages.map (fun f => executed f.cmd) = (pieces commands).map .ok ∧
      ∀ f ∈ stages.getLast?, get f.child 1 = get t 1

def Rejected (env : Env) (t : Fds) (commands : Bytes) : Prop :=
  ∃ t', handlePipelining env t commands = .ok ([],t')

theorem not_rejected {env : Env} {t : Fds} (hs : Serves env t) (commands : Bytes) :
    ¬Rejected env t commands := by
  rintro ⟨t',hrun⟩
  have hroom := hs.room
  obtain ⟨r,w,t₂,hpipe,-⟩ := exists_pipe (t := t) 0 (by omega)
  rw [handlePipelining] at hrun
  split at hrun
  · cases hrun
  · rw [stageLoop,if_neg (by decide),hs.pipes,if_pos rfl,hpipe] at hrun
    simp only [hs.forks,if_true] at hrun
    obtain ⟨⟨stages,t₃⟩,-,hcons⟩ := bind_eq_ok.mp hrun
    cases hcons

theorem executed_eq_ok {p c : Bytes} : executed (some p) = .ok c ↔ p = c ∧ p.length < 1000 := by
  rw [executed]
  split
  · constructor
    · intro h
      cases h
    · intro h
      omega
  · constructor
    · intro h
      cases h
      exact ⟨rfl,by omega⟩
    · rintro ⟨rfl,-⟩
      rfl

theorem executed_all {stages : List Fork} {ps : List Bytes} (hlen : stages.length = ps.length)
    (hcmd : ∀ (k : Nat) (h : k < stages.length), stages[k].cmd = ps[k]?) :
    stages.map (fun f => executed f.cmd) = ps.map .ok ↔ ∀ p ∈ ps, p.length < 1000 := by
  have hsome : ∀ (k : Nat) (h : k < stages.length) (h' : k < ps.length),
      stages[k].cmd = some ps[k] :=
    fun k h h' => (hcmd k h).trans (List.getElem?_eq_getElem h')
  constructor
  · intro h p hp
    obtain ⟨k,hk,rfl⟩ := List.getElem_of_mem hp
    have hk' : k < stages.length := hlen ▸ hk
    have hget := congrArg (·[k]?) h
    simp only [List.getElem?_map,List.getElem?_eq_getElem hk',List.getElem?_eq_getElem hk,
      Option.map_some,Option.some.injEq,hsome k hk' hk] at hget
    exact (executed_eq_ok.mp hget).2
  · intro h
    apply List.ext_getElem
    · rw [List.length_map,List.length_map,hlen]
    · intro k h1 h2
      rw [List.length_map] at h1 h2
      rw [List.getElem_map,List.getElem_map,hsome k h1 h2]
      exact executed_eq_ok.mpr ⟨rfl,h _ (List.getElem_mem h2)⟩

theorem pipeline_splits_iff {env : Env} {t : Fds} (hs : Serves env t) {commands : Bytes}
    (hbar : 0 < countPipes commands) :
    Splits env t commands ∨ Rejected env t commands ↔
      (∀ p ∈ pieces commands, p ≠ []) ∧ (pieces commands).length ≤ 400 ∧
        ∀ p ∈ pieces commands, p.length < 1000 := by
  rw [or_iff_left (not_rejected hs commands),Splits,strtok_length_iff]
  constructor
  · rintro ⟨hne,stages,t',hrun,hmap,-⟩
    have hfit : (pieces commands).length ≤ 400 := by
      by_contra hover
      rw [handlePipelining_overrun (by rw [strtok_eq_pieces hne]; omega)] at hrun
      cases hrun
    obtain ⟨stages',t₁,hrun',hwired,hcmd⟩ := handlePipelining_fits hs hbar hfit
    rw [hrun'] at hrun
    cases hrun
    rw [strtok_eq_pieces hne] at hcmd
    exact ⟨hne,hfit,(executed_all hwired.length hcmd).mp hmap⟩
  · rintro ⟨hne,hfit,hshort⟩
    obtain ⟨stages,t',hrun,hwired,hcmd⟩ := handlePipelining_fits hs hbar hfit
    rw [strtok_eq_pieces hne] at hcmd
    exact ⟨hne,stages,t',hrun,(executed_all hwired.length hcmd).mpr hshort,hwired.last⟩

theorem pipeline_splits_ls :
    0 < countPipes (ascii ['l','s',' ','|',' ','w','c']) ∧
      (Splits plainEnv standardFds (ascii ['l','s',' ','|',' ','w','c']) ∨
        Rejected plainEnv standardFds (ascii ['l','s',' ','|',' ','w','c'])) :=
  ⟨by decide +kernel,(pipeline_splits_iff serves_standard (by decide +kernel)).mpr
    (by decide +kernel)⟩

theorem empty_piece_runs_null :
    countPipes (ascii ['a','|','|','b']) + 1 = 3 ∧
      strtok [124] (ascii ['a','|','|','b']) = [ascii ['a'],ascii ['b']] ∧
      ((handlePipelining plainEnv standardFds (ascii ['a','|','|','b'])).toOption.map fun r =>
        r.1.map fun f => (executed f.cmd).toOption) =
        some [some (ascii ['a']),some (ascii ['b']),none] ∧
      ((handlePipelining plainEnv standardFds (ascii ['a','|','|','b'])).toOption.map fun r =>
        r.1.map fun f => get f.child 1) =
        some [some (.pipeWrite 0),some (.pipeWrite 1),some (.inherited 1)] ∧
      ¬Splits plainEnv standardFds (ascii ['a','|','|','b']) ∧
      ¬Rejected plainEnv standardFds (ascii ['a','|','|','b']) := by
  refine ⟨by decide +kernel,by decide +kernel,by decide +kernel,by decide +kernel,?_,
    not_rejected serves_standard _⟩
  rintro ⟨hlen,-⟩
  exact absurd hlen (by decide +kernel)

end Shell.Wiring
