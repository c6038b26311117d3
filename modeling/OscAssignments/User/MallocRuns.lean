import OscAssignments.Lib.Runs
import OscAssignments.User.MallocSafe

namespace User.Malloc
open Runs LinkRing

structure Program where
  heap : Heap
  used : List Block
  data : Mem

inductive Fault where
  | misuse
  | tooLarge
  | stuck
  deriving DecidableEq

inductive Act where
  | malloc (nbytes : Nat) (granted : Bool)
  | free (ap : Nat)
  | write (a : Nat) (v : Header)
  | sbrk (units : Nat)

namespace Program

def payload (bs : List Block) (a : Nat) : Bool :=
  bs.any fun b => decide (b.addr < a) && decide (a < b.stop)

def step (base : Nat) (s : Program) : Act → Except Fault Program
  | .malloc nbytes granted =>
    if 2 ^ 31 < nbytes + 16 then .error .tooLarge
    else match malloc base granted s.heap nbytes with
      | none => .error .stuck
      | some (h,0) => .ok { s with heap := h }
      | some (h,a + 1) =>
        let block := ⟨a,nunits nbytes⟩
        .ok ⟨h,block :: s.used,fun x => if block.covers x then h.mem x else s.data x⟩
  | .free ap =>
    match s.used.find? fun b => b.addr + 1 = ap with
    | none => .error .misuse
    | some b =>
      match Malloc.free s.heap ap with
      | none => .error .stuck
      | some h => .ok { s with heap := h, used := s.used.erase b }
  | .write a v =>
    if payload s.used a then
      .ok { s with
        heap := { s.heap with mem := Function.update s.heap.mem a v }
        data := Function.update s.data a v }
    else .error .misuse
  | .sbrk units => .ok { s with heap := { s.heap with brk := s.heap.brk + units } }

end Program

def umalloc (base brk : Nat) (mem : Mem) : System Program Act Fault :=
  ⟨⟨⟨mem,0,brk,[]⟩,[],mem⟩,Program.step base⟩

structure Kept (base : Nat) (s : Program) (L : List Block) : Prop where
  heap : Wf base s.heap L s.used
  data : ∀ b ∈ s.used, ∀ x, b.addr < x → x < b.stop → s.heap.mem x = s.data x

def Sound (base : Nat) (s : Program) : Prop :=
  (s.heap.freep = 0 ∧ s.used = [] ∧ s.heap.got = [] ∧ base < s.heap.brk) ∨ ∃ L, Kept base s L

section Runs
variable {base brk : Nat} {mem : Mem} {s t : Program} {h : Heap} {L used : List Block}

theorem start_wf (hbrk : base < h.brk) (hnew : h.freep = 0) (hgot : h.got = []) :
    Wf base (start base h) [] [] := by
  have hval : (start base h).mem base = ⟨base,0⟩ := by
    rw [start,if_pos hnew]
    dsimp only
    rw [setSize_self,setPtr_self]
  have hcur : (start base h).freep = base := by rw [start,if_pos hnew]
  have hbrk' : (start base h).brk = h.brk := by rw [start,if_pos hnew]
  have hgot' : (start base h).got = [] := by rw [start,if_pos hnew,hgot]
  refine ⟨⟨?_,?_⟩,List.pairwise_singleton _ _,⟨bottom base,List.mem_cons_self,hcur⟩,by simp,by simp,
    by simp [hgot'],by simp [hgot'],by simp [hgot'],hbrk' ▸ hbrk⟩
  · exact leads_nil.mpr (congrArg Header.ptr hval)
  · intro b hb
    rw [List.mem_singleton.mp hb]
    exact congrArg Header.size hval

theorem Wf.start_eq (w : Wf base h L used) (hbase : 0 < base) : start base h = h := by
  obtain ⟨f,hf,hcur⟩ := w.current
  have hpos : h.freep ≠ 0 := by
    rw [hcur]
    rcases List.mem_cons.mp hf with rfl | hf
    · exact hbase.ne'
    · have hlt := (w.addr_inside (List.mem_append_left used hf)).1
      omega
  rw [start,if_neg hpos]

theorem Sound.started (hbase : 0 < base) (h : Sound base s) :
    ∃ L, Wf base (start base s.heap) L s.used ∧
      ∀ b ∈ s.used, start base s.heap = s.heap ∧
        ∀ x, b.addr < x → x < b.stop → s.heap.mem x = s.data x := by
  rcases h with ⟨hnew,hused,hgot,hbrk⟩ | ⟨L,hk⟩
  · rw [hused]
    exact ⟨[],start_wf hbrk hnew hgot,by simp⟩
  · rw [hk.heap.start_eq hbase]
    exact ⟨L,hk.heap,fun b hb => ⟨rfl,hk.data b hb⟩⟩

theorem Wf.perm {used' : List Block} (w : Wf base h L used) (hp : used.Perm used') :
    Wf base h L used' :=
  ⟨w.ring,w.tidy,w.current,fun b hb => w.sizes b (hp.mem_iff.mpr hb),
    fun b hb => w.pos b (by simpa [hp.mem_iff] using hb),
    fun x => (cover_perm (hp.append_left L).symm x).trans (w.tiles x),w.once,w.inside,w.base_lt⟩

theorem Wf.write (w : Wf base h L used) {a : Nat} {b : Block} (hb : b ∈ used)
    (hlo : b.addr < a) (hhi : a < b.stop) (v : Header) :
    Wf base { h with mem := Function.update h.mem a v } L used := by
  have hcov : b.covers a = true := Block.covers_iff.mpr ⟨hlo.le,hhi⟩
  have hring : ∀ c ∈ bottom base :: L, Function.update h.mem a v c.addr = h.mem c.addr :=
    fun c hc => Function.update_of_ne (w.ring_ne_used hc hb hcov) _ _
  refine ⟨⟨?_,?_⟩,w.tidy,w.current,?_,w.pos,w.tiles,w.once,w.inside,w.base_lt⟩
  · refine w.ring.ring.congr fun x hx => ?_
    rw [← List.map_cons (f := Block.addr)] at hx
    obtain ⟨c,hc,rfl⟩ := List.mem_map.mp hx
    exact congrArg Header.ptr (hring c hc)
  · intro c hc
    dsimp only
    rw [hring c hc]
    exact w.ring.sizes c hc
  · intro c hc
    have hne : c.addr ≠ a := by
      rintro rfl
      have hneb : c ≠ b := by
        rintro rfl
        exact lt_irrefl _ hlo
      have hsub : [c,b].Subperm used := by
        refine List.subperm_of_subset (by simpa using hneb) ?_
        simp [hc,hb]
      have hle := w.cover_le [c,b] (hsub.trans (List.sublist_append_right L used).subperm) c.addr
      rw [cover_cons,cover_cons,hcov,
        Block.covers_addr (w.pos c (List.mem_append_right L hc))] at hle
      simp at hle
    dsimp only
    rw [Function.update_of_ne hne]
    exact w.sizes c hc

theorem Sound.malloc {nbytes : Nat} {granted : Bool} (hbase : 0 < base) (h : Sound base s)
    (hn : nbytes + 16 ≤ 2 ^ 31) :
    s.step base (.malloc nbytes granted) ≠ .error .stuck ∧
      ∀ t, s.step base (.malloc nbytes granted) = .ok t → Sound base t := by
  obtain ⟨L,w,hdata⟩ := h.started hbase
  obtain ⟨r,hr,hans⟩ := w.search_spec granted hn
  have hr : Malloc.malloc base granted s.heap nbytes = some r := hr
  rw [Program.step,if_neg (not_lt.mpr hn),hr]
  cases hans with
  | @block h' a L' new w' hframe _ _ _ =>
    refine ⟨fun hs => (by cases hs),?_⟩
    rintro _ ⟨⟩
    refine .inr ⟨L',w',fun b hb x hlo hhi => ?_⟩
    dsimp only
    split_ifs with hx
    · rfl
    · rcases List.mem_cons.mp hb with rfl | hb
      · exact absurd (Block.covers_iff.mpr ⟨hlo.le,hhi⟩) hx
      · obtain ⟨hstart,hold⟩ := hdata b hb
        rw [hframe b hb x (Block.covers_iff.mpr ⟨hlo.le,hhi⟩),hstart]
        exact hold x hlo hhi
  | null _ _ =>
    refine ⟨fun hs => (by cases hs),?_⟩
    rintro _ ⟨⟩
    refine .inr ⟨L,w,fun b hb x hlo hhi => ?_⟩
    obtain ⟨hstart,hold⟩ := hdata b hb
    dsimp only
    rw [hstart]
    exact hold x hlo hhi

theorem Sound.free {ap : Nat} (h : Sound base s) :
    s.step base (.free ap) ≠ .error .stuck ∧
      ∀ t, s.step base (.free ap) = .ok t → Sound base t := by
  rw [Program.step]
  cases hfind : s.used.find? fun b => b.addr + 1 = ap with
  | none =>
    refine ⟨fun hs => (by cases hs),?_⟩
    rintro _ ⟨⟩
  | some u =>
    have hu : u ∈ s.used := List.mem_of_find?_eq_some hfind
    have hap : u.addr + 1 = ap := by simpa using List.find?_some hfind
    rcases h with ⟨-,hused,-⟩ | ⟨L,hk⟩
    · rw [hused] at hu
      cases hu
    · obtain ⟨h',L',hfree,w',-,-,-,-,hframe⟩ := free_spec (hk.heap.perm (List.perm_cons_erase hu))
      dsimp only
      rw [← hap,hfree]
      refine ⟨fun hs => (by cases hs),?_⟩
      rintro _ ⟨⟩
      refine .inr ⟨L',w',fun b hb x hlo hhi => ?_⟩
      dsimp only
      rw [hframe b hb x (Block.covers_iff.mpr ⟨hlo.le,hhi⟩)]
      exact hk.data b (List.mem_of_mem_erase hb) x hlo hhi

theorem Sound.write {a : Nat} {v : Header} (h : Sound base s)
    (hs : s.step base (.write a v) = .ok t) : Sound base t := by
  rw [Program.step] at hs
  split_ifs at hs with hpay
  cases hs
  obtain ⟨u,hu,hin⟩ := List.any_eq_true.mp hpay
  rw [Bool.and_eq_true,decide_eq_true_eq,decide_eq_true_eq] at hin
  rcases h with ⟨-,hused,-⟩ | ⟨L,hk⟩
  · rw [hused] at hu
    cases hu
  · refine .inr ⟨L,hk.heap.write hu hin.1 hin.2 v,fun b hb x hlo hhi => ?_⟩
    dsimp only
    rcases eq_or_ne x a with rfl | hne
    · rw [Function.update_self,Function.update_self]
    · rw [Function.update_of_ne hne,Function.update_of_ne hne]
      exact hk.data b hb x hlo hhi

theorem Sound.sbrk {units : Nat} (h : Sound base s) (hs : s.step base (.sbrk units) = .ok t) :
    Sound base t := by
  cases hs
  rcases h with ⟨hnew,hused,hgot,hbrk⟩ | ⟨L,⟨w,hdata⟩⟩
  · exact .inl ⟨hnew,hused,hgot,hbrk.trans_le (Nat.le_add_right _ _)⟩
  · refine .inr ⟨L,⟨w.ring,w.tidy,w.current,w.sizes,w.pos,w.tiles,w.once,fun b hb => ?_,
      w.base_lt.trans_le (Nat.le_add_right _ _)⟩,hdata⟩
    obtain ⟨h1,h2⟩ := w.inside b hb
    exact ⟨h1,h2.trans (Nat.le_add_right _ _)⟩

theorem Sound.step {a : Act} (hbase : 0 < base) (h : Sound base s) :
    s.step base a ≠ .error .stuck ∧ ∀ t, s.step base a = .ok t → Sound base t := by
  cases a with
  | malloc nbytes granted =>
    rcases Nat.lt_or_ge (2 ^ 31) (nbytes + 16) with hlarge | hn
    · rw [Program.step,if_pos hlarge]
      refine ⟨fun hs => (by cases hs),?_⟩
      rintro _ ⟨⟩
    · exact h.malloc hbase hn
  | free ap => exact h.free
  | write a v =>
    refine ⟨fun hs => ?_,fun t hs => h.write hs⟩
    rw [Program.step] at hs
    split_ifs at hs
    cases hs
  | sbrk units => exact ⟨fun hs => (by cases hs),fun t hs => h.sbrk hs⟩

theorem reach_sound (hbase : 0 < base) (hbrk : base < brk)
    (h : (umalloc base brk mem).Reachable s) : Sound base s :=
  h.invariant (Sound base) (.inl ⟨rfl,rfl,rfl,hbrk⟩) fun _ _ t _ hi _ hstep => (hi.step hbase).2 t hstep

theorem heap_partition (hbase : 0 < base) (hbrk : base < brk)
    (h : (umalloc base brk mem).Reachable s) :
    (∃ L, Wf base (start base s.heap) L s.used) ∧
      (∀ b ∈ s.used, ∀ x, b.addr < x → x < b.stop → s.heap.mem x = s.data x) ∧
        ∀ a, (umalloc base brk mem).step s a ≠ .error .stuck := by
  have hs := reach_sound hbase hbrk h
  obtain ⟨L,w,hdata⟩ := hs.started hbase
  exact ⟨⟨L,w⟩,fun b hb => (hdata b hb).2,fun a => (hs.step hbase).1⟩

theorem heap_partition_run :
    let m := umalloc 1 5 fun _ => ⟨0,0⟩
    let s := m.after [.malloc 20 true,.malloc 9 true,.write 4098 ⟨7,7⟩,.free 4098]
    (∃ L, Wf 1 (start 1 s.heap) L s.used) ∧
      (∀ b ∈ s.used, ∀ x, b.addr < x → x < b.stop → s.heap.mem x = s.data x) ∧
        ∀ a, m.step s a ≠ .error .stuck :=
  heap_partition (by decide) (by decide) (System.reachable_after (by decide +kernel))

theorem malloc_answers {nbytes : Nat} (hbase : 0 < base) (hbrk : base < brk)
    (h : (umalloc base brk mem).Reachable s) (hn : nbytes + 16 ≤ 2 ^ 31) (granted : Bool) :
    nbytes ≤ (nunits nbytes - 1) * unit ∧ ∃ L r, Wf base (start base s.heap) L s.used ∧
      malloc base granted s.heap nbytes = some r ∧
      Answer base nbytes granted (start base s.heap) L s.used r := by
  obtain ⟨L,w,-⟩ := (reach_sound hbase hbrk h).started hbase
  obtain ⟨r,hr,hans⟩ := w.search_spec granted hn
  exact ⟨(nunits_spec hn).2.2,L,r,w,hr,hans⟩

theorem malloc_answers_run :
    let s := (umalloc 1 5 fun _ => ⟨0,0⟩).after [.malloc 20 true,.malloc 32700 false,.free 4098]
    9 ≤ (nunits 9 - 1) * unit ∧ ∃ L r, Wf 1 (start 1 s.heap) L s.used ∧
      malloc 1 false s.heap 9 = some r ∧ Answer 1 9 false (start 1 s.heap) L s.used r :=
  malloc_answers (by decide) (by decide) (System.reachable_after (by decide +kernel)) (by decide)
    false

end Runs

end User.Malloc
