import Mathlib.Tactic
import OscAssignments.User.MallocRing

namespace User.Malloc
open LinkRing

section Lists
variable {p q u a b : Block} {L low high rest used : List Block} {x : Nat}

theorem exists_below {bp : Nat} (h : (p :: L).Pairwise fun a b => a.stop < b.addr)
    (hp : p.addr < bp) (hne : ∀ b ∈ L, b.addr ≠ bp) :
    ∃ low q high, p :: L = low ++ q :: high ∧ q.addr < bp ∧ ∀ g ∈ high, bp < g.addr := by
  induction L generalizing p with
  | nil => exact ⟨[],p,[],rfl,hp,by simp⟩
  | cons b L ih =>
    obtain ⟨hpb,htail⟩ := List.pairwise_cons.mp h
    rcases lt_or_ge b.addr bp with hb | hb
    · obtain ⟨low,q,high,heq,hq,hhigh⟩ := ih htail hb fun c hc => hne c (List.mem_cons_of_mem b hc)
      exact ⟨p :: low,q,high,by rw [heq]; rfl,hq,hhigh⟩
    · refine ⟨[],p,b :: L,rfl,hp,fun g hg => ?_⟩
      have hbp : bp < b.addr := lt_of_le_of_ne hb (hne b List.mem_cons_self).symm
      rcases List.mem_cons.mp hg with rfl | hg
      · exact hbp
      · have hlt := (List.pairwise_cons.mp htail).1 g hg
        unfold Block.stop at hlt
        omega

theorem mergeUpper_addr (u : Block) (L : List Block) : (mergeUpper u L).1.addr = u.addr := by
  cases L with
  | nil => rfl
  | cons g L =>
    rw [mergeUpper]
    split_ifs <;> rfl

theorem mergeUpper_size (u : Block) (L : List Block) : u.size ≤ (mergeUpper u L).1.size := by
  cases L with
  | nil => exact le_rfl
  | cons g L =>
    rw [mergeUpper]
    split_ifs
    · exact Nat.le_add_right _ _
    · exact le_rfl

theorem mergeUpper_subset (u : Block) (L : List Block) : ∀ b ∈ (mergeUpper u L).2, b ∈ L := by
  cases L with
  | nil => exact fun b hb => hb
  | cons g L =>
    rw [mergeUpper]
    split_ifs
    · exact fun b hb => List.mem_cons_of_mem g hb
    · exact fun b hb => hb

theorem mergeUpper_append (hne : ∀ b ∈ low, u.stop ≠ b.addr) :
    mergeUpper u (high ++ low) = ((mergeUpper u high).1,(mergeUpper u high).2 ++ low) := by
  cases high with
  | nil =>
    cases low with
    | nil => rfl
    | cons b low =>
      change mergeUpper u (b :: low) = (u,b :: low)
      rw [mergeUpper,if_neg (hne b List.mem_cons_self)]
  | cons g high =>
    rw [List.cons_append,mergeUpper,mergeUpper]
    split_ifs <;> rfl

theorem mergeUpper_length (u : Block) (L : List Block) : (mergeUpper u L).2.length ≤ L.length := by
  cases L with
  | nil => exact le_rfl
  | cons g L =>
    rw [mergeUpper]
    split_ifs
    · exact Nat.le_succ _
    · exact le_rfl

theorem cover_mergeUpper (x : Nat) :
    cover ((mergeUpper u L).1 :: (mergeUpper u L).2) x = cover (u :: L) x := by
  cases L with
  | nil => rfl
  | cons g L =>
    rw [mergeUpper]
    split_ifs with h
    · have hjoin : cover (u.join g :: L) x = cover (u :: g :: L) x := cover_join h x
      exact hjoin
    · rfl

theorem tidy_mergeUpper (h : L.Pairwise fun a b => a.stop < b.addr)
    (hu : ∀ g ∈ L, u.stop ≤ g.addr) :
    ((mergeUpper u L).1 :: (mergeUpper u L).2).Pairwise fun a b => a.stop < b.addr := by
  cases L with
  | nil => exact List.pairwise_singleton _ _
  | cons g L =>
    obtain ⟨hg,htail⟩ := List.pairwise_cons.mp h
    have hug := hu g List.mem_cons_self
    rw [mergeUpper]
    split_ifs with hjoin
    · refine List.pairwise_cons.mpr ⟨fun b hb => ?_,htail⟩
      have hlt := hg b hb
      unfold Block.stop Block.join at *
      dsimp only at *
      omega
    · refine List.pairwise_cons.mpr ⟨fun b hb => ?_,h⟩
      change u.stop < b.addr
      rcases List.mem_cons.mp hb with rfl | hb
      · omega
      · have hlt := hg b hb
        unfold Block.stop at *
        omega

theorem cover_mergeLower (x : Nat) : cover (mergeLower p u rest) x = cover (p :: u :: rest) x := by
  rw [mergeLower]
  split_ifs with h
  · have hjoin : cover (p.join u :: rest) x = cover (p :: u :: rest) x := cover_join h x
    exact hjoin
  · rfl

theorem tidy_mergeLower (h : (u :: rest).Pairwise fun a b => a.stop < b.addr)
    (hp : p.stop ≤ u.addr) : (mergeLower p u rest).Pairwise fun a b => a.stop < b.addr := by
  obtain ⟨hu,htail⟩ := List.pairwise_cons.mp h
  rw [mergeLower]
  split_ifs with hjoin
  · refine List.pairwise_cons.mpr ⟨fun b hb => ?_,htail⟩
    have hlt := hu b hb
    unfold Block.stop Block.join at *
    dsimp only at *
    omega
  · refine List.pairwise_cons.mpr ⟨fun b hb => ?_,h⟩
    rcases List.mem_cons.mp hb with rfl | hb
    · omega
    · have hlt := hu b hb
      unfold Block.stop at *
      omega

theorem mem_mergeLower (h : b ∈ mergeLower p u rest) :
    b ∈ rest ∨ b.addr = p.addr ∧ p.size ≤ b.size ∨ b = u := by
  rw [mergeLower] at h
  split_ifs at h
  · rcases List.mem_cons.mp h with rfl | h
    · exact .inr (.inl ⟨rfl,Nat.le_add_right _ _⟩)
    · exact .inl h
  · rcases List.mem_cons.mp h with rfl | h
    · exact .inr (.inl ⟨rfl,le_rfl⟩)
    · rcases List.mem_cons.mp h with rfl | h
      · exact .inr (.inr rfl)
      · exact .inl h

theorem exists_mergeLower (p u : Block) (rest : List Block) :
    ∃ b ∈ mergeLower p u rest, u.size ≤ b.size := by
  rw [mergeLower]
  split_ifs
  · exact ⟨p.join u,List.mem_cons_self,Nat.le_add_left _ _⟩
  · exact ⟨u,List.mem_cons_of_mem p List.mem_cons_self,le_rfl⟩

theorem mergeLower_length (p u : Block) (rest : List Block) :
    (mergeLower p u rest).length ≤ rest.length + 2 := by
  rw [mergeLower]
  split_ifs
  · exact Nat.le_succ _
  · exact le_rfl

theorem mergeLower_append : mergeLower p u (rest ++ low) = mergeLower p u rest ++ low := by
  rw [mergeLower,mergeLower]
  split_ifs <;> rfl

theorem mergeLower_cons (p u : Block) (rest : List Block) :
    ∃ q tl, mergeLower p u rest = q :: tl ∧ q.addr = p.addr ∧ (p.stop ≠ u.addr → q = p) := by
  rw [mergeLower]
  split_ifs with h
  · exact ⟨_,_,rfl,rfl,fun hne => absurd h hne⟩
  · exact ⟨_,_,rfl,rfl,fun _ => rfl⟩

end Lists

section Ring
variable {mem : Mem} {p q u b : Block} {L low high : List Block} {bp : Nat}

theorem Ringed.turn (h : Ringed mem p L) (hs : p :: L = low ++ q :: high) :
    Ringed mem q (high ++ low) := by
  cases low with
  | nil =>
    obtain ⟨rfl,rfl⟩ := List.cons.inj hs
    rw [List.append_nil]
    exact h
  | cons c low =>
    obtain ⟨rfl,rfl⟩ := List.cons.inj hs
    exact h.rotate

theorem Ringed.turn_back (low : List Block) (h : Ringed mem q (high ++ low))
    (hs : p :: L = low ++ q :: high) : Ringed mem p L := by
  cases low with
  | nil =>
    obtain ⟨rfl,rfl⟩ := List.cons.inj hs
    rw [List.append_nil] at h
    exact h
  | cons c low =>
    obtain ⟨rfl,rfl⟩ := List.cons.inj hs
    exact h.rotate

theorem Ringed.next_eq (h : Ringed mem p L) (hs : p :: L = low ++ b :: high) :
    (mem b.addr).ptr = (high.map Block.addr).headD p.addr := by
  cases low with
  | nil =>
    obtain ⟨rfl,rfl⟩ := List.cons.inj hs
    exact Leads.next_head h.ring
  | cons c low =>
    obtain ⟨rfl,rfl⟩ := List.cons.inj hs
    have hring : Circle (next mem) p.addr ((low ++ b :: high).map Block.addr) := h.ring
    rw [List.map_append,List.map_cons] at hring
    exact Leads.next_head (leads_append.mp hring).2

theorem stops_at (h : Ringed mem p L) (hs : p :: L = low ++ q :: high)
    (htidy : (p :: L).Pairwise fun a b => a.stop < b.addr) (hq : q.addr < bp)
    (hhigh : ∀ g ∈ high, bp < g.addr) : stops mem bp q.addr = true := by
  have hnext := h.next_eq hs
  unfold stops
  cases high with
  | nil =>
    have hpq : p.addr ≤ q.addr := by
      have hmem : q ∈ p :: L := by rw [hs]; simp
      rcases List.mem_cons.mp hmem with rfl | hmem
      · exact le_rfl
      · have hlt := (List.pairwise_cons.mp htidy).1 q hmem
        unfold Block.stop at hlt
        omega
    rw [List.map_nil,List.headD_nil] at hnext
    simp [hnext,hq,hpq]
  | cons g high =>
    have hg := hhigh g List.mem_cons_self
    rw [List.map_cons,List.headD_cons] at hnext
    simp [hnext,hq,hg]

theorem not_stops (h : Ringed mem p L) (hs : p :: L = low ++ q :: high)
    (htidy : (p :: L).Pairwise fun a b => a.stop < b.addr) (hq : q.addr < bp)
    (hhigh : ∀ g ∈ high, bp < g.addr) (hp : p.addr < bp) (hb : b ∈ high ++ low) :
    stops mem bp b.addr = false := by
  have hnext : (mem b.addr).ptr < bp ∧ b.addr < (mem b.addr).ptr ∨
      bp < b.addr ∧ (b.addr < (mem b.addr).ptr ∨ (mem b.addr).ptr < bp) := by
    rw [hs] at htidy
    obtain ⟨-,htail,hcross⟩ := List.pairwise_append.mp htidy
    rcases List.mem_append.mp hb with hb | hb
    · refine .inr ⟨hhigh b hb,?_⟩
      obtain ⟨pre,post,rfl⟩ := List.append_of_mem hb
      have hsplit : p :: L = (low ++ q :: pre) ++ b :: post := by
        rw [hs]
        simp
      have hn := h.next_eq hsplit
      cases post with
      | nil =>
        rw [List.map_nil,List.headD_nil] at hn
        exact .inr (hn ▸ hp)
      | cons c post =>
        rw [List.map_cons,List.headD_cons] at hn
        rw [hn]
        have hpost := (List.pairwise_append.mp (List.pairwise_cons.mp htail).2).2.1
        have hlt := (List.pairwise_cons.mp hpost).1 c List.mem_cons_self
        unfold Block.stop at hlt
        exact .inl (by omega)
    · obtain ⟨pre,post,rfl⟩ := List.append_of_mem hb
      have hsplit : p :: L = pre ++ b :: (post ++ q :: high) := by
        rw [hs]
        simp
      have hn := h.next_eq hsplit
      have hbq := hcross b (by simp) q List.mem_cons_self
      unfold Block.stop at hbq
      cases post with
      | nil =>
        rw [List.nil_append,List.map_cons,List.headD_cons] at hn
        exact .inl (by omega)
      | cons c post =>
        rw [List.cons_append,List.map_cons,List.headD_cons] at hn
        have hcq := hcross c (by simp) q List.mem_cons_self
        have hpre := (List.pairwise_append.mp (List.pairwise_append.mp htidy).1).2.1
        have hbc := (List.pairwise_cons.mp hpre).1 c List.mem_cons_self
        unfold Block.stop at hbc hcq
        exact .inl (by omega)
  unfold stops
  rw [Bool.or_eq_false_iff,Bool.and_eq_false_iff,Bool.and_eq_false_iff,Bool.or_eq_false_iff]
  simp only [decide_eq_false_iff_not]
  omega

theorem seek_spot (h : Ringed mem p L) (hs : p :: L = low ++ q :: high)
    (htidy : (p :: L).Pairwise fun a b => a.stop < b.addr) (hq : q.addr < bp)
    (hhigh : ∀ g ∈ high, bp < g.addr) (hp : p.addr < bp) {f : Block} (hf : f ∈ p :: L) {n : Nat}
    (hn : L.length + 1 < n) : seek (next mem) (stops mem bp) n f.addr = some q.addr := by
  have hstop := stops_at h hs htidy hq hhigh
  have hring := (h.turn hs).ring
  have hlen : L.length = (high ++ low).length := by
    have := congrArg List.length hs
    simp at this
    simp
    omega
  have hmem : f ∈ q :: (high ++ low) := by
    rw [hs] at hf
    grind
  rcases List.mem_cons.mp hmem with rfl | hmem
  · obtain ⟨n,rfl⟩ : ∃ k, n = k + 1 := ⟨n - 1,by omega⟩
    rw [seek,if_pos hstop]
  · obtain ⟨pre,post,hsplit⟩ := List.append_of_mem hmem
    rw [hsplit,List.map_append,List.map_cons] at hring
    refine seek_eq _ ?_ (leads_append.mp hring).2 ?_ hstop
    · rw [List.length_map]
      rw [hlen,hsplit,List.length_append,List.length_cons] at hn
      omega
    · intro a ha
      rw [← List.map_cons (f := Block.addr)] at ha
      obtain ⟨c,hc,rfl⟩ := List.mem_map.mp ha
      refine not_stops h hs htidy hq hhigh hp ?_
      rw [hsplit]
      exact List.mem_append_right pre hc

end Ring

def bottom (base : Nat) : Block := ⟨base,0⟩

structure Wf (base : Nat) (h : Heap) (L used : List Block) : Prop where
  ring : Ringed h.mem (bottom base) L
  tidy : (bottom base :: L).Pairwise fun a b => a.stop < b.addr
  current : ∃ f ∈ bottom base :: L, h.freep = f.addr
  sizes : ∀ b ∈ used, (h.mem b.addr).size = b.size
  pos : ∀ b ∈ L ++ used, 0 < b.size
  tiles : ∀ x, cover (L ++ used) x = cover h.got x
  once : ∀ x, cover h.got x ≤ 1
  inside : ∀ b ∈ h.got, base < b.addr ∧ b.stop ≤ h.brk
  base_lt : base < h.brk

namespace Wf
variable {base : Nat} {h : Heap} {L used : List Block} {u b : Block} {x : Nat}

theorem base_lt_of_covers (w : Wf base h L used) (hb : b ∈ L ++ used)
    (hx : b.covers x = true) : base < x ∧ x < h.brk := by
  have hpos := cover_pos hb hx
  rw [w.tiles] at hpos
  obtain ⟨g,hg,hgx⟩ := covers_of_cover hpos
  obtain ⟨h1,h2⟩ := w.inside g hg
  obtain ⟨h3,h4⟩ := Block.covers_iff.mp hgx
  omega

theorem addr_inside (w : Wf base h L used) (hb : b ∈ L ++ used) :
    base < b.addr ∧ b.stop ≤ h.brk := by
  have hsize := w.pos b hb
  refine ⟨(w.base_lt_of_covers hb (Block.covers_addr hsize)).1,?_⟩
  have hlast : b.covers (b.stop - 1) = true := by
    rw [Block.covers_iff]
    unfold Block.stop
    omega
  have hlt := (w.base_lt_of_covers hb hlast).2
  omega

theorem cover_le (w : Wf base h L used) (bs : List Block) (hbs : bs.Subperm (L ++ used))
    (x : Nat) : cover bs x ≤ 1 :=
  (hbs.countP_le _).trans ((w.tiles x).le.trans (w.once x))

theorem free_ne_used (w : Wf base h L used) {v : Block} (hb : b ∈ L) (hv : v ∈ used)
    (hx : v.covers x = true) : b.addr ≠ x := by
  rintro rfl
  have hle := w.cover_le ([b] ++ [v]) ((List.singleton_sublist.mpr hb).append
    (List.singleton_sublist.mpr hv)).subperm b.addr
  have hbx := Block.covers_addr (w.pos b (List.mem_append_left used hb))
  rw [cover_append,cover_cons,cover_cons,hbx,hx] at hle
  simp at hle

theorem ring_ne_used (w : Wf base h L used) {v : Block} (hb : b ∈ bottom base :: L)
    (hv : v ∈ used) (hx : v.covers x = true) : b.addr ≠ x := by
  rcases List.mem_cons.mp hb with rfl | hb
  · exact (w.base_lt_of_covers (List.mem_append_right L hv) hx).1.ne
  · exact w.free_ne_used hb hv hx

theorem ring_nodup (w : Wf base h L used) : ((bottom base :: L).map Block.addr).Nodup := by
  refine List.pairwise_map.mpr (w.tidy.imp fun {a b} hab => ?_)
  unfold Block.stop at hab
  omega

theorem length_le (w : Wf base h L used) : L.length ≤ h.brk := by
  have hnodup := (List.nodup_cons.mp w.ring_nodup).2
  have hsub : L.map Block.addr ⊆ List.range h.brk := by
    intro a ha
    obtain ⟨b,hb,rfl⟩ := List.mem_map.mp ha
    have hin := w.addr_inside (List.mem_append_left used hb)
    have hsize := w.pos b (List.mem_append_left used hb)
    unfold Block.stop at hin
    exact List.mem_range.mpr (by omega)
  have hle := (hnodup.subperm hsub).length_le
  rwa [List.length_map,List.length_range] at hle

end Wf

theorem cover_bottom (base : Nat) (bs : List Block) (x : Nat) :
    cover (bottom base :: bs) x = cover bs x := by
  rw [cover_cons,Block.toNat_covers,if_neg,Nat.add_zero]
  unfold bottom Block.stop
  dsimp only
  omega

structure Placed (base : Nat) (L : List Block) (u : Block) (low : List Block) (q : Block)
    (high : List Block) : Prop where
  split : bottom base :: L = low ++ q :: high
  below : q.addr < u.addr
  above : ∀ g ∈ high, u.addr < g.addr
  lower : q.stop ≤ u.addr
  upper : ∀ g ∈ high, u.stop ≤ g.addr
  base_lt : base < u.addr

theorem Wf.placed {base : Nat} {h : Heap} {L used : List Block} {u : Block}
    (w : Wf base h L (u :: used)) : ∃ low q high, Placed base L u low q high := by
  have hu : u ∈ L ++ u :: used := List.mem_append_right L List.mem_cons_self
  have hbase := (w.addr_inside hu).1
  have hsize := w.pos u hu
  have hne : ∀ b ∈ L, b.addr ≠ u.addr := fun b hb =>
    w.free_ne_used hb List.mem_cons_self (Block.covers_addr hsize)
  have hapart : ∀ b ∈ L, ∀ x, cover [b,u] x ≤ 1 := fun b hb =>
    w.cover_le ([b] ++ [u]) ((List.singleton_sublist.mpr hb).append
      (List.singleton_sublist.mpr List.mem_cons_self)).subperm
  obtain ⟨low,q,high,hs,hq,hhigh⟩ := exists_below w.tidy hbase hne
  refine ⟨low,q,high,hs,hq,hhigh,?_,?_,hbase⟩
  · have hmem : q ∈ bottom base :: L := by
      rw [hs]
      simp
    rcases List.mem_cons.mp hmem with rfl | hmem
    · exact hbase.le
    · exact stop_le_of_cover (hapart q hmem) hq.le hsize
  · intro g hg
    have hmem : g ∈ bottom base :: L := by
      rw [hs]
      simp [hg]
    have hlt := hhigh g hg
    rcases List.mem_cons.mp hmem with rfl | hmem
    · exact absurd (hbase.trans hlt) (lt_irrefl _)
    · have hle : ∀ x, cover [u,g] x ≤ 1 := by
        intro x
        rw [cover_perm (List.Perm.swap g u []) x]
        exact hapart g hmem x
      exact stop_le_of_cover hle hlt.le (w.pos g (List.mem_append_left _ hmem))

namespace Placed
variable {base : Nat} {h : Heap} {L used low high : List Block} {u q : Block}

theorem seek_eq (pl : Placed base L u low q high) (w : Wf base h L (u :: used)) :
    seek (next h.mem) (stops h.mem u.addr) (h.brk + 3) h.freep = some q.addr := by
  obtain ⟨f,hf,hcur⟩ := w.current
  have hlen := w.length_le
  rw [hcur]
  exact seek_spot w.ring pl.split w.tidy pl.below pl.above pl.base_lt hf (by omega)

theorem others (pl : Placed base L u low q high)
    (h : (bottom base :: L).Pairwise fun a b => a.stop < b.addr) :
    (∀ b ∈ high ++ low, b.addr ≠ q.addr ∧ b.addr ≠ u.addr) ∧ ∀ b ∈ low, u.stop ≠ b.addr := by
  rw [pl.split] at h
  obtain ⟨-,-,hcross⟩ := List.pairwise_append.mp h
  have hbelow := pl.below
  refine ⟨fun b hb => ?_,fun b hb => ?_⟩
  · rcases List.mem_append.mp hb with hb | hb
    · have habove := pl.above b hb
      omega
    · have hlt := hcross b hb q List.mem_cons_self
      unfold Block.stop at hlt
      omega
  · have hlt := hcross b hb q List.mem_cons_self
    unfold Block.stop at *
    omega

theorem ringed (pl : Placed base L u low q high) (w : Wf base h L (u :: used)) :
    ∃ X Y L', mergeLower q (mergeUpper u high).1 (mergeUpper u high).2 = X :: Y ∧
      X.addr = q.addr ∧ bottom base :: L' = low ++ X :: Y ∧
      Ringed (joinLower (joinUpper h.mem u.addr q.addr) u.addr q.addr) (bottom base) L' := by
  have hs := pl.split
  obtain ⟨hsub,hlow⟩ := pl.others w.tidy
  have hring := w.ring.turn hs
  have hend : u.stop ≠ q.addr := by
    have hbelow := pl.below
    unfold Block.stop
    omega
  obtain ⟨hpath,husize⟩ := hring.leads_joinUpper (w.sizes u List.mem_cons_self)
    (fun b hb => (hsub b hb).2) hend
  rw [mergeUpper_append hlow] at hpath husize
  dsimp only at hpath husize
  have hua := mergeUpper_addr u high
  rw [← hua] at hpath husize
  have hrest : ∀ b ∈ (mergeUpper u high).2 ++ low, b ∈ high ++ low := by
    intro b hb
    rcases List.mem_append.mp hb with hb | hb
    · exact List.mem_append_left low (mergeUpper_subset u high b hb)
    · exact List.mem_append_right high hb
  have hqu : q.addr ≠ u.addr := pl.below.ne
  have hqsize : (joinUpper h.mem (mergeUpper u high).1.addr q.addr q.addr).size = q.size := by
    rw [hua,joinUpper_ne hqu]
    exact hring.sizes q List.mem_cons_self
  have hsizes : ∀ b ∈ (mergeUpper u high).2 ++ low,
      (joinUpper h.mem (mergeUpper u high).1.addr q.addr b.addr).size = b.size := by
    intro b hb
    rw [hua,joinUpper_ne (hsub b (hrest b hb)).2]
    exact hring.sizes b (List.mem_cons_of_mem q (hrest b hb))
  obtain ⟨X',R',hmerge,-,hringed⟩ := ringed_joinLower hqsize husize hsizes hpath
    (fun b hb => (hsub b (hrest b hb)).1) (by rw [hua]; exact hqu.symm)
  obtain ⟨X,Y,hXY,hX,hsame⟩ := mergeLower_cons q (mergeUpper u high).1 (mergeUpper u high).2
  rw [mergeLower_append,hXY] at hmerge
  obtain ⟨rfl,rfl⟩ := List.cons.inj hmerge
  rw [hua] at hringed
  cases low with
  | nil =>
    obtain ⟨rfl,rfl⟩ := List.cons.inj hs
    have hXq : X = bottom base := by
      refine hsame ?_
      rw [hua]
      exact pl.base_lt.ne
    subst hXq
    exact ⟨_,Y,Y,hXY,hX,rfl,hringed.turn_back [] rfl⟩
  | cons c low =>
    obtain ⟨rfl,rfl⟩ := List.cons.inj hs
    exact ⟨X,Y,low ++ X :: Y,hXY,hX,rfl,hringed.turn_back (bottom base :: low) rfl⟩

theorem frame (pl : Placed base L u low q high) (w : Wf base h L (u :: used)) :
    ∀ v ∈ used, ∀ x, v.covers x = true →
      joinLower (joinUpper h.mem u.addr q.addr) u.addr q.addr x = h.mem x := by
  intro v hv x hx
  have hpos := w.pos u (List.mem_append_right L List.mem_cons_self)
  have hq : x ≠ q.addr := by
    refine (w.ring_ne_used ?_ (List.mem_cons_of_mem u hv) hx).symm
    rw [pl.split]
    simp
  have hxu : x ≠ u.addr := by
    rintro rfl
    have hle := w.cover_le [u,v] (((List.singleton_sublist.mpr hv).cons_cons u).trans
      (List.sublist_append_right L _)).subperm u.addr
    rw [cover_cons,cover_cons,hx,Block.covers_addr hpos] at hle
    simp at hle
  rw [joinLower_ne hq,joinUpper_ne hxu]

section Merged
variable {X : Block} {Y L' : List Block}

theorem tidy (pl : Placed base L u low q high)
    (h : (bottom base :: L).Pairwise fun a b => a.stop < b.addr)
    (hXY : mergeLower q (mergeUpper u high).1 (mergeUpper u high).2 = X :: Y)
    (hN : bottom base :: L' = low ++ X :: Y) :
    (bottom base :: L').Pairwise fun a b => a.stop < b.addr := by
  rw [pl.split] at h
  obtain ⟨hlow,htail,hcross⟩ := List.pairwise_append.mp h
  have hua := mergeUpper_addr u high
  rw [hN]
  refine List.pairwise_append.mpr ⟨hlow,?_,?_⟩
  · rw [← hXY]
    refine tidy_mergeLower (tidy_mergeUpper (List.pairwise_cons.mp htail).2 pl.upper) ?_
    rw [hua]
    exact pl.lower
  · intro a ha b hb
    rw [← hXY] at hb
    have haq := hcross a ha q List.mem_cons_self
    have hbelow := pl.below
    rcases mem_mergeLower hb with hb | ⟨hb,-⟩ | rfl
    · have habove := pl.above b (mergeUpper_subset u high b hb)
      omega
    · omega
    · omega

theorem pos (pl : Placed base L u low q high) (w : Wf base h L (u :: used))
    (hXY : mergeLower q (mergeUpper u high).1 (mergeUpper u high).2 = X :: Y)
    (hN : bottom base :: L' = low ++ X :: Y) : ∀ b ∈ L', 0 < b.size := by
  intro b hb
  have hlt : base < b.addr := (List.pairwise_cons.mp (pl.tidy w.tidy hXY hN)).1 b hb
  have hold : ∀ c ∈ low ++ q :: high, base < c.addr → 0 < c.size := by
    intro c hc hcb
    rw [← pl.split] at hc
    rcases List.mem_cons.mp hc with rfl | hc
    · exact absurd hcb (lt_irrefl _)
    · exact w.pos c (List.mem_append_left _ hc)
  have hmem : b ∈ low ++ X :: Y := hN ▸ List.mem_cons_of_mem _ hb
  rcases List.mem_append.mp hmem with hmem | hmem
  · exact hold b (by simp [hmem]) hlt
  · rcases mem_mergeLower (hXY ▸ hmem) with hmem | ⟨hbq,hle⟩ | rfl
    · exact hold b (by simp [mergeUpper_subset u high b hmem]) hlt
    · exact (hold q (by simp) (hbq ▸ hlt)).trans_le hle
    · exact (w.pos u (List.mem_append_right L List.mem_cons_self)).trans_le (mergeUpper_size u high)

theorem cover_eq (pl : Placed base L u low q high)
    (hXY : mergeLower q (mergeUpper u high).1 (mergeUpper u high).2 = X :: Y)
    (hN : bottom base :: L' = low ++ X :: Y) (x : Nat) : cover L' x = cover (u :: L) x := by
  have hold : cover L x = cover (low ++ q :: high) x := by rw [← pl.split,cover_bottom]
  rw [cover_append,cover_cons] at hold
  rw [← cover_bottom base L',hN,cover_append,← hXY,cover_mergeLower,cover_cons,cover_mergeUpper,
    cover_cons,cover_cons]
  omega

theorem exists_large (hpos : 0 < u.size)
    (hXY : mergeLower q (mergeUpper u high).1 (mergeUpper u high).2 = X :: Y)
    (hN : bottom base :: L' = low ++ X :: Y) : ∃ b ∈ L', u.size ≤ b.size := by
  obtain ⟨b,hb,hle⟩ := exists_mergeLower q (mergeUpper u high).1 (mergeUpper u high).2
  have hsize := (mergeUpper_size u high).trans hle
  have hbN : b ∈ bottom base :: L' := by
    rw [hN,← hXY]
    exact List.mem_append_right low hb
  rcases List.mem_cons.mp hbN with rfl | hbL
  · exact absurd (hpos.trans_le hsize) (lt_irrefl _)
  · exact ⟨b,hbL,hsize⟩

theorem length_le (pl : Placed base L u low q high)
    (hXY : mergeLower q (mergeUpper u high).1 (mergeUpper u high).2 = X :: Y)
    (hN : bottom base :: L' = low ++ X :: Y) : L'.length ≤ L.length + 1 := by
  have hnew := congrArg List.length hN
  have hold := congrArg List.length pl.split
  have hlower := mergeLower_length q (mergeUpper u high).1 (mergeUpper u high).2
  have hupper := mergeUpper_length u high
  rw [hXY] at hlower
  simp only [List.length_cons,List.length_append] at hnew hold hlower
  omega

end Merged

end Placed

theorem free_spec {base : Nat} {h : Heap} {L used : List Block} {u : Block}
    (w : Wf base h L (u :: used)) :
    ∃ h' L', free h (u.addr + 1) = some h' ∧ Wf base h' L' used ∧
      (∃ b ∈ L', u.size ≤ b.size) ∧ L'.length ≤ L.length + 1 ∧ h'.brk = h.brk ∧ h'.got = h.got ∧
      ∀ v ∈ used, ∀ x, v.covers x = true → h'.mem x = h.mem x := by
  obtain ⟨low,q,high,pl⟩ := w.placed
  obtain ⟨X,Y,L',hXY,hX,hN,hring⟩ := pl.ringed w
  have hframe := pl.frame w
  have hpos := w.pos u (List.mem_append_right L List.mem_cons_self)
  have hfree : free h (u.addr + 1) = some { h with
      mem := joinLower (joinUpper h.mem u.addr q.addr) u.addr q.addr, freep := q.addr } := by
    rw [free,Nat.add_sub_cancel,pl.seek_eq w]
    rfl
  refine ⟨_,L',hfree,⟨hring,pl.tidy w.tidy hXY hN,⟨X,?_,hX.symm⟩,?_,?_,?_,w.once,w.inside,
    w.base_lt⟩,Placed.exists_large hpos hXY hN,pl.length_le hXY hN,rfl,rfl,hframe⟩
  · rw [hN]
    simp
  · intro b hb
    have hcov := Block.covers_addr (w.pos b (List.mem_append_right L (List.mem_cons_of_mem u hb)))
    dsimp only
    rw [hframe b hb _ hcov]
    exact w.sizes b (List.mem_cons_of_mem u hb)
  · intro b hb
    rcases List.mem_append.mp hb with hb | hb
    · exact pl.pos w hXY hN b hb
    · exact w.pos b (List.mem_append_right L (List.mem_cons_of_mem u hb))
  · intro x
    have hx := w.tiles x
    rw [cover_append,cover_cons] at hx
    change cover (L' ++ used) x = cover h.got x
    rw [cover_append,pl.cover_eq hXY hN x,cover_cons]
    omega

end User.Malloc
