import Mathlib.Tactic
import OscAssignments.User.MallocHeap

namespace User.Malloc
open LinkRing

section Search
variable {base units n : Nat} {granted : Bool} {h : Heap} {L used : List Block} {b f : Block}

theorem search_path (granted : Bool) (units : Nat) {ring rest : List Block}
    (hsub : ∀ c ∈ rest, c ∈ ring) (hf : f ∈ ring) (hb : b ∈ ring)
    (hsizes : ∀ c ∈ ring, (h.mem c.addr).size = c.size)
    (hpath : Leads (next h.mem) b.addr (rest.map Block.addr) f.addr) (hcur : h.freep = f.addr)
    (hne : ∀ c ∈ rest, c.addr ≠ f.addr) (hn : rest.length < n) :
    (∃ c ∈ ring, ∃ y ∈ ring, (h.mem c.addr).ptr = y.addr ∧ units ≤ y.size ∧
      search granted units n h b.addr (h.mem b.addr).ptr = some (take h units c.addr y.addr)) ∨
    (∀ c ∈ f :: rest, c.size < units) ∧ ∃ k, n = rest.length + 1 + k ∧
      search granted units n h b.addr (h.mem b.addr).ptr =
        (morecore granted h units).resume h fun h =>
          search granted units k h h.freep (h.mem h.freep).ptr := by
  induction rest generalizing b n with
  | nil =>
    obtain ⟨n,rfl⟩ : ∃ k, n = k + 1 := ⟨n - 1,by omega⟩
    have hnext : (h.mem b.addr).ptr = f.addr := leads_nil.mp hpath
    rcases le_or_gt units f.size with hfit | hsmall
    · refine .inl ⟨b,hb,f,hf,hnext,hfit,?_⟩
      rw [hnext,search,if_pos (by rw [hsizes f hf]; exact hfit)]
    · refine .inr ⟨by simpa using hsmall,n,by simp; omega,?_⟩
      rw [hnext,search,if_neg (by rw [hsizes f hf]; exact not_le.mpr hsmall),if_pos hcur.symm]
  | cons y rest ih =>
    obtain ⟨n,rfl⟩ : ∃ k, n = k + 1 := ⟨n - 1,by omega⟩
    obtain ⟨hnext,hpath⟩ := leads_cons.mp hpath
    have hnext : (h.mem b.addr).ptr = y.addr := hnext
    have hy : y ∈ ring := hsub y List.mem_cons_self
    rcases le_or_gt units y.size with hfit | hsmall
    · refine .inl ⟨b,hb,y,hy,hnext,hfit,?_⟩
      rw [hnext,search,if_pos (by rw [hsizes y hy]; exact hfit)]
    · have hyf : y.addr ≠ h.freep := by
        rw [hcur]
        exact hne y List.mem_cons_self
      rw [hnext,search,if_neg (by rw [hsizes y hy]; exact not_le.mpr hsmall),if_neg hyf]
      rcases ih (fun c hc => hsub c (List.mem_cons_of_mem y hc)) hy hpath
        (fun c hc => hne c (List.mem_cons_of_mem y hc)) (by simpa using hn) with
        hfound | ⟨hall,k,hk,heq⟩
      · exact .inl hfound
      · refine .inr ⟨?_,k,by rw [hk,List.length_cons]; omega,heq⟩
        intro c hc
        rcases List.mem_cons.mp hc with rfl | hc
        · exact hall c List.mem_cons_self
        · rcases List.mem_cons.mp hc with rfl | hc
          · exact hsmall
          · exact hall c (List.mem_cons_of_mem f hc)

theorem search_circle (granted : Bool) (units : Nat) (w : Wf base h L used)
    (hn : L.length < n) :
    (∃ c ∈ bottom base :: L, ∃ y ∈ bottom base :: L, (h.mem c.addr).ptr = y.addr ∧ units ≤ y.size ∧
      search granted units n h h.freep (h.mem h.freep).ptr = some (take h units c.addr y.addr)) ∨
    (∀ c ∈ L, c.size < units) ∧ ∃ k, n = L.length + 1 + k ∧
      search granted units n h h.freep (h.mem h.freep).ptr =
        (morecore granted h units).resume h fun h =>
          search granted units k h h.freep (h.mem h.freep).ptr := by
  obtain ⟨f,hf,hcur⟩ := w.current
  obtain ⟨low,high,hs⟩ := List.append_of_mem hf
  have hring := (w.ring.turn hs).ring
  have hlen : L.length = (high ++ low).length := by
    have hlength := congrArg List.length hs
    simp at hlength
    simp
    omega
  have hnodup := w.ring_nodup
  rw [hs] at hnodup
  have hsub : ∀ c ∈ high ++ low, c ∈ bottom base :: L := by
    intro c hc
    rw [hs]
    grind
  have hne : ∀ c ∈ high ++ low, c.addr ≠ f.addr := by
    intro c hc hcf
    rw [List.map_append,List.map_cons] at hnodup
    have hnot := (List.nodup_middle.mp hnodup)
    refine (List.nodup_cons.mp hnot).1 ?_
    rw [← hcf,← List.map_append]
    refine List.mem_map_of_mem ?_
    grind
  rw [hcur]
  rcases search_path granted units hsub hf hf w.ring.sizes hring hcur hne
    (hlen ▸ hn) with hfound | ⟨hall,k,hk,heq⟩
  · exact .inl hfound
  · refine .inr ⟨fun c hc => hall c ?_,k,by omega,heq⟩
    have hmem : c ∈ bottom base :: L := List.mem_cons_of_mem _ hc
    rw [hs] at hmem
    grind

end Search

@[simp] theorem next_setSize (mem : Mem) (p v : Nat) : next (setSize mem p v) = next mem := by
  funext a
  unfold next
  rcases eq_or_ne a p with rfl | hne
  · rw [setSize_self]
  · rw [setSize_ne hne]

section Take
variable {base units : Nat} {h : Heap} {L used low high : List Block} {b y : Block}

theorem tidy_recut {N : List Block}
    (h : (low ++ b :: y :: high).Pairwise fun a b => a.stop < b.addr)
    (hN : N.Pairwise fun a b => a.stop < b.addr) (hNy : ∀ c ∈ N, c.addr = y.addr ∧ c.stop ≤ y.stop) :
    (low ++ b :: (N ++ high)).Pairwise fun a b => a.stop < b.addr := by
  obtain ⟨hlow,htail,hcross⟩ := List.pairwise_append.mp h
  obtain ⟨hbtail,htail⟩ := List.pairwise_cons.mp htail
  obtain ⟨hyhigh,hhigh⟩ := List.pairwise_cons.mp htail
  refine List.pairwise_append.mpr ⟨hlow,List.pairwise_cons.mpr ⟨?_,?_⟩,?_⟩
  · intro c hc
    rcases List.mem_append.mp hc with hc | hc
    · rw [(hNy c hc).1]
      exact hbtail y List.mem_cons_self
    · exact hbtail c (List.mem_cons_of_mem y hc)
  · refine List.pairwise_append.mpr ⟨hN,hhigh,fun c hc d hd => ?_⟩
    exact (hNy c hc).2.trans_lt (hyhigh d hd)
  · intro c hc d hd
    rcases List.mem_cons.mp hd with rfl | hd
    · exact hcross c hc d List.mem_cons_self
    · rcases List.mem_append.mp hd with hd | hd
      · rw [(hNy d hd).1]
        exact hcross c hc y (by simp)
      · exact hcross c hc d (by simp [hd])

theorem Wf.recut (w : Wf base h L used) (hs : bottom base :: L = low ++ b :: y :: high)
    {mem : Mem} {N : List Block} {a : Block} (hring : Ringed mem b (N ++ high ++ low))
    (hN : N.Pairwise fun a b => a.stop < b.addr)
    (hNy : ∀ c ∈ N, c.addr = y.addr ∧ 0 < c.size ∧ c.stop ≤ y.stop)
    (hcov : ∀ x, cover (a :: N) x = cover [y] x) (ha : (mem a.addr).size = a.size)
    (hpos : 0 < a.size) (hframe : ∀ v ∈ used, ∀ x, v.covers x = true → mem x = h.mem x) :
    ∃ L', Wf base { h with mem := mem, freep := b.addr } L' (a :: used) := by
  obtain ⟨L',hL'⟩ : ∃ L', bottom base :: L' = low ++ b :: (N ++ high) := by
    cases low with
    | nil =>
      obtain ⟨rfl,-⟩ := List.cons.inj hs
      exact ⟨_,rfl⟩
    | cons c low =>
      obtain ⟨rfl,-⟩ := List.cons.inj hs
      exact ⟨_,rfl⟩
  have htidy' : (bottom base :: L').Pairwise fun a b => a.stop < b.addr :=
    hL' ▸ tidy_recut (hs ▸ w.tidy) hN fun c hc => ⟨(hNy c hc).1,(hNy c hc).2.2⟩
  refine ⟨L',hring.turn_back low hL',htidy',⟨b,?_,rfl⟩,?_,?_,?_,w.once,w.inside,w.base_lt⟩
  · rw [hL']
    simp
  · intro c hc
    rcases List.mem_cons.mp hc with rfl | hc
    · exact ha
    · change (mem c.addr).size = c.size
      rw [hframe c hc _ (Block.covers_addr (w.pos c (List.mem_append_right L hc)))]
      exact w.sizes c hc
  · intro c hc
    rcases List.mem_append.mp hc with hc | hc
    · have hlt : base < c.addr := (List.pairwise_cons.mp htidy').1 c hc
      have hmem : c ∈ low ++ b :: (N ++ high) := hL' ▸ List.mem_cons_of_mem _ hc
      have hcase : c ∈ N ∨ c ∈ low ++ b :: y :: high := by grind
      rcases hcase with hcN | hold
      · exact (hNy c hcN).2.1
      · rw [← hs] at hold
        rcases List.mem_cons.mp hold with rfl | hold
        · exact absurd hlt (lt_irrefl _)
        · exact w.pos c (List.mem_append_left used hold)
    · rcases List.mem_cons.mp hc with rfl | hc
      · exact hpos
      · exact w.pos c (List.mem_append_right L hc)
  · intro x
    have hx := hcov x
    rw [cover_cons,cover_cons,cover_nil] at hx
    rw [← w.tiles,cover_append,← cover_bottom base L',hL',cover_append,cover_append,
      ← cover_bottom base L,hs,cover_append]
    simp only [cover_cons,cover_append]
    omega

theorem Wf.cut (w : Wf base h L used) (hb : b ∈ bottom base :: L) (hy : y ∈ bottom base :: L)
    (hnext : (h.mem b.addr).ptr = y.addr) (hpos : 0 < y.size) :
    y ∈ L ∧ ∃ low high, bottom base :: L = low ++ b :: y :: high := by
  have hyL : y ∈ L := by
    rcases List.mem_cons.mp hy with rfl | hy
    · exact absurd hpos (lt_irrefl _)
    · exact hy
  refine ⟨hyL,?_⟩
  have hbase : base < y.addr := (List.pairwise_cons.mp w.tidy).1 y hyL
  obtain ⟨low,rest,hs⟩ := List.append_of_mem hb
  have hhead := w.ring.next_eq hs
  rw [hnext] at hhead
  cases rest with
  | nil =>
    have hhead : y.addr = base := hhead
    exact absurd hhead hbase.ne'
  | cons z high =>
    rw [List.map_cons,List.headD_cons] at hhead
    have hz : z ∈ bottom base :: L := by
      rw [hs]
      simp
    obtain rfl := List.inj_on_of_nodup_map w.ring_nodup hy hz hhead
    exact ⟨low,high,hs⟩

theorem Wf.apart (w : Wf base h L used) (hs : bottom base :: L = low ++ b :: y :: high) :
    y.addr ≠ b.addr ∧ ∀ c ∈ high ++ low, c.addr ≠ b.addr ∧ c.addr ≠ y.addr := by
  have hnodup := w.ring_nodup
  rw [hs,List.map_append,List.map_cons,List.map_cons,List.nodup_append] at hnodup
  obtain ⟨-,htail,hcross⟩ := hnodup
  obtain ⟨hb,htail⟩ := List.nodup_cons.mp htail
  obtain ⟨hy,-⟩ := List.nodup_cons.mp htail
  refine ⟨fun hyb => hb (by simp [hyb]),?_⟩
  intro c hc
  rcases List.mem_append.mp hc with hc | hc
  · have hin : c.addr ∈ high.map Block.addr := List.mem_map_of_mem hc
    exact ⟨fun he => hb (by rw [← he]; exact List.mem_cons_of_mem _ hin),fun he => hy (he ▸ hin)⟩
  · have hin : c.addr ∈ low.map Block.addr := List.mem_map_of_mem hc
    exact ⟨hcross _ hin _ (by simp),hcross _ hin _ (by simp)⟩

theorem Wf.beside (w : Wf base h L used) (hs : bottom base :: L = low ++ b :: y :: high) :
    ∀ c ∈ b :: (high ++ low), c.addr < y.addr ∨ y.stop < c.addr := by
  have htidy := w.tidy
  rw [hs] at htidy
  obtain ⟨-,htail,hcross⟩ := List.pairwise_append.mp htidy
  intro c hc
  rcases List.mem_cons.mp hc with rfl | hc
  · have hlt := (List.pairwise_cons.mp htail).1 y List.mem_cons_self
    unfold Block.stop at hlt
    exact .inl (by omega)
  · rcases List.mem_append.mp hc with hc | hc
    · exact .inr ((List.pairwise_cons.mp (List.pairwise_cons.mp htail).2).1 c hc)
    · have hlt := hcross c hc y (by simp)
      unfold Block.stop at hlt
      exact .inl (by omega)

theorem Wf.unlink (w : Wf base h L used) (hs : bottom base :: L = low ++ b :: y :: high)
    (hb : b ∈ bottom base :: L) (hpos : 0 < y.size) :
    ∃ L', Wf base { h with mem := setPtr h.mem b.addr (h.mem y.addr).ptr, freep := b.addr } L'
      (y :: used) ∧
    ∀ v ∈ used, ∀ x, v.covers x = true → setPtr h.mem b.addr (h.mem y.addr).ptr x = h.mem x := by
  have hring := w.ring.turn hs
  obtain ⟨hyb,hother⟩ := w.apart hs
  have hframe : ∀ v ∈ used, ∀ x, v.covers x = true →
      setPtr h.mem b.addr (h.mem y.addr).ptr x = h.mem x := fun v hv x hx =>
    setPtr_ne (w.ring_ne_used hb hv hx).symm _
  have hkeep : ∀ c ∈ high ++ low, setPtr h.mem b.addr (h.mem y.addr).ptr c.addr = h.mem c.addr :=
    fun c hc => setPtr_ne (hother c hc).1 _
  have hring' : Ringed (setPtr h.mem b.addr (h.mem y.addr).ptr) b ([] ++ high ++ low) := by
    constructor
    · refine Circle.remove hring.ring ?_ fun a ha => ?_
      · rw [next,setPtr_self]
        rfl
      · obtain ⟨c,hc,rfl⟩ := List.mem_map.mp ha
        exact congrArg Header.ptr (hkeep c hc)
    · intro c hc
      rcases List.mem_cons.mp hc with rfl | hc
      · rw [setPtr_self]
        exact hring.sizes c List.mem_cons_self
      · rw [hkeep c hc]
        exact hring.sizes c (by simpa using Or.inr (Or.inr (List.mem_append.mp hc)))
  have hsize : (setPtr h.mem b.addr (h.mem y.addr).ptr y.addr).size = y.size := by
    rw [setPtr_ne hyb]
    exact w.ring.sizes y (hs ▸ by simp)
  obtain ⟨L',w'⟩ := w.recut hs hring' .nil (by simp) (fun _ => rfl) hsize hpos hframe
  exact ⟨L',w',hframe⟩

theorem Wf.split_end (w : Wf base h L used) (hs : bottom base :: L = low ++ b :: y :: high)
    (hyL : y ∈ L) (hunits : 0 < units) {r : Nat} (hr : 0 < r) (hsum : r + units = y.size) :
    ∃ L', Wf base { h with mem := setSize (setSize h.mem y.addr r) (y.addr + r) units,
                           freep := b.addr } L' (⟨y.addr + r,units⟩ :: used) ∧
    ∀ v ∈ used, ∀ x, v.covers x = true →
      setSize (setSize h.mem y.addr r) (y.addr + r) units x = h.mem x := by
  have hring := w.ring.turn hs
  have hy : y ∈ bottom base :: L := List.mem_cons_of_mem _ hyL
  have hyq : y.covers (y.addr + r) = true := by
    rw [Block.covers_iff]
    unfold Block.stop
    omega
  have hkeep : ∀ c ∈ b :: (high ++ low),
      setSize (setSize h.mem y.addr r) (y.addr + r) units c.addr = h.mem c.addr := by
    intro c hc
    have hside := w.beside hs c hc
    unfold Block.stop at hside
    rw [setSize_ne (by omega),setSize_ne (by omega)]
  have hframe : ∀ v ∈ used, ∀ x, v.covers x = true →
      setSize (setSize h.mem y.addr r) (y.addr + r) units x = h.mem x := by
    intro v hv x hx
    have hxq : x ≠ y.addr + r := by
      rintro rfl
      have hle := w.cover_le ([y] ++ [v]) ((List.singleton_sublist.mpr hyL).append
        (List.singleton_sublist.mpr hv)).subperm (y.addr + r)
      rw [cover_append,cover_cons,cover_cons,hyq,hx] at hle
      simp at hle
    rw [setSize_ne hxq,setSize_ne (w.ring_ne_used hy hv hx).symm]
  have hring' : Ringed (setSize (setSize h.mem y.addr r) (y.addr + r) units) b
      ([⟨y.addr,r⟩] ++ high ++ low) := by
    constructor
    · rw [next_setSize,next_setSize]
      exact hring.ring
    · intro c hc
      rcases List.mem_cons.mp hc with rfl | hc
      · rw [hkeep c List.mem_cons_self]
        exact hring.sizes c List.mem_cons_self
      · rw [List.append_assoc] at hc
        rcases List.mem_cons.mp hc with rfl | hc
        · dsimp only
          rw [setSize_ne (by omega),setSize_self]
        · have hc : c ∈ high ++ low := hc
          rw [hkeep c (List.mem_cons_of_mem b hc)]
          exact hring.sizes c (List.mem_cons_of_mem b (List.mem_cons_of_mem y hc))
  have hcov : ∀ x, cover (⟨y.addr + r,units⟩ :: [⟨y.addr,r⟩]) x = cover [y] x := by
    intro x
    have hjoin : (Block.mk y.addr r).join ⟨y.addr + r,units⟩ = y := by
      unfold Block.join
      dsimp only
      rw [hsum]
    rw [cover_perm (List.Perm.swap ⟨y.addr,r⟩ ⟨y.addr + r,units⟩ []) x,← cover_join rfl,hjoin]
  have hrest : ∀ c ∈ [Block.mk y.addr r], c.addr = y.addr ∧ 0 < c.size ∧ c.stop ≤ y.stop := by
    intro c hc
    rw [List.mem_singleton.mp hc]
    unfold Block.stop
    exact ⟨rfl,hr,by dsimp only; omega⟩
  obtain ⟨L',w'⟩ := w.recut hs hring' (List.pairwise_singleton _ _) hrest hcov
    (by rw [setSize_self]) hunits hframe
  exact ⟨L',w',hframe⟩

theorem Wf.take_spec (w : Wf base h L used) (hb : b ∈ bottom base :: L)
    (hy : y ∈ bottom base :: L) (hnext : (h.mem b.addr).ptr = y.addr) (hfit : units ≤ y.size)
    (hunits : 0 < units) :
    ∃ h' a L', take h units b.addr y.addr = (h',a + 1) ∧ Wf base h' L' (⟨a,units⟩ :: used) ∧
      h'.brk = h.brk ∧ h'.got = h.got ∧
      ∀ v ∈ used, ∀ x, v.covers x = true → h'.mem x = h.mem x := by
  obtain ⟨hyL,low,high,hs⟩ := w.cut hb hy hnext (hunits.trans_le hfit)
  rw [take,w.ring.sizes y hy]
  split_ifs with hexact
  · obtain ⟨L',w',hframe⟩ := w.unlink hs hb (hunits.trans_le hfit)
    have hblock : (⟨y.addr,units⟩ : Block) = y := by rw [← hexact]
    exact ⟨_,y.addr,L',rfl,hblock ▸ w',rfl,rfl,hframe⟩
  · have hlt : units < y.size := lt_of_le_of_ne hfit (Ne.symm hexact)
    obtain ⟨L',w',hframe⟩ := w.split_end hs hyL hunits (Nat.sub_pos_of_lt hlt)
      (Nat.sub_add_cancel hfit)
    refine ⟨_,y.addr + (y.size - units),L',?_,w',rfl,rfl,hframe⟩
    dsimp only
    rw [setSize_self]

end Take

section Malloc
variable {base units nbytes : Nat} {granted : Bool} {h : Heap} {L used : List Block}

theorem Wf.cover_fresh (w : Wf base h L used) {x : Nat} (hx : h.brk ≤ x) : cover h.got x = 0 := by
  refine Nat.eq_zero_of_not_pos fun hpos => ?_
  obtain ⟨g,hg,hgx⟩ := covers_of_cover hpos
  have hin := (w.inside g hg).2
  have hlt := (Block.covers_iff.mp hgx).2
  omega

theorem Wf.addr_ne_brk (w : Wf base h L used) {b : Block} (hb : b ∈ bottom base :: L) :
    b.addr ≠ h.brk := by
  rcases List.mem_cons.mp hb with rfl | hb
  · exact w.base_lt.ne
  · have hin := (w.addr_inside (List.mem_append_left used hb)).2
    have hsize := w.pos b (List.mem_append_left used hb)
    unfold Block.stop at hin
    omega

theorem Wf.grant (w : Wf base h L used) {n : Nat} (hn : 0 < n) :
    Wf base ⟨setSize h.mem h.brk n,h.freep,h.brk + n,⟨h.brk,n⟩ :: h.got⟩ L (⟨h.brk,n⟩ :: used) ∧
      ∀ v ∈ used, ∀ x, v.covers x = true → setSize h.mem h.brk n x = h.mem x := by
  have hframe : ∀ v ∈ used, ∀ x, v.covers x = true → setSize h.mem h.brk n x = h.mem x :=
    fun v hv x hx => setSize_ne (w.base_lt_of_covers (List.mem_append_right L hv) hx).2.ne _
  refine ⟨⟨⟨?_,?_⟩,w.tidy,w.current,?_,?_,?_,?_,?_,w.base_lt.trans_le (Nat.le_add_right _ _)⟩,hframe⟩
  · rw [next_setSize]
    exact w.ring.ring
  · intro b hb
    dsimp only
    rw [setSize_ne (w.addr_ne_brk hb)]
    exact w.ring.sizes b hb
  · intro b hb
    dsimp only
    rcases List.mem_cons.mp hb with rfl | hb
    · rw [setSize_self]
    · rw [hframe b hb _ (Block.covers_addr (w.pos b (List.mem_append_right L hb)))]
      exact w.sizes b hb
  · intro b hb
    rcases List.mem_append.mp hb with hb | hb
    · exact w.pos b (List.mem_append_left used hb)
    · rcases List.mem_cons.mp hb with rfl | hb
      · exact hn
      · exact w.pos b (List.mem_append_right L hb)
  · intro x
    have hx := w.tiles x
    rw [cover_append] at hx
    rw [cover_append,cover_cons,cover_cons]
    omega
  · intro x
    rw [cover_cons,Block.toNat_covers]
    split_ifs with hx
    · rw [w.cover_fresh hx.1]
    · exact w.once x
  · intro g hg
    rcases List.mem_cons.mp hg with rfl | hg
    · exact ⟨w.base_lt,le_rfl⟩
    · obtain ⟨h1,h2⟩ := w.inside g hg
      exact ⟨h1,h2.trans (Nat.le_add_right _ _)⟩

theorem Wf.morecore_spec (w : Wf base h L used) (hsmall : max units 4096 * unit < 2 ^ 31) :
    ∃ h' L', morecore true h units = .done h' ∧
      Wf base h' L' used ∧ (∃ b ∈ L', units ≤ b.size) ∧ L'.length ≤ L.length + 1 ∧
      h'.brk = h.brk + max units 4096 ∧ h'.got = ⟨h.brk,max units 4096⟩ :: h.got ∧
      ∀ v ∈ used, ∀ x, v.covers x = true → h'.mem x = h.mem x := by
  obtain ⟨w',hframe⟩ := w.grant (lt_max_of_lt_right (by decide) : 0 < max units 4096)
  obtain ⟨h',L',hfree,wf,⟨b,hb,hle⟩,hlen,hbrk,hgot,hkept⟩ := free_spec w'
  refine ⟨h',L',?_,wf,⟨b,hb,(le_max_left _ _).trans hle⟩,hlen,hbrk,hgot,?_⟩
  · dsimp only at hfree
    rw [morecore,if_neg (not_le.mpr hsmall),if_pos rfl,hfree]
  · intro v hv x hx
    exact (hkept v hv x hx).trans (hframe v hv x hx)

theorem nunits_spec (hn : nbytes + 16 ≤ 2 ^ 31) :
    0 < nunits nbytes ∧ max (nunits nbytes) 4096 * unit < 2 ^ 31 ∧
      nbytes ≤ (nunits nbytes - 1) * unit := by
  unfold nunits unit
  omega

inductive Fetched (h : Heap) (L : List Block) (units : Nat) (granted : Bool) : List Block → Prop
  | none {y : Block} : y ∈ L → units ≤ y.size → Fetched h L units granted []
  | more : granted = true → (∀ y ∈ L, y.size < units) →
      Fetched h L units granted [⟨h.brk,max units 4096⟩]

inductive Answer (base nbytes : Nat) (granted : Bool) (h : Heap) (L used : List Block) :
    Heap × Nat → Prop
  | block {h' : Heap} {a : Nat} {L' new : List Block} :
      Wf base h' L' (⟨a,nunits nbytes⟩ :: used) →
      (∀ v ∈ used, ∀ x, v.covers x = true → h'.mem x = h.mem x) →
      Fetched h L (nunits nbytes) granted new → h'.got = new ++ h.got →
      (∀ x, cover (⟨a,nunits nbytes⟩ :: L') x = cover (new ++ L) x) →
      Answer base nbytes granted h L used (h',a + 1)
  | null : granted = false → (∀ y ∈ L, y.size < nunits nbytes) →
      Answer base nbytes granted h L used (h,0)

theorem Wf.cover_taken {h' : Heap} {L' new : List Block} {b : Block} (w : Wf base h L used)
    (w' : Wf base h' L' (b :: used)) (hgot : h'.got = new ++ h.got) (x : Nat) :
    cover (b :: L') x = cover (new ++ L) x := by
  have hbefore := w.tiles x
  have hafter := w'.tiles x
  rw [hgot,cover_append,cover_append,cover_cons] at hafter
  rw [cover_append] at hbefore
  rw [cover_cons,cover_append]
  omega

theorem Wf.search_spec (w : Wf base h L used) (granted : Bool) (hn : nbytes + 16 ≤ 2 ^ 31) :
    ∃ r, search granted (nunits nbytes) (2 * h.brk + 8) h h.freep (h.mem h.freep).ptr = some r ∧
      Answer base nbytes granted h L used r := by
  obtain ⟨hpos,hsmall,-⟩ := nunits_spec hn
  have hlen := w.length_le
  rcases search_circle granted (nunits nbytes) w (n := 2 * h.brk + 8) (by omega) with
    ⟨c,hc,y,hy,hnext,hfit,heq⟩ | ⟨hall,k,hk,heq⟩
  · obtain ⟨h',a,L',htake,w',-,hgot,hframe⟩ := w.take_spec hc hy hnext hfit hpos
    have hyL := (w.cut hc hy hnext (hpos.trans_le hfit)).1
    have hgot : h'.got = [] ++ h.got := hgot
    exact ⟨_,heq,htake ▸ .block w' hframe (.none hyL hfit) hgot (w.cover_taken w' hgot)⟩
  · cases granted with
    | false =>
      have hmore : morecore false h (nunits nbytes) = .refused := by
        rw [morecore,if_neg (not_le.mpr hsmall),if_neg Bool.false_ne_true]
      rw [hmore] at heq
      exact ⟨_,heq,.null rfl hall⟩
    | true =>
      obtain ⟨h1,L1,hmore,w1,⟨b,hb,hfit⟩,hlen1,hbrk,hgot1,hframe1⟩ := w.morecore_spec hsmall
      rw [hmore,Outcome.resume] at heq
      rcases search_circle true (nunits nbytes) w1 (n := k) (by omega) with
        ⟨c,hc,y,hy,hnext,hfit',heq'⟩ | ⟨hall',-⟩
      · obtain ⟨h',a,L',htake,w',-,hgot',hframe⟩ := w1.take_spec hc hy hnext hfit' hpos
        have hgot : h'.got = [⟨h.brk,max (nunits nbytes) 4096⟩] ++ h.got := hgot'.trans hgot1
        refine ⟨_,heq.trans heq',htake ▸ .block w' (fun v hv x hx => ?_) (.more rfl hall) hgot
          (w.cover_taken w' hgot)⟩
        exact (hframe v hv x hx).trans (hframe1 v hv x hx)
      · exact absurd (hall' b hb) (not_lt.mpr hfit)

end Malloc

end User.Malloc
