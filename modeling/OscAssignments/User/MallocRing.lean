import Mathlib.Tactic
import OscAssignments.User.Malloc

namespace User.Malloc
open LinkRing

namespace Block

def stop (b : Block) : Nat := b.addr + b.size

def covers (b : Block) (x : Nat) : Bool := decide (b.addr ≤ x) && decide (x < b.stop)

def join (a b : Block) : Block := ⟨a.addr,a.size + b.size⟩

theorem covers_iff {b : Block} {x : Nat} : b.covers x = true ↔ b.addr ≤ x ∧ x < b.stop := by
  rw [covers,Bool.and_eq_true,decide_eq_true_eq,decide_eq_true_eq]

theorem toNat_covers {b : Block} {x : Nat} :
    (b.covers x).toNat = if b.addr ≤ x ∧ x < b.stop then 1 else 0 := by
  split_ifs with h
  · rw [covers_iff.mpr h,Bool.toNat_true]
  · rw [Bool.not_eq_true _ |>.mp (mt covers_iff.mp h),Bool.toNat_false]

theorem covers_addr {b : Block} (h : 0 < b.size) : b.covers b.addr = true :=
  covers_iff.mpr ⟨le_rfl,Nat.lt_add_of_pos_right h⟩

end Block

def cover (bs : List Block) (x : Nat) : Nat := bs.countP fun b => b.covers x

section Cover
variable {a b u p : Block} {bs cs : List Block} {x : Nat}

@[simp] theorem cover_nil (x : Nat) : cover [] x = 0 := rfl

theorem cover_cons : cover (b :: bs) x = cover bs x + (b.covers x).toNat := by
  rw [cover,List.countP_cons,cover]
  cases b.covers x with
  | true => rfl
  | false => rfl

theorem cover_append : cover (bs ++ cs) x = cover bs x + cover cs x := List.countP_append

theorem cover_perm (h : bs.Perm cs) (x : Nat) : cover bs x = cover cs x := h.countP_eq _

theorem cover_join (h : a.stop = b.addr) (x : Nat) :
    cover (a.join b :: bs) x = cover (a :: b :: bs) x := by
  have hsplit : ((a.join b).covers x).toNat = (a.covers x).toNat + (b.covers x).toNat := by
    simp only [Block.toNat_covers,Block.stop,Block.join] at h ⊢
    grind
  rw [cover_cons,cover_cons,cover_cons,hsplit]
  omega

theorem covers_of_cover (h : 0 < cover bs x) : ∃ b ∈ bs, b.covers x = true :=
  List.countP_pos_iff.mp h

theorem cover_pos (hb : b ∈ bs) (hx : b.covers x = true) : 0 < cover bs x :=
  List.countP_pos_iff.mpr ⟨b,hb,hx⟩

theorem stop_le_of_cover (h : ∀ x, cover (a :: b :: bs) x ≤ 1) (hab : a.addr ≤ b.addr)
    (hb : 0 < b.size) : a.stop ≤ b.addr := by
  by_contra hlt
  have hx := h b.addr
  have hcov : a.covers b.addr = true := Block.covers_iff.mpr ⟨hab,not_le.mp hlt⟩
  rw [cover_cons,cover_cons,hcov,Block.covers_addr hb] at hx
  simp at hx

end Cover

structure Ringed (mem : Mem) (p : Block) (rest : List Block) : Prop where
  ring : Circle (next mem) p.addr (rest.map Block.addr)
  sizes : ∀ b ∈ p :: rest, (mem b.addr).size = b.size

def mergeUpper (u : Block) : List Block → Block × List Block
  | [] => (u,[])
  | g :: rest => if u.stop = g.addr then (u.join g,rest) else (u,g :: rest)

def mergeLower (p u : Block) (rest : List Block) : List Block :=
  if p.stop = u.addr then p.join u :: rest else p :: u :: rest

section Links
variable {mem mem' : Mem} {p q u : Block} {rest A B : List Block} {x v : Nat}

@[simp] theorem setPtr_ne (h : x ≠ v) (n : Nat) : setPtr mem v n x = mem x :=
  Function.update_of_ne h _ _

@[simp] theorem setSize_ne (h : x ≠ v) (n : Nat) : setSize mem v n x = mem x :=
  Function.update_of_ne h _ _

@[simp] theorem setPtr_self (n : Nat) : setPtr mem v n v = { mem v with ptr := n } :=
  Function.update_self ..

@[simp] theorem setSize_self (n : Nat) : setSize mem v n v = { mem v with size := n } :=
  Function.update_self ..

theorem Ringed.rotate (h : Ringed mem p (A ++ q :: B)) : Ringed mem q (B ++ p :: A) := by
  constructor
  · have hring := h.ring
    rw [List.map_append,List.map_cons] at hring
    rw [List.map_append,List.map_cons]
    exact hring.rotate
  · intro b hb
    exact h.sizes b (by grind)

theorem joinUpper_ne (h : x ≠ u.addr) : joinUpper mem u.addr p.addr x = mem x := by
  unfold joinUpper
  split_ifs
  · rw [setPtr_ne h,setSize_ne h]
  · exact setPtr_ne h _

theorem joinLower_ne {bp : Nat} (h : x ≠ p.addr) : joinLower mem bp p.addr x = mem x := by
  unfold joinLower
  split_ifs
  · rw [setPtr_ne h,setSize_ne h]
  · exact setPtr_ne h _

theorem Ringed.leads_joinUpper (h : Ringed mem p rest) (hu : (mem u.addr).size = u.size)
    (hfresh : ∀ b ∈ rest, b.addr ≠ u.addr) (hend : u.stop ≠ p.addr) :
    Leads (next (joinUpper mem u.addr p.addr)) u.addr ((mergeUpper u rest).2.map Block.addr) p.addr ∧
      (joinUpper mem u.addr p.addr u.addr).size = (mergeUpper u rest).1.size := by
  have hkeep : ∀ bs : List Block, (∀ b ∈ bs, b ∈ rest) → ∀ a ∈ bs.map Block.addr,
      next (joinUpper mem u.addr p.addr) a = next mem a := by
    intro bs hbs a ha
    obtain ⟨b,hb,rfl⟩ := List.mem_map.mp ha
    exact congrArg Header.ptr (joinUpper_ne (hfresh b (hbs b hb)))
  have hstay : u.addr + (mem u.addr).size ≠ (mem p.addr).ptr →
      Leads (next (joinUpper mem u.addr p.addr)) u.addr (rest.map Block.addr) p.addr ∧
        (joinUpper mem u.addr p.addr u.addr).size = u.size := by
    intro hne
    have hring : next mem p.addr :: (rest.map Block.addr).map (next mem) = _ := h.ring
    constructor
    · rw [Leads,List.map_cons,List.map_congr_left (hkeep rest fun b hb => hb),← hring]
      simp [next,joinUpper,if_neg hne]
    · rw [joinUpper,if_neg hne,setPtr_self]
      exact hu
  cases rest with
  | nil =>
    have hnext : (mem p.addr).ptr = p.addr := leads_nil.mp h.ring
    refine hstay ?_
    rw [hu,hnext]
    exact hend
  | cons g rest =>
    have hnext : (mem p.addr).ptr = g.addr := (leads_cons.mp h.ring).1
    rw [mergeUpper]
    split_ifs with hjoin
    · have hcond : u.addr + (mem u.addr).size = (mem p.addr).ptr := by rw [hu,hnext,← hjoin]; rfl
      have hg : (mem g.addr).size = g.size := h.sizes g (by simp)
      have hgu : g.addr ≠ u.addr := hfresh g List.mem_cons_self
      have htail : next mem g.addr :: (rest.map Block.addr).map (next mem) = _ :=
        (leads_cons.mp h.ring).2
      have hval : joinUpper mem u.addr p.addr u.addr = ⟨(mem g.addr).ptr,u.size + g.size⟩ := by
        rw [joinUpper,if_pos hcond]
        simp [hnext,hgu,hu,hg]
      constructor
      · rw [Leads,List.map_cons,
          List.map_congr_left (hkeep rest fun b hb => List.mem_cons_of_mem g hb),← htail,next,hval]
        rfl
      · rw [hval]
        rfl
    · refine hstay ?_
      rw [hu,hnext]
      exact hjoin

theorem ringed_joinLower {bp : Block} (hsize : (mem p.addr).size = p.size)
    (hbp : (mem bp.addr).size = bp.size) (hrest : ∀ b ∈ rest, (mem b.addr).size = b.size)
    (hpath : Leads (next mem) bp.addr (rest.map Block.addr) p.addr)
    (hfresh : ∀ b ∈ rest, b.addr ≠ p.addr) (hne : bp.addr ≠ p.addr) :
    ∃ p' rest', mergeLower p bp rest = p' :: rest' ∧ p'.addr = p.addr ∧
      Ringed (joinLower mem bp.addr p.addr) p' rest' := by
  have hkeep : ∀ a ∈ rest.map Block.addr,
      next (joinLower mem bp.addr p.addr) a = next mem a := by
    intro a ha
    obtain ⟨b,hb,rfl⟩ := List.mem_map.mp ha
    exact congrArg Header.ptr (joinLower_ne (hfresh b hb))
  have hsizes : ∀ b ∈ rest, (joinLower mem bp.addr p.addr b.addr).size = b.size := by
    intro b hb
    rw [joinLower_ne (hfresh b hb)]
    exact hrest b hb
  have hlist : next mem bp.addr :: (rest.map Block.addr).map (next mem) = _ := hpath
  rw [mergeLower]
  split_ifs with hjoin
  · have hcond : p.addr + (mem p.addr).size = bp.addr := by rw [hsize,← hjoin]; rfl
    have hval : joinLower mem bp.addr p.addr p.addr = ⟨(mem bp.addr).ptr,p.size + bp.size⟩ := by
      rw [joinLower,if_pos hcond]
      simp [hne,hsize,hbp]
    refine ⟨_,_,rfl,rfl,?_,?_⟩
    · have hhead : next (joinLower mem bp.addr p.addr) p.addr = next mem bp.addr := by
        rw [next,hval]
        rfl
      change (p.addr :: rest.map Block.addr).map _ = rest.map Block.addr ++ [p.addr]
      rw [List.map_cons,List.map_congr_left hkeep,hhead]
      exact hlist
    · intro b hb
      rcases List.mem_cons.mp hb with rfl | hb
      · exact congrArg Header.size hval
      · exact hsizes b hb
  · have hcond : p.addr + (mem p.addr).size ≠ bp.addr := by
      rw [hsize]
      exact hjoin
    have hval : joinLower mem bp.addr p.addr p.addr = ⟨bp.addr,p.size⟩ := by
      rw [joinLower,if_neg hcond,setPtr_self]
      exact congrArg (Header.mk bp.addr) hsize
    have hbpkeep : joinLower mem bp.addr p.addr bp.addr = mem bp.addr := joinLower_ne hne
    refine ⟨_,_,rfl,rfl,leads_cons.mpr ⟨?_,?_⟩,?_⟩
    · exact congrArg Header.ptr hval
    · refine hpath.congr fun a ha => ?_
      rcases List.mem_cons.mp ha with rfl | ha
      · exact congrArg Header.ptr hbpkeep
      · exact hkeep a ha
    · intro b hb
      rcases List.mem_cons.mp hb with rfl | hb
      · exact congrArg Header.size hval
      · rcases List.mem_cons.mp hb with rfl | hb
        · rw [hbpkeep]
          exact hbp
        · exact hsizes b hb

end Links

end User.Malloc
