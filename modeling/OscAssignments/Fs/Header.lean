import OscAssignments.Fs.LogSpace

namespace Fs
open Runs Redo Xv6

theorem headWord_val {i : Nat} (hi : i + 1 < nindirect) : (headWord i).val = i + 1 :=
  Nat.mod_eq_of_lt hi

theorem headWord_ne {i j : Nat} (hi : i + 1 < nindirect) (hj : j + 1 < nindirect) (h : i ≠ j) :
    headWord i ≠ headWord j := by
  intro he
  have hv := congrArg Fin.val he
  rw [headWord_val hi,headWord_val hj] at hv
  omega

theorem headWord_ne_zero {i : Nat} (hi : i + 1 < nindirect) : headWord i ≠ 0 := by
  intro he
  have hv := congrArg Fin.val he
  rw [headWord_val hi] at hv
  cases hv

def putBlock (b : Block) (c : Nat × Nat) : Block := b.setWord (headWord c.2) c.1.toUInt32

theorem putBlocks_other {lh : List Nat} {k : Nat} {j : WordIdx}
    (hj : ∀ i, k ≤ i → i < k + lh.length → j ≠ headWord i) (b : Block) :
    ((lh.zipIdx k).foldl putBlock b).word j = b.word j := by
  induction lh generalizing k b with
  | nil => rfl
  | cons a lh ih =>
    rw [List.zipIdx_cons,List.foldl_cons,ih]
    · exact Block.word_setWord_of_ne (hj k le_rfl (by simp))
    · intro i hi hlt
      exact hj i (by omega) (by rw [List.length_cons]; omega)

theorem putBlocks_at {lh : List Nat} {k i : Nat} (hfit : k + lh.length < nindirect)
    (hi : i < lh.length) (b : Block) :
    ((lh.zipIdx k).foldl putBlock b).word (headWord (k + i)) = lh[i].toUInt32 := by
  induction lh generalizing k i b with
  | nil => cases hi
  | cons a lh ih =>
    rw [List.zipIdx_cons,List.foldl_cons]
    rw [List.length_cons] at hfit
    cases i with
    | zero =>
      rw [putBlocks_other]
      · exact Block.word_setWord
      · intro j hj hlt
        exact headWord_ne (by omega) (by omega) (by omega)
    | succ i =>
      have h := ih (k := k + 1) (i := i) (by omega) (by simpa using hi) (putBlock b (a,k))
      rw [show k + (i + 1) = k + 1 + i by omega]
      exact h

theorem headCount_encode {lh : List Nat} (h : lh.length ≤ logsize) (b : Block) :
    headCount (encode lh b) = lh.length := by
  change lh.length ≤ 30 at h
  have hword : (encode lh b).word 0 = lh.length.toUInt32 := by
    refine (putBlocks_other ?_ _).trans Block.word_setWord
    intro i _ hlt
    exact (headWord_ne_zero (by change _ < 128; omega)).symm
  unfold headCount
  rw [hword]
  simp only [Nat.toUInt32,UInt32.toNat_ofNat']
  split_ifs <;> omega

theorem header_encode {lh : List Nat} (h : lh.length ≤ logsize) (hb : ∀ b ∈ lh, b < fssize)
    (b : Block) : header (encode lh b) = lh := by
  rw [header,headCount_encode h]
  change lh.length ≤ 30 at h
  apply List.ext_getElem
  · simp
  · intro i h1 h2
    have hword : (encode lh b).word (headWord i) = lh[i].toUInt32 := by
      have hput := putBlocks_at (k := 0) (by change _ < 128; omega) h2
        (b.setWord 0 lh.length.toUInt32)
      rw [Nat.zero_add] at hput
      exact hput
    have hsmall : lh[i] < 1000 := hb _ (List.getElem_mem h2)
    rw [List.getElem_map,List.getElem_range,hword]
    simp only [Nat.toUInt32,UInt32.toNat_ofNat']
    omega

end Fs
