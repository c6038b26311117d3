import Mathlib.Tactic
import OscAssignments.User.Grep

namespace User.Grep

def unlines (ls : List (List Byte)) : List Byte := (ls.map (· ++ [newline])).flatten

structure Clean (l : List Byte) : Prop where
  noNul : 0 ∉ l
  noNewline : newline ∉ l

def Whole (input : List (List Byte)) : Prop := ∀ s ∈ input.dropLast, s.getLast? = some newline

section Lines
variable {l buf last part got : List Byte} {ls : List (List Byte)} {input : List (List Byte)}
variable {pattern : List Byte}

theorem unlines_cons : unlines (l :: ls) = l ++ newline :: unlines ls := by
  rw [unlines,List.map_cons,List.flatten_cons,List.append_assoc]
  rfl

theorem unlines_append (ks : List (List Byte)) : unlines (ks ++ ls) = unlines ks ++ unlines ls := by
  rw [unlines,List.map_append,List.flatten_append]
  rfl

theorem Clean.of_sublist (h : Clean last) (hs : buf.Sublist last) : Clean buf :=
  ⟨fun h0 => h.noNul (hs.subset h0),fun hn => h.noNewline (hs.subset hn)⟩

theorem lines_eq_nil (h : Clean buf) (hb : buf = unlines ls ++ last) : ls = [] := by
  cases ls with
  | nil => rfl
  | cons l ls =>
    refine absurd ?_ h.noNewline
    rw [hb,unlines_cons]
    simp

theorem strchr_newline (h : Clean l) (rest : List Byte) :
    strchr (l ++ newline :: rest) newline = some l.length := by
  induction l with
  | nil => rfl
  | cons b l ih =>
    have hb0 : b ≠ 0 := fun hb => h.noNul (by simp [hb])
    have hbn : b ≠ newline := fun hb => h.noNewline (by simp [hb])
    rw [List.cons_append,strchr,if_neg hb0,if_neg hbn,ih (h.of_sublist (List.sublist_cons_self b l))]
    rfl

theorem strchr_none (h : Clean l) : strchr l newline = none := by
  induction l with
  | nil => rfl
  | cons b l ih =>
    have hb0 : b ≠ 0 := fun hb => h.noNul (by simp [hb])
    have hbn : b ≠ newline := fun hb => h.noNewline (by simp [hb])
    rw [strchr,if_neg hb0,if_neg hbn,ih (h.of_sublist (List.sublist_cons_self b l))]
    rfl

theorem scan_lines (pattern : List Byte) (hls : ∀ l ∈ ls, Clean l) (hpart : Clean part) (n : Nat)
    (hn : ls.length < n) :
    scan pattern n (unlines ls ++ part) = (unlines (ls.filter (matchText pattern)),part) := by
  induction ls generalizing n with
  | nil =>
    obtain ⟨n,rfl⟩ : ∃ k, n = k + 1 := ⟨n - 1,by omega⟩
    change scan pattern (n + 1) part = _
    rw [scan,strchr_none hpart]
    rfl
  | cons l ls ih =>
    rw [List.length_cons] at hn
    obtain ⟨n,rfl⟩ : ∃ k, n = k + 1 := ⟨n - 1,by omega⟩
    have hl : Clean l := hls l List.mem_cons_self
    have hline : (l ++ newline :: (unlines ls ++ part)).take (l.length + 1) = l ++ [newline] :=
      List.take_length_add_append 1
    have hrest : (l ++ newline :: (unlines ls ++ part)).drop (l.length + 1) = unlines ls ++ part :=
      List.drop_length_add_append 1
    rw [unlines_cons,List.append_assoc,List.cons_append,scan,strchr_newline hl]
    dsimp only
    rw [hline,hrest,ih (fun k hk => hls k (List.mem_cons_of_mem l hk)) n (by omega),List.take_left,
      List.filter_cons]
    split_ifs
    · rw [unlines_cons,List.append_assoc]
      rfl
    · rfl

theorem length_le_unlines (ls : List (List Byte)) : ls.length ≤ (unlines ls).length := by
  induction ls with
  | nil => exact le_rfl
  | cons l ls ih =>
    rw [unlines_cons,List.length_append,List.length_cons,List.length_cons]
    omega

theorem exists_split {rest : List Byte} (hls : ∀ l ∈ ls, Clean l) (hlast : Clean last)
    (h : buf ++ rest = unlines ls ++ last) :
    ∃ done todo part, ls = done ++ todo ∧ buf = unlines done ++ part ∧ Clean part ∧
      part ++ rest = unlines todo ++ last := by
  induction ls generalizing buf with
  | nil =>
    refine ⟨[],[],buf,rfl,rfl,hlast.of_sublist ?_,h⟩
    have hpre : buf ++ rest = last := h
    rw [← hpre]
    exact List.sublist_append_left buf rest
  | cons l ls ih =>
    have hl : Clean l := hls l List.mem_cons_self
    rw [unlines_cons,List.append_cons,List.append_assoc] at h
    rcases List.append_eq_append_iff.mp h with ⟨c,hc,hrest⟩ | ⟨c,hc,hrest⟩
    · rcases List.eq_nil_or_concat c with rfl | ⟨c',b,rfl⟩
      · refine ⟨[l],ls,[],rfl,?_,⟨by simp,by simp⟩,hrest⟩
        rw [unlines_cons,← List.append_nil buf,← hc]
        simp [unlines]
      · refine ⟨[],l :: ls,buf,rfl,rfl,?_,?_⟩
        · rw [List.concat_eq_append,← List.append_assoc] at hc
          have hinit := List.append_inj_left' hc rfl
          refine hl.of_sublist ?_
          rw [hinit]
          exact List.sublist_append_left buf c'
        · rw [unlines_cons,List.append_cons,List.append_assoc]
          exact h
    · obtain ⟨done,todo,part,rfl,hbuf,hpart,hjoin⟩ :=
        ih (fun k hk => hls k (List.mem_cons_of_mem l hk)) hrest.symm
      refine ⟨l :: done,todo,part,rfl,?_,hpart,hjoin⟩
      rw [hc,hbuf,unlines_cons,List.append_assoc,List.append_assoc]
      rfl

theorem readSome_spec (room : Nat) (hroom : 0 < room) (hw : Whole input) :
    (readSome room input).1 ++ (readSome room input).2.flatten = input.flatten ∧
      (readSome room input).1.length ≤ room ∧ Whole (readSome room input).2 ∧
      ((readSome room input).1 = [] → input.flatten = []) ∧
      ((readSome room input).1.getLast? = some newline ∨ (readSome room input).2 = [] ∨
        (readSome room input).1.length = room) := by
  cases input with
  | nil => exact ⟨rfl,Nat.zero_le _,hw,fun _ => rfl,.inr (.inl rfl)⟩
  | cons s rest =>
    have hrest : Whole rest := by
      intro t ht
      refine hw t ?_
      cases rest with
      | nil => cases ht
      | cons u rest => exact List.mem_cons_of_mem s ht
    have hfirst : rest ≠ [] → s.getLast? = some newline := by
      intro hne
      refine hw s ?_
      rw [List.dropLast_cons_of_ne_nil hne]
      exact List.mem_cons_self
    rw [readSome]
    split_ifs with hfit
    · refine ⟨rfl,hfit,hrest,?_,?_⟩
      · rintro rfl
        rcases eq_or_ne rest [] with rfl | hne
        · rfl
        · cases hfirst hne
      · rcases eq_or_ne rest [] with rfl | hne
        · exact .inr (.inl rfl)
        · exact .inl (hfirst hne)
    · have hlen : (s.take room).length = room := by
        rw [List.length_take]
        omega
      refine ⟨?_,hlen.le,?_,?_,.inr (.inr hlen)⟩
      · rw [List.flatten_cons,← List.append_assoc,List.take_append_drop,List.flatten_cons]
      · intro t ht
        rcases eq_or_ne rest [] with rfl | hne
        · cases ht
        · rw [List.dropLast_cons_of_ne_nil hne] at ht
          rcases List.mem_cons.mp ht with rfl | ht
          · rw [List.getLast?_drop,if_neg (by omega)]
            exact hfirst hne
          · exact hrest t ht
      · intro hnil
        have hnil : s.take room = [] := hnil
        rw [hnil] at hlen
        exact absurd hlen hroom.ne

structure Waiting (kept : List Byte) (input ls : List (List Byte)) (last : List Byte) : Prop where
  all : kept ++ input.flatten = unlines ls ++ last
  room : kept.length + 1 < bufSize
  start : Clean kept
  whole : Whole input
  lines : ∀ l ∈ ls, Clean l ∧ l.length + 1 < bufSize
  last : Clean last

theorem Waiting.lost {kept : List Byte} (h : Waiting kept input ls last) {got : List Byte}
    {rest : List (List Byte)} (hread : readSome (bufSize - kept.length - 1) input = (got,rest))
    (hclean : Clean (kept ++ got)) : ls = [] := by
  have hroom := h.room
  obtain ⟨hjoin,-,-,-,hend⟩ := readSome_spec (bufSize - kept.length - 1) (by omega) h.whole
  rw [hread] at hjoin hend
  have hall : (kept ++ got) ++ rest.flatten = unlines ls ++ last := by
    rw [List.append_assoc,hjoin]
    exact h.all
  rcases hend with hnl | hrest | hfull
  · refine absurd ?_ hclean.noNewline
    exact List.mem_append_right kept (List.mem_of_getLast? hnl)
  · have hrest : rest = [] := hrest
    rw [hrest,List.flatten_nil,List.append_nil] at hall
    exact lines_eq_nil hclean hall
  · cases ls with
    | nil => rfl
    | cons l ls =>
      have hfull : got.length = bufSize - kept.length - 1 := hfull
      have hshort := (h.lines l List.mem_cons_self).2
      rw [unlines_cons,List.append_cons,List.append_assoc (l ++ [newline])] at hall
      have hpre : l ++ [newline] <+: kept ++ got := by
        refine List.prefix_of_prefix_length_le (List.prefix_append _ (unlines ls ++ last)) ?_ ?_
        · rw [← hall]
          exact List.prefix_append _ _
        · rw [List.length_append,List.length_append,List.length_singleton]
          omega
      refine absurd (hpre.subset ?_) hclean.noNewline
      simp

theorem Waiting.step {kept : List Byte} (h : Waiting kept input ls last) {got : List Byte}
    {rest : List (List Byte)} (hread : readSome (bufSize - kept.length - 1) input = (got,rest)) :
    ∃ done todo part last', ls = done ++ todo ∧ kept ++ got = unlines done ++ part ∧ Clean part ∧
      Waiting (if part.length = (kept ++ got).length then [] else part) rest todo last' := by
  have hroom := h.room
  obtain ⟨hjoin,hlen,hw,-,-⟩ := readSome_spec (bufSize - kept.length - 1) (by omega) h.whole
  rw [hread] at hjoin hlen hw
  have hlen : got.length ≤ bufSize - kept.length - 1 := hlen
  have hall : (kept ++ got) ++ rest.flatten = unlines ls ++ last := by
    rw [List.append_assoc,hjoin]
    exact h.all
  obtain ⟨done,todo,part,hls,hbuf,hpart,hnext⟩ :=
    exists_split (fun l hl => (h.lines l hl).1) h.last hall
  have hle : (kept ++ got).length = (unlines done).length + part.length := by
    rw [hbuf,List.length_append]
  rcases eq_or_ne part.length (kept ++ got).length with hsame | hless
  · have hdone : unlines done = [] := List.length_eq_zero_iff.mp (by omega)
    have hpb : part = kept ++ got := by rw [hbuf,hdone,List.nil_append]
    have hnone : ls = [] := h.lost hread (hpb ▸ hpart)
    obtain ⟨rfl,rfl⟩ := List.append_eq_nil_iff.mp (hls.symm.trans hnone)
    have hlast : part ++ rest.flatten = last := hnext
    refine ⟨[],[],part,rest.flatten,hls,hbuf,hpart,?_⟩
    rw [if_pos hsame]
    refine ⟨rfl,by decide,⟨by simp,by simp⟩,hw,by simp,h.last.of_sublist ?_⟩
    rw [← hlast]
    exact List.sublist_append_right part _
  · refine ⟨done,todo,part,last,hls,hbuf,hpart,?_⟩
    rw [if_neg hless]
    rw [List.length_append] at hle hless
    refine ⟨hnext,by omega,hpart,hw,fun l hl => h.lines l ?_,h.last⟩
    rw [hls]
    exact List.mem_append_right done hl

theorem Waiting.run {kept : List Byte} (h : Waiting kept input ls last) (n : Nat)
    (hn : input.flatten.length < n) :
    grepFrom pattern n kept input = unlines (ls.filter (matchText pattern)) := by
  induction n generalizing kept input ls last with
  | zero => omega
  | succ n ih =>
    have hroom := h.room
    obtain ⟨hjoin,-,-,hempty,-⟩ :=
      readSome_spec (bufSize - kept.length - 1) (by omega) h.whole
    rw [grepFrom]
    generalize hread : readSome (bufSize - kept.length - 1) input = r at hjoin hempty ⊢
    obtain ⟨got,rest⟩ := r
    dsimp only at *
    rcases eq_or_ne got [] with hgot | hgot
    · have hall := h.all
      rw [if_pos hgot]
      rw [hempty hgot,List.append_nil] at hall
      rw [lines_eq_nil h.start hall]
      rfl
    · obtain ⟨done,todo,part,last',rfl,hbuf,hpart,hnext⟩ := h.step hread
      have hpos : 0 < got.length := List.length_pos_iff.mpr hgot
      have hshrink : rest.flatten.length < n := by
        have hlen := congrArg List.length hjoin
        rw [List.length_append] at hlen
        omega
      have hfuel : done.length < (unlines done ++ part).length + 1 := by
        have hle := length_le_unlines done
        rw [List.length_append]
        omega
      have hclean : ∀ l ∈ done, Clean l := fun l hl => (h.lines l (List.mem_append_left todo hl)).1
      have hscan := scan_lines pattern hclean hpart _ hfuel
      rw [← hbuf] at hscan
      rw [if_neg hgot,hscan]
      dsimp only
      rw [ih hnext hshrink,List.filter_append,unlines_append]

end Lines

theorem grep_prints_matching (pattern : List Byte) (input ls : List (List Byte)) (last : List Byte)
    (hinput : input.flatten = unlines ls ++ last) (hlast : Clean last)
    (hlines : ∀ l ∈ ls, Clean l ∧ l.length + 1 < bufSize) (hwhole : Whole input) :
    grep pattern input = unlines (ls.filter (matchText pattern)) := by
  have hstart : Waiting [] input ls last :=
    ⟨hinput,by decide,⟨by simp,by simp⟩,hwhole,hlines,hlast⟩
  exact hstart.run _ (Nat.lt_succ_self _)

theorem grep_prints_matching_run :
    grep [94,97,46,42,98,36] [[97,98,10],[120,98,10,97,98]] =
      unlines ([[97,98],[120,98]].filter (matchText [94,97,46,42,98,36])) ∧
    [[97,98],[120,98]].filter (matchText [94,97,46,42,98,36]) = [[97,98]] := by
  refine ⟨?_,by decide +kernel⟩
  refine grep_prints_matching _ _ [[97,98],[120,98]] [97,98] (by decide) ⟨by decide,by decide⟩ ?_ ?_
  · intro l hl
    rcases List.mem_pair.mp hl with rfl | rfl
    · exact ⟨⟨by decide,by decide⟩,by decide⟩
    · exact ⟨⟨by decide,by decide⟩,by decide⟩
  · intro s hs
    rw [List.mem_singleton.mp hs]
    rfl

example : grep [97] [[97],[98,10]] = [] := by decide +kernel

end User.Grep
