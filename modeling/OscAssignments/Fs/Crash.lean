import OscAssignments.Fs.Header

namespace Fs
open Runs Redo Xv6

variable {n : Nat}

structure Store where
  durable : Nat → Block
  current : Nat → Block

def Act.plain : Act n → Bool
  | .modify _ _ _ | .crash => false
  | _ => true

inductive Store.Step (quiet commits : Prop) (st : Store) : Act n → Store → Prop
  | keep {a : Act n} (ha : a.plain = true) (hno : ¬commits) : Store.Step quiet commits st a st
  | write (p : Fin n) (b : Nat) (data : Block) (hno : ¬commits) :
      Store.Step quiet commits st (.modify p b data)
        { st with current := Function.update st.current b data }
  | commit (p : Fin n) (hyes : commits) (hquiet : quiet) :
      Store.Step quiet commits st (.commit p) { st with durable := st.current }
  | crash (hno : ¬commits) : Store.Step quiet commits st .crash { st with current := st.durable }

def recovered (sb : Superblock) (disk : Nat → Block) : Nat → Block :=
  replay (slotted (fun i => disk (sb.slot i)) (header (disk sb.logstart))) disk

structure WfHead (sb : Superblock) (l : List Nat) : Prop where
  home : ∀ b ∈ l, sb.Home b
  small : ∀ b ∈ l, b < fssize
  room : l.length + 1 ≤ sb.nlog
  length : l.length ≤ logsize

namespace Superblock
variable {sb : Superblock} {b i : Nat}

theorem Home.ne_logstart (h : sb.Home b) (hlog : 0 < sb.nlog) : b ≠ sb.logstart := by
  rcases h with h | h <;> omega

theorem Home.ne_slot (h : sb.Home b) (hi : i + 1 < sb.nlog) : b ≠ sb.slot i := by
  unfold slot
  rcases h with h | h <;> omega

theorem slot_ne_logstart : sb.slot i ≠ sb.logstart := by
  unfold slot
  omega

theorem slot_injective {j : Nat} (h : sb.slot i = sb.slot j) : i = j := by
  unfold slot at h
  omega

end Superblock

section Recovered
variable {sb : Superblock} {disk : Nat → Block} {b : Nat} {v : Block}

theorem WfHead.nil (h : 0 < sb.nlog) : WfHead sb [] := ⟨by simp,by simp,by rw [List.length_nil]; omega,by simp⟩

theorem recovered_nil (h : header (disk sb.logstart) = []) : recovered sb disk = disk := by
  rw [recovered,h]
  rfl

theorem recovered_of_notMem (h : b ∉ header (disk sb.logstart)) : recovered sb disk b = disk b :=
  replay_of_notMem (by rwa [slotted_fst]) disk

theorem slotted_update {l : List Nat} {c : Nat} (h : ∀ i < l.length, c ≠ sb.slot i) :
    slotted (fun i => Function.update disk c v (sb.slot i)) l =
      slotted (fun i => disk (sb.slot i)) l :=
  slotted_congr fun i hi => Function.update_of_ne (h i hi).symm _ _

theorem recovered_update_logged (hwf : WfHead sb (header (disk sb.logstart)))
    (hb : b ∈ header (disk sb.logstart)) :
    recovered sb (Function.update disk b v) = recovered sb disk := by
  have hhome := hwf.home b hb
  have hroom := hwf.room
  have hstart := hhome.ne_logstart (by omega)
  have hslot : ∀ i < (header (disk sb.logstart)).length, b ≠ sb.slot i :=
    fun i hi => hhome.ne_slot (by omega)
  unfold recovered
  rw [Function.update_of_ne hstart.symm,slotted_update hslot]
  exact replay_update (by rwa [slotted_fst]) disk v

theorem recovered_update_slot (hhead : header (disk sb.logstart) = []) {i : Nat} :
    recovered sb (Function.update disk (sb.slot i) v) = Function.update disk (sb.slot i) v := by
  apply recovered_nil
  rw [Function.update_of_ne Superblock.slot_ne_logstart.symm]
  exact hhead

theorem recovered_head {lh : List Nat} (hwf : WfHead sb lh) (hnodup : lh.Nodup) (cur : Nat → Block)
    (hslots : ∀ i b, lh[i]? = some b → disk (sb.slot i) = cur b) (old : Block) (b : Nat) :
    recovered sb (Function.update disk sb.logstart (encode lh old)) b =
      if b ∈ lh then cur b else Function.update disk sb.logstart (encode lh old) b := by
  have hhead : header (Function.update disk sb.logstart (encode lh old) sb.logstart) = lh := by
    rw [Function.update_self]
    exact header_encode hwf.length hwf.small old
  split_ifs with hb
  · obtain ⟨pre,post,rfl⟩ := List.append_of_mem hb
    obtain ⟨rest,hsplit,hrest⟩ := slotted_split
      (fun i => Function.update disk sb.logstart (encode (pre ++ b :: post) old) (sb.slot i))
      pre b post
    have hlate : b ∉ rest.map Prod.fst := by
      rw [hrest]
      have := List.nodup_append.mp hnodup
      exact (List.nodup_cons.mp this.2.1).1
    unfold recovered
    rw [hhead,hsplit,replay_last hlate]
    rw [Function.update_of_ne Superblock.slot_ne_logstart]
    exact hslots pre.length b (by simp)
  · exact recovered_of_notMem (by rwa [hhead])

theorem restored_at {lh : List Nat} (hhead : header (disk sb.logstart) = lh) {tail : Nat}
    (hb : lh[tail]? = some b) (hlate : b ∉ lh.drop (tail + 1)) :
    recovered sb disk b = disk (sb.slot tail) := by
  obtain ⟨hlt,hget⟩ := List.getElem?_eq_some_iff.mp hb
  have hlh : lh = lh.take tail ++ b :: lh.drop (tail + 1) := by
    rw [← hget,← List.drop_eq_getElem_cons hlt,List.take_append_drop]
  obtain ⟨rest,hsplit,hrest⟩ := slotted_split (fun i => disk (sb.slot i)) (lh.take tail) b
    (lh.drop (tail + 1))
  rw [← hlh,List.length_take_of_le hlt.le] at hsplit
  unfold recovered
  rw [hhead,hsplit,replay_last (by rwa [hrest])]

end Recovered

namespace Machine

structure Kept (sb : Superblock) (m : Machine n) (st : Store) : Prop where
  bounded : m.Bounded
  clean : m.Clean
  wf : WfHead sb (header (m.disk sb.logstart))
  restored : ∀ b, sb.Home b → recovered sb m.disk b = st.durable b

structure Logged (sb : Superblock) (m : Machine n) : Prop where
  home : ∀ b ∈ m.lh, sb.Home b
  small : ∀ b ∈ m.lh, b < fssize
  nodup : m.lh.Nodup

def Shown (sb : Superblock) (m : Machine n) (st : Store) : Prop :=
  ∀ b, sb.Home b → m.view b = st.current b

def Pins (m : Machine n) (l : List Nat) : Prop := ∀ b, m.isDirty b = true ↔ b ∈ l

def Unowned (m : Machine n) : Prop := ∀ b, m.ownerOf b = none

structure Owners (sb : Superblock) (m : Machine n) : Prop where
  owner : ∀ b p, m.ownerOf b = some p ↔ ∃ wrote, m.pc p = .logging wrote b
  home : ∀ p wrote b, m.pc p = .logging wrote b → sb.Home b

inductive Mode (sb : Superblock) (m : Machine n) (st : Store) : Prop
  | readHead (hphase : m.phase = .readHead) (hpins : m.Pins []) (hfree : m.Unowned)
      (hunread : m.Unread) (hcur : st.current = st.durable)
  | restoring {tail : Nat} (hphase : m.phase = .install tail) (hpins : m.Pins [])
      (hfree : m.Unowned) (hunread : m.Unread) (hcur : st.current = st.durable)
      (hlh : m.lh = header (m.disk sb.logstart))
      (hdone : ∀ b, sb.Home b → b ∉ m.lh.drop tail → m.disk b = st.durable b)
  | running (hphase : m.phase = .up) (hopen : m.committing = false) (hshown : Shown sb m st)
      (hlog : Logged sb m) (hpins : m.Pins m.lh) (hown : Owners sb m)
      (hhead : header (m.disk sb.logstart) = [])
  | writing {p : Fin n} {tail : Nat} (hphase : m.phase = .up)
      (hpc : m.pc p = .commit (.writeLog tail)) (hshown : Shown sb m st) (hlog : Logged sb m)
      (hpins : m.Pins m.lh) (hfree : m.Unowned) (hhead : header (m.disk sb.logstart) = [])
      (hslots : ∀ i b, i < tail → m.lh[i]? = some b → m.disk (sb.slot i) = st.current b)
  | installing {p : Fin n} {tail : Nat} (hphase : m.phase = .up)
      (hpc : m.pc p = .commit (.install tail)) (hshown : Shown sb m st) (hlog : Logged sb m)
      (hpins : m.Pins (m.lh.drop tail)) (hfree : m.Unowned)
      (hhead : header (m.disk sb.logstart) = m.lh)
      (hslots : ∀ i b, m.lh[i]? = some b → m.disk (sb.slot i) = st.current b)
      (hdone : ∀ b, sb.Home b → b ∉ m.lh.drop tail → m.disk b = st.current b)
      (hcommitted : ∀ b, sb.Home b → st.durable b = st.current b)
  | finishing {p : Fin n} (hphase : m.phase = .up) (hpc : m.pc p = .commit .finish)
      (hshown : Shown sb m st) (hlh : m.lh = []) (hpins : m.Pins []) (hfree : m.Unowned)
      (hhead : header (m.disk sb.logstart) = [])
      (hcommitted : ∀ b, sb.Home b → st.durable b = st.current b)

structure Sync (sb : Superblock) (m : Machine n) (st : Store) : Prop where
  kept : Kept sb m st
  mode : Mode sb m st

def Quiet (m : Machine n) : Prop := ∀ p, (m.pc p).active = false

def WritesHead (m : Machine n) (a : Act n) : Prop :=
  ∃ p tail, a = .commit p ∧ m.pc p = .commit (.writeLog tail) ∧ m.lh[tail]? = none

variable {sb : Superblock} {m m' : Machine n} {st : Store} {p : Fin n} {b tail : Nat}
  {c : Cache n} {v : Block}

theorem Reload.kept (hc : m.Reload c) (h : Kept sb m st) :
    Kept sb { m with cache := c } st :=
  ⟨hc.bounded h.bounded,hc.clean h.clean,h.wf,h.restored⟩

theorem Reload.mode (hc : m.Reload c) (hk : Kept sb m st) (h : Mode sb m st) :
    Mode sb { m with cache := c } st := by
  have hv := hc.view hk.clean
  have hd := hc.isDirty
  have ho := hc.ownerOf
  have hshown : Shown sb m st → Shown sb { m with cache := c } st := by
    intro hs
    unfold Shown
    rwa [hv]
  have hpins : ∀ {l}, m.Pins l → Pins { m with cache := c } l := by
    intro l hp
    unfold Pins
    rwa [hd]
  have hfree : m.Unowned → Unowned { m with cache := c } := by
    intro hf
    unfold Unowned
    rwa [ho]
  cases h with
  | readHead hphase hp hf hr hcur =>
    exact .readHead hphase (hpins hp) (hfree hf) (hc.unread (by simp [hphase]) hr) hcur
  | restoring hphase hp hf hr hcur hlh hdone =>
    exact .restoring hphase (hpins hp) (hfree hf) (hc.unread (by simp [hphase]) hr) hcur hlh hdone
  | running hphase hopen hs hlog hp hown hhead =>
    refine .running hphase hopen (hshown hs) ⟨hlog.home,hlog.small,hlog.nodup⟩ (hpins hp) ?_ hhead
    refine ⟨?_,hown.home⟩
    rw [ho]
    exact hown.owner
  | writing hphase hpc hs hlog hp hf hhead hslots =>
    exact .writing hphase hpc (hshown hs) ⟨hlog.home,hlog.small,hlog.nodup⟩ (hpins hp) (hfree hf)
      hhead hslots
  | installing hphase hpc hs hlog hp hf hhead hslots hdone hcommitted =>
    exact .installing hphase hpc (hshown hs) ⟨hlog.home,hlog.small,hlog.nodup⟩ (hpins hp)
      (hfree hf) hhead hslots hdone hcommitted
  | finishing hphase hpc hs hlh hp hf hhead hcommitted =>
    exact .finishing hphase hpc (hshown hs) hlh (hpins hp) (hfree hf) hhead hcommitted

theorem Kept.bwrite (h : Kept sb m st) {st' : Store} (hc : m.Reload c) (hsome : (c b).isSome)
    (hwf : WfHead sb (header (Function.update m.disk b v sb.logstart)))
    (hrestored : ∀ x, sb.Home x → recovered sb (Function.update m.disk b v) x = st'.durable x) :
    Kept sb ({ m with cache := c }.bwrite b v) st' := by
  refine ⟨(hc.bounded h.bounded).setBuf hsome _,?_,hwf,hrestored⟩
  intro x
  rw [view_bwrite,isDirty_bwrite,ownerOf_bwrite,hc.view h.clean,hc.isDirty,hc.ownerOf]
  change _ → _ → _ = Function.update m.disk b v x
  rcases eq_or_ne x b with rfl | hne
  · intro _ _
    rw [Function.update_self,Function.update_self]
  · rw [Function.update_of_ne hne,Function.update_of_ne hne,Function.update_of_ne hne,
      Function.update_of_ne hne]
    exact h.clean x

theorem Kept.disk_eq (h : Kept sb m st) {l : List Nat} (hpins : m.Pins l) (hfree : m.Unowned)
    (hb : b ∉ l) : m.view b = m.disk b := by
  refine h.clean b ?_ (hfree b)
  rw [← Bool.not_eq_true,hpins b]
  exact hb

theorem Pins.bwrite {l k : List Nat} (hpins : m.Pins l) (hc : m.Reload c)
    (hl : ∀ x, x ∈ k ↔ x ≠ b ∧ x ∈ l) : Pins ({ m with cache := c }.bwrite b v) k := by
  intro x
  rw [isDirty_bwrite,hc.isDirty,hl]
  rcases eq_or_ne x b with rfl | hne
  · simp
  · rw [Function.update_of_ne hne,hpins x]
    simp [hne]

theorem Unowned.bwrite (hfree : m.Unowned) (hc : m.Reload c) :
    Unowned ({ m with cache := c }.bwrite b v) := by
  intro x
  rw [ownerOf_bwrite,hc.ownerOf]
  rcases eq_or_ne x b with rfl | hne
  · rw [Function.update_self]
  · rw [Function.update_of_ne hne]
    exact hfree x

theorem Space.unique (h : Space m) {q : Fin n} (hp : (m.pc p).commits = true)
    (hq : (m.pc q).commits = true) : q = p := by
  have htally := tally_setPc (m := m) (p := p) .out Pc.commits
  have hcount := h.commits
  rw [h.committing hp] at hcount
  rw [hp,hcount] at htally
  have hzero : Tally.tally Pc.commits (m.setPc p .out).pc = 0 := Nat.succ.inj htally
  by_contra hne
  have hnone := Tally.tally_eq_zero.mp hzero q
  rw [show (m.setPc p .out).pc q = m.pc q from Function.update_of_ne hne _ _,hq] at hnone
  cases hnone

section Inversion
variable (h : Mode sb m st) (hup : m.phase = .up) (hs : Space m)
include h hup hs

theorem mode_running (hopen : m.committing = false) :
    Shown sb m st ∧ Logged sb m ∧ m.Pins m.lh ∧ Owners sb m ∧
      header (m.disk sb.logstart) = [] := by
  have hcontra : ∀ {q st}, m.pc q = .commit st → False := by
    intro q st hq
    have hc := hs.committing (p := q) (by rw [hq]; rfl)
    rw [hopen] at hc
    cases hc
  cases h with
  | readHead hphase => rw [hup] at hphase; cases hphase
  | restoring hphase => rw [hup] at hphase; cases hphase
  | running _ _ hshown hlog hpins hown hhead => exact ⟨hshown,hlog,hpins,hown,hhead⟩
  | writing _ hpc => exact (hcontra hpc).elim
  | installing _ hpc => exact (hcontra hpc).elim
  | finishing _ hpc => exact (hcontra hpc).elim

theorem mode_writing (hpc : m.pc p = .commit (.writeLog tail)) :
    Shown sb m st ∧ Logged sb m ∧ m.Pins m.lh ∧ m.Unowned ∧ header (m.disk sb.logstart) = [] ∧
      ∀ i b, i < tail → m.lh[i]? = some b → m.disk (sb.slot i) = st.current b := by
  have hp : (m.pc p).commits = true := by rw [hpc]; rfl
  cases h with
  | readHead hphase => rw [hup] at hphase; cases hphase
  | restoring hphase => rw [hup] at hphase; cases hphase
  | running _ hopen => rw [hs.committing hp] at hopen; cases hopen
  | @writing q _ _ hq hshown hlog hpins hfree hhead hslots =>
    obtain rfl := hs.unique hp (q := q) (by rw [hq]; rfl)
    rw [hpc] at hq
    cases hq
    exact ⟨hshown,hlog,hpins,hfree,hhead,hslots⟩
  | @installing q _ _ hq =>
    obtain rfl := hs.unique hp (q := q) (by rw [hq]; rfl)
    rw [hpc] at hq
    cases hq
  | @finishing q _ hq =>
    obtain rfl := hs.unique hp (q := q) (by rw [hq]; rfl)
    rw [hpc] at hq
    cases hq

theorem mode_installing (hpc : m.pc p = .commit (.install tail)) :
    Shown sb m st ∧ Logged sb m ∧ m.Pins (m.lh.drop tail) ∧ m.Unowned ∧
      header (m.disk sb.logstart) = m.lh ∧
      (∀ i b, m.lh[i]? = some b → m.disk (sb.slot i) = st.current b) ∧
      (∀ b, sb.Home b → b ∉ m.lh.drop tail → m.disk b = st.current b) ∧
      ∀ b, sb.Home b → st.durable b = st.current b := by
  have hp : (m.pc p).commits = true := by rw [hpc]; rfl
  cases h with
  | readHead hphase => rw [hup] at hphase; cases hphase
  | restoring hphase => rw [hup] at hphase; cases hphase
  | running _ hopen => rw [hs.committing hp] at hopen; cases hopen
  | @writing q _ _ hq =>
    obtain rfl := hs.unique hp (q := q) (by rw [hq]; rfl)
    rw [hpc] at hq
    cases hq
  | @installing q _ _ hq hshown hlog hpins hfree hhead hslots hdone hcommitted =>
    obtain rfl := hs.unique hp (q := q) (by rw [hq]; rfl)
    rw [hpc] at hq
    cases hq
    exact ⟨hshown,hlog,hpins,hfree,hhead,hslots,hdone,hcommitted⟩
  | @finishing q _ hq =>
    obtain rfl := hs.unique hp (q := q) (by rw [hq]; rfl)
    rw [hpc] at hq
    cases hq

theorem mode_finishing (hpc : m.pc p = .commit .finish) :
    Shown sb m st ∧ m.lh = [] ∧ m.Pins [] ∧ m.Unowned ∧ header (m.disk sb.logstart) = [] ∧
      ∀ b, sb.Home b → st.durable b = st.current b := by
  have hp : (m.pc p).commits = true := by rw [hpc]; rfl
  cases h with
  | readHead hphase => rw [hup] at hphase; cases hphase
  | restoring hphase => rw [hup] at hphase; cases hphase
  | running _ hopen => rw [hs.committing hp] at hopen; cases hopen
  | @writing q _ _ hq =>
    obtain rfl := hs.unique hp (q := q) (by rw [hq]; rfl)
    rw [hpc] at hq
    cases hq
  | @installing q _ _ hq =>
    obtain rfl := hs.unique hp (q := q) (by rw [hq]; rfl)
    rw [hpc] at hq
    cases hq
  | finishing _ _ hshown hlh hpins hfree hhead hcommitted =>
    exact ⟨hshown,hlh,hpins,hfree,hhead,hcommitted⟩

end Inversion

theorem Sync.of_pc (h : Sync sb m st) (hcache : m'.cache = m.cache) (hdisk : m'.disk = m.disk)
    (hmode : Mode sb m' st) : Sync sb m' st := by
  have hview : m'.view = m.view := by
    funext b
    rw [view,view,hcache,hdisk]
  have hdirty : m'.isDirty = m.isDirty := by
    funext b
    rw [isDirty,isDirty,hcache]
  have howner : m'.ownerOf = m.ownerOf := by
    funext b
    rw [ownerOf,ownerOf,hcache]
  refine ⟨⟨?_,?_,?_,?_⟩,hmode⟩
  · unfold Bounded
    rw [hcache]
    exact h.kept.bounded
  · unfold Clean
    rw [hview,hdirty,howner,hdisk]
    exact h.kept.clean
  · rw [hdisk]
    exact h.kept.wf
  · rw [hdisk]
    exact h.kept.restored

theorem Owners.of_pc (h : Owners sb m) {pc : Fin n → Pc}
    (hpc : ∀ q wrote b, pc q = .logging wrote b ↔ m.pc q = .logging wrote b) :
    Owners sb { m with pc := pc } :=
  ⟨fun b q => (h.owner b q).trans (exists_congr fun wrote => (hpc q wrote b).symm),
    fun q wrote b hq => h.home q wrote b ((hpc q wrote b).mp hq)⟩

theorem setPc_logging (pc : Pc) (hold : ∀ wrote b, m.pc p ≠ .logging wrote b)
    (hnew : ∀ wrote b, pc ≠ .logging wrote b) (q : Fin n) (wrote : List Nat) (b : Nat) :
    (m.setPc p pc).pc q = .logging wrote b ↔ m.pc q = .logging wrote b := by
  rcases eq_or_ne q p with rfl | hne
  · rw [show (m.setPc q pc).pc q = pc from Function.update_self ..]
    exact iff_of_false (hnew wrote b) (hold wrote b)
  · rw [show (m.setPc p pc).pc q = m.pc q from Function.update_of_ne hne _ _]

theorem wakeup_logging (q : Fin n) (wrote : List Nat) (b : Nat) :
    m.wakeup.pc q = .logging wrote b ↔ m.pc q = .logging wrote b := by
  rcases wakeup_pc (m := m) q with ⟨he,-⟩ | ⟨he,hq⟩
  · rw [he]
  · rw [he,hq]
    simp

theorem sync_sleep (h : Sync sb m st) (hpc : m.pc p = .out ∨ m.pc p = .begin) :
    Sync sb (m.setPc p .asleep) st := by
  have hlogging := setPc_logging (m := m) (p := p) .asleep
    (fun _ _ he => by rcases hpc with hpc | hpc <;> rw [hpc] at he <;> cases he) (by simp)
  have hcommit : ∀ q s, m.pc q = .commit s → (m.setPc p .asleep).pc q = .commit s := by
    intro q s hq
    rcases eq_or_ne q p with rfl | hne
    · rcases hpc with hpc | hpc <;> rw [hpc] at hq <;> cases hq
    · exact (Function.update_of_ne hne _ _).trans hq
  refine h.of_pc rfl rfl ?_
  cases h.mode with
  | readHead hphase hp hf hr hcur => exact .readHead hphase hp hf hr hcur
  | restoring hphase hp hf hr hcur hlh hdone => exact .restoring hphase hp hf hr hcur hlh hdone
  | running hphase hopen hs hlog hp hown hhead =>
    exact .running hphase hopen hs ⟨hlog.home,hlog.small,hlog.nodup⟩ hp (hown.of_pc hlogging) hhead
  | writing hphase hq hs hlog hp hf hhead hslots =>
    exact .writing hphase (hcommit _ _ hq) hs ⟨hlog.home,hlog.small,hlog.nodup⟩ hp hf hhead hslots
  | installing hphase hq hs hlog hp hf hhead hslots hdone hcommitted =>
    exact .installing hphase (hcommit _ _ hq) hs ⟨hlog.home,hlog.small,hlog.nodup⟩ hp hf hhead
      hslots hdone hcommitted
  | finishing hphase hq hs hlh hp hf hhead hcommitted =>
    exact .finishing hphase (hcommit _ _ hq) hs hlh hp hf hhead hcommitted

theorem sync_enter (h : Sync sb m st) (hup : m.phase = .up) (hs : Space m)
    (hpc : m.pc p = .out ∨ m.pc p = .begin) (hopen : m.committing = false) :
    Sync sb ({ m with outstanding := m.outstanding + 1 }.setPc p (.op [])) st := by
  obtain ⟨hshown,hlog,hpins,hown,hhead⟩ := mode_running h.mode hup hs hopen
  have hlogging := setPc_logging (m := m) (p := p) (.op [])
    (fun _ _ he => by rcases hpc with hpc | hpc <;> rw [hpc] at he <;> cases he) (by simp)
  exact h.of_pc rfl rfl (.running hup hopen hshown ⟨hlog.home,hlog.small,hlog.nodup⟩ hpins
    ⟨(hown.of_pc hlogging).owner,(hown.of_pc hlogging).home⟩ hhead)

theorem sync_leave (h : Sync sb m st) (hup : m.phase = .up) (hs : Space m) {wrote : List Nat}
    (hpc : m.pc p = .op wrote) (hopen : m.committing = false) :
    Sync sb ({ m with outstanding := m.outstanding - 1 }.setPc p .out).wakeup st := by
  obtain ⟨hshown,hlog,hpins,hown,hhead⟩ := mode_running h.mode hup hs hopen
  have hlogging := setPc_logging (m := m) (p := p) .out
    (fun _ _ he => by rw [hpc] at he; cases he) (by simp)
  have hown' : Owners sb ({ m with outstanding := m.outstanding - 1 }.setPc p .out).wakeup := by
    refine ⟨fun b q => (hown.owner b q).trans (exists_congr fun wrote => ?_),?_⟩
    · exact ((wakeup_logging q wrote b).trans (hlogging q wrote b)).symm
    · intro q wrote b hq
      exact hown.home q wrote b ((hlogging q wrote b).mp ((wakeup_logging q wrote b).mp hq))
  exact h.of_pc rfl rfl (.running hup hopen hshown ⟨hlog.home,hlog.small,hlog.nodup⟩ hpins hown'
    hhead)

theorem Sync.settled (h : Sync sb m st) (hhead : header (m.disk sb.logstart) = [])
    (hshown : Shown sb m st) {l : List Nat} (hpins : m.Pins l) (hfree : m.Unowned)
    (hb : sb.Home b) (hl : b ∉ l) : m.disk b = st.current b ∧ st.durable b = st.current b := by
  have hdisk : m.disk b = st.current b := by
    rw [← hshown b hb,h.kept.disk_eq hpins hfree hl]
  have hrestored := h.kept.restored b hb
  rw [recovered_nil hhead] at hrestored
  exact ⟨hdisk,hrestored.symm.trans hdisk⟩

theorem sync_close (h : Sync sb m st) (hup : m.phase = .up) (hs : Space m) {wrote : List Nat}
    (hpc : m.pc p = .op wrote) (hopen : m.committing = false) (hlast : m.outstanding - 1 = 0) :
    Sync sb ({ m with outstanding := m.outstanding - 1, committing := true }.setPc p
      (.commit m.commitStart)) st := by
  obtain ⟨hshown,hlog,hpins,hown,hhead⟩ := mode_running h.mode hup hs hopen
  obtain ⟨hzero,-⟩ := (hs.close hpc hlast).closed rfl
  have hnone := Tally.tally_eq_zero.mp hzero
  have hfree : m.Unowned := by
    intro b
    cases hb : m.ownerOf b with
    | none => rfl
    | some q =>
      obtain ⟨wrote,hq⟩ := (hown.owner b q).mp hb
      have hne : q ≠ p := by
        rintro rfl
        rw [hpc] at hq
        cases hq
      have hactive : (m.pc q).active = false := by simpa [setPc,hne] using hnone q
      rw [hq] at hactive
      cases hactive
  have hself : ({ m with outstanding := m.outstanding - 1, committing := true }.setPc p
      (.commit m.commitStart)).pc p = .commit m.commitStart := Function.update_self ..
  refine h.of_pc rfl rfl ?_
  unfold commitStart at hself ⊢
  split_ifs at hself ⊢ with hlen
  · exact .writing hup hself hshown ⟨hlog.home,hlog.small,hlog.nodup⟩ hpins hfree hhead
      (fun i b hi => absurd hi (by omega))
  · have hlh : m.lh = [] := List.length_eq_zero_iff.mp (Nat.eq_zero_of_not_pos hlen)
    rw [hlh] at hpins
    exact .finishing hup hself hshown hlh hpins hfree hhead
      (fun b hb => (h.settled hhead hshown hpins hfree hb (by simp)).2)

theorem sync_modify (h : Sync sb m st) (hup : m.phase = .up) (hs : Space m) {wrote : List Nat}
    (hpc : m.pc p = .op wrote) (hc : m.Reload c) (hown : m.ownerOf b = none)
    (hsome : (c b).isSome) (hhome : sb.Home b) :
    Sync sb (({ m with cache := c }.setBuf b (some ⟨v,m.isDirty b,some p,false⟩)).setPc p
      (.logging wrote b)) { st with current := Function.update st.current b v } := by
  have hopen := hs.not_committing (p := p) (by rw [hpc]; rfl)
  obtain ⟨hshown,hlog,hpins,howners,hhead⟩ := mode_running h.mode hup hs hopen
  have hbounded := hc.bounded h.kept.bounded
  have hview := view_setBuf { m with cache := c } b ⟨v,m.isDirty b,some p,false⟩
  have hdirty := isDirty_setBuf { m with cache := c } b ⟨v,m.isDirty b,some p,false⟩
  have howner := ownerOf_setBuf { m with cache := c } b ⟨v,m.isDirty b,some p,false⟩
  rw [hc.view h.kept.clean] at hview
  rw [hc.isDirty,Function.update_eq_self] at hdirty
  rw [hc.ownerOf] at howner
  refine ⟨⟨hbounded.setBuf hsome _,?_,h.kept.wf,h.kept.restored⟩,?_⟩
  · intro x hx hox
    change Machine.view _ x = m.disk x
    rw [view_setPc,hview]
    rw [isDirty_setPc,hdirty] at hx
    rw [ownerOf_setPc,howner] at hox
    rcases eq_or_ne x b with rfl | hne
    · rw [Function.update_self] at hox
      cases hox
    · rw [Function.update_of_ne hne] at hox ⊢
      exact h.kept.clean x hx hox
  · refine .running hup hopen ?_ ⟨hlog.home,hlog.small,hlog.nodup⟩ ?_ ⟨?_,?_⟩ hhead
    · intro x hx
      rw [view_setPc,hview]
      change _ = Function.update st.current b v x
      rcases eq_or_ne x b with rfl | hne
      · rw [Function.update_self,Function.update_self]
      · rw [Function.update_of_ne hne,Function.update_of_ne hne]
        exact hshown x hx
    · intro x
      rw [isDirty_setPc,hdirty]
      exact hpins x
    · intro x q
      rw [ownerOf_setPc,howner]
      rcases eq_or_ne x b with rfl | hne
      · rw [Function.update_self]
        constructor
        · intro he
          cases he
          exact ⟨wrote,Function.update_self ..⟩
        · rintro ⟨wrote',hq⟩
          rcases eq_or_ne q p with rfl | hqp
          · rfl
          · have hq : m.pc q = .logging wrote' x := by simpa [setPc,setBuf,hqp] using hq
            have hsome := (howners.owner x q).mpr ⟨wrote',hq⟩
            rw [hown] at hsome
            cases hsome
      · rw [Function.update_of_ne hne,howners.owner x q]
        apply exists_congr
        intro wrote'
        rcases eq_or_ne q p with rfl | hqp
        · simp [setPc,setBuf,hpc,hne.symm]
        · simp [setPc,setBuf,hqp]
    · intro q wrote' x hq
      rcases eq_or_ne q p with rfl | hqp
      · have hq : Pc.logging wrote b = .logging wrote' x := by simpa [setPc,setBuf] using hq
        cases hq
        exact hhome
      · exact howners.home q wrote' x (by simpa [setPc,setBuf,hqp] using hq)

theorem sync_append (h : Sync sb m st) (hup : m.phase = .up) (hs : Space m) {wrote : List Nat}
    (hpc : m.pc p = .logging wrote b) (hsome : (m.cache b).isSome) {lh : List Nat}
    (hlh : b ∈ m.lh ∧ lh = m.lh ∨ b ∉ m.lh ∧ lh = m.lh ++ [b]) :
    Sync sb { (m.setPc p (.op (noted wrote b))).brelse b ⟨m.view b,true,none,false⟩ with lh := lh }
      st := by
  have hopen := hs.not_committing (p := p) (by rw [hpc]; rfl)
  obtain ⟨hshown,hlog,hpins,howners,hhead⟩ := mode_running h.mode hup hs hopen
  have hhome := howners.home p wrote b hpc
  have hmine := (howners.owner b p).mpr ⟨wrote,hpc⟩
  have hview := view_brelse m b ⟨m.view b,true,none,false⟩
  have hdirty := isDirty_brelse m b ⟨m.view b,true,none,false⟩
  have howner := ownerOf_brelse m b ⟨m.view b,true,none,false⟩
  rw [Function.update_eq_self] at hview
  have hmem : ∀ x, x ∈ lh ↔ x = b ∨ x ∈ m.lh := by
    intro x
    rcases hlh with ⟨hb,rfl⟩ | ⟨-,rfl⟩
    · exact ⟨.inr,fun hx => hx.elim (fun he => he ▸ hb) id⟩
    · rw [List.mem_append,List.mem_singleton]
      exact or_comm
  have hlogged : Logged sb { m with lh := lh } := by
    refine ⟨?_,?_,?_⟩
    · intro x hx
      rcases (hmem x).mp hx with rfl | hx
      · exact hhome
      · exact hlog.home x hx
    · intro x hx
      rcases (hmem x).mp hx with rfl | hx
      · exact h.kept.bounded.small x hsome
      · exact hlog.small x hx
    · rcases hlh with ⟨-,rfl⟩ | ⟨hb,rfl⟩
      · exact hlog.nodup
      · exact hlog.nodup.append (List.nodup_singleton b) (by simpa using hb)
  refine ⟨⟨h.kept.bounded.brelse (h.kept.bounded.small b hsome) (.inl hsome) _,?_,h.kept.wf,h.kept.restored⟩,?_⟩
  · intro x hx hox
    change (m.brelse b ⟨m.view b,true,none,false⟩).isDirty x = false at hx
    change (m.brelse b ⟨m.view b,true,none,false⟩).ownerOf x = none at hox
    change (m.brelse b ⟨m.view b,true,none,false⟩).view x = m.disk x
    rw [hdirty] at hx
    rw [howner] at hox
    rw [hview]
    rcases eq_or_ne x b with rfl | hne
    · rw [Function.update_self] at hx
      cases hx
    · rw [Function.update_of_ne hne] at hx hox
      exact h.kept.clean x hx hox
  · refine .running hup hopen ?_ ⟨hlogged.home,hlogged.small,hlogged.nodup⟩ ?_ ⟨?_,?_⟩ hhead
    · intro x hx
      change (m.brelse b ⟨m.view b,true,none,false⟩).view x = _
      rw [hview]
      exact hshown x hx
    · intro x
      change (m.brelse b ⟨m.view b,true,none,false⟩).isDirty x = true ↔ x ∈ lh
      rw [hdirty,hmem]
      rcases eq_or_ne x b with rfl | hne
      · simp
      · rw [Function.update_of_ne hne,hpins x]
        simp [hne]
    · intro x q
      change (m.brelse b ⟨m.view b,true,none,false⟩).ownerOf x = some q ↔
        ∃ wrote', (m.setPc p (.op (noted wrote b))).pc q = .logging wrote' x
      rw [howner]
      rcases eq_or_ne q p with rfl | hqp
      · rw [show (m.setPc q (.op (noted wrote b))).pc q = .op (noted wrote b) from
          Function.update_self ..]
        refine iff_of_false ?_ (by simp)
        rcases eq_or_ne x b with rfl | hne
        · simp
        · rw [Function.update_of_ne hne,howners.owner x q,hpc]
          simp [hne.symm]
      · rw [show (m.setPc p (.op (noted wrote b))).pc q = m.pc q from
          Function.update_of_ne hqp _ _,← howners.owner x q]
        rcases eq_or_ne x b with rfl | hne
        · rw [Function.update_self,hmine]
          simp [hqp.symm]
        · rw [Function.update_of_ne hne]
    · intro q wrote' x hq
      rcases eq_or_ne q p with rfl | hqp
      · simp [setPc,brelse] at hq
      · exact howners.home q wrote' x (by simpa [setPc,brelse,hqp] using hq)

theorem sync_writeLog (hnlog : logsize ≤ sb.nlog) (h : Sync sb m st) (hup : m.phase = .up)
    (hs : Space m) (hpc : m.pc p = .commit (.writeLog tail)) (hb : m.lh[tail]? = some b)
    (hc : m.Reload c) (hsome : (c (sb.slot tail)).isSome) :
    Sync sb (({ m with cache := c }.bwrite (sb.slot tail) (m.view b)).setPc p
      (.commit (.writeLog (tail + 1)))) st := by
  obtain ⟨hshown,hlog,hpins,hfree,hhead,hslots⟩ := mode_writing h.mode hup hs hpc
  have hfits := hs.fits
  obtain ⟨hlt,-⟩ := List.getElem?_eq_some_iff.mp hb
  have hmem : b ∈ m.lh := List.mem_of_getElem? hb
  have hslot : ∀ x, sb.Home x → x ≠ sb.slot tail := fun x hx => hx.ne_slot (by omega)
  have hstart : Function.update m.disk (sb.slot tail) (m.view b) sb.logstart =
      m.disk sb.logstart := Function.update_of_ne Superblock.slot_ne_logstart.symm _ _
  have hkept : Kept sb ({ m with cache := c }.bwrite (sb.slot tail) (m.view b)) st := by
    refine h.kept.bwrite hc hsome ?_ ?_
    · rw [hstart]
      exact h.kept.wf
    · intro x hx
      rw [recovered_update_slot hhead,Function.update_of_ne (hslot x hx),← h.kept.restored x hx,
        recovered_nil hhead]
  refine ⟨⟨hkept.bounded,hkept.clean,hkept.wf,hkept.restored⟩,?_⟩
  have hpc' : Function.update m.pc p (.commit (.writeLog (tail + 1))) p =
      .commit (.writeLog (tail + 1)) := Function.update_self ..
  refine .writing hup hpc' ?_
    ⟨hlog.home,hlog.small,hlog.nodup⟩ (hpins.bwrite hc ?_) (hfree.bwrite hc) ?_ ?_
  · intro x hx
    rw [view_setPc,view_bwrite,Function.update_of_ne (hslot x hx),hc.view h.kept.clean]
    exact hshown x hx
  · intro x
    exact ⟨fun hx => ⟨hslot x (hlog.home x hx),hx⟩,And.right⟩
  · change header (Function.update m.disk (sb.slot tail) (m.view b) sb.logstart) = []
    rw [hstart]
    exact hhead
  · intro i x hi hx
    change Function.update m.disk (sb.slot tail) (m.view b) (sb.slot i) = st.current x
    change m.lh[i]? = some x at hx
    rcases eq_or_ne i tail with rfl | hne
    · rw [hb] at hx
      cases hx
      rw [Function.update_self]
      exact hshown b (hlog.home b hmem)
    · rw [Function.update_of_ne fun he => hne (Superblock.slot_injective he)]
      exact hslots i x (by omega) hx

theorem sync_writeHead (hnlog : logsize ≤ sb.nlog) (h : Sync sb m st) (hup : m.phase = .up)
    (hs : Space m) (hpc : m.pc p = .commit (.writeLog tail)) (hend : m.lh[tail]? = none)
    (hc : m.Reload c) (hsome : (c sb.logstart).isSome) :
    Sync sb (({ m with cache := c }.bwrite sb.logstart
      (encode m.lh (m.view sb.logstart))).setPc p (.commit (.install 0)))
      { st with durable := st.current } := by
  obtain ⟨hshown,hlog,hpins,hfree,hhead,hslots⟩ := mode_writing h.mode hup hs hpc
  have hfits := hs.fits
  have hlen : m.lh.length ≤ tail := List.getElem?_eq_none_iff.mp hend
  have hslots : ∀ i b, m.lh[i]? = some b → m.disk (sb.slot i) = st.current b := by
    intro i b hb
    obtain ⟨hlt,-⟩ := List.getElem?_eq_some_iff.mp hb
    exact hslots i b (by omega) hb
  have hwf : WfHead sb m.lh := ⟨hlog.home,hlog.small,by omega,by omega⟩
  have hstart : ∀ x, sb.Home x → x ≠ sb.logstart := by
    intro x hx
    exact hx.ne_logstart (by change 30 ≤ sb.nlog at hnlog; omega)
  have hheader : header (Function.update m.disk sb.logstart
      (encode m.lh (m.view sb.logstart)) sb.logstart) = m.lh := by
    rw [Function.update_self]
    exact header_encode hwf.length hlog.small _
  have hdisk : ∀ x, sb.Home x → x ∉ m.lh → m.disk x = st.current x := by
    intro x hx hl
    exact (h.settled hhead hshown hpins hfree hx hl).1
  have hkept : Kept sb ({ m with cache := c }.bwrite sb.logstart
      (encode m.lh (m.view sb.logstart))) { st with durable := st.current } := by
    refine h.kept.bwrite hc hsome ?_ ?_
    · rw [hheader]
      exact hwf
    · intro x hx
      rw [recovered_head hwf hlog.nodup st.current hslots]
      split_ifs with hl
      · rfl
      · rw [Function.update_of_ne (hstart x hx)]
        exact hdisk x hx hl
  refine ⟨⟨hkept.bounded,hkept.clean,hkept.wf,hkept.restored⟩,?_⟩
  have hpc' : Function.update m.pc p (.commit (.install 0)) p = .commit (.install 0) :=
    Function.update_self ..
  refine .installing hup hpc' ?_
    ⟨hlog.home,hlog.small,hlog.nodup⟩ (hpins.bwrite hc ?_) (hfree.bwrite hc) hheader ?_ ?_
    fun _ _ => rfl
  · intro x hx
    rw [view_setPc,view_bwrite,Function.update_of_ne (hstart x hx),hc.view h.kept.clean]
    exact hshown x hx
  · intro x
    exact ⟨fun hx => ⟨hstart x (hlog.home x hx),hx⟩,And.right⟩
  · intro i x hx
    change Function.update m.disk sb.logstart _ (sb.slot i) = st.current x
    rw [Function.update_of_ne Superblock.slot_ne_logstart]
    exact hslots i x hx
  · intro x hx hl
    change Function.update m.disk sb.logstart _ x = st.current x
    rw [Function.update_of_ne (hstart x hx)]
    exact hdisk x hx hl

theorem Kept.install (h : Kept sb m st) (hc : m.Reload c) (hsome : (c b).isSome)
    (hb : b ∈ header (m.disk sb.logstart)) : Kept sb ({ m with cache := c }.bwrite b v) st := by
  have hroom := h.wf.room
  have hstart : Function.update m.disk b v sb.logstart = m.disk sb.logstart :=
    Function.update_of_ne ((h.wf.home b hb).ne_logstart (by omega)).symm _ _
  refine h.bwrite hc hsome ?_ ?_
  · rw [hstart]
    exact h.wf
  · intro x hx
    rw [recovered_update_logged h.wf hb]
    exact h.restored x hx

theorem sync_install (h : Sync sb m st) (hup : m.phase = .up) (hs : Space m)
    (hpc : m.pc p = .commit (.install tail)) (hb : m.lh[tail]? = some b) (hc : m.Reload c)
    (hsome : (c b).isSome) :
    Sync sb (({ m with cache := c }.bwrite b (m.view (sb.slot tail))).setPc p
      (.commit (.install (tail + 1)))) st := by
  obtain ⟨hshown,hlog,hpins,hfree,hhead,hslots,hdone,hcommitted⟩ :=
    mode_installing h.mode hup hs hpc
  have hroom := h.kept.wf.room
  rw [hhead] at hroom
  obtain ⟨hlt,hget⟩ := List.getElem?_eq_some_iff.mp hb
  have hmem : b ∈ m.lh := List.mem_of_getElem? hb
  have hhome := hlog.home b hmem
  have hdrop : m.lh.drop tail = b :: m.lh.drop (tail + 1) := by
    rw [← hget]
    exact List.drop_eq_getElem_cons hlt
  have hfresh : b ∉ m.lh.drop (tail + 1) := by
    have hnodup := hlog.nodup.sublist (List.drop_sublist tail m.lh)
    rw [hdrop] at hnodup
    exact (List.nodup_cons.mp hnodup).1
  have hslot : m.view (sb.slot tail) = st.current b := by
    rw [h.kept.disk_eq hpins hfree,hslots tail b hb]
    intro hx
    exact (hlog.home _ (List.mem_of_mem_drop hx)).ne_slot (by omega) rfl
  rw [hslot]
  have hkept : Kept sb ({ m with cache := c }.bwrite b (st.current b)) st :=
    h.kept.install hc hsome (by rwa [hhead])
  refine ⟨⟨hkept.bounded,hkept.clean,hkept.wf,hkept.restored⟩,?_⟩
  have hpc' : Function.update m.pc p (.commit (.install (tail + 1))) p =
      .commit (.install (tail + 1)) := Function.update_self ..
  refine .installing hup hpc' ?_
    ⟨hlog.home,hlog.small,hlog.nodup⟩ (hpins.bwrite hc ?_) (hfree.bwrite hc) ?_ ?_ ?_ hcommitted
  · intro x hx
    rw [view_setPc,view_bwrite,hc.view h.kept.clean]
    rcases eq_or_ne x b with rfl | hne
    · rw [Function.update_self]
    · rw [Function.update_of_ne hne]
      exact hshown x hx
  · intro x
    rw [hdrop,List.mem_cons]
    constructor
    · intro hx
      exact ⟨fun he => hfresh (he ▸ hx),.inr hx⟩
    · rintro ⟨hne,hx⟩
      exact hx.resolve_left hne
  · change header (Function.update m.disk b _ sb.logstart) = m.lh
    rw [Function.update_of_ne (hhome.ne_logstart (by omega)).symm]
    exact hhead
  · intro i x hx
    change Function.update m.disk b _ (sb.slot i) = st.current x
    obtain ⟨hi,-⟩ := List.getElem?_eq_some_iff.mp hx
    change i < m.lh.length at hi
    rw [Function.update_of_ne (hhome.ne_slot (by omega)).symm]
    exact hslots i x hx
  · intro x hx hl
    change Function.update m.disk b _ x = st.current x
    rcases eq_or_ne x b with rfl | hne
    · rw [Function.update_self]
    · rw [Function.update_of_ne hne]
      refine hdone x hx ?_
      rw [hdrop,List.mem_cons,not_or]
      exact ⟨hne,hl⟩

theorem sync_eraseHead (hnlog : 0 < sb.nlog) (h : Sync sb m st) (hup : m.phase = .up)
    (hs : Space m) (hpc : m.pc p = .commit (.install tail)) (hend : m.lh[tail]? = none)
    (hc : m.Reload c) (hsome : (c sb.logstart).isSome) :
    Sync sb (({ m with lh := [], cache := c }.bwrite sb.logstart
      (encode [] (m.view sb.logstart))).setPc p (.commit .finish)) st := by
  obtain ⟨hshown,hlog,hpins,hfree,hhead,hslots,hdone,hcommitted⟩ :=
    mode_installing h.mode hup hs hpc
  rw [List.drop_eq_nil_of_le (List.getElem?_eq_none_iff.mp hend)] at hpins hdone
  have hstart : ∀ x, sb.Home x → x ≠ sb.logstart := fun x hx => hx.ne_logstart hnlog
  have hheader : header (Function.update m.disk sb.logstart
      (encode [] (m.view sb.logstart)) sb.logstart) = [] := by
    rw [Function.update_self]
    exact header_encode (by simp) (by simp) _
  have hkept : Kept sb ({ m with cache := c }.bwrite sb.logstart
      (encode [] (m.view sb.logstart))) st := by
    refine h.kept.bwrite hc hsome ?_ ?_
    · rw [hheader]
      exact .nil hnlog
    · intro x hx
      rw [recovered_nil hheader,Function.update_of_ne (hstart x hx),hdone x hx (by simp)]
      exact (hcommitted x hx).symm
  refine ⟨⟨hkept.bounded,hkept.clean,hkept.wf,hkept.restored⟩,?_⟩
  refine .finishing (p := p) hup (Function.update_self ..) ?_ rfl
    (hpins.bwrite (k := []) hc (by simp)) (hfree.bwrite hc) hheader hcommitted
  intro x hx
  change ({ m with cache := c }.bwrite sb.logstart (encode [] (m.view sb.logstart))).view x = _
  rw [view_bwrite,Function.update_of_ne (hstart x hx),hc.view h.kept.clean]
  exact hshown x hx

theorem sync_finish (h : Sync sb m st) (hup : m.phase = .up) (hs : Space m)
    (hpc : m.pc p = .commit .finish) :
    Sync sb ({ m with committing := false }.setPc p .out).wakeup st := by
  obtain ⟨hshown,hlh,hpins,hfree,hhead,hcommitted⟩ := mode_finishing h.mode hup hs hpc
  obtain ⟨hzero,-⟩ := hs.closed (hs.committing (p := p) (by rw [hpc]; rfl))
  have hnone := Tally.tally_eq_zero.mp hzero
  have hlogging : ∀ q wrote b,
      ({ m with committing := false }.setPc p .out).wakeup.pc q ≠ .logging wrote b := by
    intro q wrote b hq
    have hq := (wakeup_logging q wrote b).mp hq
    have hq : m.pc q = .logging wrote b := by
      rcases eq_or_ne q p with rfl | hne
      · simp [setPc] at hq
      · simpa [setPc,hne] using hq
    have hactive := hnone q
    rw [hq] at hactive
    cases hactive
  refine h.of_pc rfl rfl (.running hup rfl hshown ⟨?_,?_,?_⟩ ?_ ⟨?_,?_⟩ hhead)
  · change ∀ b ∈ m.lh, _
    simp [hlh]
  · change ∀ b ∈ m.lh, _
    simp [hlh]
  · change m.lh.Nodup
    simp [hlh]
  · change m.Pins m.lh
    rwa [hlh]
  · intro b q
    refine iff_of_false ?_ ?_
    · change m.ownerOf b ≠ some q
      rw [hfree b]
      simp
    · rintro ⟨wrote,hq⟩
      exact hlogging q wrote b hq
  · intro q wrote b hq
    exact absurd hq (hlogging q wrote b)

end Machine

end Fs
