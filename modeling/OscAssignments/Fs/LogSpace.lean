import OscAssignments.Lib.Tally
import OscAssignments.Fs.LogSteps

namespace Fs
open Runs Redo Xv6 Tally

variable {n : Nat}

def Superblock.Home (sb : Superblock) (b : Nat) : Prop :=
  b < sb.logstart ∨ sb.logstart + sb.nlog ≤ b

instance (sb : Superblock) (b : Nat) : Decidable (sb.Home b) :=
  inferInstanceAs (Decidable (_ ∨ _))

namespace Pc

def active : Pc → Bool
  | .op _ | .logging _ _ => true
  | _ => false

def commits : Pc → Bool
  | .commit _ => true
  | _ => false

def wrote : Pc → List Nat
  | .op wrote | .logging wrote _ => wrote
  | _ => []

def reserve (pc : Pc) : Nat := if pc.active then maxOpBlocks - pc.wrote.length else 0

end Pc

def Fits (sb : Superblock) (m : Machine n) : Act n → Prop
  | .modify p b _ => sb.Home b ∧ (b ∈ (m.pc p).wrote ∨ (m.pc p).wrote.length + 1 < maxOpBlocks)
  | _ => True

instance (sb : Superblock) (m : Machine n) (a : Act n) : Decidable (Fits sb m a) := by
  unfold Fits
  split <;> infer_instance

namespace Machine

structure Idle (m : Machine n) : Prop where
  pc : ∀ p, m.pc p = .out
  committing : m.committing = false
  outstanding : m.outstanding = 0

structure Space (m : Machine n) : Prop where
  count : m.outstanding = tally Pc.active m.pc
  commits : tally Pc.commits m.pc = m.committing.toNat
  closed : m.committing = true → tally Pc.active m.pc = 0 ∧ m.lh.length + 2 ≤ logsize
  done : ∀ p, m.pc p = .commit .finish → m.lh = []
  short : ∀ p, (m.pc p).wrote.length < maxOpBlocks
  logged : ∀ p, ∀ b ∈ (m.pc p).wrote, b ∈ m.lh
  next : ∀ p wrote b, m.pc p = .logging wrote b → b ∈ wrote ∨ wrote.length + 1 < maxOpBlocks
  room : m.lh.length + total Pc.reserve m.pc ≤ logsize
  last : tally Pc.active m.pc ≤ 1 → m.lh.length + total Pc.reserve m.pc < logsize
  empty : tally Pc.active m.pc = 0 → m.committing = false → m.lh = []

def Asleep (m : Machine n) : Prop := ∀ p, m.pc p = .asleep →
  m.committing = true ∨ m.lh.length + (m.outstanding + 1) * maxOpBlocks > logsize

variable {sb : Superblock} {m m' : Machine n} {a : Act n} {p : Fin n} {pc : Pc}

theorem tally_setPc (pc : Pc) (q : Pc → Bool) :
    tally q (m.setPc p pc).pc + (q (m.pc p)).toNat = tally q m.pc + (q pc).toNat := by
  have h := tally_change (p := q) (f := m.pc) (g := (m.setPc p pc).pc) (i := p)
    fun j hj => by simp [setPc,hj]
  rwa [show (m.setPc p pc).pc p = pc from Function.update_self ..] at h

theorem total_setPc (pc : Pc) (w : Pc → Nat) :
    total w (m.setPc p pc).pc + w (m.pc p) = total w m.pc + w pc := by
  have h := total_change (w := w) (f := m.pc) (g := (m.setPc p pc).pc) (i := p)
    fun j hj => by simp [setPc,hj]
  rwa [show (m.setPc p pc).pc p = pc from Function.update_self ..] at h

theorem wakeup_pc (q : Fin n) :
    m.wakeup.pc q = m.pc q ∧ m.pc q ≠ .asleep ∨ m.wakeup.pc q = .begin ∧ m.pc q = .asleep := by
  unfold wakeup
  rcases eq_or_ne (m.pc q) .asleep with h | h
  · exact .inr ⟨if_pos h,h⟩
  · exact .inl ⟨if_neg h,h⟩

theorem wakeup_tally {q : Pc → Bool} (hq : q .begin = q .asleep) :
    tally q m.wakeup.pc = tally q m.pc := by
  apply tally_congr
  intro i
  rcases wakeup_pc (m := m) i with ⟨h,-⟩ | ⟨h,hs⟩
  · rw [h]
  · rw [h,hs,hq]

theorem wakeup_total {w : Pc → Nat} (hw : w .begin = w .asleep) :
    total w m.wakeup.pc = total w m.pc := by
  apply total_congr
  intro i
  rcases wakeup_pc (m := m) i with ⟨h,-⟩ | ⟨h,hs⟩
  · rw [h]
  · rw [h,hs,hw]

namespace Space

theorem reserve_pos (h : Space m) (p : Fin n) : (m.pc p).active.toNat ≤ (m.pc p).reserve := by
  have hshort := h.short p
  unfold Pc.reserve
  cases (m.pc p).active with
  | false => simp
  | true =>
    rw [if_pos rfl]
    simp only [Bool.toNat_true]
    omega

theorem tally_le (h : Space m) : tally Pc.active m.pc ≤ total Pc.reserve m.pc :=
  tally_le_total h.reserve_pos

theorem total_le (m : Machine n) : total Pc.reserve m.pc ≤ maxOpBlocks * tally Pc.active m.pc := by
  apply total_le_tally
  intro p
  unfold Pc.reserve
  cases (m.pc p).active with
  | false => simp
  | true => simp

theorem fits (h : Space m) : m.lh.length + 2 ≤ logsize := by
  have hroom := h.room
  have hlast := h.last
  have htally := h.tally_le
  rcases Nat.eq_zero_or_pos (tally Pc.active m.pc) with hzero | hpos
  · cases hc : m.committing with
    | true => exact (h.closed hc).2
    | false =>
      rw [h.empty hzero hc]
      decide
  · rcases eq_or_ne (tally Pc.active m.pc) 1 with hone | hmany
    · have := hlast hone.le
      omega
    · omega

theorem not_committing (h : Space m) {p : Fin n} (hp : (m.pc p).active = true) :
    m.committing = false := by
  cases hc : m.committing with
  | false => rfl
  | true =>
    have := tally_eq_zero.mp (h.closed hc).1 p
    rw [hp] at this
    cases this

theorem committing (h : Space m) {p : Fin n} (hp : (m.pc p).commits = true) :
    m.committing = true := by
  cases hc : m.committing with
  | true => rfl
  | false =>
    have hzero := h.commits
    rw [hc] at hzero
    have := tally_eq_zero.mp hzero p
    rw [hp] at this
    cases this

theorem move (h : Space m) (p : Fin n) (pc : Pc) (hs : m'.pc = (m.setPc p pc).pc)
    (hcount : m'.outstanding + (m.pc p).active.toNat = m.outstanding + pc.active.toNat)
    (hcommits : m'.committing.toNat + (m.pc p).commits.toNat =
      m.committing.toNat + pc.commits.toNat)
    (hclosed : m'.committing = true → tally Pc.active m'.pc = 0 ∧ m'.lh.length + 2 ≤ logsize)
    (hdone : pc = .commit .finish → m'.lh = [])
    (hothers : ∀ q, q ≠ p → m.pc q = .commit .finish → m'.lh = [])
    (hshort : pc.wrote.length < maxOpBlocks) (hlogged : ∀ b ∈ pc.wrote, b ∈ m'.lh)
    (hkept : ∀ q, ∀ b ∈ (m.pc q).wrote, b ∈ m'.lh)
    (hnext : ∀ wrote b, pc = .logging wrote b → b ∈ wrote ∨ wrote.length + 1 < maxOpBlocks)
    (hroom : m'.lh.length + total Pc.reserve m'.pc ≤ logsize)
    (hlast : tally Pc.active m'.pc ≤ 1 → m'.lh.length + total Pc.reserve m'.pc < logsize)
    (hempty : tally Pc.active m'.pc = 0 → m'.committing = false → m'.lh = []) : Space m' := by
  have hactive := tally_setPc (m := m) (p := p) pc Pc.active
  have hcommit := tally_setPc (m := m) (p := p) pc Pc.commits
  have hpc : ∀ q, m'.pc q = pc ∧ q = p ∨ m'.pc q = m.pc q ∧ q ≠ p := by
    intro q
    rw [hs]
    rcases eq_or_ne q p with rfl | hne
    · exact .inl ⟨by simp [setPc],rfl⟩
    · exact .inr ⟨by simp [setPc,hne],hne⟩
  rw [← hs] at hactive hcommit
  have hc := h.count
  have hm := h.commits
  refine ⟨by omega,by omega,hclosed,?_,?_,?_,?_,hroom,hlast,hempty⟩
  · intro q hq
    rcases hpc q with ⟨he,-⟩ | ⟨he,hne⟩
    · exact hdone (he ▸ hq)
    · exact hothers q hne (he ▸ hq)
  · intro q
    rcases hpc q with ⟨he,-⟩ | ⟨he,-⟩
    · rw [he]
      exact hshort
    · rw [he]
      exact h.short q
  · intro q
    rcases hpc q with ⟨he,-⟩ | ⟨he,-⟩
    · rw [he]
      exact hlogged
    · rw [he]
      exact hkept q
  · intro q wrote b hq
    rcases hpc q with ⟨he,-⟩ | ⟨he,-⟩
    · exact hnext wrote b (he ▸ hq)
    · exact h.next q wrote b (he ▸ hq)

theorem wakeup (h : Space m) : Space m.wakeup := by
  have hactive := wakeup_tally (m := m) (q := Pc.active) rfl
  have hcommit := wakeup_tally (m := m) (q := Pc.commits) rfl
  have hreserve := wakeup_total (m := m) (w := Pc.reserve) rfl
  have hwrote : ∀ q, (m.wakeup.pc q).wrote = (m.pc q).wrote := by
    intro q
    rcases wakeup_pc (m := m) q with ⟨he,-⟩ | ⟨he,hq⟩
    · rw [he]
    · rw [he,hq]
      rfl
  refine ⟨?_,?_,?_,?_,?_,?_,?_,?_,?_,?_⟩
  · rw [hactive]
    exact h.count
  · rw [hcommit]
    exact h.commits
  · rw [hactive]
    exact h.closed
  · intro q hq
    rcases wakeup_pc (m := m) q with ⟨he,-⟩ | ⟨he,-⟩
    · exact h.done q (he ▸ hq)
    · rw [he] at hq
      cases hq
  · intro q
    rw [hwrote]
    exact h.short q
  · intro q
    rw [hwrote]
    exact h.logged q
  · intro q wrote b hq
    rcases wakeup_pc (m := m) q with ⟨he,-⟩ | ⟨he,-⟩
    · exact h.next q wrote b (he ▸ hq)
    · rw [he] at hq
      cases hq
  · rw [hreserve]
    exact h.room
  · rw [hactive,hreserve]
    exact h.last
  · rw [hactive]
    exact h.empty

end Space

inductive LogOk (m : Machine n) : Prop
  | up (hphase : m.phase = .up) (hspace : Space m) (hasleep : Asleep m)
  | recovering (hphase : m.phase ≠ .up) (hidle : Idle m)

theorem LogOk.space (h : LogOk m) (hpc : m.pc p ≠ .out) : m.phase = .up ∧ Space m ∧ Asleep m := by
  cases h with
  | up hphase hspace hasleep => exact ⟨hphase,hspace,hasleep⟩
  | recovering _ hidle => exact absurd (hidle.pc p) hpc

theorem Idle.space (h : Idle m) (hlh : m.lh = []) : Space m ∧ Asleep m := by
  have hactive : tally Pc.active m.pc = 0 := tally_eq_zero.mpr fun q => by rw [h.pc q]; rfl
  have hcommit : tally Pc.commits m.pc = 0 := tally_eq_zero.mpr fun q => by rw [h.pc q]; rfl
  have htotal : total Pc.reserve m.pc = 0 := by
    have := Space.total_le m
    rw [hactive] at this
    omega
  refine ⟨⟨?_,?_,?_,?_,?_,?_,?_,?_,?_,?_⟩,?_⟩
  · rw [hactive,h.outstanding]
    rfl
  · rw [hcommit,h.committing]
    rfl
  · rw [h.committing]
    simp
  · exact fun _ _ => hlh
  · intro q
    rw [h.pc q]
    decide
  · intro q b hb
    rw [h.pc q] at hb
    cases hb
  · intro q wrote b hq
    rw [h.pc q] at hq
    cases hq
  · rw [htotal,hlh]
    decide
  · rw [htotal,hlh]
    exact fun _ => by decide
  · exact fun _ _ => hlh
  · intro q hq
    rw [h.pc q] at hq
    cases hq

theorem Asleep.mono (h : Asleep m) (hpc : ∀ q, m'.pc q = .asleep → m.pc q = .asleep)
    (hcomm : m.committing = true → m'.committing = true) (hlh : m.lh.length ≤ m'.lh.length)
    (hout : m.outstanding ≤ m'.outstanding) : Asleep m' := by
  intro q hq
  rcases h q (hpc q hq) with hc | hfull
  · exact .inl (hcomm hc)
  · refine .inr ?_
    simp only [maxOpBlocks,logsize] at hfull ⊢
    omega

theorem asleep_wakeup : Asleep m.wakeup := by
  intro q hq
  rcases wakeup_pc (m := m) q with ⟨he,hne⟩ | ⟨he,-⟩
  · rw [he] at hq
    exact absurd hq hne
  · rw [he] at hq
    cases hq

theorem asleep_setPc (hpc : pc ≠ .asleep) (q : Fin n) (hq : (m.setPc p pc).pc q = .asleep) :
    m.pc q = .asleep := by
  rcases eq_or_ne q p with rfl | hne
  · simp only [setPc,Function.update_self] at hq
    exact absurd hq hpc
  · simpa [setPc,hne] using hq

theorem noted_length {wrote : List Nat} {b : Nat}
    (h : b ∈ wrote ∨ wrote.length + 1 < maxOpBlocks) (hs : wrote.length < maxOpBlocks) :
    (noted wrote b).length < maxOpBlocks := by
  unfold noted
  split_ifs with hmem
  · exact hs
  · exact h.resolve_left hmem

theorem noted_reserve (wrote : List Nat) (b : Nat) :
    (Pc.op (noted wrote b)).reserve ≤ (Pc.op wrote).reserve := by
  change maxOpBlocks - (noted wrote b).length ≤ maxOpBlocks - wrote.length
  unfold noted
  split_ifs
  · exact le_rfl
  · rw [List.length_cons]
    omega

theorem mem_noted {wrote : List Nat} {b c : Nat} (h : c ∈ noted wrote b) : c ∈ wrote ∨ c = b := by
  unfold noted at h
  split_ifs at h
  · exact .inl h
  · rcases List.mem_cons.mp h with h | h
    · exact .inr h
    · exact .inl h

namespace Space

theorem active_pos (h : m.pc p = pc) (hpc : pc.active = true) : 1 ≤ tally Pc.active m.pc := by
  rcases Nat.eq_zero_or_pos (tally Pc.active m.pc) with hzero | hpos
  · have := tally_eq_zero.mp hzero p
    rw [h,hpc] at this
    cases this
  · exact hpos

theorem sleep (h : Space m) (hpc : m.pc p = .out ∨ m.pc p = .begin) :
    Space (m.setPc p .asleep) := by
  have hplain : (m.pc p).active = false ∧ (m.pc p).commits = false ∧ (m.pc p).reserve = 0 := by
    rcases hpc with hpc | hpc <;> rw [hpc] <;> exact ⟨rfl,rfl,rfl⟩
  obtain ⟨ha,hc,hr⟩ := hplain
  have hactive := tally_setPc (m := m) (p := p) .asleep Pc.active
  have hreserve := total_setPc (m := m) (p := p) .asleep Pc.reserve
  rw [ha] at hactive
  rw [hr] at hreserve
  have hactive : tally Pc.active (m.setPc p .asleep).pc = tally Pc.active m.pc := hactive
  have hreserve : total Pc.reserve (m.setPc p .asleep).pc = total Pc.reserve m.pc := hreserve
  refine h.move p .asleep rfl ?_ ?_ ?_ (by simp) (fun q _ => h.done q) (by decide)
    (by simp [Pc.wrote]) h.logged (by simp) ?_ ?_ ?_
  · rw [ha]
    rfl
  · rw [hc]
    rfl
  · rw [hactive]
    exact h.closed
  · rw [hreserve]
    exact h.room
  · rw [hactive,hreserve]
    exact h.last
  · rw [hactive]
    exact h.empty

theorem enter (h : Space m) (hpc : m.pc p = .out ∨ m.pc p = .begin)
    (hopen : m.committing = false)
    (hroom : m.lh.length + (m.outstanding + 1) * maxOpBlocks ≤ logsize) :
    Space ({ m with outstanding := m.outstanding + 1 }.setPc p (.op [])) := by
  have hplain : (m.pc p).active = false ∧ (m.pc p).commits = false ∧ (m.pc p).reserve = 0 := by
    rcases hpc with hpc | hpc <;> rw [hpc] <;> exact ⟨rfl,rfl,rfl⟩
  obtain ⟨ha,hc,hr⟩ := hplain
  have hactive := tally_setPc (m := m) (p := p) (.op []) Pc.active
  have htotal := total_le (m.setPc p (.op []))
  have hcount := h.count
  rw [ha] at hactive
  have hactive : tally Pc.active (m.setPc p (.op [])).pc = tally Pc.active m.pc + 1 := hactive
  simp only [maxOpBlocks,logsize] at htotal hroom
  refine h.move p (.op []) rfl ?_ ?_ ?_ (by simp) (fun q _ => h.done q) (by decide)
    (by simp [Pc.wrote]) h.logged (by simp) ?_ ?_ ?_
  · rw [ha]
    exact Int.add_zero _
  · rw [hc]
    rfl
  · intro hcomm
    exact absurd (hopen.symm.trans hcomm) (by decide)
  · change m.lh.length + total Pc.reserve (m.setPc p (.op [])).pc ≤ 30
    omega
  · intro hle
    change tally Pc.active (m.setPc p (.op [])).pc ≤ 1 at hle
    have hlh : m.lh = [] := h.empty (by omega) hopen
    change m.lh.length + total Pc.reserve (m.setPc p (.op [])).pc < 30
    rw [hlh,List.length_nil]
    omega
  · intro hzero
    change tally Pc.active (m.setPc p (.op [])).pc = 0 at hzero
    omega

theorem stay (h : Space m) (p : Fin n) (pc : Pc) (hs : m'.pc = (m.setPc p pc).pc)
    (hout : m'.outstanding = m.outstanding)
    (hcomm : m'.committing = m.committing) (hpc : (m.pc p).active = true) (hpc' : pc.active = true)
    (hroom : m'.lh.length + pc.reserve ≤ m.lh.length + (m.pc p).reserve)
    (hsub : ∀ b ∈ m.lh, b ∈ m'.lh) (hshort : pc.wrote.length < maxOpBlocks)
    (hlogged : ∀ b ∈ pc.wrote, b ∈ m'.lh)
    (hnext : ∀ wrote b, pc = .logging wrote b → b ∈ wrote ∨ wrote.length + 1 < maxOpBlocks) :
    Space m' := by
  have hopen := h.not_committing hpc
  have hcommits : ∀ {pc : Pc}, pc.active = true → pc.commits = false := by
    intro pc hpc
    cases pc <;> first | rfl | cases hpc
  have hactive := tally_setPc (m := m) (p := p) pc Pc.active
  have hreserve := total_setPc (m := m) (p := p) pc Pc.reserve
  have hone := active_pos (p := p) rfl hpc
  have h1 := h.room
  have h2 := h.last
  rw [← hs] at hactive hreserve
  rw [hpc,hpc'] at hactive
  have hactive : tally Pc.active m'.pc = tally Pc.active m.pc := by omega
  refine h.move p _ hs ?_ ?_ ?_ ?_ ?_ hshort hlogged (fun q b hb => hsub b (h.logged q b hb)) hnext
    ?_ ?_ ?_
  · rw [hout,hpc,hpc']
  · rw [hcomm,hcommits hpc,hcommits hpc']
  · intro hc
    rw [hcomm,hopen] at hc
    cases hc
  · rintro rfl
    cases hpc'
  · intro q _ hq
    have hc := h.committing (p := q) (by rw [hq]; rfl)
    rw [hopen] at hc
    cases hc
  · omega
  · intro hle
    rw [hactive] at hle
    have := h2 hle
    omega
  · intro hzero
    omega

theorem leave (h : Space m) {wrote : List Nat} (hpc : m.pc p = .op wrote)
    (hmore : m.outstanding - 1 ≠ 0) :
    Space ({ m with outstanding := m.outstanding - 1 }.setPc p .out) := by
  have hopen := h.not_committing (p := p) (by rw [hpc]; rfl)
  have hactive := tally_setPc (m := m) (p := p) .out Pc.active
  have hreserve := total_setPc (m := m) (p := p) .out Pc.reserve
  have hone := h.reserve_pos p
  have hcount := h.count
  have h1 := h.room
  rw [hpc] at hactive hreserve hone
  simp only [Pc.active,Bool.toNat_true,Bool.toNat_false] at hactive hone
  have hout : Pc.reserve .out = 0 := rfl
  refine h.move p .out rfl ?_ ?_ ?_ (by simp) (fun q _ => h.done q) (by decide)
    (by simp [Pc.wrote]) h.logged (by simp) ?_ ?_ ?_
  · rw [hpc]
    exact (Int.sub_add_cancel m.outstanding 1).trans (Int.add_zero _).symm
  · rw [hpc]
    rfl
  · intro hcomm
    exact absurd (hopen.symm.trans hcomm) (by decide)
  · change m.lh.length + total Pc.reserve (m.setPc p .out).pc ≤ logsize
    omega
  · intro _
    change m.lh.length + total Pc.reserve (m.setPc p .out).pc < logsize
    omega
  · intro hzero
    change tally Pc.active (m.setPc p .out).pc = 0 at hzero
    omega

theorem close (h : Space m) {wrote : List Nat} (hpc : m.pc p = .op wrote)
    (hlast : m.outstanding - 1 = 0) :
    Space ({ m with outstanding := m.outstanding - 1, committing := true }.setPc p
      (.commit m.commitStart)) := by
  have hopen := h.not_committing (p := p) (by rw [hpc]; rfl)
  have hactive := tally_setPc (m := m) (p := p) (.commit m.commitStart) Pc.active
  have hreserve := total_setPc (m := m) (p := p) (.commit m.commitStart) Pc.reserve
  have hone := h.reserve_pos p
  have hcount := h.count
  have h1 := h.room
  have hfits := h.fits
  rw [hpc] at hactive hreserve hone
  simp only [Pc.active,Bool.toNat_true,Bool.toNat_false] at hactive hone
  have hout : Pc.reserve (.commit m.commitStart) = 0 := rfl
  refine h.move p (.commit m.commitStart) rfl ?_ ?_ ?_ ?_ (fun q _ => h.done q)
    (by simp [Pc.wrote]) (by simp [Pc.wrote]) h.logged (by simp) ?_ ?_ ?_
  · rw [hpc]
    exact (Int.sub_add_cancel m.outstanding 1).trans (Int.add_zero _).symm
  · rw [hpc,hopen]
    rfl
  · intro _
    change tally Pc.active (m.setPc p _).pc = 0 ∧ _
    exact ⟨by omega,hfits⟩
  · intro hfinish
    simp only [commitStart,Pc.commit.injEq] at hfinish
    split_ifs at hfinish with hlen
    exact List.length_eq_zero_iff.mp (Nat.eq_zero_of_not_pos hlen)
  · change m.lh.length + total Pc.reserve (m.setPc p _).pc ≤ logsize
    omega
  · intro _
    change m.lh.length + total Pc.reserve (m.setPc p _).pc < logsize
    omega
  · intro _ hc
    cases hc

theorem stage (h : Space m) {st st' : Stage} (hpc : m.pc p = .commit st)
    (hs : m'.pc = (m.setPc p (.commit st')).pc) (hout : m'.outstanding = m.outstanding)
    (hcomm : m'.committing = m.committing) (hlh : m'.lh = m.lh ∨ m'.lh = [])
    (hdone : st' = .finish → m'.lh = []) : Space m' := by
  have hclosed := h.committing (p := p) (by rw [hpc]; rfl)
  obtain ⟨hzero,hfits⟩ := h.closed hclosed
  have hnone := tally_eq_zero.mp hzero
  have hactive := tally_setPc (m := m) (p := p) (.commit st') Pc.active
  rw [← hs,hnone p] at hactive
  have hactive : tally Pc.active m'.pc = 0 := by
    rw [hzero] at hactive
    exact hactive
  have htotal := total_le m'
  rw [hactive,Nat.mul_zero,Nat.le_zero] at htotal
  have hlen : m'.lh.length ≤ m.lh.length := by
    rcases hlh with hlh | hlh
    · rw [hlh]
    · simp [hlh]
  have hwrote : ∀ q, (m.pc q).wrote = [] := by
    intro q
    have hq := hnone q
    cases hpcq : m.pc q <;> first | rfl | (rw [hpcq] at hq; cases hq)
  refine h.move p _ hs ?_ ?_ ?_ ?_ ?_ (by simp [Pc.wrote]) (by simp [Pc.wrote]) ?_ (by simp) ?_ ?_ ?_
  · rw [hout,hpc]
    rfl
  · rw [hcomm,hpc]
    rfl
  · exact fun _ => ⟨hactive,by omega⟩
  · intro hfinish
    exact hdone (by simpa using hfinish)
  · intro q _ hq
    rcases hlh with hlh | hlh
    · rw [hlh]
      exact h.done q hq
    · exact hlh
  · intro q b hb
    rw [hwrote q] at hb
    cases hb
  · omega
  · intro _
    omega
  · intro _ hc
    rw [hcomm,hclosed] at hc
    cases hc

theorem finish (h : Space m) (hpc : m.pc p = .commit .finish) :
    Space ({ m with committing := false }.setPc p .out) := by
  have hclosed := h.committing (p := p) (by rw [hpc]; rfl)
  obtain ⟨hzero,-⟩ := h.closed hclosed
  have hlh := h.done p hpc
  have hactive := tally_setPc (m := m) (p := p) .out Pc.active
  rw [hpc,hzero] at hactive
  have hactive : tally Pc.active (m.setPc p .out).pc = 0 := hactive
  have htotal := total_le (m.setPc p .out)
  rw [hactive,Nat.mul_zero,Nat.le_zero] at htotal
  refine h.move p .out rfl ?_ ?_ ?_ (by simp) (fun _ _ _ => hlh) (by decide)
    (by simp [Pc.wrote]) h.logged (by simp) ?_ ?_ (fun _ _ => hlh)
  · rw [hpc]
    rfl
  · rw [hpc,hclosed]
    rfl
  · intro hc
    cases hc
  · change m.lh.length + total Pc.reserve (m.setPc p .out).pc ≤ logsize
    rw [htotal,hlh]
    decide
  · intro _
    change m.lh.length + total Pc.reserve (m.setPc p .out).pc < logsize
    rw [htotal,hlh]
    decide

end Space

theorem effect_space (he : Effect sb m a m') (hf : Fits sb m a) (hup : m.phase = .up)
    (h : Space m) (hasleep : Asleep m) (hup' : m'.phase = .up) : Space m' ∧ Asleep m' := by
  cases he with
  | @sleep p _ hpc hfull =>
    refine ⟨h.sleep hpc,?_⟩
    intro q hq
    rcases eq_or_ne q p with rfl | hne
    · exact hfull
    · exact hasleep q (by simpa [setPc,hne] using hq)
  | @enter p _ hpc hopen hroom =>
    refine ⟨h.enter hpc hopen hroom,hasleep.mono (asleep_setPc (by simp)) id le_rfl ?_⟩
    change m.outstanding ≤ m.outstanding + 1
    omega
  | @modify p b data wrote c hpc _ _ _ _ _ _ =>
    have hshort := h.short p
    have hlogged := h.logged p
    obtain ⟨-,hnext⟩ := hf
    rw [hpc] at hshort hlogged hnext
    refine ⟨h.stay p (.logging wrote b) rfl rfl rfl (by rw [hpc]; rfl) rfl ?_
      (fun _ hb => hb) hshort hlogged ?_,hasleep.mono (asleep_setPc (by simp)) id le_rfl le_rfl⟩
    · rw [hpc]
      exact le_rfl
    · intro wrote' b' he
      cases he
      exact hnext
  | @absorb p b wrote hpc _ hmem =>
    have hshort := h.short p
    have hlogged := h.logged p
    have hnext := h.next p wrote b hpc
    rw [hpc] at hshort hlogged
    refine ⟨h.stay p (.op (noted wrote b)) rfl rfl rfl (by rw [hpc]; rfl) rfl ?_
      (fun _ hb => hb) (noted_length hnext hshort) ?_ (by simp),
      hasleep.mono (asleep_setPc (by simp)) id le_rfl le_rfl⟩
    · rw [hpc]
      exact Nat.add_le_add_left (noted_reserve wrote b) _
    · intro x hx
      rcases mem_noted hx with hx | rfl
      · exact hlogged x hx
      · exact hmem
  | @append p b wrote hpc _ hmem _ =>
    have hshort := h.short p
    have hlogged := h.logged p
    have hnext := h.next p wrote b hpc
    rw [hpc] at hshort hlogged
    have hnew : b ∉ wrote := fun hb => hmem (hlogged b hb)
    refine ⟨h.stay p (.op (noted wrote b)) rfl rfl rfl (by rw [hpc]; rfl) rfl ?_
      (fun _ hb => List.mem_append_left _ hb) (noted_length hnext hshort) ?_ (by simp),
      hasleep.mono (asleep_setPc (by simp)) id ?_ le_rfl⟩
    · rw [hpc,noted,if_neg hnew]
      change (m.lh ++ [b]).length + (maxOpBlocks - (wrote.length + 1)) ≤
        m.lh.length + (maxOpBlocks - wrote.length)
      rw [List.length_append,List.length_singleton]
      change wrote.length < 10 at hshort
      simp only [maxOpBlocks]
      omega
    · intro x hx
      rcases mem_noted hx with hx | rfl
      · exact List.mem_append_left _ (hlogged x hx)
      · exact List.mem_append_right _ (List.mem_singleton_self x)
    · change m.lh.length ≤ (m.lh ++ [b]).length
      simp
  | leave hpc _ hmore => exact ⟨(h.leave hpc hmore).wakeup,asleep_wakeup⟩
  | last hpc _ hlast =>
    exact ⟨h.close hpc hlast,fun _ _ => .inl rfl⟩
  | writeLog hpc _ _ _ _ =>
    exact ⟨h.stage hpc rfl rfl rfl (.inl rfl) (by simp),
      hasleep.mono (asleep_setPc (by simp)) id le_rfl le_rfl⟩
  | writeHead hpc _ _ _ =>
    exact ⟨h.stage hpc rfl rfl rfl (.inl rfl) (by simp),
      hasleep.mono (asleep_setPc (by simp)) id le_rfl le_rfl⟩
  | install hpc _ _ _ _ =>
    exact ⟨h.stage hpc rfl rfl rfl (.inl rfl) (by simp),
      hasleep.mono (asleep_setPc (by simp)) id le_rfl le_rfl⟩
  | @eraseHead p _ _ hpc _ _ _ =>
    have hclosed := h.committing (p := p) (by rw [hpc]; rfl)
    exact ⟨h.stage hpc rfl rfl rfl (.inr rfl) (fun _ => rfl),fun _ _ => .inl hclosed⟩
  | finish hpc => exact ⟨(h.finish hpc).wakeup,asleep_wakeup⟩
  | read _ _ => exact ⟨⟨h.count,h.commits,h.closed,h.done,h.short,h.logged,h.next,h.room,h.last,
      h.empty⟩,hasleep⟩
  | release _ => exact ⟨⟨h.count,h.commits,h.closed,h.done,h.short,h.logged,h.next,h.room,h.last,
      h.empty⟩,hasleep⟩
  | crash => cases hup'
  | readHead hphase _ _ =>
    rw [hup] at hphase
    cases hphase
  | restore hphase _ _ _ _ =>
    rw [hup] at hphase
    cases hphase
  | restored hphase _ _ _ =>
    rw [hup] at hphase
    cases hphase

theorem effect_idle (he : Effect sb m a m') (hphase : m.phase ≠ .up) (h : Idle m) : LogOk m' := by
  have hout : ∀ {p pc}, pc ≠ .out → m.pc p ≠ pc := fun hne hpc => hne (hpc.symm.trans (h.pc _))
  cases he with
  | sleep hup _ _ => exact absurd hup hphase
  | enter hup _ _ _ => exact absurd hup hphase
  | modify hpc _ _ _ _ _ _ => exact absurd hpc (hout (by simp))
  | absorb hpc _ _ => exact absurd hpc (hout (by simp))
  | append hpc _ _ _ => exact absurd hpc (hout (by simp))
  | leave hpc _ _ => exact absurd hpc (hout (by simp))
  | last hpc _ _ => exact absurd hpc (hout (by simp))
  | writeLog hpc _ _ _ _ => exact absurd hpc (hout (by simp))
  | writeHead hpc _ _ _ => exact absurd hpc (hout (by simp))
  | install hpc _ _ _ _ => exact absurd hpc (hout (by simp))
  | eraseHead hpc _ _ _ => exact absurd hpc (hout (by simp))
  | finish hpc => exact absurd hpc (hout (by simp))
  | read hup _ => exact absurd hup hphase
  | release _ => exact .recovering hphase ⟨h.pc,h.committing,h.outstanding⟩
  | crash => exact .recovering (by simp [crash]) ⟨fun _ => rfl,rfl,rfl⟩
  | readHead _ _ _ => exact .recovering (by simp) ⟨h.pc,h.committing,h.outstanding⟩
  | restore _ _ _ _ _ => exact .recovering (by simp) ⟨h.pc,h.committing,h.outstanding⟩
  | @restored _ c _ _ _ _ =>
    have hidle : Idle { { m with lh := [], cache := c }.bwrite sb.logstart
        (encode [] (m.view sb.logstart)) with phase := .up } := ⟨h.pc,h.committing,h.outstanding⟩
    obtain ⟨hspace,hasleep⟩ := hidle.space rfl
    exact .up rfl hspace hasleep

theorem effect_logOk (he : Effect sb m a m') (hf : Fits sb m a) (h : LogOk m) : LogOk m' := by
  cases h with
  | recovering hphase hidle => exact effect_idle he hphase hidle
  | up hup hspace hasleep =>
    rcases eq_or_ne m'.phase .up with hup' | hdown
    · obtain ⟨hspace',hasleep'⟩ := effect_space he hf hup hspace hasleep hup'
      exact .up hup' hspace' hasleep'
    · cases he with
      | crash => exact .recovering hdown ⟨fun _ => rfl,rfl,rfl⟩
      | restored _ _ _ _ => exact absurd rfl hdown
      | readHead hphase _ _ =>
        rw [hup] at hphase
        cases hphase
      | restore hphase _ _ _ _ =>
        rw [hup] at hphase
        cases hphase
      | _ => exact absurd hup hdown

end Machine
end Fs
