import OscAssignments.Pipe.Ends
import OscAssignments.Lib.Counter
import OscAssignments.Lib.Monitor

namespace Pipe
open Runs Counter

variable {n : Nat}

namespace Machine
variable {m m' c : Machine n} {p q : Fin n} {e : End} {a : Act n} {w r : List UInt8}

def Locked (m : Machine n) : Prop := Monitor.Locked Pc.holding m.pc m.lock

theorem holding_wakeup (m : Machine n) (e : End) (q : Fin n) :
    ((m.wakeup e).pc q).holding = (m.pc q).holding :=
  (m.pc q).holding_wake e

theorem pipeclose_buffer (m : Machine n) (e : End) :
    (m.pipeclose e).data = m.data ∧ (m.pipeclose e).nread = m.nread ∧
      (m.pipeclose e).nwrite = m.nwrite ∧ (m.pipeclose e).lock = m.lock := by
  unfold pipeclose
  dsimp only
  split_ifs <;> exact ⟨rfl,rfl,rfl,rfl⟩

theorem userMode_holding (h : m.userMode p = true) : (m.pc p).holding = false := by
  obtain ⟨ret,hpc⟩ := userMode_eq h
  rw [hpc]
  rfl

theorem effect_locked (he : Effect m a m') (h : Locked m) : Locked m' := by
  have hsame : ∀ q, (m.pc q).holding = (m.pc q).holding := fun _ => rfl
  cases he with
  | dup hp hq hfd href => exact h
  | closeMore hp hfd href => exact h
  | @closeLast p e hp hfd href =>
    exact h.update hsame (.inl ⟨(userMode_holding hp).symm,rfl⟩)
  | callWrite hp hfd => exact h.update hsame (.inl ⟨(userMode_holding hp).symm,rfl⟩)
  | callRead hp hfd => exact h.update hsame (.inl ⟨(userMode_holding hp).symm,rfl⟩)
  | kill p =>
    refine h.update hsame (.inl ⟨?_,rfl⟩)
    rw [Pc.rouse,Pc.holding_wake,Pc.holding_wake]
  | @pipeclose p e hpc hlock =>
    obtain ⟨-,-,-,hpcs⟩ := pipeclose_frame m e
    obtain ⟨-,-,-,hsamelock⟩ := pipeclose_buffer m e
    refine h.update (fun q => ?_) (.inl ⟨by rw [hpc]; rfl,hsamelock⟩)
    rw [hpcs]
    exact (m.pc q).holding_wake _
  | @lockWrite p addr i hpc hlock =>
    exact h.update hsame (.inr (.inl ⟨hlock,rfl,rfl⟩))
  | @lockRead p size hpc hlock =>
    exact h.update hsame (.inr (.inl ⟨hlock,rfl,rfl⟩))
  | writeDone hpc hend =>
    exact h.update (holding_wakeup m .read) (.inr (.inr ⟨by rw [hpc]; rfl,rfl,rfl⟩))
  | writeFails hpc hb hfull hfail =>
    exact h.update hsame (.inr (.inr ⟨by rw [hpc]; rfl,rfl,rfl⟩))
  | writeFull hpc hb hfull hopen hkilled =>
    exact h.update (holding_wakeup m .read) (.inl ⟨by rw [hpc]; rfl,rfl⟩)
  | @put p addr i b hpc hb hroom =>
    exact h.update hsame (.inl ⟨by rw [hpc]; rfl,rfl⟩)
  | writeSleep hpc =>
    exact h.update hsame (.inr (.inr ⟨by rw [hpc]; rfl,rfl,rfl⟩))
  | readKilled hpc hempty hopen hkilled =>
    exact h.update hsame (.inr (.inr ⟨by rw [hpc]; rfl,rfl,rfl⟩))
  | readEmpty hpc hempty hopen hkilled => exact h.update hsame (.inl ⟨by rw [hpc]; rfl,rfl⟩)
  | readReady hpc hready => exact h.update hsame (.inl ⟨by rw [hpc]; rfl,rfl⟩)
  | readSleep hpc =>
    exact h.update hsame (.inr (.inr ⟨by rw [hpc]; rfl,rfl,rfl⟩))
  | take hpc hsize hready => exact h.update hsame (.inl ⟨by rw [hpc]; rfl,rfl⟩)
  | readDone hpc hend =>
    exact h.update (holding_wakeup m .write) (.inr (.inr ⟨by rw [hpc]; rfl,rfl,rfl⟩))

def put (m : Machine n) : Act n → Option UInt8
  | .run p =>
    match m.pc p with
    | .write addr i => if m.full then none else addr[i]?
    | _ => none
  | _ => none

def take (m : Machine n) : Act n → Option UInt8
  | .run p =>
    match m.pc p with
    | .read size addr => if addr.length < size ∧ ¬ m.empty then some m.front else none
    | _ => none
  | _ => none

def pending (m : Machine n) : List UInt8 := contents pipesize m.data m.nread m.nwrite

def Stream (m : Machine n) (w r : List UInt8) : Prop := Ring pipesize m.data m.nread m.nwrite r w

namespace Stream

theorem same (h : Stream m w r) (hd : m'.data = m.data) (hr : m'.nread = m.nread)
    (hw : m'.nwrite = m.nwrite) : Stream m' w r := by
  rw [Stream,hd,hr,hw]
  exact h

theorem full_iff (h : Stream m w r) : m.full ↔ w.length = r.length + pipesize :=
  Ring.full_iff (by decide) h

theorem empty_iff (h : Stream m w r) : m.empty ↔ r = w := Ring.empty_iff (by decide) h

theorem push (h : Stream m w r) (hroom : ¬ m.full) (b : UInt8) :
    Stream (m.push b) (w ++ [b]) r := by
  rw [h.full_iff] at hroom
  exact Ring.push (by decide) h (lt_of_le_of_ne (Ring.room h) hroom) b

theorem pop (h : Stream m w r) (hready : ¬ m.empty) : Stream m.pop w (r ++ [m.front]) := by
  rw [h.empty_iff] at hready
  exact Ring.pop (by decide) h hready

theorem pending_eq (h : Stream m w r) : r ++ m.pending = w :=
  Ring.contents_eq (by decide) (by decide) h

theorem length_pending (h : Stream m w r) : m.pending.length ≤ pipesize := by
  have hlen := congrArg List.length h.pending_eq
  have hroom := Ring.room h
  rw [List.length_append] at hlen
  omega

end Stream

theorem effect_stream (he : Effect m a m') (h : Stream m w r) :
    Stream m' (w ++ (m.put a).toList) (r ++ (m.take a).toList) := by
  have hkeep : ∀ {m' : Machine n}, m.put a = none → m.take a = none → m'.data = m.data →
      m'.nread = m.nread → m'.nwrite = m.nwrite →
      Stream m' (w ++ (m.put a).toList) (r ++ (m.take a).toList) := by
    intro m' hput htake hd hr hw
    rw [hput,htake]
    simpa using h.same hd hr hw
  cases he with
  | dup => exact hkeep rfl rfl rfl rfl rfl
  | closeMore => exact hkeep rfl rfl rfl rfl rfl
  | closeLast => exact hkeep rfl rfl rfl rfl rfl
  | callWrite => exact hkeep rfl rfl rfl rfl rfl
  | callRead => exact hkeep rfl rfl rfl rfl rfl
  | kill => exact hkeep rfl rfl rfl rfl rfl
  | @pipeclose p e hpc hlock =>
    obtain ⟨hd,hr,hw,-⟩ := pipeclose_buffer m e
    exact hkeep (by simp [put,hpc]) (by simp [take,hpc]) hd hr hw
  | @put p addr i b hpc hb hroom =>
    have hput : m.put (.run p) = some b := by rw [put,hpc]; exact (if_neg hroom).trans hb
    have htake : m.take (.run p) = none := by rw [take,hpc]
    rw [hput,htake,Option.toList_some,Option.toList_none,List.append_nil]
    exact (h.push hroom b).same rfl rfl rfl
  | @take p size addr hpc hsize hready =>
    have hput : m.put (.run p) = none := by rw [put,hpc]
    have htake : m.take (.run p) = some m.front := by rw [take,hpc]; exact if_pos ⟨hsize,hready⟩
    rw [hput,htake,Option.toList_some,Option.toList_none,List.append_nil]
    exact (h.pop hready).same rfl rfl rfl
  | writeDone hpc hend => exact hkeep (by simp [put,hpc,hend]) (by simp [take,hpc]) rfl rfl rfl
  | writeFails hpc hb hfull hfail =>
    exact hkeep (by simp [put,hpc,hfull]) (by simp [take,hpc]) rfl rfl rfl
  | writeFull hpc hb hfull =>
    exact hkeep (by simp [put,hpc,hfull]) (by simp [take,hpc]) rfl rfl rfl
  | readDone hpc hend =>
    refine hkeep (by simp [put,hpc]) ?_ rfl rfl rfl
    rw [take,hpc]
    refine if_neg fun hmore => ?_
    rcases hend with hend | hend
    · exact absurd hmore.1 (not_lt.mpr hend)
    · exact hmore.2 hend
  | lockWrite hpc => exact hkeep (by simp [put,hpc]) (by simp [take,hpc]) rfl rfl rfl
  | lockRead hpc => exact hkeep (by simp [put,hpc]) (by simp [take,hpc]) rfl rfl rfl
  | writeSleep hpc => exact hkeep (by simp [put,hpc]) (by simp [take,hpc]) rfl rfl rfl
  | readKilled hpc => exact hkeep (by simp [put,hpc]) (by simp [take,hpc]) rfl rfl rfl
  | readEmpty hpc => exact hkeep (by simp [put,hpc]) (by simp [take,hpc]) rfl rfl rfl
  | readReady hpc => exact hkeep (by simp [put,hpc]) (by simp [take,hpc]) rfl rfl rfl
  | readSleep hpc => exact hkeep (by simp [put,hpc]) (by simp [take,hpc]) rfl rfl rfl

structure Reading (m : Machine n) (r : List UInt8) : Prop where
  suffix : ∀ p size addr, m.pc p = .read size addr → addr <:+ r ∧ addr.length ≤ size
  ready : ∀ p size, m.pc p = .read size [] → ¬ m.empty ∨ m.isOpen .write = false

theorem Reading.keep (h : Reading m r)
    (hpc : ∀ q size addr, m'.pc q = .read size addr → m.pc q = .read size addr)
    (hr : m'.nread = m.nread) (hw : m'.nwrite = m.nwrite)
    (hopen : m.isOpen .write = false → m'.isOpen .write = false) :
    Reading m' (r ++ (none : Option UInt8).toList) := by
  rw [Option.toList_none,List.append_nil]
  refine ⟨fun q size addr hq => h.suffix q size addr (hpc q size addr hq),?_⟩
  intro q size hq
  rw [empty,hr,hw]
  exact (h.ready q size (hpc q size [] hq)).imp_right hopen

theorem wakeup_read {q : Fin n} {size : Nat} {addr : List UInt8}
    (h : (m.wakeup e).pc q = .read size addr) : m.pc q = .read size addr := by
  change (m.pc q).wake e = _ at h
  rcases (m.pc q).wake_cases e with hw | ⟨a,i,-,hw⟩ | ⟨k,-,hw⟩
  · exact hw.symm.trans h
  · rw [hw] at h
    cases h
  · rw [hw] at h
    cases h

theorem setPc_read {pc : Pc}
    (hm : ∀ q size addr, c.pc q = .read size addr → m.pc q = .read size addr)
    (hpc : ∀ size addr, pc = .read size addr → m.pc p = .read size addr) :
    ∀ q size addr, (c.setPc p pc).pc q = .read size addr → m.pc q = .read size addr := by
  intro q size addr hq
  rcases eq_or_ne q p with rfl | hne
  · rw [setPc_pc,Function.update_self] at hq
    exact hpc size addr hq
  · rw [setPc_pc,Function.update_of_ne hne] at hq
    exact hm q size addr hq

theorem take_eq_none (h : ∀ p size addr, a = .run p → m.pc p ≠ .read size addr) :
    m.take a = none := by
  unfold take
  split
  · split
    case h_1 hpc => exact absurd hpc (h _ _ _ rfl)
    case h_2 => rfl
  · rfl

theorem effect_reading (he : Effect m a m') (hl : Locked m) (h : Reading m r) :
    Reading m' (r ++ (m.take a).toList) := by
  have hsame : ∀ q size addr, m.pc q = .read size addr → m.pc q = .read size addr :=
    fun _ _ _ => id
  have hnone : ∀ {p : Fin n}, a = .run p → (∀ size addr, m.pc p ≠ .read size addr) →
      m.take a = none := by
    rintro p rfl hpc
    refine take_eq_none fun q size addr hq => ?_
    cases hq
    exact hpc size addr
  cases he with
  | dup => exact h.keep hsame rfl rfl id
  | closeMore => exact h.keep hsame rfl rfl id
  | closeLast => exact h.keep (setPc_read hsame nofun) rfl rfl id
  | callWrite => exact h.keep (setPc_read hsame nofun) rfl rfl id
  | callRead => exact h.keep (setPc_read hsame nofun) rfl rfl id
  | kill p =>
    refine h.keep (setPc_read hsame fun size addr hq => ?_) rfl rfl id
    exact wakeup_read (m := m) (wakeup_read (m := m.wakeup .read) (q := p) hq)
  | @pipeclose p e hpc hlock =>
    obtain ⟨-,-,hopen,hpcs⟩ := pipeclose_frame m e
    obtain ⟨-,hr,hw,-⟩ := pipeclose_buffer m e
    rw [hnone rfl (by simp [hpc])]
    refine h.keep (setPc_read (fun q size addr hq => ?_) nofun) hr hw fun hclosed => ?_
    · rw [hpcs] at hq
      exact wakeup_read (m := m) hq
    · change (m.pipeclose e).isOpen .write = false
      rw [hopen]
      rcases eq_or_ne .write e with rfl | hne
      · exact Function.update_self ..
      · rw [Function.update_of_ne hne]
        exact hclosed
  | lockWrite hpc =>
    rw [hnone rfl (by simp [hpc])]
    exact h.keep (setPc_read hsame nofun) rfl rfl id
  | lockRead hpc =>
    rw [hnone rfl (by simp [hpc])]
    exact h.keep (setPc_read hsame nofun) rfl rfl id
  | writeDone hpc =>
    rw [hnone rfl (by simp [hpc])]
    exact h.keep (setPc_read (fun _ _ _ => wakeup_read) nofun) rfl rfl id
  | writeFails hpc =>
    rw [hnone rfl (by simp [hpc])]
    exact h.keep (setPc_read hsame nofun) rfl rfl id
  | writeFull hpc =>
    rw [hnone rfl (by simp [hpc])]
    exact h.keep (setPc_read (fun _ _ _ => wakeup_read) nofun) rfl rfl id
  | @put p addr i b hpc hb hroom =>
    rw [hnone rfl (by simp [hpc]),Option.toList_none,List.append_nil]
    have hother : ∀ q size addr', ((m.push b).setPc p (.write addr (i + 1))).pc q ≠
        .read size addr' := by
      intro q size addr' hq
      have hread : m.pc q = .read size addr' :=
        setPc_read (m := m) (c := m.push b) hsame (by simp) q size addr' hq
      have hqp : q = p := hl.unique (by rw [hread]; rfl) (by rw [hpc]; rfl)
      rw [hqp,hpc] at hread
      cases hread
    exact ⟨fun q size addr' hq => absurd hq (hother q size addr'),
      fun q size hq => absurd hq (hother q size [])⟩
  | writeSleep hpc =>
    rw [hnone rfl (by simp [hpc])]
    exact h.keep (setPc_read hsame nofun) rfl rfl id
  | readKilled hpc =>
    rw [hnone rfl (by simp [hpc])]
    exact h.keep (setPc_read hsame nofun) rfl rfl id
  | readEmpty hpc =>
    rw [hnone rfl (by simp [hpc])]
    exact h.keep (setPc_read hsame nofun) rfl rfl id
  | @readReady p size hpc hready =>
    rw [hnone rfl (by simp [hpc]),Option.toList_none,List.append_nil]
    constructor
    · intro q size' addr hq
      rcases eq_or_ne q p with rfl | hne
      · rw [setPc_pc,Function.update_self] at hq
        cases hq
        exact ⟨List.nil_suffix,Nat.zero_le _⟩
      · rw [setPc_pc,Function.update_of_ne hne] at hq
        exact h.suffix q size' addr hq
    · intro q size' hq
      rcases eq_or_ne q p with rfl | hne
      · exact hready
      · rw [setPc_pc,Function.update_of_ne hne] at hq
        exact h.ready q size' hq
  | readSleep hpc =>
    rw [hnone rfl (by simp [hpc])]
    exact h.keep (setPc_read hsame nofun) rfl rfl id
  | @take p size addr hpc hsize hready =>
    have htake : m.take (.run p) = some m.front := by rw [take,hpc]; exact if_pos ⟨hsize,hready⟩
    rw [htake,Option.toList_some]
    have hself : ∀ {q size' addr'}, (m.pop.setPc p (.read size (addr ++ [m.front]))).pc q =
        .read size' addr' → size' = size ∧ addr' = addr ++ [m.front] := by
      intro q size' addr' hq
      rcases eq_or_ne q p with rfl | hne
      · rw [setPc_pc,Function.update_self] at hq
        cases hq
        exact ⟨rfl,rfl⟩
      · rw [setPc_pc,Function.update_of_ne hne] at hq
        have hread : m.pc q = .read size' addr' := hq
        exact absurd (hl.unique (by rw [hread]; rfl) (by rw [hpc]; rfl)) hne
    constructor
    · intro q size' addr' hq
      obtain ⟨rfl,rfl⟩ := hself hq
      obtain ⟨hsuffix,-⟩ := h.suffix p size' addr hpc
      refine ⟨?_,by simpa using hsize⟩
      obtain ⟨pre,hpre⟩ := hsuffix
      exact ⟨pre,by rw [← List.append_assoc,hpre]⟩
    · intro q size' hq
      obtain ⟨-,hnil⟩ := hself hq
      exact absurd hnil.symm (by simp)
  | @readDone p size addr hpc hend =>
    have htake : m.take (.run p) = none := by
      rw [take,hpc]
      refine if_neg fun hmore => ?_
      rcases hend with hend | hend
      · exact absurd hmore.1 (not_lt.mpr hend)
      · exact hmore.2 hend
    rw [htake]
    exact h.keep (setPc_read (fun _ _ _ => wakeup_read) nofun) rfl rfl id

def puts (ts : List (Machine n × Act n × Machine n)) : List UInt8 := emitted put ts

def takes (ts : List (Machine n × Act n × Machine n)) : List UInt8 := emitted take ts

theorem effect_closed (he : Effect m a m') (h : m.isOpen e = false) : m'.isOpen e = false := by
  cases he with
  | @pipeclose p x hpc hlock =>
    change (m.pipeclose x).isOpen e = false
    rw [(pipeclose_frame m x).2.2.1]
    rcases eq_or_ne e x with rfl | hne
    · exact Function.update_self ..
    · rw [Function.update_of_ne hne]
      exact h
  | _ => exact h

theorem Sane.no_put (h : Sane m) (hclosed : m.isOpen .write = false) : m.put a = none := by
  unfold put
  split
  case h_2 => rfl
  case h_1 p =>
    split
    case h_2 => rfl
    case h_1 hpc =>
      have hopen := h.isOpen_of_uses (q := p) (e := .write) (by rw [hpc]; rfl)
      rw [hclosed] at hopen
      cases hopen

theorem no_take (h : m.empty) : m.take a = none := by
  unfold take
  split
  case h_2 => rfl
  case h_1 p =>
    split
    case h_2 => rfl
    case h_1 => exact if_neg fun hmore => hmore.2 h

theorem Sane.no_fds (h : Sane m) (hclosed : m.isOpen e = false) (q : Fin n) :
    m.fds q e = 0 := by
  have hle := h.fds_le q e
  have hzero : ¬ 0 < m.ref e := by
    intro hpos
    rw [(h.isOpen e).mpr (.inl hpos)] at hclosed
    cases hclosed
  omega

variable {data : Nat → UInt8} {p0 : Fin n}

theorem pipealloc_stream : Stream (pipealloc data p0) [] [] := Ring.nil data

theorem path_stream {ts : List (Machine n × Act n × Machine n)}
    (h : (pipe data p0).Path (pipealloc data p0) ts m) :
    Sane m ∧ Locked m ∧ Stream m (puts ts) (takes ts) ∧ Reading m (takes ts) := by
  refine h.rule (fun ts m => Sane m ∧ Locked m ∧ Stream m (puts ts) (takes ts) ∧
    Reading m (takes ts)) ?_ ?_
  · exact ⟨pipealloc_sane,fun q => iff_of_false (by simp [pipealloc,Pc.holding])
      (by simp [pipealloc]),pipealloc_stream,⟨nofun,nofun⟩⟩
  · rintro ts s a t - ⟨hs,hl,hst,hrd⟩ hstep
    have he := step_effect hstep
    have hputs : puts (ts ++ [(s,a,t)]) = puts ts ++ (s.put a).toList := emitted_snoc put ts s a t
    have htakes : takes (ts ++ [(s,a,t)]) = takes ts ++ (s.take a).toList :=
      emitted_snoc take ts s a t
    rw [hputs,htakes]
    exact ⟨effect_sane he hs,effect_locked he hl,effect_stream he hst,effect_reading he hl hrd⟩

theorem pipe_fifo {ts : List (Machine n × Act n × Machine n)}
    (h : (pipe data p0).Path (pipealloc data p0) ts m) :
    takes ts ++ m.pending = puts ts ∧ m.pending.length ≤ pipesize ∧
      ∀ p size addr, m.pc p = .read size addr → addr <:+ takes ts ∧ addr.length ≤ size := by
  obtain ⟨-,-,hst,hrd⟩ := path_stream h
  exact ⟨hst.pending_eq,hst.length_pending,hrd.suffix⟩

theorem pipe_fifo_run :
    let ts := (pipe (fun _ => 0) 0).transitions (pipealloc (fun _ => 0) 0) (pipeRun (0 : Fin 2) 1)
    let m := (pipe (fun _ => 0) 0).after (pipeRun (0 : Fin 2) 1)
    takes ts ++ m.pending = puts ts ∧ m.pending.length ≤ pipesize ∧
      ∀ p size addr, m.pc p = .read size addr → addr <:+ takes ts ∧ addr.length ≤ size :=
  pipe_fifo (System.path_run (by decide +kernel))

theorem eof_final {ts us : List (Machine n × Act n × Machine n)} {s t : Machine n} {size : Nat}
    {addr : List UInt8} (h : (pipe data p0).Path (pipealloc data p0) ts s)
    (hpc : s.pc p = .read size addr) (hsize : 0 < size)
    (hstep : (pipe data p0).step s (.run p) = .ok t) (hret : t.pc p = .user 0)
    (hrest : (pipe data p0).Path t us m) :
    puts us = [] ∧ takes us = [] ∧ takes ts = puts ts ∧ ∀ q, m.fds q .write = 0 := by
  obtain ⟨hs,hl,hst,hrd⟩ := path_stream h
  have he : Effect s (.run p) t := step_effect hstep
  obtain ⟨rfl,hempty⟩ : addr = [] ∧ s.empty := by
    have hrun : t = s.piperead p size addr := by
      obtain ⟨_,_,hrun⟩ := bind_eq_ok.mp hstep
      split_ifs at hrun
      rw [hpc] at hrun
      cases hrun
      rfl
    rw [hrun,piperead] at hret
    split_ifs at hret with hmore
    · rw [setPc_pc,Function.update_self] at hret
      cases hret
    · rw [setPc_pc,Function.update_self] at hret
      have hnil : addr = [] := List.eq_nil_of_length_eq_zero (by simpa using hret)
      refine ⟨hnil,?_⟩
      rw [hnil,not_and_or,not_not] at hmore
      exact hmore.resolve_left fun hn => hn hsize
  have hclosed : s.isOpen .write = false := (hrd.ready p size hpc).resolve_left fun hn => hn hempty
  have hall := hst.empty_iff.mp hempty
  rw [hall] at hst
  have ht := effect_stream he hst
  rw [hs.no_put hclosed,no_take hempty,Option.toList_none,List.append_nil] at ht
  have hmain := hrest.rule (fun us m => puts us = [] ∧ takes us = [] ∧ Sane m ∧
    m.isOpen .write = false ∧ Stream m (puts ts) (puts ts))
    ⟨rfl,rfl,effect_sane he hs,effect_closed he hclosed,ht⟩ ?_
  · obtain ⟨hputs,htakes,hsane,hcl,-⟩ := hmain
    exact ⟨hputs,htakes,hall,hsane.no_fds hcl⟩
  · rintro us s a t - ⟨hputs,htakes,hsane,hcl,hstr⟩ hst
    have he : Effect s a t := step_effect hst
    have hstr' := effect_stream he hstr
    have hput : s.put a = none := hsane.no_put hcl
    have htake : s.take a = none := no_take (hstr.empty_iff.mpr rfl)
    rw [hput,htake,Option.toList_none,List.append_nil] at hstr'
    refine ⟨?_,?_,effect_sane he hsane,effect_closed he hcl,hstr'⟩
    · exact (emitted_snoc put us s a t).trans (by rw [hput]; exact congrArg (· ++ []) hputs)
    · exact (emitted_snoc take us s a t).trans (by rw [htake]; exact congrArg (· ++ []) htakes)

def eofRun (p q : Fin n) : List (Act n) :=
  pipeRun p q ++ [.run q,.run q,.fileclose p .write,.run p,.read q 2,.run q,.run q,.run q,.run q,
    .read q 2,.run q,.run q]

theorem eof_final_run :
    let as := eofRun (0 : Fin 2) 1
    let s := (pipe (fun _ => 0) 0).after (as ++ [.run 1])
    let us := (pipe (fun _ => 0) 0).transitions s [.fileclose 1 .read]
    let ts := (pipe (fun _ => 0) 0).transitions (pipealloc (fun _ => 0) 0) as
    puts ts = [1,2,3] ∧ puts us = [] ∧ takes us = [] ∧ takes ts = puts ts ∧
      ∀ q, ((pipe (fun _ => 0) 0).after (as ++ [.run 1] ++ [.fileclose 1 .read])).fds q .write =
        0 := by
  have hpc : ((pipe (fun _ => 0) 0).after (eofRun (0 : Fin 2) 1)).pc 1 = .read 2 [] := by
    decide +kernel
  exact ⟨by decide +kernel,eof_final (System.path_run (by decide +kernel)) hpc (by decide)
    (System.step_after (by decide +kernel)) (by decide +kernel)
    (System.path_after (by decide +kernel))⟩

end Machine

end Pipe
