import OscAssignments.Fs.Log

namespace Fs
open Runs Redo Xv6

variable {n : Nat}

structure Cache.Bounded (c : Cache n) : Prop where
  small : ∀ b, (c b).isSome → b < fssize
  listed : ∀ b, b ∈ c.lru ↔ (c b).isSome
  nodup : c.lru.Nodup
  length : c.lru.length ≤ nbuf

namespace Machine

def view (m : Machine n) (b : Nat) : Block :=
  match m.cache b with
  | some buf => buf.data
  | none => m.disk b

def isDirty (m : Machine n) (b : Nat) : Bool := (m.cache b).any (·.dirty)

def ownerOf (m : Machine n) (b : Nat) : Option (Fin n) := (m.cache b).bind (·.owner)

def isReading (m : Machine n) (b : Nat) : Bool := (m.cache b).any (·.reading)

def Unread (m : Machine n) : Prop := ∀ b, m.isReading b = false

def Clean (m : Machine n) : Prop :=
  ∀ b, m.isDirty b = false → m.ownerOf b = none → m.view b = m.disk b

def Bounded (m : Machine n) : Prop := m.cache.Bounded

section Observers
variable (m : Machine n) (p : Fin n) (pc : Pc) (b : Nat) (buf : Buf n) (data : Block)

theorem view_setPc : (m.setPc p pc).view = m.view := rfl
theorem isDirty_setPc : (m.setPc p pc).isDirty = m.isDirty := rfl
theorem ownerOf_setPc : (m.setPc p pc).ownerOf = m.ownerOf := rfl

theorem view_setBuf : (m.setBuf b (some buf)).view = Function.update m.view b buf.data := by
  funext x
  rcases eq_or_ne x b with rfl | hne
  · simp [view,setBuf,Cache.set]
  · simp [view,setBuf,Cache.set,hne]

theorem isDirty_setBuf :
    (m.setBuf b (some buf)).isDirty = Function.update m.isDirty b buf.dirty := by
  funext x
  rcases eq_or_ne x b with rfl | hne
  · simp [isDirty,setBuf,Cache.set]
  · simp [isDirty,setBuf,Cache.set,hne]

theorem ownerOf_setBuf :
    (m.setBuf b (some buf)).ownerOf = Function.update m.ownerOf b buf.owner := by
  funext x
  rcases eq_or_ne x b with rfl | hne
  · simp [ownerOf,setBuf,Cache.set]
  · simp [ownerOf,setBuf,Cache.set,hne]

theorem isReading_setBuf :
    (m.setBuf b (some buf)).isReading = Function.update m.isReading b buf.reading := by
  funext x
  rcases eq_or_ne x b with rfl | hne
  · simp [isReading,setBuf,Cache.set]
  · simp [isReading,setBuf,Cache.set,hne]

theorem view_brelse : (m.brelse b buf).view = Function.update m.view b buf.data :=
  view_setBuf m b buf

theorem isDirty_brelse : (m.brelse b buf).isDirty = Function.update m.isDirty b buf.dirty :=
  isDirty_setBuf m b buf

theorem ownerOf_brelse : (m.brelse b buf).ownerOf = Function.update m.ownerOf b buf.owner :=
  ownerOf_setBuf m b buf

theorem isReading_brelse :
    (m.brelse b buf).isReading = Function.update m.isReading b buf.reading :=
  isReading_setBuf m b buf

theorem view_bwrite : (m.bwrite b data).view = Function.update m.view b data := by
  funext x
  rcases eq_or_ne x b with rfl | hne
  · simp [view,bwrite,setBuf,Cache.set]
  · simp [view,bwrite,setBuf,Cache.set,hne]

theorem isDirty_bwrite : (m.bwrite b data).isDirty = Function.update m.isDirty b false :=
  isDirty_setBuf m b ⟨data,false,none,false⟩

theorem ownerOf_bwrite : (m.bwrite b data).ownerOf = Function.update m.ownerOf b none :=
  ownerOf_setBuf m b ⟨data,false,none,false⟩

theorem isReading_bwrite : (m.bwrite b data).isReading = Function.update m.isReading b false :=
  isReading_setBuf m b ⟨data,false,none,false⟩

end Observers

variable {sb : Superblock} {m m' : Machine n} {p : Fin n} {b src dst v : Nat} {data : Block}
  {held : List Nat}

theorem isSome_set {c : Cache n} (buf : Buf n) (x : Nat) :
    ((c.set b (some buf)) x).isSome = true ↔ x = b ∨ (c x).isSome = true := by
  rcases eq_or_ne x b with rfl | hne
  · simp [Cache.set]
  · simp [Cache.set,hne]

theorem Bounded.setBuf (h : m.Bounded) (hb : (m.cache b).isSome) (buf : Buf n) :
    (m.setBuf b (some buf)).Bounded := by
  have hsome : ∀ x, ((m.setBuf b (some buf)).cache x).isSome = true ↔
      (m.cache x).isSome = true := by
    intro x
    refine (isSome_set buf x).trans ⟨?_,.inr⟩
    rintro (rfl | hx)
    · exact hb
    · exact hx
  exact ⟨fun x hx => h.small x ((hsome x).mp hx),fun x => (h.listed x).trans (hsome x).symm,
    h.nodup,h.length⟩

theorem Bounded.brelse (h : m.Bounded) (hsize : b < fssize)
    (hroom : (m.cache b).isSome ∨ m.cache.lru.length < nbuf) (buf : Buf n) :
    (m.brelse b buf).Bounded := by
  refine ⟨?_,?_,?_,?_⟩
  · intro x hx
    rcases (isSome_set buf x).mp hx with rfl | hx
    · exact hsize
    · exact h.small x hx
  · intro x
    change x ∈ b :: m.cache.lru.erase b ↔ ((m.cache.set b (some buf)) x).isSome = true
    rw [isSome_set,List.mem_cons]
    rcases eq_or_ne x b with rfl | hne
    · simp
    · rw [List.mem_erase_of_ne hne,h.listed]
  · exact List.nodup_cons.mpr ⟨h.nodup.not_mem_erase,h.nodup.erase b⟩
  · change (b :: m.cache.lru.erase b).length ≤ nbuf
    have hlen := h.length
    rw [List.length_cons,List.length_erase]
    split_ifs with hmem
    · have hpos := List.length_pos_of_mem hmem
      omega
    · rcases hroom with hb | hroom
      · exact absurd ((h.listed b).mpr hb) hmem
      · omega

structure Reload (m : Machine n) (c : Cache n) : Prop where
  view : m.Clean → { m with cache := c }.view = m.view
  isDirty : { m with cache := c }.isDirty = m.isDirty
  ownerOf : { m with cache := c }.ownerOf = m.ownerOf
  bounded : m.Bounded → { m with cache := c }.Bounded
  unread : m.phase ≠ .up → m.Unread → { m with cache := c }.Unread

theorem Reload.refl (m : Machine n) : m.Reload m.cache := ⟨fun _ => rfl,rfl,rfl,id,fun _ => id⟩

theorem Reload.clean {c : Cache n} (h : m.Reload c) (hclean : m.Clean) :
    Clean { m with cache := c } := by
  intro x hx hox
  rw [h.isDirty] at hx
  rw [h.ownerOf] at hox
  rw [h.view hclean]
  exact hclean x hx hox

theorem Reload.trans {c d : Cache n} (h : m.Reload c) (h' : Reload { m with cache := c } d) :
    m.Reload d :=
  ⟨fun hclean => (h'.view (h.clean hclean)).trans (h.view hclean),h'.isDirty.trans h.isDirty,
    h'.ownerOf.trans h.ownerOf,fun hb => h'.bounded (h.bounded hb),
    fun hup hr => h'.unread hup (h.unread hup hr)⟩

theorem brelse_reload {buf : Buf n} (hdata : buf.data = m.view b)
    (hdirty : buf.dirty = m.isDirty b) (hown : buf.owner = m.ownerOf b)
    (hsome : (m.cache b).isSome) (hread : buf.reading = false) :
    m.Reload (m.brelse b buf).cache := by
  refine ⟨fun _ => ?_,?_,?_,fun h => h.brelse (h.small b hsome) (.inl hsome) buf,?_⟩
  · refine (view_brelse m b buf).trans ?_
    rw [hdata,Function.update_eq_self]
  · refine (isDirty_brelse m b buf).trans ?_
    rw [hdirty,Function.update_eq_self]
  · refine (ownerOf_brelse m b buf).trans ?_
    rw [hown,Function.update_eq_self]
  · intro _ h x
    refine (congrFun (isReading_brelse m b buf) x).trans ?_
    rcases eq_or_ne x b with rfl | hne
    · rw [Function.update_self]
      exact hread
    · rw [Function.update_of_ne hne]
      exact h x

theorem unused_eq {buf : Buf n} (h : buf.unused = true) :
    buf.dirty = false ∧ buf.owner = none ∧ buf.reading = false := by
  simpa [Buf.unused,and_assoc] using h

theorem drop_reload {buf : Buf n} (hbuf : m.cache v = some buf) (hfree : buf.unused = true) :
    m.Reload (m.cache.drop v) := by
  obtain ⟨hdirty,hown,-⟩ := unused_eq hfree
  have hdirty' : m.isDirty v = false := by
    rw [isDirty,hbuf]
    exact hdirty
  have hown' : m.ownerOf v = none := by
    rw [ownerOf,hbuf]
    exact hown
  have hother : ∀ {x}, x ≠ v → (m.cache.drop v) x = m.cache x := fun hne =>
    Function.update_of_ne hne _ _
  have hself : (m.cache.drop v) v = none := Function.update_self ..
  refine ⟨?_,?_,?_,?_,?_⟩
  · intro hclean
    funext x
    rcases eq_or_ne x v with rfl | hne
    · rw [hclean x hdirty' hown',view,hself]
    · rw [view,view,hother hne]
  · funext x
    rcases eq_or_ne x v with rfl | hne
    · rw [hdirty',isDirty,hself]
      rfl
    · rw [isDirty,isDirty,hother hne]
  · funext x
    rcases eq_or_ne x v with rfl | hne
    · rw [hown',ownerOf,hself]
      rfl
    · rw [ownerOf,ownerOf,hother hne]
  · intro h
    refine ⟨?_,?_,h.nodup.erase v,List.length_erase_le.trans h.length⟩
    · intro x hx
      rcases eq_or_ne x v with rfl | hne
      · rw [hself] at hx
        cases hx
      · rw [hother hne] at hx
        exact h.small x hx
    · intro x
      rcases eq_or_ne x v with rfl | hne
      · rw [hself]
        exact iff_of_false h.nodup.not_mem_erase (by simp)
      · rw [hother hne,← h.listed x]
        exact List.mem_erase_of_ne hne
  · intro _ h x
    rcases eq_or_ne x v with rfl | hne
    · rw [isReading,hself]
      rfl
    · rw [isReading,hother hne]
      exact h x

theorem bget_eq_ok (h : m.bget held = .ok m') :
    ∃ c, m' = { m with cache := c } ∧ m.Reload c ∧ (m.Bounded → c.lru.length < nbuf) := by
  unfold bget at h
  split_ifs at h with hroom
  · cases h
    exact ⟨m.cache,rfl,.refl m,fun _ => hroom⟩
  · split at h
    case h_2 => cases h
    case h_1 v hv =>
      cases h
      have hfree := List.find?_some hv
      have hmem := List.mem_reverse.mp (List.mem_of_find?_eq_some hv)
      simp only [recyclable,Bool.and_eq_true] at hfree
      obtain ⟨buf,hbuf,hunused⟩ := (Option.any_eq_true _ _).mp hfree.2
      refine ⟨m.cache.drop v,rfl,drop_reload hbuf hunused,?_⟩
      intro hm
      have hlen := hm.length
      have hpos := List.length_pos_of_mem hmem
      change (m.cache.lru.erase v).length < nbuf
      rw [List.length_erase_of_mem hmem]
      omega

theorem isSome_brelse {buf : Buf n} : ((m.brelse b buf).cache b).isSome = true :=
  (isSome_set buf b).mpr (.inl rfl)

theorem bread_eq_ok (h : m.bread held b = .ok (data,m')) :
    ∃ c, m' = { m with cache := c } ∧ m.Reload c ∧ data = m.view b ∧ m.ownerOf b = none ∧
      (c b).isSome := by
  unfold bread at h
  cases hb : m.cache b with
  | some buf =>
    rw [hb] at h
    simp only at h
    split_ifs at h with hfree
    cases h
    have hsome : (m.cache b).isSome := by rw [hb]; rfl
    have hview : buf.data = m.view b := by rw [view,hb]
    have hdirty : buf.dirty = m.isDirty b := by rw [isDirty,hb]; rfl
    have howner : buf.owner = m.ownerOf b := by rw [ownerOf,hb]; rfl
    exact ⟨_,rfl,brelse_reload hview hdirty howner hsome hfree.2,hview,howner ▸ hfree.1,
      isSome_brelse⟩
  | none =>
    rw [hb] at h
    obtain ⟨m1,h1,h⟩ := bind_eq_ok.mp h
    obtain ⟨c,rfl,hc,hroom⟩ := bget_eq_ok h1
    split_ifs at h with hsize
    cases h
    have hview : m.view b = m.disk b := by rw [view,hb]
    have hdirty : m.isDirty b = false := by rw [isDirty,hb]; rfl
    have howner : m.ownerOf b = none := by rw [ownerOf,hb]; rfl
    refine ⟨_,rfl,⟨fun hclean => ?_,?_,?_,?_,?_⟩,hview.symm,howner,isSome_brelse⟩
    · refine (view_brelse { m with cache := c } b _).trans ?_
      rw [hc.view hclean,← hview,Function.update_eq_self]
    · refine (isDirty_brelse { m with cache := c } b _).trans ?_
      rw [hc.isDirty,← hdirty,Function.update_eq_self]
    · refine (ownerOf_brelse { m with cache := c } b _).trans ?_
      rw [hc.ownerOf,← howner,Function.update_eq_self]
    · exact fun hm => (hc.bounded hm).brelse hsize (.inr (hroom hm)) _
    · intro hup hr x
      refine (congrFun (isReading_brelse { m with cache := c } b _) x).trans ?_
      rcases eq_or_ne x b with rfl | hne
      · rw [Function.update_self]
      · rw [Function.update_of_ne hne]
        exact hc.unread hup hr x

theorem copy_eq_ok (h : m.copy src dst = .ok m') :
    ∃ c, m' = { m with cache := c }.bwrite dst (m.view src) ∧ m.Reload c ∧ src ≠ dst ∧
      (c dst).isSome := by
  obtain ⟨_,hne,h⟩ := bind_eq_ok.mp h
  rw [need_eq_ok] at hne
  obtain ⟨⟨_,m1⟩,h1,h⟩ := bind_eq_ok.mp h
  obtain ⟨c1,rfl,hc1,rfl,-,-⟩ := bread_eq_ok h1
  obtain ⟨⟨_,m2⟩,h2,h⟩ := bind_eq_ok.mp h
  obtain ⟨c2,rfl,hc2,-,-,hsome⟩ := bread_eq_ok h2
  cases h
  exact ⟨c2,rfl,hc1.trans hc2,hne,hsome⟩

theorem writeHead_eq_ok (h : m.writeHead sb = .ok m') :
    ∃ c, m' = { m with cache := c }.bwrite sb.logstart (encode m.lh (m.view sb.logstart)) ∧
      m.Reload c ∧ (c sb.logstart).isSome := by
  obtain ⟨⟨_,m1⟩,h1,h⟩ := bind_eq_ok.mp h
  obtain ⟨c,rfl,hc,rfl,-,hsome⟩ := bread_eq_ok h1
  cases h
  exact ⟨c,rfl,hc,hsome⟩

theorem readHead_eq_ok (h : m.readHead sb = .ok m') :
    ∃ c, m' = { m with cache := c, lh := header (m.view sb.logstart) } ∧ m.Reload c ∧
      headCount (m.view sb.logstart) ≤ logsize := by
  obtain ⟨⟨_,m1⟩,h1,h⟩ := bind_eq_ok.mp h
  obtain ⟨c,rfl,hc,rfl,-,-⟩ := bread_eq_ok h1
  simp only at h
  split_ifs at h with hn
  cases h
  exact ⟨c,rfl,hc,by omega⟩

theorem read_eq_ok (h : m.read b = .ok m') :
    m.phase = .up ∧ ∃ c, m' = { m with cache := c } ∧ m.Reload c := by
  obtain ⟨_,hup,h⟩ := bind_eq_ok.mp h
  rw [need_eq_ok] at hup
  obtain ⟨⟨_,m1⟩,h1,h⟩ := bind_eq_ok.mp h
  obtain ⟨c,rfl,hc,rfl,hown,hsome⟩ := bread_eq_ok h1
  cases h
  refine ⟨hup,_,rfl,⟨fun hclean => ?_,?_,?_,?_,fun hdown => absurd hup hdown⟩⟩
  · refine (view_setBuf { m with cache := c } b _).trans ?_
    rw [hc.view hclean,Function.update_eq_self]
  · refine (isDirty_setBuf { m with cache := c } b _).trans ?_
    exact (Function.update_eq_self b _).trans hc.isDirty
  · refine (ownerOf_setBuf { m with cache := c } b _).trans ?_
    rw [hc.ownerOf,← hown,Function.update_eq_self]
  · exact fun hm => (hc.bounded hm).setBuf hsome _

theorem release_eq_ok (h : m.release b = .ok m') :
    ∃ c, m' = { m with cache := c } ∧ m.Reload c := by
  unfold release at h
  split at h
  case h_2 => cases h
  case h_1 buf hb =>
    obtain ⟨_,-,h⟩ := bind_eq_ok.mp h
    cases h
    refine ⟨_,rfl,brelse_reload ?_ ?_ ?_ ?_ rfl⟩
    · rw [view,hb]
    · rw [isDirty,hb]
      rfl
    · rw [ownerOf,hb]
      rfl
    · rw [hb]
      rfl

inductive Effect (sb : Superblock) (m : Machine n) : Act n → Machine n → Prop
  | sleep {p : Fin n} (hup : m.phase = .up) (hpc : m.pc p = .out ∨ m.pc p = .begin)
      (hfull : m.committing = true ∨ m.lh.length + (m.outstanding + 1) * maxOpBlocks > logsize) :
      Effect sb m (.beginOp p) (m.setPc p .asleep)
  | enter {p : Fin n} (hup : m.phase = .up) (hpc : m.pc p = .out ∨ m.pc p = .begin)
      (hopen : m.committing = false)
      (hroom : m.lh.length + (m.outstanding + 1) * maxOpBlocks ≤ logsize) :
      Effect sb m (.beginOp p) ({ m with outstanding := m.outstanding + 1 }.setPc p (.op []))
  | modify {p : Fin n} {b : Nat} {data : Block} {wrote : List Nat} {c : Cache n}
      (hpc : m.pc p = .op wrote) (hc : m.Reload c) (hown : m.ownerOf b = none)
      (hsome : (c b).isSome) (hlog : m.lh.length < logsize)
      (hsize : (m.lh.length : Int) < sb.nlog - 1) (hout : 1 ≤ m.outstanding) :
      Effect sb m (.modify p b data)
        (({ m with cache := c }.setBuf b (some ⟨data, m.isDirty b, some p, false⟩)).setPc p
          (.logging wrote b))
  | absorb {p : Fin n} {b : Nat} {wrote : List Nat} (hpc : m.pc p = .logging wrote b)
      (hsome : (m.cache b).isSome) (hmem : b ∈ m.lh) :
      Effect sb m (.append p)
        ((m.setPc p (.op (noted wrote b))).brelse b ⟨m.view b, true, none, false⟩)
  | append {p : Fin n} {b : Nat} {wrote : List Nat} (hpc : m.pc p = .logging wrote b)
      (hsome : (m.cache b).isSome) (hmem : b ∉ m.lh) (hlog : m.lh.length < logsize) :
      Effect sb m (.append p)
        { (m.setPc p (.op (noted wrote b))).brelse b ⟨m.view b, true, none, false⟩ with
            lh := m.lh ++ [b] }
  | leave {p : Fin n} {wrote : List Nat} (hpc : m.pc p = .op wrote) (hopen : m.committing = false)
      (hmore : m.outstanding - 1 ≠ 0) :
      Effect sb m (.endOp p) ({ m with outstanding := m.outstanding - 1 }.setPc p .out).wakeup
  | last {p : Fin n} {wrote : List Nat} (hpc : m.pc p = .op wrote) (hopen : m.committing = false)
      (hlast : m.outstanding - 1 = 0) :
      Effect sb m (.endOp p)
        ({ m with outstanding := m.outstanding - 1, committing := true }.setPc p
          (.commit m.commitStart))
  | writeLog {p : Fin n} {tail b : Nat} {c : Cache n}
      (hpc : m.pc p = .commit (.writeLog tail)) (hb : m.lh[tail]? = some b) (hc : m.Reload c)
      (hne : b ≠ sb.slot tail) (hsome : (c (sb.slot tail)).isSome) :
      Effect sb m (.commit p)
        (({ m with cache := c }.bwrite (sb.slot tail) (m.view b)).setPc p
          (.commit (.writeLog (tail + 1))))
  | writeHead {p : Fin n} {tail : Nat} {c : Cache n}
      (hpc : m.pc p = .commit (.writeLog tail)) (hend : m.lh[tail]? = none) (hc : m.Reload c)
      (hsome : (c sb.logstart).isSome) :
      Effect sb m (.commit p)
        (({ m with cache := c }.bwrite sb.logstart (encode m.lh (m.view sb.logstart))).setPc p
          (.commit (.install 0)))
  | install {p : Fin n} {tail b : Nat} {c : Cache n}
      (hpc : m.pc p = .commit (.install tail)) (hb : m.lh[tail]? = some b) (hc : m.Reload c)
      (hne : sb.slot tail ≠ b) (hsome : (c b).isSome) :
      Effect sb m (.commit p)
        (({ m with cache := c }.bwrite b (m.view (sb.slot tail))).setPc p
          (.commit (.install (tail + 1))))
  | eraseHead {p : Fin n} {tail : Nat} {c : Cache n}
      (hpc : m.pc p = .commit (.install tail)) (hend : m.lh[tail]? = none) (hc : m.Reload c)
      (hsome : (c sb.logstart).isSome) :
      Effect sb m (.commit p)
        (({ m with lh := [], cache := c }.bwrite sb.logstart
          (encode [] (m.view sb.logstart))).setPc p (.commit .finish))
  | finish {p : Fin n} (hpc : m.pc p = .commit .finish) :
      Effect sb m (.commit p) ({ m with committing := false }.setPc p .out).wakeup
  | read {b : Nat} {c : Cache n} (hup : m.phase = .up) (hc : m.Reload c) :
      Effect sb m (.read b) { m with cache := c }
  | release {b : Nat} {c : Cache n} (hc : m.Reload c) :
      Effect sb m (.release b) { m with cache := c }
  | crash : Effect sb m .crash m.crash
  | readHead {c : Cache n} (hphase : m.phase = .readHead) (hc : m.Reload c)
      (hlog : headCount (m.view sb.logstart) ≤ logsize) :
      Effect sb m .recover
        { m with cache := c, lh := header (m.view sb.logstart), phase := .install 0 }
  | restore {tail b : Nat} {c : Cache n} (hphase : m.phase = .install tail)
      (hb : m.lh[tail]? = some b) (hc : m.Reload c) (hne : sb.slot tail ≠ b)
      (hsome : (c b).isSome) :
      Effect sb m .recover
        { { m with cache := c }.bwrite b (m.view (sb.slot tail)) with phase := .install (tail + 1) }
  | restored {tail : Nat} {c : Cache n} (hphase : m.phase = .install tail)
      (hend : m.lh[tail]? = none) (hc : m.Reload c) (hsome : (c sb.logstart).isSome) :
      Effect sb m .recover
        { { m with lh := [], cache := c }.bwrite sb.logstart (encode [] (m.view sb.logstart)) with
            phase := .up }

section Effects
variable {a : Act n}

theorem effect_beginOp (h : m.beginOp p = .ok m') : Effect sb m (.beginOp p) m' := by
  obtain ⟨_,hpc,h⟩ := bind_eq_ok.mp h
  obtain ⟨hup,hpc⟩ := need_eq_ok.mp hpc
  split_ifs at h with hcomm hfull
  · cases h
    exact .sleep hup hpc (.inl hcomm)
  · cases h
    exact .sleep hup hpc (.inr hfull)
  · cases h
    exact .enter hup hpc (by simpa using hcomm) (by omega)

theorem effect_modify (h : m.modify sb p b data = .ok m') : Effect sb m (.modify p b data) m' := by
  unfold modify at h
  split at h
  case h_2 => cases h
  case h_1 wrote hpc =>
    obtain ⟨⟨_,m1⟩,h1,h⟩ := bind_eq_ok.mp h
    obtain ⟨c,rfl,hc,-,hown,hsome⟩ := bread_eq_ok h1
    simp only at h
    split_ifs at h with hfull hout
    cases h
    rw [not_or] at hfull
    have hdirty : (c b).any (·.dirty) = m.isDirty b := congrFun hc.isDirty b
    rw [hdirty]
    exact .modify hpc hc hown hsome (by omega) (by omega) (by omega)

theorem effect_append (h : m.append p = .ok m') : Effect sb m (.append p) m' := by
  unfold append at h
  split at h
  case h_2 => cases h
  case h_1 wrote b hpc =>
    split at h
    case h_2 => cases h
    case h_1 buf hbuf =>
      have hview : buf.data = m.view b := by rw [view,hbuf]
      have hsome : (m.cache b).isSome := by rw [hbuf]; rfl
      simp only [hview] at h
      split_ifs at h with hmem hlog
      · cases h
        exact .absorb hpc hsome hmem
      · cases h
        exact .append hpc hsome hmem hlog

theorem effect_endOp (h : m.endOp p = .ok m') : Effect sb m (.endOp p) m' := by
  unfold endOp at h
  split at h
  case h_2 => cases h
  case h_1 wrote hpc =>
    simp only at h
    split_ifs at h with hcomm hlast
    · cases h
      exact .last hpc (by simpa using hcomm) hlast
    · cases h
      exact .leave hpc (by simpa using hcomm) hlast

theorem effect_commit (h : m.commit sb p = .ok m') : Effect sb m (.commit p) m' := by
  unfold commit at h
  split at h
  case h_1 tail hpc =>
    split at h
    · next b hb =>
      obtain ⟨m1,h1,h⟩ := bind_eq_ok.mp h
      obtain ⟨c,rfl,hc,hne,hsome⟩ := copy_eq_ok h1
      cases h
      exact .writeLog hpc hb hc hne hsome
    · next hend =>
      obtain ⟨m1,h1,h⟩ := bind_eq_ok.mp h
      obtain ⟨c,rfl,hc,hsome⟩ := writeHead_eq_ok h1
      cases h
      exact .writeHead hpc hend hc hsome
  case h_2 tail hpc =>
    split at h
    · next b hb =>
      obtain ⟨m1,h1,h⟩ := bind_eq_ok.mp h
      obtain ⟨c,rfl,hc,hne,hsome⟩ := copy_eq_ok h1
      cases h
      exact .install hpc hb hc hne hsome
    · next hend =>
      obtain ⟨m1,h1,h⟩ := bind_eq_ok.mp h
      obtain ⟨c,rfl,hc,hsome⟩ := writeHead_eq_ok h1
      cases h
      exact .eraseHead hpc hend ⟨hc.view,hc.isDirty,hc.ownerOf,hc.bounded,hc.unread⟩ hsome
  case h_3 hpc =>
    cases h
    exact .finish hpc
  case h_4 => cases h

theorem effect_recover (h : m.recover sb = .ok m') : Effect sb m .recover m' := by
  unfold recover at h
  split at h
  case h_1 hphase =>
    obtain ⟨m1,h1,h⟩ := bind_eq_ok.mp h
    obtain ⟨c,rfl,hc,hlog⟩ := readHead_eq_ok h1
    cases h
    exact .readHead hphase hc hlog
  case h_2 tail hphase =>
    split at h
    · next b hb =>
      obtain ⟨m1,h1,h⟩ := bind_eq_ok.mp h
      obtain ⟨c,rfl,hc,hne,hsome⟩ := copy_eq_ok h1
      cases h
      exact .restore hphase hb hc hne hsome
    · next hend =>
      obtain ⟨m1,h1,h⟩ := bind_eq_ok.mp h
      obtain ⟨c,rfl,hc,hsome⟩ := writeHead_eq_ok h1
      cases h
      exact .restored hphase hend ⟨hc.view,hc.isDirty,hc.ownerOf,hc.bounded,hc.unread⟩ hsome
  case h_3 => cases h

theorem step_effect (h : m.step sb a = .ok m') : Effect sb m a m' := by
  cases a with
  | beginOp p => exact effect_beginOp h
  | modify p b data => exact effect_modify h
  | append p => exact effect_append h
  | endOp p => exact effect_endOp h
  | commit p => exact effect_commit h
  | read b =>
    obtain ⟨hup,c,rfl,hc⟩ := read_eq_ok h
    exact .read hup hc
  | release b =>
    obtain ⟨c,rfl,hc⟩ := release_eq_ok h
    exact .release hc
  | crash =>
    cases h
    exact .crash
  | recover => exact effect_recover h

end Effects

end Machine
end Fs
