import OscAssignments.Console.Readers

namespace Console
open Runs Counter Xv6

variable {n : Nat}

theorem Tty.key_ready (t : Tty) (c : UInt8) : t.ready <+: (t.key c).ready := by
  unfold key enter
  generalize (if c = carriage then newline else c) = x
  split_ifs <;> first | exact List.prefix_refl _ | exact List.prefix_append _ _

theorem Pc.holding_of_waits_wake {pc : Pc} (h : pc.wake.waits = true) : pc.holding = true := by
  cases pc <;> first | rfl | cases h

theorem Pc.waits_of_wake {pc : Pc} (h : pc.wake.waits = true) : pc.waits = true := by
  cases pc <;> first | rfl | cases h

namespace Machine
variable {m m' c : Machine n} {p q : Fin n} {a : Act n} {target k : Nat} {dst : List UInt8}

structure Calls (m : Machine n) : Prop where
  sum : ∀ p target k dst, (m.pc p).call = some (target,k,dst) → dst.length + k = target
  plain : ∀ p target k dst, (m.pc p).call = some (target,k,dst) →
    ∀ x ∈ dst, Tty.endsLine x = false

theorem Calls.wake (h : Calls m) (hm : ∀ q, (c.pc q).call = (m.pc q).call) : Calls c :=
  ⟨fun q target k dst hq => h.sum q target k dst ((hm q).symm.trans hq),
    fun q target k dst hq => h.plain q target k dst ((hm q).symm.trans hq)⟩

theorem Calls.setPc (h : Calls m) (hm : ∀ q, (c.pc q).call = (m.pc q).call) {pc : Pc}
    (hnew : ∀ target k dst, pc.call = some (target,k,dst) →
      dst.length + k = target ∧ ∀ x ∈ dst, Tty.endsLine x = false) : Calls (c.setPc p pc) := by
  have hall : ∀ q target k dst, ((c.setPc p pc).pc q).call = some (target,k,dst) →
      dst.length + k = target ∧ ∀ x ∈ dst, Tty.endsLine x = false := by
    intro q target k dst hq
    rcases eq_or_ne q p with rfl | hne
    · rw [setPc_pc,Function.update_self] at hq
      exact hnew target k dst hq
    · rw [setPc_pc,Function.update_of_ne hne,hm] at hq
      exact ⟨h.sum q target k dst hq,h.plain q target k dst hq⟩
  exact ⟨fun q target k dst hq => (hall q target k dst hq).1,
    fun q target k dst hq => (hall q target k dst hq).2⟩

theorem effect_calls (he : Effect m a m') (h : Calls m) : Calls m' := by
  have hsame : ∀ q, (m.pc q).call = (m.pc q).call := fun _ => rfl
  have hstay : ∀ {p : Fin n} {pc : Pc} {c : Machine n}, c.pc = m.pc → pc.call = (m.pc p).call →
      Calls (c.setPc p pc) := by
    intro p pc c hpcs hpc
    refine h.setPc (fun q => by rw [hpcs]) fun target k dst hq => ?_
    exact ⟨h.sum p target k dst (hpc.symm.trans hq),h.plain p target k dst (hpc.symm.trans hq)⟩
  have hback : ∀ {p : Fin n} {ret : Int} {dst : List UInt8} {c : Machine n}, c.pc = m.pc →
      Calls (c.setPc p (.user ret dst)) :=
    fun hpcs => h.setPc (fun q => by rw [hpcs]) nofun
  cases he with
  | key x hlock =>
    obtain ⟨-,-,⟨hpc,-⟩ | hpc⟩ := consoleintr_frame m x
    · exact h.wake fun q => by rw [hpc]
    · exact h.wake fun q => by rw [hpc,Pc.call_wake]
  | call target hp =>
    refine h.setPc hsame ?_
    rintro target' k dst ⟨⟩
    exact ⟨Nat.zero_add target,by simp⟩
  | kill p => exact hstay (c := { m with killed := _ }) rfl (Pc.call_wake _)
  | @lock p target k dst hpc hlock =>
    exact hstay (c := { m with lock := some p }) rfl (by rw [hpc]; rfl)
  | sleep hpc => exact hstay (c := m.unlock) rfl (by rw [hpc]; rfl)
  | all hpc => exact hback (c := m.unlock) rfl
  | killed hpc => exact hback (c := m.unlock) rfl
  | empty hpc => exact hstay rfl (by rw [hpc]; rfl)
  | putBack hpc => exact hback (c := m.unlock) rfl
  | eof hpc => exact hback (c := { m with r := m.r + 1 }.unlock) rfl
  | line hpc => exact hback (c := { m with r := m.r + 1 }.unlock) rfl
  | @copy p target k dst hpc hmore hready hplain =>
    have hcall : (m.pc p).call = some (target,k,dst) := by rw [hpc]; rfl
    have hsum := h.sum p target k dst hcall
    refine h.setPc (c := { m with r := m.r + 1 }) hsame ?_
    rintro target' k' dst' ⟨⟩
    refine ⟨by rw [List.length_append,List.length_singleton]; omega,fun x hx => ?_⟩
    rcases List.mem_append.mp hx with hx | hx
    · exact h.plain p target k dst hcall x hx
    · rw [List.mem_singleton.mp hx]
      exact hplain

def Waiting (m : Machine n) : Prop := ∀ p, (m.pc p).waits = true → m.r = m.w

theorem Waiting.setPc (h : Waiting m) {pc : Pc} (hm : c.pc = m.pc)
    (hbuf : (c.r = m.r ∧ c.w = m.w) ∨ m.r ≠ m.w) (hnew : pc.waits = true → c.r = c.w) :
    Waiting (c.setPc p pc) := by
  intro q hq
  change c.r = c.w
  rcases eq_or_ne q p with rfl | hne
  · rw [setPc_pc,Function.update_self] at hq
    exact hnew hq
  · rw [setPc_pc,Function.update_of_ne hne,hm] at hq
    have hold := h q hq
    rcases hbuf with ⟨hr,hw⟩ | hready
    · rw [hr,hw]
      exact hold
    · exact absurd hold hready

theorem effect_waiting (he : Effect m a m') (hl : Locked m) (h : Waiting m) : Waiting m' := by
  have hsame : (m.r = m.r ∧ m.w = m.w) ∨ m.r ≠ m.w := .inl ⟨rfl,rfl⟩
  cases he with
  | key x hlock =>
    obtain ⟨-,hr,⟨hpc,hw⟩ | hpc⟩ := consoleintr_frame m x
    · intro q hq
      rw [hpc] at hq
      rw [hr,hw]
      exact h q hq
    · intro q hq
      rw [hpc] at hq
      have hfree : (m.pc q).holding = false := by
        rw [Locked,hlock] at hl
        exact hl.not_holding q
      rw [Pc.holding_of_waits_wake hq] at hfree
      cases hfree
  | call target hp => exact h.setPc rfl hsame fun hw => by cases hw
  | kill p =>
    refine h.setPc (c := { m with killed := _ }) rfl hsame fun hw => ?_
    exact h p (Pc.waits_of_wake hw)
  | @lock p target k dst hpc hlock =>
    exact h.setPc (c := { m with lock := some p }) rfl hsame fun hw => by cases hw
  | @sleep p target k dst hpc =>
    exact h.setPc (c := m.unlock) rfl hsame fun _ => h p (by rw [hpc]; rfl)
  | all hpc => exact h.setPc (c := m.unlock) rfl hsame fun hw => by cases hw
  | killed hpc => exact h.setPc (c := m.unlock) rfl hsame fun hw => by cases hw
  | empty hpc hmore hempty => exact h.setPc rfl hsame fun _ => hempty
  | putBack hpc => exact h.setPc (c := m.unlock) rfl hsame fun hw => by cases hw
  | eof hpc hmore hready =>
    refine h.setPc (c := { m with r := m.r + 1 }.unlock) rfl (.inr hready) ?_
    intro hw
    cases hw
  | line hpc hmore hready =>
    refine h.setPc (c := { m with r := m.r + 1 }.unlock) rfl (.inr hready) ?_
    intro hw
    cases hw
  | copy hpc hmore hready =>
    exact h.setPc (c := { m with r := m.r + 1 }) rfl (.inr hready) fun hw => by cases hw

def commit (m : Machine n) : Act n → List UInt8
  | .key x => (m.tty.key x).ready.drop m.tty.ready.length
  | _ => []

def takes (ts : List (Machine n × Act n × Machine n)) : List UInt8 := emitted take ts

def commits (ts : List (Machine n × Act n × Machine n)) : List UInt8 :=
  ts.flatMap fun tr => tr.1.commit tr.2.1

theorem commits_snoc (ts : List (Machine n × Act n × Machine n)) (m : Machine n) (a : Act n)
    (m' : Machine n) : commits (ts ++ [(m,a,m')]) = commits ts ++ m.commit a := by
  rw [commits,List.flatMap_append]
  simp [commits]

theorem expected_ready
    (htake : ∀ x, m.take a = some x → m.tty.ready.head? = some x) :
    m.tty.ready ++ m.commit a = (m.take a).toList ++ (m.expected a).ready := by
  cases a with
  | key x =>
    obtain ⟨l,hl⟩ := m.tty.key_ready x
    change m.tty.ready ++ (m.tty.key x).ready.drop m.tty.ready.length = (m.tty.key x).ready
    rw [← hl,List.drop_left]
  | read p target => exact List.append_nil _
  | kill p => exact List.append_nil _
  | run p =>
    change m.tty.ready ++ [] = (m.take (.run p)).toList ++
      m.tty.ready.drop (m.take (.run p)).toList.length
    rw [List.append_nil]
    cases ht : m.take (.run p) with
    | none => rfl
    | some x =>
      have hx := htake x ht
      cases hr : m.tty.ready with
      | nil =>
        rw [hr] at hx
        cases hx
      | cons y l =>
        rw [hr] at hx
        cases hx
        rfl

variable {buf : Nat → UInt8}

theorem boot_input : (boot buf : Machine n).Shows [] ⟨[],[]⟩ :=
  ⟨Ring.nil buf,rfl,by simp,fun _ => rfl⟩

theorem path_inv {ts : List (Machine n × Act n × Machine n)}
    (h : (console n buf).Path (boot buf) ts m) :
    Locked m ∧ Calls m ∧ Waiting m ∧ m.Shows (takes ts) m.tty ∧
      takes ts ++ m.tty.ready = commits ts := by
  refine h.rule (fun ts m => Locked m ∧ Calls m ∧ Waiting m ∧ m.Shows (takes ts) m.tty ∧
    takes ts ++ m.tty.ready = commits ts) ?_ ?_
  · have htty : (boot buf : Machine n).tty = ⟨[],[]⟩ := boot_input.tty_eq
    rw [htty]
    exact ⟨fun q => iff_of_false (by simp [boot,Pc.holding]) (by simp [boot]),
      ⟨nofun,nofun⟩,nofun,boot_input,rfl⟩
  · rintro ts s a t - ⟨hl,hc,hw,hi,hs⟩ hstep
    have he : Effect s a t := step_effect hstep
    obtain ⟨hi',htake⟩ := shows_effect hi he
    have htakes : takes (ts ++ [(s,a,t)]) = takes ts ++ (s.take a).toList :=
      emitted_snoc take ts s a t
    refine ⟨effect_locked he hl,effect_calls he hc,effect_waiting he hl hw,?_,?_⟩
    · rw [htakes,hi'.tty_eq]
      exact hi'
    · rw [htakes,commits_snoc,hi'.tty_eq,List.append_assoc,← expected_ready htake,← hs,
        List.append_assoc]

theorem reach_inv (h : (console n buf).Reachable m) : ∃ g, m.Shows g m.tty := by
  refine h.invariant (fun m => ∃ g, m.Shows g m.tty) ⟨[],?_⟩ ?_
  · have htty : (boot buf : Machine n).tty = ⟨[],[]⟩ := boot_input.tty_eq
    change (boot buf : Machine n).Shows [] (boot buf : Machine n).tty
    rw [htty]
    exact boot_input
  · rintro s a t - ⟨g,hi⟩ - hstep
    obtain ⟨hi',-⟩ := shows_effect hi (step_effect hstep)
    exact ⟨g ++ (s.take a).toList,by rw [hi'.tty_eq]; exact hi'⟩

theorem console_refines_tty (h : (console n buf).Reachable m)
    (hstep : (console n buf).step m a = .ok m') :
    m'.tty = m.expected a ∧ (∀ x, m.take a = some x → m.tty.ready.head? = some x) ∧
      m'.tty.size ≤ inputBuf ∧ ∀ x ∈ m'.tty.pending, Tty.endsLine x = false := by
  obtain ⟨g,hi⟩ := reach_inv h
  obtain ⟨hi',htake⟩ := shows_effect hi (step_effect hstep)
  rw [hi'.tty_eq]
  exact ⟨rfl,htake,hi'.size_le,hi'.plain⟩

theorem console_refines_tty_run :
    let m := (console 1 fun _ => 0).after (consoleRun 0)
    let m' := (console 1 fun _ => 0).after (consoleRun 0 ++ [.run 0])
    m'.tty = m.expected (.run 0) ∧ (∀ x, m.take (.run 0) = some x → m.tty.ready.head? = some x) ∧
      m'.tty.size ≤ inputBuf ∧ ∀ x ∈ m'.tty.pending, Tty.endsLine x = false :=
  console_refines_tty (System.reachable_after (by decide +kernel))
    (System.step_after (by decide +kernel))

theorem console_stream {ts : List (Machine n × Act n × Machine n)}
    (h : (console n buf).Path (boot buf) ts m) :
    takes ts ++ m.tty.ready = commits ts ∧
      (∀ p, (m.pc p).waits = true → m.tty.ready = []) ∧
        (m.tty.ready = [] → m.tty.size < inputBuf) := by
  obtain ⟨-,-,hw,hi,hs⟩ := path_inv h
  refine ⟨hs,fun p hp => hi.r_eq_w.mp (hw p hp),fun hnil => ?_⟩
  refine lt_of_le_of_ne hi.size_le fun hfull => ?_
  have hpending := hi.full hfull
  rw [Tty.size,hnil,hpending] at hfull
  cases hfull

theorem console_stream_run :
    let ts := (console 1 fun _ => 0).transitions (boot fun _ => 0) (consoleRun 0)
    let m := (console 1 fun _ => 0).after (consoleRun 0)
    takes ts ++ m.tty.ready = commits ts ∧
      (∀ p, (m.pc p).waits = true → m.tty.ready = []) ∧
        (m.tty.ready = [] → m.tty.size < inputBuf) :=
  console_stream (System.path_run (by decide +kernel))

theorem read_result {ts : List (Machine n × Act n × Machine n)} {ret : Int} {dst' : List UInt8}
    (h : (console n buf).Path (boot buf) ts m) (hpc : m.pc p = .read target k dst)
    (hstep : (console n buf).step m (.run p) = .ok m') (hret : m'.pc p = .user ret dst') :
    (ret = -1 ∧ m.killed p = true ∧ m.tty.ready = []) ∨
      ret = dst'.length ∧ dst'.length ≤ target ∧ C 'D' ∉ dst' ∧ newline ∉ dst'.dropLast ∧
        (dst'.length = target ∨ dst'.getLast? = some newline ∨
          m.tty.ready.head? = some (C 'D') ∧ (dst' = [] ↔ m.take (.run p) = some (C 'D'))) := by
  obtain ⟨-,hc,-,hi,-⟩ := path_inv h
  have hcall : (m.pc p).call = some (target,k,dst) := by rw [hpc]; rfl
  have hsum := hc.sum p target k dst hcall
  have hplain := hc.plain p target k dst hcall
  have heof : C 'D' ∉ dst := by
    intro hmem
    exact absurd (hplain _ hmem) (by decide)
  have hline : newline ∉ dst := by
    intro hmem
    exact absurd (hplain _ hmem) (by decide)
  have he : Effect m (.run p) m' := step_effect hstep
  cases he with
  | lock hpc' => rw [hpc] at hpc'; cases hpc'
  | sleep hpc' => rw [hpc] at hpc'; cases hpc'
  | all hpc' =>
    rw [hpc] at hpc'
    cases hpc'
    rw [setPc_pc,Function.update_self] at hret
    cases hret
    rw [Nat.add_zero] at hsum
    exact .inr ⟨by rw [hsum]; rfl,hsum.le,heof,fun hm => hline (List.mem_of_mem_dropLast hm),
      .inl hsum⟩
  | killed hpc' hmore hempty hkilled =>
    rw [setPc_pc,Function.update_self] at hret
    cases hret
    exact .inl ⟨rfl,hkilled,hi.r_eq_w.mp hempty⟩
  | empty hpc' =>
    rw [setPc_pc,Function.update_self] at hret
    cases hret
  | putBack hpc' hmore hready hd hsome =>
    rw [hpc] at hpc'
    cases hpc'
    rw [setPc_pc,Function.update_self] at hret
    cases hret
    obtain ⟨rest,hcons,-⟩ := hi.pop hready
    refine .inr ⟨by omega,by omega,heof,fun hm => hline (List.mem_of_mem_dropLast hm),
      .inr (.inr ⟨by rw [hcons,hd]; rfl,iff_of_false ?_ ?_⟩)⟩
    · rintro rfl
      rw [List.length_nil] at hsum
      omega
    · rw [take,hpc]
      simp [hd,hsome]
  | eof hpc' hmore hready hd hnone =>
    rw [hpc] at hpc'
    cases hpc'
    rw [setPc_pc,Function.update_self] at hret
    cases hret
    obtain ⟨rest,hcons,-⟩ := hi.pop hready
    have hnil : dst = [] := List.eq_nil_of_length_eq_zero (by omega)
    refine .inr ⟨by omega,by omega,heof,fun hm => hline (List.mem_of_mem_dropLast hm),
      .inr (.inr ⟨by rw [hcons,hd]; rfl,iff_of_true hnil ?_⟩)⟩
    rw [take,hpc]
    simp [hd,hmore,hready,hnone]
  | line hpc' hmore hready hnl =>
    rw [hpc] at hpc'
    cases hpc'
    rw [setPc_pc,Function.update_self] at hret
    cases hret
    rw [hnl]
    refine .inr ⟨?_,?_,?_,?_,.inr (.inl (by simp))⟩
    · rw [List.length_append,List.length_singleton]
      omega
    · rw [List.length_append,List.length_singleton]
      omega
    · rw [List.mem_append,List.mem_singleton,not_or]
      exact ⟨heof,by decide⟩
    · rw [List.dropLast_concat]
      exact hline
  | copy hpc' =>
    rw [setPc_pc,Function.update_self] at hret
    cases hret

theorem read_result_run :
    let m := (console 1 fun _ => 0).after (consoleRun 0)
    ((3 : Int) = -1 ∧ m.killed 0 = true ∧ m.tty.ready = []) ∨
      (3 : Int) = ([97,99,newline] : List UInt8).length ∧
        ([97,99,newline] : List UInt8).length ≤ 10 ∧ C 'D' ∉ [97,99,newline] ∧
        newline ∉ ([97,99,newline] : List UInt8).dropLast ∧
        (([97,99,newline] : List UInt8).length = 10 ∨
          ([97,99,newline] : List UInt8).getLast? = some newline ∨
          m.tty.ready.head? = some (C 'D') ∧
            (([97,99,newline] : List UInt8) = [] ↔ m.take (.run 0) = some (C 'D'))) := by
  have hpc : ((console 1 fun _ => 0).after (consoleRun 0)).pc 0 = .read 10 8 [97,99] := by
    decide +kernel
  exact read_result (System.path_run (by decide +kernel)) hpc (System.step_after (by decide +kernel))
    (by decide +kernel)

end Machine

end Console
