import Mathlib.Tactic
import Mathlib.Data.Fintype.Card
import OscAssignments.Cabs.Occupancy

namespace Cabs
open Runs Tally

variable {c : Config}

namespace State
variable {s t : State c} {r : RiderId c} {k : ServerId c}

structure StackIs (s : State c) (st : List (RiderId c)) : Prop where
  count : s.ridersPayingCount = st.length
  cells : ∀ i, s.ridersPaying i = if 0 ≤ i then st[i.toNat]? else none

def hasPaid (pc : RiderPc c) : Bool := pc = .paid

def servingFor (r : RiderId c) (pc : ServerPc c) : Bool := pc = .serving r

structure Ledger (s : State c) (st : List (RiderId c)) : Prop where
  stack : StackIs s st
  paid : ∀ r, st.count r + (s.popped.map Prod.snd).count r = (hasPaid (s.rider r)).toNat
  popped : ∀ r, (s.popped.map Prod.snd).count r = s.made.count r + tally (servingFor r) s.server
  left : s.ridersLeftToExit + s.made.length = c.ridersCount

inductive PayEffect (s : State c) (r : RiderId c) (t : State c) : Prop
  | keep : SamePayment s t → hasPaid (t.rider r) = hasPaid (s.rider r) → PayEffect s r t
  | pay : s.rider r = .posted → t = (s.push r).goto r .paid → PayEffect s r t

theorem signalTarget_payment {i : CabId c} : SamePayment s (s.signalTarget r i) := by
  rcases signalTarget_eq (s := s) (r := r) (i := i) with ⟨he,-⟩ | ⟨j',-,-,he⟩
  · rw [he]
    exact ⟨rfl,rfl,rfl,rfl,rfl,rfl⟩
  · rw [he]
    exact ⟨rfl,rfl,rfl,rfl,rfl,rfl⟩

theorem Moves.payEffect (h : Moves s r t) : PayEffect s r t := by
  cases h with
  | signal hpc =>
    obtain ⟨h1,h2,h3,h4,h5,h6⟩ := signalTarget_payment (s := s) (r := r)
    exact .keep ⟨h1,h2,h3,h4,h5,h6⟩ (by simp [hpc,hasPaid])
  | pay hpc => exact .pay hpc rfl
  | lock hpc => exact .keep ⟨rfl,rfl,rfl,rfl,rfl,rfl⟩ (by simp [hpc,hasPaid])
  | find hpc => exact .keep ⟨rfl,rfl,rfl,rfl,rfl,rfl⟩ (by simp [hpc,hasPaid])
  | refuse hpc => exact .keep ⟨rfl,rfl,rfl,rfl,rfl,rfl⟩ (by simp [hpc,hasPaid])
  | count hpc => exact .keep ⟨rfl,rfl,rfl,rfl,rfl,rfl⟩ (by simp [hpc,hasPaid])
  | board hpc => exact .keep ⟨rfl,rfl,rfl,rfl,rfl,rfl⟩ (by simp [hpc,hasPaid])
  | block hpc => exact .keep ⟨rfl,rfl,rfl,rfl,rfl,rfl⟩ (by simp [hpc,hasPaid])
  | relock hpc => exact .keep ⟨rfl,rfl,rfl,rfl,rfl,rfl⟩ (by simp [hpc,hasPaid])
  | clear hpc => exact .keep ⟨rfl,rfl,rfl,rfl,rfl,rfl⟩ (by simp [hpc,hasPaid])
  | giveUp hpc => exact .keep ⟨rfl,rfl,rfl,rfl,rfl,rfl⟩ (by simp [hpc,hasPaid])
  | retry hpc => exact .keep ⟨rfl,rfl,rfl,rfl,rfl,rfl⟩ (by simp [hpc,hasPaid])
  | finish hpc => exact .keep ⟨rfl,rfl,rfl,rfl,rfl,rfl⟩ (by simp [hpc,hasPaid])
  | lockEnd hpc => exact .keep ⟨rfl,rfl,rfl,rfl,rfl,rfl⟩ (by simp [hpc,hasPaid])
  | uncount hpc => exact .keep ⟨rfl,rfl,rfl,rfl,rfl,rfl⟩ (by simp [hpc,hasPaid])
  | vacate hpc => exact .keep ⟨rfl,rfl,rfl,rfl,rfl,rfl⟩ (by simp [hpc,hasPaid])
  | leave hpc => exact .keep ⟨rfl,rfl,rfl,rfl,rfl,rfl⟩ (by simp [hpc,hasPaid])
  | post hpc => exact .keep ⟨rfl,rfl,rfl,rfl,rfl,rfl⟩ (by simp [hpc,hasPaid])

theorem Ledger.same {st : List (RiderId c)} (hs : Ledger s st) (h : SamePayment s t)
    (hp : ∀ r, hasPaid (t.rider r) = hasPaid (s.rider r)) : Ledger t st := by
  obtain ⟨h1,h2,h3,h4,h5,h6⟩ := h
  refine ⟨⟨?_,?_⟩,?_,?_,?_⟩
  · rw [h2]
    exact hs.stack.count
  · rw [h1]
    exact hs.stack.cells
  · intro r
    rw [h5,hp r]
    exact hs.paid r
  · rw [h5,h6,h4]
    exact hs.popped
  · rw [h3,h6]
    exact hs.left

theorem StackIs.push {st : List (RiderId c)} (hs : StackIs s st) (r : RiderId c) :
    StackIs (s.push r) (st ++ [r]) := by
  refine ⟨?_,?_⟩
  · simp only [State.push,hs.count,List.length_append,List.length_singleton]
    push_cast
    rfl
  · intro i
    simp only [State.push,hs.count]
    rcases eq_or_ne i (st.length : Int) with rfl | hi
    · simp
    · rw [Function.update_of_ne hi,hs.cells i]
      split
      case isTrue h0 =>
        rw [List.getElem?_append]
        split
        · rfl
        · next hlt =>
          have : st.length < i.toNat := by omega
          rw [List.getElem?_eq_none (by omega),List.getElem?_eq_none (by simp; omega)]
      case isFalse => rfl

theorem Ledger.pay {st : List (RiderId c)} (hs : Ledger s st) (hr : s.rider r = .posted) :
    Ledger ((s.push r).goto r .paid) (st ++ [r]) := by
  have hstack := hs.stack.push r
  refine ⟨⟨hstack.count,hstack.cells⟩,?_,hs.popped,hs.left⟩
  intro j
  have hj := hs.paid j
  change (st ++ [r]).count j + (s.popped.map Prod.snd).count j =
    (hasPaid (Function.update s.rider r .paid j)).toNat
  rw [List.count_append]
  rcases eq_or_ne j r with rfl | hne
  · rw [hr] at hj
    rw [Function.update_self]
    simp only [hasPaid,List.count_singleton_self] at hj ⊢
    simp at hj ⊢
    omega
  · rw [Function.update_of_ne hne,← hj,List.count_singleton]
    simp [hne.symm]

theorem Ledger.moves {st : List (RiderId c)} (hs : Ledger s st) (h : Moves s r t) :
    ∃ st', Ledger t st' := by
  cases h.payEffect with
  | keep hsame hr =>
    refine ⟨st,hs.same hsame ?_⟩
    intro j
    rcases eq_or_ne j r with rfl | hj
    · exact hr
    · exact h.others hasPaid rfl hj
  | pay hr ht =>
    rw [ht]
    exact ⟨_,hs.pay hr⟩

theorem Ledger.wake {st : List (RiderId c)} (hs : Ledger s st) (hb : s.rider r = .blocked)
    (res : Wake) : Ledger (s.goto r (.waking res)) st := by
  refine hs.same ⟨rfl,rfl,rfl,rfl,rfl,rfl⟩ ?_
  intro j
  rw [goto_rider]
  rcases eq_or_ne j r with rfl | hj
  · rw [Function.update_self,hb]
    rfl
  · rw [Function.update_of_ne hj]

theorem tally_gotoServer (s : State c) (k : ServerId c) (pc : ServerPc c) (r : RiderId c) :
    tally (servingFor r) (Function.update s.server k pc) + (servingFor r (s.server k)).toNat =
      tally (servingFor r) s.server + (servingFor r pc).toNat := by
  have h := tally_change (p := servingFor r) (f := s.server) (g := Function.update s.server k pc)
    (i := k) fun j hj => by rw [Function.update_of_ne hj]
  rwa [Function.update_self] at h

theorem Ledger.goServer {st : List (RiderId c)} (hs : Ledger s st) {pc : ServerPc c} {n : Nat}
    (h : ∀ r, s.server k ≠ .serving r) (h' : ∀ r, pc ≠ .serving r) :
    Ledger ({ s with serversOpen := n }.gotoServer k pc) st := by
  refine ⟨⟨hs.stack.count,hs.stack.cells⟩,hs.paid,?_,hs.left⟩
  intro r
  have ht := tally_gotoServer s k pc r
  have h1 : servingFor r (s.server k) = false := decide_eq_false (h r)
  have h2 : servingFor r pc = false := decide_eq_false (h' r)
  rw [h1,h2] at ht
  have := hs.popped r
  change (s.popped.map Prod.snd).count r =
    s.made.count r + tally (servingFor r) (Function.update s.server k pc)
  omega

theorem StackIs.pop {st : List (RiderId c)} (hs : StackIs s st) (h0 : s.ridersPaying 0 ≠ none)
    (hr : s.ridersPaying (s.ridersPayingCount - 1) = some r) :
    ∃ st', st = st' ++ [r] ∧ ∀ i,
      Function.update s.ridersPaying (s.ridersPayingCount - 1) none i =
        if 0 ≤ i then st'[i.toNat]? else none := by
  have hne : st ≠ [] := by
    rintro rfl
    rw [hs.cells] at h0
    simp at h0
  have hpos : 0 < st.length := List.length_pos_of_ne_nil hne
  refine ⟨st.dropLast,?_,?_⟩
  · rw [hs.cells,hs.count,if_pos (by omega)] at hr
    have hlast : st.getLast hne = r := by
      rw [List.getLast_eq_getElem]
      have hidx : ((st.length : Int) - 1).toNat = st.length - 1 := by omega
      rw [hidx,List.getElem?_eq_getElem (by omega)] at hr
      exact Option.some.inj hr
    rw [← hlast,List.dropLast_concat_getLast]
  · intro i
    rw [hs.count]
    rcases eq_or_ne i ((st.length : Int) - 1) with rfl | hi
    · rw [Function.update_self,if_pos (by omega),List.getElem?_eq_none (by simp)]
    · rw [Function.update_of_ne hi,hs.cells i]
      split
      case isTrue h0 =>
        rw [List.getElem?_dropLast]
        split
        · rfl
        · rw [List.getElem?_eq_none (by omega)]
      case isFalse => rfl

theorem Ledger.take {st : List (RiderId c)} (hs : Ledger s st) (hk : s.server k = .pop)
    (h0 : s.ridersPaying 0 ≠ none) (hr : s.ridersPaying (s.ridersPayingCount - 1) = some r) :
    ∃ st', Ledger ({ s with
      ridersPaying := Function.update s.ridersPaying (s.ridersPayingCount - 1) none,
      ridersPayingCount := s.ridersPayingCount - 1,
      popped := s.popped ++ [(k,r)] }.gotoServer k (.serving r)) st' := by
  obtain ⟨st',rfl,hcells⟩ := hs.stack.pop h0 hr
  have hcount := hs.stack.count
  rw [List.length_append,List.length_singleton] at hcount
  refine ⟨st',⟨?_,hcells⟩,?_,?_,hs.left⟩
  · change s.ridersPayingCount - 1 = st'.length
    omega
  · intro j
    have hj := hs.paid j
    rw [List.count_append] at hj
    change st'.count j + ((s.popped ++ [(k,r)]).map Prod.snd).count j = _
    rw [List.map_append,List.count_append]
    simp only [List.map_cons,List.map_nil]
    change _ = (hasPaid (s.rider j)).toNat
    omega
  · intro j
    have hj := hs.popped j
    have ht := tally_gotoServer s k (.serving r) j
    have h1 : servingFor j (s.server k) = false := by
      rw [hk]
      rfl
    rw [h1] at ht
    change ((s.popped ++ [(k,r)]).map Prod.snd).count j =
      s.made.count j + tally (servingFor j) (Function.update s.server k (.serving r))
    rw [List.map_append,List.count_append]
    simp only [List.map_cons,List.map_nil,List.count_singleton]
    have h2 : (servingFor j (.serving r : ServerPc c)).toNat = if r == j then 1 else 0 := by
      rcases eq_or_ne r j with rfl | hne
      · simp [servingFor]
      · simp [servingFor,hne]
    simp only [Bool.toNat_false] at ht
    omega

theorem Ledger.settle {st : List (RiderId c)} (hs : Ledger s st) (hk : s.server k = .serving r) :
    Ledger ({ s with ridersLeftToExit := s.ridersLeftToExit - 1,
                     made := s.made ++ [r] }.gotoServer k .test) st := by
  refine ⟨⟨hs.stack.count,hs.stack.cells⟩,hs.paid,?_,?_⟩
  · intro j
    have hj := hs.popped j
    have ht := tally_gotoServer s k .test j
    change (s.popped.map Prod.snd).count j =
      (s.made ++ [r]).count j + tally (servingFor j) (Function.update s.server k .test)
    rw [List.count_append,List.count_singleton]
    have h1 : (servingFor j (s.server k)).toNat = if r == j then 1 else 0 := by
      rw [hk]
      rcases eq_or_ne r j with rfl | hne
      · simp [servingFor]
      · simp [servingFor,hne]
    have h2 : (servingFor j (.test : ServerPc c)).toNat = 0 := rfl
    omega
  · have hl := hs.left
    change s.ridersLeftToExit - 1 + ((s.made ++ [r]).length : Nat) = (c.ridersCount : Int)
    rw [List.length_append,List.length_singleton]
    push_cast
    omega

theorem Ledger.serves {st : List (RiderId c)} (hs : Ledger s st) (h : Serves s k t) :
    ∃ st', Ledger t st' := by
  cases h with
  | done hk => exact ⟨st,hs.goServer (by simp [hk]) (by simp)⟩
  | await hk => exact ⟨st,hs.goServer (by simp [hk]) (by simp)⟩
  | wake hk => exact ⟨st,hs.goServer (by simp [hk]) (by simp)⟩
  | stop hk => exact ⟨st,hs.goServer (by simp [hk]) (by simp)⟩
  | proceed hk => exact ⟨st,hs.goServer (by simp [hk]) (by simp)⟩
  | quit hk => exact ⟨st,hs.goServer (by simp [hk]) (by simp)⟩
  | take hk h0 hr => exact hs.take hk h0 hr
  | settle hk => exact ⟨st,hs.settle hk⟩

theorem Ledger.step {st : List (RiderId c)} (hs : Ledger s st) {a : Act c}
    (h : s.step a = .ok t) : ∃ st', Ledger t st' := by
  rcases step_cases h with ⟨r,-,h⟩ | ⟨r,res,hb,-,rfl⟩ | ⟨k,-,h⟩ | ⟨-,h,h'⟩
  · exact hs.moves h
  · exact ⟨st,hs.wake hb res⟩
  · exact hs.serves h
  · exact ⟨st,hs.same h' fun r => by rw [h.rider]⟩

theorem ledger_init (c : Config) : Ledger (init c) [] := by
  refine ⟨⟨rfl,?_⟩,?_,?_,?_⟩
  · intro i
    simp [init]
  · intro r
    simp [init,hasPaid]
  · intro r
    have hz : tally (servingFor r) (init c).server = 0 := tally_eq_zero.mpr fun _ => rfl
    rw [hz]
    rfl
  · simp [init]

theorem ledger_of_reach {ok : State c → Act c → Prop} (h : (service c).Reach ok s) :
    ∃ st, Ledger s st :=
  h.invariant (fun s => ∃ st, Ledger s st) ⟨[],ledger_init c⟩
    fun _ _ _ _ hs _ ht => hs.elim fun _ hs => hs.step ht

theorem Ledger.stack_nodup {st : List (RiderId c)} (hs : Ledger s st) : st.Nodup := by
  rw [List.nodup_iff_count_le_one]
  intro r
  have := hs.paid r
  have := Bool.toNat_le (hasPaid (s.rider r))
  omega

theorem Ledger.made_nodup {st : List (RiderId c)} (hs : Ledger s st) : s.made.Nodup := by
  rw [List.nodup_iff_count_le_one]
  intro r
  have := hs.paid r
  have := hs.popped r
  have := Bool.toNat_le (hasPaid (s.rider r))
  omega

theorem Ledger.all_paid {st : List (RiderId c)} (hs : Ledger s st)
    (h : s.ridersLeftToExit = 0) : st = [] ∧ ∀ r, s.rider r = .paid := by
  have hlen : s.made.length = c.ridersCount := by
    have := hs.left
    omega
  have hall : ∀ r, r ∈ s.made := by
    intro r
    have hcard : s.made.toFinset.card = Fintype.card (RiderId c) := by
      rw [List.toFinset_card_of_nodup hs.made_nodup,hlen,Fintype.card_fin]
    have huniv := (Finset.card_eq_iff_eq_univ s.made.toFinset).mp hcard
    rw [← List.mem_toFinset,huniv]
    exact Finset.mem_univ r
  have hone : ∀ r, st.count r = 0 ∧ hasPaid (s.rider r) = true := by
    intro r
    have hm : 0 < s.made.count r := List.count_pos_iff.mpr (hall r)
    have h1 := hs.popped r
    have h2 := hs.paid r
    have h3 := Bool.toNat_le (hasPaid (s.rider r))
    refine ⟨by omega,?_⟩
    cases hp : hasPaid (s.rider r) with
    | true => rfl
    | false =>
      rw [hp,Bool.toNat_false] at h2
      omega
  refine ⟨?_,fun r => of_decide_eq_true (hone r).2⟩
  apply List.eq_nil_iff_forall_not_mem.mpr
  intro r hr
  have := List.count_pos_iff.mpr hr
  have := (hone r).1
  omega

def keepsServer (s : State c) : Act c → Bool
  | .server k =>
    decide (s.server k ≠ .pop ∨ s.ridersPaying 0 ≠ none) ||
      decide (∃ k', k' ≠ k ∧ s.server k' ≠ .closed) || decide (∀ r, s.riderFinished r = true)
  | _ => true

structure Closing (s : State c) : Prop where
  finished : (∀ k, s.server k = .closed) → ∀ r, s.riderFinished r = true
  empty : (∀ k, s.server k = .closed) → s.ridersPaying 0 = none

theorem stack_empty {st : List (RiderId c)} (hs : StackIs s st) (h : s.ridersPaying 0 = none) :
    st = [] := by
  rw [hs.cells] at h
  simpa using h

theorem finished_moves (h : Moves s r t) : s.riderFinished r = false := by
  cases h with
  | lock hpc => simp [riderFinished,hpc]
  | find hpc => simp [riderFinished,hpc]
  | refuse hpc => simp [riderFinished,hpc]
  | count hpc => simp [riderFinished,hpc]
  | board hpc => simp [riderFinished,hpc]
  | block hpc => simp [riderFinished,hpc]
  | relock hpc => simp [riderFinished,hpc]
  | clear hpc => simp [riderFinished,hpc]
  | giveUp hpc => simp [riderFinished,hpc]
  | retry hpc => simp [riderFinished,hpc]
  | finish hpc => simp [riderFinished,hpc]
  | lockEnd hpc => simp [riderFinished,hpc]
  | uncount hpc => simp [riderFinished,hpc]
  | vacate hpc => simp [riderFinished,hpc]
  | signal hpc => simp [riderFinished,hpc]
  | leave hpc => simp [riderFinished,hpc]
  | post hpc => simp [riderFinished,hpc]
  | pay hpc => simp [riderFinished,hpc]

theorem Moves.server_eq (h : Moves s r t) : t.server = s.server := by
  cases h.payEffect with
  | keep hsame _ => exact hsame.server
  | pay _ ht =>
    rw [ht]
    rfl

theorem Closing.moves (hs : Closing s) (h : Moves s r t) : Closing t := by
  have hopen : ¬ ∀ k, t.server k = .closed := by
    intro hc
    rw [h.server_eq] at hc
    have := hs.finished hc r
    rw [finished_moves h] at this
    cases this
  exact ⟨fun hc => absurd hc hopen,fun hc => absurd hc hopen⟩

theorem Closing.wake (hs : Closing s) (hb : s.rider r = .blocked) (res : Wake) :
    Closing (s.goto r (.waking res)) := by
  have hopen : ¬ ∀ k, (s.goto r (.waking res)).server k = .closed := by
    intro hc
    have := hs.finished hc r
    simp [riderFinished,hb] at this
  exact ⟨fun hc => absurd hc hopen,fun hc => absurd hc hopen⟩

theorem closing_of_open (h : t.server k ≠ .closed) : Closing t :=
  ⟨fun hc => absurd (hc k) h,fun hc => absurd (hc k) h⟩

theorem closing_of_zero {st : List (RiderId c)} (hl : Ledger s st) (h : s.ridersLeftToExit = 0)
    (pc : ServerPc c) : Closing (s.gotoServer k pc) := by
  obtain ⟨rfl,hpaid⟩ := hl.all_paid h
  refine ⟨?_,?_⟩
  · intro _ r
    change decide (s.rider r = .gaveUp ∨ s.rider r = .paid) = true
    rw [hpaid r]
    simp
  · intro _
    change s.ridersPaying 0 = none
    rw [hl.stack.cells]
    simp

theorem Closing.serves {st : List (RiderId c)} (hl : Ledger s st)
    (hk : s.keepsServer (.server k) = true) (h : Serves s k t) : Closing t := by
  cases h with
  | done _ hz => exact closing_of_zero hl hz _
  | stop _ hz => exact closing_of_zero hl hz _
  | await => exact closing_of_open (k := k) (by simp [gotoServer])
  | wake => exact closing_of_open (k := k) (by simp [gotoServer])
  | proceed => exact closing_of_open (k := k) (by simp [gotoServer])
  | take => exact closing_of_open (k := k) (by simp [gotoServer])
  | settle => exact closing_of_open (k := k) (by simp [gotoServer])
  | quit hpop hz =>
    simp only [keepsServer,Bool.or_eq_true,decide_eq_true_eq] at hk
    rcases hk with (hk | ⟨k',hne,hk'⟩) | hfin
    · rcases hk with hk | hk
      · exact absurd hpop hk
      · exact absurd hz hk
    · apply closing_of_open (k := k')
      simp only [gotoServer,Function.update_of_ne hne]
      exact hk'
    · exact ⟨fun _ => hfin,fun _ => hz⟩

theorem Closing.step {st : List (RiderId c)} (hs : Closing s) (hl : Ledger s st) {a : Act c}
    (hk : s.keepsServer a = true) (h : s.step a = .ok t) : Closing t := by
  rcases step_cases h with ⟨r,-,hm⟩ | ⟨r,res,hb,-,rfl⟩ | ⟨k,rfl,hm⟩ | ⟨-,hb,hp⟩
  · exact hs.moves hm
  · exact hs.wake hb res
  · exact Closing.serves hl hk hm
  · refine ⟨?_,?_⟩
    · intro hc r
      rw [hp.server] at hc
      have := hs.finished hc r
      simpa only [riderFinished,hb.rider] using this
    · intro hc
      rw [hp.server] at hc
      rw [hp.ridersPaying]
      exact hs.empty hc

theorem closing_of_reach (hc : 0 < c.serversCount)
    (h : (service c).Reach (fun s a => s.keepsServer a = true) s) : Closing s := by
  have hboth : (∃ st, Ledger s st) ∧ Closing s := by
    refine h.invariant (fun s => (∃ st, Ledger s st) ∧ Closing s) ?_ ?_
    · refine ⟨⟨[],ledger_init c⟩,closing_of_open (k := ⟨0,hc⟩) ?_⟩
      intro hcl
      cases hcl
    · rintro s a t - ⟨⟨st,hl⟩,hs⟩ hk ht
      exact ⟨hl.step ht,hs.step hl hk ht⟩
  exact hboth.2

end State

structure StackOk (s : State c) : Prop where
  cells : ∀ i, s.ridersPaying i ≠ none ↔ 0 ≤ i ∧ i < s.ridersPayingCount
  nonneg : 0 ≤ s.ridersPayingCount
  bounded : s.ridersPayingCount ≤ c.ridersCount
  top : s.ridersPaying 0 ≠ none →
    0 ≤ s.ridersPayingCount - 1 ∧ s.ridersPayingCount - 1 < c.ridersCount ∧
      s.ridersPaying (s.ridersPayingCount - 1) ≠ none

theorem State.Ledger.stackOk {s : State c} {st : List (RiderId c)} (hs : s.Ledger st) :
    StackOk s := by
  have hcount := hs.stack.count
  have hle : st.length ≤ c.ridersCount := by
    have := hs.stack_nodup.length_le_card
    rwa [Fintype.card_fin] at this
  have hcells : ∀ i, s.ridersPaying i ≠ none ↔ 0 ≤ i ∧ i < s.ridersPayingCount := by
    intro i
    rw [hs.stack.cells i,hcount]
    split
    case isTrue h0 =>
      rw [ne_eq,List.getElem?_eq_none_iff]
      omega
    case isFalse h0 => simp [h0]
  refine ⟨hcells,by omega,by omega,?_⟩
  intro h0
  have hpos := (hcells 0).mp h0
  refine ⟨by omega,by omega,?_⟩
  rw [hcells]
  omega

structure AllFinished (s : State c) : Prop where
  riders : ∀ r, s.riderFinished r = true
  servers : ∀ k, s.server k = .closed
  main : s.main = .finished

def PaidOnce (s : State c) (r : RiderId c) : Prop :=
  (s.popped.map Prod.snd).count r = 1 ∧ s.made.count r = 1

theorem payments_settled (c : Config) :
    (∀ s, (service c).Reachable s → StackOk s) ∧
      (0 < c.serversCount → ∀ s, (service c).Reach (fun s a => s.keepsServer a = true) s →
        AllFinished s → ∀ r, s.rider r = .paid → PaidOnce s r) := by
  refine ⟨?_,?_⟩
  · intro s h
    obtain ⟨st,hs⟩ := State.ledger_of_reach h
    exact hs.stackOk
  · intro hc s h hfin r hr
    obtain ⟨st,hs⟩ := State.ledger_of_reach h
    have hclosing := State.closing_of_reach hc h
    have hst := State.stack_empty hs.stack (hclosing.empty hfin.servers)
    subst hst
    have hpaid := hs.paid r
    have hpopped := hs.popped r
    have hzero : tally (State.servingFor r) s.server = 0 := by
      rw [tally_eq_zero]
      intro k
      rw [hfin.servers k]
      rfl
    have hone : (State.hasPaid (s.rider r)).toNat = 1 := by
      rw [hr]
      rfl
    rw [hone,List.count_nil] at hpaid
    exact ⟨by omega,by omega⟩

def oneOfEach : Config := ⟨1,1,1,fun _ => .pool⟩

def theRider : Act oneOfEach := .rider (0 : Fin 1)

def theServer : Act oneOfEach := .server (0 : Fin 1)

theorem payment_settled_in_turn :
    PaidOnce ((service oneOfEach).after (List.replicate 12 theRider ++ List.replicate 6 theServer ++
      List.replicate 8 .main)) (0 : Fin 1) := by
  have hrun : ((service oneOfEach).checked (fun s a => s.keepsServer a = true)
      (service oneOfEach).init (List.replicate 12 theRider ++ List.replicate 6 theServer ++
        List.replicate 8 .main)).any (fun s => ((∀ r, s.riderFinished r = true) ∧
        (∀ k, s.server k = .closed) ∧ s.main = .finished) ∧ s.rider (0 : Fin 1) = .paid) = true := by
    decide +kernel
  obtain ⟨hr,hp⟩ := System.reach_checked hrun
  obtain ⟨⟨hriders,hservers,hmain⟩,hpaid⟩ := of_decide_eq_true hp
  exact (payments_settled oneOfEach).2 (by decide) _ hr ⟨hriders,hservers,hmain⟩ _ hpaid

theorem payment_lost :
    ¬ ∀ (c : Config) (s : State c), (service c).Reachable s →
      StackOk s ∧ (AllFinished s → ∀ r, s.rider r = .paid → PaidOnce s r) := by
  intro h
  have hrun : ((service oneOfEach).checked (fun _ _ => True) (service oneOfEach).init
      (List.replicate 11 theRider ++ List.replicate 4 theServer ++ [theRider] ++
        List.replicate 8 .main)).any (fun s => ((∀ r, s.riderFinished r = true) ∧
        (∀ k, s.server k = .closed) ∧ s.main = .finished) ∧ s.rider (0 : Fin 1) = .paid ∧
        s.made = []) = true := by decide +kernel
  obtain ⟨hr,hp⟩ := System.reach_checked hrun
  obtain ⟨⟨hriders,hservers,hmain⟩,hpaid,hnone⟩ := of_decide_eq_true hp
  have hcount := ((h oneOfEach _ hr).2 ⟨hriders,hservers,hmain⟩ _ hpaid).2
  rw [hnone] at hcount
  cases hcount

end Cabs
