import Mathlib.Tactic
import OscAssignments.Shell.Line
import OscAssignments.Shell.Args

namespace Shell.Setenv
open Runs Tokens CString Line

def scanArgs {α : Type} (txt : α → Bytes) : Scan → List α → List α
  | _, [] => []
  | s, x :: rest =>
    let s' := s.take (txt x)
    if s.args.length < s'.args.length then x :: scanArgs txt s' rest else scanArgs txt s' rest

def trimAll : List Nat → Buffer → List Nat × Buffer
  | [], m => ([],m)
  | p :: args, m =>
    let (p,m) := trimAt isspace m p
    let (args,m) := trimAll args m
    (p :: args,m)

def dropOperators {α : Type} (txt : α → Bytes) : Nat → Nat → List α → Except Fault (List α)
  | 0, _, args => .ok args
  | n + 1, i, args =>
    match args[i]? with
    | none => .ok args
    | some arg =>
      if isOperator (txt arg) then
        if args.length < 2 then .error .outOfBounds
        else dropOperators txt n (i + 1) ((args.take i ++ args.drop (i + 2)).take (args.length - 2))
      else dropOperators txt n (i + 1) args

def clean {α : Type} (txt : α → Bytes) (args : List α) : Except Fault (List α) :=
  let args := args.eraseP fun x => txt x == Args.amp
  dropOperators txt args.length 0 args

def readArgs (m : Buffer) (command : Nat) : Except Fault (List Nat × Buffer) :=
  let (tokens,m) := strtokLoop ([9,32].contains ·) (fun m p => ([p],m)) m.length m command
  let args := scanArgs (text m) .start tokens
  if maxArgs < args.length then .error .outOfBounds
  else do
    let (args,m) := trimAll args m
    let args ← clean (text m) args
    .ok (args,m)

inductive Entry
  | string (s : Bytes)
  | here (p : Nat)
  deriving DecidableEq

def Entry.text (m : Buffer) : Entry → Bytes
  | .string s => s
  | .here p => CString.text m p

def Entry.named (m : Buffer) (name : Bytes) (e : Entry) : Bool :=
  (name ++ [61]).isPrefixOf (e.text m)

def putenv (m : Buffer) (string : Nat) : List Entry → List Entry
  | [] => [.here string]
  | e :: environ =>
    if e.named m ((text m string).takeWhile (· ≠ 61)) then .here string :: environ
    else e :: putenv m string environ

def getenv (m : Buffer) (environ : List Entry) (name : Bytes) : Option Bytes :=
  if name = [] then none
  else (environ.find? (Entry.named m name)).map fun e => (e.text m).drop (name.length + 1)

def append (m : Buffer) (p : Nat) (s : Bytes) : Except Fault Buffer :=
  match strcat m p s with
  | none => .error .outOfBounds
  | some m => .ok m

def setenv (m : Buffer) (environ : List Entry) (args : List Nat) :
    Except Fault (Buffer × List Entry) :=
  if args.length < 2 ∨ 3 < args.length then .ok (m,environ)
  else
    match args[1]? with
    | none => .error .outOfBounds
    | some var => do
      let value := (args[2]?.map (text m)).getD []
      let m ← append m var [61]
      let m ← append m var value
      .ok (m,putenv m var environ)

def execSetenv (opens : Redirect → Bytes → Bool) (m : Buffer) (environ : List Entry)
    (command : Nat) : Except Fault (Buffer × List Entry) := do
  let parsed ← parse (text m command)
  let (args,m) ← readArgs m command
  if parsed.redirects.all fun r => opens r.1 r.2 then setenv m environ args else .ok (m,environ)

section Pairs
variable {α β : Type} {txt : α → Bytes} {txt' : β → Bytes}

theorem scanArgs_map (f : α → β) (l : List α) (s : Scan) (h : ∀ x ∈ l, txt' (f x) = txt x) :
    scanArgs txt' s (l.map f) = (scanArgs txt s l).map f := by
  induction l generalizing s with
  | nil => rfl
  | cons x l ih =>
    have hrest := fun s => ih s fun y hy => h y (List.mem_cons_of_mem x hy)
    rw [List.map_cons,scanArgs,scanArgs]
    simp only [h x List.mem_cons_self,hrest]
    split <;> rfl

theorem scanArgs_sublist (txt : α → Bytes) (l : List α) (s : Scan) :
    (scanArgs txt s l).Sublist l := by
  induction l generalizing s with
  | nil => exact .slnil
  | cons x l ih =>
    rw [scanArgs]
    split
    · exact (ih _).cons_cons x
    · exact (ih _).cons x

theorem removed_sublist (l : List α) (i : Nat) :
    ((l.take i ++ l.drop (i + 2)).take (l.length - 2)).Sublist l := by
  have hdrop : (l.drop (i + 2)).Sublist (l.drop i) := by
    rw [← List.drop_drop]
    exact List.drop_sublist _ _
  have happ := (List.Sublist.refl (l.take i)).append hdrop
  rw [List.take_append_drop] at happ
  exact (List.take_sublist _ _).trans happ

theorem dropOperators_map (f : α → β) (n : Nat) :
    ∀ {i : Nat} {l : List α}, (∀ x ∈ l, txt' (f x) = txt x) →
      dropOperators txt' n i (l.map f) = (dropOperators txt n i l).map (List.map f) := by
  induction n with
  | zero =>
    intro i l _
    rfl
  | succ n ih =>
    intro i l h
    rw [dropOperators,dropOperators,List.getElem?_map]
    rcases hget : l[i]? with _ | arg
    · rfl
    · have harg := h arg (List.mem_of_getElem? hget)
      have hrest := ih (i := i + 1) fun x hx => h x ((removed_sublist l i).subset hx)
      simp only [Option.map_some,harg,List.length_map]
      split
      · split
        · rfl
        · rw [← hrest,← List.map_take,← List.map_drop,← List.map_append,← List.map_take]
      · exact ih h

theorem dropOperators_sublist (n : Nat) :
    ∀ {i : Nat} {l r : List α}, dropOperators txt n i l = .ok r → r.Sublist l := by
  induction n with
  | zero =>
    intro i l r h
    cases h
    exact .refl _
  | succ n ih =>
    intro i l r h
    rw [dropOperators] at h
    split at h
    · cases h
      exact .refl _
    · split at h
      · split at h
        · cases h
        · exact (ih h).trans (removed_sublist l i)
      · exact ih h

theorem eraseP_congr {f g : α → Bool} {l : List α} (h : ∀ x ∈ l, f x = g x) :
    l.eraseP f = l.eraseP g := by
  induction l with
  | nil => rfl
  | cons x l ih =>
    rw [List.eraseP_cons,List.eraseP_cons,h x List.mem_cons_self,
      ih fun y hy => h y (List.mem_cons_of_mem x hy)]

theorem clean_map (f : α → β) {l : List α} (h : ∀ x ∈ l, txt' (f x) = txt x) :
    clean txt' (l.map f) = (clean txt l).map (List.map f) := by
  have herase : (l.map f).eraseP (fun y => txt' y == Args.amp) =
      (l.eraseP fun x => txt x == Args.amp).map f := by
    rw [List.eraseP_map]
    congr 1
    exact eraseP_congr fun x hx => congrArg (· == Args.amp) (h x hx)
  rw [clean,clean]
  simp only [herase,List.length_map]
  exact dropOperators_map f _ fun x hx => h x (List.eraseP_subset hx)

theorem clean_sublist {l r : List α} (h : clean txt l = .ok r) : r.Sublist l :=
  (dropOperators_sublist _ h).trans List.eraseP_sublist

theorem scanArgs_args (txt : α → Bytes) (l : List α) (s : Scan) :
    ((l.map txt).foldl Scan.take s).args = s.args ++ (scanArgs txt s l).map txt := by
  induction l generalizing s with
  | nil => simp [scanArgs]
  | cons x l ih =>
    rw [List.map_cons,List.foldl_cons,ih,scanArgs]
    rcases Args.take_args s (txt x) with hkeep | hpush
    · rw [hkeep,if_neg (lt_irrefl _)]
    · rw [hpush,if_pos (by simp)]
      simp

end Pairs

theorem dropOperators_id (n : Nat) :
    ∀ {i : Nat} {l : List Bytes}, dropOperators id n i l = Shell.dropOperators n i l := by
  induction n with
  | zero =>
    intro i l
    rfl
  | succ n ih =>
    intro i l
    rw [dropOperators,Shell.dropOperators]
    rcases l[i]? with _ | arg
    · rfl
    · simp only [ih,id]

def trimSpan (x : Nat × Bytes) : Nat × Bytes :=
  (x.1 + (x.2.takeWhile isspace).length,trim x.2)

def stored (o : Nat) (c : Bytes) : List (Nat × Bytes) :=
  scanArgs Prod.snd .start (spans ([9,32].contains ·) 100 o c)

def argSpans (o : Nat) (c : Bytes) : Except Fault (List (Nat × Bytes)) :=
  clean Prod.snd ((stored o c).map trimSpan)

theorem stored_texts (o : Nat) {c : Bytes} (hlen : c.length < 100) :
    ((strtok [9,32] c).foldl Scan.take .start).args = (stored o c).map Prod.snd := by
  rw [strtok,← spans_texts (p := o) 100 hlen,scanArgs_args]
  rfl

theorem parse_ok {c : Bytes} {q : Parsed} (h : parse c = .ok q) :
    ((strtok [9,32] c).foldl Scan.take .start).args.length ≤ maxArgs ∧
      clean id (((strtok [9,32] c).foldl Scan.take .start).args.map trim) = .ok q.args := by
  unfold parse at h
  generalize (strtok [9,32] c).foldl Scan.take Scan.start = s at h ⊢
  simp only at h
  split at h
  · cases h
  · next hfit =>
    obtain ⟨rest,hrest,hq⟩ := bind_eq_ok.mp h
    cases hq
    refine ⟨not_lt.mp hfit,?_⟩
    rw [clean]
    simp only [dropOperators_id,id,← List.erase_eq_eraseP']
    exact hrest

theorem argSpans_texts {c : Bytes} {q : Parsed} (o : Nat) (hlen : c.length < 100)
    (h : parse c = .ok q) : ∃ l, argSpans o c = .ok l ∧ l.map Prod.snd = q.args := by
  have hclean := (parse_ok h).2
  have hsnd : (((stored o c).map trimSpan).map Prod.snd) = ((stored o c).map Prod.snd).map trim := by
    rw [List.map_map,List.map_map]
    rfl
  have hmap : clean id (((stored o c).map trimSpan).map Prod.snd) =
      (argSpans o c).map (List.map Prod.snd) := clean_map Prod.snd fun x _ => rfl
  rw [stored_texts o hlen,← hsnd,hmap] at hclean
  rcases hl : argSpans o c with e | l
  · rw [hl] at hclean
    cases hclean
  · rw [hl] at hclean
    exact ⟨l,rfl,Except.ok.inj hclean⟩

theorem visits_token : Visits (fun m p => ([p],m)) (fun x => [x]) := by
  intro m p w h _
  refine ⟨m,rfl,.refl _ _ _,?_,?_,List.pairwise_singleton _ _⟩
  · intro x hx
    rw [List.mem_singleton.mp hx]
    exact h
  · intro x hx
    rw [List.mem_singleton.mp hx]
    exact ⟨le_rfl,le_rfl⟩

theorem trimAll_spec {l : List (Nat × Bytes)} :
    ∀ {m : Buffer} {a b : Nat}, Laid m a b l →
      ∃ m', trimAll (l.map Prod.fst) m = ((l.map trimSpan).map Prod.fst,m') ∧
        Within a b m m' ∧ Laid m' a b (l.map trimSpan) := by
  induction l with
  | nil =>
    intro m a b _
    exact ⟨m,rfl,.refl _ _ _,.nil _ _ _⟩
  | cons x l ih =>
    intro m a b h
    obtain ⟨hbefore,hordered⟩ := List.pairwise_cons.mp h.ordered
    have hx := h.inside x List.mem_cons_self
    have hlen := trim_length_le x.2
    obtain ⟨m1,htrim,hw1,hholds⟩ := trimAt_spec isspace (h.holds x List.mem_cons_self)
    have hrest : Laid m1 (x.1 + x.2.length + 1) b l := by
      refine ⟨?_,?_,hordered⟩
      · intro y hy
        have hlt : x.1 + x.2.length < y.1 := hbefore y hy
        exact (h.holds y (List.mem_cons_of_mem x hy)).within hw1 (.inr hlt.le)
      · exact fun y hy => ⟨hbefore y hy,(h.inside y (List.mem_cons_of_mem x hy)).2⟩
    obtain ⟨m2,hall,hw2,hlaid2⟩ := ih hrest
    have hone : Laid m2 x.1 (x.1 + x.2.length) [trimSpan x] := by
      refine ⟨?_,?_,List.pairwise_singleton _ _⟩
      · intro y hy
        rw [List.mem_singleton.mp hy]
        refine hholds.within hw2 (.inl ?_)
        rw [show Tokens.trim isspace x.2 = trim x.2 from rfl]
        omega
      · intro y hy
        rw [List.mem_singleton.mp hy,trimSpan]
        simp only
        omega
    refine ⟨m2,?_,?_,?_⟩
    · simp only [List.map_cons,trimAll,htrim,hall]
      rfl
    · exact (hw1.mono hx.1 hx.2).trans (hw2.mono (by omega) le_rfl)
    · exact (hone.append hlaid2 (.inl (Nat.lt_succ_self _)) (by omega) (by omega)).mono hx.1 le_rfl

theorem readArgs_spec {m : Buffer} {o : Nat} {c : Bytes} {l : List (Nat × Bytes)}
    (hm : m.length = 100) (h : Holds m o c) (hfit : (stored o c).length ≤ maxArgs)
    (hl : argSpans o c = .ok l) :
    ∃ m', readArgs m o = .ok (l.map Prod.fst,m') ∧ Within o (o + c.length) m m' ∧
      Laid m' o (o + c.length) l := by
  obtain ⟨m1,hloop,hw1,hlaid1⟩ := strtokLoop_spec (d := ([9,32].contains ·)) (by decide)
    visits_token m.length h
  rw [List.flatMap_singleton',hm] at hloop hlaid1
  have hstored : scanArgs (text m1) .start ((spans ([9,32].contains ·) 100 o c).map Prod.fst) =
      (stored o c).map Prod.fst :=
    scanArgs_map Prod.fst _ _ fun x hx => (hlaid1.holds x hx).text_eq
  have hsub : Laid m1 o (o + c.length) (stored o c) := hlaid1.sublist (scanArgs_sublist _ _ _)
  obtain ⟨m2,htrim,hw2,hlaid2⟩ := trimAll_spec hsub
  have hclean : clean (text m2) (((stored o c).map trimSpan).map Prod.fst) =
      .ok (l.map Prod.fst) := by
    have hmap : clean (text m2) (((stored o c).map trimSpan).map Prod.fst) =
        (argSpans o c).map (List.map Prod.fst) :=
      clean_map Prod.fst fun x hx => (hlaid2.holds x hx).text_eq
    rw [hmap,hl]
    rfl
  refine ⟨m2,?_,hw1.trans hw2,hlaid2.sublist (clean_sublist hl)⟩
  rw [readArgs,hm,hloop]
  simp only [hstored]
  rw [if_neg (by rw [List.length_map]; omega),htrim,hclean]
  rfl

theorem putenv_name_le (var value : Bytes) :
    (var ++ 61 :: value).takeWhile (· ≠ 61) ++ [61] <+: var ++ [61] := by
  induction var with
  | nil => simp
  | cons c var ih =>
    rw [List.cons_append,List.takeWhile_cons]
    rcases eq_or_ne c 61 with rfl | hc
    · simp
    · simpa [hc] using ih

theorem getenv_putenv {m : Buffer} {p : Nat} {var value : Bytes} (hne : var ≠ [])
    (h : text m p = var ++ 61 :: value) (environ : List Entry) :
    getenv m (putenv m p environ) var = some value := by
  have hhere : (Entry.here p).named m var = true := by
    rw [Entry.named,List.isPrefixOf_iff_prefix,Entry.text,h,List.append_cons var 61 value]
    exact List.prefix_append _ _
  have hfind : (putenv m p environ).find? (Entry.named m var) = some (.here p) := by
    induction environ with
    | nil => rw [putenv,List.find?_cons_of_pos hhere]
    | cons e environ ih =>
      rw [putenv]
      split
      · rw [List.find?_cons_of_pos hhere]
      · next hother =>
        rw [List.find?_cons_of_neg,ih]
        intro hnamed
        apply hother
        rw [Entry.named,List.isPrefixOf_iff_prefix] at hnamed ⊢
        rw [h]
        exact (putenv_name_le var value).trans hnamed
  rw [getenv,if_neg hne,hfind,Option.map_some,Entry.text,h]
  simp

theorem getenv_nil (m : Buffer) (environ : List Entry) : getenv m environ [] = none := if_pos rfl

section Append
variable {m : Buffer} {p : Nat} {s : Bytes}

theorem append_spec (h : Holds m p s) {t : Bytes} (ht : 0 ∉ t)
    (hfit : p + s.length + t.length < m.length) :
    ∃ m', append m p t = .ok m' ∧ Holds m' p (s ++ t) ∧
      Within (p + s.length) (p + s.length + t.length + 1) m m' := by
  obtain ⟨m',hrun,hholds,hw⟩ := strcat_spec h ht hfit
  refine ⟨m',?_,hholds,hw⟩
  rw [append,hrun]

theorem append_overrun (h : Holds m p s) {t : Bytes} (hover : m.length ≤ p + s.length + t.length) :
    append m p t = .error .outOfBounds := by
  rw [append,strcat_none h hover]

end Append

def given (value : Option (Nat × Bytes)) : Bytes := (value.map Prod.snd).getD []

section Set
variable {m : Buffer} {a b : Nat} {x var : Nat × Bytes} {value : Option (Nat × Bytes)}

theorem setenv_eq (h : Laid m a b (x :: var :: value.toList)) (environ : List Entry) :
    setenv m environ ((x :: var :: value.toList).map Prod.fst) =
      (append m var.1 [61] >>= fun m => append m var.1 (given value) >>= fun m =>
        .ok (m,putenv m var.1 environ)) := by
  cases value with
  | none => rfl
  | some v =>
    have hv := (h.holds v (by simp)).text_eq
    rw [setenv,if_neg (by simp)]
    simp only [Option.toList_some,List.map_cons,List.getElem?_cons_succ,List.getElem?_cons_zero,
      Option.map_some,hv,List.map_nil]
    rfl

theorem given_noNul (h : Laid m a b (x :: var :: value.toList)) : 0 ∉ given value := by
  cases value with
  | none => exact List.not_mem_nil
  | some v => exact (h.holds v (by simp)).noNul

theorem setenv_spec (h : Laid m a b (x :: var :: value.toList)) (environ : List Entry)
    (hfit : var.1 + var.2.length + (given value).length + 1 < m.length) :
    ∃ m', setenv m environ ((x :: var :: value.toList).map Prod.fst) =
        .ok (m',putenv m' var.1 environ) ∧
      Holds m' var.1 (var.2 ++ 61 :: given value) ∧
      Within (var.1 + var.2.length) (var.1 + var.2.length + (given value).length + 2) m m' := by
  have hvar := h.holds var (by simp)
  obtain ⟨m1,hrun1,hholds1,hw1⟩ := append_spec hvar (t := [61]) (by decide)
    (by rw [List.length_singleton]; omega)
  have hlen1 : var.1 + (var.2 ++ [61]).length + (given value).length < m1.length := by
    rw [hw1.length,List.length_append,List.length_singleton]
    omega
  obtain ⟨m2,hrun2,hholds2,hw2⟩ := append_spec hholds1 (given_noNul h) hlen1
  rw [List.append_assoc,List.singleton_append] at hholds2
  rw [List.length_append] at hw2
  rw [List.length_singleton] at hw1 hw2
  refine ⟨m2,?_,hholds2,?_⟩
  · rw [setenv_eq h,hrun1,ok_bind,hrun2,ok_bind]
  · exact (hw1.mono le_rfl (by omega)).trans (hw2.mono (by omega) (by omega))

theorem setenv_overrun (h : Laid m a b (x :: var :: value.toList)) (environ : List Entry)
    (hover : m.length ≤ var.1 + var.2.length + 1) :
    setenv m environ ((x :: var :: value.toList).map Prod.fst) = .error .outOfBounds := by
  rw [setenv_eq h,append_overrun (h.holds var (by simp)) (t := [61]) hover]
  rfl

theorem given_inside (h : Laid m a b (x :: var :: value.toList)) (hv : value ≠ none) :
    var.1 + var.2.length + (given value).length + 1 ≤ b := by
  cases value with
  | none => exact absurd rfl hv
  | some v =>
    have hordered := (List.pairwise_cons.mp h.ordered).2
    have hbefore : var.1 + var.2.length < v.1 := (List.pairwise_cons.mp hordered).1 v (by simp)
    have hin := (h.inside v (by simp)).2
    change var.1 + var.2.length + v.2.length + 1 ≤ b
    omega

end Set

structure Valid (opens : Redirect → Bytes → Bool) (command : Nat) (c : Bytes) (var : Nat × Bytes)
    (value : Option (Nat × Bytes)) : Prop where
  plain : isArrow c = false ∧ countPipes c = 0
  parsed : ∃ q, parse c = .ok q ∧ q.cmd.map dispatch = some .setenv ∧
    (q.redirects.all fun r => opens r.1 r.2) = true
  args : ∃ x, argSpans command c = .ok (x :: var :: value.toList)

structure Intact (s m : Buffer) (commands : List Nat) : Prop where
  length : m.length = s.length
  texts : ∀ p ∈ commands, text m p = text s p

def Follow (m : Buffer) (b : Nat) (later : List Nat) : Prop :=
  ∀ p ∈ later, b < p ∧ text m p ≠ [] ∧ Holds m p (text m p)

def Keeps (opens : Redirect → Bytes → Bool) (m : Buffer) (environ : List Entry) (command : Nat)
    (later : List Nat) (var value : Bytes) : Prop :=
  ∃ m' environ', execSetenv opens m environ command = .ok (m',environ') ∧
    getenv m' environ' var = some value ∧ ∀ p ∈ later, text m' p = text m p

section Line
variable {opens : Redirect → Bytes → Bool} {m m' : Buffer} {environ environ' : List Entry}
  {command : Nat} {later : List Nat} {c : Bytes} {var : Nat × Bytes} {value : Option (Nat × Bytes)}

theorem not_keeps_of_error {e : Fault} (h : execSetenv opens m environ command = .error e)
    (name string : Bytes) : ¬Keeps opens m environ command later name string := by
  rintro ⟨m',environ',hrun,-⟩
  rw [h] at hrun
  cases hrun

theorem not_keeps_of_text (h : execSetenv opens m environ command = .ok (m',environ')) {p : Nat}
    (hp : p ∈ later) (hne : text m' p ≠ text m p) (name string : Bytes) :
    ¬Keeps opens m environ command later name string := by
  rintro ⟨m'',environ'',hrun,-,htexts⟩
  rw [h] at hrun
  cases hrun
  exact hne (htexts p hp)

theorem execSetenv_reads (hm : m.length = 100) (hc : Holds m command c)
    (hv : Valid opens command c var value) :
    ∃ x m', (∀ environ, execSetenv opens m environ command =
        setenv m' environ ((x :: var :: value.toList).map Prod.fst)) ∧
      Within command (command + c.length) m m' ∧
      Laid m' command (command + c.length) (x :: var :: value.toList) := by
  obtain ⟨q,hparse,-,hopens⟩ := hv.parsed
  obtain ⟨x,hargs⟩ := hv.args
  have hlt := hc.lt_length
  have hfit : (stored command c).length ≤ maxArgs := by
    have hfits := (parse_ok hparse).1
    rwa [stored_texts command (by omega),List.length_map] at hfits
  obtain ⟨m',hread,hw,hlaid⟩ := readArgs_spec hm hc hfit hargs
  refine ⟨x,m',?_,hw,hlaid⟩
  intro environ
  rw [execSetenv,hc.text_eq,hparse,ok_bind,hread,ok_bind]
  exact if_pos hopens

def Clears (later : List Nat) (var : Nat × Bytes) (value : Option (Nat × Bytes)) : Prop :=
  var.1 + var.2.length + (given value).length + 1 < 100 ∧
    ∀ p ∈ later, var.1 + var.2.length + (given value).length + 1 < p

theorem keeps_of_clears (hm : m.length = 100) (hc : Holds m command c)
    (hlater : Follow m (command + c.length) later)
    (hv : Valid opens command c var value) (hne : var.2 ≠ []) (hclear : Clears later var value)
    (environ : List Entry) : Keeps opens m environ command later var.2 (given value) := by
  obtain ⟨x,m1,hexec,hw1,hlaid⟩ := execSetenv_reads hm hc hv
  obtain ⟨m2,hset,hholds,hw2⟩ := setenv_spec hlaid environ (by rw [hw1.length,hm]; exact hclear.1)
  refine ⟨m2,_,(hexec environ).trans hset,getenv_putenv hne hholds.text_eq environ,?_⟩
  intro p hp
  obtain ⟨hbehind,-,hp1⟩ := hlater p hp
  exact ((hp1.within hw1 (.inr hbehind.le)).within hw2 (.inr (hclear.2 p hp))).text_eq

theorem clears_of_value {m₁ : Buffer} {b : Nat} {x : Nat × Bytes}
    (hlaid : Laid m₁ command b (x :: var :: value.toList)) (hb : b < 100)
    (hbehind : ∀ p ∈ later, b < p) (hv : value ≠ none) : Clears later var value := by
  have hinside := given_inside hlaid hv
  refine ⟨by omega,?_⟩
  intro p hp
  have hlt := hbehind p hp
  omega

theorem clears_of_end {b : Nat} (hvar : var.1 + var.2.length ≤ b) (hb : b < 100)
    (hbehind : ∀ p ∈ later, b < p)
    (h : var.1 + var.2.length < b ∨ b + 1 < 100 ∧ b + 1 ∉ later) : Clears later var none := by
  change var.1 + var.2.length + 0 + 1 < 100 ∧ ∀ p ∈ later, var.1 + var.2.length + 0 + 1 < p
  rcases h with hinside | ⟨hroom,hnext⟩
  · refine ⟨by omega,?_⟩
    intro p hp
    have hlt := hbehind p hp
    omega
  · refine ⟨by omega,?_⟩
    intro p hp
    have hlt := hbehind p hp
    have hother : p ≠ b + 1 := fun he => hnext (he ▸ hp)
    omega

theorem not_keeps_at_end (hm : m.length = 100) (hc : Holds m command c)
    (hlater : Follow m (command + c.length) later)
    (hv : Valid opens command c var none) (heq : var.1 + var.2.length = command + c.length)
    (hnext : command + c.length + 1 < 100 → command + c.length + 1 ∈ later)
    (environ : List Entry) (name string : Bytes) :
    ¬Keeps opens m environ command later name string := by
  obtain ⟨x,m1,hexec,hw1,hlaid⟩ := execSetenv_reads hm hc hv
  have hm1 : m1.length = 100 := hw1.length.trans hm
  rcases lt_or_ge (command + c.length + 1) 100 with hroom | hfull
  · obtain ⟨m2,hset,hholds,-⟩ := setenv_spec hlaid environ (by rw [hm1,heq]; exact hroom)
    have hnul : text m2 (command + c.length + 1) = [] := by
      rw [← List.append_nil (var.2 ++ 61 :: given none)] at hholds
      have htail := hholds.right.text_eq
      rwa [List.length_append,← Nat.add_assoc,heq] at htail
    refine not_keeps_of_text ((hexec environ).trans hset) (hnext hroom) ?_ name string
    rw [hnul]
    exact (hlater _ (hnext hroom)).2.1.symm
  · have hover := setenv_overrun hlaid environ (by rw [hm1,heq]; exact hfull)
    exact not_keeps_of_error ((hexec environ).trans hover) name string

theorem keeps_iff (hm : m.length = 100) (hc : Holds m command c)
    (hlater : Follow m (command + c.length) later)
    (hv : Valid opens command c var value) (environ : List Entry) :
    Keeps opens m environ command later var.2 (given value) ↔
      var.2 ≠ [] ∧ (value ≠ none ∨ var.1 + var.2.length < command + c.length ∨
        command + c.length + 1 < 100 ∧ command + c.length + 1 ∉ later) := by
  obtain ⟨x,m1,-,-,hlaid⟩ := execSetenv_reads hm hc hv
  have hvar := (hlaid.inside var (by simp)).2
  have hend : command + c.length < 100 := hm ▸ hc.lt_length
  have hbehind : ∀ p ∈ later, command + c.length < p := fun p hp => (hlater p hp).1
  constructor
  · intro hkeeps
    refine ⟨?_,?_⟩
    · intro hnil
      obtain ⟨m',environ',-,hget,-⟩ := hkeeps
      rw [hnil,getenv_nil] at hget
      cases hget
    · by_contra hno
      simp only [not_or,not_and,not_not,not_lt] at hno
      obtain ⟨rfl,hle,hnext⟩ := hno
      exact not_keeps_at_end hm hc hlater hv (by omega) hnext environ _ _ hkeeps
  · rintro ⟨hne,hcond⟩
    refine keeps_of_clears hm hc hlater hv hne ?_ environ
    rcases eq_or_ne value none with rfl | hvalue
    · exact clears_of_end hvar hend hbehind (hcond.resolve_left fun h => h rfl)
    · exact clears_of_value hlaid hend hbehind hvalue

end Line

theorem setenv_keeps_line_iff {stream rest : Bytes} {commands before later : List Nat}
    {command : Nat} {s m : Buffer} (hread : takeInput stream = .ok (commands,s,rest))
    (hat : commands = before ++ command :: later) (hm : Intact s m (command :: later))
    {opens : Redirect → Bytes → Bool} {var : Nat × Bytes} {value : Option (Nat × Bytes)}
    (hv : Valid opens command (text s command) var value) (environ : List Entry) :
    Keeps opens m environ command later var.2 (given value) ↔
      var.2 ≠ [] ∧ (value ≠ none ∨
        var.1 + var.2.length < command + (text s command).length ∨
        command + (text s command).length + 1 < 100 ∧
          command + (text s command).length + 1 ∉ later) := by
  obtain ⟨hs,l,rfl,hlaid,hne⟩ := takeInput_ok hread
  obtain ⟨l₁,l₂,rfl,-,hrest⟩ := List.map_eq_append_iff.mp hat
  obtain ⟨x,l₃,rfl,rfl,rfl⟩ := List.map_eq_cons_iff.mp hrest
  have hm100 : m.length = 100 := hm.length.trans hs
  have hholds : ∀ y ∈ x :: l₃, Holds m y.1 y.2 := by
    intro y hy
    have hy' : y ∈ l₁ ++ x :: l₃ := List.mem_append_right l₁ hy
    have htext : text m y.1 = y.2 :=
      (hm.texts y.1 (List.mem_map_of_mem hy)).trans (hlaid.holds y hy').text_eq
    have hin := (hlaid.inside y hy').2
    rw [← htext]
    refine .of_text ?_
    rw [htext]
    omega
  have hx : text s x.1 = x.2 := (hlaid.holds x (by simp)).text_eq
  rw [hx] at hv ⊢
  refine keeps_iff hm100 (hholds x List.mem_cons_self) ?_ hv environ
  intro p hp
  obtain ⟨y,hy,rfl⟩ := List.mem_map.mp hp
  have hy' := hholds y (List.mem_cons_of_mem x hy)
  have hordered := (List.pairwise_append.mp hlaid.ordered).2.1
  refine ⟨(List.pairwise_cons.mp hordered).1 y hy,?_,?_⟩
  · rw [hy'.text_eq]
    exact hne y (List.mem_append_right l₁ (List.mem_cons_of_mem x hy))
  · rw [hy'.text_eq]
    exact hy'

def bufferOf (stream : Bytes) : Buffer :=
  ((takeInput stream).toOption.map fun r => r.2.1).getD []

def withValue : Bytes := ascii ['s','e','t','e','n','v',' ','a',' ','b',';','l','s','\n']

theorem valid_withValue :
    Valid (fun _ _ => true) 0 (text (bufferOf withValue) 0) (7,[97]) (some (9,[98])) := by
  have hparse : parse (text (bufferOf withValue) 0) =
      .ok ⟨some (ascii ['s','e','t','e','n','v']),[ascii ['s','e','t','e','n','v'],[97],[98]],
        false,[],[],[]⟩ := by decide +kernel
  exact ⟨by decide +kernel,⟨_,hparse,by decide +kernel,by decide +kernel⟩,
    (0,ascii ['s','e','t','e','n','v']),by decide +kernel⟩

theorem setenv_keeps_line_ls :
    Keeps (fun _ _ => true) (bufferOf withValue) [] 0 [11] [97] [98] := by
  have hread : takeInput withValue = .ok ([0,11],bufferOf withValue,[]) := by decide +kernel
  have hat : [0,11] = [] ++ 0 :: [11] := rfl
  exact (setenv_keeps_line_iff hread hat ⟨rfl,fun _ _ => rfl⟩ valid_withValue []).mpr
    ⟨by decide,.inl (by decide)⟩

def withoutValue : Bytes := ascii ['s','e','t','e','n','v',' ','a',';','l','s','\n']

theorem valid_withoutValue :
    Valid (fun _ _ => true) 0 (text (bufferOf withoutValue) 0) (7,[97]) none := by
  have hparse : parse (text (bufferOf withoutValue) 0) =
      .ok ⟨some (ascii ['s','e','t','e','n','v']),[ascii ['s','e','t','e','n','v'],[97]],
        false,[],[],[]⟩ := by decide +kernel
  exact ⟨by decide +kernel,⟨_,hparse,by decide +kernel,by decide +kernel⟩,
    (0,ascii ['s','e','t','e','n','v']),by decide +kernel⟩

theorem setenv_empties_next :
    takeInput withoutValue = .ok ([0,9],bufferOf withoutValue,[]) ∧
      Valid (fun _ _ => true) 0 (text (bufferOf withoutValue) 0) (7,[97]) none ∧
      text (bufferOf withoutValue) 9 = ascii ['l','s'] ∧
      (execSetenv (fun _ _ => true) (bufferOf withoutValue) [] 0).toOption.map
        (fun r => text r.1 9) = some [] ∧
      ¬Keeps (fun _ _ => true) (bufferOf withoutValue) [] 0 [9] [97] [] := by
  have hbefore : text (bufferOf withoutValue) 9 = ascii ['l','s'] := by decide +kernel
  have hafter : (execSetenv (fun _ _ => true) (bufferOf withoutValue) [] 0).toOption.map
      (fun r => text r.1 9) = some [] := by decide +kernel
  refine ⟨by decide +kernel,valid_withoutValue,hbefore,hafter,?_⟩
  rcases hrun : execSetenv (fun _ _ => true) (bufferOf withoutValue) [] 0 with e | ⟨m',environ'⟩
  · exact not_keeps_of_error hrun _ _
  · rw [hrun] at hafter
    have hnul : text m' 9 = [] := Option.some.inj hafter
    refine not_keeps_of_text hrun List.mem_cons_self ?_ _ _
    rw [hbefore,hnul]
    decide

end Shell.Setenv
