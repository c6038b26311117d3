import Mathlib.Tactic
import Mathlib.Computability.Language

namespace User.Grep
open Computability

abbrev Byte := UInt8

def caret : Byte := 94
def dollar : Byte := 36
def dot : Byte := 46
def newline : Byte := 10

def starFrom (here : List Byte → Bool) (c : Byte) : List Byte → Bool
  | [] => here []
  | t :: text => here (t :: text) || ((t = c || c = dot) && starFrom here c text)

def matchhere : List Byte → List Byte → Bool
  | [], _ => true
  | c :: 42 :: re, text => starFrom (matchhere re) c text
  | c :: re, text =>
    if c = dollar ∧ re = [] then text.isEmpty
    else match text with
      | [] => false
      | t :: text => (c = dot || c = t) && matchhere re text

def matchstar (c : Byte) (re text : List Byte) : Bool := starFrom (matchhere re) c text

def matchAnywhere (re : List Byte) : List Byte → Bool
  | [] => matchhere re []
  | t :: text => matchhere re (t :: text) || matchAnywhere re text

def matchText (re text : List Byte) : Bool :=
  if re.head? = some caret then matchhere re.tail text else matchAnywhere re text

def strchr : List Byte → Byte → Option Nat
  | [], _ => none
  | b :: s, c => if b = 0 then none else if b = c then some 0 else (strchr s c).map (· + 1)

def scan (pattern : List Byte) : Nat → List Byte → List Byte × List Byte
  | 0, p => ([],p)
  | n + 1, p =>
    match strchr p newline with
    | none => ([],p)
    | some q =>
      let (out,p') := scan pattern n (p.drop (q + 1))
      ((if matchText pattern (p.take q) then p.take (q + 1) else []) ++ out,p')

def bufSize : Nat := 1024

def readSome (room : Nat) : List (List Byte) → List Byte × List (List Byte)
  | [] => ([],[])
  | s :: rest => if s.length ≤ room then (s,rest) else (s.take room,s.drop room :: rest)

def grepFrom (pattern : List Byte) : Nat → List Byte → List (List Byte) → List Byte
  | 0, _, _ => []
  | n + 1, kept, input =>
    let (got,input) := readSome (bufSize - kept.length - 1) input
    if got = [] then []
    else
      let buf := kept ++ got
      let (out,p) := scan pattern (buf.length + 1) buf
      out ++ grepFrom pattern n (if p.length = buf.length then [] else p) input

def grep (pattern : List Byte) (input : List (List Byte)) : List Byte :=
  grepFrom pattern (input.flatten.length + 1) [] input

inductive Item where
  | once (c : Byte)
  | star (c : Byte)
  deriving DecidableEq

def items : List Byte → List Item
  | [] => []
  | c :: 42 :: re => .star c :: items re
  | c :: re => if c = dollar ∧ re = [] then [] else .once c :: items re

def anchored : List Byte → Bool
  | [] => false
  | _ :: 42 :: re => anchored re
  | c :: re => if c = dollar ∧ re = [] then true else anchored re

def symbol (c : Byte) : Language Byte := {w | ∃ b, w = [b] ∧ (c = dot ∨ c = b)}

def Item.lang : Item → Language Byte
  | .once c => symbol c
  | .star c => (symbol c)∗

def ending (fixed : Bool) : Language Byte := if fixed then 1 else ⊤

def hereLang (re : List Byte) : Language Byte :=
  ((items re).map Item.lang).prod * ending (anchored re)

def lang (re : List Byte) : Language Byte :=
  if re.head? = some caret then hereLang re.tail else ⊤ * hereLang re

section Matching
variable {here : List Byte → Bool} {L : Language Byte} {c : Byte} {re text : List Byte}

theorem mem_symbol_mul {w : List Byte} :
    w ∈ symbol c * L ↔ ∃ t u, w = t :: u ∧ (c = dot ∨ c = t) ∧ u ∈ L := by
  rw [Language.mem_mul]
  constructor
  · rintro ⟨_,⟨t,rfl,hc⟩,u,hu,rfl⟩
    exact ⟨t,u,rfl,hc,hu⟩
  · rintro ⟨t,u,rfl,hc,hu⟩
    exact ⟨[t],⟨t,rfl,hc⟩,u,hu,rfl⟩

theorem kstar_mul_eq : (symbol c)∗ * L = L + symbol c * ((symbol c)∗ * L) := by
  conv_lhs => rw [← Language.one_add_self_mul_kstar_eq_kstar,add_mul,one_mul,mul_assoc]

theorem starFrom_iff (h : ∀ w, here w = true ↔ w ∈ L) (w : List Byte) :
    starFrom here c w = true ↔ w ∈ (symbol c)∗ * L := by
  induction w with
  | nil =>
    rw [starFrom,h,kstar_mul_eq,Language.mem_add,mem_symbol_mul]
    simp
  | cons t w ih =>
    rw [starFrom,kstar_mul_eq,Language.mem_add,mem_symbol_mul,Bool.or_eq_true,h,Bool.and_eq_true,ih,
      Bool.or_eq_true,decide_eq_true_eq,decide_eq_true_eq]
    refine or_congr_right ?_
    constructor
    · rintro ⟨ht,hw⟩
      exact ⟨t,w,rfl,ht.symm.imp_right Eq.symm,hw⟩
    · rintro ⟨_,_,heq,hc,hw⟩
      obtain ⟨rfl,rfl⟩ := List.cons.inj heq
      exact ⟨hc.symm.imp_left Eq.symm,hw⟩

theorem hereLang_star : hereLang (c :: 42 :: re) = (symbol c)∗ * hereLang re :=
  mul_assoc _ _ _

theorem hereLang_once (hstar : ∀ re', re = 42 :: re' → False) (hend : ¬ (c = dollar ∧ re = [])) :
    hereLang (c :: re) = symbol c * hereLang re := by
  rw [hereLang,items,anchored,if_neg hend,if_neg hend]
  · exact mul_assoc _ _ _
  · exact hstar
  · exact hstar

theorem hereLang_dollar : hereLang [dollar] = 1 := by
  rw [hereLang,items,anchored,if_pos ⟨rfl,rfl⟩,if_pos ⟨rfl,rfl⟩]
  · exact one_mul _
  · simp
  · simp

theorem matchhere_iff (re text : List Byte) : matchhere re text = true ↔ text ∈ hereLang re := by
  induction re using items.induct generalizing text with
  | case1 =>
    refine iff_of_true rfl ?_
    rw [hereLang]
    exact ⟨[],rfl,text,trivial,rfl⟩
  | case2 c re ih =>
    rw [hereLang_star]
    exact starFrom_iff ih text
  | case3 c re hstar hend =>
    obtain ⟨rfl,rfl⟩ := hend
    rw [hereLang_dollar,Language.mem_one,← List.isEmpty_iff]
    cases text with
    | nil => rw [matchhere.eq_3 _ _ hstar,if_pos ⟨rfl,rfl⟩]
    | cons t text => rw [matchhere.eq_4 _ _ _ _ hstar,if_pos ⟨rfl,rfl⟩]
  | case4 c re hstar hend ih =>
    rw [hereLang_once hstar hend,mem_symbol_mul]
    cases text with
    | nil =>
      rw [matchhere.eq_3 _ _ hstar,if_neg hend]
      simp
    | cons t text =>
      rw [matchhere.eq_4 _ _ _ _ hstar,if_neg hend]
      simp [ih]

theorem matchAnywhere_iff (re text : List Byte) :
    matchAnywhere re text = true ↔ text ∈ ⊤ * hereLang re := by
  rw [Language.mem_mul]
  induction text with
  | nil =>
    rw [matchAnywhere,matchhere_iff]
    constructor
    · exact fun h => ⟨[],trivial,[],h,rfl⟩
    · rintro ⟨u,-,v,hv,huv⟩
      obtain ⟨rfl,rfl⟩ := List.append_eq_nil_iff.mp huv
      exact hv
  | cons t text ih =>
    rw [matchAnywhere,Bool.or_eq_true,matchhere_iff,ih]
    constructor
    · rintro (h | ⟨u,-,v,hv,rfl⟩)
      · exact ⟨[],trivial,_,h,rfl⟩
      · exact ⟨t :: u,trivial,v,hv,rfl⟩
    · rintro ⟨u,-,v,hv,huv⟩
      cases u with
      | nil => exact .inl (huv ▸ hv)
      | cons b u =>
        obtain ⟨-,rfl⟩ := List.cons.inj huv
        exact .inr ⟨u,trivial,v,hv,rfl⟩

theorem matchText_iff_lang (re text : List Byte) : matchText re text = true ↔ text ∈ lang re := by
  rw [matchText,lang]
  split_ifs
  · exact matchhere_iff re.tail text
  · exact matchAnywhere_iff re text

end Matching

end User.Grep
