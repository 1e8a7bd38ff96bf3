import Mathlib.Computability.Language

/-!
# The matcher of `grep`

`match`, `matchhere` and `matchstar` of `user/grep.c`, against the languages that they stand for.

A C string is the list of its bytes before the terminator: `s[0]` is `s.headD 0`, and `s + 1` is
`s.drop 1`.  The recursion of `matchhere` shortens the pattern, and the loop of `matchstar` shortens
the text, so the functions are total, and both recursions are structural.  `matchhere_eq` is the
text of the C function.

What a pattern means is said in two steps.  `items` reads it from left to right: a character before
a `*` is repeated, a `$` at the very end is the end of the text, and everything else stands for one
character.  `lang` is the language of such a sequence, as Mathlib has it.  `matchhere_iff` is the
induction: the pattern and the text go together, and at a `*` the shortest repetition that leads on
is as good as any other.
-/

namespace Xv6.Grep

/-! ## The code -/

def caret : UInt8 := 94

def star : UInt8 := 42

def dollar : UInt8 := 36

def dot : UInt8 := 46

/-- The loop of `matchstar`, with what is searched for after the repetition. -/
def starLoop (here : List UInt8 → Bool) (c : UInt8) : List UInt8 → Bool
  | [] => here []
  | d :: text =>
    if here (d :: text) then true
    else if d ≠ 0 ∧ (d = c ∨ c = dot) then starLoop here c text
    else false

/-- Search for `re` at the beginning of `text`.  The cases are those of `re[0]` and `re[1]`. -/
def matchhere : List UInt8 → List UInt8 → Bool
  | [], _ => true
  | [c], text =>
    if c = 0 then true
    else if c = dollar then text.headD 0 = 0
    else if text.headD 0 ≠ 0 ∧ (c = dot ∨ c = text.headD 0) then matchhere [] (text.drop 1)
    else false
  | c :: d :: re, text =>
    if c = 0 then true
    else if d = star then starLoop (matchhere re) c text
    else if c = dollar ∧ d = 0 then text.headD 0 = 0
    else if text.headD 0 ≠ 0 ∧ (c = dot ∨ c = text.headD 0) then matchhere (d :: re) (text.drop 1)
    else false

/-- Search for `c*re` at the beginning of `text`. -/
def matchstar (c : UInt8) (re text : List UInt8) : Bool := starLoop (matchhere re) c text

/-- `matchhere`, line by line. -/
theorem matchhere_eq (re text : List UInt8) : matchhere re text =
    if re.headD 0 = 0 then true
    else if (re.drop 1).headD 0 = star then matchstar (re.headD 0) (re.drop 2) text
    else if re.headD 0 = dollar ∧ (re.drop 1).headD 0 = 0 then decide (text.headD 0 = 0)
    else if text.headD 0 ≠ 0 ∧ (re.headD 0 = dot ∨ re.headD 0 = text.headD 0) then
      matchhere (re.drop 1) (text.drop 1)
    else false := by
  match re with
  | [] => rfl
  | [c] =>
    have hlast : (List.drop 1 [c]).headD 0 = 0 := rfl
    simp only [hlast, and_true]
    rw [if_neg (show ¬ (0 : UInt8) = star by decide)]
    rfl
  | c :: d :: re => rfl

/-- The loop of `match`, which looks at the empty string too. -/
def matchFrom (re : List UInt8) : List UInt8 → Bool
  | [] => matchhere re []
  | c :: text =>
    if matchhere re (c :: text) then true else if c ≠ 0 then matchFrom re text else false

def matchText (re text : List UInt8) : Bool :=
  if re.headD 0 = caret then matchhere (re.drop 1) text else matchFrom re text

/-! ## The meaning of a pattern -/

/-- What stands for one character: any one, or a certain one. -/
inductive Sym
  | any
  | char (c : UInt8)
  deriving DecidableEq

inductive Item
  | one (x : Sym)
  | star (x : Sym)
  /-- the end of the text -/
  | eot
  deriving DecidableEq

def sym (c : UInt8) : Sym := if c = dot then .any else .char c

/-- The pattern, read from left to right. -/
def items : List UInt8 → List Item
  | [] => []
  | [c] => if c = dollar then [.eot] else [.one (sym c)]
  | c :: d :: re => if d = star then .star (sym c) :: items re else .one (sym c) :: items (d :: re)

/-- The character is one of those that the symbol stands for. -/
def Sym.Accepts : Sym → UInt8 → Prop
  | any, _ => True
  | char c, d => d = c

def Sym.lang (x : Sym) : Language UInt8 := { w | ∃ c, x.Accepts c ∧ w = [c] }

open Computability in
/-- The language of a sequence of parts. -/
def lang : List Item → Language UInt8
  | [] => 1
  | .one x :: is => x.lang * lang is
  | .star x :: is => x.lang∗ * lang is
  | .eot :: is => lang is

/-- The text begins with a word of the language, and ends with it if the pattern says so. -/
def Begins (is : List Item) (text : List UInt8) : Prop :=
  ∃ w v, text = w ++ v ∧ w ∈ lang is ∧ (.eot ∈ is → v = [])

/-- **What `match` is to decide.**  A pattern that starts with `^` has to match a prefix, any other
one a part of the text. -/
def Found (re text : List UInt8) : Prop :=
  if re.head? = some caret then Begins (items re.tail) text
  else ∃ u t, text = u ++ t ∧ Begins (items re) t

/-! ## The matcher decides it -/

section Languages

variable {x : Sym} {is : List Item} {text : List UInt8} {c d : UInt8}

theorem sym_accepts : (sym c).Accepts d ↔ c = dot ∨ c = d := by
  rw [sym]
  by_cases hc : c = dot
  · rw [if_pos hc]
    exact iff_of_true trivial (Or.inl hc)
  · rw [if_neg hc]
    exact ⟨fun h => Or.inr h.symm, fun h => (h.resolve_left hc).symm⟩

open Computability in
theorem mem_kstar_sym_iff {w : List UInt8} : w ∈ x.lang∗ ↔ ∀ c ∈ w, x.Accepts c := by
  rw [Language.mem_kstar]
  constructor
  · rintro ⟨L, rfl, hL⟩ c hc
    obtain ⟨l, hl, hcl⟩ := List.mem_flatten.mp hc
    obtain ⟨d, hd, rfl⟩ := hL l hl
    rwa [List.mem_singleton.mp hcl]
  · intro hw
    refine ⟨w.map fun c => [c], ?_, fun l hl => ?_⟩
    · rw [← List.flatMap_def, List.flatMap_singleton']
    · obtain ⟨c, hc, rfl⟩ := List.mem_map.mp hl
      exact ⟨c, hw c hc, rfl⟩

theorem begins_nil : Begins [] text := ⟨[], text, rfl, Language.nil_mem_one, nofun⟩

theorem begins_eot : Begins [.eot] text ↔ text = [] := by
  constructor
  · rintro ⟨w, v, rfl, hw, hv⟩
    rw [hv List.mem_cons_self, List.append_nil]
    exact (Language.mem_one _).mp hw
  · rintro rfl
    exact ⟨[], [], rfl, Language.nil_mem_one, fun _ => rfl⟩

theorem begins_one : Begins (.one x :: is) text ↔ ∃ c t, text = c :: t ∧ x.Accepts c ∧
    Begins is t := by
  constructor
  · rintro ⟨w, v, rfl, hw, hv⟩
    obtain ⟨a, ⟨c, hc, rfl⟩, b, hb, rfl⟩ := Language.mem_mul.mp hw
    exact ⟨c, b ++ v, rfl, hc, b, v, rfl, hb, fun h => hv (List.mem_cons_of_mem _ h)⟩
  · rintro ⟨c, t, rfl, hc, w, v, rfl, hw, hv⟩
    refine ⟨c :: w, v, rfl, Language.mem_mul.mpr ⟨[c], ⟨c, hc, rfl⟩, w, hw, rfl⟩, fun h => hv ?_⟩
    rcases List.mem_cons.mp h with h | h
    · cases h
    · exact h

theorem begins_star : Begins (.star x :: is) text ↔
    ∃ u t, text = u ++ t ∧ (∀ c ∈ u, x.Accepts c) ∧ Begins is t := by
  constructor
  · rintro ⟨w, v, rfl, hw, hv⟩
    obtain ⟨a, ha, b, hb, rfl⟩ := Language.mem_mul.mp hw
    exact ⟨a, b ++ v, List.append_assoc a b v, mem_kstar_sym_iff.mp ha, b, v, rfl, hb,
      fun h => hv (List.mem_cons_of_mem _ h)⟩
  · rintro ⟨u, t, rfl, hu, w, v, rfl, hw, hv⟩
    refine ⟨u ++ w, v, (List.append_assoc u w v).symm,
      Language.mem_mul.mpr ⟨u, mem_kstar_sym_iff.mpr hu, w, hw, rfl⟩, fun h => hv ?_⟩
    rcases List.mem_cons.mp h with h | h
    · cases h
    · exact h

end Languages

section Matching

variable {re text : List UInt8} {c : UInt8}

theorem headD_eq_zero_iff {s : List UInt8} (h : 0 ∉ s) : s.headD 0 = 0 ↔ s = [] := by
  cases s with
  | nil => exact iff_of_true rfl rfl
  | cons c s =>
    refine iff_of_false (fun hc => h ?_) (List.cons_ne_nil c s)
    rw [List.headD_cons] at hc
    rw [hc]
    exact List.mem_cons_self

/-- **The loop of `matchstar`** tries every repetition, from the shortest one on. -/
theorem matchstar_iff (htext : 0 ∉ text) :
    matchstar c re text = true ↔
      ∃ u t, text = u ++ t ∧ (∀ d ∈ u, (sym c).Accepts d) ∧ matchhere re t = true := by
  rw [matchstar]
  induction text with
  | nil =>
    rw [starLoop]
    constructor
    · exact fun h => ⟨[], [], rfl, nofun, h⟩
    · rintro ⟨u, t, h, -, ht⟩
      rwa [(List.append_eq_nil_iff.mp h.symm).2] at ht
  | cons d text ih =>
    rw [List.mem_cons, not_or] at htext
    obtain ⟨hd, htext⟩ := htext
    rw [starLoop]
    by_cases hhere : matchhere re (d :: text) = true
    · rw [if_pos hhere]
      exact iff_of_true rfl ⟨[], d :: text, rfl, nofun, hhere⟩
    rw [if_neg hhere]
    have haccepts : (sym c).Accepts d ↔ d = c ∨ c = dot := by
      rw [sym_accepts, or_comm, eq_comm (a := c)]
    -- a repetition that is not empty starts with this character
    have hcons :
      (∃ u t, d :: text = u ++ t ∧ (∀ e ∈ u, (sym c).Accepts e) ∧ matchhere re t = true) ↔
        (d = c ∨ c = dot) ∧
          ∃ u t, text = u ++ t ∧ (∀ e ∈ u, (sym c).Accepts e) ∧ matchhere re t = true := by
      constructor
      · rintro ⟨u, t, h, hu, ht⟩
        cases u with
        | nil =>
          rw [List.nil_append] at h
          rw [h] at hhere
          exact absurd ht hhere
        | cons e u =>
          rw [List.cons_append, List.cons.injEq] at h
          have hin := hu e List.mem_cons_self
          rw [← h.1] at hin
          exact ⟨haccepts.mp hin, u, t, h.2, fun x hx => hu x (List.mem_cons_of_mem _ hx), ht⟩
      · rintro ⟨hcond, u, t, rfl, hu, ht⟩
        refine ⟨d :: u, t, rfl, fun e he => ?_, ht⟩
        rcases List.mem_cons.mp he with rfl | he
        · exact haccepts.mpr hcond
        · exact hu e he
    rw [hcons]
    by_cases hcond : d = c ∨ c = dot
    · rw [if_pos ⟨Ne.symm hd, hcond⟩, ih htext]
      exact ⟨fun h => ⟨hcond, h⟩, fun h => h.2⟩
    · rw [if_neg fun h => hcond h.2]
      exact iff_of_false Bool.false_ne_true fun h => hcond h.1

/-- One character that is compared with the text, and what `matchhere` does after it. -/
theorem compare_iff {is : List Item} (htext : 0 ∉ text)
    (h : ∀ t, 0 ∉ t → (matchhere re t = true ↔ Begins is t)) :
    (if text.headD 0 ≠ 0 ∧
      (c = dot ∨ c = text.headD 0) then matchhere re (text.drop 1) else false) = true ↔
      Begins (.one (sym c) :: is) text := by
  rw [begins_one]
  cases text with
  | nil =>
    rw [if_neg (fun h => h.1 rfl)]
    exact iff_of_false Bool.false_ne_true nofun
  | cons d text =>
    rw [List.mem_cons, not_or] at htext
    by_cases hcond : c = dot ∨ c = d
    · rw [if_pos ⟨Ne.symm htext.1, hcond⟩]
      refine (h text htext.2).trans ⟨fun ht => ⟨d, text, rfl, sym_accepts.mpr hcond, ht⟩, ?_⟩
      rintro ⟨e, t, heq, -, ht⟩
      rw [List.cons.injEq] at heq
      rwa [heq.2]
    · rw [if_neg (fun h => hcond h.2)]
      refine iff_of_false Bool.false_ne_true ?_
      rintro ⟨e, t, heq, he, -⟩
      rw [List.cons.injEq] at heq
      rw [← heq.1] at he
      exact hcond (sym_accepts.mp he)

/-- **`matchhere`** finds a word of the language at the beginning of the text. -/
theorem matchhere_iff (hre : 0 ∉ re) (htext : 0 ∉ text) :
    matchhere re text = true ↔ Begins (items re) text := by
  have hnil : ∀ t, 0 ∉ t → (matchhere [] t = true ↔ Begins [] t) :=
    fun _ _ => iff_of_true rfl begins_nil
  induction re using items.induct generalizing text with
  | case1 => exact hnil text htext
  | case2 =>
    -- a `$` at the end
    rw [matchhere, if_neg (by decide), if_pos rfl, items, if_pos rfl, begins_eot, decide_eq_true_eq,
      headD_eq_zero_iff htext]
  | case3 c hdollar =>
    have hc : c ≠ 0 := fun h => hre (h ▸ List.mem_cons_self)
    rw [matchhere, if_neg hc, if_neg hdollar, items, if_neg hdollar]
    exact compare_iff htext hnil
  | case4 c re ih =>
    -- a repetition
    rw [List.mem_cons, List.mem_cons, not_or, not_or] at hre
    obtain ⟨hc, -, hre⟩ := hre
    rw [matchhere, if_neg (Ne.symm hc), if_pos rfl, items, if_pos rfl, begins_star]
    refine (matchstar_iff htext).trans (exists₂_congr fun u t => and_congr_right fun ht => ?_)
    refine and_congr_right fun _ => ih hre fun h0 => htext ?_
    rw [ht]
    exact List.mem_append_right u h0
  | case5 c d re hd ih =>
    have hre' : 0 ∉ d :: re := fun h => hre (List.mem_cons_of_mem c h)
    have hc : c ≠ 0 := fun h => hre (h ▸ List.mem_cons_self)
    have hd0 : d ≠ 0 := fun h => hre' (h ▸ List.mem_cons_self)
    rw [matchhere, if_neg hc, if_neg hd, if_neg fun h => hd0 h.2, items, if_neg hd]
    exact compare_iff htext fun t ht => ih hre' ht

/-- The loop of `match` tries every place of the text. -/
theorem matchFrom_iff (htext : 0 ∉ text) :
    matchFrom re text = true ↔ ∃ u t, text = u ++ t ∧ matchhere re t = true := by
  induction text with
  | nil =>
    rw [matchFrom]
    constructor
    · exact fun h => ⟨[], [], rfl, h⟩
    · rintro ⟨u, t, h, ht⟩
      rwa [(List.append_eq_nil_iff.mp h.symm).2] at ht
  | cons c text ih =>
    rw [List.mem_cons, not_or] at htext
    rw [matchFrom]
    by_cases hhere : matchhere re (c :: text) = true
    · rw [if_pos hhere]
      exact iff_of_true rfl ⟨[], c :: text, rfl, hhere⟩
    rw [if_neg hhere, if_pos (Ne.symm htext.1), ih htext.2]
    constructor
    · rintro ⟨u, t, rfl, ht⟩
      exact ⟨c :: u, t, rfl, ht⟩
    · rintro ⟨u, t, h, ht⟩
      cases u with
      | nil =>
        rw [List.nil_append] at h
        rw [h] at hhere
        exact absurd ht hhere
      | cons d u =>
        rw [List.cons_append, List.cons.injEq] at h
        exact ⟨u, t, h.2, ht⟩

/-- **`match`** decides whether the text has a part in the language of the pattern. -/
theorem matchText_iff_found (hre : 0 ∉ re) (htext : 0 ∉ text) :
    matchText re text = true ↔ Found re text := by
  have hcaret : re.headD 0 = caret ↔ re.head? = some caret := by
    cases re with
    | nil => exact iff_of_false (by decide) nofun
    | cons c re => exact (Option.some_inj (a := c)).symm
  rw [matchText, Found]
  by_cases hc : re.headD 0 = caret
  · rw [if_pos hc, if_pos (hcaret.mp hc), List.drop_one]
    exact matchhere_iff (fun h => hre (List.mem_of_mem_tail h)) htext
  · rw [if_neg hc, if_neg (fun h => hc (hcaret.mpr h)), matchFrom_iff htext]
    refine exists₂_congr fun u t => and_congr_right fun ht => matchhere_iff hre fun h0 => htext ?_
    rw [ht]
    exact List.mem_append_right u h0

/-- The pattern `b*$` is found in `abb`. -/
theorem found_repetition : Found [98, star, dollar] [97, 98, 98] :=
  (matchText_iff_found (by decide) (by decide)).mp (by decide +kernel)

end Matching

end Xv6.Grep
