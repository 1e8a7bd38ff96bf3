import Xv6.Grep.Match
import Xv6.Lib.Run
import Xv6.Ulib.Strings

/-!
# The input of `grep`

The loop of `grep`: read some bytes behind those that are left in the buffer, write the lines that
match, and move what follows the last newline to the front.  A machine whose labels are the results
of `read`, one after the other, and whose events are what is written.

If there is no newline in the buffer, the loop forgets all of it (`m = 0`), and not only a line that
is too long for the buffer.  A line that arrives in two pieces is lost in this way, up to the last
piece.  The output is right for every pattern exactly if this never happens (`Kept`): every piece
brings a newline, as long as there is one to come (`output_eq_iff`).  The pattern that matches every
line tells.
-/

namespace Xv6.Grep

open Lib Ulib

/-! ## The code -/

/-- `sizeof(buf)` -/
def BUFSIZE : ℕ := 1024

def newline : UInt8 := 10

/-- The inner loop, from `p` on: what is written, and `p` at its end.  Every turn moves `p` on, so
as many turns as there are bytes are enough. -/
def scan (re : List UInt8) : ℕ → List UInt8 → List UInt8 × List UInt8
  | 0, p => ([], p)
  | fuel + 1, p =>
    match strchr p newline with
    | none => ([], p)
    | some k =>
      let r := scan re fuel (p.drop (k + 1))
      (if matchText re (p.take k) then p.take (k + 1) ++ r.1 else r.1, r.2)

/-- One turn of the loop of `grep`, with the bytes `buf` in the buffer, after `read` has returned
the bytes `l`.  There is no turn if it has returned none, and it cannot return more than there is
room for. -/
def turn (re buf l : List UInt8) : Option (List UInt8 × List UInt8) :=
  if l = [] ∨ BUFSIZE - buf.length - 1 < l.length then none
  else
    let r := scan re (buf ++ l).length (buf ++ l)
    -- `p == buf`
    some (if r.2.length = (buf ++ l).length then [] else r.2, r.1)

/-- What `grep` writes if the reads return the pieces `ls`. -/
def output (re : List UInt8) (ls : List (List UInt8)) : Option (List UInt8) :=
  (exec (turn re) [] ls).map fun r => r.2.flatten

/-! ## What it is to write -/

/-- The lines of the stream that match, each with its newline.  What follows the last newline is no
line. -/
def selected (re s : List UInt8) : List UInt8 :=
  ((s.splitOn newline).dropLast.filter (matchText re)).flatMap (· ++ [newline])

/-- Every piece has a newline, as long as there is one to come. -/
def Kept : List (List UInt8) → Prop
  | [] => True
  | l :: ls => (newline ∈ l ∨ newline ∉ ls.flatten) ∧ Kept ls

instance decidableKept : ∀ ls, Decidable (Kept ls)
  | [] => isTrue trivial
  | _ :: ls =>
    have := decidableKept ls
    inferInstanceAs (Decidable (_ ∧ _))

section Selected

variable {re s l r : List UInt8}

theorem selected_of_not_mem (h : newline ∉ s) : selected re s = [] := by
  rw [selected, List.splitOn_eq_singleton h]
  rfl

theorem selected_line (h : newline ∉ l) : selected re (l ++ newline :: r) =
    (if matchText re l then l ++ [newline] else []) ++ selected re r := by
  rw [selected, List.splitOn_append_cons_self_of_not_mem h,
    List.dropLast_cons_of_ne_nil (List.splitOn_ne_nil _ _),
    List.filter_cons]
  split_ifs with hmatch
  · rw [List.flatMap_cons]
    rfl
  · rfl

theorem matchText_nil (text : List UInt8) : matchText [] text = true := by
  cases text with
  | nil => rfl
  | cons c text => rfl

/-- The pattern that matches everything selects all bytes up to the last newline. -/
theorem selected_nil_append (hl : newline ∉ l) (hr : newline ∈ r) :
    selected [] (l ++ r) = l ++ selected [] r := by
  obtain ⟨u, v, rfl, hu⟩ := List.eq_append_cons_of_mem hr
  have hlu : newline ∉ l ++ u := fun h => (List.mem_append.mp h).elim hl hu
  rw [← List.append_assoc, selected_line hlu, selected_line hu, if_pos (matchText_nil _),
    if_pos (matchText_nil _)]
  simp only [List.append_assoc]

end Selected

/-! ## One turn -/

section Scan

variable {re buf l p : List UInt8} {fuel : ℕ}

theorem scan_of_not_mem (h0 : 0 ∉ p) (h : newline ∉ p) : scan re fuel p = ([], p) := by
  cases fuel with
  | zero => rfl
  | succ fuel => rw [scan, (strchr_eq_none_iff h0).mpr h]

/-- **The inner loop** writes the lines that match, and stops behind the last newline. -/
theorem scan_spec (re : List UInt8) (h0 : 0 ∉ p) (hfuel : p.length ≤ fuel) :
    (∀ s, selected re (p ++ s) = (scan re fuel p).1 ++ selected re ((scan re fuel p).2 ++ s)) ∧
      newline ∉ (scan re fuel p).2 ∧ (scan re fuel p).2 <:+ p ∧
      (newline ∈ p → (scan re fuel p).2.length < p.length) := by
  induction fuel generalizing p with
  | zero =>
    obtain rfl := List.length_eq_zero_iff.mp (Nat.le_zero.mp hfuel)
    exact ⟨fun _ => rfl, nofun, List.suffix_rfl, nofun⟩
  | succ fuel ih =>
    rw [scan]
    cases hfind : strchr p newline with
    | none =>
      have hno := (strchr_eq_none_iff h0).mp hfind
      exact ⟨fun _ => rfl, hno, List.suffix_rfl, fun h => absurd h hno⟩
    | some k =>
      obtain ⟨u, v, rfl, hu, rfl⟩ := exists_of_strchr_eq_some hfind
      have hdrop : (u ++ newline :: v).drop (u.length + 1) = v := by
        rw [← List.drop_drop, List.drop_left, List.drop_one, List.tail_cons]
      have htake : (u ++ newline :: v).take (u.length + 1) = u ++ [newline] := by
        rw [List.take_length_add_append]
        rfl
      have hv : 0 ∉ v := fun h => h0 (List.mem_append_right u (List.mem_cons_of_mem _ h))
      rw [List.length_append, List.length_cons] at hfuel
      obtain ⟨hsel, hno, hsuff, -⟩ := ih hv (by omega)
      have hle := hsuff.length_le
      simp only [hdrop, htake, List.take_left']
      refine ⟨fun s => ?_, hno, hsuff.trans ⟨u ++ [newline], by simp⟩, fun _ => ?_⟩
      · rw [List.append_assoc, List.cons_append, selected_line hu, hsel s]
        split_ifs
        · simp only [List.append_assoc]
        · rw [List.nil_append]
      · rw [List.length_append, List.length_cons]
        omega

/-- **One turn**: with a newline in the piece, the turn writes the lines that are complete and keeps
the rest; without one it forgets the buffer. -/
theorem turn_eq_some {t e : List UInt8} (h : turn re buf l = some (t, e)) (h0 : 0 ∉ buf ++ l)
    (hbuf : newline ∉ buf) :
    l ≠ [] ∧ newline ∉ t ∧ 0 ∉ t ∧ (newline ∉ l → t = [] ∧ e = []) ∧
      (newline ∈ l → ∀ s, selected re (buf ++ l ++ s) = e ++ selected re (t ++ s)) := by
  rw [turn] at h
  split_ifs at h with hroom
  obtain ⟨hsel, hno, hsuff, hlt⟩ := scan_spec re h0 le_rfl
  cases h
  refine ⟨fun hl => hroom (Or.inl hl), ?_⟩
  by_cases hmem : newline ∈ l
  · rw [if_neg (hlt (List.mem_append_right buf hmem)).ne]
    exact ⟨hno, fun hz => h0 (hsuff.subset hz), fun hn => absurd hmem hn, fun _ => hsel⟩
  · have hnone : newline ∉ buf ++ l := fun hm => (List.mem_append.mp hm).elim hbuf hmem
    rw [scan_of_not_mem h0 hnone, if_pos rfl]
    exact ⟨nofun, nofun, fun _ => ⟨rfl, rfl⟩, fun hm => absurd hm hmem⟩

end Scan

/-! ## The whole input -/

section Output

variable {re buf t : List UInt8} {ls es : List (List UInt8)}

/-- If the pieces keep every line together, the loop writes what it is to write. -/
theorem flatten_of_kept (hrun : exec (turn re) buf ls = some (t, es)) (h0 : 0 ∉ buf ++ ls.flatten)
    (hbuf : newline ∉ buf) (hkept : Kept ls) : es.flatten = selected re (buf ++ ls.flatten) := by
  induction ls generalizing buf es with
  | nil =>
    cases hrun
    rw [List.flatten_nil, List.append_nil, selected_of_not_mem hbuf]
  | cons l ls ih =>
    obtain ⟨b, e, es, hturn, hrest, rfl⟩ := exec_cons_iff.mp hrun
    rw [List.flatten_cons, ← List.append_assoc, List.mem_append, not_or] at h0
    obtain ⟨-, hb, hz, hforget, hsel⟩ := turn_eq_some hturn h0.1 hbuf
    have heq := ih hrest (fun h => (List.mem_append.mp h).elim hz h0.2) hb hkept.2
    rw [List.flatten_cons, List.flatten_cons, ← List.append_assoc, heq]
    by_cases hmem : newline ∈ l
    · rw [hsel hmem]
    · have hnone : newline ∉ ls.flatten := hkept.1.resolve_left hmem
      obtain ⟨rfl, rfl⟩ := hforget hmem
      have hall : newline ∉ buf ++ l ++ ls.flatten := by
        rw [List.mem_append, List.mem_append]
        tauto
      rw [List.nil_append, List.nil_append, selected_of_not_mem hnone, selected_of_not_mem hall]

/-- With the pattern that matches every line the output is never too long, and too short if a line
has not been kept together. -/
theorem kept_of_length (hrun : exec (turn []) buf ls = some (t, es)) (h0 : 0 ∉ buf ++ ls.flatten)
    (hbuf : newline ∉ buf) : es.flatten.length ≤ (selected [] (buf ++ ls.flatten)).length ∧
      (es.flatten.length = (selected [] (buf ++ ls.flatten)).length → Kept ls) := by
  induction ls generalizing buf es with
  | nil =>
    cases hrun
    exact ⟨Nat.zero_le _, fun _ => trivial⟩
  | cons l ls ih =>
    obtain ⟨b, e, es, hturn, hrest, rfl⟩ := exec_cons_iff.mp hrun
    rw [List.flatten_cons, ← List.append_assoc, List.mem_append, not_or] at h0
    obtain ⟨hne, hb, hz, hforget, hsel⟩ := turn_eq_some hturn h0.1 hbuf
    obtain ⟨hle, hkept⟩ := ih hrest (fun h => (List.mem_append.mp h).elim hz h0.2) hb
    rw [List.flatten_cons, List.flatten_cons, ← List.append_assoc, List.length_append]
    by_cases hmem : newline ∈ l
    · rw [hsel hmem, List.length_append]
      exact ⟨by omega, fun heq => ⟨Or.inl hmem, hkept (by omega)⟩⟩
    obtain ⟨rfl, rfl⟩ := hforget hmem
    rw [List.nil_append] at hle hkept
    have hnone : newline ∉ buf ++ l := fun hm => (List.mem_append.mp hm).elim hbuf hmem
    by_cases hcome : newline ∈ ls.flatten
    · -- the bytes of the buffer belong to a line, and are gone
      have hpos := List.length_pos_of_ne_nil hne
      rw [selected_nil_append hnone hcome, List.length_append, List.length_append, List.length_nil]
      exact ⟨by omega, fun heq => by omega⟩
    · rw [selected_of_not_mem hcome] at hle hkept
      have hall : newline ∉ buf ++ l ++ ls.flatten := fun hm =>
        (List.mem_append.mp hm).elim hnone hcome
      rw [selected_of_not_mem hall]
      exact ⟨by simpa using hle, fun _ => ⟨Or.inr hcome, hkept (by simpa using hle)⟩⟩

/-- How the input is read does not depend on the pattern. -/
theorem scan_snd (re re' : List UInt8) {fuel : ℕ} {p : List UInt8} :
    (scan re fuel p).2 = (scan re' fuel p).2 := by
  induction fuel generalizing p with
  | zero => rfl
  | succ fuel ih =>
    rw [scan, scan]
    cases strchr p newline with
    | none => rfl
    | some k => exact ih

theorem exists_exec_turn (re' : List UInt8) (hrun : exec (turn re) buf ls = some (t, es)) :
    ∃ es', exec (turn re') buf ls = some (t, es') := by
  induction ls generalizing buf es with
  | nil =>
    cases hrun
    exact ⟨[], rfl⟩
  | cons l ls ih =>
    obtain ⟨b, e, es, hturn, hrest, rfl⟩ := exec_cons_iff.mp hrun
    obtain ⟨es', hrun'⟩ := ih hrest
    rw [turn] at hturn
    split_ifs at hturn with hroom
    obtain ⟨hb, -⟩ := Prod.mk.inj (Option.some.inj hturn)
    have hturn' : turn re' buf l = some (b, (scan re' (buf ++ l).length (buf ++ l)).1) := by
      rw [turn, if_neg hroom, ← hb, scan_snd re re']
    exact ⟨_, exec_cons_iff.mpr ⟨b, _, es', hturn', hrun', rfl⟩⟩

/-- **The output of `grep`** is right for every pattern if and only if every piece that `read`
returns has a newline, as long as there is one to come. -/
theorem output_eq_iff (h0 : 0 ∉ ls.flatten) (hreads : (output re ls).isSome) :
    (∀ re, output re ls = some (selected re ls.flatten)) ↔ Kept ls := by
  obtain ⟨o, ho⟩ := Option.isSome_iff_exists.mp hreads
  obtain ⟨⟨t, es⟩, hrun, -⟩ := Option.map_eq_some_iff.mp ho
  constructor
  · intro hall
    obtain ⟨es', hrun'⟩ := exists_exec_turn [] hrun
    have heq := hall []
    rw [output, hrun', Option.map_some, Option.some.injEq] at heq
    exact (kept_of_length hrun' h0 nofun).2 (congrArg List.length heq)
  · intro hkept re'
    obtain ⟨es', hrun'⟩ := exists_exec_turn re' hrun
    rw [output, hrun', Option.map_some, flatten_of_kept hrun' h0 nofun hkept, List.nil_append]

/-- Two lines, the second of them in two pieces, and the pattern `b`. -/
theorem output_two_pieces : output [98] [[97, 98, 10, 99], [98, 10]] =
    some (selected [98] [97, 98, 10, 99, 98, 10]) :=
  (output_eq_iff (show (0 : UInt8) ∉ [[97, 98, 10, 99], [98, 10]].flatten by decide)
    (show (output [] _).isSome by decide +kernel)).mpr (by decide +kernel) [98]

/-- **A line that arrives in two pieces is lost.**  The pattern is `ab`, the input the one line
`ab`. -/
theorem output_depends_on_pieces :
    output [97, 98] [[97, 98, 10]] = some [97, 98, 10] ∧
      output [97, 98] [[97], [98, 10]] = some [] ∧
      selected [97, 98] [97, 98, 10] = [97, 98, 10] := by
  decide +kernel

end Output

end Xv6.Grep
