import Mathlib.Data.List.Nodup
import Xv6.Lib.Bytes

/-!
# Circular doubly linked lists

A list whose links live in the listed objects, closed to a circle by a sentinel.  A place of the
circle is the sentinel (`none`) or a node (`some x`), and every place has a `next` and a `prev`.

`Path L a xs b` says that the links lead from the place `a` through the nodes `xs` to the place `b`,
and back; `IsCircle L xs` that they lead from the sentinel through `xs` to the sentinel.  The two
operations are

* `unlink`, which takes a node out wherever it stands;
* `insertFront`, which puts a node behind the sentinel,

each written as the assignments that are made, one after the other.  `search` is the loop that looks
for a node along the links; `swap` turns the circle around, so a search in the other direction is a
search in the swapped circle.
-/

namespace Xv6.Lib

structure Circle (α : Type*) where
  next : Option α → Option α
  prev : Option α → Option α

namespace Circle

variable {α : Type*} {n : ℕ} {p : α → Bool}

/-- The circle, read in the other direction. -/
def swap (L : Circle α) : Circle α := ⟨L.prev, L.next⟩

/-- The links lead from `a` through `xs` to `b`, and back. -/
def Path (L : Circle α) : Option α → List α → Option α → Prop
  | a, [], b => L.next a = b ∧ L.prev b = a
  | a, x :: xs, b => L.next a = some x ∧ L.prev (some x) = a ∧ L.Path (some x) xs b

/-- The circle is the sentinel and the nodes `xs`. -/
structure IsCircle (L : Circle α) (xs : List α) : Prop where
  nodup : xs.Nodup
  path : L.Path none xs none

section Paths

variable {L L' : Circle α} {a b : Option α} {xs ys : List α} {y : α}

theorem path_append : L.Path a (xs ++ y :: ys) b ↔ L.Path a xs (some y) ∧ L.Path (some y) ys b := by
  induction xs generalizing a with
  | nil =>
    constructor
    · rintro ⟨h1, h2, h3⟩
      exact ⟨⟨h1, h2⟩, h3⟩
    · rintro ⟨⟨h1, h2⟩, h3⟩
      exact ⟨h1, h2, h3⟩
  | cons x xs ih =>
    constructor
    · rintro ⟨h1, h2, h3⟩
      obtain ⟨h4, h5⟩ := ih.mp h3
      exact ⟨⟨h1, h2, h4⟩, h5⟩
    · rintro ⟨⟨h1, h2, h4⟩, h5⟩
      exact ⟨h1, h2, ih.mpr ⟨h4, h5⟩⟩

theorem Path.swap (h : L.Path a xs b) : L.swap.Path b xs.reverse a := by
  induction xs generalizing a with
  | nil => exact ⟨h.2, h.1⟩
  | cons x xs ih =>
    obtain ⟨h1, h2, h3⟩ := h
    rw [List.reverse_cons]
    exact path_append.mpr ⟨ih h3, h2, h1⟩

theorem Path.prev_mem (h : L.Path a xs b) : L.prev b ∈ a :: xs.map some := by
  induction xs generalizing a with
  | nil =>
    rw [h.2]
    exact List.mem_cons_self
  | cons x xs ih => exact List.mem_cons_of_mem a (ih h.2.2)

theorem Path.next_mem (h : L.Path a xs b) : L.next a ∈ b :: xs.map some := by
  cases xs with
  | nil =>
    rw [h.1]
    exact List.mem_cons_self
  | cons x xs =>
    rw [h.1]
    exact List.mem_cons_of_mem b List.mem_cons_self

/-- Only the links between the places of a path matter to it. -/
theorem Path.congr (h : L.Path a xs b) (hn : ∀ x ∈ a :: xs.map some, L'.next x = L.next x)
    (hp : ∀ x ∈ b :: xs.map some, L'.prev x = L.prev x) : L'.Path a xs b := by
  induction xs generalizing a with
  | nil =>
    rw [Path, hn a List.mem_cons_self, hp b List.mem_cons_self]
    exact h
  | cons x xs ih =>
    obtain ⟨h1, h2, h3⟩ := h
    refine ⟨?_, ?_, ih h3 (fun y hy => hn y (List.mem_cons_of_mem a hy)) fun y hy => ?_⟩
    · rw [hn a List.mem_cons_self, h1]
    · rw [hp _ (List.mem_cons_of_mem b List.mem_cons_self), h2]
    · rcases List.mem_cons.mp hy with rfl | hy
      · exact hp _ List.mem_cons_self
      · exact hp y (List.mem_cons_of_mem b (List.mem_cons_of_mem _ hy))

/-- A path that ends elsewhere: only its last link changes. -/
theorem Path.relink (h : L.Path a xs b) (hnd : (a :: xs.map some).Nodup) {b' : Option α}
    (hn : ∀ x ∈ a :: xs.map some, x ≠ L.prev b → L'.next x = L.next x)
    (hp : ∀ x ∈ xs.map some, L'.prev x = L.prev x)
    (hlast : L'.next (L.prev b) = b' ∧ L'.prev b' = L.prev b) : L'.Path a xs b' := by
  induction xs generalizing a with
  | nil =>
    rw [h.2] at hlast
    exact hlast
  | cons x xs ih =>
    obtain ⟨h1, h2, h3⟩ := h
    obtain ⟨hnotin, hnd⟩ := List.nodup_cons.mp hnd
    refine ⟨?_, ?_, ih h3 hnd (fun y hy => hn y (List.mem_cons_of_mem a hy)) fun y hy =>
      hp y (List.mem_cons_of_mem _ hy)⟩
    · rw [hn a List.mem_cons_self, h1]
      rintro heq
      exact hnotin (heq ▸ h3.prev_mem)
    · rw [hp _ List.mem_cons_self, h2]

end Paths

/-! ## Searching -/

/-- Follow the links from the place `b` until there is a node with `p`, for at most `n` nodes. -/
def search (L : Circle α) (p : α → Bool) : ℕ → Option α → Option α
  | 0, _ => none
  | _ + 1, none => none
  | n + 1, some b => if p b then some b else L.search p n (L.next (some b))

theorem search_none {L : Circle α} : L.search p n none = none := by
  cases n <;> rfl

theorem Path.search_eq {L : Circle α} {a : Option α} {xs : List α}
    (h : L.Path a xs none) (hn : xs.length ≤ n) : L.search p n (L.next a) = xs.find? p := by
  induction xs generalizing a n with
  | nil =>
    rw [h.1, search_none]
    rfl
  | cons x xs ih =>
    obtain ⟨h1, -, h3⟩ := h
    obtain ⟨m, rfl⟩ : ∃ m, n = m + 1 := ⟨n - 1, by rw [List.length_cons] at hn; omega⟩
    rw [h1, search, List.find?_cons]
    cases p x with
    | true => rfl
    | false => exact ih h3 (by rw [List.length_cons] at hn; omega)

/-- The search from the sentinel finds the first node with `p`. -/
theorem IsCircle.search_next {L : Circle α} {xs : List α} (h : L.IsCircle xs) (p : α → Bool)
    (hn : xs.length ≤ n) : L.search p n (L.next none) = xs.find? p := h.path.search_eq hn

theorem IsCircle.search_prev {L : Circle α} {xs : List α} (h : L.IsCircle xs) (p : α → Bool)
    (hn : xs.length ≤ n) : L.swap.search p n (L.prev none) = xs.reverse.find? p :=
  h.path.swap.search_eq (by rwa [List.length_reverse])

/-! ## Changing the circle -/

variable [DecidableEq α]

def setNext (L : Circle α) (a v : Option α) : Circle α := { L with next := upd L.next a v }

def setPrev (L : Circle α) (a v : Option α) : Circle α := { L with prev := upd L.prev a v }

def unlink (L : Circle α) (b : α) : Circle α :=
  let L := L.setPrev (L.next (some b)) (L.prev (some b))
  L.setNext (L.prev (some b)) (L.next (some b))

/-- Put the node `b` behind the sentinel. -/
def insertFront (L : Circle α) (b : α) : Circle α :=
  let L := L.setNext (some b) (L.next none)
  let L := L.setPrev (some b) none
  let L := L.setPrev (L.next none) (some b)
  L.setNext none (some b)

def empty : Circle α := ⟨fun _ => none, fun _ => none⟩

omit [DecidableEq α] in
theorem empty_isCircle : (empty : Circle α).IsCircle [] := ⟨List.nodup_nil, rfl, rfl⟩

section Changes

variable {L : Circle α} {xs ys : List α} {b : α}

theorem IsCircle.unlink (h : L.IsCircle (xs ++ b :: ys)) : (L.unlink b).IsCircle (xs ++ ys) := by
  obtain ⟨hpre, hpost⟩ := path_append.mp h.path
  have hnd := h.nodup
  have hb := (List.nodup_middle.mp hnd)
  obtain ⟨hbnot, hnd'⟩ := List.nodup_cons.mp hb
  rw [List.mem_append, not_or] at hbnot
  rw [List.nodup_append] at hnd'
  obtain ⟨hxs, hys, hdisj⟩ := hnd'
  have hsome : ∀ {l : List α}, l.Nodup → (none :: l.map some).Nodup := fun hl =>
    List.nodup_cons.mpr ⟨by simp, hl.map (Option.some_injective α)⟩
  -- neither neighbour of `b` is `b`
  have hprev : L.prev (some b) ≠ some b := fun heq => by
    have hm := hpre.prev_mem
    rw [heq] at hm
    simp [hbnot.1] at hm
  have hnext : L.next (some b) ≠ some b := fun heq => by
    have hm := hpost.next_mem
    rw [heq] at hm
    simp [hbnot.2] at hm
  have hun : L.unlink b = ⟨upd L.next (L.prev (some b)) (L.next (some b)),
      upd L.prev (L.next (some b)) (L.prev (some b))⟩ := by
    simp only [Circle.unlink, setNext, setPrev, upd_of_ne hnext.symm]
  rw [hun]
  generalize hL' : (⟨upd L.next (L.prev (some b)) (L.next (some b)),
    upd L.prev (L.next (some b)) (L.prev (some b))⟩ : Circle α) = L'
  have hnext' : ∀ x, x ≠ L.prev (some b) → L'.next x = L.next x := by
    intro x hx
    rw [← hL']
    exact upd_of_ne hx
  have hprev' : ∀ x, x ≠ L.next (some b) → L'.prev x = L.prev x := by
    intro x hx
    rw [← hL']
    exact upd_of_ne hx
  -- the path up to `b` now leads to the place behind it
  have hfront : L'.Path none xs (L.next (some b)) := by
    refine hpre.relink (hsome hxs) (fun x _ hx => hnext' x hx) (fun x hx => hprev' x ?_) ?_
    · rintro rfl
      obtain ⟨z, hz, hzn⟩ := List.mem_map.mp hx
      have hm := hpost.next_mem
      rw [← hzn] at hm
      rcases List.mem_cons.mp hm with hm | hm
      · cases hm
      · obtain ⟨w, hw, heq⟩ := List.mem_map.mp hm
        exact hdisj z hz w hw (Option.some.inj heq).symm
    · rw [← hL']
      exact ⟨upd_self, upd_self⟩
  refine ⟨List.nodup_append.mpr ⟨hxs, hys, hdisj⟩, ?_⟩
  cases ys with
  | nil =>
    rw [List.append_nil]
    rwa [hpost.1] at hfront
  | cons y ys =>
    obtain ⟨h1, -, h3⟩ := hpost
    obtain ⟨hy, -⟩ := List.nodup_cons.mp hys
    rw [h1] at hfront hprev'
    refine path_append.mpr ⟨hfront, h3.congr (fun x hx => hnext' x ?_) fun x hx => hprev' x ?_⟩
    · rintro rfl
      have hm := hpre.prev_mem
      obtain ⟨w, hw, heq⟩ := List.mem_map.mp (show L.prev (some b) ∈ (y :: ys).map some from hx)
      rw [← heq] at hm
      rcases List.mem_cons.mp hm with hm | hm
      · cases hm
      · obtain ⟨z, hz, heq'⟩ := List.mem_map.mp hm
        exact hdisj z hz w hw (Option.some.inj heq')
    · rintro rfl
      rcases List.mem_cons.mp hx with hx | hx
      · cases hx
      · obtain ⟨w, hw, heq⟩ := List.mem_map.mp hx
        exact hy (Option.some.inj heq ▸ hw)

theorem IsCircle.insertFront (h : L.IsCircle xs) (hb : b ∉ xs) :
    (L.insertFront b).IsCircle (b :: xs) := by
  have hnext : L.next none ≠ some b := fun heq => by
    have hm := h.path.next_mem
    rw [heq] at hm
    simp [hb] at hm
  have hins : L.insertFront b = ⟨upd (upd L.next (some b) (L.next none)) none (some b),
      upd (upd L.prev (some b) none) (L.next none) (some b)⟩ := by
    simp only [Circle.insertFront, setNext, setPrev, upd_of_ne (show none ≠ some b from nofun)]
  rw [hins]
  refine ⟨List.nodup_cons.mpr ⟨hb, h.nodup⟩, ?_, ?_, ?_⟩
  · show upd (upd L.next (some b) (L.next none)) none (some b) none = some b
    rw [upd_self]
  · show upd (upd L.prev (some b) none) (L.next none) (some b) (some b) = none
    rw [upd_of_ne hnext.symm, upd_self]
  · have hpath := h.path
    cases xs with
    | nil =>
      refine ⟨?_, ?_⟩
      · show upd (upd L.next (some b) (L.next none)) none (some b) (some b) = none
        rw [upd_of_ne (show some b ≠ none from nofun), upd_self, hpath.1]
      · show upd (upd L.prev (some b) none) (L.next none) (some b) none = some b
        rw [hpath.1, upd_self]
    | cons x xs =>
      obtain ⟨h1, -, h3⟩ := hpath
      obtain ⟨hx, -⟩ := List.nodup_cons.mp h.nodup
      rw [List.mem_cons, not_or] at hb
      refine ⟨?_, ?_, h3.congr (fun y hy => ?_) fun y hy => ?_⟩
      · show upd (upd L.next (some b) (L.next none)) none (some b) (some b) = some x
        rw [upd_of_ne (show some b ≠ none from nofun), upd_self, h1]
      · show upd (upd L.prev (some b) none) (L.next none) (some b) (some x) = some b
        rw [h1, upd_self]
      · obtain ⟨w, hw, rfl⟩ := List.mem_map.mp (show y ∈ (x :: xs).map some from hy)
        have hwb : some w ≠ some b := by
          rintro heq
          rcases List.mem_cons.mp hw with hw | hw
          · exact hb.1 ((Option.some.inj heq).symm.trans hw)
          · exact hb.2 (Option.some.inj heq ▸ hw)
        show upd (upd L.next (some b) (L.next none)) none (some b) (some w) = L.next (some w)
        rw [upd_of_ne (show some w ≠ none from nofun), upd_of_ne hwb]
      · show upd (upd L.prev (some b) none) (L.next none) (some b) y = L.prev y
        rw [h1]
        rcases List.mem_cons.mp hy with rfl | hy
        · rw [upd_of_ne (show none ≠ some x from nofun), upd_of_ne (show none ≠ some b from nofun)]
        · obtain ⟨w, hw, rfl⟩ := List.mem_map.mp hy
          have hwx : some w ≠ some x := fun heq => hx (Option.some.inj heq ▸ hw)
          have hwb : some w ≠ some b := fun heq => hb.2 (Option.some.inj heq ▸ hw)
          rw [upd_of_ne hwx, upd_of_ne hwb]

end Changes

end Circle
end Xv6.Lib
