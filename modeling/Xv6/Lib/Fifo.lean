import Mathlib.Data.List.Nodup
import Xv6.Lib.Bytes

/-!
# First-in first-out queues

The abstract side of a scheduler: a family of lists, one per priority, and an element that is put
in goes to the list of its current priority, its `home`.  An element stands in at most one list,
so the operations are partial: `enqueue` and `rehome` want an element that stands in none,
`remove` one that stands in the given list, `dequeue` a list with an element.

A clock counts the `enqueue`s and every element carries the time of its last one.  In a
well-formed state (`Fifos.Wf`) each list is sorted by these stamps, newest first, so the element
that `dequeue` takes is the one that was put in earliest (`Fifos.Wf.stamp_lt`).
-/

namespace Xv6.Lib

/-- Queues of elements of `α` indexed by `ι`. -/
structure Fifos (ι α : Type*) where
  /-- The queue that an element is put in. -/
  home : α → ι
  /-- The queues, newest element first. -/
  list : ι → List α
  /-- The number of elements that were put in so far. -/
  clock : ℕ
  /-- The clock when the element was last put in. -/
  stamp : α → ℕ

namespace Fifos

variable {ι α : Type*} {f g : Fifos ι α} {a b : α} {i j : ι}

/-- Elements stand in their own queues, and every queue is in the order of arrival. -/
structure Wf (f : Fifos ι α) : Prop where
  home : ∀ {a i}, a ∈ f.list i → f.home a = i
  sorted : ∀ i, (f.list i).Pairwise fun a b => f.stamp b < f.stamp a
  stamp_lt_clock : ∀ {a i}, a ∈ f.list i → f.stamp a < f.clock

theorem Wf.nodup (h : f.Wf) (i : ι) : (f.list i).Nodup :=
  (h.sorted i).imp fun hlt heq => hlt.ne (congrArg f.stamp heq).symm

theorem Wf.not_mem (h : f.Wf) (ha : a ∉ f.list (f.home a)) (i : ι) : a ∉ f.list i := by
  intro hi
  rw [h.home hi] at ha
  exact ha hi

/-- **The element at the end of a queue was put in before all others that stand there.** -/
theorem Wf.stamp_lt (h : f.Wf) {l : List α} (hl : f.list i = l ++ [a]) (hb : b ∈ l) :
    f.stamp a < f.stamp b := by
  have hsorted := h.sorted i
  rw [hl] at hsorted
  exact (List.pairwise_append.mp hsorted).2.2 b hb a (List.mem_singleton_self a)

/-! ## The operations -/

/-- Take the oldest element of a queue that has one. -/
def dequeue [DecidableEq ι] (i : ι) (f : Fifos ι α) : Option (α × Fifos ι α) :=
  match (f.list i).getLast? with
  | none => none
  | some a => some (a, { f with list := upd f.list i (f.list i).dropLast })

/-- Choose another queue for an element that stands in none. -/
def rehome [DecidableEq α] (a : α) (i : ι) (f : Fifos ι α) : Option (Fifos ι α) :=
  if a ∈ f.list (f.home a) then none else some { f with home := upd f.home a i }

theorem dequeue_eq_some [DecidableEq ι] (h : f.dequeue i = some (a, g)) :
    f.list i = (f.list i).dropLast ++ [a] ∧
      g = { f with list := upd f.list i (f.list i).dropLast } := by
  unfold dequeue at h
  split at h
  · cases h
  · rename_i b hb
    obtain ⟨rfl, rfl⟩ := Prod.mk.inj (Option.some.inj h)
    exact ⟨(List.dropLast_append_getLast? b hb).symm, rfl⟩

theorem rehome_eq_some [DecidableEq α] (h : f.rehome a i = some g) :
    a ∉ f.list (f.home a) ∧ g = { f with home := upd f.home a i } := by
  unfold rehome at h
  split_ifs at h with ha
  exact ⟨ha, (Option.some.inj h).symm⟩

theorem Wf.rehome [DecidableEq α] (h : f.Wf) (hg : f.rehome a i = some g) : g.Wf := by
  obtain ⟨ha, rfl⟩ := rehome_eq_some hg
  refine ⟨fun {b j} hb => ?_, h.sorted, h.stamp_lt_clock⟩
  show upd f.home a i b = j
  rw [upd_of_ne, h.home hb]
  rintro rfl
  exact h.not_mem ha j hb

/-- Leaving elements out keeps the rest in order. -/
theorem Wf.sublist [DecidableEq ι] (h : f.Wf) {l : List α} (hl : l.Sublist (f.list i)) :
    ({ f with list := upd f.list i l } : Fifos ι α).Wf := by
  have hmem : ∀ {b j}, b ∈ upd f.list i l j → b ∈ f.list j := by
    intro b j hb
    by_cases hj : j = i
    · subst hj
      rw [upd_self] at hb
      exact hl.mem hb
    · rwa [upd_of_ne hj] at hb
  refine ⟨fun hb => h.home (hmem hb), fun j => ?_, fun hb => h.stamp_lt_clock (hmem hb)⟩
  show (upd f.list i l j).Pairwise _
  by_cases hj : j = i
  · subst hj
    rw [upd_self]
    exact (h.sorted j).sublist hl
  · rw [upd_of_ne hj]
    exact h.sorted j

theorem Wf.dequeue [DecidableEq ι] (h : f.Wf) (hg : f.dequeue i = some (a, g)) : g.Wf := by
  obtain ⟨-, rfl⟩ := dequeue_eq_some hg
  exact h.sublist (List.dropLast_sublist _)

variable [DecidableEq ι] [DecidableEq α]

/-- Put in an element that stands in no queue, as the newest one. -/
def enqueue (a : α) (f : Fifos ι α) : Option (Fifos ι α) :=
  if a ∈ f.list (f.home a) then none
  else some { f with
    list := upd f.list (f.home a) (a :: f.list (f.home a))
    clock := f.clock + 1
    stamp := upd f.stamp a f.clock }

/-- Take an element out of the queue it stands in. -/
def remove (a : α) (i : ι) (f : Fifos ι α) : Option (Fifos ι α) :=
  if a ∈ f.list i then some { f with list := upd f.list i ((f.list i).erase a) } else none

theorem enqueue_eq_some (h : f.enqueue a = some g) : a ∉ f.list (f.home a) ∧ g = { f with
    list := upd f.list (f.home a) (a :: f.list (f.home a))
    clock := f.clock + 1
    stamp := upd f.stamp a f.clock } := by
  unfold enqueue at h
  split_ifs at h with ha
  exact ⟨ha, (Option.some.inj h).symm⟩

theorem remove_eq_some (h : f.remove a i = some g) :
    a ∈ f.list i ∧ g = { f with list := upd f.list i ((f.list i).erase a) } := by
  unfold remove at h
  split_ifs at h with ha
  exact ⟨ha, (Option.some.inj h).symm⟩

omit [DecidableEq α] in
theorem mem_upd_cons {l : ι → List α} (hb : b ∈ upd l i (a :: l i) j) :
    b = a ∧ j = i ∨ b ∈ l j := by
  by_cases hj : j = i
  · subst hj
    rw [upd_self] at hb
    exact (List.mem_cons.mp hb).imp_left fun h => ⟨h, rfl⟩
  · rw [upd_of_ne hj] at hb
    exact Or.inr hb

theorem Wf.enqueue (h : f.Wf) (hg : f.enqueue a = some g) : g.Wf := by
  obtain ⟨ha, rfl⟩ := enqueue_eq_some hg
  have hout := h.not_mem ha
  have hstamp : ∀ {b i}, b ∈ f.list i → upd f.stamp a f.clock b = f.stamp b := by
    intro b i hb
    exact upd_of_ne fun hba => hout i (hba ▸ hb)
  have hsorted : ∀ i, (f.list i).Pairwise fun x y =>
      upd f.stamp a f.clock y < upd f.stamp a f.clock x := by
    intro i
    refine (h.sorted i).imp_of_mem fun hx hy hlt => ?_
    rwa [hstamp hx, hstamp hy]
  refine ⟨?_, ?_, ?_⟩
  · intro b i hb
    rcases mem_upd_cons hb with ⟨rfl, rfl⟩ | hb
    · rfl
    · exact h.home hb
  · intro i
    show (upd f.list _ _ i).Pairwise _
    by_cases hi : i = f.home a
    · subst hi
      rw [upd_self]
      refine List.pairwise_cons.mpr ⟨fun b hb => ?_, hsorted _⟩
      show upd f.stamp a f.clock b < upd f.stamp a f.clock a
      rw [hstamp hb, upd_self]
      exact h.stamp_lt_clock hb
    · rw [upd_of_ne hi]
      exact hsorted i
  · intro b i hb
    show upd f.stamp a f.clock b < f.clock + 1
    rcases mem_upd_cons hb with ⟨rfl, -⟩ | hb
    · rw [upd_self]
      exact Nat.lt_succ_self _
    · rw [hstamp hb]
      exact (h.stamp_lt_clock hb).trans (Nat.lt_succ_self _)

theorem Wf.remove (h : f.Wf) (hg : f.remove a i = some g) : g.Wf := by
  obtain ⟨-, rfl⟩ := remove_eq_some hg
  exact h.sublist List.erase_sublist

end Fifos
end Xv6.Lib
