import Mathlib.Data.List.Nodup

/-!
# Intrusive doubly linked queues

A queue whose links live in the queued objects: `next` and `back` are fields of every node, and
a pair of end pointers `head`, `last` says where the queue starts and stops.  One link memory
serves many queues at once, as long as no node is in two of them.

`IsQueue L e xs` says that the ends `e` and the links `L` spell the list `xs`, read from `head`
along `next`: the links of every node of `xs` are exactly its two neighbours, so the list is
null-terminated in both directions and has no cycle.  The two operations are

* `pushFront`, which adds a node at the head;
* `unlink`, which takes a node out wherever it stands,

and `IsQueue.pushFront`, `IsQueue.unlink` are their specifications.  `IsQueue.congr` is the frame
rule: a queue sees the links of its own nodes only.  `walk` reads the list off the links.
-/

namespace Xv6.Lib

variable {α : Type*}

structure Links (α : Type*) where
  /-- The neighbour away from the head. -/
  next : α → Option α
  /-- The neighbour towards the head. -/
  back : α → Option α

structure Ends (α : Type*) where
  /-- The node the queue starts with. -/
  head : Option α
  /-- The node the queue stops at. -/
  last : Option α
  deriving DecidableEq

/-- The links of each node of `xs` are its neighbours in `xs`. -/
def Threads (L : Links α) (xs : List α) : Prop :=
  ∀ a x b, xs = a ++ x :: b → L.back x = a.getLast? ∧ L.next x = b.head?

/-- The ends `e` and the links `L` spell the list `xs`. -/
structure IsQueue (L : Links α) (e : Ends α) (xs : List α) : Prop where
  nodup : xs.Nodup
  head_eq : e.head = xs.head?
  last_eq : e.last = xs.getLast?
  threads : Threads L xs

variable {L : Links α} {e : Ends α} {xs : List α}

theorem isQueue_nil (L : Links α) : IsQueue L ⟨none, none⟩ [] where
  nodup := List.nodup_nil
  head_eq := rfl
  last_eq := rfl
  threads := by
    intro a x b h
    cases a <;> cases h

/-- **The frame rule.**  A queue does not see the links of other nodes. -/
theorem IsQueue.congr {L' : Links α} (h : IsQueue L e xs)
    (hL : ∀ x ∈ xs, L'.next x = L.next x ∧ L'.back x = L.back x) : IsQueue L' e xs where
  nodup := h.nodup
  head_eq := h.head_eq
  last_eq := h.last_eq
  threads := by
    intro a x b hx
    have hmem : x ∈ xs := by rw [hx]; simp
    obtain ⟨hn, hb⟩ := hL x hmem
    rw [hn, hb]
    exact h.threads a x b hx

theorem IsQueue.head_eq_none_iff (h : IsQueue L e xs) : e.head = none ↔ xs = [] := by
  rw [h.head_eq, List.head?_eq_none_iff]

/-- The nodes met along `next` from `o` on, at most `n` of them. -/
def walk (L : Links α) : ℕ → Option α → List α
  | 0, _ => []
  | _ + 1, none => []
  | n + 1, some x => x :: walk L n (L.next x)

theorem Threads.walk_eq :
    ∀ {n : ℕ} {a xs : List α}, Threads L (a ++ xs) → xs.length ≤ n → walk L n xs.head? = xs
  | 0, _, xs, _, hn => by
    rw [List.length_eq_zero_iff.mp (Nat.le_zero.mp hn)]
    rfl
  | _ + 1, _, [], _, _ => rfl
  | n + 1, a, x :: xs, h, hn => by
    have hxs : Threads L ((a ++ [x]) ++ xs) := by
      rwa [List.append_assoc, List.singleton_append]
    rw [List.head?_cons, walk, (h a x xs rfl).2, hxs.walk_eq (Nat.le_of_succ_le_succ hn)]

theorem IsQueue.walk_eq (h : IsQueue L e xs) {n : ℕ} (hn : xs.length ≤ n) :
    walk L n e.head = xs := by
  rw [h.head_eq]
  exact Threads.walk_eq (a := []) h.threads hn

variable [DecidableEq α] {p : α}

/-! ## Adding a node at the head -/

/-- Add the node `p` at the head of the queue `e`. -/
def pushFront (L : Links α) (e : Ends α) (p : α) : Links α × Ends α :=
  (⟨fun x => if x = p then e.head else L.next x,
    fun x => if some x = e.head then some p else if x = p then none else L.back x⟩,
   ⟨some p, if e.head = none then some p else e.last⟩)

theorem IsQueue.pushFront (h : IsQueue L e xs) (hp : p ∉ xs) :
    IsQueue (pushFront L e p).1 (pushFront L e p).2 (p :: xs) where
  nodup := List.nodup_cons.mpr ⟨hp, h.nodup⟩
  head_eq := rfl
  last_eq := by
    show (if e.head = none then some p else e.last) = _
    rw [h.head_eq, h.last_eq]
    cases xs with
    | nil => rfl
    | cons y ys => simp [List.getLast?_cons_cons]
  threads := by
    intro a x b hx
    show (if some x = e.head then some p else if x = p then none else L.back x) = _ ∧
      (if x = p then e.head else L.next x) = _
    cases a with
    | nil =>
      -- the new node itself
      obtain ⟨rfl, rfl⟩ := List.cons.inj hx
      have hne : some p ≠ e.head := by
        rw [h.head_eq]
        exact fun hh => hp (List.mem_of_mem_head? hh.symm)
      rw [if_neg hne, if_pos rfl, if_pos rfl, h.head_eq]
      exact ⟨rfl, rfl⟩
    | cons c a =>
      -- a node that was there: only the old head gets a new `back`
      obtain ⟨rfl, hxs'⟩ := List.cons.inj hx
      have hxs : xs = a ++ x :: b := hxs'
      have hmem : x ∈ xs := by rw [hxs]; simp
      have hxp : x ≠ p := fun hh => hp (hh ▸ hmem)
      obtain ⟨hb, hn⟩ := h.threads a x b hxs
      rw [if_neg hxp, if_neg hxp, hb, hn, h.head_eq, hxs]
      refine ⟨?_, rfl⟩
      cases a with
      | nil => simp
      | cons d a =>
        have hne : some x ≠ (d :: a ++ x :: b).head? := by
          rw [List.cons_append, List.head?_cons]
          intro hh
          have hxd : x = d := Option.some_inj.mp hh
          have hnd := h.nodup
          rw [hxs, List.cons_append, List.nodup_cons] at hnd
          exact hnd.1 (by rw [← hxd]; simp)
        rw [if_neg hne, List.getLast?_cons_cons]

/-! ## Taking a node out -/

/-- Take the node `p` out of the queue `e`. -/
def unlink (L : Links α) (e : Ends α) (p : α) : Links α × Ends α :=
  (⟨fun x => if x = p then none else if some x = L.back p then L.next p else L.next x,
    fun x => if x = p then none else if some x = L.next p then L.back p else L.back x⟩,
   ⟨if L.back p = none then L.next p else e.head, if L.next p = none then L.back p else e.last⟩)

omit [DecidableEq α] in
theorem nodup_split {a b : List α} (h : (a ++ p :: b).Nodup) : p ∉ a ∧ p ∉ b := by
  rw [List.nodup_append, List.nodup_cons] at h
  exact ⟨fun hp => h.2.2 p hp p (by simp) rfl, h.2.1.1⟩

omit [DecidableEq α] in
theorem not_sublist_swap {r : α} :
    ∀ {xs : List α}, xs.Nodup → [p, r].Sublist xs → ¬ [r, p].Sublist xs
  | [], _, h => by simp at h
  | x :: xs, hnd, h => by
    obtain ⟨hx, hnd⟩ := List.nodup_cons.mp hnd
    intro h'
    rw [List.cons_sublist_cons'] at h h'
    rcases h with h | ⟨rfl, h⟩
    · rcases h' with h' | ⟨rfl, -⟩
      · exact not_sublist_swap hnd h h'
      · exact hx (h.subset (by simp))
    · rcases h' with h' | ⟨rfl, -⟩
      · exact hx (h'.subset (by simp))
      · exact hx (h.subset (by simp))

theorem IsQueue.unlink {a b : List α} (h : IsQueue L e (a ++ p :: b)) :
    IsQueue (unlink L e p).1 (unlink L e p).2 (a ++ b) := by
  obtain ⟨hb, hn⟩ := h.threads a p b rfl
  have hnd := h.nodup
  obtain ⟨hpa, hpb⟩ := nodup_split hnd
  refine ⟨?_, ?_, ?_, ?_⟩
  · rw [List.nodup_append] at hnd ⊢
    exact ⟨hnd.1, (List.nodup_cons.mp hnd.2.1).2, fun x hx y hy =>
      hnd.2.2 x hx y (List.mem_cons_of_mem _ hy)⟩
  · show (if L.back p = none then L.next p else e.head) = _
    rw [hb, hn, h.head_eq]
    cases a with
    | nil => simp
    | cons c a => simp
  · show (if L.next p = none then L.back p else e.last) = _
    rw [hb, hn, h.last_eq]
    cases b with
    | nil => simp
    | cons c b => simp [List.getLast?_append, List.getLast?_cons_cons]
  · intro a' x b' hx
    show (if x = p then none else if some x = L.next p then L.back p else L.back x) = _ ∧
      (if x = p then none else if some x = L.back p then L.next p else L.next x) = _
    have hnd' : (a ++ b).Nodup := by
      rw [List.nodup_append] at hnd ⊢
      exact ⟨hnd.1, (List.nodup_cons.mp hnd.2.1).2, fun x hx y hy =>
        hnd.2.2 x hx y (List.mem_cons_of_mem _ hy)⟩
    have hxmem : x ∈ a ++ b := by rw [hx]; simp
    have hxp : x ≠ p := by
      rintro rfl
      rcases List.mem_append.mp hxmem with hm | hm
      · exact hpa hm
      · exact hpb hm
    rw [if_neg hxp, if_neg hxp, hb, hn]
    rcases List.append_eq_append_iff.mp hx with ⟨c, hc, hbc⟩ | ⟨c, hac, hc⟩
    · -- `x` stands after the node that goes: `a' = a ++ c`, `b = c ++ x :: b'`
      subst hbc hc
      obtain ⟨hxb, hxn⟩ := h.threads (a ++ p :: c) x b' (by simp)
      have hxna : some x ≠ a.getLast? := by
        intro hh
        have hxa : x ∈ a := List.mem_of_mem_getLast? hh.symm
        rw [List.nodup_append] at hnd'
        exact hnd'.2.2 x hxa x (by simp) rfl
      rw [if_neg hxna, hxb, hxn]
      refine ⟨?_, rfl⟩
      cases c with
      | nil => simp
      | cons d c =>
        have hxd : some x ≠ (d :: c ++ x :: b').head? := by
          rw [List.cons_append, List.head?_cons]
          intro hh
          have hxd : x = d := Option.some_inj.mp hh
          rw [List.nodup_append] at hnd'
          have hndb := hnd'.2.1
          rw [List.cons_append, List.nodup_cons] at hndb
          exact hndb.1 (by rw [← hxd]; simp)
        rw [if_neg hxd]
        simp [List.getLast?_append, List.getLast?_cons_cons]
    · -- `x` stands before it, or is the first node after it
      cases c with
      | nil =>
        simp only [List.append_nil, List.nil_append] at hac hc
        subst hac hc
        obtain ⟨hxb, hxn⟩ := h.threads (a ++ [p]) x b' (by simp)
        have hxna : some x ≠ a.getLast? := by
          intro hh
          have hxa : x ∈ a := List.mem_of_mem_getLast? hh.symm
          rw [List.nodup_append] at hnd'
          exact hnd'.2.2 x hxa x (by simp) rfl
        rw [if_neg hxna, hxn]
        simp
      | cons d c =>
        rw [List.cons_append] at hc
        obtain ⟨rfl, rfl⟩ := List.cons.inj hc
        subst hac
        obtain ⟨hxb, hxn⟩ := h.threads a' x (c ++ p :: b) (by simp)
        have hxb' : some x ≠ b.head? := by
          intro hh
          have hxb' : x ∈ b := List.mem_of_mem_head? hh.symm
          rw [List.nodup_append] at hnd'
          exact hnd'.2.2 x (by simp) x hxb' rfl
        rw [if_neg hxb', hxb, hxn]
        refine ⟨rfl, ?_⟩
        rcases List.eq_nil_or_concat' c with rfl | ⟨c', y, rfl⟩
        · simp
        · have hxy : x ≠ y := by
            rintro rfl
            rw [List.nodup_append] at hnd'
            have hnda := hnd'.1
            rw [List.nodup_append, List.nodup_cons] at hnda
            exact hnda.2.1.1 (by simp)
          have hne : some x ≠ (a' ++ x :: (c' ++ [y])).getLast? := by
            simp [List.getLast?_append, List.getLast?_cons, hxy]
          rw [if_neg hne]
          cases c' <;> simp

end Xv6.Lib
