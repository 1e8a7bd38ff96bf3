import Xv6.Vm.Cow

/-!
# The user's access to memory

What the processor does with a load or a store of the user's: it looks at the entry of the page, and
either makes the access or traps to `handlepgflt`, after which the instruction is executed again.

`userWrite_spec` says what a store does to user memory, whether or not the page was shared.
`userWrite_sole` and `userWrite_free` say when it does not fail: if the page is the process's own,
and then without a new page, or if there is a free page.
-/

namespace Xv6.Vm

open Lib

def Kmem.poke (k : Kmem) (f : Frame) (off : ℕ) (b : UInt8) : Kmem :=
  k.store f (Function.update (k.mem f) off b)

def PageDir.write (d : PageDir) (k : Kmem) (va : ℕ) (b : UInt8) : Kmem :=
  k.poke (d.pte (va / PGSIZE)).addr (va % PGSIZE) b

/-- A store of the byte `b` at the user's address `va`.  A page that the user may not write goes
through the fault handler, and the store is tried again.  There is no result if the process is
killed or the store faults once more. -/
def userWrite (k : Kmem) (d : PageDir) (va : ℕ) (b : UInt8) : Option (Kmem × PageDir) :=
  if d.allows va true then some (d.write k va b, d)
  else
    match handlepgflt k d va with
    | (true, _, _) => none
    | (false, k, d) => if d.allows va true then some (d.write k va b, d) else none

def Space.poke (σ : Space) (va : ℕ) (b : UInt8) : Space :=
  Function.update σ (va / PGSIZE)
    ((σ (va / PGSIZE)).map fun y => (y.1, Function.update y.2 (va % PGSIZE) b))

variable {L : Layout} {dom : Frame → Prop} {k k' : Kmem} {K U W : Frame → ℕ} {d d' : PageDir}
  {u v va : ℕ} {b : UInt8}

theorem PageDir.allows_iff : d.allows va true = true ↔ (d.pte (va / PGSIZE)).present = true ∧
    (d.pte (va / PGSIZE)).user = true ∧ (d.pte (va / PGSIZE)).writable = true := by
  simp [PageDir.allows, and_assoc]

theorem DirOk.lt_of_user (h : DirOk dom K U W k d) (hu : (d.pte v).user = true) : v < UPAGES := by
  by_contra hv
  rw [h.wf.kern v (by omega)] at hu
  cases hu

theorem lt_kernbase (h : va / PGSIZE < UPAGES) : va < KERNBASE := by
  have hmul : UPAGES * PGSIZE = KERNBASE := rfl
  rw [← hmul]
  exact (Nat.div_lt_iff_lt_mul (by decide)).mp h

theorem DirOk.write (h : DirOk dom K U W k d) (ha : d.allows va true = true) (b : UInt8) :
    DirOk dom K U W (d.write k va b) d ∧ Keeps U k (d.write k va b) ∧
      view (d.write k va b) d = (view k d).poke va b := by
  obtain ⟨hp, hu, hw⟩ := PageDir.allows_iff.mp ha
  have hv := h.lt_of_user hu
  obtain ⟨h1, hkeep, hview⟩ := h.store hv hp hw
    (Function.update (k.mem (d.pte (va / PGSIZE)).addr) (va % PGSIZE) b)
  refine ⟨h1, hkeep, hview.trans ?_⟩
  rw [Space.poke, view_of_present hv hp]
  rfl

/-- **A store of the user's** changes one byte of user memory, and nothing that others map. -/
theorem userWrite_spec (hdom : ¬ dom 0) (h : DirOk dom K U W k d)
    (hs : userWrite k d va b = some (k', d')) :
    DirOk dom K U W k' d' ∧ Keeps U k k' ∧ view k' d' = (view k d).poke va b := by
  unfold userWrite at hs
  split_ifs at hs with ha
  · cases hs
    exact h.write ha b
  · split at hs
    · cases hs
    · rename_i k1 d1 hflt
      split_ifs at hs with ha1
      cases hs
      obtain ⟨h1, hkeep1, hview1, -⟩ := handlepgflt_spec hdom h hflt
      obtain ⟨h2, hkeep2, hview2⟩ := h1.write ha1 b
      exact ⟨h2, hkeep1.trans hkeep2, by rw [hview2, hview1]⟩

/-- **A store to a page of the process's own** succeeds, and takes no page from the allocator. -/
theorem userWrite_sole (h : DirOk dom K U W k d) (hp : (d.pte (va / PGSIZE)).present = true)
    (hu : (d.pte (va / PGSIZE)).user = true)
    (hsole : refcount (d.pte (va / PGSIZE)).addr k ≤ 1) (b : UInt8) :
    ∃ k' d', userWrite k d va b = some (k', d') ∧ k'.freelist = k.freelist ∧ k'.count = k.count ∧
      SamePages d d' := by
  have hv := h.lt_of_user hu
  unfold userWrite
  split_ifs with ha
  · exact ⟨_, _, rfl, rfl, rfl, .refl d⟩
  · have hw := PageDir.walkpgdir_of_present hp
    have hsome := PageDir.isSome_walkpgdir hp
    have hflt : handlepgflt k d va =
        (false, k, d.setPte (va / PGSIZE) (d.pte (va / PGSIZE)).setW) := by
      unfold handlepgflt
      rw [if_neg (not_le.mpr (lt_kernbase hv)), hw]
      exact if_neg (by omega)
    have hself : (d.setPte (va / PGSIZE) (d.pte (va / PGSIZE)).setW).pte (va / PGSIZE) =
        (d.pte (va / PGSIZE)).setW := by rw [PageDir.pte_setPte hsome, if_pos rfl]
    have hallow : (d.setPte (va / PGSIZE) (d.pte (va / PGSIZE)).setW).allows va true = true := by
      rw [PageDir.allows_iff, hself]
      exact ⟨hp, hu, rfl⟩
    rw [hflt]
    simp only [hallow, if_true]
    exact ⟨_, _, rfl, rfl, rfl, SamePages.setPte hsome ⟨rfl, rfl, rfl⟩⟩

/-- **A store to any page of user memory** succeeds if there is a free page. -/
theorem userWrite_free (h : DirOk dom K U W k d) (hp : (d.pte (va / PGSIZE)).present = true)
    (hu : (d.pte (va / PGSIZE)).user = true) (hfree : k.freelist ≠ []) (b : UInt8) :
    ∃ k' d', userWrite k d va b = some (k', d') := by
  by_cases hsole : refcount (d.pte (va / PGSIZE)).addr k ≤ 1
  · obtain ⟨k', d', hs, -, -, -⟩ := userWrite_sole h hp hu hsole b
    exact ⟨k', d', hs⟩
  have hv := h.lt_of_user hu
  unfold userWrite
  split_ifs with ha
  · exact ⟨_, _, rfl⟩
  · have hw := PageDir.walkpgdir_of_present hp
    have hsome := PageDir.isSome_walkpgdir hp
    cases hk : kalloc k with
    | none => exact absurd (kalloc_eq_none_iff.mp hk) hfree
    | some r =>
      obtain ⟨f, k1⟩ := r
      obtain ⟨x, hx⟩ : ∃ x : Pte, x = ⟨true, true, (d.pte (va / PGSIZE)).user, f⟩ := ⟨_, rfl⟩
      have hflt : handlepgflt k d va =
          (false, decref (d.pte (va / PGSIZE)).addr
            (k1.store f (k1.mem (d.pte (va / PGSIZE)).addr)), d.setPte (va / PGSIZE) x) := by
        unfold handlepgflt
        rw [if_neg (not_le.mpr (lt_kernbase hv)), hw, hx]
        simp only [if_pos (Nat.lt_of_not_le hsole), hk]
      have hallow : (d.setPte (va / PGSIZE) x).allows va true = true := by
        rw [PageDir.allows_iff, PageDir.pte_setPte hsome, if_pos rfl, hx]
        exact ⟨rfl, hu, rfl⟩
      rw [hflt]
      simp only [hallow, if_true]
      exact ⟨_, _, rfl⟩

end Xv6.Vm
