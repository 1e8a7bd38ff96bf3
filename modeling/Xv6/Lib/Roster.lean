import Mathlib.Data.Option.Basic

/-!
# Rosters

A roster `f : α → Option β` assigns to some places `a : α` an element of `β`.  It is right for the
predicate `P` when the elements that it assigns are those with `P`, each at one place.  The rules
say how the roster and the predicate may change together.
-/

namespace Xv6.Lib

variable {α β : Type*}

/-- The roster `f` has the elements with `P`, each at one place. -/
structure Roster (f : α → Option β) (P : β → Prop) : Prop where
  sound : ∀ {a b}, f a = some b → P b
  unique : ∀ {a a' b}, f a = some b → f a' = some b → a = a'
  complete : ∀ {b}, P b → ∃ a, f a = some b

namespace Roster

variable {f f' : α → Option β} {P P' : β → Prop} {a : α} {b : β}

theorem remove (h : Roster f P) (ha : f a = some b) (ha' : f' a = none)
    (hf : ∀ c, c ≠ a → f' c = f c) (hb' : ¬ P' b) (hP : ∀ c, c ≠ b → (P' c ↔ P c)) :
    Roster f' P' := by
  have hold : ∀ {c d}, f' c = some d → f c = some d := by
    intro c d hc
    have hca : c ≠ a := by
      rintro rfl
      rw [ha'] at hc
      cases hc
    rwa [← hf c hca]
  constructor
  · intro c d hc
    have hdb : d ≠ b := by
      rintro rfl
      rw [h.unique (hold hc) ha, ha'] at hc
      cases hc
    exact (hP d hdb).mpr (h.sound (hold hc))
  · intro c c' d hc hc'
    exact h.unique (hold hc) (hold hc')
  · intro d hd
    have hdb : d ≠ b := by
      rintro rfl
      exact hb' hd
    obtain ⟨c, hc⟩ := h.complete ((hP d hdb).mp hd)
    have hca : c ≠ a := by
      rintro rfl
      exact hdb (Option.some.inj (hc.symm.trans ha))
    exact ⟨c, (hf c hca).trans hc⟩

/-- The new element `b` takes the empty place `a`. -/
theorem insert (h : Roster f P) (ha : f a = none) (hb : ¬ P b) (ha' : f' a = some b)
    (hf : ∀ c, c ≠ a → f' c = f c) (hb' : P' b) (hP : ∀ c, c ≠ b → (P' c ↔ P c)) :
    Roster f' P' := by
  have hold : ∀ {c d}, f' c = some d → c = a ∧ d = b ∨ f c = some d ∧ d ≠ b := by
    intro c d hc
    by_cases hca : c = a
    · rw [hca, ha'] at hc
      exact Or.inl ⟨hca, (Option.some.inj hc).symm⟩
    · rw [hf c hca] at hc
      refine Or.inr ⟨hc, ?_⟩
      rintro rfl
      exact hb (h.sound hc)
  constructor
  · intro c d hc
    rcases hold hc with ⟨-, rfl⟩ | ⟨hc, hdb⟩
    · exact hb'
    · exact (hP d hdb).mpr (h.sound hc)
  · intro c c' d hc hc'
    rcases hold hc with ⟨rfl, rfl⟩ | ⟨hc, hdb⟩
    · exact ((hold hc').resolve_right fun hh => hh.2 rfl).1.symm
    · rcases hold hc' with ⟨-, rfl⟩ | ⟨hc', -⟩
      · exact absurd rfl hdb
      · exact h.unique hc hc'
  · intro d hd
    by_cases hdb : d = b
    · exact ⟨a, hdb ▸ ha'⟩
    · obtain ⟨c, hc⟩ := h.complete ((hP d hdb).mp hd)
      have hca : c ≠ a := by
        rintro rfl
        rw [ha] at hc
        cases hc
      exact ⟨c, (hf c hca).trans hc⟩

end Roster
end Xv6.Lib
