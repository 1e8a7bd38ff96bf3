import Mathlib.Tactic.Basic

/-!
# Programs that record what they access

`Traced ι α` is a value together with the list of the places, of type `ι`, that a program went to in
order to compute it.  A program is written once, with `access` wherever the code reads or writes a
place; `val` is what the program computes and `log` is where it went.  `Within S` says that it never
left `S`, and there is one rule for each way to build a program.
-/

namespace Xv6.Lib

variable {ι α β : Type}

/-- A value, and the places that were accessed on the way to it. -/
structure Traced (ι α : Type) where
  val : α
  log : List ι

namespace Traced

instance : Monad (Traced ι) where
  pure a := ⟨a, []⟩
  bind x f := ⟨(f x.val).val, x.log ++ (f x.val).log⟩

/-- Go to the place `i`, which gives `a`. -/
def access (i : ι) (a : α) : Traced ι α := ⟨a, [i]⟩

variable {x : Traced ι α} {f : α → Traced ι β} {a : α} {i : ι} {S : ι → Prop}

@[simp] theorem val_pure : (pure a : Traced ι α).val = a := rfl

@[simp] theorem val_bind : (x >>= f).val = (f x.val).val := rfl

@[simp] theorem val_access : (access i a).val = a := rfl

@[simp] theorem log_bind : (x >>= f).log = x.log ++ (f x.val).log := rfl

@[simp] theorem log_access : (access i a).log = [i] := rfl

/-- All the places that were accessed are in `S`. -/
def Within (S : ι → Prop) (x : Traced ι α) : Prop := ∀ i ∈ x.log, S i

@[simp] theorem within_pure : Within S (pure a : Traced ι α) := by
  intro i hi
  cases hi

@[simp] theorem within_bind : Within S (x >>= f) ↔ Within S x ∧ Within S (f x.val) := by
  simp only [Within, log_bind, List.mem_append, or_imp, forall_and]

@[simp] theorem within_access : Within S (access i a) ↔ S i := by
  simp only [Within, log_access, List.mem_singleton, forall_eq]

end Traced

end Xv6.Lib
