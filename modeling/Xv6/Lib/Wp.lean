import Mathlib.Tactic.Basic

/-!
# Weakest preconditions of a program with a state and faults

A program here is a term of `StateT σ (Except ε)`: from a state it either returns a value and a
new state, or stops with a fault and there is no state after it.  `wp m s Q E` says that the
program `m`, started in the state `s`, returns only values and states that meet `Q`, and stops
only with faults that meet `E`.

There is one rule for each way to build a program, so a proof about a program follows its text:
`wp_bind` for a sequence, `wp_get` and `wp_modify` for the state, `wp_throw` for a fault.
`wp.mono` weakens what was proved about a part, and `wp.bind` and `wp.chain` use it in a
sequence.
-/

namespace Xv6.Lib

variable {σ ε α β : Type}

/-- Every outcome of `m` from `s` is allowed: `Q` for the returns, `E` for the faults. -/
def wp (m : StateT σ (Except ε) α) (s : σ) (Q : α → σ → Prop) (E : ε → Prop) : Prop :=
  match m s with
  | .ok (a, s') => Q a s'
  | .error e => E e

variable {m : StateT σ (Except ε) α} {s s' : σ} {a : α} {e : ε} {Q Q' : α → σ → Prop}
  {R : β → σ → Prop} {E E' : ε → Prop} {f : α → StateT σ (Except ε) β}

theorem wp.ok (h : wp m s Q E) (hm : m s = .ok (a, s')) : Q a s' := by
  rw [wp, hm] at h
  exact h

theorem wp.error (h : wp m s Q E) (hm : m s = .error e) : E e := by
  rw [wp, hm] at h
  exact h

theorem wp_of_ok (hm : m s = .ok (a, s')) (h : Q a s') : wp m s Q E := by
  rw [wp, hm]
  exact h

/-- A program that cannot stop returns. -/
theorem wp.exists_ok (h : wp m s Q fun _ => False) : ∃ a s', m s = .ok (a, s') ∧ Q a s' := by
  cases hm : m s with
  | ok r => exact ⟨r.1, r.2, rfl, h.ok hm⟩
  | error e => exact (h.error hm).elim

theorem wp_iff : wp m s Q E ↔
    (∀ a s', m s = .ok (a, s') → Q a s') ∧ ∀ e, m s = .error e → E e := by
  constructor
  · intro h
    exact ⟨fun a s' => h.ok, fun e => h.error⟩
  · rintro ⟨hQ, hE⟩
    rw [wp]
    cases hm : m s with
    | ok r => exact hQ r.1 r.2 hm
    | error e => exact hE e hm

theorem wp_any : wp m s (fun _ _ => True) fun _ => True :=
  wp_iff.mpr ⟨fun _ _ _ => trivial, fun _ _ => trivial⟩

theorem wp.mono (h : wp m s Q E) (hQ : ∀ a s', Q a s' → Q' a s') (hE : ∀ e, E e → E' e) :
    wp m s Q' E' :=
  wp_iff.mpr ⟨fun a s' hm => hQ a s' (h.ok hm), fun e hm => hE e (h.error hm)⟩

theorem wp.and (h : wp m s Q E) (h' : wp m s Q' E') :
    wp m s (fun a s' => Q a s' ∧ Q' a s') (fun e => E e ∧ E' e) :=
  wp_iff.mpr ⟨fun _ _ hm => ⟨h.ok hm, h'.ok hm⟩, fun _ hm => ⟨h.error hm, h'.error hm⟩⟩

@[simp] theorem wp_pure : wp (pure a : StateT σ (Except ε) α) s Q E ↔ Q a s := Iff.rfl

theorem wp_bind : wp (m >>= f) s R E ↔ wp m s (fun a s' => wp (f a) s' R E) E := by
  have hbind : (m >>= f) s = (m s >>= fun p => f p.1 p.2) := rfl
  rw [wp, wp, hbind]
  cases m s with
  | ok r => exact Iff.rfl
  | error e => exact Iff.rfl

/-- The rest of a sequence whose first part is known to return. -/
theorem bind_ok (hm : m s = .ok (a, s')) : (m >>= f) s = f a s' := by
  have hbind : (m >>= f) s = (m s >>= fun p => f p.1 p.2) := rfl
  rw [hbind, hm]
  rfl

theorem bind_error (hm : m s = .error e) : (m >>= f) s = .error e := by
  have hbind : (m >>= f) s = (m s >>= fun p => f p.1 p.2) := rfl
  rw [hbind, hm]
  rfl

/-- What was proved about the first part of a sequence is the precondition of the rest. -/
theorem wp.bind (h : wp m s Q E) (hf : ∀ a s', Q a s' → wp (f a) s' R E) : wp (m >>= f) s R E :=
  wp_bind.mpr (h.mono hf fun _ he => he)

/-- The same where the sequence may stop in more ways than its first part. -/
theorem wp.chain (h : wp m s Q E') (hE : ∀ e, E' e → E e)
    (hf : ∀ a s', Q a s' → wp (f a) s' R E) : wp (m >>= f) s R E :=
  wp_bind.mpr (h.mono hf hE)

@[simp] theorem wp_get {Q : σ → σ → Prop} :
    wp (get : StateT σ (Except ε) σ) s Q E ↔ Q s s := Iff.rfl

@[simp] theorem wp_modify {f : σ → σ} {Q : PUnit → σ → Prop} :
    wp (modify f : StateT σ (Except ε) PUnit) s Q E ↔ Q ⟨⟩ (f s) := Iff.rfl

@[simp] theorem wp_throw :
    wp (throw e : StateT σ (Except ε) α) s Q E ↔ E e := Iff.rfl

theorem wp_ite {c : Prop} [Decidable c] {m m' : StateT σ (Except ε) α} :
    wp (if c then m else m') s Q E ↔ (c → wp m s Q E) ∧ (¬ c → wp m' s Q E) := by
  by_cases hc : c
  · rw [if_pos hc]
    exact ⟨fun h => ⟨fun _ => h, fun hn => absurd hc hn⟩, fun h => h.1 hc⟩
  · rw [if_neg hc]
    exact ⟨fun h => ⟨fun hp => absurd hp hc, fun _ => h⟩, fun h => h.2 hc⟩

end Xv6.Lib
