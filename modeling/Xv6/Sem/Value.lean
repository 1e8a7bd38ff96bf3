import Xv6.Sem.References

/-!
# Conservation of the value of a semaphore

From its creation until its last reference is dropped, the value of a semaphore is its initial
value, plus the number of increments, less the number of decrements.  `value_step` is the step,
`value_exec` the run; the events of the run are the record of increments and decrements.

If the initial value is 1 and every process increments only what it has decremented itself, then
the processes between the two sum up to at most 1, so there is at most one of them.
-/

namespace Xv6.Sem

open Process Lib

variable {s t : State} {p q : Slot} {c : ℕ} {i key v : ℤ} {es : List Event} {e : Event} {m : Sems}

/-! ## Counting increments and decrements -/

/-- The number of `semdown`s of `p` on `i` that have decremented. -/
def downsBy (i : ℤ) (p : Slot) (es : List Event) : ℕ := es.count (.down p i)

/-- The number of `semup`s of `p` on `i` that have incremented. -/
def upsBy (i : ℤ) (p : Slot) (es : List Event) : ℕ := es.count (.up p i)

/-- The number of `semdown`s on `i` that have decremented. -/
def downs (i : ℤ) (es : List Event) : ℕ := es.countP fun e => decide (∃ p : Slot, e = .down p i)

/-- The number of `semup`s on `i` that have incremented. -/
def ups (i : ℤ) (es : List Event) : ℕ := es.countP fun e => decide (∃ p : Slot, e = .up p i)

/-- The process is between a `semdown` and the `semup` that goes with it. -/
def Between (i : ℤ) (es : List Event) (p : Slot) : Prop := upsBy i p es < downsBy i p es

instance (i : ℤ) (es : List Event) (p : Slot) : Decidable (Between i es p) :=
  inferInstanceAs (Decidable (_ < _))

/-- Every process calls `semup` only after a `semdown` of its own. -/
def Disciplined (i : ℤ) (es : List Event) : Prop :=
  ∀ es1 p es2, es = es1 ++ .up p i :: es2 → Between i es1 p

theorem sum_downsBy (i : ℤ) (es : List Event) : ∑ p, downsBy i p es = downs i es :=
  sum_count_eq_countP (f := fun p => Event.down p i) (fun _ _ h => (Event.down.inj h).1) es

theorem sum_upsBy (i : ℤ) (es : List Event) : ∑ p, upsBy i p es = ups i es :=
  sum_count_eq_countP (f := fun p => Event.up p i) (fun _ _ h => (Event.up.inj h).1) es

theorem Disciplined.upsBy_le (h : Disciplined i es) (p : Slot) : upsBy i p es ≤ downsBy i p es := by
  induction es using List.reverseRecOn with
  | nil => simp [upsBy, downsBy]
  | append_singleton es e ih =>
    have hes : Disciplined i es := by
      intro es1 r es2 heq
      exact h es1 r (es2 ++ [e]) (by rw [heq, List.append_assoc, List.cons_append])
    have hle := ih hes
    unfold upsBy downsBy at hle ⊢
    rw [List.count_append, List.count_append, List.count_singleton, List.count_singleton]
    by_cases he : e = .up p i
    · have hlt : Between i es p := h es p [] (by rw [he])
      unfold Between upsBy downsBy at hlt
      rw [he]
      simp
      omega
    · simp only [beq_iff_eq, if_neg he]
      omega

theorem sum_sub_le_one (hle : downs i es ≤ 1 + ups i es) :
    ∑ r, ((downsBy i r es : ℤ) - upsBy i r es) ≤ 1 := by
  rw [Finset.sum_sub_distrib, ← Nat.cast_sum, ← Nat.cast_sum, sum_downsBy, sum_upsBy]
  omega

/-- **Mutual exclusion**, as far as the events go. -/
theorem Disciplined.between_unique (h : Disciplined i es)
    (hle : downs i es ≤ 1 + ups i es) (hp : Between i es p) (hq : Between i es q) : p = q := by
  unfold Between at hp hq
  refine eq_of_sum_le_one (f := fun r => (downsBy i r es : ℤ) - upsBy i r es) (fun r => ?_)
    (sum_sub_le_one hle) (by omega) (by omega)
  have := h.upsBy_le r
  omega

theorem Disciplined.downsBy_le (h : Disciplined i es)
    (hle : downs i es ≤ 1 + ups i es) (p : Slot) : downsBy i p es ≤ upsBy i p es + 1 := by
  have hnn : ∀ r ∈ Finset.univ, 0 ≤ (downsBy i r es : ℤ) - upsBy i r es := by
    intro r _
    have := h.upsBy_le r
    omega
  have hp := Finset.single_le_sum hnn (Finset.mem_univ p)
  have := sum_sub_le_one hle
  omega

/-! ## One step -/

/-- What an event says about the value of `i`. -/
def Event.delta (i : ℤ) : Event → ℤ
  | .up _ key => if key = i then 1 else 0
  | .down _ key => if key = i then -1 else 0
  | _ => 0

theorem delta_eq (i : ℤ) (es : List Event) :
    (es.map (Event.delta i)).sum = (ups i es : ℤ) - downs i es := by
  induction es with
  | nil => simp [ups, downs]
  | cons e es ih =>
    unfold ups downs at ih ⊢
    rw [List.map_cons, List.sum_cons, ih, List.countP_cons, List.countP_cons]
    cases e with
    | up r key =>
      by_cases hk : key = i
      · simp [Event.delta, hk]
        omega
      · simp [Event.delta, hk]
    | down r key =>
      by_cases hk : key = i
      · simp [Event.delta, hk]
        omega
      · simp [Event.delta, hk]
    | _ => simp [Event.delta]

/-- The semaphore keeps its references, and its value changes as the event says. -/
structure ValueStep (m m' : Sems) (i : ℤ) (e : Event) : Prop where
  references : 0 < (m'.list i).references
  value : (m'.list i).value = (m.list i).value + e.delta i
  nonneg : 0 ≤ (m.list i).value → 0 ≤ (m'.list i).value

theorem valueStep_of_eq {m' : Sems} (hpos : 0 < (m'.list i).references)
    (hval : (m'.list i).value = (m.list i).value) (he : e.delta i = 0) : ValueStep m m' i e :=
  ⟨hpos, by rw [hval, he, add_zero], fun h => hval ▸ h⟩

theorem valueStep_setValue {x : ℤ} (hi : IsId i) (hpos : 0 < (m.list i).references)
    (he : e.delta i = if i = key then x - m.value key else 0)
    (hx : i = key → 0 ≤ m.value key → 0 ≤ x) : ValueStep m (m.setValue key x) i e := by
  refine ⟨?_, ?_, ?_⟩
  · rw [Sems.setValue_references]
    exact hpos
  · rw [Sems.setValue_value hi, he]
    split_ifs with hik
    · rw [← hik, Sems.value_of_isId hi]
      omega
    · exact (add_zero _).symm
  · rw [Sems.setValue_value hi]
    split_ifs with hik
    · subst hik
      rw [Sems.value_of_isId hi] at hx
      exact hx rfl
    · exact id

theorem delta_of_isPlain (h : e.isPlain = true) : e.delta i = 0 := by
  cases e <;> first | rfl | cases h

/-- **A step changes the value of a semaphore in use as its event says**, unless it drops the last
reference. -/
theorem SemsEffect.value_step {m' : Sems} (h : SemsEffect m m' e) (hi : IsId i)
    (hpos : 0 < (m.list i).references) (hfreed : e ≠ .freed i) : ValueStep m m' i e := by
  cases h with
  | same he => exact valueStep_of_eq hpos rfl (delta_of_isPlain he)
  | @created _ semid v hused hlist hfound =>
    -- a semaphore in use is not created again
    have hne : i ≠ semid := by
      rintro rfl
      rcases hfound with ⟨-, hz, -⟩ | ⟨rfl, -⟩
      · omega
      · exact absurd hi (by decide)
    have hsame : m'.list i = m.list i := by rw [hlist, if_neg hne]
    exact valueStep_of_eq (hsame ▸ hpos) (congrArg Semaphore.value hsame) rfl
  | @referenced _ key _ _ hstep he =>
    refine valueStep_of_eq ?_ (hstep.value i hi) (by rcases he with rfl | rfl <;> rfl)
    rw [hstep.references i hi]
    split_ifs with hik
    · rw [← hik, Sems.references_of_isId hi]
      omega
    · exact hpos
  | @dropped _ key _ hid hkpos _ hval href he =>
    refine valueStep_of_eq ?_ (hval i hi) ?_
    · rw [href i hi]
      rcases he with ⟨-, rfl⟩ | ⟨hone, -⟩
      · rw [if_neg fun hik => hfreed (by rw [hik])]
        omega
      · split_ifs with hik
        · rw [hik]
          omega
        · omega
    · rcases he with ⟨-, rfl⟩ | ⟨-, hplain⟩
      · rfl
      · exact delta_of_isPlain hplain
  | @down p key hv =>
    refine valueStep_setValue hi hpos ?_ fun _ _ => by omega
    unfold Event.delta
    simp only [eq_comm]
    split_ifs <;> omega
  | @up p key =>
    refine valueStep_setValue hi hpos ?_ fun _ _ => by omega
    unfold Event.delta
    simp only [eq_comm]
    split_ifs <;> omega

theorem SemsEffect.list_of_created {m' : Sems} (h : SemsEffect m m' (.created i v)) (k : ℤ) :
    m'.list k = if k = i then ⟨v, 1⟩ else m.list k := by
  generalize hev : Event.created i v = e at h
  cases h with
  | same he =>
    subst hev
    cases he
  | created _ hlist _ =>
    obtain ⟨rfl, rfl⟩ := Event.created.inj hev
    exact hlist k
  | referenced _ _ he =>
    subst hev
    rcases he with he | he <;> cases he
  | dropped _ _ _ _ _ he =>
    subst hev
    rcases he with ⟨-, he⟩ | ⟨-, he⟩ <;> cases he
  | down => cases hev
  | up => cases hev

/-! ## Runs -/

/-- A semaphore in use since it was created by the event `created i v`, followed by the events
`es`. -/
theorem value_exec {as : List Label} (h : exec step State.boot as = some (s, es)) (hi : IsId i) :
    ∀ es1 es2, es = es1 ++ .created i v :: es2 → Event.freed i ∉ es2 →
      0 < (s.sems.list i).references ∧
        (s.sems.list i).value = v + (es2.map (Event.delta i)).sum ∧
        (0 ≤ v → 0 ≤ (s.sems.list i).value) := by
  refine exec_induction (P := fun _ s es => ∀ es1 es2, es = es1 ++ .created i v :: es2 →
    Event.freed i ∉ es2 → 0 < (s.sems.list i).references ∧
      (s.sems.list i).value = v + (es2.map (Event.delta i)).sum ∧
      (0 ≤ v → 0 ≤ (s.sems.list i).value)) ?_ ?_ h
  · intro es1 es2 heq
    cases es1 <;> cases heq
  · intro as s es a t e hrun ih hs es1 es2 heq hfreed
    have heff := semsEffect_of_exec hrun hs
    induction es2 using List.reverseRecOn with
    | nil =>
      -- the creation itself
      obtain ⟨-, he⟩ := List.append_inj' heq rfl
      obtain rfl := List.singleton_inj.mp he
      rw [heff.list_of_created, if_pos rfl]
      exact ⟨zero_lt_one, by simp, id⟩
    | append_singleton es3 e' _ =>
      rw [← List.cons_append, ← List.append_assoc] at heq
      obtain ⟨rfl, he⟩ := List.append_inj' heq rfl
      obtain rfl := List.singleton_inj.mp he
      rw [List.mem_append, not_or, List.mem_singleton] at hfreed
      obtain ⟨hpos, hval, hnn⟩ := ih es1 es3 rfl hfreed.1
      have hstep := heff.value_step hi hpos (Ne.symm hfreed.2)
      refine ⟨hstep.references, ?_, fun hv => hstep.nonneg (hnn hv)⟩
      rw [hstep.value, hval, List.map_append, List.sum_append]
      simp
      omega

/-- **Conservation of the value, and mutual exclusion.**  Let a run have created the semaphore `i`
with the value `v ≥ 0`, and let `es2` be the events since; as long as the last reference is not
dropped, the value is `v` plus the increments less the decrements, it is not negative, and no more
`semdown`s have gone through than `v` plus the `semup`s.  With fewer than `2 ^ 31 - v` increments
the next one does not overflow.  If `v` is 1 and every process increments only after a decrement of
its own, at most one process is between the two. -/
theorem value_of_exec {as : List Label} {es1 es2 : List Event}
    (h : exec step State.boot as = some (s, es1 ++ .created i v :: es2)) (hi : IsId i)
    (hv : 0 ≤ v) (hlive : Event.freed i ∉ es2) :
    (s.sems.list i).value = v + ups i es2 - downs i es2 ∧ 0 ≤ (s.sems.list i).value ∧
      (downs i es2 : ℤ) ≤ v + ups i es2 ∧
      (v + ups i es2 < 2 ^ 31 - 1 → incr ((s.sems.list i).value) ≠ none) ∧
      (v = 1 → Disciplined i es2 → (∀ p, downsBy i p es2 ≤ upsBy i p es2 + 1) ∧
        ∀ p q, Between i es2 p → Between i es2 q → p = q) := by
  obtain ⟨-, hval, hnn⟩ := value_exec h hi es1 es2 rfl hlive
  rw [delta_eq] at hval
  have hnn' := hnn hv
  refine ⟨by omega, hnn', by omega, fun hlt => ?_, fun hone hdisc => ⟨fun p => ?_, ?_⟩⟩
  · rw [incr, if_pos (by omega)]
    simp
  · exact hdisc.downsBy_le (by omega) p
  · intro p q hp hq
    exact hdisc.between_unique (by omega) hp hq

def downUpRun : List Label :=
  [.userinit, .proc (.dispatch 0), .semget 0 (-1) 1, .semattach 0, .semdown 0 0, .semup 0 0]

/-- init takes a semaphore with the value 1 and gives it back, once. -/
theorem value_of_down_up_run : ∃ s es1 es2,
    exec step State.boot downUpRun = some (s, es1 ++ .created 0 1 :: es2) ∧
    Disciplined 0 es2 ∧ downs 0 es2 = 1 ∧ (s.sems.list 0).value = 1 + ups 0 es2 - downs 0 es2 := by
  have hrun : ((exec step State.boot downUpRun).map Prod.snd) =
      some ([.proc (.allocated 1), .proc .none] ++ .created 0 1 ::
        [.returned 0 0, .down 0 0, .up 0 0]) := by
    decide +kernel
  obtain ⟨⟨s, es⟩, hs, hes⟩ := Option.map_eq_some_iff.mp hrun
  obtain rfl := hes
  refine ⟨s, _, _, hs, ?_, by decide, (value_of_exec hs (by decide) (by decide) (by decide)).1⟩
  -- the only increment is the last event
  rintro (_ | ⟨e1, _ | ⟨e2, _ | ⟨e3, es1⟩⟩⟩) p es2 heq
  · cases heq
  · cases heq
  · cases heq
    decide
  · cases es1 <;> cases heq

end Xv6.Sem
