import Xv6.Log.Invariant

/-!
# Crash atomicity

The specification speaks of the events of a run only.  `commits` cuts the `log_write`s of a run into
transactions, at the points where the last outstanding operation starts to commit; `after` applies
transactions to the home blocks.  No transaction is closed while an operation is outstanding, so
the writes of an operation are in one of them.

`durable_of_exec` is about any crash of any run: when recovery has finished, after any number of
further crashes, the home blocks are those after a prefix of the commits, which includes every
commit that had returned.
-/

namespace Xv6.Log

open Lib

variable {sb : Superblock} {s t : State} {g : Ghost} {p q : Slot} {e : Event} {a : Label}
  {es : List Event} {H0 : ℕ → Block} {as : List Label}

/-! ## The specification -/

/-- The writes of a transaction, in order. -/
abbrev Txn := List (ℕ × Block)

/-- How an event changes the transactions so far and the open one. -/
def gather (h : List Txn × Txn) : Event → List Txn × Txn
  | .logged _ b d => (h.1, h.2 ++ [(b, d)])
  | .committing _ => (h.1 ++ [h.2], [])
  | _ => h

/-- The transactions that a run has started to commit. -/
def commits (es : List Event) : List Txn := (es.foldl gather ([], [])).1

/-- The writes that wait for the next commit. -/
def pending (es : List Event) : Txn := (es.foldl gather ([], [])).2

/-- The number of commits that have returned. -/
def returned (es : List Event) : ℕ :=
  es.countP fun e => match e with
    | .returned _ => true
    | _ => false

/-- The home blocks after the transactions. -/
def after (H : ℕ → Block) (ts : List Txn) : ℕ → Block := ts.foldl (fun H W => install W H) H

theorem after_concat (H : ℕ → Block) (ts : List Txn) (W : Txn) :
    after H (ts ++ [W]) = install W (after H ts) :=
  List.foldl_concat ..

/-- The system is up and no process is in the log code. -/
def Quiet (s : State) : Prop := s.mode = .up ∧ ∀ p, s.pc p = .out

instance (s : State) : Decidable (Quiet s) := inferInstanceAs (Decidable (_ ∧ _))

/-! ## What the events say -/

/-- What an event says about `log.committing`. -/
def Tells (s t : State) (W : Txn) : Event → Prop
  | .logged _ _ _ => s.committing = false ∧ t.committing = false
  | .committing _ => s.committing = false ∧ t.committing = true
  | .committed _ => s.committing = true ∧ t.committing = true
  | .returned _ => s.committing = true ∧ t.committing = false ∧ W = []
  | .crashed => False
  | .recovered => False
  | _ => t.committing = s.committing

/-- What a step without a crash means for the operations. -/
structure Told (s t : State) (W : Txn) (e : Event) : Prop where
  up : t.mode = .up
  tells : Tells s t W e
  begun : ∀ q, e = .begun q → (t.pc q).inOp = true
  goesOn : ∀ q, (s.pc q).inOp = true → (t.pc q).inOp = true ∨ e = .ended q ∨ e = .committing q
  last : ∀ q r, e = .committing r → (s.pc q).inOp = true → q = r

theorem told_of_inOp {W : Txn} (hup : t.mode = .up) (htell : Tells s t W e)
    (hpc : ∀ q, (s.pc q).inOp = true → (t.pc q).inOp = true)
    (he : ∀ q, e ≠ .begun q ∧ e ≠ .committing q) : Told s t W e :=
  ⟨hup, htell, fun q hq => absurd hq (he q).1, fun q hq => Or.inl (hpc q hq),
    fun _ r hr => absurd hr (he r).2⟩

theorem inOp_update {pc : Slot → Pc} {x : Pc} (hx : (pc p).inOp = true → x.inOp = true) (q : Slot)
    (hq : (pc q).inOp = true) : (Function.update pc p x q).inOp = true := by
  by_cases hqp : q = p
  · rw [hqp] at hq ⊢
    rw [Function.update_self]
    exact hx hq
  · rw [Function.update_of_ne hqp]
    exact hq

theorem Commits.told {v w : Fin NBUF} (h : Inv sb s g) (hup : s.mode = .up)
    (hs : Commits sb p v w s t e) : Told s t g.1 e := by
  cases hs with
  | @phase x y m lh e hp hs =>
    obtain ⟨hin, hout, -⟩ := hs.inOp
    rw [← hp] at hin hout
    have hc := (h.commit hup hin hout).1
    have hpc : (s.pc p).inOp = true → y.inOp = true := by
      rw [hin]
      nofun
    cases hs with
    | writeHead => exact told_of_inOp hup ⟨hc, hc⟩ (inOp_update hpc) (by simp)
    | _ => exact told_of_inOp hup rfl (inOp_update hpc) (by simp)
  | done hp =>
    obtain ⟨hc, -, hph⟩ := h.commit hup (p := p) (by rw [hp]; rfl) (by rw [hp]; simp)
    rw [hp] at hph
    exact told_of_inOp hup ⟨hc, rfl, hph.1⟩ (inOp_update (by rw [hp]; nofun)) (by simp)

theorem told_endOp (h : Inv sb s g) (hup : s.mode = .up) (hs : endOp p s = some (t, e)) :
    Told s t g.1 e := by
  unfold endOp at hs
  have hne : ∀ {x : Pc} {q}, q ≠ p → Function.update s.pc p x q = s.pc q :=
    fun hq => Function.update_of_ne hq ..
  split_ifs at hs with hp hc hone hlen
  case pos | neg =>
    -- the last one: all others are outside
    cases hs
    have hin : (s.pc p).inOp = true := by
      rw [hp]
      rfl
    have hlast : ∀ q, (s.pc q).inOp = true → q = p := by
      intro q hq
      by_contra hqp
      rw [h.out_of_ne (h.gathering hup hin).2.1 hin hone q hqp] at hq
      cases hq
    refine ⟨hup, ⟨Bool.not_eq_true _ ▸ hc, rfl⟩, nofun, fun q hq => ?_, ?_⟩
    · exact Or.inr (Or.inr (by rw [hlast q hq]))
    · rintro q r hr hq
      rw [hlast q hq]
      exact Event.committing.inj hr
  · cases hs
    refine ⟨hup, rfl, nofun, fun q hq => ?_, nofun⟩
    by_cases hqp : q = p
    · exact Or.inr (Or.inl (by rw [hqp]))
    · exact Or.inl ((congrArg Pc.inOp (hne hqp)).trans hq)

theorem told_step (h : Inv sb s g) (hup : s.mode = .up) (ha : a ≠ .crash)
    (hs : step sb s a = some (t, e)) : Told s t g.1 e := by
  cases a with
  | crash => exact absurd rfl ha
  | recover p v w =>
    simp only [step, recoverStep, hup] at hs
    cases hs
  | commit p v w =>
    simp only [step, if_pos hup] at hs
    exact (commitStep_commits hs).told h hup
  | endOp p =>
    simp only [step, if_pos hup] at hs
    exact told_endOp h hup hs
  | beginOp p =>
    simp only [step, if_pos hup, beginOp] at hs
    split_ifs at hs
    cases hs
    refine ⟨hup, rfl, ?_, fun q hq => Or.inl (inOp_update (fun _ => rfl) q hq),
      fun _ _ he => by cases he⟩
    intro q hq
    obtain rfl := Event.begun.inj hq
    have hself : Function.update s.pc p .op p = .op := Function.update_self ..
    exact congrArg Pc.inOp hself
  | bread p b v =>
    simp only [step, if_pos hup, breadStep] at hs
    split_ifs at hs
    split at hs
    · cases hs
    · cases hs
      exact told_of_inOp hup rfl (fun _ => id) (by simp)
  | logWrite p b d =>
    simp only [step, if_pos hup] at hs
    obtain ⟨i, -, -, -, -, -, rfl, rfl⟩ := logWrite_eq_some hs
    exact told_of_inOp hup rfl (inOp_update fun _ => rfl) (by simp)
  | logAppend p =>
    simp only [step, if_pos hup, logAppend] at hs
    split at hs
    · rename_i b hp
      split at hs
      · cases hs
      · cases hs
        have hc := (h.gathering (p := p) hup (by rw [hp]; rfl)).1
        exact told_of_inOp hup ⟨hc, hc⟩ (inOp_update fun _ => rfl) (by simp)
    · cases hs
  | brelse p b =>
    simp only [step, if_pos hup, brelseStep] at hs
    split_ifs at hs
    split at hs
    · cases hs
    · split_ifs at hs
      cases hs
      exact told_of_inOp hup rfl (fun _ => id) (by simp)

/-! ## Runs without a crash -/

/-- How far the commits of a run have come: all are durable and have returned, or the last one has
not returned, and may or may not be durable. -/
def Progress (H0 : ℕ → Block) (committing : Bool) (es : List Event) (g : Ghost) : Prop :=
  committing = false ∧ g = (pending es, after H0 (commits es)) ∧
      returned es = (commits es).length ∨
    committing = true ∧ pending es = [] ∧ returned es + 1 = (commits es).length ∧
      ((∃ ts, commits es = ts ++ [g.1] ∧ g.2 = after H0 ts) ∨
        g = ([], after H0 (commits es)))

theorem gather_concat (es : List Event) (e : Event) :
    (commits (es ++ [e]), pending (es ++ [e])) = gather (commits es, pending es) e := by
  unfold commits pending
  rw [List.foldl_concat]

theorem Progress.step (h : Progress H0 s.committing es g)
    (ht : Tells s t g.1 e) : Progress H0 t.committing (es ++ [e]) (track g e) := by
  obtain ⟨hcs, hW⟩ := Prod.mk.inj (gather_concat es e)
  have hret : returned (es ++ [e]) = returned es + returned [e] := List.countP_append ..
  unfold Progress
  rw [hcs, hW, hret]
  cases e with
  | logged p b d =>
    obtain ⟨hs, ht⟩ := ht
    rcases h with ⟨-, hg, hr⟩ | ⟨hc, -⟩
    · refine Or.inl ⟨ht, ?_, hr⟩
      rw [hg]
      rfl
    · rw [hs] at hc
      cases hc
  | committing p =>
    obtain ⟨hs, ht⟩ := ht
    rcases h with ⟨-, hg, hr⟩ | ⟨hc, -⟩
    · refine Or.inr ⟨ht, rfl, ?_, Or.inl ⟨commits es, ?_, ?_⟩⟩
      · rw [show returned [Event.committing p] = 0 from rfl, hr]
        change (commits es).length + 0 + 1 = (commits es ++ [pending es]).length
        rw [List.length_append]
        rfl
      · rw [hg]
        rfl
      · rw [hg]
        rfl
    · rw [hs] at hc
      cases hc
  | committed p =>
    obtain ⟨hs, ht⟩ := ht
    rcases h with ⟨hc, -⟩ | ⟨-, hp, hr, hg⟩
    · rw [hs] at hc
      cases hc
    · refine Or.inr ⟨ht, hp, hr, Or.inr ?_⟩
      rcases hg with ⟨ts, hts, hg⟩ | hg
      · change ([], install g.1 g.2) = (([] : Txn), after H0 (commits es))
        rw [hts, after_concat, ← hg]
      · rw [hg]
        rfl
  | returned p =>
    obtain ⟨hs, ht, hW⟩ := ht
    rcases h with ⟨hc, -⟩ | ⟨-, hp, hr, hg⟩
    · rw [hs] at hc
      cases hc
    · refine Or.inl ⟨ht, ?_, hr⟩
      change g = (pending es, after H0 (commits es))
      rw [hp]
      rcases hg with ⟨ts, hts, hg⟩ | hg
      · -- an empty transaction
        refine Prod.ext hW ?_
        rw [hts, hW, after_concat, ← hg]
        rfl
      · exact hg
  | crashed => exact ht.elim
  | recovered => exact ht.elim
  | none =>
    rw [show t.committing = s.committing from ht]
    exact h
  | begun p =>
    rw [show t.committing = s.committing from ht]
    exact h
  | ended p =>
    rw [show t.committing = s.committing from ht]
    exact h

theorem progress_exec (h0 : Inv sb s ([], H0)) (hup : s.mode = .up) (hc : s.committing = false)
    (h : exec (step sb) s as = some (t, es)) (has : ∀ a ∈ as, a ≠ .crash) :
    t.mode = .up ∧ Progress H0 t.committing es (es.foldl track ([], H0)) := by
  refine exec_induction (P := fun as t es => (∀ a ∈ as, a ≠ .crash) → t.mode = .up ∧
    Progress H0 t.committing es (es.foldl track ([], H0))) ?_ ?_ h has
  · intro _
    exact ⟨hup, Or.inl ⟨hc, rfl, rfl⟩⟩
  · intro as u es a t e hrun ih hs has
    obtain ⟨hup', hpr⟩ := ih fun a' ha' => has a' (List.mem_append_left _ ha')
    have ha := has a (List.mem_append_right _ (List.mem_singleton_self a))
    have htold := told_step (inv_exec h0 hrun) hup' ha hs
    rw [List.foldl_concat]
    exact ⟨htold.up, hpr.step htold.tells⟩

/-! ## An operation is in one transaction -/

/-- **No transaction is closed while an operation runs.** -/
theorem commits_eq_of_exec (h0 : Inv sb s ([], H0)) (hup : s.mode = .up) (hc : s.committing = false)
    (h : exec (step sb) s as = some (t, es)) (has : ∀ a ∈ as, a ≠ .crash) :
    ∀ x p y, es = x ++ .begun p :: y → .ended p ∉ y → .committing p ∉ y →
      (t.pc p).inOp = true ∧ commits es = commits x := by
  refine exec_induction (P := fun as t es => (∀ a ∈ as, a ≠ .crash) → ∀ x p y,
    es = x ++ .begun p :: y → .ended p ∉ y → .committing p ∉ y →
      (t.pc p).inOp = true ∧ commits es = commits x) ?_ ?_ h has
  · intro _ x p y hes
    cases x <;> cases hes
  · intro as u es a t e hrun ih hs has x p y hes hend hcom
    have has' : ∀ a' ∈ as, a' ≠ .crash := fun a' ha' => has a' (List.mem_append_left _ ha')
    have ha := has a (List.mem_append_right _ (List.mem_singleton_self a))
    have htold := told_step (inv_exec h0 hrun) (progress_exec h0 hup hc hrun has').1 ha hs
    have hcs : commits (es ++ [e]) = (gather (commits es, pending es) e).1 :=
      congrArg Prod.fst (gather_concat es e)
    induction y using List.reverseRecOn with
    | nil =>
      -- the operation begins
      obtain ⟨rfl, he⟩ := List.append_inj' hes rfl
      obtain rfl := List.singleton_inj.mp he
      exact ⟨htold.begun p rfl, hcs⟩
    | append_singleton y e' _ =>
      rw [← List.cons_append, ← List.append_assoc] at hes
      obtain ⟨rfl, he⟩ := List.append_inj' hes rfl
      obtain rfl := List.singleton_inj.mp he
      rw [List.mem_append, not_or, List.mem_singleton] at hend hcom
      obtain ⟨hin, hcs'⟩ := ih has' x p y rfl hend.1 hcom.1
      refine ⟨?_, ?_⟩
      · rcases htold.goesOn p hin with h' | h' | h'
        · exact h'
        · exact absurd h'.symm hend.2
        · exact absurd h'.symm hcom.2
      · rw [hcs, ← hcs']
        -- only the last outstanding operation can close it, and `p` is outstanding
        cases e with
        | committing r => exact absurd (htold.last p r rfl hin ▸ rfl) hcom.2
        | _ => rfl

/-! ## Recovery -/

/-- The step is a crash, or a step of recovery. -/
def Label.isRecovery : Label → Prop
  | .crash => True
  | .recover _ _ _ => True
  | _ => False

/-- Recovery starts no operation, and does not change what it produces. -/
theorem recovery_step (ha : a.isRecovery) (hs : step sb s a = some (t, e))
    (hout : ∀ p, s.pc p = .out) : (∀ p, t.pc p = .out) ∧ (track g e).2 = g.2 := by
  cases a with
  | crash =>
    cases hs
    exact ⟨fun _ => rfl, rfl⟩
  | recover p v w =>
    simp only [step, recoverStep] at hs
    split at hs
    · obtain ⟨r, -, heq⟩ := Option.map_eq_some_iff.mp hs
      cases heq
      exact ⟨hout, rfl⟩
    · split at hs
      · obtain ⟨m, -, heq⟩ := Option.map_eq_some_iff.mp hs
        cases heq
        exact ⟨hout, rfl⟩
      · cases hs
        exact ⟨hout, rfl⟩
    · obtain ⟨m, -, heq⟩ := Option.map_eq_some_iff.mp hs
      cases heq
      exact ⟨hout, rfl⟩
    · cases hs
  | _ => exact ha.elim

theorem recovery_exec
    (h : exec (step sb) s (.crash :: as) = some (t, es)) (has : ∀ a ∈ as, a.isRecovery) :
    (∀ p, t.pc p = .out) ∧ (es.foldl track g).2 = g.2 := by
  obtain ⟨u, e, es', hs, hrun, rfl⟩ := exec_cons_iff.mp h
  cases hs
  refine exec_induction (P := fun as t es => (∀ a ∈ as, a.isRecovery) → (∀ p, t.pc p = .out) ∧
    ((Event.crashed :: es).foldl track g).2 = g.2) ?_ ?_ hrun has
  · exact fun _ => ⟨fun _ => rfl, rfl⟩
  · intro as u es a t e _ ih hs has
    obtain ⟨hout, hg⟩ := ih fun a' ha' => has a' (List.mem_append_left _ ha')
    have ha := has a (List.mem_append_right _ (List.mem_singleton_self a))
    rw [← List.cons_append, List.foldl_concat]
    obtain ⟨hout', hg'⟩ := recovery_step ha hs hout
    exact ⟨hout', hg'.trans hg⟩

/-- When nothing is going on, the home blocks are as recovery would produce them. -/
theorem Inv.disk_of_quiet (h : Inv sb s g) (hq : Quiet s) :
    s.committing = false ∧ g.1 = [] ∧ ∀ b, sb.IsHome b → s.dev.disk b = g.2 b := by
  have hm := h.mode
  rw [hq.1] at hm
  rcases hm with ⟨hc, -, hga, h0⟩ | ⟨-, p, -, hph⟩
  · refine ⟨hc, h0 ?_, fun b hb => ?_⟩
    · have := h.count
      rw [Finset.sum_eq_zero fun p _ => by rw [hq.2 p]; rfl] at this
      omega
    · rw [← h.disk.home b hb, recovered_of_empty hga.empty]
  · rw [hq.2 p] at hph
    exact hph.elim

/-! ## Any crash of any run -/

theorem after_congr {H H' : ℕ → Block} {b : ℕ} (hb : H b = H' b) (ts : List Txn) :
    after H ts b = after H' ts b := by
  induction ts using List.reverseRecOn with
  | nil => exact hb
  | append_singleton ts W ih =>
    rw [after_concat, after_concat]
    exact install_congr (Or.inr ih)

/-- **Crash atomicity.**  Boot from a disk with an empty log, run anything, and stop where no
process is in the log code (`s0`).  From there let any operations run in any order, up to any point;
crash, and let recovery run, with any number of crashes, until it completes.  Then

* the home blocks are those of `s0` after the first `j` transactions that the run has started to
  commit, where `j` counts at least every commit that has returned;
* no transaction is closed between the `begin_op` and the `end_op` of an operation, so that each
  operation is in one transaction, or in none if it has not ended. -/
theorem durable_of_exec {disk : ℕ → Block} (hdisk : disk sb.logstart 0 = 0)
    {s0 : State} {as0 as rs : List Label} {es0 es fs : List Event}
    (h0 : exec (step sb) (State.reboot disk) as0 = some (s0, es0)) (hq : Quiet s0)
    (h : exec (step sb) s0 as = some (s, es)) (has : ∀ a ∈ as, a ≠ .crash)
    (hc : exec (step sb) s (.crash :: rs) = some (t, fs)) (hrs : ∀ a ∈ rs, a.isRecovery)
    (ht : t.mode = .up) :
    (∃ j, returned es ≤ j ∧ j ≤ (commits es).length ∧
        ∀ b, sb.IsHome b → t.dev.disk b = after s0.dev.disk ((commits es).take j) b) ∧
      ∀ x p y, es = x ++ .begun p :: y → .ended p ∉ y → .committing p ∉ y →
        commits es = commits x := by
  have hinv0 := inv_exec (inv_reboot (headOk_of_empty hdisk) fun b _ => rfl) h0
  obtain ⟨hcom, hW, hhome⟩ := hinv0.disk_of_quiet hq
  generalize es0.foldl track ([], recovered sb disk) = g0 at hinv0 hW hhome
  obtain ⟨W0, H0⟩ := g0
  obtain rfl : W0 = [] := hW
  refine ⟨?_, fun x p y hes hend hco =>
    (commits_eq_of_exec hinv0 hq.1 hcom h has x p y hes hend hco).2⟩
  -- what recovery produces is fixed at the crash
  have hinv := inv_exec hinv0 h
  obtain ⟨hout, hfix⟩ := recovery_exec (g := es.foldl track ([], H0)) hc hrs
  have hend := (inv_exec hinv hc).disk_of_quiet ⟨ht, hout⟩
  have hfinal : ∀ {j}, (es.foldl track ([], H0)).2 = after H0 ((commits es).take j) →
      ∀ b, sb.IsHome b → t.dev.disk b = after s0.dev.disk ((commits es).take j) b := by
    intro j hj b hb
    rw [hend.2.2 b hb, hfix, hj]
    exact after_congr (hhome b hb).symm _
  rcases (progress_exec hinv0 hq.1 hcom h has).2 with ⟨-, hg, hr⟩ | ⟨-, -, hr, ⟨ts, hts, hg⟩ | hg⟩
  · refine ⟨(commits es).length, hr.le, le_rfl, hfinal ?_⟩
    rw [List.take_length, hg]
  · refine ⟨ts.length, ?_, ?_, hfinal ?_⟩
    · rw [hts, List.length_append, List.length_singleton] at hr
      omega
    · rw [hts, List.length_append]
      omega
    · rw [hts, List.take_left' rfl]
      exact hg
  · refine ⟨(commits es).length, by omega, le_rfl, hfinal ?_⟩
    rw [List.take_length, hg]

def commitRun : List Label :=
  [.beginOp 0, .bread 0 100 1, .logWrite 0 100 fun _ => 7, .logAppend 0, .brelse 0 100, .endOp 0]

/-- A block is logged, and the machine crashes after the commit point: the block is there. -/
theorem durable_of_committed_run : ∃ s0 s t es0 es fs,
    exec (step .mkfs) (State.reboot fun _ _ => 0) (List.replicate 3 (.recover 0 0 1)) =
        some (s0, es0) ∧ Quiet s0 ∧
    exec (step .mkfs) s0 (commitRun ++ List.replicate 3 (.commit 0 2 3)) = some (s, es) ∧
    exec (step .mkfs) s (.crash :: List.replicate 4 (.recover 0 1 2)) =
        some (t, fs) ∧ t.mode = .up ∧ t.dev.disk 100 0 = 7 ∧
    ∃ j, returned es ≤ j ∧ j ≤ (commits es).length ∧
      ∀ b, Superblock.mkfs.IsHome b → t.dev.disk b = after s0.dev.disk ((commits es).take j) b := by
  have hrun : ((exec (step .mkfs) (State.reboot fun _ _ => 0)
      (List.replicate 3 (.recover 0 0 1))).bind fun r0 =>
      (exec (step .mkfs) r0.1 (commitRun ++ List.replicate 3 (.commit 0 2 3))).bind fun r =>
      (exec (step .mkfs) r.1 (.crash :: List.replicate 4 (.recover 0 1 2))).map fun r' =>
      (decide (Quiet r0.1), r'.1.mode, r'.1.dev.disk 100 0)) = some (true, .up, 7) := by
    decide +kernel
  obtain ⟨⟨s0, es0⟩, h0, hrun⟩ := Option.bind_eq_some_iff.mp hrun
  obtain ⟨⟨s, es⟩, h, hrun⟩ := Option.bind_eq_some_iff.mp hrun
  obtain ⟨⟨t, fs⟩, hc, heq⟩ := Option.map_eq_some_iff.mp hrun
  obtain ⟨hq, heq⟩ := Prod.mk.inj heq
  obtain ⟨ht, hdata⟩ := Prod.mk.inj heq
  refine ⟨s0, s, t, es0, es, fs, h0, of_decide_eq_true hq, h, hc, ht, hdata, ?_⟩
  refine (durable_of_exec rfl h0 (of_decide_eq_true hq) h ?_ hc ?_ ht).1
  · intro a ha
    rcases List.mem_append.mp ha with ha | ha
    · simp only [commitRun, List.mem_cons, List.not_mem_nil, or_false] at ha
      rcases ha with rfl | rfl | rfl | rfl | rfl | rfl <;> nofun
    · rw [List.eq_of_mem_replicate ha]
      nofun
  · intro a ha
    rw [List.eq_of_mem_replicate ha]
    trivial

end Xv6.Log
