import Mathlib.Tactic.IntervalCases
import Xv6.Log.Invariant

/-!
# The log space that operations reserve

`begin_op` lets an operation in only if the log has room for `MAXOPBLOCKS` blocks for it and for
every operation that is outstanding.  Here is what this is worth to operations that call `log_write`
on at most `m ≤ MAXOPBLOCKS` different blocks each: the blocks in `log.lh`, with those that the
outstanding operations may still add, are at most `MAXOPBLOCKS + 2 * m` (`Reserved.room`).

For `m = MAXOPBLOCKS` these are `LOGSIZE` blocks, so `log.lh.block` is never indexed out of bounds.
But `log_write` panics from `log.size - 1` blocks on, since one block of the log is its header, and
`mkfs` makes `log.size` equal to `LOGSIZE`.  The test comes before the search for the block in
`log.lh`, so it also fails for a block that is there.  With budgets of `MAXOPBLOCKS - 1` the bound
is two blocks lower, and `log_write` does not panic.
-/

namespace Xv6.Log

open Lib

/-- How a step changes the blocks that the operation of each process has called `log_write` on. -/
def calls (c : Slot → Finset ℕ) : Label → Slot → Finset ℕ
  | .beginOp p => Function.update c p ∅
  | .logWrite p b _ => Function.update c p (insert b (c p))
  | _ => c

/-- The operation that makes the step keeps to `m` different blocks. -/
def Affords (m : ℕ) (c : Slot → Finset ℕ) : Label → Prop
  | .logWrite p b _ => (insert b (c p)).card ≤ m
  | _ => True

instance (m : ℕ) (c : Slot → Finset ℕ) (a : Label) : Decidable (Affords m c a) := by
  unfold Affords
  split <;> infer_instance

/-- Every operation keeps to `m` different blocks. -/
def WithinBudget (m : ℕ) : (Slot → Finset ℕ) → List Label → Prop
  | _, [] => True
  | c, a :: as => Affords m c a ∧ WithinBudget m (calls c a) as

instance decidableWithinBudget (m : ℕ) :
    ∀ (c : Slot → Finset ℕ) (as : List Label), Decidable (WithinBudget m c as)
  | _, [] => isTrue trivial
  | c, a :: as =>
    have : Decidable (WithinBudget m (calls c a) as) := decidableWithinBudget m (calls c a) as
    inferInstanceAs (Decidable (_ ∧ _))

/-- Is the block still to be added by this process? -/
def Pc.adds (lh : List ℕ) : Pc → ℕ
  | .logging b => if b ∈ lh then 0 else 1
  | _ => 0

/-- The blocks that a process may still add, having called `log_write` on those in `k`. -/
def share (m : ℕ) (lh : List ℕ) (x : Pc) (k : Finset ℕ) : ℕ :=
  if x.inOp then m - k.card + x.adds lh else 0

/-- The process `p` holds the buffer of the block `b` and calls `log_write` on it. -/
structure Calls (sb : Superblock) (s : State) (p : Slot) (b : ℕ) : Prop where
  up : s.mode = .up
  pc : s.pc p = .op
  isHome : sb.IsHome b
  held : ∃ i, s.dev.lookup b = some i ∧ (s.dev.buf i).owner = some p

/-- Operations that keep to `m` blocks have room for them. -/
structure Reserved (m : ℕ) (s : State) (c : Slot → Finset ℕ) : Prop where
  budget : ∀ p, (c p).card ≤ m
  logging : ∀ p b, s.pc p = .logging b → b ∈ c p
  logged : ∀ p, (s.pc p).inOp = true → ∀ b ∈ c p, b ∈ s.lh ∨ s.pc p = .logging b
  room : s.mode = .up → s.committing = false →
    s.lh.length + ∑ p, share m s.lh (s.pc p) (c p) ≤ MAXOPBLOCKS + 2 * m

variable {sb : Superblock} {s t : State} {g : Ghost} {m : ℕ} {lh lh' : List ℕ} {p q : Slot} {b : ℕ}
  {c : Slot → Finset ℕ} {a : Label} {e : Event} {k k' : Finset ℕ} {x : Pc} {d : Block}

theorem withinBudget_concat_iff {as : List Label} :
    WithinBudget m c (as ++ [a]) ↔ WithinBudget m c as ∧ Affords m (as.foldl calls c) a := by
  induction as generalizing c with
  | nil => simp [WithinBudget]
  | cons a' as ih => simp [WithinBudget, ih, and_assoc]

/-! ## What a step does to `log.lh` and to the program points -/

/-- The steps of operations, and the rest, after which no operation is outstanding. -/
inductive Moves (s t : State) : Label → Prop
  | quiet {a : Label} (hlh : t.lh = s.lh) (hpc : t.pc = s.pc) (hmode : t.mode = s.mode)
      (hc : t.committing = s.committing) (ha : ∀ c, calls c a = c) : Moves s t a
  | beginOp {p : Slot} (hp : s.pc p = .out)
      (hlim : s.lh.length + (s.outstanding + 1) * MAXOPBLOCKS ≤ LOGSIZE) (hlh : t.lh = s.lh)
      (hpc : t.pc = Function.update s.pc p .op) (hup : s.mode = .up)
      (hc : s.committing = false) : Moves s t (.beginOp p)
  | logWrite {p : Slot} {b : ℕ} {d : Block} (hp : s.pc p = .op) (hlh : t.lh = s.lh)
      (hpc : t.pc = Function.update s.pc p (.logging b)) (hmode : t.mode = s.mode)
      (hc : t.committing = s.committing) : Moves s t (.logWrite p b d)
  | logAppend {p : Slot} {b : ℕ} (hp : s.pc p = .logging b)
      (hlh : t.lh = if b ∈ s.lh then s.lh else s.lh ++ [b])
      (hpc : t.pc = Function.update s.pc p .op) (hmode : t.mode = s.mode)
      (hc : t.committing = s.committing) : Moves s t (.logAppend p)
  | endOp {p : Slot} (hp : s.pc p = .op) (hlh : t.lh = s.lh)
      (hpc : t.pc = Function.update s.pc p .out) (hmode : t.mode = s.mode)
      (hc : t.committing = s.committing) : Moves s t (.endOp p)
  | finish {a : Label} (hpc : ∀ q, (t.pc q).inOp = false) (ha : ∀ c, calls c a = c) : Moves s t a

theorem update_inOp {pc : Slot → Pc} (h : ∀ q, q ≠ p → pc q = .out) (hx : x.inOp = false)
    (q : Slot) : (Function.update pc p x q).inOp = false := by
  by_cases hq : q = p
  · rw [hq, Function.update_self]
    exact hx
  · rw [Function.update_of_ne hq, h q hq]
    rfl

/-- While a process is committing, all others are outside. -/
theorem Inv.out_of_commit (h : Inv sb s g) (hup : s.mode = .up) (hp : s.pc p ≠ .out)
    (hin : (s.pc p).inOp = false) (q : Slot) (hq : q ≠ p) : s.pc q = .out := by
  have hm := h.mode
  rw [hup] at hm
  rcases hm with ⟨-, hall, -⟩ | ⟨-, r, hr, -⟩
  · rcases hall p with h' | h'
    · exact absurd h' hp
    · rw [hin] at h'
      cases h'
  · have hpr : p = r := by
      by_contra hpr
      exact hp (hr p hpr)
    exact hr q (hpr ▸ hq)

theorem Inv.out_of_down (h : Inv sb s g) (hup : s.mode ≠ .up) (q : Slot) : s.pc q = .out := by
  have hm := h.mode
  cases hmode : s.mode with
  | up => exact absurd hmode hup
  | readHead => rw [hmode] at hm; exact hm.1.2.1 q
  | install tail => rw [hmode] at hm; exact hm.1.2.1 q
  | clearHead => rw [hmode] at hm; exact hm.1.2.1 q

theorem Commits.moves {v w : Fin NBUF} (h : Inv sb s g) (hup : s.mode = .up)
    (hs : Commits sb p v w s t e) : Moves s t (.commit p v w) := by
  cases hs with
  | phase hp hs =>
    obtain ⟨hin, hout, hx⟩ := hs.inOp
    rw [← hp] at hin hout
    exact .finish (update_inOp (h.out_of_commit hup hout hin) hx) fun _ => rfl
  | done hp =>
    refine .finish (update_inOp (h.out_of_commit hup ?_ ?_) rfl) fun _ => rfl
    · rw [hp]
      nofun
    · rw [hp]
      rfl

theorem recoverStep_pc {v w : Fin NBUF} (hs : recoverStep sb p v w s = some (t, e)) :
    s.mode ≠ .up ∧ t.pc = s.pc := by
  unfold recoverStep at hs
  split at hs
  · rename_i hm
    obtain ⟨r, -, hr⟩ := Option.map_eq_some_iff.mp hs
    cases hr
    exact ⟨by rw [hm]; nofun, rfl⟩
  · rename_i tail hm
    split at hs
    · obtain ⟨r, -, hr⟩ := Option.map_eq_some_iff.mp hs
      cases hr
      exact ⟨by rw [hm]; nofun, rfl⟩
    · cases hs
      exact ⟨by rw [hm]; nofun, rfl⟩
  · rename_i hm
    obtain ⟨r, -, hr⟩ := Option.map_eq_some_iff.mp hs
    cases hr
    exact ⟨by rw [hm]; nofun, rfl⟩
  · cases hs

theorem endOp_moves (h : Inv sb s g) (hup : s.mode = .up) (hs : endOp p s = some (t, e)) :
    Moves s t (.endOp p) := by
  unfold endOp at hs
  by_cases hp : s.pc p = .op
  · obtain ⟨-, hall, -⟩ := h.gathering hup (p := p) (by rw [hp]; rfl)
    rw [if_pos hp] at hs
    split_ifs at hs with hc hone hlen
    · cases hs
      exact .finish (update_inOp (h.out_of_ne hall (by rw [hp]; rfl) hone) rfl) fun _ => rfl
    · cases hs
      exact .finish (update_inOp (h.out_of_ne hall (by rw [hp]; rfl) hone) rfl) fun _ => rfl
    · cases hs
      exact .endOp hp rfl rfl rfl rfl
  · rw [if_neg hp] at hs
    cases hs

/-- **What a step does.** -/
theorem step_moves (h : Inv sb s g) (hs : step sb s a = some (t, e)) : Moves s t a := by
  cases a with
  | crash =>
    cases hs
    exact .finish (fun _ => rfl) fun _ => rfl
  | recover p v w =>
    obtain ⟨hm, hpc⟩ := recoverStep_pc hs
    refine .finish (fun q => ?_) fun _ => rfl
    rw [hpc, h.out_of_down hm]
    rfl
  | beginOp p =>
    simp only [step] at hs
    split_ifs at hs with hup
    unfold beginOp at hs
    split_ifs at hs with hp hc hlim
    cases hs
    exact .beginOp hp (by omega) rfl rfl hup (Bool.eq_false_of_not_eq_true hc)
  | bread p b v =>
    simp only [step] at hs
    split_ifs at hs with hup
    unfold breadStep at hs
    split_ifs at hs
    split at hs
    · cases hs
    · cases hs
      exact .quiet rfl rfl rfl rfl fun _ => rfl
  | logWrite p b d =>
    simp only [step] at hs
    split_ifs at hs with hup
    obtain ⟨i, hp, -, -, -, -, rfl, -⟩ := logWrite_eq_some hs
    exact .logWrite hp rfl rfl rfl rfl
  | logAppend p =>
    simp only [step] at hs
    split_ifs at hs with hup
    unfold logAppend at hs
    split at hs
    · rename_i b hp
      split at hs
      · cases hs
      · cases hs
        exact .logAppend hp rfl rfl rfl rfl
    · cases hs
  | brelse p b =>
    simp only [step] at hs
    split_ifs at hs with hup
    unfold brelseStep at hs
    split_ifs at hs
    split at hs
    · cases hs
    · split_ifs at hs
      cases hs
      exact .quiet rfl rfl rfl rfl fun _ => rfl
  | endOp p =>
    simp only [step] at hs
    split_ifs at hs with hup
    exact endOp_moves h hup hs
  | commit p v w =>
    simp only [step] at hs
    split_ifs at hs with hup
    exact (commitStep_commits hs).moves h hup

/-! ## One step -/

theorem adds_le (x : Pc) (hlh : ∀ b ∈ lh, b ∈ lh') : x.adds lh' ≤ x.adds lh := by
  unfold Pc.adds
  split
  · rename_i b
    by_cases hb : b ∈ lh
    · rw [if_pos hb, if_pos (hlh b hb)]
    · rw [if_neg hb]
      split_ifs
      · exact Nat.zero_le 1
      · exact le_rfl
  · exact le_rfl

theorem share_le_share (hlh : ∀ b ∈ lh, b ∈ lh') : share m lh' x k ≤ share m lh x k := by
  unfold share
  split_ifs
  · exact Nat.add_le_add_left (adds_le x hlh) _
  · exact le_rfl

theorem share_op : share m lh .op k = m - k.card := rfl

theorem Reserved.share_le (h : Reserved m s c) (q : Slot) :
    share m s.lh (s.pc q) (c q) ≤ m * if (s.pc q).inOp then 1 else 0 := by
  unfold share
  split_ifs
  · have hle := h.budget q
    have hadds : (s.pc q).adds s.lh ≤ (c q).card := by
      unfold Pc.adds
      split
      · rename_i b hb
        have hpos := Finset.card_pos.mpr ⟨b, h.logging q b hb⟩
        split_ifs
        · exact Nat.zero_le _
        · exact hpos
      · exact Nat.zero_le _
    omega
  · exact le_rfl

theorem Reserved.sum_share_le (h : Reserved m s c) (hinv : Inv sb s g) :
    ∑ q, share m s.lh (s.pc q) (c q) ≤ m * s.outstanding := by
  have hcount : s.outstanding = ∑ q, if (s.pc q).inOp then 1 else 0 := by
    have := hinv.count
    exact_mod_cast this
  rw [hcount, Finset.mul_sum]
  exact Finset.sum_le_sum fun q _ => h.share_le q

/-- While no operation is outstanding and nobody commits, `log.lh` is empty. -/
theorem Inv.lh_eq_nil (h : Inv sb s g) (hup : s.mode = .up) (hc : s.committing = false)
    (h0 : s.outstanding = 0) : s.lh = [] := by
  have hm := h.mode
  rw [hup] at hm
  rcases hm with ⟨-, -, hga, hW⟩ | ⟨hc', -⟩
  · refine List.eq_nil_iff_forall_not_mem.mpr fun b hb => ?_
    have := (hga.mem b).mp hb
    rw [hW h0] at this
    cases this
  · rw [hc] at hc'
    cases hc'

theorem Reserved.room_begin (h : Reserved m s c) (hinv : Inv sb s g) (hm : m ≤ MAXOPBLOCKS)
    (hup : s.mode = .up) (hc : s.committing = false)
    (hlim : s.lh.length + (s.outstanding + 1) * MAXOPBLOCKS ≤ LOGSIZE) :
    s.lh.length + (∑ q, share m s.lh (s.pc q) (c q) + m) ≤ MAXOPBLOCKS + 2 * m := by
  have hsum := h.sum_share_le hinv
  have hnil : s.outstanding = 0 → s.lh.length = 0 := fun h0 => by
    rw [hinv.lh_eq_nil hup hc h0]
    rfl
  unfold LOGSIZE MAXOPBLOCKS at hlim
  unfold MAXOPBLOCKS at hm ⊢
  generalize s.outstanding = n at *
  have hn : n < 3 := by omega
  interval_cases n
  · omega
  · omega
  · omega

/-- **One process moves on**, from the share that it has to another. -/
theorem Reserved.move (h : Reserved m s c) (hpc : t.pc = Function.update s.pc p x)
    (hlh : ∀ b ∈ s.lh, b ∈ t.lh) (hk : k.card ≤ m) (hx : ∀ b, x = .logging b → b ∈ k)
    (hk' : x.inOp = true → ∀ b ∈ k, b ∈ t.lh ∨ x = .logging b)
    (hroom : t.mode = .up → t.committing = false →
      t.lh.length + (∑ q, share m s.lh (s.pc q) (c q) + share m t.lh x k) ≤
        MAXOPBLOCKS + 2 * m + share m s.lh (s.pc p) (c p)) :
    Reserved m t (Function.update c p k) := by
  refine ⟨fun q => ?_, fun q b hq => ?_, fun q hq b hb => ?_, fun hup hc => ?_⟩
  · by_cases hqp : q = p
    · rw [hqp, Function.update_self]
      exact hk
    · rw [Function.update_of_ne hqp]
      exact h.budget q
  · rw [hpc] at hq
    by_cases hqp : q = p
    · rw [hqp, Function.update_self] at hq ⊢
      exact hx b hq
    · rw [Function.update_of_ne hqp] at hq ⊢
      exact h.logging q b hq
  · rw [hpc] at hq ⊢
    by_cases hqp : q = p
    · rw [hqp, Function.update_self] at hq hb ⊢
      exact hk' hq b hb
    · rw [Function.update_of_ne hqp] at hq hb ⊢
      exact (h.logged q hq b hb).imp_left (hlh b)
  · have hsum := sum_add_le_of_le_off p
      (f := fun q => share m t.lh (t.pc q) (Function.update c p k q))
      (g := fun q => share m s.lh (s.pc q) (c q)) fun q hqp => by
        rw [hpc, Function.update_of_ne hqp, Function.update_of_ne hqp]
        exact share_le_share hlh
    have hnew : share m t.lh (t.pc p) (Function.update c p k p) = share m t.lh x k := by
      rw [hpc, Function.update_self, Function.update_self]
    have := hroom hup hc
    rw [hnew] at hsum
    omega

/-- `log_write` on a block that the operation has used before takes no room, and on another one it
takes one block of its budget. -/
theorem Reserved.share_logging (h : Reserved m s c) (hp : s.pc p = .op)
    (ha : (insert b (c p)).card ≤ m) :
    share m s.lh (.logging b) (insert b (c p)) ≤ m - (c p).card := by
  change m - (insert b (c p)).card + (if b ∈ s.lh then 0 else 1) ≤ m - (c p).card
  by_cases hb : b ∈ c p
  · have hmem : b ∈ s.lh := (h.logged p (by rw [hp]; rfl) b hb).resolve_right (by rw [hp]; nofun)
    rw [Finset.insert_eq_self.mpr hb, if_pos hmem]
    exact le_rfl
  · rw [Finset.card_insert_of_notMem hb] at ha ⊢
    split_ifs <;> omega

theorem Reserved.step (h : Reserved m s c) (hinv : Inv sb s g) (hm : m ≤ MAXOPBLOCKS)
    (ha : Affords m c a) (hs : Log.step sb s a = some (t, e)) : Reserved m t (calls c a) := by
  cases step_moves hinv hs with
  | quiet hlh hpc hmode hc hcalls =>
    rw [hcalls]
    refine ⟨h.budget, ?_, ?_, ?_⟩
    · rw [hpc]
      exact h.logging
    · rw [hpc, hlh]
      exact h.logged
    · rw [hpc, hlh, hmode, hc]
      exact h.room
  | @beginOp p hp hlim hlh hpc hup hc =>
    refine h.move hpc (fun b hb => hlh ▸ hb) (Nat.zero_le m) nofun (fun _ _ hb => nomatch hb) ?_
    intro _ _
    have hroom := h.room_begin hinv hm hup hc hlim
    rw [share_op, Finset.card_empty, hlh]
    omega
  | @logWrite p b d hp hlh hpc hmode hc =>
    refine h.move hpc (fun b hb => hlh ▸ hb) ha ?_ ?_ ?_
    · rintro x ⟨⟩
      exact Finset.mem_insert_self b (c p)
    · intro _ x hx
      rcases Finset.mem_insert.mp hx with rfl | hx
      · exact Or.inr rfl
      · refine Or.inl ?_
        rw [hlh]
        exact (h.logged p (by rw [hp]; rfl) x hx).resolve_right (by rw [hp]; nofun)
    · intro hup hcom
      have hroom := h.room (hmode ▸ hup) (hc ▸ hcom)
      have hshare := h.share_logging hp ha
      rw [hp, share_op, hlh]
      omega
  | @logAppend p b hp hlh hpc hmode hc =>
    have hsub : ∀ x ∈ s.lh, x ∈ t.lh := fun x hx => by
      rw [hlh]
      split_ifs
      · exact hx
      · exact List.mem_append_left _ hx
    have hb : b ∈ t.lh := by
      rw [hlh]
      split_ifs with hmem
      · exact hmem
      · exact List.mem_append_right _ (List.mem_singleton_self b)
    have hmove := h.move (k := c p) hpc hsub (h.budget p) nofun ?_ ?_
    · rwa [Function.update_eq_self] at hmove
    · intro _ x hx
      rcases h.logged p (by rw [hp]; rfl) x hx with hmem | hlog
      · exact Or.inl (hsub x hmem)
      · rw [hp] at hlog
        cases hlog
        exact Or.inl hb
    · intro hup hcom
      have hroom := h.room (hmode ▸ hup) (hc ▸ hcom)
      have hshare : share m s.lh (s.pc p) (c p) =
          m - (c p).card + if b ∈ s.lh then 0 else 1 := by
        rw [hp]
        rfl
      rw [share_op, hshare, hlh]
      split_ifs
      · omega
      · rw [List.length_append, List.length_singleton]
        omega
  | @endOp p hp hlh hpc hmode hc =>
    have hmove := h.move (k := c p) hpc (fun b hb => hlh ▸ hb) (h.budget p) nofun nofun ?_
    · rwa [Function.update_eq_self] at hmove
    · intro hup hcom
      have hroom := h.room (hmode ▸ hup) (hc ▸ hcom)
      have hout : share m t.lh .out (c p) = 0 := rfl
      rw [hout, hlh]
      omega
  | finish hpc hcalls =>
    rw [hcalls]
    have hinv' := hinv.step hs
    refine ⟨h.budget, fun q b hq => ?_, fun q hq => ?_, fun hup hc => ?_⟩
    · have := hpc q
      rw [hq] at this
      cases this
    · rw [hpc q] at hq
      cases hq
    · have hzero : t.outstanding = 0 := by
        have hcount := hinv'.count
        rw [Finset.sum_eq_zero fun q _ => by rw [hpc q]; rfl] at hcount
        exact_mod_cast hcount
      rw [hinv'.lh_eq_nil hup hc hzero, Finset.sum_eq_zero fun q _ => by
        unfold share
        rw [hpc q]
        rfl]
      exact Nat.zero_le _

/-! ## The run -/

theorem reserved_reboot (m : ℕ) (disk : ℕ → Block) :
    Reserved m (State.reboot disk) fun _ => ∅ :=
  ⟨fun _ => Nat.zero_le m, nofun, nofun, nofun⟩

theorem reserved_exec (hinv : Inv sb s g) (h : Reserved m s c) (hm : m ≤ MAXOPBLOCKS)
    {as : List Label} {es : List Event} (hs : exec (step sb) s as = some (t, es))
    (hb : WithinBudget m c as) : Reserved m t (as.foldl calls c) := by
  refine exec_induction (P := fun as t es => WithinBudget m c as →
    Reserved m t (as.foldl calls c)) (fun _ => h) ?_ hs hb
  intro as u es a u' e hu ih hu' hb
  obtain ⟨hb, ha⟩ := withinBudget_concat_iff.mp hb
  rw [List.foldl_append]
  exact (ih hb).step (inv_exec hinv hu) hm ha hu'

/-- While operations are gathering a transaction within their budgets, this bounds `log.lh.n`. -/
theorem Reserved.length_le (h : Reserved m s c) (hinv : Inv sb s g) (hup : s.mode = .up)
    (hp : (s.pc p).inOp = true) :
    s.lh.length + (s.pc p).adds s.lh ≤ MAXOPBLOCKS + 2 * m := by
  have hroom := h.room hup (hinv.gathering hup hp).1
  have hle := Finset.single_le_sum (f := fun q => share m s.lh (s.pc q) (c q))
    (fun q _ => Nat.zero_le _) (Finset.mem_univ p)
  have hshare : (s.pc p).adds s.lh ≤ share m s.lh (s.pc p) (c p) := by
    unfold share
    rw [if_pos hp]
    omega
  omega

/-- The checks of `log_write` in a call that `begin_op` has prepared. -/
theorem logWrite_eq_none_iff (hinv : Inv sb s g) (hsize : sb.nlog = LOGSIZE)
    (hcall : Calls sb s p b) : logWrite sb p b d s = none ↔ LOGSIZE - 1 ≤ s.lh.length := by
  obtain ⟨i, hi, howner⟩ := hcall.held
  have hpos := hinv.outstanding_pos (p := p) (by rw [hcall.pc]; rfl)
  unfold logWrite
  rw [if_pos ⟨hcall.pc, hcall.isHome⟩]
  simp only [hi]
  rw [if_pos howner, hsize]
  split_ifs with hlim hout
  · simp only [true_iff]
    omega
  · omega
  · simp only [false_iff]
    omega

/-- **The space in the log.**  Boot from a disk with a sound log of `LOGSIZE` blocks, and let
operations that call `log_write` on at most `MAXOPBLOCKS` different blocks each run in any order.

* `log.lh.block` is never indexed out of bounds.
* A call of `log_write` panics if and only if the transaction has `LOGSIZE - 1` blocks by then.
* This does not happen if no operation uses more than `MAXOPBLOCKS - 1` of its blocks. -/
theorem logWrite_of_exec {disk : ℕ → Block} (hdisk : HeadOk sb disk) (hsize : sb.nlog = LOGSIZE)
    {as : List Label} {es : List Event} (h : exec (step sb) (State.reboot disk) as = some (s, es))
    (hb : WithinBudget MAXOPBLOCKS (fun _ => ∅) as) :
    (∀ p b, s.mode = .up → s.pc p = .logging b → s.lh.idxOf b < LOGSIZE) ∧
      ∀ p b d, Calls sb s p b →
        (logWrite sb p b d s = none ↔ LOGSIZE - 1 ≤ s.lh.length) ∧
        (WithinBudget (MAXOPBLOCKS - 1) (fun _ => ∅) as → s.lh.length < LOGSIZE - 1) := by
  have hinv := inv_exec (inv_reboot hdisk fun b _ => rfl) h
  have hthirty : MAXOPBLOCKS + 2 * MAXOPBLOCKS = LOGSIZE := rfl
  have hless : MAXOPBLOCKS + 2 * (MAXOPBLOCKS - 1) = LOGSIZE - 2 := rfl
  have hlt : 2 < LOGSIZE := by decide
  refine ⟨fun p b hup hp => ?_, fun p b d hcall => ⟨logWrite_eq_none_iff hinv hsize hcall, ?_⟩⟩
  · have hres := reserved_exec (inv_reboot hdisk fun b _ => rfl)
      (reserved_reboot MAXOPBLOCKS disk) le_rfl h hb
    have hlen := hres.length_le hinv hup (p := p) (by rw [hp]; rfl)
    rw [hp] at hlen
    change s.lh.length + (if b ∈ s.lh then 0 else 1) ≤ _ at hlen
    split_ifs at hlen with hmem
    · have := List.idxOf_lt_length_of_mem hmem
      omega
    · rw [List.idxOf_eq_length hmem]
      omega
  · intro hb'
    have hres := reserved_exec (inv_reboot hdisk fun b _ => rfl)
      (reserved_reboot (MAXOPBLOCKS - 1) disk) (Nat.sub_le _ _) h hb'
    have hlen := hres.length_le hinv hcall.up (p := p) (by rw [hcall.pc]; rfl)
    omega

/-- A process between `begin_op` and `end_op` holds a block. -/
theorem calls_of_lookup (hup : s.mode = .up) (hp : s.pc p = .op) (hb : sb.IsHome b)
    (h : ((s.dev.lookup b).bind fun i => (s.dev.buf i).owner) = some p) : Calls sb s p b := by
  obtain ⟨i, hi, howner⟩ := Option.bind_eq_some_iff.mp h
  exact ⟨hup, hp, hb, i, hi, howner⟩

/-- Recovery, and an operation that logs the block 100. -/
def oneRun : List Label :=
  List.replicate 3 (.recover 0 0 1) ++ [.beginOp 0, .bread 0 100 0,
      .logWrite 0 100 (fun _ => 7), .logAppend 0]

theorem logWrite_of_oneRun :
    ∃ s es, exec (step .mkfs) (State.reboot fun _ _ => 0) oneRun = some (s, es) ∧
      Calls .mkfs s 0 100 ∧ s.lh.length < LOGSIZE - 1 ∧
      logWrite .mkfs 0 100 (fun _ => 8) s ≠ none := by
  have hrun : (exec (step .mkfs) (State.reboot fun _ _ => 0) oneRun).map (fun r =>
      (r.1.mode, r.1.pc 0, (r.1.dev.lookup 100).bind fun i => (r.1.dev.buf i).owner)) =
      some (.up, .op, some 0) := by decide +kernel
  obtain ⟨⟨s, es⟩, hs, heq⟩ := Option.map_eq_some_iff.mp hrun
  obtain ⟨hup, heq⟩ := Prod.mk.inj heq
  obtain ⟨hp, hheld⟩ := Prod.mk.inj heq
  have hcall : Calls .mkfs s 0 100 := calls_of_lookup hup hp (by decide) hheld
  obtain ⟨hiff, hlt⟩ := (logWrite_of_exec (headOk_of_empty rfl) rfl hs (by decide +kernel)).2
    0 100 (fun _ => 8) hcall
  have hlen := hlt (by decide +kernel)
  exact ⟨s, es, hs, hcall, hlen, fun hnone => absurd (hiff.mp hnone) (by omega)⟩

/-- Three operations: the first one logs the blocks 100 to 109, the second one the next ten, and the
third one nine more; it then takes the block 129. -/
def fillRun : List Label :=
  List.replicate 3 (.recover 0 0 1) ++ [.beginOp 0, .beginOp 1, .beginOp 2] ++
    (List.finRange 29).flatMap (fun k =>
      [.bread ⟨k / 10, by unfold NPROC; omega⟩ (100 + k) (k.castLE (by decide)),
       .logWrite ⟨k / 10, by unfold NPROC; omega⟩ (100 + k) fun _ => 7,
       .logAppend ⟨k / 10, by unfold NPROC; omega⟩]) ++
    [.bread 2 129 29]

/-- **Counterexample.**  The third operation calls `log_write` on its tenth block, which is within
its budget, and panics. -/
theorem logWrite_panics_after_fillRun :
    ∃ s es, exec (step .mkfs) (State.reboot fun _ _ => 0) fillRun = some (s, es) ∧
      WithinBudget MAXOPBLOCKS (fun _ => ∅) (fillRun ++ [.logWrite 2 129 fun _ => 7]) ∧
      Calls .mkfs s 2 129 ∧ logWrite .mkfs 2 129 (fun _ => 7) s = none := by
  have hrun : (exec (step .mkfs) (State.reboot fun _ _ => 0) fillRun).map (fun r =>
      (r.1.mode, r.1.pc 2, ((r.1.dev.lookup 129).bind fun i => (r.1.dev.buf i).owner),
        (logWrite .mkfs 2 129 (fun _ => 7) r.1).isNone)) =
      some (.up, .op, some 2, true) := by decide +kernel
  obtain ⟨⟨s, es⟩, hs, heq⟩ := Option.map_eq_some_iff.mp hrun
  obtain ⟨hup, heq⟩ := Prod.mk.inj heq
  obtain ⟨hp, heq⟩ := Prod.mk.inj heq
  obtain ⟨hheld, hnone⟩ := Prod.mk.inj heq
  exact ⟨s, es, hs, by decide +kernel, calls_of_lookup hup hp (by decide) hheld,
    Option.isNone_iff_eq_none.mp hnone⟩

end Xv6.Log
