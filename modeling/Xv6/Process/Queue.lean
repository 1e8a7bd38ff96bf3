import Mathlib.Data.Fintype.Card
import Xv6.Process.Table

/-!
# What the queue operations do

`Process.Table` writes `enqueue`, `dequeue` and `removefromlevel` as the source does, one pointer
at a time.  Here each of them is one update of the link memory and of one pair of ends
(`enqueue_eq`, `removefromlevel_eq`, `dequeue_eq`), namely the one that `Lib.LinkedQueue`
specifies, and nothing else of the table changes.

`Queued s q x` is the state of the run queues while the process `x`, if any, is off them: each
level spells the list `q l`, and these lists hold exactly the runnable processes other than `x`,
each in the list of its own nice value.  The critical sections take a process off the queues,
change it, and put it back or leave it off; each of these moves has one lemma.
-/

namespace Xv6.Process

open PTable Lib

/-- The table with new links and new ends of level `l`. -/
def PTable.relink (s : PTable) (l : ℤ) (r : Links Slot × Level) : PTable :=
  { s with
    proc := fun q => { s.proc q with next := r.1.next q, back := r.1.back q }
    levels := fun k => if k = l then r.2 else s.levels k }

section Relink

variable (s : PTable) (l : ℤ) (r : Links Slot × Level)

@[simp] theorem relink_links : (s.relink l r).links = r.1 := rfl

theorem relink_proc (q : Slot) : (s.relink l r).proc q =
    { s.proc q with next := r.1.next q, back := r.1.back q } := rfl

theorem relink_levels (k : ℤ) : (s.relink l r).levels k = if k = l then r.2 else s.levels k := rfl

end Relink

/-- Two tables are equal once they agree off the links, on the links and on the levels. -/
theorem eq_relink {s t : PTable} {l : ℤ} {r : Links Slot × Level}
    (hproc : ∀ q, { t.proc q with next := none, back := none } =
      ({ s.proc q with next := none, back := none } : Proc))
    (hnext : ∀ q, (t.proc q).next = r.1.next q) (hback : ∀ q, (t.proc q).back = r.1.back q)
    (hlevels : ∀ k, t.levels k = if k = l then r.2 else s.levels k)
    (hrest : t.nextpid = s.nextpid ∧ t.initproc = s.initproc ∧ t.cpu = s.cpu) :
    t = s.relink l r := by
  obtain ⟨hpid, hinit, hcpu⟩ := hrest
  refine PTable.ext (funext fun q => ?_) (funext hlevels) hpid hinit hcpu
  have h := hproc q
  simp only [Proc.mk.injEq] at h
  rw [relink_proc]
  ext : 1
  case next => exact hnext q
  case back => exact hback q
  all_goals tauto

section Setters

variable (s : PTable) (p q : Slot) (o : Option Slot)

theorem setNext_offLinks : { (s.setNext p o).proc q with next := none, back := none } =
    ({ s.proc q with next := none, back := none } : Proc) := by
  rw [setNext, modProc_proc]
  split_ifs with h
  · rw [h]
  · rfl

theorem setBack_offLinks : { (s.setBack p o).proc q with next := none, back := none } =
    ({ s.proc q with next := none, back := none } : Proc) := by
  rw [setBack, modProc_proc]
  split_ifs with h
  · rw [h]
  · rfl

theorem setNext_next : ((s.setNext p o).proc q).next = if q = p then o else (s.proc q).next := by
  rw [setNext, modProc_proc]
  split_ifs <;> rfl

theorem setNext_back : ((s.setNext p o).proc q).back = (s.proc q).back := by
  rw [setNext, modProc_proc]
  split_ifs with h
  · rw [h]
  · rfl

theorem setBack_back : ((s.setBack p o).proc q).back = if q = p then o else (s.proc q).back := by
  rw [setBack, modProc_proc]
  split_ifs <;> rfl

theorem setBack_next : ((s.setBack p o).proc q).next = (s.proc q).next := by
  rw [setBack, modProc_proc]
  split_ifs with h
  · rw [h]
  · rfl

end Setters

/-- **`enqueue` is a push at the head of the level of the process.** -/
theorem enqueue_eq (p : Slot) (s : PTable) :
    enqueue p s = (s.modProc p fun x => { x with state := .runnable }).relink (s.proc p).nice
      (pushFront s.links (s.levels (s.proc p).nice) p) := by
  have hlinks : (s.modProc p fun x => { x with state := .runnable }).links = s.links := by
    simp only [links, modProc_proc, Links.mk.injEq]
    constructor <;> funext q <;> split_ifs with h <;> simp [h]
  rw [← hlinks, enqueue]
  generalize hs' : s.modProc p (fun x => { x with state := .runnable }) = s'
  have hnice : (s'.proc p).nice = (s.proc p).nice := by rw [← hs', modProc_proc_self]
  have hlev : s.levels = s'.levels := by rw [← hs', modProc_levels]
  rw [← hnice, hlev]
  generalize (s'.proc p).nice = l
  simp only [setNext_levels, setBack_levels]
  -- the level is empty, or not
  cases hh : (s'.levels l).head
  all_goals
    apply eq_relink
    · intro q
      simp [setNext_offLinks, setBack_offLinks, setLevel_proc]
    · intro q
      simp [setBack_next, setNext_next, setLevel_proc, pushFront, links, hh]
    · intro q
      simp [setBack_back, setNext_back, setLevel_proc, pushFront, links, hh]
    · intro k
      by_cases hk : k = l <;> simp [setLevel_levels, pushFront, hh, hk]
    · exact ⟨rfl, rfl, rfl⟩

/-- **`removefromlevel` unlinks the process**, whichever of its four branches is taken. -/
theorem removefromlevel_eq (p : Slot) (l : ℤ) (s : PTable) :
    removefromlevel p l s = s.relink l (unlink s.links (s.levels l) p) := by
  unfold removefromlevel
  cases hb : (s.proc p).back <;> cases hn : (s.proc p).next
  all_goals
    apply eq_relink
    · intro q
      simp [setNext_offLinks, setBack_offLinks, setLevel_proc]
    · intro q
      simp [setBack_next, setNext_next, setLevel_proc, unlink, links, hb, hn]
    · intro q
      simp [setBack_back, setNext_back, setLevel_proc, unlink, links, hb, hn]
    · intro k
      by_cases hk : k = l <;> simp [setLevel_levels, unlink, links, hb, hn, hk]
    · exact ⟨rfl, rfl, rfl⟩

/-- **`dequeue` unlinks the last process of the level**, when nothing follows it. -/
theorem dequeue_eq {l : ℤ} {s : PTable} {p : Slot} (hlast : (s.levels l).last = some p)
    (hnext : (s.proc p).next = none) : dequeue l s = some (p, removefromlevel p l s) := by
  cases hb : (s.proc p).back <;> simp only [dequeue, removefromlevel, hlast, hnext, hb]

/-! ## Fields that an operation leaves alone

`g` is a field of `struct proc`, or several of them. -/

variable {β : Type*}

theorem enqueue_field (g : Proc → β)
    (hg : ∀ y st n b, g { y with state := st, next := n, back := b } = g y) (p : Slot)
    (s : PTable) (q : Slot) : g ((enqueue p s).proc q) = g (s.proc q) := by
  rw [enqueue_eq, relink_proc, modProc_proc]
  split_ifs with h
  · rw [h]
    exact hg (s.proc p) _ _ _
  · exact hg (s.proc q) _ _ _

theorem enqueue_state (p : Slot) (s : PTable) (q : Slot) :
    ((enqueue p s).proc q).state = if q = p then .runnable else (s.proc q).state := by
  rw [enqueue_eq, relink_proc, modProc_proc]
  split_ifs <;> rfl

@[simp] theorem enqueue_cpu (p : Slot) (s : PTable) : (enqueue p s).cpu = s.cpu := by
  rw [enqueue_eq]; rfl

@[simp] theorem enqueue_nextpid (p : Slot) (s : PTable) : (enqueue p s).nextpid = s.nextpid := by
  rw [enqueue_eq]; rfl

@[simp] theorem enqueue_initproc (p : Slot) (s : PTable) :
    (enqueue p s).initproc = s.initproc := by
  rw [enqueue_eq]; rfl

theorem modNice_field (g : Proc → β) (hg : ∀ y n, g { y with nice := n } = g y)
    {p : Slot} {s t : PTable} (h : t = s ∨ ∃ n : Proc → ℤ, t = s.modProc p fun y =>
      { y with nice := n y }) (q : Slot) : g (t.proc q) = g (s.proc q) := by
  rcases h with rfl | ⟨n, rfl⟩
  · rfl
  · rw [modProc_proc]
    split_ifs with hq
    · rw [hq]
      exact hg _ _
    · rfl

theorem increasepriority_eq (p : Slot) (s : PTable) : increasepriority p s = s ∨
    ∃ n : Proc → ℤ, increasepriority p s = s.modProc p fun y => { y with nice := n y } := by
  unfold increasepriority
  split_ifs
  · exact Or.inr ⟨fun y => y.nice - 1, rfl⟩
  · exact Or.inl rfl

theorem decreasepriority_eq (p : Slot) (s : PTable) : decreasepriority p s = s ∨
    ∃ n : Proc → ℤ, decreasepriority p s = s.modProc p fun y => { y with nice := n y } := by
  unfold decreasepriority
  split_ifs
  · exact Or.inr ⟨fun y => y.nice + 1, rfl⟩
  · exact Or.inl rfl

theorem increasepriority_rest (p : Slot) (s : PTable) :
    (increasepriority p s).cpu = s.cpu ∧ (increasepriority p s).nextpid = s.nextpid ∧
      (increasepriority p s).initproc = s.initproc := by
  rcases increasepriority_eq p s with h | ⟨n, h⟩ <;> rw [h] <;> exact ⟨rfl, rfl, rfl⟩

theorem decreasepriority_rest (p : Slot) (s : PTable) :
    (decreasepriority p s).cpu = s.cpu ∧ (decreasepriority p s).nextpid = s.nextpid ∧
      (decreasepriority p s).initproc = s.initproc := by
  rcases decreasepriority_eq p s with h | ⟨n, h⟩ <;> rw [h] <;> exact ⟨rfl, rfl, rfl⟩

/-! ### `yield` -/

theorem yield_field (g : Proc → β) (hg : ∀ y st i n b k, g { y with
      state := st, nice := i, next := n, back := b, ticksCount := k } = g y)
    (c : ℕ) (p : Slot) (s : PTable) (q : Slot) : g ((yield c p s).proc q) = g (s.proc q) := by
  unfold yield sched
  rw [setCpu_proc]
  refine (enqueue_field g (fun y st n b => hg y st y.nice n b y.ticksCount) p _ q).trans
    ((modNice_field g (fun y n => hg y y.state n y.next y.back y.ticksCount)
      (decreasepriority_eq p _) q).trans ?_)
  rw [modProc_proc]
  split_ifs with h
  · rw [h]
    exact hg (s.proc p) _ _ _ _ _
  · rfl

theorem yield_state (c : ℕ) (p : Slot) (s : PTable) (q : Slot) :
    ((yield c p s).proc q).state = if q = p then .runnable else (s.proc q).state := by
  unfold yield sched
  rw [setCpu_proc, enqueue_state]
  split_ifs with h
  · rfl
  · rw [modNice_field (·.state) (fun _ _ => rfl) (decreasepriority_eq p _), modProc_proc, if_neg h]

theorem yield_rest (c : ℕ) (p : Slot) (s : PTable) :
    (yield c p s).cpu = (fun d => if d = c then none else s.cpu d) ∧
      (yield c p s).nextpid = s.nextpid ∧ (yield c p s).initproc = s.initproc := by
  unfold yield sched
  refine ⟨?_, ?_, ?_⟩
  · funext d
    rw [setCpu_cpu, enqueue_cpu, (decreasepriority_rest p _).1]
    rfl
  · rw [setCpu_nextpid, enqueue_nextpid, (decreasepriority_rest p _).2.1]
    rfl
  · rw [setCpu_initproc, enqueue_initproc, (decreasepriority_rest p _).2.2]
    rfl

/-! ### `wakeup1` -/

theorem wakeupOne_field (g : Proc → β)
    (hg : ∀ y st i n b, g { y with state := st, nice := i, next := n, back := b } = g y)
    (chan : Option Chan) (s : PTable) (p q : Slot) :
    g ((wakeupOne chan s p).proc q) = g (s.proc q) := by
  unfold wakeupOne
  split_ifs
  · exact (enqueue_field g (fun y st n b => hg y st y.nice n b) p _ q).trans
      (modNice_field g (fun y n => hg y y.state n y.next y.back) (increasepriority_eq p s) q)
  · rfl

theorem wakeupOne_state (chan : Option Chan) (s : PTable) (p q : Slot) :
    ((wakeupOne chan s p).proc q).state =
      if q = p ∧ (s.proc q).state = .sleeping ∧ (s.proc q).chan = chan then .runnable
      else (s.proc q).state := by
  unfold wakeupOne
  by_cases hq : q = p
  · subst hq
    by_cases h : (s.proc q).state = .sleeping ∧ (s.proc q).chan = chan
    · rw [if_pos h, enqueue_state, if_pos rfl, if_pos ⟨rfl, h⟩]
    · rw [if_neg h, if_neg fun hh => h hh.2]
  · rw [if_neg (c := q = p ∧ _) fun hh => hq hh.1]
    split_ifs
    · rw [enqueue_state, if_neg hq]
      exact modNice_field (·.state) (fun _ _ => rfl) (increasepriority_eq p s) q
    · rfl

theorem wakeupOne_rest (chan : Option Chan) (s : PTable) (p : Slot) :
    (wakeupOne chan s p).cpu = s.cpu ∧ (wakeupOne chan s p).nextpid = s.nextpid ∧
      (wakeupOne chan s p).initproc = s.initproc := by
  unfold wakeupOne
  split_ifs
  · rw [enqueue_cpu, enqueue_nextpid, enqueue_initproc]
    exact increasepriority_rest p s
  · exact ⟨rfl, rfl, rfl⟩

/-- What the body of the loop of `wakeup1` preserves, `wakeup1` preserves. -/
theorem wakeup1_induction {P : PTable → Prop} {chan : Option Chan} {s : PTable} (h : P s)
    (hbody : ∀ t p, P t → P (wakeupOne chan t p)) : P (wakeup1 chan s) := by
  unfold wakeup1
  exact List.foldlRecOn slots (wakeupOne chan) h fun t ht p _ => hbody t p ht

theorem wakeup1_field (g : Proc → β)
    (hg : ∀ y st i n b, g { y with state := st, nice := i, next := n, back := b } = g y)
    (chan : Option Chan) (s : PTable) (q : Slot) :
    g ((wakeup1 chan s).proc q) = g (s.proc q) :=
  wakeup1_induction (P := fun t => g (t.proc q) = g (s.proc q)) rfl
    fun t p ht => (wakeupOne_field g hg chan t p q).trans ht

theorem wakeup1_rest (chan : Option Chan) (s : PTable) :
    (wakeup1 chan s).cpu = s.cpu ∧ (wakeup1 chan s).nextpid = s.nextpid ∧
      (wakeup1 chan s).initproc = s.initproc := by
  refine wakeup1_induction (P := fun t => t.cpu = s.cpu ∧ t.nextpid = s.nextpid ∧
    t.initproc = s.initproc) ⟨rfl, rfl, rfl⟩ fun t p ht => ?_
  obtain ⟨h1, h2, h3⟩ := wakeupOne_rest chan t p
  exact ⟨h1.trans ht.1, h2.trans ht.2.1, h3.trans ht.2.2⟩

theorem foldl_wakeupOne_state (chan : Option Chan) (q : Slot) :
    ∀ (l : List Slot) (s : PTable), ((l.foldl (wakeupOne chan) s).proc q).state =
      if q ∈ l ∧ (s.proc q).state = .sleeping ∧ (s.proc q).chan = chan then .runnable
      else (s.proc q).state
  | [], s => by simp
  | p :: l, s => by
    have hc : ((wakeupOne chan s p).proc q).chan = (s.proc q).chan :=
      wakeupOne_field (·.chan) (fun _ _ _ _ _ => rfl) chan s p q
    rw [List.foldl_cons, foldl_wakeupOne_state chan q l, hc, wakeupOne_state]
    by_cases hq : q = p <;> by_cases hs : (s.proc q).state = .sleeping <;>
      by_cases hch : (s.proc q).chan = chan <;> simp [hq, hs, hch]
    all_goals simp_all

/-- **`wakeup1` makes exactly the processes that sleep on `chan` runnable.** -/
theorem wakeup1_state (chan : Option Chan) (s : PTable) (q : Slot) :
    ((wakeup1 chan s).proc q).state =
      if (s.proc q).state = .sleeping ∧ (s.proc q).chan = chan then .runnable
      else (s.proc q).state := by
  rw [wakeup1, foldl_wakeupOne_state]
  simp

/-! ## The run queues -/

def IsLevel (l : ℤ) : Prop := 0 ≤ l ∧ l < PLEVELS

instance (l : ℤ) : Decidable (IsLevel l) := inferInstanceAs (Decidable (_ ∧ _))

/-- The levels spell the lists `q`, which share no process. -/
structure Spells (s : PTable) (q : ℤ → List Slot) : Prop where
  isQueue : ∀ l, IsLevel l → IsQueue s.links (s.levels l) (q l)
  unique : ∀ {l k p}, IsLevel l → IsLevel k → p ∈ q l → p ∈ q k → l = k

/-- The run queues while the process `x` is off them. -/
structure Queued (s : PTable) (q : ℤ → List Slot) (x : Option Slot) : Prop where
  isQueue : ∀ l, IsLevel l → IsQueue s.links (s.levels l) (q l)
  mem_iff : ∀ l p, IsLevel l →
    (p ∈ q l ↔ (s.proc p).state = .runnable ∧ some p ≠ x ∧ (s.proc p).nice = l)
  nice : ∀ p, IsLevel (s.proc p).nice

variable {s : PTable} {q : ℤ → List Slot} {x : Option Slot} {p : Slot} {f : Proc → Proc}
  {a : List Slot}

theorem Queued.level_unique (h : Queued s q x) {l k : ℤ} (hl : IsLevel l) (hk : IsLevel k)
    (hp : p ∈ q l) (hp' : p ∈ q k) : l = k :=
  ((h.mem_iff l p hl).mp hp).2.2.symm.trans ((h.mem_iff k p hk).mp hp').2.2

theorem Queued.spells (h : Queued s q x) : Spells s q :=
  ⟨h.isQueue, fun hl hk hp hp' => h.level_unique hl hk hp hp'⟩

/-- The processes of level `l`, read from `head` along `next`: the newest first. -/
def PTable.queue (s : PTable) (l : ℤ) : List Slot := walk s.links NPROC (s.levels l).head

theorem Spells.queue_eq (h : Spells s q) {l : ℤ} (hl : IsLevel l) : s.queue l = q l := by
  have hisq := h.isQueue l hl
  refine hisq.walk_eq ?_
  have hlen := hisq.nodup.length_le_card
  rwa [Fintype.card_fin] at hlen

theorem Queued.queue (h : Queued s q x) : Queued s s.queue x where
  isQueue l hl := by
    rw [h.spells.queue_eq hl]
    exact h.isQueue l hl
  mem_iff l p hl := by
    rw [h.spells.queue_eq hl]
    exact h.mem_iff l p hl
  nice := h.nice

theorem Queued.off_iff (hp : (s.proc p).state ≠ .runnable) :
    Queued s q (some p) ↔ Queued s q none := by
  have hmem : ∀ r : Slot, (s.proc r).state = .runnable → some r ≠ some p := by
    rintro r hr heq
    rw [Option.some_inj.mp heq] at hr
    exact hp hr
  constructor
  · rintro ⟨h1, h2, h3⟩
    refine ⟨h1, fun l r hl => (h2 l r hl).trans ⟨?_, ?_⟩, h3⟩
    · rintro ⟨hr, -, hn⟩
      exact ⟨hr, Option.some_ne_none r, hn⟩
    · rintro ⟨hr, -, hn⟩
      exact ⟨hr, hmem r hr, hn⟩
  · rintro ⟨h1, h2, h3⟩
    refine ⟨h1, fun l r hl => (h2 l r hl).trans ⟨?_, ?_⟩, h3⟩
    · rintro ⟨hr, -, hn⟩
      exact ⟨hr, hmem r hr, hn⟩
    · rintro ⟨hr, -, hn⟩
      exact ⟨hr, Option.some_ne_none r, hn⟩

/-- **Frame rule.**  The queues depend on links, levels, states and nice values only. -/
theorem Queued.congr {t : PTable} (h : Queued s q x) (hlinks : t.links = s.links)
    (hlevels : t.levels = s.levels)
    (hproc : ∀ p, (t.proc p).state = (s.proc p).state ∧ (t.proc p).nice = (s.proc p).nice) :
    Queued t q x where
  isQueue l hl := by
    rw [hlinks, hlevels]
    exact h.isQueue l hl
  mem_iff l p hl := by
    rw [(hproc p).1, (hproc p).2]
    exact h.mem_iff l p hl
  nice p := by
    rw [(hproc p).2]
    exact h.nice p

theorem links_modProc (hf : ∀ y, (f y).next = y.next ∧ (f y).back = y.back) :
    (s.modProc p f).links = s.links := by
  simp only [links, modProc_proc, Links.mk.injEq]
  constructor <;> funext r <;> split_ifs with hr <;> simp [hr, hf]

/-- A process that is off the queues can change, except for its links. -/
theorem Queued.modProc_off (h : Queued s q (some p))
    (hf : ∀ y, (f y).next = y.next ∧ (f y).back = y.back)
    (hnice : IsLevel (f (s.proc p)).nice) : Queued (s.modProc p f) q (some p) where
  isQueue l hl := by
    rw [links_modProc hf, modProc_levels]
    exact h.isQueue l hl
  mem_iff l r hl := by
    rw [h.mem_iff l r hl]
    by_cases hr : r = p
    · subst hr
      simp
    · rw [modProc_proc, if_neg hr]
  nice r := by
    rw [modProc_proc]
    split_ifs
    · exact hnice
    · exact h.nice r

/-- A queued process can change, except for its links, its state and its nice value. -/
theorem Queued.modProc (h : Queued s q x) (hf : ∀ y, (f y).next = y.next ∧ (f y).back = y.back)
    (hf' : ∀ y, (f y).state = y.state ∧ (f y).nice = y.nice) : Queued (s.modProc p f) q x := by
  refine h.congr (links_modProc hf) rfl fun r => ?_
  rw [modProc_proc]
  split_ifs with hr
  · rw [hr]
    exact hf' _
  · exact ⟨rfl, rfl⟩

theorem Queued.increasepriority (h : Queued s q (some p)) :
    Queued (increasepriority p s) q (some p) := by
  unfold Process.increasepriority
  split_ifs with hn
  · refine h.modProc_off (fun _ => ⟨rfl, rfl⟩) ?_
    have := (h.nice p).2
    exact ⟨by dsimp only; omega, by dsimp only; omega⟩
  · exact h

theorem Queued.decreasepriority (h : Queued s q (some p)) :
    Queued (decreasepriority p s) q (some p) := by
  unfold Process.decreasepriority
  split_ifs with hn
  · refine h.modProc_off (fun _ => ⟨rfl, rfl⟩) ?_
    have := (h.nice p).1
    exact ⟨by dsimp only; omega, by dsimp only; omega⟩
  · exact h

/-- **`enqueue` adds the newest process to the list of its level.** -/
theorem Spells.enqueue (h : Spells s q) (hnice : IsLevel (s.proc p).nice)
    (hoff : ∀ l, IsLevel l → p ∉ q l) :
    Spells (enqueue p s) fun l => if l = (s.proc p).nice then p :: q l else q l := by
  rw [enqueue_eq]
  refine ⟨?_, ?_⟩
  · intro l hl
    rw [relink_links, relink_levels]
    by_cases hk : l = (s.proc p).nice
    · subst hk
      rw [if_pos rfl, if_pos rfl]
      exact (h.isQueue _ hl).pushFront (hoff _ hl)
    · -- another level: its nodes are neither `p` nor the old head of the level of `p`
      rw [if_neg hk, if_neg hk]
      refine (h.isQueue l hl).congr fun r hr => ?_
      have hrp : r ≠ p := fun hh => hoff l hl (hh ▸ hr)
      have hrh : some r ≠ (s.levels (s.proc p).nice).head := by
        intro hh
        have hmem : r ∈ q (s.proc p).nice := by
          rw [(h.isQueue _ hnice).head_eq] at hh
          exact List.mem_of_mem_head? hh.symm
        exact hk (h.unique hl hnice hr hmem)
      simp only [pushFront, if_neg hrp, if_neg hrh, and_self]
  · have hmem : ∀ {l r}, r ∈ (if l = (s.proc p).nice then p :: q l else q l) →
        r = p ∧ l = (s.proc p).nice ∨ r ∈ q l := by
      intro l r hr
      split_ifs at hr with hl
      · exact (List.mem_cons.mp hr).imp_left fun hrp => ⟨hrp, hl⟩
      · exact Or.inr hr
    intro l k r hl hk hr hr'
    rcases hmem hr with ⟨hrp, hl'⟩ | hrl
    · rcases hmem hr' with ⟨-, hk'⟩ | hrk
      · rw [hl', hk']
      · exact absurd (hrp ▸ hrk) (hoff k hk)
    · rcases hmem hr' with ⟨hrp, -⟩ | hrk
      · exact absurd (hrp ▸ hrl) (hoff l hl)
      · exact h.unique hl hk hrl hrk

/-- **`removefromlevel` deletes the process from the list of the level.** -/
theorem Spells.removefromlevel (h : Spells s q) {l : ℤ} (hl : IsLevel l) {b : List Slot}
    (hq : q l = a ++ p :: b) :
    Spells (removefromlevel p l s) fun k => if k = l then a ++ b else q k := by
  have hpl : p ∈ q l := by rw [hq]; simp
  have hisq := h.isQueue l hl
  rw [hq] at hisq
  rw [removefromlevel_eq]
  refine ⟨?_, ?_⟩
  · intro k hk
    rw [relink_links, relink_levels]
    by_cases hkl : k = l
    · subst hkl
      rw [if_pos rfl, if_pos rfl]
      exact hisq.unlink
    · -- another level: its nodes are neither `p` nor neighbours of `p`
      rw [if_neg hkl, if_neg hkl]
      refine (h.isQueue k hk).congr fun r hr => ?_
      have hother : r ∉ q l := fun hh => hkl (h.unique hk hl hr hh)
      obtain ⟨hback, hnext⟩ := hisq.threads a p b rfl
      have hrp : r ≠ p := fun hh => hother (hh ▸ hpl)
      have hrb : some r ≠ s.links.back p := by
        rw [hback, hq] at *
        exact fun hh => hother (List.mem_append_left _ (List.mem_of_mem_getLast? hh.symm))
      have hrn : some r ≠ s.links.next p := by
        rw [hnext, hq] at *
        exact fun hh => hother (List.mem_append_right _
          (List.mem_cons_of_mem _ (List.mem_of_mem_head? hh.symm)))
      simp only [unlink, if_neg hrp, if_neg hrb, if_neg hrn, and_self]
  · have hmem : ∀ {k r}, r ∈ (if k = l then a ++ b else q k) → r ∈ q k := by
      intro k r hr
      split_ifs at hr with hk
      · rw [hk, hq, List.mem_append, List.mem_cons]
        exact (List.mem_append.mp hr).imp_right Or.inr
      · exact hr
    intro k k' r hk hk' hr hr'
    exact h.unique hk hk' (hmem hr) (hmem hr')

/-- **`dequeue` takes the oldest process of a level that has one.** -/
theorem Spells.dequeue (h : Spells s q) {l : ℤ} (hl : IsLevel l)
    (hq : q l = a ++ [p]) : dequeue l s = some (p, Process.removefromlevel p l s) := by
  have hisq := h.isQueue l hl
  rw [hq] at hisq
  apply dequeue_eq
  · rw [hisq.last_eq]
    simp
  · exact (hisq.threads a p [] rfl).2

/-- **`enqueue` puts a process that is off the queues at the head of its level.** -/
theorem Queued.enqueue (h : Queued s q (some p)) :
    Queued (enqueue p s)
      (fun l => if l = (s.proc p).nice then p :: q l else q l) none := by
  have hoff : ∀ l, IsLevel l → p ∉ q l := fun l hl hp => ((h.mem_iff l p hl).mp hp).2.1 rfl
  refine ⟨(h.spells.enqueue (h.nice p) hoff).isQueue, ?_, ?_⟩
  · intro l r hl
    rw [enqueue_eq, relink_proc, modProc_proc]
    by_cases hr : r = p
    · subst hr
      by_cases hk : l = (s.proc r).nice
      · simp [hk]
      · simp [hk, hoff l hl, Ne.symm hk]
    · have hrp : some r ≠ some p := fun hh => hr (Option.some_inj.mp hh)
      have hmem : r ∈ (if l = (s.proc p).nice then p :: q l else q l) ↔ r ∈ q l := by
        split_ifs <;> simp [hr]
      rw [hmem, h.mem_iff l r hl, if_neg hr]
      simp [hrp]
  · intro r
    rw [enqueue_eq, relink_proc, modProc_proc]
    split_ifs with hr
    · exact h.nice p
    · exact h.nice r

/-- **`removefromlevel` takes a queued process off its level.** -/
theorem Queued.removefromlevel (h : Queued s q none) {l : ℤ} (hl : IsLevel l) {b : List Slot}
    (hq : q l = a ++ p :: b) :
    Queued (removefromlevel p l s) (fun k => if k = l then a ++ b else q k) (some p) := by
  have hpl : p ∈ q l := by rw [hq]; simp
  have hnd := (h.isQueue l hl).nodup
  rw [hq] at hnd
  obtain ⟨hpa, hpb⟩ := nodup_split hnd
  refine ⟨(h.spells.removefromlevel hl hq).isQueue, ?_, ?_⟩
  · intro k r hk
    rw [removefromlevel_eq, relink_proc]
    have hmem := h.mem_iff k r hk
    by_cases hr : r = p
    · subst hr
      by_cases hkl : k = l
      · simp [hkl, hpa, hpb]
      · have hrk : r ∉ q k := fun hh => hkl (h.level_unique hk hl hh hpl)
        simp [hkl, hrk]
    · have hrp : some r ≠ some p := fun hh => hr (Option.some_inj.mp hh)
      have hiff : r ∈ (if k = l then a ++ b else q k) ↔ r ∈ q k := by
        split_ifs with hkl
        · rw [hkl, hq]; simp [hr]
        · exact Iff.rfl
      rw [hiff, hmem]
      simp [hrp]
  · intro r
    rw [removefromlevel_eq]
    exact h.nice r

/-- **`dequeue` takes the last process of a non-empty level off it.** -/
theorem Queued.dequeue (h : Queued s q none) {l : ℤ} (hl : IsLevel l) (hq : q l = a ++ [p]) :
    dequeue l s = some (p, Process.removefromlevel p l s) ∧
      Queued (Process.removefromlevel p l s) (fun k => if k = l then a else q k) (some p) := by
  refine ⟨h.spells.dequeue hl hq, ?_⟩
  have hq' := h.removefromlevel hl hq
  rwa [List.append_nil] at hq'

end Xv6.Process
