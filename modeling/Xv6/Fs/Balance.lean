import Xv6.Fs.Bmap
import Xv6.Fs.Directory
import Xv6.Lib.Ledger

/-!
# References and operations are balanced

What the functions of the file system do to the reference counts of the inode cache and to the
number of operations in the log, in any state whatever: nothing here assumes that the disk is in
order.  Most functions leave both alone (`Quiet`).  `iget` and `idup` add a reference, `iput` takes
one away, and `namei` returns one reference or none.
-/

namespace Xv6.Fs

open Lib

/-- The places of the cache have the reference counts `c`, and `n` operations are in progress. -/
structure Counts (s : State) (c : Icache → ℕ) (n : ℕ) : Prop where
  ref : ∀ ip, (s.inode ip).ref = c ip
  ops : s.outstanding = n

/-- The program leaves the counts alone, if it returns. -/
def Quiet {α : Type} (m : Op α) : Prop :=
  ∀ ⦃s c n⦄, Counts s c n → wp m s (fun _ s' => Counts s' c n) (fun _ => True)

variable {α β : Type} {m : Op α} {s : State} {c : Icache → ℕ} {n : ℕ} {ip : Icache}

/-! ## The ways to build a program -/

protected theorem Quiet.pure (a : α) : Quiet (pure a : Op α) := fun _ _ _ h => h

protected theorem Quiet.throw (e : Stop) : Quiet (throw e : Op α) := fun _ _ _ _ => trivial

protected theorem Quiet.get : Quiet (get : Op State) := fun _ _ _ h => h

protected theorem Quiet.bind {f : α → Op β} (hm : Quiet m) (hf : ∀ a, Quiet (f a)) :
    Quiet (m >>= f) := fun _ _ _ h => (hm h).bind fun a _ h' => hf a h'

protected theorem Quiet.ite {p : Prop} [Decidable p] {m' : Op α} (hm : Quiet m) (hm' : Quiet m') :
    Quiet (if p then m else m') := by
  split_ifs
  · exact hm
  · exact hm'

theorem Counts.putInode (h : Counts s c n) {x : Inode} {c' : Icache → ℕ} (hx : x.ref = c' ip)
    (hoff : ∀ iq, iq ≠ ip → c' iq = c iq) : Counts (s.putInode ip x) c' n := by
  refine ⟨fun iq => ?_, h.ops⟩
  by_cases hq : iq = ip
  · rw [hq, putInode_self, hx]
  · rw [putInode_of_ne hq, h.ref, hoff iq hq]

theorem quiet_setInode {f : Inode → Inode} (hf : ∀ x, (f x).ref = x.ref) (ip : Icache) :
    Quiet (setInode ip f) := by
  intro s c n h
  rw [wp_setInode]
  exact h.putInode ((hf _).trans (h.ref ip)) fun _ _ => rfl

theorem quiet_setDin (f : Dinode → Dinode) (ip : Icache) : Quiet (setDin ip f) :=
  quiet_setInode (fun _ => by rfl) ip

/-! ## Blocks -/

theorem quiet_logWrite (b : ℕ) (f : Block → Block) : Quiet (logWrite b f) := by
  intro s c n h
  rw [logWrite, wp_bind, wp_get, wp_ite]
  exact ⟨fun _ => trivial, fun _ => ⟨h.ref, h.ops⟩⟩

theorem quiet_bread (b : ℕ) : Quiet (bread b) := Quiet.bind Quiet.get fun _ => Quiet.pure _

theorem quiet_balloc : Quiet balloc := by
  refine Quiet.bind Quiet.get fun s => ?_
  split
  · exact (quiet_logWrite _ _).bind fun _ => (quiet_logWrite _ _).bind fun _ => Quiet.pure _
  · exact Quiet.throw _

theorem quiet_bfree (b : ℕ) : Quiet (bfree b) := by
  have hsb : Quiet (modify fun s : State => { s with sb := readsb s.disk }) :=
    fun _ _ _ h => ⟨h.ref, h.ops⟩
  exact hsb.bind fun _ => Quiet.get.bind fun _ => (quiet_logWrite _ _).ite (Quiet.throw _)

theorem quiet_loadAddr (ip : Icache) (k : Fin (NDIRECT + 1)) : Quiet (loadAddr ip k) := by
  refine Quiet.get.bind fun s => Quiet.ite ?_ (Quiet.pure _)
  exact quiet_balloc.bind fun b => (quiet_setDin _ ip).bind fun _ => Quiet.pure b

theorem quiet_loadEntry (t j : ℕ) : Quiet (loadEntry t j) := by
  refine (quiet_bread t).bind fun blk => Quiet.ite ?_ (Quiet.pure _)
  exact quiet_balloc.bind fun b => (quiet_logWrite _ _).bind fun _ => Quiet.pure b

theorem quiet_bmap (ip : Icache) (bn : ℕ) : Quiet (bmap ip bn) := by
  unfold bmap
  split_ifs
  · exact quiet_loadAddr ip _
  · exact (quiet_loadAddr ip _).bind fun t => quiet_loadEntry t _
  · exact Quiet.throw _

theorem quiet_iupdate (ip : Icache) : Quiet (iupdate ip) :=
  Quiet.get.bind fun _ => quiet_logWrite _ _

/-! ## Reading -/

theorem quiet_readiLoop (ip : Icache) (fuel off m : ℕ) : Quiet (readiLoop ip fuel off m) := by
  induction fuel generalizing off m with
  | zero => exact Quiet.pure _
  | succ fuel ih =>
    have hfill : Quiet noteFill := fun _ _ _ h => ⟨h.ref, h.ops⟩
    refine Quiet.ite (Quiet.pure _) (Quiet.get.bind fun s =>
      Quiet.ite (hfill.bind fun _ => ?_) ?_) <;>
      exact (quiet_bmap ip _).bind fun b => (quiet_bread b).bind fun blk =>
        (ih _ _).bind fun rest => Quiet.pure _

/-- **`readi`** may allocate blocks, but takes no reference and ends no operation. -/
theorem quiet_readi (ip : Icache) (off m : UInt32) : Quiet (readi ip off m) := by
  refine Quiet.get.bind fun s =>
    Quiet.ite (Quiet.ite (Quiet.pure _) ?_) (Quiet.ite (Quiet.pure _) ?_)
  · split <;> exact Quiet.pure _
  · exact (quiet_readiLoop ip _ _ _).bind fun _ => Quiet.pure _

/-! ## Freeing -/

theorem quiet_freeAddrs (ip : Icache) (ks : List (Fin (NDIRECT + 1))) :
    Quiet (freeAddrs ip ks) := by
  induction ks with
  | nil => exact Quiet.pure _
  | cons k ks ih =>
    refine Quiet.get.bind fun s => Quiet.ite ih ?_
    exact (quiet_bfree _).bind fun _ => (quiet_setDin _ ip).bind fun _ => ih

theorem quiet_freeEntries (a : Block) (js : List (Fin NINDIRECT)) : Quiet (freeEntries a js) := by
  induction js with
  | nil => exact Quiet.pure _
  | cons j js ih => exact Quiet.ite ih ((quiet_bfree _).bind fun _ => ih)

theorem quiet_itrunc (ip : Icache) : Quiet (itrunc ip) := by
  have htable : Quiet (freeTable ip) := by
    refine Quiet.get.bind fun s => Quiet.ite (Quiet.pure _) ?_
    exact (quiet_bread _).bind fun a => (quiet_freeEntries a _).bind fun _ =>
      (quiet_bfree _).bind fun _ => quiet_setDin _ ip
  exact (quiet_freeAddrs ip _).bind fun _ => htable.bind fun _ => (quiet_setDin _ ip).bind fun _ =>
    quiet_iupdate ip

theorem quiet_ifree (ip : Icache) : Quiet (ifree ip) :=
  (quiet_itrunc ip).bind fun _ => (quiet_setDin _ ip).bind fun _ => (quiet_iupdate ip).bind fun _ =>
    quiet_setInode (fun _ => by rfl) ip

/-! ## Locks -/

theorem quiet_acquiresleep (ip : Icache) : Quiet (acquiresleep ip) :=
  Quiet.get.bind fun _ => (Quiet.throw _).ite (quiet_setInode (fun _ => by rfl) ip)

theorem quiet_releasesleep (ip : Icache) : Quiet (releasesleep ip) :=
  (quiet_setInode (fun _ => by rfl) ip).bind fun _ _ _ _ h => ⟨h.ref, h.ops⟩

theorem quiet_ilock (ip : Icache) : Quiet (ilock ip) := by
  refine Quiet.get.bind fun _ => (Quiet.throw _).ite ?_
  refine (quiet_acquiresleep ip).bind fun _ => Quiet.get.bind fun s => (Quiet.pure _).ite ?_
  exact (quiet_setInode (fun _ => by rfl) ip).bind fun _ => (Quiet.throw _).ite (Quiet.pure _)

theorem quiet_iunlock (ip : Icache) : Quiet (iunlock ip) :=
  Quiet.get.bind fun _ => (Quiet.throw _).ite (quiet_releasesleep ip)

/-! ## References -/

theorem iget_counts (h : Counts s c n) (i : ℕ) :
    wp (iget i) s (fun ip s' => Counts s' (c + Pi.single ip 1) n) (fun _ => True) := by
  rw [iget, wp_bind, wp_get]
  split
  · rename_i ip hip
    rw [wp_bind, wp_setInode]
    refine h.putInode ?_ fun iq hq => add_single_of_ne c hq
    rw [add_single_self, ← h.ref]
  · split
    · rename_i ip hip
      have hfound := List.find?_some hip
      have hzero : (s.inode ip).ref = 0 := of_decide_eq_true hfound
      rw [wp_bind, wp_setInode]
      refine h.putInode ?_ fun iq hq => add_single_of_ne c hq
      rw [add_single_self, ← h.ref, hzero]
    · trivial

theorem idup_counts (h : Counts s c n) (ip : Icache) :
    wp (idup ip) s (fun iq s' => Counts s' (c + Pi.single iq 1) n) (fun _ => True) := by
  rw [idup, wp_bind, wp_setInode]
  refine h.putInode ?_ fun iq hq => add_single_of_ne c hq
  rw [add_single_self, ← h.ref]

theorem iput_counts (h : Counts s (c + Pi.single ip 1) n) :
    wp (iput ip) s (fun _ s' => Counts s' c n) (fun _ => True) := by
  have hrest : ∀ s1, Counts s1 (c + Pi.single ip 1) n →
      wp (releasesleep ip >>= fun _ => setInode ip fun x => { x with ref := x.ref - 1 }) s1
        (fun _ s' => Counts s' c n) (fun _ => True) := by
    intro s1 h1
    refine (quiet_releasesleep ip h1).bind fun _ s2 h2 => ?_
    rw [wp_setInode]
    refine h2.putInode ?_ fun iq hq => (add_single_of_ne c hq).symm
    show (s2.inode ip).ref - 1 = c ip
    rw [h2.ref, add_single_self, Nat.add_sub_cancel]
  rw [iput]
  refine (quiet_acquiresleep ip h).bind fun _ s1 h1 => ?_
  rw [wp_bind, wp_get, wp_ite]
  refine ⟨fun _ => (quiet_ifree ip h1).bind fun _ s2 h2 => hrest s2 h2, fun _ => hrest s1 h1⟩

theorem iunlockput_counts (h : Counts s (c + Pi.single ip 1) n) :
    wp (iunlockput ip) s (fun _ s' => Counts s' c n) (fun _ => True) :=
  (quiet_iunlock ip h).bind fun _ _ h' => iput_counts h'

/-! ## Paths -/

theorem quiet_readDirent (dp : Icache) (off : ℕ) : Quiet (readDirent dp off) := by
  refine (quiet_readi dp _ _).bind fun r => ?_
  split <;> exact Quiet.pure _

theorem quiet_dirlookupLoop (dp : Icache) (name : Name) (k off : ℕ) :
    Quiet (dirlookupLoop dp name k off) := by
  induction k generalizing off with
  | zero => exact Quiet.pure _
  | succ k ih =>
    refine (quiet_readDirent dp off).bind fun r => ?_
    split
    · exact Quiet.throw _
    · exact (ih _).ite ((Quiet.pure _).ite (ih _))

/-- The counts after a function that returns a reference or none. -/
def Returned (c : Icache → ℕ) (n : ℕ) (o : Option Icache) (s : State) : Prop :=
  match o with
  | none => Counts s c n
  | some ip => Counts s (c + Pi.single ip 1) n

theorem dirlookup_counts (h : Counts s c n) (dp : Icache) (name : Name) :
    wp (dirlookup dp name) s (fun r s' => Returned c n (r.map Prod.fst) s') (fun _ => True) := by
  rw [dirlookup, wp_bind, wp_get, wp_ite]
  refine ⟨fun _ => trivial, fun _ => ?_⟩
  refine (quiet_dirlookupLoop dp name _ 0 h).bind fun r s1 h1 => ?_
  split
  · exact (iget_counts h1 _).bind fun _ _ h2 => h2
  · exact h1

theorem namexLoop_counts (fuel : ℕ) (path : Name) (h : Counts s (c + Pi.single ip 1) n) :
    wp (namexLoop false fuel ip path) s (fun r s' => Returned c n (r.map Prod.fst) s')
      (fun _ => True) := by
  induction fuel generalizing s ip path with
  | zero => exact h
  | succ fuel ih =>
    rw [namexLoop]
    split
    · exact h
    · rename_i name rest _
      refine (quiet_ilock ip h).bind fun _ s1 h1 => ?_
      rw [wp_bind, wp_get, wp_ite]
      refine ⟨fun _ => (iunlockput_counts h1).bind fun _ _ h2 => h2, fun _ => ?_⟩
      rw [wp_ite]
      refine ⟨fun hp => absurd hp.1 Bool.false_ne_true, fun _ => ?_⟩
      refine (dirlookup_counts h1 ip name).bind fun r s2 h2 => ?_
      split
      · exact (iunlockput_counts h2).bind fun _ _ h3 => h3
      · rename_i next off
        have h2' : Counts s2 (c + Pi.single next 1 + Pi.single ip 1) n := by
          rw [add_right_comm]
          exact h2
        exact (iunlockput_counts h2').bind fun _ s3 h3 => ih rest h3

/-- **`namei`** returns one reference, or none. -/
theorem namei_counts (h : Counts s c n) (cwd : Icache) (path : Name) :
    wp (namei cwd path) s (Returned c n) (fun _ => True) := by
  have hwalk : wp (namex cwd path false) s (fun r s' => Returned c n (r.map Prod.fst) s')
      (fun _ => True) := by
    rw [namex, wp_ite]
    exact ⟨fun _ => (iget_counts h ROOTINO).bind fun _ _ h1 => namexLoop_counts _ path h1,
      fun _ => (idup_counts h cwd).bind fun _ _ h1 => namexLoop_counts _ path h1⟩
  exact hwalk.bind fun _ _ h1 => h1

/-! ## Operations -/

theorem beginOp_counts (h : Counts s c n) :
    wp beginOp s (fun _ s' => Counts s' c (n + 1)) (fun _ => True) :=
  ⟨h.ref, by rw [← h.ops]⟩

theorem endOp_counts (h : Counts s c (n + 1)) :
    wp endOp s (fun _ s' => Counts s' c n) (fun _ => True) :=
  ⟨h.ref, Nat.sub_eq_of_eq_add h.ops⟩

end Xv6.Fs
