import Xv6.Files.Brackets

/-!
# Waiting for the transaction and for locks of inodes

A process waits in `begin_trans` for the process that is inside a transaction, and in `ilock`
for the one that has set `I_BUSY`.  It begins a transaction before it locks an inode that it
keeps locked while it waits for another one, so of the processes that are waited for only the
one inside the transaction can wait.
-/

namespace Xv6.Files

open Xv6.Lib Xv6.Fs Xv6.Sched

variable {a : LogArea}

/-! ## Who has the locks -/

/-- The processes, and for each inode the process that has set `I_BUSY`. -/
structure Owned : Type 1 where
  pool : Pool Slot Sys Act Int
  owner : Entry → Option Slot

def Owned.busy (s : Pool Slot Sys Act Int) (e : Entry) : Bool := (s.state.fs.icache e).busy

/-- The owners after a turn that sets or clears some of the flags. -/
def Owned.after (s : Owned) (turn : Turn Slot Call Event) (t : Pool Slot Sys Act Int)
    (e : Entry) : Option Slot :=
  if busy t e then if busy s.pool e then s.owner e else turn.proc else none

def ownedMachine (a : LogArea) : Machine Owned (Turn Slot Call Event) where
  init s := (machine a).init s.pool ∧ s.owner = fun _ => none
  step s turn t := (machine a).step s.pool turn t.pool ∧ t.owner = s.after turn t.pool

/-- The process waits for the transaction or for an inode that the other one has. -/
def Owned.WaitsFor (s : Owned) (p q : Slot) : Prop :=
  (s.pool.action p = some .beginTrans ∧ s.pool.state.fs.trans = some q) ∨
    ∃ e, s.pool.action p = some (.ilock e) ∧ busy s.pool e = true ∧ s.owner e = some q

def Owned.Told (s : Owned) (acc : Slot → Acct) : Prop :=
  ∀ e q, s.owner e = some q ↔ (acc q).fs.lock e = true

theorem FsOk.lock_unique {base : Base} {s : FsState} {acc : Slot → FsAcct} {p q : Slot} {e : Entry}
    (h : FsOk base s acc) (hp : (acc p).lock e = true) (hq : (acc q).lock e = true) : p = q := by
  by_contra hne
  have hsum := h.busy e
  have htwo : ((acc p).lock e).toNat + ((acc q).lock e).toNat ≤
      ∑ r, ((acc r).lock e).toNat := by
    rw [← Finset.sum_pair hne (f := fun r => ((acc r).lock e).toNat)]
    exact Finset.sum_le_sum_of_subset (Finset.subset_univ _)
  have hle := Bool.toNat_le (s.icache e).busy
  rw [hp, hq, hsum] at htwo
  simp only [Bool.toNat_true] at htwo
  omega

theorem FsOk.exists_lock {base : Base} {s : FsState} {acc : Slot → FsAcct} {e : Entry}
    (h : FsOk base s acc) (hbusy : (s.icache e).busy = true) : ∃ p, (acc p).lock e = true := by
  by_contra hnone
  have hfree : ∀ p, (acc p).lock e = false := fun p =>
    Bool.eq_false_iff.2 fun hp => hnone ⟨p, hp⟩
  have hsum := h.busy e
  simp only [hfree, hbusy, Bool.toNat_false, Finset.sum_const_zero, Bool.toNat_true] at hsum
  cases hsum

variable {T : Terms} {s t : Owned} {acc acc' : Slot → Acct} {turn : Turn Slot Call Event}

theorem lock_of_follows (hs : Ok s.pool.state acc) (ht : Ok t.pool.state acc')
    (hfollows : (sysRules T).Follows turn acc acc') {q : Slot} (hq : turn.proc ≠ some q) :
    (acc' q).fs.lock = (acc q).fs.lock := by
  rcases hfollows q hq with heq | ⟨hidle, hidle'⟩
  · rw [heq]
  · rw [(hs.tables.rest q hidle).1.lock, (ht.tables.rest q hidle').1.lock]

theorem Owned.Told.next (h : s.Told acc) (hs : Ok s.pool.state acc) (ht : Ok t.pool.state acc')
    (hfollows : (sysRules T).Follows turn acc acc') (howner : t.owner = s.after turn t.pool) :
    t.Told acc' := by
  intro e q
  rw [howner]
  unfold Owned.after
  have hothers : ∀ r, turn.proc ≠ some r → (acc' r).fs.lock e = (acc r).fs.lock e :=
    fun r hr => congrFun (lock_of_follows hs ht hfollows hr) e
  by_cases hbusy' : busy t.pool e = true
  · rw [if_pos hbusy']
    obtain ⟨r', hr'⟩ := ht.inodes.exists_lock hbusy'
    have hq' : (acc' q).fs.lock e = true ↔ q = r' :=
      ⟨fun hq => ht.inodes.lock_unique hq hr', fun hq => by rwa [hq]⟩
    rw [hq']
    by_cases hbusy : busy s.pool e = true
    · rw [if_pos hbusy]
      obtain ⟨r, hr⟩ := hs.inodes.exists_lock hbusy
      -- The lock has not changed hands.
      have hsame : r' = r := by
        by_cases hturn : turn.proc = some r
        · by_contra hne
          have hkept : (acc r').fs.lock e = true := by
            rw [← hothers r' (by rw [hturn]; exact fun heq => hne (Option.some.inj heq).symm)]
            exact hr'
          exact hne (hs.inodes.lock_unique hkept hr)
        · have hkept : (acc' r).fs.lock e = true := by rwa [hothers r hturn]
          exact ht.inodes.lock_unique hr' hkept
      rw [h e q, hsame]
      exact ⟨fun hq => hs.inodes.lock_unique hq hr, fun hq => by rwa [hq]⟩
    · rw [if_neg hbusy]
      -- The flag was clear, so it was set in this turn.
      have hturn : turn.proc = some r' := by
        by_contra hturn
        rw [hothers r' hturn, lock_eq_false hs.inodes r' (Bool.eq_false_iff.2 hbusy)] at hr'
        cases hr'
      rw [hturn, Option.some.injEq]
      exact eq_comm
  · rw [if_neg hbusy', lock_eq_false ht.inodes q (Bool.eq_false_iff.2 hbusy')]
    simp

/-- In every run whose actions meet the condition, the accounts tell where the processes are
and who has the locks. -/
theorem owned_accounts (h : (ownedMachine a).Reach (fun s e => s.pool.Meets (sysRules T).cond e) s) :
    ∃ acc, (sysRules T).Holds () s.pool acc ∧ s.Told acc := by
  refine Machine.Reach.invariant (I := fun s => ∃ acc, (sysRules T).Holds () s.pool acc ∧ s.Told acc)
    ?_ ?_ h
  · rintro s ⟨⟨hboot, hprog⟩, howner⟩
    refine ⟨bootAcct s.pool.state, .init hprog hboot.ok fun _ => rfl, fun e q => ?_⟩
    rw [howner]
    exact ⟨nofun, nofun⟩
  · rintro s turn t ⟨acc, hs, htold⟩ hmeets ⟨hstep, howner⟩
    obtain ⟨acc', ht, hfollows⟩ := hs.next sound hmeets hstep
    exact ⟨acc', ht, htold.next hs.inv ht.inv hfollows howner⟩

/-! ## No cycle -/

/-- No name but `"."` and `".."` that is looked up names the directory that it is in, and no
inode that `ialloc` finds free on the disk is locked. -/
def StraightTurn (s : Pool Slot Sys Act Int) (e : Turn Slot Call Event) : Prop :=
  s.Meets (fun _ s l => Straight s.fs l) e

/-- In every run whose lookups are straight, the processes that wait for the transaction and
for locks of inodes do not wait in a circle. -/
theorem no_waiting_cycle (h : (ownedMachine a).Reach (fun s e => StraightTurn s.pool e) s)
    (p : Slot) : ¬ Relation.TransGen s.WaitsFor p p := by
  obtain ⟨acc, hacc, htold⟩ := owned_accounts (T := ⟨False, True⟩)
    (h.mono fun s e he => Pool.Meets.mono (fun _ _ _ hl => ⟨False.elim, fun _ => hl⟩) he)
  have hok : Ok s.pool.state acc := hacc.inv
  have hbegin : ∀ p, s.pool.action p = some .beginTrans →
      s.pool.state.fs.trans ≠ some p ∧ (acc p).fs.Unlocked := fun p hact =>
    hacc.check hact ⟨False.elim, fun _ => trivial⟩
  have hilock : ∀ p e, s.pool.action p = some (.ilock e) →
      (∀ e', (acc p).fs.lock e' = true → (acc p).fs.trans = true) ∧
        (acc p).fs.lock e = false := fun p e hact =>
    have hcheck := (hacc.check hact ⟨False.elim, fun _ => trivial⟩).2
    ⟨hcheck.1, hcheck.2 trivial⟩
  apply not_transGen_of_unique (P := fun p => (acc p).fs.trans = true)
  case hboth =>
    intro p q r hwaits hwaited
    rcases hwaited with ⟨_, htrans⟩ | ⟨e, _, _, howner⟩
    · exact (hok.inodes.trans p).1 htrans
    · have hlock : (acc p).fs.lock e = true := (htold e p).1 howner
      rcases hwaits with ⟨hact, _⟩ | ⟨e', hact, _⟩
      · rw [(hbegin p hact).2 e] at hlock
        cases hlock
      · exact (hilock p e' hact).1 e hlock
  case hone =>
    intro p q hp hq
    have htrans := ((hok.inodes.trans p).2 hp).symm.trans ((hok.inodes.trans q).2 hq)
    exact Option.some.inj htrans
  case hself =>
    rintro p (⟨hact, htrans⟩ | ⟨e, hact, _, howner⟩)
    · exact (hbegin p hact).1 htrans
    · have hlock := (htold e p).1 howner
      rw [(hilock p e hact).2] at hlock
      cases hlock

/-! ## Runs -/

theorem owned_of_reach {C : Pool Slot Sys Act Int → Turn Slot Call Event → Prop}
    {s : Pool Slot Sys Act Int} (h : (machine a).Reach C s) :
    ∃ owner, (ownedMachine a).Reach (fun s e => C s.pool e) ⟨s, owner⟩ := by
  induction h with
  | init hinit => exact ⟨fun _ => none, .init ⟨hinit, rfl⟩⟩
  | @step s t e _ hC hstep ih =>
    obtain ⟨owner, hs⟩ := ih
    exact ⟨Owned.after ⟨s, owner⟩ e t, .step hs hC ⟨hstep, rfl⟩⟩

instance (s : FsState) : (l : Act) → Decidable (Straight s l)
  | .found _ _ _ => inferInstanceAs (Decidable (_ → _ → _))
  | .fresh _ _ => inferInstanceAs (Decidable (∀ _, _))
  | .other | .beginTrans | .commitTrans | .logWrite _ | .balloc _ | .addr _ _ | .entry _ _
  | .ilock _ | .iput _ | .addTo _ | .remove _ => inferInstanceAs (Decidable True)

instance (s : Pool Slot Sys Act Int) (e : Turn Slot Call Event) : Decidable (StraightTurn s e) :=
  inferInstanceAs (Decidable (s.Meets _ e))

def Act.locking : Act → Option Entry
  | .ilock e => some e
  | _ => none

theorem Act.eq_of_locking {act : Option Act} {e : Entry} (h : act.bind Act.locking = some e) :
    act = some (.ilock e) := by
  obtain ⟨x, rfl, hx⟩ := Option.bind_eq_some_iff.1 h
  cases x <;> simp [Act.locking] at hx
  rw [hx]

/-- The first process is in the middle of `mkdir("d")`, and the second one waits for the root
directory. -/
theorem no_waiting_cycle_mkdir : ∃ s, (ownedMachine smallArea).Reach
    (fun s e => StraightTurn s.pool e) s ∧ s.pool.action secondProc = some (.ilock rootEntry) ∧
      Owned.busy s.pool rootEntry = true ∧
        ¬ Relation.TransGen s.WaitsFor secondProc secondProc := by
  obtain ⟨s, hreach, hend⟩ := reach_start smallArea smallDisk (C := StraightTurn)
    (Pool.alone initproc (.fork true) 21 ++
      Pool.alone initproc (.mkdir (smallPath [100] (nonzero_of_all rfl))) 60 ++
      Pool.alone secondProc (.open (smallPath [100] (nonzero_of_all rfl)) 0) 2)
    (P := fun s => ((s.action secondProc).bind Act.locking).any fun e =>
      e = rootEntry && Owned.busy s e) (by decide +kernel)
  obtain ⟨owner, howned⟩ := owned_of_reach hreach
  obtain ⟨e, hact, hend⟩ := (Option.any_eq_true _ _).1 hend
  obtain ⟨rfl, hbusy⟩ : e = rootEntry ∧ Owned.busy s e = true := by simpa using hend
  exact ⟨⟨s, owner⟩, howned, Act.eq_of_locking hact, hbusy, no_waiting_cycle howned secondProc⟩

theorem owner_of_alone (h : (ownedMachine a).Reachable s) {e : Entry} {p : Slot}
    (hbusy : Owned.busy s.pool e = true) (halone : ∀ q, q ≠ p → s.pool.prog q = none) :
    s.owner e = some p := by
  obtain ⟨acc, hacc, htold⟩ := owned_accounts (T := ⟨False, False⟩)
    (h.mono fun s e _ => .of_forall fun _ _ _ => ⟨False.elim, False.elim⟩)
  have hok : Ok s.pool.state acc := hacc.inv
  obtain ⟨q, hq⟩ := hok.inodes.exists_lock hbusy
  have hqp : q = p := by
    by_contra hne
    have hbal := (hok.tables.rest q (hacc.idle q (halone q hne))).1
    rw [hbal.lock] at hq
    cases hq
  rw [(htold e p), ← hqp]
  exact hq

def forgedBits (k : Nat) : UInt8 := if k = 0 then 223 else 255

def forgedRoot (k : Nat) : UInt8 :=
  if k < 16 then direntBytes ROOTINO DOT k
  else if k < 32 then direntBytes ROOTINO DOTDOT (k - 16)
  else if k < 48 then direntBytes ROOTINO [120] (k - 32)
  else 0

/-- On a full disk a file gets blocks of the log.  With its second block it overwrites the
bitmap, so that it gets the block of the root directory next; `unlink("x")` then locks the
root directory twice. -/
def selfRun : List (Turn Slot Call Event) :=
  Pool.alone initproc (.open (smallPath [102] (nonzero_of_all rfl)) (O_CREATE + O_RDWR)) 85 ++
    Pool.alone initproc (.write 0 (fun _ => 0) 512) 30 ++
    Pool.alone initproc (.write 0 forgedBits 512) 30 ++
    Pool.alone initproc (.write 0 forgedRoot 512) 30 ++
    Pool.alone initproc (.unlink (smallPath [120] (nonzero_of_all rfl))) 24

theorem unlink_waits_for_itself : ∃ s, (ownedMachine fullArea).Reachable s ∧
    ∃ p, Relation.TransGen s.WaitsFor p p := by
  obtain ⟨s, hreach, hend⟩ := reach_start fullArea fullDisk (C := fun _ _ => True) selfRun
    (P := fun s => ((s.action initproc).bind Act.locking).any fun e =>
      Owned.busy s e && decide (∀ q, q ≠ initproc → (s.prog q).isNone)) (by decide +kernel)
  obtain ⟨owner, howned⟩ := owned_of_reach hreach
  obtain ⟨e, hact, hend⟩ := (Option.any_eq_true _ _).1 hend
  obtain ⟨hbusy, halone⟩ : Owned.busy s e = true ∧
      ∀ q, q ≠ initproc → s.prog q = none := by simpa using hend
  -- The others are in no call, so it is the process itself that has the lock.
  have howner : owner e = some initproc := owner_of_alone howned hbusy halone
  exact ⟨⟨s, owner⟩, howned, initproc,
    .single (.inr ⟨e, Act.eq_of_locking hact, hbusy, howner⟩)⟩

end Xv6.Files
