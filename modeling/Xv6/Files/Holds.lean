import Xv6.Files.Calls
import Xv6.Lib.Count
import Xv6.Lib.Pool

/-!
# What a process holds of the file system

The account of a process: the references to cached inodes that it has in hand, the inodes
it has locked, and whether it is inside a transaction.  It may lock an inode that it has no
reference to in hand if an open file keeps one for it, its stake.  The references that files
and working directories keep are the base of the counts.
-/

namespace Xv6.Files

open Xv6.Lib Xv6.Fs Xv6.Sched

@[ext]
structure FsAcct where
  hand : Entry → Nat
  lock : Entry → Bool
  stake : Entry → Bool
  trans : Bool

namespace FsAcct

def setHand (x : FsAcct) (e : Entry) (n : Nat) : FsAcct :=
  { x with hand := Function.update x.hand e n }

def take (x : FsAcct) (e : Entry) : FsAcct := x.setHand e (x.hand e + 1)

def drop (x : FsAcct) (e : Entry) : FsAcct := x.setHand e (x.hand e - 1)

def setLock (x : FsAcct) (e : Entry) (b : Bool) : FsAcct :=
  { x with lock := Function.update x.lock e b }

def setTrans (x : FsAcct) (b : Bool) : FsAcct := { x with trans := b }

def unstake (x : FsAcct) : FsAcct := { x with stake := fun _ => false }

def Has (x : FsAcct) (e : Entry) : Prop := 0 < x.hand e ∨ x.stake e = true

variable {x : FsAcct} {e e' : Entry} {b c : Bool}

@[simp] theorem hand_take : (x.take e).hand e = x.hand e + 1 := Function.update_self ..

theorem hand_take_of_ne (h : e' ≠ e) : (x.take e).hand e' = x.hand e' :=
  Function.update_of_ne h ..

theorem hand_le_hand_take : x.hand e' ≤ (x.take e).hand e' := by
  by_cases h : e' = e
  · rw [h, hand_take]
    omega
  · exact (hand_take_of_ne h).ge

@[simp] theorem hand_unstake : x.unstake.hand = x.hand := rfl

@[simp] theorem hand_setLock : (x.setLock e b).hand = x.hand := rfl

@[simp] theorem stake_take : (x.take e).stake = x.stake := rfl

@[simp] theorem stake_setLock : (x.setLock e b).stake = x.stake := rfl

@[simp] theorem trans_take : (x.take e).trans = x.trans := rfl

@[simp] theorem trans_setLock : (x.setLock e b).trans = x.trans := rfl

@[simp] theorem trans_drop : (x.drop e).trans = x.trans := rfl

@[simp] theorem lock_take : (x.take e).lock = x.lock := rfl

@[simp] theorem lock_setLock : (x.setLock e b).lock e = b := Function.update_self ..

theorem lock_setLock_of_ne (h : e' ≠ e) : (x.setLock e b).lock e' = x.lock e' :=
  Function.update_of_ne h ..

@[simp] theorem take_drop : (x.take e).drop e = x := by
  simp [take, drop, setHand]

theorem take_comm : (x.take e).take e' = (x.take e').take e := by
  by_cases h : e = e'
  · rw [h]
  · simp only [take, setHand, Function.update_of_ne h, Function.update_of_ne (Ne.symm h),
      Function.update_comm h]

@[simp] theorem setLock_setLock : (x.setLock e b).setLock e c = x.setLock e c := by
  simp [setLock]

theorem setLock_eq_self (h : x.lock e = b) : x.setLock e b = x := by
  simp [setLock, ← h]

theorem take_setLock : (x.take e).setLock e' b = (x.setLock e' b).take e := rfl

theorem setLock_comm (h : e ≠ e') :
    (x.setLock e b).setLock e' c = (x.setLock e' c).setLock e b := by
  simp only [setLock, Function.update_comm h]

@[simp] theorem trans_setTrans : (x.setTrans b).trans = b := rfl

theorem setTrans_eq_self (h : x.trans = b) : x.setTrans b = x := by
  simp [setTrans, ← h]

@[simp] theorem lock_setTrans : (x.setTrans b).lock = x.lock := rfl

@[simp] theorem hand_setTrans : (x.setTrans b).hand = x.hand := rfl

@[simp] theorem has_setTrans : (x.setTrans b).Has e ↔ x.Has e := Iff.rfl

@[simp] theorem setTrans_setTrans : (x.setTrans b).setTrans c = x.setTrans c := rfl

theorem take_setTrans : (x.take e).setTrans b = (x.setTrans b).take e := rfl

theorem take_setLock_swap (h : e ≠ e') :
    (((x.take e).setLock e true).take e').setLock e' true =
      (((x.take e').setLock e' true).take e).setLock e true := by
  rw [← take_setLock, take_comm, setLock_comm h]
  rfl

def Unlocked (x : FsAcct) : Prop := ∀ e, x.lock e = false

/-- The process has no lock but this one, or is inside a transaction. -/
def Alone (x : FsAcct) (e : Entry) : Prop := ∀ e', e' ≠ e → x.lock e' = true → x.trans = true

theorem Unlocked.take (h : x.Unlocked) : (x.take e).Unlocked := h

theorem Unlocked.setTrans (h : x.Unlocked) : (x.setTrans b).Unlocked := h

theorem Unlocked.alone (h : x.Unlocked) : (x.setLock e true).Alone e := by
  intro e' hne hlock
  rw [lock_setLock_of_ne hne, h e'] at hlock
  cases hlock

theorem Has.take (h : x.Has e) : (x.take e').Has e :=
  h.imp (fun hpos => hpos.trans_le hand_le_hand_take) id

theorem has_take : (x.take e).Has e := .inl (by simp)

@[simp] theorem has_setLock : (x.setLock e' b).Has e ↔ x.Has e := Iff.rfl

end FsAcct

structure Base where
  count : Entry → Nat
  stake : Slot → Entry → Bool

/-- The counts and flags in the inode cache and the log are those of the accounts. -/
structure FsOk (base : Base) (s : FsState) (acc : Slot → FsAcct) : Prop where
  ref : ∀ e, (s.icache e).ref = base.count e + ∑ p, (acc p).hand e
  busy : ∀ e, (∑ p, ((acc p).lock e).toNat) = ((s.icache e).busy).toNat
  lockRef : ∀ p e, (acc p).lock e = true → (acc p).Has e
  stake : ∀ p, (acc p).stake = base.stake p
  stakeCount : ∀ p e, base.stake p e = true → 0 < base.count e
  unique : ∀ e e', 0 < (s.icache e).ref → 0 < (s.icache e').ref →
    (s.icache e).dev = (s.icache e').dev → (s.icache e).inum = (s.icache e').inum → e = e'
  trans : ∀ p, s.trans = some p ↔ (acc p).trans = true

/-- Outside of its transactions the process frees no inode and allocates no block. -/
def Frugal (p : Slot) (s : FsState) : Act → Prop
  | .iput e => s.trans = some p ∨
      ¬ ((s.icache e).ref = 1 ∧ (s.icache e).valid = true ∧ (s.icache e).copy.nlink = 0)
  | .addr e k => s.trans = some p ∨ (s.icache e).copy.addrs k ≠ 0
  | .entry b j => s.trans = some p ∨ (s.disk b).get (4 * j) 4 ≠ 0
  | _ => True

/-- The process is inside its own transaction when it has to be. -/
def Bracketed (frugal : Prop) (p : Slot) (s : FsState) : Act → Prop
  | .logWrite _ => frugal → s.trans = some p
  | .beginTrans => s.trans ≠ some p
  | .commitTrans => s.trans = some p
  | _ => True

/-- No name but `"."` and `".."` is found that names the directory it is in, and no inode that
is free on the disk is locked. -/
def Straight (s : FsState) : Act → Prop
  | .found dp name inum => sameName name DOT = false → sameName name DOTDOT = false →
      (s.icache dp).inum ≠ inum
  | .fresh dev inum => ∀ e, (s.icache e).busy = true → (s.icache e).dev = dev →
      (s.icache e).inum ≠ inum
  | _ => True

/-- The order in which a process takes the transaction and the locks of inodes: it begins a
transaction without locks, and has begun one before it takes a second lock. -/
def Ordered (straight : Prop) (x : FsAcct) : Act → Prop
  | .beginTrans => x.Unlocked
  | .ilock e => (∀ e', x.lock e' = true → x.trans = true) ∧ (straight → x.lock e = false)
  | _ => True

theorem FsAcct.Unlocked.ordered {x : FsAcct} {e : Entry} {straight : Prop} (h : x.Unlocked) :
    Ordered straight x (.ilock e) := by
  refine ⟨fun e' hlock => ?_, fun _ => h e⟩
  rw [h e'] at hlock
  cases hlock

structure Terms where
  frugal : Prop
  straight : Prop

def fsRules (T : Terms) : Rules Slot FsState Act FsAcct Base where
  inv := FsOk
  idle _ := False
  cond p s l := (T.frugal → Frugal p s l) ∧ (T.straight → Straight s l)
  check p x s l := Bracketed T.frugal p s l ∧ Ordered T.straight x l

structure SameRefs (s t : FsState) : Prop where
  ref : ∀ e, (t.icache e).ref = (s.icache e).ref
  busy : ∀ e, (t.icache e).busy = (s.icache e).busy
  dev : ∀ e, (t.icache e).dev = (s.icache e).dev
  inum : ∀ e, (t.icache e).inum = (s.icache e).inum
  trans : t.trans = s.trans

theorem SameRefs.of_eq {s t : FsState} (hic : t.icache = s.icache) (htr : t.trans = s.trans) :
    SameRefs s t := by
  refine ⟨?_, ?_, ?_, ?_, htr⟩ <;> rw [hic] <;> exact fun _ => rfl

theorem setInode_field {β : Type} (g : Inode → β) {s : FsState} {e : Entry} {x : Inode}
    (h : g x = g (s.icache e)) (e' : Entry) :
    g ((s.setInode e x).icache e') = g (s.icache e') := by
  by_cases he : e' = e
  · rw [he, ← h]
    exact congrArg g (Function.update_self ..)
  · exact congrArg g (Function.update_of_ne he ..)

theorem SameRefs.setInode {s : FsState} {e : Entry} {x : Inode} (href : x.ref = (s.icache e).ref)
    (hbusy : x.busy = (s.icache e).busy) (hdev : x.dev = (s.icache e).dev)
    (hinum : x.inum = (s.icache e).inum) : SameRefs s (s.setInode e x) where
  ref := setInode_field Inode.ref href
  busy := setInode_field Inode.busy hbusy
  dev := setInode_field Inode.dev hdev
  inum := setInode_field Inode.inum hinum
  trans := rfl

variable {base : Base} {s t : FsState} {acc : Slot → FsAcct} {p : Slot} {x : FsAcct}
  {e : Entry} {T : Terms} {α : Type} {Q : α → FsAcct → Prop}

theorem FsOk.same (h : FsOk base s acc) (hst : SameRefs s t) : FsOk base t acc := by
  refine ⟨?_, ?_, h.lockRef, h.stake, h.stakeCount, ?_, ?_⟩
  · simpa only [hst.ref] using h.ref
  · simpa only [hst.busy] using h.busy
  · simpa only [hst.ref, hst.dev, hst.inum] using h.unique
  · simpa only [hst.trans] using h.trans

theorem safe_quiet {l : Act} {f : FsState → Res (α × FsState)}
    (hcheck : ∀ s, (x.trans = true → s.trans = some p) → Bracketed T.frugal p s l)
    (hordered : Ordered T.straight x l)
    (hsame : ∀ s r t, f s = .ok (r, t) → SameRefs s t)
    (hQ : ∀ s r t, (T.frugal → Frugal p s l) → (s.trans = some p → x.trans = true) →
      f s = .ok (r, t) → Q r x) : (fsRules T).Safe p Q (.atomic l f) x := by
  apply Rules.safe_atomic
  intro base s acc hinv hacc _ hcond
  have htr : s.trans = some p ↔ x.trans = true := by
    rw [← hacc]
    exact hinv.trans p
  refine ⟨⟨hcheck s htr.2, hordered⟩, fun r t hf => ⟨x, ?_, id, hQ s r t hcond.1 htr.1 hf⟩⟩
  rw [← hacc, Function.update_eq_self]
  exact hinv.same (hsame s r t hf)

/-! ## Code that leaves the account alone -/

def Calm (T : Terms) (p : Slot) (m : FsM α) (x : FsAcct) : Prop :=
  (fsRules T).Safe p (fun _ y => y = x) m x

theorem Calm.bind {β : Type} {m : FsM β} {g : β → FsM α} (h : Calm T p m x)
    (hg : ∀ r, (fsRules T).Safe p Q (g r) x) : (fsRules T).Safe p Q (m.bind g) x := by
  apply Rules.Safe.bind h
  rintro r y rfl
  exact hg r

theorem calm_pure (r : α) : Calm T p (.ret r : FsM α) x := rfl

theorem calm_get (f : FsState → α) : Calm T p (get f) x := by
  apply safe_quiet
  · exact fun _ _ => trivial
  · trivial
  · intro s r t hf
    obtain ⟨_, rfl⟩ : f s = r ∧ s = t := by simpa using hf
    exact .of_eq rfl rfl
  · exact fun _ _ _ _ _ _ => rfl

theorem calm_put {f : FsState → FsState} (hf : ∀ s, SameRefs s (f s)) :
    Calm T p (put f) x := by
  apply safe_quiet
  · exact fun _ _ => trivial
  · trivial
  · intro s r t hft
    obtain rfl : f s = t := by simpa using hft
    exact hf s
  · exact fun _ _ _ _ _ _ => rfl

theorem safe_stop {msg : String} : (fsRules T).Safe p Q (stop msg) x := by
  apply safe_quiet
  · exact fun _ _ => trivial
  · trivial
  · intro s r t hf
    simp at hf
  · intro s r t _ _ hf
    simp at hf

theorem calm_when {c : Prop} [Decidable c] {m : FsM Unit} (h : c → Calm T p m x) :
    Calm T p (Prog.when c m) x := by
  unfold Prog.when
  split_ifs with hc
  · exact h hc
  · exact calm_pure ()

theorem sameRefs_bread {i : Nat} {b : Buffer} (hf : (if s.locked i then Res.halt Halt.block
    else .ok (⟨i, s.disk i⟩, { s with locked := Function.update s.locked i true })) =
      .ok (b, t)) : SameRefs s t ∧ b = ⟨i, s.disk i⟩ := by
  split_ifs at hf
  obtain ⟨rfl, rfl⟩ : _ = b ∧ _ = t := by simpa using hf
  exact ⟨.of_eq rfl rfl, rfl⟩

theorem calm_bread (i : Nat) : Calm T p (bread i) x := by
  apply safe_quiet
  · exact fun _ _ => trivial
  · trivial
  · exact fun s r t hf => (sameRefs_bread hf).1
  · exact fun _ _ _ _ _ _ => rfl

theorem calm_breadFor_balloc (b i : Nat) : Calm T p (breadFor (.balloc b) i) x := by
  apply safe_quiet
  · exact fun _ _ => trivial
  · trivial
  · exact fun s r t hf => (sameRefs_bread hf).1
  · exact fun _ _ _ _ _ _ => rfl

theorem calm_brelse (b : Buffer) : Calm T p (brelse b) x :=
  calm_put fun _ => .of_eq rfl rfl

variable {a : LogArea}

theorem calm_logWrite (htx : T.frugal → x.trans = true) (b : Buffer) :
    Calm T p (logWrite a b) x := by
  apply safe_quiet
  · exact fun s htr hstrict => htr (htx hstrict)
  · trivial
  · intro s r t hf
    simp only at hf
    split_ifs at hf
    all_goals
      obtain rfl : _ = t := by simpa using hf
      exact .of_eq rfl rfl
  · exact fun _ _ _ _ _ _ => rfl

theorem calm_readsb : Calm T p readsb x := by
  apply (calm_bread 1).bind
  intro bp
  apply (calm_brelse bp).bind
  intro _
  exact calm_pure _

theorem calm_bzero (htx : T.frugal → x.trans = true) (b : Nat) : Calm T p (bzero a b) x := by
  apply (calm_bread b).bind
  intro bp
  apply (calm_logWrite htx _).bind
  intro _
  exact calm_brelse _

theorem calm_ballocFrom (htx : T.frugal → x.trans = true) (sb : Superblock) (k b : Nat) :
    Calm T p (ballocFrom a sb k b) x := by
  induction k generalizing b with
  | zero => exact safe_stop
  | succ k ih =>
    apply (calm_breadFor_balloc b _).bind
    intro bp
    split
    · apply (calm_logWrite htx _).bind
      intro _
      apply (calm_brelse bp).bind
      intro _
      apply (calm_bzero htx _).bind
      intro _
      exact calm_pure _
    · apply (calm_brelse bp).bind
      intro _
      exact ih _

theorem calm_balloc (htx : T.frugal → x.trans = true) : Calm T p (balloc a) x := by
  apply calm_readsb.bind
  intro sb
  exact calm_ballocFrom htx sb _ 0

theorem calm_bfree (htx : T.frugal → x.trans = true) (b : Nat) : Calm T p (bfree a b) x := by
  apply calm_readsb.bind
  intro sb
  apply (calm_bread _).bind
  intro bp
  show Calm T p (ite _ _ _) x
  split_ifs
  · apply (calm_logWrite htx _).bind
    intro _
    exact calm_brelse bp
  · exact safe_stop

theorem calm_setCopy (e : Entry) (f : Dinode → Dinode) : Calm T p (setCopy e f) x :=
  calm_put fun _ => .setInode rfl rfl rfl rfl

theorem calm_iupdate (htx : T.frugal → x.trans = true) (e : Entry) :
    Calm T p (iupdate a e) x := by
  apply (calm_get _).bind
  intro inum
  apply (calm_bread _).bind
  intro bp
  apply (calm_get _).bind
  intro copy
  apply (calm_logWrite htx _).bind
  intro _
  exact calm_brelse bp

theorem calm_allocAddr (htx : T.frugal → x.trans = true) (e : Entry) (k : Nat) :
    Calm T p (allocAddr a e k) x := by
  apply (calm_balloc htx).bind
  intro addr
  apply (calm_setCopy e _).bind
  intro _
  exact calm_pure _

theorem calm_loadAddr (e : Entry) (k : Nat) : Calm T p (loadAddr a e k) x := by
  -- Outside of a transaction there is an address.
  apply Rules.Safe.bind (Q := fun r y => y = x ∧ (T.frugal → x.trans = true ∨ r ≠ 0))
  · apply safe_quiet
    · exact fun _ _ => trivial
    · trivial
    · intro s r t hf
      obtain ⟨_, rfl⟩ : _ = r ∧ s = t := by simpa using hf
      exact .of_eq rfl rfl
    · intro s r t hcond htr hf
      obtain ⟨rfl, _⟩ : (s.icache e).copy.addrs k = r ∧ s = t := by simpa using hf
      exact ⟨rfl, fun hstrict => (hcond hstrict).imp htr id⟩
  · rintro addr y ⟨rfl, haddr⟩
    show Calm T p (ite _ _ _) y
    split_ifs with hzero
    · exact calm_allocAddr (fun hstrict => (haddr hstrict).resolve_right (absurd hzero)) e k
    · exact calm_pure _

theorem safe_entry {β : Type} {g : Buffer → FsM β} {Q : β → FsAcct → Prop} (b j : Nat)
    (hg : ∀ bp : Buffer, (T.frugal → x.trans = true ∨ bp.data.get (4 * j) 4 ≠ 0) →
      (fsRules T).Safe p Q (g bp) x) :
    (fsRules T).Safe p Q ((breadFor (.entry b j) b).bind g) x := by
  apply Rules.Safe.bind
    (Q := fun bp y => y = x ∧ (T.frugal → x.trans = true ∨ bp.data.get (4 * j) 4 ≠ 0))
  · apply safe_quiet
    · exact fun _ _ => trivial
    · trivial
    · exact fun s r t hf => (sameRefs_bread hf).1
    · intro s r t hcond htr hf
      obtain rfl := (sameRefs_bread hf).2
      exact ⟨rfl, fun hstrict => (hcond hstrict).imp htr id⟩
  · rintro r y ⟨rfl, hr⟩
    exact hg r hr

theorem calm_bmap (e : Entry) (bn : Nat) : Calm T p (bmap a e bn) x := by
  unfold bmap
  split_ifs
  · exact calm_loadAddr e bn
  · show Calm T p (ite _ _ _) x
    split_ifs
    · apply (calm_loadAddr e NDIRECT).bind
      intro ind
      apply safe_entry
      intro bp hbp
      refine Rules.safe_ite (fun hzero => ?_) fun _ => ?_
      · have htx : T.frugal → x.trans = true :=
          fun hstrict => (hbp hstrict).resolve_right (absurd hzero)
        apply (calm_balloc htx).bind
        intro addr
        apply (calm_logWrite htx _).bind
        intro _
        apply (calm_brelse bp).bind
        intro _
        exact calm_pure _
      · apply (calm_brelse bp).bind
        intro _
        exact calm_pure _
    · exact safe_stop

theorem calm_forRange {f : Nat → FsM Unit} (n : Nat) (h : ∀ i, Calm T p (f i) x) :
    Calm T p (Prog.forRange n f) x := by
  refine Rules.safe_forRange (I := fun _ y => y = x) rfl ?_
  rintro j y _ rfl
  exact h j

theorem calm_itruncDirect (htx : T.frugal → x.trans = true) (e : Entry) (i : Nat) :
    Calm T p (itruncDirect a e i) x := by
  apply (calm_get _).bind
  intro addr
  apply calm_when
  intro _
  apply (calm_bfree htx addr).bind
  intro _
  exact calm_setCopy e _

theorem calm_itruncIndirect (htx : T.frugal → x.trans = true) (e : Entry) :
    Calm T p (itruncIndirect a e) x := by
  apply (calm_get _).bind
  intro ind
  apply calm_when
  intro _
  apply (calm_bread ind).bind
  intro bp
  apply (calm_forRange NINDIRECT fun j => calm_when fun _ => calm_bfree htx _).bind
  intro _
  apply (calm_brelse bp).bind
  intro _
  apply (calm_bfree htx ind).bind
  intro _
  exact calm_setCopy e _

theorem calm_itrunc (htx : T.frugal → x.trans = true) (e : Entry) :
    Calm T p (itrunc a e) x := by
  apply (calm_forRange NDIRECT fun i => calm_itruncDirect htx e i).bind
  intro _
  apply (calm_itruncIndirect htx e).bind
  intro _
  apply (calm_setCopy e _).bind
  intro _
  exact calm_iupdate htx e

/-! ## Actions that move the account -/

theorem FsOk.move {y : FsAcct} (h : FsOk base s acc)
    (href : ∀ e, (t.icache e).ref + (acc p).hand e = (s.icache e).ref + y.hand e)
    (hbusy : ∀ e, ((t.icache e).busy).toNat + ((acc p).lock e).toNat =
      ((s.icache e).busy).toNat + (y.lock e).toNat)
    (hlock : ∀ e, y.lock e = true → y.Has e) (hstake : y.stake = (acc p).stake)
    (hunique : ∀ e e', 0 < (t.icache e).ref → 0 < (t.icache e').ref →
      (t.icache e).dev = (t.icache e').dev → (t.icache e).inum = (t.icache e').inum → e = e')
    (htrans : ∀ q, t.trans = some q ↔ (Function.update acc p y q).trans = true) :
    FsOk base t (Function.update acc p y) := by
  constructor
  case ref =>
    intro e
    have hsum := sum_account (fun x : FsAcct => x.hand e) acc p y
    have hs := h.ref e
    have ht := href e
    omega
  case busy =>
    intro e
    have hsum := sum_account (fun x : FsAcct => (x.lock e).toNat) acc p y
    have hs := h.busy e
    have ht := hbusy e
    omega
  case lockRef =>
    exact (Function.forall_update_iff acc fun _ x => ∀ e, x.lock e = true → x.Has e).2
      ⟨hlock, fun q _ => h.lockRef q⟩
  case stake =>
    exact (Function.forall_update_iff acc fun q x => x.stake = base.stake q).2
      ⟨hstake.trans (h.stake p), fun q _ => h.stake q⟩
  case stakeCount => exact h.stakeCount
  case unique => exact hunique
  case trans => exact htrans

theorem FsOk.rebase {base' : Base} {y : FsAcct} (h : FsOk base s acc)
    (href : ∀ e, base'.count e + y.hand e = base.count e + (acc p).hand e)
    (hlock : y.lock = (acc p).lock) (htrans : y.trans = (acc p).trans)
    (hhas : ∀ e, y.lock e = true → y.Has e)
    (hstake : ∀ q, (Function.update acc p y q).stake = base'.stake q)
    (hcount : ∀ q e, base'.stake q e = true → 0 < base'.count e) :
    FsOk base' s (Function.update acc p y) := by
  constructor
  case ref =>
    intro e
    have hsum := sum_account (fun x : FsAcct => x.hand e) acc p y
    have hs := h.ref e
    have hb := href e
    omega
  case busy =>
    intro e
    have hsum := sum_account (fun x : FsAcct => (x.lock e).toNat) acc p y
    have hs := h.busy e
    rw [hlock] at hsum
    omega
  case lockRef =>
    exact (Function.forall_update_iff acc fun _ x => ∀ e, x.lock e = true → x.Has e).2
      ⟨hhas, fun q _ => h.lockRef q⟩
  case stake => exact hstake
  case stakeCount => exact hcount
  case unique => exact h.unique
  case trans =>
    refine (Function.forall_update_iff acc fun q x => s.trans = some q ↔ x.trans = true).2
      ⟨?_, fun q _ => h.trans q⟩
    rw [htrans]
    exact h.trans p

theorem FsOk.trans_keep {y : FsAcct} (h : FsOk base s acc) (hy : y.trans = (acc p).trans)
    (q : Slot) : s.trans = some q ↔ (Function.update acc p y q).trans = true := by
  rw [h.trans q]
  by_cases hq : q = p
  · rw [hq, Function.update_self, hy]
  · rw [Function.update_of_ne hq]

theorem hand_le_ref (h : FsOk base s acc) (p : Slot) (e : Entry) :
    base.count e + (acc p).hand e ≤ (s.icache e).ref := by
  have hle : (acc p).hand e ≤ ∑ q, (acc q).hand e :=
    Finset.single_le_sum (f := fun q => (acc q).hand e) (fun _ _ => Nat.zero_le _)
      (Finset.mem_univ p)
  have href := h.ref e
  omega

theorem ref_pos (h : FsOk base s acc) (hhas : (acc p).Has e) : 0 < (s.icache e).ref := by
  have hle := hand_le_ref h p e
  rcases hhas with hhand | hstake
  · omega
  · rw [h.stake p] at hstake
    have hbase := h.stakeCount p e hstake
    omega

theorem lock_le_busy (h : FsOk base s acc) (p : Slot) (e : Entry) :
    ((acc p).lock e).toNat ≤ ((s.icache e).busy).toNat := by
  rw [← h.busy e]
  exact Finset.single_le_sum (f := fun q => ((acc q).lock e).toNat) (fun _ _ => Nat.zero_le _)
    (Finset.mem_univ p)

theorem lock_eq_false (h : FsOk base s acc) (p : Slot) (hbusy : (s.icache e).busy = false) :
    (acc p).lock e = false := by
  have hle := lock_le_busy h p e
  rw [hbusy] at hle
  cases hlock : (acc p).lock e with
  | false => rfl
  | true => simp [hlock] at hle

theorem FsOk.unique_keep (h : FsOk base s acc)
    (href : ∀ e, 0 < (t.icache e).ref → 0 < (s.icache e).ref)
    (hdev : ∀ e, (t.icache e).dev = (s.icache e).dev)
    (hinum : ∀ e, (t.icache e).inum = (s.icache e).inum) (e e' : Entry)
    (he : 0 < (t.icache e).ref) (he' : 0 < (t.icache e').ref)
    (hd : (t.icache e).dev = (t.icache e').dev) (hi : (t.icache e).inum = (t.icache e').inum) :
    e = e' := by
  rw [hdev, hdev] at hd
  rw [hinum, hinum] at hi
  exact h.unique e e' (href e he) (href e' he') hd hi

theorem setInode_self {y : Inode} : (s.setInode e y).icache e = y := Function.update_self ..

theorem setInode_of_ne {y : Inode} {e' : Entry} (h : e' ≠ e) :
    (s.setInode e y).icache e' = s.icache e' := Function.update_of_ne h ..

theorem setInode_setInode {y z : Inode} : (s.setInode e y).setInode e z = s.setInode e z := by
  simp [FsState.setInode]

theorem FsOk.setRef {y : Inode} {n : Nat} (h : FsOk base s acc)
    (href : y.ref + (acc p).hand e = (s.icache e).ref + n)
    (hbusy : y.busy = (s.icache e).busy) (hdev : y.dev = (s.icache e).dev)
    (hinum : y.inum = (s.icache e).inum) (hpos : 0 < y.ref → 0 < (s.icache e).ref)
    (hlock : (acc p).lock e = true → 0 < n ∨ (acc p).stake e = true) :
    FsOk base (s.setInode e y) (Function.update acc p ((acc p).setHand e n)) := by
  apply h.move
  case href =>
    intro e'
    by_cases he : e' = e
    · rw [he, setInode_self]
      simpa [FsAcct.setHand] using href
    · rw [setInode_of_ne he]
      simp [FsAcct.setHand, he]
  case hbusy => exact fun e' => by rw [setInode_field Inode.busy hbusy]; rfl
  case hlock =>
    intro e' hlock'
    by_cases he : e' = e
    · subst he
      simpa [FsAcct.Has, FsAcct.setHand] using hlock hlock'
    · simpa [FsAcct.Has, FsAcct.setHand, he] using h.lockRef p e' hlock'
  case hstake => rfl
  case hunique =>
    apply h.unique_keep
    · intro e' hpos'
      by_cases he : e' = e
      · rw [he, setInode_self] at hpos'
        rw [he]
        exact hpos hpos'
      · rwa [setInode_of_ne he] at hpos'
    · exact setInode_field Inode.dev hdev
    · exact setInode_field Inode.inum hinum
  case htrans => exact h.trans_keep rfl

theorem FsOk.setBusy {y : Inode} {b : Bool} (h : FsOk base s acc)
    (hbusy : y.busy.toNat + ((acc p).lock e).toNat = ((s.icache e).busy).toNat + b.toNat)
    (href : y.ref = (s.icache e).ref) (hdev : y.dev = (s.icache e).dev)
    (hinum : y.inum = (s.icache e).inum) (hlock : b = true → (acc p).Has e) :
    FsOk base (s.setInode e y) (Function.update acc p ((acc p).setLock e b)) := by
  apply h.move
  case href => exact fun e' => by rw [setInode_field Inode.ref href]; rfl
  case hbusy =>
    intro e'
    by_cases he : e' = e
    · rw [he, setInode_self]
      simpa using hbusy
    · rw [setInode_of_ne he, FsAcct.lock_setLock_of_ne he]
  case hlock =>
    intro e' hlock'
    by_cases he : e' = e
    · subst he
      exact hlock (by simpa using hlock')
    · rw [FsAcct.lock_setLock_of_ne he] at hlock'
      exact h.lockRef p e' hlock'
  case hstake => rfl
  case hunique =>
    apply h.unique_keep
    · exact fun e' => by rw [setInode_field Inode.ref href]; exact id
    · exact setInode_field Inode.dev hdev
    · exact setInode_field Inode.inum hinum
  case htrans => exact h.trans_keep rfl

theorem FsOk.release {y : Inode} (h : FsOk base s acc) (hlock : (acc p).lock e = true)
    (hhand : 0 < (acc p).hand e) (hbusy : y.busy = false) (href : y.ref = (s.icache e).ref - 1)
    (hdev : y.dev = (s.icache e).dev) (hinum : y.inum = (s.icache e).inum) :
    FsOk base (s.setInode e y) (Function.update acc p (((acc p).setLock e false).drop e)) := by
  have hbusy' : (s.icache e).busy = true := by
    have hle := lock_le_busy h p e
    rw [hlock] at hle
    exact Bool.toNat_eq_one.1 (le_antisymm (Bool.toNat_le _) hle)
  have hpos := ref_pos h (.inl hhand)
  have hfree := h.setBusy (e := e) (p := p) (b := false)
    (y := { s.icache e with busy := false }) (by simp [hlock, hbusy']) rfl rfl rfl (by simp)
  have hdrop := hfree.setRef (e := e) (p := p) (y := y) (n := (acc p).hand e - 1)
  rw [setInode_self, setInode_setInode, Function.update_self, Function.update_idem] at hdrop
  apply hdrop
  · simp only [FsAcct.hand_setLock]
    omega
  · exact hbusy
  · exact hdev
  · exact hinum
  · exact fun _ => hpos
  · simp

theorem FsState.cached_some {dev inum : Nat} (h : s.cached dev inum = some e) :
    0 < (s.icache e).ref ∧ (s.icache e).dev = dev ∧ (s.icache e).inum = inum := by
  have hfind := List.find?_some h
  simpa using hfind

theorem FsState.cached_none {dev inum : Nat} (h : s.cached dev inum = none) (e : Entry)
    (href : 0 < (s.icache e).ref) (hdev : (s.icache e).dev = dev) : (s.icache e).inum ≠ inum := by
  have hfind := List.find?_eq_none.1 h e (List.mem_finRange e)
  simpa [href, hdev] using hfind

theorem FsState.empty_some (h : s.empty = some e) : (s.icache e).ref = 0 := by
  have hfind := List.find?_some h
  simpa using hfind

theorem FsOk.fill {dev inum : Nat} {y : Inode} (h : FsOk base s acc)
    (hcached : s.cached dev inum = none) (hempty : s.empty = some e)
    (href : y.ref = 1) (hbusy : y.busy = false) (hdev : y.dev = dev) (hinum : y.inum = inum) :
    FsOk base (s.setInode e y) (Function.update acc p ((acc p).take e)) := by
  have hzero := FsState.empty_some hempty
  have hfree : ∀ q, ¬ (acc q).Has e := fun q hhas => by
    have hpos := ref_pos h hhas
    omega
  have hunlocked : ∀ q, (acc q).lock e = false := fun q => by
    rw [← Bool.not_eq_true]
    exact fun hlock => hfree q (h.lockRef q e hlock)
  have hbusy' : (s.icache e).busy = false := by
    have hsum := h.busy e
    simp only [hunlocked, Bool.toNat_false, Finset.sum_const_zero] at hsum
    exact Bool.toNat_eq_zero.1 hsum.symm
  have hhand : (acc p).hand e = 0 := Nat.eq_zero_of_not_pos fun hpos => hfree p (.inl hpos)
  apply h.move
  case href =>
    intro e'
    by_cases he : e' = e
    · rw [he, setInode_self, FsAcct.hand_take, href, hzero, hhand]
      rfl
    · rw [setInode_of_ne he, FsAcct.hand_take_of_ne he]
  case hbusy =>
    have hb : y.busy = (s.icache e).busy := hbusy.trans hbusy'.symm
    exact fun e' => by rw [setInode_field Inode.busy hb]; rfl
  case hlock => exact fun e' hlock => (h.lockRef p e' hlock).take
  case hstake => rfl
  case hunique =>
    -- No other entry with references has the device and the number.
    have hnew : ∀ e', e' ≠ e → 0 < ((s.setInode e y).icache e').ref →
        ((s.setInode e y).icache e').dev = dev → ((s.setInode e y).icache e').inum ≠ inum := by
      intro e' he
      rw [setInode_of_ne he]
      exact FsState.cached_none hcached e'
    intro e₁ e₂ h₁ h₂ hd hi
    by_cases he₁ : e₁ = e
    · by_contra he₂
      rw [he₁, setInode_self, hdev] at hd
      rw [he₁, setInode_self, hinum] at hi
      exact hnew e₂ (fun he => he₂ (he₁.trans he.symm)) h₂ hd.symm hi.symm
    · by_cases he₂ : e₂ = e
      · rw [he₂, setInode_self, hdev] at hd
        rw [he₂, setInode_self, hinum] at hi
        exact absurd hi (hnew e₁ he₁ h₁ hd)
      · rw [setInode_of_ne he₁] at h₁ hd hi
        rw [setInode_of_ne he₂] at h₂ hd hi
        exact h.unique e₁ e₂ h₁ h₂ hd hi
  case htrans => exact h.trans_keep rfl

theorem FsOk.take (h : FsOk base s acc) (hpos : 0 < (s.icache e).ref) :
    FsOk base (s.setInode e { s.icache e with ref := (s.icache e).ref + 1 })
      (Function.update acc p ((acc p).take e)) := by
  refine h.setRef ?_ rfl rfl rfl (fun _ => hpos) fun _ => .inl (Nat.succ_pos _)
  push_cast
  omega

theorem safe_igetFor {l : Act} {dev inum : Nat} {Q : Entry → Prop}
    (hcheck : ∀ s, (fsRules T).check p x s l)
    (hQ : ∀ base s acc e, FsOk base s acc → acc p = x → (T.straight → Straight s l) →
      (x.lock e = true → (s.icache e).dev = dev ∧ (s.icache e).inum = inum) → Q e) :
    (fsRules T).Safe p (fun e y => (y = x.take e ∧ (x.lock e = true → x.Has e)) ∧ Q e)
      (igetFor l dev inum) x := by
  apply Rules.safe_atomic
  rintro base s acc hinv rfl _ hcond
  refine ⟨hcheck s, fun e t hf => ⟨(acc p).take e, ?_, id, ⟨rfl, hinv.lockRef p e⟩, ?_⟩⟩
  all_goals
    simp only at hf
    split at hf
  · rename_i e' hcached
    obtain ⟨rfl, rfl⟩ : e' = e ∧ _ = t := by simpa using hf
    exact hinv.take (FsState.cached_some hcached).1
  · rename_i hcached
    split at hf
    · cases hf
    · rename_i e' hempty
      obtain ⟨rfl, rfl⟩ : e' = e ∧ _ = t := by simpa using hf
      exact hinv.fill hcached hempty rfl rfl rfl rfl
  · rename_i e' hcached
    obtain ⟨rfl, rfl⟩ : e' = e ∧ _ = t := by simpa using hf
    exact hQ base s acc e' hinv rfl hcond.2 fun _ => (FsState.cached_some hcached).2
  · rename_i hcached
    split at hf
    · cases hf
    · rename_i e' hempty
      obtain ⟨rfl, rfl⟩ : e' = e ∧ _ = t := by simpa using hf
      refine hQ base s acc e' hinv rfl hcond.2 fun hlock => ?_
      have hpos := ref_pos hinv (hinv.lockRef p e' hlock)
      rw [FsState.empty_some hempty] at hpos
      exact absurd hpos (lt_irrefl 0)

theorem safe_iget (dev inum : Nat) :
    (fsRules T).Safe p (fun e y => y = x.take e ∧ (x.lock e = true → x.Has e))
      (iget dev inum) x := by
  apply (safe_igetFor (l := .other) (Q := fun _ => True) (fun _ => ⟨trivial, trivial⟩) ?_).mono
  · exact fun _ _ h => h.1
  · exact fun _ _ _ _ _ _ _ _ => trivial

theorem safe_iget_found {dp : Entry} (hlock : x.lock dp = true) (name : Name) (dev inum : Nat) :
    (fsRules T).Safe p (fun e y => (y = x.take e ∧ (x.lock e = true → x.Has e)) ∧
      (T.straight → sameName name DOT = false → sameName name DOTDOT = false → e ≠ dp))
      (igetFor (.found dp name inum) dev inum) x := by
  apply safe_igetFor (l := .found dp name inum) fun _ => ⟨trivial, trivial⟩
  rintro base s acc e _ _ hcond hheld hstraight hdot hdotdot rfl
  exact hcond hstraight hdot hdotdot (hheld hlock).2

theorem safe_iget_fresh (dev inum : Nat) :
    (fsRules T).Safe p (fun e y => (y = x.take e ∧ (x.lock e = true → x.Has e)) ∧
      (T.straight → x.lock e = false)) (igetFor (.fresh dev inum) dev inum) x := by
  apply safe_igetFor (l := .fresh dev inum) fun _ => ⟨trivial, trivial⟩
  rintro base s acc e hinv rfl hcond hheld hstraight
  by_contra hlock
  have hlock : (acc p).lock e = true := Bool.eq_true_of_not_eq_false hlock
  have hbusy : (s.icache e).busy = true := by
    have hle := lock_le_busy hinv p e
    rw [hlock] at hle
    exact Bool.toNat_eq_one.1 (le_antisymm (Bool.toNat_le _) hle)
  exact hcond hstraight e hbusy (hheld hlock).1 (hheld hlock).2

theorem safe_idup (hhas : x.Has e) :
    (fsRules T).Safe p (fun e' y => e' = e ∧ y = x.take e) (idup e) x := by
  apply Rules.safe_atomic
  rintro base s acc hinv rfl _ _
  refine ⟨⟨trivial, trivial⟩, fun e' t hf => ⟨(acc p).take e, ?_, id, ?_⟩⟩
  all_goals obtain ⟨rfl, rfl⟩ : e = e' ∧ _ = t := by simpa using hf
  · exact hinv.take (ref_pos hinv hhas)
  · exact ⟨rfl, rfl⟩

theorem safe_ilockBusy (hhas : x.Has e) (hordered : Ordered T.straight x (.ilock e)) :
    (fsRules T).Safe p (fun _ y => y = x.setLock e true ∧ x.lock e = false)
      (ilockBusy e) x := by
  apply Rules.safe_atomic
  rintro base s acc hinv rfl _ _
  refine ⟨⟨trivial, hordered⟩, fun u t hf => ⟨(acc p).setLock e true, ?_, id, rfl, ?_⟩⟩
  all_goals
    simp only at hf
    split_ifs at hf with href hbusy
    obtain rfl : _ = t := by simpa using hf
    have hfree := lock_eq_false hinv p (Bool.eq_false_iff.2 hbusy)
  · exact hinv.setBusy (by simp [hfree, hbusy]) rfl rfl rfl fun _ => hhas
  · exact hfree

theorem safe_iunlock (hlock : x.lock e = true) :
    (fsRules T).Safe p (fun _ y => y = x.setLock e false ∧ x.Has e) (iunlock e) x := by
  apply Rules.safe_atomic
  rintro base s acc hinv rfl _ _
  refine ⟨⟨trivial, trivial⟩, fun u t hf => ⟨(acc p).setLock e false, ?_, id, rfl, hinv.lockRef p e hlock⟩⟩
  simp only at hf
  split_ifs at hf with hbusy
  obtain rfl : _ = t := by simpa using hf
  have hbusy' : (s.icache e).busy = true := by
    simpa using fun hb => hbusy (.inl hb)
  exact hinv.setBusy (by simp [hlock, hbusy']) rfl rfl rfl fun h => by cases h

theorem safe_iputTest (hhand : 0 < x.hand e)
    (hlock : x.lock e = true → 1 < x.hand e ∨ x.stake e = true) :
    (fsRules T).Safe p (fun free y =>
      if free = true then
        y = x.setLock e true ∧ x.lock e = false ∧ (T.frugal → x.trans = true)
      else y = x.drop e) (iputTest e) x := by
  apply Rules.safe_atomic
  rintro base s acc hinv rfl _ hcond
  refine ⟨⟨trivial, trivial⟩, fun free t hf => ?_⟩
  simp only at hf
  split_ifs at hf with hlast hbusy
  · obtain ⟨rfl, rfl⟩ : true = free ∧ _ = t := by simpa using hf
    have hfree := lock_eq_false hinv p (Bool.eq_false_iff.2 hbusy)
    refine ⟨(acc p).setLock e true, ?_, id, rfl, hfree, fun hstrict => ?_⟩
    · exact hinv.setBusy (by simp [hfree, hbusy]) rfl rfl rfl fun _ => .inl hhand
    · exact (hinv.trans p).1 ((hcond.1 hstrict).resolve_right (absurd hlast))
  · obtain ⟨rfl, rfl⟩ : false = free ∧ _ = t := by simpa using hf
    refine ⟨(acc p).drop e, ?_, id, rfl⟩
    have hpos := ref_pos hinv (.inl hhand)
    refine hinv.setRef ?_ rfl rfl rfl (fun _ => hpos) fun h => ?_
    · simp only
      omega
    · exact (hlock h).imp (fun h => by omega) id

theorem safe_beginTrans (htr : x.trans = false) (hfree : x.Unlocked) :
    (fsRules T).Safe p (fun _ y => y = x.setTrans true) (beginTrans p) x := by
  apply Rules.safe_atomic
  rintro base s acc hinv rfl _ _
  refine ⟨⟨fun hown => ?_, hfree⟩, fun u t hf => ⟨(acc p).setTrans true, ?_, id, rfl⟩⟩
  · rw [(hinv.trans p).1 hown] at htr
    cases htr
  split_ifs at hf with hnone
  obtain rfl : _ = t := by simpa using hf
  apply hinv.move
  case htrans =>
    intro q
    by_cases hq : q = p
    · simp [hq, FsAcct.setTrans]
    · have hother := hinv.trans q
      rw [Option.not_isSome_iff_eq_none.1 hnone] at hother
      rw [Function.update_of_ne hq, ← hother]
      simp [Ne.symm hq]
  case hlock => exact hinv.lockRef p
  case hunique => exact hinv.unique
  all_goals intros; rfl

theorem safe_commitTrans (htx : x.trans = true) :
    (fsRules T).Safe p (fun _ y => y = x.setTrans false) (commitTrans a) x := by
  apply Rules.safe_atomic
  rintro base s acc hinv rfl _ _
  have htrans : s.trans = some p := (hinv.trans p).2 htx
  refine ⟨⟨htrans, trivial⟩, fun u t hf => ⟨(acc p).setTrans false, ?_, id, rfl⟩⟩
  have ht : t.icache = s.icache ∧ t.trans = none := by
    simp only at hf
    split_ifs at hf
    all_goals
      obtain rfl : _ = t := by simpa using hf
      exact ⟨rfl, rfl⟩
  apply hinv.move
  case htrans =>
    intro q
    rw [ht.2]
    by_cases hq : q = p
    · simp [hq, FsAcct.setTrans]
    · have hother := hinv.trans q
      rw [htrans] at hother
      rw [Function.update_of_ne hq, ← hother]
      simp [Ne.symm hq]
  case hlock => exact hinv.lockRef p
  case hunique =>
    rw [ht.1]
    exact hinv.unique
  case href =>
    rw [ht.1]
    exact fun _ => rfl
  case hbusy =>
    rw [ht.1]
    exact fun _ => rfl
  case hstake => rfl

end Xv6.Files
