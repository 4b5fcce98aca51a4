import Xv6.Files.Holds

/-!
# The references that file system code takes and drops

For each function of `fs.c`, and for the parts of `sysfile.c` that work on inodes, what it
does to the account of the process that runs it, on each of its paths.
-/

namespace Xv6.Files

open Xv6.Lib Xv6.Fs Xv6.Sched

variable {T : Terms} {p : Slot} {x : FsAcct} {e dp ip cwd : Entry} {a : LogArea} {α : Type}
  {Q : α → FsAcct → Prop}

/-! ## Inodes -/

theorem calm_setValid (e : Entry) (b : Bool) :
    Calm T p (put fun s => s.setInode e { s.icache e with valid := b }) x :=
  calm_put fun _ => .setInode rfl rfl rfl rfl

theorem safe_ilock (hhas : x.Has e) (hordered : Ordered T.straight x (.ilock e)) :
    (fsRules T).Safe p (fun _ y => y = x.setLock e true ∧ x.lock e = false) (ilock e) x := by
  apply (safe_ilockBusy hhas hordered).bind
  rintro _ y ⟨rfl, hfree⟩
  have hdone : (fsRules T).Safe p
      (fun (_ : Unit) y => y = x.setLock e true ∧ x.lock e = false) (pure ())
      (x.setLock e true) := ⟨rfl, hfree⟩
  apply (calm_get _).bind
  intro valid
  show (fsRules T).Safe p _ (ite _ _ _) _
  split_ifs
  · exact hdone
  · apply (calm_get _).bind
    intro inum
    apply (calm_bread _).bind
    intro bp
    apply (calm_setCopy e _).bind
    intro _
    apply (calm_brelse bp).bind
    intro _
    apply (calm_setValid e true).bind
    intro _
    apply (calm_get _).bind
    intro type
    unfold Prog.when
    split_ifs
    · exact safe_stop
    · exact hdone

theorem safe_iput (hhand : 0 < x.hand e)
    (hlock : x.lock e = true → 1 < x.hand e ∨ x.stake e = true) :
    (fsRules T).Safe p (fun _ y => y = x.drop e) (iput a e) x := by
  apply (safe_iputTest hhand hlock).bind
  intro free y hy
  unfold Prog.when
  cases free with
  | false => exact hy
  | true =>
    obtain ⟨rfl, hfree, htx⟩ : y = x.setLock e true ∧ x.lock e = false ∧ _ := hy
    rw [if_pos rfl]
    have htx' : T.frugal → (x.setLock e true).trans = true := htx
    apply (calm_itrunc htx' e).bind
    intro _
    apply (calm_setCopy e _).bind
    intro _
    apply (calm_iupdate htx' e).bind
    intro _
    apply Rules.safe_atomic
    intro base s acc hinv hacc _ _
    refine ⟨⟨trivial, trivial⟩, fun _ t hf => ⟨x.drop e, ?_, id, rfl⟩⟩
    obtain rfl : _ = t := by simpa using hf
    have hx : x.drop e = ((acc p).setLock e false).drop e := by
      rw [hacc, FsAcct.setLock_setLock, FsAcct.setLock_eq_self hfree]
    rw [hx]
    have hlock' : (acc p).lock e = true := by simp [hacc]
    have hhand' : 0 < (acc p).hand e := by simpa [hacc] using hhand
    exact FsOk.release hinv hlock' hhand' rfl rfl rfl rfl

theorem safe_iunlockput (hlock : x.lock e = true) (hhand : 0 < x.hand e) :
    (fsRules T).Safe p (fun _ y => y = (x.setLock e false).drop e) (iunlockput a e) x := by
  apply (safe_iunlock hlock).bind
  rintro _ y ⟨rfl, _⟩
  exact safe_iput hhand (by simp)

theorem calm_lock_iunlockput {m : FsM α} (hfree : x.lock e = false)
    (hm : (fsRules T).Safe p Q m x) :
    (fsRules T).Safe p Q ((iunlockput a e).bind fun _ => m)
      ((x.take e).setLock e true) := by
  apply (safe_iunlockput (by simp) (by simp)).bind
  rintro _ y rfl
  rwa [FsAcct.setLock_setLock, FsAcct.take_setLock, FsAcct.setLock_eq_self hfree,
    FsAcct.take_drop]

theorem safe_iallocFrom (htx : T.frugal → x.trans = true) (dev type k inum : Nat) :
    (fsRules T).Safe p (fun e y => (y = x.take e ∧ (x.lock e = true → x.Has e)) ∧
      (T.straight → x.lock e = false)) (iallocFrom a dev type k inum) x := by
  induction k generalizing inum with
  | zero => exact safe_stop
  | succ k ih =>
    apply (calm_bread _).bind
    intro bp
    refine Rules.safe_ite (fun _ => ?_) fun _ => ?_
    · apply (calm_logWrite htx _).bind
      intro _
      apply (calm_brelse bp).bind
      intro _
      exact safe_iget_fresh dev inum
    · apply (calm_brelse bp).bind
      intro _
      exact ih _

theorem safe_ialloc (htx : T.frugal → x.trans = true) (dev type : Nat) :
    (fsRules T).Safe p (fun e y => (y = x.take e ∧ (x.lock e = true → x.Has e)) ∧
      (T.straight → x.lock e = false)) (ialloc a dev type) x := by
  apply calm_readsb.bind
  intro sb
  exact safe_iallocFrom htx dev type _ 1

/-! ## Contents -/

theorem calm_relock (hlock : x.lock e = true) (halone : x.Alone e) {β : Type} {m : FsM β} {g : β → FsM α}
    (hm : Calm T p m (x.setLock e false)) (hg : ∀ r, Calm T p (g r) x) :
    Calm T p ((iunlock e).bind fun _ => m.bind fun r => (ilock e).bind fun _ => g r) x := by
  apply (safe_iunlock hlock).bind
  rintro _ y ⟨rfl, hhas⟩
  apply hm.bind
  intro r
  have hordered : Ordered T.straight (x.setLock e false) (.ilock e) := by
    refine ⟨fun e' hlock' => ?_, fun _ => FsAcct.lock_setLock⟩
    have hne : e' ≠ e := by
      rintro rfl
      simp at hlock'
    rw [FsAcct.lock_setLock_of_ne hne] at hlock'
    exact halone e' hne hlock'
  apply (safe_ilock (FsAcct.has_setLock.2 hhas) hordered).bind
  rintro _ y ⟨rfl, _⟩
  rw [FsAcct.setLock_setLock, FsAcct.setLock_eq_self hlock]
  exact hg r

theorem calm_consoleread (hlock : x.lock e = true) (halone : x.Alone e) (n : Nat) :
    Calm T p (consoleread e n) x := by
  apply calm_relock hlock halone
  · apply safe_quiet
    · exact fun _ _ => trivial
    · trivial
    · intro s r t hf
      split at hf
      · cases hf
      · obtain ⟨_, rfl⟩ : _ = r ∧ _ = t := by simpa using hf
        exact .of_eq rfl rfl
    · exact fun _ _ _ _ _ _ => rfl
  · exact fun r => calm_pure r

theorem calm_consolewrite (hlock : x.lock e = true) (halone : x.Alone e) (n : Nat) :
    Calm T p (consolewrite e n) x :=
  calm_relock (m := (pure () : FsM Unit)) hlock halone (calm_pure ()) fun _ => calm_pure _

theorem calm_readFrom (e : Entry) (fuel off n : Nat) :
    Calm T p (readFrom a e fuel off n) x := by
  induction fuel generalizing off n with
  | zero => exact calm_pure _
  | succ fuel ih =>
    unfold readFrom
    split_ifs
    · exact calm_pure _
    · apply (calm_bmap e _).bind
      intro b
      apply (calm_bread b).bind
      intro bp
      apply (calm_brelse bp).bind
      intro _
      apply (ih _ _).bind
      intro rest
      exact calm_pure _

theorem calm_readi (hlock : x.lock e = true) (halone : x.Alone e) (off n : Nat) :
    Calm T p (readi a e off n) x := by
  apply (calm_get _).bind
  intro copy
  show Calm T p (ite _ _ _) x
  split_ifs
  · exact calm_consoleread hlock halone n
  · exact calm_pure _
  · exact calm_pure _
  all_goals
    apply (calm_readFrom e _ _ _).bind
    intro bytes
    exact calm_pure _

theorem calm_writeFrom (htx : T.frugal → x.trans = true) (e : Entry) (fuel : Nat)
    (src : Nat → UInt8) (off n : Nat) : Calm T p (writeFrom a e fuel src off n) x := by
  induction fuel generalizing src off n with
  | zero => exact calm_pure _
  | succ fuel ih =>
    unfold writeFrom
    split_ifs
    · exact calm_pure _
    · apply (calm_bmap e _).bind
      intro b
      apply (calm_bread b).bind
      intro bp
      apply (calm_logWrite htx _).bind
      intro _
      apply (calm_brelse bp).bind
      intro _
      exact ih _ _ _

theorem calm_writei (htx : x.trans = true) (hlock : x.lock e = true)
    (src : Nat → UInt8) (off n : Nat) : Calm T p (writei a e src off n) x := by
  apply (calm_get _).bind
  intro copy
  show Calm T p (ite _ _ _) x
  split_ifs
  · exact calm_consolewrite hlock (fun _ _ _ => htx) n
  · exact calm_pure _
  · exact calm_pure _
  · exact calm_pure _
  · apply (calm_writeFrom (fun _ => htx) e _ _ _ _).bind
    intro _
    apply (calm_get _).bind
    intro size
    apply Calm.bind (m := Prog.when _ _)
    · apply calm_when
      intro _
      apply (calm_setCopy e _).bind
      intro _
      exact calm_iupdate (fun _ => htx) e
    · exact fun _ => calm_pure _

/-! ## Directories and paths -/

def Found {β : Type} (x : FsAcct) : Option (Entry × β) → FsAcct → Prop
  | none, y => y = x
  | some (e, _), y => y = x.take e ∧ (x.lock e = true → x.Has e)

theorem calm_readDirent (hlock : x.lock dp = true) (halone : x.Alone dp) (off : Nat) (msg : String) :
    Calm T p (readDirent a dp off msg) x := by
  apply (calm_readi hlock halone off DENT).bind
  intro r
  split
  · split_ifs
    · exact calm_pure _
    · exact safe_stop
  · exact safe_stop

/-- A name that is found is not the directory itself, if the names are straight. -/
def NotSelf (T : Terms) (dp : Entry) (name : Name) {β : Type} (r : Option (Entry × β)) : Prop :=
  ∀ e off, r = some (e, off) → T.straight → sameName name DOT = false →
    sameName name DOTDOT = false → e ≠ dp

theorem safe_dirlookupFrom (hlock : x.lock dp = true) (halone : x.Alone dp) (name : Name)
    (k off : Nat) :
    (fsRules T).Safe p (fun r y => Found x r y ∧ NotSelf T dp name r)
      (dirlookupFrom a dp name k off) x := by
  induction k generalizing off with
  | zero => exact ⟨rfl, nofun⟩
  | succ k ih =>
    apply (calm_readDirent hlock halone off _).bind
    intro de
    refine Rules.safe_ite (fun _ => ih _) fun _ => ?_
    refine Rules.safe_ite (fun _ => ?_) fun _ => ih _
    apply (calm_get _).bind
    intro dev
    apply (safe_iget_found hlock name dev de.inum).bind
    rintro e y ⟨hy, hself⟩
    refine ⟨hy, ?_⟩
    rintro _ _ ⟨⟩
    exact hself

theorem safe_dirlookup (hlock : x.lock dp = true) (halone : x.Alone dp) (name : Name) :
    (fsRules T).Safe p (fun r y => Found x r y ∧ NotSelf T dp name r) (dirlookup a dp name) x := by
  apply (calm_get _).bind
  intro copy
  refine Rules.safe_ite (fun _ => safe_stop) fun _ => ?_
  exact safe_dirlookupFrom hlock halone name _ 0

theorem calm_findEmpty (hlock : x.lock dp = true) (halone : x.Alone dp) (k off : Nat) :
    Calm T p (findEmpty a dp k off) x := by
  induction k generalizing off with
  | zero => exact calm_pure _
  | succ k ih =>
    apply (calm_readDirent hlock halone off _).bind
    intro de
    show Calm T p (ite _ _ _) x
    split_ifs
    · exact calm_pure _
    · exact ih _

theorem safe_iput_take (h : x.lock e = true → x.Has e) :
    (fsRules T).Safe p (fun _ y => y = x) (iput a e) (x.take e) := by
  have hput : (fsRules T).Safe p (fun _ y => y = (x.take e).drop e) (iput a e) (x.take e) := by
    apply safe_iput (by simp)
    exact fun hlock => (h hlock).imp (fun hpos => by rw [FsAcct.hand_take]; omega) id
  rwa [FsAcct.take_drop] at hput

theorem calm_dirlink (htx : x.trans = true) (hlock : x.lock dp = true) (name : Name)
    (inum : Nat) : Calm T p (dirlink a dp name inum) x := by
  have halone : x.Alone dp := fun _ _ _ => htx
  apply (safe_dirlookup hlock halone name).bind
  rintro found y ⟨hy, hself⟩
  split
  · rename_i e off
    obtain ⟨rfl, hhas⟩ : y = x.take e ∧ _ := hy
    apply (safe_iput_take hhas).bind
    rintro _ y rfl
    exact calm_pure _
  · obtain rfl : y = x := hy
    apply (calm_get _).bind
    intro size
    apply (calm_findEmpty hlock halone _ 0).bind
    intro off
    apply (calm_writei htx hlock _ off DENT).bind
    intro r
    show Calm T p (ite _ _ _) y
    split_ifs
    · exact calm_pure _
    · exact safe_stop

theorem safe_namexStart (hcwd : x.Has cwd) (path : Path) :
    (fsRules T).Safe p (fun e y => y = x.take e ∧ (x.lock e = true → x.Has e))
      (namexStart cwd path) x := by
  unfold namexStart
  split_ifs
  · exact safe_iget ROOTDEV ROOTINO
  · apply (safe_idup hcwd).mono
    rintro e y ⟨rfl, rfl⟩
    exact ⟨rfl, fun _ => hcwd⟩

theorem safe_namexFrom (hun : x.Unlocked) (parent : Bool) (name : Name) (rest : List Name)
    (hip : x.lock ip = true → x.Has ip) :
    (fsRules T).Safe p (Found x) (namexFrom a parent ip name rest) (x.take ip) := by
  induction rest generalizing ip name with
  | nil =>
    unfold namexFrom
    split_ifs
    · apply (safe_iput_take hip).bind
      rintro _ y rfl
      exact (rfl : y = y)
    · exact ⟨rfl, hip⟩
  | cons next rest ih =>
    apply (safe_ilock FsAcct.has_take hun.take.ordered).bind
    rintro _ y ⟨rfl, hfree⟩
    rw [FsAcct.lock_take] at hfree
    apply (calm_get _).bind
    intro type
    show (fsRules T).Safe p _ (ite _ _ _) _
    split_ifs
    · exact calm_lock_iunlockput hfree (rfl : x = x)
    · apply (safe_iunlock (by simp)).bind
      rintro _ y ⟨rfl, _⟩
      rw [FsAcct.setLock_setLock, FsAcct.take_setLock, FsAcct.setLock_eq_self hfree]
      exact ⟨rfl, hip⟩
    · apply (safe_dirlookup (by simp) hun.take.alone next).bind
      rintro found y ⟨hy, hself⟩
      split
      · obtain rfl : y = _ := hy
        exact calm_lock_iunlockput hfree (rfl : x = x)
      · rename_i e off
        obtain ⟨rfl, hhas⟩ : y = ((x.take ip).setLock ip true).take e ∧ _ := hy
        -- The next inode is not the one whose lock is given back, or that one was free.
        have hnext : x.lock e = true → x.Has e := by
          intro hlock
          have hne : e ≠ ip := by
            rintro rfl
            rw [hfree] at hlock
            cases hlock
          have htaken := hhas (by rwa [FsAcct.lock_setLock_of_ne hne])
          exact htaken.imp (by simp [FsAcct.hand_take_of_ne hne]) id
        have hswap : ((x.take ip).setLock ip true).take e =
            ((x.take e).take ip).setLock ip true := by
          rw [← FsAcct.take_setLock, FsAcct.take_comm]
        rw [hswap]
        exact calm_lock_iunlockput hfree (ih next hnext)

theorem safe_namex (hun : x.Unlocked) (hcwd : x.Has cwd) (path : Path) (parent : Bool) :
    (fsRules T).Safe p (Found x) (namex a cwd path parent) x := by
  apply (safe_namexStart hcwd path).bind
  rintro e y ⟨rfl, he⟩
  exact safe_namexFrom hun parent [] path.elems he

theorem safe_namei (hun : x.Unlocked) (hcwd : x.Has cwd) (path : Path) :
    (fsRules T).Safe p (fun r y => match r with
      | none => y = x
      | some e => y = x.take e ∧ (x.lock e = true → x.Has e)) (namei a cwd path) x := by
  apply (safe_namex hun hcwd path false).bind
  intro r y hy
  cases r with
  | none => exact hy
  | some found => exact hy

/-! ## `sysfile.c` -/

theorem calm_isdiremptyFrom (hlock : x.lock dp = true) (halone : x.Alone dp) (k off : Nat) :
    Calm T p (isdiremptyFrom a dp k off) x := by
  induction k generalizing off with
  | zero => exact calm_pure _
  | succ k ih =>
    apply (calm_readDirent hlock halone off _).bind
    intro de
    show Calm T p (ite _ _ _) x
    split_ifs
    · exact calm_pure _
    · exact ih _

theorem calm_canUnlink (hlock : x.lock ip = true) (halone : x.Alone ip) (copy : Dinode) :
    Calm T p (canUnlink a ip copy) x := by
  unfold canUnlink
  split_ifs
  · apply (calm_get _).bind
    intro size
    exact calm_isdiremptyFrom hlock halone _ _
  · exact calm_pure _

theorem calm_createDots (htx : x.trans = true) (hip : x.lock ip = true) :
    Calm T p (createDots a dp ip) x := by
  unfold createDots
  apply (calm_setCopy dp _).bind
  intro _
  apply (calm_iupdate (fun _ => htx) dp).bind
  intro _
  apply (calm_get _).bind
  intro inum
  apply (calm_dirlink htx hip DOT inum).bind
  intro dot
  show Calm T p (ite _ _ _) x
  split_ifs
  · apply (calm_get _).bind
    intro up
    apply (calm_dirlink htx hip DOTDOT up).bind
    intro dotdot
    exact calm_when fun _ => safe_stop
  · exact safe_stop

theorem calm_addTo (e : Entry) :
    Calm T p (.atomic (.addTo e) fun s => .ok ((s.icache e).dev, s)) x := by
  apply safe_quiet
  · exact fun _ _ => trivial
  · trivial
  · intro s r t hf
    obtain ⟨_, rfl⟩ : _ = r ∧ s = t := by simpa using hf
    exact .of_eq rfl rfl
  · exact fun _ _ _ _ _ _ => rfl

def Opened (x : FsAcct) : Option Entry → FsAcct → Prop
  | none, y => y = x
  | some e, y => y = (x.take e).setLock e true ∧ x.lock e = false

theorem safe_create (htx : x.trans = true) (hun : x.Unlocked) (hcwd : x.Has cwd) (path : Path)
    (type major minor : Nat) :
    (fsRules T).Safe p (Opened x) (create a cwd path type major minor) x := by
  apply (safe_namex hun hcwd path true).bind
  intro r y hy
  split
  · exact hy
  · rename_i dp name
    obtain ⟨rfl, hdp⟩ : y = x.take dp ∧ _ := hy
    apply (safe_ilock FsAcct.has_take hun.take.ordered).bind
    rintro _ y ⟨rfl, hfree⟩
    rw [FsAcct.lock_take] at hfree
    apply (safe_dirlookup (by simp) hun.take.alone name).bind
    rintro found y ⟨hy, hself⟩
    split
    · rename_i ip off
      obtain ⟨rfl, _⟩ : y = ((x.take dp).setLock dp true).take ip ∧ _ := hy
      rw [← FsAcct.take_setLock, FsAcct.take_comm]
      apply calm_lock_iunlockput (x := x.take ip) hfree
      apply (safe_ilock FsAcct.has_take hun.take.ordered).bind
      rintro _ y ⟨rfl, hfree'⟩
      apply (calm_get _).bind
      intro t
      show (fsRules T).Safe p _ (ite _ _ _) _
      split_ifs
      · exact ⟨rfl, hfree'⟩
      · exact calm_lock_iunlockput hfree' (rfl : x = x)
    · obtain rfl : y = (x.take dp).setLock dp true := hy
      apply (calm_addTo dp).bind
      intro dev
      apply (safe_ialloc (x := (x.take dp).setLock dp true) (fun _ => htx) dev type).bind
      rintro ip y ⟨⟨rfl, _⟩, hself⟩
      apply (safe_ilock (x := ((x.take dp).setLock dp true).take ip) FsAcct.has_take
        ⟨fun _ _ => htx, hself⟩).bind
      rintro _ y ⟨rfl, hfree'⟩
      rw [FsAcct.lock_take] at hfree'
      -- The new inode was free to lock, so it is not the directory.
      have hne : ip ≠ dp := by
        rintro rfl
        simp at hfree'
      have hfree'' : x.lock ip = false := by rwa [FsAcct.lock_setLock_of_ne hne] at hfree'
      rw [FsAcct.take_setLock_swap hne.symm]
      have htx' : ((((x.take ip).setLock ip true).take dp).setLock dp true).trans = true := htx
      have hlockip : ((((x.take ip).setLock ip true).take dp).setLock dp true).lock ip = true := by
        simp [FsAcct.lock_setLock_of_ne hne]
      apply (calm_setCopy ip _).bind
      intro _
      apply (calm_iupdate (fun _ => htx') ip).bind
      intro _
      apply Calm.bind (m := Prog.when _ _)
      · exact calm_when fun _ => calm_createDots htx' hlockip
      · intro _
        apply (calm_get _).bind
        intro inum
        apply (calm_dirlink htx' (by simp) name inum).bind
        intro linked
        show (fsRules T).Safe p _ (ite _ _ _) _
        split_ifs
        · refine calm_lock_iunlockput ?_ ?_
          · rw [FsAcct.lock_setLock_of_ne hne.symm]
            exact hfree
          · exact ⟨rfl, hfree''⟩
        · exact safe_stop

theorem calm_commit (htr : x.trans = false) (r : α) :
    (fsRules T).Safe p (fun _ y => y = x) ((commitTrans a).bind fun _ => .ret r)
      (x.setTrans true) := by
  apply (safe_commitTrans rfl).bind
  rintro _ y rfl
  rw [FsAcct.setTrans_setTrans, FsAcct.setTrans_eq_self htr]
  exact (rfl : x = x)

theorem calm_linkBad (htr : x.trans = false) (hun : x.Unlocked) :
    (fsRules T).Safe p (fun _ y => y = x) (linkBad a ip) ((x.setTrans true).take ip) := by
  apply (safe_ilock FsAcct.has_take hun.setTrans.take.ordered).bind
  rintro _ y ⟨rfl, hfree⟩
  apply (calm_setCopy ip _).bind
  intro _
  apply (calm_iupdate (fun _ => rfl) ip).bind
  intro _
  exact calm_lock_iunlockput hfree (calm_commit htr _)

theorem calm_linkEntry (htx : x.trans = true) (hlock : x.lock dp = true) (name : Name) :
    Calm T p (linkEntry a dp ip name) x := by
  apply (calm_addTo dp).bind
  intro dev
  apply (calm_get _).bind
  intro dev'
  apply (calm_get _).bind
  intro inum
  show Calm T p (ite _ _ _) x
  split_ifs
  · exact calm_pure _
  · exact calm_dirlink htx hlock name inum

theorem calm_link (htr : x.trans = false) (hun : x.Unlocked) (hcwd : x.Has cwd)
    (old new : Path) : Calm T p (link a p cwd old new) x := by
  have hun' : (x.setTrans true).Unlocked := hun.setTrans
  apply (safe_namei hun hcwd old).bind
  intro r y hy
  split
  · exact hy
  · rename_i ip
    obtain ⟨rfl, hip⟩ : y = x.take ip ∧ _ := hy
    apply (safe_beginTrans (x := x.take ip) htr hun.take).bind
    rintro _ y rfl
    rw [FsAcct.take_setTrans]
    have hcwd' : ((x.setTrans true).take ip).Has cwd := FsAcct.Has.take hcwd
    apply (safe_ilock FsAcct.has_take hun'.take.ordered).bind
    rintro _ y ⟨rfl, hfree⟩
    apply (calm_get _).bind
    intro type
    show (fsRules T).Safe p _ (ite _ _ _) _
    split_ifs
    · exact calm_lock_iunlockput hfree (calm_commit htr _)
    · apply (calm_setCopy ip _).bind
      intro _
      apply (calm_iupdate (fun _ => rfl) ip).bind
      intro _
      apply (safe_iunlock (by simp)).bind
      rintro _ y ⟨rfl, _⟩
      rw [FsAcct.setLock_setLock, FsAcct.setLock_eq_self hfree]
      apply (safe_namex hun'.take hcwd' new true).bind
      intro r y hy
      split
      · obtain rfl : y = _ := hy
        exact calm_linkBad htr hun
      · rename_i dp name
        obtain ⟨rfl, hdp⟩ : y = ((x.setTrans true).take ip).take dp ∧ _ := hy
        apply (safe_ilock FsAcct.has_take hun'.take.take.ordered).bind
        rintro _ y ⟨rfl, hfree'⟩
        apply (calm_linkEntry rfl (by simp) name).bind
        intro linked
        show (fsRules T).Safe p _ (ite _ _ _) _
        split_ifs
        · apply calm_lock_iunlockput (x := (x.setTrans true).take ip) hfree'
          apply (safe_iput_take (x := x.setTrans true) hip).bind
          rintro _ y rfl
          exact calm_commit htr _
        · exact calm_lock_iunlockput (x := (x.setTrans true).take ip) hfree'
            (calm_linkBad htr hun)

theorem calm_unlinkBad (htr : x.trans = false) (hfree : x.lock dp = false) :
    (fsRules T).Safe p (fun _ y => y = x) (unlinkBad a dp)
      (((x.setTrans true).take dp).setLock dp true) :=
  calm_lock_iunlockput hfree (calm_commit htr _)

theorem calm_remove (e : Entry) :
    Calm T p (.atomic (.remove e) fun s => .ok ((), s)) x := by
  apply safe_quiet
  · exact fun _ _ => trivial
  · trivial
  · intro s r t hf
    obtain rfl : s = t := by simpa using hf
    exact .of_eq rfl rfl
  · exact fun _ _ _ _ _ _ => rfl

theorem calm_unlink (htr : x.trans = false) (hun : x.Unlocked) (hcwd : x.Has cwd)
    (path : Path) : Calm T p (unlink a p cwd path) x := by
  have hun' : (x.setTrans true).Unlocked := hun.setTrans
  apply (safe_namex hun hcwd path true).bind
  intro r y hy
  split
  · exact hy
  · rename_i dp name
    obtain ⟨rfl, _⟩ : y = x.take dp ∧ _ := hy
    apply (safe_beginTrans (x := x.take dp) htr hun.take).bind
    rintro _ y rfl
    rw [FsAcct.take_setTrans]
    apply (safe_ilock FsAcct.has_take hun'.take.ordered).bind
    rintro _ y ⟨rfl, hfree⟩
    show (fsRules T).Safe p _ (ite _ _ _) _
    split_ifs with hdots
    · exact calm_unlinkBad htr hfree
    · obtain ⟨hdot, hdotdot⟩ := not_or.1 hdots
      apply (safe_dirlookup (by simp) hun'.take.alone name).bind
      rintro found y ⟨hy, hself⟩
      split
      · obtain rfl : y = _ := hy
        exact calm_unlinkBad htr hfree
      · rename_i ip off
        obtain ⟨rfl, _⟩ : y = (((x.setTrans true).take dp).setLock dp true).take ip ∧ _ := hy
        have hother : T.straight →
            ((((x.setTrans true).take dp).setLock dp true).take ip).lock ip = false := by
          intro hstraight
          have hne : ip ≠ dp := hself ip off rfl hstraight (Bool.eq_false_iff.2 hdot)
            (Bool.eq_false_iff.2 hdotdot)
          rw [FsAcct.lock_take, FsAcct.lock_setLock_of_ne hne]
          exact hun ip
        apply (safe_ilock FsAcct.has_take ⟨fun _ _ => rfl, hother⟩).bind
        rintro _ y ⟨rfl, hfree'⟩
        rw [FsAcct.lock_take] at hfree'
        have hne : ip ≠ dp := by
          rintro rfl
          simp at hfree'
        have hfreeip : (((x.setTrans true).take dp).setLock dp true).lock ip = false := hfree'
        apply (calm_get _).bind
        intro copy
        show (fsRules T).Safe p _ (ite _ _ _) _
        split_ifs
        · exact safe_stop
        · apply (calm_canUnlink (by simp) (fun _ _ _ => rfl) copy).bind
          intro empty
          show (fsRules T).Safe p _ (ite _ _ _) _
          split_ifs
          · exact calm_lock_iunlockput hfreeip (calm_unlinkBad htr hfree)
          · apply (calm_remove ip).bind
            intro _
            rw [FsAcct.take_setLock_swap hne.symm]
            have hlockip : ((((((x.setTrans true).take ip).setLock ip true).take dp).setLock
                dp true)).lock ip = true := by
              simp [FsAcct.lock_setLock_of_ne hne]
            apply (calm_writei rfl (by simp) _ off DENT).bind
            intro r
            show (fsRules T).Safe p _ (ite _ _ _) _
            split_ifs
            · exact safe_stop
            · apply Calm.bind (m := Prog.when _ _)
              · apply calm_when
                intro _
                apply (calm_setCopy dp _).bind
                intro _
                exact calm_iupdate (fun _ => rfl) dp
              · intro _
                refine calm_lock_iunlockput (x := ((x.setTrans true).take ip).setLock ip true) ?_ ?_
                · rw [FsAcct.lock_setLock_of_ne hne.symm]
                  exact hfree
                · apply (calm_setCopy ip _).bind
                  intro _
                  apply (calm_iupdate (fun _ => rfl) ip).bind
                  intro _
                  refine calm_lock_iunlockput ?_ (calm_commit htr _)
                  rwa [FsAcct.lock_setLock_of_ne hne] at hfree'

theorem calm_execFile (hun : x.Unlocked) (hcwd : x.Has cwd) (path : Path)
    (parts : List (Nat × Nat)) : Calm T p (execFile a cwd path parts) x := by
  apply (safe_namei hun hcwd path).bind
  intro r y hy
  split
  · exact hy
  · rename_i ip
    obtain ⟨rfl, _⟩ : y = x.take ip ∧ _ := hy
    apply (safe_ilock FsAcct.has_take hun.take.ordered).bind
    rintro _ y ⟨rfl, hfree⟩
    apply Calm.bind (m := Prog.forList _ _)
    · refine Rules.safe_forList (I := fun _ y => y = (x.take ip).setLock ip true) rfl ?_
      rintro part rest y _ rfl
      apply (calm_readi (by simp) hun.take.alone part.1 part.2).bind
      intro _
      exact calm_pure ()
    · intro _
      exact calm_lock_iunlockput hfree (rfl : x = x)

end Xv6.Files
