import Xv6.Files.ProcMoves

/-!
# Every system call leaves the accounts balanced

A process begins a call in the middle of nothing, and on each path through the call, with or
without an error, it is in the middle of nothing when the call ends.
-/

namespace Xv6.Files

open Xv6.Lib Xv6.Fs Xv6.Sched

variable {s t : Sys} {acc : Slot → Acct} {p : Slot} {x y : Acct} {T : Terms} {α : Type}
  {a : LogArea} {f : FileId}

namespace Acct

@[simp] theorem fs_setFs {z : FsAcct} : (x.setFs z).fs = z := rfl

@[simp] theorem setFs_setFs {z w : FsAcct} : (x.setFs z).setFs w = x.setFs w := rfl

@[simp] theorem setFs_fs : x.setFs x.fs = x := rfl

structure Ready (x : Acct) : Prop extends x.Balanced where
  live : x.exited = false
  file : x.file = none

theorem Balanced.unlocked (h : x.Balanced) : x.fs.Unlocked := congrFun h.lock

theorem Balanced.useFile (h : x.Balanced) (f : FileId) (e : Entry) :
    (x.useFile f e).Balanced :=
  ⟨h.hold, h.fresh, h.work, h.child, h.cwdRef, h.hand, h.lock, h.trans⟩

theorem Ready.useCwd (h : x.Ready) (e : Entry) : (x.useCwd e).Ready :=
  ⟨⟨h.hold, h.fresh, h.work, h.child, h.cwdRef, h.hand, h.lock, h.trans⟩, h.live, h.file⟩

theorem has_useCwd (x : Acct) (e : Entry) : (x.useCwd e).fs.Has e :=
  .inr (Function.update_self ..)

theorem has_useFile (x : Acct) (f : FileId) (e : Entry) : (x.useFile f e).fs.Has e :=
  .inr (Function.update_self ..)

theorem Balanced.hold_pos (h : x.Balanced) {fd : Fd} (hfd : x.fds fd = some f) :
    0 < x.hold f := by
  rw [h.hold f]
  exact descriptors_pos hfd

theorem Balanced.closeFd (h : x.Balanced) {fd : Fd} (hfd : x.fds fd = some f) :
    ((x.setFd fd none).dropFile f).Balanced := by
  refine ⟨fun g => ?_, ?_, h.work, h.child, h.cwdRef, h.hand, h.lock, h.trans⟩
  · have hsum := descriptors_update x.fds fd none g
    have hg := h.hold g
    simp only [hfd, reduceCtorEq, if_false, Option.some.injEq] at hsum
    show Function.update x.hold f (x.hold f - 1) g = descriptors (Function.update x.fds fd none) g
    by_cases hgf : g = f
    · subst hgf
      rw [Function.update_self]
      simp only [if_true] at hsum
      omega
    · rw [Function.update_of_ne hgf]
      simp only [Ne.symm hgf, if_false] at hsum
      omega
  · show Function.update x.fresh f false = fun _ => false
    rw [h.fresh]
    simp

theorem addFile_dropFile (hfresh : x.fresh f = false) : (x.addFile f).dropFile f = x := by
  simp [addFile, dropFile, ← hfresh]

theorem dupFile_dropFile (hfresh : x.fresh f = false) : (x.dupFile f).dropFile f = x := by
  simp [dupFile, dropFile, ← hfresh]

theorem addFile_comm {g : FileId} (hne : f ≠ g) :
    (x.addFile f).addFile g = (x.addFile g).addFile f := by
  simp only [addFile, Function.update_of_ne hne, Function.update_of_ne hne.symm,
    Function.update_comm hne]

theorem initPipe_eq {g : FileId} {page : Nat} (hf : x.fresh f = false)
    (hg : x.fresh g = false) (hwork : x.work = .idle) :
    ({ (x.addFile f).addFile g with work := .making page } : Acct).initPipe f g =
      (x.dupFile f).dupFile g := by
  have hfresh : Function.update (Function.update (Function.update (Function.update x.fresh f true)
      g true) f false) g false = x.fresh := by
    funext k
    by_cases hkg : k = g
    · rw [hkg, Function.update_self, hg]
    · rw [Function.update_of_ne hkg]
      by_cases hkf : k = f
      · rw [hkf, Function.update_self, hf]
      · simp [hkg, hkf]
  simp only [initPipe, addFile, dupFile, hfresh, ← hwork]

theorem dupFile_comm {g : FileId} (hne : f ≠ g) :
    (x.dupFile f).dupFile g = (x.dupFile g).dupFile f := by
  simp only [dupFile, Function.update_of_ne hne, Function.update_of_ne hne.symm,
    Function.update_comm hne]

end Acct

/-! ## Reading and writing -/

section Locks

variable {Q : α → Acct → Prop} {g : SysM α} {e : Entry}

theorem safe_lock (hun : x.fs.Unlocked) (hhas : x.fs.Has e)
    (hg : x.fs.lock e = false → (sysRules T).Safe p Q g (x.setFs (x.fs.setLock e true))) :
    (sysRules T).Safe p Q ((fs (ilock e)).bind fun _ => g) x := by
  apply (safe_fs (safe_ilock hhas hun.ordered)).bind
  rintro _ _ ⟨z, rfl, rfl, hfree⟩
  exact hg hfree

theorem safe_unlock (hfree : x.fs.lock e = false) (hg : (sysRules T).Safe p Q g x) :
    (sysRules T).Safe p Q ((fs (iunlock e)).bind fun _ => g)
      (x.setFs (x.fs.setLock e true)) := by
  apply (safe_fs (safe_iunlock (FsAcct.lock_setLock (x := x.fs)))).bind
  rintro _ _ ⟨z, rfl, rfl, _⟩
  rw [Acct.fs_setFs, Acct.setFs_setFs, FsAcct.setLock_setLock, FsAcct.setLock_eq_self hfree]
  exact hg

theorem safe_unlockput (hfree : x.fs.lock e = false) (hg : (sysRules T).Safe p Q g x) :
    (sysRules T).Safe p Q ((fs (iunlockput a e)).bind fun _ => g)
      (x.setFs ((x.fs.take e).setLock e true)) := by
  apply (safe_fs (safe_iunlockput (x := (x.fs.take e).setLock e true) (by simp) (by simp))).bind
  rintro _ _ ⟨z, rfl, rfl⟩
  rw [Acct.setFs_setFs, FsAcct.setLock_setLock, FsAcct.take_setLock,
    FsAcct.setLock_eq_self hfree, FsAcct.take_drop]
  exact hg

theorem safe_begin (htr : x.fs.trans = false) (hun : x.fs.Unlocked)
    (hg : (sysRules T).Safe p Q g (x.setFs (x.fs.setTrans true))) :
    (sysRules T).Safe p Q ((fs (beginTrans p)).bind fun _ => g) x := by
  apply (safe_fs (safe_beginTrans htr hun)).bind
  rintro _ _ ⟨z, rfl, rfl⟩
  exact hg

theorem safe_commit (htr : x.fs.trans = false) (hg : (sysRules T).Safe p Q g x) :
    (sysRules T).Safe p Q ((fs (commitTrans a)).bind fun _ => g)
      (x.setFs (x.fs.setTrans true)) := by
  apply (safe_fs (safe_commitTrans (x := x.fs.setTrans true) rfl)).bind
  rintro _ _ ⟨z, rfl, rfl⟩
  rw [FsAcct.setTrans_setTrans, FsAcct.setTrans_eq_self htr]
  exact hg

end Locks

/-- The process is using the file, if any, and is in the middle of nothing else. -/
structure Using (f : FileId) (x : Acct) : Prop where
  balanced : x.Balanced
  held : 0 < x.hold f
  file : x.file = none ∨ x.file = some f

theorem safe_inodeFile {g : File → SysM α} {Q : α → Acct → Prop} (h : Using f x)
    (hg : ∀ ff, (ff.type = .FD_INODE → ∀ y, Using f y → y.fs.Has ff.ip →
      (sysRules T).Safe p Q (g ff) y) ∧
        (ff.type ≠ .FD_INODE → (sysRules T).Safe p Q (g ff) x)) :
    (sysRules T).Safe p Q ((look fun s => s.file f).bind g) x := by
  apply (safe_useFile h.held h.file).bind
  intro ff y hy
  split_ifs at hy with htype
  · subst hy
    exact (hg ff).1 htype _ ⟨h.balanced.useFile f ff.ip, h.held, .inr rfl⟩ (x.has_useFile f ff.ip)
  · subst hy
    exact (hg ff).2 htype

theorem safe_anyFile {g : File → SysM α} {Q : α → Acct → Prop} (h : Using f x)
    (hg : ∀ ff y, Using f y → (sysRules T).Safe p Q (g ff) y) :
    (sysRules T).Safe p Q ((look fun s => s.file f).bind g) x :=
  safe_inodeFile h fun ff => ⟨fun _ y hy _ => hg ff y hy, fun _ => hg ff x h⟩

theorem safe_fileread (h : Using f x) (n : Int) :
    (sysRules T).Safe p (fun _ y => y.Balanced) (fileread a f n) x := by
  refine safe_inodeFile h fun ff => ⟨fun htype y hy hhas => ?_, fun htype => ?_⟩
  · show (sysRules T).Safe p _ (ite _ _ _) y
    split_ifs
    · exact hy.balanced
    · rw [htype]
      apply safe_lock hy.balanced.unlocked hhas
      intro hfree
      apply (safe_look fun _ _ _ _ => rfl : (sysRules T).Safe p (fun _ z => z = _) _ _).bind
      rintro off _ rfl
      apply (calm_fs (calm_readi FsAcct.lock_setLock hy.balanced.unlocked.alone off _)).bind
      rintro r _ rfl
      split
      · exact safe_unlock hfree hy.balanced
      · apply (safe_setOff (x := y.setFs (y.fs.setLock ff.ip true)) hy.held _).bind
        rintro _ _ rfl
        exact safe_unlock hfree hy.balanced
  · show (sysRules T).Safe p _ (ite _ _ _) x
    split_ifs
    · exact h.balanced
    · cases hff : ff.type with
      | FD_INODE => exact absurd hff htype
      | FD_PIPE => exact h.balanced
      | FD_NONE => exact safe_halt

theorem safe_writeTurn (h : Using f x) {ip : Entry} (hhas : x.fs.Has ip) (src : Nat → UInt8)
    (n : Nat) : (sysRules T).Safe p (fun _ y => y = x) (writeTurn a f ip src n)
      (x.setFs (x.fs.setTrans true)) := by
  apply safe_lock (x := x.setFs (x.fs.setTrans true)) h.balanced.unlocked.setTrans hhas
  intro hfree
  apply (safe_look fun _ _ _ _ => rfl : (sysRules T).Safe p (fun _ z => z = _) _ _).bind
  rintro off _ rfl
  apply (calm_fs (calm_writei rfl FsAcct.lock_setLock src off _)).bind
  rintro r _ rfl
  apply Rules.Safe.bind (m := Prog.when _ _) (Q := fun _ y =>
    y = (x.setFs (x.fs.setTrans true)).setFs ((x.fs.setTrans true).setLock ip true))
  · unfold Prog.when
    split_ifs
    · apply safe_setOff
      exact h.held
    · exact (rfl : _ = _)
  · rintro _ _ rfl
    apply safe_unlock hfree
    apply safe_commit h.balanced.trans
    exact (rfl : x = x)

theorem safe_filewriteFrom (h : Using f x) {ip : Entry} (hhas : x.fs.Has ip) (fuel : Nat)
    (src : Nat → UInt8) (n : Nat) :
    (sysRules T).Safe p (fun _ y => y = x) (filewriteFrom a p f ip fuel src n) x := by
  induction fuel generalizing src n with
  | zero => exact (rfl : x = x)
  | succ fuel ih =>
    unfold filewriteFrom
    split_ifs
    · exact (rfl : x = x)
    · apply safe_begin h.balanced.trans h.balanced.unlocked
      apply (safe_writeTurn h hhas src _).bind
      rintro r y rfl
      split_ifs
      · exact (rfl : y = y)
      · exact safe_halt
      · exact ih _ _

theorem safe_filewrite (h : Using f x) (src : Nat → UInt8) (n : Int) :
    (sysRules T).Safe p (fun _ y => Using f y) (filewrite a p f src n) x := by
  refine safe_inodeFile h fun ff => ⟨fun htype y hy hhas => ?_, fun htype => ?_⟩
  · simp only [htype]
    split_ifs
    · exact hy
    · exact hy
    · apply (safe_filewriteFrom hy hhas _ src _).bind
      rintro all _ rfl
      exact hy
  · cases hff : ff.type with
    | FD_INODE => exact absurd hff htype
    | FD_PIPE =>
      simp only
      split_ifs
      · exact h
      · exact h
    | FD_NONE =>
      simp only
      split_ifs
      · exact h
      · exact safe_halt

theorem safe_filestat (h : Using f x) :
    (sysRules T).Safe p (fun _ y => y.Balanced) (filestat f) x := by
  refine safe_inodeFile h fun ff => ⟨fun htype y hy hhas => ?_, fun htype => ?_⟩
  · rw [htype]
    apply safe_lock hy.balanced.unlocked hhas
    intro hfree
    exact safe_unlock hfree hy.balanced
  · cases hff : ff.type with
    | FD_INODE => exact absurd hff htype
    | FD_PIPE => exact h.balanced
    | FD_NONE => exact h.balanced

theorem safe_fillFrom (h : Using f x) (src : Nat → UInt8) (fuel : Nat) (zerosize : Int) :
    (sysRules T).Safe p (fun _ y => Using f y) (fillFrom a p f src fuel zerosize) x := by
  induction fuel generalizing x zerosize with
  | zero => exact h
  | succ fuel ih =>
    unfold fillFrom
    split_ifs
    · apply (safe_filewrite h src zerosize).bind
      intro _ y hy
      exact ih hy _
    · exact h

/-! ## Calls with a descriptor -/

theorem safe_fd {g : Option (Fd × FileId) → SysM α} {Q : α → Acct → Prop} (h : x.Ready) (fd : Int)
    (hnone : (sysRules T).Safe p Q (g none) x)
    (hsome : ∀ i f, x.fds i = some f → Using f x →
      (sysRules T).Safe p Q (g (some (i, f))) x) :
    (sysRules T).Safe p Q ((argfd p fd).bind g) x := by
  apply (safe_argfd fd).bind
  rintro r _ ⟨rfl, hr⟩
  cases r with
  | none => exact hnone
  | some found =>
    have hfd := hr found.1 found.2 rfl
    exact hsome found.1 found.2 hfd ⟨h.toBalanced, h.toBalanced.hold_pos hfd, .inl h.file⟩

theorem safe_sysRead (h : x.Ready) (fd n : Int) :
    (sysRules T).Safe p (fun _ y => y.Balanced) (sysRead a p fd n) x :=
  safe_fd h fd h.toBalanced fun _ _ _ hf => safe_fileread hf n

theorem safe_sysWrite (h : x.Ready) (fd : Int) (src : Nat → UInt8) (n : Int) :
    (sysRules T).Safe p (fun _ y => y.Balanced) (sysWrite a p fd src n) x :=
  safe_fd h fd h.toBalanced fun _ _ _ hf =>
    (safe_filewrite hf src n).mono fun _ _ hy => hy.balanced

theorem safe_sysFstat (h : x.Ready) (fd : Int) :
    (sysRules T).Safe p (fun _ y => y.Balanced) (sysFstat p fd) x :=
  safe_fd h fd h.toBalanced fun _ _ _ hf => safe_filestat hf

theorem safe_sysClose (h : x.Ready) (fd : Int) :
    (sysRules T).Safe p (fun _ y => y.Balanced) (sysClose a p fd) x := by
  refine safe_fd h fd h.toBalanced fun i f hfd hf => ?_
  apply (safe_setFd h.live i none).bind
  rintro _ _ rfl
  apply (safe_fileclose (x := x.setFd i none) hf.held h.work h.file h.trans
    fun _ => h.unlocked).bind
  rintro _ _ rfl
  exact h.toBalanced.closeFd hfd

theorem safe_sysDup (h : x.Ready) (fd : Int) :
    (sysRules T).Safe p (fun _ y => y.Balanced) (sysDup p fd) x := by
  refine safe_fd h fd h.toBalanced fun i f hfd hf => ?_
  apply (safe_fdalloc h.live f).bind
  intro r y hy
  cases r with
  | none =>
    subst hy
    exact h.toBalanced
  | some new =>
    obtain ⟨rfl, hnew⟩ := hy
    apply (safe_filedup (x := x.setFd new (some f)) hf.held (congrFun h.fresh f)).bind
    rintro _ _ rfl
    exact h.toBalanced.getFd hnew

theorem safe_seekTo (h : Using f x) (size off : Nat) (m : Unset) :
    (sysRules T).Safe p (fun _ y => y.Balanced) (seekTo a p f size off m) x := by
  apply Rules.Safe.bind (m := Prog.when _ _) (Q := fun _ y => Using f y)
  · unfold Prog.when
    split_ifs
    · apply (safe_fillFrom h _ _ _).bind
      intro _ y _
      exact safe_halt
    · apply (safe_fillFrom h _ _ _).bind
      exact fun _ y hy => hy
    · exact h
  · intro _ y hy
    apply (safe_setOff hy.held _).bind
    rintro _ _ rfl
    exact hy.balanced

theorem safe_sysLseek (h : x.Ready) (fd offset base : Int) (m : Unset) :
    (sysRules T).Safe p (fun _ y => y.Balanced) (sysLseek a p fd offset base m) x := by
  refine safe_fd h fd safe_halt fun i f hfd hf => ?_
  refine safe_anyFile hf fun ff y hy => ?_
  apply (calm_fs (calm_get _)).bind
  rintro size y rfl
  dsimp only
  generalize (if ff.opened = true then size else m.size) = size
  show (sysRules T).Safe p _ (ite _ _ _) y
  split_ifs
  · exact hy.balanced
  · exact safe_seekTo hy _ _ m

/-! ## Pipes -/

theorem safe_pipealloc (h : x.Ready) :
    (sysRules T).Safe p (fun r y => match r with
      | none => y = x
      | some (rf, wf) => y = (x.dupFile rf).dupFile wf ∧ rf ≠ wf) (pipealloc a p) x := by
  have hfresh : ∀ f, x.fresh f = false := congrFun h.fresh
  apply safe_filealloc.bind
  intro f0 y hy
  cases f0 with
  | none => exact hy
  | some f0 =>
    obtain ⟨rfl, _⟩ := hy
    apply safe_filealloc.bind
    intro f1 y hy
    cases f1 with
    | none =>
      subst hy
      apply (safe_fileclose (x := x.addFile f0) (by simp [Acct.addFile]) h.work h.file
        h.trans fun _ => h.unlocked).bind
      rintro _ _ rfl
      exact Acct.addFile_dropFile (hfresh f0)
    | some f1 =>
      obtain ⟨rfl, hzero⟩ := hy
      have hne : f0 ≠ f1 := by
        rintro rfl
        simp [Acct.addFile] at hzero
      apply (safe_kalloc (x := (x.addFile f0).addFile f1) h.work).bind
      intro page y hy
      cases page with
      | none =>
        subst hy
        rw [Acct.addFile_comm hne]
        apply (safe_fileclose (x := (x.addFile f1).addFile f0) (by simp [Acct.addFile])
          h.work h.file h.trans fun _ => h.unlocked).bind
        rintro _ _ rfl
        rw [Acct.addFile_dropFile (by simpa [Acct.addFile, hne] using hfresh f0)]
        apply (safe_fileclose (x := x.addFile f1) (by simp [Acct.addFile]) h.work h.file
          h.trans fun _ => h.unlocked).bind
        rintro _ _ rfl
        exact Acct.addFile_dropFile (hfresh f1)
      | some page =>
        subst hy
        apply (safe_pipeinit (x := { (x.addFile f0).addFile f1 with work := .making page })
          (by simp [Acct.addFile, hne]) (by simp [Acct.addFile]) hne.symm rfl).bind
        rintro _ _ rfl
        exact ⟨Acct.initPipe_eq (hfresh f0) (hfresh f1) h.work, hne⟩

theorem safe_sysPipe (h : x.Ready) :
    (sysRules T).Safe p (fun _ y => y.Balanced) (sysPipe a p) x := by
  have hfresh : ∀ f, x.fresh f = false := congrFun h.fresh
  apply (safe_pipealloc h).bind
  intro r y hy
  cases r with
  | none =>
    subst hy
    exact h.toBalanced
  | some found =>
    obtain ⟨rf, wf⟩ := found
    obtain ⟨rfl, hne⟩ : y = (x.dupFile rf).dupFile wf ∧ rf ≠ wf := hy
    -- Both files are closed again in the error paths.
    have hclose : ∀ g : SysM Int, (sysRules T).Safe p (fun _ y => y.Balanced) g x →
        (sysRules T).Safe p (fun _ y => y.Balanced)
          ((fileclose a p rf).bind fun _ => (fileclose a p wf).bind fun _ => g)
          ((x.dupFile rf).dupFile wf) := by
      intro g hg
      rw [Acct.dupFile_comm hne]
      apply (safe_fileclose (x := (x.dupFile wf).dupFile rf) (by simp [Acct.dupFile]) h.work
        h.file h.trans fun _ => h.unlocked).bind
      rintro _ _ rfl
      rw [Acct.dupFile_dropFile (x := x.dupFile wf) (hfresh rf)]
      apply (safe_fileclose (x := x.dupFile wf) (by simp [Acct.dupFile]) h.work h.file
        h.trans fun _ => h.unlocked).bind
      rintro _ _ rfl
      rwa [Acct.dupFile_dropFile (hfresh wf)]
    apply (safe_fdalloc (x := (x.dupFile rf).dupFile wf) h.live rf).bind
    intro fd0 y hy
    cases fd0 with
    | none =>
      subst hy
      exact hclose _ h.toBalanced
    | some fd0 =>
      obtain ⟨rfl, hfd0⟩ := hy
      apply (safe_fdalloc (x := ((x.dupFile rf).dupFile wf).setFd fd0 (some rf)) h.live wf).bind
      intro fd1 y hy
      cases fd1 with
      | none =>
        subst hy
        apply (safe_setFd (x := ((x.dupFile rf).dupFile wf).setFd fd0 (some rf)) h.live fd0
          none).bind
        rintro _ _ rfl
        have hback : (((x.dupFile rf).dupFile wf).setFd fd0 (some rf)).setFd fd0 none =
            (x.dupFile rf).dupFile wf := by
          simp [Acct.setFd, ← hfd0]
        rw [hback]
        exact hclose _ h.toBalanced
      | some fd1 =>
        obtain ⟨rfl, hfd1⟩ := hy
        exact (h.toBalanced.getFd (f := rf) hfd0).getFd hfd1

/-! ## Calls with a path -/

theorem safe_cwd {g : Entry → SysM α} {Q : α → Acct → Prop} (hcwd : x.cwdRef = x.cwd)
    (hg : ∀ e, (sysRules T).Safe p Q (g e) (x.useCwd e)) :
    (sysRules T).Safe p Q ((getCwd p).bind g) x := by
  apply (safe_useCwd hcwd).bind
  rintro e _ ⟨_, rfl⟩
  exact hg e

theorem safe_sysLink (h : x.Ready) (old new : Option Path) :
    (sysRules T).Safe p (fun _ y => y.Balanced) (sysLink a p old new) x := by
  cases old with
  | none => exact h.toBalanced
  | some old =>
    cases new with
    | none => exact h.toBalanced
    | some new =>
      apply safe_cwd h.cwdRef
      intro e
      apply (calm_fs (calm_link (h.useCwd e).trans h.unlocked (x.has_useCwd e) old new)).mono
      rintro _ _ rfl
      exact (h.useCwd e).toBalanced

theorem safe_sysUnlink (h : x.Ready) (path : Option Path) :
    (sysRules T).Safe p (fun _ y => y.Balanced) (sysUnlink a p path) x := by
  cases path with
  | none => exact h.toBalanced
  | some path =>
    apply safe_cwd h.cwdRef
    intro e
    apply (calm_fs (calm_unlink (h.useCwd e).trans h.unlocked (x.has_useCwd e) path)).mono
    rintro _ _ rfl
    exact (h.useCwd e).toBalanced

theorem safe_sysExec (h : x.Ready) (path : Option Path) (parts : List (Nat × Nat)) :
    (sysRules T).Safe p (fun _ y => y.Balanced) (sysExec a p path parts) x := by
  cases path with
  | none => exact h.toBalanced
  | some path =>
    apply safe_cwd h.cwdRef
    intro e
    apply (calm_fs (calm_execFile (h.useCwd e).unlocked (x.has_useCwd e) path parts)).mono
    rintro _ _ rfl
    exact (h.useCwd e).toBalanced

theorem safe_openInode (h : x.Ready) (path : Path) (omode : Nat) :
    (sysRules T).Safe p (fun r y => ∃ z, z.Ready ∧ match r with
      | none => y = z
      | some ip => y = z.setFs ((z.fs.take ip).setLock ip true)) (openInode a p path omode) x := by
  apply safe_cwd h.cwdRef
  intro e
  have hz := h.useCwd e
  have hlock : ∀ ip, (x.useCwd e).fs.lock ip = false := congrFun hz.lock
  show (sysRules T).Safe p _ (ite _ _ _) _
  split_ifs
  · apply safe_begin hz.trans hz.unlocked
    apply (safe_fs (safe_create (x := (x.useCwd e).fs.setTrans true) rfl hz.unlocked.setTrans
      (x.has_useCwd e) path T_FILE 0 0)).bind
    rintro r _ ⟨w, rfl, hw⟩
    cases r with
    | none =>
      obtain rfl : w = (x.useCwd e).fs.setTrans true := hw
      exact safe_commit (x := x.useCwd e) hz.trans ⟨_, hz, rfl⟩
    | some ip =>
      obtain ⟨rfl, _⟩ := hw
      exact safe_commit (x := (x.useCwd e).setFs (((x.useCwd e).fs.take ip).setLock ip true))
        hz.trans ⟨_, hz, rfl⟩
  · apply (safe_fs (safe_namei hz.unlocked (x.has_useCwd e) path)).bind
    rintro r _ ⟨w, rfl, hw⟩
    cases r with
    | none =>
      subst hw
      exact ⟨_, hz, rfl⟩
    | some ip =>
      obtain ⟨rfl, _⟩ := hw
      apply safe_lock (x := (x.useCwd e).setFs ((x.useCwd e).fs.take ip)) hz.unlocked.take
        FsAcct.has_take
      intro _
      apply (calm_fs (calm_get _)).bind
      rintro type _ rfl
      show (sysRules T).Safe p _ (ite _ _ _) _
      split_ifs
      · exact safe_unlockput (hlock ip) ⟨_, hz, rfl⟩
      · exact ⟨_, hz, rfl⟩

theorem safe_sysOpen (h : x.Ready) (path : Option Path) (omode : Nat) :
    (sysRules T).Safe p (fun _ y => y.Balanced) (sysOpen a p path omode) x := by
  cases path with
  | none => exact h.toBalanced
  | some path =>
    apply (safe_openInode h path omode).bind
    rintro r y ⟨z, hz, hy⟩
    cases r with
    | none =>
      subst hy
      exact hz.toBalanced
    | some ip =>
      subst hy
      have hlock : z.fs.lock ip = false := congrFun hz.lock ip
      apply safe_filealloc.bind
      intro f y hy
      cases f with
      | none =>
        subst hy
        exact safe_unlockput hlock hz.toBalanced
      | some f =>
        obtain ⟨rfl, hzero⟩ := hy
        have hfresh : z.fresh f = false := congrFun hz.fresh f
        apply (safe_fdalloc
          (x := (z.setFs ((z.fs.take ip).setLock ip true)).addFile f) hz.live f).bind
        intro fd y hy
        cases fd with
        | none =>
          subst hy
          apply (safe_fileclose (x := (z.setFs ((z.fs.take ip).setLock ip true)).addFile f)
            (by simp [Acct.addFile]) hz.work hz.file hz.trans
            (by simp [Acct.addFile])).bind
          rintro _ _ rfl
          rw [Acct.addFile_dropFile (x := z.setFs ((z.fs.take ip).setLock ip true)) hfresh]
          exact safe_unlockput hlock hz.toBalanced
        | some fd =>
          obtain ⟨rfl, hfd⟩ := hy
          apply safe_unlock (x := ((z.setFs (z.fs.take ip)).addFile f).setFd fd (some f))
            hlock
          apply (safe_initFile
            (x := ((z.setFs (z.fs.take ip)).addFile f).setFd fd (some f)) (f := f)
            (g := fun ff =>
              { ff with
                type := .FD_INODE
                ip := ip
                opened := true
                off := 0
                readable := omode &&& O_WRONLY = 0
                writable := omode &&& O_WRONLY ≠ 0 || omode &&& O_RDWR ≠ 0 })
            (by simp [Acct.setFd, Acct.addFile]) hz.file
            (by simp [Acct.setFd, Acct.addFile, Acct.setFs]) hlock
            fun _ => ⟨rfl, rfl, rfl⟩).bind
          rintro _ _ rfl
          have hend : (((z.setFs (z.fs.take ip)).addFile f).setFd fd (some f)).initFile f ip =
              z.getFd fd f := by
            simp [Acct.setFd, Acct.addFile, Acct.setFs, Acct.initFile, Acct.getFd, ← hfresh]
          rw [hend]
          exact hz.toBalanced.getFd hfd

theorem safe_sysMake (h : x.Ready) (path : Option Path) (type major minor : Nat) :
    (sysRules T).Safe p (fun _ y => y.Balanced) (sysMake a p path type major minor) x := by
  apply safe_begin h.trans h.unlocked
  cases path with
  | none => exact safe_commit h.trans h.toBalanced
  | some path =>
    apply safe_cwd (x := x.setFs (x.fs.setTrans true)) h.cwdRef
    intro e
    have hz := h.useCwd e
    apply (safe_fs (safe_create (x := (x.useCwd e).fs.setTrans true) rfl hz.unlocked.setTrans
      (x.has_useCwd e) path type major minor)).bind
    rintro r _ ⟨w, rfl, hw⟩
    cases r with
    | none =>
      obtain rfl : w = (x.useCwd e).fs.setTrans true := hw
      exact safe_commit (x := x.useCwd e) hz.trans hz.toBalanced
    | some ip =>
      obtain ⟨rfl, hfree⟩ := hw
      apply safe_unlockput (x := (x.useCwd e).setFs ((x.useCwd e).fs.setTrans true)) hfree
      exact safe_commit (x := x.useCwd e) hz.trans hz.toBalanced

theorem safe_sysChdir (h : x.Ready) (path : Option Path) :
    (sysRules T).Safe p (fun _ y => y.Balanced) (sysChdir a p path) x := by
  cases path with
  | none => exact h.toBalanced
  | some path =>
    apply safe_cwd h.cwdRef
    intro e
    have hz := h.useCwd e
    have hlock : ∀ ip, (x.useCwd e).fs.lock ip = false := congrFun hz.lock
    apply (safe_fs (safe_namei hz.unlocked (x.has_useCwd e) path)).bind
    rintro r _ ⟨w, rfl, hw⟩
    cases r with
    | none =>
      subst hw
      exact hz.toBalanced
    | some ip =>
      obtain ⟨rfl, _⟩ := hw
      apply safe_lock (x := (x.useCwd e).setFs ((x.useCwd e).fs.take ip)) hz.unlocked.take
        FsAcct.has_take
      intro hfree
      apply (calm_fs (calm_get _)).bind
      rintro type _ rfl
      show (sysRules T).Safe p _ (ite _ _ _) _
      split_ifs
      · exact safe_unlockput (hlock ip) hz.toBalanced
      · apply safe_unlock (x := (x.useCwd e).setFs ((x.useCwd e).fs.take ip)) hfree
        -- The old directory is dropped, and the new one keeps the reference in hand.
        apply (safe_takeCwd (x := (x.useCwd e).setFs ((x.useCwd e).fs.take ip)) hz.cwdRef
          hz.lock).bind
        rintro d _ ⟨_, rfl⟩
        apply (safe_fs (safe_iput_take (x := ((x.useCwd e).fs.take ip).unstake) (e := d)
          (fun hlocked => absurd hlocked (by simp [FsAcct.unstake, hlock])))).bind
        rintro _ _ ⟨w, rfl, rfl⟩
        apply (safe_setCwd (x := (((x.useCwd e).setFs ((x.useCwd e).fs.take ip)).takeCwd d).setFs
          ((x.useCwd e).fs.take ip).unstake) hz.live rfl
          (by simp [FsAcct.unstake]) hz.lock rfl).bind
        rintro _ _ rfl
        refine ⟨hz.hold, hz.fresh, hz.work, hz.child, rfl, ?_, hz.lock, hz.trans⟩
        show ((((x.useCwd e).fs.take ip).unstake).drop ip).hand = fun _ => 0
        have hdrop : (((x.useCwd e).fs.take ip).unstake).drop ip =
            (((x.useCwd e).fs.unstake).take ip).drop ip := rfl
        rw [hdrop, FsAcct.take_drop]
        exact hz.hand

/-! ## Processes -/

/-- The parent in the middle of `fork`, with the descriptors in `rest` still to be copied. -/
def Forking (x : Acct) (q : Slot) (rest : List Fd) (y : Acct) : Prop :=
  rest.Nodup ∧ ∃ fds, y = { x with child := some ⟨q, fds, none⟩ } ∧ ∀ fd ∈ rest, fds fd = none

theorem safe_forkFd (h : x.Ready) {q : Slot} {fd : Fd} {rest : List Fd}
    (hy : Forking x q (fd :: rest) y) :
    (sysRules T).Safe p (fun _ => Forking x q rest) (forkFd p q fd) y := by
  obtain ⟨hnodup, fds, rfl, hnone⟩ := hy
  obtain ⟨hfd, hrest⟩ := List.nodup_cons.1 hnodup
  have hdone : Forking x q rest { x with child := some ⟨q, fds, none⟩ } :=
    ⟨hrest, fds, rfl, fun fd' hmem => hnone fd' (List.mem_cons_of_mem fd hmem)⟩
  apply (safe_lookFd fd).bind
  rintro r _ ⟨rfl, hr⟩
  cases r with
  | none => exact hdone
  | some f =>
    have hheld : 0 < x.hold f := h.toBalanced.hold_pos hr.symm
    have hfresh : x.fresh f = false := congrFun h.fresh f
    apply (safe_filedup (x := { x with child := some ⟨q, fds, none⟩ }) hheld hfresh).bind
    rintro _ _ rfl
    apply (safe_giveFd (c := ⟨q, fds, none⟩)
      (x := ({ x with child := some ⟨q, fds, none⟩ } : Acct).dupFile f) rfl
      (hnone fd List.mem_cons_self) (by simp [Acct.dupFile]) hfresh h.file).mono
    rintro _ _ rfl
    refine ⟨hrest, Function.update fds fd (some f), ?_, fun fd' hmem => ?_⟩
    · simp [Acct.giveFd, Acct.dupFile]
    · have hne : fd' ≠ fd := fun heq => hfd (heq ▸ hmem)
      rw [Function.update_of_ne hne]
      exact hnone fd' (List.mem_cons_of_mem fd hmem)

theorem safe_sysFork (h : x.Ready) (mem : Bool) :
    (sysRules T).Safe p (fun _ y => y.Balanced) (sysFork p mem) x := by
  have hback : ∀ y : Acct, y = { x with child := none } → y = x := by
    rintro y rfl
    rw [← h.child]
  apply (safe_allocproc h.child).bind
  intro r y hy
  cases r with
  | none =>
    subst hy
    exact h.toBalanced
  | some q =>
    subst hy
    show (sysRules T).Safe p _ (ite _ _ _) _
    split_ifs
    · apply Rules.Safe.bind (m := Prog.forList _ _) (Q := fun _ => Forking x q [])
      · refine Rules.safe_forList (I := Forking x q) ?_ fun fd rest y _ hy => safe_forkFd h hy
        exact ⟨List.nodup_finRange _, fun _ => none, rfl, fun _ _ => rfl⟩
      · rintro _ _ ⟨_, fds, rfl, _⟩
        apply safe_cwd (x := { x with child := some ⟨q, fds, none⟩ }) h.cwdRef
        intro e
        apply (safe_fs (safe_idup (Acct.has_useCwd _ e))).bind
        rintro e' _ ⟨w, rfl, rfl, rfl⟩
        apply (safe_giveCwd (c := ⟨q, fds, none⟩)
          (x := (Acct.useCwd { x with child := some ⟨q, fds, none⟩ } e').setFs
            (((x.useCwd e').fs).take e')) rfl rfl (by simp) h.lock).bind
        rintro _ _ rfl
        apply (safe_setChild (c := ⟨q, fds, some e'⟩) rfl (.inl rfl)).bind
        rintro _ _ rfl
        have hend : ({ (Acct.giveCwd ((Acct.useCwd { x with child := some ⟨q, fds, none⟩ } e').setFs
            (((x.useCwd e').fs).take e')) ⟨q, fds, none⟩ e') with child := none } : Acct) =
            x.useCwd e' := by
          simp [Acct.giveCwd, Acct.useCwd, Acct.setFs, h.child]
        rw [hend]
        exact (h.useCwd e').toBalanced
    · apply (safe_setChild (c := ⟨q, fun _ => none, none⟩) rfl (.inr ⟨rfl, rfl, rfl⟩)).bind
      rintro _ _ rfl
      rw [hback _ rfl]
      exact h.toBalanced

/-- A process in the middle of `exit`, with the descriptors in `rest` still to be closed. -/
def Exiting (rest : List Fd) (x : Acct) : Prop :=
  x.Ready ∧ ∀ fd, fd ∉ rest → x.fds fd = none

theorem safe_exitFd {fd : Fd} {rest : List Fd} (h : Exiting (fd :: rest) x) :
    (sysRules T).Safe p (fun _ => Exiting rest) (exitFd a p fd) x := by
  obtain ⟨hx, hnone⟩ := h
  have hrest : ∀ fd', fd' ≠ fd → fd' ∉ rest → x.fds fd' = none := fun fd' hne hmem =>
    hnone fd' (List.not_mem_cons_of_ne_of_not_mem hne hmem)
  apply (safe_lookFd fd).bind
  rintro r x ⟨rfl, hr⟩
  cases r with
  | none =>
    refine ⟨hx, fun fd' hmem => ?_⟩
    by_cases hne : fd' = fd
    · rw [hne, ← hr]
    · exact hrest fd' hne hmem
  | some f =>
    apply (safe_fileclose (hx.toBalanced.hold_pos hr.symm) hx.work hx.file hx.trans
      fun _ => hx.unlocked).bind
    rintro _ _ rfl
    apply (safe_setFd (x := x.dropFile f) hx.live fd none).mono
    rintro _ _ rfl
    refine ⟨⟨hx.toBalanced.closeFd hr.symm, hx.live, hx.file⟩, fun fd' hmem => ?_⟩
    show Function.update x.fds fd none fd' = none
    by_cases hne : fd' = fd
    · rw [hne, Function.update_self]
    · rw [Function.update_of_ne hne]
      exact hrest fd' hne hmem

theorem safe_sysExit (h : x.Ready) :
    (sysRules T).Safe p (fun _ y => y.Balanced) (sysExit a p) x := by
  have hfirst : (sysRules T).Safe p (fun _ y => y = x)
      (Prog.when (p = initproc) (halt "init exiting")) x := by
    by_cases hp : p = initproc
    · simp only [Prog.when, hp, if_true]
      exact safe_halt
    · simp only [Prog.when, hp, if_false]
      exact rfl
  apply hfirst.bind
  rintro _ _ rfl
  apply Rules.Safe.bind (m := Prog.forList _ _) (Q := fun _ => Exiting [])
  · exact Rules.safe_forList ⟨h, fun fd hfd => absurd (List.mem_finRange fd) hfd⟩
      fun fd rest y _ hy => safe_exitFd hy
  · rintro _ y ⟨hy, hnone⟩
    have hfds : y.fds = fun _ => none := funext fun fd => hnone fd List.not_mem_nil
    apply safe_begin hy.trans hy.unlocked
    apply (safe_takeCwd (x := y.setFs (y.fs.setTrans true)) hy.cwdRef hy.lock).bind
    rintro e _ ⟨_, rfl⟩
    apply (safe_fs (safe_iput_take (x := (y.fs.setTrans true).unstake) (e := e)
      (fun hlocked => absurd hlocked (by simp [FsAcct.unstake, hy.lock])))).bind
    rintro _ _ ⟨w, rfl, rfl⟩
    apply safe_commit (x := (y.takeCwd e).setFs y.fs.unstake) hy.trans
    apply (safe_clearCwd (x := (y.takeCwd e).setFs y.fs.unstake) hy.live).bind
    rintro _ _ rfl
    apply (safe_zombie
      (x := { (y.takeCwd e).setFs y.fs.unstake with cwd := none }) hy.live hfds rfl hy.child).bind
    rintro _ _ rfl
    exact ⟨hy.hold, hy.fresh, hy.work, hy.child, rfl, hy.hand, hy.lock, hy.trans⟩

theorem safe_code (h : x.Ready) (c : Call) :
    (sysRules T).Safe p (fun _ y => y.Balanced) (code a p c) x := by
  cases c with
  | «open» path omode => exact safe_sysOpen h path omode
  | mkdir path => exact safe_sysMake h path _ _ _
  | mknod path major minor => exact safe_sysMake h path _ _ _
  | link old new => exact safe_sysLink h old new
  | unlink path => exact safe_sysUnlink h path
  | chdir path => exact safe_sysChdir h path
  | exec path parts => exact safe_sysExec h path parts
  | read fd n => exact (safe_sysRead h fd n).bind fun _ _ hy => hy
  | write fd src n => exact safe_sysWrite h fd src n
  | lseek fd offset base m => exact safe_sysLseek h fd offset base m
  | fstat fd => exact safe_sysFstat h fd
  | close fd => exact safe_sysClose h fd
  | dup fd => exact safe_sysDup h fd
  | pipe => exact safe_sysPipe h
  | fork mem => exact safe_sysFork h mem
  | exit => exact safe_sysExit h

end Xv6.Files
