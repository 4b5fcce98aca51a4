import Xv6.Files.Moves

/-!
# Descriptors, working directories, `fork` and `exit`

What the actions on the tables of a process do to the accounts.  `fork` fills the tables of
the new process, whose account stays balanced: each reference passes from the parent to the
child together with the entry that stands for it.
-/

namespace Xv6.Files

open Xv6.Lib Xv6.Fs Xv6.Sched

variable {s t : Sys} {acc : Slot → Acct} {p : Slot} {x y : Acct} {T : Terms} {α : Type}
  {Q : α → Acct → Prop}

/-! ## Descriptors -/

namespace Acct

def setFd (x : Acct) (fd : Fd) (d : Option FileId) : Acct :=
  { x with fds := Function.update x.fds fd d }

def useFile (x : Acct) (f : FileId) (e : Entry) : Acct :=
  { x with
    file := some f
    fs := { x.fs with stake := Function.update x.fs.stake e true } }

def initFile (x : Acct) (f : FileId) (ip : Entry) : Acct :=
  { x with
    fresh := Function.update x.fresh f false
    fs := x.fs.drop ip }

def initPipe (x : Acct) (rf wf : FileId) : Acct :=
  { x with
    fresh := Function.update (Function.update x.fresh rf false) wf false
    work := .idle }

def useCwd (x : Acct) (e : Entry) : Acct :=
  { x with fs := { x.fs with stake := Function.update x.fs.stake e true } }

def takeCwd (x : Acct) (e : Entry) : Acct :=
  { x with
    cwdRef := none
    fs := x.fs.unstake.take e }

def setCwd (x : Acct) (e : Entry) : Acct :=
  { x with
    cwd := some e
    cwdRef := some e
    fs := x.fs.drop e }

end Acct

structure SameFiles (s t : Sys) : Prop where
  fs : t.fs = s.fs
  file : t.file = s.file
  pipe : t.pipe = s.pipe
  free : t.free = s.free
  allocs : t.allocs = s.allocs
  frees : t.frees = s.frees

theorem SameFiles.refl (s : Sys) : SameFiles s s := ⟨rfl, rfl, rfl, rfl, rfl, rfl⟩

theorem Ok.keepFiles (h : Ok s acc) (hsame : SameFiles s t)
    (htables : Tables t (Function.update acc p y)) (hhold : y.hold = (acc p).hold)
    (hfresh : y.fresh = (acc p).fresh) (hwork : y.work = (acc p).work)
    (hcount : ∀ e, kept s.file (Function.update (fun q => (acc q).cwdRef) p y.cwdRef) e +
      y.fs.hand e = kept s.file (fun q => (acc q).cwdRef) e + (acc p).fs.hand e)
    (hlock : y.fs.lock = (acc p).fs.lock) (htrans : y.fs.trans = (acc p).fs.trans)
    (hhas : ∀ e, y.fs.lock e = true → y.fs.Has e) (hstaked : Staked s.file y) :
    Ok t (Function.update acc p y) := by
  apply h.own hsame.fs htables
  case hfiles =>
    rw [hhold, hfresh, Function.update_eq_self, Function.update_eq_self, hsame.file]
    exact h.files
  case hpipes =>
    rw [hwork, Function.update_eq_self]
    refine h.pipes.same (fun page w => ?_) (fun _ => rfl) hsame.pipe hsame.free hsame.allocs
      hsame.frees
    rw [hsame.file]
  case hcount =>
    rw [hsame.file]
    exact hcount
  case hlock => exact hlock
  case htrans => exact htrans
  case hhas => exact hhas
  case hstaked =>
    rw [hsame.file]
    exact hstaked
  case hothers =>
    rw [hsame.file]
    exact fun q _ => h.staked q

theorem Ok.setTables (h : Ok s acc) (hsame : SameFiles s t)
    (htables : Tables t (Function.update acc p y)) (hhold : y.hold = (acc p).hold)
    (hfresh : y.fresh = (acc p).fresh) (hwork : y.work = (acc p).work)
    (hcwdRef : y.cwdRef = (acc p).cwdRef) (hfs : y.fs = (acc p).fs)
    (hfile : y.file = (acc p).file) : Ok t (Function.update acc p y) := by
  apply h.keepFiles hsame htables hhold hfresh hwork
  case hcount =>
    intro e
    rw [hcwdRef, Function.update_eq_self, hfs]
  case hlock => rw [hfs]
  case htrans => rw [hfs]
  case hhas =>
    rw [hfs]
    exact h.inodes.lockRef p
  case hstaked =>
    refine (h.staked p).keep (fun e he => ?_) hcwdRef hfile (fun f _ hheld => ?_)
      fun _ _ htype => ⟨htype, rfl⟩
    · rwa [hfs] at he
    · rwa [hhold]

theorem Tables.setFd (h : Tables s acc) (hrun : (acc p).running = true)
    (hlive : (acc p).exited = false) (fd : Fd) (d : Option FileId) :
    Tables (s.setFd p fd d) (Function.update acc p ((acc p).setFd fd d)) := by
  apply Tables.own (t := s.setFd p fd d) h rfl
  case hofile =>
    show Function.update s.ofile p (Function.update (s.ofile p) fd d) = _
    rw [h.ofile p]
    rfl
  case hcwd =>
    show s.cwd = Function.update s.cwd p (acc p).cwd
    rw [← h.cwd p, Function.update_eq_self]
  case hrun => exact hrun
  case hrun' => exact hrun
  case hexited => rfl
  case hdead => simp [hlive]
  case hchild => rfl

theorem safe_setFd (hlive : x.exited = false) (fd : Fd) (d : Option FileId) :
    (sysRules T).Safe p (fun _ y => y = x.setFd fd d)
      (change fun s => s.setFd p fd d) x := by
  apply safe_own
  rintro s acc hok rfl hrun r t hf
  obtain rfl : _ = t := by simpa using hf
  exact ⟨(acc p).setFd fd d, hok.setTables ⟨rfl, rfl, rfl, rfl, rfl, rfl⟩
    (hok.tables.setFd hrun hlive fd d) rfl rfl rfl rfl rfl rfl, hrun, rfl⟩

theorem safe_fdalloc (hlive : x.exited = false) (f : FileId) :
    (sysRules T).Safe p (fun r y => match r with
      | none => y = x
      | some fd => y = x.setFd fd (some f) ∧ x.fds fd = none) (fdalloc p f) x := by
  apply safe_own
  rintro s acc hok rfl hrun r t hf
  split at hf
  · rename_i fd hfind
    obtain ⟨rfl, rfl⟩ : some fd = r ∧ _ = t := by simpa using hf
    have hnone : s.ofile p fd = none := by simpa using List.find?_some hfind
    rw [hok.tables.ofile p] at hnone
    exact ⟨(acc p).setFd fd (some f), hok.setTables ⟨rfl, rfl, rfl, rfl, rfl, rfl⟩
      (hok.tables.setFd hrun hlive fd (some f)) rfl rfl rfl rfl rfl rfl, hrun, rfl, hnone⟩
  · obtain ⟨rfl, rfl⟩ : none = r ∧ s = t := by simpa using hf
    refine ⟨acc p, ?_, hrun, rfl⟩
    rwa [Function.update_eq_self]

theorem safe_argfd (fd : Int) :
    (sysRules T).Safe p (fun r y => y = x ∧ ∀ i f, r = some (i, f) → x.fds i = some f)
      (argfd p fd) x := by
  apply safe_look
  rintro s acc hok rfl
  refine ⟨rfl, fun i f hr => ?_⟩
  split_ifs at hr with hfd
  simp only [Option.map_eq_some_iff, Prod.mk.injEq] at hr
  obtain ⟨g, hg, rfl, rfl⟩ := hr
  rwa [hok.tables.ofile p] at hg

theorem safe_lookFd (fd : Fd) :
    (sysRules T).Safe p (fun r y => y = x ∧ r = x.fds fd) (look fun s => s.ofile p fd) x := by
  apply safe_look
  rintro s acc hok rfl
  exact ⟨rfl, by rw [hok.tables.ofile p]⟩

/-! ## Files in use -/

theorem Ok.use {f : Option FileId} {e : Entry} (h : Ok s acc) (hrun : (acc p).running = true)
    (hstaked : Staked s.file { acc p with
      file := f
      fs := { (acc p).fs with stake := Function.update (acc p).fs.stake e true } }) :
    Ok s (Function.update acc p { acc p with
      file := f
      fs := { (acc p).fs with stake := Function.update (acc p).fs.stake e true } }) := by
  apply h.keepFiles (.refl s)
  case htables => exact h.tables.same rfl rfl rfl hrun hrun rfl rfl rfl rfl
  case hhold => rfl
  case hfresh => rfl
  case hwork => rfl
  case hcount =>
    intro e
    show kept s.file (Function.update (fun q => (acc q).cwdRef) p (acc p).cwdRef) e + _ = _
    rw [Function.update_eq_self]
  case hlock => rfl
  case htrans => rfl
  case hhas =>
    intro e' he'
    refine (h.inodes.lockRef p e' he').imp id fun hstake => ?_
    by_cases hee : e' = e
    · rw [hee]
      exact Function.update_self ..
    · exact (Function.update_of_ne hee ..).trans hstake
  case hstaked => exact hstaked

theorem safe_useFile {f : FileId} (hheld : 0 < x.hold f)
    (hfile : x.file = none ∨ x.file = some f) :
    (sysRules T).Safe p
      (fun ff y => if ff.type = .FD_INODE then y = x.useFile f ff.ip else y = x)
      (look fun s => s.file f) x := by
  apply safe_own
  rintro s acc hok rfl hrun ff t hf
  obtain ⟨rfl, rfl⟩ : s.file f = ff ∧ s = t := by simpa using hf
  by_cases htype : (s.file f).type = .FD_INODE
  · refine ⟨(acc p).useFile f (s.file f).ip, hok.use hrun ?_, hrun, by rw [if_pos htype]⟩
    intro e he
    by_cases hee : e = (s.file f).ip
    · exact .inr ⟨f, rfl, hheld, htype, hee.symm⟩
    · have hold : (acc p).fs.stake e = true := (Function.update_of_ne hee ..).symm.trans he
      rcases hok.staked p e hold with hcwd | ⟨g, hg, hrest⟩
      · exact .inl hcwd
      · rcases hfile with hnone | hsome
        · rw [hnone] at hg
          cases hg
        · rw [hsome] at hg
          obtain rfl := Option.some.inj hg
          exact .inr ⟨f, rfl, hrest⟩
  · refine ⟨acc p, ?_, hrun, by rw [if_neg htype]⟩
    rwa [Function.update_eq_self]

theorem safe_setOff {f : FileId} (hheld : 0 < x.hold f) (off : Sys → Nat) :
    (sysRules T).Safe p (fun _ y => y = x)
      (change fun s => s.setFile f { s.file f with off := off s }) x := by
  apply safe_own
  rintro s acc hok rfl hrun r t hf
  obtain rfl : _ = t := by simpa using hf
  refine ⟨_, hok.setRef (n := (acc p).hold f) (b := (acc p).fresh f) hrun (fun _ _ => Iff.rfl)
    (fun _ => Iff.rfl) ?_ (fun _ hpos => hpos), hrun, ?_⟩
  · apply hok.files.set
    case href => rfl
    case hclosed => exact hok.files.closed f
    case hfresh => exact hok.files.fresh p f
    case hothers => exact hok.files.fresh_own hheld
  · rw [Function.update_eq_self, Function.update_eq_self]

theorem safe_initFile {f : FileId} {ip : Entry} {g : File → File} (hfresh : x.fresh f = true)
    (hfile : x.file = none) (hhand : 0 < x.fs.hand ip) (hlock : x.fs.lock ip = false)
    (hg : ∀ ff, (g ff).type = .FD_INODE ∧ (g ff).ip = ip ∧ (g ff).ref = ff.ref) :
    (sysRules T).Safe p (fun _ y => y = x.initFile f ip)
      (change fun s => s.setFile f (g (s.file f))) x := by
  apply safe_own
  rintro s acc hok rfl hrun r t hf
  obtain rfl : _ = t := by simpa using hf
  obtain ⟨hone, hheld, hnone⟩ := hok.files.fresh p f hfresh
  obtain ⟨htype, hip, href⟩ := hg (s.file f)
  have hheldOne : (acc p).hold f = (g (s.file f)).ref := by
    have hle := hok.files.hold_le_ref p f
    omega
  refine ⟨(acc p).initFile f ip, hok.setFile hrun hone hheld (by simp [hfile]) hrun rfl rfl rfl
    rfl rfl rfl ?_ rfl ?_ ?_ ?_ rfl rfl rfl ?_, hrun, rfl⟩
  · rw [← hheldOne, Function.update_eq_self]
    rfl
  · intro hzero
    omega
  · show Pipes _ (Function.update (fun q => (acc q).work) p (acc p).work)
    rw [Function.update_eq_self]
    exact hok.pipes.setFile (by simp [hnone]) (by simp [htype])
  · intro e
    by_cases he : e = ip
    · subst he
      simp only [htype, hip, hnone, Acct.initFile, FsAcct.drop, FsAcct.setHand,
        Function.update_self, and_self, if_true, reduceCtorEq, false_and, if_false]
      omega
    · simp [hnone, hip, Ne.symm he, Acct.initFile, FsAcct.drop, FsAcct.setHand, he]
  · intro e he
    have hlocked : (acc p).fs.lock e = true := he
    have hne : e ≠ ip := by
      rintro rfl
      rw [hlock] at hlocked
      cases hlocked
    exact (hok.inodes.lockRef p e hlocked).imp
      (fun hpos => by simpa [Acct.initFile, FsAcct.drop, FsAcct.setHand, hne] using hpos) id

theorem FileRefs.setup {file : FileId → File} {hold : Slot → FileId → Nat}
    {fresh : Slot → FileId → Bool} {f : FileId} (h : FileRefs file hold fresh) (ff : File)
    (hfresh : fresh p f = true) (href : ff.ref = (file f).ref) :
    FileRefs (Function.update file f ff) hold
      (Function.update fresh p (Function.update (fresh p) f false)) := by
  obtain ⟨hone, hheld, _⟩ := h.fresh p f hfresh
  have hset : FileRefs (Function.update file f ff)
      (Function.update hold p (Function.update (hold p) f (hold p f)))
      (Function.update fresh p (Function.update (fresh p) f false)) :=
    h.set (by rw [href]) (fun hzero => by omega) (by simp) (h.fresh_own hheld)
  rwa [Function.update_eq_self, Function.update_eq_self] at hset

theorem safe_pipeinit {rf wf : FileId} {page : Nat} (hrf : x.fresh rf = true)
    (hwf : x.fresh wf = true) (hne : wf ≠ rf) (hwork : x.work = .making page) :
    (sysRules T).Safe p (fun _ y => y = x.initPipe rf wf) (pipeinit rf wf page) x := by
  apply safe_own
  rintro s acc hok rfl hrun r t hf
  obtain rfl : _ = t := by simpa using hf
  obtain ⟨_, hheldr, hnoner⟩ := hok.files.fresh p rf hrf
  obtain ⟨_, hheldw, hnonew⟩ := hok.files.fresh p wf hwf
  refine ⟨(acc p).initPipe rf wf, ?_, hrun, rfl⟩
  simp only [Sys.setFile, Function.update_of_ne hne]
  generalize hr : ({ s.file rf with
    type := .FD_PIPE, readable := true, writable := false, pipe := page } : File) = r
  generalize hw : ({ s.file wf with
    type := .FD_PIPE, readable := false, writable := true, pipe := page } : File) = w
  -- Neither file was for an inode before, so the references to inodes are kept.
  have hkeep : ∀ g, (s.file g).type = .FD_INODE →
      Function.update (Function.update s.file rf r) wf w g = s.file g := by
    intro g hg
    have hgr : g ≠ rf := by
      rintro rfl
      rw [hnoner] at hg
      cases hg
    have hgw : g ≠ wf := by
      rintro rfl
      rw [hnonew] at hg
      cases hg
    rw [Function.update_of_ne hgw, Function.update_of_ne hgr]
  have hstaked : ∀ q, Staked (Function.update (Function.update s.file rf r) wf w) (acc q) := by
    intro q
    refine (hok.staked q).keep (fun _ he => he) rfl rfl (fun _ _ hheld => hheld) fun g _ htype => ?_
    rw [hkeep g htype]
    exact ⟨htype, rfl⟩
  apply hok.own
  case hfs => rfl
  case htables => exact hok.tables.same rfl rfl rfl hrun hrun rfl rfl rfl rfl
  case hfiles =>
    have hread := hok.files.setup (f := rf) (p := p) r hrf (by rw [← hr])
    have hwrite := hread.setup (f := wf) (p := p) w
      (by rw [Function.update_self, Function.update_of_ne hne, hwf])
      (by rw [Function.update_of_ne hne, ← hw])
    rw [Function.update_self, Function.update_idem] at hwrite
    show FileRefs _ (Function.update (fun q => (acc q).hold) p (acc p).hold) _
    rw [Function.update_eq_self]
    exact hwrite
  case hpipes =>
    refine hok.pipes.init hwork (by simp [hnoner]) (by simp [hnonew]) hne ?_ ?_
    · intro page' w'
      simp [← hr, File.IsEnd]
    · intro page' w'
      simp [← hw, File.IsEnd]
  case hcount =>
    intro e
    have hsum := kept_file s.file rf r (fun q => (acc q).cwdRef) e
    have hsum' := kept_file (Function.update s.file rf r) wf w (fun q => (acc q).cwdRef) e
    rw [Function.update_of_ne hne] at hsum'
    have hrtype : r.type = .FD_PIPE := by rw [← hr]
    have hwtype : w.type = .FD_PIPE := by rw [← hw]
    simp only [hrtype, hwtype, hnoner, hnonew, reduceCtorEq, false_and, if_false] at hsum hsum'
    show kept (Function.update (Function.update s.file rf r) wf w)
      (Function.update (fun q => (acc q).cwdRef) p (acc p).cwdRef) e + (acc p).fs.hand e = _
    rw [Function.update_eq_self]
    omega
  case hlock => rfl
  case htrans => rfl
  case hhas => exact hok.inodes.lockRef p
  case hstaked => exact hstaked p
  case hothers => exact fun q _ => hstaked q

/-! ## Working directories -/

theorem safe_useCwd (hcwd : x.cwdRef = x.cwd) :
    (sysRules T).Safe p (fun e y => x.cwd = some e ∧ y = x.useCwd e) (getCwd p) x := by
  apply safe_own
  rintro s acc hok rfl hrun e t hf
  split at hf
  · rename_i e' he
    obtain ⟨rfl, rfl⟩ : e' = e ∧ s = t := by simpa using hf
    rw [hok.tables.cwd p] at he
    refine ⟨(acc p).useCwd e', hok.use hrun ?_, hrun, he, rfl⟩
    intro e hstake
    by_cases hee : e = e'
    · rw [hee]
      exact .inl (hcwd.trans he)
    · exact hok.staked p e ((Function.update_of_ne hee ..).symm.trans hstake)
  · cases hf

theorem safe_takeCwd (hcwd : x.cwdRef = x.cwd) (hlock : x.fs.lock = fun _ => false) :
    (sysRules T).Safe p (fun e y => x.cwd = some e ∧ y = x.takeCwd e) (getCwd p) x := by
  apply safe_own
  rintro s acc hok rfl hrun e t hf
  split at hf
  · rename_i e' he
    obtain ⟨rfl, rfl⟩ : e' = e ∧ s = t := by simpa using hf
    rw [hok.tables.cwd p] at he
    refine ⟨(acc p).takeCwd e', ?_, hrun, he, rfl⟩
    apply hok.keepFiles (.refl s)
    case htables => exact hok.tables.same rfl rfl rfl hrun hrun rfl rfl rfl rfl
    case hhold => rfl
    case hfresh => rfl
    case hwork => rfl
    case hcount =>
      intro e
      have hsum := kept_cwdRef s.file p (fun q => (acc q).cwdRef) e none
      simp only [hcwd, he, Option.some.injEq, reduceCtorEq, if_false] at hsum
      show kept s.file (Function.update (fun q => (acc q).cwdRef) p none) e +
        ((acc p).fs.unstake.take e').hand e = _
      by_cases hee : e = e'
      · subst hee
        rw [FsAcct.hand_take, FsAcct.hand_unstake]
        simp only [if_true] at hsum
        omega
      · rw [FsAcct.hand_take_of_ne hee, FsAcct.hand_unstake]
        simp only [Ne.symm hee, if_false] at hsum
        omega
    case hlock => rfl
    case htrans => rfl
    case hhas =>
      intro e hlocked
      have hfree : (acc p).fs.lock e = true := hlocked
      rw [hlock] at hfree
      cases hfree
    case hstaked =>
      intro e hstake
      cases hstake
  · cases hf

theorem safe_setCwd {ip : Entry} (hlive : x.exited = false) (hcwdRef : x.cwdRef = none)
    (hhand : 0 < x.fs.hand ip) (hlock : x.fs.lock = fun _ => false)
    (hstake : x.fs.stake = fun _ => false) :
    (sysRules T).Safe p (fun _ y => y = x.setCwd ip)
      (change fun s => { s with cwd := Function.update s.cwd p (some ip) }) x := by
  apply safe_own
  rintro s acc hok rfl hrun r t hf
  obtain rfl : _ = t := by simpa using hf
  refine ⟨(acc p).setCwd ip, ?_, hrun, rfl⟩
  apply hok.keepFiles
  case hsame => exact ⟨rfl, rfl, rfl, rfl, rfl, rfl⟩
  case htables =>
    apply hok.tables.own
    case hofile =>
      show s.ofile = Function.update s.ofile p (acc p).fds
      rw [← hok.tables.ofile p, Function.update_eq_self]
    case hdead => simp [hlive]
    case hrun => exact hrun
    case hrun' => exact hrun
    all_goals rfl
  case hcount =>
    intro e
    have hsum := kept_cwdRef s.file p (fun q => (acc q).cwdRef) e (some ip)
    simp only [hcwdRef, Option.some.injEq, reduceCtorEq, if_false] at hsum
    show kept s.file (Function.update (fun q => (acc q).cwdRef) p (some ip)) e +
      ((acc p).fs.drop ip).hand e = _
    by_cases hee : e = ip
    · subst hee
      simp only [if_true] at hsum
      simp only [FsAcct.drop, FsAcct.setHand, Function.update_self]
      omega
    · simp only [Ne.symm hee, if_false] at hsum
      simp only [FsAcct.drop, FsAcct.setHand, Function.update_of_ne hee]
      omega
  case hhas =>
    intro e hlocked
    have hfree : (acc p).fs.lock e = true := hlocked
    rw [hlock] at hfree
    cases hfree
  case hstaked =>
    intro e hstaked
    have hnone : (acc p).fs.stake e = true := hstaked
    rw [hstake] at hnone
    cases hnone
  all_goals rfl

/-! ## `exit` -/

theorem safe_clearCwd (hlive : x.exited = false) :
    (sysRules T).Safe p (fun _ y => y = { x with cwd := none })
      (change fun s => { s with cwd := Function.update s.cwd p none }) x := by
  apply safe_own
  rintro s acc hok rfl hrun r t hf
  obtain rfl : _ = t := by simpa using hf
  refine ⟨{ acc p with cwd := none }, ?_, hrun, rfl⟩
  apply hok.setTables
  case hsame => exact ⟨rfl, rfl, rfl, rfl, rfl, rfl⟩
  case htables =>
    apply hok.tables.own
    case hofile =>
      show s.ofile = Function.update s.ofile p (acc p).fds
      rw [← hok.tables.ofile p, Function.update_eq_self]
    case hdead => simp [hlive]
    case hrun => exact hrun
    case hrun' => exact hrun
    all_goals rfl
  all_goals rfl

theorem Tables.setLife {q : Slot} {l : Life} (h : Tables s acc)
    (hfds : y.fds = (acc p).fds) (hcwd : y.cwd = (acc p).cwd)
    (hlife : ∀ r, (Function.update acc p y r).running = true →
      Function.update s.life q l r =
        if (Function.update acc p y r).exited then .zombie else .live)
    (hdead : l = .unused ∨ l = .zombie → (acc q).fds = (fun _ => none) ∧ (acc q).cwd = none)
    (hchild : ∀ r c, (Function.update acc p y r).child = some c → c.slot ≠ q →
      (acc r).child = some c)
    (hnew : ∀ r c, (Function.update acc p y r).child = some c → c.slot = q →
      r = p ∧ l = .embryo ∧ (acc q).fds = c.fds ∧ (acc q).cwd = c.cwd)
    (hkeep : ∀ r c, (acc r).child = some c → c.slot ≠ q →
      (Function.update acc p y r).child = some c)
    (hembryo : l = .embryo → ∃ c, y.child = some c ∧ c.slot = q)
    (hrest : y.running = true) :
    Tables { s with life := Function.update s.life q l } (Function.update acc p y) := by
  have htables : ∀ r, (Function.update acc p y r).fds = (acc r).fds ∧
      (Function.update acc p y r).cwd = (acc r).cwd := by
    intro r
    by_cases hr : r = p
    · rw [hr, Function.update_self]
      exact ⟨hfds, hcwd⟩
    · rw [Function.update_of_ne hr]
      exact ⟨rfl, rfl⟩
  constructor
  case ofile =>
    intro r
    rw [(htables r).1]
    exact h.ofile r
  case cwd =>
    intro r
    rw [(htables r).2]
    exact h.cwd r
  case life => exact hlife
  case dead =>
    intro r hr
    rw [(htables r).1, (htables r).2]
    by_cases hrq : r = q
    · subst hrq
      simp only [Function.update_self] at hr
      exact hdead hr
    · simp only [Function.update_of_ne hrq] at hr
      exact h.dead r hr
  case child =>
    intro r c hc
    rw [(htables c.slot).1, (htables c.slot).2]
    by_cases hcq : c.slot = q
    · obtain ⟨_, rfl, hfds', hcwd'⟩ := hnew r c hc hcq
      rw [hcq]
      exact ⟨Function.update_self .., hfds', hcwd'⟩
    · obtain ⟨hembryo, hrest'⟩ := h.child r c (hchild r c hc hcq)
      exact ⟨(Function.update_of_ne hcq ..).trans hembryo, hrest'⟩
  case embryo =>
    intro r hr
    by_cases hrq : r = q
    · subst hrq
      simp only [Function.update_self] at hr
      obtain ⟨c, hc, hslot⟩ := hembryo hr
      refine ⟨p, c, ?_, hslot⟩
      rwa [Function.update_self]
    · simp only [Function.update_of_ne hrq] at hr
      obtain ⟨r', c, hc, hslot⟩ := h.embryo r hr
      exact ⟨r', c, hkeep r' c hc fun hq => hrq (hslot.symm.trans hq), hslot⟩
  case parent =>
    intro r r' c d hc hd hslot
    by_cases hcq : c.slot = q
    · rw [(hnew r c hc hcq).1, (hnew r' d hd (hslot.symm.trans hcq)).1]
    · exact h.parent r r' c d (hchild r c hc hcq)
        (hchild r' d hd fun hdq => hcq (hslot.trans hdq)) hslot
  case rest =>
    intro r hr
    by_cases hrp : r = p
    · rw [hrp, Function.update_self, hrest] at hr
      cases hr
    · rw [Function.update_of_ne hrp] at hr ⊢
      exact h.rest r hr

theorem Tables.life_other {q r : Slot} {l : Life} (h : Tables s acc)
    (hne : ∀ r, (acc r).running = true → r ≠ q) (hexited : y.exited = (acc p).exited)
    (hrun : (acc p).running = true) (hr : (Function.update acc p y r).running = true) :
    Function.update s.life q l r =
      if (Function.update acc p y r).exited then .zombie else .live := by
  by_cases hrp : r = p
  · rw [hrp, Function.update_of_ne (hne p hrun), Function.update_self, hexited]
    exact h.life p hrun
  · rw [Function.update_of_ne hrp] at hr ⊢
    rw [Function.update_of_ne (hne r hr)]
    exact h.life r hr

theorem safe_zombie (hlive : x.exited = false) (hfds : x.fds = fun _ => none)
    (hcwd : x.cwd = none) (hchild : x.child = none) :
    (sysRules T).Safe p (fun _ y => y = { x with exited := true })
      (change fun s => { s with life := Function.update s.life p .zombie }) x := by
  apply safe_own
  rintro s acc hok rfl hrun r t hf
  obtain rfl : _ = t := by simpa using hf
  refine ⟨{ acc p with exited := true }, ?_, hrun, rfl⟩
  have hchildren : ∀ r c,
      (Function.update acc p { acc p with exited := true } r).child = some c →
        (acc r).child = some c := by
    intro r c hc
    rwa [congrFun (field_update (y := { acc p with exited := true }) Acct.child rfl) r] at hc
  apply hok.setTables
  case hsame => exact ⟨rfl, rfl, rfl, rfl, rfl, rfl⟩
  case htables =>
    apply hok.tables.setLife
    case hlife =>
      intro r hr
      by_cases hrp : r = p
      · rw [hrp, Function.update_self, Function.update_self]
        rfl
      · rw [Function.update_of_ne hrp] at hr ⊢
        rw [Function.update_of_ne hrp]
        exact hok.tables.life r hr
    case hdead => exact fun _ => ⟨hfds, hcwd⟩
    case hchild => exact fun r c hc _ => hchildren r c hc
    case hnew =>
      intro r c hc hslot
      have hembryo := (hok.tables.child r c (hchildren r c hc)).1
      rw [hslot] at hembryo
      exact absurd hembryo (hok.tables.not_embryo hrun)
    case hkeep =>
      intro r c hc _
      rwa [congrFun (field_update (y := { acc p with exited := true }) Acct.child rfl) r]
    case hembryo => simp
    case hrest => exact hrun
    all_goals rfl
  all_goals rfl

/-! ## `fork` -/

theorem Tables.ne_of_life {q : Slot} (h : Tables s acc)
    (hq : s.life q = .unused ∨ s.life q = .embryo) (r : Slot) (hr : (acc r).running = true) :
    r ≠ q := by
  rintro rfl
  rw [h.life r hr] at hq
  split_ifs at hq <;> simp at hq

theorem Ok.setChild {q : Slot} {l : Life} {c : Option Child} (h : Ok s acc)
    (hrun : (acc p).running = true) (hq : s.life q = .unused ∨ s.life q = .embryo)
    (hothers : ∀ r d, r ≠ p → (acc r).child = some d → d.slot ≠ q)
    (hdead : l = .unused ∨ l = .zombie → (acc q).fds = (fun _ => none) ∧ (acc q).cwd = none)
    (hc : ∀ d, c = some d → d.slot = q ∧ l = .embryo ∧ (acc q).fds = d.fds ∧
      (acc q).cwd = d.cwd)
    (hown : ∀ d, (acc p).child = some d → d.slot = q) (hembryo : l = .embryo → c ≠ none) :
    Ok { s with life := Function.update s.life q l }
      (Function.update acc p { acc p with child := c }) := by
  apply h.setTables
  case hsame => exact ⟨rfl, rfl, rfl, rfl, rfl, rfl⟩
  case htables =>
    apply h.tables.setLife
    case hlife =>
      intro r hr
      exact h.tables.life_other (h.tables.ne_of_life hq) rfl hrun hr
    case hdead => exact hdead
    case hchild =>
      intro r d hd hslot
      by_cases hr : r = p
      · rw [hr, Function.update_self] at hd
        exact absurd (hc d hd).1 hslot
      · rwa [Function.update_of_ne hr] at hd
    case hnew =>
      intro r d hd hslot
      by_cases hr : r = p
      · rw [hr, Function.update_self] at hd
        exact ⟨hr, (hc d hd).2⟩
      · rw [Function.update_of_ne hr] at hd
        exact absurd hslot (hothers r d hr hd)
    case hkeep =>
      intro r d hd hslot
      by_cases hr : r = p
      · rw [hr] at hd
        exact absurd (hown d hd) hslot
      · rwa [Function.update_of_ne hr]
    case hembryo =>
      intro hl
      obtain ⟨d, hd⟩ := Option.ne_none_iff_exists'.1 (hembryo hl)
      exact ⟨d, hd, (hc d hd).1⟩
    case hrest => exact hrun
    all_goals rfl
  all_goals rfl

theorem safe_allocproc (hchild : x.child = none) :
    (sysRules T).Safe p (fun r y => match r with
      | none => y = x
      | some q => y = { x with child := some ⟨q, fun _ => none, none⟩ }) allocproc x := by
  apply safe_own
  rintro s acc hok rfl hrun r t hf
  split at hf
  · rename_i q hfind
    obtain ⟨rfl, rfl⟩ : some q = r ∧ _ = t := by simpa using hf
    have hunused : s.life q = .unused := by simpa using List.find?_some hfind
    have hempty := hok.tables.dead q (.inl hunused)
    refine ⟨{ acc p with child := some ⟨q, fun _ => none, none⟩ }, ?_, hrun, rfl⟩
    apply hok.setChild hrun (.inl hunused)
    · intro r d _ hd hslot
      have hembryo := (hok.tables.child r d hd).1
      rw [hslot, hunused] at hembryo
      cases hembryo
    · simp
    · rintro d ⟨⟩
      exact ⟨rfl, rfl, hempty⟩
    · rw [hchild]
      rintro d ⟨⟩
    · simp
  · obtain ⟨rfl, rfl⟩ : none = r ∧ s = t := by simpa using hf
    refine ⟨acc p, ?_, hrun, rfl⟩
    rwa [Function.update_eq_self]

theorem safe_setChild {c : Child} {l : Life} (hchild : x.child = some c)
    (hl : l = .live ∨ l = .unused ∧ c.fds = (fun _ => none) ∧ c.cwd = none) :
    (sysRules T).Safe p (fun _ y => y = { x with child := none })
      (change fun s => { s with life := Function.update s.life c.slot l }) x := by
  apply safe_own
  rintro s acc hok rfl hrun r t hf
  obtain rfl : _ = t := by simpa using hf
  obtain ⟨hembryo, hfds, hcwd⟩ := hok.tables.child p c hchild
  refine ⟨{ acc p with child := none }, ?_, hrun, rfl⟩
  apply hok.setChild hrun (.inr hembryo)
  · intro r d hr hd hslot
    exact hr (hok.tables.parent r p d c hd hchild hslot)
  · intro hdead
    rcases hl with rfl | ⟨_, hfds', hcwd'⟩
    · simp at hdead
    · exact ⟨hfds.trans hfds', hcwd.trans hcwd'⟩
  · rintro d ⟨⟩
  · rw [hchild]
    rintro d ⟨⟩
    rfl
  · rcases hl with rfl | ⟨rfl, _⟩ <;> simp

theorem Tables.give {c : Child} {z : Acct} (h : Tables s acc) (hrun : (acc p).running = true)
    (hchild : (acc p).child = some c) (hlife : t.life = s.life)
    (hofile : t.ofile = Function.update s.ofile c.slot z.fds)
    (hcwd : t.cwd = Function.update s.cwd c.slot z.cwd) (hyrun : y.running = true)
    (hyexited : y.exited = (acc p).exited) (hyfds : y.fds = (acc p).fds)
    (hycwd : y.cwd = (acc p).cwd) (hychild : y.child = some ⟨c.slot, z.fds, z.cwd⟩)
    (hzrun : z.running = false) (hz : z.Balanced ∧ z.fs.stake = fun _ => false) :
    Tables t (Function.update (Function.update acc p y) c.slot z) := by
  obtain ⟨hembryo, _, _⟩ := h.child p c hchild
  have hne : p ≠ c.slot := h.ne_of_life (.inr hembryo) p hrun
  have hp : Function.update (Function.update acc p y) c.slot z p = y := by
    rw [Function.update_of_ne hne, Function.update_self]
  have hcases : ∀ r, r ≠ p → r ≠ c.slot →
      Function.update (Function.update acc p y) c.slot z r = acc r := by
    intro r hrp hrq
    rw [Function.update_of_ne hrq, Function.update_of_ne hrp]
  have hchildren : ∀ r d,
      (Function.update (Function.update acc p y) c.slot z r).child = some d →
        r = p ∧ d = ⟨c.slot, z.fds, z.cwd⟩ ∨ r ≠ p ∧ (acc r).child = some d := by
    intro r d hd
    by_cases hrq : r = c.slot
    · rw [hrq, Function.update_self, hz.1.child] at hd
      cases hd
    · by_cases hrp : r = p
      · rw [hrp, hp, hychild] at hd
        exact .inl ⟨hrp, (Option.some.inj hd).symm⟩
      · rw [hcases r hrp hrq] at hd
        exact .inr ⟨hrp, hd⟩
  constructor
  case ofile =>
    intro r
    rw [hofile]
    by_cases hrq : r = c.slot
    · rw [hrq, Function.update_self, Function.update_self]
    · rw [Function.update_of_ne hrq]
      by_cases hrp : r = p
      · rw [hrp, hp, hyfds]
        exact h.ofile p
      · rw [hcases r hrp hrq]
        exact h.ofile r
  case cwd =>
    intro r
    rw [hcwd]
    by_cases hrq : r = c.slot
    · rw [hrq, Function.update_self, Function.update_self]
    · rw [Function.update_of_ne hrq]
      by_cases hrp : r = p
      · rw [hrp, hp, hycwd]
        exact h.cwd p
      · rw [hcases r hrp hrq]
        exact h.cwd r
  case life =>
    intro r hr
    rw [hlife]
    by_cases hrq : r = c.slot
    · rw [hrq, Function.update_self, hzrun] at hr
      cases hr
    · by_cases hrp : r = p
      · rw [hrp, hp, hyexited]
        exact h.life p hrun
      · rw [hcases r hrp hrq] at hr ⊢
        exact h.life r hr
  case dead =>
    intro r hr
    rw [hlife] at hr
    by_cases hrq : r = c.slot
    · rw [hrq, hembryo] at hr
      simp at hr
    · by_cases hrp : r = p
      · rw [hrp, hp, hyfds, hycwd]
        rw [hrp] at hr
        exact h.dead p hr
      · rw [hcases r hrp hrq]
        exact h.dead r hr
  case child =>
    intro r d hd
    rw [hlife]
    rcases hchildren r d hd with ⟨_, rfl⟩ | ⟨hrp, hd'⟩
    · rw [Function.update_self]
      exact ⟨hembryo, rfl, rfl⟩
    · obtain ⟨hembryo', hfds, hcwd'⟩ := h.child r d hd'
      have hdq : d.slot ≠ c.slot := fun hslot => hrp (h.parent r p d c hd' hchild hslot)
      have hdp : d.slot ≠ p := (h.ne_of_life (.inr hembryo') p hrun).symm
      rw [hcases d.slot hdp hdq]
      exact ⟨hembryo', hfds, hcwd'⟩
  case embryo =>
    intro r hr
    rw [hlife] at hr
    obtain ⟨r', d, hd, hslot⟩ := h.embryo r hr
    by_cases hrp : r' = p
    · subst hrp
      refine ⟨r', ⟨c.slot, z.fds, z.cwd⟩, by rw [hp, hychild], ?_⟩
      rw [← hslot, Option.some.inj (hchild.symm.trans hd)]
    · have hrq : r' ≠ c.slot := by
        rintro rfl
        have hidle : (acc c.slot).running = false := by
          by_contra hrunning
          exact h.ne_of_life (.inr hembryo) c.slot (by simpa using hrunning) rfl
        rw [(h.rest c.slot hidle).1.child] at hd
        cases hd
      exact ⟨r', d, by rw [hcases r' hrp hrq, hd], hslot⟩
  case parent =>
    intro r r' d d' hd hd' hslot
    rcases hchildren r d hd with ⟨hr, rfl⟩ | ⟨hrp, hd⟩
    · rcases hchildren r' d' hd' with ⟨hr', _⟩ | ⟨_, hd'⟩
      · rw [hr, hr']
      · rw [hr]
        exact h.parent p r' c d' hchild hd' hslot
    · rcases hchildren r' d' hd' with ⟨hr', rfl⟩ | ⟨_, hd'⟩
      · rw [hr']
        exact h.parent r p d c hd hchild hslot
      · exact h.parent r r' d d' hd hd' hslot
  case rest =>
    intro r hr
    by_cases hrq : r = c.slot
    · rw [hrq, Function.update_self]
      exact hz
    · by_cases hrp : r = p
      · rw [hrp, hp, hyrun] at hr
        cases hr
      · rw [hcases r hrp hrq] at hr ⊢
        exact h.rest r hr

theorem FileRefs.give {file : FileId → File} {hold : Slot → FileId → Nat}
    {fresh : Slot → FileId → Bool} {f : FileId} {q : Slot} (h : FileRefs file hold fresh)
    (hne : p ≠ q) (hheld : 0 < hold p f) (hfresh : fresh p f = false) :
    FileRefs file (Function.update (Function.update hold p (Function.update (hold p) f
      (hold p f - 1))) q (Function.update (hold q) f (hold q f + 1))) fresh := by
  constructor
  case ref =>
    intro g
    have hfrom := sum_account (fun u : FileId → Nat => u g) hold p
      (Function.update (hold p) f (hold p f - 1))
    have hto := sum_account (fun u : FileId → Nat => u g)
      (Function.update hold p (Function.update (hold p) f (hold p f - 1))) q
      (Function.update (hold q) f (hold q f + 1))
    have hg := h.ref g
    rw [Function.update_of_ne hne.symm] at hto
    by_cases hgf : g = f
    · subst hgf
      simp only [Function.update_self] at hfrom hto
      omega
    · simp only [Function.update_of_ne hgf] at hfrom hto
      omega
  case closed => exact h.closed
  case fresh =>
    intro r g hr
    obtain ⟨hone, hheld', hnone⟩ := h.fresh r g hr
    refine ⟨hone, ?_, hnone⟩
    have hgf : g ≠ f := by
      rintro rfl
      by_cases hrp : r = p
      · rw [hrp, hfresh] at hr
        cases hr
      · rw [h.fresh_own hheld r hrp] at hr
        cases hr
    by_cases hrq : r = q
    · rw [hrq, Function.update_self, Function.update_of_ne hgf]
      rwa [hrq] at hheld'
    · rw [Function.update_of_ne hrq]
      by_cases hrp : r = p
      · rw [hrp, Function.update_self, Function.update_of_ne hgf]
        rwa [hrp] at hheld'
      · rwa [Function.update_of_ne hrp]

theorem safe_two {f : Sys → Res (α × Sys)}
    (h : ∀ s acc, Ok s acc → acc p = x → x.running = true → ∀ r t, f s = .ok (r, t) →
      ∃ q y z, q ≠ p ∧ Ok t (Function.update (Function.update acc p y) q z) ∧
        (acc q).running = false ∧ z.running = false ∧ y.running = true ∧ Q r y) :
    (sysRules T).Safe p Q (.atomic .other f) x := by
  rintro ⟨⟩ s acc hok hacc hrun _
  refine ⟨⟨trivial, trivial⟩, fun r t hf => ?_⟩
  obtain ⟨q, y, z, hqp, hok', hq, hz, hy, hQ⟩ := h s acc hok hacc (active_iff.1 hrun) r t hf
  refine ⟨_, hok', fun r hr => ?_, ?_⟩
  · by_cases hrq : r = q
    · rw [hrq, Function.update_self]
      exact .inr ⟨hq, hz⟩
    · rw [Function.update_of_ne hrq, Function.update_of_ne hr]
      exact .inl rfl
  · rw [Function.update_of_ne hqp.symm, Function.update_self]
    exact ⟨active_iff.2 hy, hQ⟩

theorem field_two {β : Type} {q : Slot} {z : Acct} (g : Acct → β) :
    (fun r => g (Function.update (Function.update acc p y) q z r)) =
      Function.update (Function.update (fun r => g (acc r)) p (g y)) q (g z) := by
  funext r
  by_cases hrq : r = q
  · rw [hrq, Function.update_self, Function.update_self]
  · rw [Function.update_of_ne hrq, Function.update_of_ne hrq]
    by_cases hrp : r = p
    · rw [hrp, Function.update_self, Function.update_self]
    · rw [Function.update_of_ne hrp, Function.update_of_ne hrp]

theorem field_two_same {β : Type} {q : Slot} (g : Acct → β) (y z : Acct)
    (hy : g y = g (acc p)) (hz : g z = g (acc q)) :
    (fun r => g (Function.update (Function.update acc p y) q z r)) = fun r => g (acc r) := by
  rw [field_two, hy, hz, Function.update_eq_self, Function.update_eq_self]

theorem Tables.child_idle {c : Child} (h : Tables s acc) (hchild : (acc p).child = some c) :
    (acc c.slot).running = false := by
  rw [← Bool.not_eq_true]
  exact fun hr => h.ne_of_life (.inr (h.child p c hchild).1) _ hr rfl

theorem Ok.give {c : Child} {z : Acct} (h : Ok s acc) (hrun : (acc p).running = true)
    (hchild : (acc p).child = some c) (hsame : SameFiles s t)
    (htables : Tables t (Function.update (Function.update acc p y) c.slot z))
    (hyfresh : y.fresh = (acc p).fresh) (hywork : y.work = (acc p).work)
    (hzfresh : z.fresh = (acc c.slot).fresh) (hzwork : z.work = (acc c.slot).work)
    (hzfs : z.fs = (acc c.slot).fs)
    (hfiles : FileRefs s.file
      (Function.update (Function.update (fun q => (acc q).hold) p y.hold) c.slot z.hold)
      fun q => (acc q).fresh)
    (hcount : ∀ e, kept s.file (Function.update (Function.update (fun q => (acc q).cwdRef) p
      y.cwdRef) c.slot z.cwdRef) e + y.fs.hand e =
        kept s.file (fun q => (acc q).cwdRef) e + (acc p).fs.hand e)
    (hlock : y.fs.lock = (acc p).fs.lock) (htrans : y.fs.trans = (acc p).fs.trans)
    (hhas : ∀ e, y.fs.lock e = true → y.fs.Has e) (hstaked : Staked s.file y) :
    Ok t (Function.update (Function.update acc p y) c.slot z) := by
  have hidle := h.tables.child_idle hchild
  have hne : p ≠ c.slot := fun heq => by simp [← heq, hrun] at hidle
  have hp : Function.update (Function.update acc p y) c.slot z p = y := by
    rw [Function.update_of_ne hne, Function.update_self]
  apply h.step (p := p) hsame.fs
  case hothers =>
    intro r hr
    by_cases hrq : r = c.slot
    · rw [hrq, Function.update_self, hzfs]
    · rw [Function.update_of_ne hrq, Function.update_of_ne hr]
  case htables => exact htables
  case hfiles =>
    rw [field_two Acct.hold, field_two_same Acct.fresh y z hyfresh hzfresh, hsame.file]
    exact hfiles
  case hpipes =>
    rw [field_two_same Acct.work y z hywork hzwork]
    refine h.pipes.same (fun page w => ?_) (fun _ => rfl) hsame.pipe hsame.free hsame.allocs
      hsame.frees
    rw [hsame.file]
  case hcount =>
    intro e
    rw [field_two Acct.cwdRef, hp, hsame.file]
    exact hcount e
  case hlock => rwa [hp]
  case htrans => rwa [hp]
  case hhas => rwa [hp]
  case hstaked =>
    rw [hsame.file]
    intro r
    by_cases hrq : r = c.slot
    · rw [hrq, Function.update_self]
      intro e he
      rw [hzfs, (h.tables.rest c.slot hidle).2] at he
      cases he
    · rw [Function.update_of_ne hrq]
      by_cases hrp : r = p
      · rw [hrp, Function.update_self]
        exact hstaked
      · rw [Function.update_of_ne hrp]
        exact h.staked r

namespace Acct

def giveFd (x : Acct) (c : Child) (fd : Fd) (f : FileId) : Acct :=
  { x with
    hold := Function.update x.hold f (x.hold f - 1)
    child := some { c with fds := Function.update c.fds fd (some f) } }

def getFd (x : Acct) (fd : Fd) (f : FileId) : Acct :=
  { x with
    hold := Function.update x.hold f (x.hold f + 1)
    fds := Function.update x.fds fd (some f) }

theorem Balanced.getFd {fd : Fd} {f : FileId} (h : x.Balanced) (hfd : x.fds fd = none) :
    (x.getFd fd f).Balanced := by
  refine ⟨fun g => ?_, h.fresh, h.work, h.child, h.cwdRef, h.hand, h.lock, h.trans⟩
  have hsum := descriptors_update x.fds fd (some f) g
  have hg := h.hold g
  simp only [hfd, reduceCtorEq, if_false, Option.some.injEq] at hsum
  show Function.update x.hold f (x.hold f + 1) g =
    descriptors (Function.update x.fds fd (some f)) g
  by_cases hgf : g = f
  · subst hgf
    rw [Function.update_self]
    simp only [if_true] at hsum
    omega
  · rw [Function.update_of_ne hgf, hg]
    simp only [Ne.symm hgf, if_false] at hsum
    omega

end Acct

theorem safe_giveFd {c : Child} {fd : Fd} {f : FileId} (hchild : x.child = some c)
    (hfd : c.fds fd = none) (hheld : 0 < x.hold f) (hfresh : x.fresh f = false)
    (hfile : x.file = none) :
    (sysRules T).Safe p (fun _ y => y = x.giveFd c fd f)
      (change fun s => s.setFd c.slot fd (some f)) x := by
  apply safe_two
  rintro s acc hok rfl hrun r t hf
  obtain rfl : _ = t := by simpa using hf
  obtain ⟨_, hfds, hcwd⟩ := hok.tables.child p c hchild
  have hidle := hok.tables.child_idle hchild
  have hne : c.slot ≠ p := fun heq => by simp [heq, hrun] at hidle
  obtain ⟨hbal, hstake⟩ := hok.tables.rest c.slot hidle
  refine ⟨c.slot, (acc p).giveFd c fd f, (acc c.slot).getFd fd f, hne, ?_, hidle, hidle, hrun, rfl⟩
  apply hok.give hrun hchild
  case hsame => exact ⟨rfl, rfl, rfl, rfl, rfl, rfl⟩
  case htables =>
    apply hok.tables.give hrun hchild
    case hofile =>
      show Function.update s.ofile c.slot (Function.update (s.ofile c.slot) fd (some f)) = _
      rw [hok.tables.ofile c.slot]
      rfl
    case hcwd =>
      show s.cwd = Function.update s.cwd c.slot (acc c.slot).cwd
      rw [← hok.tables.cwd c.slot, Function.update_eq_self]
    case hychild =>
      show some _ = some (Child.mk c.slot (Function.update (acc c.slot).fds fd (some f))
        (acc c.slot).cwd)
      rw [hfds, hcwd]
    case hyrun => exact hrun
    case hzrun => exact hidle
    case hz => exact ⟨hbal.getFd (by rw [hfds, hfd]), hstake⟩
    all_goals rfl
  case hfiles => exact hok.files.give hne.symm hheld hfresh
  case hcount =>
    intro e
    show kept s.file (Function.update (Function.update (fun q => (acc q).cwdRef) p
      (acc p).cwdRef) c.slot (acc c.slot).cwdRef) e + (acc p).fs.hand e = _
    rw [Function.update_eq_self, Function.update_eq_self]
  case hhas => exact hok.inodes.lockRef p
  case hstaked =>
    refine (hok.staked p).keep (fun _ he => he) rfl rfl (fun g hg _ => ?_)
      fun _ _ htype => ⟨htype, rfl⟩
    rw [hfile] at hg
    cases hg
  all_goals rfl

namespace Acct

/-- A reference in hand passes to the child, for its working directory. -/
def giveCwd (x : Acct) (c : Child) (e : Entry) : Acct :=
  { x with
    child := some { c with cwd := some e }
    fs := x.fs.drop e }

def getCwd (x : Acct) (e : Entry) : Acct := { x with cwd := some e, cwdRef := some e }

end Acct

theorem safe_giveCwd {c : Child} {e : Entry} (hchild : x.child = some c) (hcwd : c.cwd = none)
    (hhand : 0 < x.fs.hand e) (hlock : x.fs.lock = fun _ => false) :
    (sysRules T).Safe p (fun _ y => y = x.giveCwd c e)
      (change fun s => { s with cwd := Function.update s.cwd c.slot (some e) }) x := by
  apply safe_two
  rintro s acc hok rfl hrun r t hf
  obtain rfl : _ = t := by simpa using hf
  obtain ⟨_, hcfds, hccwd⟩ := hok.tables.child p c hchild
  have hidle := hok.tables.child_idle hchild
  have hne : c.slot ≠ p := fun heq => by simp [heq, hrun] at hidle
  obtain ⟨hbal, hstake⟩ := hok.tables.rest c.slot hidle
  refine ⟨c.slot, (acc p).giveCwd c e, (acc c.slot).getCwd e, hne, ?_, hidle, hidle, hrun, rfl⟩
  apply hok.give hrun hchild
  case hsame => exact ⟨rfl, rfl, rfl, rfl, rfl, rfl⟩
  case htables =>
    apply hok.tables.give hrun hchild
    case hofile =>
      show s.ofile = Function.update s.ofile c.slot (acc c.slot).fds
      rw [← hok.tables.ofile c.slot, Function.update_eq_self]
    case hychild =>
      show some _ = some (Child.mk c.slot (acc c.slot).fds (some e))
      rw [hcfds]
    case hyrun => exact hrun
    case hzrun => exact hidle
    case hz =>
      exact ⟨⟨hbal.hold, hbal.fresh, hbal.work, hbal.child, rfl, hbal.hand, hbal.lock, hbal.trans⟩,
        hstake⟩
    all_goals rfl
  case hfiles =>
    show FileRefs s.file (Function.update (Function.update (fun q => (acc q).hold) p
      (acc p).hold) c.slot (acc c.slot).hold) _
    rw [Function.update_eq_self, Function.update_eq_self]
    exact hok.files
  case hcount =>
    intro e'
    show kept s.file (Function.update (Function.update (fun q => (acc q).cwdRef) p
      (acc p).cwdRef) c.slot (some e)) e' + ((acc p).fs.drop e).hand e' = _
    rw [Function.update_eq_self]
    have hsum := kept_cwdRef s.file c.slot (fun q => (acc q).cwdRef) e' (some e)
    simp only [hbal.cwdRef, hccwd, hcwd, Option.some.injEq, reduceCtorEq, if_false] at hsum
    by_cases hee : e' = e
    · subst hee
      simp only [if_true] at hsum
      simp only [FsAcct.drop, FsAcct.setHand, Function.update_self]
      omega
    · simp only [Ne.symm hee, if_false] at hsum
      simp only [FsAcct.drop, FsAcct.setHand, Function.update_of_ne hee]
      omega
  case hhas =>
    intro e' hlocked
    have hfree : (acc p).fs.lock e' = true := hlocked
    rw [hlock] at hfree
    cases hfree
  case hstaked =>
    exact (hok.staked p).keep (fun _ he => he) rfl rfl (fun _ _ hheld => hheld)
      fun _ _ htype => ⟨htype, rfl⟩
  all_goals rfl

end Xv6.Files
