import Xv6.Files.Accounts

/-!
# Steps outside of the file system

What the actions of `file.c`, `pipe.c`, `fork`, `exit` and `chdir` do to the accounts.
-/

namespace Xv6.Files

open Xv6.Lib Xv6.Fs Xv6.Sched

variable {s t : Sys} {acc : Slot → Acct} {p : Slot} {x y : Acct} {T : Terms} {α : Type}
  {Q : α → Acct → Prop}

/-! ## Counts after one assignment -/

section Counts

variable (file : FileId → File) (f : FileId) (ff : File) (work : Slot → PipeWork) (p : Slot)
  (w : PipeWork) (page : Nat) (writable : Bool) (cwdRef : Slot → Option Entry) (e : Entry)

theorem ends_file : ends (Function.update file f ff) work page writable +
    (if (file f).IsEnd page writable then 1 else 0) =
      ends file work page writable + if ff.IsEnd page writable then 1 else 0 := by
  have hsum := sum_account (fun ff : File => if ff.IsEnd page writable then 1 else 0) file f ff
  unfold ends
  omega

theorem ends_work : ends file (Function.update work p w) page writable +
    (if work p = .closing page writable then 1 else 0) =
      ends file work page writable + if w = .closing page writable then 1 else 0 := by
  have hsum := sum_account
    (fun w : PipeWork => if w = .closing page writable then 1 else 0) work p w
  unfold ends
  omega

theorem between_work : between (Function.update work p w) page +
    (if work p = .making page ∨ work p = .freeing page then 1 else 0) =
      between work page + if w = .making page ∨ w = .freeing page then 1 else 0 := by
  unfold between
  exact sum_account
    (fun w : PipeWork => if w = .making page ∨ w = .freeing page then 1 else 0) work p w

theorem kept_file : kept (Function.update file f ff) cwdRef e +
    (if (file f).type = .FD_INODE ∧ (file f).ip = e then 1 else 0) =
      kept file cwdRef e + if ff.type = .FD_INODE ∧ ff.ip = e then 1 else 0 := by
  have hsum := sum_account
    (fun ff : File => if ff.type = .FD_INODE ∧ ff.ip = e then 1 else 0) file f ff
  unfold kept
  omega

theorem kept_cwdRef (d : Option Entry) : kept file (Function.update cwdRef p d) e +
    (if cwdRef p = some e then 1 else 0) = kept file cwdRef e + if d = some e then 1 else 0 := by
  have hsum := sum_account (fun d : Option Entry => if d = some e then 1 else 0) cwdRef p d
  unfold kept
  omega

variable {file f ff work p w page writable cwdRef e}

theorem ends_file_same (h : ff.IsEnd page writable ↔ (file f).IsEnd page writable) :
    ends (Function.update file f ff) work page writable = ends file work page writable := by
  have hsum := ends_file file f ff work page writable
  simp only [h] at hsum
  omega

theorem kept_file_same (h : ff.type = .FD_INODE ∧ ff.ip = e ↔
    (file f).type = .FD_INODE ∧ (file f).ip = e) :
    kept (Function.update file f ff) cwdRef e = kept file cwdRef e := by
  have hsum := kept_file file f ff cwdRef e
  simp only [h] at hsum
  omega

theorem descriptors_update (fds : Fd → Option FileId) (fd : Fd) (d : Option FileId)
    (f : FileId) :
    descriptors (Function.update fds fd d) f + (if fds fd = some f then 1 else 0) =
      descriptors fds f + if d = some f then 1 else 0 := by
  unfold descriptors
  exact sum_account (fun d : Option FileId => if d = some f then 1 else 0) fds fd d

theorem descriptors_pos {fds : Fd → Option FileId} {fd : Fd} (h : fds fd = some f) :
    0 < descriptors fds f := by
  have hle := Finset.single_le_sum (f := fun fd => if fds fd = some f then 1 else 0)
    (fun _ _ => Nat.zero_le _) (Finset.mem_univ fd)
  simp only [h, if_true] at hle
  unfold descriptors
  exact hle

end Counts

/-! ## Files -/

section Files

variable {file : FileId → File} {hold : Slot → FileId → Nat} {fresh : Slot → FileId → Bool}
  {f : FileId} {ff : File} {n : Nat} {b : Bool}

theorem FileRefs.hold_le_ref (h : FileRefs file hold fresh) (p : Slot) (f : FileId) :
    hold p f ≤ (file f).ref := by
  rw [h.ref f]
  exact Finset.single_le_sum (f := fun q => hold q f) (fun _ _ => Nat.zero_le _)
    (Finset.mem_univ p)

theorem FileRefs.fresh_own (h : FileRefs file hold fresh) (hp : 0 < hold p f) (q : Slot)
    (hq : q ≠ p) : fresh q f = false := by
  rw [← Bool.not_eq_true]
  intro hfresh
  obtain ⟨hone, hheld, _⟩ := h.fresh q f hfresh
  have hsum : hold q f + hold p f ≤ ∑ r, hold r f := by
    rw [← Finset.sum_pair hq (f := fun r => hold r f)]
    exact Finset.sum_le_sum_of_subset (Finset.subset_univ _)
  rw [← h.ref f] at hsum
  omega

theorem FileRefs.set (h : FileRefs file hold fresh)
    (href : ff.ref + hold p f = (file f).ref + n) (hclosed : ff.ref = 0 → ff.type = .FD_NONE)
    (hfresh : b = true → ff.ref = 1 ∧ 0 < n ∧ ff.type = .FD_NONE)
    (hothers : ∀ q, q ≠ p → fresh q f = false) :
    FileRefs (Function.update file f ff) (Function.update hold p (Function.update (hold p) f n))
      (Function.update fresh p (Function.update (fresh p) f b)) := by
  constructor
  case ref =>
    intro g
    have hsum := sum_account (fun x : FileId → Nat => x g) hold p (Function.update (hold p) f n)
    have hg := h.ref g
    by_cases hgf : g = f
    · subst hgf
      rw [Function.update_self] at hsum ⊢
      omega
    · rw [Function.update_of_ne hgf] at hsum ⊢
      omega
  case closed =>
    intro g
    by_cases hgf : g = f
    · rw [hgf, Function.update_self]
      exact hclosed
    · rw [Function.update_of_ne hgf]
      exact h.closed g
  case fresh =>
    intro q g hq
    by_cases hqp : q = p
    · subst hqp
      rw [Function.update_self] at hq ⊢
      by_cases hgf : g = f
      · subst hgf
        rw [Function.update_self] at hq ⊢
        rw [Function.update_self]
        exact hfresh hq
      · rw [Function.update_of_ne hgf] at hq ⊢
        rw [Function.update_of_ne hgf]
        exact h.fresh q g hq
    · rw [Function.update_of_ne hqp] at hq ⊢
      have hgf : g ≠ f := by
        rintro rfl
        rw [hothers q hqp] at hq
        cases hq
      rw [Function.update_of_ne hgf]
      exact h.fresh q g hq

end Files

/-! ## Frames -/

theorem Pipes.same {work work' : Slot → PipeWork} (h : Pipes s work)
    (hends : ∀ page w, ends t.file work' page w = ends s.file work page w)
    (hbetween : ∀ page, between work' page = between work page) (hpipe : t.pipe = s.pipe)
    (hfree : t.free = s.free) (hallocs : t.allocs = s.allocs) (hfrees : t.frees = s.frees) :
    Pipes t work' := by
  constructor
  case one => simpa only [hends] using h.one
  case count => simpa only [hends, hbetween, hallocs, hfrees] using h.count
  case single => simpa only [hallocs, hfrees] using h.single
  case flags => simpa only [hends, hpipe] using h.flags
  case nodup => simpa only [hfree] using h.nodup
  case free => simpa only [hfree, hallocs, hfrees] using h.free

theorem Staked.keep {file file' : FileId → File} (h : Staked file x)
    (hstake : ∀ e, y.fs.stake e = true → x.fs.stake e = true) (hcwd : y.cwdRef = x.cwdRef)
    (hfile : y.file = x.file) (hhold : ∀ f, x.file = some f → 0 < x.hold f → 0 < y.hold f)
    (hsame : ∀ f, 0 < x.hold f → (file f).type = .FD_INODE →
      (file' f).type = .FD_INODE ∧ (file' f).ip = (file f).ip) : Staked file' y := by
  intro e he
  rcases h e (hstake e he) with hcwdRef | ⟨f, hf, hheld, htype, hip⟩
  · exact .inl (hcwd.trans hcwdRef)
  · obtain ⟨htype', hip'⟩ := hsame f hheld htype
    exact .inr ⟨f, hfile.trans hf, hhold f hf hheld, htype', hip'.trans hip⟩

theorem Ok.own (h : Ok s acc) (hfs : t.fs = s.fs) (htables : Tables t (Function.update acc p y))
    (hfiles : FileRefs t.file (Function.update (fun q => (acc q).hold) p y.hold)
      (Function.update (fun q => (acc q).fresh) p y.fresh))
    (hpipes : Pipes t (Function.update (fun q => (acc q).work) p y.work))
    (hcount : ∀ e, kept t.file (Function.update (fun q => (acc q).cwdRef) p y.cwdRef) e +
      y.fs.hand e = kept s.file (fun q => (acc q).cwdRef) e + (acc p).fs.hand e)
    (hlock : y.fs.lock = (acc p).fs.lock) (htrans : y.fs.trans = (acc p).fs.trans)
    (hhas : ∀ e, y.fs.lock e = true → y.fs.Has e) (hstaked : Staked t.file y)
    (hothers : ∀ q, q ≠ p → Staked t.file (acc q)) : Ok t (Function.update acc p y) := by
  have hfield : ∀ {β : Type} (g : Acct → β), (fun q => g (Function.update acc p y q)) =
      Function.update (fun q => g (acc q)) p (g y) := by
    intro β g
    funext q
    by_cases hq : q = p
    · rw [hq, Function.update_self, Function.update_self]
    · rw [Function.update_of_ne hq, Function.update_of_ne hq]
  apply h.step (p := p) hfs (fun q hq => by rw [Function.update_of_ne hq]) htables
  case hfiles => rwa [hfield Acct.hold, hfield Acct.fresh]
  case hpipes => rwa [hfield Acct.work]
  case hcount => rwa [hfield Acct.cwdRef, Function.update_self]
  case hlock => rwa [Function.update_self]
  case htrans => rwa [Function.update_self]
  case hhas => rwa [Function.update_self]
  case hstaked =>
    exact (Function.forall_update_iff acc fun _ x => Staked t.file x).2 ⟨hstaked, hothers⟩

theorem active_iff : ¬ (sysRules T).idle x ↔ x.running = true := Bool.not_eq_false _ ▸ Iff.rfl

theorem safe_own {f : Sys → Res (α × Sys)}
    (h : ∀ s acc, Ok s acc → acc p = x → x.running = true → ∀ r t, f s = .ok (r, t) →
      ∃ y, Ok t (Function.update acc p y) ∧ y.running = true ∧ Q r y) :
    (sysRules T).Safe p Q (.atomic .other f) x := by
  apply Rules.safe_atomic
  rintro ⟨⟩ s acc hok hacc hrun _
  refine ⟨⟨trivial, trivial⟩, fun r t hf => ?_⟩
  obtain ⟨y, hok', hy, hQ⟩ := h s acc hok hacc (active_iff.1 hrun) r t hf
  exact ⟨y, hok', active_iff.2 hy, hQ⟩

theorem safe_look {f : Sys → α} (h : ∀ s acc, Ok s acc → acc p = x → Q (f s) x) :
    (sysRules T).Safe p Q (look f) x := by
  apply safe_own
  intro s acc hok hacc hrun r t hf
  obtain ⟨rfl, rfl⟩ : f s = r ∧ s = t := by simpa using hf
  refine ⟨x, ?_, hrun, h s acc hok hacc⟩
  rwa [← hacc, Function.update_eq_self]

theorem safe_halt {msg : String} : (sysRules T).Safe p Q (halt msg) x := by
  apply safe_own
  intro s acc hok hacc hrun r t hf
  simp at hf

/-! ## `file.c` -/

namespace Acct

def setFs (x : Acct) (z : FsAcct) : Acct := { x with fs := z }

def addFile (x : Acct) (f : FileId) : Acct :=
  { x with
    hold := Function.update x.hold f (x.hold f + 1)
    fresh := Function.update x.fresh f true }

def dupFile (x : Acct) (f : FileId) : Acct :=
  { x with hold := Function.update x.hold f (x.hold f + 1) }

def dropFile (x : Acct) (f : FileId) : Acct :=
  { x with
    hold := Function.update x.hold f (x.hold f - 1)
    fresh := Function.update x.fresh f false }

end Acct

theorem Ok.setRef {f : FileId} {ff : File} {n : Nat} {b : Bool} (h : Ok s acc)
    (hrun : (acc p).running = true) (hends : ∀ page w, ff.IsEnd page w ↔ (s.file f).IsEnd page w)
    (hinode : ∀ e, ff.type = .FD_INODE ∧ ff.ip = e ↔
      (s.file f).type = .FD_INODE ∧ (s.file f).ip = e)
    (hfiles : FileRefs (Function.update s.file f ff)
      (Function.update (fun q => (acc q).hold) p (Function.update (acc p).hold f n))
      (Function.update (fun q => (acc q).fresh) p (Function.update (acc p).fresh f b)))
    (hn : (acc p).file = some f → 0 < (acc p).hold f → 0 < n) :
    Ok (s.setFile f ff) (Function.update acc p
      { acc p with
        hold := Function.update (acc p).hold f n
        fresh := Function.update (acc p).fresh f b }) := by
  have hkeep : ∀ g, (s.file g).type = .FD_INODE →
      (Function.update s.file f ff g).type = .FD_INODE ∧
        (Function.update s.file f ff g).ip = (s.file g).ip := by
    intro g hg
    by_cases hgf : g = f
    · rw [hgf, Function.update_self]
      rw [hgf] at hg
      exact (hinode _).2 ⟨hg, rfl⟩
    · rw [Function.update_of_ne hgf]
      exact ⟨hg, rfl⟩
  apply h.own
  case hfs => rfl
  case htables => exact h.tables.same rfl rfl rfl hrun hrun rfl rfl rfl rfl
  case hfiles => exact hfiles
  case hpipes =>
    show Pipes _ (Function.update (fun q => (acc q).work) p (acc p).work)
    rw [Function.update_eq_self]
    refine h.pipes.same (fun page w => ?_) (fun _ => rfl) rfl rfl rfl rfl
    exact ends_file_same (hends page w)
  case hcount =>
    intro e
    show kept _ (Function.update (fun q => (acc q).cwdRef) p (acc p).cwdRef) e + _ = _
    rw [Function.update_eq_self]
    show kept (Function.update s.file f ff) _ e + _ = _
    rw [kept_file_same (hinode e)]
  case hlock => rfl
  case htrans => rfl
  case hhas => exact h.inodes.lockRef p
  case hstaked =>
    refine (h.staked p).keep (fun _ he => he) rfl rfl (fun g hg hheld => ?_) fun g _ => hkeep g
    by_cases hgf : g = f
    · subst hgf
      simpa using hn hg hheld
    · simpa [hgf] using hheld
  case hothers =>
    exact fun q _ => (h.staked q).keep (fun _ he => he) rfl rfl (fun _ _ hheld => hheld)
      fun g _ => hkeep g

theorem safe_filealloc :
    (sysRules T).Safe p (fun r y => match r with
      | none => y = x
      | some f => y = x.addFile f ∧ x.hold f = 0) filealloc x := by
  apply safe_own
  rintro s acc hok rfl hrun r t hf
  simp only at hf
  split at hf
  · rename_i f hfind
    obtain ⟨rfl, rfl⟩ : some f = r ∧ _ = t := by simpa using hf
    have hzero : (s.file f).ref = 0 := by simpa using List.find?_some hfind
    have hhold : (acc p).hold f = 0 := by
      have hle := hok.files.hold_le_ref p f
      omega
    refine ⟨(acc p).addFile f, hok.setRef hrun (fun _ _ => Iff.rfl) (fun _ => Iff.rfl) ?_ ?_,
      hrun, rfl, hhold⟩
    · apply hok.files.set
      case href => simp [hzero, hhold]
      case hclosed => simp
      case hfresh => exact fun _ => ⟨rfl, Nat.succ_pos _, hok.files.closed f hzero⟩
      case hothers =>
        intro q _
        rw [← Bool.not_eq_true]
        intro hfresh
        have hone := (hok.files.fresh q f hfresh).1
        omega
    · exact fun _ _ => Nat.succ_pos _
  · obtain ⟨rfl, rfl⟩ : none = r ∧ s = t := by simpa using hf
    refine ⟨acc p, ?_, hrun, rfl⟩
    rwa [Function.update_eq_self]

theorem safe_filedup {f : FileId} (hheld : 0 < x.hold f) (hfresh : x.fresh f = false) :
    (sysRules T).Safe p (fun _ y => y = x.dupFile f) (filedup f) x := by
  apply safe_own
  rintro s acc hok rfl hrun r t hf
  simp only at hf
  split_ifs at hf with href
  obtain rfl : _ = t := by simpa using hf
  have hsame : (acc p).dupFile f = { acc p with
      hold := Function.update (acc p).hold f ((acc p).hold f + 1)
      fresh := Function.update (acc p).fresh f false } := by
    rw [← hfresh, Function.update_eq_self]
    rfl
  refine ⟨(acc p).dupFile f, ?_, hrun, rfl⟩
  rw [hsame]
  refine hok.setRef hrun (fun _ _ => Iff.rfl) (fun _ => Iff.rfl) ?_ fun _ _ => Nat.succ_pos _
  apply hok.files.set
  case href =>
    simp only
    omega
  case hclosed => simp
  case hfresh => simp
  case hothers => exact hok.files.fresh_own hheld

theorem Ok.staked_other {f : FileId} {ff : File} {q : Slot} (h : Ok s acc)
    (hone : (s.file f).ref = 1) (hheld : 0 < (acc p).hold f) (hq : q ≠ p) :
    Staked (Function.update s.file f ff) (acc q) := by
  refine (h.staked q).keep (fun _ he => he) rfl rfl (fun _ _ hheld => hheld) fun g hg htype => ?_
  have hgf : g ≠ f := by
    rintro rfl
    have hsum : (acc q).hold g + (acc p).hold g ≤ ∑ r, (acc r).hold g := by
      rw [← Finset.sum_pair hq (f := fun r => (acc r).hold g)]
      exact Finset.sum_le_sum_of_subset (Finset.subset_univ _)
    have href := h.files.ref g
    omega
  rw [Function.update_of_ne hgf]
  exact ⟨htype, rfl⟩

theorem Ok.staked_own {f : FileId} {ff : File} (h : Ok s acc) (hfile : (acc p).file ≠ some f)
    (hstake : y.fs.stake = (acc p).fs.stake) (hcwd : y.cwdRef = (acc p).cwdRef)
    (hyfile : y.file = (acc p).file) (hhold : ∀ g, g ≠ f → y.hold g = (acc p).hold g) :
    Staked (Function.update s.file f ff) y := by
  intro e he
  rw [hstake] at he
  rcases h.staked p e he with hcwdRef | ⟨g, hg, hheld, htype, hip⟩
  · exact .inl (hcwd.trans hcwdRef)
  · have hgf : g ≠ f := fun hgf => hfile (hgf ▸ hg)
    refine .inr ⟨g, hyfile.trans hg, by rwa [hhold g hgf], ?_⟩
    rw [Function.update_of_ne hgf]
    exact ⟨htype, hip⟩

theorem Ok.setFile {f : FileId} {ff : File} (h : Ok s acc) (hrun : (acc p).running = true)
    (hone : (s.file f).ref = 1) (hheld : 0 < (acc p).hold f) (hfile : (acc p).file ≠ some f)
    (hrun' : y.running = true) (hexited : y.exited = (acc p).exited) (hfds : y.fds = (acc p).fds)
    (hcwd : y.cwd = (acc p).cwd) (hchild : y.child = (acc p).child)
    (hcwdRef : y.cwdRef = (acc p).cwdRef) (hyfile : y.file = (acc p).file)
    (hhold : y.hold = Function.update (acc p).hold f ff.ref)
    (hfresh : y.fresh = Function.update (acc p).fresh f false)
    (hclosed : ff.ref = 0 → ff.type = .FD_NONE)
    (hpipes : Pipes (s.setFile f ff)
      (Function.update (fun q => (acc q).work) p y.work))
    (hhand : ∀ e, (if ff.type = .FD_INODE ∧ ff.ip = e then 1 else 0) + y.fs.hand e =
      (if (s.file f).type = .FD_INODE ∧ (s.file f).ip = e then 1 else 0) + (acc p).fs.hand e)
    (hlock : y.fs.lock = (acc p).fs.lock) (htrans : y.fs.trans = (acc p).fs.trans)
    (hstake : y.fs.stake = (acc p).fs.stake)
    (hhas : ∀ e, y.fs.lock e = true → y.fs.Has e) :
    Ok (s.setFile f ff) (Function.update acc p y) := by
  have hheldOne : (acc p).hold f = 1 := by
    have hle := h.files.hold_le_ref p f
    omega
  apply h.own
  case hfs => rfl
  case htables => exact h.tables.same rfl rfl rfl hrun hrun' hexited hfds hcwd hchild
  case hfiles =>
    rw [hhold, hfresh]
    apply h.files.set
    case href => omega
    case hclosed => exact hclosed
    case hfresh => simp
    case hothers => exact h.files.fresh_own hheld
  case hpipes => exact hpipes
  case hcount =>
    intro e
    rw [hcwdRef, Function.update_eq_self]
    have hsum := kept_file s.file f ff (fun q => (acc q).cwdRef) e
    have hmove := hhand e
    show kept (Function.update s.file f ff) _ e + _ = _
    omega
  case hlock => exact hlock
  case htrans => exact htrans
  case hhas => exact hhas
  case hstaked =>
    refine h.staked_own hfile hstake hcwdRef hyfile fun g hg => ?_
    rw [hhold, Function.update_of_ne hg]
  case hothers => exact fun q hq => h.staked_other hone hheld hq

theorem between_work_same {work : Slot → PipeWork} {w : PipeWork} {page : Nat}
    (h : w = .making page ∨ w = .freeing page ↔ work p = .making page ∨ work p = .freeing page) :
    between (Function.update work p w) page = between work page := by
  have hsum := between_work work p w page
  simp only [h] at hsum
  omega

theorem Pipes.setFile {work : Slot → PipeWork} {f : FileId} {ff : File} (h : Pipes s work)
    (hold : (s.file f).type ≠ .FD_PIPE) (hnew : ff.type ≠ .FD_PIPE) :
    Pipes (s.setFile f ff) work := by
  refine h.same (fun page w => ends_file_same ?_) (fun _ => rfl) rfl rfl rfl rfl
  simp [File.IsEnd, hold, hnew]

theorem Pipes.closing {work : Slot → PipeWork} {f : FileId} {ff : File} (h : Pipes s work)
    (hold : (s.file f).type = .FD_PIPE) (hnew : ff.type ≠ .FD_PIPE) (hidle : work p = .idle) :
    Pipes (s.setFile f ff)
      (Function.update work p (.closing (s.file f).pipe (s.file f).writable)) := by
  refine h.same (fun page w => ?_) (fun page => between_work_same (by simp [hidle]))
    rfl rfl rfl rfl
  have hfile := ends_file s.file f ff
    (Function.update work p (.closing (s.file f).pipe (s.file f).writable)) page w
  have hwork := ends_work s.file work p (.closing (s.file f).pipe (s.file f).writable) page w
  simp only [File.IsEnd, hold, hnew, hidle, true_and, false_and, if_false,
    PipeWork.closing.injEq, reduceCtorEq] at hfile hwork
  show ends (Function.update s.file f ff) _ page w = _
  omega

theorem Ok.close {f : FileId} {w : PipeWork} {z : FsAcct} (h : Ok s acc)
    (hrun : (acc p).running = true) (hone : (s.file f).ref = 1) (hheld : 0 < (acc p).hold f)
    (hfile : (acc p).file ≠ some f)
    (hpipes : Pipes (s.setFile f { s.file f with ref := 0, type := .FD_NONE })
      (Function.update (fun q => (acc q).work) p w))
    (hhand : ∀ e, z.hand e =
      (if (s.file f).type = .FD_INODE ∧ (s.file f).ip = e then 1 else 0) + (acc p).fs.hand e)
    (hlock : z.lock = (acc p).fs.lock) (htrans : z.trans = (acc p).fs.trans)
    (hstake : z.stake = (acc p).fs.stake) (hhas : ∀ e, z.lock e = true → z.Has e) :
    Ok (s.setFile f { s.file f with ref := 0, type := .FD_NONE })
      (Function.update acc p { (acc p).dropFile f with work := w, fs := z }) := by
  have hle := h.files.hold_le_ref p f
  apply h.setFile hrun hone hheld hfile
  case hrun' => exact hrun
  case hhold =>
    have hheldOne : (acc p).hold f - 1 = 0 := by omega
    simp only [Acct.dropFile, hheldOne]
  case hclosed => exact fun _ => rfl
  case hpipes => exact hpipes
  case hhand =>
    intro e
    have hmove := hhand e
    simp only [reduceCtorEq, false_and, if_false]
    omega
  case hlock => exact hlock
  case htrans => exact htrans
  case hstake => exact hstake
  case hhas => exact hhas
  all_goals rfl

/-- What is left to do after `fileclose` has dropped the reference. -/
def Dropped (x : Acct) (f : FileId) : Option File → Acct → Prop
  | none, y => y = x.dropFile f
  | some ff, y =>
    match ff.type with
    | .FD_NONE => y = x.dropFile f
    | .FD_PIPE => y = { x.dropFile f with work := .closing ff.pipe ff.writable }
    | .FD_INODE => y = { x.dropFile f with fs := x.fs.take ff.ip } ∧
        (x.fs.lock ff.ip = true → x.fs.Has ff.ip) ∧ x.fresh f = false

theorem safe_filedrop {f : FileId} (hheld : 0 < x.hold f) (hwork : x.work = .idle)
    (hfile : x.file = none) :
    (sysRules T).Safe p (Dropped x f) (filedrop f) x := by
  apply safe_own
  rintro s acc hok rfl hrun r t hf
  have hle := hok.files.hold_le_ref p f
  have hnot : (acc p).file ≠ some f := by simp [hfile]
  simp only at hf
  split_ifs at hf with hpanic hmore
  · obtain ⟨rfl, rfl⟩ : none = r ∧ _ = t := by simpa using hf
    refine ⟨(acc p).dropFile f, hok.setRef hrun (fun _ _ => Iff.rfl) (fun _ => Iff.rfl) ?_ ?_,
      hrun, rfl⟩
    · apply hok.files.set
      case href =>
        simp only
        omega
      case hclosed =>
        intro hzero
        simp only at hzero
        omega
      case hfresh => simp
      case hothers => exact hok.files.fresh_own hheld
    · exact fun h => absurd h hnot
  · obtain ⟨rfl, rfl⟩ : some (s.file f) = r ∧ _ = t := by simpa using hf
    have hone : (s.file f).ref = 1 := by omega
    have hheldOne : (acc p).hold f - 1 = 0 := by omega
    cases htype : (s.file f).type with
    | FD_NONE =>
      refine ⟨_, hok.close (w := (acc p).work) (z := (acc p).fs) hrun hone hheld hnot ?_ ?_
        rfl rfl rfl (hok.inodes.lockRef p), hrun, ?_⟩
      · rw [Function.update_eq_self]
        exact hok.pipes.setFile (by simp [htype]) (by simp)
      · simp [htype]
      · simp only [Dropped, htype]
        rfl
    | FD_PIPE =>
      refine ⟨_, hok.close (z := (acc p).fs) hrun hone hheld hnot
        (hok.pipes.closing htype (by simp) hwork) ?_ rfl rfl rfl (hok.inodes.lockRef p), hrun, ?_⟩
      · simp [htype]
      · simp only [Dropped, htype]
        rfl
    | FD_INODE =>
      refine ⟨_, hok.close (w := (acc p).work) (z := (acc p).fs.take (s.file f).ip) hrun hone
        hheld hnot ?_ ?_ rfl rfl rfl ?_, hrun, ?_⟩
      · rw [Function.update_eq_self]
        exact hok.pipes.setFile (by simp [htype]) (by simp)
      · intro e
        by_cases he : (s.file f).ip = e
        · subst he
          simp only [htype, FsAcct.hand_take, and_self, if_true]
          omega
        · simp [htype, he, FsAcct.hand_take_of_ne (Ne.symm he)]
      · exact fun e he => FsAcct.Has.take (hok.inodes.lockRef p e he)
      · simp only [Dropped, htype]
        refine ⟨rfl, hok.inodes.lockRef p _, ?_⟩
        rw [← Bool.not_eq_true]
        intro hfresh
        have hnone := (hok.files.fresh p f hfresh).2.2
        rw [htype] at hnone
        cases hnone

/-! ## `pipe.c` -/

section Pipes

variable {work : Slot → PipeWork} {page : Nat} {writable : Bool}

theorem Pipes.page_of_between (h : Pipes s work)
    (hwork : work p = .making page ∨ work p = .freeing page) :
    between work page = 1 ∧ ends s.file work page false = 0 ∧ ends s.file work page true = 0 ∧
      s.allocs page = s.frees page + 1 := by
  have hpos : 0 < between work page := by
    have hsum := between_work work p .idle page
    simp only [hwork, if_true, reduceCtorEq, or_self, if_false] at hsum
    omega
  have hcount := h.count page
  have hsingle := h.single page
  split_ifs at hcount <;> omega

theorem Pipes.kalloc {rest : List Nat} (h : Pipes s work) (hfree : s.free = page :: rest)
    (hidle : work p = .idle) :
    Pipes { s with
      free := rest
      allocs := Function.update s.allocs page (s.allocs page + 1) }
      (Function.update work p (.making page)) := by
  have hends : ∀ page' w, ends s.file (Function.update work p (.making page)) page' w =
      ends s.file work page' w := by
    intro page' w
    have hsum := ends_work s.file work p (.making page) page' w
    simp only [hidle, reduceCtorEq, if_false] at hsum
    omega
  have heq : s.allocs page = s.frees page := h.free page (by simp [hfree])
  have hnodup := h.nodup
  rw [hfree, List.nodup_cons] at hnodup
  constructor
  case one => simpa only [hends] using h.one
  case count =>
    intro page'
    have hsum := between_work work p (.making page) page'
    have hcount := h.count page'
    simp only [hidle, reduceCtorEq, or_self, if_false, PipeWork.making.injEq, or_false] at hsum
    simp only [hends]
    by_cases hpage : page' = page
    · subst hpage
      rw [Function.update_self]
      simp only [if_true] at hsum
      omega
    · rw [Function.update_of_ne hpage]
      simp only [Ne.symm hpage, if_false] at hsum
      omega
  case single =>
    intro page'
    by_cases hpage : page' = page
    · subst hpage
      simp only [Function.update_self]
      omega
    · simp only [Function.update_of_ne hpage]
      exact h.single page'
  case flags => simpa only [hends] using h.flags
  case nodup => exact hnodup.2
  case free =>
    intro page' hmem
    have hne : page' ≠ page := by
      rintro rfl
      exact hnodup.1 hmem
    simp only [Function.update_of_ne hne]
    exact h.free page' (by simp [hfree, hmem])

theorem Pipes.kfree (h : Pipes s work) (hwork : work p = .freeing page) :
    Pipes { s with
      free := page :: s.free
      frees := Function.update s.frees page (s.frees page + 1) }
      (Function.update work p .idle) := by
  have hends : ∀ page' w, ends s.file (Function.update work p .idle) page' w =
      ends s.file work page' w := by
    intro page' w
    have hsum := ends_work s.file work p .idle page' w
    simp only [hwork, reduceCtorEq, if_false] at hsum
    omega
  obtain ⟨hone, _, _, halloc⟩ := h.page_of_between (.inr hwork)
  constructor
  case one => simpa only [hends] using h.one
  case count =>
    intro page'
    have hsum := between_work work p .idle page'
    have hcount := h.count page'
    simp only [hwork, reduceCtorEq, or_self, if_false, PipeWork.freeing.injEq, false_or] at hsum
    simp only [hends]
    by_cases hpage : page' = page
    · subst hpage
      rw [Function.update_self]
      simp only [if_true] at hsum
      omega
    · rw [Function.update_of_ne hpage]
      simp only [Ne.symm hpage, if_false] at hsum
      omega
  case single =>
    intro page'
    by_cases hpage : page' = page
    · subst hpage
      simp only [Function.update_self]
      omega
    · simp only [Function.update_of_ne hpage]
      exact h.single page'
  case flags => simpa only [hends] using h.flags
  case nodup =>
    refine List.nodup_cons.2 ⟨fun hmem => ?_, h.nodup⟩
    have heq := h.free page hmem
    omega
  case free =>
    intro page' hmem
    by_cases hpage : page' = page
    · subst hpage
      simp only [Function.update_self]
      omega
    · simp only [Function.update_of_ne hpage]
      exact h.free page' (by simpa [hpage] using hmem)

theorem Pipes.close (h : Pipes s work) (hwork : work p = .closing page writable) :
    Pipes { s with pipe := Function.update s.pipe page ((s.pipe page).close writable) }
      (Function.update work p
        (if ((s.pipe page).close writable).isClosed then .freeing page else .idle)) := by
  -- One file for the end is counted, and that is the one that is gone.
  have hends : ∀ w page' w', (w = .freeing page ∨ w = .idle) →
      ends s.file (Function.update work p w) page' w' +
        (if page = page' ∧ writable = w' then 1 else 0) = ends s.file work page' w' := by
    intro w page' w' hw
    have hsum := ends_work s.file work p w page' w'
    rcases hw with rfl | rfl <;>
      simpa only [hwork, PipeWork.closing.injEq, reduceCtorEq, if_false, Nat.add_zero] using hsum
  have hbetween : ∀ w page', (w = .freeing page ∨ w = .idle) →
      between (Function.update work p w) page' =
        between work page' + if w = .freeing page ∧ page = page' then 1 else 0 := by
    intro w page' hw
    have hsum := between_work work p w page'
    rcases hw with rfl | rfl <;>
      simpa only [hwork, PipeWork.freeing.injEq, reduceCtorEq, or_self, false_or, true_and,
        false_and, if_false, Nat.add_zero] using hsum
  generalize hw : (if ((s.pipe page).close writable).isClosed then PipeWork.freeing page
    else .idle) = w
  have hcases : w = .freeing page ∨ w = .idle := by
    rw [← hw]
    split_ifs <;> simp
  have hend : ends s.file (Function.update work p w) page writable + 1 =
      ends s.file work page writable := by
    simpa using hends w page writable hcases
  have hother : ends s.file (Function.update work p w) page (!writable) =
      ends s.file work page (!writable) := by
    simpa using hends w page (!writable) hcases
  have hpos : 0 < ends s.file work page false + ends s.file work page true := by
    cases writable <;> omega
  have hone := h.one page writable
  obtain ⟨hread, hwrite⟩ := h.flags page hpos
  have hclosed : ((s.pipe page).close writable).isClosed = true ↔
      ends s.file work page (!writable) = 0 := by
    cases writable
    · simpa [PipeEnds.close, PipeEnds.isClosed, Nat.pos_iff_ne_zero] using not_congr hwrite
    · simpa [PipeEnds.close, PipeEnds.isClosed, Nat.pos_iff_ne_zero] using not_congr hread
  have htotal : ends s.file (Function.update work p w) page false +
      ends s.file (Function.update work p w) page true = ends s.file work page (!writable) := by
    cases writable <;> simp only [Bool.not_false, Bool.not_true] at * <;> omega
  have hsame : ∀ page' w', page' ≠ page →
      ends s.file (Function.update work p w) page' w' = ends s.file work page' w' := by
    intro page' w' hne
    simpa [Ne.symm hne] using hends w page' w' hcases
  constructor
  case one =>
    intro page' w'
    have hle := hends w page' w' hcases
    have hone' := h.one page' w'
    show ends s.file (Function.update work p w) page' w' ≤ 1
    omega
  case count =>
    intro page'
    have hcount := h.count page'
    have hmore := hbetween w page' hcases
    show s.allocs page' = s.frees page' + between (Function.update work p w) page' +
      if 0 < ends s.file (Function.update work p w) page' false +
        ends s.file (Function.update work p w) page' true then 1 else 0
    by_cases hpage : page' = page
    · subst hpage
      rw [if_pos hpos] at hcount
      rw [htotal]
      by_cases hzero : ends s.file work page' (!writable) = 0
      · have hw' : w = .freeing page' := by rw [← hw, if_pos (hclosed.2 hzero)]
        simp only [hw', and_self, if_true] at hmore
        simp only [hzero, Nat.lt_irrefl, if_false]
        rw [hw']
        omega
      · have hw' : w = .idle := by rw [← hw, if_neg (fun hc => hzero (hclosed.1 hc))]
        simp only [hw', reduceCtorEq, false_and, if_false] at hmore
        rw [if_pos (Nat.pos_of_ne_zero hzero), hw']
        omega
    · simp only [Ne.symm hpage, and_false, if_false] at hmore
      simp only [hsame page' _ hpage]
      omega
  case single => exact h.single
  case flags =>
    intro page' hpos'
    by_cases hpage : page' = page
    · subst hpage
      simp only [Function.update_self]
      cases writable
      · simp only [Bool.not_false] at hother
        rw [hother]
        refine ⟨?_, hwrite⟩
        simp only [PipeEnds.close]
        simp
        omega
      · simp only [Bool.not_true] at hother
        rw [hother]
        refine ⟨hread, ?_⟩
        simp only [PipeEnds.close]
        simp
        omega
    · simp only [hsame page' _ hpage, Function.update_of_ne hpage] at hpos' ⊢
      exact h.flags page' hpos'
  case nodup => exact h.nodup
  case free => exact h.free

theorem Pipes.init {rf wf : FileId} {r w : File} (h : Pipes s work)
    (hwork : work p = .making page) (hrf : (s.file rf).type ≠ .FD_PIPE)
    (hwf : (s.file wf).type ≠ .FD_PIPE) (hne : wf ≠ rf)
    (hr : ∀ page' w', r.IsEnd page' w' ↔ page = page' ∧ false = w')
    (hw : ∀ page' w', w.IsEnd page' w' ↔ page = page' ∧ true = w') :
    Pipes { s with
      pipe := Function.update s.pipe page ⟨true, true⟩
      file := Function.update (Function.update s.file rf r) wf w }
      (Function.update work p .idle) := by
  have hends : ∀ page' w',
      ends (Function.update (Function.update s.file rf r) wf w) (Function.update work p .idle)
        page' w' = ends s.file work page' w' + if page = page' then 1 else 0 := by
    intro page' w'
    have hwork' := ends_work s.file work p .idle page' w'
    have hread := ends_file s.file rf r (Function.update work p .idle) page' w'
    have hwrite := ends_file (Function.update s.file rf r) wf w (Function.update work p .idle)
      page' w'
    rw [Function.update_of_ne hne] at hwrite
    have hrf' : ¬ (s.file rf).IsEnd page' w' := fun hend => hrf hend.1
    have hwf' : ¬ (s.file wf).IsEnd page' w' := fun hend => hwf hend.1
    simp only [hwork, reduceCtorEq, if_false, hrf', hwf', hr, hw] at hwork' hread hwrite
    cases w' <;> simp only [reduceCtorEq, and_false, and_true, if_false] at hread hwrite <;> omega
  obtain ⟨hone, hzero, hzero', halloc⟩ := h.page_of_between (.inl hwork)
  have hsame : ∀ page' w', page' ≠ page →
      ends (Function.update (Function.update s.file rf r) wf w) (Function.update work p .idle)
        page' w' = ends s.file work page' w' := by
    intro page' w' hpage
    rw [hends, if_neg (Ne.symm hpage), Nat.add_zero]
  have hpage : ∀ w',
      ends (Function.update (Function.update s.file rf r) wf w) (Function.update work p .idle)
        page w' = 1 := by
    intro w'
    rw [hends, if_pos rfl]
    cases w' <;> omega
  constructor
  case one =>
    intro page' w'
    by_cases hp : page' = page
    · rw [hp]
      exact (hpage w').le
    · have hone' := h.one page' w'
      show ends (Function.update (Function.update s.file rf r) wf w) _ page' w' ≤ 1
      rwa [hsame page' w' hp]
  case count =>
    intro page'
    have hsum := between_work work p .idle page'
    have hcount := h.count page'
    simp only [hwork, reduceCtorEq, or_self, if_false, PipeWork.making.injEq, or_false] at hsum
    show s.allocs page' = s.frees page' + between (Function.update work p .idle) page' +
      if 0 < ends (Function.update (Function.update s.file rf r) wf w)
          (Function.update work p .idle) page' false +
        ends (Function.update (Function.update s.file rf r) wf w)
          (Function.update work p .idle) page' true then 1 else 0
    by_cases hp : page' = page
    · subst hp
      rw [hpage, hpage, if_pos (by omega)]
      simp only [if_true] at hsum
      omega
    · rw [hsame _ _ hp, hsame _ _ hp]
      simp only [Ne.symm hp, if_false] at hsum
      omega
  case single => exact h.single
  case flags =>
    intro page' hpos
    by_cases hp : page' = page
    · subst hp
      simp [hpage]
    · simp only [hsame page' _ hp, Function.update_of_ne hp] at hpos ⊢
      exact h.flags page' hpos
  case nodup => exact h.nodup
  case free => exact h.free

end Pipes

theorem Ok.setWork {w : PipeWork} (h : Ok s acc) (hrun : (acc p).running = true)
    (hfs : t.fs = s.fs) (hfile : t.file = s.file) (hofile : t.ofile = s.ofile)
    (hcwd : t.cwd = s.cwd) (hlife : t.life = s.life)
    (hpipes : Pipes t (Function.update (fun q => (acc q).work) p w)) :
    Ok t (Function.update acc p { acc p with work := w }) := by
  apply h.own hfs
  case htables => exact h.tables.same hlife hofile hcwd hrun hrun rfl rfl rfl rfl
  case hfiles =>
    show FileRefs t.file (Function.update (fun q => (acc q).hold) p (acc p).hold)
      (Function.update (fun q => (acc q).fresh) p (acc p).fresh)
    rw [Function.update_eq_self, Function.update_eq_self, hfile]
    exact h.files
  case hpipes => exact hpipes
  case hcount =>
    intro e
    show kept t.file (Function.update (fun q => (acc q).cwdRef) p (acc p).cwdRef) e + _ = _
    rw [Function.update_eq_self, hfile]
  case hlock => rfl
  case htrans => rfl
  case hhas => exact h.inodes.lockRef p
  case hstaked =>
    rw [hfile]
    exact h.staked p
  case hothers =>
    rw [hfile]
    exact fun q _ => h.staked q

theorem safe_kalloc (hwork : x.work = .idle) :
    (sysRules T).Safe p (fun r y => match r with
      | none => y = x
      | some page => y = { x with work := .making page }) kalloc x := by
  apply safe_own
  rintro s acc hok rfl hrun r t hf
  split at hf
  · obtain ⟨rfl, rfl⟩ : none = r ∧ s = t := by simpa using hf
    refine ⟨acc p, ?_, hrun, rfl⟩
    rwa [Function.update_eq_self]
  · rename_i page rest hfree
    obtain ⟨rfl, rfl⟩ : some page = r ∧ _ = t := by simpa using hf
    exact ⟨_, hok.setWork hrun rfl rfl rfl rfl rfl (hok.pipes.kalloc hfree hwork), hrun, rfl⟩

theorem safe_kfree {page : Nat} (hwork : x.work = .freeing page) :
    (sysRules T).Safe p (fun _ y => y = { x with work := .idle }) (kfree page) x := by
  apply safe_own
  rintro s acc hok rfl hrun r t hf
  obtain rfl : _ = t := by simpa using hf
  exact ⟨_, hok.setWork hrun rfl rfl rfl rfl rfl (hok.pipes.kfree hwork), hrun, rfl⟩

theorem safe_pipeclose {page : Nat} {writable : Bool} (hwork : x.work = .closing page writable) :
    (sysRules T).Safe p (fun _ y => y = { x with work := .idle }) (pipeclose page writable)
      x := by
  apply Rules.Safe.bind
    (Q := fun last y => y = { x with work := if last then .freeing page else .idle })
  · apply safe_own
    rintro s acc hok rfl hrun last t hf
    obtain ⟨rfl, rfl⟩ : _ = last ∧ _ = t := by simpa using hf
    exact ⟨_, hok.setWork hrun rfl rfl rfl rfl rfl (hok.pipes.close hwork), hrun, rfl⟩
  · rintro last y rfl
    unfold Prog.when
    cases last with
    | false => exact (rfl : _ = _)
    | true =>
      rw [if_pos rfl]
      exact safe_kfree rfl

/-! ## File system code in a system call -/

theorem fs_part : (fsRules T).Part (sysRules T) Sys.fs (fun t s => { s with fs := t })
    Acct.fs (fun z x => x.setFs z) p where
  idle _ := id
  active _ _ hactive := hactive
  cond _ _ hcond := hcond
  check _ _ _ hcheck := hcheck
  view_put _ _ := rfl
  put_put _ _ _ := rfl
  put_view _ := rfl
  inv s acc hok hactive := by
    have hrun := active_iff.1 hactive
    refine ⟨base s acc, hok.inodes, fun t z hz => ?_⟩
    have hstake : z.stake = (acc p).fs.stake := by
      have hp := hz.stake p
      rwa [Function.update_self] at hp
    have hbase : base { s with fs := t } (Function.update acc p ((acc p).setFs z)) =
        base s acc := by
      unfold base
      rw [field_update (y := (acc p).setFs z) Acct.cwdRef rfl,
        field_update (y := (acc p).setFs z) (fun x => x.fs.stake) hstake]
    have hfs : (fun q => (Function.update acc p ((acc p).setFs z) q).fs) =
        Function.update (fun q => (acc q).fs) p z := by
      funext q
      by_cases hq : q = p
      · rw [hq, Function.update_self, Function.update_self]
        rfl
      · rw [Function.update_of_ne hq, Function.update_of_ne hq]
    constructor
    case tables => exact hok.tables.same rfl rfl rfl hrun hrun rfl rfl rfl rfl
    case files =>
      rw [field_update (y := (acc p).setFs z) Acct.hold rfl,
        field_update (y := (acc p).setFs z) Acct.fresh rfl]
      exact hok.files
    case pipes =>
      rw [field_update (y := (acc p).setFs z) Acct.work rfl]
      exact hok.pipes.same (fun _ _ => rfl) (fun _ => rfl) rfl rfl rfl rfl
    case inodes =>
      rw [hbase, hfs]
      exact hz
    case staked =>
      refine (Function.forall_update_iff acc fun _ x => Staked s.file x).2
        ⟨?_, fun q _ => hok.staked q⟩
      refine (hok.staked p).keep (fun e he => ?_) rfl rfl (fun _ _ hheld => hheld)
        fun _ _ htype => ⟨htype, rfl⟩
      rwa [← hstake]

theorem safe_fs {m : FsM α} {R : α → FsAcct → Prop} (h : (fsRules T).Safe p R m x.fs) :
    (sysRules T).Safe p (fun r y => ∃ z, y = x.setFs z ∧ R r z) (fs m) x :=
  h.lift fs_part

theorem calm_fs {m : FsM α} (h : Calm T p m x.fs) :
    (sysRules T).Safe p (fun _ y => y = x) (fs m) x := by
  apply (safe_fs h).mono
  rintro r y ⟨z, rfl, rfl⟩
  rfl

variable {a : LogArea}

theorem safe_fileclose {f : FileId} (hheld : 0 < x.hold f) (hwork : x.work = .idle)
    (hfile : x.file = none) (htr : x.fs.trans = false)
    (hun : x.fresh f = false → x.fs.Unlocked) :
    (sysRules T).Safe p (fun _ y => y = x.dropFile f) (fileclose a p f) x := by
  apply (safe_filedrop hheld hwork hfile).bind
  intro last y hy
  cases last with
  | none => exact hy
  | some ff =>
    simp only [Dropped] at hy
    dsimp only
    cases htype : ff.type with
    | FD_NONE =>
      rw [htype] at hy
      exact hy
    | FD_PIPE =>
      rw [htype] at hy
      simp only at hy
      subst hy
      apply (safe_pipeclose rfl).mono
      rintro _ y rfl
      show { x.dropFile f with work := .idle } = x.dropFile f
      rw [← hwork]
      rfl
    | FD_INODE =>
      rw [htype] at hy
      obtain ⟨rfl, hlock, hset⟩ := hy
      apply (safe_fs (safe_beginTrans (x := x.fs.take ff.ip) htr (hun hset).take)).bind
      rintro _ _ ⟨z, rfl, rfl⟩
      apply (safe_fs (safe_iput_take (x := x.fs.setTrans true) (e := ff.ip) hlock)).bind
      rintro _ _ ⟨z, rfl, rfl⟩
      apply (safe_fs (safe_commitTrans (x := x.fs.setTrans true) rfl)).mono
      rintro _ _ ⟨z, rfl, rfl⟩
      rw [FsAcct.setTrans_setTrans, FsAcct.setTrans_eq_self htr]
      rfl

end Xv6.Files
