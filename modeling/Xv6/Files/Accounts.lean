import Xv6.Files.System
import Xv6.Files.Walk

/-!
# What a process holds of files, pipes and inodes

The account of a process mirrors its descriptors and its working directory, and counts the
references to files that are its own.  Besides, it says what the process is in the middle of:
files it has allocated and not yet set up, the pipe it is making or closing, the child that
`fork` is making, the file whose inode it is using.
-/

namespace Xv6.Files

open Xv6.Lib Xv6.Fs Xv6.Sched

inductive PipeWork
  | idle
  /-- A file for that end is gone, and its end is still open. -/
  | closing (page : Nat) (writable : Bool)
  /-- The page is allocated, and not yet a pipe. -/
  | making (page : Nat)
  /-- Both ends are closed, and the page is not yet free. -/
  | freeing (page : Nat)
  deriving DecidableEq

structure Child where
  slot : Slot
  fds : Fd → Option FileId
  cwd : Option Entry

structure Acct where
  running : Bool
  exited : Bool
  fds : Fd → Option FileId
  cwd : Option Entry
  /-- The references to files that are this process's. -/
  hold : FileId → Nat
  /-- The files that are allocated and not set up. -/
  fresh : FileId → Bool
  work : PipeWork
  child : Option Child
  /-- The file whose inode is in use. -/
  file : Option FileId
  /-- The inode that the working directory keeps a reference to. -/
  cwdRef : Option Entry
  fs : FsAcct

@[irreducible] def descriptors (fds : Fd → Option FileId) (f : FileId) : Nat :=
  ∑ fd, if fds fd = some f then 1 else 0

structure Acct.Balanced (x : Acct) : Prop where
  hold : ∀ f, x.hold f = descriptors x.fds f
  fresh : x.fresh = fun _ => false
  work : x.work = .idle
  child : x.child = none
  cwdRef : x.cwdRef = x.cwd
  hand : x.fs.hand = fun _ => 0
  lock : x.fs.lock = fun _ => false
  trans : x.fs.trans = false

/-- The tables of the processes, and the processes that are being made. -/
structure Tables (s : Sys) (acc : Slot → Acct) : Prop where
  ofile : ∀ p, s.ofile p = (acc p).fds
  cwd : ∀ p, s.cwd p = (acc p).cwd
  life : ∀ p, (acc p).running = true → s.life p = if (acc p).exited then .zombie else .live
  dead : ∀ p, s.life p = .unused ∨ s.life p = .zombie →
    (acc p).fds = (fun _ => none) ∧ (acc p).cwd = none
  child : ∀ p c, (acc p).child = some c →
    s.life c.slot = .embryo ∧ (acc c.slot).fds = c.fds ∧ (acc c.slot).cwd = c.cwd
  embryo : ∀ q, s.life q = .embryo → ∃ p c, (acc p).child = some c ∧ c.slot = q
  parent : ∀ p q c d, (acc p).child = some c → (acc q).child = some d → c.slot = d.slot → p = q
  rest : ∀ p, (acc p).running = false → (acc p).Balanced ∧ (acc p).fs.stake = fun _ => false

structure FileRefs (file : FileId → File) (hold : Slot → FileId → Nat)
    (fresh : Slot → FileId → Bool) : Prop where
  ref : ∀ f, (file f).ref = ∑ p, hold p f
  closed : ∀ f, (file f).ref = 0 → (file f).type = .FD_NONE
  fresh : ∀ p f, fresh p f = true →
    (file f).ref = 1 ∧ 0 < hold p f ∧ (file f).type = .FD_NONE

def File.IsEnd (ff : File) (page : Nat) (writable : Bool) : Prop :=
  ff.type = .FD_PIPE ∧ ff.pipe = page ∧ ff.writable = writable

instance (ff : File) (page : Nat) (writable : Bool) : Decidable (ff.IsEnd page writable) :=
  inferInstanceAs (Decidable (_ ∧ _))

/-- The files for one end of a pipe, with those that are being closed. -/
@[irreducible] def ends (file : FileId → File) (work : Slot → PipeWork) (page : Nat) (writable : Bool) : Nat :=
  (∑ f, if (file f).IsEnd page writable then 1 else 0) +
    ∑ p, if work p = .closing page writable then 1 else 0

/-- The processes that have the page before or after its time as a pipe. -/
@[irreducible] def between (work : Slot → PipeWork) (page : Nat) : Nat :=
  ∑ p, if work p = .making page ∨ work p = .freeing page then 1 else 0

structure Pipes (s : Sys) (work : Slot → PipeWork) : Prop where
  one : ∀ page w, ends s.file work page w ≤ 1
  count : ∀ page, s.allocs page = s.frees page + between work page +
    if 0 < ends s.file work page false + ends s.file work page true then 1 else 0
  single : ∀ page, s.allocs page ≤ s.frees page + 1
  flags : ∀ page, 0 < ends s.file work page false + ends s.file work page true →
    ((s.pipe page).readopen = true ↔ 0 < ends s.file work page false) ∧
      ((s.pipe page).writeopen = true ↔ 0 < ends s.file work page true)
  nodup : s.free.Nodup
  free : ∀ page ∈ s.free, s.allocs page = s.frees page

/-- The references to an inode that files and working directories keep. -/
@[irreducible] def kept (file : FileId → File) (cwdRef : Slot → Option Entry) (e : Entry) : Nat :=
  (∑ f, if (file f).type = .FD_INODE ∧ (file f).ip = e then 1 else 0) +
    ∑ p, if cwdRef p = some e then 1 else 0

def base (s : Sys) (acc : Slot → Acct) : Base where
  count := kept s.file fun p => (acc p).cwdRef
  stake p := (acc p).fs.stake

/-- What a process uses of an inode without a reference in hand is kept by its working
directory or by a file of its own. -/
def Staked (file : FileId → File) (x : Acct) : Prop :=
  ∀ e, x.fs.stake e = true → x.cwdRef = some e ∨
    ∃ f, x.file = some f ∧ 0 < x.hold f ∧ (file f).type = .FD_INODE ∧ (file f).ip = e

structure Ok (s : Sys) (acc : Slot → Acct) : Prop where
  tables : Tables s acc
  files : FileRefs s.file (fun p => (acc p).hold) fun p => (acc p).fresh
  pipes : Pipes s fun p => (acc p).work
  inodes : FsOk (base s acc) s.fs fun p => (acc p).fs
  staked : ∀ p, Staked s.file (acc p)

def sysRules (T : Terms) : Rules Slot Sys Act Acct Unit where
  inv _ := Ok
  idle x := x.running = false
  cond p s l := (T.frugal → Frugal p s.fs l) ∧ (T.straight → Straight s.fs l)
  check p x s l := Bracketed T.frugal p s.fs l ∧ Ordered T.straight x.fs l

variable {s t : Sys} {acc : Slot → Acct} {p : Slot} {x y : Acct} {T : Terms}

theorem field_update {β : Type} (g : Acct → β) (h : g y = g (acc p)) :
    (fun q => g (Function.update acc p y q)) = fun q => g (acc q) := by
  funext q
  by_cases hq : q = p
  · rw [hq, Function.update_self, h]
  · rw [Function.update_of_ne hq]

/-! ## Steps of a process that change its own account -/

theorem Tables.not_embryo (h : Tables s acc) (hrun : (acc p).running = true) :
    s.life p ≠ .embryo := by
  rw [h.life p hrun]
  split_ifs <;> simp

theorem Tables.own (h : Tables s acc) (hlife : t.life = s.life)
    (hofile : t.ofile = Function.update s.ofile p y.fds)
    (hcwd : t.cwd = Function.update s.cwd p y.cwd) (hrun : (acc p).running = true)
    (hrun' : y.running = true) (hexited : y.exited = (acc p).exited)
    (hdead : (acc p).exited = true → y.fds = (acc p).fds ∧ y.cwd = (acc p).cwd)
    (hchild : y.child = (acc p).child) : Tables t (Function.update acc p y) := by
  have hchildren : ∀ q c, (Function.update acc p y q).child = some c →
      (acc q).child = some c := by
    intro q c hc
    rwa [congrFun (field_update Acct.child hchild) q] at hc
  constructor
  case ofile =>
    intro q
    rw [hofile]
    by_cases hq : q = p
    · rw [hq, Function.update_self, Function.update_self]
    · rw [Function.update_of_ne hq, Function.update_of_ne hq, h.ofile]
  case cwd =>
    intro q
    rw [hcwd]
    by_cases hq : q = p
    · rw [hq, Function.update_self, Function.update_self]
    · rw [Function.update_of_ne hq, Function.update_of_ne hq, h.cwd]
  case life =>
    intro q hq
    rw [hlife]
    by_cases hqp : q = p
    · rw [hqp, Function.update_self, hexited]
      exact h.life p hrun
    · rw [Function.update_of_ne hqp] at hq ⊢
      exact h.life q hq
  case dead =>
    intro q hq
    rw [hlife] at hq
    by_cases hqp : q = p
    · subst hqp
      have hexit : (acc q).exited = true := by
        by_contra hlive
        rw [h.life q hrun, if_neg hlive] at hq
        simp at hq
      rw [Function.update_self, (hdead hexit).1, (hdead hexit).2]
      exact h.dead q hq
    · rw [Function.update_of_ne hqp]
      exact h.dead q hq
  case child =>
    intro q c hc
    obtain ⟨hembryo, hfds, hcwd'⟩ := h.child q c (hchildren q c hc)
    have hne : c.slot ≠ p := by
      rintro heq
      rw [heq] at hembryo
      exact h.not_embryo hrun hembryo
    rw [hlife, Function.update_of_ne hne]
    exact ⟨hembryo, hfds, hcwd'⟩
  case embryo =>
    intro q hq
    rw [hlife] at hq
    obtain ⟨r, c, hc, hslot⟩ := h.embryo q hq
    refine ⟨r, c, ?_, hslot⟩
    rwa [congrFun (field_update Acct.child hchild) r]
  case parent =>
    intro q r c d hc hd
    exact h.parent q r c d (hchildren q c hc) (hchildren r d hd)
  case rest =>
    intro q hq
    by_cases hqp : q = p
    · rw [hqp, Function.update_self, hrun'] at hq
      cases hq
    · rw [Function.update_of_ne hqp] at hq ⊢
      exact h.rest q hq

theorem Tables.same (h : Tables s acc) (hlife : t.life = s.life) (hofile : t.ofile = s.ofile)
    (hcwd : t.cwd = s.cwd) (hrun : (acc p).running = true) (hrun' : y.running = true)
    (hexited : y.exited = (acc p).exited) (hfds : y.fds = (acc p).fds)
    (hcwd' : y.cwd = (acc p).cwd) (hchild : y.child = (acc p).child) :
    Tables t (Function.update acc p y) := by
  apply h.own hlife ?_ ?_ hrun hrun' hexited (fun _ => ⟨hfds, hcwd'⟩) hchild
  · rw [hfds, ← h.ofile p, Function.update_eq_self, hofile]
  · rw [hcwd', ← h.cwd p, Function.update_eq_self, hcwd]

theorem kept_pos_of_staked {file : FileId → File} {e : Entry} (h : ∀ q, Staked file (acc q))
    (hstake : (acc p).fs.stake e = true) : 0 < kept file (fun q => (acc q).cwdRef) e := by
  unfold kept
  rcases h p e hstake with hcwd | ⟨f, _, _, htype, hip⟩
  · have hle := Finset.single_le_sum (f := fun q => if (acc q).cwdRef = some e then 1 else 0)
      (fun _ _ => Nat.zero_le _) (Finset.mem_univ p)
    simp only [hcwd, if_true] at hle
    exact Nat.add_pos_right _ hle
  · have hle := Finset.single_le_sum
      (f := fun f => if (file f).type = .FD_INODE ∧ (file f).ip = e then 1 else 0)
      (fun _ _ => Nat.zero_le _) (Finset.mem_univ f)
    simp only [htype, hip, and_self, if_true] at hle
    exact Nat.add_pos_left hle _

theorem Ok.step {acc' : Slot → Acct} (h : Ok s acc) (hfs : t.fs = s.fs)
    (hothers : ∀ q, q ≠ p → (acc' q).fs = (acc q).fs) (htables : Tables t acc')
    (hfiles : FileRefs t.file (fun q => (acc' q).hold) fun q => (acc' q).fresh)
    (hpipes : Pipes t fun q => (acc' q).work)
    (hcount : ∀ e, kept t.file (fun q => (acc' q).cwdRef) e + (acc' p).fs.hand e =
      kept s.file (fun q => (acc q).cwdRef) e + (acc p).fs.hand e)
    (hlock : (acc' p).fs.lock = (acc p).fs.lock) (htrans : (acc' p).fs.trans = (acc p).fs.trans)
    (hhas : ∀ e, (acc' p).fs.lock e = true → (acc' p).fs.Has e)
    (hstaked : ∀ q, Staked t.file (acc' q)) : Ok t acc' := by
  refine ⟨htables, hfiles, hpipes, ?_, hstaked⟩
  have hacc : (fun q => (acc' q).fs) =
      Function.update (fun q => (acc q).fs) p (acc' p).fs := by
    funext q
    by_cases hq : q = p
    · rw [hq, Function.update_self]
    · rw [Function.update_of_ne hq, hothers q hq]
  rw [hfs, hacc]
  have hcount' : ∀ e, (base t acc').count e + (acc' p).fs.hand e =
      (base s acc).count e + (acc p).fs.hand e := hcount
  apply h.inodes.rebase hcount' hlock htrans hhas
  · intro q
    rw [← hacc]
    rfl
  · exact fun q e => kept_pos_of_staked hstaked

end Xv6.Files
