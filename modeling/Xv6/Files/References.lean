import Xv6.Files.Balance

/-!
# The counts of open files, pipes and inodes

When no process is in a call, each count in the tables of the kernel is the number of what
refers to the entry: descriptors to a file, open files and working directories to an inode,
open ends to the page of a pipe.
-/

namespace Xv6.Files

open Xv6.Lib Xv6.Fs Xv6.Sched

variable {s t : Sys} {acc : Slot → Acct} {p : Slot} {x y : Acct} {T : Terms} {a : LogArea}

/-! ## The accounts between calls -/

theorem Ok.rerun (h : Ok s acc) (hfds : y.fds = (acc p).fds) (hcwd : y.cwd = (acc p).cwd)
    (hchild : y.child = (acc p).child) (hhold : y.hold = (acc p).hold)
    (hfresh : y.fresh = (acc p).fresh) (hwork : y.work = (acc p).work)
    (hcwdRef : y.cwdRef = (acc p).cwdRef) (hhand : y.fs.hand = (acc p).fs.hand)
    (hlock : y.fs.lock = (acc p).fs.lock) (hfree : (acc p).fs.lock = fun _ => false)
    (htrans : y.fs.trans = (acc p).fs.trans) (hstake : y.fs.stake = fun _ => false)
    (hlife : y.running = true → s.life p = if y.exited then .zombie else .live)
    (hrest : y.running = false → y.Balanced) : Ok s (Function.update acc p y) := by
  have hsame : ∀ {β : Type} (g : Acct → β), g y = g (acc p) →
      ∀ q, g (Function.update acc p y q) = g (acc q) :=
    fun g hg q => congrFun (field_update g hg) q
  apply h.step (p := p) rfl fun q hq => by rw [Function.update_of_ne hq]
  case htables =>
    constructor
    case ofile => exact fun q => by rw [hsame _ hfds, h.tables.ofile]
    case cwd => exact fun q => by rw [hsame _ hcwd, h.tables.cwd]
    case life =>
      intro q hq
      by_cases hqp : q = p
      · subst hqp
        rw [Function.update_self] at hq ⊢
        exact hlife hq
      · rw [Function.update_of_ne hqp] at hq ⊢
        exact h.tables.life q hq
    case dead => exact fun q hq => by rw [hsame _ hfds, hsame _ hcwd]; exact h.tables.dead q hq
    case child =>
      intro q c hc
      rw [hsame _ hchild] at hc
      rw [hsame _ hfds, hsame _ hcwd]
      exact h.tables.child q c hc
    case embryo =>
      intro q hq
      obtain ⟨r, c, hc, hslot⟩ := h.tables.embryo q hq
      exact ⟨r, c, by rw [hsame _ hchild, hc], hslot⟩
    case parent =>
      intro q r c d hc hd
      rw [hsame _ hchild] at hc hd
      exact h.tables.parent q r c d hc hd
    case rest =>
      intro q hq
      by_cases hqp : q = p
      · rw [hqp, Function.update_self] at hq ⊢
        exact ⟨hrest hq, hstake⟩
      · rw [Function.update_of_ne hqp] at hq ⊢
        exact h.tables.rest q hq
  case hfiles =>
    rw [field_update Acct.hold hhold, field_update Acct.fresh hfresh]
    exact h.files
  case hpipes =>
    rw [field_update Acct.work hwork]
    exact h.pipes
  case hcount =>
    intro e
    rw [field_update Acct.cwdRef hcwdRef, Function.update_self, hhand]
  case hlock => rw [Function.update_self, hlock]
  case htrans => rw [Function.update_self, htrans]
  case hhas =>
    intro e he
    rw [Function.update_self, hlock, hfree] at he
    cases he
  case hstaked =>
    intro q
    by_cases hqp : q = p
    · rw [hqp, Function.update_self]
      intro e he
      rw [hstake] at he
      cases he
    · rw [Function.update_of_ne hqp]
      exact h.staked q

theorem done_of_balanced (h : x.Balanced) : (sysRules T).Done () p x := by
  rintro s acc hok rfl
  refine ⟨{ acc p with running := false, fs := (acc p).fs.unstake }, rfl, ?_⟩
  refine Ok.rerun hok rfl rfl rfl rfl rfl rfl rfl rfl rfl h.lock rfl rfl ?_ fun _ => ?_
  · rintro ⟨⟩
  · exact ⟨h.hold, h.fresh, h.work, h.child, h.cwdRef, h.hand, h.lock, h.trans⟩

theorem Ok.start (h : Ok s acc) (hidle : (acc p).running = false) (hlife : s.life p = .live) :
    ∃ y : Acct, y.running = true ∧ y.Ready ∧ Ok s (Function.update acc p y) := by
  obtain ⟨hbal, hstake⟩ := h.tables.rest p hidle
  refine ⟨{ acc p with running := true, exited := false, file := none }, rfl, ?_, ?_⟩
  · exact ⟨⟨hbal.hold, hbal.fresh, hbal.work, hbal.child, hbal.cwdRef, hbal.hand, hbal.lock,
      hbal.trans⟩, rfl, rfl⟩
  · refine h.rerun rfl rfl rfl rfl rfl rfl rfl rfl rfl hbal.lock rfl hstake (fun _ => hlife) ?_
    rintro ⟨⟩

theorem Ok.reap {q : Slot} (h : Ok s acc) (hidle : (acc q).running = false)
    (hq : s.life q = .zombie) : Ok { s with life := Function.update s.life q .unused } acc := by
  have hne : ∀ r, s.life r = .embryo → r ≠ q := by
    rintro r hr rfl
    rw [hq] at hr
    cases hr
  refine ⟨?_, h.files, ⟨h.pipes.one, h.pipes.count, h.pipes.single, h.pipes.flags, h.pipes.nodup,
    h.pipes.free⟩, h.inodes, h.staked⟩
  constructor
  case ofile => exact h.tables.ofile
  case cwd => exact h.tables.cwd
  case life =>
    intro r hr
    have hrq : r ≠ q := by
      rintro rfl
      rw [hidle] at hr
      cases hr
    simp only [Function.update_of_ne hrq]
    exact h.tables.life r hr
  case dead =>
    intro r hr
    by_cases hrq : r = q
    · rw [hrq]
      exact h.tables.dead q (.inr hq)
    · simp only [Function.update_of_ne hrq] at hr
      exact h.tables.dead r hr
  case child =>
    intro r c hc
    obtain ⟨hembryo, hrest⟩ := h.tables.child r c hc
    simp only [Function.update_of_ne (hne c.slot hembryo)]
    exact ⟨hembryo, hrest⟩
  case embryo =>
    intro r hr
    by_cases hrq : r = q
    · simp [hrq] at hr
    · simp only [Function.update_of_ne hrq] at hr
      exact h.tables.embryo r hr
  case parent => exact h.tables.parent
  case rest => exact h.tables.rest

theorem Ok.memory {free : List Nat} (h : Ok s acc) (hnodup : free.Nodup)
    (hfree : ∀ page ∈ free, s.allocs page = s.frees page) : Ok { s with free := free } acc :=
  ⟨⟨h.tables.ofile, h.tables.cwd, h.tables.life, h.tables.dead, h.tables.child, h.tables.embryo,
    h.tables.parent, h.tables.rest⟩, h.files,
    ⟨h.pipes.one, h.pipes.count, h.pipes.single, h.pipes.flags, hnodup, hfree⟩, h.inodes,
    h.staked⟩

theorem sound : (sysRules T).Sound (system a) () := by
  constructor
  case call =>
    intro s acc p c hok hidle hready
    have hlive : s.life p = .live := by simpa [system] using hready
    obtain ⟨y, hrun, hready, hok'⟩ := Ok.start hok hidle hlive
    refine ⟨y, by simp [sysRules, hrun], hok', ?_⟩
    exact (safe_code hready c).mono fun _ _ hbal => done_of_balanced hbal
  case env =>
    intro busy s acc e t hok hbusy ht
    refine ⟨acc, ?_, fun _ => .inl rfl⟩
    cases e with
    | reap q =>
      simp only [system, Sys.env, Option.ite_none_right_eq_some, Option.some.injEq] at ht
      obtain ⟨⟨hzombie, hfree⟩, rfl⟩ := ht
      exact Ok.reap hok (hbusy q hfree) hzombie
    | memory free =>
      simp only [system, Sys.env, Option.ite_none_right_eq_some, Option.some.injEq] at ht
      obtain ⟨⟨hnodup, hfree⟩, rfl⟩ := ht
      exact Ok.memory hok hnodup hfree

def bootAcct (s : Sys) (p : Slot) : Acct where
  running := false
  exited := false
  fds _ := none
  cwd := s.cwd p
  hold _ := 0
  fresh _ := false
  work := .idle
  child := none
  file := none
  cwdRef := s.cwd p
  fs := ⟨fun _ => 0, fun _ => false, fun _ => false, false⟩

theorem Boot.ok (h : Boot s) : Ok s (bootAcct s) := by
  have hends : ∀ page w, ends s.file (fun p => (bootAcct s p).work) page w = 0 := by
    intro page w
    unfold ends
    simp [bootAcct, File.IsEnd, h.file]
  have hcount : ∀ e, kept s.file s.cwd e = if e = rootEntry then 1 else 0 := by
    intro e
    unfold kept
    simp only [h.file, reduceCtorEq, false_and, if_false, Finset.sum_const_zero, Nat.zero_add,
      h.cwd]
    by_cases he : e = rootEntry
    · simp [he]
    · simp [he, Ne.symm he]
  refine ⟨?_, ?_, ?_, ?_, fun p e he => ?_⟩
  · constructor
    case ofile => exact fun p => by rw [h.ofile]; rfl
    case cwd => exact fun p => rfl
    case life => rintro p ⟨⟩
    case dead =>
      intro p hp
      refine ⟨rfl, ?_⟩
      have hne : p ≠ initproc := by
        rintro rfl
        simp [h.life] at hp
      show s.cwd p = none
      rw [h.cwd]
      exact if_neg hne
    case child => rintro p c ⟨⟩
    case embryo =>
      intro q hq
      simp only [h.life] at hq
      split_ifs at hq
    case parent => rintro p q c d ⟨⟩
    case rest =>
      intro p _
      refine ⟨⟨fun f => ?_, rfl, rfl, rfl, rfl, rfl, rfl, rfl⟩, rfl⟩
      unfold descriptors
      simp [bootAcct]
  · refine ⟨fun f => ?_, fun f _ => (h.file f).2, fun p f hf => ?_⟩
    · simp [bootAcct, h.file]
    · cases hf
  · constructor
    case one => exact fun page w => by rw [hends page w]; exact Nat.zero_le _
    case count =>
      intro page
      have hbetween : between (fun p => (bootAcct s p).work) page = 0 := by
        unfold between
        simp [bootAcct]
      rw [hends, hends, hbetween]
      exact h.pages page
    case single => exact fun page => by rw [h.pages page]; exact Nat.le_succ _
    case flags =>
      intro page hpos
      rw [hends, hends] at hpos
      cases hpos
    case nodup => exact h.free
    case free => exact fun page _ => h.pages page
  · constructor
    case ref =>
      intro e
      have hkept : (base s (bootAcct s)).count e = kept s.file s.cwd e := rfl
      rw [h.ref, hkept, hcount]
      simp [bootAcct]
    case busy => exact fun e => by simp [bootAcct, h.busy]
    case lockRef => rintro p e ⟨⟩
    case stake => exact fun p => rfl
    case stakeCount => rintro p e ⟨⟩
    case unique =>
      intro e e' he he' _ _
      have hroot : ∀ e, 0 < (s.fs.icache e).ref → e = rootEntry := by
        intro e he
        by_contra hne
        rw [h.ref, if_neg hne] at he
        cases he
      rw [hroot e he, hroot e' he']
    case trans =>
      intro p
      rw [h.trans.1]
      simp [bootAcct]
  · cases he

theorem accounts {s : Pool Slot Sys Act Int}
    (h : (machine a).Reach (fun s e => s.Meets (sysRules T).cond e) s) :
    ∃ acc, (sysRules T).Holds () s acc :=
  sound.holds (fun s hs => ⟨bootAcct s, hs.ok, fun _ => rfl⟩) h

theorem accounts_of_reachable {s : Pool Slot Sys Act Int} (h : (machine a).Reachable s) :
    ∃ acc, (sysRules ⟨False, False⟩).Holds () s acc := by
  apply accounts (a := a)
  exact h.mono fun s e _ => .of_forall fun _ _ _ => ⟨False.elim, False.elim⟩

def Quiet (s : Pool Slot Sys Act Int) : Prop := ∀ p, s.prog p = none

theorem accounts_of_quiet {s : Pool Slot Sys Act Int} (h : (machine a).Reachable s)
    (hquiet : Quiet s) : ∃ acc, Ok s.state acc ∧ ∀ p, (acc p).running = false := by
  obtain ⟨acc, hacc⟩ := accounts_of_reachable h
  exact ⟨acc, hacc.inv, fun p => hacc.idle p (hquiet p)⟩

instance (s : Pool Slot Sys Act Int) : Decidable (Quiet s) :=
  decidable_of_iff (∀ p, (s.prog p).isNone) (by simp [Quiet, Option.isNone_iff_eq_none])

/-! ## Open files and pipes -/

/-- The number of pairs of a process and a descriptor for the file. -/
def references (s : Sys) (f : FileId) : Nat :=
  (Finset.univ.filter fun x : Slot × Fd => s.ofile x.1 x.2 = some f).card

def OpenEnd (s : Sys) (page : Nat) (writable : Bool) : Prop :=
  ∃ f, 0 < (s.file f).ref ∧ (s.file f).IsEnd page writable

theorem sum_descriptors (f : FileId) : ∑ p, descriptors (s.ofile p) f = references s f := by
  unfold references descriptors
  rw [Finset.card_filter, Fintype.sum_prod_type]

theorem FileRefs.openEnd_iff (h : FileRefs s.file (fun p => (acc p).hold) fun p => (acc p).fresh)
    {page : Nat} {w : Bool} : OpenEnd s page w ↔
      0 < ∑ f, if (s.file f).IsEnd page w then 1 else 0 := by
  constructor
  · rintro ⟨f, _, hend⟩
    have hle := Finset.single_le_sum (f := fun f => if (s.file f).IsEnd page w then 1 else 0)
      (fun _ _ => Nat.zero_le _) (Finset.mem_univ f)
    simp only [hend, if_true] at hle
    exact hle
  · intro hpos
    obtain ⟨f, _, hf⟩ := Finset.exists_ne_zero_of_sum_ne_zero (Nat.pos_iff_ne_zero.1 hpos)
    have hend : (s.file f).IsEnd page w := by
      by_contra hend
      exact hf (if_neg hend)
    refine ⟨f, Nat.pos_of_ne_zero fun hzero => ?_, hend⟩
    have hnone := h.closed f hzero
    rw [hend.1] at hnone
    cases hnone

theorem Ok.ends_pos (h : Ok s acc) (hidle : ∀ p, (acc p).running = false) {page : Nat} {w : Bool} :
    0 < ends s.file (fun p => (acc p).work) page w ↔ OpenEnd s page w := by
  have hwork : ∀ p, (acc p).work = .idle := fun p => (h.tables.rest p (hidle p)).1.work
  rw [h.files.openEnd_iff]
  unfold ends
  simp [hwork]

theorem Ok.between_eq_zero (h : Ok s acc) (hidle : ∀ p, (acc p).running = false) (page : Nat) :
    between (fun p => (acc p).work) page = 0 := by
  have hwork : ∀ p, (acc p).work = .idle := fun p => (h.tables.rest p (hidle p)).1.work
  unfold between
  simp [hwork]

theorem Ok.not_freed (h : Ok s acc) {page : Nat} {w : Bool} (hopen : OpenEnd s page w) :
    s.allocs page = s.frees page + 1 := by
  have hpos : 0 < ends s.file (fun p => (acc p).work) page w := by
    unfold ends
    exact Nat.add_pos_left (h.files.openEnd_iff.1 hopen) _
  have hsome : 0 < ends s.file (fun p => (acc p).work) page false +
      ends s.file (fun p => (acc p).work) page true := by
    cases w <;> omega
  have hcount := h.pipes.count page
  have hsingle := h.pipes.single page
  rw [if_pos hsome] at hcount
  omega

/-- Between calls each open file has as many references as there are descriptors for it, and a
pipe has an end open exactly while there is an open file for it.  A page is passed to `kfree`
as often as `pipealloc` has got it, but for once while an end is open. -/
theorem open_file_counts {s : Pool Slot Sys Act Int} (h : (machine a).Reachable s) :
    (Quiet s →
      (∀ f, (s.state.file f).ref = references s.state f) ∧
      (∀ page, OpenEnd s.state page false ∨ OpenEnd s.state page true →
        ((s.state.pipe page).readopen = true ↔ OpenEnd s.state page false) ∧
        ((s.state.pipe page).writeopen = true ↔ OpenEnd s.state page true)) ∧
      ∀ page, ¬ OpenEnd s.state page false → ¬ OpenEnd s.state page true →
        s.state.frees page = s.state.allocs page) ∧
    (∀ page w, OpenEnd s.state page w → s.state.allocs page = s.state.frees page + 1) ∧
    ∀ page, s.state.frees page ≤ s.state.allocs page ∧
      s.state.allocs page ≤ s.state.frees page + 1 := by
  refine ⟨fun hquiet => ?_, ?_⟩
  · obtain ⟨acc, hok, hidle⟩ := accounts_of_quiet h hquiet
    refine ⟨fun f => ?_, fun page hopen => ?_, fun page hread hwrite => ?_⟩
    · rw [hok.files.ref f, ← sum_descriptors]
      refine Finset.sum_congr rfl fun p _ => ?_
      rw [(hok.tables.rest p (hidle p)).1.hold f, hok.tables.ofile]
    · have hpos : 0 < ends s.state.file (fun p => (acc p).work) page false +
          ends s.state.file (fun p => (acc p).work) page true := by
        rcases hopen with hopen | hopen
        · exact Nat.add_pos_left ((hok.ends_pos hidle).2 hopen) _
        · exact Nat.add_pos_right _ ((hok.ends_pos hidle).2 hopen)
      obtain ⟨hreadopen, hwriteopen⟩ := hok.pipes.flags page hpos
      exact ⟨hreadopen.trans (hok.ends_pos hidle), hwriteopen.trans (hok.ends_pos hidle)⟩
    · have hcount := hok.pipes.count page
      rw [← hok.ends_pos hidle] at hread hwrite
      rw [hok.between_eq_zero hidle, if_neg (by omega)] at hcount
      omega
  · obtain ⟨acc, hacc⟩ := accounts_of_reachable h
    have hok : Ok s.state acc := hacc.inv
    refine ⟨fun page w hopen => hok.not_freed hopen, fun page => ⟨?_, hok.pipes.single page⟩⟩
    have hcount := hok.pipes.count page
    omega

/-- After `pipe` both ends are open, with one descriptor each. -/
theorem open_file_counts_pipe : ∃ (s : Pool Slot Sys Act Int) (f g : FileId),
    (machine smallArea).Reachable s ∧ Quiet s ∧ references s.state f = 1 ∧
    references s.state g = 1 ∧ (s.state.pipe 1).readopen = true ∧
    s.state.allocs 1 = s.state.frees 1 + 1 := by
  obtain ⟨s, hreach, hobs⟩ := reach_start smallArea smallDisk (C := fun _ _ => True) (Pool.alone initproc .pipe 6)
    (P := fun s => decide (Quiet s ∧ (s.state.file ⟨0, by decide⟩).ref = 1 ∧
      (s.state.file ⟨1, by decide⟩).ref = 1 ∧ (s.state.file ⟨0, by decide⟩).IsEnd 1 false))
    (by decide +kernel)
  obtain ⟨hquiet, hzero, hone, hend⟩ := of_decide_eq_true hobs
  obtain ⟨hcalm, hopen, _⟩ := open_file_counts hreach
  obtain ⟨href, hflags, _⟩ := hcalm hquiet
  have hread : OpenEnd s.state 1 false := ⟨⟨0, by decide⟩, by omega, hend⟩
  exact ⟨s, _, _, hreach, hquiet, (href _).symm.trans hzero, (href _).symm.trans hone,
    (hflags 1 (.inl hread)).1.2 hread, hopen 1 false hread⟩

/-! ## Inodes -/

/-- The open files and the live processes in the directory that refer to the entry. -/
def inodeReferences (s : Sys) (e : Entry) : Nat :=
  (Finset.univ.filter fun f =>
    (s.file f).type = .FD_INODE ∧ 0 < (s.file f).ref ∧ (s.file f).ip = e).card +
    (Finset.univ.filter fun p => s.life p = .live ∧ s.cwd p = some e).card

theorem Ok.live_of_cwd (h : Ok s acc) (hidle : ∀ p, (acc p).running = false) {e : Entry}
    (hcwd : s.cwd p = some e) : s.life p = .live := by
  cases hlife : s.life p with
  | live => rfl
  | embryo =>
    obtain ⟨q, c, hc, _⟩ := h.tables.embryo p hlife
    rw [(h.tables.rest q (hidle q)).1.child] at hc
    cases hc
  | unused =>
    rw [h.tables.cwd, (h.tables.dead p (.inl hlife)).2] at hcwd
    cases hcwd
  | zombie =>
    rw [h.tables.cwd, (h.tables.dead p (.inr hlife)).2] at hcwd
    cases hcwd

theorem Ok.kept_eq (h : Ok s acc) (hidle : ∀ p, (acc p).running = false) (e : Entry) :
    kept s.file (fun p => (acc p).cwdRef) e = inodeReferences s e := by
  have hfiles : (∑ f, if (s.file f).type = .FD_INODE ∧ (s.file f).ip = e then 1 else 0) =
      ∑ f, if (s.file f).type = .FD_INODE ∧ 0 < (s.file f).ref ∧ (s.file f).ip = e then 1
        else 0 := by
    refine Finset.sum_congr rfl fun f _ => if_congr ?_ rfl rfl
    refine ⟨fun ⟨htype, hip⟩ => ⟨htype, Nat.pos_of_ne_zero fun hzero => ?_, hip⟩,
      fun ⟨htype, _, hip⟩ => ⟨htype, hip⟩⟩
    rw [h.files.closed f hzero] at htype
    cases htype
  have hcwds : (∑ p, if (acc p).cwdRef = some e then 1 else 0) =
      ∑ p, if s.life p = .live ∧ s.cwd p = some e then 1 else 0 := by
    refine Finset.sum_congr rfl fun p _ => if_congr ?_ rfl rfl
    rw [(h.tables.rest p (hidle p)).1.cwdRef, ← h.tables.cwd]
    exact ⟨fun hcwd => ⟨h.live_of_cwd hidle hcwd, hcwd⟩, And.right⟩
  unfold kept inodeReferences
  rw [Finset.card_filter, Finset.card_filter, hfiles, hcwds]

/-- Between calls no two entries of the cache are for one inode, each entry has as many
references as there are open files and working directories for it, and none is locked. -/
theorem inode_counts {s : Pool Slot Sys Act Int} (h : (machine a).Reachable s)
    (hquiet : Quiet s) :
    (∀ e e', 0 < (s.state.fs.icache e).ref → 0 < (s.state.fs.icache e').ref →
      (s.state.fs.icache e).dev = (s.state.fs.icache e').dev →
      (s.state.fs.icache e).inum = (s.state.fs.icache e').inum → e = e') ∧
    ∀ e, (s.state.fs.icache e).ref = inodeReferences s.state e ∧
      (s.state.fs.icache e).busy = false := by
  obtain ⟨acc, hok, hidle⟩ := accounts_of_quiet h hquiet
  refine ⟨hok.inodes.unique, fun e => ⟨?_, ?_⟩⟩
  · have hhand : ∀ p, (acc p).fs.hand e = 0 := fun p =>
      congrFun (hok.tables.rest p (hidle p)).1.hand e
    have href := hok.inodes.ref e
    simp only [hhand, Finset.sum_const_zero] at href
    rw [href, ← hok.kept_eq hidle]
    rfl
  · have hlock : ∀ p, (acc p).fs.lock e = false := fun p =>
      congrFun (hok.tables.rest p (hidle p)).1.lock e
    have hbusy := hok.inodes.busy e
    simp only [hlock, Bool.toNat_false, Finset.sum_const_zero] at hbusy
    cases h : (s.state.fs.icache e).busy with
    | false => rfl
    | true =>
      rw [h] at hbusy
      cases hbusy

/-- After `fork` the root directory is the working directory of two processes. -/
theorem inode_counts_fork : ∃ s : Pool Slot Sys Act Int, (machine smallArea).Reachable s ∧
    Quiet s ∧ inodeReferences s.state rootEntry = 2 := by
  obtain ⟨s, hreach, hobs⟩ := reach_start smallArea smallDisk (C := fun _ _ => True)
    (Pool.alone initproc (.fork true) 21)
    (P := fun s => decide (Quiet s ∧ (s.state.fs.icache rootEntry).ref = 2)) (by decide +kernel)
  obtain ⟨hquiet, htwo⟩ := of_decide_eq_true hobs
  have hcount := ((inode_counts hreach hquiet).2 rootEntry).1
  exact ⟨s, hreach, hquiet, by omega⟩

end Xv6.Files
