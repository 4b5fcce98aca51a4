import Xv6.Volume.FileContent
import Xv6.Files.Seek
import Xv6.Lib.Overwrite

/-!
# `filewrite`

`filewrite` calls `writei` for a few blocks at a time, each call in a transaction of its own.  As
long as there are free blocks, the calls do together what one call would do to the contents.
-/

namespace Xv6.Volume

open Xv6.Lib Xv6.Fs Xv6.Files Xv6.Sched

variable {a : LogArea} {g : Layout a} {w w' : World}

/-! ## The contents in a state -/

def contentOf (s : FsState) (e : Entry) : List UInt8 :=
  (Image.mk (fun _ => (s.icache e).copy) (fun _ => true) s.disk).content 0

section ContentOf

variable {s : FsState} {e : Entry} {i : Nat}

theorem At.blk_ptr (hat : At g s w) (ho : Owned g w.image) {x : Nat × Nat}
    (hx : w.image.ptr g x ≠ 0) : s.disk (w.image.ptr g x) = w.image.blk (w.image.ptr g x) :=
  (hat.home _ (ho.low x)).data (ho.owns.used x hx).1

theorem Usable.contentOf_eq (h : Usable g w e i) (hat : At g s w) :
    contentOf s e = w.image.content i := by
  have hsame := hat.copy e h.ref h.valid
  rw [h.inum] at hsame
  let m : Image := ⟨fun _ => (s.icache e).copy, fun _ => true, s.disk⟩
  have hslot : ∀ k, m.slot i k = w.image.slot i k := by
    apply slot_congr hsame.addrs
    intro hne
    rw [← ptr_indirect h.isLive] at hne ⊢
    exact hat.blk_ptr h.owned hne
  have hbyte : ∀ o < MAXFILE * BSIZE, m.byte i o = w.image.byte i o := by
    intro o ho
    have hn : o / BSIZE < MAXFILE := Nat.div_lt_of_lt_mul (by rwa [Nat.mul_comm])
    unfold Image.byte Image.fptr
    rw [hslot]
    split_ifs with hzero
    · rfl
    · change w.image.fptr i (o / BSIZE) ≠ 0 at hzero
      change (s.disk (w.image.fptr i (o / BSIZE))).byte _ = _
      rw [← ptr_fptr h.isLive hn] at hzero
      rw [← ptr_fptr h.isLive hn, hat.blk_ptr h.owned hzero, ptr_fptr h.isLive hn]
      rfl
  change m.bytes i 0 (s.icache e).copy.size = w.image.bytes i 0 (w.image.node i).size
  rw [hsame.size]
  apply bytes_congr
  intro k hk
  have hsize := h.size
  exact hbyte _ (by omega)

end ContentOf

/-! ## One turn of `filewrite` -/

theorem fs_run {α : Type} {m : FsM α} {s : Sys} {r : α} {t : FsState}
    (h : m.run s.fs = .ok (r, t)) : (fs m).run s = .ok (r, { s with fs := t }) := by
  unfold fs
  refine Prog.run_lift_of_ok ?_ ?_ ?_ h
  · exact fun _ _ => rfl
  · exact fun _ _ _ => rfl
  · exact fun _ => rfl

/-- Between two calls: the file is open for writing, and there are free blocks for all that it
can grow to. -/
structure Ready (g : Layout a) (s : Sys) (f : FileId) (i : Nat) (w : World) : Prop where
  stands : At g s.fs w
  type : (s.file f).type = .FD_INODE
  writable : (s.file f).writable = true
  usable : Usable g w (s.file f).ip i
  idle : (w.key (s.file f).ip).busy = false
  trans : w.trans = none
  logged : w.logged = ∅
  blocks : w.image.lacks i 0 MAXFILE ≤ w.image.avail g

/-- Room in the log for what one turn of `filewrite` writes: four blocks of data, the indirect
block, the inode and the bitmap. -/
def Roomy (g : Layout a) : Prop := g.bitmap.card + 6 < min LOGSIZE (a.size - 1)

def World.enter (w : World) (p : Slot) (e : Entry) : World :=
  World.locked { w with trans := some p } e

def World.leave (w : World) (e : Entry) : World :=
  { w.lock e false with logged := ∅, trans := none }

section Turn

variable {s : Sys} {f : FileId} {i : Nat} {p : Slot} {e : Entry}

theorem Ready.begin (h : Ready g s f i w) (p : Slot) :
    (beginTrans p).run s.fs = .ok ((), { s.fs with trans := some p }) := by
  simp [Files.beginTrans, Prog.atomic, Prog.run, h.stands.trans, h.trans]

theorem Ready.enter (h : Ready g s f i w) (p : Slot) : ∃ t,
    (ilock (s.file f).ip).run { s.fs with trans := some p } = .ok ((), t) ∧
    At g t (w.enter p (s.file f).ip) := by
  obtain ⟨_, t₁, w₁, hbegin, hat₁, rfl⟩ := Takes.run
    (takes_beginTrans (R := fun _ w' => w' = { w with trans := some p }) (.inr h.trans)
      fun _ => rfl) h.stands
  obtain rfl : _ = t₁ := by simpa [h.begin p] using hbegin
  have hclear : World.Clear g { w with trans := some p } := by
    intro x hx
    rw [h.usable.held] at hx
    exact absurd hx (Finset.notMem_empty x)
  have hload : (w.key (s.file f).ip).valid = false → ¬ w.dirty (w.key (s.file f).ip).inum ∧
      ((w.image.node (w.key (s.file f).ip).inum).type = 0 → False) := by
    intro hvalid
    rw [h.usable.valid] at hvalid
    cases hvalid
  obtain ⟨_, t₂, w₂, hlock, hat₂, rfl⟩ := Takes.run
    (takes_ilock (w := { w with trans := some p }) (R := fun _ w' => w' = w.enter p (s.file f).ip)
      h.usable.ref (.inr h.idle) hclear hload fun _ _ => rfl) hat₁
  exact ⟨t₂, hlock, hat₂⟩

theorem World.enter_usable (h : Usable g w e i) (p : Slot) : Usable g (w.enter p e) e i := by
  have hkey : (w.enter p e).key e = { w.key e with busy := true, valid := true } :=
    Function.update_self ..
  exact ⟨by rw [hkey]; exact h.inum, by rw [hkey]; exact h.ref, by rw [hkey], h.live, h.type,
    h.size, h.owned, h.held⟩

theorem At.leave {t : FsState} (hat : At g t w) (href : 0 < (w.key e).ref)
    (hbusy : (w.key e).busy = true) (hheld : w.held = ∅) : ∃ t₁ t₂,
    (iunlock e).run t = .ok ((), t₁) ∧ (Files.commitTrans a).run t₁ = .ok ((), t₂) ∧
    At g t₂ (w.leave e) := by
  obtain ⟨_, t₁, w₁, hunlock, hat₁, rfl⟩ := Takes.run
    (takes_iunlock (R := fun _ w' => w' = w.lock e false) href hbusy rfl) hat
  obtain ⟨_, t₂, w₂, hcommit, hat₂, rfl⟩ := Takes.run
    (takes_commitTrans (w := w.lock e false) (R := fun _ w' => w' = w.leave e) hheld rfl) hat₁
  exact ⟨t₁, t₂, hunlock, hcommit, hat₂⟩

structure Wrote (g : Layout a) (f : FileId) (i : Nat) (src : Nat → UInt8) (m : Nat) (s : Sys)
    (w : World) (s' : Sys) (w' : World) : Prop where
  ready : Ready g s' f i w'
  ip : (s'.file f).ip = (s.file f).ip
  off : (s'.file f).off = (s.file f).off + m
  content : w'.image.content i =
    overwrite (w.image.content i) (s.file f).off ((List.range m).map src)
  others : SameOthers g i w w'
  ptr : ∀ x, w.image.ptr g x ≠ 0 → w'.image.ptr g x = w.image.ptr g x

variable {src : Nat → UInt8} {n : Nat}

theorem Ready.wrote_nothing {s' : Sys} (h : Ready g s' f i w) (hfile : s'.file f = s.file f) :
    Wrote g f i src 0 s w s' w :=
  ⟨h, by rw [hfile], by rw [hfile]; rfl, overwrite_nil.symm, .refl w, fun _ _ => rfl⟩

theorem World.lock_locked (hidle : (w.key e).busy = false) (hvalid : (w.key e).valid = true) :
    (w.locked e).lock e false = w := by
  have hkey : ∀ k : Key, k.busy = false → k.valid = true →
      ({ k with busy := false, valid := true } : Key) = k := by
    rintro ⟨_, _, _, _, _⟩ rfl rfl
    rfl
  have hupdate : Function.update (Function.update w.key e
      { w.key e with busy := true, valid := true }) e { (Function.update w.key e
        { w.key e with busy := true, valid := true }) e with busy := false } = w.key := by
    rw [Function.update_self, Function.update_idem]
    change Function.update w.key _ { w.key e with busy := false, valid := true } = _
    rw [hkey _ hidle hvalid, Function.update_eq_self]
  unfold World.lock World.locked World.setKey
  rw [hupdate]

theorem Ready.leave_enter (h : Ready g s f i w) :
    (w.enter p (s.file f).ip).leave (s.file f).ip = w := by
  unfold World.enter World.leave
  rw [World.lock_locked (w := { w with trans := some p }) h.idle h.usable.valid, ← h.trans,
    ← h.logged]

theorem Ready.provided (h : Ready g s f i w) (hroom : Roomy g) {off : Nat} (hle : n ≤ MAXWRITE)
    (hmax : off + n ≤ MAXFILE * BSIZE) :
    Provided g (w.enter p (s.file f).ip) i (off / BSIZE) (stopBlock off n) where
  trans := rfl
  blocks := by
    refine (lacks_le_all ?_).trans h.blocks
    unfold stopBlock MAXFILE NDIRECT NINDIRECT BSIZE at *
    split_ifs <;> omega
  room := by
    have hfour : stopBlock off n - off / BSIZE ≤ 4 := by
      have hwrite : MAXWRITE = 1536 := rfl
      unfold stopBlock BSIZE at *
      split_ifs <;> omega
    change (w.logged ∪ g.bitmap).card + _ + 2 < _
    unfold Roomy at hroom
    rw [h.logged, Finset.empty_union]
    omega

theorem Ready.leave (h : Ready g s f i w) {off : Nat} (hmax : off + n ≤ MAXFILE * BSIZE)
    (hwrites : Writes g i off n src (w.enter p (s.file f).ip) w')
    (hspares : Spares g i (w.enter p (s.file f).ip) w') {s' : Sys}
    (hat : At g s'.fs (w'.leave (s.file f).ip)) (htype : (s'.file f).type = .FD_INODE)
    (hwritable : (s'.file f).writable = true) (hip : (s'.file f).ip = (s.file f).ip) :
    Ready g s' f i (w'.leave (s.file f).ip) := by
  have hkey : (w'.leave (s.file f).ip).key (s.file f).ip =
      { w.key (s.file f).ip with busy := false, valid := true } := by
    have hlock : w'.key (s.file f).ip =
        { w.key (s.file f).ip with busy := true, valid := true } := by
      rw [hwrites.key]
      exact Function.update_self ..
    change Function.update w'.key _ { w'.key (s.file f).ip with busy := false } _ = _
    rw [Function.update_self, hlock]
  have husable : Usable g (w'.leave (s.file f).ip) (s.file f).ip i := by
    refine ⟨by rw [hkey]; exact h.usable.inum, by rw [hkey]; exact h.usable.ref, by rw [hkey],
      h.usable.live, ?_, ?_, hwrites.owned, hwrites.held.trans h.usable.held⟩
    · change (w'.image.node i).type = _ ∨ (w'.image.node i).type = _
      rw [hwrites.alike.type]
      exact h.usable.type
    · change (w'.image.node i).size ≤ _
      rw [hwrites.alike.size]
      exact max_le h.usable.size hmax
  refine ⟨hat, htype, hwritable, by rwa [hip], by rw [hip, hkey], rfl, rfl, ?_⟩
  change w'.image.lacks i 0 MAXFILE ≤ w'.image.avail g
  have hblocks := h.blocks
  change w.image.avail g + _ ≤ _ + w.image.lacks i 0 MAXFILE at hspares
  omega

/-- What `writei` is asked for fits into the file. -/
def FitsAt (s : Sys) (f : FileId) (i n : Nat) (w : World) : Prop :=
  (s.file f).off ≤ (w.image.node i).size ∧ (s.file f).off + n ≤ MAXFILE * BSIZE

variable (src) in
theorem Ready.writei (h : Ready g s f i w) {t : FsState} (hat : At g t (w.enter p (s.file f).ip))
    (hok : FitsAt s f i n w) (hprovided : Provided g (w.enter p (s.file f).ip) i
      ((s.file f).off / BSIZE) (stopBlock (s.file f).off n)) : ∃ t' w',
    (Files.writei a (s.file f).ip src (s.file f).off n).run t = .ok ((n : Int), t') ∧ At g t' w' ∧
      Writes g i (s.file f).off n src (w.enter p (s.file f).ip) w' ∧
      Spares g i (w.enter p (s.file f).ip) w' := by
  have husable := World.enter_usable h.usable p
  have hsmall : MAXFILE * BSIZE < 2 ^ 32 := by decide
  have hfits : ¬ (Refused (w.image.node i).size (s.file f).off n ∨
      MAXFILE * BSIZE < (s.file f).off + n) := by
    unfold Refused
    have := hok.1
    have := hok.2
    omega
  obtain ⟨r, t', w', hwrite, hat', rfl, hrest⟩ := Takes.run
    (takes_writei (R := fun r w' => r = (n : Int) ∧
        Writes g i (s.file f).off n src (w.enter p (s.file f).ip) w' ∧
        Spares g i (w.enter p (s.file f).ip) w')
      husable.inum husable.ref husable.valid husable.owned husable.isLive husable.held husable.ne_dev
      husable.size (fun _ _ => hprovided.budget) (fun hno => absurd hno hfits)
      fun _ _ w' hwrites hspares => ⟨rfl, hwrites, hspares⟩) hat
  exact ⟨t', w', hwrite, hat', hrest⟩

theorem writeTurn_run {ip : Entry} {r : Int} {s₁ s₂ : Sys} {t₂ t₃ t₄ t₅ : FsState}
    (hlock : (ilock ip).run s.fs = .ok ((), t₂))
    (hwrite : (writei a ip src (s.file f).off n).run t₂ = .ok (r, t₃))
    (hoff : (Prog.when (0 < r) (change fun s => s.setFile f
      { s.file f with off := ((s.file f).off + r.toNat) % 2 ^ 32 })).run { s with fs := t₃ } =
      .ok ((), s₁))
    (hunlock : (iunlock ip).run s₁.fs = .ok ((), t₄))
    (hcommit : (Files.commitTrans a).run t₄ = .ok ((), t₅)) (hend : { s₁ with fs := t₅ } = s₂) :
    (writeTurn a f ip src n).run s = .ok (r, s₂) := by
  subst hend
  refine (Prog.run_bind_of_ok (fs_run hlock)).trans ?_
  refine (Prog.run_bind_of_ok (a := (s.file f).off) (t := { s with fs := t₂ }) rfl).trans ?_
  refine (Prog.run_bind_of_ok (fs_run (s := { s with fs := t₂ }) hwrite)).trans ?_
  refine (Prog.run_bind_of_ok hoff).trans ?_
  refine (Prog.run_bind_of_ok (fs_run hunlock)).trans ?_
  exact Prog.run_bind_of_ok (fs_run (s := { s₁ with fs := t₄ }) hcommit)

/-- The state after `begin_trans`. -/
def begun (s : Sys) (p : Slot) : Sys := { s with fs := { s.fs with trans := some p } }

variable (p src) in
theorem Ready.turn_refused (h : Ready g s f i w) (hno : ¬ FitsAt s f i n w) :
    ∃ s', (writeTurn a f (s.file f).ip src n).run (begun s p) = .ok (-1, s') ∧
      Wrote g f i src 0 s w s' w := by
  obtain ⟨t₂, hlock, hat₂⟩ := h.enter p
  have husable := World.enter_usable h.usable p
  have hkey : (w.enter p (s.file f).ip).key (s.file f).ip =
      { w.key (s.file f).ip with busy := true, valid := true } := Function.update_self ..
  have hrefused : Refused ((w.enter p (s.file f).ip).image.node i).size (s.file f).off n ∨
      MAXFILE * BSIZE < (s.file f).off + n := by
    change Refused (w.image.node i).size _ _ ∨ _
    unfold Refused
    unfold FitsAt at hno
    omega
  have hwrite := husable.writei_refused hat₂ src hrefused
  obtain ⟨t₄, t₅, hunlock, hcommit, hat₅⟩ := hat₂.leave husable.ref (by rw [hkey]) husable.held
  rw [h.leave_enter] at hat₅
  refine ⟨{ s with fs := t₅ }, writeTurn_run hlock hwrite rfl hunlock hcommit rfl, ?_⟩
  have hready : Ready g { s with fs := t₅ } f i w :=
    ⟨hat₅, h.type, h.writable, h.usable, h.idle, h.trans, h.logged, h.blocks⟩
  exact hready.wrote_nothing rfl

variable (p src) in
theorem Ready.turn_written (h : Ready g s f i w) (hok : FitsAt s f i n w) (hpos : 0 < n)
    (hprovided : Provided g (w.enter p (s.file f).ip) i ((s.file f).off / BSIZE)
      (stopBlock (s.file f).off n)) :
    ∃ s' w', (writeTurn a f (s.file f).ip src n).run (begun s p) = .ok ((n : Int), s') ∧
      Wrote g f i src n s w s' w' := by
  obtain ⟨t₂, hlock, hat₂⟩ := h.enter p
  obtain ⟨t₃, w₃, hwrite, hat₃, hwrites, hspares⟩ := h.writei src hat₂ hok hprovided
  have hkey : w₃.key (s.file f).ip =
      { w.key (s.file f).ip with busy := true, valid := true } := by
    rw [hwrites.key]
    exact Function.update_self ..
  obtain ⟨t₄, t₅, hunlock, hcommit, hat₅⟩ := hat₃.leave (by rw [hkey]; exact h.usable.ref)
    (by rw [hkey]) (hwrites.held.trans h.usable.held)
  let s₃ : Sys := Sys.setFile { s with fs := t₃ } f
    { s.file f with off := ((s.file f).off + (n : Int).toNat) % 2 ^ 32 }
  have hsmall : MAXFILE * BSIZE < 2 ^ 32 := by decide
  have hmax := hok.2
  have hfile : s₃.file f = { s.file f with off := (s.file f).off + n } := by
    change Function.update s.file f _ f = _
    rw [Function.update_self, Int.toNat_natCast, Nat.mod_eq_of_lt (by omega)]
  have hoff : (Prog.when (0 < (n : Int)) (change fun s => s.setFile f
      { s.file f with off := ((s.file f).off + (n : Int).toNat) % 2 ^ 32 })).run
      { s with fs := t₃ } = .ok ((), s₃) := by
    rw [Prog.when, if_pos (by omega)]
    rfl
  refine ⟨{ s₃ with fs := t₅ }, w₃.leave (s.file f).ip,
    writeTurn_run hlock hwrite hoff hunlock hcommit rfl, ?_⟩
  refine ⟨h.leave hmax hwrites hspares hat₅ (by rw [hfile]; exact h.type)
    (by rw [hfile]; exact h.writable) (by rw [hfile]), by rw [hfile], by rw [hfile], ?_, ?_,
    hwrites.ptr⟩
  · rw [overwrite, List.length_map, List.length_range]
    exact content_overwrites hwrites.overwrites hwrites.alike.size hok.1 h.usable.size hmax
  · have hback : ((w.enter p (s.file f).ip).leave (s.file f).ip).key = w.key :=
      congrArg World.key h.leave_enter
    refine ⟨hwrites.node, hwrites.sameOthers.content, ?_, hwrites.dirty⟩
    rw [← hback]
    change Function.update w₃.key _ { w₃.key _ with busy := false } = _
    rw [hwrites.key]
    rfl

/-! ## What stays -/

/-- The descriptors and the files are as they were in `s₀`, but for the offset of the file. -/
structure Stable (s₀ : Sys) (f : FileId) (s : Sys) : Prop where
  ofile : s.ofile = s₀.ofile
  file : ∃ off, s.file f = { s₀.file f with off := off }
  other : ∀ f', f' ≠ f → s.file f' = s₀.file f'

section Stable

variable {s₀ : Sys} {α : Type}

theorem Stable.refl (s₀ : Sys) (f : FileId) : Stable s₀ f s₀ :=
  ⟨rfl, ⟨(s₀.file f).off, rfl⟩, fun _ _ => rfl⟩

theorem Stable.openFile_eq (hs : Stable s₀ f s) (p : Slot) (fd : Int) :
    openFile s p fd = openFile s₀ p fd := by
  unfold openFile
  rw [hs.ofile]

theorem Stable.setFs (hs : Stable s₀ f s) (t : FsState) : Stable s₀ f { s with fs := t } :=
  ⟨hs.ofile, hs.file, hs.other⟩

theorem Stable.setOff (hs : Stable s₀ f s) (off : Nat) :
    Stable s₀ f (s.setFile f { s.file f with off := off }) := by
  obtain ⟨off', hfile⟩ := hs.file
  refine ⟨hs.ofile, ⟨off, ?_⟩, fun f' hf' => ?_⟩
  · change Function.update _ f _ f = _
    rw [Function.update_self, hfile]
  · exact (Function.update_of_ne hf' ..).trans (hs.other f' hf')

theorem stable_fs (m : FsM α) : (fs m).Keeps (Stable s₀ f) :=
  (Prog.keeps_trivial m).lift (fun _ _ => trivial) fun t _ _ hs => hs.setFs t

theorem stable_look (r : Sys → α) : (look r).Keeps (Stable s₀ f) := by
  apply Prog.keeps_atomic
  rintro s _ _ hs ⟨⟩
  exact hs

theorem stable_writeTurn (ip : Entry) (src : Nat → UInt8) (n : Nat) :
    (writeTurn a f ip src n).Keeps (Stable s₀ f) := by
  refine (stable_fs _).bind fun _ => (stable_look _).bind fun off => (stable_fs _).bind fun r => ?_
  refine Prog.Keeps.bind (Prog.keeps_when (Prog.keeps_atomic ?_)) fun _ =>
    (stable_fs _).bind fun _ => (stable_fs _).bind fun _ => trivial
  rintro s _ _ hs ⟨⟩
  exact hs.setOff _

theorem stable_halt (msg : String) : (Files.halt msg : SysM α).Keeps (Stable s₀ f) := by
  apply Prog.keeps_atomic
  rintro s _ _ _ ⟨⟩

theorem stable_filewriteFrom (p : Slot) (ip : Entry) (fuel : Nat) (src : Nat → UInt8) (n : Nat) :
    (filewriteFrom a p f ip fuel src n).Keeps (Stable s₀ f) := by
  induction fuel generalizing src n with
  | zero => trivial
  | succ fuel ih =>
    refine Prog.keeps_ite trivial ((stable_fs _).bind fun _ => ?_)
    refine (stable_writeTurn ip src _).bind fun r => ?_
    exact Prog.keeps_ite trivial (Prog.keeps_ite (stable_halt _) (ih _ _))

theorem stable_filewrite (p : Slot) (src : Nat → UInt8) (n : Int) :
    (filewrite a p f src n).Keeps (Stable s₀ f) := by
  refine (stable_look _).bind fun ff => Prog.keeps_ite trivial ?_
  cases ff.type with
  | FD_NONE => exact stable_halt _
  | FD_PIPE => trivial
  | FD_INODE =>
    exact Prog.keeps_ite trivial ((stable_filewriteFrom p _ _ src _).bind fun _ => trivial)

end Stable

/-! ## The loops -/

theorem Wrote.trans {m k : Nat} {s₁ s₂ : Sys} {w₁ w₂ : World}
    (h : Wrote g f i src m s w s₁ w₁) (h' : Wrote g f i (fun j => src (j + m)) k s₁ w₁ s₂ w₂)
    (hoff : (s.file f).off ≤ (w.image.node i).size) : Wrote g f i src (m + k) s w s₂ w₂ := by
  have hcontent : w₂.image.content i =
      overwrite (w.image.content i) (s.file f).off ((List.range (m + k)).map src) := by
    have hlen : ((List.range m).map src).length = m := by
      rw [List.length_map, List.length_range]
    have hsplit : (List.range (m + k)).map src =
        (List.range m).map src ++ (List.range k).map fun j => src (j + m) := by
      rw [List.range_add, List.map_append, List.map_map]
      congr 2
      funext j
      rw [Function.comp, Nat.add_comm]
    have hle : (s.file f).off ≤ (w.image.content i).length := by rwa [length_content]
    rw [h'.content, h.content, h.off, hsplit, ← overwrite_overwrite hle, hlen]
  refine ⟨h'.ready, h'.ip.trans h.ip, by rw [h'.off, h.off, Nat.add_assoc], hcontent,
    h.others.trans h'.others, fun x hx => ?_⟩
  have hfirst := h.ptr x hx
  exact (h'.ptr x (by rwa [hfirst])).trans hfirst

theorem Wrote.size {m : Nat} {s' : Sys} (h : Wrote g f i src m s w s' w')
    (hoff : (s.file f).off ≤ (w.image.node i).size) :
    (w'.image.node i).size = max (w.image.node i).size ((s.file f).off + m) := by
  rw [← length_content, h.content, length_overwrite (by rw [length_content]; exact hoff),
    length_content, List.length_map, List.length_range]

variable (p src n) in
theorem filewriteFrom_run (hroom : Roomy g) (fuel : Nat) (h : Ready g s f i w) (hn : n ≤ fuel) :
    ∃ m ≤ n, ∃ s' w', Wrote g f i src m s w s' w' ∧
      (filewriteFrom a p f (s.file f).ip fuel src n).run s = .ok (decide (m = n), s') ∧
      ((s.file f).off ≤ (w.image.node i).size → (s.file f).off + n ≤ MAXFILE * BSIZE → m = n) ∧
      ((w.image.node i).size < (s.file f).off → m = 0) := by
  induction fuel generalizing n src s w with
  | zero =>
    obtain rfl : n = 0 := by omega
    exact ⟨0, le_refl 0, s, w, h.wrote_nothing rfl, rfl, fun _ _ => rfl, fun _ => rfl⟩
  | succ fuel ih =>
    by_cases hzero : n = 0
    · subst hzero
      exact ⟨0, le_refl 0, s, w, h.wrote_nothing rfl, rfl, fun _ _ => rfl, fun _ => rfl⟩
    have hpos : 0 < min n MAXWRITE := lt_min (by omega) (by decide)
    have hbegin : (fs (beginTrans p)).run s = .ok ((), begun s p) := fs_run (h.begin p)
    rw [filewriteFrom, if_neg hzero]
    by_cases hok : FitsAt s f i (min n MAXWRITE) w
    · obtain ⟨s₁, w₁, hturn, hwrote⟩ := h.turn_written p src hok hpos
        (h.provided hroom (min_le_right _ _) hok.2)
      obtain ⟨m, hle, s₂, w₂, hrest, hrun, hall, _⟩ := ih
        (fun k => src (k + min n MAXWRITE)) (n - min n MAXWRITE) hwrote.ready (by omega)
      have hsize := hwrote.size hok.1
      refine ⟨min n MAXWRITE + m, by omega, s₂, w₂, hwrote.trans hrest hok.1, ?_, ?_, ?_⟩
      · refine (Prog.run_bind_of_ok hbegin).trans ?_
        refine (Prog.run_bind_of_ok hturn).trans ?_
        rw [if_neg (by omega), if_neg (by simp), ← hwrote.ip, hrun]
        congr 3
        apply propext
        omega
      · intro _ hmax
        have hm := hall (by rw [hwrote.off, hsize]; omega) (by rw [hwrote.off]; omega)
        omega
      · intro hlt
        exact absurd hok.1 (Nat.not_le.2 hlt)
    · obtain ⟨s₁, hturn, hwrote⟩ := h.turn_refused p src hok
      refine ⟨0, Nat.zero_le n, s₁, w, hwrote, ?_, fun hle hmax => ?_, fun _ => rfl⟩
      · refine (Prog.run_bind_of_ok hbegin).trans ?_
        refine (Prog.run_bind_of_ok hturn).trans ?_
        rw [if_pos (by decide), decide_eq_false (Ne.symm hzero)]
        rfl
      · exact absurd ⟨hle, by omega⟩ hok

variable (p src n) in
theorem filewrite_run (hroom : Roomy g) (h : Ready g s f i w) :
    ∃ m ≤ n, ∃ s' w', Wrote g f i src m s w s' w' ∧
      (filewrite a p f src n).run s = .ok (if m = n then (n : Int) else -1, s') ∧
      ((s.file f).off ≤ (w.image.node i).size → (s.file f).off + n ≤ MAXFILE * BSIZE → m = n) ∧
      ((w.image.node i).size < (s.file f).off → m = 0) := by
  obtain ⟨m, hle, s', w', hwrote, hrun, hrest⟩ :=
    filewriteFrom_run p src n hroom n h (le_refl n)
  refine ⟨m, hle, s', w', hwrote, ?_, hrest⟩
  refine (Prog.run_bind_of_ok (a := s.file f) (t := s) rfl).trans ?_
  rw [h.writable, h.type, if_neg (by decide)]
  dsimp only
  rw [if_neg (by omega), Int.toNat_natCast]
  refine (Prog.run_bind_of_ok hrun).trans ?_
  simp only [decide_eq_true_eq]
  rfl

theorem Ready.fileSize_eq (h : Ready g s f i w) : fileSize s f = (w.image.node i).size := by
  have hsame := h.stands.copy _ h.usable.ref h.usable.valid
  rw [h.usable.inum] at hsame
  exact hsame.size

theorem Ready.contentOf_eq (h : Ready g s f i w) :
    contentOf s.fs (s.file f).ip = w.image.content i :=
  h.usable.contentOf_eq h.stands

theorem Wrote.contentOf_eq {m : Nat} {s' : Sys} (h : Wrote g f i src m s w s' w')
    (hready : Ready g s f i w) : contentOf s'.fs (s.file f).ip =
      overwrite (contentOf s.fs (s.file f).ip) (s.file f).off ((List.range m).map src) := by
  rw [← h.ip, h.ready.contentOf_eq, h.content, h.ip, hready.contentOf_eq]

/-- A single `writei` of all the bytes in one transaction. -/
def writeOnce (a : LogArea) (p : Slot) (f : FileId) (ip : Entry) (src : Nat → UInt8) (n : Nat) :
    SysM Int := do
  fs (beginTrans p)
  writeTurn a f ip src n

end Turn

/-! ## A file of five bytes

The root directory in block 5, the file in block 6, and free blocks up to the log. -/

def seekArea : LogArea := ⟨190, 10, by decide⟩

def seekLayout : Layout seekArea := ⟨⟨200, 185, 4, 10⟩, by decide, by decide⟩

def hello : List UInt8 := [104, 101, 108, 108, 111]

def seekDisk : Nat → Block
  | 1 => Superblock.encode ⟨200, 185, 4, 10⟩
  | 2 => Dinode.encode ⟨T_FILE, 0, 0, 1, 5, fun k => if k = 0 then 6 else 0⟩
      (Dinode.encode ⟨T_DIR, 0, 0, 1, 48, fun k => if k = 0 then 5 else 0⟩ zeroBlock ROOTINO) 2
  | 4 => zeroBlock.set 0 1 127
  | 5 => blit smallRoot 32 (direntBytes 2 [102]) 16
  | 6 => blit zeroBlock 0 (fun k => hello.getD k 0) 5
  | _ => zeroBlock

theorem formatted_seek : Formatted seekLayout seekDisk where
  super := by
    have hfields : (seekDisk 1).get 0 4 = 200 ∧ (seekDisk 1).get 4 4 = 185 ∧
        (seekDisk 1).get 8 4 = 4 ∧ (seekDisk 1).get 12 4 = 10 := by decide +kernel
    obtain ⟨hsize, hnblocks, hninodes, hnlog⟩ := hfields
    rw [Superblock.decode, hsize, hnblocks, hninodes, hnlog]
    rfl
  root := by decide
  reserved := by decide +kernel

theorem nodes_seek : (∀ i < 4, ((Image.ofDisk seekLayout seekDisk).node i).type ≠ 0 →
      (i = ROOTINO ∨ i = 2) ∧ ∀ k ≤ NDIRECT,
        ((Image.ofDisk seekLayout seekDisk).node i).addrs k ≠ 0 → k = 0) ∧
    (((Image.ofDisk seekLayout seekDisk).node ROOTINO).type = T_DIR ∧
      ((Image.ofDisk seekLayout seekDisk).node ROOTINO).size = 48) ∧
    ((Image.ofDisk seekLayout seekDisk).node 2).type = T_FILE ∧
      ((Image.ofDisk seekLayout seekDisk).node 2).size = 5 := by
  decide +kernel

theorem blocks_seek : ((Image.ofDisk seekLayout seekDisk).ptr seekLayout (ROOTINO, 0) = 5 ∧
      (Image.ofDisk seekLayout seekDisk).ptr seekLayout (2, 0) = 6) ∧
    (∀ b, b = 5 ∨ b = 6 → (Image.ofDisk seekLayout seekDisk).bit b = true) ∧
    (Image.ofDisk seekLayout seekDisk).fptr ROOTINO 0 ≠ 0 ∧
    (Image.ofDisk seekLayout seekDisk).content 2 = hello ∧
    (Image.ofDisk seekLayout seekDisk).lacks 2 0 MAXFILE ≤
      (Image.ofDisk seekLayout seekDisk).avail seekLayout ∧ Roomy seekLayout := by
  have hall : ((Image.ofDisk seekLayout seekDisk).ptr seekLayout (ROOTINO, 0) = 5 ∧
      (Image.ofDisk seekLayout seekDisk).ptr seekLayout (2, 0) = 6) ∧
      ((Image.ofDisk seekLayout seekDisk).bit 5 = true ∧
        (Image.ofDisk seekLayout seekDisk).bit 6 = true) ∧
      (Image.ofDisk seekLayout seekDisk).fptr ROOTINO 0 ≠ 0 ∧
      (Image.ofDisk seekLayout seekDisk).content 2 = hello ∧
      (Image.ofDisk seekLayout seekDisk).lacks 2 0 MAXFILE ≤
        (Image.ofDisk seekLayout seekDisk).avail seekLayout ∧
      seekLayout.bitmap.card + 6 < min LOGSIZE (seekArea.size - 1) := by
    decide +kernel
  obtain ⟨hptr, hbit, hrest⟩ := hall
  refine ⟨hptr, ?_, hrest⟩
  rintro b (rfl | rfl)
  · exact hbit.1
  · exact hbit.2

theorem ptr_seek {x : Nat × Nat} (h : (Image.ofDisk seekLayout seekDisk).ptr seekLayout x ≠ 0) :
    x = (ROOTINO, 0) ∨ x = (2, 0) := by
  obtain ⟨i, k⟩ := x
  unfold Image.ptr at h
  rw [ite_ne_right_iff] at h
  obtain ⟨⟨⟨hi, hlive⟩, _⟩, hslot⟩ := h
  obtain ⟨hnode, haddrs⟩ := nodes_seek.1 i hi hlive
  have hzero : k = 0 := by
    by_cases hk : k ≤ NDIRECT
    · rw [slot_direct hk] at hslot
      exact haddrs k hk hslot
    · have hind := haddrs NDIRECT (Nat.le_refl _)
      rw [slot_none (by omega) (by_contra fun hne => absurd (hind hne) (by decide))] at hslot
      exact absurd rfl hslot
  subst hzero
  rcases hnode with rfl | rfl
  · exact .inl rfl
  · exact .inr rfl

theorem owned_seek : Owned seekLayout (Image.ofDisk seekLayout seekDisk) := by
  obtain ⟨⟨hroot, hfile⟩, hbit, _⟩ := blocks_seek
  have hptr : ∀ x, (Image.ofDisk seekLayout seekDisk).ptr seekLayout x ≠ 0 →
      (Image.ofDisk seekLayout seekDisk).ptr seekLayout x = 5 ∨
      (Image.ofDisk seekLayout seekDisk).ptr seekLayout x = 6 := by
    intro x hx
    rcases ptr_seek hx with rfl | rfl
    · exact .inl hroot
    · exact .inr hfile
  refine ⟨⟨fun x y hx hxy => ?_, fun x hx => ?_⟩, fun x => ?_⟩
  · have hy : (Image.ofDisk seekLayout seekDisk).ptr seekLayout y ≠ 0 := by rwa [← hxy]
    rcases ptr_seek hx with rfl | rfl <;> rcases ptr_seek hy with rfl | rfl
    · rfl
    · rw [hroot, hfile] at hxy
      cases hxy
    · rw [hroot, hfile] at hxy
      cases hxy
    · rfl
  · refine ⟨?_, ?_, hbit _ (hptr x hx)⟩ <;> rcases hptr x hx with h | h <;> rw [h] <;> decide
  · by_cases hx : (Image.ofDisk seekLayout seekDisk).ptr seekLayout x = 0
    · rw [hx]
      decide
    · rcases hptr x hx with hx | hx <;> rw [hx] <;> decide

def loadFile : FsM Entry := do
  let e ← iget ROOTDEV 2
  ilock e
  iunlock e
  pure e

theorem loadFile_run : ∃ e t w, loadFile.run (startFs seekDisk) = .ok (e, t) ∧
    At seekLayout t w ∧ Usable seekLayout w e 2 ∧ (w.key e).busy = false ∧ w.trans = none ∧
    w.logged = ∅ ∧ w.image = Image.ofDisk seekLayout seekDisk ∧ e ≠ rootEntry ∧
    w.key rootEntry = ⟨ROOTDEV, ROOTINO, 1, false, false⟩ ∧ ∀ i, ¬ w.dirty i := by
  have hroot : ∀ e, 0 < ((World.ofDisk seekLayout seekDisk).key e).ref →
      ((World.ofDisk seekLayout seekDisk).key e).inum ≠ 2 := by
    intro e href
    by_cases he : e = rootEntry
    · subst he
      decide
    · simp [World.ofDisk, startFs, Key.of, he] at href
  have htakes : Takes seekLayout (fun _ _ => True) (fun _ => False) loadFile
      (World.ofDisk seekLayout seekDisk) fun e w => Usable seekLayout w e 2 ∧
        (w.key e).busy = false ∧ w.trans = none ∧ w.logged = ∅ ∧
        w.image = Image.ofDisk seekLayout seekDisk ∧ e ≠ rootEntry ∧
        w.key rootEntry = ⟨ROOTDEV, ROOTINO, 1, false, false⟩ ∧ ∀ i, ¬ w.dirty i := by
    apply Takes.seq
    refine takes_igetFor (by decide) (.inr ⟨⟨1, by decide⟩, rfl⟩) ?_
    intro _ e w _ _ hgets
    cases hgets with
    | cached href hinum => exact absurd hinum (hroot e href)
    | taken href hnew =>
      have hkey : ((World.ofDisk seekLayout seekDisk).setKey e ⟨ROOTDEV, 2, 1, false, false⟩).key
          e = ⟨ROOTDEV, 2, 1, false, false⟩ := Function.update_self ..
      apply Takes.seq
      refine takes_ilock (by rw [hkey]; decide) (.inr (by rw [hkey])) ?_ ?_ ?_
      · intro x hx
        exact absurd hx (Finset.notMem_empty x)
      · intro _
        refine ⟨id, fun htype => ?_⟩
        rw [hkey] at htype
        exact absurd (nodes_seek.2.2.1.symm.trans htype) (by decide)
      · intro _ _
        have hlocked : (World.locked ((World.ofDisk seekLayout seekDisk).setKey e
            ⟨ROOTDEV, 2, 1, false, false⟩) e).key e = ⟨ROOTDEV, 2, 1, true, true⟩ := by
          rw [World.locked, hkey]
          exact Function.update_self ..
        apply Takes.seq
        refine takes_iunlock (by rw [hlocked]; decide) (by rw [hlocked]) (takes_pure ?_)
        have hopen : (World.lock (World.locked ((World.ofDisk seekLayout seekDisk).setKey e
            ⟨ROOTDEV, 2, 1, false, false⟩) e) e false).key e = ⟨ROOTDEV, 2, 1, false, true⟩ := by
          rw [World.lock, hlocked]
          exact Function.update_self ..
        obtain ⟨htype, hsize⟩ := nodes_seek.2.2
        have hne : e ≠ rootEntry := by
          rintro rfl
          exact absurd href (by decide)
        refine ⟨⟨by rw [hopen], by rw [hopen]; decide, by rw [hopen], by decide, .inl htype,
          hsize.trans_le (by decide), owned_seek, rfl⟩, by rw [hopen], rfl, rfl, rfl, hne, ?_, fun _ => id⟩
        simp only [World.lock, World.locked, World.setKey, Function.update_of_ne hne.symm]
        rfl
  obtain ⟨e, t, w, hrun, hat, hrest⟩ := htakes.run (at_startFs formatted_seek)
  exact ⟨e, t, w, hrun, hat, hrest⟩

def filePath : Option Path := some ⟨[SLASH, 102], by simp [SLASH]⟩

def seekFile : FileId := ⟨0, by decide⟩

def seekFd : Fd := ⟨0, by decide⟩

def seekSys (t : FsState) (e : Entry) : Sys :=
  (Sys.setFile { start seekDisk with fs := t } seekFile
    ⟨.FD_INODE, 1, true, true, 0, e, true, 5⟩).setFd initproc seekFd (some seekFile)

theorem ready_seek : ∃ t e w, loadFile.run (startFs seekDisk) = .ok (e, t) ∧
    Ready seekLayout (seekSys t e) seekFile 2 w ∧ w.image = Image.ofDisk seekLayout seekDisk := by
  obtain ⟨e, t, w, hrun, hat, husable, hidle, htrans, hlogged, himage, _⟩ := loadFile_run
  obtain ⟨_, _, _, _, hlacks, _⟩ := blocks_seek
  rw [← himage] at hlacks
  exact ⟨t, e, w, hrun, ⟨hat, rfl, rfl, husable, hidle, htrans, hlogged, hlacks⟩, himage⟩

theorem roomy_seek : Roomy seekLayout := blocks_seek.2.2.2.2.2

end Xv6.Volume
