import Xv6.Volume.Filewrite

/-!
# `cp`

`cp` up to where it closes the two files.  Opening the destination does not truncate it, so that
what lies behind the end of the copy stays.
-/

namespace Xv6.User

open Xv6.Lib Xv6.Fs Xv6.Files Xv6.Sched Xv6.Volume

/-- The loop of `cp` with the values of `r` and `w` at its end; `none` if the turns run out. -/
def cpLoop (a : LogArea) (p : Slot) (fd dfd : Int) : Nat → Int → SysM (Option (Int × Int))
  | 0, _ => pure none
  | turns + 1, w => do
    let x ← sysRead a p fd 512
    if 0 < x.1 then
      let w ← sysWrite a p dfd (fun k => x.2.getD k 0) x.1
      if w ≠ x.1 ∨ w < 0 then pure (some (x.1, w)) else cpLoop a p fd dfd turns w
    else pure (some (x.1, w))

/-- Whether an error is reported for the copying. -/
def copy (a : LogArea) (p : Slot) (fd dfd : Int) (turns : Nat) (w : Int) : SysM (Option Bool) := do
  let x ← cpLoop a p fd dfd turns w
  pure (x.map fun x => x.1 < 0 ∨ x.2 < 0)

/-- Whether `cp` reports an error, where `w` has some value at the start. -/
def cp (a : LogArea) (p : Slot) (src dest : Option Path) (turns : Nat) (w : Int) :
    SysM (Option Bool) := do
  let fd ← sysOpen a p src 0
  if fd < 0 then pure (some true)
  else
    let dfd ← sysOpen a p dest (O_CREATE + O_WRONLY)
    if dfd < 0 then pure (some true) else copy a p fd dfd turns w

/-! ## One turn -/

/-- After the files have been opened: the source has all its blocks, and there are free blocks
for all that the destination can grow to. -/
structure Copying {a : LogArea} (g : Layout a) (s : Sys) (p : Slot) (fd dfd : Int) (f f' : FileId)
    (i j : Nat) (w : World) : Prop where
  source : openFile s p fd = some f
  dest : openFile s p dfd = some f'
  type : (s.file f).type = .FD_INODE
  readable : (s.file f).readable = true
  usable : Usable g w (s.file f).ip i
  idle : (w.key (s.file f).ip).busy = false
  complete : w.image.Complete i
  ready : Ready g s f' j w
  ne : i ≠ j

section Turn

variable {a : LogArea} {g : Layout a} {s s' : Sys} {p : Slot} {fd dfd : Int} {f f' : FileId}
  {i j : Nat} {w w' : World}

theorem Copying.file_ne (h : Copying g s p fd dfd f f' i j w) : f ≠ f' := by
  rintro rfl
  exact h.ne (h.usable.inum.symm.trans h.ready.usable.inum)

theorem Copying.clear (h : Copying g s p fd dfd f f' i j w) : w.Clear g := by
  intro x hx
  rw [h.usable.held] at hx
  exact absurd hx (Finset.notMem_empty x)

theorem Copying.readi (h : Copying g s p fd dfd f f' i j w)
    (hoff : (s.file f).off ≤ (w.image.node i).size) : ∃ t₁ t₂ t₃,
    (ilock (s.file f).ip).run s.fs = .ok ((), t₁) ∧
    (Files.readi a (s.file f).ip (s.file f).off 512).run t₁ =
      .ok (some (((w.image.content i).drop (s.file f).off).take 512), t₂) ∧
    (iunlock (s.file f).ip).run t₂ = .ok ((), t₃) ∧ At g t₃ w := by
  have hload : (w.key (s.file f).ip).valid = false → ¬ w.dirty (w.key (s.file f).ip).inum ∧
      ((w.image.node (w.key (s.file f).ip).inum).type = 0 → False) := by
    intro hvalid
    rw [h.usable.valid] at hvalid
    cases hvalid
  obtain ⟨_, t₁, w₁, hlock, hat₁, rfl⟩ := Takes.run
    (takes_ilock (R := fun _ w' => w' = w.locked (s.file f).ip) h.usable.ref (.inr h.idle) h.clear
      hload fun _ _ => rfl) h.ready.stands
  have hkey : (w.locked (s.file f).ip).key (s.file f).ip =
      { w.key (s.file f).ip with busy := true, valid := true } := Function.update_self ..
  have husable : Usable g (w.locked (s.file f).ip) (s.file f).ip i :=
    ⟨by rw [hkey]; exact h.usable.inum, by rw [hkey]; exact h.usable.ref, by rw [hkey],
      h.usable.live, h.usable.type, h.usable.size, h.usable.owned, h.usable.held⟩
  have hsize := h.usable.size
  have hsmall : MAXFILE * BSIZE + 512 < 2 ^ 32 := by decide
  have hok : ¬ Refused (w.image.node i).size (s.file f).off 512 := by
    unfold Refused
    omega
  have hwhole : w.image.Whole i ((s.file f).off / BSIZE)
      (stopBlock (s.file f).off (readLen (w.image.node i).size (s.file f).off 512)) := by
    intro l _ hl
    apply h.complete l (Nat.zero_le l)
    unfold readLen stopBlock at hl
    unfold blocksOf
    unfold BSIZE at *
    split_ifs at hl <;> omega
  obtain ⟨_, t₂, w₂, hread, hat₂, rfl, rfl⟩ := Takes.run
    (takes_readi (R := fun r w' => r = some (w.image.bytes i (s.file f).off
        (readLen (w.image.node i).size (s.file f).off 512)) ∧ w' = w.locked (s.file f).ip)
      husable.inum husable.ref husable.valid husable.owned husable.isLive husable.held
      husable.ne_dev husable.size (.inl hwhole) (fun hno => absurd hno hok)
      fun _ w' _ _ hsame => ⟨rfl, hsame hwhole⟩) hat₁
  obtain ⟨_, t₃, w₃, hunlock, hat₃, rfl⟩ := Takes.run
    (takes_iunlock (R := fun _ w' => w' = (w.locked (s.file f).ip).lock (s.file f).ip false)
      husable.ref (by rw [hkey]) rfl) hat₂
  rw [World.lock_locked h.idle h.usable.valid] at hat₃
  rw [bytes_eq_content hoff] at hread
  exact ⟨t₁, t₂, t₃, hlock, hread, hunlock, hat₃⟩

/-- The source is read, and nothing else than its offset changes. -/
theorem Copying.sysRead_run (h : Copying g s p fd dfd f f' i j w)
    (hoff : (s.file f).off ≤ (w.image.node i).size) {bytes : List UInt8}
    (hbytes : ((w.image.content i).drop (s.file f).off).take 512 = bytes) :
    ∃ s', (sysRead a p fd 512).run s = .ok (((bytes.length : Int), bytes), s') ∧
      Copying g s' p fd dfd f f' i j w ∧ (s'.file f).off = (s.file f).off + bytes.length ∧
      s'.file f' = s.file f' := by
  obtain ⟨t₁, t₂, t₃, hlock, hread, hunlock, hat⟩ := h.readi hoff
  rw [hbytes] at hread
  have hlen : (s.file f).off + bytes.length ≤ (w.image.node i).size := by
    have hcontent : (w.image.content i).length = (w.image.node i).size := length_content
    rw [← hbytes, List.length_take, List.length_drop]
    omega
  have hsize := h.usable.size
  have hsmall : MAXFILE * BSIZE < 2 ^ 32 := by decide
  have hmod : ((s.file f).off + bytes.length) % 2 ^ 32 = (s.file f).off + bytes.length :=
    Nat.mod_eq_of_lt (by omega)
  let s₃ : Sys := Sys.setFile { s with fs := t₃ } f
    { s.file f with off := (s.file f).off + bytes.length }
  have hself : s₃.file f = { s.file f with off := (s.file f).off + bytes.length } :=
    Function.update_self ..
  have hother : s₃.file f' = s.file f' := Function.update_of_ne h.file_ne.symm ..
  refine ⟨s₃, ?_, ?_, by rw [hself], hother⟩
  · obtain ⟨k, hargfd⟩ := argfd_run s p fd
    rw [h.source] at hargfd
    refine (Prog.run_bind_of_ok hargfd).trans ?_
    refine (Prog.run_bind_of_ok (a := s.file f) (t := s) rfl).trans ?_
    rw [h.readable, h.type, if_neg (by decide)]
    refine (Prog.run_bind_of_ok (fs_run hlock)).trans ?_
    refine (Prog.run_bind_of_ok (a := (s.file f).off) (t := { s with fs := t₁ }) rfl).trans ?_
    refine (Prog.run_bind_of_ok (fs_run (s := { s with fs := t₁ }) hread)).trans ?_
    refine (Prog.run_bind_of_ok (a := ()) (t := Sys.setFile { s with fs := t₂ } f
      { s.file f with off := (s.file f).off + bytes.length }) ?_).trans ?_
    · rw [← hmod]
      rfl
    · exact Prog.run_bind_of_ok (fs_run hunlock)
  · have hr := h.ready
    refine ⟨h.source, h.dest, by rw [hself]; exact h.type, by rw [hself]; exact h.readable,
      by rw [hself]; exact h.usable, by rw [hself]; exact h.idle, h.complete, ?_, h.ne⟩
    exact ⟨hat, by rw [hother]; exact hr.type, by rw [hother]; exact hr.writable,
      by rw [hother]; exact hr.usable, by rw [hother]; exact hr.idle, hr.trans, hr.logged,
      hr.blocks⟩

theorem map_getD_range (bytes : List UInt8) :
    (List.range bytes.length).map (fun k => bytes.getD k 0) = bytes := by
  apply List.ext_getElem
  · simp
  · intro k hk hk'
    simp [hk']

theorem Copying.wrote (h : Copying g s p fd dfd f f' i j w) (hstable : Stable s f' s')
    {src : Nat → UInt8} {n : Nat} (hwrote : Wrote g f' j src n s w s' w') :
    Copying g s' p fd dfd f f' i j w' ∧ w'.image.content i = w.image.content i := by
  have hnode := hwrote.others.node i h.ne
  have hlive := hwrote.others.live h.ne h.usable.isLive
  have hfile : s'.file f = s.file f := hstable.other f h.file_ne
  have husable : Usable g w' (s.file f).ip i := by
    refine ⟨?_, ?_, ?_, h.usable.live, ?_, ?_, hwrote.ready.usable.owned, hwrote.ready.usable.held⟩
    · rw [hwrote.others.key]
      exact h.usable.inum
    · rw [hwrote.others.key]
      exact h.usable.ref
    · rw [hwrote.others.key]
      exact h.usable.valid
    · rw [hnode]
      exact h.usable.type
    · rw [hnode]
      exact h.usable.size
  have hcomplete : w'.image.Complete i := by
    intro l hzero hl
    rw [hnode] at hl
    have hsize := h.usable.size
    have hlt : l < MAXFILE := by
      unfold blocksOf at hl
      unfold MAXFILE NDIRECT NINDIRECT BSIZE at *
      omega
    have hhere := h.complete l hzero hl
    rw [← ptr_fptr h.usable.isLive hlt] at hhere
    rw [← ptr_fptr hlive hlt, hwrote.ptr _ hhere]
    exact hhere
  refine ⟨⟨?_, ?_, by rw [hfile]; exact h.type, by rw [hfile]; exact h.readable,
    by rwa [hfile], ?_, hcomplete, hwrote.ready, h.ne⟩, ?_⟩
  · rw [hstable.openFile_eq]
    exact h.source
  · rw [hstable.openFile_eq]
    exact h.dest
  · rw [hfile, hwrote.others.key]
    exact h.idle
  · exact hwrote.others.content i h.ne h.usable.isLive h.usable.size

theorem Copying.sysWrite_run (hroom : Roomy g) (h : Copying g s p fd dfd f f' i j w)
    (hoff : (s.file f').off ≤ (w.image.node j).size) (bytes : List UInt8)
    (hmax : (s.file f').off + bytes.length ≤ MAXFILE * BSIZE) :
    ∃ s' w', (sysWrite a p dfd (fun k => bytes.getD k 0) bytes.length).run s =
        .ok ((bytes.length : Int), s') ∧ Copying g s' p fd dfd f f' i j w' ∧
      s'.file f = s.file f ∧ (s'.file f').off = (s.file f').off + bytes.length ∧
      (s'.file f').ip = (s.file f').ip ∧ w'.image.content i = w.image.content i ∧
      w'.image.content j = overwrite (w.image.content j) (s.file f').off bytes := by
  obtain ⟨m, _, s', w', hwrote, hrun, hall, _⟩ :=
    filewrite_run p (fun k => bytes.getD k 0) bytes.length hroom h.ready
  obtain rfl := hall hoff hmax
  rw [if_pos rfl] at hrun
  have hstable := (stable_filewrite (a := a) p _ _).run (.refl s f') hrun
  obtain ⟨hcopying, hsource⟩ := h.wrote hstable hwrote
  refine ⟨s', w', ?_, hcopying, hstable.other f h.file_ne, hwrote.off, hwrote.ip, hsource, ?_⟩
  · obtain ⟨k, hargfd⟩ := argfd_run s p dfd
    rw [h.dest] at hargfd
    exact (Prog.run_bind_of_ok hargfd).trans hrun
  · rw [hwrote.content, map_getD_range]

/-! ## The loop -/

/-- From a state in which both files have the same offset, the rest of the source is copied. -/
theorem cpLoop_run (hroom : Roomy g) (turns : Nat) (w₀ : Int)
    (h : Copying g s p fd dfd f f' i j w) (hsame : (s.file f').off = (s.file f).off)
    (hoff : (s.file f).off ≤ (w.image.node i).size)
    (hdest : (s.file f').off ≤ (w.image.node j).size)
    (hturns : (w.image.node i).size - (s.file f).off < turns) :
    ∃ r s' w', (cpLoop a p fd dfd turns w₀).run s = .ok (some (0, r), s') ∧
      (r < 0 ↔ (w.image.node i).size = (s.file f).off ∧ w₀ < 0) ∧
      Copying g s' p fd dfd f f' i j w' ∧ (s'.file f').ip = (s.file f').ip ∧
      w'.image.content j = overwrite (w.image.content j) (s.file f).off
        ((w.image.content i).drop (s.file f).off) := by
  induction turns generalizing s w w₀ with
  | zero => omega
  | succ turns ih =>
    obtain ⟨bytes, hbytes⟩ : ∃ bytes,
      ((w.image.content i).drop (s.file f).off).take 512 = bytes := ⟨_, rfl⟩
    have hcontent : (w.image.content i).length = (w.image.node i).size := length_content
    have hlen : bytes.length = min 512 ((w.image.node i).size - (s.file f).off) := by
      rw [← hbytes, List.length_take, List.length_drop, hcontent]
    have hsize := h.usable.size
    obtain ⟨s₁, hread, hcopying, hoff₁, hfile₁⟩ := h.sysRead_run hoff hbytes
    by_cases hend : (w.image.node i).size = (s.file f).off
    · have hempty : (w.image.content i).drop (s.file f).off = [] :=
        List.drop_eq_nil_of_le (by omega)
      refine ⟨w₀, s₁, w, ?_, by simp [hend], hcopying, by rw [hfile₁], ?_⟩
      · refine (Prog.run_bind_of_ok hread).trans ?_
        rw [if_neg (by dsimp only; omega)]
        have hzero : bytes.length = 0 := by omega
        dsimp only
        rw [hzero]
        rfl
      · rw [hempty, overwrite_nil]
    · obtain ⟨s₂, w₂, hwrite, hcopying₂, hfile₂, hoff₂, hip₂, hsource, hwritten⟩ :=
        hcopying.sysWrite_run hroom (by rw [hfile₁]; exact hdest) bytes
          (by rw [hfile₁, hsame]; omega)
      have hnode : (w₂.image.node i).size = (w.image.node i).size := by
        rw [← length_content, hsource, length_content]
      have hgrown : (w₂.image.node j).size =
          max (w.image.node j).size ((s.file f').off + bytes.length) := by
        rw [← length_content, hwritten, hfile₁,
          length_overwrite (by rw [length_content]; exact hdest), length_content]
      obtain ⟨r, s', w', hrun, hneg, hlast, hip, hdone⟩ := ih (bytes.length : Int) hcopying₂
        (by rw [hoff₂, hfile₁, hfile₂, hoff₁, hsame]) (by rw [hfile₂, hoff₁, hnode]; omega)
        (by rw [hoff₂, hfile₁, hgrown]; omega) (by rw [hfile₂, hoff₁, hnode]; omega)
      refine ⟨r, s', w', ?_, ?_, hlast, by rw [hip, hip₂, hfile₁], ?_⟩
      · refine (Prog.run_bind_of_ok hread).trans ?_
        rw [if_pos (by dsimp only; omega)]
        refine (Prog.run_bind_of_ok hwrite).trans ?_
        rw [if_neg (by simp)]
        exact hrun
      · rw [hneg]
        constructor
        · rintro ⟨_, hlt⟩
          omega
        · exact fun heq => absurd heq.1 hend
      · have hsplit : bytes ++ (w.image.content i).drop ((s.file f).off + bytes.length) =
            (w.image.content i).drop (s.file f).off := by
          rw [← List.drop_drop, ← hbytes, List.length_take, ← List.drop_eq_drop_min]
          exact List.take_append_drop 512 _
        rw [hdone, hwritten, hfile₂, hoff₁, hsource, hfile₁, hsame,
          overwrite_overwrite (by rw [length_content, ← hsame]; exact hdest), hsplit]

theorem overwrite_start_iff (dst src : List UInt8) :
    overwrite dst 0 src = src ↔ dst.length ≤ src.length := by
  simp [overwrite]

end Turn

/-! ## Examples -/

def cpFile : FileId := ⟨1, by decide⟩

def cpFd : Fd := ⟨1, by decide⟩

/-- The root directory is going to be copied to the file of five bytes. -/
def cpSys (t : FsState) (e : Entry) : Sys :=
  (((Sys.setFile { start seekDisk with fs := t } seekFile
    ⟨.FD_INODE, 1, true, false, 0, rootEntry, true, 0⟩).setFile cpFile
    ⟨.FD_INODE, 1, false, true, 0, e, true, 0⟩).setFd initproc seekFd
    (some seekFile)).setFd initproc cpFd (some cpFile)

theorem copying_seek : ∃ t e w, Copying seekLayout (cpSys t e) initproc 0 1 seekFile cpFile ROOTINO 2
    w ∧ w.image = Image.ofDisk seekLayout seekDisk := by
  obtain ⟨e, t, w, _, hat, husable, hidle, htrans, hlogged, himage, hne, hroot, hdirty⟩ :=
    loadFile_run
  have hclear : w.Clear seekLayout := by
    intro x hx
    rw [husable.held] at hx
    exact absurd hx (Finset.notMem_empty x)
  have hnode : (w.image.node ROOTINO).type = T_DIR ∧
      (w.image.node ROOTINO).size ≤ MAXFILE * BSIZE := by
    rw [himage]
    exact ⟨nodes_seek.2.1.1, nodes_seek.2.1.2.trans_le (by decide)⟩
  obtain ⟨_, t₁, w₁, _, hat₁, rfl⟩ := Takes.run
    (takes_ilock (R := fun _ w' => w' = w.locked rootEntry) (by rw [hroot]; decide)
      (.inr (by rw [hroot])) hclear (fun _ => ⟨hdirty _, fun htype => by
        rw [hroot, hnode.1] at htype
        cases htype⟩) fun _ _ => rfl) hat
  have hkey : (w.locked rootEntry).key rootEntry = ⟨ROOTDEV, ROOTINO, 1, true, true⟩ := by
    simp [World.locked, World.setKey, hroot]
  obtain ⟨_, t₂, w₂, _, hat₂, hw₂⟩ := Takes.run
    (takes_iunlock (R := fun _ w' => w' = (w.locked rootEntry).lock rootEntry false)
      (by rw [hkey]; decide) (by rw [hkey]) rfl) hat₁
  have hself : w₂.key rootEntry = ⟨ROOTDEV, ROOTINO, 1, false, true⟩ := by
    simp [hw₂, World.lock, World.setKey, hkey]
  have hother : w₂.key e = w.key e := by
    rw [hw₂]
    simp only [World.lock, World.locked, World.setKey, Function.update_of_ne hne]
  have himage₂ : w₂.image = w.image := by
    rw [hw₂]
    rfl
  have hrest : w₂.held = ∅ ∧ w₂.trans = none ∧ w₂.logged = ∅ := by
    rw [hw₂]
    exact ⟨husable.held, htrans, hlogged⟩
  rw [← himage₂] at hnode himage
  have howned : Owned seekLayout w₂.image := himage ▸ owned_seek
  have hdest : (w₂.image.node 2).type = T_FILE ∧ (w₂.image.node 2).size ≤ MAXFILE * BSIZE := by
    rw [himage]
    exact ⟨nodes_seek.2.2.1, nodes_seek.2.2.2.trans_le (by decide)⟩
  refine ⟨t₂, e, w₂, ⟨rfl, rfl, rfl, rfl, ?_, congrArg Key.busy hself, ?_, ?_, by decide⟩, himage⟩
  · exact ⟨congrArg Key.inum hself, by change 0 < (w₂.key rootEntry).ref; rw [hself]; decide,
      congrArg Key.valid hself, by decide, .inr hnode.1, hnode.2, howned, hrest.1⟩
  · intro n _ hn
    rw [himage, nodes_seek.2.1.2] at hn
    obtain rfl : n = 0 := by
      unfold blocksOf BSIZE at hn
      omega
    rw [himage]
    exact blocks_seek.2.2.1
  · obtain ⟨_, _, _, _, hlacks, _⟩ := blocks_seek
    rw [← himage] at hlacks
    exact ⟨hat₂, rfl, rfl, ⟨(congrArg Key.inum hother).trans husable.inum,
      husable.ref.trans_eq (congrArg Key.ref hother).symm,
      (congrArg Key.valid hother).trans husable.valid, by decide, .inl hdest.1, hdest.2, howned,
      hrest.1⟩, (congrArg Key.busy hother).trans hidle, hrest.2.1, hrest.2.2, hlacks⟩

def sourcePath : Option Path := some ⟨[SLASH, 115], by simp [SLASH]⟩

def destPath : Option Path := some ⟨[SLASH, 100], by simp [SLASH]⟩

/-- A source with the byte 1, and a destination with the bytes 2 and 3. -/
def cpFiles : List (Turn Slot Call Event) :=
  Pool.alone initproc (.open sourcePath (O_CREATE + O_RDWR)) 85 ++
    Pool.alone initproc (.write 0 (fun _ => 1) 1) 30 ++ Pool.alone initproc (.close 0) 6 ++
    Pool.alone initproc (.open destPath (O_CREATE + O_RDWR)) 93 ++
    Pool.alone initproc (.write 0 (fun k => if k = 0 then 2 else 3) 2) 30 ++
    Pool.alone initproc (.close 0) 6

end Xv6.User
