import Xv6.Files.System

/-!
# `lseek` up to the end of a file

`sys_lseek` compares the new offset with the size of the file as unsigned numbers and refuses
what is below the size; above it the gap is filled.
-/

namespace Xv6.Files

open Xv6.Lib Xv6.Fs Xv6.Sched

theorem toNat_lt_NOFILE {fd : Int} (h : 0 ≤ fd ∧ fd < NOFILE) : fd.toNat < NOFILE := by omega

def openFile (s : Sys) (p : Slot) (fd : Int) : Option FileId :=
  if h : 0 ≤ fd ∧ fd < NOFILE then s.ofile p ⟨fd.toNat, toNat_lt_NOFILE h⟩ else none

/-- The file of the descriptor, if it is open and has an inode. -/
def inodeFile (s : Sys) (p : Slot) (fd : Int) : Option FileId :=
  (openFile s p fd).filter fun f => (s.file f).type = .FD_INODE && (s.file f).opened

def fileSize (s : Sys) (f : FileId) : Nat := (s.fs.icache (s.file f).ip).copy.size

/-- Where `lseek` is to go: `SEEK_SET`, `SEEK_CUR` and `SEEK_END`. -/
def seekTarget (s : Sys) (f : FileId) (offset base : Int) : Option Int :=
  if base = 0 then some offset
  else if base = 1 then some ((s.file f).off + offset)
  else if base = 2 then some (fileSize s f + offset)
  else none

section Run

variable {a : LogArea} {s : Sys} {p : Slot} {f : FileId} {fd offset base : Int} {m : Unset}

variable (s p fd) in
theorem argfd_run : ∃ i, (argfd p fd).run s =
    .ok ((openFile s p fd).map fun f => (i, f), s) := by
  by_cases h : 0 ≤ fd ∧ fd < NOFILE
  · refine ⟨⟨fd.toNat, by omega⟩, ?_⟩
    simp [argfd, look, Prog.atomic, Prog.run, openFile, h]
  · refine ⟨⟨0, by decide⟩, ?_⟩
    simp [argfd, look, Prog.atomic, Prog.run, openFile, h]

theorem sysLseek_halt (h : openFile s p fd = none) :
    (sysLseek a p fd offset base m).run s = .halt (.panic "lseek") := by
  obtain ⟨i, hargfd⟩ := argfd_run s p fd
  refine (Prog.run_bind_of_ok hargfd).trans ?_
  rw [h]
  rfl

theorem sysLseek_file (h : openFile s p fd = some f) {size off : Nat}
    (hsize : (if (s.file f).opened then fileSize s f else m.size) = size)
    (hoff : (newoff (s.file f) size offset base m.newoff % 2 ^ 32).toNat = off) :
    (sysLseek a p fd offset base m).run s =
      if off < size then .ok (-1, s) else (seekTo a p f size off m).run s := by
  subst hsize hoff
  obtain ⟨i, hargfd⟩ := argfd_run s p fd
  refine (Prog.run_bind_of_ok hargfd).trans ?_
  rw [h]
  show ((if (newoff (s.file f) (if (s.file f).opened then fileSize s f else m.size) offset base
    m.newoff % 2 ^ 32).toNat < (if (s.file f).opened then fileSize s f else m.size) then _
    else _) : SysM Int).run s = _
  split_ifs <;> rfl

theorem openFile_of_inodeFile (h : inodeFile s p fd = some f) :
    openFile s p fd = some f ∧ (s.file f).type = .FD_INODE ∧ (s.file f).opened = true := by
  obtain ⟨hopen, htype⟩ := Option.filter_eq_some_iff.1 h
  exact ⟨hopen, by simpa using htype⟩

theorem sysLseek_run (h : inodeFile s p fd = some f) {off : Nat}
    (hoff : (newoff (s.file f) (fileSize s f) offset base m.newoff % 2 ^ 32).toNat = off) :
    (sysLseek a p fd offset base m).run s =
      if off < fileSize s f then .ok (-1, s) else (seekTo a p f (fileSize s f) off m).run s := by
  obtain ⟨hopen, _, hset⟩ := openFile_of_inodeFile h
  exact sysLseek_file hopen (if_pos hset) hoff

theorem seekTo_size (size : Nat) : (seekTo a p f size size m).run s =
    .ok (0, s.setFile f { s.file f with off := size }) := by
  unfold seekTo
  rw [Prog.when, if_neg (lt_irrefl size)]
  rfl

theorem seekTo_result {size off : Nat} {r : Int} {t : Sys}
    (h : (seekTo a p f size off m).run s = .ok (r, t)) : r = 0 := by
  have hpost : (seekTo a p f size off m).post (fun r _ => r = 0) s :=
    Prog.wp_seq Prog.post_trivial fun _ _ _ => Prog.wp_seq Prog.post_trivial fun _ _ _ => rfl
  exact (Prog.wp_run hpost).1 r t h

theorem seekTo_page {size off : Nat} {r : Int} {t : Sys} (hlt : size < off)
    (h : (seekTo a p f size off m).run s = .ok (r, t)) : m.page = true := by
  have hpost : (seekTo a p f size off m).post (fun _ _ => m.page = true) s := by
    unfold seekTo
    rw [Prog.when, if_pos hlt]
    refine Prog.wp_seq (Q := fun _ _ => m.page = true) (Prog.wp_seq Prog.post_trivial fun _ t _ => ?_)
      fun _ _ hpage => Prog.wp_seq Prog.post_trivial fun _ _ _ => hpage
    cases m.page with
    | true => exact rfl
    | false => exact Prog.wp_atomic trivial (by simp) fun _ _ => trivial
  exact (Prog.wp_run hpost).1 r t h

end Run

/-- What `lseek` is to do with targets up to the end of the file and with bad requests. -/
structure SeekSpec (a : LogArea) (s : Sys) (p : Slot) (fd offset base : Int) : Prop where
  within : ∀ f t, inodeFile s p fd = some f → seekTarget s f offset base = some t →
    0 ≤ t → t ≤ fileSize s f → ∀ m, (sysLseek a p fd offset base m).run s =
      .ok (0, s.setFile f { s.file f with off := t.toNat })
  refused : (∀ f t, inodeFile s p fd = some f → seekTarget s f offset base = some t → t < 0) →
    ∀ m, (sysLseek a p fd offset base m).run s = .ok (-1, s)

/-- A pipe whose structure has held an inode, with a target below the size of that inode. -/
def StaleSeek (s : Sys) (p : Slot) (fd offset base : Int) : Prop :=
  ∃ f t, openFile s p fd = some f ∧ (s.file f).type ≠ .FD_INODE ∧ (s.file f).opened = true ∧
    seekTarget s f offset base = some t ∧ (t % 2 ^ 32).toNat < fileSize s f

section Spec

variable {a : LogArea} {s : Sys} {p : Slot} {f : FileId} {fd offset base : Int}

theorem newoff_of_target {t garbage : Int} (h : seekTarget s f offset base = some t) :
    newoff (s.file f) (fileSize s f) offset base garbage = t := by
  unfold seekTarget at h
  unfold newoff
  split_ifs at h ⊢ <;> simpa using h

theorem newoff_of_none {garbage : Int} (h : seekTarget s f offset base = none) :
    newoff (s.file f) (fileSize s f) offset base garbage = garbage := by
  unfold seekTarget at h
  unfold newoff
  split_ifs at h ⊢
  rfl

theorem target_wraps {t : Int} (h : seekTarget s f offset base = some t)
    (hoffset : -2 ^ 31 ≤ offset) (hneg : t < 0) : 2 ^ 31 ≤ (t % 2 ^ 32).toNat := by
  have hlow : -2 ^ 31 ≤ t := by
    unfold seekTarget at h
    split_ifs at h <;> obtain rfl := Option.some.inj h <;> omega
  omega

namespace SeekSpec

variable (h : SeekSpec a s p fd offset base)
include h

theorem stale_of_none (hfile : inodeFile s p fd = none)
    (hsize : ∀ f, openFile s p fd = some f → fileSize s f ≤ MAXFILE * BSIZE) :
    StaleSeek s p fd offset base := by
  have hrun := h.refused (by simp [hfile])
  cases hopen : openFile s p fd with
  | none =>
    have hzero := hrun ⟨0, 0, true, fun _ => 0⟩
    rw [sysLseek_halt hopen] at hzero
    cases hzero
  | some f =>
    have hle := hsize f hopen
    have hlarge : MAXFILE * BSIZE < 2 ^ 32 := by decide
    have hset : (s.file f).opened = true := by
      by_contra hset
      -- the word that is read for the size may be 0
      have hzero := hrun ⟨0, 0, true, fun _ => 0⟩
      rw [sysLseek_file hopen (if_neg hset) rfl, if_neg (Nat.not_lt_zero _)] at hzero
      cases seekTo_result hzero
    have htype : (s.file f).type ≠ .FD_INODE := by
      intro htype
      simp [inodeFile, hopen, Option.filter, htype, hset] at hfile
    have hbelow : ∀ m : Unset,
        (newoff (s.file f) (fileSize s f) offset base m.newoff % 2 ^ 32).toNat < fileSize s f := by
      intro m
      by_contra hge
      have hminus := hrun m
      rw [sysLseek_file hopen (if_pos hset) rfl, if_neg hge] at hminus
      cases seekTo_result hminus
    cases htarget : seekTarget s f offset base with
    | none =>
      have hlt := hbelow ⟨fileSize s f, 0, true, fun _ => 0⟩
      rw [newoff_of_none htarget] at hlt
      simp only at hlt
      omega
    | some t =>
      have hlt := hbelow ⟨0, 0, true, fun _ => 0⟩
      rw [newoff_of_target htarget] at hlt
      exact ⟨f, t, hopen, htype, hset, htarget, hlt⟩

variable (hfile : inodeFile s p fd = some f) (hsize : fileSize s f ≤ MAXFILE * BSIZE)
include hfile hsize

theorem exists_target : ∃ t, seekTarget s f offset base = some t := by
  cases htarget : seekTarget s f offset base with
  | some t => exact ⟨t, rfl⟩
  | none =>
    have hnone : ∀ f' t, inodeFile s p fd = some f' →
        seekTarget s f' offset base = some t → t < 0 := by
      intro f' t hf'
      obtain rfl := Option.some.inj (hfile.symm.trans hf')
      simp [htarget]
    have hoff : (newoff (s.file f) (fileSize s f) offset base (fileSize s f) % 2 ^ 32).toNat =
        fileSize s f := by
      have hlarge : MAXFILE * BSIZE < 2 ^ 32 := by decide
      rw [newoff_of_none htarget]
      omega
    have hrun := h.refused hnone ⟨fileSize s f, 0, true, fun _ => 0⟩
    rw [sysLseek_run hfile hoff, if_neg (lt_irrefl _), seekTo_size] at hrun
    cases hrun

theorem size_le_target (hoffset : -2 ^ 31 ≤ offset) {t : Int}
    (htarget : seekTarget s f offset base = some t) : fileSize s f ≤ t := by
  have hlarge : MAXFILE * BSIZE < 2 ^ 31 := by decide
  have hoff : (newoff (s.file f) (fileSize s f) offset base 0 % 2 ^ 32).toNat =
      (t % 2 ^ 32).toNat := by
    rw [newoff_of_target htarget]
  by_contra hlt
  by_cases hneg : t < 0
  · have hbad : ∀ f' t', inodeFile s p fd = some f' →
        seekTarget s f' offset base = some t' → t' < 0 := by
      intro f' t' hf' ht'
      obtain rfl := Option.some.inj (hfile.symm.trans hf')
      obtain rfl := Option.some.inj (htarget.symm.trans ht')
      exact hneg
    have hwraps := target_wraps htarget hoffset hneg
    have hrun := h.refused hbad ⟨0, 0, true, fun _ => 0⟩
    rw [sysLseek_run hfile hoff, if_neg (by omega)] at hrun
    have hzero := seekTo_result hrun
    omega
  · have hrun := h.within f t hfile htarget (by omega) (by omega) ⟨0, 0, true, fun _ => 0⟩
    rw [sysLseek_run hfile hoff, if_pos (by omega)] at hrun
    cases hrun

end SeekSpec

theorem seekSpec_of_le {t : Int} (hfile : inodeFile s p fd = some f)
    (hsize : fileSize s f ≤ MAXFILE * BSIZE) (htarget : seekTarget s f offset base = some t)
    (hle : fileSize s f ≤ t) : SeekSpec a s p fd offset base := by
  constructor
  · intro f' t' hf' ht' _ hend m
    obtain rfl : f = f' := Option.some.inj (hfile.symm.trans hf')
    obtain rfl : t = t' := Option.some.inj (htarget.symm.trans ht')
    have hlarge : MAXFILE * BSIZE < 2 ^ 32 := by decide
    have hoff : (newoff (s.file f) (fileSize s f) offset base m.newoff % 2 ^ 32).toNat =
        fileSize s f := by
      rw [newoff_of_target htarget]
      omega
    have hnat : t.toNat = fileSize s f := by omega
    rw [sysLseek_run hfile hoff, if_neg (lt_irrefl _), seekTo_size, hnat]
  · intro hrefused
    have hneg := hrefused f t hfile htarget
    omega

theorem StaleSeek.seekSpec (h : StaleSeek s p fd offset base) :
    SeekSpec a s p fd offset base := by
  obtain ⟨f, t, hopen, htype, hset, htarget, hlt⟩ := h
  constructor
  · intro f' t' hf'
    obtain ⟨hopen', htype', _⟩ := openFile_of_inodeFile hf'
    obtain rfl := Option.some.inj (hopen.symm.trans hopen')
    exact absurd htype' htype
  · intro _ m
    have hoff : (newoff (s.file f) (fileSize s f) offset base m.newoff % 2 ^ 32).toNat =
        (t % 2 ^ 32).toNat := by
      rw [newoff_of_target htarget]
    rw [sysLseek_file hopen (if_pos hset) hoff, if_pos hlt]

end Spec

theorem opened_root : ∃ s, (machine smallArea).Reachable s ∧ ∃ f,
    inodeFile s.state initproc 0 = some f ∧ fileSize s.state f = 32 := by
  obtain ⟨s, hreach, hobs⟩ := reach_start smallArea smallDisk (C := fun _ _ => True)
    (Pool.alone initproc (.open (some ⟨[SLASH], by simp [SLASH]⟩) 0) 15)
    (P := fun s => (inodeFile s.state initproc 0).any fun f => fileSize s.state f = 32)
    (by decide +kernel)
  obtain ⟨f, hfile, hsize⟩ := (Option.any_eq_true _ _).1 hobs
  exact ⟨s, hreach, f, hfile, of_decide_eq_true hsize⟩

end Xv6.Files
