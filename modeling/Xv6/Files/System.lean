import Xv6.Files.Calls
import Xv6.Lib.Force

/-!
# Processes that make system calls

Every live process can make any call at any time, and the actions of the calls interleave.
Besides the calls, `wait` frees the slot of a zombie, and the rest of the kernel takes pages
from the free list and gives its pages back.
-/

namespace Xv6.Files

open Xv6.Lib Xv6.Fs Xv6.Sched

inductive Event
  | reap (q : Slot)
  | memory (free : List Nat)

/-- A zombie has left its last call before `wait` finds it.  The rest of the kernel does not
give back a page that is a pipe. -/
def Sys.env (busy : Slot → Bool) (s : Sys) : Event → Option Sys
  | .reap q =>
    if s.life q = .zombie ∧ busy q = false then
      some { s with life := Function.update s.life q .unused }
    else none
  | .memory free =>
    if free.Nodup ∧ ∀ page ∈ free, s.allocs page = s.frees page then
      some { s with free := free }
    else none

def system (a : LogArea) : System Slot Call Event Sys Act Int where
  code := code a
  ready s p := s.life p = .live
  env := Sys.env

/-- The entry of the root directory, the first that `userinit` gets from `iget`. -/
def rootEntry : Entry := ⟨0, by decide⟩

def secondProc : Slot := ⟨1, Sched.one_lt_NPROC⟩

structure Boot (s : Sys) : Prop where
  life : s.life = fun p => if p = initproc then .live else .unused
  ofile : s.ofile = fun _ _ => none
  cwd : s.cwd = fun p => if p = initproc then some rootEntry else none
  file : ∀ f, (s.file f).ref = 0 ∧ (s.file f).type = .FD_NONE
  ref : ∀ e, (s.fs.icache e).ref = if e = rootEntry then 1 else 0
  busy : ∀ e, (s.fs.icache e).busy = false
  valid : ∀ e, (s.fs.icache e).valid = false
  root : (s.fs.icache rootEntry).dev = ROOTDEV ∧ (s.fs.icache rootEntry).inum = ROOTINO
  locked : s.fs.locked = fun _ => false
  trans : s.fs.trans = none ∧ s.fs.n = 0
  free : s.free.Nodup
  pages : ∀ page, s.allocs page = s.frees page

def machine (a : LogArea) : Machine (Pool Slot Sys Act Int) (Turn Slot Call Event) :=
  Pool.machine (system a) Boot

/-! ## Small disks

Inode blocks 2 and 3, the bitmap in block 4, the root directory in block 5, and the log in
the blocks from 20 on.  The full disk has the log right after the root directory. -/

def smallArea : LogArea := ⟨20, 10, by decide⟩

def fullArea : LogArea := ⟨6, 10, by decide⟩

def zeroBlock : Block := fun _ => 0

def smallRoot : Block :=
  blit (blit zeroBlock 0 (direntBytes ROOTINO DOT) 16) 16 (direntBytes ROOTINO DOTDOT) 16

def Superblock.encode (sb : Superblock) : Block :=
  (((zeroBlock.set 0 4 sb.size).set 4 4 sb.nblocks).set 8 4 sb.ninodes).set 12 4 sb.nlog

def smallDisk : Nat → Block
  | 1 => Superblock.encode ⟨30, 15, 4, 10⟩
  | 2 => Dinode.encode ⟨T_DIR, 0, 0, 1, 32, fun k => if k = 0 then 5 else 0⟩ zeroBlock ROOTINO
  | 4 => zeroBlock.set 0 1 63
  | 5 => smallRoot
  | _ => zeroBlock

def fullDisk : Nat → Block := Function.update smallDisk 1 (Superblock.encode ⟨16, 1, 4, 10⟩)

def startFs (disk : Nat → Block) : FsState where
  disk := disk
  locked _ := false
  trans := none
  n := 0
  sector _ := 0
  icache e :=
    { dev := ROOTDEV
      inum := if e = rootEntry then ROOTINO else 0
      ref := if e = rootEntry then 1 else 0
      busy := false
      valid := false
      copy := ⟨0, 0, 0, 0, 0, fun _ => 0⟩ }
  input := []

def start (disk : Nat → Block) : Sys where
  fs := startFs disk
  file _ := ⟨.FD_NONE, 0, false, false, 0, rootEntry, false, 0⟩
  ofile _ _ := none
  cwd p := if p = initproc then some rootEntry else none
  life p := if p = initproc then .live else .unused
  pipe _ := ⟨false, false⟩
  free := [1, 2]
  allocs _ := 0
  frees _ := 0

theorem boot_start (disk : Nat → Block) : Boot (start disk) := by
  constructor <;> simp [start, startFs]

/-! ## Evaluation

What a run on a small disk uses of the tables: some entries of the inode cache, and the
sectors of the disk. -/

open Forced (force)

instance : Forced Dinode where
  force d k :=
    force d.type fun type => force d.major fun major => force d.minor fun minor =>
    force d.nlink fun nlink => force d.size fun size => table (NDIRECT + 1) d.addrs fun addrs =>
    k ⟨type, major, minor, nlink, size, addrs⟩
  force_eq d k := by simp

instance : Forced Inode where
  force ip k :=
    force ip.dev fun dev => force ip.inum fun inum => force ip.ref fun ref =>
    force ip.busy fun busy => force ip.valid fun valid => force ip.copy fun copy =>
    k ⟨dev, inum, ref, busy, valid, copy⟩
  force_eq ip k := by simp

instance : Forced FsState where
  force s k :=
    table 30 s.locked fun locked => force s.trans fun trans => force s.n fun n =>
    table LOGSIZE s.sector fun sector => tableFin 6 s.icache fun icache =>
    k { s with locked := locked, trans := trans, n := n, sector := sector, icache := icache }
  force_eq s k := by simp

instance : Forced Sys where
  force s k := force s.fs fun fs => k { s with fs := fs }
  force_eq s k := by simp

theorem reach_start (a : LogArea) (disk : Nat → Block)
    {C : Pool Slot Sys Act Int → Turn Slot Call Event → Prop} [∀ s e, Decidable (C s e)]
    (turns : List (Turn Slot Call Event)) {P : Pool Slot Sys Act Int → Bool}
    (h : (Pool.evaluate (system a) C 7 ⟨start disk, fun _ => none⟩ turns).map P = some true) :
    ∃ s, (machine a).Reach C s ∧ P s = true := by
  obtain ⟨s, hs, hP⟩ := Option.map_eq_some_iff.1 h
  rw [Pool.evaluate_eq] at hs
  have hboot : (machine a).Reach C ⟨start disk, fun _ => none⟩ := .init ⟨boot_start disk, rfl⟩
  exact ⟨s, hboot.runList (fun _ _ _ ht => ht) turns hs, hP⟩

end Xv6.Files
