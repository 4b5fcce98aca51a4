import Xv6.Vm.Frames

/-!
# What a call does to the tables

A call changes the process table and the shared blocks in one of a few ways, whatever
it does to the pages.  An invariant of the tables is kept by every call if it is kept
by each of these.
-/

namespace Xv6.Vm

open Xv6.Lib
open Xv6.Sched (Slot NPROC)

/-- The tables after `shm_close` has released slot `i` of process `p`, which held
`key`. -/
def Kernel.detach (k : Kernel) (p : Slot) (key i : Nat) (d : PageDir) : Kernel :=
  let b := k.block key
  let last := b.refcount - 1 = 0
  Kernel.setProc { k.setBlock key { b with refcount := if last then -1 else b.refcount - 1 } with
      quantity := if last then (k.quantity + 2 ^ 16 - 1) % 2 ^ 16 else k.quantity } p
    { k.proc p with
      shmemquantity := (k.proc p).shmemquantity - 1
      shmem := Function.update (k.proc p).shmem i (-1)
      pgdir := d }

def Kernel.activate (k : Kernel) (i : Nat) (f : Frame) : Kernel :=
  { k.setBlock i ⟨f, 0⟩ with quantity := (k.quantity + 1) % 2 ^ 16 }

def Kernel.child (k : Kernel) (p q : Slot) (kstack : Frame) (d : PageDir) : Proc :=
  { k.proc q with
    life := .live
    pid := k.nextpid
    kstack := kstack
    pgdir := d
    sz := (k.proc p).sz
    parent := some p
    shmem := fun _ => -1 }

/-- `shm_close(key)` by process `p` returns `v` and leaves the tables `k'`. -/
inductive Closes (k : Kernel) (p : Slot) (key : Int) : Int → Kernel → Prop
  | refused (h : key < 0 ∨ MAXSHM < key ∨ (k.block key.toNat).refcount = -1 ∨
        shmSlot (k.proc p) key = none) : Closes k p key (-1) k
  | detached (i : Nat) (d : PageDir) (hpos : 0 ≤ key) (hle : key ≤ MAXSHM)
      (hactive : (k.block key.toNat).refcount ≠ -1) (hslot : shmSlot (k.proc p) key = some i) :
      Closes k p key 0 (k.detach p key.toNat i d)

inductive ClosesAll (p : Slot) : List Nat → Kernel → Kernel → Prop
  | nil (k : Kernel) : ClosesAll p [] k k
  | skip {i : Nat} {is : List Nat} {k k' : Kernel} (hi : (k.proc p).shmem i = -1)
      (h : ClosesAll p is k k') : ClosesAll p (i :: is) k k'
  | close {i : Nat} {is : List Nat} {k k₁ k' : Kernel} {v : Int}
      (hi : (k.proc p).shmem i ≠ -1) (hclose : Closes k p ((k.proc p).shmem i) v k₁)
      (h : ClosesAll p is k₁ k') : ClosesAll p (i :: is) k k'

/-- The call of process `p` returns `v` and leaves the tables `k'`. -/
inductive Effect (k : Kernel) (p : Slot) : Call → Int → Kernel → Prop
  /-- The processes and the blocks stay as they are. -/
  | quiet (call : Call) (v : Int) (nextpid : Int) (pipes : List Frame)
      (hcall : call = .shmCreate → v = -1) (hexit : call ≠ .exit) :
      Effect k p call v { k with nextpid := nextpid, pipes := pipes }
  /-- The memory of the process changes. -/
  | memory (call : Call) (v : Int) (d : PageDir) (sz : Nat)
      (hcall : call ≠ .shmCreate) (hexit : call ≠ .exit) :
      Effect k p call v (k.setProc p { k.proc p with pgdir := d, sz := sz })
  | forked (q : Slot) (kstack : Frame) (d : PageDir) (hq : (k.proc q).life = .unused) :
      Effect k p .fork k.nextpid
        (Kernel.setProc { k with nextpid := k.nextpid + 1 } q (k.child p q kstack d))
  | reaped (q : Slot) (hq : (k.proc q).life = .zombie) :
      Effect k p .wait (k.proc q).pid
        (k.setProc q { k.proc q with life := .unused, pid := 0, parent := none })
  | exited (k' : Kernel) (hp : p ≠ k.initproc)
      (hclose : ClosesAll p (List.range MAXSHMPROC) k k') : Effect k p .exit 0 (k'.bury p)
  | created (i : Nat) (f : Frame) (hi : i < MAXSHM) (hfree : (k.block i).refcount = -1) :
      Effect k p .shmCreate i (k.activate i f)
  | attached (key : Int) (mem i : Nat) (d : PageDir) (k' : Kernel) (hi : Gets k p (int32 key) i)
      (hstored : Stored (k.attach p (int32 key).toNat i d) mem k') :
      Effect k p (.shmGet key mem) 0 k'
  | closed (key v : Int) (k' : Kernel) (h : Closes k p (int32 key) v k') :
      Effect k p (.shmClose key) v k'

section

variable {k : Kernel} {p : Slot} {m : Mem}

theorem post_shmClose_closes (key : Int) :
    (shmClose k p key).post (fun r _ => Closes k p key r.1 r.2) m := by
  unfold shmClose
  split_ifs with hkey
  · exact .refused (hkey.imp_right fun h => h.imp_right Or.inl)
  simp only
  cases hslot : shmSlot (k.proc p) key with
  | none => exact .refused (.inr (.inr (.inr hslot)))
  | some i =>
    simp only [not_or, not_lt] at hkey
    apply Prog.wp_seq Prog.post_trivial
    intro d _ _
    exact .detached i d hkey.1 hkey.2.1 hkey.2.2 hslot

theorem post_closeAll_closes (is : List Nat) :
    (closeAll p is k).post (fun k' _ => ClosesAll p is k k') m := by
  induction is generalizing k m with
  | nil => exact .nil k
  | cons i is ih =>
    rw [closeAll_cons]
    split_ifs with hi
    · apply Prog.wp_seq (post_shmClose_closes _)
      intro r m₁ h₁
      exact Prog.wp_imp ih fun _ _ h => .close hi h₁ h
    · exact Prog.wp_imp ih fun _ _ h => .skip (not_not.1 hi) h

theorem post_shmCreate_effect :
    (shmCreate k).post (fun r _ => Effect k p .shmCreate r.1 r.2) m := by
  unfold shmCreate
  split_ifs
  · exact .quiet _ _ k.nextpid k.pipes (fun _ => rfl) (by simp)
  cases hi : (List.range MAXSHM).find? fun i => (k.block i).refcount = -1 with
  | none => exact .quiet _ _ k.nextpid k.pipes (fun _ => rfl) (by simp)
  | some i =>
    have hfree : (k.block i).refcount = -1 := by simpa using List.find?_some hi
    have hlt : i < MAXSHM := List.mem_range.1 (List.mem_of_find?_eq_some hi)
    apply Prog.wp_seq Prog.post_trivial
    intro mem _ _
    exact .created i _ hlt hfree

theorem post_shmGet_effect (key : Int) (mem : Nat) :
    ((Call.shmGet key mem).code k p).post (fun r _ => Effect k p (.shmGet key mem) r.1 r.2) m := by
  have hget : (sysShmGet k p (int32 key) mem).post
      (fun r _ => Effect k p (.shmGet key mem) (if r.1.isSome then 0 else -1) r.2) m := by
    refine post_sysShmGet ?_ fun i hi => Prog.wp_imp Prog.post_trivial
      fun r _ _ k' hstored => .attached key mem i r.1 k' hi hstored
    exact .quiet _ _ k.nextpid k.pipes (fun h => by simp at h) (by simp)
  apply Prog.wp_seq hget
  intro r _ h
  exact h

theorem post_fork_effect : (fork k p).post (fun r _ => Effect k p .fork r.1 r.2) m := by
  apply post_fork_of (R := fun r => Effect k p .fork r.1 r.2) (P := fun _ => True)
  · exact .quiet _ _ k.nextpid k.pipes (fun h => by simp at h) (by simp)
  · exact .quiet _ _ (k.nextpid + 1) k.pipes (fun h => by simp at h) (by simp)
  · exact fun _ => by simpa using Prog.post_trivial
  · exact fun q g d hunused _ => .forked q g d hunused

theorem post_wait_effect : (wait k p).post (fun r _ => Effect k p .wait r.1 r.2) m := by
  unfold wait
  simp only
  generalize (List.finRange NPROC).filter _ = kids
  cases hq : kids.find? fun q => (k.proc q).life = .zombie with
  | none =>
    simp only
    split_ifs
    · exact .quiet _ _ k.nextpid k.pipes (fun h => by simp at h) (by simp)
    · exact Prog.wp_atomic trivial (by simp) fun _ _ => trivial
  | some q =>
    have hzombie : (k.proc q).life = .zombie := by simpa using List.find?_some hq
    apply Prog.wp_seq Prog.post_trivial
    intro _ _ _
    apply Prog.wp_seq Prog.post_trivial
    intro _ _ _
    exact .reaped q hzombie

theorem post_growproc_effect (n : Int) :
    (growproc k p n).post (fun r _ => ∀ call : Call, call ≠ .shmCreate → call ≠ .exit →
      Effect k p call r.1 r.2) m := by
  unfold growproc
  simp only
  split_ifs
  · apply Prog.wp_seq Prog.post_trivial
    intro r _ _
    by_cases hr : r.2 = 0
    · simp only [hr]
      exact fun call hcall hexit => .memory call _ _ _ hcall hexit
    · simp only [hr]
      exact fun call hcall hexit => .memory call _ _ _ hcall hexit
  · apply Prog.wp_seq Prog.post_trivial
    intro r _ _
    by_cases hr : r.2 = 0
    · simp only [hr]
      exact fun call hcall hexit => .memory call _ _ _ hcall hexit
    · simp only [hr]
      exact fun call hcall hexit => .memory call _ _ _ hcall hexit
  · exact fun call hcall hexit => .quiet call _ k.nextpid k.pipes (fun h => absurd h hcall) hexit

/-- What a call can do. -/
theorem post_code_effect (call : Call) :
    (call.code k p).post (fun r _ => Effect k p call r.1 r.2) m := by
  cases call with
  | sbrk n =>
    refine Prog.wp_imp (post_growproc_effect (int32 n)) ?_
    exact fun r _ h => h _ (by simp) (by simp)
  | fork => exact post_fork_effect
  | exec img =>
    apply Prog.wp_seq Prog.post_trivial
    intro r _ _
    cases r with
    | none => exact .quiet _ _ k.nextpid k.pipes (fun h => by simp at h) (by simp)
    | some ds =>
      apply Prog.wp_seq Prog.post_trivial
      intro _ _ _
      exact .memory _ _ _ _ (by simp) (by simp)
  | exit =>
    unfold Call.code Vm.exit
    split_ifs with hp
    · exact wp_panic trivial trivial
    · apply Prog.wp_seq (post_closeAll_closes _)
      intro k₁ _ h₁
      exact .exited k₁ hp h₁
  | wait => exact post_wait_effect
  | shmCreate => exact post_shmCreate_effect
  | shmGet key mem => exact post_shmGet_effect key mem
  | shmClose key =>
    refine Prog.wp_imp (post_shmClose_closes _) ?_
    exact fun r _ h => .closed key r.1 r.2 h
  | pipe =>
    apply Prog.wp_seq Prog.post_trivial
    intro f _ _
    cases f with
    | none => exact .quiet _ _ k.nextpid k.pipes (fun h => by simp at h) (by simp)
    | some f => exact .quiet _ _ k.nextpid (f :: k.pipes) (fun h => by simp at h) (by simp)
  | pipeclose f =>
    show (Vm.pipeclose k f).post (fun r _ => Effect k p (.pipeclose f) r.1 r.2) m
    unfold Vm.pipeclose
    split_ifs
    · apply Prog.wp_seq Prog.post_trivial
      intro _ _ _
      exact .quiet _ _ k.nextpid (k.pipes.erase f) (fun h => by simp at h) (by simp)
    · exact .quiet _ _ k.nextpid k.pipes (fun h => by simp at h) (by simp)

end

end Xv6.Vm
