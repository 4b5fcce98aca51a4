import Xv6.Vm.ShmCount

/-!
# Single calls of `sharedmem.c`

What happens to the page of a block when its last slot is closed, and which calls are turned
away without a change.
-/

namespace Xv6.Vm

open Xv6.Lib
open Xv6.Sched (Slot NPROC)

variable {k : Kernel} {m : Mem} {p : Slot}

/-! ## The page of a block that is closed -/

theorem post_clearRange_keep {msg : String} {top fuel a : Nat} {d : PageDir} :
    (clearRange msg (fun _ => true) top fuel d a).post (fun _ m' => m' = m) m := by
  induction fuel generalizing d a with
  | zero => exact rfl
  | succ fuel ih =>
    rw [clearRange]
    by_cases ha : a < top
    · rw [if_pos ha]
      split
      · exact ih
      · split
        · exact ih
        · split_ifs
          · exact wp_panic trivial trivial
          · exact absurd ‹_› (by simp)
          · exact ih
    · rw [if_neg ha]
      exact rfl

theorem post_unmap_keep {d : PageDir} {va size : Nat} {freeframes : Int} (h : freeframes ≠ 0) :
    (unmap d va size freeframes).post (fun _ m' => m' = m) m := by
  have hkeep : (fun _ : Frame => decide (freeframes ≠ 0)) = fun _ => true := by
    funext _
    exact decide_eq_true h
  simp only [unmap]
  rw [hkeep]
  exact post_clearRange_keep

theorem post_shmClose_mem (key : Int) : (shmClose k p key).post (fun _ m' => m' = m) m := by
  unfold shmClose
  split_ifs
  · exact rfl
  simp only
  split
  · exact rfl
  · apply Prog.wp_seq (post_unmap_keep ?_)
    · intro d m' hm
      exact hm
    · split_ifs with hlast
      · decide
      · exact hlast

theorem post_closeAll_mem (is : List Nat) : (closeAll p is k).post (fun _ m' => m' = m) m := by
  induction is generalizing k with
  | nil => exact rfl
  | cons i is ih =>
    rw [closeAll_cons]
    split_ifs
    · apply Prog.wp_seq (post_shmClose_mem _)
      intro r m' hm
      rw [hm]
      exact ih
    · exact ih

def Call.Closing (key : Nat) : Call → Prop
  | .shmClose key' => int32 key' = key
  | .exit => True
  | _ => False

theorem post_closing_mem {call : Call} {key : Nat} (h : call.Closing key) :
    (call.code k p).post (fun _ m' => m' = m) m := by
  cases call with
  | shmClose key' => exact post_shmClose_mem _
  | exit =>
    change (Vm.exit k p).post _ m
    unfold Vm.exit
    split_ifs
    · exact wp_panic trivial trivial
    · apply Prog.wp_seq (post_closeAll_mem _)
      intro k' m' hm
      exact hm
  | sbrk | fork | exec | wait | shmCreate | shmGet | pipe | pipeclose => exact h.elim

structure OnlySlot (k : Kernel) (p : Slot) (key : Nat) : Prop where
  lt : key < MAXSHM
  one : (k.block key).refcount = 1
  slot : ∃ i, i < MAXSHMPROC ∧ (k.proc p).shmem i = key ∧
    ∀ j, j < MAXSHMPROC → (k.proc p).shmem j = key → j = i

theorem shmSlot_isSome {r : Proc} {key : Int} {i : Nat} (hi : i < MAXSHMPROC)
    (hkey : r.shmem i = key) : ∃ j, shmSlot r key = some j := by
  have hsome : (shmSlot r key).isSome := by
    unfold shmSlot
    rw [List.find?_isSome]
    exact ⟨i, List.mem_range.2 hi, by simpa using hkey⟩
  exact Option.isSome_iff_exists.1 hsome

theorem OnlySlot.closes {key : Nat} {v : Int} {k' : Kernel} (h : OnlySlot k p key)
    (hclose : Closes k p key v k') : (k'.block key).refcount = -1 := by
  obtain ⟨i, hi, hkey, _⟩ := h.slot
  have hlt := h.lt
  cases hclose with
  | refused hno =>
    obtain ⟨j, hj⟩ := shmSlot_isSome hi hkey
    rcases hno with hneg | hbig | hfree | hslot
    · omega
    · omega
    · rw [Int.toNat_natCast, h.one] at hfree
      omega
    · rw [hj] at hslot
      exact absurd hslot (by simp)
  | detached j d hpos hle hactive hslot =>
    rw [Int.toNat_natCast]
    simp [Kernel.detach, Kernel.setProc, Kernel.setBlock, h.one]

theorem Closes.stays_free {key : Nat} {key' v : Int} {k' : Kernel}
    (h : Closes k p key' v k') (hfree : (k.block key).refcount = -1) :
    (k'.block key).refcount = -1 := by
  cases h with
  | refused => exact hfree
  | detached j d hpos hle hactive hslot =>
    have hne : key ≠ key'.toNat := by
      rintro rfl
      exact hactive hfree
    simpa [Kernel.detach, Kernel.setProc, Kernel.setBlock, hne] using hfree

theorem ClosesAll.stays_free {key : Nat} {is : List Nat} {k' : Kernel} (h : ClosesAll p is k k')
    (hfree : (k.block key).refcount = -1) : (k'.block key).refcount = -1 := by
  induction h with
  | nil k => exact hfree
  | skip _ _ ih => exact ih hfree
  | close _ hclose _ ih => exact ih (hclose.stays_free hfree)

theorem OnlySlot.of_closes {key : Nat} {key' v : Int} {k' : Kernel} (h : OnlySlot k p key)
    (hclose : Closes k p key' v k') (hne : key' ≠ key) : OnlySlot k' p key := by
  cases hclose with
  | refused => exact h
  | detached j d hpos hle hactive hslot =>
    have hblock : key ≠ key'.toNat := by omega
    obtain ⟨i, hi, hkey, honly⟩ := h.slot
    obtain ⟨hj, hjkey⟩ := shmSlot_eq_some hslot
    have hij : i ≠ j := by
      rintro rfl
      exact hne (hjkey.symm.trans hkey)
    refine ⟨h.lt, ?_, i, hi, ?_, fun l hl hlkey => ?_⟩
    · simpa [Kernel.detach, Kernel.setProc, Kernel.setBlock, hblock] using h.one
    · simpa [Kernel.detach, Kernel.setProc, hij] using hkey
    · apply honly l hl
      by_cases hlj : l = j
      · subst hlj
        simp [Kernel.detach, Kernel.setProc] at hlkey
      · simpa [Kernel.detach, Kernel.setProc, hlj] using hlkey

theorem OnlySlot.closesAll {key : Nat} {is : List Nat} {k' : Kernel} (h : OnlySlot k p key)
    (hclose : ClosesAll p is k k')
    (hmem : ∀ i, i < MAXSHMPROC → (k.proc p).shmem i = key → i ∈ is) :
    (k'.block key).refcount = -1 := by
  induction hclose with
  | nil k =>
    obtain ⟨i, hi, hkey, _⟩ := h.slot
    exact absurd (hmem i hi hkey) (by simp)
  | @skip i is k k' hi hrest ih =>
    apply ih h
    intro j hj hkey
    rcases List.mem_cons.1 (hmem j hj hkey) with rfl | hin
    · omega
    · exact hin
  | @close i is k k₁ k' v hi hclose hrest ih =>
    by_cases hkey : (k.proc p).shmem i = key
    · rw [hkey] at hclose
      exact hrest.stays_free (h.closes hclose)
    · apply ih (h.of_closes hclose hkey)
      intro j hj hjkey
      have hold : (k.proc p).shmem j = key := by
        cases hclose with
        | refused => exact hjkey
        | detached l d hpos hle hactive hslot =>
          by_cases hjl : j = l
          · subst hjl
            simp [Kernel.detach, Kernel.setProc] at hjkey
          · simpa [Kernel.detach, Kernel.setProc, hjl] using hjkey
      rcases List.mem_cons.1 (hmem j hj hold) with rfl | hin
      · exact absurd hold hkey
      · exact hin

theorem OnlySlot.post_closing {key : Nat} {call : Call} (h : OnlySlot k p key)
    (hcall : call.Closing key) :
    (call.code k p).post (fun r _ => (r.2.block key).refcount = -1) m := by
  cases call with
  | shmClose key' =>
    have hkey : int32 key' = key := hcall
    change (Vm.shmClose k p (int32 key')).post _ m
    rw [hkey]
    exact Prog.wp_imp (post_shmClose_closes _) fun _ _ hclose => h.closes hclose
  | exit =>
    change (Vm.exit k p).post _ m
    unfold Vm.exit
    split_ifs
    · exact wp_panic trivial trivial
    · apply Prog.wp_seq (post_closeAll_closes _)
      intro k' m' hclose
      change (k'.block key).refcount = -1
      exact h.closesAll hclose fun i hi _ => List.mem_range.2 hi
  | sbrk | fork | exec | wait | shmCreate | shmGet | pipe | pipeclose => exact hcall.elim

def OthersMap (k : Kernel) (p : Slot) (f : Frame) : Prop :=
  ∃ q, q ≠ p ∧ (k.proc q).life ≠ .unused ∧ ∃ v, v < UPAGES ∧ (k.proc q).pgdir.userFrame v = some f

/-- From `s` to `t` block `key` has become free, and its page has been given back once
unless another page table than that of `p` has it. -/
structure Freed (s t : State) (p : Slot) (key : Nat) : Prop where
  free : (t.kern.block key).refcount = -1
  page : (s.kern.block key).addr ≠ NULL → ¬ OthersMap s.kern p (s.kern.block key).addr →
    t.mem.free.count (s.kern.block key).addr = s.mem.free.count (s.kern.block key).addr + 1

theorem freed_iff {s t : State} {e : Event} {key : Nat} (hnext : next s e = some t)
    (hcall : e.call.Closing key) (honly : OnlySlot s.kern e.proc key) :
    Freed s t e.proc key ↔
      (s.kern.block key).addr = NULL ∨ OthersMap s.kern e.proc (s.kern.block key).addr := by
  obtain ⟨_, v, hrun⟩ := next_eq_some hnext
  have hmem : t.mem = s.mem := (Prog.wp_run (post_closing_mem hcall)).1 _ _ hrun
  have hfree : (t.kern.block key).refcount = -1 :=
    (Prog.wp_run (honly.post_closing hcall)).1 _ _ hrun
  constructor
  · intro h
    by_contra hno
    rw [not_or] at hno
    have hcount := h.page hno.1 hno.2
    rw [hmem] at hcount
    omega
  · intro h
    exact ⟨hfree, fun haddr hothers => absurd h (not_or.2 ⟨haddr, hothers⟩)⟩

/-! ## Rounds of create, get and close -/

def Returns (s : State) (e : Event) (v : Int) (t : State) : Prop :=
  (s.kern.proc e.proc).life = .live ∧
    (e.call.code s.kern e.proc).run s.mem = .ok ((v, t.kern), t.mem)

/-- A created block is attached and closed again by process `p`. -/
def Round (p : Slot) (s t : State) : Prop :=
  ∃ key mem s₁ s₂, 0 ≤ key ∧ Returns s ⟨p, .shmCreate⟩ key s₁ ∧
    Returns s₁ ⟨p, .shmGet key mem⟩ 0 s₂ ∧ Returns s₂ ⟨p, .shmClose key⟩ 0 t

inductive Rounds (p : Slot) : Nat → State → State → Prop
  | zero (s : State) : Rounds p 0 s s
  | succ {n : Nat} {s t u : State} (hround : Round p s t) (h : Rounds p n t u) :
      Rounds p (n + 1) s u

theorem post_kalloc_tail : kalloc.post (fun _ m' => m'.free = m.free.tail) m := by
  apply wp_kalloc trivial
  · intro hfree
    rw [hfree]
    rfl
  · intro f fs hfree
    rw [hfree]
    rfl

theorem post_shmCreate_tail :
    (shmCreate k).post (fun r m' => 0 ≤ r.1 → m'.free = m.free.tail) m := by
  unfold shmCreate
  split_ifs
  · intro h
    exact absurd (show (0 : Int) ≤ -1 from h) (by decide)
  split
  · intro h
    exact absurd (show (0 : Int) ≤ -1 from h) (by decide)
  · apply Prog.wp_seq post_kalloc_tail
    intro _ m' hm _
    exact hm

theorem post_walkpgdir_suffix {d : PageDir} {v : Nat} {alloc : Bool} :
    (walkpgdir d v alloc).post (fun _ m' => m'.free <:+ m.free) m := by
  unfold walkpgdir
  split_ifs
  · exact List.suffix_rfl
  · exact List.suffix_rfl
  · apply Prog.wp_seq post_kalloc_tail
    intro o m' hm
    have hsuffix : m'.free <:+ m.free := by
      rw [hm]
      exact List.tail_suffix _
    cases o with
    | none => exact hsuffix
    | some f => exact hsuffix

theorem post_mapLoop_suffix {w u : Bool} {n v : Nat} {d : PageDir} {f : Frame} :
    (mapLoop w u n d v f).post (fun _ m' => m'.free <:+ m.free) m := by
  induction n generalizing d v f m with
  | zero => exact List.suffix_rfl
  | succ n ih =>
    apply Prog.wp_seq post_walkpgdir_suffix
    intro o m' hm
    cases o with
    | none => exact hm
    | some d' =>
      simp only
      split_ifs
      · exact wp_panic trivial trivial
      · exact Prog.wp_imp ih fun _ _ h => h.trans hm

theorem post_shmGet_suffix (key : Int) (mem : Nat) :
    (Call.code k p (.shmGet key mem)).post (fun _ m' => m'.free <:+ m.free) m := by
  have hget : (sysShmGet k p (int32 key) mem).post (fun _ m' => m'.free <:+ m.free) m :=
    post_sysShmGet List.suffix_rfl fun i _ => Prog.wp_imp post_mapLoop_suffix fun _ _ hm _ _ => hm
  exact Prog.wp_seq hget fun _ _ hm => hm

theorem Round.suffix {s t : State} (h : Round p s t) : t.mem.free <:+ s.mem.free.tail := by
  obtain ⟨key, mem, s₁, s₂, hkey, ⟨_, hcreate⟩, ⟨_, hget⟩, ⟨_, hclose⟩⟩ := h
  have h₁ : s₁.mem.free = s.mem.free.tail :=
    (Prog.wp_run post_shmCreate_tail).1 _ _ hcreate hkey
  have h₂ : s₂.mem.free <:+ s₁.mem.free := (Prog.wp_run (post_shmGet_suffix key mem)).1 _ _ hget
  have h₃ : t.mem = s₂.mem := (Prog.wp_run (post_shmClose_mem (int32 key))).1 _ _ hclose
  rw [h₃, ← h₁]
  exact h₂

theorem Rounds.suffix {n : Nat} {s t : State} (h : Rounds p n s t) :
    t.mem.free <:+ s.mem.free := by
  induction h with
  | zero s => exact List.suffix_rfl
  | succ hround _ ih => exact ih.trans (hround.suffix.trans (List.tail_suffix _))

theorem Rounds.length_eq_iff {n : Nat} {s t : State} (h : Rounds p n s t) :
    t.mem.free.length = s.mem.free.length ↔ n = 0 ∨ s.mem.free = [] := by
  cases h with
  | zero => simp
  | @succ n s u t hround hrest =>
    have hle : t.mem.free.length ≤ s.mem.free.length - 1 := by
      calc t.mem.free.length
          ≤ u.mem.free.length := hrest.suffix.length_le
        _ ≤ s.mem.free.tail.length := hround.suffix.length_le
        _ = s.mem.free.length - 1 := List.length_tail
    rw [← List.length_eq_zero_iff]
    omega

/-- Closing the only slot of a block gives its page back only where that is not asked
for, and rounds of creating and closing a block use the pages up. -/
theorem last_close_frees (s t : State) :
    (∀ (e : Event) (key : Nat), next s e = some t → e.call.Closing key →
      OnlySlot s.kern e.proc key → (Freed s t e.proc key ↔
        (s.kern.block key).addr = NULL ∨ OthersMap s.kern e.proc (s.kern.block key).addr)) ∧
    ∀ (p : Slot) (n : Nat), Rounds p n s t →
      (t.mem.free.length = s.mem.free.length ↔ n = 0 ∨ s.mem.free = []) :=
  ⟨fun _ _ => freed_iff, fun _ _ => Rounds.length_eq_iff⟩

theorem OnlySlot.of_slots {key i : Nat} (hlt : key < MAXSHM) (hone : (k.block key).refcount = 1)
    (hslots : (List.range MAXSHMPROC).filter (fun i => (k.proc p).shmem i = key) = [i]) :
    OnlySlot k p key := by
  have hmem : ∀ j, j < MAXSHMPROC ∧ (k.proc p).shmem j = key ↔ j = i := by
    intro j
    rw [← List.mem_singleton (a := j), ← hslots]
    simp
  exact ⟨hlt, hone, i, ((hmem i).2 rfl).1, ((hmem i).2 rfl).2, fun j hj hkey => (hmem j).1 ⟨hj, hkey⟩⟩

/-- A child has inherited the page when its parent closes the block. -/
theorem last_close_frees_inherited : ∃ s₀ s t, Boots (-5) smallMem s₀ ∧
    (machine s₀).Reachable s ∧ next s ⟨⟨1, by decide⟩, .shmClose 0⟩ = some t ∧
      OnlySlot s.kern ⟨1, by decide⟩ 0 ∧ Freed s t ⟨1, by decide⟩ 0 := by
  have hrun : ((smallRun (fun _ _ => True) (shareRun ++ [⟨⟨1, by decide⟩, .fork⟩])).bind fun s =>
        (next s ⟨⟨1, by decide⟩, .shmClose 0⟩).map fun _ =>
          ((s.kern.block 0).refcount, (s.kern.block 0).addr,
            (List.range MAXSHMPROC).filter (fun i => (s.kern.proc ⟨1, by decide⟩).shmem i = 0),
            (s.kern.proc ⟨2, by decide⟩).life,
            (s.kern.proc ⟨2, by decide⟩).pgdir.userFrame 1)) =
      some (1, 1136, [0], .live, some 1136) := by
    decide +kernel
  obtain ⟨s, hs, hrun⟩ := Option.bind_eq_some_iff.1 hrun
  obtain ⟨s₀, hboots, hreach⟩ := exists_of_smallRun hs
  obtain ⟨t, hnext, hend⟩ := Option.map_eq_some_iff.1 hrun
  simp only [Prod.mk.injEq] at hend
  obtain ⟨hone, haddr, hslots, hlive, hmap⟩ := hend
  have honly : OnlySlot s.kern ⟨1, by decide⟩ 0 := .of_slots (by decide) hone hslots
  refine ⟨s₀, s, t, hboots, hreach, hnext, honly, ?_⟩
  apply ((last_close_frees s t).1 _ 0 hnext (show int32 0 = 0 by decide) honly).2
  exact .inr ⟨⟨2, by decide⟩, by decide, by simp [hlive], 1, by decide, by rw [hmap, haddr]⟩

theorem userFrame_ne {d : PageDir} {f : Frame}
    (h : (List.range (UPAGES / NPTENTRIES)).all (fun i => (d.table i).all fun t =>
      (List.range NPTENTRIES).all fun j => (t.pte j).map Pte.frame ≠ some f) = true)
    {v : Nat} (hv : v < UPAGES) : d.userFrame v ≠ some f := by
  intro hmap
  simp only [PageDir.userFrame, PageDir.lookup, Option.map_eq_some_iff, Option.bind_eq_some_iff]
    at hmap
  obtain ⟨pte, ⟨t, ht, hpte⟩, hframe⟩ := hmap
  have hi : v / NPTENTRIES < UPAGES / NPTENTRIES := by
    unfold NPTENTRIES UPAGES KERNBASE PGSIZE at *
    omega
  have hj : v % NPTENTRIES < NPTENTRIES := Nat.mod_lt _ (by decide)
  have hall := List.all_eq_true.1 h _ (List.mem_range.2 hi)
  rw [ht, Option.all_some] at hall
  have hne := List.all_eq_true.1 hall _ (List.mem_range.2 hj)
  simp [hpte, hframe] at hne

/-- A process creates a block, attaches it and closes it again: the page is lost. -/
theorem closed_page_lost : ¬ ∀ (name : Int) (m : Mem) (s₀ s t : State) (e : Event) (key : Nat),
    Boots name m s₀ → (machine s₀).Reachable s → next s e = some t → e.call.Closing key →
      OnlySlot s.kern e.proc key → Freed s t e.proc key := by
  intro hall
  have hrun : ((smallRun (fun _ _ => True) shareRun).bind fun s =>
        (next s ⟨⟨1, by decide⟩, .shmClose 0⟩).map fun t =>
          (((s.kern.block 0).refcount, (s.kern.block 0).addr,
            (List.range MAXSHMPROC).filter fun i => (s.kern.proc ⟨1, by decide⟩).shmem i = 0),
            decide (∀ q : Slot, q ≠ ⟨1, by decide⟩ → (s.kern.proc q).life ≠ .unused →
              q = ⟨0, by decide⟩),
            (List.range (UPAGES / NPTENTRIES)).all (fun i =>
              ((s.kern.proc ⟨0, by decide⟩).pgdir.table i).all fun t =>
                (List.range NPTENTRIES).all fun j => (t.pte j).map Pte.frame ≠ some 1136),
            s.mem.free.count 1136, t.mem.free.count 1136)) =
      some ((1, 1136, [0]), true, true, 0, 0) := by
    decide +kernel
  obtain ⟨s, hs, hrun⟩ := Option.bind_eq_some_iff.1 hrun
  obtain ⟨s₀, hboots, hreach⟩ := exists_of_smallRun hs
  obtain ⟨t, hnext, hend⟩ := Option.map_eq_some_iff.1 hrun
  simp only [Prod.mk.injEq] at hend
  obtain ⟨⟨hone, haddr, hslots⟩, hlive, htables, hbefore, hafter⟩ := hend
  have hfreed := hall (-5) smallMem s₀ s t _ 0 hboots hreach hnext
    (show int32 0 = 0 by decide)
    (.of_slots (by decide) hone hslots)
  have hcount := hfreed.page (by rw [haddr]; decide) ?_
  · rw [haddr, hbefore, hafter] at hcount
    omega
  · rintro ⟨q, hq, hlife, v, hv, hmap⟩
    obtain rfl := of_decide_eq_true hlive q hq hlife
    rw [haddr] at hmap
    exact userFrame_ne htables hv hmap

/-! ## Calls that are turned away -/

inductive ShmCall
  | create
  | get (key : Int) (mem : Nat)
  | close (key : Int)

namespace ShmCall

/-- `sys_shm_create`, `sys_shm_get` and `sys_shm_close`. -/
def code (k : Kernel) (p : Slot) : ShmCall → VmM (Int × Kernel)
  | create => shmCreate k
  | get key mem => do
    let (a, k) ← sysShmGet k p key mem
    pure (if a.isSome then 0 else -1, k)
  | close key => shmClose k p key

/-- The key is that of a created block, and the pointer is inside the address space. -/
def Valid (k : Kernel) (p : Slot) : ShmCall → Prop
  | create => True
  | get key mem => Created k key ∧ mem + 4 ≤ (k.proc p).sz
  | close key => Created k key

/-- There is the page table for the page at the end of the process, or a page for it. -/
def TableFor (k : Kernel) (m : Mem) (p : Slot) : Prop :=
  (k.proc p).pgdir.table ((k.proc p).sz / PGSIZE / NPTENTRIES) ≠ none ∨ m.free ≠ []

/-- The call should fail: a wrong argument, no page or no slot. -/
def Bad (k : Kernel) (m : Mem) (p : Slot) : ShmCall → Prop
  | create => m.free = [] ∨ ∀ i, i < MAXSHM → (k.block i).refcount ≠ -1
  | get key mem => ¬ Valid k p (get key mem) ∨ ¬ TableFor k m p ∨ shmSlot (k.proc p) (-1) = none
  | close key => ¬ Valid k p (close key)

def Accepts (k : Kernel) (p : Slot) : ShmCall → Prop
  | create => k.quantity ≠ MAXSHM ∧ ∃ i, i < MAXSHM ∧ (k.block i).refcount = -1
  | get key _ => (k.proc p).shmemquantity < MAXSHMPROC ∧ 0 ≤ key ∧ key ≤ MAXSHM ∧
      (k.block key.toNat).refcount ≠ MAXSHMPROC ∧ shmSlot (k.proc p) (-1) ≠ none
  | close key => 0 ≤ key ∧ key ≤ MAXSHM ∧ (k.block key.toNat).refcount ≠ -1 ∧
      shmSlot (k.proc p) key ≠ none

def Sound (k : Kernel) (m : Mem) (p : Slot) : ShmCall → Prop
  | create => m.free ≠ []
  | get key mem => Valid k p (get key mem) ∧ TableFor k m p
  | close key => Valid k p (close key)

/-- The call succeeds only with valid arguments, and where it should fail it returns -1
and changes nothing. -/
structure Clean (k : Kernel) (m : Mem) (p : Slot) (call : ShmCall) : Prop where
  valid : ∀ v k' m', (call.code k p).run m = .ok ((v, k'), m') → v ≠ -1 → call.Valid k p
  refuses : call.Bad k m p → (call.code k p).run m = .ok ((-1, k), m)

theorem find_inactive_eq_none :
    ((List.range MAXSHM).find? fun i => (k.block i).refcount = -1) = none ↔
      ¬ ∃ i, i < MAXSHM ∧ (k.block i).refcount = -1 := by
  simp

theorem run_of_not_accepts {call : ShmCall} (h : ¬ call.Accepts k p) :
    (call.code k p).run m = .ok ((-1, k), m) := by
  cases call with
  | create =>
    change (shmCreate k).run m = _
    unfold shmCreate
    split_ifs with hfull
    · rfl
    · rw [find_inactive_eq_none.2 fun hi => h ⟨hfull, hi⟩]
      rfl
  | get key mem =>
    have hget : sysShmGet k p key mem = pure (none, k) := by
      unfold sysShmGet shmGet
      split_ifs with hquantity hkey
      · rfl
      · rfl
      · simp only [not_or, not_lt] at hkey
        cases hslot : shmSlot (k.proc p) (-1) with
        | none => simp only [hslot]
        | some i =>
          exact absurd ⟨not_le.1 hquantity, hkey.1, hkey.2.1, hkey.2.2, by simp [hslot]⟩ h
    simp only [code, hget]
    rfl
  | close key =>
    change (shmClose k p key).run m = _
    unfold shmClose
    split_ifs with hkey
    · rfl
    · simp only [not_or, not_lt] at hkey
      cases hslot : shmSlot (k.proc p) key with
      | none =>
        simp only [hslot]
        rfl
      | some i => exact absurd ⟨hkey.1, hkey.2.1, hkey.2.2, by simp [hslot]⟩ h

theorem post_of_accepts {call : ShmCall} (h : call.Accepts k p) :
    (call.code k p).post (fun r _ => r.1 ≠ -1) m := by
  cases call with
  | create =>
    change (shmCreate k).post _ m
    unfold shmCreate
    rw [if_neg h.1]
    split
    · exact absurd h.2 (find_inactive_eq_none.1 ‹_›)
    · apply Prog.wp_seq Prog.post_trivial
      intro _ _ _
      change ((_ : Nat) : Int) ≠ -1
      omega
  | get key mem =>
    obtain ⟨hquantity, hpos, hle, href, hslot⟩ := h
    have hget : (sysShmGet k p key mem).post (fun r _ => r.1 ≠ none) m := by
      unfold sysShmGet shmGet
      rw [if_neg (not_le.2 hquantity), if_neg (by simp [href]; omega)]
      simp only
      split
      · exact absurd ‹_› hslot
      · refine Prog.wp_seq Prog.post_trivial fun _ _ _ =>
          Prog.wp_seq Prog.post_trivial fun _ _ _ => ?_
        exact Option.some_ne_none _
    apply Prog.wp_seq hget
    rintro ⟨a, k'⟩ m' ha
    cases a with
    | none => exact absurd rfl ha
    | some a => exact (by decide : (0 : Int) ≠ -1)
  | close key =>
    obtain ⟨hpos, hle, href, hslot⟩ := h
    change (shmClose k p key).post _ m
    unfold shmClose
    rw [if_neg (by simp [href]; omega)]
    simp only
    split
    · exact absurd ‹_› hslot
    · apply Prog.wp_seq Prog.post_trivial
      intro _ _ _
      exact (by decide : (0 : Int) ≠ -1)

theorem bad_iff_of_accepts {call : ShmCall} (h : call.Accepts k p) :
    call.Bad k m p ↔ ¬ call.Sound k m p := by
  cases call with
  | create =>
    obtain ⟨_, i, hi, href⟩ := h
    constructor
    · rintro (hfree | hno)
      · exact not_not.2 hfree
      · exact absurd href (hno i hi)
    · intro hfree
      exact .inl (not_not.1 hfree)
  | get key mem =>
    have hslot := h.2.2.2.2
    simp only [Bad, Sound, hslot, or_false]
    exact not_and_or.symm
  | close key => exact Iff.rfl

theorem Sound.valid {call : ShmCall} (h : call.Sound k m p) : call.Valid k p := by
  cases call with
  | create => trivial
  | get key mem => exact h.1
  | close key => exact h

end ShmCall

/-- The calls are clean exactly where they are sound whenever their tests let them
through. -/
theorem shm_calls_clean (k : Kernel) (m : Mem) (p : Slot) (call : ShmCall) :
    call.Clean k m p ↔ (call.Accepts k p → call.Sound k m p) := by
  constructor
  · intro h haccepts
    by_contra hno
    have hrun := h.refuses ((ShmCall.bad_iff_of_accepts haccepts).2 hno)
    exact (Prog.wp_run (ShmCall.post_of_accepts haccepts)).1 _ _ hrun rfl
  · intro h
    by_cases haccepts : call.Accepts k p
    · have hsound := h haccepts
      exact ⟨fun _ _ _ _ _ => hsound.valid,
        fun hbad => absurd hsound ((ShmCall.bad_iff_of_accepts haccepts).1 hbad)⟩
    · have hrun := ShmCall.run_of_not_accepts (m := m) haccepts
      refine ⟨fun v k' m' hrun' hv => ?_, fun _ => hrun⟩
      rw [hrun] at hrun'
      simp only [Res.ok.injEq, Prod.mk.injEq] at hrun'
      exact absurd hrun'.1.1.symm hv

/-- A process attaches a block that nobody has created. -/
theorem shm_get_takes_inactive : ¬ ∀ (name : Int) (m : Mem) (s₀ s : State) (p : Slot)
    (call : ShmCall), Boots name m s₀ → (machine s₀).Reachable s → (s.kern.proc p).life = .live →
      call.Clean s.kern s.mem p := by
  intro hall
  have hrun : ((smallRun (fun _ _ => True) [⟨⟨0, by decide⟩, .fork⟩]).map fun s =>
        ((s.kern.proc ⟨1, by decide⟩).life, (s.kern.block 0).refcount,
          (((ShmCall.get 0 0).code s.kern ⟨1, by decide⟩).run s.mem).toOption.map
            fun r => r.1.1)) = some (.live, -1, some 0) := by
    decide +kernel
  obtain ⟨s, hs, hend⟩ := Option.map_eq_some_iff.1 hrun
  obtain ⟨s₀, hboots, hreach⟩ := exists_of_smallRun hs
  simp only [Prod.mk.injEq] at hend
  obtain ⟨hlive, href, hval⟩ := hend
  have hclean := hall (-5) smallMem s₀ s ⟨1, by decide⟩ (.get 0 0) hboots hreach hlive
  obtain ⟨⟨⟨v, k'⟩, m'⟩, hr, rfl⟩ := Option.map_eq_some_iff.1 hval
  have hcreated : 0 ≤ (s.kern.block 0).refcount :=
    (hclean.valid _ _ _ (Res.toOption_eq_some.1 hr) (by decide)).1.2.2
  omega

end Xv6.Vm
