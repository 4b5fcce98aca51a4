import Xv6.Vm.Account

/-!
# The lifetime of a physical page

The account of a page over the whole kernel: the free list, the address spaces
and kernel stacks of processes, pipes and created blocks.  No call makes it grow,
as long as a block is only attached where its own page is mapped and loses its
last reference only when one mapping of its page is left at most.
-/

namespace Xv6.Vm

open Xv6.Lib
open Xv6.Sched (Slot NPROC)

/-! ## The account of the kernel -/

def Proc.uses (S : Frame → Bool) (r : Proc) (f : Frame) : Nat :=
  if r.life = .unused then 0 else (if r.kstack = f then 1 else 0) + r.pgdir.uses S f

def Kernel.blocks (k : Kernel) (f : Frame) : Nat :=
  Nat.count (fun i => (k.block i).addr = f ∧ 0 ≤ (k.block i).refcount) MAXSHM

def total (k : Kernel) (m : Mem) (f : Frame) : Nat :=
  m.free.count f + (∑ p, (k.proc p).uses k.shared f) + k.pipes.count f + k.blocks f

def Kernel.mappings (k : Kernel) (f : Frame) : Nat :=
  ∑ p, if (k.proc p).life = .unused then 0 else (k.proc p).pgdir.mappings f

structure Proc.Sane (r : Proc) : Prop where
  kernel : r.life ≠ .unused → r.pgdir.HasKernel
  size : r.sz < (UPAGES + 1) * PGSIZE
  ref : ∀ i, ∃ v, v < UPAGES ∧ r.shmref i = v * PGSIZE

structure Kernel.Sane (k : Kernel) : Prop where
  proc : ∀ p, (k.proc p).Sane
  count : ∀ i, i < MAXSHM → -1 ≤ (k.block i).refcount

structure Single (f : Frame) (k : Kernel) (m : Mem) : Prop where
  sane : k.Sane
  le : total k m f ≤ 1

section Lemmas

variable {k : Kernel} {m m' : Mem} {f : Frame} {p : Slot} {r : Proc}

theorem Kernel.Sane.setProc (hk : k.Sane) (hr : r.Sane) : (k.setProc p r).Sane := by
  refine ⟨fun q => ?_, hk.count⟩
  by_cases hq : q = p
  · subst hq
    simpa [Kernel.setProc] using hr
  · simpa [Kernel.setProc, hq] using hk.proc q

theorem total_setProc (k : Kernel) (m m' : Mem) (p : Slot) (r : Proc) (f : Frame) :
    total (k.setProc p r) m' f + (k.proc p).uses k.shared f + m.free.count f =
      total k m f + r.uses k.shared f + m'.free.count f := by
  have hsum := sum_assign (fun q => (k.proc q).uses k.shared f) p (r.uses k.shared f)
  have hupd : (∑ q, ((k.setProc p r).proc q).uses (k.setProc p r).shared f) =
      ∑ q, Function.update (fun q => (k.proc q).uses k.shared f) p (r.uses k.shared f) q := by
    apply Finset.sum_congr rfl
    intro q _
    by_cases hq : q = p
    · subst hq
      simp only [Kernel.setProc, Function.update_self]
      rfl
    · simp only [Kernel.setProc, Function.update_of_ne hq]
      rfl
  have hblocks : (k.setProc p r).blocks f = k.blocks f := rfl
  have hpipes : (k.setProc p r).pipes = k.pipes := rfl
  simp only [total, hupd, hblocks, hpipes]
  omega

theorem Single.setProc (h : Single f k m) (hr : r.Sane)
    (hle : r.uses k.shared f + m'.free.count f ≤ (k.proc p).uses k.shared f + m.free.count f) :
    Single f (k.setProc p r) m' := by
  refine ⟨h.sane.setProc hr, ?_⟩
  have htotal := total_setProc k m m' p r f
  have hone := h.le
  omega

theorem Proc.uses_of_life {S : Frame → Bool} (h : r.life ≠ .unused) :
    r.uses S f = (if r.kstack = f then 1 else 0) + r.pgdir.uses S f := by
  rw [uses, if_neg h]

theorem Single.setSpace (h : Single f k m) (hlive : (k.proc p).life ≠ .unused) {d : PageDir}
    (hd : d.HasKernel) {sz : Nat} (hsz : sz < (UPAGES + 1) * PGSIZE)
    (hle : d.uses k.shared f + m'.free.count f ≤
      (k.proc p).pgdir.uses k.shared f + m.free.count f) :
    Single f (k.setProc p { (k.proc p) with pgdir := d, sz := sz }) m' := by
  refine h.setProc ⟨fun _ => hd, hsz, (h.sane.proc p).ref⟩ ?_
  rw [Proc.uses_of_life (r := { (k.proc p) with pgdir := d, sz := sz }) hlive,
    Proc.uses_of_life hlive]
  dsimp only
  omega

end Lemmas

/-! ## The calls -/

section Calls

variable {k : Kernel} {m : Mem} {f : Frame} {p : Slot}

theorem post_growproc (h : Single f k m) (hlive : (k.proc p).life ≠ .unused) (n : Int) :
    (growproc k p n).post (fun r m' => Single f r.2 m') m := by
  have hp := h.sane.proc p
  have hd := hp.kernel hlive
  have hsz := hp.size
  have hbase : KERNBASE < (UPAGES + 1) * PGSIZE := by decide
  unfold growproc
  split_ifs
  · apply Prog.wp_seq (post_allocuvm (S := k.shared) (f := f) hd)
    rintro ⟨d, sz⟩ m₁ ⟨hd₁, hwithin, hsz₁⟩
    simp only [Within, Nat.add_zero] at hwithin
    simp only at hsz₁ ⊢
    split_ifs
    · exact h.setSpace hlive hd₁ hsz hwithin
    · exact h.setSpace hlive hd₁ (by omega) hwithin
  · apply Prog.wp_seq (post_deallocuvm (S := k.shared) (f := f) hsz.le hd)
    rintro ⟨d, sz⟩ m₁ ⟨hd₁, hwithin, hsz₁⟩
    simp only [Within, Nat.add_zero] at hwithin
    simp only at hsz₁ ⊢
    split_ifs
    · exact h.setSpace hlive hd₁ hsz hwithin
    · exact h.setSpace hlive hd₁ (by omega) hwithin
  · exact h

theorem post_exec (h : Single f k m) (hlive : (k.proc p).life ≠ .unused) (img : Image) :
    (exec k p img).post (fun r m' => Single f r.2 m') m := by
  have hbase : KERNBASE < (UPAGES + 1) * PGSIZE := by decide
  apply Prog.wp_seq (post_execSpace (S := k.shared) (f := f))
  rintro r m₁ ⟨hle, hsome⟩
  cases r with
  | none =>
    refine ⟨h.sane, ?_⟩
    have hone := h.le
    simp only [total] at hone ⊢
    omega
  | some ds =>
    obtain ⟨hacc, hd, hsz⟩ := hsome ds.1 ds.2 rfl
    apply Prog.wp_seq (post_freevm (S := k.shared) (f := f) ((h.sane.proc p).kernel hlive))
    intro _ m₂ hm₂
    exact h.setSpace hlive hd (by omega) (by omega)

theorem Single.mono {m' : Mem} (h : Single f k m) (hle : m'.free.count f ≤ m.free.count f) :
    Single f k m' := by
  refine ⟨h.sane, ?_⟩
  have hone := h.le
  simp only [total] at hone ⊢
  omega

theorem life_of_unusedSlot {q : Slot} (h : unusedSlot k = some q) : (k.proc q).life = .unused := by
  simpa using List.find?_some h

theorem post_fork_of {R : Int × Kernel → Prop} {P : PageDir → Prop} (hfull : R (-1, k))
    (hfail : R (-1, { k with nextpid := k.nextpid + 1 }))
    (hcopy : ∀ m, (copyuvm k.shared (k.proc p).pgdir (k.proc p).sz).post
      (fun r _ => ∀ d, r = some d → P d) m)
    (hchild : ∀ q g d, (k.proc q).life = .unused → P d → R (k.nextpid,
      Kernel.setProc { k with nextpid := k.nextpid + 1 } q
        { (k.proc q) with
          life := .live, pid := k.nextpid, kstack := g, pgdir := d, sz := (k.proc p).sz
          parent := some p, shmem := fun _ => -1 })) :
    (fork k p).post (fun r _ => R r) m := by
  unfold fork
  cases hslot : unusedSlot k with
  | none => exact hfull
  | some q =>
    apply Prog.wp_seq Prog.post_trivial
    intro kstack m₁ _
    cases kstack with
    | none => exact hfail
    | some g =>
      apply Prog.wp_seq (hcopy m₁)
      intro r m₂ hr
      cases r with
      | none =>
        apply Prog.wp_seq Prog.post_trivial
        intro _ _ _
        exact hfail
      | some d => exact hchild q g d (life_of_unusedSlot hslot) (hr d rfl)

theorem post_exec_of {R : Kernel → Prop} {P : PageDir → Nat → Prop} {img : Image} (h : R k)
    (hspace : (execSpace k.shared img).post (fun r _ => ∀ d sz, r = some (d, sz) → P d sz) m)
    (hnew : ∀ d sz, P d sz → R (k.setProc p { (k.proc p) with pgdir := d, sz := sz })) :
    (exec k p img).post (fun r _ => R r.2) m := by
  apply Prog.wp_seq hspace
  intro r m₁ hr
  cases r with
  | none => exact h
  | some ds =>
    apply Prog.wp_seq Prog.post_trivial
    intro _ _ _
    exact hnew ds.1 ds.2 (hr ds.1 ds.2 rfl)

theorem Proc.uses_of_unused {S : Frame → Bool} {r : Proc} (h : r.life = .unused) :
    r.uses S f = 0 := by
  rw [uses, if_pos h]

theorem post_fork (h : Single f k m) : (fork k p).post (fun r m' => Single f r.2 m') m := by
  have hsize : (k.proc p).sz ≤ (UPAGES + 1) * PGSIZE := ((h.sane.proc p).size).le
  unfold fork
  cases hslot : unusedSlot k with
  | none => exact h
  | some q =>
    have hq := life_of_unusedSlot hslot
    have h' : Single f { k with nextpid := k.nextpid + 1 } m := ⟨⟨h.sane.proc, h.sane.count⟩, h.le⟩
    apply Prog.wp_bind
    apply wp_kalloc trivial
    · intro _
      exact h'
    · intro g gs hfree
      have hcount := count_free_cons hfree f
      apply Prog.wp_seq (post_copyuvm (S := k.shared) (f := f) hsize)
      rintro r m₁ ⟨hle, hsome⟩
      simp only at hle
      cases r with
      | none =>
        apply Prog.wp_bind
        apply wp_kfree trivial trivial
        apply h'.mono
        simp only [List.count_cons, beq_iff_eq]
        omega
      | some d =>
        obtain ⟨hacc, hd⟩ := hsome d rfl
        refine h'.setProc ⟨fun _ => hd, (h.sane.proc p).size, (h.sane.proc q).ref⟩ ?_
        rw [Proc.uses_of_unused (r := Kernel.proc { k with nextpid := k.nextpid + 1 } q) hq,
          Proc.uses_of_life (by simp)]
        have hshared : Kernel.shared { k with nextpid := k.nextpid + 1 } = k.shared := rfl
        simp only at hacc
        simp only [hshared]
        omega

theorem post_wait (h : Single f k m) : (wait k p).post (fun r m' => Single f r.2 m') m := by
  unfold wait
  simp only
  generalize (List.finRange NPROC).filter _ = kids
  cases hz : kids.find? fun q => (k.proc q).life = .zombie with
  | none =>
    simp only
    split_ifs
    · exact h
    · exact Prog.wp_atomic trivial (by simp) fun _ _ => trivial
  | some q =>
    have hzombie : (k.proc q).life = .zombie := by simpa using List.find?_some hz
    have hused : (k.proc q).life ≠ .unused := by simp [hzombie]
    have hq := h.sane.proc q
    apply Prog.wp_bind
    apply wp_kfree trivial trivial
    apply Prog.wp_seq (post_freevm (S := k.shared) (f := f) (hq.kernel hused))
    intro _ m₁ hm₁
    refine h.setProc ⟨fun hne => absurd rfl hne, hq.size, hq.ref⟩ ?_
    rw [Proc.uses_of_life hused, Proc.uses_of_unused (by rfl)]
    simp only [List.count_cons, beq_iff_eq] at hm₁
    omega

theorem Single.setPipes {m' : Mem} {ps : List Frame} (h : Single f k m)
    (hle : ps.count f + m'.free.count f ≤ k.pipes.count f + m.free.count f) :
    Single f { k with pipes := ps } m' := by
  refine ⟨⟨h.sane.proc, h.sane.count⟩, ?_⟩
  have hone := h.le
  have hblocks : Kernel.blocks { k with pipes := ps } f = k.blocks f := rfl
  have hshared : Kernel.shared { k with pipes := ps } = k.shared := rfl
  simp only [total, hblocks, hshared] at hone ⊢
  omega

theorem post_pipealloc (h : Single f k m) :
    (pipealloc k).post (fun r m' => Single f r.2 m') m := by
  apply Prog.wp_bind
  apply wp_kalloc trivial
  · intro _
    exact h
  · intro g gs hfree
    have hcount := count_free_cons hfree f
    apply h.setPipes
    simp only [List.count_cons, beq_iff_eq]
    omega

theorem post_pipeclose (h : Single f k m) (g : Frame) :
    (pipeclose k g).post (fun r m' => Single f r.2 m') m := by
  unfold pipeclose
  split_ifs with hmem
  · apply Prog.wp_bind
    apply wp_kfree trivial trivial
    apply h.setPipes
    rw [List.count_erase, List.count_cons]
    have hpos : 0 < k.pipes.count g := List.count_pos_iff.2 hmem
    by_cases hg : g = f
    · subst hg
      simp only [BEq.rfl, if_true]
      omega
    · have hne : (g == f) = false := by simpa using hg
      simp [hne]
  · exact h

/-! ## Blocks -/

theorem shared_iff : k.shared f = true ↔
    ∃ j, j < MAXSHM ∧ (k.block j).addr = f ∧ 0 < (k.block j).refcount := by
  unfold Kernel.shared Kernel.isShared
  cases hj : (List.range MAXSHM).find? fun j =>
      decide ((k.block j).addr = f ∧ 0 < (k.block j).refcount) with
  | none =>
    have hnone := List.find?_eq_none.1 hj
    simp only [List.mem_range, decide_eq_true_eq, not_and] at hnone
    simpa using hnone
  | some j =>
    have hmem := List.mem_of_find?_eq_some hj
    have hprop := List.find?_some hj
    simp only [List.mem_range, decide_eq_true_eq] at hmem hprop
    simpa using ⟨j, hmem, hprop⟩

theorem shared_setBlock {i : Nat} {b : Block} (h : MAXSHM ≤ i ∨ ((k.block i).addr = f ∧
    0 < (k.block i).refcount ↔ b.addr = f ∧ 0 < b.refcount)) :
    (k.setBlock i b).shared f = k.shared f := by
  rw [Bool.eq_iff_iff, shared_iff, shared_iff]
  apply exists_congr
  intro j
  apply and_congr_right
  intro hj
  by_cases hji : j = i
  · subst hji
    rcases h with hle | hiff
    · omega
    · simpa [Kernel.setBlock] using hiff.symm
  · simp [Kernel.setBlock, hji]

theorem blocks_setBlock (k : Kernel) (i : Nat) (b : Block) (f : Frame) :
    (k.setBlock i b).blocks f +
        (if i < MAXSHM ∧ (k.block i).addr = f ∧ 0 ≤ (k.block i).refcount then 1 else 0) =
      k.blocks f + if i < MAXSHM ∧ b.addr = f ∧ 0 ≤ b.refcount then 1 else 0 := by
  have hoff : ∀ j, j ≠ i → (((k.setBlock i b).block j).addr = f ∧
      0 ≤ ((k.setBlock i b).block j).refcount ↔
        (k.block j).addr = f ∧ 0 ≤ (k.block j).refcount) := by
    intro j hj
    simp [Kernel.setBlock, hj]
  have hcount := count_add_of_eq_off hoff MAXSHM
  have hself : (k.setBlock i b).block i = b := by simp [Kernel.setBlock]
  rw [hself] at hcount
  exact hcount

theorem PageDir.uses_mono {S S' : Frame → Bool} {d : PageDir} (h : S f = true → S' f = true) :
    d.uses S' f ≤ d.uses S f := by
  unfold uses
  cases hS : S f with
  | true => simp [h hS]
  | false =>
    simp only [Bool.false_eq_true, if_false]
    split_ifs <;> omega

theorem Proc.uses_mono {S S' : Frame → Bool} {r : Proc} (h : S f = true → S' f = true) :
    r.uses S' f ≤ r.uses S f := by
  have hd := PageDir.uses_mono (d := r.pgdir) h
  unfold uses
  split_ifs <;> omega

theorem Single.setBlock {m' : Mem} {i n : Nat} {b : Block} (h : Single f k m)
    (hb : MAXSHM ≤ i ∨ -1 ≤ b.refcount)
    (hshared : k.shared f = true → (k.setBlock i b).shared f = true)
    (hle : (k.setBlock i b).blocks f + m'.free.count f ≤ k.blocks f + m.free.count f) :
    Single f { k.setBlock i b with quantity := n } m' := by
  constructor
  · refine ⟨h.sane.proc, fun j hj => ?_⟩
    by_cases hji : j = i
    · subst hji
      have hb' : -1 ≤ b.refcount := by
        rcases hb with hle | hb
        · omega
        · exact hb
      simpa [Kernel.setBlock] using hb'
    · simpa [Kernel.setBlock, hji] using h.sane.count j hj
  · have hsum : (∑ q, (k.proc q).uses (k.setBlock i b).shared f) ≤
        ∑ q, (k.proc q).uses k.shared f :=
      Finset.sum_le_sum fun q _ => Proc.uses_mono hshared
    have hone : m.free.count f + (∑ q, (k.proc q).uses k.shared f) + k.pipes.count f +
      k.blocks f ≤ 1 := h.le
    have htotal : total { k.setBlock i b with quantity := n } m' f =
        m'.free.count f + (∑ q, (k.proc q).uses (k.setBlock i b).shared f) + k.pipes.count f +
          (k.setBlock i b).blocks f := rfl
    omega

theorem blocks_create (k : Kernel) (i : Nat) (g : Frame) (f : Frame) :
    (k.setBlock i ⟨g, 0⟩).blocks f ≤ k.blocks f + if g = f then 1 else 0 := by
  have hblocks := blocks_setBlock k i ⟨g, 0⟩ f
  simp only [Int.le_refl, and_true] at hblocks
  by_cases hg : g = f
  · simp only [hg, and_true, if_true] at hblocks ⊢
    split_ifs at hblocks <;> omega
  · simp only [hg, and_false, if_false] at hblocks ⊢
    omega

theorem post_shmCreate (hf : f ≠ NULL) (h : Single f k m) :
    (shmCreate k).post (fun r m' => Single f r.2 m') m := by
  unfold shmCreate
  split_ifs
  · exact h
  · cases hi : (List.range MAXSHM).find? fun i => (k.block i).refcount = -1 with
    | none => exact h
    | some i =>
      have hfree : (k.block i).refcount = -1 := by simpa using List.find?_some hi
      have hshared : ∀ g, k.shared f = true → (k.setBlock i ⟨g, 0⟩).shared f = true := by
        intro g hsh
        rwa [shared_setBlock]
        right
        simp [hfree]
      apply Prog.wp_bind
      apply wp_kalloc trivial
      · intro _
        have hblocks := blocks_create k i NULL f
        rw [if_neg (Ne.symm hf)] at hblocks
        refine h.setBlock (.inr (by simp)) (hshared _) ?_
        simp only [Option.getD_none]
        omega
      · intro g gs hcons
        have hcount := count_free_cons hcons f
        have hblocks := blocks_create k i g f
        refine h.setBlock (.inr (by simp)) (hshared _) ?_
        simp only [Option.getD_some]
        omega

/-- What `shm_get` needs: if it succeeds, its key is that of a created block and the
slot it finds has the same page. -/
def GetOk (k : Kernel) (p : Slot) (key : Int) : Prop :=
  (k.proc p).shmemquantity < MAXSHMPROC → 0 ≤ key → key ≤ MAXSHM →
    (k.block key.toNat).refcount ≠ MAXSHMPROC → ∀ i ∈ shmSlot (k.proc p) (-1),
      key < MAXSHM ∧ 0 ≤ (k.block key.toNat).refcount ∧
        (k.block i).addr = (k.block key.toNat).addr

theorem Single.attach {i : Nat} (h : Single f k m) (hi : 0 ≤ (k.block i).refcount) :
    Single f (k.setBlock i ⟨(k.block i).addr, (k.block i).refcount + 1⟩) m := by
  have hblocks := blocks_setBlock k i ⟨(k.block i).addr, (k.block i).refcount + 1⟩ f
  have hpos : 0 ≤ (k.block i).refcount + 1 := by omega
  simp only [hi, hpos] at hblocks
  refine h.setBlock (n := k.quantity) (.inr (by simp only; omega)) ?_ (by omega)
  intro hsh
  obtain ⟨j, hj, haddr, href⟩ := shared_iff.1 hsh
  refine shared_iff.2 ⟨j, hj, ?_⟩
  by_cases hji : j = i
  · subst hji
    simp only [Kernel.setBlock, Function.update_self]
    exact ⟨haddr, by omega⟩
  · simpa [Kernel.setBlock, hji] using ⟨haddr, href⟩

theorem post_shmGet (h : Single f k m) (hlive : (k.proc p).life ≠ .unused) {key : Int} {mem : Nat}
    (hok : GetOk k p key) (hmem : mem + 4 ≤ KERNBASE) :
    (sysShmGet k p key mem).post (fun r m' => Single f r.2 m') m := by
  have hp := h.sane.proc p
  refine post_sysShmGet h fun i hi => ?_
  obtain ⟨hlt, href, haddr⟩ := hok hi.quantity hi.pos hi.le hi.room i hi.slot
  have hkey := hi.pos
  have h₁ := h.attach href
  generalize hk₁ : k.setBlock key.toNat ⟨(k.block key.toNat).addr,
    (k.block key.toNat).refcount + 1⟩ = k₁ at h₁
  have hproc : k₁.proc p = k.proc p := by rw [← hk₁]; rfl
  have hshared : (k.block i).addr = f → k₁.shared f = true := by
    intro haf
    refine shared_iff.2 ⟨key.toNat, by omega, ?_⟩
    rw [← hk₁]
    simp only [Kernel.setBlock, Function.update_self]
    exact ⟨haddr ▸ haf, by omega⟩
  have hsize : PGSIZE = 4096 := rfl
  have hup : UPAGES = 2 ^ 19 := rfl
  have hsz := hp.size
  refine Prog.wp_imp (post_mappages (S := k₁.shared) (f := f) (div_PGSIZE_le hsz)
    (hp.kernel hlive)) ?_
  rintro ⟨d, _⟩ m₁ ⟨hd, hwithin, hne⟩ k' hstored
  -- the kernel half is mapped, so the page is below it
  have hv : (k.proc p).sz / PGSIZE < UPAGES :=
    Nat.lt_of_le_of_ne (div_PGSIZE_le hsz) hne
  rw [hstored.eq hmem, Kernel.attach]
  simp only [hk₁]
  refine h₁.setProc ⟨fun _ => hd, ?_, fun j => ?_⟩ ?_
  · rw [hsize, hup] at hv ⊢
    simp only
    omega
  · by_cases hj : j = i
    · exact ⟨_, hv, by simp [hj, PGROUNDDOWN]⟩
    · simpa [hj] using hp.ref j
  · have hnone : ¬ (k₁.shared f = false ∧ (k.block i).addr = f) := by
      rintro ⟨hfalse, haf⟩
      simp [hshared haf] at hfalse
    rw [hproc, Proc.uses_of_life hlive, Proc.uses_of_life (by exact hlive)]
    simp only [Within, if_neg hnone] at hwithin
    dsimp only
    omega

/-- What `shm_close` needs: if it drops the last reference, one mapping of the
block's page is left at most when the page it closes is unmapped. -/
def CloseOk (k : Kernel) (p : Slot) (key : Int) : Prop :=
  0 ≤ key → key < MAXSHM → (k.block key.toNat).refcount = 1 →
    ∀ i ∈ shmSlot (k.proc p) key,
      k.mappings (k.block key.toNat).addr ≤ 1 +
        if (k.proc p).pgdir.userFrame ((k.proc p).shmref i / PGSIZE) =
          some (k.block key.toNat).addr then 1 else 0

/-- The record of a process after `shm_close` of the block in slot `i`, at page `v`. -/
def Proc.closed (r : Proc) (i v : Nat) : Proc :=
  { r with
    shmemquantity := r.shmemquantity - 1
    shmem := Function.update r.shmem i (-1)
    pgdir := r.pgdir.setPte v none }

theorem Proc.uses_closed {S : Frame → Bool} (r : Proc) (i v : Nat) :
    (r.closed i v).uses S f ≤ r.uses S f := by
  have hd := PageDir.uses_setPte S r.pgdir v none f
  simp only [Option.map_none, reduceCtorEq, and_false, if_false] at hd
  by_cases hlife : r.life = .unused
  · rw [uses_of_unused (by exact hlife)]
    exact Nat.zero_le _
  · rw [uses_of_life hlife, uses_of_life (by exact hlife)]
    apply Nat.add_le_add_left
    dsimp only [closed]
    omega

theorem Proc.Sane.closed {r : Proc} (h : r.Sane) {i v : Nat} (hv : v < UPAGES) :
    (r.closed i v).Sane :=
  ⟨fun hlife => (h.kernel hlife).setPte hv none, h.size, h.ref⟩

theorem Proc.uses_le (S : Frame → Bool) (r : Proc) :
    r.uses S f ≤ r.uses (fun _ => true) f +
      if r.life = .unused then 0 else r.pgdir.mappings f := by
  by_cases hlife : r.life = .unused
  · rw [uses_of_unused hlife]
    exact Nat.zero_le _
  · rw [uses_of_life hlife, uses_of_life hlife, if_neg hlife]
    unfold PageDir.uses
    simp only [if_true]
    split_ifs <;> omega

theorem mappings_closed {j v : Nat} (hlive : (k.proc p).life ≠ .unused) (hv : v < UPAGES) :
    (k.setProc p ((k.proc p).closed j v)).mappings f +
      (if (k.proc p).pgdir.userFrame v = some f then 1 else 0) ≤ k.mappings f := by
  have hd := PageDir.mappings_setPte (k.proc p).pgdir v none f
  simp only [hv, true_and, Option.map_none, reduceCtorEq, if_false] at hd
  have hsum := sum_assign
    (fun q => if (k.proc q).life = .unused then 0 else (k.proc q).pgdir.mappings f) p
    (((k.proc p).pgdir.setPte v none).mappings f)
  have hnew : (k.setProc p ((k.proc p).closed j v)).mappings f =
      ∑ q, Function.update
        (fun q => if (k.proc q).life = .unused then 0 else (k.proc q).pgdir.mappings f) p
        (((k.proc p).pgdir.setPte v none).mappings f) q := by
    apply Finset.sum_congr rfl
    intro q _
    by_cases hq : q = p
    · subst hq
      simp only [Kernel.setProc, Function.update_self]
      exact if_neg hlive
    · simp only [Kernel.setProc, Function.update_of_ne hq]
  simp only [if_neg hlive] at hsum
  rw [hnew]
  unfold Kernel.mappings
  omega

theorem Single.detach {i j v n : Nat} (h : Single f k m) (hlive : (k.proc p).life ≠ .unused)
    (hv : v < UPAGES) (hi : i < MAXSHM) (haddr : (k.block i).addr = f)
    (href : (k.block i).refcount = 1)
    (hleft : k.mappings f ≤ 1 +
      if (k.proc p).pgdir.userFrame v = some f then 1 else 0) :
    Single f (({ k.setBlock i ⟨f, -1⟩ with quantity := n } : Kernel).setProc p
      ((k.proc p).closed j v)) m := by
  have hshared : k.shared f = true := shared_iff.2 ⟨i, hi, haddr, by omega⟩
  have hblocks := blocks_setBlock k i ⟨f, -1⟩ f
  simp [hi, haddr, href] at hblocks
  have hone : m.free.count f + (∑ q, (k.proc q).uses k.shared f) + k.pipes.count f +
    k.blocks f ≤ 1 := h.le
  have hclosed := mappings_closed (f := f) (j := j) hlive hv
  -- with the block accounted for, all other places of its page are empty
  have hbare : (∑ q, (k.proc q).uses (fun _ => true) f) ≤ ∑ q, (k.proc q).uses k.shared f :=
    Finset.sum_le_sum fun q _ => Proc.uses_mono fun _ => rfl
  constructor
  · apply Kernel.Sane.setProc
    · refine ⟨h.sane.proc, fun l hl => ?_⟩
      by_cases hli : l = i
      · simp [Kernel.setBlock, hli]
      · simpa [Kernel.setBlock, hli] using h.sane.count l hl
    · exact (h.sane.proc p).closed hv
  · have hbare' : (∑ q, ((k.setProc p ((k.proc p).closed j v)).proc q).uses (fun _ => true) f) ≤
        ∑ q, (k.proc q).uses (fun _ => true) f := by
      apply Finset.sum_le_sum
      intro q _
      by_cases hq : q = p
      · subst hq
        simp only [Kernel.setProc, Function.update_self]
        exact Proc.uses_closed _ j v
      · simp only [Kernel.setProc, Function.update_of_ne hq]
        exact Nat.le_refl _
    have hsplit : (∑ q, ((k.setProc p ((k.proc p).closed j v)).proc q).uses
        (k.setBlock i ⟨f, -1⟩).shared f) ≤
        (∑ q, ((k.setProc p ((k.proc p).closed j v)).proc q).uses (fun _ => true) f) +
          (k.setProc p ((k.proc p).closed j v)).mappings f := by
      rw [Kernel.mappings, ← Finset.sum_add_distrib]
      exact Finset.sum_le_sum fun q _ => Proc.uses_le _ _
    have htotal : total (({ k.setBlock i ⟨f, -1⟩ with quantity := n } : Kernel).setProc p
        ((k.proc p).closed j v)) m f = m.free.count f +
          (∑ q, ((k.setProc p ((k.proc p).closed j v)).proc q).uses
            (k.setBlock i ⟨f, -1⟩).shared f) + k.pipes.count f +
          (k.setBlock i ⟨f, -1⟩).blocks f := rfl
    omega

theorem Single.close {j v : Nat} (h : Single f k m) (hv : v < UPAGES) :
    Single f (k.setProc p ((k.proc p).closed j v)) m := by
  apply h.setProc ((h.sane.proc p).closed hv)
  have huses := Proc.uses_closed (f := f) (S := k.shared) (k.proc p) j v
  omega

theorem Single.release {i n : Nat} {c : Int} (h : Single f k m)
    (hi : MAXSHM ≤ i ∨ 0 ≤ (k.block i).refcount)
    (hc : c = (k.block i).refcount - 1 ∧ c ≠ 0 ∨ c = -1 ∧ ((k.block i).addr ≠ f ∨ MAXSHM ≤ i)) :
    Single f { k.setBlock i ⟨(k.block i).addr, c⟩ with quantity := n } m := by
  have hblocks := blocks_setBlock k i ⟨(k.block i).addr, c⟩ f
  simp only at hblocks
  have hshared : (k.setBlock i ⟨(k.block i).addr, c⟩).shared f = k.shared f := by
    apply shared_setBlock
    simp only
    rcases hi with hi | hi
    · exact .inl hi
    rcases hc with ⟨hc, hne⟩ | ⟨_, haddr | hge⟩
    · right
      apply and_congr_right
      intro _
      omega
    · right
      simp [haddr]
    · exact .inl hge
  refine h.setBlock ?_ (fun hsh => hshared.trans hsh) ?_
  · simp only
    omega
  · have hle : (k.setBlock i ⟨(k.block i).addr, c⟩).blocks f ≤ k.blocks f := by
      split_ifs at hblocks with hold hnew hnew
      · omega
      · omega
      · exact absurd ⟨hnew.1, hnew.2.1, by omega⟩ hold
      · omega
    omega

theorem post_shmClose (h : Single f k m) (hlive : (k.proc p).life ≠ .unused) {key : Int}
    (hok : CloseOk k p key) :
    (shmClose k p key).post (fun r m' => Single f r.2 m' ∧ (r.2.proc p).life ≠ .unused) m := by
  unfold shmClose
  split_ifs with hkey
  · exact ⟨h, hlive⟩
  · push Not at hkey
    simp only
    cases hslot : shmSlot (k.proc p) key with
    | none => exact ⟨h, hlive⟩
    | some i =>
      obtain ⟨v, hv, href⟩ := (h.sane.proc p).ref i
      have hdiv : (k.proc p).shmref i / PGSIZE = v := by
        rw [href]
        exact Nat.mul_div_cancel v (by decide)
      have hrange : MAXSHM ≤ key.toNat ∨ 0 ≤ (k.block key.toNat).refcount := by
        by_cases hlt : key.toNat < MAXSHM
        · have hcount := h.sane.count _ hlt
          omega
        · omega
      apply Prog.wp_bind
      simp only [href]
      have hstill : ∀ k₁ : Kernel,
          ((k₁.setProc p ((k.proc p).closed i v)).proc p).life ≠ .unused := by
        intro k₁
        simpa [Kernel.setProc, Proc.closed] using hlive
      by_cases hlast : (k.block key.toNat).refcount - 1 = 0
      · simp only [hlast, if_true]
        apply wp_unmap hv (by decide) trivial trivial
        apply wp_ret
        refine ⟨?_, hstill _⟩
        by_cases hmine : (k.block key.toNat).addr = f ∧ key < MAXSHM
        · have hleft := hok hkey.1 hmine.2 (by omega) i hslot
          rw [hmine.1, hdiv] at hleft
          rw [hmine.1]
          exact h.detach hlive hv (by omega) hmine.1 (by omega) hleft
        · have hother : (k.block key.toNat).addr ≠ f ∨ MAXSHM ≤ key.toNat := by
            rcases not_and_or.1 hmine with haddr | hge
            · exact .inl haddr
            · exact .inr (by omega)
          have hrel := h.release (n := (k.quantity + 2 ^ 16 - 1) % 2 ^ 16) (c := -1) hrange
            (.inr ⟨rfl, hother⟩)
          exact hrel.close hv
      · simp only [hlast, if_false]
        apply wp_unmap hv hlast trivial trivial
        apply wp_ret
        have hrel := h.release (n := k.quantity) hrange (.inl ⟨rfl, hlast⟩)
        exact ⟨hrel.close hv, hstill _⟩

/-- What `exit` needs: each `shm_close` that it makes is as it should be. -/
def ExitOk (k : Kernel) (p : Slot) (m : Mem) : Prop :=
  ∀ j, j < MAXSHMPROC → ((closeAll p (List.range j) k).run m).All fun r =>
    CloseOk r.1 p ((r.1.proc p).shmem j)

theorem post_closeAll {is : List Nat} (h : Single f k m) (hlive : (k.proc p).life ≠ .unused)
    (hok : ∀ pre j post, is = pre ++ j :: post → ∀ k' m',
      (closeAll p pre k).run m = .ok (k', m') → CloseOk k' p ((k'.proc p).shmem j)) :
    (closeAll p is k).post (fun k' m' => Single f k' m' ∧ (k'.proc p).life ≠ .unused) m := by
  induction is generalizing k m with
  | nil => exact ⟨h, hlive⟩
  | cons i is ih =>
    have hfirst := hok [] i is rfl k m rfl
    rw [closeAll_cons]
    split_ifs with hheld
    · apply Prog.wp_seq (Prog.wp_and_run (post_shmClose h hlive hfirst))
      rintro ⟨x, k₁⟩ m₁ ⟨⟨h₁, hlive₁⟩, hrun⟩
      apply ih h₁ hlive₁
      intro pre j post his k' m' hrun'
      apply hok (i :: pre) j post (by rw [his]; rfl) k' m'
      rw [closeAll, if_pos hheld]
      exact (Prog.run_bind_of_ok hrun).trans hrun'
    · apply ih h hlive
      intro pre j post his k' m' hrun'
      apply hok (i :: pre) j post (by rw [his]; rfl) k' m'
      rwa [closeAll, if_neg hheld]

theorem range_eq_append {n j : Nat} {pre post : List Nat}
    (h : List.range n = pre ++ j :: post) : pre = List.range j ∧ j < n := by
  have hlen : pre.length < n := by
    have hlength := congrArg List.length h
    simp only [List.length_range, List.length_append, List.length_cons] at hlength
    omega
  have hj : j = pre.length := by
    have hget := congrArg (fun l => l[pre.length]?) h
    simpa [hlen] using hget.symm
  refine ⟨?_, by omega⟩
  calc pre = (List.range n).take pre.length := by rw [h, List.take_left]
    _ = List.range j := by rw [List.take_range, hj, Nat.min_eq_left hlen.le]

theorem Single.bury (h : Single f k m) (hlive : (k.proc p).life ≠ .unused) :
    Single f (k.bury p) m := by
  have hsame : ∀ q, ((k.bury p).proc q).life = .unused ↔ (k.proc q).life = .unused := by
    intro q
    by_cases hq : q = p
    · subst hq
      simp [Kernel.bury, hlive]
    · simp only [Kernel.bury, hq, if_false]
      split_ifs <;> rfl
  have hrest : ∀ q, ((k.bury p).proc q).pgdir = (k.proc q).pgdir ∧
      ((k.bury p).proc q).kstack = (k.proc q).kstack ∧ ((k.bury p).proc q).sz = (k.proc q).sz ∧
      ((k.bury p).proc q).shmref = (k.proc q).shmref := by
    intro q
    simp only [Kernel.bury]
    split_ifs <;> exact ⟨rfl, rfl, rfl, rfl⟩
  have huses : ∀ q, ((k.bury p).proc q).uses k.shared f = (k.proc q).uses k.shared f := by
    intro q
    obtain ⟨hpgdir, hkstack, _, _⟩ := hrest q
    simp only [Proc.uses, hsame, hpgdir, hkstack]
  constructor
  · refine ⟨fun q => ?_, h.sane.count⟩
    obtain ⟨hpgdir, _, hsz, hshmref⟩ := hrest q
    have hq := h.sane.proc q
    refine ⟨fun hne => ?_, ?_, ?_⟩
    · rw [hpgdir]
      exact hq.kernel fun hun => hne ((hsame q).2 hun)
    · rw [hsz]
      exact hq.size
    · rw [hshmref]
      exact hq.ref
  · have hone := h.le
    have hshared : (k.bury p).shared = k.shared := rfl
    have hblocks : (k.bury p).blocks f = k.blocks f := rfl
    have hpipes : (k.bury p).pipes = k.pipes := rfl
    simpa only [total, hshared, hblocks, hpipes, huses] using hone

theorem post_exit (h : Single f k m) (hlive : (k.proc p).life ≠ .unused) (hok : ExitOk k p m) :
    (exit k p).post (fun r m' => Single f r.2 m') m := by
  unfold exit
  split_ifs
  · exact wp_panic trivial trivial
  · apply Prog.wp_seq (post_closeAll h hlive ?_)
    · rintro k₁ m₁ ⟨h₁, hlive₁⟩
      exact h₁.bury hlive₁
    · intro pre j post hrange k' m' hrun
      obtain ⟨rfl, hj⟩ := range_eq_append hrange
      have hall := hok j hj
      rwa [hrun] at hall

end Calls

/-! ## Runs -/

/-- The condition on a call: a block is only attached where its own page is mapped and by a
pointer into the user half, and loses its last reference only when one mapping of its page is
left at most. -/
def Careful (s : State) (e : Event) : Prop :=
  match e.call with
  | .shmGet key mem => GetOk s.kern e.proc (int32 key) ∧ mem + 4 ≤ KERNBASE
  | .shmClose key => CloseOk s.kern e.proc (int32 key)
  | .exit => ExitOk s.kern e.proc s.mem
  | _ => True

instance (k : Kernel) (p : Slot) (key : Int) : Decidable (GetOk k p key) := by
  unfold GetOk
  infer_instance

instance (k : Kernel) (p : Slot) (key : Int) : Decidable (CloseOk k p key) := by
  unfold CloseOk
  infer_instance

instance (k : Kernel) (p : Slot) (m : Mem) : Decidable (ExitOk k p m) := by
  unfold ExitOk
  infer_instance

instance (s : State) : (e : Event) → Decidable (Careful s e)
  | ⟨p, .shmGet key _⟩ => inferInstanceAs (Decidable (GetOk s.kern p (int32 key) ∧ _))
  | ⟨p, .shmClose key⟩ => inferInstanceAs (Decidable (CloseOk s.kern p (int32 key)))
  | ⟨p, .exit⟩ => inferInstanceAs (Decidable (ExitOk s.kern p s.mem))
  | ⟨_, .sbrk _⟩ | ⟨_, .fork⟩ | ⟨_, .exec _⟩ | ⟨_, .wait⟩ | ⟨_, .shmCreate⟩ | ⟨_, .pipe⟩
  | ⟨_, .pipeclose _⟩ => inferInstanceAs (Decidable True)

variable {f : Frame}

theorem post_code {s : State} {e : Event} (hf : e.call = .shmCreate → f ≠ NULL)
    (h : Single f s.kern s.mem)
    (hlive : (s.kern.proc e.proc).life ≠ .unused) (hok : Careful s e) :
    (e.call.code s.kern e.proc).post (fun r m' => Single f r.2 m') s.mem := by
  obtain ⟨p, call⟩ := e
  cases call with
  | sbrk n => exact post_growproc h hlive _
  | fork => exact post_fork h
  | exec img => exact post_exec h hlive img
  | exit => exact post_exit h hlive hok
  | wait => exact post_wait h
  | shmCreate => exact post_shmCreate (hf rfl) h
  | shmGet key mem =>
    apply Prog.wp_seq (post_shmGet h hlive hok.1 hok.2)
    intro r m' h'
    exact h'
  | shmClose key =>
    refine Prog.wp_imp (post_shmClose h hlive hok) ?_
    intro r m' h'
    exact h'.1
  | pipe => exact post_pipealloc h
  | pipeclose g => exact post_pipeclose h g

theorem next_eq_some {s t : State} {e : Event} (h : next s e = some t) :
    (s.kern.proc e.proc).life = .live ∧
      ∃ r, (e.call.code s.kern e.proc).run s.mem = .ok ((r, t.kern), t.mem) := by
  unfold next at h
  split_ifs at h with hlive
  refine ⟨hlive, ?_⟩
  cases hrun : (e.call.code s.kern e.proc).run s.mem with
  | ok x =>
    obtain ⟨⟨r, k⟩, m⟩ := x
    simp only [hrun, Option.some.injEq] at h
    subst h
    exact ⟨r, rfl⟩
  | halt x => simp [hrun] at h

theorem Single.next {s t : State} {e : Event} (hf : e.call = .shmCreate → f ≠ NULL)
    (h : Single f s.kern s.mem) (hok : Careful s e) (hnext : Vm.next s e = some t) :
    Single f t.kern t.mem := by
  obtain ⟨hlive, r, hrun⟩ := next_eq_some hnext
  have hpost := post_code hf h (by simp [hlive]) hok
  exact (Prog.wp_run hpost).1 (r, t.kern) t.mem hrun

def noKernel (name : Int) : Kernel :=
  { proc := fun _ => noProc, initproc := ⟨0, Sched.zero_lt_NPROC⟩, nextpid := 2, block := shmInit name,
    quantity := 0, pipes := [] }

theorem single_noKernel (name : Int) {m : Mem} (hm : m.free.count f ≤ 1) :
    Single f (noKernel name) m := by
  constructor
  · have hsize : noProc.sz < (UPAGES + 1) * PGSIZE := by decide
    refine ⟨fun p => ⟨fun hne => absurd rfl hne, hsize, fun i => ⟨0, by decide, rfl⟩⟩, ?_⟩
    intro i hi
    simp [noKernel, shmInit, hi]
  · have hproc : ∀ q, ((noKernel name).proc q).uses (noKernel name).shared f = 0 := by
      intro q
      exact Proc.uses_of_unused rfl
    have hblocks : (noKernel name).blocks f = 0 := by
      have hnone := count_congr_lt (p := fun i => ((noKernel name).block i).addr = f ∧
        0 ≤ ((noKernel name).block i).refcount) (q := fun _ => False) (n := MAXSHM) ?_
      · rw [Kernel.blocks, hnone, Nat.count_false]
      · intro i hi
        simp [noKernel, shmInit, hi]
    have hpipes : (noKernel name).pipes.count f = 0 := rfl
    simp only [total, hproc, hblocks, hpipes, Finset.sum_const_zero]
    omega

theorem post_userinit (name : Int) {m : Mem} (hm : m.free.count f ≤ 1) :
    (userinit name).post (fun k m' => Single f k m') m := by
  have hzero := single_noKernel name hm
  apply Prog.wp_bind
  apply wp_kalloc trivial
  · intro _
    exact wp_panic trivial trivial
  intro kstack gs hfree
  have hcount := count_free_cons hfree f
  apply Prog.wp_seq (post_setupkvm (S := (noKernel name).shared) (f := f))
  rintro r m₁ ⟨_, hsome⟩
  cases r with
  | none => exact wp_panic trivial trivial
  | some d =>
    obtain ⟨hacc, hfresh⟩ := hsome d rfl
    apply Prog.wp_bind
    apply wp_kalloc trivial
    · intro _
      exact wp_panic trivial trivial
    intro g gs' hfree'
    have hcount' := count_free_cons hfree' f
    have hmap := post_mappages (S := (noKernel name).shared) (f := f) (v := 0) (g := g)
      (w := true) (u := true) (m := { m₁ with free := gs' }) (by decide) hfresh.kernel
    rw [Nat.zero_mul] at hmap
    apply Prog.wp_seq hmap
    rintro ⟨d₁, _⟩ m₂ ⟨hd₁, hwithin, _⟩
    have hsize : PGSIZE < (UPAGES + 1) * PGSIZE := by decide
    apply wp_ret
    refine hzero.setProc (p := ⟨0, by decide⟩)
      ⟨fun _ => hd₁, hsize, fun i => ⟨0, by decide, rfl⟩⟩ ?_
    rw [Proc.uses_of_life (by simp), Proc.uses_of_unused (r := (noKernel name).proc _) rfl]
    simp only [Within] at hwithin
    simp only at hacc
    dsimp only
    split_ifs at hwithin hcount' <;> first | omega | simp_all

theorem post_userinit_of {R : Kernel → Prop} (name : Int) {m : Mem}
    (h : ∀ kstack d, R ((noKernel name).setProc ⟨0, Sched.zero_lt_NPROC⟩
      { noProc with life := .live, pid := 1, kstack := kstack, pgdir := d, sz := PGSIZE })) :
    (userinit name).post (fun k _ => R k) m := by
  apply Prog.wp_seq Prog.post_trivial
  intro kstack _ _
  cases kstack with
  | none => exact wp_panic trivial trivial
  | some g =>
    apply Prog.wp_seq Prog.post_trivial
    intro d _ _
    cases d with
    | none => exact wp_panic trivial trivial
    | some d =>
      apply Prog.wp_seq Prog.post_trivial
      intro page _ _
      cases page with
      | none => exact wp_panic trivial trivial
      | some page =>
        apply Prog.wp_seq Prog.post_trivial
        intro r _ _
        exact wp_ret (h g r.1)

theorem Boots.run {name : Int} {m : Mem} {s₀ : State} (h : Boots name m s₀) :
    (userinit name).run m = .ok (s₀.kern, s₀.mem) := by
  have hboot := h.boot
  unfold Vm.boot at hboot
  cases hrun : (userinit name).run m with
  | ok r =>
    rw [hrun] at hboot
    obtain rfl : ⟨r.1, r.2⟩ = s₀ := by simpa using hboot
    rfl
  | halt x => simp [hrun] at hboot

theorem Boots.single {name : Int} {m : Mem} {s₀ : State} (h : Boots name m s₀) (f : Frame) :
    Single f s₀.kern s₀.mem := by
  have hpost := post_userinit (f := f) name (List.nodup_iff_count_le_one.1 h.nodup f)
  exact (Prog.wp_run hpost).1 _ _ h.run

/-- Page `f` is on the free list once at most, and not while a process maps it. -/
structure SafeFrame (s : State) (f : Frame) : Prop where
  once : s.mem.free.count f ≤ 1
  unmapped : f ∈ s.mem.free → ∀ p, (s.kern.proc p).life ≠ .unused → ∀ v, v < UPAGES →
    (s.kern.proc p).pgdir.userFrame v ≠ some f

theorem PageDir.mappings_pos {d : PageDir} {v : Nat} (hv : v < UPAGES)
    (h : d.userFrame v = some f) : 0 < d.mappings f := by
  have hlt := Nat.count_strict_mono (p := fun v => d.userFrame v = some f) h hv
  exact Nat.zero_lt_of_lt hlt

theorem Kernel.blocks_pos {k : Kernel} {j : Nat} (hj : j < MAXSHM) (haddr : (k.block j).addr = f)
    (href : 0 ≤ (k.block j).refcount) : 0 < k.blocks f := by
  have hlt := Nat.count_strict_mono (p := fun i => (k.block i).addr = f ∧
    0 ≤ (k.block i).refcount) ⟨haddr, href⟩ hj
  exact Nat.zero_lt_of_lt hlt

theorem Proc.mappings_le_uses {S : Frame → Bool} {r : Proc} (hlife : r.life ≠ .unused)
    (hf : S f = false) : r.pgdir.mappings f ≤ r.uses S f := by
  rw [uses_of_life hlife, PageDir.uses, hf]
  simp only [Bool.false_eq_true, if_false]
  omega

theorem Single.safeFrame {s : State} (h : Single f s.kern s.mem) : SafeFrame s f := by
  have hone := h.le
  unfold total at hone
  refine ⟨by omega, fun hmem p hlife v hv hmap => ?_⟩
  have hfree : 0 < s.mem.free.count f := List.count_pos_iff.2 hmem
  -- a free page is not that of a created block, so its mappings are accounted for
  have hshared : s.kern.shared f = false := by
    by_contra hsh
    obtain ⟨j, hj, haddr, href⟩ := shared_iff.1 (by simpa using hsh)
    have hpos := Kernel.blocks_pos hj haddr href.le
    omega
  have hpos := PageDir.mappings_pos hv hmap
  have huses := Proc.mappings_le_uses hlife hshared
  have hle : (s.kern.proc p).uses s.kern.shared f ≤
      ∑ q, (s.kern.proc q).uses s.kern.shared f :=
    Finset.single_le_sum (f := fun q => (s.kern.proc q).uses s.kern.shared f)
      (fun _ _ => Nat.zero_le _) (Finset.mem_univ p)
  omega

theorem Boots.reach {name : Int} {m : Mem} {s₀ s : State} (hboot : Boots name m s₀)
    (hf : f ≠ NULL) (h : (machine s₀).Reach Careful s) : Single f s.kern s.mem := by
  apply Machine.Reach.invariant _ _ h
  · rintro t rfl
    exact hboot.single f
  · intro t e u ht hok hstep
    exact ht.next (fun _ => hf) hok hstep

def smallMem : Mem := ⟨300, 400, KERNBASE + 350 * PGSIZE, List.range' 1000 300⟩

theorem smallMem_sound : smallMem.free.Nodup ∧ (∀ f ∈ smallMem.free, smallMem.isRam f = true) ∧
    kernelTables.length + 4 ≤ smallMem.free.length := by
  refine ⟨List.nodup_range', fun (f : Nat) hf => ?_, by decide +kernel⟩
  have hrange : 1000 ≤ f ∧ f < 1000 + 300 := by simpa [smallMem] using hf
  have hstop : f < 57344 := by omega
  exact decide_eq_true ⟨Nat.le_trans (by decide) hrange.1, hstop⟩

/-- The state after a run of calls that meet `C`, from a boot with `smallMem`. -/
def smallRun (C : State → Event → Prop) [∀ s e, Decidable (C s e)] (es : List Event) :
    Option State :=
  (boot (-5) smallMem).bind fun s₀ =>
    Machine.runList (fun s e => if C s e then next s e else none) s₀ es

theorem smallMem_boots {s₀ : State} (h : boot (-5) smallMem = some s₀) :
    Boots (-5) smallMem s₀ :=
  ⟨smallMem_sound.1, smallMem_sound.2.1, smallMem_sound.2.2, h⟩

theorem exists_of_smallRun {C : State → Event → Prop} [∀ s e, Decidable (C s e)]
    {es : List Event} {s : State} (h : smallRun C es = some s) :
    ∃ s₀, Boots (-5) smallMem s₀ ∧ (machine s₀).Reach C s := by
  obtain ⟨s₀, hboot, hs⟩ := Option.bind_eq_some_iff.1 h
  exact ⟨s₀, smallMem_boots hboot, Machine.reach_of_runList es (.init rfl) hs⟩

/-- The first process forks the second, which creates a block and attaches it. -/
def shareRun : List Event :=
  [⟨⟨0, Sched.zero_lt_NPROC⟩, .fork⟩, ⟨⟨1, Sched.one_lt_NPROC⟩, .shmCreate⟩,
    ⟨⟨1, Sched.one_lt_NPROC⟩, .shmGet 0 0⟩]

/-- The second process lets two children inherit the mapping and closes the block;
one child gives its page up. -/
def lostRun : List Event :=
  shareRun ++ [⟨⟨1, Sched.one_lt_NPROC⟩, .fork⟩, ⟨⟨1, Sched.one_lt_NPROC⟩, .fork⟩,
    ⟨⟨1, Sched.one_lt_NPROC⟩, .shmClose 0⟩, ⟨⟨2, Sched.two_lt_NPROC⟩, .sbrk (-4096)⟩]

end Xv6.Vm
