import Xv6.Vm.System

/-!
# Rules for pages and page tables

One rule for each function of the allocator and for `mappages` on a page, and how
an assignment to a page directory shows in its entries.
-/

namespace Xv6.Vm

open Xv6.Lib

/-! ## Entries -/

namespace PageDir

variable {d : PageDir} {v w i : Nat}

theorem lookup_of_table_none (h : d.table (v / NPTENTRIES) = none) : d.lookup v = none := by
  simp [lookup, h]

theorem table_ne_none_of_lookup {pte : Pte} (h : d.lookup v = some pte) :
    d.table (v / NPTENTRIES) ≠ none := by
  intro hnone
  simp [lookup_of_table_none hnone] at h

theorem lookup_setTable (d : PageDir) (i w : Nat) (t : Table) :
    (d.setTable i t).lookup w =
      if w / NPTENTRIES = i then t.pte (w % NPTENTRIES) else d.lookup w := by
  by_cases h : w / NPTENTRIES = i
  · simp [lookup, setTable, h]
  · simp [lookup, setTable, h]

theorem lookup_setTable_empty (h : d.table i = none) (f : Frame) (w : Nat) :
    (d.setTable i ⟨f, fun _ => none⟩).lookup w = d.lookup w := by
  rw [lookup_setTable]
  split_ifs with hi
  · subst hi
    exact (lookup_of_table_none h).symm
  · rfl

theorem lookup_setPte_self (h : d.table (v / NPTENTRIES) ≠ none) (x : Option Pte) :
    (d.setPte v x).lookup v = x := by
  obtain ⟨t, ht⟩ := Option.ne_none_iff_exists'.1 h
  simp [setPte, lookup, ht]

theorem lookup_setPte_of_ne (hne : w ≠ v) (x : Option Pte) :
    (d.setPte v x).lookup w = d.lookup w := by
  unfold setPte
  split
  · rfl
  next t ht =>
    by_cases hw : w / NPTENTRIES = v / NPTENTRIES
    · have hmod : w % NPTENTRIES ≠ v % NPTENTRIES := by
        intro hmod
        apply hne
        rw [← Nat.div_add_mod w NPTENTRIES, hw, hmod, Nat.div_add_mod]
      simp [lookup, hw, ht, hmod]
    · simp [lookup, hw]

@[simp] theorem setPte_frame (d : PageDir) (v : Nat) (x : Option Pte) :
    (d.setPte v x).frame = d.frame := by
  unfold setPte
  split <;> rfl

theorem table_setPte_map (d : PageDir) (v i : Nat) (x : Option Pte) :
    ((d.setPte v x).table i).map Table.frame = (d.table i).map Table.frame := by
  unfold setPte
  split
  · rfl
  next t ht =>
    by_cases hi : i = v / NPTENTRIES
    · simp [hi, ht]
    · simp [hi]

theorem table_setPte_eq_none (d : PageDir) (v i : Nat) (x : Option Pte) :
    (d.setPte v x).table i = none ↔ d.table i = none := by
  rw [← Option.map_eq_none_iff (f := Table.frame), table_setPte_map, Option.map_eq_none_iff]

@[simp] theorem setTable_frame (d : PageDir) (i : Nat) (t : Table) :
    (d.setTable i t).frame = d.frame := rfl

end PageDir

/-! ## Sizes -/

theorem div_PGSIZE_le {sz : Nat} (h : sz < (UPAGES + 1) * PGSIZE) : sz / PGSIZE ≤ UPAGES := by
  rw [Nat.mul_comm] at h
  exact Nat.lt_succ_iff.1 (Nat.div_lt_of_lt_mul h)

theorem div_PGSIZE_lt {sz : Nat} (h : sz < (UPAGES + 1) * PGSIZE) : sz / PGSIZE < 2 ^ 20 :=
  Nat.lt_of_le_of_lt (div_PGSIZE_le h) (by decide)

/-! ## Programs -/

section Programs

variable {C : Mem → Prop} {E : Halt → Mem → Prop} {m : Mem} {d : PageDir}

theorem wp_kalloc {Q : Option Frame → Mem → Prop} (hC : C m) (hnil : m.free = [] → Q none m)
    (hcons : ∀ f fs, m.free = f :: fs → Q (some f) { m with free := fs }) :
    kalloc.wp C E Q m := by
  apply Prog.wp_atomic hC
  · intro r t hr
    cases hfree : m.free with
    | nil =>
      obtain ⟨rfl, rfl⟩ : none = r ∧ m = t := by simpa [hfree] using hr
      exact hnil hfree
    | cons f fs =>
      obtain ⟨rfl, rfl⟩ : some f = r ∧ { m with free := fs } = t := by
        simpa [hfree] using hr
      exact hcons f fs hfree
  · intro x hx
    cases hfree : m.free <;> simp [hfree] at hx

theorem wp_kfree {Q : Unit → Mem → Prop} {f : Frame} (hC : C m) (hE : E (.panic "kfree") m)
    (hQ : Q () { m with free := f :: m.free }) : (kfree f).wp C E Q m := by
  apply Prog.wp_atomic hC
  · intro _ t ht
    split_ifs at ht
    obtain rfl : { m with free := f :: m.free } = t := by simpa using ht
    exact hQ
  · intro x hx
    split_ifs at hx
    obtain rfl : Halt.panic "kfree" = x := by simpa using hx
    exact hE

theorem wp_panic {α : Type} {Q : α → Mem → Prop} {msg : String} (hC : C m)
    (hE : E (.panic msg) m) : (Prog.panic () msg : VmM α).wp C E Q m := by
  apply Prog.wp_atomic hC
  · simp
  · intro x hx
    obtain rfl : Halt.panic msg = x := by simpa using hx
    exact hE

theorem wp_ret {α : Type} {Q : α → Mem → Prop} {a : α} (h : Q a m) :
    (pure a : VmM α).wp C E Q m := h

theorem mappages_page {v : Nat} (hv : v < 2 ^ 20) (f : Frame) (w u : Bool) :
    mappages d (v * PGSIZE) PGSIZE f w u = mapLoop w u 1 d v f := by
  have hsize : PGSIZE = 4096 := rfl
  have ha : v * PGSIZE / PGSIZE = v := by
    rw [hsize]
    omega
  have hlast : (v * PGSIZE + PGSIZE - 1) % 2 ^ 32 / PGSIZE = v := by
    rw [hsize]
    omega
  have hn : (v + 2 ^ 20 - v) % 2 ^ 20 + 1 = 1 := by omega
  unfold mappages
  rw [ha, hlast]
  simp only [hn]

theorem mappages_new {v : Nat} {f : Frame} {w u : Bool} (hv : v < 2 ^ 20)
    (ht : d.table (v / NPTENTRIES) = none) :
    mappages d (v * PGSIZE) PGSIZE f w u = kalloc.bind fun o => pure (o.elim (d, false) fun g =>
      ((d.setTable (v / NPTENTRIES) ⟨g, fun _ => none⟩).setPte v (some ⟨f, w, u⟩), true)) := by
  rw [mappages_page hv, mapLoop, walkpgdir, ht]
  show kalloc.bind _ = kalloc.bind _
  congr
  funext o
  cases o with
  | none => rfl
  | some g =>
    have hlook : (d.setTable (v / NPTENTRIES) ⟨g, fun _ => none⟩).lookup v = none := by
      rw [PageDir.lookup_setTable_empty ht, PageDir.lookup_of_table_none ht]
    show ite _ _ _ = _
    rw [hlook]
    rfl

theorem mappages_old {v : Nat} {f : Frame} {w u : Bool} (hv : v < 2 ^ 20)
    (ht : d.table (v / NPTENTRIES) ≠ none) :
    mappages d (v * PGSIZE) PGSIZE f w u = if (d.lookup v).isSome then Prog.panic () "remap"
      else pure (d.setPte v (some ⟨f, w, u⟩), true) := by
  obtain ⟨t, ht⟩ := Option.ne_none_iff_exists'.1 ht
  rw [mappages_page hv, mapLoop, walkpgdir, ht]
  rfl

theorem wp_mappages {Q : PageDir × Bool → Mem → Prop} {v : Nat} {f : Frame} {w u : Bool}
    (hv : v < 2 ^ 20) (hC : C m) (hE : d.lookup v ≠ none → E (.panic "remap") m)
    (hmap : d.table (v / NPTENTRIES) ≠ none → d.lookup v = none →
      Q (d.setPte v (some ⟨f, w, u⟩), true) m)
    (hfail : d.table (v / NPTENTRIES) = none → m.free = [] → Q (d, false) m)
    (hnew : ∀ g gs, d.table (v / NPTENTRIES) = none → m.free = g :: gs →
      Q ((d.setTable (v / NPTENTRIES) ⟨g, fun _ => none⟩).setPte v (some ⟨f, w, u⟩), true)
        { m with free := gs }) :
    (mappages d (v * PGSIZE) PGSIZE f w u).wp C E Q m := by
  by_cases ht : d.table (v / NPTENTRIES) = none
  · rw [mappages_new hv ht]
    apply Prog.wp_bind
    exact wp_kalloc hC (hfail ht) fun g gs => hnew g gs ht
  · rw [mappages_old hv ht]
    cases hlook : d.lookup v with
    | none => exact hmap ht hlook
    | some pte => exact wp_panic hC (hE (by simp [hlook]))

theorem PageDir.setPte_none_of_lookup {v : Nat} (h : d.lookup v = none) : d.setPte v none = d := by
  unfold setPte
  split
  · rfl
  next t ht =>
    have hpte : t.pte (v % NPTENTRIES) = none := by simpa [lookup, ht] using h
    have hself : Function.update t.pte (v % NPTENTRIES) none = t.pte := by
      rw [← hpte, Function.update_eq_self]
    rw [hself, ← ht, Function.update_eq_self]

theorem clearRange_of_le {msg : String} {keep : Frame → Bool} {top fuel a : Nat} (h : top ≤ a) :
    clearRange msg keep top fuel d a = pure d := by
  cases fuel with
  | zero => rfl
  | succ fuel => rw [clearRange, if_neg (by omega)]

theorem wp_unmap {Q : PageDir → Mem → Prop} {v : Nat} {freeframes : Int} (hv : v < UPAGES)
    (hff : freeframes ≠ 0) (hC : C m) (hE : E (.panic "kfree unmappages") m)
    (hQ : Q (d.setPte v none) m) : (unmap d (v * PGSIZE) PGSIZE freeframes).wp C E Q m := by
  have hsize : PGSIZE = 4096 := rfl
  have hup : UPAGES = 2 ^ 19 := rfl
  have htop : pages ((v * PGSIZE + PGSIZE) % 2 ^ 32) = v + 1 := by
    rw [pages, hsize]
    omega
  have ha : PGROUNDUP (v * PGSIZE) / PGSIZE = v := by
    rw [PGROUNDUP, hsize]
    omega
  have hnp : 0 < NPTENTRIES := by decide
  simp only [unmap, htop, ha]
  rw [clearRange, if_pos (Nat.lt_succ_self v)]
  cases ht : d.table (v / NPTENTRIES) with
  | none =>
    simp only
    rw [clearRange_of_le (by omega)]
    rwa [PageDir.setPte_none_of_lookup (PageDir.lookup_of_table_none ht)] at hQ
  | some t =>
    cases hpte : t.pte (v % NPTENTRIES) with
    | none =>
      simp only [hpte]
      rw [clearRange_of_le (by omega)]
      rwa [PageDir.setPte_none_of_lookup (by simp [PageDir.lookup, ht, hpte])] at hQ
    | some pte =>
      simp only [hpte]
      split_ifs with hzero hkeep
      · exact wp_panic hC hE
      · simp [hff] at hkeep
      · rw [clearRange_of_le (by omega)]
        exact hQ

theorem copyLoop_succ {S : Frame → Bool} {pgdir : PageDir} {pte : Pte} {n i : Nat}
    (h : pgdir.lookup i = some pte) : copyLoop S pgdir (n + 1) d i =
      (if S pte.frame then pure (some pte.frame) else kalloc : VmM (Option Frame)).bind fun mem =>
        match mem with
        | none => pure (d, false)
        | some f => (mappages d (i * PGSIZE) PGSIZE f pte.w pte.u).bind fun r =>
          if r.2 then copyLoop S pgdir n r.1 (i + 1) else pure (r.1, false) := by
  obtain ⟨t, ht, hpte⟩ := Option.bind_eq_some_iff.1 h
  rw [copyLoop]
  simp only [ht, hpte]
  split_ifs <;> rfl

theorem closeAll_cons (p : Xv6.Sched.Slot) (i : Nat) (is : List Nat) (k : Kernel) :
    closeAll p (i :: is) k = if (k.proc p).shmem i ≠ -1 then
      (shmClose k p ((k.proc p).shmem i)).bind fun r => closeAll p is r.2
    else closeAll p is k := rfl

theorem wp_loaduvm {Q : Bool → Mem → Prop} {addr sz reads : Nat} (hC : C m)
    (hE : ∀ msg, E (.panic msg) m) (hQ : ∀ loaded, Q loaded m) :
    (loaduvm d addr sz reads).wp C E Q m := by
  unfold loaduvm
  dsimp only
  split_ifs
  · exact wp_panic hC (hE _)
  · exact wp_panic hC (hE _)
  · exact wp_panic hC (hE _)
  · exact hQ _

theorem wp_clearpteu {Q : PageDir → Mem → Prop} {uva : Nat} (hC : C m)
    (hE : E (.panic "clearpteu") m)
    (hQ : Q (d.setPte (uva / PGSIZE)
      ((d.lookup (uva / PGSIZE)).map fun pte => { pte with u := false })) m) :
    (clearpteu d uva).wp C E Q m := by
  unfold clearpteu
  simp only
  split_ifs
  · exact wp_panic hC hE
  · exact hQ

/-- The tables after a store through the pointer `mem`: as they were, or with the reference
count of a block overwritten through a pointer into the kernel. -/
inductive Stored (k : Kernel) (mem : Nat) : Kernel → Prop
  | same : Stored k mem k
  | count (hmem : KERNBASE < mem + 4) (i : Nat) (n : Int) :
      Stored k mem (k.setBlock i { k.block i with refcount := n })

theorem Stored.proc {k k' : Kernel} {mem : Nat} (h : Stored k mem k') : k'.proc = k.proc := by
  cases h <;> rfl

theorem Stored.addr {k k' : Kernel} {mem : Nat} (h : Stored k mem k') (j : Nat) :
    (k'.block j).addr = (k.block j).addr := by
  cases h with
  | same => rfl
  | count _ i n => by_cases hj : j = i <;> simp [Kernel.setBlock, hj]

theorem Stored.eq {k k' : Kernel} {mem : Nat} (h : Stored k mem k') (hmem : mem + 4 ≤ KERNBASE) :
    k' = k := by
  cases h with
  | same => rfl
  | count hgt => omega

theorem post_storeAddr {k : Kernel} {p : Xv6.Sched.Slot} {mem a : Nat} :
    (storeAddr k p mem a).post (fun k' m' => Stored k mem k' ∧ m' = m) m := by
  unfold storeAddr
  dsimp only
  by_cases hwrite : ¬ ((k.proc p).pgdir.writable (mem / PGSIZE) = true ∧
      (k.proc p).pgdir.writable ((mem + 3) % 2 ^ 32 / PGSIZE) = true)
  · rw [if_pos hwrite]
    exact wp_panic trivial trivial
  rw [if_neg hwrite]
  by_cases huser : mem + 4 ≤ KERNBASE
  · rw [if_pos huser]
    exact ⟨.same, rfl⟩
  rw [if_neg huser]
  refine Prog.wp_bind (Prog.wp_atomic trivial (fun table m' hread => ?_) (by simp))
  obtain ⟨_, rfl⟩ : m.shmtable = table ∧ m = m' := by simpa using hread
  split
  · exact ⟨.count (by omega) _ _, rfl⟩
  · exact wp_panic trivial trivial

/-- The tables after `shm_get` has put `key` in slot `i` of process `p`. -/
def Kernel.attach (k : Kernel) (p : Xv6.Sched.Slot) (key i : Nat) (d : PageDir) : Kernel :=
  let b := k.block key
  let r := k.proc p
  (k.setBlock key { b with refcount := b.refcount + 1 }).setProc p
    { r with
      shmem := Function.update r.shmem i key
      shmemquantity := r.shmemquantity + 1
      pgdir := d
      shmref := Function.update r.shmref i (PGROUNDDOWN r.sz)
      sz := (r.sz + PGSIZE) % 2 ^ 32 }

/-- The tests of `sys_shm_get` and `shm_get` let the call through, with slot `i`. -/
structure Gets (k : Kernel) (p : Xv6.Sched.Slot) (key : Int) (i : Nat) : Prop where
  quantity : (k.proc p).shmemquantity < MAXSHMPROC
  pos : 0 ≤ key
  le : key ≤ MAXSHM
  room : (k.block key.toNat).refcount ≠ MAXSHMPROC
  slot : shmSlot (k.proc p) (-1) = some i

/-- A call of `shm_get` that gets past its tests maps a page, changes the tables and stores the
address of the page. -/
theorem wp_sysShmGet {k : Kernel} {p : Xv6.Sched.Slot} {key : Int} {mem : Nat}
    {Q : Option Nat × Kernel → Mem → Prop} (hnone : Q (none, k) m)
    (hsome : ∀ i, Gets k p key i → (mappages (k.proc p).pgdir ((k.proc p).sz / PGSIZE * PGSIZE)
      PGSIZE (k.block i).addr true true).wp C E (fun r m' =>
        (storeAddr (k.attach p key.toNat i r.1) p mem (PGROUNDDOWN (k.proc p).sz)).wp C E
          (fun k' => Q (some (PGROUNDDOWN (k.proc p).sz), k')) m') m) :
    (sysShmGet k p key mem).wp C E Q m := by
  unfold sysShmGet
  split_ifs with hq
  · exact hnone
  unfold shmGet
  split_ifs with hkey
  · exact hnone
  push Not at hkey
  simp only
  cases hslot : shmSlot (k.proc p) (-1) with
  | none => exact hnone
  | some i =>
    have hcast : ((key.toNat : Nat) : Int) = key := Int.toNat_of_nonneg hkey.1
    refine Prog.wp_bind (Prog.wp_imp (hsome i ⟨by omega, hkey.1, hkey.2.1, hkey.2.2, hslot⟩)
      fun r m' hr => Prog.wp_bind ?_)
    simp only [Kernel.attach, hcast] at hr
    exact hr

theorem post_sysShmGet {k : Kernel} {p : Xv6.Sched.Slot} {key : Int} {mem : Nat}
    {Q : Option Nat × Kernel → Mem → Prop} (hnone : Q (none, k) m)
    (hsome : ∀ i, Gets k p key i → (mappages (k.proc p).pgdir ((k.proc p).sz / PGSIZE * PGSIZE)
      PGSIZE (k.block i).addr true true).post (fun r m' => ∀ k',
        Stored (k.attach p key.toNat i r.1) mem k' →
          Q (some (PGROUNDDOWN (k.proc p).sz), k') m') m) :
    (sysShmGet k p key mem).post Q m := by
  refine wp_sysShmGet hnone fun i hi => Prog.wp_imp (hsome i hi)
    fun r m' hr => Prog.wp_imp post_storeAddr ?_
  rintro k' m'' ⟨hstored, rfl⟩
  exact hr k' hstored

end Programs

end Xv6.Vm
