import Xv6.Vm.ShmCount
import Xv6.Vm.Top

/-!
# The pages of attached blocks

`shm_get` notes the address of the page it maps in `shmref`, and `shm_close` unmaps
whatever is at that address.  The note and the page table agree as long as `sbrk` and
`exec` leave the pages of attached blocks where they are.
-/

namespace Xv6.Vm

open Xv6.Lib
open Xv6.Sched (Slot NPROC)

/-- The pages of the blocks that a process has attached are where its slots say, each at
an address of its own. -/
structure Proc.Attached (block : Nat → Block) (r : Proc) : Prop where
  page : ∀ i, i < MAXSHMPROC → ∀ key : Nat, r.shmem i = key → ∃ v, v < UPAGES ∧
    v < pages r.sz ∧ r.shmref i = v * PGSIZE ∧ r.pgdir.lookup v = some ⟨(block key).addr, true, true⟩
  apart : ∀ i j, i < MAXSHMPROC → j < MAXSHMPROC → r.shmem i ≠ -1 → r.shmem j ≠ -1 →
    r.shmref i = r.shmref j → i = j

structure Kernel.Attached (k : Kernel) : Prop where
  size : ∀ p, (k.proc p).life = .live → (k.proc p).sz ≤ KERNBASE
  proc : ∀ p, (k.proc p).life = .live → p ≠ k.initproc → (k.proc p).Attached k.block

def Proc.SameImage (r r' : Proc) : Prop :=
  r'.pgdir = r.pgdir ∧ r'.sz = r.sz ∧ r'.shmem = r.shmem ∧ r'.shmref = r.shmref

section

variable {k t : Kernel} {m : Mem} {p : Slot} {r r' : Proc} {block block' : Nat → Block}

theorem Proc.attached_of_free (h : ∀ i, i < MAXSHMPROC → r.shmem i = -1) : r.Attached block := by
  constructor
  · intro i hi key hkey
    have hfree := h i hi
    omega
  · intro i j hi _ hne
    exact absurd (h i hi) hne

theorem Proc.Attached.congr (h : r.Attached block) (hsame : r.SameImage r')
    (haddr : ∀ i, i < MAXSHMPROC → ∀ key : Nat, r.shmem i = key →
      (block' key).addr = (block key).addr) : r'.Attached block' := by
  obtain ⟨hpgdir, hsz, hshmem, hshmref⟩ := hsame
  constructor
  · intro i hi key hkey
    rw [hshmem] at hkey
    rw [hpgdir, hsz, hshmref, haddr i hi key hkey]
    exact h.page i hi key hkey
  · rw [hshmem, hshmref]
    exact h.apart

theorem Proc.Attached.resize (h : r.Attached block) (hshmem : r'.shmem = r.shmem)
    (hshmref : r'.shmref = r.shmref)
    (hpage : ∀ i, i < MAXSHMPROC → r.shmem i ≠ -1 → ∀ v, r.shmref i = v * PGSIZE →
      v < pages r.sz → v < pages r'.sz ∧ r'.pgdir.lookup v = r.pgdir.lookup v) :
    r'.Attached block := by
  constructor
  · intro i hi key hkey
    rw [hshmem] at hkey
    obtain ⟨v, hup, hlt, href, hlook⟩ := h.page i hi key hkey
    obtain ⟨hlt', hlook'⟩ := hpage i hi (by omega) v href hlt
    exact ⟨v, hup, hlt', by rw [hshmref, href], by rw [hlook', hlook]⟩
  · rw [hshmem, hshmref]
    exact h.apart

theorem Kernel.Attached.assign (h : k.Attached) (hproc : ∀ q, q ≠ p →
      (t.proc q).life = .live → (k.proc q).life = .live ∧ (k.proc q).SameImage (t.proc q))
    (hinit : t.initproc = k.initproc)
    (haddr : ∀ q, (k.proc q).life = .live → q ≠ k.initproc → ∀ i, i < MAXSHMPROC →
      ∀ key : Nat, (k.proc q).shmem i = key → (t.block key).addr = (k.block key).addr)
    (hsize : (t.proc p).life = .live → (t.proc p).sz ≤ KERNBASE)
    (hself : (t.proc p).life = .live → p ≠ k.initproc → (t.proc p).Attached t.block) :
    t.Attached := by
  constructor
  · intro q hlive
    by_cases hq : q = p
    · subst hq
      exact hsize hlive
    · obtain ⟨hold, hsame⟩ := hproc q hq hlive
      rw [hsame.2.1]
      exact h.size q hold
  · intro q hlive hne
    rw [hinit] at hne
    by_cases hq : q = p
    · subst hq
      exact hself hlive hne
    · obtain ⟨hold, hsame⟩ := hproc q hq hlive
      exact (h.proc q hold hne).congr hsame (haddr q hold hne)

theorem Kernel.Attached.setProc (h : k.Attached) (hsize : r.life = .live → r.sz ≤ KERNBASE)
    (hself : r.life = .live → p ≠ k.initproc → r.Attached k.block) : (k.setProc p r).Attached := by
  have hr : (k.setProc p r).proc p = r := by simp [Kernel.setProc]
  apply h.assign (p := p) (t := k.setProc p r) _ rfl (fun _ _ _ _ _ _ _ => rfl)
  · rwa [hr]
  · rwa [hr]
  · intro q hq hlive
    have hsame : (k.setProc p r).proc q = k.proc q := by simp [Kernel.setProc, hq]
    rw [hsame] at hlive ⊢
    exact ⟨hlive, rfl, rfl, rfl, rfl⟩

/-! ## The calls -/

/-- What a `sbrk` to a smaller size needs: the pages of attached blocks stay below it. -/
def ShrinkKeeps (k : Kernel) (p : Slot) (n : Int) : Prop :=
  let r := k.proc p
  let newsz := ((r.sz + n) % 2 ^ 32).toNat
  n < 0 → p ≠ k.initproc → ∀ i, i < MAXSHMPROC → r.shmem i ≠ -1 → r.shmref i / PGSIZE < pages newsz

def ExecFree (k : Kernel) (p : Slot) : Prop :=
  p ≠ k.initproc → ∀ i, i < MAXSHMPROC → (k.proc p).shmem i = -1

/-- What `shm_get` needs: if its tests let it through, the page it maps is that of the key,
the page table is there or can be allocated, and there is room below the kernel. -/
def GetMaps (k : Kernel) (m : Mem) (p : Slot) (key : Int) : Prop :=
  GetOk k p key ∧ GetRoom k m p key ∧
    ((shmSlot (k.proc p) (-1)).isSome → (k.proc p).sz + PGSIZE ≤ KERNBASE)

theorem post_growproc_attached {n : Int} (h : k.Attached) (hlive : (k.proc p).life = .live)
    (hok : ShrinkKeeps k p n) : (growproc k p n).post (fun r _ => r.2.Attached) m := by
  have hsz := h.size p hlive
  unfold growproc
  unfold ShrinkKeeps at hok
  simp only at hok ⊢
  generalize (((k.proc p).sz + n) % 2 ^ 32).toNat = newsz at hok ⊢
  split_ifs with hn hn'
  · apply Prog.wp_seq post_allocuvm_allocates
    rintro ⟨d, sz⟩ m₁ halloc
    have hsize := halloc.size
    simp only at hsize
    by_cases hzero : sz = 0
    · simp only [hzero, if_true]
      refine h.setProc (fun _ => hsz) fun _ hne => (h.proc p hlive hne).resize rfl rfl ?_
      intro i _ _ v _ hlt
      exact ⟨hlt, halloc.below v hlt⟩
    · simp only [hzero, if_false]
      refine h.setProc (fun _ => by simp only; omega)
        fun _ hne => (h.proc p hlive hne).resize rfl rfl ?_
      intro i _ _ v _ hlt
      exact ⟨Nat.lt_of_lt_of_le hlt (pages_mono (by simp only; omega)), halloc.below v hlt⟩
  · apply Prog.wp_seq (post_deallocuvm_clears (sane_of_le hsz))
    rintro ⟨d, sz⟩ m₁ (⟨heq, _⟩ | ⟨hlt, hsz', hclear⟩)
    · obtain ⟨rfl, rfl⟩ : d = (k.proc p).pgdir ∧ sz = (k.proc p).sz := by simpa using heq
      simp only
      split <;> exact h.setProc (fun _ => hsz) fun _ hne => h.proc p hlive hne
    · simp only at hsz' hclear
      subst hsz'
      have hbelow : p ≠ k.initproc → ∀ i, i < MAXSHMPROC → (k.proc p).shmem i ≠ -1 →
          ∀ v, (k.proc p).shmref i = v * PGSIZE →
            v < pages sz ∧ d.lookup v = (k.proc p).pgdir.lookup v := by
        intro hne i hi hheld v href
        have hv := hok hn' hne i hi hheld
        rw [href, Nat.mul_div_cancel v (by decide)] at hv
        exact ⟨hv, hclear.rest v (.inl hv)⟩
      by_cases hzero : sz = 0
      · simp only [hzero, if_true]
        refine h.setProc (fun _ => hsz) fun _ hne => (h.proc p hlive hne).resize rfl rfl ?_
        intro i hi hheld v href hv
        exact ⟨hv, (hbelow hne i hi hheld v href).2⟩
      · simp only [hzero, if_false]
        refine h.setProc (fun _ => by simp only; omega)
          fun _ hne => (h.proc p hlive hne).resize rfl rfl ?_
        intro i hi hheld v href _
        exact hbelow hne i hi hheld v href
  · exact h

theorem post_exec_attached {img : Image} (h : k.Attached) (hok : ExecFree k p) :
    (exec k p img).post (fun r _ => r.2.Attached) m :=
  post_exec_of (P := fun d sz => d.Topped sz ∧ sz ≤ KERNBASE) h post_execSpace_topped
    fun _ _ hnew => h.setProc (fun _ => hnew.2) fun _ hne => Proc.attached_of_free (hok hne)

theorem post_fork_attached (h : k.Attached) (hlive : (k.proc p).life = .live) :
    (fork k p).post (fun r _ => r.2.Attached) m := by
  have hnext : Kernel.Attached { k with nextpid := k.nextpid + 1 } := ⟨h.size, h.proc⟩
  apply post_fork_of (R := fun r => r.2.Attached) (P := fun _ => True) h hnext
  · exact fun _ => by simpa using Prog.post_trivial
  · intro q g d _ _
    exact hnext.setProc (fun _ => h.size p hlive) fun _ _ => Proc.attached_of_free fun _ _ => rfl

theorem Closes.initproc_eq {key v : Int} (h : Closes k p key v t) : t.initproc = k.initproc := by
  cases h <;> rfl

theorem ClosesAll.initproc_eq {is : List Nat} (h : ClosesAll p is k t) :
    t.initproc = k.initproc := by
  induction h with
  | nil k => rfl
  | skip _ _ ih => exact ih
  | close _ hclose _ ih => exact ih.trans hclose.initproc_eq

theorem post_exit_attached (h : k.Attached) : (exit k p).post (fun r _ => r.2.Attached) m := by
  unfold exit
  split_ifs
  · exact wp_panic trivial trivial
  · apply Prog.wp_seq (Prog.post_and post_closeAll_others (post_closeAll_closes _))
    rintro k₁ m₁ ⟨hothers, hcloses⟩
    have hself : ((k₁.bury p).proc p).life ≠ .live := by
      rw [(bury_self k₁ p).1]
      decide
    apply h.assign (p := p) (t := k₁.bury p) _ hcloses.initproc_eq
      (fun _ _ _ _ _ key _ => hcloses.addr key) (fun hlive => absurd hlive hself)
      fun hlive => absurd hlive hself
    intro q hq hlive
    have hproc : ((k₁.bury p).proc q).life = (k.proc q).life ∧
        (k.proc q).SameImage ((k₁.bury p).proc q) := by
      simp only [Kernel.bury, hq, if_false, hothers q hq]
      split_ifs <;> exact ⟨rfl, rfl, rfl, rfl, rfl⟩
    rw [hproc.1] at hlive
    exact ⟨hlive, hproc.2⟩

theorem post_wait_attached (h : k.Attached) : (wait k p).post (fun r _ => r.2.Attached) m := by
  unfold wait
  simp only
  generalize (List.finRange NPROC).filter _ = kids
  cases kids.find? fun q => (k.proc q).life = .zombie with
  | none =>
    simp only
    split_ifs
    · exact h
    · exact Prog.wp_atomic trivial (by simp) fun _ _ => trivial
  | some q =>
    apply Prog.wp_seq Prog.post_trivial
    intro _ _ _
    apply Prog.wp_seq Prog.post_trivial
    intro _ _ _
    exact h.setProc (fun hlive => by simp at hlive) fun hlive => by simp at hlive

theorem Kernel.Attached.activate (h : k.Attached) (ht : Tallied k) {i : Nat} (hi : i < MAXSHM)
    (hfree : (k.block i).refcount = -1) (f : Frame) : (k.activate i f).Attached := by
  refine ⟨h.size, fun q hlive hne => (h.proc q hlive hne).congr ⟨rfl, rfl, rfl, rfl⟩ ?_⟩
  intro j hj key hkey
  have hki : key ≠ i := by
    rintro rfl
    have hforked : k.Forked q := by
      refine ⟨?_, hne⟩
      have hl : (k.proc q).life = .live := hlive
      rw [hl]
      decide
    have hpos := held_pos hforked hj hkey
    have hzero := ht.held_eq_zero hi hfree
    omega
  simp [Kernel.activate, Kernel.setBlock, hki]

theorem post_shmCreate_attached (h : k.Attached) (ht : Tallied k) :
    (shmCreate k).post (fun r _ => r.2.Attached) m := by
  unfold shmCreate
  split_ifs
  · exact h
  cases hi : (List.range MAXSHM).find? fun i => (k.block i).refcount = -1 with
  | none => exact h
  | some i =>
    have hmem := List.mem_range.1 (List.mem_of_find?_eq_some hi)
    have hfree : (k.block i).refcount = -1 := by
      have hsome := List.find?_some hi
      simpa using hsome
    apply Prog.wp_seq Prog.post_trivial
    intro _ _ _
    exact h.activate ht hmem hfree _

theorem Proc.Attached.lookup_ne_none (h : r.Attached block)
    (hslots : ∀ i, i < MAXSHMPROC → r.SlotOk i) {i v : Nat} (hi : i < MAXSHMPROC)
    (hheld : r.shmem i ≠ -1) (href : r.shmref i = v * PGSIZE) : r.pgdir.lookup v ≠ none := by
  obtain ⟨key, _, hkey⟩ := (hslots i hi).resolve_left hheld
  obtain ⟨w, _, _, hw, hlook⟩ := h.page i hi key hkey
  obtain rfl : v = w := Nat.eq_of_mul_eq_mul_right (by decide) (href.symm.trans hw)
  rw [hlook]
  simp

theorem Proc.Attached.attach (h : r.Attached block) (hslots : ∀ i, i < MAXSHMPROC → r.SlotOk i)
    {i key v : Nat} (hup : v < UPAGES) (hv : v < pages r'.sz) (hle : pages r.sz ≤ pages r'.sz)
    (hnone : r.pgdir.lookup v = none)
    (hself : r'.pgdir.lookup v = some ⟨(block key).addr, true, true⟩)
    (hrest : ∀ w, w ≠ v → r'.pgdir.lookup w = r.pgdir.lookup w)
    (hshmem : r'.shmem = Function.update r.shmem i (key : Int))
    (hshmref : r'.shmref = Function.update r.shmref i (v * PGSIZE)) : r'.Attached block := by
  have hapart : ∀ j, j < MAXSHMPROC → r.shmem j ≠ -1 → r.shmref j ≠ v * PGSIZE :=
    fun j hj hheld href => h.lookup_ne_none hslots hj hheld href hnone
  constructor
  · intro j hj key' hkey'
    by_cases hji : j = i
    · subst hji
      rw [hshmem, Function.update_self] at hkey'
      obtain rfl : key = key' := by omega
      exact ⟨v, hup, hv, by rw [hshmref, Function.update_self], hself⟩
    · rw [hshmem, Function.update_of_ne hji] at hkey'
      obtain ⟨w, hwup, hw, href, hlook⟩ := h.page j hj key' hkey'
      have hwv : w ≠ v := by
        rintro rfl
        rw [hnone] at hlook
        simp at hlook
      exact ⟨w, hwup, by omega, by rw [hshmref, Function.update_of_ne hji, href],
        by rw [hrest w hwv, hlook]⟩
  · intro a b ha hb hheld hheld' href
    rw [hshmem] at hheld hheld'
    rw [hshmref] at href
    by_cases hai : a = i
    · by_cases hbi : b = i
      · rw [hai, hbi]
      · rw [hai, Function.update_self, Function.update_of_ne hbi] at href
        rw [Function.update_of_ne hbi] at hheld'
        exact absurd href.symm (hapart b hb hheld')
    · rw [Function.update_of_ne hai] at hheld href
      by_cases hbi : b = i
      · rw [hbi, Function.update_self] at href
        exact absurd href (hapart a ha hheld)
      · rw [Function.update_of_ne hbi] at hheld' href
        exact h.apart a b ha hb hheld hheld' href

theorem Proc.Attached.detach (h : r.Attached block) {i v : Nat} (hi : i < MAXSHMPROC)
    (hheld : r.shmem i ≠ -1) (href : r.shmref i = v * PGSIZE) (hsz : r'.sz = r.sz)
    (hrest : ∀ w, w ≠ v → r'.pgdir.lookup w = r.pgdir.lookup w)
    (hshmem : r'.shmem = Function.update r.shmem i (-1)) (hshmref : r'.shmref = r.shmref) :
    r'.Attached block := by
  have hother : ∀ j, r'.shmem j ≠ -1 → j ≠ i ∧ r.shmem j = r'.shmem j := by
    intro j hj
    rw [hshmem] at hj ⊢
    by_cases hji : j = i
    · rw [hji, Function.update_self] at hj
      exact absurd rfl hj
    · exact ⟨hji, by rw [Function.update_of_ne hji]⟩
  constructor
  · intro j hj key hkey
    obtain ⟨hji, hsame⟩ := hother j (by omega)
    obtain ⟨w, hwup, hw, hwref, hlook⟩ := h.page j hj key (hsame.trans hkey)
    have hwv : w ≠ v := by
      rintro rfl
      exact hji (h.apart j i hj hi (by omega) hheld (hwref.trans href.symm))
    exact ⟨w, hwup, by rw [hsz]; exact hw, by rw [hshmref, hwref], by rw [hrest w hwv, hlook]⟩
  · intro a b ha hb hheld hheld'
    obtain ⟨_, hsame⟩ := hother a hheld
    obtain ⟨_, hsame'⟩ := hother b hheld'
    rw [hshmref]
    exact h.apart a b ha hb (hsame ▸ hheld) (hsame' ▸ hheld')

theorem PageDir.table_ne_none {d : PageDir} {v : Nat} (h : d.lookup v ≠ none) :
    d.table (v / NPTENTRIES) ≠ none :=
  fun hnone => h (PageDir.lookup_of_table_none hnone)

/-- From `k` to `k'` process `p` has lost one page: the page of `key`, at the address that
the slot of the key notes. -/
def UnmapsKey (k : Kernel) (p : Slot) (key : Int) (k' : Kernel) : Prop :=
  ∃ i v, shmSlot (k.proc p) key = some i ∧ (k.proc p).shmref i = v * PGSIZE ∧
    (k.proc p).pgdir.lookup v = some ⟨(k.block key.toNat).addr, true, true⟩ ∧
    (k'.proc p).pgdir.lookup v = none ∧
    (∀ w, w ≠ v → (k'.proc p).pgdir.lookup w = (k.proc p).pgdir.lookup w) ∧
    ∀ q, q ≠ p → k'.proc q = k.proc q

theorem Kernel.Attached.detach (h : k.Attached) (hlive : (k.proc p).life = .live)
    (hne : p ≠ k.initproc) {i key v : Nat} {d : PageDir} (hi : i < MAXSHMPROC)
    (hheld : (k.proc p).shmem i ≠ -1) (href : (k.proc p).shmref i = v * PGSIZE)
    (hrest : ∀ w, w ≠ v → d.lookup w = (k.proc p).pgdir.lookup w) :
    (k.detach p key i d).Attached := by
  have hblock : ∀ n, ((k.detach p key i d).block n).addr = (k.block n).addr := by
    intro n
    by_cases hn : n = key
    · simp [Kernel.detach, Kernel.setProc, Kernel.setBlock, hn]
    · simp [Kernel.detach, Kernel.setProc, Kernel.setBlock, hn]
  have hproc : (k.detach p key i d).proc p = { k.proc p with
      shmemquantity := (k.proc p).shmemquantity - 1
      shmem := Function.update (k.proc p).shmem i (-1)
      pgdir := d } := by
    simp [Kernel.detach, Kernel.setProc]
  have hp : ((k.detach p key i d).proc p).Attached k.block := by
    rw [hproc]
    exact (h.proc p hlive hne).detach hi hheld href rfl hrest rfl rfl
  apply h.assign (p := p) (t := k.detach p key i d) _ rfl (fun _ _ _ _ _ n _ => hblock n)
  · intro _
    rw [hproc]
    exact h.size p hlive
  · intro _ _
    exact hp.congr ⟨rfl, rfl, rfl, rfl⟩ fun _ _ n _ => hblock n
  · intro q hq hlive'
    have hsame : (k.detach p key i d).proc q = k.proc q := by
      simp [Kernel.detach, Kernel.setProc, Kernel.setBlock, hq]
    rw [hsame] at hlive' ⊢
    exact ⟨hlive', rfl, rfl, rfl, rfl⟩

theorem post_shmClose_attached {key : Int} (h : k.Attached) (hlive : (k.proc p).life = .live)
    (hne : p ≠ k.initproc) (hcreated : Created k key) :
    (shmClose k p key).post (fun r _ => r.2.Attached ∧ (r.1 = 0 → UnmapsKey k p key r.2)) m := by
  unfold shmClose
  split_ifs with hkey
  · exact ⟨h, fun h0 => absurd (show (-1 : Int) = 0 from h0) (by decide)⟩
  simp only
  cases hslot : shmSlot (k.proc p) key with
  | none => exact ⟨h, fun h0 => absurd (show (-1 : Int) = 0 from h0) (by decide)⟩
  | some i =>
    have hpos := hcreated.1
    obtain ⟨hi, hshmem⟩ := shmSlot_eq_some hslot
    have hcast : (k.proc p).shmem i = (key.toNat : Int) := by omega
    obtain ⟨v, hup, _, href, hlook⟩ := (h.proc p hlive hne).page i hi key.toNat hcast
    have htable := PageDir.table_ne_none (d := (k.proc p).pgdir) (v := v) (by simp [hlook])
    have hself := PageDir.lookup_setPte_self htable none
    have hrest : ∀ w, w ≠ v → ((k.proc p).pgdir.setPte v none).lookup w =
        (k.proc p).pgdir.lookup w := fun w hw => PageDir.lookup_setPte_of_ne hw none
    have hff : (if (k.block key.toNat).refcount - 1 = 0 then (-1 : Int)
        else (k.block key.toNat).refcount - 1) ≠ 0 := by
      split_ifs with hlast
      · decide
      · exact hlast
    simp only [href]
    apply Prog.wp_bind
    apply wp_unmap hup hff trivial trivial
    change (k.detach p key.toNat i ((k.proc p).pgdir.setPte v none)).Attached ∧
      ((0 : Int) = 0 → UnmapsKey k p key (k.detach p key.toNat i _))
    refine ⟨h.detach hlive hne hi (by omega) href hrest, fun _ => ?_⟩
    refine ⟨i, v, hslot, href, hlook, ?_, ?_, ?_⟩
    · simpa [Kernel.detach, Kernel.setProc] using hself
    · intro w hw
      simpa [Kernel.detach, Kernel.setProc] using hrest w hw
    · intro q hq
      simp [Kernel.detach, Kernel.setProc, Kernel.setBlock, hq]

theorem Kernel.Attached.attach (h : k.Attached) (ht : Tallied k)
    (hlive : (k.proc p).life = .live) (hne : p ≠ k.initproc) {i key : Nat} {d : PageDir}
    (hsz : (k.proc p).sz + PGSIZE ≤ KERNBASE)
    (hnone : (k.proc p).pgdir.lookup ((k.proc p).sz / PGSIZE) = none)
    (hself : d.lookup ((k.proc p).sz / PGSIZE) = some ⟨(k.block key).addr, true, true⟩)
    (hrest : ∀ w, w ≠ (k.proc p).sz / PGSIZE → d.lookup w = (k.proc p).pgdir.lookup w) :
    (k.attach p key i d).Attached := by
  obtain ⟨hmod, hpages, hup⟩ : ((k.proc p).sz + PGSIZE) % 2 ^ 32 = (k.proc p).sz + PGSIZE ∧
      (k.proc p).sz / PGSIZE < pages ((k.proc p).sz + PGSIZE) ∧
      (k.proc p).sz / PGSIZE < UPAGES := by
    have hpg : PGSIZE = 4096 := rfl
    have hbase : KERNBASE = 2 ^ 31 := rfl
    have hu : UPAGES = 2 ^ 19 := rfl
    rw [hpg, hbase] at hsz
    rw [pages, hpg, hu]
    omega
  have hblock : ∀ n, ((k.attach p key i d).block n).addr = (k.block n).addr := by
    intro n
    by_cases hn : n = key
    · simp [Kernel.attach, Kernel.setProc, Kernel.setBlock, hn]
    · simp [Kernel.attach, Kernel.setProc, Kernel.setBlock, hn]
  have hproc : (k.attach p key i d).proc p = { k.proc p with
      shmem := Function.update (k.proc p).shmem i (key : Int)
      shmemquantity := (k.proc p).shmemquantity + 1
      pgdir := d
      shmref := Function.update (k.proc p).shmref i (PGROUNDDOWN (k.proc p).sz)
      sz := (k.proc p).sz + PGSIZE } := by
    simp only [Kernel.attach, Kernel.setProc, Function.update_self, hmod]
  have hslots := ht.range p ⟨by rw [hlive]; decide, hne⟩
  have hp : ((k.attach p key i d).proc p).Attached k.block := by
    rw [hproc]
    exact (h.proc p hlive hne).attach hslots hup hpages (pages_mono (Nat.le_add_right _ _)) hnone
      hself hrest rfl rfl
  apply h.assign (p := p) (t := k.attach p key i d) _ rfl (fun _ _ _ _ _ n _ => hblock n)
  · intro _
    rw [hproc]
    exact hsz
  · intro _ _
    exact hp.congr ⟨rfl, rfl, rfl, rfl⟩ fun _ _ n _ => hblock n
  · intro q hq hlive'
    have hsame : (k.attach p key i d).proc q = k.proc q := by
      simp [Kernel.attach, Kernel.setProc, Kernel.setBlock, hq]
    rw [hsame] at hlive' ⊢
    exact ⟨hlive', rfl, rfl, rfl, rfl⟩

theorem post_shmGet_attached {key : Int} {mem : Nat} (h : k.Attached) (ht : Tallied k)
    (hlive : (k.proc p).life = .live) (hne : p ≠ k.initproc) (hok : GetMaps k m p key)
    (hmem : mem + 4 ≤ KERNBASE) : (sysShmGet k p key mem).post (fun r _ => r.2.Attached) m := by
  obtain ⟨hown, hroom, htop⟩ := hok
  refine post_sysShmGet h fun i hi => ?_
  have hsz : (k.proc p).sz + PGSIZE ≤ KERNBASE := htop (by simp [hi.slot])
  have hspace := hroom hi.quantity hi.pos hi.le hi.room (by simp [hi.slot])
  obtain ⟨_, _, haddr⟩ := hown hi.quantity hi.pos hi.le hi.room i hi.slot
  have hv : (k.proc p).sz / PGSIZE < 2 ^ 20 := by
    have hpg : PGSIZE = 4096 := rfl
    have hbase : KERNBASE = 2 ^ 31 := rfl
    rw [hpg, hbase] at hsz
    rw [hpg]
    omega
  have hnew : ∀ d : PageDir, (k.proc p).pgdir.lookup ((k.proc p).sz / PGSIZE) = none →
      d.lookup ((k.proc p).sz / PGSIZE) = some ⟨(k.block key.toNat).addr, true, true⟩ →
      (∀ w, w ≠ (k.proc p).sz / PGSIZE → d.lookup w = (k.proc p).pgdir.lookup w) →
      ∀ k', Stored (k.attach p key.toNat i d) mem k' → k'.Attached := by
    intro d hnone hself hrest k' hstored
    rw [hstored.eq hmem]
    exact h.attach ht hlive hne hsz hnone hself hrest
  rw [haddr]
  apply wp_mappages hv trivial (fun _ => trivial)
  · intro htable hnone
    exact hnew _ hnone (PageDir.lookup_setPte_self htable _)
      fun w hw => PageDir.lookup_setPte_of_ne hw _
  · intro hnone hnil
    rcases hspace with hsome | hfree
    · simp [hnone] at hsome
    · exact absurd hnil hfree
  · intro t ts hnone _
    refine hnew _ (PageDir.lookup_of_table_none hnone) (PageDir.lookup_setPte_self ?_ _) ?_
    · simp [PageDir.setTable]
    · intro w hw
      rw [PageDir.lookup_setPte_of_ne hw, PageDir.lookup_setTable_empty hnone]

end

/-! ## Runs -/

/-- The condition on a call: keys are those of created blocks, and the pages of attached
blocks stay where they are. -/
def Kept (s : State) (e : Event) : Prop :=
  KeysOk s e ∧
    match e.call with
    | .sbrk n => ShrinkKeeps s.kern e.proc (int32 n)
    | .exec _ => ExecFree s.kern e.proc
    | .shmGet key _ => GetMaps s.kern s.mem e.proc (int32 key)
    | _ => True

instance (k : Kernel) (p : Slot) (n : Int) : Decidable (ShrinkKeeps k p n) := by
  unfold ShrinkKeeps
  infer_instance

instance (k : Kernel) (p : Slot) : Decidable (ExecFree k p) := by
  unfold ExecFree
  infer_instance

instance (k : Kernel) (m : Mem) (p : Slot) (key : Int) : Decidable (GetMaps k m p key) := by
  unfold GetMaps
  infer_instance

instance (s : State) : (e : Event) → Decidable (Kept s e)
  | ⟨p, .sbrk n⟩ => inferInstanceAs (Decidable (_ ∧ ShrinkKeeps s.kern p (int32 n)))
  | ⟨p, .exec _⟩ => inferInstanceAs (Decidable (_ ∧ ExecFree s.kern p))
  | ⟨p, .shmGet key _⟩ => inferInstanceAs (Decidable (_ ∧ GetMaps s.kern s.mem p (int32 key)))
  | ⟨_, .shmCreate⟩ | ⟨_, .fork⟩ | ⟨_, .exit⟩ | ⟨_, .wait⟩ | ⟨_, .shmClose _⟩ | ⟨_, .pipe⟩
  | ⟨_, .pipeclose _⟩ => inferInstanceAs (Decidable (_ ∧ True))

theorem post_code_attached {s : State} {e : Event} (h : s.kern.Attached) (ht : Tallied s.kern)
    (hlive : (s.kern.proc e.proc).life = .live) (hok : Kept s e) :
    (e.call.code s.kern e.proc).post (fun r _ => r.2.Attached) s.mem := by
  obtain ⟨p, call⟩ := e
  obtain ⟨hkeys, hok⟩ := hok
  cases call with
  | sbrk n => exact post_growproc_attached h hlive hok
  | fork => exact post_fork_attached h hlive
  | exec img => exact post_exec_attached h hok
  | exit => exact post_exit_attached h
  | wait => exact post_wait_attached h
  | shmCreate => exact post_shmCreate_attached h ht
  | shmGet key mem =>
    apply Prog.wp_seq (post_shmGet_attached h ht hlive hkeys.1.1 hok hkeys.2)
    intro r _ h'
    exact h'
  | shmClose key =>
    exact Prog.wp_imp (post_shmClose_attached h hlive hkeys.1 hkeys.2) fun _ _ h' => h'.1
  | pipe =>
    apply Prog.wp_seq Prog.post_trivial
    intro f _ _
    cases f <;> exact ⟨h.size, h.proc⟩
  | pipeclose f =>
    change (pipeclose s.kern f).post (fun r _ => r.2.Attached) s.mem
    unfold pipeclose
    split_ifs
    · apply Prog.wp_seq Prog.post_trivial
      intro _ _ _
      exact ⟨h.size, h.proc⟩
    · exact h

theorem post_userinit_attached (name : Int) {m : Mem} :
    (userinit name).post (fun k _ => k.Attached) m := by
  apply post_userinit_of
  intro kstack d
  have hsize : PGSIZE ≤ KERNBASE := by decide
  have hnone : Kernel.Attached (noKernel name) := by
    constructor
    · intro p hlive
      simp [noKernel, noProc] at hlive
    · intro p hlive
      simp [noKernel, noProc] at hlive
  exact hnone.setProc (fun _ => hsize) fun _ hne => absurd rfl hne

theorem Boots.attached {name : Int} {m : Mem} {s₀ s : State} (hboot : Boots name m s₀)
    (h : (machine s₀).Reach Kept s) : s.kern.Attached ∧ Tallied s.kern := by
  apply Machine.Reach.invariant (I := fun s => s.kern.Attached ∧ Tallied s.kern) _ _ h
  · rintro t rfl
    exact ⟨(Prog.wp_run (post_userinit_attached name)).1 _ _ hboot.run, hboot.watched.tallied⟩
  · rintro t e u ⟨hattached, htallied⟩ hok hstep
    obtain ⟨hlive, r, hrun⟩ := next_eq_some hstep
    have heffect := (Prog.wp_run (post_code_effect e.call)).1 (r, u.kern) u.mem hrun
    exact ⟨(Prog.wp_run (post_code_attached hattached htallied hlive hok)).1 (r, u.kern) u.mem hrun,
      (htallied.effect hlive hok.1 heffect).1⟩

end Xv6.Vm
