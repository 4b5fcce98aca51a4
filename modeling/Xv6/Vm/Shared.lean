import Xv6.Vm.Effects

/-!
# What `shm_get` maps

`shm_get` looks up the page to map under the index of the slot it has found in the
process, not under the key.  It maps the page of the key's block exactly when the
two blocks have the same page and the page table is there or can be allocated.
-/

namespace Xv6.Vm

open Xv6.Lib
open Xv6.Sched (Slot)

def Created (k : Kernel) (key : Int) : Prop :=
  0 ≤ key ∧ key < MAXSHM ∧ 0 ≤ (k.block key.toNat).refcount

structure KeyFrame (k : Kernel) (key : Int) (f : Frame) : Prop where
  created : Created k key
  addr : (k.block key.toNat).addr = f
  ne_null : f ≠ NULL

/-- When `shm_get` maps the page of its key: `key` has a page, the slot's block has the
same one, and the page table is there or can be allocated. -/
def MapsKey (k : Kernel) (m : Mem) (p : Slot) (key : Int) : Prop :=
  (∃ f, KeyFrame k key f) ∧
    (∃ i ∈ shmSlot (k.proc p) (-1), (k.block i).addr = (k.block key.toNat).addr) ∧
    ((k.proc p).pgdir.table ((k.proc p).sz / PGSIZE / NPTENTRIES) ≠ none ∨ m.free ≠ [])

section

variable {k : Kernel} {m : Mem} {p : Slot} {key : Int}

theorem mapsKey_iff {i : Nat} (hslot : shmSlot (k.proc p) (-1) = some i) {o : Option Frame}
    (ho : ((k.proc p).pgdir.table ((k.proc p).sz / PGSIZE / NPTENTRIES) ≠ none ∨ m.free ≠ []) ∧
        o = some (k.block i).addr ∨
      ¬ ((k.proc p).pgdir.table ((k.proc p).sz / PGSIZE / NPTENTRIES) ≠ none ∨ m.free ≠ []) ∧
        o = none) :
    (∃ f, KeyFrame k key f ∧ o = some f) ↔ MapsKey k m p key := by
  unfold MapsKey
  rw [hslot]
  rcases ho with ⟨hroom, rfl⟩ | ⟨hroom, rfl⟩
  · constructor
    · rintro ⟨f, hf, hmap⟩
      have haddr : (k.block i).addr = (k.block key.toNat).addr :=
        (Option.some.inj hmap).trans hf.addr.symm
      exact ⟨⟨f, hf⟩, ⟨i, rfl, haddr⟩, hroom⟩
    · rintro ⟨⟨f, hf⟩, ⟨j, hj, haddr⟩, _⟩
      obtain rfl : i = j := Option.some.inj hj
      exact ⟨f, hf, by rw [haddr, hf.addr]⟩
  · constructor
    · rintro ⟨f, _, hmap⟩
      simp at hmap
    · rintro ⟨_, _, hroom'⟩
      exact absurd hroom' hroom

theorem post_sysShmGet_maps {mem : Nat} (hsz : (k.proc p).sz < (UPAGES + 1) * PGSIZE) :
    (sysShmGet k p key mem).post (fun r _ => ∀ a, r.1 = some a →
      ((∃ f, KeyFrame k key f ∧ (r.2.proc p).pgdir.userFrame (a / PGSIZE) = some f) ↔
        MapsKey k m p key)) m := by
  refine post_sysShmGet (fun a ha => by simp at ha) fun i hi => ?_
  have hdiv : PGROUNDDOWN (k.proc p).sz / PGSIZE = (k.proc p).sz / PGSIZE :=
    Nat.mul_div_cancel _ (by decide)
  -- the page that is mapped afterwards, in each of the three cases of `mappages`
  have hmaps : ∀ d : PageDir,
      (((k.proc p).pgdir.table ((k.proc p).sz / PGSIZE / NPTENTRIES) ≠ none ∨
        m.free ≠ []) ∧ d.userFrame ((k.proc p).sz / PGSIZE) = some (k.block i).addr ∨
      ¬ ((k.proc p).pgdir.table ((k.proc p).sz / PGSIZE / NPTENTRIES) ≠ none ∨ m.free ≠ []) ∧
        d.userFrame ((k.proc p).sz / PGSIZE) = none) →
      ∀ k', Stored (k.attach p key.toNat i d) mem k' →
        ∀ a, some (PGROUNDDOWN (k.proc p).sz) = some a →
        ((∃ f, KeyFrame k key f ∧ (k'.proc p).pgdir.userFrame (a / PGSIZE) = some f) ↔
          MapsKey k m p key) := by
    intro d hd k' hstored a ha
    obtain rfl := Option.some.inj ha
    have hproc : (k'.proc p).pgdir = d := by
      rw [hstored.proc]
      simp [Kernel.attach, Kernel.setProc]
    rw [hproc, hdiv]
    exact mapsKey_iff hi.slot hd
  apply wp_mappages (div_PGSIZE_lt hsz) trivial (fun _ => trivial)
  · intro htable _
    refine hmaps _ (.inl ⟨.inl htable, ?_⟩)
    simp [PageDir.userFrame, PageDir.lookup_setPte_self htable]
  · intro hnone hfree
    refine hmaps _ (.inr ⟨by simp [hnone, hfree], ?_⟩)
    simp [PageDir.userFrame, PageDir.lookup_of_table_none hnone]
  · intro g gs hnone hfree
    have htable : ((k.proc p).pgdir.setTable ((k.proc p).sz / PGSIZE / NPTENTRIES)
        ⟨g, fun _ => none⟩).table ((k.proc p).sz / PGSIZE / NPTENTRIES) ≠ none := by
      simp [PageDir.setTable]
    refine hmaps _ (.inl ⟨.inr (by simp [hfree]), ?_⟩)
    simp [PageDir.userFrame, PageDir.lookup_setPte_self htable]

def Keeps (k k' : Kernel) : Prop :=
  ∀ key, Created k key → (k'.block key.toNat).addr = (k.block key.toNat).addr

theorem keeps_of_addr {k k' : Kernel} (h : ∀ i, (k'.block i).addr = (k.block i).addr) :
    Keeps k k' := fun _ _ => h _

theorem keeps_refl (k : Kernel) : Keeps k k := fun _ _ => rfl

theorem Closes.addr {v : Int} {k' : Kernel} (h : Closes k p key v k') (i : Nat) :
    (k'.block i).addr = (k.block i).addr := by
  cases h with
  | refused _ => rfl
  | detached j d _ _ _ _ =>
    by_cases hi : i = key.toNat
    · simp [Kernel.detach, Kernel.setProc, Kernel.setBlock, hi]
    · simp [Kernel.detach, Kernel.setProc, Kernel.setBlock, hi]

theorem ClosesAll.addr {is : List Nat} {k' : Kernel} (h : ClosesAll p is k k') (i : Nat) :
    (k'.block i).addr = (k.block i).addr := by
  induction h with
  | nil k => rfl
  | skip _ _ ih => exact ih
  | close _ hclose _ ih => rw [ih, hclose.addr i]

theorem keeps_attach (i : Nat) (d : PageDir) (n : Nat) : Keeps k (k.attach p n i d) := by
  apply keeps_of_addr
  intro j
  by_cases hj : j = n
  · simp [Kernel.attach, Kernel.setProc, Kernel.setBlock, hj]
  · simp [Kernel.attach, Kernel.setProc, Kernel.setBlock, hj]

theorem keeps_activate {i : Nat} {f : Frame} (hfree : (k.block i).refcount = -1) :
    Keeps k (k.activate i f) := by
  intro key hkey
  have hne : key.toNat ≠ i := by
    rintro rfl
    have href := hkey.2.2
    omega
  simp [Kernel.activate, Kernel.setBlock, hne]

theorem Effect.keeps {call : Call} {v : Int} {k' : Kernel} (h : Effect k p call v k') :
    Keeps k k' := by
  cases h with
  | quiet | memory | forked | reaped => exact keeps_refl k
  | exited k₁ _ hclose => exact keeps_of_addr hclose.addr
  | created i f _ hfree => exact keeps_activate hfree
  | attached _ _ i d _ _ hstored =>
    exact fun key hkey => (hstored.addr _).trans (keeps_attach i d _ key hkey)
  | closed _ _ _ hclose => exact keeps_of_addr hclose.addr

end

theorem Single.keyFrame_inj {f : Frame} {k : Kernel} {m : Mem} (h : Single f k m) {key key' : Int}
    (hkey : KeyFrame k key f) (hkey' : KeyFrame k key' f) : key = key' := by
  have hone : k.blocks f ≤ 1 := by
    have hle := h.le
    unfold total at hle
    omega
  obtain ⟨hpos, hlt, href⟩ := hkey.created
  obtain ⟨hpos', hlt', href'⟩ := hkey'.created
  have heq : key.toNat = key'.toNat := count_unique
    (P := fun i => (k.block i).addr = f ∧ 0 ≤ (k.block i).refcount) hone (by omega) (by omega)
    ⟨hkey.addr, href⟩ ⟨hkey'.addr, href'⟩
  omega

theorem reach_addr {s t : State} {key : Int}
    (h : (machine s).Reach (fun u _ => Created u.kern key) t) :
    (t.kern.block key.toNat).addr = (s.kern.block key.toNat).addr := by
  apply Machine.Reach.invariant (I := fun u => (u.kern.block key.toNat).addr =
    (s.kern.block key.toNat).addr) _ _ h
  · rintro u rfl
    rfl
  · intro u e v hu hcreated hstep
    obtain ⟨_, r, hrun⟩ := next_eq_some hstep
    rw [← hu]
    exact ((Prog.wp_run (post_code_effect e.call)).1 _ _ hrun).keeps key hcreated

end Xv6.Vm
