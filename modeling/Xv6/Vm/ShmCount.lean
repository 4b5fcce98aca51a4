import Xv6.Vm.Shared

/-!
# The counts of shared memory

`sharedmem.c` keeps the references of a block, the number of blocks and the number
of slots a process uses next to the slots themselves.  The counts agree with the
slots as long as `shm_get` and `shm_close` are called for created blocks, by
processes that `fork` has made: it is `fork` that sets the slots to -1.
-/

namespace Xv6.Vm

open Xv6.Lib
open Xv6.Sched (Slot NPROC)

def Proc.held (r : Proc) (i : Nat) : Nat :=
  if r.life = .unused then 0 else Nat.count (fun j => r.shmem j = i) MAXSHMPROC

/-- The slots of all processes but the first that hold block `i`. -/
def Kernel.held (k : Kernel) (i : Nat) : Nat :=
  ∑ p, if p = k.initproc then 0 else (k.proc p).held i

def Proc.slots (r : Proc) : Nat := Nat.count (fun j => r.shmem j ≠ -1) MAXSHMPROC

def Kernel.taken (k : Kernel) : Nat := Nat.count (fun i => (k.block i).refcount ≠ -1) MAXSHM

def Kernel.Forked (k : Kernel) (p : Slot) : Prop := (k.proc p).life ≠ .unused ∧ p ≠ k.initproc

def Proc.SlotOk (r : Proc) (j : Nat) : Prop :=
  r.shmem j = -1 ∨ ∃ i, i < MAXSHM ∧ r.shmem j = (i : Int)

structure Tallied (k : Kernel) : Prop where
  init : (k.proc k.initproc).life = .live
  range : ∀ p, k.Forked p → ∀ j, j < MAXSHMPROC → (k.proc p).SlotOk j
  refs : ∀ i, i < MAXSHM → (k.block i).refcount = -1 ∧ k.held i = 0 ∨
    (k.block i).refcount = (k.held i : Int)
  quantity : k.quantity = k.taken
  used : ∀ p, k.Forked p → (k.proc p).shmemquantity = ((k.proc p).slots : Int)
  idle : ∀ p, (k.proc p).life = .unused → (k.proc p).shmemquantity = 0
  buried : ∀ p, (k.proc p).life = .zombie → ∀ j, j < MAXSHMPROC → (k.proc p).shmem j = -1

/-! ## Assignments -/

section

variable {k t : Kernel} {p : Slot} {r : Proc}

theorem held_setProc (k : Kernel) {p : Slot} (hp : p ≠ k.initproc) (r : Proc) (i : Nat) :
    (k.setProc p r).held i + (k.proc p).held i = k.held i + r.held i := by
  have hsum := sum_assign (fun q => if q = k.initproc then 0 else (k.proc q).held i) p (r.held i)
  rw [if_neg hp] at hsum
  have hupdate : (k.setProc p r).held i = ∑ q, Function.update
      (fun q => if q = k.initproc then 0 else (k.proc q).held i) p (r.held i) q := by
    apply Finset.sum_congr rfl
    intro q _
    by_cases hq : q = p
    · subst hq
      simp [Kernel.setProc, hp]
    · simp [Kernel.setProc, hq]
  rw [hupdate]
  exact hsum

theorem held_pos (hp : k.Forked p) {i j : Nat} (hj : j < MAXSHMPROC)
    (hslot : (k.proc p).shmem j = i) : 0 < k.held i := by
  have hpos : 0 < (k.proc p).held i := by
    rw [Proc.held, if_neg hp.1]
    exact count_pos_of_lt (P := fun j => (k.proc p).shmem j = i) hj hslot
  have hle : (if p = k.initproc then 0 else (k.proc p).held i) ≤ k.held i :=
    Finset.single_le_sum (f := fun q => if q = k.initproc then 0 else (k.proc q).held i)
      (fun _ _ => Nat.zero_le _) (Finset.mem_univ p)
  rw [if_neg hp.2] at hle
  omega

theorem Proc.held_eq_zero (h : ∀ j, j < MAXSHMPROC → r.shmem j = -1) (i : Nat) : r.held i = 0 := by
  rw [Proc.held]
  split_ifs
  · rfl
  · rw [count_congr_lt (q := fun _ => False) fun j hj => by rw [h j hj]; simp]
    simp

theorem Proc.slots_eq_zero (h : ∀ j, j < MAXSHMPROC → r.shmem j = -1) : r.slots = 0 := by
  rw [Proc.slots, count_congr_lt (q := fun _ => False) fun j hj => by rw [h j hj]; simp]
  simp

theorem Proc.slots_assign {j : Nat} (hj : j < MAXSHMPROC) {v : Int} {u : Proc}
    (hr : u.shmem = Function.update r.shmem j v) :
    u.slots + (if r.shmem j ≠ -1 then 1 else 0) = r.slots + if v ≠ -1 then 1 else 0 := by
  have hcount := count_add_of_eq_off (p := fun j => u.shmem j ≠ -1)
    (q := fun j => r.shmem j ≠ -1) (i := j) (by intro a ha; simp [hr, ha]) MAXSHMPROC
  have hself : u.shmem j = v := by simp [hr]
  simp only [hj, true_and, hself] at hcount
  exact hcount

theorem Proc.held_assign {j : Nat} (hj : j < MAXSHMPROC) {v : Int} {u : Proc}
    (hlife : r.life ≠ .unused) (hlife' : u.life ≠ .unused)
    (hr : u.shmem = Function.update r.shmem j v) (i : Nat) :
    u.held i + (if r.shmem j = i then 1 else 0) = r.held i + if v = i then 1 else 0 := by
  have hcount := count_add_of_eq_off (p := fun j => u.shmem j = i)
    (q := fun j => r.shmem j = i) (i := j) (by intro a ha; simp [hr, ha]) MAXSHMPROC
  have hself : u.shmem j = v := by simp [hr]
  simp only [hj, true_and, hself] at hcount
  rw [Proc.held, Proc.held, if_neg hlife, if_neg hlife']
  exact hcount

theorem taken_assign {i : Nat} (hi : i < MAXSHM) {b : Block}
    (hk : t.block = Function.update k.block i b) :
    t.taken + (if (k.block i).refcount ≠ -1 then 1 else 0) =
      k.taken + if b.refcount ≠ -1 then 1 else 0 := by
  have hcount := count_add_of_eq_off (p := fun j => (t.block j).refcount ≠ -1)
    (q := fun j => (k.block j).refcount ≠ -1) (i := i) (by intro a ha; simp [hk, ha]) MAXSHM
  have hself : (t.block i).refcount = b.refcount := by simp [hk]
  simp only [hi, true_and, hself] at hcount
  exact hcount

theorem taken_le (k : Kernel) : k.taken ≤ MAXSHM := Nat.count_le _

theorem Tallied.range_assign (h : Tallied k) {j : Nat} {v : Int}
    (hr : r.shmem = Function.update (k.proc p).shmem j v)
    (hv : v = -1 ∨ ∃ i, i < MAXSHM ∧ v = (i : Int)) (hp : k.Forked p) : ∀ i, i < MAXSHMPROC → r.SlotOk i := by
  intro i hi
  unfold Proc.SlotOk
  by_cases hij : i = j
  · subst hij
    rw [hr, Function.update_self]
    exact hv
  · rw [hr, Function.update_of_ne hij]
    exact h.range p hp i hi

theorem held_of_agree (hinit : t.initproc = k.initproc)
    (hunused : ∀ q, (t.proc q).life = .unused ↔ (k.proc q).life = .unused)
    (hshmem : ∀ q, (t.proc q).shmem = (k.proc q).shmem) : t.held = k.held := by
  funext i
  simp only [Kernel.held, Proc.held, hinit, hunused, hshmem]

theorem Tallied.of_agree (h : Tallied k) (hinit : t.initproc = k.initproc)
    (hlife : (t.proc t.initproc).life = .live) (hblock : t.block = k.block)
    (hquantity : t.quantity = k.quantity)
    (hunused : ∀ q, (t.proc q).life = .unused ↔ (k.proc q).life = .unused)
    (hshmem : ∀ q, (t.proc q).shmem = (k.proc q).shmem)
    (hcount : ∀ q, (t.proc q).shmemquantity = (k.proc q).shmemquantity)
    (hburied : ∀ q, (t.proc q).life = .zombie → ∀ j, j < MAXSHMPROC → (k.proc q).shmem j = -1) :
    Tallied t := by
  have hforked : ∀ q, t.Forked q → k.Forked q := by
    intro q hq
    exact ⟨fun hu => hq.1 ((hunused q).2 hu), hinit ▸ hq.2⟩
  have hheld := held_of_agree hinit hunused hshmem
  refine ⟨hlife, fun q hq j hj => ?_, fun i hi => ?_, ?_, fun q hq => ?_, fun q hq => ?_,
    fun q hq j hj => ?_⟩
  · unfold Proc.SlotOk
    rw [hshmem q]
    exact h.range q (hforked q hq) j hj
  · rw [hheld, hblock]
    exact h.refs i hi
  · unfold Kernel.taken
    rw [hquantity, hblock]
    exact h.quantity
  · unfold Proc.slots
    rw [hcount q, hshmem q]
    exact h.used q (hforked q hq)
  · rw [hcount q]
    exact h.idle q ((hunused q).1 hq)
  · rw [hshmem q]
    exact hburied q hq j hj

theorem Tallied.assign (h : Tallied k) (hp : k.Forked p) {key : Nat} {b : Block}
    (hproc : t.proc = Function.update k.proc p r)
    (hblock : t.block = Function.update k.block key b) (hinit : t.initproc = k.initproc)
    (hlife : r.life = .live) (hrange : ∀ j, j < MAXSHMPROC → r.SlotOk j)
    (hused : r.shmemquantity = (r.slots : Int))
    (hheld : ∀ i, i ≠ key → t.held i = k.held i)
    (hrefs : b.refcount = -1 ∧ t.held key = 0 ∨ b.refcount = (t.held key : Int))
    (hquantity : t.quantity = t.taken) : Tallied t := by
  have hself : t.proc p = r := by rw [hproc, Function.update_self]
  have hother : ∀ q, q ≠ p → t.proc q = k.proc q := fun q hq => by
    rw [hproc, Function.update_of_ne hq]
  refine ⟨?_, fun q hq => ?_, fun i hi => ?_, hquantity, fun q hq => ?_, fun q hq => ?_,
    fun q hq => ?_⟩
  · rw [hinit, hother _ (Ne.symm hp.2)]
    exact h.init
  · by_cases hqp : q = p
    · rw [hqp, hself]
      exact hrange
    · unfold Kernel.Forked at hq
      rw [hother q hqp, hinit] at hq
      rw [hother q hqp]
      exact h.range q hq
  · by_cases hik : i = key
    · rw [hik, hblock, Function.update_self]
      exact hrefs
    · rw [hblock, Function.update_of_ne hik, hheld i hik]
      exact h.refs i hi
  · by_cases hqp : q = p
    · rw [hqp, hself]
      exact hused
    · unfold Kernel.Forked at hq
      rw [hother q hqp, hinit] at hq
      rw [hother q hqp]
      exact h.used q hq
  · by_cases hqp : q = p
    · rw [hqp, hself, hlife] at hq
      simp at hq
    · rw [hother q hqp] at hq ⊢
      exact h.idle q hq
  · by_cases hqp : q = p
    · rw [hqp, hself, hlife] at hq
      simp at hq
    · rw [hother q hqp] at hq ⊢
      exact h.buried q hq

/-! ## The calls -/

/-- Blocks cease to be taken exactly when the last slot that holds them is released. -/
def Retires (k t : Kernel) : Prop :=
  ∀ i, i < MAXSHM → ((t.block i).refcount ≠ -1 ↔
    (k.block i).refcount ≠ -1 ∧ ¬ (0 < k.held i ∧ t.held i = 0))

theorem shmSlot_eq_some {key : Int} {i : Nat} (h : shmSlot r key = some i) :
    i < MAXSHMPROC ∧ r.shmem i = key := by
  have hmem : i < MAXSHMPROC := List.mem_range.1 (List.mem_of_find?_eq_some h)
  have hkey : r.shmem i = key := by simpa using List.find?_some h
  exact ⟨hmem, hkey⟩

theorem held_assign (hp : k.Forked p) (hproc : t.proc = Function.update k.proc p r)
    (hinit : t.initproc = k.initproc) (hr : r.life ≠ .unused) {i : Nat} (hi : i < MAXSHMPROC)
    {v : Int} (hshmem : r.shmem = Function.update (k.proc p).shmem i v) (n : Nat) :
    t.held n + (if (k.proc p).shmem i = n then 1 else 0) =
      k.held n + if v = n then 1 else 0 := by
  have hself : t.held n = (k.setProc p r).held n := by
    rw [Kernel.held, Kernel.held, hproc, hinit]
    rfl
  have hsum := held_setProc k hp.2 r n
  have hone := Proc.held_assign hi hp.1 hr hshmem n
  omega

theorem Tallied.refcount_eq (h : Tallied k) {i : Nat} (hi : i < MAXSHM)
    (hne : (k.block i).refcount ≠ -1) : (k.block i).refcount = k.held i := by
  rcases h.refs i hi with ⟨hneg, _⟩ | href
  · exact absurd hneg hne
  · exact href

theorem Tallied.held_eq_zero (h : Tallied k) {i : Nat} (hi : i < MAXSHM)
    (hfree : (k.block i).refcount = -1) : k.held i = 0 := by
  rcases h.refs i hi with ⟨_, hzero⟩ | href
  · exact hzero
  · omega

section detach

variable {key i : Nat}

theorem held_detach (hp : k.Forked p) (hi : i < MAXSHMPROC) (hslot : (k.proc p).shmem i = key)
    (d : PageDir) (n : Nat) :
    (k.detach p key i d).held n + (if n = key then 1 else 0) = k.held n := by
  have hsum := held_assign (t := k.detach p key i d) hp rfl rfl hp.1 hi rfl n
  rw [hslot, if_neg (show ¬ (-1 : Int) = n by omega), Nat.add_zero] at hsum
  by_cases hn : n = key
  · rw [if_pos hn, ← hsum, if_pos (by omega)]
  · rw [if_neg hn, ← hsum, if_neg (by omega)]

theorem taken_detach (hkey : key < MAXSHM) (d : PageDir) (hpos : 0 < (k.block key).refcount) :
    (k.detach p key i d).taken + (if (k.block key).refcount = 1 then 1 else 0) = k.taken := by
  have hcount := taken_assign (t := k.detach p key i d) hkey rfl
  rw [if_pos (by omega)] at hcount
  by_cases hone : (k.block key).refcount = 1
  · rw [if_pos hone]
    simpa [hone] using hcount
  · rw [if_neg hone]
    simp only [show ¬ (k.block key).refcount - 1 = 0 by omega, if_false] at hcount
    rw [if_pos (by omega)] at hcount
    omega

theorem retires_detach (h : Tallied k) (hp : k.Forked p) (hkey : key < MAXSHM)
    (hi : i < MAXSHMPROC) (hslot : (k.proc p).shmem i = key) (d : PageDir) :
    Retires k (k.detach p key i d) := by
  have hpos := held_pos hp hi hslot
  have href := h.refcount_eq hkey (fun hneg => by have := h.held_eq_zero hkey hneg; omega)
  intro n hn
  have hheld := held_detach hp hi hslot d n
  by_cases hnk : n = key
  · subst hnk
    rw [if_pos rfl] at hheld
    have hblock : ((k.detach p n i d).block n).refcount =
        if (k.block n).refcount - 1 = 0 then -1 else (k.block n).refcount - 1 := by
      simp [Kernel.detach, Kernel.setProc, Kernel.setBlock]
    rw [hblock]
    split_ifs with hlast
    · constructor <;> intro hc <;> omega
    · constructor <;> intro hc <;> omega
  · rw [if_neg hnk, Nat.add_zero] at hheld
    have hblock : (k.detach p key i d).block n = k.block n := by
      simp [Kernel.detach, Kernel.setProc, Kernel.setBlock, hnk]
    rw [hblock, hheld]
    constructor
    · intro hc
      exact ⟨hc, by omega⟩
    · exact fun hc => hc.1

theorem Tallied.detach (h : Tallied k) (hp : k.Forked p) (hlive : (k.proc p).life = .live)
    (hkey : key < MAXSHM) (hi : i < MAXSHMPROC) (hslot : (k.proc p).shmem i = key)
    (d : PageDir) : Tallied (k.detach p key i d) := by
  have hpos := held_pos hp hi hslot
  have href := h.refcount_eq hkey (fun hneg => by have := h.held_eq_zero hkey hneg; omega)
  have hslots := Proc.slots_assign (r := k.proc p) (u := (k.detach p key i d).proc p) hi
    (v := -1) (by simp [Kernel.detach, Kernel.setProc])
  rw [hslot, if_pos (by omega), if_neg (by omega), Nat.add_zero] at hslots
  have hself := held_detach hp hi hslot d key
  rw [if_pos rfl] at hself
  apply h.assign (t := k.detach p key i d) hp rfl rfl rfl hlive
  · exact h.range_assign rfl (.inl rfl) hp
  · have hused := h.used p hp
    simp only [Kernel.detach, Kernel.setProc, Function.update_self] at hslots
    simp only
    omega
  · intro n hn
    have hheld := held_detach hp hi hslot d n
    rwa [if_neg hn, Nat.add_zero] at hheld
  · simp only
    split_ifs with hlast
    · exact .inl ⟨rfl, by omega⟩
    · exact .inr (by omega)
  · have htaken := taken_detach (p := p) (i := i) hkey d (k := k) (by omega)
    have hle := taken_le k
    have hquantity := h.quantity
    have hsmall : MAXSHM < 2 ^ 16 := by decide
    have hq : (k.detach p key i d).quantity =
        if (k.block key).refcount - 1 = 0 then (k.quantity + 2 ^ 16 - 1) % 2 ^ 16
        else k.quantity := rfl
    rw [hq]
    split_ifs with hlast
    · rw [if_pos (by omega)] at htaken
      omega
    · rw [if_neg (by omega)] at htaken
      omega

end detach

theorem retires_of_eq (hheld : ∀ i, k.held i ≤ t.held i)
    (hblock : ∀ i, i < MAXSHM → ((t.block i).refcount = -1 ↔ (k.block i).refcount = -1)) :
    Retires k t := by
  intro i hi
  have hle := hheld i
  rw [ne_eq, ne_eq, hblock i hi]
  constructor
  · exact fun hne => ⟨hne, by omega⟩
  · exact fun hne => hne.1

theorem Retires.trans {u : Kernel} (h : Retires k t) (h' : Retires t u)
    (hle : ∀ i, t.held i ≤ k.held i) (hle' : ∀ i, u.held i ≤ t.held i) : Retires k u := by
  intro i hi
  have hbefore := hle i
  have hafter := hle' i
  rw [h' i hi, h i hi]
  constructor
  · rintro ⟨⟨hne, hkept⟩, hkept'⟩
    exact ⟨hne, by omega⟩
  · rintro ⟨hne, hkept⟩
    exact ⟨⟨hne, by omega⟩, by omega⟩

section attach

variable {key i : Nat}

theorem held_attach (hp : k.Forked p) (hi : i < MAXSHMPROC) (hslot : (k.proc p).shmem i = -1)
    (d : PageDir) (n : Nat) :
    (k.attach p key i d).held n = k.held n + if n = key then 1 else 0 := by
  have hsum := held_assign (t := k.attach p key i d) hp rfl rfl hp.1 hi rfl n
  rw [hslot, if_neg (show ¬ (-1 : Int) = n by omega), Nat.add_zero] at hsum
  by_cases hn : n = key
  · rw [if_pos hn, hsum, if_pos (by omega)]
  · rw [if_neg hn, hsum, if_neg (by omega)]

theorem refcount_attach (hkey : 0 ≤ (k.block key).refcount) (d : PageDir) (n : Nat) :
    ((k.attach p key i d).block n).refcount = -1 ↔ (k.block n).refcount = -1 := by
  by_cases hn : n = key
  · subst hn
    simp only [Kernel.attach, Kernel.setProc, Kernel.setBlock, Function.update_self]
    omega
  · simp [Kernel.attach, Kernel.setProc, Kernel.setBlock, hn]

theorem Tallied.attach (h : Tallied k) (hp : k.Forked p) (hlive : (k.proc p).life = .live)
    (hkey : key < MAXSHM) (hcreated : 0 ≤ (k.block key).refcount) (hi : i < MAXSHMPROC)
    (hslot : (k.proc p).shmem i = -1) (d : PageDir) : Tallied (k.attach p key i d) := by
  have href := h.refcount_eq hkey (by omega)
  have hshmem : ((k.attach p key i d).proc p).shmem =
      Function.update (k.proc p).shmem i (key : Int) := by
    simp [Kernel.attach, Kernel.setProc]
  have hslots := Proc.slots_assign hi hshmem
  rw [hslot, if_neg (by omega), if_pos (by omega), Nat.add_zero] at hslots
  apply h.assign (t := k.attach p key i d) (r := (k.attach p key i d).proc p) hp
    (b := { k.block key with refcount := (k.block key).refcount + 1 })
  · simp [Kernel.attach, Kernel.setProc, Kernel.setBlock]
  · rfl
  · rfl
  · simpa [Kernel.attach, Kernel.setProc] using hlive
  · exact h.range_assign hshmem (.inr ⟨key, hkey, rfl⟩) hp
  · have hused := h.used p hp
    have hmore : ((k.attach p key i d).proc p).shmemquantity =
        (k.proc p).shmemquantity + 1 := by
      simp [Kernel.attach, Kernel.setProc]
    omega
  · intro n hn
    rw [held_attach hp hi hslot d n, if_neg hn, Nat.add_zero]
  · rw [held_attach hp hi hslot d key, if_pos rfl]
    exact .inr (by simp only; omega)
  · have htaken : (k.attach p key i d).taken = k.taken := by
      apply count_congr_lt
      intro n _
      exact not_congr (refcount_attach hcreated d n)
    rw [htaken]
    exact h.quantity

end attach

theorem Tallied.activate (h : Tallied k) {i : Nat} (hi : i < MAXSHM)
    (hfree : (k.block i).refcount = -1) (f : Frame) : Tallied (k.activate i f) := by
  refine ⟨h.init, h.range, fun n hn => ?_, ?_, h.used, h.idle, h.buried⟩
  · by_cases hni : n = i
    · subst hni
      have hzero : (k.activate n f).held n = 0 := h.held_eq_zero hi hfree
      rw [hzero]
      exact .inr (by simp [Kernel.activate, Kernel.setBlock])
    · have hblock : (k.activate i f).block n = k.block n := by
        simp [Kernel.activate, Kernel.setBlock, hni]
      rw [hblock]
      exact h.refs n hn
  · have htaken := taken_assign (t := k.activate i f) hi rfl
    rw [hfree, if_neg (by omega), if_pos (by simp), Nat.add_zero] at htaken
    have hle := taken_le (k.activate i f)
    have hquantity := h.quantity
    have hq : (k.activate i f).quantity = (k.quantity + 1) % 2 ^ 16 := rfl
    rw [hq, htaken, hquantity]
    have hsmall : MAXSHM < 2 ^ 16 := by decide
    exact Nat.mod_eq_of_lt (by omega)

theorem held_replace (hp : p ≠ k.initproc) (hold : ∀ i, (k.proc p).held i = 0)
    (hnew : ∀ j, j < MAXSHMPROC → r.shmem j = -1) : (k.setProc p r).held = k.held := by
  funext i
  have hsum := held_setProc k hp r i
  rwa [hold i, Proc.held_eq_zero hnew i, Nat.add_zero, Nat.add_zero] at hsum

theorem Tallied.replace (h : Tallied k) (hp : p ≠ k.initproc)
    (hold : ∀ i, (k.proc p).held i = 0) (hnew : ∀ j, j < MAXSHMPROC → r.shmem j = -1)
    (hcount : r.shmemquantity = 0) : Tallied (k.setProc p r) := by
  have hheld := held_replace hp hold hnew
  have hself : (k.setProc p r).proc p = r := by simp [Kernel.setProc]
  have hother : ∀ q, q ≠ p → (k.setProc p r).proc q = k.proc q := fun q hq => by
    simp [Kernel.setProc, hq]
  refine ⟨?_, fun q hq j hj => ?_, fun i hi => ?_, h.quantity, fun q hq => ?_, fun q hq => ?_,
    fun q hq => ?_⟩
  · show ((k.setProc p r).proc k.initproc).life = .live
    rw [hother _ (Ne.symm hp)]
    exact h.init
  · by_cases hqp : q = p
    · rw [hqp, hself]
      exact .inl (hnew j hj)
    · unfold Kernel.Forked at hq
      rw [hother q hqp] at hq ⊢
      exact h.range q hq j hj
  · rw [hheld]
    exact h.refs i hi
  · by_cases hqp : q = p
    · rw [hqp, hself, hcount, Proc.slots_eq_zero hnew]
      rfl
    · unfold Kernel.Forked at hq
      rw [hother q hqp] at hq ⊢
      exact h.used q hq
  · by_cases hqp : q = p
    · rw [hqp, hself, hcount]
    · rw [hother q hqp] at hq ⊢
      exact h.idle q hq
  · by_cases hqp : q = p
    · rw [hqp, hself]
      exact hnew
    · rw [hother q hqp] at hq ⊢
      exact h.buried q hq

theorem Tallied.closes_first (h : Tallied k) (hp : k.Forked p) {i : Nat} (hlt : i < MAXSHMPROC)
    (hdone : ∀ j, j < i → (k.proc p).shmem j = -1) (hi : (k.proc p).shmem i ≠ -1) {v : Int}
    (hclose : Closes k p ((k.proc p).shmem i) v t) :
    ∃ (key : Nat) (d : PageDir), key < MAXSHM ∧ (k.proc p).shmem i = key ∧
      t = k.detach p key i d := by
  obtain ⟨key, hkey, hslot⟩ := (h.range p hp i hlt).resolve_left hi
  have hfirst : shmSlot (k.proc p) key = some i := by
    apply List.find?_range_eq_some.2
    refine ⟨by simp [hslot], List.mem_range.2 hlt, fun j hj => ?_⟩
    have hfree := hdone j hj
    simp only [Bool.not_eq_true', decide_eq_false_iff_not]
    omega
  rw [hslot] at hclose
  cases hclose with
  | refused hwhy =>
    exfalso
    rcases hwhy with hneg | hbig | hfree | hnone
    · omega
    · omega
    · have hpos := held_pos hp hlt hslot
      have hzero := h.held_eq_zero hkey hfree
      omega
    · rw [hfirst] at hnone
      simp at hnone
  | detached i' d _ _ _ hslot' =>
    obtain rfl : i = i' := Option.some.inj (hfirst.symm.trans hslot')
    exact ⟨key, d, hkey, hslot, rfl⟩

theorem Tallied.closesAll {n i : Nat} (h : Tallied k) (hp : k.Forked p)
    (hlive : (k.proc p).life = .live) (hn : i + n = MAXSHMPROC)
    (hdone : ∀ j, j < i → (k.proc p).shmem j = -1) (hclose : ClosesAll p (List.range' i n) k t) :
    Tallied t ∧ Retires k t ∧ (∀ a, t.held a ≤ k.held a) ∧ t.Forked p ∧
      ∀ j, j < MAXSHMPROC → (t.proc p).shmem j = -1 := by
  induction n generalizing i k with
  | zero =>
    cases hclose with
    | nil _ =>
      refine ⟨h, retires_of_eq (fun _ => Nat.le_refl _) (fun _ _ => Iff.rfl),
        fun _ => Nat.le_refl _, hp, fun j hj => hdone j (by omega)⟩
  | succ n ih =>
    rw [List.range'_succ] at hclose
    cases hclose with
    | skip hi hrest =>
      apply ih h hp hlive (by omega) _ hrest
      intro j hj
      rcases Nat.lt_or_ge j i with hlt | hge
      · exact hdone j hlt
      · obtain rfl : j = i := by omega
        exact hi
    | close hi hclose hrest =>
      have hlt : i < MAXSHMPROC := by omega
      obtain ⟨key, d, hkey, hslot, rfl⟩ := h.closes_first hp hlt hdone hi hclose
      have hself : (k.detach p key i d).proc p = { k.proc p with
          shmemquantity := (k.proc p).shmemquantity - 1
          shmem := Function.update (k.proc p).shmem i (-1)
          pgdir := d } := by
        simp [Kernel.detach, Kernel.setProc]
      have hle : ∀ a, (k.detach p key i d).held a ≤ k.held a := fun a =>
        (Nat.le_add_right _ _).trans (held_detach hp hlt hslot d a).le
      have hdone' : ∀ j, j < i + 1 → ((k.detach p key i d).proc p).shmem j = -1 := by
        intro j hj
        rw [hself]
        by_cases hji : j = i
        · simp [hji]
        · simpa [hji] using hdone j (by omega)
      obtain ⟨ht, hretires, hle', hend⟩ := ih (h.detach hp hlive hkey hlt hslot d)
        ⟨by rw [hself]; exact hp.1, hp.2⟩ (by rw [hself]; exact hlive) (by omega) hdone' hrest
      exact ⟨ht, (retires_detach h hp hkey hlt hslot d).trans hretires hle hle',
        fun a => (hle' a).trans (hle a), hend⟩

theorem bury_self (k : Kernel) (p : Slot) : ((k.bury p).proc p).life = .zombie ∧
    ((k.bury p).proc p).shmem = (k.proc p).shmem ∧
    ((k.bury p).proc p).shmemquantity = 0 := by
  simp only [Kernel.bury, if_true, and_true, true_and]
  split_ifs <;> rfl

theorem bury_other (k : Kernel) {p q : Slot} (hq : q ≠ p) :
    ((k.bury p).proc q).life = (k.proc q).life ∧
    ((k.bury p).proc q).shmem = (k.proc q).shmem ∧
    ((k.bury p).proc q).shmemquantity = (k.proc q).shmemquantity := by
  simp only [Kernel.bury, hq, if_false]
  split_ifs <;> exact ⟨rfl, rfl, rfl⟩

theorem bury_unused (hp : (k.proc p).life ≠ .unused) (q : Slot) :
    ((k.bury p).proc q).life = .unused ↔ (k.proc q).life = .unused := by
  by_cases hq : q = p
  · rw [hq, (bury_self k p).1]
    exact ⟨fun hz => by simp at hz, fun hu => absurd hu hp⟩
  · rw [(bury_other k hq).1]

theorem bury_shmem (q : Slot) : ((k.bury p).proc q).shmem = (k.proc q).shmem := by
  by_cases hq : q = p
  · rw [hq, (bury_self k p).2.1]
  · rw [(bury_other k hq).2.1]

theorem Tallied.bury (h : Tallied k) (hp : k.Forked p)
    (hslots : ∀ j, j < MAXSHMPROC → (k.proc p).shmem j = -1) : Tallied (k.bury p) := by
  apply h.of_agree (t := k.bury p) rfl _ rfl rfl (bury_unused hp.1) bury_shmem
  · intro q
    by_cases hq : q = p
    · rw [hq, (bury_self k p).2.2, h.used p hp, Proc.slots_eq_zero hslots]
      rfl
    · rw [(bury_other k hq).2.2]
  · intro q hz
    by_cases hq : q = p
    · rw [hq]
      exact hslots
    · rw [(bury_other k hq).1] at hz
      exact h.buried q hz
  · show ((k.bury p).proc k.initproc).life = .live
    rw [(bury_other k (Ne.symm hp.2)).1]
    exact h.init

end

/-! ## Runs -/

/-- The process is not the first one, and the key is that of a created block. -/
def KeyOk (s : State) (p : Slot) (key : Int) : Prop :=
  p ≠ s.kern.initproc ∧ Created s.kern (int32 key)

instance (s : State) (p : Slot) (key : Int) : Decidable (KeyOk s p key) :=
  inferInstanceAs (Decidable (_ ∧ _ ∧ _ ∧ _))

/-- `shm_get` and `shm_close` are only given keys of blocks that are created, and `shm_get` a
pointer into the user half. -/
def KeysOk (s : State) (e : Event) : Prop :=
  match e.call with
  | .shmGet key mem => KeyOk s e.proc key ∧ mem + 4 ≤ KERNBASE
  | .shmClose key => KeyOk s e.proc key
  | _ => True

instance (s : State) : (e : Event) → Decidable (KeysOk s e)
  | ⟨p, .shmGet key _⟩ => inferInstanceAs (Decidable (KeyOk s p key ∧ _))
  | ⟨p, .shmClose key⟩ => inferInstanceAs (Decidable (KeyOk s p key))
  | ⟨_, .shmCreate⟩ | ⟨_, .sbrk _⟩ | ⟨_, .fork⟩ | ⟨_, .exec _⟩ | ⟨_, .exit⟩ | ⟨_, .wait⟩
  | ⟨_, .pipe⟩ | ⟨_, .pipeclose _⟩ => inferInstanceAs (Decidable True)

def Call.isCreate : Call → Bool
  | .shmCreate => true
  | _ => false

structure Watched where
  state : State
  active : Nat → Bool

/-- A block is active from the `shm_create` that returns it until the last slot that
holds it is released. -/
def Watched.next (w : Watched) (e : Event) : Option Watched :=
  if (w.state.kern.proc e.proc).life = .live then
    match (e.call.code w.state.kern e.proc).run w.state.mem with
    | .ok ((v, k), m) => some ⟨⟨k, m⟩, fun i =>
      w.active i && !(decide (0 < w.state.kern.held i) && decide (k.held i = 0)) ||
        e.call.isCreate && decide (v = i)⟩
    | .halt _ => none
  else none

/-- The machine that has booted to `s₀`, watched from the start. -/
def watchedMachine (s₀ : State) : Machine Watched Event :=
  Machine.ofFun ⟨s₀, fun _ => false⟩ Watched.next

/-- A call takes exactly the block that `shm_create` returns, and retires exactly those
that it releases for the last time. -/
def Follows (k t : Kernel) (call : Call) (v : Int) : Prop :=
  ∀ i, i < MAXSHM → ((t.block i).refcount ≠ -1 ↔
    (k.block i).refcount ≠ -1 ∧ ¬ (0 < k.held i ∧ t.held i = 0) ∨ call.isCreate = true ∧ v = i)

section

variable {k t : Kernel} {p : Slot}

theorem Retires.follows (h : Retires k t) {call : Call} (hcall : call.isCreate = false) (v : Int) :
    Follows k t call v := by
  intro i hi
  rw [h i hi, hcall]
  simp

theorem follows_activate {i : Nat} (f : Frame) :
    Follows k (k.activate i f) .shmCreate i := by
  intro n _
  have hheld : (k.activate i f).held n = k.held n := rfl
  by_cases hn : n = i
  · subst hn
    simp [Kernel.activate, Kernel.setBlock, Call.isCreate]
  · have hne : ¬ (i : Int) = n := by omega
    have hblock : (k.activate i f).block n = k.block n := by
      simp [Kernel.activate, Kernel.setBlock, hn]
    rw [hheld, hblock]
    simp only [Call.isCreate, hne, and_false, or_false]
    constructor
    · exact fun hc => ⟨hc, by omega⟩
    · exact fun hc => hc.1

theorem Follows.quiet (hheld : t.held = k.held) (hblock : t.block = k.block) {call : Call} {v : Int}
    (hcall : call = .shmCreate → v = -1) : Follows k t call v := by
  intro i _
  have hnone : ¬ (call.isCreate = true ∧ v = i) := by
    rintro ⟨hcreate, rfl⟩
    cases call with
    | shmCreate =>
      have hneg := hcall rfl
      omega
    | sbrk | fork | exec | exit | wait | shmGet | shmClose | pipe | pipeclose =>
      simp [Call.isCreate] at hcreate
  rw [hheld, hblock]
  constructor
  · exact fun hne => .inl ⟨hne, by omega⟩
  · rintro (hne | hcreate)
    · exact hne.1
    · exact absurd hcreate hnone

theorem Tallied.closes (h : Tallied k) (hp : k.Forked p) (hlive : (k.proc p).life = .live)
    {key v : Int} (hkey : Created k key) (hclose : Closes k p key v t) :
    Tallied t ∧ Retires k t := by
  cases hclose with
  | refused _ => exact ⟨h, retires_of_eq (fun _ => Nat.le_refl _) fun _ _ => Iff.rfl⟩
  | detached i d hpos _ _ hslot =>
    obtain ⟨hi, hval⟩ := shmSlot_eq_some hslot
    have hcast : ((key.toNat : Nat) : Int) = key := Int.toNat_of_nonneg hpos
    have hlt : key.toNat < MAXSHM := by
      have hmax := hkey.2.1
      omega
    rw [← hcast] at hval
    exact ⟨h.detach hp hlive hlt hi hval d, retires_detach h hp hlt hi hval d⟩

theorem Tallied.exited (h : Tallied k) (hp : k.Forked p) (hlive : (k.proc p).life = .live)
    (hclose : ClosesAll p (List.range MAXSHMPROC) k t) :
    Tallied (t.bury p) ∧ Retires k (t.bury p) := by
  rw [List.range_eq_range'] at hclose
  obtain ⟨ht, hretires, _, hforked, hslots⟩ :=
    h.closesAll hp hlive (Nat.zero_add _) (fun j hj => absurd hj (Nat.not_lt_zero j)) hclose
  have hheld : (t.bury p).held = t.held :=
    held_of_agree (t := t.bury p) rfl (bury_unused hforked.1) bury_shmem
  refine ⟨ht.bury hforked hslots, fun i hi => ?_⟩
  rw [hheld]
  exact hretires i hi

theorem Tallied.memory (h : Tallied k) (d : PageDir) (sz : Nat) :
    Tallied (k.setProc p { k.proc p with pgdir := d, sz := sz }) ∧
      (k.setProc p { k.proc p with pgdir := d, sz := sz }).held = k.held := by
  have hrec : ∀ q, ((k.setProc p { k.proc p with pgdir := d, sz := sz }).proc q).life =
        (k.proc q).life ∧
      ((k.setProc p { k.proc p with pgdir := d, sz := sz }).proc q).shmem = (k.proc q).shmem ∧
      ((k.setProc p { k.proc p with pgdir := d, sz := sz }).proc q).shmemquantity =
        (k.proc q).shmemquantity := by
    intro q
    by_cases hq : q = p
    · simp [Kernel.setProc, hq]
    · simp [Kernel.setProc, hq]
  have hunused : ∀ q, ((k.setProc p { k.proc p with pgdir := d, sz := sz }).proc q).life =
      .unused ↔ (k.proc q).life = .unused := fun q => by rw [(hrec q).1]
  refine ⟨h.of_agree rfl ?_ rfl rfl hunused (fun q => (hrec q).2.1) (fun q => (hrec q).2.2) ?_,
    held_of_agree rfl hunused fun q => (hrec q).2.1⟩
  · exact (hrec k.initproc).1.trans h.init
  · intro q hq
    exact h.buried q ((hrec q).1 ▸ hq)

theorem Tallied.effect {s : State} {e : Event} {v : Int} (h : Tallied s.kern)
    (hlive : (s.kern.proc e.proc).life = .live) (hok : KeysOk s e)
    (heffect : Effect s.kern e.proc e.call v t) :
    Tallied t ∧ Follows s.kern t e.call v := by
  obtain ⟨p, call⟩ := e
  have hunused : (s.kern.proc p).life ≠ .unused := by
    intro hu
    have hl : (s.kern.proc p).life = .live := hlive
    rw [hl] at hu
    simp at hu
  have hpid : ∀ nextpid pipes, Tallied { s.kern with nextpid := nextpid, pipes := pipes } :=
    fun _ _ => ⟨h.init, h.range, h.refs, h.quantity, h.used, h.idle, h.buried⟩
  cases heffect with
  | quiet _ _ nextpid pipes hcall _ => exact ⟨hpid nextpid pipes, .quiet rfl rfl hcall⟩
  | memory _ _ d sz hcall _ =>
    exact ⟨(h.memory d sz).1, .quiet (h.memory d sz).2 rfl fun hc => absurd hc hcall⟩
  | forked q kstack d hq =>
    have hinit : q ≠ s.kern.initproc := by
      rintro rfl
      rw [h.init] at hq
      simp at hq
    have hold : ∀ i, (s.kern.proc q).held i = 0 := fun i => by rw [Proc.held, if_pos hq]
    have hnew : ∀ j, j < MAXSHMPROC → (s.kern.child p q kstack d).shmem j = -1 := fun _ _ => rfl
    have hheld := held_replace (k := { s.kern with nextpid := s.kern.nextpid + 1 }) hinit hold
      hnew
    exact ⟨(hpid (s.kern.nextpid + 1) s.kern.pipes).replace hinit hold hnew (h.idle q hq),
      .quiet hheld rfl fun hc => by simp at hc⟩
  | reaped q hq =>
    have hinit : q ≠ s.kern.initproc := by
      rintro rfl
      rw [h.init] at hq
      simp at hq
    have hslots := h.buried q hq
    have hcount : (s.kern.proc q).shmemquantity = 0 := by
      rw [h.used q ⟨by simp [hq], hinit⟩, Proc.slots_eq_zero hslots]
      rfl
    have hheld := held_replace (k := s.kern)
      (r := { s.kern.proc q with life := .unused, pid := 0, parent := none }) hinit
      (Proc.held_eq_zero hslots) hslots
    exact ⟨h.replace hinit (Proc.held_eq_zero hslots) hslots hcount,
      .quiet hheld rfl fun hc => by simp at hc⟩
  | exited k' hinit hclose =>
    obtain ⟨ht, hretires⟩ := h.exited ⟨hunused, hinit⟩ hlive hclose
    exact ⟨ht, hretires.follows rfl _⟩
  | created i f hi hfree => exact ⟨h.activate hi hfree f, follows_activate f⟩
  | attached key mem i d _ hgets hstored =>
    obtain ⟨⟨hinit, _, hlt, hcreated⟩, hmem⟩ : KeyOk s p key ∧ mem + 4 ≤ KERNBASE := hok
    have hpos := hgets.pos
    obtain ⟨hi, hfree⟩ := shmSlot_eq_some hgets.slot
    rw [hstored.eq hmem]
    refine ⟨h.attach ⟨hunused, hinit⟩ hlive (by omega) hcreated hi hfree d, ?_⟩
    apply Retires.follows _ rfl
    apply retires_of_eq _ fun n _ => refcount_attach hcreated d n
    intro n
    rw [held_attach ⟨hunused, hinit⟩ hi hfree d n]
    exact Nat.le_add_right _ _
  | closed key _ _ hclose =>
    obtain ⟨hinit, hcreated⟩ : KeyOk s p key := hok
    obtain ⟨ht, hretires⟩ := h.closes ⟨hunused, hinit⟩ hlive hcreated hclose
    exact ⟨ht, hretires.follows rfl _⟩

end

theorem tallied_userinit (name : Int) (r : Proc) (hlife : r.life = .live) (p : Slot) :
    Tallied
      { proc := Function.update (fun _ => noProc) p r, initproc := p, nextpid := 2,
        block := shmInit name, quantity := 0, pipes := [] } := by
  have hother : ∀ q, q ≠ p → Function.update (fun _ => noProc) p r q = noProc :=
    fun q hq => Function.update_of_ne hq _ _
  have hunused : ∀ q, q ≠ p → (Function.update (fun _ => noProc) p r q).life = .unused :=
    fun q hq => by rw [hother q hq]; rfl
  have hblock : ∀ i, i < MAXSHM → (shmInit name i).refcount = -1 :=
    fun i hi => by simp [shmInit, hi]
  refine ⟨?_, fun q hq => absurd (hunused q hq.2) hq.1, fun i hi => .inl ⟨hblock i hi, ?_⟩, ?_,
    fun q hq => absurd (hunused q hq.2) hq.1, fun q hq => ?_, fun q hq => ?_⟩
  · simpa using hlife
  · apply Finset.sum_eq_zero
    intro q _
    split_ifs with hq
    · rfl
    · rw [Proc.held, if_pos (hunused q hq)]
  · show 0 = Nat.count (fun i => (shmInit name i).refcount ≠ -1) MAXSHM
    rw [count_congr_lt (q := fun _ => False) fun i hi => by simp [hblock i hi]]
    simp
  · by_cases hqp : q = p
    · subst hqp
      simp [hlife] at hq
    · simp only [hother q hqp]
      rfl
  · by_cases hqp : q = p
    · subst hqp
      simp [hlife] at hq
    · simp only [hunused q hqp] at hq
      simp at hq

theorem post_userinit_tallied (name : Int) {m : Mem} :
    (userinit name).post (fun k _ => Tallied k ∧ ∀ i, i < MAXSHM → (k.block i).refcount = -1) m :=
  post_userinit_of name fun _ _ =>
    ⟨tallied_userinit name _ rfl _, fun i hi => by simp [noKernel, Kernel.setProc, shmInit, hi]⟩

theorem Watched.next_eq_some {w u : Watched} {e : Event} (h : w.next e = some u) :
    (w.state.kern.proc e.proc).life = .live ∧ ∃ v,
      (e.call.code w.state.kern e.proc).run w.state.mem = .ok ((v, u.state.kern), u.state.mem) ∧
      ∀ i, u.active i = true ↔ w.active i = true ∧
          ¬ (0 < w.state.kern.held i ∧ u.state.kern.held i = 0) ∨
        e.call.isCreate = true ∧ v = i := by
  unfold Watched.next at h
  split_ifs at h with hlive
  refine ⟨hlive, ?_⟩
  cases hrun : (e.call.code w.state.kern e.proc).run w.state.mem with
  | ok r =>
    obtain ⟨⟨v, k⟩, m⟩ := r
    simp only [hrun, Option.some.injEq] at h
    subst h
    refine ⟨v, rfl, fun i => ?_⟩
    simp only [Bool.or_eq_true, Bool.and_eq_true, Bool.not_eq_true', decide_eq_true_eq,
      Bool.and_eq_false_iff, decide_eq_false_iff_not, not_and_or]
  | halt x => simp [hrun] at h

theorem watched_of_reach {s₀ s : State} (h : (machine s₀).Reach KeysOk s) :
    ∃ active, (watchedMachine s₀).Reach (fun w => KeysOk w.state) ⟨s, active⟩ := by
  induction h with
  | init h =>
    cases h
    exact ⟨_, .init rfl⟩
  | @step s t e hs hok ht ih =>
    obtain ⟨active, hreach⟩ := ih
    obtain ⟨hlive, v, hrun⟩ := next_eq_some ht
    have hnext : ∃ active', Watched.next ⟨s, active⟩ e = some ⟨t, active'⟩ := by
      simp only [Watched.next, hlive, if_true, hrun]
      exact ⟨_, rfl⟩
    obtain ⟨active', hstep⟩ := hnext
    exact ⟨active', .step hreach hok hstep⟩

structure Watched.Sound (w : Watched) : Prop where
  tallied : Tallied w.state.kern
  active : ∀ i, i < MAXSHM → (w.active i = true ↔ (w.state.kern.block i).refcount ≠ -1)

theorem Watched.Sound.next {w u : Watched} {e : Event} (h : w.Sound) (hok : KeysOk w.state e)
    (hnext : w.next e = some u) : u.Sound := by
  obtain ⟨hlive, v, hrun, hactive⟩ := Watched.next_eq_some hnext
  have heffect := (Prog.wp_run (post_code_effect e.call)).1 (v, u.state.kern) u.state.mem hrun
  obtain ⟨htallied, hfollows⟩ := h.tallied.effect hlive hok heffect
  refine ⟨htallied, fun i hi => ?_⟩
  rw [hactive i, hfollows i hi, h.active i hi]

theorem Boots.watched {name : Int} {m : Mem} {s₀ : State} (h : Boots name m s₀) :
    Watched.Sound ⟨s₀, fun _ => false⟩ := by
  obtain ⟨htallied, hfree⟩ := (Prog.wp_run (post_userinit_tallied name)).1 _ _ h.run
  refine ⟨htallied, fun i hi => ?_⟩
  simp [hfree i hi]

/-- The condition on the keys alone. -/
def KeysGiven (w : Watched) (e : Event) : Prop :=
  match e.call with
  | .shmGet key _ => KeyOk w.state e.proc key
  | .shmClose key => KeyOk w.state e.proc key
  | _ => True

instance (w : Watched) (e : Event) : Decidable (KeysGiven w e) := by
  unfold KeysGiven
  split <;> infer_instance

end Xv6.Vm
