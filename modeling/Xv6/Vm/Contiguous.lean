import Xv6.Vm.Frames
import Xv6.Vm.Growth

/-!
# The pages below the size

`fork` copies every page below the size of its caller and panics at a hole.  Which
calls can make one: `shm_close` of a page below the size, `sbrk` to size 0, and
`shm_get` and `allocuvm` where memory runs out at the page table of their last
page.  In runs without such calls there are no holes.
-/

namespace Xv6.Vm

open Xv6.Lib
open Xv6.Sched (Slot NPROC)

/-! ## The calls -/

def Kernel.EachLive (k : Kernel) (P : PageDir → Nat → Prop) : Prop :=
  ∀ p, (k.proc p).life = .live → P (k.proc p).pgdir (k.proc p).sz

def Kernel.Filled (k : Kernel) : Prop :=
  ∀ p, (k.proc p).life = .live → (k.proc p).pgdir.Filled (pages (k.proc p).sz)

/-- What `sbrk` needs: the new size is not 0, and memory is not one page short. -/
def GrowOk (k : Kernel) (m : Mem) (p : Slot) (n : Int) : Prop :=
  let r := k.proc p
  let newsz := ((r.sz + n) % 2 ^ 32).toNat
  (n < 0 → newsz ≠ 0) ∧
    (0 < n → newsz < KERNBASE → r.sz ≤ newsz →
      m.free.length + 1 ≠ framesNeeded (pages newsz - pages r.sz) r.pgdir (pages r.sz))

/-- What `shm_get` needs: if it succeeds, the page table is there or can be allocated. -/
def GetRoom (k : Kernel) (m : Mem) (p : Slot) (key : Int) : Prop :=
  (k.proc p).shmemquantity < MAXSHMPROC → 0 ≤ key → key ≤ MAXSHM →
    (k.block key.toNat).refcount ≠ MAXSHMPROC → (shmSlot (k.proc p) (-1)).isSome →
      ((k.proc p).pgdir.table ((k.proc p).sz / PGSIZE / NPTENTRIES)).isSome ∨ m.free ≠ []

/-- What `shm_close` needs: if it succeeds, the page is not below the size. -/
def CloseAbove (k : Kernel) (p : Slot) (key : Int) : Prop :=
  0 ≤ key → key ≤ MAXSHM → (k.block key.toNat).refcount ≠ -1 →
    ∀ i ∈ shmSlot (k.proc p) key, pages (k.proc p).sz ≤ (k.proc p).shmref i / PGSIZE

section Calls

variable {k : Kernel} {m : Mem} {p : Slot} {r : Proc} {P : PageDir → Nat → Prop}

theorem Kernel.EachLive.setProc (h : k.EachLive P) (hr : r.life = .live → P r.pgdir r.sz) :
    (k.setProc p r).EachLive P := by
  intro q
  by_cases hq : q = p
  · subst hq
    simpa [Kernel.setProc] using hr
  · simpa [Kernel.setProc, hq] using h q

theorem Kernel.Filled.setProc (h : k.Filled)
    (hr : r.life = .live → r.pgdir.Filled (pages r.sz)) : (k.setProc p r).Filled :=
  Kernel.EachLive.setProc (P := fun d sz => d.Filled (pages sz)) h hr

theorem post_growproc_filled {n : Int} (h : k.Filled) (hp : (k.proc p).Sane)
    (hlive : (k.proc p).life = .live) (hok : GrowOk k m p n) :
    (growproc k p n).post (fun r _ => r.2.Filled) m := by
  have hfilled := h p hlive
  have hsz := hp.size
  obtain ⟨hneg, hpos⟩ := hok
  unfold growproc
  simp only
  generalize (((k.proc p).sz + n) % 2 ^ 32).toNat = newsz at hneg hpos ⊢
  split_ifs with hn hn'
  · apply Prog.wp_seq (post_allocuvm_grows (hpos hn))
    rintro ⟨d, sz⟩ m₁ hd
    have hd' : d.Filled (pages (k.proc p).sz) ∧ (sz ≠ 0 → d.Filled (pages sz)) := by
      rcases hd with ⟨hzero, hsame⟩ | ⟨heq, _⟩ | ⟨hsz', _, hle, hgrow, _⟩
      · exact ⟨hfilled.congr hsame, fun hne => absurd hzero hne⟩
      · obtain ⟨rfl, rfl⟩ : d = (k.proc p).pgdir ∧ sz = (k.proc p).sz := by simpa using heq
        exact ⟨hfilled, fun _ => hfilled⟩
      · simp only at hsz' hgrow
        subst hsz'
        have hmono : pages (k.proc p).sz ≤ pages sz := pages_mono hle
        have hsum : pages (k.proc p).sz + (pages sz - pages (k.proc p).sz) = pages sz := by omega
        have hall := hfilled.grow hgrow
        rw [hsum] at hall
        exact ⟨hall.mono hmono, fun _ => hall⟩
    by_cases hzero : sz = 0
    · simp only [hzero, if_true]
      exact h.setProc fun _ => hd'.1
    · simp only [hzero, if_false]
      exact h.setProc fun _ => hd'.2 hzero
  · apply Prog.wp_seq (post_deallocuvm_clears hsz.le)
    rintro ⟨d, sz⟩ m₁ (⟨heq, hle⟩ | ⟨hlt, hsz', hclear⟩)
    · obtain ⟨rfl, rfl⟩ : d = (k.proc p).pgdir ∧ sz = (k.proc p).sz := by simpa using heq
      simp only
      split <;> exact h.setProc fun _ => hfilled
    · simp only at hsz' hclear
      subst hsz'
      simp only [hneg hn', if_false]
      exact h.setProc fun _ => (hfilled.mono (pages_mono hlt.le)).congr
        fun v hv => hclear.rest v (.inl hv)
  · exact h

theorem post_exec_filled {img : Image} (h : k.Filled) (hok : ExecOk img m) :
    (exec k p img).post (fun r _ => r.2.Filled) m :=
  post_exec_of h (post_execSpace_filled hok) fun _ _ hnew => h.setProc fun _ => hnew

theorem post_fork_filled (h : k.Filled) (hp : (k.proc p).Sane) :
    (fork k p).post (fun r _ => r.2.Filled) m := by
  have hnext : Kernel.Filled { k with nextpid := k.nextpid + 1 } := h
  apply post_fork_of (R := fun r => r.2.Filled) h hnext fun _ => post_copyuvm_filled hp.size
  intro q g d _ hd
  exact hnext.setProc fun _ => hd

theorem post_shmGet_filled {key : Int} {mem : Nat} (h : k.Filled) (hp : (k.proc p).Sane)
    (hlive : (k.proc p).life = .live) (hroom : GetRoom k m p key) :
    (sysShmGet k p key mem).post (fun r _ => r.2.Filled) m := by
  have hfilled := h p hlive
  have hsz := hp.size
  refine post_sysShmGet h fun i hi => ?_
  have hspace := hroom hi.quantity hi.pos hi.le hi.room (by simp [hi.slot])
  refine Prog.wp_imp (post_mappages_grows (div_PGSIZE_lt hsz)) ?_
  rintro ⟨d, ok⟩ m₁ (⟨_, hnone, hgrow, _⟩ | ⟨_, _, hnone, hfree⟩) k' hstored
  · -- the page is not below the size, so the size is that of whole pages
    have hge : pages (k.proc p).sz ≤ (k.proc p).sz / PGSIZE := by
      by_contra hlt
      exact hfilled _ (by omega) hnone
    have hpages : pages (((k.proc p).sz + PGSIZE) % 2 ^ 32) = (k.proc p).sz / PGSIZE + 1 ∧
        pages (k.proc p).sz = (k.proc p).sz / PGSIZE := by
      have hsize : PGSIZE = 4096 := rfl
      have hup : UPAGES = 2 ^ 19 := rfl
      rw [pages, hsize] at hge
      rw [hsize, hup] at hsz
      rw [pages, pages, hsize]
      omega
    have hall := (hpages.2 ▸ hfilled).grow hgrow
    have hset : (k.setBlock key.toNat
        ⟨(k.block key.toNat).addr, (k.block key.toNat).refcount + 1⟩).Filled := h
    have hattached : (k.attach p key.toNat i d).Filled := by
      refine hset.setProc fun _ => ?_
      simp only [hpages.1]
      exact hall
    intro q hq
    rw [hstored.proc] at hq ⊢
    exact hattached q hq
  · rcases hspace with hsome | hne
    · simp [hnone] at hsome
    · exact absurd hfree hne

theorem post_shmClose_filled {key : Int} (h : k.Filled) (hp : (k.proc p).Sane)
    (hlive : (k.proc p).life = .live) (hok : CloseAbove k p key) :
    (shmClose k p key).post (fun r _ => r.2.Filled) m := by
  have hfilled := h p hlive
  unfold shmClose
  split_ifs with hkey
  · exact h
  push Not at hkey
  simp only
  cases hslot : shmSlot (k.proc p) key with
  | none => exact h
  | some i =>
    obtain ⟨v, hv, href⟩ := hp.ref i
    have habove := hok hkey.1 hkey.2.1 hkey.2.2 i hslot
    have hpage : PGROUNDUP ((k.proc p).shmref i) / PGSIZE = v ∧
        (k.proc p).shmref i / PGSIZE = v := by
      have hsize : PGSIZE = 4096 := rfl
      have hup : UPAGES = 2 ^ 19 := rfl
      rw [href, PGROUNDUP, hsize]
      omega
    apply Prog.wp_seq (post_clearRange_clears (Nat.le_add_left _ _))
    intro d m₁ hd
    rw [hpage.1] at hd
    rw [hpage.2] at habove
    refine Kernel.Filled.setProc h fun _ => hfilled.congr fun w hw => hd.rest w (.inl ?_)
    exact Nat.lt_of_lt_of_le hw habove

theorem post_shmClose_others {key : Int} :
    (shmClose k p key).post (fun r _ => ∀ q, q ≠ p → r.2.proc q = k.proc q) m := by
  unfold shmClose
  split_ifs
  · exact fun _ _ => rfl
  simp only
  cases shmSlot (k.proc p) key with
  | none => exact fun _ _ => rfl
  | some i =>
    apply Prog.wp_seq Prog.post_trivial
    intro d m₁ _ q hq
    simp [Kernel.setProc, Kernel.setBlock, hq]

theorem post_closeAll_others {is : List Nat} :
    (closeAll p is k).post (fun k' _ => ∀ q, q ≠ p → k'.proc q = k.proc q) m := by
  induction is generalizing k m with
  | nil => exact fun _ _ => rfl
  | cons i is ih =>
    rw [closeAll_cons]
    split_ifs
    · apply Prog.wp_seq post_shmClose_others
      intro r m₁ h₁
      refine Prog.wp_imp ih ?_
      intro k' _ h' q hq
      rw [h' q hq, h₁ q hq]
    · exact ih

theorem Kernel.EachLive.post_exit (h : k.EachLive P) :
    (exit k p).post (fun r _ => r.2.EachLive P) m := by
  unfold exit
  split_ifs
  · exact wp_panic trivial trivial
  · apply Prog.wp_seq post_closeAll_others
    intro k₁ m₁ hothers q hlive
    by_cases hq : q = p
    · simp [Kernel.bury, hq] at hlive
    · have hproc : ((k₁.bury p).proc q).life = (k.proc q).life ∧
          ((k₁.bury p).proc q).pgdir = (k.proc q).pgdir ∧
          ((k₁.bury p).proc q).sz = (k.proc q).sz := by
        simp only [Kernel.bury, hq, if_false, hothers q hq]
        split_ifs <;> exact ⟨rfl, rfl, rfl⟩
      simp only at hlive ⊢
      rw [hproc.2.1, hproc.2.2]
      exact h q (hproc.1 ▸ hlive)

theorem Kernel.EachLive.post_wait (h : k.EachLive P) :
    (wait k p).post (fun r _ => r.2.EachLive P) m := by
  unfold wait
  simp only
  generalize (List.finRange NPROC).filter _ = kids
  cases kids.find? fun q => (k.proc q).life = .zombie with
  | none =>
    simp only
    split_ifs
    · exact h
    · exact Prog.wp_atomic trivial (by simp) fun _ _ => trivial
  | some q =>
    apply Prog.wp_seq Prog.post_trivial
    intro _ _ _
    apply Prog.wp_seq Prog.post_trivial
    intro _ _ _
    exact h.setProc fun hlive => by simp at hlive

theorem Kernel.EachLive.post_shmCreate (h : k.EachLive P) :
    (shmCreate k).post (fun r _ => r.2.EachLive P) m := by
  unfold shmCreate
  split_ifs
  · exact h
  cases (List.range MAXSHM).find? fun i => (k.block i).refcount = -1 with
  | none => exact h
  | some i =>
    apply Prog.wp_seq Prog.post_trivial
    intro _ _ _
    exact h

theorem Kernel.EachLive.post_pipealloc (h : k.EachLive P) :
    (pipealloc k).post (fun r _ => r.2.EachLive P) m := by
  apply Prog.wp_seq Prog.post_trivial
  intro f _ _
  cases f <;> exact h

theorem Kernel.EachLive.post_pipeclose (h : k.EachLive P) (f : Frame) :
    (pipeclose k f).post (fun r _ => r.2.EachLive P) m := by
  unfold pipeclose
  split_ifs
  · apply Prog.wp_seq Prog.post_trivial
    intro _ _ _
    exact h
  · exact h

/-- The calls that leave the memory of the live processes as it is. -/
def Call.Still : Call → Prop
  | .exit | .wait | .shmCreate | .pipe | .pipeclose _ => True
  | _ => False

theorem Kernel.EachLive.post_still {call : Call} (h : k.EachLive P) (hcall : call.Still) :
    (call.code k p).post (fun r _ => r.2.EachLive P) m := by
  cases call with
  | exit => exact h.post_exit
  | wait => exact h.post_wait
  | shmCreate => exact h.post_shmCreate
  | pipe => exact h.post_pipealloc
  | pipeclose f => exact h.post_pipeclose f
  | sbrk | fork | exec | shmGet | shmClose => exact hcall.elim

/-! ## fork does not meet a hole -/

def HolePanic (x : Halt) : Prop :=
  x = .panic "copyuvm: pte should exist" ∨ x = .panic "copyuvm: page not present"

def NoHole {α : Type} (c : VmM α) (m : Mem) : Prop :=
  c.wp (fun _ => True) (fun x _ => ¬ HolePanic x) (fun _ _ => True) m

variable {S : Frame → Bool} {d : PageDir} {n a : Nat}

theorem noHole_seq {α β : Type} {c : VmM α} {g : α → VmM β} (h : NoHole c m)
    (hg : ∀ x m', NoHole (g x) m') : NoHole (c.bind g) m :=
  Prog.wp_seq h fun x m' _ => hg x m'

theorem noHole_kalloc : NoHole kalloc m :=
  wp_kalloc trivial (fun _ => trivial) fun _ _ _ => trivial

theorem noHole_kfree (f : Frame) : NoHole (kfree f) m :=
  wp_kfree trivial (by simp [HolePanic]) trivial

theorem noHole_mappages {v : Nat} {g : Frame} {w u : Bool} (hv : v < 2 ^ 20) :
    NoHole (mappages d (v * PGSIZE) PGSIZE g w u) m :=
  wp_mappages hv trivial (fun _ => by simp [HolePanic]) (fun _ _ => trivial) (fun _ _ => trivial)
    fun _ _ _ _ => trivial

theorem noHole_clearRange {keep : Frame → Bool} {top fuel : Nat} :
    NoHole (clearRange "kfree" keep top fuel d a) m := by
  induction fuel generalizing d a m with
  | zero => exact trivial
  | succ fuel ih =>
    rw [clearRange]
    split_ifs
    · cases d.table (a / NPTENTRIES) with
      | none => exact ih
      | some t =>
        cases hpte : t.pte (a % NPTENTRIES) with
        | none =>
          simp only [hpte]
          exact ih
        | some pte =>
          simp only [hpte]
          split_ifs
          · exact wp_panic trivial (by simp [HolePanic])
          · exact noHole_seq (noHole_kfree _) fun _ _ => ih
          · exact ih
    · exact trivial

theorem noHole_freevm : NoHole (freevm S d) m := by
  have hdealloc : NoHole (deallocuvm S d KERNBASE 0) m := by
    unfold deallocuvm
    split_ifs
    · exact trivial
    · exact noHole_seq noHole_clearRange fun _ _ => trivial
  apply noHole_seq hdealloc
  intro r m₁
  apply noHole_seq
  · apply Prog.wp_forRange (I := fun _ _ => True) trivial
    intro j t _ _
    cases r.1.table j with
    | none => exact trivial
    | some tab => exact noHole_kfree _
  · exact fun _ _ => noHole_kfree _

theorem noHole_kmapTables {data : Frame} {is : List Nat} : NoHole (kmapTables data is d) m := by
  induction is generalizing d m with
  | nil => exact trivial
  | cons i is ih =>
    apply noHole_seq noHole_kalloc
    intro f _
    cases f with
    | none => exact trivial
    | some f => exact ih

theorem noHole_setupkvm : NoHole setupkvm m := by
  apply noHole_seq noHole_kalloc
  intro f m₁
  cases f with
  | none => exact trivial
  | some f =>
    apply noHole_seq
    · exact Prog.wp_atomic trivial (fun _ _ _ => trivial) (by simp)
    · exact fun _ _ => noHole_kmapTables

theorem noHole_copyLoop {pgdir : PageDir} (hfilled : pgdir.Filled (a + n)) (ha : a + n ≤ 2 ^ 20) :
    NoHole (copyLoop S pgdir n d a) m := by
  induction n generalizing d a m with
  | zero => exact trivial
  | succ n ih =>
    obtain ⟨pte, hpte⟩ := Option.ne_none_iff_exists'.1 (hfilled a (by omega))
    have hsum : a + 1 + n = a + (n + 1) := by omega
    rw [copyLoop_succ hpte]
    apply noHole_seq
    · split_ifs
      · exact trivial
      · exact noHole_kalloc
    intro mem m₁
    cases mem with
    | none => exact trivial
    | some f =>
      apply noHole_seq (noHole_mappages (by omega))
      rintro ⟨d₁, ok⟩ m₂
      cases ok with
      | false => exact trivial
      | true => exact ih (hsum ▸ hfilled) (by omega)

theorem noHole_copyuvm {pgdir : PageDir} {sz : Nat} (hfilled : pgdir.Filled (pages sz))
    (hsz : sz < (UPAGES + 1) * PGSIZE) : NoHole (copyuvm S pgdir sz) m := by
  have hpages := pages_le hsz.le
  have hup : UPAGES = 2 ^ 19 := rfl
  apply noHole_seq noHole_setupkvm
  intro r m₁
  cases r with
  | none => exact trivial
  | some d =>
    apply noHole_seq (noHole_copyLoop (by rwa [Nat.zero_add]) (by omega))
    rintro ⟨d₁, ok⟩ m₂
    cases ok with
    | true => exact trivial
    | false => exact noHole_seq noHole_freevm fun _ _ => trivial

theorem noHole_fork (h : k.Filled) (hp : (k.proc p).Sane) (hlive : (k.proc p).life = .live) :
    NoHole (fork k p) m := by
  unfold fork
  cases unusedSlot k with
  | none => exact trivial
  | some q =>
    apply noHole_seq noHole_kalloc
    intro kstack m₁
    cases kstack with
    | none => exact trivial
    | some g =>
      apply noHole_seq (noHole_copyuvm (h p hlive) hp.size)
      intro r m₂
      cases r with
      | none => exact noHole_seq (noHole_kfree g) fun _ _ => trivial
      | some d => exact trivial

end Calls

/-! ## Runs -/

def Unbroken (s : State) (e : Event) : Prop :=
  match e.call with
  | .sbrk n => GrowOk s.kern s.mem e.proc (int32 n)
  | .exec img => ExecOk img s.mem
  | .shmGet key _ => GetRoom s.kern s.mem e.proc (int32 key)
  | .shmClose key => CloseAbove s.kern e.proc (int32 key)
  | _ => True

instance (k : Kernel) (m : Mem) (p : Slot) (n : Int) : Decidable (GrowOk k m p n) := by
  unfold GrowOk
  infer_instance

instance (k : Kernel) (m : Mem) (p : Slot) (key : Int) : Decidable (GetRoom k m p key) := by
  unfold GetRoom
  infer_instance

instance (k : Kernel) (p : Slot) (key : Int) : Decidable (CloseAbove k p key) := by
  unfold CloseAbove
  infer_instance

instance (img : Image) (m : Mem) : Decidable (ExecOk img m) := by
  unfold ExecOk
  infer_instance

instance (s : State) : (e : Event) → Decidable (Unbroken s e)
  | ⟨p, .sbrk n⟩ => inferInstanceAs (Decidable (GrowOk s.kern s.mem p (int32 n)))
  | ⟨_, .exec img⟩ => inferInstanceAs (Decidable (ExecOk img s.mem))
  | ⟨p, .shmGet key _⟩ => inferInstanceAs (Decidable (GetRoom s.kern s.mem p (int32 key)))
  | ⟨p, .shmClose key⟩ => inferInstanceAs (Decidable (CloseAbove s.kern p (int32 key)))
  | ⟨_, .fork⟩ | ⟨_, .exit⟩ | ⟨_, .wait⟩ | ⟨_, .shmCreate⟩ | ⟨_, .pipe⟩
  | ⟨_, .pipeclose _⟩ => inferInstanceAs (Decidable True)

theorem post_code_filled {s : State} {e : Event} (h : s.kern.Filled)
    (hp : (s.kern.proc e.proc).Sane) (hlive : (s.kern.proc e.proc).life = .live)
    (hok : Unbroken s e) : (e.call.code s.kern e.proc).post (fun r _ => r.2.Filled) s.mem := by
  obtain ⟨p, call⟩ := e
  cases call with
  | sbrk n => exact post_growproc_filled h hp hlive hok
  | fork => exact post_fork_filled h hp
  | exec img => exact post_exec_filled h hok
  | shmGet key mem =>
    apply Prog.wp_seq (post_shmGet_filled h hp hlive hok)
    intro r _ h'
    exact h'
  | shmClose key => exact post_shmClose_filled h hp hlive hok
  | exit | wait | shmCreate | pipe | pipeclose =>
    exact Kernel.EachLive.post_still (P := fun d sz => d.Filled (pages sz)) h trivial

theorem post_userinit_filled (name : Int) {m : Mem}
    (hroom : kernelTables.length + 4 ≤ m.free.length) :
    (userinit name).post (fun k _ => k.Filled) m := by
  apply Prog.wp_bind
  apply wp_kalloc trivial
  · intro _
    exact wp_panic trivial trivial
  intro kstack gs hfree
  have hlen : m.free.length = gs.length + 1 := by rw [hfree, List.length_cons]
  apply Prog.wp_seq post_setupkvm_length
  intro r m₁ hr
  cases r with
  | none => exact wp_panic trivial trivial
  | some d =>
    have hlen₁ := hr (by simp)
    rw [spaceFrames_zero] at hlen₁
    simp only at hlen₁
    apply Prog.wp_bind
    apply wp_kalloc trivial
    · intro _
      exact wp_panic trivial trivial
    intro g gs' hfree'
    have hlen₂ : m₁.free.length = gs'.length + 1 := by rw [hfree', List.length_cons]
    have hmap := post_mappages_grows (d := d) (v := 0) (g := g) (w := true) (u := true)
      (m := { m₁ with free := gs' }) (by decide)
    rw [Nat.zero_mul] at hmap
    apply Prog.wp_seq hmap
    rintro ⟨d₁, ok⟩ m₂ (⟨_, _, hgrow, _⟩ | ⟨_, _, _, hnil⟩)
    · apply wp_ret
      have hnone : Kernel.Filled (noKernel name) := fun p hlive => by
        simp [noKernel, noProc] at hlive
      refine hnone.setProc (p := ⟨0, by decide⟩) fun _ v hv => ?_
      have hone : pages PGSIZE = 1 := by decide
      rw [hone] at hv
      exact hgrow.filled v (by omega) (by omega)
    · simp only at hnil
      rw [hnil, List.length_nil] at hlen₂
      omega

theorem Boots.filled {name : Int} {m : Mem} {s₀ : State} (h : Boots name m s₀) :
    s₀.kern.Filled :=
  (Prog.wp_run (post_userinit_filled name h.room)).1 _ _ h.run

end Xv6.Vm
