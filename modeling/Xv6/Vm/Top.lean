import Xv6.Vm.Contiguous

/-!
# The page at the end of a process

`shm_get` maps its page at the size of the process, rounded down.  No page of the
process lies above its size, so the page is free when the size is that of whole pages.
A `sbrk` that meets a missing page table goes on a whole table further and may leave
pages behind.
-/

namespace Xv6.Vm

open Xv6.Lib
open Xv6.Sched (Slot NPROC)

def PageDir.Topped (d : PageDir) (sz : Nat) : Prop :=
  ∀ v, pages sz ≤ v → v < UPAGES → d.lookup v = none

section Space

variable {S : Frame → Bool} {d d' : PageDir} {m : Mem} {n a : Nat}

structure Allocates (d : PageDir) (oldsz newsz : Nat) (d' : PageDir) (sz : Nat) : Prop where
  size : sz = 0 ∨ sz = oldsz ∨ sz = newsz ∧ newsz < KERNBASE ∧ oldsz ≤ newsz
  below : ∀ v, v < pages oldsz → d'.lookup v = d.lookup v
  failed : sz = 0 → d.Topped oldsz → d'.Topped oldsz
  topped : sz ≠ 0 → d.Topped oldsz → d'.Topped sz

theorem Clears.topped {d₁ : PageDir} {b oldsz newsz : Nat} (h : Extends d (pages oldsz) b d₁)
    (hb : pages oldsz + b ≤ pages newsz) (hclear : Clears d₁ (pages oldsz) (pages newsz) d')
    (htop : d.Topped oldsz) : d'.Topped oldsz := by
  intro v hv hup
  by_cases hlt : v < pages oldsz + b
  · exact hclear.gone _ hb h.table v hv hlt
  · rcases hclear.less v with hnone | hsame
    · exact hnone
    · rw [hsame, h.rest v (by omega)]
      exact htop v hv hup

theorem post_allocuvm_allocates {oldsz newsz : Nat} :
    (allocuvm S d oldsz newsz).post (fun r _ => Allocates d oldsz newsz r.1 r.2) m := by
  unfold allocuvm
  split_ifs with hbig hless
  · exact ⟨.inl rfl, fun _ _ => rfl, fun _ h => h, fun h => absurd rfl h⟩
  · exact ⟨.inr (.inl rfl), fun _ _ => rfl, fun _ h => h, fun _ h => h⟩
  · have hpages : pages newsz ≤ UPAGES := by
      rw [← pages_kernbase]
      exact pages_mono (by omega)
    have hround := PGROUNDUP_div (a := oldsz) (by omega)
    have hmono : pages oldsz ≤ pages newsz := pages_mono (by omega)
    have hup : UPAGES = 2 ^ 19 := rfl
    simp only [hround]
    apply Prog.wp_seq (post_allocLoop_grows (by omega))
    rintro ⟨d₁, ok⟩ m₁ ⟨⟨b, hb, hext⟩, _⟩
    simp only at hext
    have hbelow : ∀ v, v < pages oldsz → d₁.lookup v = d.lookup v :=
      fun v hv => hext.rest v (.inl hv)
    have htop : d.Topped oldsz → d₁.Topped newsz := by
      intro h v hv hlt
      rw [hext.rest v (by omega)]
      exact h v (by omega) hlt
    cases ok with
    | true =>
      refine ⟨.inr (.inr ⟨rfl, by omega, by omega⟩), hbelow, fun hzero h => ?_, fun _ => htop⟩
      have hsame : oldsz = newsz := by
        simp only at hzero
        omega
      exact hsame ▸ htop h
    | false =>
      apply Prog.wp_seq (post_deallocuvm_clears (sane_of_le (by omega)))
      rintro ⟨d₂, sz₂⟩ m₂ (⟨heq, hle⟩ | ⟨_, _, hclear⟩)
      · obtain ⟨rfl, _⟩ : d₂ = d₁ ∧ sz₂ = newsz := by simpa using heq
        have hsame : oldsz = newsz := by omega
        exact ⟨.inl rfl, hbelow, fun _ h => hsame ▸ htop h, fun h => absurd rfl h⟩
      · refine ⟨.inl rfl, fun v hv => ?_, fun _ h => hclear.topped hext (by omega) h,
          fun h => absurd rfl h⟩
        rw [hclear.rest v (.inl hv), hbelow v hv]

theorem PageDir.lookup_setPte_isNone (d : PageDir) (v w : Nat) (x : Option Pte)
    (hx : d.lookup v = none → x = none) (h : d.lookup w = none) :
    (d.setPte v x).lookup w = none := by
  by_cases hw : w = v
  · subst hw
    cases ht : d.table (w / NPTENTRIES) with
    | none => exact PageDir.lookup_of_table_none ((PageDir.table_setPte_eq_none d w _ x).2 ht)
    | some t =>
      rw [PageDir.lookup_setPte_self (by simp [ht])]
      exact hx h
  · rw [PageDir.lookup_setPte_of_ne hw]
    exact h

theorem Fresh.topped (h : Fresh d) (sz : Nat) : d.Topped sz := by
  intro v _ hup
  apply PageDir.lookup_of_table_none
  apply h.user
  have hnp : NPTENTRIES = 1024 := rfl
  have hu : UPAGES = 512 * 1024 := rfl
  rw [hu] at hup ⊢
  rw [hnp]
  omega

/-! ## New address spaces -/

theorem post_copyuvm_topped {pgdir : PageDir} {sz : Nat} (hsz : sz ≤ KERNBASE) :
    (copyuvm S pgdir sz).post (fun r _ => ∀ d, r = some d → d.Topped sz) m := by
  have hpages : pages sz ≤ UPAGES := by
    rw [← pages_kernbase]
    exact pages_mono hsz
  have hup : UPAGES = 2 ^ 19 := rfl
  apply Prog.wp_seq (post_setupkvm (S := S) (f := 0))
  rintro r m₁ ⟨_, hfresh⟩
  cases r with
  | none => exact fun d h => by simp at h
  | some d =>
    apply Prog.wp_seq (post_copyLoop_grows (by omega))
    rintro ⟨d₁, ok⟩ m₂ hok
    cases ok with
    | true =>
      intro d' hd'
      obtain rfl : d₁ = d' := Option.some.inj hd'
      intro v hv hlt
      rw [(hok rfl).rest v (by omega)]
      exact (hfresh d rfl).2.topped sz v hv hlt
    | false =>
      apply Prog.wp_seq Prog.post_trivial
      intro _ _ _ d' hd'
      simp at hd'

theorem post_loadSegments_topped {phs : List ProgHdr} {sz : Nat} (h : d.Topped sz)
    (hsz : sz < KERNBASE) :
    (loadSegments S phs d sz).post
      (fun r _ => ∀ sz', r.2 = some sz' → r.1.Topped sz' ∧ sz' < KERNBASE) m := by
  induction phs generalizing d sz m with
  | nil =>
    intro sz' hsz'
    obtain rfl : sz = sz' := Option.some.inj hsz'
    exact ⟨h, hsz⟩
  | cons ph phs ih =>
    rw [loadSegments]
    split_ifs
    · exact fun sz' hsz' => by simp at hsz'
    · exact ih h hsz
    · exact fun sz' hsz' => by simp at hsz'
    · apply Prog.wp_seq post_allocuvm_allocates
      rintro ⟨d₁, sz₁⟩ m₁ halloc
      by_cases hzero : sz₁ = 0
      · simp only [hzero, if_true]
        exact fun sz' hsz' => by simp at hsz'
      · simp only [hzero, if_false]
        apply Prog.wp_seq Prog.post_trivial
        intro loaded m₂ _
        cases loaded with
        | false => exact fun sz' hsz' => by simp at hsz'
        | true =>
          have hsize := halloc.size
          simp only at hsize
          exact ih (halloc.topped hzero h) (by omega)

theorem post_execStack_topped {fits : Bool} {sz top : Nat} (h : d.Topped sz)
    (hsz : sz ≤ KERNBASE) : (execStack S fits d sz top).post
      (fun r _ => ∀ d sz, r = some (d, sz) → d.Topped sz ∧ sz ≤ KERNBASE) m := by
  apply Prog.wp_seq post_allocuvm_allocates
  rintro ⟨d₁, sz₁⟩ m₁ halloc
  by_cases hzero : sz₁ = 0
  · simp only [hzero, if_true]
    apply Prog.wp_seq Prog.post_trivial
    intro _ _ _ d' sz' hsome
    simp at hsome
  · have hd₁ : d₁.Topped sz₁ := halloc.topped hzero h
    have hsz₁ : sz₁ ≤ KERNBASE := by
      have hsize := halloc.size
      simp only at hsize
      omega
    have hclear : (clearpteu d₁ (sz₁ - 2 * PGSIZE)).post (fun d₂ _ => d₂.Topped sz₁) m₁ := by
      unfold clearpteu
      simp only
      split_ifs
      · exact wp_panic trivial trivial
      · intro v hv hup
        exact PageDir.lookup_setPte_isNone _ _ _ _ (by simp_all) (hd₁ v hv hup)
    simp only [hzero, if_false]
    apply Prog.wp_seq hclear
    intro d₂ m₂ hd₂
    cases fits with
    | true =>
      intro d' sz' hsome
      obtain ⟨rfl, rfl⟩ : d₂ = d' ∧ sz₁ = sz' := by simpa using hsome
      exact ⟨hd₂, hsz₁⟩
    | false =>
      apply Prog.wp_seq Prog.post_trivial
      intro _ _ _ d' sz' hsome
      simp at hsome

theorem post_execSpace_topped {img : Image} : (execSpace S img).post
    (fun r _ => ∀ d sz, r = some (d, sz) → d.Topped sz ∧ sz ≤ KERNBASE) m := by
  unfold execSpace
  split_ifs
  · exact fun d sz h => by simp at h
  · apply Prog.wp_seq (post_setupkvm (S := S) (f := 0))
    rintro r m₁ ⟨_, hfresh⟩
    cases r with
    | none => exact fun d sz h => by simp at h
    | some d =>
      apply Prog.wp_seq (post_loadSegments_topped ((hfresh d rfl).2.topped 0) (by decide))
      rintro ⟨d₁, sz₁⟩ m₂ hload
      cases sz₁ with
      | none =>
        apply Prog.wp_seq Prog.post_trivial
        intro _ _ _ d' sz' hsome
        simp at hsome
      | some sz₁ =>
        have hsz₁ : sz₁ < KERNBASE := (hload sz₁ rfl).2
        have hround : d₁.Topped (PGROUNDUP sz₁) := by
          intro v hv
          rw [pages_PGROUNDUP hsz₁] at hv
          exact (hload sz₁ rfl).1 v hv
        simp only
        generalize (PGROUNDUP sz₁ + 2 * PGSIZE) % 2 ^ 32 = top
        exact post_execStack_topped hround (PGROUNDUP_le hsz₁)

end Space

/-! ## The calls -/

def Kernel.Topped (k : Kernel) : Prop := k.EachLive fun d sz => d.Topped sz ∧ sz ≤ KERNBASE

/-- What a `sbrk` to a smaller size needs: the page tables of the pages it gives up. -/
def ShrinkOk (k : Kernel) (p : Slot) (n : Int) : Prop :=
  let r := k.proc p
  let newsz := ((r.sz + n) % 2 ^ 32).toNat
  n < 0 → ∀ v, v < pages r.sz → pages newsz ≤ v → (r.pgdir.table (v / NPTENTRIES)).isSome

/-- What `shm_get` needs: if its tests let it through, the size is that of whole pages
below the kernel. -/
def GetAligned (k : Kernel) (p : Slot) (key : Int) : Prop :=
  (k.proc p).shmemquantity < MAXSHMPROC → 0 ≤ key → key ≤ MAXSHM →
    (k.block key.toNat).refcount ≠ MAXSHMPROC → (shmSlot (k.proc p) (-1)).isSome →
      (k.proc p).sz % PGSIZE = 0 ∧ (k.proc p).sz < KERNBASE

section Calls

variable {k : Kernel} {m : Mem} {p : Slot} {r : Proc}

theorem Kernel.Topped.setProc (h : k.Topped)
    (hr : r.life = .live → r.pgdir.Topped r.sz ∧ r.sz ≤ KERNBASE) : (k.setProc p r).Topped :=
  Kernel.EachLive.setProc h hr

theorem Clears.topped_self {d d' : PageDir} {a top sz : Nat} (h : Clears d a top d')
    (htop : d.Topped sz) : d'.Topped sz := by
  intro v hv hup
  rcases h.less v with hnone | hsame
  · exact hnone
  · rw [hsame]
    exact htop v hv hup

theorem post_growproc_topped {n : Int} (h : k.Topped) (hlive : (k.proc p).life = .live)
    (hok : ShrinkOk k p n) : (growproc k p n).post (fun r _ => r.2.Topped) m := by
  obtain ⟨htop, hsz⟩ := h p hlive
  unfold growproc
  unfold ShrinkOk at hok
  simp only at hok ⊢
  generalize (((k.proc p).sz + n) % 2 ^ 32).toNat = newsz at hok ⊢
  split_ifs with hn hn'
  · apply Prog.wp_seq post_allocuvm_allocates
    rintro ⟨d, sz⟩ m₁ halloc
    by_cases hzero : sz = 0
    · simp only [hzero, if_true]
      exact h.setProc fun _ => ⟨halloc.failed hzero htop, hsz⟩
    · simp only [hzero, if_false]
      refine h.setProc fun _ => ⟨halloc.topped hzero htop, ?_⟩
      have hsize := halloc.size
      simp only at hsize ⊢
      omega
  · apply Prog.wp_seq (post_deallocuvm_clears (sane_of_le hsz))
    rintro ⟨d, sz⟩ m₁ (⟨heq, _⟩ | ⟨hlt, hsz', hclear⟩)
    · obtain ⟨rfl, rfl⟩ : d = (k.proc p).pgdir ∧ sz = (k.proc p).sz := by simpa using heq
      simp only
      split <;> exact h.setProc fun _ => ⟨htop, hsz⟩
    · simp only at hsz' hclear
      subst hsz'
      by_cases hzero : sz = 0
      · simp only [hzero, if_true]
        exact h.setProc fun _ => ⟨hclear.topped_self htop, hsz⟩
      · simp only [hzero, if_false]
        refine h.setProc fun _ => ⟨fun v hv hup => ?_, by simp only; omega⟩
        by_cases hold : v < pages (k.proc p).sz
        · apply hclear.gone _ (Nat.le_refl _) _ v hv hold
          intro w hle hlt
          exact Option.isSome_iff_ne_none.1 (hok hn' w hlt hle)
        · exact hclear.topped_self htop v (by omega) hup
  · exact h

theorem post_exec_topped {img : Image} (h : k.Topped) :
    (exec k p img).post (fun r _ => r.2.Topped) m :=
  post_exec_of (P := fun d sz => d.Topped sz ∧ sz ≤ KERNBASE) h post_execSpace_topped
    fun _ _ hnew => h.setProc fun _ => hnew

theorem post_fork_topped (h : k.Topped) (hlive : (k.proc p).life = .live) :
    (fork k p).post (fun r _ => r.2.Topped) m := by
  have hsz := (h p hlive).2
  have hnext : Kernel.Topped { k with nextpid := k.nextpid + 1 } := h
  apply post_fork_of (R := fun r => r.2.Topped) h hnext fun _ => post_copyuvm_topped hsz
  intro q g d _ hd
  exact hnext.setProc fun _ => ⟨hd, hsz⟩

theorem size_attach {sz : Nat} (halign : sz % PGSIZE = 0) (hsz : sz < KERNBASE) :
    (sz + PGSIZE) % 2 ^ 32 = sz + PGSIZE ∧ sz + PGSIZE ≤ KERNBASE ∧
      pages sz = sz / PGSIZE ∧ pages (sz + PGSIZE) = sz / PGSIZE + 1 ∧ sz / PGSIZE < UPAGES ∧
      PGROUNDDOWN sz = sz := by
  have hsize : PGSIZE = 4096 := rfl
  have hbase : KERNBASE = 2 ^ 31 := rfl
  have hup : UPAGES = 2 ^ 19 := rfl
  rw [hsize] at halign
  rw [hbase] at hsz
  rw [pages, pages, PGROUNDDOWN, hsize, hbase, hup]
  omega

theorem post_shmGet_topped {key : Int} {mem : Nat} (h : k.Topped) (hlive : (k.proc p).life = .live)
    (hok : GetAligned k p key) : (sysShmGet k p key mem).post (fun r _ => r.2.Topped) m := by
  obtain ⟨htop, _⟩ := h p hlive
  refine post_sysShmGet h fun i hi => ?_
  obtain ⟨halign, hsz⟩ := hok hi.quantity hi.pos hi.le hi.room (by simp [hi.slot])
  obtain ⟨hmod, hle, hpages, hpages', hup, _⟩ := size_attach halign hsz
  have hv : (k.proc p).sz / PGSIZE < 2 ^ 20 := Nat.lt_trans hup (by decide)
  have hset : (k.setBlock key.toNat
      ⟨(k.block key.toNat).addr, (k.block key.toNat).refcount + 1⟩).Topped := h
  refine Prog.wp_imp (post_mappages_grows hv) ?_
  intro r m₁ hr k' hstored
  have hattached : (k.attach p key.toNat i r.1).Topped := by
    refine hset.setProc fun _ => ⟨fun v hle' hlt => ?_, by simp only [hmod]; exact hle⟩
    simp only [hmod, hpages'] at hle'
    have hold : (k.proc p).pgdir.lookup v = none := htop v (by omega) hlt
    rcases hr with ⟨_, _, hgrow, _⟩ | ⟨heq, _⟩
    · rw [hgrow.rest v (by omega)]
      exact hold
    · rw [heq]
      exact hold
  intro q hq
  rw [hstored.proc] at hq ⊢
  exact hattached q hq

theorem post_unmap_less {d : PageDir} {va size : Nat} {freeframes : Int} :
    (unmap d va size freeframes).post (fun d' _ => ∃ a top, Clears d a top d') m :=
  Prog.wp_imp (post_clearRange_clears (Nat.le_add_left _ _)) fun _ _ h => ⟨_, _, h⟩

theorem post_shmClose_topped {key : Int} (h : k.Topped) (hlive : (k.proc p).life = .live) :
    (shmClose k p key).post (fun r _ => r.2.Topped) m := by
  obtain ⟨htop, hsz⟩ := h p hlive
  unfold shmClose
  split_ifs with hkey
  · exact h
  simp only
  cases hslot : shmSlot (k.proc p) key with
  | none => exact h
  | some i =>
    apply Prog.wp_seq post_unmap_less
    rintro d m₁ ⟨a, top, hclear⟩
    exact Kernel.Topped.setProc h fun _ => ⟨hclear.topped_self htop, hsz⟩

end Calls

/-! ## Runs -/

def OnTop (s : State) (e : Event) : Prop :=
  match e.call with
  | .sbrk n => ShrinkOk s.kern e.proc (int32 n)
  | .shmGet key _ => GetAligned s.kern e.proc (int32 key)
  | _ => True

instance (k : Kernel) (p : Slot) (n : Int) : Decidable (ShrinkOk k p n) := by
  unfold ShrinkOk
  infer_instance

instance (k : Kernel) (p : Slot) (key : Int) : Decidable (GetAligned k p key) := by
  unfold GetAligned
  infer_instance

instance (s : State) : (e : Event) → Decidable (OnTop s e)
  | ⟨p, .sbrk n⟩ => inferInstanceAs (Decidable (ShrinkOk s.kern p (int32 n)))
  | ⟨p, .shmGet key _⟩ => inferInstanceAs (Decidable (GetAligned s.kern p (int32 key)))
  | ⟨_, .fork⟩ | ⟨_, .exec _⟩ | ⟨_, .exit⟩ | ⟨_, .wait⟩ | ⟨_, .shmCreate⟩ | ⟨_, .shmClose _⟩
  | ⟨_, .pipe⟩ | ⟨_, .pipeclose _⟩ => inferInstanceAs (Decidable True)

theorem post_code_topped {s : State} {e : Event} (h : s.kern.Topped)
    (hlive : (s.kern.proc e.proc).life = .live) (hok : OnTop s e) :
    (e.call.code s.kern e.proc).post (fun r _ => r.2.Topped) s.mem := by
  obtain ⟨p, call⟩ := e
  cases call with
  | sbrk n => exact post_growproc_topped h hlive hok
  | fork => exact post_fork_topped h hlive
  | exec img => exact post_exec_topped h
  | shmGet key mem =>
    apply Prog.wp_seq (post_shmGet_topped h hlive hok)
    intro r _ h'
    exact h'
  | shmClose key => exact post_shmClose_topped h hlive
  | exit | wait | shmCreate | pipe | pipeclose => exact Kernel.EachLive.post_still h trivial

theorem post_userinit_topped (name : Int) {m : Mem} :
    (userinit name).post (fun k _ => k.Topped) m := by
  apply Prog.wp_seq Prog.post_trivial
  intro kstack m₁ _
  cases kstack with
  | none => exact wp_panic trivial trivial
  | some kstack =>
    apply Prog.wp_seq (post_setupkvm (S := fun _ => false) (f := 0))
    rintro r m₂ ⟨_, hfresh⟩
    cases r with
    | none => exact wp_panic trivial trivial
    | some d =>
      apply Prog.wp_seq Prog.post_trivial
      intro g m₃ _
      cases g with
      | none => exact wp_panic trivial trivial
      | some g =>
        have hmap := post_mappages_grows (d := d) (v := 0) (g := g) (w := true) (u := true)
          (m := m₃) (by decide)
        rw [Nat.zero_mul] at hmap
        apply Prog.wp_seq hmap
        intro r m₄ hr
        have hsize : PGSIZE ≤ KERNBASE := by decide
        have hnone : Kernel.Topped (noKernel name) := fun p hlive => by
          simp [noKernel, noProc] at hlive
        refine hnone.setProc (p := ⟨0, by decide⟩) fun _ => ⟨fun v hv hup => ?_, hsize⟩
        have hone : pages PGSIZE = 1 := by decide
        rw [hone] at hv
        have hold : d.lookup v = none := (hfresh d rfl).2.topped 0 v (Nat.zero_le v) hup
        rcases hr with ⟨_, _, hgrow, _⟩ | ⟨heq, _⟩
        · rw [hgrow.rest v (by omega)]
          exact hold
        · rw [heq]
          exact hold

theorem Boots.topped {name : Int} {m : Mem} {s₀ s : State} (hboot : Boots name m s₀)
    (h : (machine s₀).Reach OnTop s) : s.kern.Topped := by
  apply Machine.Reach.invariant (I := fun s => s.kern.Topped) _ _ h
  · rintro t rfl
    exact (Prog.wp_run (post_userinit_topped name)).1 _ _ hboot.run
  · intro t e u htop hok hstep
    obtain ⟨hlive, r, hrun⟩ := next_eq_some hstep
    exact (Prog.wp_run (post_code_topped htop hlive hok)).1 (r, u.kern) u.mem hrun

/-- `shm_get(key, mem)` by process `p` returns; if it succeeds, its page was not mapped before
and is now, the others stay as they are, and the address is below the new size. -/
structure Installs (k : Kernel) (m : Mem) (p : Slot) (key : Int) (mem : Nat) : Prop where
  returns : ∃ r, (sysShmGet k p key mem).run m = .ok r
  free : ∀ a k' m', (sysShmGet k p key mem).run m = .ok ((some a, k'), m') →
    (k.proc p).pgdir.lookup (a / PGSIZE) = none
  keeps : ∀ a k' m', (sysShmGet k p key mem).run m = .ok ((some a, k'), m') →
    ∀ v, v ≠ a / PGSIZE → (k'.proc p).pgdir.lookup v = (k.proc p).pgdir.lookup v
  maps : ∀ a k' m', (sysShmGet k p key mem).run m = .ok ((some a, k'), m') →
    (k'.proc p).pgdir.lookup (a / PGSIZE) ≠ none
  below : ∀ a k' m', (sysShmGet k p key mem).run m = .ok ((some a, k'), m') → a < (k'.proc p).sz

/-- The word at `mem` is in the user half, on pages that can be written. -/
def UserWord (d : PageDir) (mem : Nat) : Prop :=
  mem + 4 ≤ KERNBASE ∧ d.writable (mem / PGSIZE) = true ∧ d.writable ((mem + 3) / PGSIZE) = true

instance (d : PageDir) (mem : Nat) : Decidable (UserWord d mem) := by
  unfold UserWord
  infer_instance

theorem storeAddr_of_userWord {k : Kernel} {p : Slot} {mem : Nat} (a : Nat)
    (h : UserWord (k.proc p).pgdir mem) : storeAddr k p mem a = pure k := by
  obtain ⟨hmem, hfirst, hlast⟩ := h
  have hbase : KERNBASE = 2 ^ 31 := rfl
  have hwrap : (mem + 3) % 2 ^ 32 = mem + 3 := by omega
  unfold storeAddr
  dsimp only
  rw [hwrap, if_neg (by simp [hfirst, hlast]), if_pos hmem]

theorem UserWord.of_rest {d d' : PageDir} {mem v : Nat} (h : UserWord d mem)
    (hv : d.lookup v = none) (hrest : ∀ w, w ≠ v → d'.lookup w = d.lookup w) : UserWord d' mem := by
  have hkeep : ∀ w, d.writable w = true → d'.writable w = true := by
    intro w hw
    have hne : w ≠ v := by
      rintro rfl
      simp [PageDir.writable, hv] at hw
    rwa [PageDir.writable, hrest w hne]
  exact ⟨h.1, hkeep _ h.2.1, hkeep _ h.2.2⟩

structure Lands (k : Kernel) (p : Slot) (a : Nat) (k' : Kernel) : Prop where
  free : (k.proc p).pgdir.lookup (a / PGSIZE) = none
  size : (k'.proc p).sz = a + PGSIZE
  pgdir : Grows (k.proc p).pgdir (a / PGSIZE) 1 (k'.proc p).pgdir

theorem wp_shmGet_lands {k : Kernel} {m : Mem} {p : Slot} {key : Int} {mem : Nat} (h : k.Topped)
    (hlive : (k.proc p).life = .live) (hok : GetAligned k p key) (hroom : GetRoom k m p key)
    (hptr : UserWord (k.proc p).pgdir mem) :
    (sysShmGet k p key mem).wp (fun _ => True) (fun _ _ => False)
      (fun r _ => ∀ a, r.1 = some a → Lands k p a r.2) m := by
  refine wp_sysShmGet (fun a ha => by simp at ha) fun i hi => ?_
  obtain ⟨halign, hsz⟩ := hok hi.quantity hi.pos hi.le hi.room (by simp [hi.slot])
  have hspace := hroom hi.quantity hi.pos hi.le hi.room (by simp [hi.slot])
  obtain ⟨hmod, _, hpages, _, hup, hround⟩ := size_attach halign hsz
  have hv : (k.proc p).sz / PGSIZE < 2 ^ 20 := Nat.lt_trans hup (by decide)
  have hfree := (h p hlive).1 _ (Nat.le_of_eq hpages) hup
  have hstore : ∀ (d : PageDir) (m' : Mem), Grows (k.proc p).pgdir ((k.proc p).sz / PGSIZE) 1 d →
      (storeAddr (k.attach p key.toNat i d) p mem (PGROUNDDOWN (k.proc p).sz)).wp (fun _ => True)
        (fun _ _ => False)
        (fun k' _ => ∀ a, some (PGROUNDDOWN (k.proc p).sz) = some a → Lands k p a k') m' := by
    intro d m' hgrow
    have hpgdir : ((k.attach p key.toNat i d).proc p).pgdir = d := by
      simp [Kernel.attach, Kernel.setProc]
    have hword := hptr.of_rest hfree fun w hw => hgrow.rest w (by omega)
    rw [storeAddr_of_userWord _ (by rwa [hpgdir])]
    intro a ha
    rw [hround, Option.some.injEq] at ha
    subst ha
    have hsize : ((k.attach p key.toNat i d).proc p).sz = ((k.proc p).sz + PGSIZE) % 2 ^ 32 := by
      simp [Kernel.attach, Kernel.setProc]
    exact ⟨hfree, hsize.trans hmod, by rwa [hpgdir]⟩
  apply wp_mappages hv trivial (fun hne => hne hfree)
  · intro ht _
    exact hstore _ _ (grows_setPte ht _)
  · intro hnone hnil
    rcases hspace with hsome | hne
    · simp [hnone] at hsome
    · exact absurd hnil hne
  · intro t ts hnone _
    exact hstore _ _ (grows_setTable hnone _)

end Xv6.Vm
