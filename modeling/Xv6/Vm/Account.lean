import Xv6.Lib.Count
import Xv6.Vm.Rules

/-!
# Where a page is accounted for

`uses` counts the places in which an address space has a page that it would give
back: the directory itself, its page tables and the user pages that are not
shared.  The functions of `vm.c` only move a page between the free list and such
places, so for each page the sum of the two counts never grows.
-/

namespace Xv6.Vm

open Xv6.Lib

namespace PageDir

def userFrame (d : PageDir) (v : Nat) : Option Frame := (d.lookup v).map Pte.frame

def tableFrame (d : PageDir) (i : Nat) : Option Frame := (d.table i).map Table.frame

def mappings (d : PageDir) (f : Frame) : Nat :=
  Nat.count (fun v => d.userFrame v = some f) UPAGES

/-- The places of `f` in an address space, for what `S` takes to be shared. -/
def uses (S : Frame → Bool) (d : PageDir) (f : Frame) : Nat :=
  (if d.frame = f then 1 else 0) + Nat.count (fun i => d.tableFrame i = some f) NPDENTRIES +
    if S f then 0 else d.mappings f

/-- The kernel half is there: its first page is physical page 0, and none is the user's. -/
structure HasKernel (d : PageDir) : Prop where
  first : d.userFrame UPAGES = some 0
  upper : ∀ v, UPAGES ≤ v → ∀ pte, d.lookup v = some pte → pte.u = false

variable {S : Frame → Bool} {d : PageDir} {f g : Frame} {v i : Nat}

theorem mappings_setPte (d : PageDir) (v : Nat) (x : Option Pte) (f : Frame) :
    (d.setPte v x).mappings f + (if v < UPAGES ∧ d.userFrame v = some f then 1 else 0) ≤
      d.mappings f + if x.map Pte.frame = some f then 1 else 0 := by
  by_cases ht : d.table (v / NPTENTRIES) = none
  · have hsame : d.setPte v x = d := by simp [setPte, ht]
    have hnone : d.userFrame v = none := by simp [userFrame, lookup_of_table_none ht]
    simp [hsame, hnone]
  · have hoff : ∀ w, w ≠ v →
        ((d.setPte v x).userFrame w = some f ↔ d.userFrame w = some f) := by
      intro w hw
      rw [userFrame, lookup_setPte_of_ne hw, userFrame]
    have hself : (d.setPte v x).userFrame v = x.map Pte.frame := by
      rw [userFrame, lookup_setPte_self ht]
    rw [← hself]
    exact count_add_le_of_eq_off hoff UPAGES

theorem uses_setPte (S : Frame → Bool) (d : PageDir) (v : Nat) (x : Option Pte) (f : Frame) :
    (d.setPte v x).uses S f +
        (if S f = false ∧ v < UPAGES ∧ d.userFrame v = some f then 1 else 0) ≤
      d.uses S f + if S f = false ∧ x.map Pte.frame = some f then 1 else 0 := by
  have hmap := mappings_setPte d v x f
  have htab : (fun i => (d.setPte v x).tableFrame i = some f) = fun i => d.tableFrame i = some f := by
    funext i
    rw [tableFrame, table_setPte_map, tableFrame]
  unfold uses
  simp only [setPte_frame, htab]
  cases hsh : S f with
  | true => simp
  | false =>
    simp only [Bool.false_eq_true, if_false, true_and]
    omega

theorem uses_setTable (S : Frame → Bool) (d : PageDir) {i : Nat} {t : Table}
    (h : ∀ v, v < UPAGES → (d.setTable i t).userFrame v = d.userFrame v) (f : Frame) :
    (d.setTable i t).uses S f ≤ d.uses S f + if t.frame = f then 1 else 0 := by
  have hmap : (d.setTable i t).mappings f = d.mappings f :=
    count_congr_lt fun v hv => by rw [h v hv]
  have hoff : ∀ j, j ≠ i → ((d.setTable i t).tableFrame j = some f ↔ d.tableFrame j = some f) := by
    intro j hj
    simp [tableFrame, setTable, hj]
  have hcount := count_add_le_of_eq_off hoff NPDENTRIES
  have hself : (d.setTable i t).tableFrame i = some t.frame := by simp [tableFrame, setTable]
  rw [hself] at hcount
  simp only [Option.some.injEq] at hcount
  unfold uses
  rw [hmap, setTable_frame]
  omega

theorem HasKernel.congr {d' : PageDir} (h : d.HasKernel)
    (hsame : ∀ v, UPAGES ≤ v → d'.lookup v = d.lookup v) : d'.HasKernel := by
  constructor
  · rw [userFrame, hsame UPAGES le_rfl]
    exact h.first
  · intro v hv pte hpte
    exact h.upper v hv pte (by rwa [← hsame v hv])

theorem HasKernel.setPte (h : d.HasKernel) (hv : v < UPAGES) (x : Option Pte) :
    (d.setPte v x).HasKernel :=
  h.congr fun _ hle => lookup_setPte_of_ne (Nat.ne_of_gt (Nat.lt_of_lt_of_le hv hle)) x

theorem HasKernel.lookup (h : d.HasKernel) : d.lookup UPAGES ≠ none := by
  intro hnone
  have hfirst := h.first
  simp [userFrame, hnone] at hfirst

end PageDir

/-! ## One address space -/

section Account

variable {S : Frame → Bool} {d : PageDir} {m : Mem} {f : Frame}

/-- The account of `f` over an address space and the free list has not grown from
`(d, m)` to `(d', m')`, but for `extra`. -/
def Within (S : Frame → Bool) (f : Frame) (extra : Nat) (d : PageDir) (m : Mem)
    (d' : PageDir) (m' : Mem) : Prop :=
  d'.uses S f + m'.free.count f ≤ d.uses S f + m.free.count f + extra

theorem count_free_cons {m : Mem} {g : Frame} {gs : List Frame} (h : m.free = g :: gs)
    (f : Frame) : m.free.count f = gs.count f + if g = f then 1 else 0 := by
  rw [h, List.count_cons]
  simp only [beq_iff_eq]

theorem post_mappages {v : Nat} {g : Frame} {w u : Bool} (hv : v ≤ UPAGES) (hd : d.HasKernel) :
    (mappages d (v * PGSIZE) PGSIZE g w u).post (fun r m' => r.1.HasKernel ∧
      Within S f (if S f = false ∧ g = f then 1 else 0) d m r.1 m' ∧ v ≠ UPAGES) m := by
  have hpages : UPAGES < 2 ^ 20 := by decide
  apply wp_mappages (Nat.lt_of_le_of_lt hv hpages) trivial (fun _ => trivial)
  · intro _ hnone
    have hne : v ≠ UPAGES := by
      rintro rfl
      exact hd.lookup hnone
    have huses := PageDir.uses_setPte S d v (some ⟨g, w, u⟩) f
    simp only [Option.map_some, Option.some.injEq] at huses
    refine ⟨hd.setPte (Nat.lt_of_le_of_ne hv hne) _, ?_, hne⟩
    simp only [Within]
    omega
  · intro hnone _
    refine ⟨hd, Nat.le_add_right _ _, ?_⟩
    rintro rfl
    exact hd.lookup (PageDir.lookup_of_table_none hnone)
  · intro t ts hnone hfree
    have hne : v ≠ UPAGES := by
      rintro rfl
      exact hd.lookup (PageDir.lookup_of_table_none hnone)
    have hsame (x : Nat) : (d.setTable (v / NPTENTRIES) ⟨t, fun _ => none⟩).lookup x =
        d.lookup x := PageDir.lookup_setTable_empty hnone t x
    have htable := PageDir.uses_setTable S d (i := v / NPTENTRIES) (t := ⟨t, fun _ => none⟩)
      (fun x _ => congrArg (Option.map Pte.frame) (hsame x)) f
    have huses := PageDir.uses_setPte S (d.setTable (v / NPTENTRIES) ⟨t, fun _ => none⟩) v
      (some ⟨g, w, u⟩) f
    have hcount := count_free_cons hfree f
    simp only [Option.map_some, Option.some.injEq] at huses
    refine ⟨(hd.congr fun x _ => hsame x).setPte (Nat.lt_of_le_of_ne hv hne) _, ?_, hne⟩
    simp only [Within]
    simp only at htable
    omega

theorem Within.refl (d : PageDir) (m : Mem) : Within S f 0 d m d m := by
  simp [Within]

theorem Within.trans {d₁ d₂ : PageDir} {m₁ m₂ : Mem} {x : Nat} (h₁ : Within S f x d m d₁ m₁)
    (h₂ : Within S f 0 d₁ m₁ d₂ m₂) : Within S f x d m d₂ m₂ := by
  unfold Within at *
  omega

theorem within_clear {v : Nat} {pte : Pte} {free : List Frame} (hv : v < UPAGES)
    (hpte : d.userFrame v = some pte.frame)
    (hfree : free = m.free ∨ free = pte.frame :: m.free ∧ S pte.frame = false) :
    Within S f 0 d m (d.setPte v none) { m with free := free } := by
  have huses := PageDir.uses_setPte S d v none f
  simp only [hpte, hv, Option.map_none, reduceCtorEq, and_false, if_false, true_and,
    Option.some.injEq] at huses
  rcases hfree with rfl | ⟨rfl, hsh⟩
  · simp only [Within]
    omega
  · simp only [Within, List.count_cons, beq_iff_eq]
    by_cases hf : pte.frame = f
    · simp only [← hf, hsh, true_and, if_true] at huses ⊢
      omega
    · simp only [hf, if_false]
      omega

theorem post_clearRange {msg : String} {keep : Frame → Bool} {top fuel a : Nat}
    (hkeep : ∀ g, keep g = false → S g = false) (htop : top ≤ UPAGES + 1)
    (hd : d.HasKernel) :
    (clearRange msg keep top fuel d a).post
      (fun d' m' => d'.HasKernel ∧ Within S f 0 d m d' m') m := by
  induction fuel generalizing d a m with
  | zero => exact ⟨hd, Within.refl d m⟩
  | succ fuel ih =>
    rw [clearRange]
    split_ifs with ha
    · cases ht : d.table (a / NPTENTRIES) with
      | none => exact ih hd
      | some t =>
        cases hpte : t.pte (a % NPTENTRIES) with
        | none => simpa only [hpte] using ih hd
        | some pte =>
          have hframe : d.userFrame a = some pte.frame := by
            simp [PageDir.userFrame, PageDir.lookup, ht, hpte]
          simp only [hpte]
          split_ifs with hzero hk
          · exact wp_panic trivial trivial
          all_goals
            have hne : a ≠ UPAGES := by
              rintro rfl
              exact hzero (Option.some.inj (hframe.symm.trans hd.first))
            have hlt : a < UPAGES := by omega
          · apply Prog.wp_bind
            apply wp_kfree trivial trivial
            have hsh : S pte.frame = false := hkeep _ (by simpa using hk)
            refine Prog.wp_imp (ih (hd.setPte hlt none)) ?_
            rintro d' m' ⟨hd', hwithin⟩
            exact ⟨hd', (within_clear hlt hframe (.inr ⟨rfl, hsh⟩)).trans hwithin⟩
          · refine Prog.wp_imp (ih (hd.setPte hlt none)) ?_
            rintro d' m' ⟨hd', hwithin⟩
            exact ⟨hd', (within_clear hlt hframe (.inl rfl)).trans hwithin⟩
    · exact ⟨hd, Within.refl d m⟩

theorem pages_le {a n : Nat} (h : a ≤ n * PGSIZE) : pages a ≤ n := by
  have hsize : PGSIZE = 4096 := rfl
  rw [pages, hsize]
  rw [hsize] at h
  omega

theorem post_deallocuvm {oldsz newsz : Nat} (hold : oldsz ≤ (UPAGES + 1) * PGSIZE)
    (hd : d.HasKernel) :
    (deallocuvm S d oldsz newsz).post
      (fun r m' => r.1.HasKernel ∧ Within S f 0 d m r.1 m' ∧ r.2 ≤ oldsz) m := by
  unfold deallocuvm
  split_ifs with hle
  · exact ⟨hd, Within.refl d m, Nat.le_refl _⟩
  · apply Prog.wp_seq (post_clearRange (fun _ h => h) (pages_le hold) hd)
    rintro d' m' ⟨hd', hwithin⟩
    exact ⟨hd', hwithin, by simp only; omega⟩

theorem post_freevm (hd : d.HasKernel) :
    (freevm S d).post (fun _ m' => m'.free.count f ≤ d.uses S f + m.free.count f) m := by
  have hbase : KERNBASE ≤ (UPAGES + 1) * PGSIZE := by decide
  apply Prog.wp_seq (post_deallocuvm (f := f) hbase hd)
  rintro ⟨d₁, _⟩ m₁ ⟨_, hwithin, _⟩
  refine Prog.wp_seq (Prog.wp_forRange (I := fun j (m' : Mem) => m'.free.count f =
    m₁.free.count f + Nat.count (fun i => d₁.tableFrame i = some f) j) (by simp) ?_) ?_
  rotate_left
  · intro _ m₂ hm₂
    apply wp_kfree trivial trivial
    have hown : (if d₁.frame = f then 1 else 0) +
        Nat.count (fun i => d₁.tableFrame i = some f) NPDENTRIES ≤ d₁.uses S f :=
      Nat.le_add_right _ _
    simp only [Within] at hwithin
    simp only [List.count_cons, beq_iff_eq]
    omega
  · intro j t _ hj
    rw [Nat.count_succ]
    cases htab : d₁.table j with
    | none =>
      apply wp_ret
      simpa [PageDir.tableFrame, htab] using hj
    | some tab =>
      apply wp_kfree trivial trivial
      have hself : d₁.tableFrame j = some tab.frame := by simp [PageDir.tableFrame, htab]
      simp only [hself, Option.some.injEq, List.count_cons, beq_iff_eq]
      omega

theorem post_allocLoop {n a : Nat} (ha : a + n ≤ UPAGES) (hd : d.HasKernel) :
    (allocLoop n d a).post (fun r m' => r.1.HasKernel ∧ Within S f 0 d m r.1 m') m := by
  induction n generalizing d a m with
  | zero => exact ⟨hd, Within.refl d m⟩
  | succ n ih =>
    rw [allocLoop]
    apply Prog.wp_bind
    apply wp_kalloc trivial
    · intro _
      exact ⟨hd, Within.refl d m⟩
    · intro g gs hfree
      apply Prog.wp_seq (post_mappages (S := S) (f := f) (by omega) hd)
      rintro ⟨d₁, _⟩ m₁ ⟨hd₁, hwithin₁, _⟩
      refine Prog.wp_imp (ih (by omega) hd₁) ?_
      rintro r m₂ ⟨hd₂, hwithin₂⟩
      refine ⟨hd₂, Within.trans ?_ hwithin₂⟩
      have hcount := count_free_cons hfree f
      simp only [Within] at hwithin₁ ⊢
      split_ifs at hwithin₁ hcount <;> first | omega | simp_all

theorem PGROUNDUP_div {a : Nat} (h : a ≤ KERNBASE) : PGROUNDUP a / PGSIZE = pages a := by
  have hsize : PGSIZE = 4096 := rfl
  have hbase : KERNBASE = 2 ^ 31 := rfl
  rw [PGROUNDUP, pages, hsize]
  omega

theorem PGROUNDUP_le {a : Nat} (h : a < KERNBASE) : PGROUNDUP a ≤ KERNBASE := by
  have hsize : PGSIZE = 4096 := rfl
  have hbase : KERNBASE = 2 ^ 31 := rfl
  rw [PGROUNDUP, hsize]
  omega

theorem pages_mono {a b : Nat} (h : a ≤ b) : pages a ≤ pages b :=
  Nat.div_le_div_right (by omega)

theorem zero_lt_kernbase : 0 < KERNBASE := by decide

theorem pages_kernbase : pages KERNBASE = UPAGES := by decide

theorem post_allocuvm {oldsz newsz : Nat} (hd : d.HasKernel) :
    (allocuvm S d oldsz newsz).post (fun r m' => r.1.HasKernel ∧ Within S f 0 d m r.1 m' ∧
      (r.2 < KERNBASE ∨ r.2 = oldsz)) m := by
  unfold allocuvm
  split_ifs with hbig hless
  · exact ⟨hd, Within.refl d m, .inl zero_lt_kernbase⟩
  · exact ⟨hd, Within.refl d m, .inr rfl⟩
  · have hpages : pages newsz ≤ UPAGES := by
      rw [← pages_kernbase]
      exact pages_mono (by omega)
    have hround := PGROUNDUP_div (a := oldsz) (by omega)
    have hmono : pages oldsz ≤ pages newsz := pages_mono (by omega)
    have hup : UPAGES = 2 ^ 19 := rfl
    apply Prog.wp_seq (post_allocLoop (S := S) (f := f) (by omega) hd)
    rintro ⟨d₁, ok⟩ m₁ ⟨hd₁, hwithin₁⟩
    cases ok with
    | true => exact ⟨hd₁, hwithin₁, .inl (by simp only; omega)⟩
    | false =>
      have hsize : newsz ≤ (UPAGES + 1) * PGSIZE := by
        have hbase : KERNBASE ≤ (UPAGES + 1) * PGSIZE := by decide
        omega
      apply Prog.wp_seq (post_deallocuvm (f := f) hsize hd₁)
      rintro r m₂ ⟨hd₂, hwithin₂, _⟩
      exact ⟨hd₂, hwithin₁.trans hwithin₂, .inl zero_lt_kernbase⟩

/-! ## New address spaces -/

def KmapTables (data : Frame) (is : List Nat) (d : PageDir) : Prop :=
  ∀ i ∈ is, ∃ g, d.table i = some ⟨g, fun j => kmapPte data (i * NPTENTRIES + j)⟩

theorem userFrame_setTable_kernel {i v : Nat} (hi : UPAGES / NPTENTRIES ≤ i) (hv : v < UPAGES)
    (t : Table) : (d.setTable i t).userFrame v = d.userFrame v := by
  have hup : UPAGES = 512 * 1024 := rfl
  have hnp : NPTENTRIES = 1024 := rfl
  have hne : v / NPTENTRIES ≠ i := by
    rw [hup, hnp] at hi
    rw [hup] at hv
    rw [hnp]
    omega
  rw [PageDir.userFrame, PageDir.lookup_setTable, if_neg hne, PageDir.userFrame]

theorem post_kmapTables {data : Frame} {is : List Nat}
    (his : ∀ i ∈ is, UPAGES / NPTENTRIES ≤ i) :
    (kmapTables data is d).post (fun r m' => m'.free.count f ≤ m.free.count f ∧
      ∀ d', r = some d' → Within S f 0 d m d' m' ∧ KmapTables data is d' ∧
        ∀ j, j ∉ is → d'.table j = d.table j) m := by
  induction is generalizing d m with
  | nil =>
    refine ⟨Nat.le_refl _, fun d' hd' => ?_⟩
    obtain rfl : d = d' := Option.some.inj hd'
    exact ⟨Within.refl d m, fun i hi => absurd hi List.not_mem_nil, fun _ _ => rfl⟩
  | cons i is ih =>
    rw [kmapTables]
    apply Prog.wp_bind
    apply wp_kalloc trivial
    · intro _
      exact ⟨Nat.le_refl _, fun d' hd' => by simp at hd'⟩
    · intro g gs hfree
      have hcount := count_free_cons hfree f
      have huses := PageDir.uses_setTable S d (t := ⟨g, fun j => kmapPte data (i * NPTENTRIES + j)⟩)
        (fun v hv => userFrame_setTable_kernel (his i List.mem_cons_self) hv _) f
      refine Prog.wp_imp (ih fun j hj => his j (List.mem_cons_of_mem i hj)) ?_
      rintro r m₁ ⟨hle, hsome⟩
      refine ⟨by simp only at hle; omega, fun d' hd' => ?_⟩
      obtain ⟨hwithin, hnew, htable⟩ := hsome d' hd'
      refine ⟨?_, fun j hj => ?_, fun j hj => ?_⟩
      · simp only [Within] at hwithin ⊢
        simp only at huses
        omega
      · by_cases hmem : j ∈ is
        · exact hnew j hmem
        · obtain rfl : j = i := by simpa [hmem] using hj
          rw [htable j hmem]
          exact ⟨g, by simp [PageDir.setTable]⟩
      · rw [List.mem_cons, not_or] at hj
        rw [htable j hj.2]
        simp [PageDir.setTable, hj.1]

structure Fresh (d : PageDir) : Prop where
  kernel : d.HasKernel
  user : ∀ i, i < UPAGES / NPTENTRIES → d.table i = none

theorem uses_noTables (g : Frame) : PageDir.uses S ⟨g, fun _ => none⟩ f = if g = f then 1 else 0 := by
  have htab : Nat.count (fun i => PageDir.tableFrame ⟨g, fun _ => none⟩ i = some f) NPDENTRIES = 0 := by
    simp [PageDir.tableFrame, Nat.count_false]
  have hmap : PageDir.mappings ⟨g, fun _ => none⟩ f = 0 := by
    simp [PageDir.mappings, PageDir.userFrame, PageDir.lookup, Nat.count_false]
  simp [PageDir.uses, htab, hmap]

theorem kmapPte_u {data : Frame} {v : Nat} {pte : Pte} (h : kmapPte data v = some pte) :
    pte.u = false := by
  unfold kmapPte at h
  split_ifs at h <;> simp only [Option.some.injEq] at h <;> rw [← h]

theorem KmapTables.fresh {data : Frame} (h : KmapTables data kernelTables d)
    (hrest : ∀ j, j ∉ kernelTables → d.table j = none) : Fresh d := by
  constructor
  · obtain ⟨g, hg⟩ := h (UPAGES / NPTENTRIES) (by decide)
    have hpte : kmapPte data (UPAGES / NPTENTRIES * NPTENTRIES + UPAGES % NPTENTRIES) =
        some ⟨0, true, false⟩ := by
      simp [kmapPte, UPAGES, KERNBASE, PGSIZE, NPTENTRIES, PHYSTOP, EXTMEM]
    refine ⟨?_, fun v _ pte hv => ?_⟩
    · simp only [PageDir.userFrame, PageDir.lookup, hg, Option.bind_some, hpte, Option.map_some]
    · obtain ⟨t, ht, hpte⟩ := Option.bind_eq_some_iff.1 hv
      by_cases hmem : v / NPTENTRIES ∈ kernelTables
      · obtain ⟨g, hg⟩ := h _ hmem
        obtain rfl := Option.some.inj (hg.symm.trans ht)
        exact kmapPte_u hpte
      · rw [hrest _ hmem] at ht
        cases ht
  · intro i hi
    apply hrest
    have hall : ∀ j ∈ kernelTables, UPAGES / NPTENTRIES ≤ j := by decide
    intro hmem
    have hle := hall i hmem
    omega

theorem post_setupkvm :
    setupkvm.post (fun r m' => m'.free.count f ≤ m.free.count f ∧
      ∀ d, r = some d → d.uses S f + m'.free.count f ≤ m.free.count f ∧ Fresh d) m := by
  apply Prog.wp_bind
  apply wp_kalloc trivial
  · intro _
    exact ⟨Nat.le_refl _, fun d hd => by simp at hd⟩
  · intro g gs hfree
    have hcount := count_free_cons hfree f
    apply Prog.wp_bind
    refine Prog.wp_atomic trivial ?_ (by simp)
    intro data t ht
    obtain ⟨_, rfl⟩ : m.data = data ∧ { m with free := gs } = t := by simpa using ht
    refine Prog.wp_imp (post_kmapTables (S := S) (f := f) (by decide)) ?_
    rintro r m₁ ⟨hle, hsome⟩
    refine ⟨by simp only at hle; omega, fun d hd => ?_⟩
    obtain ⟨hwithin, hnew, hrest⟩ := hsome d hd
    refine ⟨?_, hnew.fresh hrest⟩
    simp only [Within, uses_noTables] at hwithin
    omega

theorem post_copyLoop {pgdir : PageDir} {n i : Nat} (hi : i + n ≤ UPAGES + 1) (hd : d.HasKernel) :
    (copyLoop S pgdir n d i).post (fun r m' => r.1.HasKernel ∧ Within S f 0 d m r.1 m') m := by
  induction n generalizing d i m with
  | zero => exact ⟨hd, Within.refl d m⟩
  | succ n ih =>
    rw [copyLoop]
    cases pgdir.table (i / NPTENTRIES) with
    | none => exact wp_panic trivial trivial
    | some t =>
      cases hpte : t.pte (i % NPTENTRIES) with
      | none =>
        simp only [hpte]
        exact wp_panic trivial trivial
      | some pte =>
        -- what is left to do once there is a page `g`, taken from `m` or shared
        have hmap : ∀ (g : Frame) (m₁ : Mem),
            m₁.free.count f + (if S f = false ∧ g = f then 1 else 0) ≤ m.free.count f →
            (do
              let r ← mappages d (i * PGSIZE) PGSIZE g pte.w pte.u
              if r.2 then copyLoop S pgdir n r.1 (i + 1) else pure (r.1, false) :
                VmM (PageDir × Bool)).post
              (fun r m' => r.1.HasKernel ∧ Within S f 0 d m r.1 m') m₁ := by
          intro g m₁ hle
          apply Prog.wp_seq (post_mappages (S := S) (f := f) (by omega) hd)
          rintro ⟨d₁, ok⟩ m₂ ⟨hd₁, hwithin₁, _⟩
          have hstep : Within S f 0 d m d₁ m₂ := by
            simp only [Within] at hwithin₁ ⊢
            omega
          cases ok with
          | false => exact ⟨hd₁, hstep⟩
          | true =>
            refine Prog.wp_imp (ih (by omega) hd₁) ?_
            rintro r m₃ ⟨hd₂, hwithin₂⟩
            exact ⟨hd₂, hstep.trans hwithin₂⟩
        simp only [hpte]
        split_ifs with hsh
        · apply Prog.wp_bind
          apply wp_ret
          apply hmap
          have hzero : ¬ (S f = false ∧ pte.frame = f) := by
            rintro ⟨hf, rfl⟩
            simp [hf] at hsh
          simp [hzero]
        · apply Prog.wp_bind
          apply wp_kalloc trivial
          · intro _
            exact ⟨hd, Within.refl d m⟩
          · intro g gs hfree
            apply hmap
            have hcount := count_free_cons hfree f
            split_ifs at hcount ⊢ <;> first | omega | simp_all

theorem post_copyuvm {pgdir : PageDir} {sz : Nat} (hsz : sz ≤ (UPAGES + 1) * PGSIZE) :
    (copyuvm S pgdir sz).post (fun r m' => m'.free.count f ≤ m.free.count f ∧
      ∀ d, r = some d → d.uses S f + m'.free.count f ≤ m.free.count f ∧ d.HasKernel) m := by
  apply Prog.wp_seq (post_setupkvm (S := S) (f := f))
  rintro r m₁ ⟨hle, hsome⟩
  cases r with
  | none => exact ⟨hle, fun d hd => by simp at hd⟩
  | some d =>
    obtain ⟨huses, hfresh⟩ := hsome d rfl
    have hpages := pages_le hsz
    apply Prog.wp_seq (post_copyLoop (f := f) (by omega) hfresh.kernel)
    rintro ⟨d₁, ok⟩ m₂ ⟨hd₁, hwithin⟩
    simp only [Within] at hwithin
    cases ok with
    | true =>
      refine ⟨by omega, fun d' hd' => ?_⟩
      obtain rfl : d₁ = d' := Option.some.inj hd'
      exact ⟨by omega, hd₁⟩
    | false =>
      apply Prog.wp_seq (post_freevm (S := S) (d := d₁) (f := f) hd₁)
      intro _ m₃ hm₃
      exact ⟨by omega, fun d' hd' => by simp at hd'⟩

/-! ## exec -/

theorem post_loadSegments {phs : List ProgHdr} {sz : Nat} (hsz : sz < KERNBASE)
    (hd : d.HasKernel) :
    (loadSegments S phs d sz).post (fun r m' => r.1.HasKernel ∧ Within S f 0 d m r.1 m' ∧
      ∀ sz', r.2 = some sz' → sz' < KERNBASE) m := by
  induction phs generalizing d sz m with
  | nil =>
    refine ⟨hd, Within.refl d m, fun sz' h => ?_⟩
    obtain rfl : sz = sz' := Option.some.inj h
    exact hsz
  | cons ph phs ih =>
    have hbad : ∀ (d' : PageDir) (m' : Mem), d'.HasKernel → Within S f 0 d m d' m' →
        (pure (d', none) : VmM (PageDir × Option Nat)).post (fun r m' => r.1.HasKernel ∧
          Within S f 0 d m r.1 m' ∧ ∀ sz', r.2 = some sz' → sz' < KERNBASE) m' := by
      intro d' m' hd' hwithin
      exact ⟨hd', hwithin, fun sz' h => by simp at h⟩
    rw [loadSegments]
    split_ifs
    · exact hbad d m hd (Within.refl d m)
    · exact ih hsz hd
    · exact hbad d m hd (Within.refl d m)
    · apply Prog.wp_seq (post_allocuvm (S := S) (f := f) hd)
      rintro ⟨d₁, sz₁⟩ m₁ ⟨hd₁, hwithin₁, hsz₁⟩
      simp only at hsz₁ ⊢
      split_ifs
      · exact hbad d₁ m₁ hd₁ hwithin₁
      · apply Prog.wp_bind
        apply wp_loaduvm trivial (fun _ => trivial)
        intro loaded
        cases loaded with
        | false => exact hbad d₁ m₁ hd₁ hwithin₁
        | true =>
          refine Prog.wp_imp (ih (by omega) hd₁) ?_
          rintro r m₂ ⟨hd₂, hwithin₂, hsz₂⟩
          exact ⟨hd₂, hwithin₁.trans hwithin₂, hsz₂⟩

theorem within_clearpteu {v : Nat} (hv : v < UPAGES) :
    Within S f 0 d m (d.setPte v ((d.lookup v).map fun pte => { pte with u := false })) m := by
  have huses := PageDir.uses_setPte S d v ((d.lookup v).map fun pte => { pte with u := false }) f
  have hsame : ((d.lookup v).map fun pte : Pte => { pte with u := false }).map Pte.frame =
      d.userFrame v := by
    rw [Option.map_map]
    rfl
  rw [hsame] at huses
  simp only [hv, true_and] at huses
  simp only [Within]
  omega

/-- The new address space of `exec`, if there is one, is accounted for out of `n`. -/
def Spaced (S : Frame → Bool) (f : Frame) (n : Nat) (r : Option (PageDir × Nat)) (m : Mem) : Prop :=
  m.free.count f ≤ n ∧ ∀ d sz, r = some (d, sz) →
    d.uses S f + m.free.count f ≤ n ∧ d.HasKernel ∧ sz ≤ KERNBASE

theorem post_execBad {n : Nat} (hd : d.HasKernel) (hn : d.uses S f + m.free.count f ≤ n) :
    (execBad S d).post (Spaced S f n) m := by
  apply Prog.wp_seq (post_freevm (S := S) (f := f) hd)
  intro _ m' hm'
  exact ⟨by omega, fun d sz h => by simp at h⟩

theorem post_execStack {fits : Bool} {sz top n : Nat} (hsz : sz ≤ KERNBASE) (hd : d.HasKernel)
    (hn : d.uses S f + m.free.count f ≤ n) :
    (execStack S fits d sz top).post (Spaced S f n) m := by
  have hsize : PGSIZE = 4096 := rfl
  have hbase : KERNBASE = 2 ^ 31 := rfl
  have hup : UPAGES = 2 ^ 19 := rfl
  apply Prog.wp_seq (post_allocuvm (S := S) (f := f) hd)
  rintro ⟨d₁, sz₁⟩ m₁ ⟨hd₁, hwithin₁, hsz₁⟩
  have hn₁ : d₁.uses S f + m₁.free.count f ≤ n := by
    simp only [Within] at hwithin₁
    omega
  simp only at hsz₁ ⊢
  by_cases hzero : sz₁ = 0
  · rw [if_pos hzero]
    exact post_execBad hd₁ hn₁
  · rw [if_neg hzero]
    have hv : (sz₁ - 2 * PGSIZE) / PGSIZE < UPAGES := by
      rw [hsize, hup]
      omega
    have hwithin₂ := within_clearpteu (S := S) (f := f) (d := d₁) (m := m₁) hv
    have hd₂ := hd₁.setPte hv
      ((d₁.lookup ((sz₁ - 2 * PGSIZE) / PGSIZE)).map fun pte => { pte with u := false })
    apply Prog.wp_bind
    apply wp_clearpteu trivial trivial
    generalize d₁.setPte _ _ = d₂ at hwithin₂ hd₂ ⊢
    have hn₂ : d₂.uses S f + m₁.free.count f ≤ n := by
      simp only [Within] at hwithin₂
      omega
    cases fits with
    | false =>
      simp only [Bool.false_eq_true, if_false]
      exact post_execBad hd₂ hn₂
    | true =>
      refine ⟨by omega, fun d sz h => ?_⟩
      obtain ⟨rfl, rfl⟩ : d₂ = d ∧ sz₁ = sz := by simpa using h
      exact ⟨hn₂, hd₂, by omega⟩

theorem post_execSpace {img : Image} :
    (execSpace S img).post (Spaced S f (m.free.count f)) m := by
  unfold execSpace
  split
  · exact ⟨Nat.le_refl _, fun d sz h => by simp at h⟩
  · apply Prog.wp_seq (post_setupkvm (S := S) (f := f))
    rintro r m₁ ⟨hle, hsome⟩
    cases r with
    | none => exact ⟨hle, fun d sz h => by simp at h⟩
    | some d =>
      obtain ⟨huses, hfresh⟩ := hsome d rfl
      apply Prog.wp_seq (post_loadSegments (f := f) zero_lt_kernbase hfresh.kernel)
      rintro ⟨d₁, osz⟩ m₂ ⟨hd₁, hwithin₁, hsz₁⟩
      have hn₁ : d₁.uses S f + m₂.free.count f ≤ m.free.count f := by
        simp only [Within] at hwithin₁
        omega
      cases osz with
      | none => exact post_execBad hd₁ hn₁
      | some sz₁ =>
        have hround := PGROUNDUP_le (hsz₁ sz₁ rfl)
        simp only
        generalize (PGROUNDUP sz₁ + 2 * PGSIZE) % 2 ^ 32 = top
        exact post_execStack hround hd₁ hn₁

end Account

end Xv6.Vm
