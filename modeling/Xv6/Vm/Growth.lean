import Xv6.Vm.Account

/-!
# Which pages are present

What the functions of `vm.c` and the new address spaces of `exec` and `fork` do to
the entries of a page directory.  `allocuvm` does not look at the result of
`mappages`, so its last page is missing when memory runs out at the page table
of that page: it is then one page short of what `framesNeeded` counts.
-/

namespace Xv6.Vm

open Xv6.Lib

def PageDir.Filled (d : PageDir) (n : Nat) : Prop := ∀ v, v < n → d.lookup v ≠ none

def tables (n : Nat) : Nat := (n + NPTENTRIES - 1) / NPTENTRIES

/-- The physical pages that `allocuvm` takes for `n` pages from `a` on, those for page
tables included. -/
def framesNeeded : Nat → PageDir → Nat → Nat
  | 0, _, _ => 0
  | n + 1, d, a =>
    if (d.table (a / NPTENTRIES)).isNone then
      2 + framesNeeded n (d.setTable (a / NPTENTRIES) ⟨0, fun _ => none⟩) (a + 1)
    else 1 + framesNeeded n d (a + 1)

/-- `d'` is `d` without pages from `a` up to `top`: all of them up to the first missing page
table. -/
structure Clears (d : PageDir) (a top : Nat) (d' : PageDir) : Prop where
  rest : ∀ v, v < a ∨ top ≤ v → d'.lookup v = d.lookup v
  less : ∀ v, d'.lookup v = none ∨ d'.lookup v = d.lookup v
  gone : ∀ b, b ≤ top → (∀ v, a ≤ v → v < b → d.table (v / NPTENTRIES) ≠ none) →
    ∀ v, a ≤ v → v < b → d'.lookup v = none

section Space

variable {S : Frame → Bool} {d d' : PageDir} {m : Mem} {n a : Nat}

theorem PageDir.Filled.mono {k : Nat} (h : d.Filled n) (hk : k ≤ n) : d.Filled k :=
  fun v hv => h v (Nat.lt_of_lt_of_le hv hk)

theorem PageDir.Filled.congr (h : d.Filled n) (hsame : ∀ v, v < n → d'.lookup v = d.lookup v) :
    d'.Filled n := by
  intro v hv
  rw [hsame v hv]
  exact h v hv

theorem framesNeeded_congr (h : ∀ i, d'.table i = none ↔ d.table i = none) :
    framesNeeded n d' a = framesNeeded n d a := by
  induction n generalizing d d' a with
  | zero => rfl
  | succ n ih =>
    have hnone : (d'.table (a / NPTENTRIES)).isNone = (d.table (a / NPTENTRIES)).isNone := by
      rw [Bool.eq_iff_iff, Option.isNone_iff_eq_none, Option.isNone_iff_eq_none]
      exact h _
    rw [framesNeeded, framesNeeded, hnone, ih h]
    congr 2
    apply ih
    intro i
    by_cases hi : i = a / NPTENTRIES
    · simp [PageDir.setTable, hi]
    · simpa [PageDir.setTable, hi] using h i

theorem Clears.refl {top : Nat} (hle : top ≤ a) : Clears d a top d :=
  ⟨fun _ _ => rfl, fun _ => .inr rfl, fun b hb _ v hv hlt => by omega⟩

theorem Clears.jump {top : Nat} (hnone : d.table (a / NPTENTRIES) = none)
    (h : Clears d (a + NPTENTRIES) top d') : Clears d a top d' := by
  refine ⟨fun v hv => h.rest v (by omega), h.less, fun b hb htables v hv hlt => ?_⟩
  exact absurd hnone (htables a (Nat.le_refl a) (by omega))

theorem Clears.skip {top : Nat} (hnone : d.lookup a = none) (h : Clears d (a + 1) top d') :
    Clears d a top d' := by
  refine ⟨fun v hv => h.rest v (by omega), h.less, fun b hb htables v hv hlt => ?_⟩
  by_cases hva : v = a
  · rw [hva, h.rest a (by omega)]
    exact hnone
  · exact h.gone b hb (fun w hw => htables w (by omega)) v (by omega) hlt

theorem Clears.cons {top : Nat} (hlt : a < top) (ht : d.table (a / NPTENTRIES) ≠ none)
    (h : Clears (d.setPte a none) (a + 1) top d') : Clears d a top d' := by
  have hself : d'.lookup a = none := by
    rw [h.rest a (by omega)]
    exact PageDir.lookup_setPte_self ht none
  have hother : ∀ v, v ≠ a → (d.setPte a none).lookup v = d.lookup v :=
    fun v hv => PageDir.lookup_setPte_of_ne hv none
  constructor
  · intro v hv
    rw [h.rest v (by omega), hother v (by omega)]
  · intro v
    by_cases hva : v = a
    · exact .inl (hva ▸ hself)
    · rw [← hother v hva]
      exact h.less v
  · intro b hb htables v hv hlt
    by_cases hva : v = a
    · exact hva ▸ hself
    · apply h.gone b hb _ v (by omega) hlt
      intro w hw hwb
      rw [ne_eq, PageDir.table_setPte_eq_none]
      exact htables w (by omega) hwb

theorem post_clearRange_clears {msg : String} {keep : Frame → Bool} {top fuel : Nat}
    (hfuel : top ≤ a + fuel) :
    (clearRange msg keep top fuel d a).post (fun d' _ => Clears d a top d') m := by
  induction fuel generalizing d a m with
  | zero => exact Clears.refl (by omega)
  | succ fuel ih =>
    rw [clearRange]
    split_ifs with hlt
    · cases ht : d.table (a / NPTENTRIES) with
      | none =>
        have hnp : NPTENTRIES = 1024 := rfl
        exact Prog.wp_imp (ih (by omega)) fun _ _ h => h.jump ht
      | some t =>
        have hsome : d.table (a / NPTENTRIES) ≠ none := by simp [ht]
        cases hpte : t.pte (a % NPTENTRIES) with
        | none =>
          have hnone : d.lookup a = none := by simp [PageDir.lookup, ht, hpte]
          simp only [hpte]
          exact Prog.wp_imp (ih (by omega)) fun _ _ h => h.skip hnone
        | some pte =>
          simp only [hpte]
          split_ifs
          · exact wp_panic trivial trivial
          · apply Prog.wp_bind
            apply wp_kfree trivial trivial
            exact Prog.wp_imp (ih (by omega)) fun _ _ h => h.cons hlt hsome
          · exact Prog.wp_imp (ih (by omega)) fun _ _ h => h.cons hlt hsome
    · exact Clears.refl (by omega)

theorem sane_of_le {sz : Nat} (h : sz ≤ KERNBASE) : sz ≤ (UPAGES + 1) * PGSIZE :=
  Nat.le_trans h (by decide)

theorem post_deallocuvm_clears {oldsz newsz : Nat} (hold : oldsz ≤ (UPAGES + 1) * PGSIZE) :
    (deallocuvm S d oldsz newsz).post (fun r _ => r = (d, oldsz) ∧ oldsz ≤ newsz ∨
      newsz < oldsz ∧ r.2 = newsz ∧ Clears d (pages newsz) (pages oldsz) r.1) m := by
  unfold deallocuvm
  split_ifs with hle
  · exact .inl ⟨rfl, hle⟩
  · have hround : PGROUNDUP newsz / PGSIZE = pages newsz := by
      have hsize : PGSIZE = 4096 := rfl
      have hup : UPAGES = 2 ^ 19 := rfl
      rw [hsize, hup] at hold
      rw [PGROUNDUP, pages, hsize]
      omega
    rw [hround]
    apply Prog.wp_seq (post_clearRange_clears (by omega))
    intro d' _ hd'
    exact .inr ⟨by omega, rfl, hd'⟩

/-- The `n` pages from `a` on have been mapped in `d`, and nothing else has changed. -/
structure Grows (d : PageDir) (a n : Nat) (d' : PageDir) : Prop where
  filled : ∀ v, a ≤ v → v < a + n → d'.lookup v ≠ none
  rest : ∀ v, v < a ∨ a + n ≤ v → d'.lookup v = d.lookup v
  table : ∀ i, d'.table i = none ↔ d.table i = none ∧ ∀ v, a ≤ v → v < a + n → i ≠ v / NPTENTRIES

theorem Grows.zero (d : PageDir) (a : Nat) : Grows d a 0 d :=
  ⟨fun v _ _ => by omega, fun _ _ => rfl, fun _ => ⟨fun h => ⟨h, fun v _ _ => by omega⟩, And.left⟩⟩

theorem Grows.cons {d₁ : PageDir} (h₁ : Grows d a 1 d₁) (h : Grows d₁ (a + 1) n d') :
    Grows d a (n + 1) d' := by
  constructor
  · intro v hle hlt
    by_cases hv : v = a
    · rw [h.rest v (by omega)]
      exact h₁.filled v (by omega) (by omega)
    · exact h.filled v (by omega) (by omega)
  · intro v hv
    rw [h.rest v (by omega), h₁.rest v (by omega)]
  · intro i
    rw [h.table, h₁.table]
    constructor
    · rintro ⟨⟨hnone, hfirst⟩, hrest⟩
      refine ⟨hnone, fun v hle hlt => ?_⟩
      by_cases hv : v = a
      · exact hfirst v (by omega) (by omega)
      · exact hrest v (by omega) (by omega)
    · rintro ⟨hnone, hall⟩
      exact ⟨⟨hnone, fun v hle hlt => hall v (by omega) (by omega)⟩,
        fun v hle hlt => hall v (by omega) (by omega)⟩

theorem PageDir.Filled.grow (h : d.Filled a) (hgrow : Grows d a n d') : d'.Filled (a + n) := by
  intro v hv
  by_cases hva : v < a
  · rw [hgrow.rest v (.inl hva)]
    exact h v hva
  · exact hgrow.filled v (by omega) hv

theorem grows_setPte {v : Nat} (ht : d.table (v / NPTENTRIES) ≠ none) (pte : Pte) :
    Grows d v 1 (d.setPte v (some pte)) := by
  constructor
  · intro w hle hlt
    obtain rfl : w = v := by omega
    rw [PageDir.lookup_setPte_self ht]
    simp
  · intro w hw
    exact PageDir.lookup_setPte_of_ne (by omega) _
  · intro i
    rw [PageDir.table_setPte_eq_none]
    refine ⟨fun h => ⟨h, fun w hle hlt => ?_⟩, And.left⟩
    rintro rfl
    obtain rfl : w = v := by omega
    exact ht h

theorem grows_setTable {v : Nat} {g : Frame} (ht : d.table (v / NPTENTRIES) = none) (pte : Pte) :
    Grows d v 1 ((d.setTable (v / NPTENTRIES) ⟨g, fun _ => none⟩).setPte v (some pte)) := by
  have hset : (d.setTable (v / NPTENTRIES) ⟨g, fun _ => none⟩).table (v / NPTENTRIES) ≠ none := by
    simp [PageDir.setTable]
  have hgrow := grows_setPte hset pte
  constructor
  · exact hgrow.filled
  · intro w hw
    rw [hgrow.rest w hw, PageDir.lookup_setTable_empty ht]
  · intro i
    rw [hgrow.table]
    by_cases hi : i = v / NPTENTRIES
    · have hne : ¬ ∀ w, v ≤ w → w < v + 1 → i ≠ w / NPTENTRIES :=
        fun h => h v (by omega) (by omega) hi
      exact iff_of_false (fun h => hne h.2) fun h => hne h.2
    · simp [PageDir.setTable, hi]

theorem post_mappages_grows {v : Nat} {g : Frame} {w u : Bool} (hv : v < 2 ^ 20) :
    (mappages d (v * PGSIZE) PGSIZE g w u).post (fun r m' =>
      r.2 = true ∧ d.lookup v = none ∧ Grows d v 1 r.1 ∧
        m'.free.length + (if (d.table (v / NPTENTRIES)).isNone then 1 else 0) = m.free.length ∨
      r = (d, false) ∧ m' = m ∧ d.table (v / NPTENTRIES) = none ∧ m.free = []) m := by
  apply wp_mappages hv trivial (fun _ => trivial)
  · intro ht hlook
    refine .inl ⟨rfl, hlook, grows_setPte ht _, ?_⟩
    simp [ht]
  · intro hnone hfree
    exact .inr ⟨rfl, rfl, hnone, hfree⟩
  · intro t ts hnone hfree
    refine .inl ⟨rfl, PageDir.lookup_of_table_none hnone, grows_setTable hnone _, ?_⟩
    simp [hnone, hfree]

theorem framesNeeded_succ : framesNeeded (n + 1) d a =
    1 + (if (d.table (a / NPTENTRIES)).isNone then 1 else 0) +
      framesNeeded n (if (d.table (a / NPTENTRIES)).isNone then
        d.setTable (a / NPTENTRIES) ⟨0, fun _ => none⟩ else d) (a + 1) := by
  rw [framesNeeded]
  split_ifs <;> simp

theorem framesNeeded_of_grows {d₁ : PageDir} (h : Grows d a 1 d₁) : framesNeeded (n + 1) d a =
    1 + (if (d.table (a / NPTENTRIES)).isNone then 1 else 0) + framesNeeded n d₁ (a + 1) := by
  have htable : ∀ i, d₁.table i = none ↔ d.table i = none ∧ i ≠ a / NPTENTRIES := by
    intro i
    rw [h.table]
    apply and_congr_right
    intro _
    constructor
    · intro hall
      exact hall a (by omega) (by omega)
    · intro hi v hle hlt
      obtain rfl : v = a := by omega
      exact hi
  rw [framesNeeded_succ]
  congr 1
  apply framesNeeded_congr
  intro i
  rw [htable]
  by_cases hnone : d.table (a / NPTENTRIES) = none
  · by_cases hi : i = a / NPTENTRIES
    · simp [hnone, hi, PageDir.setTable]
    · simp [hnone, hi, PageDir.setTable]
  · have hsome : (d.table (a / NPTENTRIES)).isNone = false := by
      rw [Option.isNone_eq_false_iff, Option.isSome_iff_ne_none]
      exact hnone
    simp only [hsome, Bool.false_eq_true, if_false]
    constructor
    · intro hi
      refine ⟨hi, ?_⟩
      rintro rfl
      exact hnone hi
    · exact And.left

/-- `d'` is `d` with page tables for the `n` pages from `a` on, which may be present. -/
structure Extends (d : PageDir) (a n : Nat) (d' : PageDir) : Prop where
  rest : ∀ v, v < a ∨ a + n ≤ v → d'.lookup v = d.lookup v
  table : ∀ v, a ≤ v → v < a + n → d'.table (v / NPTENTRIES) ≠ none
  keep : ∀ i, d.table i ≠ none → d'.table i ≠ none

theorem Extends.refl (d : PageDir) (a : Nat) : Extends d a 0 d :=
  ⟨fun _ _ => rfl, fun v _ _ => by omega, fun _ h => h⟩

theorem Grows.extends_cons {d₁ : PageDir} (h₁ : Grows d a 1 d₁) (h : Extends d₁ (a + 1) n d') :
    Extends d a (n + 1) d' := by
  constructor
  · intro v hv
    rw [h.rest v (by omega), h₁.rest v (by omega)]
  · intro v hle hlt
    by_cases hva : v = a
    · apply h.keep
      rw [ne_eq, h₁.table]
      rintro ⟨_, hno⟩
      exact hno a (Nat.le_refl a) (by omega) (by rw [hva])
    · exact h.table v (by omega) (by omega)
  · intro i hi
    apply h.keep
    rw [ne_eq, h₁.table]
    exact fun hnone => hi hnone.1

/-- The loop of `allocuvm` reaches some page.  If memory is not one page short, it maps all pages
or fails. -/
theorem post_allocLoop_grows (ha : a + n ≤ 2 ^ 20) :
    (allocLoop n d a).post (fun r m' => (∃ b, b ≤ n ∧ Extends d a b r.1) ∧
      (m.free.length + 1 ≠ framesNeeded n d a → r.2 = true →
        Grows d a n r.1 ∧ m'.free.length + framesNeeded n d a = m.free.length)) m := by
  induction n generalizing d a m with
  | zero => exact ⟨⟨0, Nat.le_refl 0, .refl d a⟩, fun _ _ => ⟨Grows.zero d a, rfl⟩⟩
  | succ n ih =>
    rw [allocLoop]
    apply Prog.wp_bind
    apply wp_kalloc trivial
    · intro _
      exact ⟨⟨0, Nat.zero_le _, .refl d a⟩, fun _ h => by simp at h⟩
    · intro g gs hfree
      have hlen : m.free.length = gs.length + 1 := by rw [hfree, List.length_cons]
      apply Prog.wp_seq (post_mappages_grows (by omega))
      rintro ⟨d₁, ok⟩ m₁ (⟨_, _, hgrow, hm₁⟩ | ⟨heq, rfl, hnone, hnil⟩)
      · have hneed := framesNeeded_of_grows (n := n) hgrow
        simp only at hgrow hneed hm₁
        refine Prog.wp_imp (ih (by omega)) ?_
        rintro r m₂ ⟨⟨b, hb, hext⟩, hok⟩
        refine ⟨⟨b + 1, by omega, hgrow.extends_cons hext⟩, fun hshort hr => ?_⟩
        obtain ⟨hrest, hm₂⟩ := hok (by omega) hr
        exact ⟨hgrow.cons hrest, by omega⟩
      · obtain ⟨rfl, rfl⟩ : d₁ = d ∧ ok = false := by simpa using heq
        simp only at hnil
        cases n with
        | zero =>
          -- the last page: memory is one page short
          refine ⟨⟨0, Nat.zero_le _, .refl d₁ a⟩, fun hshort => ?_⟩
          have htwo : framesNeeded 1 d₁ a = 2 := by simp [framesNeeded, hnone]
          rw [htwo, hlen, hnil] at hshort
          simp at hshort
        | succ n =>
          -- the next page cannot be allocated
          simp only
          rw [allocLoop]
          apply Prog.wp_bind
          apply wp_kalloc trivial
          · intro _
            exact ⟨⟨0, Nat.zero_le _, .refl d₁ a⟩, fun _ h => by simp at h⟩
          · intro g' gs' hfree'
            simp [hnil] at hfree'

theorem post_allocuvm_grows {oldsz newsz : Nat}
    (hshort : newsz < KERNBASE → oldsz ≤ newsz →
      m.free.length + 1 ≠ framesNeeded (pages newsz - pages oldsz) d (pages oldsz)) :
    (allocuvm S d oldsz newsz).post (fun r m' =>
      r.2 = 0 ∧ (∀ v, v < pages oldsz → r.1.lookup v = d.lookup v) ∨
      r = (d, oldsz) ∧ m' = m ∨
      r.2 = newsz ∧ newsz < KERNBASE ∧ oldsz ≤ newsz ∧
        Grows d (pages oldsz) (pages newsz - pages oldsz) r.1 ∧
        m'.free.length + framesNeeded (pages newsz - pages oldsz) d (pages oldsz) =
          m.free.length) m := by
  unfold allocuvm
  split_ifs with hbig hless
  · exact .inl ⟨rfl, fun _ _ => rfl⟩
  · exact .inr (.inl ⟨rfl, rfl⟩)
  · have hpages : pages newsz ≤ UPAGES := by
      rw [← pages_kernbase]
      exact pages_mono (by omega)
    have hround := PGROUNDUP_div (a := oldsz) (by omega)
    have hmono : pages oldsz ≤ pages newsz := pages_mono (by omega)
    have hup : UPAGES = 2 ^ 19 := rfl
    simp only [hround]
    apply Prog.wp_seq (post_allocLoop_grows (by omega))
    rintro ⟨d₁, ok⟩ m₁ ⟨⟨b, _, hext⟩, hok⟩
    cases ok with
    | true =>
      obtain ⟨hgrow, hlen⟩ := hok (hshort (by omega) (by omega)) rfl
      exact .inr (.inr ⟨rfl, by omega, by omega, hgrow, hlen⟩)
    | false =>
      apply Prog.wp_seq (post_deallocuvm_clears (sane_of_le (by omega)))
      rintro ⟨d₂, sz₂⟩ m₂ h₂
      refine .inl ⟨rfl, fun v hv => ?_⟩
      rw [← hext.rest v (.inl hv)]
      rcases h₂ with ⟨heq, _⟩ | ⟨_, _, hclear⟩
      · obtain ⟨rfl, _⟩ : d₂ = d₁ ∧ sz₂ = newsz := by simpa using heq
        rfl
      · exact hclear.rest v (.inl hv)

theorem copyLoop_hole {pgdir : PageDir} (h : pgdir.lookup a = none) :
    ∃ msg, copyLoop S pgdir (n + 1) d a = Prog.panic () msg := by
  rw [copyLoop]
  cases ht : pgdir.table (a / NPTENTRIES) with
  | none => exact ⟨_, rfl⟩
  | some t =>
    have hpte : t.pte (a % NPTENTRIES) = none := by simpa [PageDir.lookup, ht] using h
    refine ⟨"copyuvm: page not present", ?_⟩
    simp only [hpte]

theorem post_copyLoop_grows {pgdir : PageDir} (ha : a + n ≤ 2 ^ 20) :
    (copyLoop S pgdir n d a).post (fun r _ => r.2 = true → Grows d a n r.1) m := by
  induction n generalizing d a m with
  | zero => exact fun _ => Grows.zero d a
  | succ n ih =>
    cases hlook : pgdir.lookup a with
    | none =>
      obtain ⟨msg, hpanic⟩ := copyLoop_hole (S := S) (d := d) (n := n) hlook
      rw [hpanic]
      exact wp_panic trivial trivial
    | some pte =>
      rw [copyLoop_succ hlook]
      apply Prog.wp_seq Prog.post_trivial
      intro mem m₁ _
      cases mem with
      | none => exact fun h => by simp at h
      | some g =>
        apply Prog.wp_seq (post_mappages_grows (by omega))
        rintro ⟨d₁, ok⟩ m₂ h₂
        cases ok with
        | false => exact fun h => by simp at h
        | true =>
          have hgrow : Grows d a 1 d₁ := by
            rcases h₂ with ⟨_, _, hgrow, _⟩ | ⟨heq, _⟩
            · exact hgrow
            · simp at heq
          refine Prog.wp_imp (ih (by omega)) ?_
          intro r _ hr hok
          exact hgrow.cons (hr hok)

theorem post_copyuvm_filled {pgdir : PageDir} {sz : Nat} (hsz : sz < (UPAGES + 1) * PGSIZE) :
    (copyuvm S pgdir sz).post (fun r _ => ∀ d, r = some d → d.Filled (pages sz)) m := by
  have hpages := pages_le hsz.le
  have hup : UPAGES = 2 ^ 19 := rfl
  apply Prog.wp_seq Prog.post_trivial
  intro r m₁ _
  cases r with
  | none => exact fun d h => by simp at h
  | some d =>
    apply Prog.wp_seq (post_copyLoop_grows (by omega))
    rintro ⟨d₁, ok⟩ m₂ hok
    cases ok with
    | true =>
      intro d' hd'
      obtain rfl : d₁ = d' := Option.some.inj hd'
      have hgrow := hok rfl
      intro v hv
      exact hgrow.filled v (Nat.zero_le v) (by omega)
    | false =>
      apply Prog.wp_seq Prog.post_trivial
      intro _ _ _ d' hd'
      simp at hd'

/-! ## exec -/

def ProgHdr.top (ph : ProgHdr) : Nat := (ph.vaddr + ph.memsz) % 2 ^ 32

/-- An address space that `exec` has built up to `sz`: the pages and page tables up to
there, and no others, out of `L` pages. -/
structure Built (L : Nat) (d : PageDir) (sz : Nat) (m : Mem) : Prop where
  filled : d.Filled (pages sz)
  table : ∀ i, i < UPAGES / NPTENTRIES → (d.table i = none ↔ tables (pages sz) ≤ i)
  left : m.free.length + (pages sz + tables (pages sz)) = L

theorem tables_le_div_iff : tables a ≤ a / NPTENTRIES ↔ a % NPTENTRIES = 0 := by
  have hnp : NPTENTRIES = 1024 := rfl
  rw [tables, hnp]
  omega

theorem tables_succ : tables (a + 1) = tables a + if a % NPTENTRIES = 0 then 1 else 0 := by
  have hnp : NPTENTRIES = 1024 := rfl
  rw [tables, tables, hnp]
  split_ifs <;> omega

theorem framesNeeded_built (h : ∀ i, i < UPAGES / NPTENTRIES → (d.table i = none ↔ tables a ≤ i))
    (ha : a + n ≤ UPAGES) : framesNeeded n d a + tables a = n + tables (a + n) := by
  induction n generalizing d a with
  | zero => simp [framesNeeded]
  | succ n ih =>
    have hup : UPAGES = 512 * 1024 := rfl
    have hnp : NPTENTRIES = 1024 := rfl
    have hlt : a / NPTENTRIES < UPAGES / NPTENTRIES := by
      rw [hnp, hup]
      rw [hup] at ha
      omega
    have hfirst := h _ hlt
    have hsucc := tables_succ (a := a)
    have hsum : a + (n + 1) = a + 1 + n := by omega
    rw [tables_le_div_iff] at hfirst
    rw [framesNeeded_succ, hsum]
    by_cases hzero : a % NPTENTRIES = 0
    · have hnone := hfirst.2 hzero
      rw [if_pos hzero] at hsucc
      have hrest := ih (d := d.setTable (a / NPTENTRIES) ⟨0, fun _ => none⟩) (a := a + 1) ?_
        (by omega)
      · simp only [hnone, Option.isNone_none, if_true]
        omega
      · intro i hi
        have hdiv : tables a = a / NPTENTRIES := by
          rw [tables, hnp]
          rw [hnp] at hzero
          omega
        by_cases hia : i = a / NPTENTRIES
        · simp [PageDir.setTable, hia, hsucc, hdiv]
        · have hiff := h i hi
          simp only [PageDir.setTable, Function.update_of_ne hia, hiff]
          omega
    · have hnone : (d.table (a / NPTENTRIES)).isNone = false := by
        rw [Option.isNone_eq_false_iff, Option.isSome_iff_ne_none]
        exact fun hnone => hzero (hfirst.1 hnone)
      rw [if_neg hzero] at hsucc
      have hrest := ih (d := d) (a := a + 1) (by simpa only [hsucc, Nat.add_zero] using h) (by omega)
      simp only [hnone, Bool.false_eq_true, if_false]
      omega

theorem Grows.tables (hgrow : Grows d a n d')
    (h : ∀ i, i < UPAGES / NPTENTRIES → (d.table i = none ↔ Vm.tables a ≤ i)) :
    ∀ i, i < UPAGES / NPTENTRIES → (d'.table i = none ↔ Vm.tables (a + n) ≤ i) := by
  intro i hi
  have hnp : NPTENTRIES = 1024 := rfl
  rw [hgrow.table, h i hi]
  simp only [Vm.tables, hnp]
  constructor
  · rintro ⟨hle, hall⟩
    by_contra hlt
    exact hall (i * 1024) (by omega) (by omega) (by omega)
  · intro hle
    exact ⟨by omega, fun v _ _ => by omega⟩

theorem post_allocuvm_built {L sz newsz : Nat} (h : Built L d sz m)
    (hshort : L + 1 ≠ pages newsz + tables (pages newsz)) :
    (allocuvm S d sz newsz).post (fun r m' => r.2 ≠ 0 →
      Built L r.1 r.2 m' ∧ (r.2 = sz ∨ r.2 = newsz ∧ newsz < KERNBASE)) m := by
  have hneed : newsz < KERNBASE → sz ≤ newsz →
      framesNeeded (pages newsz - pages sz) d (pages sz) + tables (pages sz) =
        pages newsz - pages sz + tables (pages newsz) := by
    intro hbase hle
    have hmono : pages sz ≤ pages newsz := pages_mono hle
    have hpages : pages newsz ≤ UPAGES := by
      rw [← pages_kernbase]
      exact pages_mono hbase.le
    have hsum : pages sz + (pages newsz - pages sz) = pages newsz := by omega
    have hbuilt := framesNeeded_built (n := pages newsz - pages sz) h.table (by omega)
    rwa [hsum] at hbuilt
  have hleft := h.left
  refine Prog.wp_imp (post_allocuvm_grows ?_) ?_
  · intro hbase hle
    have hneeded := hneed hbase hle
    have hmono : pages sz ≤ pages newsz := pages_mono hle
    omega
  · rintro ⟨d₁, sz₁⟩ m₁ (⟨hzero, _⟩ | ⟨heq, rfl⟩ | ⟨hsz, hbase, hle, hgrow, hlen⟩) hne
    · exact absurd hzero hne
    · obtain ⟨rfl, rfl⟩ : d₁ = d ∧ sz₁ = sz := by simpa using heq
      exact ⟨h, .inl rfl⟩
    · simp only at hsz hgrow
      subst hsz
      have hmono : pages sz ≤ pages sz₁ := pages_mono hle
      have hneeded := hneed hbase hle
      have hsum : pages sz + (pages sz₁ - pages sz) = pages sz₁ := by omega
      refine ⟨⟨?_, ?_, by simp only; omega⟩, .inr ⟨rfl, hbase⟩⟩
      · have hfilled := h.filled.grow hgrow
        rwa [hsum] at hfilled
      · have htables := hgrow.tables h.table
        rwa [hsum] at htables

theorem post_loadSegments_built {L sz : Nat} {phs : List ProgHdr} (h : Built L d sz m)
    (hshort : ∀ ph ∈ phs, L + 1 ≠ pages ph.top + tables (pages ph.top)) :
    (loadSegments S phs d sz).post (fun r m' => ∀ sz', r.2 = some sz' →
      Built L r.1 sz' m' ∧ (sz' = sz ∨ ∃ ph ∈ phs, sz' = ph.top ∧ sz' < KERNBASE)) m := by
  induction phs generalizing d sz m with
  | nil =>
    intro sz' hsz'
    obtain rfl : sz = sz' := Option.some.inj hsz'
    exact ⟨h, .inl rfl⟩
  | cons ph phs ih =>
    have hrest : ∀ ph' ∈ phs, L + 1 ≠ pages ph'.top + tables (pages ph'.top) :=
      fun ph' hmem => hshort ph' (List.mem_cons_of_mem ph hmem)
    rw [loadSegments]
    split_ifs
    · exact fun sz' hsz' => by simp at hsz'
    · refine Prog.wp_imp (ih h hrest) ?_
      intro r m' hr sz' hsz'
      obtain ⟨hbuilt, hcase⟩ := hr sz' hsz'
      refine ⟨hbuilt, hcase.imp_right ?_⟩
      rintro ⟨ph', hmem, hph'⟩
      exact ⟨ph', List.mem_cons_of_mem ph hmem, hph'⟩
    · exact fun sz' hsz' => by simp at hsz'
    · apply Prog.wp_seq (post_allocuvm_built h (hshort ph List.mem_cons_self))
      rintro ⟨d₁, sz₁⟩ m₁ h₁
      simp only at h₁ ⊢
      split_ifs with hzero
      · exact fun sz' hsz' => by simp at hsz'
      · obtain ⟨hbuilt₁, hcase₁⟩ := h₁ hzero
        apply Prog.wp_bind
        apply wp_loaduvm trivial (fun _ => trivial)
        intro loaded
        cases loaded with
        | false => exact fun sz' hsz' => by simp at hsz'
        | true =>
          refine Prog.wp_imp (ih hbuilt₁ hrest) ?_
          intro r m₂ hr sz' hsz'
          obtain ⟨hbuilt, hcase⟩ := hr sz' hsz'
          refine ⟨hbuilt, ?_⟩
          rcases hcase with rfl | ⟨ph', hmem, hph'⟩
          · refine hcase₁.imp_right fun htop => ?_
            exact ⟨ph, List.mem_cons_self, htop.1, htop.1 ▸ htop.2⟩
          · exact .inr ⟨ph', List.mem_cons_of_mem ph hmem, hph'⟩

def SpaceFilled (r : Option (PageDir × Nat)) : Prop :=
  ∀ d sz, r = some (d, sz) → d.Filled (pages sz)

theorem post_execBad_filled : (execBad S d).post (fun r _ => SpaceFilled r) m := by
  apply Prog.wp_seq Prog.post_trivial
  intro _ _ _ d sz h
  simp at h

theorem filled_clearpteu {v : Nat} (h : d.Filled n) :
    (d.setPte v ((d.lookup v).map fun pte => { pte with u := false })).Filled n := by
  intro w hw
  by_cases hwv : w = v
  · subst hwv
    obtain ⟨pte, hpte⟩ := Option.ne_none_iff_exists'.1 (h w hw)
    rw [PageDir.lookup_setPte_self (PageDir.table_ne_none_of_lookup hpte), hpte]
    simp
  · rw [PageDir.lookup_setPte_of_ne hwv]
    exact h w hw

theorem post_execStack_filled {L sz top : Nat} {fits : Bool} (h : Built L d sz m)
    (hshort : L + 1 ≠ pages top + tables (pages top)) :
    (execStack S fits d sz top).post (fun r _ => SpaceFilled r) m := by
  apply Prog.wp_seq (post_allocuvm_built h hshort)
  rintro ⟨d₁, sz₁⟩ m₁ h₁
  simp only at h₁ ⊢
  by_cases hzero : sz₁ = 0
  · rw [if_pos hzero]
    exact post_execBad_filled
  · rw [if_neg hzero]
    have hfilled := filled_clearpteu (v := (sz₁ - 2 * PGSIZE) / PGSIZE) (h₁ hzero).1.filled
    apply Prog.wp_bind
    apply wp_clearpteu trivial trivial
    generalize d₁.setPte _ _ = d₂ at hfilled ⊢
    cases fits with
    | false =>
      simp only [Bool.false_eq_true, if_false]
      exact post_execBad_filled
    | true =>
      intro d sz heq
      obtain ⟨rfl, rfl⟩ : d₂ = d ∧ sz₁ = sz := by simpa using heq
      exact hfilled

theorem post_kmapTables_length {data : Frame} {is : List Nat} :
    (kmapTables data is d).post (fun r m' => r ≠ none →
      m'.free.length + is.length = m.free.length) m := by
  induction is generalizing d m with
  | nil => exact fun _ => rfl
  | cons i is ih =>
    rw [kmapTables]
    apply Prog.wp_bind
    apply wp_kalloc trivial
    · intro _ h
      exact absurd rfl h
    · intro g gs hfree
      refine Prog.wp_imp ih ?_
      intro r m' hr hne
      have hlen := hr hne
      simp only at hlen
      rw [hfree, List.length_cons, List.length_cons]
      omega

def spaceFrames (n : Nat) : Nat := 1 + kernelTables.length + (n + tables n)

theorem spaceFrames_zero : spaceFrames 0 = 1 + kernelTables.length := by
  simp [spaceFrames, tables, NPTENTRIES]

theorem post_setupkvm_length :
    setupkvm.post (fun r m' => r ≠ none → m'.free.length + spaceFrames 0 = m.free.length) m := by
  apply Prog.wp_bind
  apply wp_kalloc trivial
  · intro _ h
    exact absurd rfl h
  · intro g gs hfree
    apply Prog.wp_bind
    refine Prog.wp_atomic trivial ?_ (by simp)
    intro data t ht
    obtain ⟨_, rfl⟩ : m.data = data ∧ { m with free := gs } = t := by simpa using ht
    refine Prog.wp_imp post_kmapTables_length ?_
    intro r m' hr hne
    have hlen := hr hne
    simp only at hlen
    rw [spaceFrames_zero, hfree, List.length_cons]
    omega

theorem Fresh.built (h : Fresh d) : Built m.free.length d 0 m := by
  have hzero : pages 0 = 0 := by decide
  have htables : tables 0 = 0 := by decide
  refine ⟨?_, fun i hi => ?_, ?_⟩
  · intro v hv
    omega
  · simp [h.user i hi, hzero, htables]
  · simp [hzero, htables]

theorem pages_PGROUNDUP {sz : Nat} (h : sz < KERNBASE) : pages (PGROUNDUP sz) = pages sz := by
  have hsize : PGSIZE = 4096 := rfl
  have hbase : KERNBASE = 2 ^ 31 := rfl
  rw [pages, pages, PGROUNDUP, hsize]
  omega

theorem pages_stack {sz : Nat} (h : sz < KERNBASE) :
    pages ((PGROUNDUP sz + 2 * PGSIZE) % 2 ^ 32) = pages sz + 2 := by
  have hsize : PGSIZE = 4096 := rfl
  have hbase : KERNBASE = 2 ^ 31 := rfl
  rw [pages, pages, PGROUNDUP, hsize]
  omega

/-- The sizes, in pages, up to which `exec` allocates at a time: the end of each
segment, and the stack above it. -/
def execSizes (img : Image) : List Nat :=
  2 :: img.headers.flatMap fun ph => [pages ph.top, pages ph.top + 2]

def ExecOk (img : Image) (m : Mem) : Prop :=
  ∀ n ∈ execSizes img, m.free.length + 1 ≠ spaceFrames n

theorem post_execSpace_filled {img : Image} (hok : ExecOk img m) :
    (execSpace S img).post (fun r _ => SpaceFilled r) m := by
  unfold execSpace
  split
  · intro d sz h
    simp at h
  · apply Prog.wp_seq (Prog.post_and (post_setupkvm (S := S) (f := 0)) post_setupkvm_length)
    rintro r m₁ ⟨⟨_, hsome⟩, hlen⟩
    cases r with
    | none =>
      intro d sz h
      simp at h
    | some d =>
      have hbuilt := (hsome d rfl).2.built (m := m₁)
      have hleft := hlen (by simp)
      rw [spaceFrames_zero] at hleft
      have hshort : ∀ n ∈ execSizes img, m₁.free.length + 1 ≠ n + tables n := by
        intro n hn
        have hne := hok n hn
        rw [spaceFrames] at hne
        omega
      apply Prog.wp_seq (post_loadSegments_built hbuilt fun ph hph => hshort _ ?_)
      · rintro ⟨d₁, osz⟩ m₂ hsegs
        cases osz with
        | none => exact post_execBad_filled
        | some sz₁ =>
          have hbuilt₁ := (hsegs sz₁ rfl).1
          have hcase := (hsegs sz₁ rfl).2
          have hbase : sz₁ < KERNBASE := by
            rcases hcase with rfl | ⟨_, _, _, hlt⟩
            · exact zero_lt_kernbase
            · exact hlt
          have hmem : pages sz₁ + 2 ∈ execSizes img := by
            rcases hcase with rfl | ⟨ph, hph, rfl, _⟩
            · exact List.mem_cons_self
            · exact List.mem_cons_of_mem _ (List.mem_flatMap.2 ⟨ph, hph, by simp⟩)
          have htop := pages_stack hbase
          have hround : Built m₁.free.length d₁ (PGROUNDUP sz₁) m₂ := by
            have hsame := pages_PGROUNDUP hbase
            refine ⟨?_, ?_, ?_⟩
            · rw [hsame]
              exact hbuilt₁.filled
            · rw [hsame]
              exact hbuilt₁.table
            · rw [hsame]
              exact hbuilt₁.left
          simp only
          generalize (PGROUNDUP sz₁ + 2 * PGSIZE) % 2 ^ 32 = top at htop
          apply post_execStack_filled hround
          rw [htop]
          exact hshort _ hmem
      · exact List.mem_cons_of_mem _ (List.mem_flatMap.2 ⟨ph, hph, by simp⟩)

end Space

end Xv6.Vm
