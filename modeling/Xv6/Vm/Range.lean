import Xv6.Vm.Account

/-!
# What `deallocuvm` frees

Where a page table is missing the loop goes on one table's size further.  From the start of a
table that is the start of the next one; from a page in its middle it is a page in the middle of
the next one, and the pages before that are left out.
-/

namespace Xv6.Vm

open Xv6.Lib

/-- A loop from page `a` on that steps over missing page tables comes to page `v`. -/
def PageDir.Reaches (d : PageDir) (a v : Nat) : Prop :=
  a ≤ v ∧ (a % NPTENTRIES ≤ v % NPTENTRIES ∨
    ∃ i, a / NPTENTRIES ≤ i ∧ i < v / NPTENTRIES ∧ d.table i ≠ none)

section Reaches

variable {d d' : PageDir} {a v : Nat}

theorem PageDir.Reaches.congr (h : ∀ i, d'.table i = none ↔ d.table i = none) :
    d'.Reaches a v ↔ d.Reaches a v := by
  simp only [Reaches, ne_eq, h]

theorem PageDir.reaches_skip (ha : d.table (a / NPTENTRIES) = none)
    (hv : d.table (v / NPTENTRIES) ≠ none) :
    d.Reaches a v ↔ d.Reaches (a + NPTENTRIES) v := by
  have hne : v / NPTENTRIES ≠ a / NPTENTRIES := fun heq => hv (by rw [heq, ha])
  have hdiv : (a + NPTENTRIES) / NPTENTRIES = a / NPTENTRIES + 1 :=
    Nat.add_div_right a (by decide)
  have hmod : (a + NPTENTRIES) % NPTENTRIES = a % NPTENTRIES := Nat.add_mod_right a NPTENTRIES
  unfold Reaches
  rw [hdiv, hmod]
  have hnp : NPTENTRIES = 1024 := rfl
  rw [hnp] at hne ⊢
  constructor
  · rintro ⟨hle, hlow | ⟨i, hfrom, hto, hi⟩⟩
    · exact ⟨by omega, .inl hlow⟩
    · have hia : i ≠ a / 1024 := fun heq => hi (by rw [heq]; exact ha)
      exact ⟨by omega, .inr ⟨i, by omega, hto, hi⟩⟩
  · rintro ⟨hle, hlow | ⟨i, hfrom, hto, hi⟩⟩
    · exact ⟨by omega, .inl hlow⟩
    · exact ⟨by omega, .inr ⟨i, by omega, hto, hi⟩⟩

theorem PageDir.reaches_step (ha : d.table (a / NPTENTRIES) ≠ none) :
    d.Reaches a v ↔ v = a ∨ d.Reaches (a + 1) v := by
  have hnp : NPTENTRIES = 1024 := rfl
  unfold Reaches
  rw [hnp] at ha ⊢
  constructor
  · rintro ⟨hle, hway⟩
    by_cases hva : v = a
    · exact .inl hva
    refine .inr ⟨by omega, ?_⟩
    by_cases hsame : v / 1024 = a / 1024
    · exact .inl (by omega)
    by_cases hend : (a + 1) % 1024 = 0
    · exact .inl (by omega)
    · exact .inr ⟨a / 1024, by omega, by omega, ha⟩
  · rintro (rfl | ⟨hle, hway⟩)
    · exact ⟨le_refl v, .inl (le_refl _)⟩
    refine ⟨by omega, ?_⟩
    by_cases hsame : v / 1024 = a / 1024
    · exact .inl (by omega)
    · exact .inr ⟨a / 1024, le_refl _, by omega, ha⟩

end Reaches

def Freeable (keep : Frame → Bool) (d : PageDir) (a top : Nat) (m : Mem) : Prop :=
  ∀ v pte, v < top → d.Reaches a v → d.lookup v = some pte →
    pte.frame ≠ 0 ∧ (keep pte.frame = false → m.isRam pte.frame = true)

/-- The entries that the loop comes to are cleared, and the pages that are not to be kept are
given back. -/
structure Swept (keep : Frame → Bool) (d : PageDir) (a top : Nat) (m : Mem) (d' : PageDir)
    (m' : Mem) : Prop where
  cleared : ∀ v, v < top → d.Reaches a v → d'.lookup v = none
  rest : ∀ v, ¬ (v < top ∧ d.Reaches a v) → d'.lookup v = d.lookup v
  tables : d'.tableFrame = d.tableFrame
  freed : ∃ vs : List Nat, vs.Nodup ∧
    (∀ v, v ∈ vs ↔ v < top ∧ d.Reaches a v ∧ ∃ f, d.userFrame v = some f ∧ keep f = false) ∧
    m' = { m with free := vs.map (fun v => (d.userFrame v).getD 0) ++ m.free }

section Loop

variable {keep : Frame → Bool} {d d' : PageDir} {a b top : Nat} {m m' : Mem}

theorem swept_done (hle : top ≤ a) : Freeable keep d a top m ∧ Swept keep d a top m d m := by
  have hnot : ∀ v, v < top → ¬ d.Reaches a v := fun v hv h => by have := h.1; omega
  refine ⟨fun v _ hv h => absurd h (hnot v hv), fun v hv h => absurd h (hnot v hv),
    fun _ _ => rfl, rfl, [], List.nodup_nil, fun v => ?_, rfl⟩
  simp only [List.not_mem_nil, false_iff]
  exact fun h => hnot v h.1 h.2.1

theorem freeable_skip (hstep : ∀ v, d.lookup v ≠ none → (d.Reaches a v ↔ d.Reaches b v)) :
    Freeable keep d b top m ↔ Freeable keep d a top m := by
  refine forall_congr' fun v => forall_congr' fun pte => forall_congr' fun _ => ?_
  constructor
  · exact fun h hr hpte => h ((hstep v (by simp [hpte])).1 hr) hpte
  · exact fun h hr hpte => h ((hstep v (by simp [hpte])).2 hr) hpte

theorem Swept.skip (hstep : ∀ v, d.lookup v ≠ none → (d.Reaches a v ↔ d.Reaches b v))
    (h : Swept keep d b top m d' m') : Swept keep d a top m d' m' := by
  obtain ⟨hclear, hrest, htables, vs, hnodup, hmem, hm'⟩ := h
  have hnone : ∀ v, d.lookup v = none → d'.lookup v = none := by
    intro v hlook
    by_cases hv : v < top ∧ d.Reaches b v
    · exact hclear v hv.1 hv.2
    · rw [hrest v hv, hlook]
  refine ⟨fun v hv hr => ?_, fun v hv => ?_, htables, vs, hnodup, fun v => ?_, hm'⟩
  · by_cases hlook : d.lookup v = none
    · exact hnone v hlook
    · exact hclear v hv ((hstep v hlook).1 hr)
  · by_cases hlook : d.lookup v = none
    · rw [hnone v hlook, hlook]
    · exact hrest v (by rwa [← hstep v hlook])
  · rw [hmem]
    refine and_congr_right fun _ => and_congr_left ?_
    rintro ⟨f, hf, _⟩
    refine (hstep v fun hlook => ?_).symm
    simp [PageDir.userFrame, hlook] at hf

section Clear

variable {pte : Pte} (hpte : d.lookup a = some pte)
include hpte

omit hpte in
theorem reaches_setPte {v : Nat} : (d.setPte a none).Reaches b v ↔ d.Reaches b v :=
  PageDir.Reaches.congr fun i => PageDir.table_setPte_eq_none d a i none

omit hpte in
theorem lookup_beyond {v : Nat} (hv : d.Reaches (a + 1) v) :
    (d.setPte a none).lookup v = d.lookup v :=
  PageDir.lookup_setPte_of_ne (by have := hv.1; omega) none

theorem freeable_clear (free : List Frame) (ha : a < top) : Freeable keep d a top m ↔
    (pte.frame ≠ 0 ∧ (keep pte.frame = false → m.isRam pte.frame = true)) ∧
      Freeable keep (d.setPte a none) (a + 1) top { m with free := free } := by
  have ht := PageDir.table_ne_none_of_lookup hpte
  constructor
  · refine fun h => ⟨h a pte ha ⟨le_refl a, .inl (le_refl _)⟩ hpte, fun v pte' hv hr hpte' => ?_⟩
    have hr' := reaches_setPte.1 hr
    rw [lookup_beyond hr'] at hpte'
    exact h v pte' hv ((PageDir.reaches_step ht).2 (.inr hr')) hpte'
  · rintro ⟨hfirst, h⟩ v pte' hv hr hpte'
    rcases (PageDir.reaches_step ht).1 hr with rfl | hr'
    · obtain rfl : pte = pte' := Option.some.inj (hpte.symm.trans hpte')
      exact hfirst
    · exact h v pte' hv (reaches_setPte.2 hr') (by rw [lookup_beyond hr', hpte'])

theorem Swept.clear {free : List Frame} (ha : a < top)
    (hfree : free = if keep pte.frame = false then pte.frame :: m.free else m.free)
    (h : Swept keep (d.setPte a none) (a + 1) top { m with free := free } d' m') :
    Swept keep d a top m d' m' := by
  obtain ⟨hclear, hrest, htables, vs, hnodup, hmem, hm'⟩ := h
  have ht := PageDir.table_ne_none_of_lookup hpte
  have hframe : ∀ v, d.Reaches (a + 1) v → (d.setPte a none).userFrame v = d.userFrame v :=
    fun v hv => by rw [PageDir.userFrame, lookup_beyond hv, PageDir.userFrame]
  have hself : d.userFrame a = some pte.frame := by simp [PageDir.userFrame, hpte]
  have hnota : ¬ d.Reaches (a + 1) a := fun h => by have := h.1; omega
  simp only [reaches_setPte] at hclear hrest hmem
  replace hmem : ∀ v, v ∈ vs ↔
      v < top ∧ d.Reaches (a + 1) v ∧ ∃ f, d.userFrame v = some f ∧ keep f = false := by
    intro v
    rw [hmem]
    refine and_congr_right fun _ => and_congr_right fun hv => ?_
    rw [hframe v hv]
  have hmap : vs.map (fun v => ((d.setPte a none).userFrame v).getD 0) =
      vs.map fun v => (d.userFrame v).getD 0 :=
    List.map_congr_left fun v hv => by rw [hframe v ((hmem v).1 hv).2.1]
  rw [hmap] at hm'
  refine ⟨fun v hv hr => ?_, fun v hv => ?_,
    htables.trans (funext fun i => PageDir.table_setPte_map d a i none), ?_⟩
  · by_cases hr' : d.Reaches (a + 1) v
    · exact hclear v hv hr'
    · obtain rfl := ((PageDir.reaches_step ht).1 hr).resolve_right hr'
      rw [hrest v (fun h => hr' h.2), PageDir.lookup_setPte_self ht]
  · rw [PageDir.reaches_step ht] at hv
    rw [hrest v (fun h => hv ⟨h.1, .inr h.2⟩),
      PageDir.lookup_setPte_of_ne (fun heq => hv ⟨by omega, .inl heq⟩)]
  by_cases hkeep : keep pte.frame = false
  · rw [if_pos hkeep] at hfree
    refine ⟨vs ++ [a], ?_, fun v => ?_, by simp [hm', hfree, hself]⟩
    · rw [List.nodup_append_comm, List.singleton_append, List.nodup_cons, hmem]
      exact ⟨fun h => hnota h.2.1, hnodup⟩
    · rw [List.mem_append, List.mem_singleton, hmem, PageDir.reaches_step ht]
      constructor
      · rintro (⟨hv, hr, hf⟩ | rfl)
        · exact ⟨hv, .inr hr, hf⟩
        · exact ⟨ha, .inl rfl, _, hself, hkeep⟩
      · rintro ⟨hv, heq | hr, hf⟩
        · exact .inr heq
        · exact .inl ⟨hv, hr, hf⟩
  · rw [if_neg hkeep] at hfree
    refine ⟨vs, hnodup, fun v => ?_, by rw [hm', hfree]⟩
    rw [hmem, PageDir.reaches_step ht]
    refine and_congr_right fun _ => ⟨fun h => ⟨.inr h.1, h.2⟩, ?_⟩
    rintro ⟨rfl | hr, f, hf, hkf⟩
    · obtain rfl : pte.frame = f := Option.some.inj (hself.symm.trans hf)
      exact absurd hkf hkeep
    · exact ⟨hr, f, hf, hkf⟩

end Clear

theorem wp_clearRange_swept {msg : String} {fuel : Nat} (hfuel : top ≤ a + fuel) :
    (clearRange msg keep top fuel d a).wp (fun _ => True)
      (fun _ _ => ¬ Freeable keep d a top m)
      (fun d' m' => Freeable keep d a top m ∧ Swept keep d a top m d' m') m := by
  induction fuel generalizing d a m with
  | zero => exact swept_done (by omega)
  | succ fuel ih =>
    rw [clearRange]
    by_cases ha : a < top
    swap
    · rw [if_neg ha]
      exact swept_done (by omega)
    have hskip : ∀ b, a < b → (∀ v, d.lookup v ≠ none → (d.Reaches a v ↔ d.Reaches b v)) →
        (clearRange msg keep top fuel d b).wp (fun _ => True)
          (fun _ _ => ¬ Freeable keep d a top m)
          (fun d' m' => Freeable keep d a top m ∧ Swept keep d a top m d' m') m := by
      intro b hb hstep
      rw [← freeable_skip hstep]
      exact Prog.wp_imp (ih (by omega)) fun _ _ h => ⟨h.1, h.2.skip hstep⟩
    rw [if_pos ha]
    cases ht : d.table (a / NPTENTRIES) with
    | none =>
      apply hskip _ (Nat.lt_add_of_pos_right (by decide))
      exact fun v hv => PageDir.reaches_skip ht fun hnone =>
        hv (PageDir.lookup_of_table_none hnone)
    | some t =>
      have hsome : d.table (a / NPTENTRIES) ≠ none := by simp [ht]
      cases hpte : t.pte (a % NPTENTRIES) with
      | none =>
        simp only [hpte]
        apply hskip _ (Nat.lt_succ_self a)
        intro v hv
        rw [PageDir.reaches_step hsome, or_iff_right]
        rintro rfl
        exact hv (by simp [PageDir.lookup, ht, hpte])
      | some pte =>
        have hlook : d.lookup a = some pte := by simp [PageDir.lookup, ht, hpte]
        simp only [hpte]
        by_cases hzero : pte.frame = 0
        · rw [if_pos hzero]
          exact wp_panic trivial fun h => ((freeable_clear hlook [] ha).1 h).1.1 hzero
        rw [if_neg hzero]
        have hclear : ∀ free : List Frame,
            (free = if keep pte.frame = false then pte.frame :: m.free else m.free) →
            (keep pte.frame = false → m.isRam pte.frame = true) →
            (clearRange msg keep top fuel (d.setPte a none) (a + 1)).wp (fun _ => True)
              (fun _ _ => ¬ Freeable keep d a top m)
              (fun d' m' => Freeable keep d a top m ∧ Swept keep d a top m d' m')
              { m with free := free } := by
          intro free hfree hram
          rw [freeable_clear hlook free ha, and_iff_right ⟨hzero, hram⟩]
          exact Prog.wp_imp (ih (by omega)) fun _ _ h => ⟨h.1, h.2.clear hlook ha hfree⟩
        by_cases hkeep : keep pte.frame = false
        · simp only [hkeep, Bool.not_false, if_true]
          by_cases hram : m.isRam pte.frame = true
          · apply Prog.wp_bind
            apply Prog.wp_atomic trivial
            · intro _ m₁ hm₁
              obtain rfl : { m with free := pte.frame :: m.free } = m₁ := by
                simpa [hram] using hm₁
              exact hclear _ (by rw [if_pos hkeep]) fun _ => hram
            · intro x hx
              simp [hram] at hx
          · apply Prog.wp_bind
            apply Prog.wp_atomic trivial
            · intro _ m₁ hm₁
              simp [hram] at hm₁
            · exact fun _ _ h => hram (((freeable_clear hlook [] ha).1 h).1.2 hkeep)
        · have htrue : keep pte.frame = true := by simpa using hkeep
          simp only [htrue, Bool.not_true, Bool.false_eq_true, if_false]
          exact hclear m.free (by rw [if_neg hkeep]) fun h => absurd h hkeep

end Loop

/-! ## The whole function -/

/-- The pages from `lo` up to `hi` are gone, each page mapped there that is not shared is given
back once, and nothing else is changed. -/
structure Frees (S : Frame → Bool) (d : PageDir) (lo hi : Nat) (m : Mem) (d' : PageDir)
    (m' : Mem) : Prop where
  cleared : ∀ v, lo ≤ v → v < hi → d'.lookup v = none
  rest : ∀ v, v < lo ∨ hi ≤ v → d'.lookup v = d.lookup v
  freed : ∃ fs : List Frame, m' = { m with free := fs ++ m.free } ∧ fs.Nodup ∧
    ∀ f, f ∈ fs ↔ S f = false ∧ ∃ v, lo ≤ v ∧ v < hi ∧ d.userFrame v = some f

/-- A page in the range is behind a page table in the range, or not before the start of the
range in its page table; the pages to be given back belong to the allocator and are mapped
once. -/
structure Sweepable (S : Frame → Bool) (d : PageDir) (lo hi : Nat) (m : Mem) : Prop where
  reached : ∀ v, lo ≤ v → v < hi → d.lookup v ≠ none → lo % NPTENTRIES ≤ v % NPTENTRIES ∨
    ∃ i, lo / NPTENTRIES ≤ i ∧ i < v / NPTENTRIES ∧ d.table i ≠ none
  frames : ∀ v pte, lo ≤ v → v < hi → d.lookup v = some pte →
    pte.frame ≠ 0 ∧ (S pte.frame = false → m.isRam pte.frame = true)
  once : ∀ v w f, lo ≤ v → v < hi → lo ≤ w → w < hi → S f = false →
    d.userFrame v = some f → d.userFrame w = some f → v = w

section Whole

variable {S : Frame → Bool} {d d' : PageDir} {lo hi : Nat} {m m' : Mem}

theorem Sweepable.freeable (h : Sweepable S d lo hi m) : Freeable S d lo hi m :=
  fun v pte hv hr hpte => h.frames v pte hr.1 hv hpte

theorem Swept.frees (h : Swept S d lo hi m d' m') (hs : Sweepable S d lo hi m) :
    Frees S d lo hi m d' m' := by
  obtain ⟨hclear, hrest, htables, vs, hnodup, hmem, hm'⟩ := h
  have hreach : ∀ v f, lo ≤ v → v < hi → d.userFrame v = some f → d.Reaches lo v := by
    intro v f hle hlt hf
    refine ⟨hle, hs.reached v hle hlt fun hnone => ?_⟩
    simp [PageDir.userFrame, hnone] at hf
  refine ⟨fun v hle hlt => ?_, fun v hv => hrest v fun h => by have := h.2.1; omega,
    _, hm', ?_, fun f => ?_⟩
  · by_cases hr : d.Reaches lo v
    · exact hclear v hlt hr
    · rw [hrest v fun h => hr h.2]
      by_contra hsome
      exact hr ⟨hle, hs.reached v hle hlt hsome⟩
  · refine List.Nodup.map_on (fun v hv w hw heq => ?_) hnodup
    obtain ⟨hvlt, hvr, f, hf, hkeep⟩ := (hmem v).1 hv
    obtain ⟨hwlt, hwr, g, hg, _⟩ := (hmem w).1 hw
    rw [hf, hg] at heq
    obtain rfl : f = g := heq
    exact hs.once v w f hvr.1 hvlt hwr.1 hwlt hkeep hf hg
  · rw [List.mem_map]
    constructor
    · rintro ⟨v, hv, rfl⟩
      obtain ⟨hlt, hr, f, hf, hkeep⟩ := (hmem v).1 hv
      rw [hf]
      exact ⟨hkeep, v, hr.1, hlt, hf⟩
    · rintro ⟨hkeep, v, hle, hlt, hf⟩
      exact ⟨v, (hmem v).2 ⟨hlt, hreach v f hle hlt hf, f, hf, hkeep⟩, by rw [hf]; rfl⟩

theorem Swept.sweepable (h : Swept S d lo hi m d' m') (hgood : Freeable S d lo hi m)
    (hf : Frees S d lo hi m d' m') : Sweepable S d lo hi m := by
  obtain ⟨hclear, hrest, htables, vs, hnodup, hmem, hm'⟩ := h
  obtain ⟨fs, hfs, hdistinct, _⟩ := hf.freed
  obtain rfl : vs.map (fun v => (d.userFrame v).getD 0) = fs := by
    rw [hfs] at hm'
    simpa using hm'.symm
  have hreach : ∀ v, lo ≤ v → v < hi → d.lookup v ≠ none → d.Reaches lo v := by
    intro v hle hlt hsome
    by_contra hr
    exact hsome (by rw [← hrest v fun h => hr h.2, hf.cleared v hle hlt])
  refine ⟨fun v hle hlt hsome => (hreach v hle hlt hsome).2, fun v pte hle hlt hpte =>
    hgood v pte hlt (hreach v hle hlt (by simp [hpte])) hpte, ?_⟩
  intro v w f hv hv' hw hw' hkeep hfv hfw
  have hin : ∀ x, lo ≤ x → x < hi → d.userFrame x = some f → x ∈ vs := by
    intro x hx hx' hfx
    refine (hmem x).2 ⟨hx', hreach x hx hx' fun hnone => ?_, f, hfx, hkeep⟩
    simp [PageDir.userFrame, hnone] at hfx
  exact List.inj_on_of_nodup_map hdistinct (hin v hv hv' hfv) (hin w hw hw' hfw) (by rw [hfv, hfw])

theorem wp_deallocuvm_swept {oldsz newsz : Nat} (hlt : newsz < oldsz) (hle : oldsz ≤ KERNBASE) :
    (deallocuvm S d oldsz newsz).wp (fun _ => True)
      (fun _ _ => ¬ Freeable S d (pages newsz) (pages oldsz) m)
      (fun r m' => r.2 = newsz ∧ Freeable S d (pages newsz) (pages oldsz) m ∧
        Swept S d (pages newsz) (pages oldsz) m r.1 m') m := by
  unfold deallocuvm
  rw [if_neg (by omega), PGROUNDUP_div (by omega)]
  apply Prog.wp_seq (wp_clearRange_swept (by omega))
  exact fun _ _ h => ⟨rfl, h⟩

theorem ends_deallocuvm_frees {oldsz newsz : Nat} (hlt : newsz < oldsz) (hle : oldsz ≤ KERNBASE)
    (h : Sweepable S d (pages newsz) (pages oldsz) m) :
    (deallocuvm S d oldsz newsz).ends (fun r m' => r.2 = newsz ∧ r.1.tableFrame = d.tableFrame ∧
      Frees S d (pages newsz) (pages oldsz) m r.1 m') m :=
  Prog.wp_mono (wp_deallocuvm_swept hlt hle) (fun _ h => h) (fun _ _ hbad => hbad h.freeable)
    fun _ _ hr => ⟨hr.1, hr.2.2.tables, hr.2.2.frees h⟩

end Whole

/-- `deallocuvm` frees exactly the range if no page in it is skipped. -/
theorem deallocuvm_frees_iff (S : Frame → Bool) (d : PageDir) (m : Mem) (oldsz newsz : Nat)
    (hlt : newsz < oldsz) (hle : oldsz ≤ KERNBASE) :
    (∃ d' m', (deallocuvm S d oldsz newsz).run m = .ok ((d', newsz), m') ∧
      Frees S d (pages newsz) (pages oldsz) m d' m') ↔
      Sweepable S d (pages newsz) (pages oldsz) m := by
  constructor
  · rintro ⟨d', m', hrun, hfrees⟩
    obtain ⟨_, hgood, hswept⟩ := (Prog.wp_run (wp_deallocuvm_swept hlt hle)).1 _ _ hrun
    exact hswept.sweepable hgood hfrees
  · intro h
    obtain ⟨⟨d', sz⟩, m', hrun, rfl, _, hfrees⟩ := Prog.ends_run (ends_deallocuvm_frees hlt hle h)
    exact ⟨d', m', hrun, hfrees⟩

def lonePage : PageDir :=
  (PageDir.setTable ⟨1, fun _ => none⟩ 1 ⟨2, fun _ => none⟩).setPte 1024 (some ⟨3, true, true⟩)

theorem lonePage_lookup (v : Nat) :
    lonePage.lookup v = if v = 1024 then some ⟨3, true, true⟩ else none := by
  split_ifs with hv
  · rw [hv]
    exact PageDir.lookup_setPte_self (by decide) _
  · rw [lonePage, PageDir.lookup_setPte_of_ne hv, PageDir.lookup_setTable]
    split_ifs <;> rfl

theorem lonePage_page {v : Nat} {pte : Pte} (h : lonePage.lookup v = some pte) :
    v = 1024 ∧ pte = ⟨3, true, true⟩ := by
  rw [lonePage_lookup] at h
  split_ifs at h with hv
  exact ⟨hv, (Option.some.inj h).symm⟩

theorem lonePage_once {v w f : Nat} (hv : lonePage.userFrame v = some f)
    (hw : lonePage.userFrame w = some f) : v = w := by
  obtain ⟨_, hpte, _⟩ := Option.map_eq_some_iff.1 hv
  obtain ⟨_, hpte', _⟩ := Option.map_eq_some_iff.1 hw
  rw [(lonePage_page hpte).1, (lonePage_page hpte').1]

theorem deallocuvm_frees_iff_lonePage :
    Sweepable (fun _ => false) lonePage (pages 0) (pages (1025 * PGSIZE)) ⟨0, 0, 0, []⟩ ∧
      ∃ d' m', (deallocuvm (fun _ => false) lonePage (1025 * PGSIZE) 0).run ⟨0, 0, 0, []⟩ =
        .ok ((d', 0), m') ∧
        Frees (fun _ => false) lonePage (pages 0) (pages (1025 * PGSIZE)) ⟨0, 0, 0, []⟩ d' m' := by
  have h : Sweepable (fun _ => false) lonePage (pages 0) (pages (1025 * PGSIZE)) ⟨0, 0, 0, []⟩ := by
    refine ⟨fun v _ _ _ => .inl (Nat.zero_le _), fun v pte _ _ hpte => ?_,
      fun v w f _ _ _ _ _ => lonePage_once⟩
    rw [(lonePage_page hpte).2]
    exact ⟨by simp, fun _ => by decide⟩
  exact ⟨h, (deallocuvm_frees_iff _ _ _ _ _ (by decide) (by decide)).2 h⟩

/-- From a page in the middle of a missing page table the loop goes to the middle of the next
one. -/
theorem deallocuvm_skips : ¬ ∀ (S : Frame → Bool) (d : PageDir) (m : Mem) (oldsz newsz : Nat),
    newsz < oldsz → oldsz ≤ KERNBASE →
    (∀ v pte, d.lookup v = some pte → pte.frame ≠ 0 ∧ m.isRam pte.frame = true) →
    (∀ v w f, d.userFrame v = some f → d.userFrame w = some f → v = w) →
    ∃ d' m', (deallocuvm S d oldsz newsz).run m = .ok ((d', newsz), m') ∧
      Frees S d (pages newsz) (pages oldsz) m d' m' := by
  intro hall
  obtain ⟨d', m', hrun, hfrees⟩ := hall (fun _ => false) lonePage ⟨0, 0, 0, []⟩
    (1025 * PGSIZE) PGSIZE (by decide) (by decide) (fun v pte hpte => by rw [(lonePage_page hpte).2]; decide)
    fun _ _ _ => lonePage_once
  have hgone : d'.lookup 1024 = none := hfrees.cleared 1024 (by decide) (by decide)
  obtain ⟨_, _, hswept⟩ :=
    (Prog.wp_run (wp_deallocuvm_swept (by decide) (by decide))).1 _ _ hrun
  rw [hswept.rest 1024 ?_, lonePage_lookup] at hgone
  · cases hgone
  · rintro ⟨_, _, hlow | ⟨i, hfrom, hto, hi⟩⟩
    · exact absurd hlow (by decide)
    · obtain rfl : i = 0 := Nat.lt_one_iff.1 hto
      exact hi (by decide)

end Xv6.Vm
