import Xv6.Vm.Account

/-!
# The kernel's mappings

`mappages` on a range of pages, and `setupkvm` as the source has it: one call of `mappages` for
each line of `kmap`.
-/

namespace Xv6.Vm

open Xv6.Lib

/-- The loop of `mappages` with the test that ends it, for at most `fuel` turns. -/
def mapUntil (w u : Bool) (last : Nat) : Nat → PageDir → Nat → Frame → VmM (PageDir × Bool)
  | 0, d, _, _ => pure (d, false)
  | fuel + 1, d, v, f => do
    match ← walkpgdir d v true with
    | none => pure (d, false)
    | some d =>
      if (d.lookup v).isSome then Prog.panic () "remap"
      else
        let d := d.setPte v (some ⟨f, w, u⟩)
        if v = last then pure (d, true)
        else mapUntil w u last fuel d ((v + 1) % 2 ^ 20) ((f + 1) % 2 ^ 20)

structure KmapLine where
  virt : Nat
  physStart : Nat
  physEnd : Nat
  /-- `perm` is `PTE_W`. -/
  w : Bool

def KmapLine.size (k : KmapLine) : Nat := (k.physEnd + 2 ^ 32 - k.physStart) % 2 ^ 32

def KERNLINK : Nat := KERNBASE + EXTMEM

def kmap (data : Nat) : List KmapLine :=
  [⟨KERNBASE, 0, EXTMEM, true⟩,
   ⟨KERNLINK, KERNLINK - KERNBASE, data * PGSIZE, false⟩,
   ⟨KERNBASE + data * PGSIZE, data * PGSIZE, PHYSTOP, true⟩,
   ⟨DEVSPACE, DEVSPACE, 0, true⟩]

def kmapLoop : List KmapLine → PageDir → VmM (Option PageDir)
  | [], d => pure (some d)
  | k :: ks, d => do
    let r ← mappages d k.virt k.size (k.physStart / PGSIZE) k.w false
    if r.2 then kmapLoop ks r.1 else pure none

def setupkvmPages : VmM (Option PageDir) := do
  match ← kalloc with
  | none => pure none
  | some f => do
    let data ← Prog.atomic () fun m => .ok (m.data, m)
    kmapLoop (kmap data) ⟨f, fun _ => none⟩

/-- In `d'` the pages from `a` up to `b` have the frames from `f` on, and the others are as in
`d`. -/
def Lays (d d' : PageDir) (a b : Nat) (f : Frame) (w u : Bool) : Prop :=
  ∀ v, d'.lookup v =
    if a ≤ v ∧ v < b then some ⟨(f + (v - a)) % 2 ^ 20, w, u⟩ else d.lookup v

section Kmap

variable {d d' : PageDir} {m : Mem} {w u : Bool} {n v : Nat} {f : Frame}

/-- However many turns it may make, the loop makes one for each page up to `last`, also where it
has to wrap around. -/
theorem mapUntil_eq {last fuel : Nat} (hn : n < 2 ^ 20) (hv : v < 2 ^ 20)
    (hlast : (v + n) % 2 ^ 20 = last) (hfuel : n < fuel) :
    mapUntil w u last fuel d v f = mapLoop w u (n + 1) d v f := by
  induction n generalizing d v f fuel with
  | zero =>
    obtain ⟨fuel, rfl⟩ := Nat.exists_eq_add_of_lt hfuel
    rw [mapUntil, mapLoop]
    have hv : v = last := by omega
    show Prog.bind _ _ = Prog.bind _ _
    congr 1
    funext o
    cases o with
    | none => rfl
    | some d =>
      simp only [if_pos hv]
      rfl
  | succ n ih =>
    obtain ⟨fuel, rfl⟩ := Nat.exists_eq_succ_of_ne_zero (Nat.ne_zero_of_lt hfuel)
    have hv : v ≠ last := by omega
    have hnext (d : PageDir) (f : Frame) :
        mapUntil w u last fuel d ((v + 1) % 2 ^ 20) f =
          mapLoop w u (n + 1) d ((v + 1) % 2 ^ 20) f :=
      ih (by omega) (by omega) (by omega) (by omega)
    rw [mapUntil, mapLoop]
    show Prog.bind _ _ = Prog.bind _ _
    congr 1
    funext o
    cases o with
    | none => rfl
    | some d => simp only [if_neg hv, hnext]

theorem mappages_eq {va size fuel : Nat} (hva : va < 2 ^ 32) (hfuel : 2 ^ 20 ≤ fuel) :
    mappages d va size f w u =
      mapUntil w u ((va + size - 1) % 2 ^ 32 / PGSIZE) fuel d (va / PGSIZE) f := by
  have hsize : PGSIZE = 4096 := rfl
  symm
  apply mapUntil_eq <;> rw [hsize] <;> omega

theorem ends_walkpgdir : (walkpgdir d v true).ends (fun r _ => ∀ d', r = some d' →
    d'.table (v / NPTENTRIES) ≠ none ∧ d'.lookup = d.lookup) m := by
  unfold walkpgdir
  by_cases ht : d.table (v / NPTENTRIES) = none
  · rw [ht]
    refine Prog.wp_bind (wp_kalloc trivial ?_ ?_)
    · exact fun _ _ h => absurd h (by simp)
    · rintro g _ _ d' ⟨⟩
      refine ⟨by simp [PageDir.setTable], ?_⟩
      funext x
      exact PageDir.lookup_setTable_empty ht g x
  · rw [if_pos (Option.isSome_iff_ne_none.2 ht)]
    rintro d' ⟨⟩
    exact ⟨ht, rfl⟩

theorem ends_mapLoop (hn : v + n ≤ 2 ^ 20) (hf : f < 2 ^ 20)
    (hfree : ∀ x, v ≤ x → x < v + n → d.lookup x = none) :
    (mapLoop w u n d v f).ends (fun r _ => r.2 = true → Lays d r.1 v (v + n) f w u) m := by
  induction n generalizing d v f m with
  | zero =>
    intro _ x
    rw [if_neg (by omega)]
  | succ n ih =>
    rw [mapLoop]
    apply Prog.wp_seq ends_walkpgdir
    intro o m' ho
    cases o with
    | none => exact fun h => absurd h (by simp)
    | some d₁ =>
      obtain ⟨htable, hlook⟩ := ho d₁ rfl
      have hnone : d₁.lookup v = none := by
        rw [hlook]
        exact hfree v le_rfl (by omega)
      have hset (x : Nat) (hx : x ≠ v) :
          (d₁.setPte v (some ⟨f, w, u⟩)).lookup x = d.lookup x := by
        rw [PageDir.lookup_setPte_of_ne hx, hlook]
      simp only [hnone, Option.isSome_none, Bool.false_eq_true, if_false]
      have hrest : (mapLoop w u n (d₁.setPte v (some ⟨f, w, u⟩)) ((v + 1) % 2 ^ 20)
          ((f + 1) % 2 ^ 20)).ends (fun r _ => r.2 = true →
            Lays (d₁.setPte v (some ⟨f, w, u⟩)) r.1 (v + 1) (v + 1 + n)
              ((f + 1) % 2 ^ 20) w u) m' := by
        rcases Nat.eq_zero_or_pos n with rfl | hpos
        · intro _ x
          rw [if_neg (by omega)]
        · rw [Nat.mod_eq_of_lt (a := v + 1) (by omega)]
          apply ih (by omega) (Nat.mod_lt _ (by decide))
          intro x hlo hhi
          rw [hset x (by omega)]
          exact hfree x (by omega) (by omega)
      refine Prog.wp_imp hrest fun r _ hr hok x => ?_
      rw [hr hok x]
      by_cases hx : x = v
      · subst hx
        rw [if_neg (by omega), if_pos (by omega), PageDir.lookup_setPte_self htable,
          Nat.sub_self, Nat.add_zero, Nat.mod_eq_of_lt hf]
      · have hiff : (v + 1 ≤ x ∧ x < v + 1 + n) ↔ (v ≤ x ∧ x < v + (n + 1)) := by omega
        rw [hset x hx, if_congr hiff rfl rfl]
        split_ifs with hin
        · have hx : 1 + (x - (v + 1)) = x - v := by omega
          rw [Nat.mod_add_mod, Nat.add_assoc, hx]
        · rfl

theorem ends_mappages {va size : Nat} (hsize : 0 < size) (hend : va + size ≤ 2 ^ 32)
    (hf : f < 2 ^ 20)
    (hfree : ∀ x, va / PGSIZE ≤ x → x ≤ (va + size - 1) / PGSIZE → d.lookup x = none) :
    (mappages d va size f w u).ends (fun r _ => r.2 = true →
      Lays d r.1 (va / PGSIZE) ((va + size - 1) / PGSIZE + 1) f w u) m := by
  have hpg : PGSIZE = 4096 := rfl
  have hcount : va / PGSIZE + (((va + size - 1) % 2 ^ 32 / PGSIZE + 2 ^ 20 - va / PGSIZE) %
      2 ^ 20 + 1) = (va + size - 1) / PGSIZE + 1 := by
    rw [hpg]
    omega
  have hloop := ends_mapLoop (d := d) (m := m) (w := w) (u := u) (f := f) (v := va / PGSIZE)
    (n := ((va + size - 1) % 2 ^ 32 / PGSIZE + 2 ^ 20 - va / PGSIZE) % 2 ^ 20 + 1)
  rw [hcount] at hloop
  exact hloop (by rw [hpg]; omega) hf fun x hlo hhi => hfree x hlo (Nat.lt_succ_iff.1 hhi)

/-! ## Page by page and table by table -/

/-- The page tables that begin among the `n` pages from `v` on. -/
def newTables (v n : Nat) : List Nat :=
  ((List.range' v n).filter (· % NPTENTRIES = 0)).map (· / NPTENTRIES)

theorem newTables_succ (v n : Nat) : newTables v (n + 1) =
    (if v % NPTENTRIES = 0 then [v / NPTENTRIES] else []) ++ newTables (v + 1) n := by
  unfold newTables
  rw [List.range'_succ, List.filter_cons]
  by_cases hv : v % NPTENTRIES = 0 <;> simp [hv]

theorem newTables_append (v a b : Nat) :
    newTables v (a + b) = newTables v a ++ newTables (v + a) b := by
  unfold newTables
  rw [← List.range'_append_1, List.filter_append, List.map_append]

theorem newTables_mul (i k : Nat) :
    newTables (i * NPTENTRIES) (k * NPTENTRIES) = List.range' i k := by
  have hnp : NPTENTRIES = 1024 := rfl
  induction k with
  | zero => rfl
  | succ k ih =>
    have hone : newTables (i * NPTENTRIES + k * NPTENTRIES) NPTENTRIES = [i + k] := by
      rw [← Nat.add_mul, show NPTENTRIES = 1023 + 1 from rfl, newTables_succ]
      have hrest : newTables ((i + k) * (1023 + 1) + 1) 1023 = [] := by
        unfold newTables
        rw [List.map_eq_nil_iff, List.filter_eq_nil_iff]
        intro x hx
        rw [List.mem_range'_1] at hx
        rw [hnp]
        simp only [decide_eq_true_eq]
        omega
      rw [hrest, hnp]
      simp
    rw [Nat.succ_mul, newTables_append, ih, hone, List.range'_1_concat]

/-- Of the directory `d`, which has whole page tables, `d'` has the tables and the entries of the
pages below `v`. -/
structure Tracks (data : Frame) (v : Nat) (d d' : PageDir) : Prop where
  frame : d'.frame = d.frame
  tables : ∀ i, d'.tableFrame i = d.tableFrame i
  low : ∀ x, x < v → d'.lookup x = kmapPte data x
  high : ∀ x, v ≤ x → d'.lookup x = none
  begun : v % NPTENTRIES ≠ 0 → d.table (v / NPTENTRIES) ≠ none
  rest : ∀ i, v ≤ i * NPTENTRIES → d.table i = none
  kmap : ∀ x, d.table (x / NPTENTRIES) ≠ none → d.lookup x = kmapPte data x

variable {data : Frame} {pte : Pte}

theorem Tracks.table_eq_none {i : Nat} (h : Tracks data v d d') :
    d'.table i = none ↔ d.table i = none := by
  rw [← Option.map_eq_none_iff (f := Table.frame), ← Option.map_eq_none_iff (f := Table.frame)]
  exact Eq.congr_left (h.tables i)

theorem Tracks.setPte (h : Tracks data v d d') (htable : d.table (v / NPTENTRIES) ≠ none)
    (hpte : kmapPte data v = some pte) : Tracks data (v + 1) d (d'.setPte v (some pte)) where
  frame := by rw [PageDir.setPte_frame, h.frame]
  tables i := by rw [PageDir.tableFrame, PageDir.table_setPte_map, ← h.tables i, PageDir.tableFrame]
  low x hx := by
    rcases Nat.lt_succ_iff_lt_or_eq.1 hx with hlt | rfl
    · rw [PageDir.lookup_setPte_of_ne (Nat.ne_of_lt hlt), h.low x hlt]
    · rw [PageDir.lookup_setPte_self (mt h.table_eq_none.1 htable), hpte]
  high x hx := by
    rw [PageDir.lookup_setPte_of_ne (Nat.ne_of_gt hx), h.high x (Nat.le_of_succ_le hx)]
  begun hmod := by
    have hdiv : (v + 1) / NPTENTRIES = v / NPTENTRIES := by
      have hnp : NPTENTRIES = 1024 := rfl
      rw [hnp] at hmod ⊢
      omega
    rwa [hdiv]
  rest i hi := h.rest i (Nat.le_of_succ_le hi)
  kmap := h.kmap

theorem Tracks.newTable (h : Tracks data v d d') (hv : v % NPTENTRIES = 0)
    (hpte : kmapPte data v = some pte) (g : Frame) : Tracks data (v + 1)
      (d.setTable (v / NPTENTRIES) ⟨g, fun j => kmapPte data (v / NPTENTRIES * NPTENTRIES + j)⟩)
      ((d'.setTable (v / NPTENTRIES) ⟨g, fun _ => none⟩).setPte v (some pte)) := by
  have hnp : NPTENTRIES = 1024 := rfl
  have hstart : v / NPTENTRIES * NPTENTRIES = v := Nat.div_mul_cancel (Nat.dvd_of_mod_eq_zero hv)
  have hnone := h.table_eq_none.2 (h.rest _ hstart.ge)
  have hempty (x : Nat) := PageDir.lookup_setTable_empty hnone g x
  constructor
  · rw [PageDir.setPte_frame]
    exact h.frame
  · intro i
    rw [PageDir.tableFrame, PageDir.table_setPte_map]
    by_cases hi : i = v / NPTENTRIES
    · simp [PageDir.tableFrame, PageDir.setTable, hi]
    · simpa [PageDir.tableFrame, PageDir.setTable, hi] using h.tables i
  · intro x hx
    rcases Nat.lt_succ_iff_lt_or_eq.1 hx with hlt | rfl
    · rw [PageDir.lookup_setPte_of_ne (Nat.ne_of_lt hlt), hempty, h.low x hlt]
    · rw [PageDir.lookup_setPte_self (by simp [PageDir.setTable]), hpte]
  · intro x hx
    rw [PageDir.lookup_setPte_of_ne (Nat.ne_of_gt hx), hempty, h.high x (Nat.le_of_succ_le hx)]
  · intro hmod
    have hdiv : (v + 1) / NPTENTRIES = v / NPTENTRIES := by
      rw [hnp] at hmod ⊢
      omega
    simp [PageDir.setTable, hdiv]
  · intro i hi
    have hne : i ≠ v / NPTENTRIES := by
      rintro rfl
      omega
    simpa [PageDir.setTable, hne] using h.rest i (Nat.le_of_succ_le hi)
  · intro x hne
    rw [PageDir.lookup_setTable]
    split_ifs with hi
    · rw [← hi]
      exact congrArg (kmapPte data) (Nat.div_add_mod' x NPTENTRIES)
    · exact h.kmap x (by simpa [PageDir.setTable, hi] using hne)

theorem run_kalloc_nil (h : m.free = []) : kalloc.run m = .ok (none, m) := by
  simp [kalloc, Prog.atomic, Prog.run, h]

theorem run_kalloc_cons {g : Frame} {gs : List Frame} (h : m.free = g :: gs) :
    kalloc.run m = .ok (some g, { m with free := gs }) := by
  simp [kalloc, Prog.atomic, Prog.run, h]

theorem ends_mapLoop_tracks (h : Tracks data v d d') (hn : v + n ≤ 2 ^ 20) (hf : f < 2 ^ 20)
    (hkmap : ∀ x, v ≤ x → x < v + n → kmapPte data x = some ⟨(f + (x - v)) % 2 ^ 20, w, false⟩) :
    (mapLoop w false n d' v f).ends (fun r m' => ∃ o,
      (kmapTables data (newTables v n) d).run m = .ok (o, m') ∧
        Option.Rel (Tracks data (v + n)) o (if r.2 then some r.1 else none)) m := by
  induction n generalizing d d' v f m with
  | zero => exact ⟨some d, rfl, .some h⟩
  | succ n ih =>
    have hpte : kmapPte data v = some ⟨f, w, false⟩ := by
      rw [hkmap v le_rfl (by omega), Nat.sub_self, Nat.add_zero, Nat.mod_eq_of_lt hf]
    -- the rest of the loop, from directories that agree on one page more
    have hrest : ∀ (e e' : PageDir) (m₁ : Mem), Tracks data (v + 1) e e' →
        (mapLoop w false n e' ((v + 1) % 2 ^ 20) ((f + 1) % 2 ^ 20)).ends (fun r m' => ∃ o,
          (kmapTables data (newTables (v + 1) n) e).run m₁ = .ok (o, m') ∧
            Option.Rel (Tracks data (v + (n + 1))) o (if r.2 then some r.1 else none)) m₁ := by
      intro e e' m₁ he
      rcases Nat.eq_zero_or_pos n with rfl | hpos
      · exact ⟨some e, rfl, .some he⟩
      · rw [Nat.mod_eq_of_lt (a := v + 1) (by omega), Nat.add_comm n, ← Nat.add_assoc]
        refine ih he (by omega) (Nat.mod_lt _ (by decide)) fun x hlo hhi => ?_
        have hx : 1 + (x - (v + 1)) = x - v := by omega
        rw [hkmap x (by omega) (by omega), Nat.mod_add_mod, Nat.add_assoc, hx]
    rw [mapLoop, newTables_succ, walkpgdir]
    by_cases hv : v % NPTENTRIES = 0
    · have hstart : v / NPTENTRIES * NPTENTRIES = v :=
        Nat.div_mul_cancel (Nat.dvd_of_mod_eq_zero hv)
      have hnone := h.table_eq_none.2 (h.rest _ hstart.ge)
      rw [if_pos hv, List.singleton_append, hnone]
      refine Prog.wp_bind (Prog.wp_bind (wp_kalloc trivial ?_ ?_))
      · intro hfree
        exact ⟨none, Prog.run_bind_of_ok (run_kalloc_nil hfree), .none⟩
      · intro g gs hfree
        show Prog.ends _ (if _ then _ else _) _
        rw [if_neg (by simp [PageDir.lookup_setTable_empty hnone, h.high v le_rfl])]
        apply Prog.wp_imp (hrest _ _ _ (h.newTable hv hpte g))
        rintro r m' ⟨o, hrun, hrel⟩
        exact ⟨o, (Prog.run_bind_of_ok (run_kalloc_cons hfree)).trans hrun, hrel⟩
    · have htable := h.begun hv
      have hsome := mt h.table_eq_none.1 htable
      rw [if_neg hv, List.nil_append, if_pos (Option.isSome_iff_ne_none.2 hsome)]
      show Prog.ends _ (if _ then _ else _) _
      rw [if_neg (by simp [h.high v le_rfl])]
      exact hrest _ _ _ (h.setPte htable hpte)

theorem run_kmapTables_append {is : List Nat} (js : List Nat) {o : Option PageDir} {m' : Mem}
    (h : (kmapTables data is d).run m = .ok (o, m')) : (kmapTables data (is ++ js) d).run m =
      o.elim (.ok (none, m')) fun e => (kmapTables data js e).run m' := by
  induction is generalizing d m with
  | nil =>
    cases h
    rfl
  | cons i is ih =>
    obtain ⟨g, m₁, hkalloc, hrun⟩ := Prog.exists_of_run_bind h
    refine (Prog.run_bind_of_ok hkalloc).trans ?_
    cases g with
    | none =>
      cases hrun
      rfl
    | some g => exact ih hrun

theorem mappages_pages (hn : 0 < n) (hv : v + n ≤ 2 ^ 20) :
    mappages d (v * PGSIZE) (n * PGSIZE) f w u = mapLoop w u n d v f := by
  have hpg : PGSIZE = 4096 := rfl
  have hcount : ((v * PGSIZE + n * PGSIZE - 1) % 2 ^ 32 / PGSIZE + 2 ^ 20 - v) % 2 ^ 20 + 1 =
      n := by
    rw [hpg]
    omega
  unfold mappages
  dsimp only
  rw [Nat.mul_div_cancel v (by decide), hcount]

/-- The two directories have the same pages and entries, and the entries are those of `kmap`. -/
structure KernelDir (data : Frame) (d d' : PageDir) : Prop where
  frame : d'.frame = d.frame
  tables : ∀ i, d'.tableFrame i = d.tableFrame i
  entries : ∀ x, d'.lookup x = d.lookup x
  kmap : ∀ x, x < 2 ^ 20 → d'.lookup x = kmapPte data x

/-- The calls of `mappages` for `ks` do what is done with the tables `is`. -/
def MapsLike (data : Frame) (ks : List KmapLine) (is : List Nat) (d d' : PageDir) : Prop :=
  ∀ m, (kmapLoop ks d').ends (fun o' m' => ∃ o, (kmapTables data is d).run m = .ok (o, m') ∧
    Option.Rel (KernelDir data) o o') m

/-- The line maps the `n` pages from `v` on to the frames from `f` on. -/
def KmapLine.Maps (k : KmapLine) (v n f : Nat) : Prop :=
  k.virt = v * PGSIZE ∧ k.size = n * PGSIZE ∧ k.physStart = f * PGSIZE ∧ 0 < n ∧
    v + n ≤ 2 ^ 20 ∧ f + n ≤ 2 ^ 20

theorem MapsLike.cons {k : KmapLine} {ks : List KmapLine} {is : List Nat} {f : Nat}
    (h : Tracks data v d d') (hk : k.Maps v n f)
    (hkmap : ∀ x, x < n → kmapPte data (v + x) = some ⟨f + x, k.w, false⟩)
    (hnext : ∀ e e', Tracks data (v + n) e e' → MapsLike data ks is e e') :
    MapsLike data (k :: ks) (newTables v n ++ is) d d' := by
  intro m
  obtain ⟨hvirt, hsize, hphys, hn, hv, hf⟩ := hk
  have hpages : ∀ x, v ≤ x → x < v + n →
      kmapPte data x = some ⟨(f + (x - v)) % 2 ^ 20, k.w, false⟩ := by
    intro x hlow hhigh
    have hx : x - v < n := by omega
    rw [Nat.mod_eq_of_lt (by omega), ← hkmap _ hx, Nat.add_sub_cancel' hlow]
  rw [kmapLoop, hvirt, hsize, hphys, Nat.mul_div_cancel f (by decide), mappages_pages hn hv]
  apply Prog.wp_seq (ends_mapLoop_tracks (m := m) h hv (Nat.lt_of_lt_of_le (by omega) hf) hpages)
  rintro ⟨e', ok⟩ m₁ ⟨o, hrun, hrel⟩
  have happend := run_kmapTables_append is hrun
  cases ok with
  | false =>
    cases hrel
    exact ⟨none, happend, .none⟩
  | true =>
    cases hrel with
    | some he =>
      apply Prog.wp_imp (hnext _ _ he m₁)
      rintro o' m' ⟨o, hrun, hrel⟩
      exact ⟨o, happend.trans hrun, hrel⟩

theorem kernelTables_eq {data : Nat} (hlo : 256 < data) (hhi : data < 57344) : kernelTables =
    newTables 524288 256 ++ (newTables 524544 (data - 256) ++
      (newTables (524288 + data) (57344 - data) ++ (newTables 1040384 8192 ++ []))) := by
  have hram : newTables 524288 57344 = List.range' 512 56 := newTables_mul 512 56
  have hdev : newTables 1040384 8192 = List.range' 1016 8 := newTables_mul 1016 8
  have hsplit : 57344 = 256 + ((data - 256) + (57344 - data)) := by omega
  have hdata : 524544 + (data - 256) = 524288 + data := by omega
  rw [hsplit, newTables_append, newTables_append, hdata] at hram
  rw [← List.append_assoc, ← List.append_assoc, List.append_assoc (newTables 524288 256), hram,
    hdev]
  rfl

theorem Tracks.jump (h : Tracks data v d d') (v' : Nat) (hle : v ≤ v')
    (hv' : v' % NPTENTRIES = 0) (hgap : ∀ x, v ≤ x → x < v' → kmapPte data x = none) :
    Tracks data v' d d' where
  frame := h.frame
  tables := h.tables
  low x hx := by
    rcases Nat.lt_or_ge x v with hlt | hge
    · exact h.low x hlt
    · rw [h.high x hge, hgap x hge hx]
  high x hx := h.high x (hle.trans hx)
  begun hne := absurd hv' hne
  rest i hi := h.rest i (hle.trans hi)
  kmap := h.kmap

theorem Tracks.kernelDir (h : Tracks data (2 ^ 20) d d') : KernelDir data d d' where
  frame := h.frame
  tables := h.tables
  entries x := by
    by_cases htable : d.table (x / NPTENTRIES) = none
    · rw [PageDir.lookup_of_table_none htable,
        PageDir.lookup_of_table_none (h.table_eq_none.2 htable)]
    · have hx : x < 2 ^ 20 := by
        have hnp : NPTENTRIES = 1024 := rfl
        by_contra hge
        refine htable (h.rest _ ?_)
        rw [hnp]
        omega
      rw [h.low x hx, h.kmap x htable]
  kmap := h.low

theorem kmapPte_none {x : Nat} (hram : ¬ (UPAGES ≤ x ∧ x < UPAGES + PHYSTOP / PGSIZE))
    (hdev : x < DEVSPACE / PGSIZE) : kmapPte data x = none := by
  rw [kmapPte, if_neg hram, if_neg fun h => Nat.not_le.2 hdev h.1]

theorem kmapPte_ram {data x : Nat} (hx : x < PHYSTOP / PGSIZE)
    (hw : decide (x < EXTMEM / PGSIZE ∨ data ≤ x) = w) :
    kmapPte data (UPAGES + x) = some ⟨x, w, false⟩ := by
  rw [kmapPte, if_pos ⟨Nat.le_add_right _ _, Nat.add_lt_add_left hx _⟩, ← hw]
  simp

theorem kmapPte_dev {x : Nat} (hlow : DEVSPACE / PGSIZE ≤ x) (hhigh : x < 2 ^ 20) :
    kmapPte data x = some ⟨x, true, false⟩ := by
  have hram : ¬ (UPAGES ≤ x ∧ x < UPAGES + PHYSTOP / PGSIZE) := by
    rintro ⟨_, hlt⟩
    exact absurd (Nat.lt_of_le_of_lt hlow hlt) (by decide)
  rw [kmapPte, if_neg hram, if_pos ⟨hlow, hhigh⟩]

theorem mapsLike_kmap {data : Nat} (hlo : 256 < data) (hhi : data < 57344) (g : Frame) :
    MapsLike data (kmap data) kernelTables ⟨g, fun _ => none⟩ ⟨g, fun _ => none⟩ := by
  have hstart : Tracks data 524288 ⟨g, fun _ => none⟩ ⟨g, fun _ => none⟩ :=
    ⟨rfl, fun _ => rfl,
      fun x hx => (kmapPte_none (fun h => Nat.not_le.2 hx h.1) (hx.trans (by decide))).symm,
      fun _ _ => rfl, fun h => absurd rfl h, fun _ _ => rfl, fun _ h => absurd rfl h⟩
  rw [kernelTables_eq hlo hhi]
  refine .cons (f := 0) hstart ?_ ?_ fun _ _ h => ?_
  · norm_num [KmapLine.Maps, KmapLine.size, KERNBASE, EXTMEM, PGSIZE]
  · intro x hx
    rw [Nat.zero_add]
    exact kmapPte_ram (hx.trans (by decide)) (decide_eq_true (.inl hx))
  refine .cons (f := 256) h ?_ ?_ fun _ _ h => ?_
  · norm_num [KmapLine.Maps, KmapLine.size, KERNLINK, KERNBASE, EXTMEM, PGSIZE]
    omega
  · intro x hx
    rw [show 524288 + 256 + x = UPAGES + (256 + x) from Nat.add_assoc _ _ _]
    refine kmapPte_ram (Nat.lt_of_lt_of_le (by omega) hhi.le) (decide_eq_false fun h => ?_)
    exact h.elim (fun h => absurd h (by simp [EXTMEM, PGSIZE])) (by omega)
  rw [show 524288 + 256 + (data - 256) = 524288 + data by omega] at h
  refine .cons (f := data) h ?_ ?_ fun _ _ h => ?_
  · norm_num [KmapLine.Maps, KmapLine.size, KERNBASE, PHYSTOP, PGSIZE]
    omega
  · intro x hx
    rw [Nat.add_assoc]
    exact kmapPte_ram (Nat.lt_of_lt_of_le (by omega) (le_refl 57344))
      (decide_eq_true (.inr (Nat.le_add_right data x)))
  rw [show 524288 + data + (57344 - data) = 581632 by omega] at h
  have h := h.jump 1040384 (by decide) (by decide) fun x hlow hhigh =>
    kmapPte_none (fun hram => absurd (Nat.lt_of_le_of_lt hlow hram.2) (by decide)) hhigh
  refine .cons (f := 1040384) h ?_ ?_ fun _ _ h => ?_
  · norm_num [KmapLine.Maps, KmapLine.size, DEVSPACE, PGSIZE]
  · exact fun x hx => kmapPte_dev (Nat.le_add_right _ _) (Nat.add_lt_add_left hx _)
  exact fun m => ⟨some _, rfl, .some h.kernelDir⟩

/-- `setupkvm` page by page does what it does table by table. -/
theorem setupkvmPages_like {m : Mem} (hlo : EXTMEM / PGSIZE < m.data)
    (hhi : m.data < PHYSTOP / PGSIZE) :
    setupkvmPages.ends (fun o' m' => ∃ o, setupkvm.run m = .ok (o, m') ∧
      Option.Rel (KernelDir m.data) o o') m := by
  refine Prog.wp_bind (wp_kalloc trivial ?_ ?_)
  · intro hfree
    exact ⟨none, Prog.run_bind_of_ok (run_kalloc_nil hfree), .none⟩
  · intro g gs hfree
    refine ⟨trivial, Prog.wp_imp (mapsLike_kmap hlo hhi g _) ?_⟩
    rintro o' m' ⟨o, hrun, hrel⟩
    exact ⟨o, (Prog.run_bind_of_ok (run_kalloc_cons hfree)).trans hrun, hrel⟩

/-! ## The mappings -/

theorem kmapPte_translates {data a b : Nat} (hb : b < 234881024) (ha : a = 2147483648 + b)
    (hw : decide (b < 1048576 ∨ data * 4096 ≤ b) = w) :
    a / 4096 < 2 ^ 20 ∧ ∃ pte, kmapPte data (a / 4096) = some pte ∧ pte.w = w ∧
      pte.u = false ∧ pte.frame * 4096 + a % 4096 = b := by
  have hpage : a / 4096 = 524288 + b / 4096 := by omega
  refine ⟨by omega, ⟨b / 4096, w, false⟩, ?_, rfl, rfl, ?_⟩
  · rw [hpage]
    refine kmapPte_ram (Nat.div_lt_of_lt_mul hb) ?_
    rw [← hw, decide_eq_decide, show EXTMEM / PGSIZE = 256 from rfl]
    omega
  · show b / 4096 * 4096 + _ = _
    omega

theorem kmap_translates {data : Nat} (hlo : EXTMEM / PGSIZE < data)
    (hhi : data < PHYSTOP / PGSIZE) : ∀ k ∈ kmap data, ∀ a, k.virt ≤ a → a < k.virt + k.size →
      a / PGSIZE < 2 ^ 20 ∧ ∃ pte, kmapPte data (a / PGSIZE) = some pte ∧ pte.w = k.w ∧
        pte.u = false ∧ pte.frame * PGSIZE + a % PGSIZE = k.physStart + (a - k.virt) := by
  have hpg : PGSIZE = 4096 := rfl
  have hbase : KERNBASE = 2147483648 := rfl
  have hlink : KERNLINK = 2148532224 := rfl
  have htop : PHYSTOP = 234881024 := rfl
  have hdev : DEVSPACE = 4261412864 := rfl
  rw [show EXTMEM / PGSIZE = 256 from rfl] at hlo
  rw [show PHYSTOP / PGSIZE = 57344 from rfl] at hhi
  simp only [kmap, List.forall_mem_cons, KmapLine.size, hbase, hlink, htop, hdev, hpg,
    show EXTMEM = 1048576 from rfl]
  refine ⟨fun a ha hak => ?_, fun a ha hak => ?_, fun a ha hak => ?_, fun a ha hak => ?_, nofun⟩
  · exact kmapPte_translates (by omega) (by omega) (decide_eq_true (by omega))
  · exact kmapPte_translates (by omega) (by omega) (decide_eq_false (by omega))
  · exact kmapPte_translates (by omega) (by omega) (decide_eq_true (by omega))
  · refine ⟨by omega, ⟨a / 4096, true, false⟩, kmapPte_dev ?_ (by omega), rfl, rfl, ?_⟩
    · rw [hdev, hpg]
      omega
    · show a / 4096 * 4096 + _ = _
      omega

/-- `mappages` maps the pages of its range and no other.  So `setupkvm` ends without a panic, and
a directory that it returns translates the addresses of `kmap` as the lines say and has no user
page, wherever the kernel's data start. -/
theorem mappages_maps :
    (∀ (d : PageDir) (m : Mem) (va size : Nat) (f : Frame) (w u : Bool), 0 < size →
      va + size ≤ 2 ^ 32 → f < 2 ^ 20 →
      (∀ v, va / PGSIZE ≤ v → v ≤ (va + size - 1) / PGSIZE → d.lookup v = none) →
      (mappages d va size f w u).ends (fun r _ => r.2 = true →
        Lays d r.1 (va / PGSIZE) ((va + size - 1) / PGSIZE + 1) f w u) m) ∧
    ∀ m : Mem, EXTMEM / PGSIZE < m.data → m.data < PHYSTOP / PGSIZE →
      setupkvmPages.ends (fun r _ => ∀ d, r = some d →
        (∀ k ∈ kmap m.data, ∀ a, k.virt ≤ a → a < k.virt + k.size →
          ∃ pte, d.lookup (a / PGSIZE) = some pte ∧ pte.w = k.w ∧ pte.u = false ∧
            pte.frame * PGSIZE + a % PGSIZE = k.physStart + (a - k.virt)) ∧
        ∀ v < UPAGES, d.lookup v = none) m := by
  refine ⟨fun d m va size f w u => ends_mappages, fun m hlo hhi => ?_⟩
  refine Prog.wp_imp (setupkvmPages_like hlo hhi) fun o' m' ⟨o, _, hrel⟩ d hd => ?_
  subst hd
  cases hrel with
  | some h =>
    refine ⟨fun k hk a ha hak => ?_, fun v hv => ?_⟩
    · obtain ⟨hpage, hpte⟩ := kmap_translates hlo hhi k hk a ha hak
      rwa [h.kmap _ hpage]
    · rw [h.kmap v (hv.trans (by decide)), kmapPte_none (by omega) (hv.trans (by decide))]

def kmapMem : Mem := ⟨300, 400, 0, List.range' 1000 65⟩

/-- Four bytes on two pages, and the directory of a kernel whose data start at page 300: the
kernel's text is mapped read-only, and no user page is. -/
theorem mappages_maps_boot :
    (∃ d m', (mappages ⟨7, fun _ => none⟩ 8190 4 500 true true).run kmapMem = .ok ((d, true), m') ∧
      d.lookup 1 = some ⟨500, true, true⟩ ∧ d.lookup 2 = some ⟨501, true, true⟩ ∧
        d.lookup 3 = none) ∧
    ∃ d m', setupkvmPages.run kmapMem = .ok (some d, m') ∧ d.lookup 0 = none ∧
      ∃ pte, d.lookup (KERNLINK / PGSIZE) = some pte ∧ pte.w = false ∧ pte.u = false ∧
        pte.frame * PGSIZE + KERNLINK % PGSIZE = KERNLINK - KERNBASE := by
  have hdata : EXTMEM / PGSIZE < kmapMem.data ∧ kmapMem.data < PHYSTOP / PGSIZE := by decide
  constructor
  · obtain ⟨⟨d, ok⟩, m', hrun, hlays⟩ := Prog.ends_run (mappages_maps.1 ⟨7, fun _ => none⟩ kmapMem
      8190 4 500 true true (by decide) (by decide) (by decide) fun _ _ _ => rfl)
    have hok : ((mappages ⟨7, fun _ => none⟩ 8190 4 500 true true).run kmapMem).toOption.map
        (fun r => r.1.2) = some true := by decide +kernel
    rw [hrun] at hok
    obtain rfl : ok = true := Option.some.inj hok
    have hlays := hlays rfl
    exact ⟨d, m', hrun, (hlays 1).trans rfl, (hlays 2).trans rfl, (hlays 3).trans rfl⟩
  · obtain ⟨o, m', hrun, hmaps⟩ := Prog.ends_run (mappages_maps.2 kmapMem hdata.1 hdata.2)
    obtain ⟨o', m₁, hrun', o₁, htables, hrel⟩ := Prog.ends_run (setupkvmPages_like hdata.1 hdata.2)
    have hsome : ((setupkvm.run kmapMem).toOption.bind fun r => r.1).isSome = true := by
      decide +kernel
    cases hrun.symm.trans hrun'
    cases hrel with
    | none => simp [htables, Res.toOption] at hsome
    | some _ =>
      obtain ⟨hin, hout⟩ := hmaps _ rfl
      obtain ⟨pte, hpte, hw, hu, hframe⟩ := hin
        ⟨KERNLINK, KERNLINK - KERNBASE, kmapMem.data * PGSIZE, false⟩ (by simp [kmap]) KERNLINK
        le_rfl (by decide)
      exact ⟨_, _, hrun, hout 0 (by decide), pte, hpte, hw, hu, hframe⟩

end Kmap

end Xv6.Vm
