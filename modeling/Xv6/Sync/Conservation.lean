import Mathlib
import Xv6.Sync.Semaphore

/-!
# Semaphores conserve their value and lose no wakeup

The data of `semaphore.c` together with the points of control of the processes
keep four accounts: who holds a descriptor, how many references each semaphore
has, how its value comes from its history, and how many calls of `semup` are
between their store and their return.
-/

namespace Xv6.Sync

open Xv6.Lib Xv6.Sched

/-! ## The accounts -/

def PointOk (d : STable) (p : Slot) : Point → Prop
  | .get i _ => (i = -1 ∨ InTable i) ∧ Guarded d p
  | .free i => InTable i
  | .down i | .wait i | .up i | .upDone i => InTable i ∧ Holds d p i

/-- The value comes from the history, as long as it cannot overflow. -/
def Counted (s : Sem) (h : History) : Prop :=
  ∀ v, h.created = some v → 0 ≤ v → v + h.incs < 2 ^ 31 →
    s.value = v + h.incs - h.downs ∧ 0 ≤ s.value

def descriptors (d : STable) : Slot × Fin MAXSEMPROC → Option Int :=
  Function.uncurry d.procsem

structure Accounted (d : STable) (f : Slot → Option Point) : Prop where
  first : d.firstTime = true → ∀ p, f p = none ∧ ∀ r, d.procsem p r = none
  points : ∀ p k, f p = some k → PointOk d p k
  refs : ∀ i, InTable i →
    (d.sem i).refcount = tally (descriptors d) (some i) + tally f (some (.free i))
  counts : ∀ i, InTable i → Counted (d.sem i) (d.history i)
  finish : ∀ i, (d.history i).incs = (d.history i).ups + tally f (some (.upDone i))

@[simp] theorem descriptors_setSem (d : STable) (i : Int) (r : Sem) :
    descriptors (d.setSem i r) = descriptors d := rfl

@[simp] theorem descriptors_record (d : STable) (i : Int) (h : History) :
    descriptors (d.record i h) = descriptors d := rfl

@[simp] theorem descriptors_addQuantity (d : STable) (p : Slot) (n : Int) :
    descriptors (d.addQuantity p n) = descriptors d := rfl

theorem descriptors_setProcsem (d : STable) (p : Slot) (r : Fin MAXSEMPROC) (o : Option Int) :
    descriptors (d.setProcsem p r o) = Function.update (descriptors d) (p, r) o := by
  funext ⟨q, r'⟩
  by_cases hq : q = p
  · subst hq
    by_cases hr : r' = r
    · subst hr
      simp [descriptors, STable.setProcsem]
    · simp [descriptors, STable.setProcsem, hr]
  · simp [descriptors, STable.setProcsem, hq]

theorem holds_iff_tally {d : STable} {i : Int} :
    (∃ p, Holds d p i) ↔ 0 < tally (descriptors d) (some i) := by
  simp [tally_pos_iff, Holds, descriptors]

theorem PointOk.congr {d d' : STable} {p : Slot} {k : Point} (h : PointOk d p k)
    (hproc : d'.procsem p = d.procsem p) (hword : d'.word0 p = d.word0 p) : PointOk d' p k := by
  cases k <;>
    simpa [PointOk, Guarded, STable.checkprocsem, Holds, hproc, hword] using h

theorem attach_of_guarded {d d' : STable} {p : Slot} {i : Int} (hg : Guarded d p)
    (h : d.attach p i = some d') :
    ∃ r, d.procsem p r = none ∧ d' = d.setProcsem p r (some i) := by
  unfold STable.attach at h
  split at h
  · rename_i r hr
    have hnone := List.find?_some hr
    exact ⟨r, by simpa using hnone, (Option.some.inj h).symm⟩
  · rename_i hr
    rw [if_neg (hg hr)] at h
    simp at h

theorem unusedSem_spec {d : STable} {i : Int} (h : d.unusedSem = some i) :
    InTable i ∧ (d.sem i).refcount = 0 := by
  unfold STable.unusedSem at h
  obtain ⟨n, hn, rfl⟩ := Option.map_eq_some_iff.1 h
  have hmem := List.mem_of_find?_eq_some hn
  have hzero := List.find?_some hn
  rw [List.mem_range] at hmem
  refine ⟨⟨Int.natCast_nonneg n, ?_⟩, by simpa using hzero⟩
  simpa using hmem

theorem counted_new (v rc : Int) :
    Counted ⟨v, rc⟩ { created := some v, incs := 0, ups := 0, downs := 0 } := by
  intro w hw hpos _
  obtain rfl := Option.some.inj hw
  exact ⟨by simp, hpos⟩

theorem Counted.dec {s : Sem} {h : History} (hc : Counted s h) (hne : s.value ≠ 0) :
    Counted { s with value := int32 (s.value - 1) } { h with downs := h.downs + 1 } := by
  intro v hv hpos hlt
  obtain ⟨hval, hnonneg⟩ := hc v hv hpos hlt
  have hint : int32 (s.value - 1) = s.value - 1 := by
    apply int32_eq_self <;> simp only at hlt <;> omega
  simp only at hlt ⊢
  rw [hint]
  omega

theorem Counted.inc {s : Sem} {h : History} (hc : Counted s h) (ups : Nat) :
    Counted { s with value := int32 (s.value + 1) }
      { h with incs := h.incs + 1, ups := ups } := by
  intro v hv hpos hlt
  simp only at hv hlt ⊢
  obtain ⟨hval, hnonneg⟩ := hc v hv hpos (by omega)
  have hint : int32 (s.value + 1) = s.value + 1 := by
    apply int32_eq_self <;> omega
  rw [hint]
  omega

/-! ## References -/

/-- From `d` at `k` to `d'` at `o`, references change as descriptors do, with the calls of
`semfree` that have given up a descriptor counted as its holders. -/
def RefStep (d d' : STable) (k o : Option Point) : Prop :=
  ∀ j, InTable j →
    (d'.sem j).refcount + tally (descriptors d) (some j) + (if k = some (.free j) then 1 else 0) =
      (d.sem j).refcount + tally (descriptors d') (some j) +
        if o = some (.free j) then 1 else 0

/-- What a process at a point of control relies on for its references. -/
def RefPoint (d : STable) (p : Slot) : Point → Prop
  | .get i _ => (i = -1 ∨ InTable i) ∧ Guarded d p
  | .free i => InTable i
  | .down _ | .wait _ | .up _ | .upDone _ => True

/-- Every reference is that of a descriptor, or of a call of `semfree` that is on its way. -/
structure Refs (d : STable) (f : Slot → Option Point) : Prop where
  points : ∀ p k, f p = some k → RefPoint d p k
  refs : ∀ i, InTable i →
    (d.sem i).refcount = tally (descriptors d) (some i) + tally f (some (.free i))

namespace Refs

variable {d : STable} {f : Slot → Option Point}

theorem refcount_le (h : Refs d f) {i : Int} (hi : InTable i) :
    0 ≤ (d.sem i).refcount ∧ (d.sem i).refcount ≤ 320 := by
  have hd := tally_le_card (descriptors d) (some i)
  have hf := tally_le_card f (some (.free i))
  have hcard : NPROC * MAXSEMPROC = 256 := rfl
  have hprocs : NPROC = 64 := rfl
  rw [Fintype.card_prod, Fintype.card_fin, Fintype.card_fin, hcard] at hd
  rw [Fintype.card_fin] at hf
  rw [h.refs i hi]
  omega

theorem int32_refcount (h : Refs d f) {i : Int} (hi : InTable i) :
    int32 ((d.sem i).refcount + 1) = (d.sem i).refcount + 1 ∧
      int32 ((d.sem i).refcount - 1) = (d.sem i).refcount - 1 := by
  have hle := h.refcount_le hi
  constructor <;> apply int32_eq_self <;> omega

end Refs

section

variable {d : STable} {p : Slot}

theorem tally_setProcsem_some {r : Fin MAXSEMPROC} (hr : d.procsem p r = none) (i j : Int) :
    tally (descriptors (d.setProcsem p r (some i))) (some j) =
      tally (descriptors d) (some j) + if j = i then 1 else 0 := by
  have hupd := tally_update (descriptors d) (p, r) (some i) (some j)
  have hold : descriptors d (p, r) = none := hr
  rw [← descriptors_setProcsem] at hupd
  simpa [hold, eq_comm (a := i)] using hupd

theorem RefStep.of_eq {d' : STable} {k o : Option Point}
    (hsem : ∀ j, (d'.sem j).refcount = (d.sem j).refcount) (hproc : d'.procsem = d.procsem)
    (hk : ∀ j, k ≠ some (.free j)) (ho : ∀ j, o ≠ some (.free j)) : RefStep d d' k o := by
  intro j _
  have hdesc : descriptors d' = descriptors d := by rw [descriptors, hproc]; rfl
  rw [hsem j, hdesc, if_neg (hk j), if_neg (ho j)]

theorem refStep_create {i v w : Int} (hzero : (d.sem i).refcount = 0) {r : Fin MAXSEMPROC}
    (hr : d.procsem p r = none) (h : History) :
    RefStep d ((((d.setProcsem p r (some i)).setSem i ⟨v, 1⟩).addQuantity p 1).record i h)
      (some (.get w v)) none := by
  intro j _
  have hdesc := tally_setProcsem_some hr i j
  by_cases hji : j = i
  · subst hji
    simp [hdesc, hzero]
    omega
  · simp [hdesc, hji]

theorem refStep_attach {i v w : Int} {r : Fin MAXSEMPROC} (hr : d.procsem p r = none)
    (hint : int32 ((d.sem i).refcount + 1) = (d.sem i).refcount + 1) :
    RefStep d ((d.setProcsem p r (some i)).setSem i
      { d.sem i with refcount := int32 ((d.sem i).refcount + 1) }) (some (.get w v)) none := by
  intro j _
  have hdesc := tally_setProcsem_some hr i j
  by_cases hji : j = i
  · subst hji
    simp [hdesc, hint]
    omega
  · simp [hdesc, hji]

theorem refStep_detach {i : Int} {r : Fin MAXSEMPROC} (hr : d.procsem p r = some i) :
    RefStep d (d.setProcsem p r none) none (some (.free i)) := by
  intro j _
  have hupd := tally_update (descriptors d) (p, r) none (some j)
  have hold : descriptors d (p, r) = some i := hr
  rw [← descriptors_setProcsem] at hupd
  simp only [hold, Option.some.injEq, reduceCtorEq, if_false] at hupd
  by_cases hij : i = j
  · subst hij
    simp only [if_true] at hupd
    simp
    omega
  · simp only [hij, if_false] at hupd
    simp [hij]
    omega

theorem refStep_free {i : Int} (n : Int)
    (hint : int32 ((d.sem i).refcount - 1) = (d.sem i).refcount - 1) :
    RefStep d ((d.setSem i
      { d.sem i with refcount := int32 ((d.sem i).refcount - 1) }).addQuantity p n)
      (some (.free i)) none := by
  intro j _
  by_cases hji : j = i
  · subst hji
    simp [hint]
    omega
  · simp [hji, Ne.symm hji]

end

inductive Enters (d : STable) (p : Slot) : SemCall → Entry STable Point → Prop
  | first (w v : Int) (h : d.firstTime = true) :
      Enters d p (.semget w v) (.initlock { d with firstTime := false } (.get w v))
  | get (w v : Int) (h : d.firstTime = false) : Enters d p (.semget w v) (.acquire d (.get w v))
  | free (i : Int) (r : Fin MAXSEMPROC) (h : d.procsem p r = some i) :
      Enters d p (.semfree i) (.acquire (d.setProcsem p r none) (.free i))
  | fail (i : Int) : Enters d p (.semfree i) (.ret d (-1))
  | down (i : Int) : Enters d p (.semdown i) (.acquire d (.down i))
  | up (i : Int) : Enters d p (.semup i) (.acquire d (.up i))
  | store (w : Option Int) :
      Enters d p (.store0 w) (.ret { d with word0 := Function.update d.word0 p w } 0)

theorem enters (d : STable) (p : Slot) (a : SemCall) : Enters d p a (semClient.enter a p d) := by
  cases a with
  | semget w v =>
    simp only [semClient]
    split_ifs with hfirst
    · exact .first w v hfirst
    · exact .get w v (by simpa using hfirst)
  | semfree i =>
    simp only [semClient, semfreeEnter]
    split_ifs
    · exact .fail i
    · split
      · exact .fail i
      · rename_i r hr
        exact .free i r (by simpa using List.find?_some hr)
  | semdown i => exact .down i
  | semup i => exact .up i
  | store0 w => exact .store w

namespace Accounted

variable {d : STable} {f : Slot → Option Point} {p : Slot}

theorem refcount_pos (h : Accounted d f) {i : Int} (hi : InTable i) (hp : Holds d p i) :
    0 < (d.sem i).refcount := by
  have hpos := holds_iff_tally.1 ⟨p, hp⟩
  rw [h.refs i hi]
  omega

theorem not_holds_of_unused (h : Accounted d f) {i : Int} (hi : InTable i)
    (hzero : (d.sem i).refcount = 0) (q : Slot) : ¬ Holds d q i := by
  intro hq
  have hpos := h.refcount_pos hi hq
  omega

theorem toRefs (h : Accounted d f) : Refs d f := by
  refine ⟨fun p k hk => ?_, h.refs⟩
  have hok := h.points p k hk
  cases k with
  | get | free => exact hok
  | down | wait | up | upDone => exact trivial

theorem step (h : Accounted d f) {d' : STable} {o : Option Point}
    (hfirst : d'.firstTime = true →
      ∀ q, Function.update f p o q = none ∧ ∀ r, d'.procsem q r = none)
    (hothers : ∀ q, q ≠ p → d'.procsem q = d.procsem q ∧ d'.word0 q = d.word0 q)
    (hpoint : ∀ k, o = some k → PointOk d' p k)
    (hrefs : RefStep d d' (f p) o)
    (hcounts : ∀ j, InTable j → Counted (d'.sem j) (d'.history j))
    (hfinish : ∀ j, (d'.history j).incs + (d.history j).ups +
          (if f p = some (.upDone j) then 1 else 0) =
        (d.history j).incs + (d'.history j).ups + if o = some (.upDone j) then 1 else 0) :
    Accounted d' (Function.update f p o) := by
  refine ⟨hfirst, fun q k hq => ?_, fun j hj => ?_, hcounts, fun j => ?_⟩
  · by_cases hqp : q = p
    · subst hqp
      exact hpoint k (by simpa using hq)
    · have hbefore := h.points q k (by simpa [hqp] using hq)
      exact hbefore.congr (hothers q hqp).1 (hothers q hqp).2
  · have hnew := hrefs j hj
    have hold := h.refs j hj
    have htally := tally_update f p o (some (.free j))
    split_ifs at hnew htally <;> omega
  · have hnew := hfinish j
    have hold := h.finish j
    have htally := tally_update f p o (some (.upDone j))
    omega

theorem step_of_point (h : Accounted d f) {k : Point} (hk : f p = some k) {d' : STable}
    {o : Option Point} (hft : d'.firstTime = d.firstTime)
    (hothers : ∀ q, q ≠ p → d'.procsem q = d.procsem q ∧ d'.word0 q = d.word0 q)
    (hpoint : ∀ k, o = some k → PointOk d' p k)
    (hrefs : RefStep d d' (some k) o)
    (hcounts : ∀ j, InTable j → Counted (d'.sem j) (d'.history j))
    (hfinish : ∀ j, (d'.history j).incs + (d.history j).ups + (if k = .upDone j then 1 else 0) =
        (d.history j).incs + (d'.history j).ups + if o = some (.upDone j) then 1 else 0) :
    Accounted d' (Function.update f p o) := by
  refine h.step (fun hfirst => ?_) hothers hpoint ?_ hcounts ?_
  · rw [hft] at hfirst
    exact absurd ((h.first hfirst p).1.symm.trans hk) (by simp)
  · rwa [hk]
  · simpa only [hk, Option.some.injEq] using hfinish

theorem goto (h : Accounted d f) {k : Point} (hk : f p = some k) {o : Option Point}
    (ho : ∀ k', o = some k' → PointOk d p k')
    (hfree : ∀ i, k ≠ .free i ∧ o ≠ some (.free i))
    (hdone : ∀ i, k ≠ .upDone i ∧ o ≠ some (.upDone i)) :
    Accounted d (Function.update f p o) := by
  refine h.step_of_point hk rfl (fun _ _ => ⟨rfl, rfl⟩) ho ?_ h.counts fun j => ?_
  · exact .of_eq (fun _ => rfl) rfl (by simpa using fun i => (hfree i).1) fun i => (hfree i).2
  · simp [hdone j]

theorem leave (h : Accounted d f) {k : Point} (hk : f p = some k) (hfree : ∀ i, k ≠ .free i)
    (hdone : ∀ i, k ≠ .upDone i) : Accounted d (Function.update f p none) :=
  h.goto hk (by simp) (by simpa using hfree) (by simpa using hdone)

theorem loop (h : Accounted d f) {i : Int} (hk : f p = some (.down i) ∨ f p = some (.wait i)) :
    Accounted d (Function.update f p (some (.wait i))) := by
  rcases hk with hk | hk
  · exact h.goto hk (by simpa [PointOk] using h.points p _ hk) (by simp) (by simp)
  · exact h.goto hk (by simpa [PointOk] using h.points p _ hk) (by simp) (by simp)

theorem create (h : Accounted d f) {i v w : Int} (hk : f p = some (.get w v)) (hi : InTable i)
    (hzero : (d.sem i).refcount = 0) {r : Fin MAXSEMPROC} (hr : d.procsem p r = none) :
    Accounted ((((d.setProcsem p r (some i)).setSem i ⟨v, 1⟩).addQuantity p 1).record i
      { created := some v, incs := 0, ups := 0, downs := 0 }) (Function.update f p none) := by
  refine h.step_of_point hk rfl (fun q hq => by simp [hq]) (by simp) (refStep_create hzero hr _)
    (fun j hj => ?_) fun j => ?_
  · by_cases hji : j = i
    · subst hji
      simpa using counted_new v 1
    · simpa [hji] using h.counts j hj
  · by_cases hji : j = i
    · subst hji
      -- nobody can be on the way out of `semup` on a semaphore without references
      have hnone : tally f (some (.upDone j)) = 0 := by
        apply tally_eq_zero_iff.2
        intro q hq
        exact h.not_holds_of_unused hi hzero q (h.points q _ hq).2
      have hfin := h.finish j
      simp
      omega
    · simp [hji]

theorem attach (h : Accounted d f) {i w v : Int} (hk : f p = some (.get w v)) (hi : InTable i)
    {r : Fin MAXSEMPROC} (hr : d.procsem p r = none) :
    Accounted ((d.setProcsem p r (some i)).setSem i
      { d.sem i with refcount := int32 ((d.sem i).refcount + 1) }) (Function.update f p none) := by
  refine h.step_of_point hk rfl (fun q hq => by simp [hq]) (by simp)
    (refStep_attach hr (h.toRefs.int32_refcount hi).1) (fun j hj => ?_) fun j => by simp
  · by_cases hji : j = i
    · subst hji
      simpa [Counted] using h.counts j hj
    · simpa [hji] using h.counts j hj

theorem detach (h : Accounted d f) {i : Int} (hk : f p = none) (hi : InTable i)
    {r : Fin MAXSEMPROC} (hr : d.procsem p r = some i) :
    Accounted (d.setProcsem p r none) (Function.update f p (some (.free i))) := by
  refine h.step (fun hfirst => ?_) (fun q hq => by simp [hq]) ?_ ?_ h.counts
    fun j => by simp [hk]
  · exact absurd ((h.first hfirst p).2 r) (by simp [hr])
  · intro k hpk
    obtain rfl := Option.some.inj hpk
    exact hi
  · rw [hk]
    exact refStep_detach hr

theorem free (h : Accounted d f) {i : Int} (hk : f p = some (.free i)) (n : Int) :
    Accounted ((d.setSem i
      { d.sem i with refcount := int32 ((d.sem i).refcount - 1) }).addQuantity p n)
      (Function.update f p none) := by
  have hi : InTable i := h.points p _ hk
  refine h.step_of_point hk rfl (fun q hq => by simp) (by simp)
    (refStep_free n (h.toRefs.int32_refcount hi).2) (fun j hj => ?_) fun j => by simp
  by_cases hji : j = i
  · subst hji
    simpa [Counted] using h.counts j hj
  · simpa [hji] using h.counts j hj

theorem dec (h : Accounted d f) {i : Int} (hk : f p = some (.wait i))
    (hne : (d.sem i).value ≠ 0) :
    Accounted ((d.setSem i { d.sem i with value := int32 ((d.sem i).value - 1) }).record i
      { d.history i with downs := (d.history i).downs + 1 }) (Function.update f p none) := by
  refine h.step_of_point hk rfl (fun q hq => by simp) (by simp) (fun j hj => ?_)
    (fun j hj => ?_) fun j => ?_
  · by_cases hji : j = i
    · subst hji
      simp
    · simp [hji]
  · by_cases hji : j = i
    · subst hji
      simpa using (h.counts j hj).dec hne
    · simpa [hji] using h.counts j hj
  · by_cases hji : j = i
    · subst hji
      simp
    · simp [hji]

theorem inc (h : Accounted d f) {i : Int} (hk : f p = some (.up i)) {o : Option Point}
    (ho : o = some (.upDone i) ∨ o = none) :
    Accounted ((d.setSem i { d.sem i with value := int32 ((d.sem i).value + 1) }).record i
      { d.history i with
        incs := (d.history i).incs + 1
        ups := (d.history i).ups + if o = none then 1 else 0 }) (Function.update f p o) := by
  refine h.step_of_point hk rfl (fun q hq => by simp) (fun k hpk => ?_) (fun j hj => ?_)
    (fun j hj => ?_) fun j => ?_
  · have hup := h.points p _ hk
    rcases ho with rfl | rfl
    · obtain rfl := Option.some.inj hpk
      exact hup.congr rfl rfl
    · simp at hpk
  · have hfree : o ≠ some (.free j) := by
      rcases ho with rfl | rfl <;> simp
    by_cases hji : j = i
    · subst hji
      simp [hfree]
    · simp [hji, hfree]
  · by_cases hji : j = i
    · subst hji
      simpa using (h.counts j hj).inc _
    · simpa [hji] using h.counts j hj
  · by_cases hji : j = i
    · subst hji
      rcases ho with rfl | rfl <;> simp <;> omega
    · rcases ho with rfl | rfl <;> simp [hji, Ne.symm hji]

theorem done (h : Accounted d f) {i : Int} (hk : f p = some (.upDone i)) :
    Accounted (d.record i { d.history i with ups := (d.history i).ups + 1 })
      (Function.update f p none) := by
  refine h.step_of_point hk rfl (fun q hq => by simp) (by simp) (fun j hj => by simp)
    (fun j hj => ?_) fun j => ?_
  · by_cases hji : j = i
    · subst hji
      simpa [Counted] using h.counts j hj
    · simpa [hji] using h.counts j hj
  · by_cases hji : j = i
    · subst hji
      simp
      omega
    · simp [hji, Ne.symm hji]

theorem body (h : Accounted d f) {k : Point} (hk : f p = some k) :
    Accounted (semClient.body k p d).data
      (Function.update f p (semClient.body k p d).point) := by
  have hok := h.points p k hk
  cases k with
  | get w v =>
    have hleave := h.leave hk (by simp) (by simp)
    simp only [semClient, semgetBody]
    split_ifs with hw hzero
    · split
      · exact hleave
      · rename_i i hunused
        obtain ⟨hi, hzero⟩ := unusedSem_spec hunused
        split
        · exact hleave
        · rename_i d' hattach
          obtain ⟨r, hr, rfl⟩ := attach_of_guarded hok.2 hattach
          exact h.create hk hi hzero hr
    · exact hleave
    · split
      · exact hleave
      · rename_i d' hattach
        obtain ⟨r, hr, rfl⟩ := attach_of_guarded hok.2 hattach
        exact h.attach hk (hok.1.resolve_left hw) hr
  | free i => exact h.free hk (-1)
  | down i =>
    simp only [semClient, semdownBody]
    split_ifs
    · exact h.leave hk (by simp) (by simp)
    · exact h.loop (.inl hk)
  | wait i =>
    simp only [semClient, semdownLoop]
    split_ifs with hzero
    · exact h.loop (.inr hk)
    · exact h.dec hk hzero
  | up i =>
    simp only [semClient, semupBody]
    split_ifs
    · exact h.leave hk (by simp) (by simp)
    · exact h.inc hk (.inl rfl)
    · exact h.inc hk (.inr rfl)
    · exact h.leave hk (by simp) (by simp)
  | upDone i => exact h.done hk

theorem enter (h : Accounted d f) (hf : f p = none) {a : SemCall} (ha : ProperCall d p a)
    {d' : STable} {k : Point} (hstart : semClient.enter a p d = .acquire d' k ∨
      semClient.enter a p d = .initlock d' k) :
    Accounted d' (Function.update f p (some k)) := by
  have henters := enters d p a
  rcases hstart with hstart | hstart <;> rw [hstart] at henters <;> cases henters
  case inl.get w v hft =>
    refine h.step (by simp [hft]) (by simp) ?_ (.of_eq (fun _ => rfl) rfl (by simp [hf]) (by simp)) h.counts
      (by simp [hf])
    rintro _ ⟨⟩
    exact ha
  case inr.first w v hft =>
    refine h.step (by simp) (by simp) ?_ (.of_eq (fun _ => rfl) rfl (by simp [hf]) (by simp)) h.counts
      (by simp [hf])
    rintro _ ⟨⟩
    exact ha
  case inl.free i r hr => exact h.detach hf ha hr
  all_goals
    obtain ⟨r, hr⟩ := ha.2
    refine h.step (fun hfirst => ?_) (by simp) ?_
      (.of_eq (fun _ => rfl) rfl (by simp [hf]) (by simp)) h.counts (by simp [hf])
    · exact absurd ((h.first hfirst p).2 r) (by simp [hr])
    · rintro _ ⟨⟩
      exact ha

theorem ret (h : Accounted d f) (hf : f p = none) {a : SemCall} {d' : STable} {rv : Int}
    (hret : semClient.enter a p d = .ret d' rv) : Accounted d' f := by
  have henters := enters d p a
  rw [hret] at henters
  cases henters with
  | fail i => exact h
  | store w =>
    have hsame : Function.update f p none = f := by rw [← hf, Function.update_eq_self]
    rw [← hsame]
    refine h.step (fun hfirst => ?_) (fun q hq => by simp [hq]) (by simp)
      (.of_eq (fun _ => rfl) rfl (by simp [hf]) (by simp)) h.counts (by simp [hf])
    rw [hsame]
    exact h.first hfirst

end Accounted

/-! ## Runs -/

/-- A semaphore has been made with a value that its history cannot push out of
range, and has units left. -/
def Available (d : STable) (i : Int) : Prop :=
  InTable i ∧ 0 < (d.sem i).value ∧
    ∃ v, (d.history i).created = some v ∧ 0 ≤ v ∧ v + (d.history i).incs < 2 ^ 31

def semProtocol : Protocol semClient where
  Ready ch d := ∃ i, ch = semChan i ∧ Available d i
  Owes _ _ := False
  own := by
    rintro _ d ⟨i, rfl, ⟨hlo, hhi⟩, _⟩
    simp [semClient, semChan, hlo, hhi]
  own_proc _ := rfl

/-- The channel of a semaphore goes with the loop of `semdown` on it. -/
def SemFits (ch : Chan) (k : Point) : Prop := ∃ i, ch = semChan i ∧ k = .wait i

structure SemInv (s : SemState) : Prop where
  locked : Locked s
  accounted : Accounted s.data s.points
  parked : Parked semClient SemFits s
  outside : Outside (fun k => ∀ i, k ≠ .upDone i) s
  heard : semProtocol.Heard s

theorem Available.congr {d d' : STable} {i : Int} (h : Available d' i)
    (hval : (d'.sem i).value = (d.sem i).value)
    (hhist : (d'.history i).created = (d.history i).created ∧
      (d'.history i).incs = (d.history i).incs) : Available d i := by
  unfold Available at h ⊢
  rwa [hval, hhist.1, hhist.2] at h

theorem Available.of_dec {d : STable} {f : Slot → Option Point} (hacc : Accounted d f) {i j : Int}
    (hne : (d.sem i).value ≠ 0)
    (h : Available ((d.setSem i { d.sem i with value := int32 ((d.sem i).value - 1) }).record i
      { d.history i with downs := (d.history i).downs + 1 }) j) : Available d j := by
  by_cases hji : j = i
  · subst hji
    obtain ⟨hj, _, v, hv, hpos, hlt⟩ := h
    have hcreated : (d.history j).created = some v := by simpa using hv
    have hbound : v + (d.history j).incs < 2 ^ 31 := by simpa using hlt
    have hnonneg := (hacc.counts j hj v hcreated hpos hbound).2
    exact ⟨hj, by omega, v, hcreated, hpos, hbound⟩
  · exact h.congr (by simp [hji]) (by simp [hji])

theorem Available.of_inc {d : STable} {i j : Int} {ups : Nat} (hnonneg : 0 ≤ (d.sem i).value)
    (h : Available ((d.setSem i { d.sem i with value := int32 ((d.sem i).value + 1) }).record i
      { d.history i with incs := (d.history i).incs + 1, ups := ups }) j) :
    Available d j ∨ (j = i ∧ (d.sem i).value = 0) := by
  by_cases hji : j = i
  · subst hji
    by_cases hzero : (d.sem j).value = 0
    · exact .inr ⟨rfl, hzero⟩
    · obtain ⟨hj, _, v, hv, hpos, hlt⟩ := h
      have hbound : v + ((d.history j).incs + 1 : Nat) < 2 ^ 31 := by simpa using hlt
      exact .inl ⟨hj, by omega, v, by simpa using hv, hpos, by omega⟩
  · exact .inl (h.congr (by simp [hji]) (by simp [hji]))

namespace SemInv

variable {s t : SemState}

theorem holds_of_sleeping (h : SemInv s) {x : Slot} {i : Int} {k : Point}
    (hx : (s.pc x).sleeping = some (semChan i, k)) : Holds s.data x i := by
  obtain ⟨j, hch, rfl⟩ := h.parked.fits x _ k hx
  obtain rfl : i = j := by simpa [semChan] using hch
  have hpoint : s.points x = some (.wait i) := by
    unfold State.points
    cases hpc : s.pc x <;> simp_all [Pc.sleeping, Pc.point]
  exact (h.accounted.points x _ hpoint).2

theorem unattended_of_unused (h : SemInv s) {i : Int} (hi : InTable i)
    (hzero : (s.data.sem i).refcount = 0) : Unattended s (semChan i) := by
  intro x hx
  have hsleeping : ∃ k, (s.pc x).sleeping = some (semChan i, k) := by
    rcases hx with ⟨k, hk⟩ | hsl
    · exact ⟨k, by rw [hk]; rfl⟩
    · obtain ⟨k, hk⟩ := h.parked.parked x _ (by simp [semClient, semChan, hi.1, hi.2]) hsl
      exact ⟨k, by rw [hk]; rfl⟩
  obtain ⟨k, hk⟩ := hsleeping
  exact h.accounted.not_holds_of_unused hi hzero x (h.holds_of_sleeping hk)

theorem kept {k : Point} {ch : Chan} {d' : STable} (hready : semProtocol.Ready ch d')
    (hav : ∀ i, Available d' i → Available s.data i ∨ Unattended s (semChan i)) :
    semProtocol.Kept s k ch := by
  obtain ⟨i, rfl, hi⟩ := hready
  rcases hav i hi with hav | hun
  · exact .inr ⟨⟨i, rfl, hav⟩, id⟩
  · exact .inl hun

theorem disciplined (h : SemInv s) {p : Slot} {k : Point} (hpc : s.pc p = .crit k) :
    semProtocol.Disciplined s k (semClient.body k p s.data) := by
  have hpoint : s.points p = some k := by simp [State.points, hpc, Pc.point]
  have hok := h.accounted.points p k hpoint
  have hsame : ∀ ch, semProtocol.Ready ch s.data → semProtocol.Kept s k ch :=
    fun ch hready => kept hready fun i hi => .inl hi
  cases k with
  | get w v =>
    simp only [semClient, semgetBody]
    split_ifs with hw hzero
    · split
      · exact hsame
      · rename_i i hunused
        obtain ⟨hi, hzero⟩ := unusedSem_spec hunused
        split
        · exact hsame
        · rename_i d' hattach
          obtain ⟨r, hr, rfl⟩ := attach_of_guarded hok.2 hattach
          refine fun ch hready => kept hready fun j hj => ?_
          by_cases hji : j = i
          · exact .inr (hji ▸ h.unattended_of_unused hi hzero)
          · exact .inl (hj.congr (by simp [hji]) (by simp [hji]))
    · exact hsame
    · split
      · exact hsame
      · rename_i d' hattach
        obtain ⟨r, hr, rfl⟩ := attach_of_guarded hok.2 hattach
        refine fun ch hready => kept hready fun j hj => .inl (hj.congr ?_ (by simp))
        by_cases hji : j = w
        · subst hji
          simp
        · simp [hji]
  | free i =>
    refine fun ch hready => kept hready fun j hj => .inl (hj.congr ?_ (by simp))
    by_cases hji : j = i
    · subst hji
      simp
    · simp [hji]
  | down i =>
    simp only [semClient, semdownBody]
    split_ifs
    · exact hsame
    · exact fun ch hready => .inl (hsame ch hready)
  | wait i =>
    simp only [semClient, semdownLoop]
    split_ifs with hzero
    · refine ⟨hsame, ?_⟩
      rintro ⟨j, hch, _, hpos, _⟩
      obtain rfl : i = j := by simpa [semChan] using hch
      omega
    · exact fun ch hready => kept hready fun j hj => .inl (hj.of_dec h.accounted hzero)
  | up i =>
    simp only [semClient, semupBody]
    split_ifs with hrc hnonneg hzero
    · exact hsame
    · intro ch hready
      obtain ⟨j, rfl, hj⟩ := hready
      rcases hj.of_inc hnonneg with hav | ⟨rfl, _⟩
      · exact .inl (hsame _ ⟨j, rfl, hav⟩)
      · exact .inr (.inl rfl)
    · refine fun ch hready => kept hready fun j hj => ?_
      exact .inl ((hj.of_inc hnonneg).resolve_right fun hbad => hzero hbad.2)
    · exact hsame
  | upDone i =>
    refine fun ch hready => kept hready fun j hj => .inl (hj.congr (by simp) ?_)
    by_cases hji : j = i
    · subst hji
      simp
    · simp [hji]

theorem of_move (h : SemInv s) {p : Slot} (hm : semClient.Move s p t) : SemInv t where
  locked := h.locked.of_move hm
  accounted := by
    rcases hm.data_points with ⟨hd, hp⟩ | ⟨k, hpc, hd, hp⟩
    · rw [hd, hp]
      exact h.accounted
    · rw [hd, hp]
      exact h.accounted.body (by simp [State.points, hpc, Pc.point])
  parked := by
    refine h.parked.of_move hm fun k p d d' ch k' hb => ?_
    cases k with
    | wait i =>
      simp only [semClient, semdownLoop] at hb
      split_ifs at hb
      obtain ⟨_, rfl, rfl⟩ := Next.sleep.inj hb
      exact ⟨i, rfl, rfl⟩
    | get w v =>
      simp only [semClient, semgetBody] at hb
      split_ifs at hb <;> split at hb <;> try split at hb
      all_goals simp at hb
    | down i =>
      simp only [semClient, semdownBody] at hb
      split_ifs at hb
    | up i =>
      simp only [semClient, semupBody] at hb
      split_ifs at hb
    | free i | upDone i => simp [semClient, semfreeBody, semupDone] at hb
  outside := by
    refine h.outside.of_move hm fun ch k hpc i => ?_
    obtain ⟨j, _, rfl⟩ := h.parked.fits p ch k (by simp [hpc, Pc.sleeping])
    simp
  heard := h.heard.of_move h.locked hm fun k => h.disciplined

theorem of_start (h : SemInv s) {p : Slot} {a : SemCall} (ha : ProperCall s.data p a)
    (ht : semClient.start s p a = some t) : SemInv t where
  locked := by
    refine h.locked.of_start ht fun d k henter q => ?_
    have henters := enters s.data p a
    rw [henter] at henters
    cases henters with
    | first w v hft =>
      have hnone := (h.accounted.first hft q).1
      unfold State.points at hnone
      cases hpc : s.pc q <;> simp_all [Pc.point, Pc.holdsLock]
  accounted := by
    obtain ⟨hidle, _, ⟨d, k, henter, hd, htpc⟩ | ⟨d, rv, hret, hd, htpc⟩⟩ :=
      Client.start_cases ht
    · rw [hd, State.points_update htpc]
      exact h.accounted.enter (by simp [State.points, hidle, Pc.point]) ha henter
    · have hsame : t.points = s.points := by
        unfold State.points
        rw [htpc]
      rw [hd, hsame]
      exact h.accounted.ret (by simp [State.points, hidle, Pc.point]) hret
  parked := h.parked.of_start ht
  outside := by
    refine h.outside.of_start ht fun d k henter i => ?_
    have henters := enters s.data p a
    rcases henter with henter | henter <;> rw [henter] at henters <;> cases henters <;> simp
  heard := by
    refine h.heard.of_start ht ?_
    rintro ch ⟨i, rfl, hi⟩
    refine ⟨i, rfl, ?_⟩
    have henters := enters s.data p a
    obtain ⟨_, _, ⟨d, k, henter, hd, _⟩ | ⟨d, rv, henter, hd, _⟩⟩ := Client.start_cases ht
    · rw [hd] at hi
      rcases henter with henter | henter <;> rw [henter] at henters <;> cases henters <;> exact hi
    · rw [hd] at hi
      rw [henter] at henters
      cases henters <;> exact hi

theorem of_tableMove (h : SemInv s) {op : Op} {pt : PTable} (hl : s.ptLock = none)
    (hop : semClient.allowed s op = true) (hnext : Sched.next s.pt op = some pt)
    (hm : semClient.TableMove s op pt t) : SemInv t where
  locked := h.locked.of_tableMove hl hm
  accounted := by
    rw [hm.points_eq]
    cases hm with
    | plain | resume => exact h.accounted
    | exit => exact ⟨h.accounted.first, h.accounted.points, h.accounted.refs,
        h.accounted.counts, h.accounted.finish⟩
  parked := h.parked.of_tableMove hop (fun _ => rfl) hnext hm
  outside := h.outside.of_tableMove hm
  heard := h.heard.of_tableMove hop hnext hm fun _ _ _ hready => hready

theorem of_step (h : SemInv s) {l : Label SemCall} (hok : Proper s l)
    (hstep : semMachine.step s l t) : SemInv t := by
  cases l with
  | call p a =>
    obtain ⟨_, ht⟩ := Option.ite_none_right_eq_some.1 hstep
    exact h.of_start hok ht
  | step p =>
    obtain ⟨_, ht⟩ := Option.ite_none_right_eq_some.1 hstep
    exact h.of_move (.of_advance ht)
  | table op =>
    obtain ⟨hop, ht⟩ := Option.ite_none_right_eq_some.1 hstep
    obtain ⟨hl, pt, hnext, hm⟩ := Client.TableMove.of_tableStep ht
    exact h.of_tableMove hl hop hnext hm

theorem boot (hs : semMachine.init s) : SemInv s := by
  subst hs
  have hpoints : (Client.boot (K := Point) STable.boot).points = fun _ => none := rfl
  constructor
  · exact ⟨by simp [Client.boot, Pc.holdsLock], by simp [Client.boot, Pc.holdsPtLock]⟩
  · rw [hpoints]
    constructor
    · simp [Client.boot, STable.boot]
    · simp
    · intro i _
      simp [Client.boot, STable.boot, descriptors, tally, Function.uncurry]
    · simp [Client.boot, STable.boot, Counted]
    · simp [Client.boot, STable.boot, tally]
  · exact ⟨by simp [Client.boot, SleepsOn, PTable.boot, Proc.zero],
      by simp [Client.boot, Pc.sleeping]⟩
  · intro x k hk
    simp [Client.boot, Pc.point] at hk
  · refine ⟨?_, by simp [Client.boot]⟩
    rintro ch ⟨i, _, _, _, v, hv, _⟩
    simp [Client.boot, STable.boot] at hv

end SemInv

theorem Reach.semInv {s : SemState} (h : semMachine.Reach Proper s) : SemInv s :=
  h.invariant (fun _ => SemInv.boot) fun _ _ _ hs hok hstep => hs.of_step hok hstep

/-- In every run of processes that hold the semaphores they use, a semaphore made
with `v` units has `v` plus those brought minus those taken, as long as `v` plus
those brought stays in range.  While `stable.lock` is free every unit brought
belongs to a call of `semup` that has returned, and if there are units left then
nobody is asleep for want of one. -/
theorem semaphore_conserved {s : SemState} (h : semMachine.Reach Proper s) {i v : Int}
    (hi : InTable i) (hv : (s.data.history i).created = some v) (hpos : 0 ≤ v)
    (hlt : v + (s.data.history i).incs < 2 ^ 31) :
    (s.data.sem i).value = v + (s.data.history i).incs - (s.data.history i).downs ∧
      0 ≤ (s.data.sem i).value ∧
      (s.lock = none → (s.data.history i).incs = (s.data.history i).ups ∧
        (0 < (s.data.sem i).value → ∀ p, ¬ SleepsOn s.pt (some (semChan i)) p)) := by
  have hinv := Reach.semInv h
  obtain ⟨hval, hnonneg⟩ := hinv.accounted.counts i hi v hv hpos hlt
  refine ⟨hval, hnonneg, fun hfree => ⟨?_, fun hunits p hp => ?_⟩⟩
  · have hnone : tally s.points (some (.upDone i)) = 0 := by
      apply tally_eq_zero_iff.2
      intro p hp
      have hholds : (s.pc p).holdsLock = false := by
        by_contra hne
        have hlock := hinv.locked.lock p (by simpa using hne)
        simp [hfree] at hlock
      exact hinv.outside p _ hp hholds i rfl
    have hfin := hinv.accounted.finish i
    omega
  · have hready : semProtocol.Ready (semChan i) s.data := ⟨i, rfl, hi, hunits, v, hv, hpos, hlt⟩
    rcases hinv.heard.heard _ hready with ⟨q, hq⟩ | hun
    · have hlock := hinv.locked.lock q (Protocol.holdsLock_of_owes hq)
      simp [hfree] at hlock
    · exact hun p (.inr hp)

/-- `init` makes a semaphore without units, its child obtains it, `init` goes to
sleep in `semdown`, and the child's `semup` wakes it. -/
def handover : List (Label SemCall) :=
  let init : Slot := ⟨0, Sched.zero_lt_NPROC⟩
  let child : Slot := ⟨1, Sched.one_lt_NPROC⟩
  [.table .userinit, .table .scheduler, .call init (.semget (-1) 0), .step init, .step init,
    .table (.fork init true true), .table .scheduler, .call child (.semget 0 0), .step child,
    .step child, .call init (.semdown 0)] ++ List.replicate 6 (.step init) ++
    [.call child (.semup 0)] ++ List.replicate 6 (.step child)

theorem semaphore_conserved_handover :
    ∃ s, Machine.runList (fun s l => if Proper s l then semClient.next s l else none)
        (Client.boot .boot) handover = some s ∧
      s.lock = none ∧ (s.data.sem 0).value = 0 + (1 : Nat) - (0 : Nat) ∧
      ∀ p, ¬ SleepsOn s.pt (some (semChan 0)) p := by
  have hdec : (Machine.runList (fun s l => if Proper s l then semClient.next s l else none)
      (Client.boot .boot) handover).any (fun s => s.lock = none ∧
        (s.data.sem 0).value = 1 ∧
        s.data.history 0 = { created := some 0, incs := 1, ups := 1, downs := 0 }) = true := by
    decide +kernel
  obtain ⟨s, hs, hgoal⟩ := (Option.any_eq_true _ _).1 hdec
  obtain ⟨hlock, hone, hhist⟩ := by simpa using hgoal
  have hreach : semMachine.Reach Proper s := Machine.reach_of_runList handover (.init rfl) hs
  have hcons := semaphore_conserved (i := 0) (v := 0) hreach (by decide) (by rw [hhist])
    (by decide) (by rw [hhist]; decide)
  rw [hhist] at hcons
  exact ⟨s, hs, hlock, hcons.1, (hcons.2.2 hlock).2 (by omega)⟩

end Xv6.Sync
