import Xv6.Sync.Refcount

/-!
# Semaphores and the processes that use them

`Effect` says once what a step does to the semaphore table and to the places of the processes
in the code.  Two results about the runs of `Xv6.Sync.Refcount` follow: a semaphore on which a
process is blocked keeps its references if the process holds one itself, and `semquantity` is
the number of descriptors as long as `semget` only makes semaphores.
-/

namespace Xv6.Sync

open Xv6.Lib Xv6.Sched

/-! ## What a step does -/

inductive Effect (s : RefState) (l : RefLabel) (u : RefState) : Prop
  | same (hdata : u.sem.data = s.sem.data) (hpoints : u.sem.points = s.sem.points)
  /-- The end of `exit`. -/
  | leave (p : Slot) (hexit : semClient.mayExit s.sem.data p = true)
      (hidle : s.sem.points p = none)
      (hdata : u.sem.data = semClient.onExit p s.sem.data) (hpoints : u.sem.points = s.sem.points)
  /-- A stretch of code in a critical section. -/
  | body (p : Slot) (k : Point) (hl : l = .sem (.step p)) (hpc : s.sem.pc p = .crit k)
      (hdata : u.sem.data = (semClient.body k p s.sem.data).data)
      (hpoints : u.sem.points =
        Function.update s.sem.points p (semClient.body k p s.sem.data).point)
  /-- A call up to its `acquire`. -/
  | enter (p : Slot) (c : SemCall) (k : Point)
      (hl : l = .sem (.call p c) ∨ ∃ i, c = .semfree i)
      (hidle : s.sem.points p = none)
      (henter : semClient.enter c p s.sem.data = .acquire u.sem.data k ∨
        semClient.enter c p s.sem.data = .initlock u.sem.data k)
      (hpoints : u.sem.points = Function.update s.sem.points p (some k))
  /-- A call that returns before it. -/
  | ret (p : Slot) (c : SemCall) (rv : Int)
      (henter : semClient.enter c p s.sem.data = .ret u.sem.data rv)
      (hpoints : u.sem.points = s.sem.points)
  /-- The rest of a `semget` that has found `first_time` set. -/
  | init (p : Slot) (i v : Int) (hlate : s.late p = some (i, v))
      (hdata : u.sem.data = { s.sem.data with firstTime := false })
      (hpoints : u.sem.points = Function.update s.sem.points p (some (.get i v)))

section Effect

variable {s u : RefState} {t : SemState} {p : Slot}

theorem Effect.of_start {l : RefLabel} {c : SemCall} (ht : semClient.start s.sem p c = some t)
    (hu : u.sem = t) (hl : l = .sem (.call p c) ∨ ∃ i, c = .semfree i) : Effect s l u := by
  obtain ⟨hidle, _, hcases⟩ := Client.start_cases ht
  have hpoint : s.sem.points p = none := by simp [State.points, hidle, Pc.point]
  rcases hcases with ⟨d, k, henter, hd, hpc⟩ | ⟨d, rv, henter, hd, hpc⟩
  · refine .enter p c k hl hpoint ?_ ?_
    · rwa [hu, hd]
    · rw [hu]
      exact State.points_update hpc
  · refine .ret p c rv ?_ ?_
    · rwa [hu, hd]
    · rw [hu]
      unfold State.points
      rw [hpc]

theorem Effect.of_tableStep {l : RefLabel} {op : Op} (ht : semClient.tableStep s.sem op = some t)
    (hexit : ∀ q, op = .exit q →
      semClient.mayExit s.sem.data q = true ∧ s.sem.points q = none) (hu : u.sem = t) :
    Effect s l u := by
  obtain ⟨_, pt, _, hm⟩ := Client.TableMove.of_tableStep ht
  have hpoints := hm.points_eq
  rw [← hu] at hpoints
  cases hm with
  | plain => exact .same (by rw [hu]) hpoints
  | @exit q hop =>
    obtain ⟨hmay, hidle⟩ := hexit q hop
    exact .leave q hmay hidle (by rw [hu]) hpoints
  | resume => exact .same (by rw [hu]; rfl) hpoints

theorem Effect.of_next {l : RefLabel} (hinv : RefInv s) (hstep : s.next l = some u) :
    Effect s l u := by
  cases l with
  | sem l =>
    cases l with
    | call p c =>
      obtain ⟨_, hstep⟩ := Option.ite_none_right_eq_some.1 hstep
      obtain ⟨t, ht, rfl⟩ := Option.map_eq_some_iff.1 hstep
      obtain ⟨_, ht⟩ := Option.ite_none_right_eq_some.1 ht
      exact .of_start ht rfl (.inl rfl)
    | step p =>
      obtain ⟨t, ht, rfl⟩ := Option.map_eq_some_iff.1 hstep
      obtain ⟨_, ht⟩ := Option.ite_none_right_eq_some.1 ht
      rcases (Client.Move.of_advance ht).data_points with ⟨hd, hp⟩ | ⟨k, hpc, hd, hp⟩
      · exact .same hd hp
      · exact .body p k rfl hpc hd hp
    | table op =>
      obtain ⟨hallows, hstep⟩ := Option.ite_none_right_eq_some.1 hstep
      obtain ⟨t, ht, rfl⟩ := Option.map_eq_some_iff.1 hstep
      obtain ⟨_, ht⟩ := Option.ite_none_right_eq_some.1 ht
      refine .of_tableStep ht (fun q hq => ?_) rfl
      simp [hq, RefState.allows] at hallows
  | late p i v =>
    obtain ⟨_, hstep⟩ := Option.ite_none_right_eq_some.1 hstep
    obtain rfl := Option.some.inj hstep
    exact .same rfl rfl
  | init p =>
    simp only [RefState.next] at hstep
    split at hstep
    · simp at hstep
    · rename_i i v hlate
      obtain ⟨_, hstep⟩ := Option.ite_none_right_eq_some.1 hstep
      obtain rfl := Option.some.inj hstep
      have hpc : (s.initlock p i v).sem.pc = Function.update s.sem.pc p (.acq (.get i v)) := rfl
      exact .init p i v hlate rfl (State.points_update hpc)
  | exit p =>
    obtain ⟨_, hstep⟩ := Option.ite_none_right_eq_some.1 hstep
    obtain rfl := Option.some.inj hstep
    exact .same rfl rfl
  | turn p =>
    simp only [RefState.next] at hstep
    split at hstep
    · simp at hstep
    · rename_i sd hsd
      obtain ⟨⟨_, hidle⟩, hstep⟩ := Option.ite_none_right_eq_some.1 hstep
      split_ifs at hstep with hlt
      · unfold RefState.closeOne at hstep
        split at hstep
        · obtain rfl := Option.some.inj hstep
          exact .same rfl rfl
        · rename_i i _
          obtain ⟨t, ht, rfl⟩ := Option.map_eq_some_iff.1 hstep
          exact .of_start ht rfl (.inr ⟨i, rfl⟩)
      · obtain ⟨t, ht, rfl⟩ := Option.map_eq_some_iff.1 hstep
        refine .of_tableStep ht (fun q hq => ?_) rfl
        obtain rfl : p = q := by simpa using hq
        have hdone := (hinv.exiting p sd hsd).2.1
        refine ⟨?_, ?_⟩
        · simp only [semClient, List.all_eq_true, decide_eq_true_eq]
          exact fun r _ => hdone r (by omega)
        · unfold State.points
          cases hpc : s.sem.pc p with
          | idle => rfl
          | _ => simp [hpc, Pc.isIdle] at hidle

end Effect

/-! ## Blocked processes -/

def Downs (s : SemState) (p : Slot) (i : Int) : Prop :=
  s.points p = some (.down i) ∨ s.points p = some (.wait i)

def WaitersHold (s : RefState) (l : RefLabel) : Prop :=
  IdsOk s l ∧ match l with
    | .sem (.call p (.semdown i)) => Holds s.sem.data p i
    | _ => True

instance (s : RefState) : (l : RefLabel) → Decidable (WaitersHold s l)
  | .sem (.call _ (.semdown _)) => inferInstanceAs (Decidable (_ ∧ _))
  | .sem (.call _ (.semget _ _)) | .sem (.call _ (.semfree _)) | .sem (.call _ (.semup _))
  | .sem (.call _ (.store0 _)) | .sem (.step _) | .sem (.table _) | .late _ _ _ | .init _
  | .exit _ | .turn _ => inferInstanceAs (Decidable (_ ∧ True))

/-- The step is a `semget(-1)` that hands out the semaphore. -/
def HandsOut (s : RefState) (l : RefLabel) (i : Int) : Prop :=
  ∃ p v, l = .sem (.step p) ∧ s.sem.pc p = .crit (.get (-1) v) ∧ s.sem.data.unusedSem = some i ∧
    (s.sem.data.attach p i).isSome = true

structure HoldInv (s : RefState) : Prop where
  refs : RefInv s
  downs : ∀ p i, Downs s.sem p i → InTable i ∧ Holds s.sem.data p i

section HoldInv

variable {s u : RefState} {p : Slot}

theorem Holds.congr {d d' : STable} {i : Int} (h : Holds d p i)
    (hproc : d'.procsem p = d.procsem p) : Holds d' p i := by
  unfold Holds
  rw [hproc]
  exact h

theorem HoldInv.move (h : HoldInv s) (hrefs : RefInv u) {o : Option Point}
    (hpoints : u.sem.points = Function.update s.sem.points p o)
    (hothers : ∀ q, q ≠ p → u.sem.data.procsem q = s.sem.data.procsem q)
    (hself : ∀ i, o = some (.down i) ∨ o = some (.wait i) →
      InTable i ∧ Holds u.sem.data p i) : HoldInv u := by
  refine ⟨hrefs, fun q i hq => ?_⟩
  unfold Downs at hq
  rw [hpoints] at hq
  by_cases hqp : q = p
  · rw [hqp] at hq ⊢
    rw [Function.update_self] at hq
    exact hself i hq
  · rw [Function.update_of_ne hqp] at hq
    obtain ⟨hi, hholds⟩ := h.downs q i hq
    exact ⟨hi, hholds.congr (hothers q hqp)⟩

theorem HoldInv.stay (h : HoldInv s) (hrefs : RefInv u) (hpoints : u.sem.points = s.sem.points)
    (hproc : u.sem.data.procsem = s.sem.data.procsem) : HoldInv u := by
  refine ⟨hrefs, fun q i hq => ?_⟩
  unfold Downs at hq
  rw [hpoints] at hq
  obtain ⟨hi, hholds⟩ := h.downs q i hq
  exact ⟨hi, hholds.congr (congrFun hproc q)⟩

theorem body_down {d : STable} {k : Point} {i : Int}
    (h : (semClient.body k p d).point = some (.down i) ∨
      (semClient.body k p d).point = some (.wait i)) :
    (k = .down i ∨ k = .wait i) ∧ (semClient.body k p d).data.procsem = d.procsem := by
  cases k with
  | down j =>
    simp only [semClient, semdownBody] at h ⊢
    split_ifs at h ⊢
    · simp [Next.point] at h
    · refine ⟨.inl ?_, rfl⟩
      simpa [Next.point] using h
  | wait j =>
    simp only [semClient, semdownLoop] at h ⊢
    split_ifs at h ⊢
    · refine ⟨.inr ?_, rfl⟩
      simpa [Next.point] using h
    · simp [Next.point] at h
  | get w v =>
    exfalso
    simp only [semClient, semgetBody] at h
    split_ifs at h
    · split at h
      · simp [Next.point] at h
      · split at h <;> simp [Next.point] at h
    · simp [Next.point] at h
    · split at h <;> simp [Next.point] at h
  | free j => simp [semClient, semfreeBody, Next.point] at h
  | up j =>
    exfalso
    simp only [semClient, semupBody] at h
    split_ifs at h <;> simp [Next.point] at h
  | upDone j => simp [semClient, semupDone, Next.point] at h

theorem enter_down {d d' : STable} {c : SemCall} {k : Point}
    (h : semClient.enter c p d = .acquire d' k ∨ semClient.enter c p d = .initlock d' k) :
    (∀ q, q ≠ p → d'.procsem q = d.procsem q) ∧
      ∀ i, k = .down i ∨ k = .wait i → c = .semdown i ∧ d' = d := by
  have henters := enters d p c
  rcases h with henter | henter <;> rw [henter] at henters
  · cases henters with
    | get | up => exact ⟨fun _ _ => rfl, fun i hi => by simp at hi⟩
    | free i r => exact ⟨fun q hq => by simp [hq], fun i hi => by simp at hi⟩
    | down j =>
      refine ⟨fun _ _ => rfl, fun i hi => ⟨?_, rfl⟩⟩
      simpa using hi
  · cases henters with
    | first => exact ⟨fun _ _ => rfl, fun i hi => by simp at hi⟩

theorem HoldInv.next (h : HoldInv s) {l : RefLabel} (hok : WaitersHold s l)
    (hstep : s.next l = some u) : HoldInv u := by
  have hrefs := h.refs.of_next hok.1 hstep
  cases Effect.of_next h.refs hstep with
  | same hdata hpoints => exact h.stay hrefs hpoints (by rw [hdata])
  | leave p _ _ hdata hpoints =>
    refine h.stay hrefs hpoints ?_
    rw [hdata]
    rfl
  | body p k _ hpc hdata hpoints =>
    have hk : s.sem.points p = some k := by simp [State.points, hpc, Pc.point]
    refine h.move hrefs hpoints (fun q hq => ?_) fun i hi => ?_
    · have hbody := body_procsem (h.refs.refs.points p k hk)
      rw [← hdata] at hbody
      rcases hbody with ⟨hproc, _⟩ | ⟨_, _, i, r, _, _, hproc, _⟩
      · rw [hproc]
      · rw [hproc]
        simp [hq]
    · obtain ⟨hkind, hproc⟩ := body_down hi
      have hdowns : Downs s.sem p i := by
        unfold Downs
        rw [hk]
        simpa using hkind
      obtain ⟨hin, hholds⟩ := h.downs p i hdowns
      refine ⟨hin, hholds.congr ?_⟩
      rw [hdata, hproc]
  | enter p c k hl hidle henter hpoints =>
    obtain ⟨hothers, hself⟩ := enter_down henter
    refine h.move hrefs hpoints hothers fun i hi => ?_
    obtain ⟨rfl, hdata⟩ := hself i (by simpa using hi)
    rcases hl with rfl | ⟨j, hj⟩
    · rw [hdata]
      exact ⟨hok.1, hok.2⟩
    · simp at hj
  | ret p c rv henter hpoints =>
    refine h.stay hrefs hpoints ?_
    have henters := enters s.sem.data p c
    rw [henter] at henters
    generalize u.sem.data = d at henters
    cases henters <;> rfl
  | init p i v _ hdata hpoints =>
    refine h.move hrefs hpoints (fun q _ => by rw [hdata]) fun j hj => ?_
    simp at hj

theorem Reach.holdInv (h : refMachine.Reach WaitersHold s) : HoldInv s := by
  refine h.invariant (I := HoldInv) ?_ fun s l u hs hok hstep => hs.next hok hstep
  rintro _ rfl
  refine ⟨.boot, fun p i hp => ?_⟩
  simp [Downs, RefState.boot, Client.boot, State.points, Pc.point] at hp

end HoldInv

def callRun (p : Slot) (c : SemCall) : List RefLabel :=
  [.sem (.call p c), .sem (.step p), .sem (.step p)]

/-- `init` makes a semaphore of value 0 and forks; both are on a CPU. -/
def sharedRun : List RefLabel :=
  [.sem (.table .userinit), .sem (.table .scheduler)] ++ callRun initSlot (.semget (-1) 0) ++
    [.sem (.table (.fork initSlot true true)), .sem (.table .scheduler)]

def downRun : List RefLabel :=
  callRun childSlot (.semdown 0) ++ List.replicate 4 (.sem (.step childSlot))

namespace STable

def held (d : STable) (p : Slot) : Nat := tally (fun r => (d.procsem p r).isSome) true

theorem held_congr {d d' : STable} {p : Slot} (h : d'.procsem p = d.procsem p) :
    d'.held p = d.held p := by
  unfold held
  rw [h]

theorem held_le (d : STable) (p : Slot) : d.held p ≤ MAXSEMPROC := by
  have hle := tally_le_card (fun r => (d.procsem p r).isSome) true
  rwa [Fintype.card_fin] at hle

theorem held_setProcsem (d : STable) (p : Slot) (r : Fin MAXSEMPROC) (o : Option Int) :
    (d.setProcsem p r o).held p + (if (d.procsem p r).isSome then 1 else 0) =
      d.held p + if o.isSome then 1 else 0 := by
  have hupdate : (fun x => ((d.setProcsem p r o).procsem p x).isSome) =
      Function.update (fun x => (d.procsem p x).isSome) r o.isSome := by
    funext x
    by_cases hx : x = r
    · subst hx
      simp
    · simp [hx]
  unfold held
  rw [hupdate]
  exact tally_update _ r o.isSome true

end STable

/-- A call of `semfree` that has cleared its descriptor and not yet counted it. -/
def freeing : Option Point → Nat
  | some (.free _) => 1
  | _ => 0

def obtains (d : STable) (p : Slot) : Pc Point → Bool
  | .crit (.get i _) => i ≠ -1 && (d.sem i).refcount ≠ 0 && (d.attach p i).isSome
  | _ => false

def NoObtain (s : RefState) : RefLabel → Prop
  | .sem (.step p) => obtains s.sem.data p (s.sem.pc p) = false
  | _ => True

/-- The identifiers are in the table, and `semget` only makes semaphores. -/
def Creating (s : RefState) (l : RefLabel) : Prop := IdsOk s l ∧ NoObtain s l

instance (s : RefState) : (l : RefLabel) → Decidable (NoObtain s l)
  | .sem (.step _) => inferInstanceAs (Decidable (_ = false))
  | .sem (.call _ _) | .sem (.table _) | .late _ _ _ | .init _ | .exit _ | .turn _ =>
    inferInstanceAs (Decidable True)

instance (s : RefState) (l : RefLabel) : Decidable (Creating s l) :=
  inferInstanceAs (Decidable (_ ∧ _))

/-- For every process that is not in the middle of `semfree`, `semquantity` is the number of
its descriptors. -/
def Quantified (s : RefState) : Prop :=
  ∀ p, (∀ i, s.sem.points p ≠ some (.free i)) →
    s.sem.data.semquantity p = s.sem.data.held p ∧ 0 ≤ s.sem.data.semquantity p

def Quantity (d : STable) (p : Slot) (o : Option Point) : Prop :=
  d.semquantity p = d.held p + freeing o

structure QuantityInv (s : RefState) : Prop where
  refs : RefInv s
  quantity : ∀ p, Quantity s.sem.data p (s.sem.points p)

section Quantity

variable {s u : RefState} {p : Slot} {d d' : STable}

theorem freeing_eq_zero {o : Option Point} (h : ∀ i, o ≠ some (.free i)) : freeing o = 0 := by
  cases o with
  | none => rfl
  | some k =>
    cases k with
    | free i => exact absurd rfl (h i)
    | get | down | wait | up | upDone => rfl

theorem QuantityInv.quantified (h : QuantityInv s) : Quantified s := by
  intro p hp
  have hq : s.sem.data.semquantity p = s.sem.data.held p + freeing (s.sem.points p) :=
    h.quantity p
  rw [freeing_eq_zero hp] at hq
  omega

theorem Quantity.congr {o o' : Option Point} (h : Quantity d p o)
    (hproc : d'.procsem p = d.procsem p) (hcount : d'.semquantity p = d.semquantity p)
    (hfree : freeing o' = freeing o) : Quantity d' p o' := by
  unfold Quantity
  rw [hcount, STable.held_congr hproc, hfree]
  exact h

theorem attach_semquantity {i : Int} (h : d.attach p i = some d') :
    d'.semquantity = d.semquantity := by
  unfold STable.attach at h
  split at h
  · rw [← Option.some.inj h]
    rfl
  · split_ifs at h
    rw [← Option.some.inj h]

theorem body_semquantity {k : Point} {q : Slot} (hq : q ≠ p) :
    (semClient.body k p d).data.semquantity q = d.semquantity q := by
  cases k with
  | get w v =>
    simp only [semClient, semgetBody]
    split_ifs
    · split
      · rfl
      · split
        · rfl
        · rename_i hattach
          simp [Next.data, hq, attach_semquantity hattach]
    · rfl
    · split
      · rfl
      · rename_i hattach
        simp [Next.data, attach_semquantity hattach]
  | free i => simp [semClient, semfreeBody, Next.data, hq]
  | down i =>
    simp only [semClient, semdownBody]
    split_ifs <;> rfl
  | wait i =>
    simp only [semClient, semdownLoop]
    split_ifs <;> rfl
  | up i =>
    simp only [semClient, semupBody]
    split_ifs <;> rfl
  | upDone i => rfl

theorem Quantity.body {k : Point} (h : Quantity d p (some k)) (hok : RefPoint d p k)
    (hno : obtains d p (.crit k) = false) :
    Quantity (semClient.body k p d).data p (semClient.body k p d).point := by
  have hle := d.held_le p
  unfold MAXSEMPROC at hle
  unfold Quantity at h
  cases k with
  | get w v =>
    have hstay : Quantity d p none := h
    simp only [semClient, semgetBody]
    split_ifs with hw hzero
    · split
      · exact hstay
      · rename_i i _
        split
        · exact hstay
        · rename_i d' hattach
          obtain ⟨r, hr, rfl⟩ := attach_of_guarded hok.2 hattach
          have hone := d.held_setProcsem p r (some i)
          rw [hr] at hone
          simp only [Option.isSome_none, Option.isSome_some, Bool.false_eq_true, if_false,
            if_true] at hone
          have hcount : int32 (d.semquantity p + 1) = d.semquantity p + 1 := by
            apply int32_eq_self <;> rw [h] <;> simp only [freeing] <;> omega
          change Function.update d.semquantity p _ p = ((d.setProcsem p r (some i)).held p : Int) + 0
          rw [Function.update_self]
          change int32 (d.semquantity p + 1) = _
          have hnone : freeing (some (.get w v)) = 0 := rfl
          rw [hnone] at h
          rw [hcount]
          omega
    · exact hstay
    · split
      · exact hstay
      · rename_i d' hattach
        exfalso
        simp [obtains, hw, hzero, hattach] at hno
  | free i =>
    have hcount : int32 (d.semquantity p - 1) = d.semquantity p - 1 := by
      apply int32_eq_self <;> rw [h] <;> simp only [freeing] <;> omega
    change Function.update d.semquantity p (int32 (d.semquantity p - 1)) p = (d.held p : Int) + 0
    rw [Function.update_self, hcount, h]
    simp [freeing]
  | down i =>
    simp only [semClient, semdownBody]
    split_ifs <;> exact h
  | wait i =>
    simp only [semClient, semdownLoop]
    split_ifs <;> exact h
  | up i =>
    simp only [semClient, semupBody]
    split_ifs <;> exact h
  | upDone i => exact h

theorem body_obtains {k : Point} (hok : RefPoint d p k) (ho : obtains d p (.crit k) = true) :
    (semClient.body k p d).point = none ∧
      (semClient.body k p d).data.semquantity p = d.semquantity p ∧
      (semClient.body k p d).data.held p = d.held p + 1 := by
  cases k with
  | get w v =>
    simp only [obtains, Bool.and_eq_true, decide_eq_true_eq] at ho
    obtain ⟨⟨hw, hzero⟩, hsome⟩ := ho
    obtain ⟨d', hattach⟩ := Option.isSome_iff_exists.1 hsome
    obtain ⟨r, hr, rfl⟩ := attach_of_guarded hok.2 hattach
    have hone := d.held_setProcsem p r (some w)
    rw [hr] at hone
    simp only [Option.isSome_none, Option.isSome_some, Bool.false_eq_true, if_false,
      if_true] at hone
    simp only [semClient, semgetBody, if_neg hw, if_neg hzero, hattach]
    exact ⟨rfl, rfl, hone⟩
  | free | down | wait | up | upDone => simp [obtains] at ho

theorem not_quantified (hidle : s.sem.points p = none)
    (hne : s.sem.data.semquantity p ≠ s.sem.data.held p) : ¬ Quantified s := by
  intro hall
  have hp := hall p fun i hi => by simp [hidle] at hi
  exact hne hp.1

theorem QuantityInv.move (h : QuantityInv s) (hrefs : RefInv u) {o : Option Point}
    (hpoints : u.sem.points = Function.update s.sem.points p o)
    (hothers : ∀ q, q ≠ p → u.sem.data.procsem q = s.sem.data.procsem q ∧
      u.sem.data.semquantity q = s.sem.data.semquantity q)
    (hself : Quantity u.sem.data p o) : QuantityInv u := by
  refine ⟨hrefs, fun q => ?_⟩
  rw [hpoints]
  by_cases hq : q = p
  · rw [hq, Function.update_self]
    exact hself
  · rw [Function.update_of_ne hq]
    exact (h.quantity q).congr (hothers q hq).1 (hothers q hq).2 rfl

theorem Quantity.enter {c : SemCall} {k : Point} (h : Quantity d p none)
    (henter : semClient.enter c p d = .acquire d' k ∨ semClient.enter c p d = .initlock d' k) :
    Quantity d' p (some k) ∧ d'.semquantity = d.semquantity := by
  have henters := enters d p c
  rcases henter with henter | henter <;> rw [henter] at henters
  · cases henters with
    | get | down | up => exact ⟨h, rfl⟩
    | free i r hr =>
      refine ⟨?_, rfl⟩
      have hone := d.held_setProcsem p r none
      rw [hr] at hone
      simp only [Option.isSome_none, Option.isSome_some, Bool.false_eq_true, if_false,
        if_true] at hone
      change d.semquantity p = ((d.setProcsem p r none).held p : Int) + 1
      have hcount : d.semquantity p = (d.held p : Int) + 0 := h
      omega
  · cases henters with
    | first => exact ⟨h, rfl⟩

theorem QuantityInv.next (h : QuantityInv s) {l : RefLabel} (hok : Creating s l)
    (hstep : s.next l = some u) : QuantityInv u := by
  have hrefs := h.refs.of_next hok.1 hstep
  have hstay : u.sem.points = s.sem.points → u.sem.data.procsem = s.sem.data.procsem →
      u.sem.data.semquantity = s.sem.data.semquantity → QuantityInv u := by
    intro hpoints hproc hcount
    refine ⟨hrefs, fun q => ?_⟩
    rw [hpoints]
    exact (h.quantity q).congr (congrFun hproc q) (congrFun hcount q) rfl
  cases Effect.of_next h.refs hstep with
  | same hdata hpoints => exact hstay hpoints (by rw [hdata]) (by rw [hdata])
  | leave p hexit hidle hdata hpoints =>
    have hsame : u.sem.points = Function.update s.sem.points p none := by
      rw [hpoints, ← hidle, Function.update_eq_self]
    refine h.move hrefs hsame (fun q hq => ?_) ?_
    · rw [hdata]
      exact ⟨rfl, Function.update_of_ne hq _ _⟩
    · have hnone : ∀ r, s.sem.data.procsem p r = none := by simpa [semClient] using hexit
      have hzero : s.sem.data.held p = 0 := tally_eq_zero_iff.2 fun r => by simp [hnone r]
      rw [hdata]
      change Function.update s.sem.data.semquantity p 0 p = (s.sem.data.held p : Int) + 0
      rw [Function.update_self, hzero]
      rfl
  | body p k hl hpc hdata hpoints =>
    have hk : s.sem.points p = some k := by simp [State.points, hpc, Pc.point]
    have hpoint := h.refs.refs.points p k hk
    have hno : obtains s.sem.data p (.crit k) = false := by
      have hno := hok.2
      rw [hl] at hno
      simpa [NoObtain, hpc] using hno
    refine h.move hrefs hpoints (fun q hq => ?_) ?_
    · refine ⟨?_, by rw [hdata, body_semquantity hq]⟩
      have hbody := body_procsem hpoint
      rw [← hdata] at hbody
      rcases hbody with ⟨hproc, _⟩ | ⟨_, _, i, r, _, _, hproc, _⟩
      · rw [hproc]
      · rw [hproc]
        simp [hq]
    · rw [hdata]
      exact (hk ▸ h.quantity p : Quantity s.sem.data p (some k)).body hpoint hno
  | enter p c k _ hidle henter hpoints =>
    obtain ⟨hself, hcount⟩ := (hidle ▸ h.quantity p :
      Quantity s.sem.data p none).enter henter
    refine h.move hrefs hpoints (fun q hq => ⟨(enter_down henter).1 q hq, ?_⟩) hself
    rw [hcount]
  | ret p c rv henter hpoints =>
    have henters := enters s.sem.data p c
    rw [henter] at henters
    apply hstay hpoints <;> generalize u.sem.data = d at henters <;> cases henters <;> rfl
  | init p i v hlate hdata hpoints =>
    refine h.move hrefs hpoints (fun q _ => by simp [hdata]) ?_
    have hidle := (h.refs.late p i v hlate).2
    refine (hidle ▸ h.quantity p : Quantity s.sem.data p none).congr ?_ ?_ rfl
    · rw [hdata]
    · rw [hdata]

theorem Client.Move.of_crit {σ K A : Type} {c : Client σ K A} {s t : State σ K} {p : Slot} {k : K}
    (h : c.Move s p t) (hpc : s.pc p = .crit k) :
    t.data = (c.body k p s.data).data ∧
      t.points = Function.update s.points p (c.body k p s.data).point := by
  cases h with
  | goto hk hb | sleep hk hb | wakeup hk hb | release hk hb _ | ret hk hb =>
    obtain rfl := Pc.crit.inj (hpc.symm.trans hk)
    rw [hb]
    exact ⟨rfl, State.points_setPc _ _ _⟩
  | acquire hk _ | sleepAcq hk _ | sleepRel hk _ | sleepSet hk | resume hk _ | wakeAcq hk _
  | wakeRun hk | wakeRel hk _ => simp [hpc] at hk

theorem exists_obtains {l : RefLabel} (h : ¬ NoObtain s l) :
    ∃ p k, l = .sem (.step p) ∧ s.sem.pc p = .crit k ∧ obtains s.sem.data p (.crit k) = true := by
  cases l with
  | sem l =>
    cases l with
    | step p =>
      simp only [NoObtain, Bool.not_eq_false] at h
      cases hpc : s.sem.pc p with
      | crit k => exact ⟨p, k, rfl, hpc, hpc ▸ h⟩
      | idle | acq | sleepAcq | sleepRel | sleepSet | asleep | resume | wakeAcq | wakeRun
      | wakeRel => simp [hpc, obtains] at h
    | call | table => exact absurd trivial h
  | late | init | exit | turn => exact absurd trivial h

theorem QuantityInv.not_quantified (h : QuantityInv s) {l : RefLabel} (hno : ¬ NoObtain s l)
    (hstep : s.next l = some u) : ¬ Quantified u := by
  obtain ⟨p, k, rfl, hpc, hobtains⟩ := exists_obtains hno
  obtain ⟨t, ht, rfl⟩ := Option.map_eq_some_iff.1 hstep
  obtain ⟨_, ht⟩ := Option.ite_none_right_eq_some.1 ht
  have hk : s.sem.points p = some k := by simp [State.points, hpc, Pc.point]
  obtain ⟨hpoint, hcount, hheld⟩ := body_obtains (h.refs.refs.points p k hk) hobtains
  obtain ⟨hdata, hpoints⟩ := (Client.Move.of_advance ht).of_crit hpc
  refine Sync.not_quantified (p := p) ?_ ?_
  · change t.points p = none
    rw [hpoints, Function.update_self, hpoint]
  · change t.data.semquantity p ≠ t.data.held p
    rw [hdata, hcount, hheld]
    have hquantity : s.sem.data.semquantity p = s.sem.data.held p + freeing (s.sem.points p) :=
      h.quantity p
    have hzero : freeing (s.sem.points p) = 0 := by
      rw [hk]
      cases k with
      | free i => simp [obtains] at hobtains
      | get | down | wait | up | upDone => rfl
    omega

theorem Reach.quantityInv (h : refMachine.Reach Creating s) : QuantityInv s := by
  refine h.invariant (I := QuantityInv) ?_ fun s l u hs hok hstep => hs.next hok hstep
  rintro _ rfl
  refine ⟨.boot, fun p => ?_⟩
  have hzero : RefState.boot.sem.data.held p = 0 := by
    refine tally_eq_zero_iff.2 fun r => ?_
    simp [RefState.boot, Client.boot, STable.boot]
  change (0 : Int) = RefState.boot.sem.data.held p + 0
  rw [hzero]
  rfl

end Quantity

/-- As long as `semget` only makes semaphores, `semquantity` counts the descriptors; and a
step keeps this exactly if it does not obtain a semaphore that is in use. -/
theorem semquantity_counts {s : RefState} (h : refMachine.Reach Creating s) :
    Quantified s ∧ ∀ l u, IdsOk s l → refMachine.step s l u → (Quantified u ↔ NoObtain s l) := by
  have hinv := Reach.quantityInv h
  refine ⟨hinv.quantified, fun l u hids hstep => ⟨fun hall => ?_, fun hno => ?_⟩⟩
  · by_contra hobtains
    exact hinv.not_quantified hobtains hstep hall
  · exact (hinv.next ⟨hids, hno⟩ hstep).quantified

theorem semquantity_counts_made :
    ∃ s, Machine.runList (fun s l => if Creating s l then s.next l else none) .boot sharedRun =
        some s ∧
      s.sem.data.semquantity initSlot = 1 ∧ Quantified s ∧
      ∀ l u, IdsOk s l → refMachine.step s l u → (Quantified u ↔ NoObtain s l) := by
  have hdec : (Machine.runList (fun s l => if Creating s l then s.next l else none) .boot
      sharedRun).any (fun s => s.sem.data.semquantity initSlot = 1) = true := by
    decide +kernel
  obtain ⟨s, hs, hgoal⟩ := (Option.any_eq_true _ _).1 hdec
  have hreach : refMachine.Reach Creating s := Machine.reach_of_runList _ (.init rfl) hs
  exact ⟨s, hs, by simpa using hgoal, semquantity_counts hreach⟩

/-- The child obtains a semaphore and frees it again: its `semquantity` is -1. -/
theorem semquantity_negative :
    ¬ ∀ s, refMachine.Reach IdsOk s → Quantified s := by
  intro hall
  have hdec : (Machine.runList (fun s l => if IdsOk s l then s.next l else none) .boot
      (sharedRun ++ callRun childSlot (.semget 0 0) ++ callRun childSlot (.semfree 0))).any
      (fun s => s.sem.points childSlot = none ∧ s.sem.data.semquantity childSlot = -1) = true := by
    decide +kernel
  obtain ⟨s, hs, hgoal⟩ := (Option.any_eq_true _ _).1 hdec
  obtain ⟨hidle, hminus⟩ := by simpa using hgoal
  have hreach : refMachine.Reach IdsOk s := Machine.reach_of_runList _ (.init rfl) hs
  have hnonneg := (hall s hreach childSlot fun i hi => by simp [hidle] at hi).2
  omega

end Xv6.Sync
