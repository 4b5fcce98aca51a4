import Xv6.Sync.Conservation

/-!
# The references of semaphores

The machine of `semaphore.c` with two more places where a process can be: in the
loop of `exit` that releases its descriptors, and in a `semget` that has read
`first_time` but not yet initialised the lock.  A semaphore has as many references
as there are descriptors for it, whoever uses the semaphores, and the slot of a
process that has gone has no descriptors.
-/

namespace Xv6.Sync

open Xv6.Lib Xv6.Sched

structure RefState where
  sem : SemState
  /-- The descriptor that the loop of `exit` has come to. -/
  exiting : Slot → Option Nat
  /-- The arguments of a `semget` that has found `first_time` set. -/
  late : Slot → Option (Int × Int)

inductive RefLabel
  | sem (l : Label SemCall)
  /-- `semget` finds `first_time` set. -/
  | late (p : Slot) (semId initValue : Int)
  /-- It goes on to `initlock` and clears `first_time`. -/
  | init (p : Slot)
  /-- `exit`, up to its loop over the descriptors. -/
  | exit (p : Slot)
  /-- One turn of that loop, or the rest of `exit` after the last one. -/
  | turn (p : Slot)

namespace RefState

def ready (s : RefState) (p : Slot) : Bool :=
  (s.sem.pt.proc p).state = .RUNNING && (s.sem.pc p).isIdle && (s.exiting p).isNone &&
    (s.late p).isNone

/-- The table operations other than the one at the end of `exit`. -/
def allows (s : RefState) : Op → Bool
  | .exit _ => false
  | .fork p _ _ | .wait p | .setPriority p _ => s.ready p
  | .userinit | .scheduler | .yield _ | .sleep _ _ | .wakeup _ | .kill _ => true

/-- One turn of the loop `for(sd = 0; sd < MAXSEMPROC; sd++)` of `exit`. -/
def closeOne (s : RefState) (p : Slot) (sd : Fin MAXSEMPROC) : Option RefState :=
  let exiting := Function.update s.exiting p (some (sd.val + 1))
  match s.sem.data.procsem p sd with
  | none => some { s with exiting := exiting }
  | some i => (semClient.start s.sem p (.semfree i)).map fun t =>
    { s with sem := t, exiting := exiting }

/-- `initlock(&stable.lock, ...)` and `first_time = 0`, by a `semget` that goes on. -/
def initlock (s : RefState) (p : Slot) (semId initValue : Int) : RefState where
  sem :=
    { s.sem with
      data := { s.sem.data with firstTime := false }
      lock := none
      pc := Function.update s.sem.pc p (.acq (.get semId initValue)) }
  exiting := s.exiting
  late := Function.update s.late p none

def next (s : RefState) : RefLabel → Option RefState
  | .sem (.call p a) =>
    if s.ready p then (semClient.next s.sem (.call p a)).map fun t => { s with sem := t }
    else none
  | .sem (.step p) => (semClient.next s.sem (.step p)).map fun t => { s with sem := t }
  | .sem (.table op) =>
    if s.allows op then (semClient.next s.sem (.table op)).map fun t => { s with sem := t }
    else none
  | .late p semId initValue =>
    if s.ready p ∧ s.sem.data.firstTime = true then
      some { s with late := Function.update s.late p (some (semId, initValue)) }
    else none
  | .init p =>
    match s.late p with
    | none => none
    | some (semId, initValue) =>
      if (s.sem.pt.proc p).state = .RUNNING then some (s.initlock p semId initValue) else none
  | .exit p =>
    if s.ready p ∧ s.sem.pt.initproc ≠ some p then
      some { s with exiting := Function.update s.exiting p (some 0) }
    else none
  | .turn p =>
    match s.exiting p with
    | none => none
    | some sd =>
      if (s.sem.pt.proc p).state = .RUNNING ∧ (s.sem.pc p).isIdle = true then
        if h : sd < MAXSEMPROC then s.closeOne p ⟨sd, h⟩
        else (semClient.tableStep s.sem (.exit p)).map fun t =>
          { s with sem := t, exiting := Function.update s.exiting p none }
      else none

def boot : RefState :=
  { sem := Client.boot .boot, exiting := fun _ => none, late := fun _ => none }

end RefState

def refMachine : Machine RefState RefLabel := .ofFun .boot RefState.next

/-- The identifiers of calls are in the table, and a process that has no descriptor
left has something at address 0 when it calls `semget`. -/
def IdOk (d : STable) (p : Slot) : SemCall → Prop
  | .semget i _ => (i = -1 ∨ InTable i) ∧ Guarded d p
  | .semfree i | .semdown i | .semup i => InTable i
  | .store0 _ => True

def IdsOk (s : RefState) : RefLabel → Prop
  | .sem (.call p a) => IdOk s.sem.data p a
  | .late p i v => IdOk s.sem.data p (.semget i v)
  | .sem (.step _) | .sem (.table _) | .init _ | .exit _ | .turn _ => True

instance (d : STable) (p : Slot) : (a : SemCall) → Decidable (IdOk d p a)
  | .semget _ _ => inferInstanceAs (Decidable (_ ∧ _))
  | .semfree i | .semdown i | .semup i => inferInstanceAs (Decidable (InTable i))
  | .store0 _ => inferInstanceAs (Decidable True)

instance (s : RefState) : (l : RefLabel) → Decidable (IdsOk s l)
  | .sem (.call p a) => inferInstanceAs (Decidable (IdOk s.sem.data p a))
  | .late p i v => inferInstanceAs (Decidable (IdOk s.sem.data p (.semget i v)))
  | .sem (.step _) | .sem (.table _) | .init _ | .exit _ | .turn _ =>
    inferInstanceAs (Decidable True)

/-- A `semget` that initialises `stable.lock` finds nobody in the code that runs with it. -/
def InitFree (s : RefState) : RefLabel → Prop
  | .sem (.call _ (.semget _ _)) => s.sem.data.firstTime = true → s.sem.lock = none
  | .init _ => s.sem.lock = none
  | _ => True

instance (s : RefState) (l : RefLabel) : Decidable (InitFree s l) := by
  unfold InitFree
  split <;> infer_instance

/-! ## The account -/

theorem RefPoint.congr {d d' : STable} {p : Slot} {k : Point} (h : RefPoint d p k)
    (hproc : d'.procsem p = d.procsem p) (hword : d'.word0 p = d.word0 p) : RefPoint d' p k := by
  cases k with
  | get i v => simpa [RefPoint, Guarded, STable.checkprocsem, hproc, hword] using h
  | free i | down i | wait i | up i | upDone i => exact h

namespace Refs

variable {d : STable} {f : Slot → Option Point} {p : Slot}

theorem step (h : Refs d f) {d' : STable} {o : Option Point}
    (hothers : ∀ q, q ≠ p → d'.procsem q = d.procsem q ∧ d'.word0 q = d.word0 q)
    (hpoint : ∀ k, o = some k → RefPoint d' p k) (hrefs : RefStep d d' (f p) o) :
    Refs d' (Function.update f p o) := by
  constructor
  · intro q k hq
    by_cases hqp : q = p
    · subst hqp
      exact hpoint k (by simpa using hq)
    · have hbefore := h.points q k (by simpa [hqp] using hq)
      exact hbefore.congr (hothers q hqp).1 (hothers q hqp).2
  · intro j hj
    have hnew := hrefs j hj
    have hold := h.refs j hj
    have htally := tally_update f p o (some (.free j))
    split_ifs at hnew htally <;> omega

theorem goto (h : Refs d f) {d' : STable} {k : Point} {o : Option Point} (hk : f p = some k)
    (hsem : ∀ j, (d'.sem j).refcount = (d.sem j).refcount) (hproc : d'.procsem = d.procsem)
    (hword : d'.word0 = d.word0) (hkfree : ∀ i, k ≠ .free i)
    (ho : ∀ k', o = some k' → RefPoint d' p k') (hofree : ∀ i, o ≠ some (.free i)) :
    Refs d' (Function.update f p o) := by
  apply h.step
  · intro q _
    rw [hproc, hword]
    exact ⟨rfl, rfl⟩
  · exact ho
  · rw [hk]
    exact .of_eq hsem hproc (by simpa using hkfree) hofree

theorem leave (h : Refs d f) {k : Point} (hk : f p = some k) (hfree : ∀ i, k ≠ .free i) :
    Refs d (Function.update f p none) :=
  h.goto hk (fun _ => rfl) rfl rfl hfree (by simp) (by simp)

theorem body (h : Refs d f) {k : Point} (hk : f p = some k) :
    Refs (semClient.body k p d).data
      (Function.update f p (semClient.body k p d).point) := by
  have hok := h.points p k hk
  cases k with
  | get w v =>
    have hleave := h.leave hk (by simp)
    simp only [semClient, semgetBody]
    split_ifs with hw hzero
    · split
      · exact hleave
      · rename_i i hunused
        split
        · exact hleave
        · rename_i d' hattach
          obtain ⟨r, hr, rfl⟩ := attach_of_guarded hok.2 hattach
          refine h.step (fun q hq => by simp [Next.data, hq]) (by simp [Next.point]) ?_
          rw [hk]
          exact refStep_create (unusedSem_spec hunused).2 hr _
    · exact hleave
    · split
      · exact hleave
      · rename_i d' hattach
        obtain ⟨r, hr, rfl⟩ := attach_of_guarded hok.2 hattach
        refine h.step (fun q hq => by simp [Next.data, hq]) (by simp [Next.point]) ?_
        rw [hk]
        exact refStep_attach hr (h.int32_refcount (hok.1.resolve_left hw)).1
  | free i =>
    refine h.step (fun q hq => by simp [Next.data, semClient, semfreeBody])
      (by simp [Next.point, semClient, semfreeBody]) ?_
    rw [hk]
    exact refStep_free (-1) (h.int32_refcount hok).2
  | down i =>
    simp only [semClient, semdownBody]
    split_ifs
    · exact h.leave hk (by simp)
    · exact h.goto hk (fun _ => rfl) rfl rfl (by simp) (by simp [Next.point, RefPoint])
        (by simp [Next.point])
  | wait i =>
    simp only [semClient, semdownLoop]
    split_ifs
    · exact h.goto hk (fun _ => rfl) rfl rfl (by simp) (by simp [Next.point, RefPoint])
        (by simp [Next.point])
    · refine h.goto hk (fun j => ?_) rfl rfl (by simp) (by simp [Next.point]) (by simp [Next.point])
      by_cases hji : j = i <;> simp [Next.data, hji]
  | up i =>
    simp only [semClient, semupBody]
    split_ifs
    · exact h.leave hk (by simp)
    · refine h.goto hk (fun j => ?_) rfl rfl (by simp) (by simp [Next.point, RefPoint])
        (by simp [Next.point])
      by_cases hji : j = i <;> simp [Next.data, hji]
    · refine h.goto hk (fun j => ?_) rfl rfl (by simp) (by simp [Next.point]) (by simp [Next.point])
      by_cases hji : j = i <;> simp [Next.data, hji]
    · exact h.leave hk (by simp)
  | upDone i =>
    exact h.goto hk (fun _ => rfl) rfl rfl (by simp) (by simp [Next.point, semClient, semupDone])
      (by simp [Next.point, semClient, semupDone])

theorem enter (h : Refs d f) (hf : f p = none) {a : SemCall} (ha : IdOk d p a) {d' : STable}
    {k : Point} (hstart : semClient.enter a p d = .acquire d' k ∨
      semClient.enter a p d = .initlock d' k) : Refs d' (Function.update f p (some k)) := by
  have henters := enters d p a
  rcases hstart with hstart | hstart <;> rw [hstart] at henters <;> cases henters
  case inl.free i r hr =>
    refine h.step (fun q hq => by simp [hq]) (by rintro _ ⟨⟩; exact ha) ?_
    rw [hf]
    exact refStep_detach hr
  case inl.get | inr.first =>
    refine h.step (fun _ _ => ⟨rfl, rfl⟩) (by rintro _ ⟨⟩; exact ha) ?_
    rw [hf]
    exact .of_eq (fun _ => rfl) rfl (by simp) (by simp)
  case inl.down | inl.up =>
    refine h.step (fun _ _ => ⟨rfl, rfl⟩) (by rintro _ ⟨⟩; exact trivial) ?_
    rw [hf]
    exact .of_eq (fun _ => rfl) rfl (by simp) (by simp)

theorem ret (h : Refs d f) (hf : f p = none) {a : SemCall} {d' : STable} {rv : Int}
    (hret : semClient.enter a p d = .ret d' rv) : Refs d' f := by
  have henters := enters d p a
  rw [hret] at henters
  cases henters with
  | fail i => exact h
  | store w =>
    have hsame : Function.update f p none = f := by rw [← hf, Function.update_eq_self]
    rw [← hsame]
    refine h.step (fun q hq => by simp [hq]) (by simp) ?_
    rw [hf]
    exact .of_eq (fun _ => rfl) rfl (by simp) (by simp)

end Refs

/-! ## What a process does to its descriptors -/

def SameDesc (d d' : STable) : Prop := d'.procsem = d.procsem ∧ d'.word0 = d.word0

theorem body_procsem {d : STable} {p : Slot} {k : Point} (hok : RefPoint d p k) :
    SameDesc d (semClient.body k p d).data ∨
      ∃ w v i r, k = .get w v ∧ InTable i ∧
        SameDesc (d.setProcsem p r (some i)) (semClient.body k p d).data := by
  cases k with
  | get w v =>
    simp only [semClient, semgetBody]
    split_ifs with hw hzero
    · split
      · exact .inl ⟨rfl, rfl⟩
      · rename_i i hunused
        split
        · exact .inl ⟨rfl, rfl⟩
        · rename_i d' hattach
          obtain ⟨r, hr, rfl⟩ := attach_of_guarded hok.2 hattach
          exact .inr ⟨w, v, i, r, rfl, (unusedSem_spec hunused).1, rfl, rfl⟩
    · exact .inl ⟨rfl, rfl⟩
    · split
      · exact .inl ⟨rfl, rfl⟩
      · rename_i d' hattach
        obtain ⟨r, hr, rfl⟩ := attach_of_guarded hok.2 hattach
        exact .inr ⟨w, v, w, r, rfl, hok.1.resolve_left hw, rfl, rfl⟩
  | free i | upDone i => exact .inl ⟨rfl, rfl⟩
  | down i =>
    simp only [semClient, semdownBody]
    split_ifs <;> exact .inl ⟨rfl, rfl⟩
  | wait i =>
    simp only [semClient, semdownLoop]
    split_ifs <;> exact .inl ⟨rfl, rfl⟩
  | up i =>
    simp only [semClient, semupBody]
    split_ifs <;> exact .inl ⟨rfl, rfl⟩

theorem start_procsem {s t : SemState} {p : Slot} {a : SemCall}
    (h : semClient.start s p a = some t) :
    (∀ q, q ≠ p → t.data.procsem q = s.data.procsem q ∧ t.data.word0 q = s.data.word0 q) ∧
      ∀ q r i, t.data.procsem q r = some i → s.data.procsem q r = some i := by
  have henters := enters s.data p a
  obtain ⟨_, _, ⟨d, k, henter, hd, _⟩ | ⟨d, rv, henter, hd, _⟩⟩ := Client.start_cases h
  · rw [hd]
    rcases henter with henter | henter <;> rw [henter] at henters <;> cases henters
    case inl.free r hr _ =>
      refine ⟨fun q hq => by simp [hq], fun q r' j hj => ?_⟩
      by_cases hq : q = p
      · subst hq
        by_cases hr' : r' = r
        · subst hr'
          simp at hj
        · simpa [hr'] using hj
      · simpa [hq] using hj
    all_goals exact ⟨fun _ _ => ⟨rfl, rfl⟩, fun _ _ _ hj => hj⟩
  · rw [hd]
    rw [henter] at henters
    cases henters with
    | fail i => exact ⟨fun _ _ => ⟨rfl, rfl⟩, fun _ _ _ hj => hj⟩
    | store w => exact ⟨fun q hq => by simp [hq], fun _ _ _ hj => hj⟩

theorem started_of_move {s t : SemState} {p : Slot} (hm : semClient.Move s p t) {x : Slot}
    (hx : (s.pt.proc x).Started) : (t.pt.proc x).Started := by
  cases hm with
  | @sleepSet k ch hpc =>
    have hedits : Edits (.sleep p ch) s.pt (s.pt.sleep p ch) := .sleep (.inl rfl)
    exact hedits.started (by simp) hx
  | @wakeRun k ch hpc =>
    have hedits := Edits.wakeup1 (.wakeup ch) s.pt (some ch)
    generalize s.pt.wakeup1 (some ch) = pt at hedits
    exact hedits.started (by simp) hx
  | acquire | goto | sleep | wakeup | release | ret | sleepAcq | sleepRel | resume | wakeAcq
  | wakeRel => exact hx

/-! ## Runs -/

def LateOk (s : RefState) (p : Slot) : Prop :=
  ∀ i v, s.late p = some (i, v) → RefPoint s.sem.data p (.get i v) ∧ s.sem.points p = none

/-- In the loop of `exit` the descriptors before the one it has come to are free, and the
process is in no other call than `semfree`. -/
def ExitOk (s : RefState) (p : Slot) : Prop :=
  ∀ sd, s.exiting p = some sd → s.late p = none ∧
    (∀ r : Fin MAXSEMPROC, r.val < sd → s.sem.data.procsem p r = none) ∧
    ∀ k, s.sem.points p = some k → ∃ i, k = .free i

structure RefInv (s : RefState) : Prop where
  refs : Refs s.sem.data s.sem.points
  held : ∀ p r i, s.sem.data.procsem p r = some i → InTable i ∧ (s.sem.pt.proc p).Started
  late : ∀ p, LateOk s p
  exiting : ∀ p, ExitOk s p

/-- Nothing about process `q` that the invariant speaks of changes. -/
structure Undisturbed (s u : RefState) (q : Slot) : Prop where
  procsem : u.sem.data.procsem q = s.sem.data.procsem q
  word0 : u.sem.data.word0 q = s.sem.data.word0 q
  points : u.sem.points q = s.sem.points q
  late : u.late q = s.late q
  exiting : u.exiting q = s.exiting q

theorem RefState.ready_spec {s : RefState} {p : Slot} (h : s.ready p = true) :
    s.sem.points p = none ∧ s.exiting p = none ∧ s.late p = none := by
  simp only [RefState.ready, Bool.and_eq_true, Option.isNone_iff_eq_none] at h
  obtain ⟨⟨⟨_, hidle⟩, hexit⟩, hlate⟩ := h
  refine ⟨?_, hexit, hlate⟩
  unfold State.points
  cases hpc : s.sem.pc p with
  | idle => rfl
  | _ => simp [hpc, Pc.isIdle] at hidle

theorem points_ne {pc : Pc Point} {s t : SemState} {p : Slot}
    (h : t.pc = Function.update s.pc p pc) {q : Slot} (hq : q ≠ p) :
    t.points q = s.points q := by
  rw [State.points_update h, Function.update_of_ne hq]

namespace RefInv

variable {s u : RefState} {t : SemState} {p : Slot}

theorem of_step (h : RefInv s) (hrefs : Refs u.sem.data u.sem.points)
    (hheld : ∀ q r i, u.sem.data.procsem q r = some i →
      InTable i ∧ (u.sem.pt.proc q).Started)
    (hothers : ∀ q, q ≠ p → Undisturbed s u q) (hlate : LateOk u p) (hexit : ExitOk u p) :
    RefInv u := by
  refine ⟨hrefs, hheld, fun q => ?_, fun q => ?_⟩
  · by_cases hq : q = p
    · exact hq ▸ hlate
    · intro i v hv
      obtain ⟨hproc, hword, hpoint, hsame, _⟩ := hothers q hq
      obtain ⟨hok, hnone⟩ := h.late q i v (hsame ▸ hv)
      exact ⟨hok.congr hproc hword, hpoint.trans hnone⟩
  · by_cases hq : q = p
    · exact hq ▸ hexit
    · intro sd hsd
      obtain ⟨hproc, _, hpoint, hsame, hexiting⟩ := hothers q hq
      obtain ⟨hnone, hdone, hfree⟩ := h.exiting q sd (hexiting ▸ hsd)
      refine ⟨hsame.trans hnone, fun r hr => ?_, fun k hk => hfree k (hpoint ▸ hk)⟩
      rw [hproc]
      exact hdone r hr

theorem of_same (h : RefInv s) (hdata : t.data = s.sem.data) (hpoints : t.points = s.sem.points)
    (hstarted : ∀ q, (s.sem.pt.proc q).Started → (t.pt.proc q).Started) :
    RefInv { s with sem := t } := by
  refine ⟨?_, fun q r i hq => ?_, fun q i v hq => ?_, fun q sd hq => ?_⟩
  · rw [hdata, hpoints]
    exact h.refs
  · rw [hdata] at hq
    obtain ⟨hi, hs⟩ := h.held q r i hq
    exact ⟨hi, hstarted q hs⟩
  · rw [hdata, hpoints]
    exact h.late q i v hq
  · rw [hdata, hpoints]
    exact h.exiting q sd hq

theorem of_start (h : RefInv s) {a : SemCall} (ha : IdOk s.sem.data p a)
    (ht : semClient.start s.sem p a = some t) (hu : u.sem = t)
    (hothers : ∀ q, q ≠ p → u.late q = s.late q ∧ u.exiting q = s.exiting q)
    (hlate : u.late p = none) (hexit : ExitOk u p) : RefInv u := by
  obtain ⟨hdesc, hheld⟩ := start_procsem ht
  obtain ⟨hidle, hpt, hcases⟩ := Client.start_cases ht
  have hpoint : s.sem.points p = none := by simp [State.points, hidle, Pc.point]
  apply h.of_step (p := p) _ _ _ (fun i v hv => by simp [hlate] at hv) hexit
  · rw [hu]
    rcases hcases with ⟨d, k, henter, hd, htpc⟩ | ⟨d, rv, hret, hd, htpc⟩
    · rw [hd, State.points_update htpc]
      exact h.refs.enter hpoint ha henter
    · have hsame : t.points = s.sem.points := by
        unfold State.points
        rw [htpc]
      rw [hd, hsame]
      exact h.refs.ret hpoint hret
  · intro q r i hq
    rw [hu] at hq ⊢
    rw [hpt]
    exact h.held q r i (hheld q r i hq)
  · intro q hq
    have hpoints : t.points q = s.sem.points q := by
      rcases hcases with ⟨_, _, _, _, htpc⟩ | ⟨_, _, _, _, htpc⟩
      · exact points_ne htpc hq
      · rw [State.points, htpc]
        rfl
    obtain ⟨hproc, hword⟩ := hdesc q hq
    exact ⟨hu ▸ hproc, hu ▸ hword, hu ▸ hpoints, (hothers q hq).1, (hothers q hq).2⟩

theorem of_move (h : RefInv s) (hrun : (s.sem.pt.proc p).Started)
    (hm : semClient.Move s.sem p t) : RefInv { s with sem := t } := by
  rcases hm.data_points with ⟨hd, hp⟩ | ⟨k, hpc, hd, hp⟩
  · exact h.of_same hd hp fun _ => started_of_move hm
  have hk : s.sem.points p = some k := by simp [State.points, hpc, Pc.point]
  have hlate : s.late p = none := by
    cases hl : s.late p with
    | none => rfl
    | some x =>
      have hnone := (h.late p x.1 x.2 hl).2
      simp [hk] at hnone
  have hbody := body_procsem (h.refs.points p k hk)
  rw [← hd] at hbody
  have hothers : ∀ q, q ≠ p → Undisturbed s { s with sem := t } q := by
    intro q hq
    have hpoints : t.points q = s.sem.points q := by rw [hp, Function.update_of_ne hq]
    rcases hbody with ⟨hproc, hword⟩ | ⟨w, v, i, r, _, _, hproc, hword⟩
    · exact ⟨congrFun hproc q, congrFun hword q, hpoints, rfl, rfl⟩
    · refine ⟨?_, congrFun hword q, hpoints, rfl, rfl⟩
      show t.data.procsem q = s.sem.data.procsem q
      rw [hproc]
      simp [hq]
  apply h.of_step (p := p) _ _ hothers (fun i v hv => by simp [hlate] at hv)
  · intro sd hsd
    obtain ⟨_, hdone, hfree⟩ := h.exiting p sd hsd
    obtain ⟨i, rfl⟩ := hfree k hk
    have hproc : t.data.procsem = s.sem.data.procsem := by
      rw [hd]
      rfl
    refine ⟨hlate, fun r hr => ?_, fun k' hk' => ?_⟩
    · show t.data.procsem p r = none
      rw [hproc]
      exact hdone r hr
    · have hend : t.points p = none := by
        rw [hp, Function.update_self]
        rfl
      simp [hend] at hk'
  · show Refs t.data t.points
    rw [hd, hp]
    exact h.refs.body hk
  · intro q r j hj
    have hkeeps : (s.sem.pt.proc q).Started → (t.pt.proc q).Started := started_of_move hm
    change t.data.procsem q r = some j at hj
    rcases hbody with ⟨hproc, _⟩ | ⟨w, v, i, r', _, hi, hproc, _⟩
    · rw [hproc] at hj
      obtain ⟨hj, hs⟩ := h.held q r j hj
      exact ⟨hj, hkeeps hs⟩
    · rw [hproc] at hj
      by_cases hq : q = p
      · subst hq
        by_cases hr : r = r'
        · subst hr
          obtain rfl : i = j := by simpa using hj
          exact ⟨hi, hkeeps hrun⟩
        · obtain ⟨hj, hs⟩ := h.held q r j (by simpa [hr] using hj)
          exact ⟨hj, hkeeps hs⟩
      · obtain ⟨hj, hs⟩ := h.held q r j (by simpa [hq] using hj)
        exact ⟨hj, hkeeps hs⟩

theorem of_tableMove (h : RefInv s) {op : Op} {pt : PTable} (hop : ∀ q, op ≠ .exit q)
    (hnext : Sched.next s.sem.pt op = some pt) (hm : semClient.TableMove s.sem op pt t) :
    RefInv { s with sem := t } := by
  have hstarted : ∀ q, (s.sem.pt.proc q).Started → (pt.proc q).Started :=
    fun q => (next_edits hnext).started (hop q)
  have hpoints := hm.points_eq
  cases hm with
  | plain => exact h.of_same rfl hpoints hstarted
  | exit hexit => exact absurd hexit (hop _)
  | resume => exact h.of_same rfl hpoints hstarted

theorem of_initlock (h : RefInv s) {i v : Int} (hlate : s.late p = some (i, v)) :
    RefInv (s.initlock p i v) := by
  obtain ⟨hok, hnone⟩ := h.late p i v hlate
  apply h.of_step (p := p) (u := s.initlock p i v) _ h.held
  · intro q hq
    exact ⟨rfl, rfl, points_ne rfl hq, by simp [RefState.initlock, hq], rfl⟩
  · intro i' v' hv
    simp [RefState.initlock] at hv
  · intro sd hsd
    have hnone := (h.exiting p sd hsd).1
    simp [hlate] at hnone
  · have hpc : (s.initlock p i v).sem.pc = Function.update s.sem.pc p (.acq (.get i v)) := rfl
    have hpoints : (s.initlock p i v).sem.points =
        Function.update s.sem.points p (some (.get i v)) := State.points_update hpc
    rw [hpoints]
    refine h.refs.step (fun _ _ => ⟨rfl, rfl⟩) ?_ ?_
    · intro k hk
      obtain rfl := Option.some.inj hk
      exact hok
    · rw [hnone]
      exact .of_eq (fun _ => rfl) rfl (by simp) (by simp)

theorem of_closeOne (h : RefInv s) {sd : Fin MAXSEMPROC} (hsd : s.exiting p = some sd.val)
    (hu : s.closeOne p sd = some u) : RefInv u := by
  obtain ⟨hlate, hdone, hfree⟩ := h.exiting p sd.val hsd
  unfold RefState.closeOne at hu
  cases hslot : s.sem.data.procsem p sd with
  | none =>
    simp only [hslot, Option.some.injEq] at hu
    subst hu
    apply h.of_step (p := p)
      (u := { s with exiting := Function.update s.exiting p (some (sd.val + 1)) }) h.refs h.held
    · intro q hq
      exact ⟨rfl, rfl, rfl, rfl, by simp [hq]⟩
    · exact h.late p
    · intro sd' hsd'
      obtain rfl : sd.val + 1 = sd' := by simpa using hsd'
      refine ⟨hlate, fun r hr => ?_, hfree⟩
      rcases Nat.lt_or_ge r.val sd.val with hlt | hge
      · exact hdone r hlt
      · obtain rfl : r = sd := Fin.ext (by omega)
        exact hslot
  | some i =>
    simp only [hslot] at hu
    obtain ⟨t, ht, rfl⟩ := Option.map_eq_some_iff.1 hu
    have hi := (h.held p sd i hslot).1
    apply h.of_start (a := .semfree i) hi ht rfl
    · intro q hq
      exact ⟨rfl, by simp [hq]⟩
    · exact hlate
    · -- `semfree` finds the descriptor: it is the first one, and has a reference
      have hpos : (s.sem.data.sem i).refcount ≠ 0 := by
        have htally : 0 < tally (descriptors s.sem.data) (some i) :=
          tally_pos_iff.2 ⟨(p, sd), hslot⟩
        rw [h.refs.refs i hi]
        omega
      have hfirst : (List.finRange MAXSEMPROC).find?
          (fun r => s.sem.data.procsem p r = some i) = some sd := by
        apply List.find?_eq_some_iff_getElem.2
        refine ⟨by simpa using hslot, sd.val, by simp, by simp, fun j hj => ?_⟩
        have hnone := hdone ⟨j, hj.trans sd.isLt⟩ hj
        simp [hnone]
      have henter : semClient.enter (.semfree i) p s.sem.data =
          .acquire (s.sem.data.setProcsem p sd none) (.free i) := by
        simp only [semClient, semfreeEnter, if_neg hpos, hfirst]
      obtain ⟨_, _, ⟨d, k, hd, htd, htpc⟩ | ⟨d, rv, hd, _, _⟩⟩ := Client.start_cases ht
      · rw [henter] at hd
        obtain ⟨rfl, rfl⟩ : s.sem.data.setProcsem p sd none = d ∧ Point.free i = k := by
          simpa using hd
        intro sd' hsd'
        obtain rfl : sd.val + 1 = sd' := by simpa using hsd'
        refine ⟨hlate, fun r hr => ?_, fun k hk => ⟨i, ?_⟩⟩
        · show t.data.procsem p r = none
          rw [htd]
          by_cases hrsd : r = sd
          · simp [hrsd]
          · have hlt : r.val < sd.val := by
              have hne : r.val ≠ sd.val := fun heq => hrsd (Fin.ext heq)
              omega
            simpa [hrsd] using hdone r hlt
        · have hpoint : t.points p = some (.free i) := by
            rw [State.points_update htpc, Function.update_self]
            rfl
          exact (Option.some.inj (hpoint.symm.trans hk)).symm
      · simp [henter] at hd

theorem of_exit (h : RefInv s) {sd : Nat} (hsd : s.exiting p = some sd) (hend : ¬ sd < MAXSEMPROC)
    (ht : semClient.tableStep s.sem (.exit p) = some t) :
    RefInv { s with sem := t, exiting := Function.update s.exiting p none } := by
  obtain ⟨hlate, hdone, hfree⟩ := h.exiting p sd hsd
  obtain ⟨_, pt, hnext, hm⟩ := Client.TableMove.of_tableStep ht
  have hgone : ∀ q r i, s.sem.data.procsem q r = some i → q ≠ p := by
    rintro q r i hq rfl
    have hnone := hdone r (by omega)
    simp [hq] at hnone
  have hpoints := hm.points_eq
  cases hm with
  | plain hop => exact absurd rfl (hop p)
  | resume hop _ _ => simp at hop
  | @exit p' hop =>
    obtain rfl : p = p' := by simpa using hop
    apply h.of_step (p := p)
      (u := { s with
        sem := { s.sem with pt := pt, data := semClient.onExit p s.sem.data }
        exiting := Function.update s.exiting p none })
    · exact ⟨h.refs.points, h.refs.refs⟩
    · intro q r i hq
      obtain ⟨hi, hs⟩ := h.held q r i hq
      exact ⟨hi, (next_edits hnext).started (by simpa using (hgone q r i hq).symm) hs⟩
    · intro q hq
      exact ⟨rfl, rfl, rfl, rfl, by simp [hq]⟩
    · exact h.late p
    · intro sd' hsd'
      simp at hsd'

theorem of_next (h : RefInv s) {l : RefLabel} (hok : IdsOk s l) (hstep : s.next l = some u) :
    RefInv u := by
  cases l with
  | sem l =>
    cases l with
    | call p a =>
      obtain ⟨hready, hstep⟩ := Option.ite_none_right_eq_some.1 hstep
      obtain ⟨t, ht, rfl⟩ := Option.map_eq_some_iff.1 hstep
      obtain ⟨_, ht⟩ := Option.ite_none_right_eq_some.1 ht
      obtain ⟨_, hexit, hlate⟩ := RefState.ready_spec hready
      exact h.of_start hok ht rfl (fun _ _ => ⟨rfl, rfl⟩) hlate
        fun sd hsd => by simp [hexit] at hsd
    | step p =>
      obtain ⟨t, ht, rfl⟩ := Option.map_eq_some_iff.1 hstep
      obtain ⟨hrun, ht⟩ := Option.ite_none_right_eq_some.1 ht
      exact h.of_move (.inr (.inr hrun)) (.of_advance ht)
    | table op =>
      obtain ⟨hallows, hstep⟩ := Option.ite_none_right_eq_some.1 hstep
      obtain ⟨t, ht, rfl⟩ := Option.map_eq_some_iff.1 hstep
      obtain ⟨_, ht⟩ := Option.ite_none_right_eq_some.1 ht
      obtain ⟨_, pt, hnext, hm⟩ := Client.TableMove.of_tableStep ht
      refine h.of_tableMove (fun q hq => ?_) hnext hm
      simp [hq, RefState.allows] at hallows
  | late p i v =>
    obtain ⟨⟨hready, _⟩, hstep⟩ := Option.ite_none_right_eq_some.1 hstep
    obtain rfl := Option.some.inj hstep
    obtain ⟨hpoint, hexit, _⟩ := RefState.ready_spec hready
    apply h.of_step (p := p)
      (u := { s with late := Function.update s.late p (some (i, v)) }) h.refs h.held
    · intro q hq
      exact ⟨rfl, rfl, rfl, by simp [hq], rfl⟩
    · intro i' v' hv
      obtain ⟨rfl, rfl⟩ : i = i' ∧ v = v' := by simpa using hv
      exact ⟨hok, hpoint⟩
    · intro sd hsd
      simp [hexit] at hsd
  | init p =>
    simp only [RefState.next] at hstep
    split at hstep
    · simp at hstep
    · rename_i i v hlate
      obtain ⟨_, hstep⟩ := Option.ite_none_right_eq_some.1 hstep
      obtain rfl := Option.some.inj hstep
      exact h.of_initlock hlate
  | exit p =>
    obtain ⟨⟨hready, _⟩, hstep⟩ := Option.ite_none_right_eq_some.1 hstep
    obtain rfl := Option.some.inj hstep
    obtain ⟨hpoint, _, hlate⟩ := RefState.ready_spec hready
    apply h.of_step (p := p)
      (u := { s with exiting := Function.update s.exiting p (some 0) }) h.refs h.held
    · intro q hq
      exact ⟨rfl, rfl, rfl, rfl, by simp [hq]⟩
    · exact h.late p
    · intro sd hsd
      obtain rfl : 0 = sd := by simpa using hsd
      exact ⟨hlate, fun r hr => absurd hr (Nat.not_lt_zero _), fun k hk => by simp [hpoint] at hk⟩
  | turn p =>
    simp only [RefState.next] at hstep
    split at hstep
    · simp at hstep
    · rename_i sd hsd
      obtain ⟨_, hstep⟩ := Option.ite_none_right_eq_some.1 hstep
      split_ifs at hstep with hlt
      · exact h.of_closeOne hsd hstep
      · obtain ⟨t, ht, rfl⟩ := Option.map_eq_some_iff.1 hstep
        exact h.of_exit hsd hlt ht

theorem boot : RefInv .boot := by
  have hpoints : RefState.boot.sem.points = fun _ => none := rfl
  refine ⟨?_, fun p r i hp => ?_, fun p i v hv => ?_, fun p sd hsd => ?_⟩
  · rw [hpoints]
    refine ⟨by simp, fun i _ => ?_⟩
    simp [RefState.boot, Client.boot, STable.boot, descriptors, tally, Function.uncurry]
  · simp [RefState.boot, Client.boot, STable.boot] at hp
  · simp [RefState.boot] at hv
  · simp [RefState.boot] at hsd

end RefInv

/-- In every run in which identifiers are in the table and `initlock` finds the lock free (so
that what is done with the lock is done at once) a semaphore has as many references
as there are descriptors for it, counting those that a `semfree` on its way has given up; a
semaphore that `semget(-1, v)` would take is held by nobody, and only processes that have not
exited hold any. -/
theorem semaphore_references {s : RefState}
    (h : refMachine.Reach (fun s l => IdsOk s l ∧ InitFree s l) s) :
    (∀ i, InTable i → (s.sem.data.sem i).refcount =
      tally (descriptors s.sem.data) (some i) + tally s.sem.points (some (.free i))) ∧
    (∀ i, InTable i → (∀ p, s.sem.points p ≠ some (.free i)) →
      (s.sem.data.sem i).refcount = tally (descriptors s.sem.data) (some i)) ∧
    (∀ i, s.sem.data.unusedSem = some i → ∀ p, ¬ Holds s.sem.data p i) ∧
    ∀ p, (s.sem.pt.proc p).state = .UNUSED ∨ (s.sem.pt.proc p).state = .ZOMBIE →
      ∀ r, s.sem.data.procsem p r = none := by
  have hinv : RefInv s := by
    apply Machine.Reach.invariant (I := RefInv) _ _ h
    · rintro t rfl
      exact .boot
    · intro t l u ht hok hstep
      exact ht.of_next hok.1 hstep
  refine ⟨hinv.refs.refs, fun i hi hfree => ?_, fun i hi p hp => ?_, fun p hp r => ?_⟩
  · rw [hinv.refs.refs i hi, tally_eq_zero_iff.2 hfree]
    simp
  · obtain ⟨hin, hzero⟩ := unusedSem_spec hi
    have hpos := holds_iff_tally.1 ⟨p, hp⟩
    have hrefs := hinv.refs.refs i hin
    omega
  · cases hr : s.sem.data.procsem p r with
    | none => rfl
    | some i =>
      obtain ⟨_, hs⟩ := hinv.held p r i hr
      rcases hp with hp | hp <;> simp [Proc.Started, hp] at hs

/-- `init` makes a semaphore, its child obtains it twice and exits, and `init` reaps the
child. -/
def obtainTwice : List RefLabel :=
  let init : Slot := ⟨0, Sched.zero_lt_NPROC⟩
  let child : Slot := ⟨1, Sched.one_lt_NPROC⟩
  let get : List RefLabel := [.sem (.call child (.semget 0 0)), .sem (.step child), .sem (.step child)]
  let free : List RefLabel := [.turn child, .sem (.step child), .sem (.step child)]
  [.sem (.table .userinit), .sem (.table .scheduler), .late init (-1) 3, .init init,
    .sem (.step init), .sem (.step init), .sem (.table (.fork init true true)),
    .sem (.table .scheduler)] ++ get ++ get ++ [.exit child] ++ free ++ free ++
    [.turn child, .turn child, .turn child, .sem (.table (.wait init))]

theorem semaphore_references_reaped :
    ∃ s, Machine.runList (fun s l => if IdsOk s l ∧ InitFree s l then s.next l else none) .boot
        obtainTwice = some s ∧
      (s.sem.data.sem 0).refcount = 1 ∧ tally (descriptors s.sem.data) (some 0) = 1 ∧
      ∀ r, s.sem.data.procsem ⟨1, by decide⟩ r = none := by
  have hdec : (Machine.runList (fun s l => if IdsOk s l ∧ InitFree s l then s.next l else none)
      .boot obtainTwice).any (fun s => (s.sem.pt.proc ⟨1, by decide⟩).state = .UNUSED ∧
        (s.sem.data.sem 0).refcount = 1 ∧ ∀ p, s.sem.points p = none) = true := by
    decide +kernel
  obtain ⟨s, hs, hgoal⟩ := (Option.any_eq_true _ _).1 hdec
  obtain ⟨hunused, hone, hidle⟩ := by simpa using hgoal
  have hreach := Machine.reach_of_runList obtainTwice (.init rfl) hs
  obtain ⟨_, hrefs, _, hnone⟩ := semaphore_references hreach
  have hzero := hrefs 0 (by decide) fun p hp => by simp [hidle p] at hp
  refine ⟨s, hs, hone, by omega, hnone _ (.inl hunused)⟩

end Xv6.Sync
