import Xv6.Lib.Contract
import Xv6.Lib.Pool
import Xv6.Sync.Refcount

/-!
# Single semaphore calls

Who holds `stable.lock` at each moment, and what one call does to the table, to the
descriptors of its caller and to the word at user address 0.  For the memory that a call
touches, and for two calls side by side, its code is written once more with an action for each
access.
-/

namespace Xv6.Sync

open Xv6.Lib Xv6.Sched

/-! ## The holder of the lock -/

section Owner

variable {σ K A : Type} {s t : State σ K}

/-- A process that holds the lock is inside the code that runs with it. -/
def Owned (s : State σ K) : Prop := ∀ p, s.lock = some p → (s.pc p).holdsLock = true

theorem Owned.move (h : Owned s) {p : Slot} {pc : Pc K} (hpc : t.pc = Function.update s.pc p pc)
    (hlock : ∀ x, x ≠ p → t.lock = some x → s.lock = some x)
    (hself : t.lock = some p → pc.holdsLock = true) : Owned t := by
  intro x hx
  rw [hpc]
  by_cases hxp : x = p
  · subst hxp
    rw [Function.update_self]
    exact hself hx
  · rw [Function.update_of_ne hxp]
    exact h x (hlock x hxp hx)

theorem Owned.stay (h : Owned s) {p : Slot} {pc : Pc K} (hpc : t.pc = Function.update s.pc p pc)
    (hlock : t.lock = s.lock) (hsame : pc.holdsLock = (s.pc p).holdsLock) : Owned t := by
  apply h.move hpc
  · intro x _ hx
    exact hlock ▸ hx
  · intro hp
    rw [hsame]
    exact h p (hlock ▸ hp)

theorem Owned.of_move {c : Client σ K A} {p : Slot} (h : Owned s) (hm : c.Move s p t)
    (hret : ∀ k d rv, s.pc p = .crit k → c.body k p s.data ≠ .ret d rv) : Owned t := by
  cases hm with
  | acquire hpc hl =>
    apply h.move rfl
    · intro x hxp hx
      exact absurd (Option.some.inj hx).symm hxp
    · intro _
      rfl
  | release hpc hb hl =>
    apply h.move rfl
    · intro x _ hx
      exact absurd hx (by simp)
    · intro hp
      exact absurd hp (by simp)
  | sleepRel hpc hl =>
    apply h.move rfl
    · intro x _ hx
      exact absurd hx (by simp)
    · intro hp
      exact absurd hp (by simp)
  | ret hpc hb => exact absurd hb (hret _ _ _ hpc)
  | goto hpc hb | sleep hpc hb | wakeup hpc hb => exact h.stay rfl rfl (by simp [hpc, Pc.holdsLock])
  | sleepAcq hpc _ | sleepSet hpc | resume hpc _ | wakeAcq hpc _ | wakeRel hpc _ =>
    exact h.stay rfl rfl (by simp [hpc, Pc.holdsLock])
  | wakeRun hpc =>
    generalize s.pt.wakeup1 _ = pt
    exact h.stay rfl rfl (by simp [hpc, Pc.holdsLock])

theorem Owned.of_start {c : Client σ K A} {p : Slot} {a : A} (h : Owned s)
    (ht : c.start s p a = some t) : Owned t := by
  unfold Client.start at ht
  split at ht
  · rename_i hidle
    split at ht <;> obtain rfl := Option.some.inj ht
    · exact h.stay rfl rfl (by simp [hidle, Pc.holdsLock])
    · apply h.move rfl
      · intro x _ hx
        exact absurd hx (by simp)
      · intro hp
        exact absurd hp (by simp)
    · exact h
  · simp at ht

theorem Owned.of_tableMove {c : Client σ K A} {op : Op} {pt : PTable} (h : Owned s)
    (hm : c.TableMove s op pt t) : Owned t := by
  cases hm with
  | plain | exit => exact h
  | resume _ hpc _ => exact h.stay rfl rfl (by simp [hpc, Pc.holdsLock])

end Owner

/-- A process in `semup` finds no negative value in a semaphore in use. -/
def UpSafe (d : STable) : Pc Point → Prop
  | .crit (.up i) => 0 < (d.sem i).refcount → 0 ≤ (d.sem i).value
  | _ => True

/-- No `semup` meets a negative value, and a `semget` that initialises the lock finds it free. -/
def LockSafe (s : RefState) (l : RefLabel) : Prop :=
  InitFree s l ∧
    match l with
    | .sem (.step p) => UpSafe s.sem.data (s.sem.pc p)
    | _ => True

instance (d : STable) (pc : Pc Point) : Decidable (UpSafe d pc) := by
  unfold UpSafe
  split <;> infer_instance

instance (s : RefState) : (l : RefLabel) → Decidable (LockSafe s l)
  | .sem (.step p) => inferInstanceAs (Decidable (_ ∧ UpSafe s.sem.data (s.sem.pc p)))
  | .sem (.call _ _) | .sem (.table _) | .late _ _ _ | .init _ | .exit _ | .turn _ =>
    inferInstanceAs (Decidable (_ ∧ True))

theorem semClient_ret {k : Point} {p : Slot} {d d' : STable} {rv : Int}
    (h : semClient.body k p d = .ret d' rv) :
    ∃ i, k = .up i ∧ 0 < (d.sem i).refcount ∧ (d.sem i).value < 0 := by
  cases k with
  | up i =>
    refine ⟨i, rfl, ?_⟩
    simp only [semClient, semupBody] at h
    split_ifs at h with href hval
    omega
  | get i v =>
    simp only [semClient, semgetBody] at h
    split_ifs at h <;> split at h <;> try split at h
    all_goals simp at h
  | free i => simp [semClient, semfreeBody] at h
  | down i =>
    simp only [semClient, semdownBody] at h
    split_ifs at h
  | wait i =>
    simp only [semClient, semdownLoop] at h
    split_ifs at h
  | upDone i => simp [semClient, semupDone] at h

theorem semClient_initlock {a : SemCall} {p : Slot} {d d' : STable} {k : Point}
    (h : semClient.enter a p d = .initlock d' k) : (∃ i v, a = .semget i v) ∧ d.firstTime = true := by
  cases a with
  | semget i v =>
    refine ⟨⟨i, v, rfl⟩, ?_⟩
    by_contra hfirst
    simp [semClient, hfirst] at h
  | semfree i =>
    simp only [semClient, semfreeEnter] at h
    split_ifs at h
    split at h <;> simp at h
  | semdown i | semup i | store0 v => simp [semClient] at h

/-- The lock is held by exactly the process that is inside the code that runs with it. -/
structure Secure (s : SemState) : Prop where
  locked : Locked s
  owned : Owned s

namespace Secure

variable {s t : SemState} {p : Slot}

theorem of_start {a : SemCall} (h : Secure s) (ht : semClient.start s p a = some t)
    (hfree : ∀ i v, a = .semget i v → s.data.firstTime = true → s.lock = none) : Secure t := by
  refine ⟨h.locked.of_start ht fun d k hinit q => ?_, h.owned.of_start ht⟩
  obtain ⟨⟨i, v, rfl⟩, hfirst⟩ := semClient_initlock hinit
  by_contra hq
  have hheld := h.locked.lock q (by simpa using hq)
  rw [hfree i v rfl hfirst] at hheld
  exact absurd hheld (by simp)

theorem of_advance (h : Secure s) (ht : semClient.advance s p = some t)
    (hup : UpSafe s.data (s.pc p)) : Secure t := by
  have hmove := Client.Move.of_advance ht
  refine ⟨h.locked.of_move hmove, h.owned.of_move hmove fun k d rv hpc hret => ?_⟩
  obtain ⟨i, rfl, href, hneg⟩ := semClient_ret hret
  rw [hpc] at hup
  have hnonneg := hup href
  omega

theorem of_tableStep {op : Op} (h : Secure s) (ht : semClient.tableStep s op = some t) :
    Secure t := by
  obtain ⟨hfree, pt, _, hmove⟩ := Client.TableMove.of_tableStep ht
  exact ⟨h.locked.of_tableMove hfree hmove, h.owned.of_tableMove hmove⟩

theorem of_initlock {s : RefState} {semId initValue : Int} (h : Secure s.sem)
    (hfree : s.sem.lock = none) : Secure (s.initlock p semId initValue).sem := by
  refine ⟨h.locked.move rfl (.inr (.inl hfree)) (.inl rfl) ?_ ?_, fun q hq => ?_⟩
  · simp [Pc.holdsLock]
  · simp [Pc.holdsPtLock]
  · simp [RefState.initlock] at hq

theorem of_next {s t : RefState} {l : RefLabel} (h : Secure s.sem) (hok : LockSafe s l)
    (hstep : s.next l = some t) : Secure t.sem := by
  cases l with
  | sem l =>
    cases l with
    | call p a =>
      obtain ⟨_, hstep⟩ := Option.ite_none_right_eq_some.1 hstep
      obtain ⟨t, ht, rfl⟩ := Option.map_eq_some_iff.1 hstep
      obtain ⟨_, ht⟩ := Option.ite_none_right_eq_some.1 ht
      refine h.of_start ht fun i v ha => ?_
      subst ha
      exact hok.1
    | step p =>
      obtain ⟨t, ht, rfl⟩ := Option.map_eq_some_iff.1 hstep
      obtain ⟨_, ht⟩ := Option.ite_none_right_eq_some.1 ht
      exact h.of_advance ht hok.2
    | table op =>
      obtain ⟨_, hstep⟩ := Option.ite_none_right_eq_some.1 hstep
      obtain ⟨t, ht, rfl⟩ := Option.map_eq_some_iff.1 hstep
      obtain ⟨_, ht⟩ := Option.ite_none_right_eq_some.1 ht
      exact h.of_tableStep ht
  | late p i v | exit p =>
    obtain ⟨_, hstep⟩ := Option.ite_none_right_eq_some.1 hstep
    obtain rfl := Option.some.inj hstep
    exact h
  | init p =>
    simp only [RefState.next] at hstep
    split at hstep
    · simp at hstep
    · obtain ⟨_, hstep⟩ := Option.ite_none_right_eq_some.1 hstep
      obtain rfl := Option.some.inj hstep
      exact h.of_initlock hok.1
  | turn p =>
    simp only [RefState.next] at hstep
    split at hstep
    · simp at hstep
    · obtain ⟨_, hstep⟩ := Option.ite_none_right_eq_some.1 hstep
      split_ifs at hstep with hlt
      · unfold RefState.closeOne at hstep
        dsimp only at hstep
        split at hstep
        · obtain rfl := Option.some.inj hstep
          exact h
        · obtain ⟨t, ht, rfl⟩ := Option.map_eq_some_iff.1 hstep
          exact h.of_start ht fun _ _ ha => by cases ha
      · obtain ⟨t, ht, rfl⟩ := Option.map_eq_some_iff.1 hstep
        exact h.of_tableStep ht

end Secure

/-- The machine of `semaphore.c` from any contents of the table and of the memory around it. -/
def refMachineFrom (d : STable) : Machine RefState RefLabel :=
  .ofFun { RefState.boot with sem := Client.boot d } RefState.next

/-- `init` makes a semaphore with value `v` and calls `semup` on it. -/
def upRun (v : Int) : List RefLabel :=
  [.sem (.table .userinit), .sem (.table .scheduler), .late initSlot (-1) v, .init initSlot,
    .sem (.step initSlot), .sem (.step initSlot), .sem (.call initSlot (.semup 0)),
    .sem (.step initSlot), .sem (.step initSlot)]

theorem checkprocsem_eq_none {d : STable} {p : Slot} (hfull : ∀ r, d.procsem p r ≠ none) :
    d.checkprocsem p = none := by
  unfold STable.checkprocsem
  rw [List.find?_eq_none]
  intro r _
  simpa using hfull r

theorem unusedSem_isSome {d : STable} (h : ∃ i, InTable i ∧ (d.sem i).refcount = 0) :
    ∃ s, d.unusedSem = some s := by
  obtain ⟨i, ⟨hlo, hhi⟩, hfree⟩ := h
  unfold STable.unusedSem
  have hfound : ((List.range MAXSEM).find? fun t => (d.sem (Int.ofNat t)).refcount = 0).isSome := by
    rw [List.find?_isSome]
    refine ⟨i.toNat, List.mem_range.2 (by omega), ?_⟩
    have hcast : Int.ofNat i.toNat = i := Int.toNat_of_nonneg hlo
    rw [hcast]
    exact decide_eq_true hfree
  obtain ⟨t, ht⟩ := Option.isSome_iff_exists.1 hfound
  exact ⟨Int.ofNat t, by rw [ht]; rfl⟩

/-- `semget` by a process whose descriptors are all in use is turned away, with everything as
it was, exactly if the word at address 0 of the process is not null. -/
theorem semget_limit (d : STable) (p : Slot) (semId initValue : Int)
    (hfull : ∀ r, d.procsem p r ≠ none)
    (hid : (semId = -1 ∧ ∃ i, InTable i ∧ (d.sem i).refcount = 0) ∨
      (semId ≠ -1 ∧ (d.sem semId).refcount ≠ 0)) :
    semgetBody semId initValue p d = .release d (-2) ↔ d.word0 p ≠ none := by
  have hnone := checkprocsem_eq_none hfull
  have hattach : ∀ s, d.word0 p ≠ none → d.attach p s = none := by
    intro s hword
    simp [STable.attach, hnone, hword]
  have hstore : ∀ s, d.word0 p = none →
      d.attach p s = some { d with word0 := Function.update d.word0 p (some s) } := by
    intro s hword
    simp [STable.attach, hnone, hword]
  rcases hid with ⟨rfl, hfree⟩ | ⟨hne, huse⟩
  · obtain ⟨s, hs⟩ := unusedSem_isSome hfree
    have hpos : s ≠ -2 := by
      obtain ⟨t, _, rfl⟩ := Option.map_eq_some_iff.1 hs
      simp only [Int.ofNat_eq_natCast]
      omega
    simp only [semgetBody, if_true, hs]
    by_cases hword : d.word0 p = none
    · simp [hstore s hword, hword, hpos]
    · simp [hattach s hword, hword]
  · simp only [semgetBody, if_neg hne, if_neg huse]
    by_cases hword : d.word0 p = none
    · simp only [hstore semId hword, hword, ne_eq, not_true, iff_false]
      intro heq
      have hdata := congrArg (fun n => (Next.data n).word0 p) heq
      simp [Next.data, hword] at hdata
    · simp [hattach semId hword, hword]

/-- Four semaphores of the first process, and what its word at address 0 is. -/
def fullTable (word : Option Int) : STable :=
  { STable.boot with
    sem := fun i => if InTable i ∧ i < MAXSEMPROC then ⟨0, 1⟩ else ⟨0, 0⟩
    procsem := fun _ r => some r.val
    word0 := fun _ => word }

theorem semget_limit_text :
    semgetBody (-1) 0 ⟨0, by decide⟩ (fullTable (some 7)) = .release (fullTable (some 7)) (-2) := by
  refine (semget_limit _ _ _ _ (fun r => ?_) (.inl ⟨rfl, 5, by decide, by decide⟩)).2 ?_
  · exact Option.some_ne_none _
  · exact Option.some_ne_none _

/-- `init` takes four semaphores.  Its word at address 0 is null. -/
def fourRun : List (Label SemCall) :=
  let init : Slot := ⟨0, Sched.zero_lt_NPROC⟩
  [.table .userinit, .table .scheduler] ++
    (List.replicate 4 [.call init (.semget (-1) 0), .step init, .step init]).flatten

theorem semget_fills_null :
    ¬ ∀ (s : SemState) (p : Slot) (semId initValue : Int), semMachine.Reachable s →
      (∀ r, s.data.procsem p r ≠ none) →
      (semId = -1 ∧ (∃ i, InTable i ∧ (s.data.sem i).refcount = 0)) ∨
        (semId ≠ -1 ∧ (s.data.sem semId).refcount ≠ 0) →
      semgetBody semId initValue p s.data = .release s.data (-2) := by
  intro hall
  have hdec : (Machine.runList semClient.next (Client.boot .boot) fourRun).any
      (fun s => (∀ r, s.data.procsem ⟨0, by decide⟩ r ≠ none) ∧ (s.data.sem 4).refcount = 0 ∧
        s.data.word0 ⟨0, by decide⟩ = none) = true := by
    decide +kernel
  obtain ⟨s, hs, hgoal⟩ := (Option.any_eq_true _ _).1 hdec
  obtain ⟨hfull, hfree, hword⟩ := of_decide_eq_true hgoal
  have hreach : semMachine.Reachable s := Machine.reachable_of_runList fourRun (.init rfl) hs
  have hid : ((-1 : Int) = -1 ∧ ∃ i, InTable i ∧ (s.data.sem i).refcount = 0) ∨
      ((-1 : Int) ≠ -1 ∧ (s.data.sem (-1)).refcount ≠ 0) := .inl ⟨rfl, 4, by decide, hfree⟩
  have hnone := checkprocsem_eq_none hfull
  obtain ⟨t, ht⟩ := unusedSem_isSome ⟨4, by decide, hfree⟩
  have heq := hall s _ (-1) 0 hreach hfull hid
  simp only [semgetBody, if_true, ht, STable.attach, hnone, hword] at heq
  have hdata := congrArg (fun n => (Next.data n).word0 ⟨0, by decide⟩) heq
  simp [Next.data, hword] at hdata

/-! ## The memory that a call touches -/

/-- The pointer `stable.sem + sem_id`.  A `struct sem` has 8 bytes, so ids that differ by a
multiple of `2 ^ 29` lead to one address. -/
def ptr (semId : Int) : Int := semId % 2 ^ 29

theorem ptr_eq {semId : Int} (h : InTable semId) : ptr semId = semId := by
  obtain ⟨hlo, hhi⟩ := h
  have hhi : semId < 16 := hhi
  unfold ptr
  omega

/-- An access to `stable.sem[i]`, to the caller's own record and memory, or to `stable.lock`. -/
inductive Access
  | sem (i : Int)
  | own
  | initlock
  | acquire
  | release
  deriving DecidableEq

def Access.Inside : Access → Prop
  | .sem i => InTable i
  | _ => True

abbrev SemM (α : Type) : Type 1 := Prog STable Access α

def readSem {α : Type} (i : Int) (f : Sem → α) : SemM α :=
  .atomic (.sem i) fun d => .ok (f (d.sem i), d)

def writeSem (i : Int) (f : Sem → Sem) : SemM Unit :=
  .atomic (.sem i) fun d => .ok ((), d.setSem i (f (d.sem i)))

def own {α : Type} (f : STable → α × STable) : SemM α := .atomic .own fun d => .ok (f d)

/-- The loop of `semget` over the table, for `n` semaphores from `t` on. -/
def unusedFrom : Nat → Nat → SemM (Option Int)
  | 0, _ => pure none
  | n + 1, t => do
    let refcount ← readSem t fun s => s.refcount
    if refcount = 0 then pure (some t) else unusedFrom n (t + 1)

def attachTo (p : Slot) (s : Int) : SemM Bool :=
  own fun d =>
    match d.attach p s with
    | some d' => (true, d')
    | none => (false, d)

def semgetNew (p : Slot) (initValue : Int) : SemM Int := do
  let t ← unusedFrom MAXSEM 0
  match t with
  | none => pure (-3)
  | some s =>
    let free ← attachTo p s
    if free then
      writeSem s fun _ => { value := initValue, refcount := 1 }
      own fun d => ((), (d.addQuantity p 1).record s
        { created := some initValue, incs := 0, ups := 0, downs := 0 })
      pure s
    else pure (-2)

def semgetOld (p : Slot) (semId : Int) : SemM Int := do
  let s := ptr semId
  let refcount ← readSem s fun r => r.refcount
  if refcount = 0 then pure (-1)
  else
    let free ← attachTo p s
    if free then
      writeSem s fun r => { r with refcount := int32 (r.refcount + 1) }
      pure semId
    else pure (-2)

def semget (p : Slot) (semId initValue : Int) : SemM Int := do
  own fun d => ((), { d with firstTime := false })
  if semId = -1 then semgetNew p initValue else semgetOld p semId

def semfree (p : Slot) (semId : Int) : SemM Int := do
  let s := ptr semId
  let refcount ← readSem s fun r => r.refcount
  if refcount = 0 then pure (-1)
  else
    let r ← own fun d => ((List.finRange MAXSEMPROC).find? fun r => d.procsem p r = some s, d)
    match r with
    | none => pure (-1)
    | some r =>
      own fun d => ((), d.setProcsem p r none)
      writeSem s fun r => { r with refcount := int32 (r.refcount - 1) }
      own fun d => ((), d.addQuantity p (-1))
      pure 0

/-- `semdown`; with no unit left it goes to sleep. -/
def semdown (semId : Int) : SemM Int := do
  let s := ptr semId
  let refcount ← readSem s fun r => r.refcount
  if refcount ≤ 0 then pure (-1)
  else
    let value ← readSem s fun r => r.value
    if value = 0 then .atomic .own fun _ => .halt .block
    else
      writeSem s fun r => { r with value := int32 (r.value - 1) }
      own fun d => ((), d.record s { d.history s with downs := (d.history s).downs + 1 })
      pure 0

def semup (semId : Int) : SemM Int := do
  let s := ptr semId
  let refcount ← readSem s fun r => r.refcount
  if refcount ≤ 0 then pure (-1)
  else
    let value ← readSem s fun r => r.value
    if 0 ≤ value then
      writeSem s fun r => { r with value := int32 (r.value + 1) }
      own fun d => ((), d.record s
        { d.history s with incs := (d.history s).incs + 1, ups := (d.history s).ups + 1 })
      pure 0
    else pure 0

def semCode (p : Slot) : SemCall → SemM Int
  | .semget semId initValue => semget p semId initValue
  | .semfree semId => semfree p semId
  | .semdown semId => semdown semId
  | .semup semId => semup semId
  | .store0 w => own fun d => (0, { d with word0 := Function.update d.word0 p w })

def Client.follow {σ K A : Type} (c : Client σ K A) (p : Slot) : Nat → K → σ → Res (Int × σ)
  | 0, _, _ => .halt .block
  | n + 1, k, d =>
    match c.body k p d with
    | .goto d k | .wakeup d _ k => c.follow p n k d
    | .sleep _ _ _ => .halt .block
    | .release d rv | .ret d rv => .ok (rv, d)

def Client.alone {σ K A : Type} (c : Client σ K A) (p : Slot) (a : A) (n : Nat) (d : σ) :
    Res (Int × σ) :=
  match c.enter a p d with
  | .acquire d k | .initlock d k => c.follow p n k d
  | .ret d rv => .ok (rv, d)

section Run

variable {p : Slot} {d : STable}

theorem run_unusedFrom (n t : Nat) : (unusedFrom n t).run d =
    .ok (((List.range' t n).find? fun t => (d.sem (Int.ofNat t)).refcount = 0).map Int.ofNat, d) := by
  induction n generalizing t with
  | zero => rfl
  | succ n ih =>
    change (if (d.sem t).refcount = 0 then (pure (some (t : Int)) : SemM (Option Int)) else
      unusedFrom n (t + 1)).run d = _
    rw [List.range'_succ]
    split_ifs with hfree
    · rw [List.find?_cons_of_pos (by simpa using hfree)]
      rfl
    · rw [List.find?_cons_of_neg (by simpa using hfree), ih]

theorem run_semgetNew (initValue : Int) :
    (semgetNew p initValue).run d = semClient.follow p 2 (.get (-1) initValue) d := by
  have hrun : (unusedFrom MAXSEM 0).run d = .ok (d.unusedSem, d) := by
    rw [run_unusedFrom, ← List.range_eq_range']
    rfl
  rw [semgetNew]
  refine (Prog.run_bind_of_ok hrun).trans ?_
  simp only [Client.follow, semClient, semgetBody, if_true]
  cases d.unusedSem with
  | none => rfl
  | some s =>
    change (attachTo p s >>= _).run d = _
    cases hat : d.attach p s with
    | none => simp [attachTo, own, bind, Prog.bind, Prog.run, Prog.atomic, hat, pure]
    | some d' =>
      simp [attachTo, own, writeSem, bind, Prog.bind, Prog.run, Prog.atomic, hat, pure]

theorem run_semgetOld (semId : Int) : (semgetOld p semId).run d =
    if (d.sem (ptr semId)).refcount = 0 then .ok (-1, d)
    else
      match d.attach p (ptr semId) with
      | none => .ok (-2, d)
      | some d' => .ok (semId, d'.setSem (ptr semId)
          { d'.sem (ptr semId) with refcount := int32 ((d'.sem (ptr semId)).refcount + 1) }) := by
  rw [semgetOld]
  generalize ptr semId = s
  cases hat : d.attach p s <;> by_cases hfree : (d.sem s).refcount = 0 <;>
    simp [readSem, writeSem, attachTo, own, bind, Prog.bind, Prog.run, Prog.atomic, hat, pure,
      hfree]

theorem run_semget {semId : Int} (initValue : Int) (hptr : semId ≠ -1 → ptr semId = semId) :
    (semget p semId initValue).run d = semClient.alone p (.semget semId initValue) 2 d := by
  have hfollow : (semget p semId initValue).run d =
      semClient.follow p 2 (.get semId initValue) { d with firstTime := false } := by
    change (if semId = -1 then semgetNew p initValue else semgetOld p semId).run
      { d with firstTime := false } = _
    split_ifs with h
    · rw [h, run_semgetNew]
    · simp only [run_semgetOld, hptr h, Client.follow, semClient, semgetBody, if_neg h]
      split_ifs
      · rfl
      · cases STable.attach { d with firstTime := false } p semId <;> rfl
  rw [hfollow]
  by_cases hfirst : d.firstTime = true
  · simp [Client.alone, semClient, hfirst]
  · have hsame : { d with firstTime := false } = d := by
      rw [Bool.not_eq_true] at hfirst
      rw [← hfirst]
    rw [hsame]
    simp [Client.alone, semClient, hfirst]

theorem run_semfree (semId : Int) :
    (semfree p semId).run d = semClient.alone p (.semfree (ptr semId)) 2 d := by
  simp only [Client.alone, semClient, semfreeEnter, semfree]
  generalize ptr semId = s
  by_cases hfree : (d.sem s).refcount = 0
  · simp [readSem, bind, Prog.bind, Prog.run, Prog.atomic, pure, hfree]
  · cases hr : (List.finRange MAXSEMPROC).find? fun r => d.procsem p r = some s with
    | none =>
      simp [readSem, own, bind, Prog.bind, Prog.run, Prog.atomic, pure, hfree, hr]
    | some r =>
      simp [readSem, own, writeSem, bind, Prog.bind, Prog.run, Prog.atomic, pure, hfree,
        hr, Client.follow, semfreeBody]

theorem run_semdown (semId : Int) :
    (semdown semId).run d = semClient.alone p (.semdown (ptr semId)) 2 d := by
  simp only [Client.alone, semClient, Client.follow, semdownBody, semdown]
  generalize ptr semId = s
  by_cases hfree : (d.sem s).refcount ≤ 0
  · simp [readSem, bind, Prog.bind, Prog.run, Prog.atomic, pure, hfree]
  · by_cases hzero : (d.sem s).value = 0 <;>
      simp [readSem, own, writeSem, bind, Prog.bind, Prog.run, Prog.atomic, pure, hfree,
        hzero, semdownLoop]

theorem record_record (e : STable) (i : Int) (h h' : History) :
    (e.record i h).record i h' = e.record i h' := by
  simp [STable.record]

theorem run_semup (semId : Int) :
    (semup semId).run d = semClient.alone p (.semup (ptr semId)) 2 d := by
  simp only [Client.alone, semClient, Client.follow, semupBody, semup]
  generalize ptr semId = s
  by_cases hfree : (d.sem s).refcount ≤ 0
  · simp [readSem, bind, Prog.bind, Prog.run, Prog.atomic, pure, hfree]
  · by_cases hneg : 0 ≤ (d.sem s).value
    · by_cases hzero : (d.sem s).value = 0 <;>
        simp [readSem, own, writeSem, bind, Prog.bind, Prog.run, Prog.atomic, pure, hfree,
          hneg, hzero, semupDone, record_record]
    · simp [readSem, bind, Prog.bind, Prog.run, Prog.atomic, pure, hfree, hneg]

/-- The call with the index that its id leads to.  The -1 of `semget` is no index. -/
def SemCall.index : SemCall → SemCall
  | .semget semId initValue => .semget (if semId = -1 then -1 else ptr semId) initValue
  | .semfree semId => .semfree (ptr semId)
  | .semdown semId => .semdown (ptr semId)
  | .semup semId => .semup (ptr semId)
  | .store0 w => .store0 w

theorem ptr_ptr (semId : Int) : ptr (ptr semId) = ptr semId := by
  unfold ptr
  omega

/-- What the calls of the monitor do is what the code does at the index. -/
theorem run_semCode (a : SemCall) :
    (semCode p a.index).run d = semClient.alone p a.index 2 d := by
  cases a with
  | semget semId initValue =>
    refine run_semget initValue fun hne => ?_
    by_cases hnew : semId = -1
    · exact absurd (if_pos hnew) hne
    · rw [if_neg hnew, ptr_ptr]
  | semfree semId =>
    have hrun := run_semfree (p := p) (d := d) (ptr semId)
    rwa [ptr_ptr] at hrun
  | semdown semId =>
    have hrun := run_semdown (p := p) (d := d) (ptr semId)
    rwa [ptr_ptr] at hrun
  | semup semId =>
    have hrun := run_semup (p := p) (d := d) (ptr semId)
    rwa [ptr_ptr] at hrun
  | store0 w => rfl

end Run

/-- The id is no index of the table, and not the -1 that asks `semget` for a new semaphore. -/
def SemCall.BadId : SemCall → Prop
  | .semget semId _ => semId ≠ -1 ∧ ¬ InTable semId
  | .semfree semId | .semdown semId | .semup semId => ¬ InTable semId
  | .store0 _ => False

/-- The call comes back with an error and with the descriptors as they were. -/
def Errs (p : Slot) (a : SemCall) (d : STable) : Prop :=
  ∃ rv d', (semCode p a).run d = .ok (rv, d') ∧ rv < 0 ∧ d'.procsem = d.procsem

/-- A bad id is answered with an error, without a change of the descriptors of any process,
and no semaphore outside of the table is touched. -/
def Validated (p : Slot) (a : SemCall) (d : STable) : Prop :=
  (a.BadId → Errs p a d) ∧ (semCode p a).Along (fun l _ => l.Inside) d

section Inside

variable {p : Slot} {d : STable}

theorem along_unusedFrom {n t : Nat} (h : t + n ≤ MAXSEM) :
    (unusedFrom n t).Along (fun l _ => l.Inside) d := by
  induction n generalizing t with
  | zero => trivial
  | succ n ih =>
    have hin : InTable t := ⟨by omega, by omega⟩
    exact ⟨hin, Prog.along_ite (fun _ => trivial) fun _ => ih (by omega)⟩

theorem along_semgetNew (initValue : Int) :
    (semgetNew p initValue).Along (fun l _ => l.Inside) d := by
  refine Prog.Along.bind (along_unusedFrom (by omega)) fun o e hrun => ?_
  rw [run_unusedFrom, ← List.range_eq_range'] at hrun
  cases o with
  | none => trivial
  | some s =>
    have hin : InTable s := by
      simp only [Res.ok.injEq, Prod.mk.injEq, Option.map_eq_some_iff] at hrun
      obtain ⟨⟨t, hfind, rfl⟩, _⟩ := hrun
      have ht := List.mem_range.1 (List.mem_of_find?_eq_some hfind)
      exact ⟨by simp, by simpa using ht⟩
    exact ⟨trivial, Prog.along_ite (fun _ => ⟨hin, trivial, trivial⟩) fun _ => trivial⟩

theorem along_semgetOld {semId : Int} (h : InTable (ptr semId)) :
    (semgetOld p semId).Along (fun l _ => l.Inside) d :=
  ⟨h, Prog.along_ite (fun _ => trivial) fun _ =>
    ⟨trivial, Prog.along_ite (fun _ => ⟨h, trivial⟩) fun _ => trivial⟩⟩

theorem along_semfree {semId : Int} (h : InTable (ptr semId)) :
    (semfree p semId).Along (fun l _ => l.Inside) d := by
  refine ⟨h, Prog.along_ite (fun _ => trivial) fun _ =>
    Prog.Along.bind ⟨trivial, trivial⟩ fun r _ _ => ?_⟩
  cases r with
  | none => trivial
  | some r => exact ⟨trivial, h, trivial, trivial⟩

theorem along_semdown {semId : Int} (h : InTable (ptr semId)) :
    (semdown semId).Along (fun l _ => l.Inside) d :=
  ⟨h, Prog.along_ite (fun _ => trivial) fun _ => ⟨h, Prog.along_ite
    (fun _ => ⟨trivial, trivial⟩) fun _ => ⟨h, trivial, trivial⟩⟩⟩

theorem along_semup {semId : Int} (h : InTable (ptr semId)) :
    (semup semId).Along (fun l _ => l.Inside) d :=
  ⟨h, Prog.along_ite (fun _ => trivial) fun _ => ⟨h, Prog.along_ite
    (fun _ => ⟨h, trivial, trivial⟩) fun _ => trivial⟩⟩

end Inside

/-- The id leads into the table all the same, and there the call finds a reason to give up. -/
def SemCall.Refused (d : STable) (p : Slot) : SemCall → Prop
  | .semget semId _ => InTable (ptr semId) ∧ ((d.sem (ptr semId)).refcount = 0 ∨
      (d.checkprocsem p = none ∧ (d.word0 p ≠ none ∨ semId < 0)))
  | .semfree semId => InTable (ptr semId) ∧ ((d.sem (ptr semId)).refcount = 0 ∨
      ∀ r, d.procsem p r ≠ some (ptr semId))
  | .semdown semId | .semup semId => InTable (ptr semId) ∧ (d.sem (ptr semId)).refcount ≤ 0
  | .store0 _ => True

section Ids

variable {p : Slot} {d : STable}

theorem Errs.of_run {a : SemCall} {rv : Int} {d' : STable}
    (hrun : (semCode p a).run d = .ok (rv, d')) (h : Errs p a d) : rv < 0 ∧ d'.procsem = d.procsem := by
  obtain ⟨rv', d'', hrun', hneg, hsame⟩ := h
  rw [hrun] at hrun'
  cases hrun'
  exact ⟨hneg, hsame⟩

theorem errs_semgetOld {semId initValue : Int} (hne : semId ≠ -1) :
    Errs p (.semget semId initValue) d ↔ (d.sem (ptr semId)).refcount = 0 ∨
      (d.checkprocsem p = none ∧ (d.word0 p ≠ none ∨ semId < 0)) := by
  have hcode : (semCode p (.semget semId initValue)).run d =
      (semgetOld p semId).run { d with firstTime := false } := by
    change (if semId = -1 then semgetNew p initValue else semgetOld p semId).run
      { d with firstTime := false } = _
    rw [if_neg hne]
  rw [run_semgetOld] at hcode
  by_cases hfree : (d.sem (ptr semId)).refcount = 0
  · rw [if_pos hfree] at hcode
    exact iff_of_true ⟨_, _, hcode, by omega, rfl⟩ (.inl hfree)
  rw [if_neg hfree] at hcode
  cases hfound : d.checkprocsem p with
  | some r =>
    -- The descriptor that was free is taken.
    have hnone : d.procsem p r = none := by
      simpa using List.find?_some (hfound : List.find? _ _ = _)
    rw [STable.attach,
      show STable.checkprocsem { d with firstTime := false } p = some r from hfound] at hcode
    refine iff_of_false (fun herr => ?_) (by simp [hfree])
    have hsame := congrFun (congrFun (herr.of_run hcode).2 p) r
    simp [hnone] at hsame
  | none =>
    rw [STable.attach, show STable.checkprocsem { d with firstTime := false } p = none from hfound]
      at hcode
    by_cases hword : d.word0 p = none
    · simp only [hword, if_true] at hcode
      simp only [hfree, hword, ne_eq, not_true, false_or, true_and]
      exact ⟨fun herr => (herr.of_run hcode).1, fun hneg => ⟨_, _, hcode, hneg, rfl⟩⟩
    · simp only [hword, if_false] at hcode
      exact iff_of_true ⟨_, _, hcode, by omega, rfl⟩ (.inr ⟨rfl, .inl hword⟩)

theorem errs_semfree {semId : Int} : Errs p (.semfree semId) d ↔
    (d.sem (ptr semId)).refcount = 0 ∨ ∀ r, d.procsem p r ≠ some (ptr semId) := by
  have hcode : (semCode p (.semfree semId)).run d = _ := run_semfree semId
  simp only [Client.alone, semClient, semfreeEnter] at hcode
  by_cases hfree : (d.sem (ptr semId)).refcount = 0
  · rw [if_pos hfree] at hcode
    exact iff_of_true ⟨_, _, hcode, by omega, rfl⟩ (.inl hfree)
  rw [if_neg hfree] at hcode
  cases hfound : (List.finRange MAXSEMPROC).find? fun r => d.procsem p r = some (ptr semId) with
  | none =>
    rw [hfound] at hcode
    refine iff_of_true ⟨_, _, hcode, by omega, rfl⟩ (.inr fun r => ?_)
    simpa using List.find?_eq_none.1 hfound r (List.mem_finRange r)
  | some r =>
    have hheld : d.procsem p r = some (ptr semId) := by simpa using List.find?_some hfound
    rw [hfound] at hcode
    refine iff_of_false (fun herr => ?_) (by
      rw [not_or, not_forall]
      exact ⟨hfree, r, not_not.2 hheld⟩)
    exact absurd (herr.of_run hcode).1 (by simp)

theorem errs_semdown {semId : Int} :
    Errs p (.semdown semId) d ↔ (d.sem (ptr semId)).refcount ≤ 0 := by
  have hcode : (semCode p (.semdown semId)).run d = _ := run_semdown (p := p) semId
  simp only [Client.alone, semClient, Client.follow, semdownBody, semdownLoop] at hcode
  by_cases hfree : (d.sem (ptr semId)).refcount ≤ 0
  · rw [if_pos hfree] at hcode
    exact iff_of_true ⟨_, _, hcode, by omega, rfl⟩ hfree
  rw [if_neg hfree] at hcode
  refine iff_of_false (fun herr => ?_) hfree
  by_cases hzero : (d.sem (ptr semId)).value = 0
  · obtain ⟨rv, d', hrun, _⟩ := herr
    simp [hzero, hrun] at hcode
  · simp only [hzero, if_false] at hcode
    exact absurd (herr.of_run hcode).1 (by simp)

theorem errs_semup {semId : Int} :
    Errs p (.semup semId) d ↔ (d.sem (ptr semId)).refcount ≤ 0 := by
  have hcode : (semCode p (.semup semId)).run d = _ := run_semup (p := p) semId
  simp only [Client.alone, semClient, Client.follow, semupBody, semupDone] at hcode
  by_cases hfree : (d.sem (ptr semId)).refcount ≤ 0
  · rw [if_pos hfree] at hcode
    exact iff_of_true ⟨_, _, hcode, by omega, rfl⟩ hfree
  rw [if_neg hfree] at hcode
  refine iff_of_false (fun herr => ?_) hfree
  by_cases hneg : 0 ≤ (d.sem (ptr semId)).value <;>
    by_cases hzero : (d.sem (ptr semId)).value = 0 <;>
      simp only [hneg, hzero, if_true, if_false, le_refl] at hcode <;>
        exact absurd (herr.of_run hcode).1 (by simp)

end Ids

/-- The calls are safe exactly for the ids that they ought to check, and for those of the other
ids that wrap around into the table and are refused there. -/
theorem semaphore_ids_validated (p : Slot) (a : SemCall) (d : STable) :
    Validated p a d ↔ (a.BadId → a.Refused d p) := by
  have hin : ∀ {i : Int}, (¬ InTable i → InTable (ptr i)) → InTable (ptr i) := by
    intro i h
    by_cases hi : InTable i
    · rwa [ptr_eq hi]
    · exact h hi
  cases a with
  | semget semId initValue =>
    by_cases hnew : semId = -1
    · subst hnew
      refine iff_of_true ⟨fun hbad => absurd rfl hbad.1, trivial, ?_⟩ fun hbad => absurd rfl hbad.1
      exact along_semgetNew initValue
    · refine ⟨fun ⟨herr, halong⟩ hbad => ?_, fun h => ⟨fun hbad => ?_, trivial, ?_⟩⟩
      · have hrest : (if semId = -1 then semgetNew p initValue else semgetOld p semId).Along
          (fun l _ => l.Inside) { d with firstTime := false } := halong.2
        rw [if_neg hnew] at hrest
        exact ⟨hrest.1, (errs_semgetOld hnew).1 (herr hbad)⟩
      · exact (errs_semgetOld hnew).2 (h hbad).2
      · change (if semId = -1 then semgetNew p initValue else semgetOld p semId).Along _ _
        rw [if_neg hnew]
        exact along_semgetOld (hin fun hout => (h ⟨hnew, hout⟩).1)
  | semfree semId =>
    refine ⟨fun ⟨herr, halong⟩ hbad => ⟨halong.1, errs_semfree.1 (herr hbad)⟩, fun h =>
      ⟨fun hbad => errs_semfree.2 (h hbad).2, along_semfree (hin fun hout => (h hout).1)⟩⟩
  | semdown semId =>
    refine ⟨fun ⟨herr, halong⟩ hbad => ⟨halong.1, errs_semdown.1 (herr hbad)⟩, fun h =>
      ⟨fun hbad => errs_semdown.2 (h hbad).2, along_semdown (hin fun hout => (h hout).1)⟩⟩
  | semup semId =>
    refine ⟨fun ⟨herr, halong⟩ hbad => ⟨halong.1, errs_semup.1 (herr hbad)⟩, fun h =>
      ⟨fun hbad => errs_semup.2 (h hbad).2, along_semup (hin fun hout => (h hout).1)⟩⟩
  | store0 w => exact iff_of_true ⟨fun hbad => hbad.elim, trivial, trivial⟩ fun _ => trivial

/-- Behind the table there is a word that is not zero; `semget(16, 0)` takes it for a
reference count, adds 1 to it and hands out the descriptor 16. -/
theorem semget_takes_bad_id :
    ¬ ∀ (p : Slot) (a : SemCall) (d : STable), a.BadId →
      (∃ rv d', (semCode p a).run d = .ok (rv, d') ∧ rv < 0 ∧ d'.procsem = d.procsem) ∧
        (semCode p a).Along (fun l _ => l.Inside) d := by
  intro hall
  let d : STable := STable.boot.setSem 16 ⟨0, 1⟩
  obtain ⟨⟨rv, d', hrun, hneg, _⟩, _⟩ :=
    hall ⟨0, by decide⟩ (.semget 16 0) d ⟨by decide, by decide⟩
  have hsixteen : ∃ e, (semCode ⟨0, by decide⟩ (.semget 16 0)).run d = .ok (16, e) := ⟨_, rfl⟩
  obtain ⟨e, he⟩ := hsixteen
  rw [he] at hrun
  simp only [Res.ok.injEq, Prod.mk.injEq] at hrun
  omega

/-! ## Two first calls -/

/-- The table and the process whose processor holds `stable.lock`. -/
structure LockedTable where
  table : STable
  lock : Option Slot

def onTable {α : Type} (m : SemM α) : Prog LockedTable Access α :=
  m.lift (fun s => s.table) fun d s => { s with table := d }

def initlock : Prog LockedTable Access Unit :=
  .atomic .initlock fun s => .ok ((), { s with lock := none })

def acquire (p : Slot) : Prog LockedTable Access Unit :=
  .atomic .acquire fun s =>
    if s.lock = some p then .halt (.panic "acquire")
    else if s.lock = none then .ok ((), { s with lock := some p })
    else .halt .block

def release (p : Slot) : Prog LockedTable Access Unit :=
  .atomic .release fun s =>
    if s.lock = some p then .ok ((), { s with lock := none }) else .halt (.panic "release")

/-- `semget` with the lock, statement by statement. -/
def lockedSemget (p : Slot) (semId initValue : Int) : Prog LockedTable Access Int := do
  let first ← onTable (own fun d => (d.firstTime, d))
  Prog.when (first = true) (do
    initlock
    onTable (own fun d => ((), { d with firstTime := false })))
  acquire p
  let rv ← onTable (if semId = -1 then semgetNew p initValue else semgetOld p semId)
  release p
  pure rv

/-- Alone, with the lock free, the call does what the code without the lock does. -/
theorem run_lockedSemget {p : Slot} {semId initValue rv : Int} {d d' : STable}
    (h : (semget p semId initValue).run d = .ok (rv, d')) :
    (lockedSemget p semId initValue).run ⟨d, none⟩ = .ok (rv, ⟨d', none⟩) := by
  have hbody : (if semId = -1 then semgetNew p initValue else semgetOld p semId).run
      { d with firstTime := false } = .ok (rv, d') := h
  have hlift := @Prog.run_lift_of_ok _ Access _ LockedTable (·.table)
    (fun d s => { s with table := d }) (fun _ _ => rfl) (fun _ _ _ => rfl) (fun _ => rfl) _
    ⟨{ d with firstTime := false }, some p⟩ _ _ hbody
  have hrest := Prog.run_bind_of_ok (g := fun rv => (release p).bind fun _ => .ret rv) hlift
  have hend : ((release p).bind fun _ => .ret rv : Prog LockedTable Access Int).run ⟨d', some p⟩ =
      .ok (rv, ⟨d', none⟩) := by
    simp [release, Prog.bind, Prog.run, Prog.atomic]
  cases hfirst : d.firstTime with
  | true =>
    refine Eq.trans ?_ (hrest.trans hend)
    simp [lockedSemget, onTable, own, initlock, acquire, Prog.when, Prog.lift, bind, Prog.bind,
      Prog.run, Prog.atomic, hfirst, pure]
  | false =>
    have hsame : { d with firstTime := false } = d := by rw [← hfirst]
    rw [hsame] at hrest
    refine Eq.trans ?_ (hrest.trans hend)
    simp [lockedSemget, onTable, own, acquire, Prog.when, Prog.lift, bind, Prog.bind, Prog.run,
      Prog.atomic, hfirst, pure]

/-- Processes that call `semget`, on a processor each. -/
def semgets : System Slot (Int × Int) Empty LockedTable Access Int where
  code p a := lockedSemget p a.1 a.2
  ready _ _ := true
  env _ _ e := nomatch e

/-- Both processes find `first_time` set.  The child has scanned the table when `init` comes to
`initlock`, and `init` gets the lock and scans the table too. -/
def firstCalls : List (Turn Slot (Int × Int) Empty) :=
  [.call initSlot (-1, 3), .step initSlot, .call childSlot (-1, 5)] ++
    List.replicate 6 (.step childSlot) ++ List.replicate 7 (.step initSlot) ++
    List.replicate 2 (.step childSlot)

/-- The two take one semaphore: it has one reference and two descriptors. -/
theorem semget_first_calls :
    ¬ ∀ s, (Pool.machine semgets (· = ⟨.boot, none⟩)).Reachable s →
      (∀ p, s.action p = none ∨ s.action p = some .release) → ∀ i, InTable i →
        (s.state.table.sem i).refcount = tally (descriptors s.state.table) (some i) := by
  intro hall
  have hdec : (Machine.runList (Pool.next semgets) ⟨⟨.boot, none⟩, fun _ => none⟩ firstCalls).any
      (fun s => (∀ p, s.action p = none ∨ s.action p = some .release) ∧
        (s.state.table.sem 0).refcount = 1 ∧
        tally (descriptors s.state.table) (some 0) = 2) = true := by
    decide +kernel
  obtain ⟨s, hs, hobs⟩ := (Option.any_eq_true _ _).1 hdec
  obtain ⟨hdone, hone, htwo⟩ := of_decide_eq_true hobs
  have hboot : (Pool.machine semgets (· = ⟨.boot, none⟩)).Reachable
      ⟨⟨.boot, none⟩, fun _ => none⟩ := .init ⟨rfl, rfl⟩
  have hreach : (Pool.machine semgets (· = ⟨.boot, none⟩)).Reachable s := by
    refine Machine.Reach.runList (fun _ _ _ h => h) firstCalls hboot ?_
    simpa using hs
  have hrefs := hall s hreach hdone 0 (by decide)
  omega

end Xv6.Sync
