import Xv6.Sched.Runs

/-!
# The process tree

Between its two uses of the table `fork` works on an embryo without `ptable.lock`, so its
parts are steps of their own here; the other operations hold the lock from beginning to end.
The run remembers which processes have exited and which ones `wait` has returned, where the
process in a slot is known by how often the slot has been allocated.
-/

namespace Xv6.Sched

open Xv6.Lib

structure Family where
  table : PTable
  /-- The embryo of a process that is in `fork`, and whether it has its parent. -/
  fork : Slot → Option (Slot × Bool)
  /-- How often the slot has been allocated. -/
  serial : Slot → Nat
  exited : List (Slot × Nat)
  /-- Who has waited for which process. -/
  returned : List (Slot × Slot × Nat)

inductive FamilyOp
  | userinit
  /-- `allocproc`, as `fork` calls it. -/
  | allocproc (p : Slot)
  /-- There is no memory for the kernel stack, or none for the address space. -/
  | giveUp (p : Slot)
  /-- `np->parent = proc`. -/
  | setParent (p : Slot)
  /-- `makerunnable(np, 0)`. -/
  | finish (p : Slot)
  | scheduler
  | yield (p : Slot)
  /-- Nobody but `wait` sleeps on the record of a process. -/
  | sleep (p : Slot) (a : Int)
  | wakeup (chan : Chan)
  | kill (pid : Int)
  | exit (p : Slot)
  | wait (p : Slot)
  | setPriority (p : Slot) (pr : Int)

def PTable.zombieChild (s : PTable) (p : Slot) : Option Slot :=
  (List.finRange NPROC).find? fun c => (s.proc c).parent = some p ∧ (s.proc c).state = .ZOMBIE

namespace Family

def allocated (s : Family) (t : PTable) (x : Slot) : Family :=
  { s with table := t, serial := Function.update s.serial x (s.serial x + 1) }

def setFork (s : Family) (p : Slot) (x : Option (Slot × Bool)) : Family :=
  { s with fork := Function.update s.fork p x }

def apply (s : Family) : FamilyOp → Option Family
  | .userinit =>
    if s.table.initproc = none then
      match s.table.userinit with
      | none => none
      | some t => t.initproc.map fun p => s.allocated t p
    else none
  | .allocproc p =>
    match s.table.allocproc true with
    | (t, none) => some { s with table := t }
    | (t, some np) => some ((s.allocated t np).setFork p (some (np, false)))
  | .giveUp p =>
    match s.fork p with
    | some (np, false) =>
      let t := s.table.setProc np { s.table.proc np with state := .UNUSED }
      some ({ s with table := t }.setFork p none)
    | _ => none
  | .setParent p =>
    match s.fork p with
    | some (np, false) =>
      let t := s.table.setProc np { s.table.proc np with parent := some p }
      some ({ s with table := t }.setFork p (some (np, true)))
    | _ => none
  | .finish p =>
    match s.fork p with
    | some (np, true) => some ({ s with table := s.table.makerunnable np 0 }.setFork p none)
    | _ => none
  | .scheduler => some { s with table := s.table.scheduler }
  | .yield p => some { s with table := s.table.yield p }
  | .sleep p a => some { s with table := s.table.sleep p (.addr a) }
  | .wakeup chan => some { s with table := s.table.wakeup chan }
  | .kill pid => some { s with table := (s.table.kill pid).1 }
  | .exit p =>
    (s.table.exit p).map fun t => { s with table := t, exited := (p, s.serial p) :: s.exited }
  | .wait p =>
    let returned := match s.table.zombieChild p with
      | some c => (p, c, s.serial c) :: s.returned
      | none => s.returned
    some { s with table := (s.table.wait p).1, returned := returned }
  | .setPriority p pr => some { s with table := s.table.sysSetPriority p pr }

/-- An operation is made by a process on a CPU, and no process in `fork` makes another. -/
def Allowed (s : Family) : FamilyOp → Prop
  | .allocproc p | .sleep p _ | .exit p | .wait p | .setPriority p _ =>
    (s.table.proc p).state = .RUNNING ∧ s.fork p = none
  | .giveUp p | .setParent p | .finish p | .yield p => (s.table.proc p).state = .RUNNING
  | .userinit | .scheduler | .wakeup _ | .kill _ => True

instance (s : Family) : (op : FamilyOp) → Decidable (s.Allowed op)
  | .allocproc _ | .sleep _ _ | .exit _ | .wait _ | .setPriority _ _ =>
    inferInstanceAs (Decidable (_ ∧ _))
  | .giveUp _ | .setParent _ | .finish _ | .yield _ => inferInstanceAs (Decidable (_ = _))
  | .userinit | .scheduler | .wakeup _ | .kill _ => inferInstanceAs (Decidable True)

def next (s : Family) (op : FamilyOp) : Option Family :=
  if s.Allowed op then s.apply op else none

def boot : Family := ⟨.boot, fun _ => none, fun _ => 0, [], []⟩

end Family

def familyMachine : Machine Family FamilyOp := .ofFun .boot Family.next

theorem wait_of_zombieChild {s : PTable} {p c : Slot} (h : s.zombieChild p = some c) :
    s.wait p = (s.setProc c
      { s.proc c with state := .UNUSED, pid := 0, parent := none, killed := false },
      some (s.proc c).pid) := by
  unfold PTable.zombieChild at h
  unfold PTable.wait
  rw [h]

theorem Family.next_eq_some {s t : Family} {op : FamilyOp} :
    s.next op = some t ↔ s.Allowed op ∧ s.apply op = some t := by
  simp [Family.next]

/-! ## Processes that stay what they are to each other -/

structure Resched (s t : PTable) : Prop where
  parent : ∀ x, (t.proc x).parent = (s.proc x).parent
  state : ∀ x, (t.proc x).state = (s.proc x).state ∨ (s.proc x).Started ∧ (t.proc x).Started
  waits : ∀ x, SleepsOn t (some (.proc x)) x → SleepsOn s (some (.proc x)) x ∨ ¬ HasZombie s x
  initproc : t.initproc = s.initproc

section Resched

variable {s t u : PTable} {p x : Slot}

theorem Proc.Started.ne_zombie {r : Proc} (h : r.Started) : r.state ≠ .ZOMBIE := by
  rcases h with h | h | h <;> simp [h]

theorem Proc.Started.ne_embryo {r : Proc} (h : r.Started) : r.state ≠ .EMBRYO := by
  rcases h with h | h | h <;> simp [h]

theorem Proc.Started.ne_unused {r : Proc} (h : r.Started) : r.state ≠ .UNUSED := by
  rcases h with h | h | h <;> simp [h]

theorem Proc.started_congr {r r' : Proc} (h : r.state = r'.state) : r.Started ↔ r'.Started := by
  unfold Proc.Started
  rw [h]

namespace Resched

theorem refl (s : PTable) : Resched s s :=
  ⟨fun _ => rfl, fun _ => .inl rfl, fun _ => .inl, rfl⟩

theorem started_iff (h : Resched s t) (x : Slot) :
    (t.proc x).Started ↔ (s.proc x).Started := by
  rcases h.state x with hsame | ⟨hs, ht⟩
  · exact Proc.started_congr hsame
  · exact ⟨fun _ => hs, fun _ => ht⟩

theorem state_eq (h : Resched s t) (hx : ¬ (s.proc x).Started) :
    (t.proc x).state = (s.proc x).state :=
  (h.state x).resolve_right fun hstarted => hx hstarted.1

theorem state_eq_iff (h : Resched s t) {st : ProcState} (hst : st = .ZOMBIE ∨ st = .UNUSED ∨
    st = .EMBRYO) : (t.proc x).state = st ↔ (s.proc x).state = st := by
  rcases h.state x with hsame | ⟨hs, ht⟩
  · rw [hsame]
  · rcases hst with rfl | rfl | rfl
    · exact iff_of_false ht.ne_zombie hs.ne_zombie
    · exact iff_of_false ht.ne_unused hs.ne_unused
    · exact iff_of_false ht.ne_embryo hs.ne_embryo

theorem hasZombie_iff (h : Resched s t) (x : Slot) : HasZombie t x ↔ HasZombie s x := by
  unfold HasZombie
  simp only [h.parent, h.state_eq_iff (.inl rfl)]

theorem trans (h : Resched s t) (h' : Resched t u) : Resched s u := by
  refine ⟨fun x => (h'.parent x).trans (h.parent x), fun x => ?_, fun x hx => ?_,
    h'.initproc.trans h.initproc⟩
  · rcases h'.state x with hsame | ⟨ht, hu⟩
    · rw [hsame, Proc.started_congr hsame]
      exact h.state x
    · exact .inr ⟨(h.started_iff x).1 ht, hu⟩
  · rcases h'.waits x hx with hx | hnone
    · exact h.waits x hx
    · exact .inr fun hz => hnone ((h.hasZombie_iff x).2 hz)

theorem of_sameButNext (h : ∀ x, SameButNext (t.proc x) (s.proc x))
    (hinit : t.initproc = s.initproc) : Resched s t := by
  refine ⟨fun x => (h x).parent_eq, fun x => .inl (h x).state_eq, fun x hx => .inl ?_, hinit⟩
  exact ⟨(h x).state_eq ▸ hx.1, (h x).chan_eq ▸ hx.2⟩

theorem setProc {r : Proc} (hp : (s.proc p).Started) (hr : r.Started)
    (hparent : r.parent = (s.proc p).parent)
    (hwaits : r.state = .SLEEPING → r.chan = some (.proc p) → SleepsOn s (some (.proc p)) p ∨
      ¬ HasZombie s p) : Resched s (s.setProc p r) := by
  refine ⟨fun x => ?_, fun x => ?_, fun x hx => ?_, rfl⟩
  · by_cases hxp : x = p
    · subst hxp
      simp [hparent]
    · simp [hxp]
  · by_cases hxp : x = p
    · subst hxp
      simp [hp, hr]
    · simp [hxp]
  · by_cases hxp : x = p
    · subst hxp
      simp only [SleepsOn, PTable.setProc_same] at hx
      exact hwaits hx.1 hx.2
    · simp only [SleepsOn, PTable.setProc_ne _ _ hxp] at hx
      exact .inl hx

theorem makerunnable (hp : (s.proc p).Started) (d : Int) : Resched s (s.makerunnable p d) := by
  have hset := setProc (r := { s.proc p with
    priority := PTable.adjustPriority d (s.proc p).priority, state := .RUNNABLE })
    hp (by simp [Proc.Started]) rfl (by simp)
  exact hset.trans (of_sameButNext (fun x => enqueue_sameButNext _ p x) (enqueue_initproc _ p))

theorem foldl {f : PTable → Slot → PTable} (hf : ∀ s p, Resched s (f s p)) (l : List Slot)
    (s : PTable) : Resched s (l.foldl f s) := by
  induction l generalizing s with
  | nil => exact refl s
  | cons p l ih => exact (hf s p).trans (ih (f s p))

theorem wakeup1 (s : PTable) (c : Option Chan) : Resched s (s.wakeup1 c) := by
  refine foldl (fun s p => ?_) _ s
  unfold PTable.wakeupOne
  split_ifs with hc
  · exact makerunnable (.inl hc.1) (-1)
  · exact refl s

theorem kill (s : PTable) (pid : Int) : Resched s (s.kill pid).1 := by
  unfold PTable.kill
  split
  · exact refl s
  · rename_i p _
    have hmark : Resched s (s.setProc p { s.proc p with killed := true }) := by
      have hproc : ∀ x, ((s.setProc p { s.proc p with killed := true }).proc x).state =
            (s.proc x).state ∧
          ((s.setProc p { s.proc p with killed := true }).proc x).parent = (s.proc x).parent ∧
          ((s.setProc p { s.proc p with killed := true }).proc x).chan = (s.proc x).chan := by
        intro x
        by_cases hxp : x = p
        · subst hxp
          simp
        · simp [hxp]
      refine ⟨fun x => (hproc x).2.1, fun x => .inl (hproc x).1, fun x hx => .inl ?_, rfl⟩
      exact ⟨(hproc x).1 ▸ hx.1, (hproc x).2.2 ▸ hx.2⟩
    simp only [PTable.setProc_same]
    split_ifs with hsleep
    · exact hmark.trans (makerunnable (.inl (by simpa using hsleep)) 0)
    · exact hmark

theorem yield (hp : (s.proc p).state = .RUNNING) : Resched s (s.yield p) := by
  rw [yield_eq]
  have hlower : Resched s (s.setProc p { s.proc p with
      priority := if (s.proc p).priority < 3 then (s.proc p).priority + 1
        else (s.proc p).priority }) :=
    setProc (.inr (.inr hp)) (.inr (.inr hp)) rfl (by simp [hp])
  exact hlower.trans (makerunnable (.inr (.inr (by simpa using hp))) 1)

theorem sleep (hp : (s.proc p).state = .RUNNING) (c : Chan)
    (hc : c = .proc p → ¬ HasZombie s p) : Resched s (s.sleep p c) := by
  refine setProc (.inr (.inr hp)) (by simp [Proc.Started]) rfl fun _ hchan => .inr (hc ?_)
  simpa using hchan

theorem scheduler {full : Bool} (h : Inv full s) : Resched s s.scheduler := by
  unfold PTable.scheduler
  split
  · exact refl s
  · rename_i i hi
    have hlt : i < MLF_LEVELS := by simpa using List.mem_of_find?_eq_some hi
    split
    · exact refl s
    · rename_i t p hdeq
      obtain ⟨q, hq, _⟩ := h
      obtain ⟨hqi, _⟩ := hq.dequeue hlt hdeq
      have hrun : (s.proc p).state = .RUNNABLE := (hq.member i hlt p (hqi ▸ List.mem_cons_self)).1
      have htaken : Resched s t := by
        unfold PTable.dequeue at hdeq
        split at hdeq
        · cases hdeq
        · rename_i f _
          obtain ⟨rfl, rfl⟩ := Prod.mk.inj (Option.some.inj hdeq)
          exact of_sameButNext (fun x => sameButNext_setProc_next _ f x none) rfl
      have hstarted : (t.proc p).Started := (htaken.started_iff p).2 (.inr (.inl hrun))
      exact htaken.trans (setProc hstarted (by simp [Proc.Started]) rfl (by simp))

theorem sysSetPriority (hp : (s.proc p).state = .RUNNING) (pr : Int) :
    Resched s (s.sysSetPriority p pr) :=
  setProc (.inr (.inr hp)) (.inr (.inr hp)) rfl (by simp [hp])

end Resched

end Resched

/-! ## Parents -/

/-- Every process but the first has a parent that has not exited, and whoever sleeps in `wait`
has no child to wait for. -/
structure Kin (s : PTable) : Prop where
  parent : ∀ x, (s.proc x).Started ∨ (s.proc x).state = .ZOMBIE → s.initproc ≠ some x →
    ∃ q, (s.proc x).parent = some q ∧ (s.proc q).Started ∧ q ≠ x
  unused : ∀ x, (s.proc x).state = .UNUSED → (s.proc x).parent = none
  init : ∀ i, s.initproc = some i → (s.proc i).Started ∧ (s.proc i).parent = none
  boot : s.initproc = none → ∀ x, ¬ (s.proc x).Started
  waits : ∀ x, SleepsOn s (some (.proc x)) x → ¬ HasZombie s x

section Kin

variable {s t : PTable} {p x : Slot} {r : Proc}

theorem Kin.resched (h : Kin s) (hst : Resched s t) : Kin t := by
  constructor
  case parent =>
    intro x hx hinit
    rw [hst.started_iff, hst.state_eq_iff (.inl rfl)] at hx
    rw [hst.initproc] at hinit
    obtain ⟨q, hparent, hq, hne⟩ := h.parent x hx hinit
    exact ⟨q, (hst.parent x).trans hparent, (hst.started_iff q).2 hq, hne⟩
  case unused =>
    intro x hx
    rw [hst.state_eq_iff (.inr (.inl rfl))] at hx
    rw [hst.parent, h.unused x hx]
  case init =>
    intro i hi
    rw [hst.initproc] at hi
    rw [hst.started_iff, hst.parent]
    exact h.init i hi
  case boot =>
    intro hnone x
    rw [hst.initproc] at hnone
    rw [hst.started_iff]
    exact h.boot hnone x
  case waits =>
    intro x hx
    rw [hst.hasZombie_iff]
    rcases hst.waits x hx with hx | hnone
    · exact h.waits x hx
    · exact hnone

theorem Kin.setProc (h : Kin s) (hp : ¬ (s.proc p).Started)
    (hr : r.state = .EMBRYO ∨ r.state = .UNUSED ∧ r.parent = none) : Kin (s.setProc p r) := by
  have hnew : ¬ r.Started ∧ r.state ≠ .ZOMBIE ∧ r.state ≠ .SLEEPING := by
    unfold Proc.Started
    rcases hr with hr | ⟨hr, _⟩ <;> simp [hr]
  have hne : ∀ x, ((s.setProc p r).proc x).Started ∨ ((s.setProc p r).proc x).state = .ZOMBIE →
      x ≠ p := by
    rintro x hx rfl
    rw [PTable.setProc_same] at hx
    exact hx.elim hnew.1 hnew.2.1
  have hstarted : ∀ x, (s.proc x).Started → ((s.setProc p r).proc x).Started := by
    intro x hx
    have hxp : x ≠ p := by
      rintro rfl
      exact hp hx
    rwa [PTable.setProc_ne _ _ hxp]
  constructor
  case parent =>
    intro x hx hinit
    have hxp := hne x hx
    rw [PTable.setProc_ne _ _ hxp] at hx ⊢
    obtain ⟨q, hparent, hq, hqx⟩ := h.parent x hx hinit
    exact ⟨q, hparent, hstarted q hq, hqx⟩
  case unused =>
    intro x hx
    by_cases hxp : x = p
    · subst hxp
      rw [PTable.setProc_same] at hx ⊢
      rcases hr with hr | ⟨_, hr⟩
      · rw [hr] at hx
        cases hx
      · exact hr
    · rw [PTable.setProc_ne _ _ hxp] at hx ⊢
      exact h.unused x hx
  case init =>
    intro i hi
    obtain ⟨hstart, hparent⟩ := h.init i hi
    have hip : i ≠ p := by
      rintro rfl
      exact hp hstart
    rw [PTable.setProc_ne _ _ hip]
    exact ⟨hstart, hparent⟩
  case boot =>
    intro hnone x hx
    rw [PTable.setProc_ne _ _ (hne x (.inl hx))] at hx
    exact h.boot hnone x hx
  case waits =>
    rintro x hx ⟨z, hparent, hz⟩
    have hzp := hne z (.inr hz)
    rw [PTable.setProc_ne _ _ hzp] at hparent hz
    have hxp : x ≠ p := by
      rintro rfl
      rw [SleepsOn, PTable.setProc_same] at hx
      exact hnew.2.2 hx.1
    rw [SleepsOn, PTable.setProc_ne _ _ hxp] at hx
    exact h.waits x hx ⟨z, hparent, hz⟩

theorem Kin.start {q : Slot} (h : Kin s) (hp : (s.proc p).state = .EMBRYO)
    (hparent : (s.proc p).parent = some q) (hq : (s.proc q).Started) (d : Int) :
    Kin (s.makerunnable p d) := by
  have hqp : q ≠ p := by
    rintro rfl
    exact hq.ne_embryo hp
  have hself := makerunnable_self s p d
  have hother : ∀ x, x ≠ p → SameButNext ((s.makerunnable p d).proc x) (s.proc x) :=
    fun x hx => makerunnable_ne s d hx
  have hstarted : ∀ x, (s.proc x).Started → ((s.makerunnable p d).proc x).Started := by
    intro x hx
    have hxp : x ≠ p := by
      rintro rfl
      exact hx.ne_embryo hp
    exact (Proc.started_congr (hother x hxp).state_eq).2 hx
  constructor
  case parent =>
    intro x hx hinit
    rw [makerunnable_initproc] at hinit
    by_cases hxp : x = p
    · subst hxp
      exact ⟨q, hself.parent_eq.trans hparent, hstarted q hq, hqp⟩
    · rw [Proc.started_congr (hother x hxp).state_eq, (hother x hxp).state_eq] at hx
      obtain ⟨q', hparent', hq', hne⟩ := h.parent x hx hinit
      exact ⟨q', (hother x hxp).parent_eq.trans hparent', hstarted q' hq', hne⟩
  case unused =>
    intro x hx
    by_cases hxp : x = p
    · subst hxp
      rw [hself.state_eq] at hx
      cases hx
    · rw [(hother x hxp).state_eq] at hx
      rw [(hother x hxp).parent_eq, h.unused x hx]
  case init =>
    intro i hi
    rw [makerunnable_initproc] at hi
    obtain ⟨hi, hroot⟩ := h.init i hi
    have hip : i ≠ p := by
      rintro rfl
      exact hi.ne_embryo hp
    exact ⟨hstarted i hi, (hother i hip).parent_eq.trans hroot⟩
  case boot =>
    intro hnone
    rw [makerunnable_initproc] at hnone
    exact absurd hq (h.boot hnone q)
  case waits =>
    rintro x hx ⟨z, hzparent, hz⟩
    have hxp : x ≠ p := by
      rintro rfl
      rw [SleepsOn, hself.state_eq] at hx
      cases hx.1
    have hzp : z ≠ p := by
      rintro rfl
      rw [hself.state_eq] at hz
      cases hz
    rw [SleepsOn, (hother x hxp).state_eq, (hother x hxp).chan_eq] at hx
    rw [(hother z hzp).parent_eq] at hzparent
    rw [(hother z hzp).state_eq] at hz
    exact h.waits x hx ⟨z, hzparent, hz⟩

end Kin

/-! ## `exit` -/

structure Passed (p : Slot) (l : List Slot) (s t : PTable) : Prop where
  parent : ∀ x, (t.proc x).parent =
    if x ∈ l ∧ (s.proc x).parent = some p then s.initproc else (s.proc x).parent
  state : ∀ x, (t.proc x).state = (s.proc x).state ∨ (s.proc x).Started ∧ (t.proc x).Started
  sleeps : ∀ c x, SleepsOn t c x → SleepsOn s c x
  woken : ∀ x, (∃ z ∈ l, (s.proc z).parent = some p ∧ (s.proc z).state = .ZOMBIE) →
    ¬ SleepsOn t (initChan s) x
  initproc : t.initproc = s.initproc

section Passed

variable {s t : PTable} {p c : Slot}

theorem sleepsOn_of_wakeup1 {c c' : Option Chan} {x : Slot} (h : SleepsOn (s.wakeup1 c) c' x) :
    SleepsOn s c' x := by
  have hsame := wakeup1_of_ne_runnable (ne_runnable_of_eq h.1 (by simp))
  exact ⟨hsame.state_eq ▸ h.1, hsame.chan_eq ▸ h.2⟩

theorem passed_child {u : PTable} (hc : (s.proc c).parent = some p)
    (hu : ∀ x, (u.proc x).state = (s.proc x).state ∧ (u.proc x).chan = (s.proc x).chan ∧
      (u.proc x).parent = if x = c then s.initproc else (s.proc x).parent)
    (hinit : u.initproc = s.initproc) :
    Passed p [c] s (if (s.proc c).state = .ZOMBIE then u.wakeup1 (initChan s) else u) := by
  have hparent : ∀ x, (u.proc x).parent =
      if x ∈ [c] ∧ (s.proc x).parent = some p then s.initproc else (s.proc x).parent := by
    intro x
    rw [(hu x).2.2]
    by_cases hx : x = c
    · rw [hx]
      simp [hc]
    · simp [hx]
  have hsleeps : ∀ c x, SleepsOn u c x → SleepsOn s c x := fun c x hx =>
    ⟨(hu x).1 ▸ hx.1, (hu x).2.1 ▸ hx.2⟩
  split_ifs with hz
  · have hwake := Resched.wakeup1 u (initChan s)
    refine ⟨fun x => ?_, fun x => ?_, fun c' x hx => ?_, fun x _ => ?_, ?_⟩
    · rw [hwake.parent, hparent]
    · rw [← (hu x).1, ← Proc.started_congr (hu x).1]
      exact hwake.state x
    · exact hsleeps c' x (sleepsOn_of_wakeup1 hx)
    · exact not_sleepsOn_wakeup1 u _ x
    · rw [hwake.initproc, hinit]
  · refine ⟨hparent, fun x => .inl (hu x).1, hsleeps, ?_, hinit⟩
    rintro x ⟨z, hmem, _, hzombie⟩
    rw [List.mem_singleton.1 hmem] at hzombie
    exact absurd hzombie hz

theorem passed_one (p c : Slot) (s : PTable) : Passed p [c] s (PTable.abandonOne p s c) := by
  by_cases hc : (s.proc c).parent = some p
  · rw [abandonOne_of_parent hc]
    refine passed_child hc (fun x => ?_) rfl
    obtain ⟨hstate, hchan, _, hparent⟩ := setProc_parent_eq s c x s.initproc
    exact ⟨hstate, hchan, hparent⟩
  · rw [abandonOne_of_not_parent hc]
    refine ⟨fun x => ?_, fun x => .inl rfl, fun _ _ hx => hx, ?_, rfl⟩
    · rw [if_neg]
      rintro ⟨hmem, hx⟩
      rw [List.mem_singleton.1 hmem] at hx
      exact hc hx
    · rintro x ⟨z, hmem, hz, _⟩
      rw [List.mem_singleton.1 hmem] at hz
      exact absurd hz hc

theorem Passed.cons {u : PTable} {l : List Slot} (h : Passed p [c] s t) (h' : Passed p l t u)
    (hp : s.initproc ≠ some p) : Passed p (c :: l) s u := by
  constructor
  case parent =>
    intro x
    rw [h'.parent, h.parent, h.initproc]
    by_cases hx : (s.proc x).parent = some p
    · by_cases hxc : x = c
      · subst hxc
        simp [hx, hp]
      · simp [hx, hxc]
    · simp [hx]
  case state =>
    intro x
    rcases h'.state x with hsame | ⟨ht, hu⟩
    · rw [hsame, Proc.started_congr hsame]
      exact h.state x
    · refine .inr ⟨?_, hu⟩
      rcases h.state x with hsame | ⟨hs, _⟩
      · exact (Proc.started_congr hsame).1 ht
      · exact hs
  case sleeps => exact fun c x hx => h.sleeps c x (h'.sleeps c x hx)
  case woken =>
    rintro x ⟨z, hmem, hz, hzombie⟩ hx
    rcases List.mem_cons.1 hmem with rfl | hmem
    · exact h.woken x ⟨z, List.mem_singleton.2 rfl, hz, hzombie⟩ (h'.sleeps _ x hx)
    · by_cases hzc : z = c
      · exact h.woken x ⟨z, List.mem_singleton.2 hzc, hz, hzombie⟩ (h'.sleeps _ x hx)
      · have hchan : initChan t = initChan s := by rw [initChan, h.initproc, initChan]
        refine h'.woken x ⟨z, hmem, ?_, ?_⟩ (hchan ▸ hx)
        · rw [h.parent, if_neg (by simp [hzc]), hz]
        · rcases h.state z with hsame | ⟨hs, _⟩
          · rw [hsame, hzombie]
          · exact absurd hzombie hs.ne_zombie
  case initproc => rw [h'.initproc, h.initproc]

theorem passed_foldl (l : List Slot) (s : PTable) (hp : s.initproc ≠ some p) :
    Passed p l s (l.foldl (PTable.abandonOne p) s) := by
  induction l generalizing s with
  | nil => exact ⟨fun x => by simp, fun _ => .inl rfl, fun _ _ hx => hx, by simp, rfl⟩
  | cons c l ih =>
    have hone := passed_one p c s
    exact hone.cons (ih _ (by rwa [hone.initproc])) hp

/-- What `exit` makes of the others: children pass to `init`, and nobody else changes but by
waking up. -/
structure Exited (p : Slot) (s t : PTable) : Prop where
  zombie : (t.proc p).state = .ZOMBIE
  state : ∀ x, x ≠ p → (t.proc x).state = (s.proc x).state ∨
    (s.proc x).Started ∧ (t.proc x).Started
  parent : ∀ x, (t.proc x).parent =
    if (s.proc x).parent = some p then s.initproc else (s.proc x).parent
  sleeps : ∀ c x, SleepsOn t c x → SleepsOn s c x
  woken : ∀ x, ¬ SleepsOn t (parentChan s p) x ∧ (HasZombie s p → ¬ SleepsOn t (initChan s) x)
  initproc : t.initproc = s.initproc ∧ s.initproc ≠ some p

theorem exited_of_exit (hp : (s.proc p).state = .RUNNING) (ht : s.exit p = some t) :
    Exited p s t := by
  have hinit : s.initproc ≠ some p := by
    intro hinit
    simp [PTable.exit, hinit] at ht
  rw [exit_eq hinit] at ht
  obtain rfl := Option.some.inj ht
  have hwake := Resched.wakeup1 s (parentChan s p)
  have hpass : Passed p (List.finRange NPROC) (s.wakeup1 (parentChan s p)) (passedOn s p) :=
    passed_foldl _ _ (by rwa [hwake.initproc])
  have hrun : ((passedOn s p).proc p).state = .RUNNING := passedOn_state hp
  have hother : ∀ x, x ≠ p → ((passedOn s p).setProc p
      { (passedOn s p).proc p with state := .ZOMBIE }).proc x = (passedOn s p).proc x :=
    fun x hx => PTable.setProc_ne _ _ hx
  have hsleeps : ∀ c x, SleepsOn ((passedOn s p).setProc p
      { (passedOn s p).proc p with state := .ZOMBIE }) c x → SleepsOn (passedOn s p) c x := by
    intro c x hx
    by_cases hxp : x = p
    · subst hxp
      rw [SleepsOn, PTable.setProc_same] at hx
      cases hx.1
    · rwa [SleepsOn, hother x hxp] at hx
  constructor
  case zombie => rw [PTable.setProc_same]
  case state =>
    intro x hxp
    rw [hother x hxp]
    rcases hpass.state x with hsame | ⟨hs, ht⟩
    · rw [hsame, Proc.started_congr hsame]
      exact hwake.state x
    · exact .inr ⟨(hwake.started_iff x).1 hs, ht⟩
  case parent =>
    intro x
    have hsame : (((passedOn s p).setProc p
        { (passedOn s p).proc p with state := .ZOMBIE }).proc x).parent =
          ((passedOn s p).proc x).parent := by
      by_cases hxp : x = p
      · rw [hxp, PTable.setProc_same]
      · rw [hother x hxp]
    rw [hsame, hpass.parent, hwake.parent, hwake.initproc]
    simp only [List.mem_finRange, true_and]
  case sleeps => exact fun c x hx => sleepsOn_of_wakeup1 (hpass.sleeps c x (hsleeps c x hx))
  case woken =>
    intro x
    constructor
    · intro hx
      exact not_sleepsOn_wakeup1 s _ x (hpass.sleeps _ x (hsleeps _ x hx))
    · rintro ⟨z, hz, hzombie⟩ hx
      have hchan : initChan (s.wakeup1 (parentChan s p)) = initChan s := by
        rw [initChan, hwake.initproc, initChan]
      refine hpass.woken x ⟨z, List.mem_finRange z, ?_, ?_⟩ ?_
      · rw [hwake.parent, hz]
      · rw [hwake.state_eq_iff (.inl rfl), hzombie]
      · rw [hchan]
        exact hsleeps _ x hx
  case initproc =>
    rw [PTable.setProc_initproc, hpass.initproc, hwake.initproc]
    exact ⟨rfl, hinit⟩

theorem Exited.started (h : Exited p s t) {x : Slot} (hxp : x ≠ p) :
    (t.proc x).Started ↔ (s.proc x).Started := by
  rcases h.state x hxp with hsame | ⟨hs, ht⟩
  · exact Proc.started_congr hsame
  · exact ⟨fun _ => hs, fun _ => ht⟩

theorem Exited.state_eq_iff (h : Exited p s t) {x : Slot} (hxp : x ≠ p) {st : ProcState}
    (hst : st = .ZOMBIE ∨ st = .UNUSED ∨ st = .EMBRYO) :
    (t.proc x).state = st ↔ (s.proc x).state = st := by
  rcases h.state x hxp with hsame | ⟨hs, ht⟩
  · rw [hsame]
  · rcases hst with rfl | rfl | rfl
    · exact iff_of_false ht.ne_zombie hs.ne_zombie
    · exact iff_of_false ht.ne_unused hs.ne_unused
    · exact iff_of_false ht.ne_embryo hs.ne_embryo

theorem Kin.exit (h : Kin s) (hp : (s.proc p).Started) (ht : Exited p s t) : Kin t := by
  obtain ⟨hsame, hinit⟩ := ht.initproc
  obtain ⟨i, hi⟩ : ∃ i, s.initproc = some i := by
    cases hnone : s.initproc with
    | none => exact absurd hp (h.boot hnone p)
    | some i => exact ⟨i, rfl⟩
  have hip : i ≠ p := by
    rintro rfl
    exact hinit hi
  obtain ⟨histart, hiparent⟩ := h.init i hi
  have hne_parent : ∀ x, (s.proc x).Started ∨ (s.proc x).state = .ZOMBIE →
      s.initproc ≠ some x → ∃ q, (t.proc x).parent = some q ∧ (t.proc q).Started ∧ q ≠ x := by
    intro x hx hroot
    obtain ⟨q, hparent, hq, hqx⟩ := h.parent x hx hroot
    by_cases hqp : q = p
    · refine ⟨i, ?_, (ht.started hip).2 histart, ?_⟩
      · rw [ht.parent, if_pos (hparent.trans (congrArg some hqp)), hi]
      · rintro rfl
        exact hroot hi
    · refine ⟨q, ?_, (ht.started hqp).2 hq, hqx⟩
      rw [ht.parent, if_neg, hparent]
      rw [hparent]
      exact fun heq => hqp (Option.some.inj heq)
  constructor
  case parent =>
    intro x hx hroot
    rw [hsame] at hroot
    by_cases hxp : x = p
    · exact hne_parent x (.inl (hxp ▸ hp)) hroot
    · rw [ht.started hxp, ht.state_eq_iff hxp (.inl rfl)] at hx
      exact hne_parent x hx hroot
  case unused =>
    intro x hx
    have hxp : x ≠ p := by
      rintro rfl
      rw [ht.zombie] at hx
      cases hx
    rw [ht.state_eq_iff hxp (.inr (.inl rfl))] at hx
    rw [ht.parent, if_neg (by simp [h.unused x hx]), h.unused x hx]
  case init =>
    intro j hj
    obtain rfl : i = j := Option.some.inj (hi.symm.trans (hsame.symm.trans hj))
    refine ⟨(ht.started hip).2 histart, ?_⟩
    rw [ht.parent, if_neg (by simp [hiparent]), hiparent]
  case boot =>
    intro hnone
    rw [hsame, hi] at hnone
    cases hnone
  case waits =>
    rintro x hx ⟨z, hparent, hz⟩
    rw [ht.parent] at hparent
    split_ifs at hparent with hzp
    · -- a child of the exiting process, now of `init`
      have hzp' : z ≠ p := by
        rintro rfl
        obtain ⟨q, hq, _, hne⟩ := h.parent z (.inl hp) hinit
        exact hne (Option.some.inj (hq.symm.trans hzp))
      rw [ht.state_eq_iff hzp' (.inl rfl)] at hz
      refine (ht.woken x).2 ⟨z, hzp, hz⟩ ?_
      rwa [initChan, hparent]
    · by_cases hz' : z = p
      · subst hz'
        refine (ht.woken x).1 ?_
        rwa [parentChan, hparent]
      · rw [ht.state_eq_iff hz' (.inl rfl)] at hz
        exact h.waits x (ht.sleeps _ x hx) ⟨z, hparent, hz⟩

end Passed

end Xv6.Sched
