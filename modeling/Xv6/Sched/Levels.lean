import Xv6.Sched.Runs

/-!
# How far one step moves a level

`yield` lowers the priority and `makerunnable` lowers it again; `sleep` raises it and
`makerunnable`, called by `wakeup1` much later, raises it again.  A run here remembers for every
process the priority with which it went to sleep.
-/

namespace Xv6.Sched

open Xv6.Lib

/-- A run of the table with the priorities at which processes went to sleep. -/
structure Naps where
  table : PTable
  entered : Slot → Int

namespace Naps

def next (s : Naps) (op : Op) : Option Naps :=
  (Sched.next s.table op).map fun t =>
    { table := t
      entered := fun x =>
        if (s.table.proc x).state ≠ .SLEEPING ∧ (t.proc x).state = .SLEEPING then
          (s.table.proc x).priority
        else s.entered x }

def boot : Naps := ⟨.boot, fun _ => 0⟩

end Naps

def napMachine : Machine Naps Op := .ofFun .boot Naps.next

theorem exists_nap {s : PTable} (h : machine.Reachable s) :
    ∃ e, napMachine.Reachable ⟨s, e⟩ := by
  refine Machine.Reach.invariant (I := fun s => ∃ e, napMachine.Reachable ⟨s, e⟩) ?_ ?_ h
  · rintro s rfl
    exact ⟨_, .init rfl⟩
  · rintro s op t ⟨e, hreach⟩ _ ht
    have hnext : (⟨s, e⟩ : Naps).next op = some ⟨t, _⟩ :=
      Option.map_eq_some_iff.2 ⟨t, ht, rfl⟩
    exact ⟨_, .step hreach trivial hnext⟩

theorem table_of_nap {s : Naps} (h : napMachine.Reachable s) : machine.Reachable s.table := by
  refine Machine.Reach.invariant (I := fun s => machine.Reachable s.table) ?_ ?_ h
  · rintro s rfl
    exact .init rfl
  · intro s op u hs _ hu
    obtain ⟨t, ht, rfl⟩ := Option.map_eq_some_iff.1 hu
    exact .step hs trivial ht

/-! ## What an operation does to one process -/

/-- One level up, as `sleep` and `makerunnable(p, -1)` go. -/
def raised (pr : Int) : Int := if pr > 0 then pr - 1 else pr

def lowered (pr : Int) : Int := if pr < 3 then pr + 1 else pr

/-- Everyone is left as they are, but for sleepers that `makerunnable(p, -1)` has woken. -/
def Wakes (s t : PTable) : Prop :=
  ∀ x, ((t.proc x).state = (s.proc x).state ∧ (t.proc x).priority = (s.proc x).priority) ∨
    ((s.proc x).state = .SLEEPING ∧ (t.proc x).state = .RUNNABLE ∧
      (t.proc x).priority = raised (s.proc x).priority)

namespace Wakes

variable {s t u : PTable}

theorem refl (s : PTable) : Wakes s s := fun _ => .inl ⟨rfl, rfl⟩

theorem trans (h : Wakes s t) (h' : Wakes t u) : Wakes s u := by
  intro x
  rcases h' x with ⟨hstate, hprio⟩ | ⟨hsleep, hrun, hprio⟩
  · rw [hstate, hprio]
    exact h x
  · rcases h x with ⟨hstate, hprio'⟩ | ⟨_, hrun', _⟩
    · rw [hprio'] at hprio
      exact .inr ⟨hstate ▸ hsleep, hrun, hprio⟩
    · -- who has been woken does not sleep
      rw [hsleep] at hrun'
      cases hrun'

theorem foldl {f : PTable → Slot → PTable} (hf : ∀ s p, Wakes s (f s p)) (l : List Slot)
    (s : PTable) : Wakes s (l.foldl f s) := by
  induction l generalizing s with
  | nil => exact refl s
  | cons p l ih => exact (hf s p).trans (ih (f s p))

theorem wakeup1 (s : PTable) (c : Option Chan) : Wakes s (s.wakeup1 c) := by
  refine foldl (fun s p x => ?_) _ s
  rcases wakeupOne_proc c s p x with hsame | ⟨hsleep, hself⟩
  · exact .inl ⟨hsame.state_eq, hsame.priority_eq⟩
  · exact .inr ⟨hsleep.1, hself.state_eq, hself.priority_eq.trans (adjustPriority_neg_one _)⟩

theorem setProc_parent (s : PTable) (c : Slot) (o : Option Slot) :
    Wakes s (s.setProc c { s.proc c with parent := o }) := by
  intro x
  obtain ⟨hstate, _, hprio, _⟩ := setProc_parent_eq s c x o
  exact .inl ⟨hstate, hprio⟩

theorem abandonOne (s : PTable) (p c : Slot) : Wakes s (PTable.abandonOne p s c) := by
  by_cases hc : (s.proc c).parent = some p
  · rw [abandonOne_of_parent hc]
    split_ifs
    · exact (setProc_parent s c _).trans (wakeup1 _ _)
    · exact setProc_parent s c _
  · rw [abandonOne_of_not_parent hc]
    exact refl s

theorem passedOn (s : PTable) (p : Slot) : Wakes s (passedOn s p) :=
  (wakeup1 s _).trans (foldl (fun s c => abandonOne s p c) _ _)

end Wakes

inductive Change (s t : PTable) (op : Op) (x : Slot) : Prop
  | same (hstate : (t.proc x).state = (s.proc x).state)
      (hprio : (t.proc x).priority = (s.proc x).priority)
  /-- Neither asleep before nor after. -/
  | awake (hs : (s.proc x).state ≠ .SLEEPING) (ht : (t.proc x).state ≠ .SLEEPING)
  | slept (hop : (∃ c, op = .sleep x c) ∨ op = .wait x) (hs : (s.proc x).state = .RUNNING)
      (hprio : (t.proc x).priority = raised (s.proc x).priority)
  | woken (hs : (s.proc x).state = .SLEEPING) (ht : (t.proc x).state = .RUNNABLE)
      (hprio : (t.proc x).priority = raised (s.proc x).priority)
  | killed {pid : Int} (hop : op = .kill pid) (hs : (s.proc x).state = .SLEEPING)
      (ht : (t.proc x).state = .RUNNABLE)

namespace Change

variable {s t : PTable} {op : Op} {p x : Slot}

theorem of_wakes (h : Wakes s t) : Change s t op x := by
  rcases h x with ⟨hstate, hprio⟩ | ⟨hs, ht, hprio⟩
  · exact .same hstate hprio
  · exact .woken hs ht hprio

/-- One process is written, which does not sleep. -/
theorem only (hp : (s.proc p).state ≠ .SLEEPING) (hp' : (t.proc p).state ≠ .SLEEPING)
    (hother : ∀ y, y ≠ p → SameButNext (t.proc y) (s.proc y)) : Change s t op x := by
  by_cases hx : x = p
  · subst hx
    exact .awake hp hp'
  · exact .same (hother x hx).state_eq (hother x hx).priority_eq

theorem setProc {r : Proc} (hp : (s.proc p).state ≠ .SLEEPING) (hr : r.state ≠ .SLEEPING) :
    Change s (s.setProc p r) op x := by
  refine only hp (by rwa [PTable.setProc_same]) fun y hy => ?_
  rw [PTable.setProc_ne _ _ hy]
  exact .refl _

theorem kill (s : PTable) (pid : Int) : Change s (s.kill pid).1 (.kill pid) x := by
  unfold PTable.kill
  split
  · exact .same rfl rfl
  · rename_i p _
    simp only [PTable.setProc_same]
    have hmark : ∀ y, ((s.setProc p { s.proc p with killed := true }).proc y).state =
          (s.proc y).state ∧
        ((s.setProc p { s.proc p with killed := true }).proc y).priority =
          (s.proc y).priority := by
      intro y
      by_cases hy : y = p
      · simp [hy]
      · simp [hy]
    split_ifs with hsleep
    · by_cases hx : x = p
      · subst hx
        exact .killed rfl hsleep (makerunnable_self _ x 0).state_eq
      · have hsame := makerunnable_ne (s.setProc p { s.proc p with killed := true }) 0 hx
        exact .same (hsame.state_eq.trans (hmark x).1) (hsame.priority_eq.trans (hmark x).2)
    · exact .same (hmark x).1 (hmark x).2

theorem sleep (hp : (s.proc p).state = .RUNNING) {c : Chan}
    (hop : (∃ c, op = .sleep p c) ∨ op = .wait p) : Change s (s.sleep p c) op x := by
  by_cases hx : x = p
  · subst hx
    refine .slept hop hp ?_
    simp [PTable.sleep, raised]
  · exact .same (by simp [PTable.sleep, hx]) (by simp [PTable.sleep, hx])

theorem wait (hp : (s.proc p).state = .RUNNING) : Change s (s.wait p).1 (.wait p) x := by
  unfold PTable.wait
  split
  · rename_i z hfind
    have hz : (s.proc z).parent = some p ∧ (s.proc z).state = .ZOMBIE := by
      simpa using List.find?_some hfind
    exact setProc (by simp [hz.2]) (by simp)
  · simp only
    split_ifs
    · exact .same rfl rfl
    · exact sleep hp (.inr rfl)

theorem exit (hp : (s.proc p).state = .RUNNING) (ht : s.exit p = some t) : Change s t op x := by
  have hinit : s.initproc ≠ some p := by
    intro hinit
    simp [PTable.exit, hinit] at ht
  rw [exit_eq hinit] at ht
  obtain rfl := Option.some.inj ht
  have hwakes := Wakes.passedOn s p
  generalize passedOn s p = u at hwakes ⊢
  by_cases hx : x = p
  · subst hx
    exact .awake (by simp [hp]) (by simp)
  · have hsame : (u.setProc p { u.proc p with state := .ZOMBIE }).proc x = u.proc x :=
      PTable.setProc_ne _ _ hx
    rcases hwakes x with ⟨hstate, hprio⟩ | ⟨hs, ht, hprio⟩
    · exact .same (hsame ▸ hstate) (hsame ▸ hprio)
    · exact .woken hs (hsame ▸ ht) (hsame ▸ hprio)

theorem yield (hp : (s.proc p).state = .RUNNING) : Change s (s.yield p) op x := by
  rw [yield_eq]
  refine only (p := p) (by simp [hp]) ?_ fun y hy => ?_
  · rw [(makerunnable_self _ p 1).state_eq]
    simp
  · refine (makerunnable_ne _ 1 hy).trans ?_
    rw [PTable.setProc_ne _ _ hy]
    exact .refl _

theorem scheduler {full : Bool} (h : Inv full s) : Change s s.scheduler op x := by
  unfold PTable.scheduler
  split
  · exact .same rfl rfl
  · rename_i i hi
    have hlt : i < MLF_LEVELS := by simpa using List.mem_of_find?_eq_some hi
    split
    · exact .same rfl rfl
    · rename_i t p hdeq
      obtain ⟨q, hq, _⟩ := h
      obtain ⟨hqi, _⟩ := hq.dequeue hlt hdeq
      have hrun : (s.proc p).state = .RUNNABLE := (hq.member i hlt p (hqi ▸ List.mem_cons_self)).1
      refine only (p := p) (by simp [hrun]) (by simp) fun y hy => ?_
      rw [PTable.setProc_ne _ _ hy]
      exact dequeue_sameButNext hdeq y

end Change

theorem allocproc_cases (s : PTable) (kstack : Bool) :
    s.allocproc kstack = (s, none) ∨ ∃ p t, (s.proc p).state = .UNUSED ∧
      ((t.proc p).state = .EMBRYO ∨ (t.proc p).state = .UNUSED) ∧
      (∀ y, y ≠ p → t.proc y = s.proc y) ∧
      s.allocproc kstack = (t, if kstack then some p else none) := by
  unfold PTable.allocproc
  split
  · exact .inl rfl
  · rename_i p hfind
    have hp := find_unused hfind
    cases kstack
    · exact .inr ⟨p, _, hp, .inr (by simp), fun y hy => by simp [hy], rfl⟩
    · exact .inr ⟨p, _, hp, .inl (by simp), fun y hy => by simp [hy], rfl⟩

namespace Change

variable {s t : PTable} {op : Op} {p x : Slot}

theorem userinit (ht : s.userinit = some t) : Change s t op x := by
  unfold PTable.userinit at ht
  rcases allocproc_cases s true with hnone | ⟨p, u, hp, _, hother, hsome⟩
  · rw [hnone] at ht
    cases ht
  · rw [hsome] at ht
    obtain rfl := Option.some.inj ht
    refine only (p := p) (by simp [hp]) ?_ fun y hy => ?_
    · rw [(makerunnable_self _ p 0).state_eq]
      simp
    · have hsame := makerunnable_ne { u with initproc := some p } 0 hy
      rwa [show ({ u with initproc := some p } : PTable).proc y = s.proc y from
        hother y hy] at hsame

theorem fork (kstack copied : Bool) : Change s (s.fork p kstack copied).1 op x := by
  unfold PTable.fork
  rcases allocproc_cases s kstack with hnone | ⟨np, u, hp, hu, hother, hsome⟩
  · rw [hnone]
    exact .same rfl rfl
  · rw [hsome]
    have hset : ∀ (r : Proc) (y : Slot), y ≠ np →
        SameButNext ((u.setProc np r).proc y) (s.proc y) := by
      intro r y hy
      rw [PTable.setProc_ne _ _ hy, hother y hy]
      exact .refl _
    cases kstack
    · refine only (p := np) (by simp [hp]) ?_ fun y hy => ?_
      · rcases hu with hu | hu <;> simp [hu]
      · show SameButNext (u.proc y) (s.proc y)
        rw [hother y hy]
        exact .refl _
    · cases copied
      · exact only (p := np) (by simp [hp]) (by simp) (hset _)
      · refine only (p := np) (by simp [hp]) ?_ fun y hy => ?_
        · simp only [if_true]
          rw [(makerunnable_self _ np 0).state_eq]
          simp
        · exact (makerunnable_ne _ 0 hy).trans (hset _ y hy)

theorem of_next {full : Bool} (h : Inv full s) (ht : next s op = some t) (x : Slot) :
    Change s t op x := by
  unfold Sched.next at ht
  split_ifs at ht with hrun
  cases op with
  | userinit =>
    simp only [Op.apply, Option.ite_none_right_eq_some] at ht
    exact .userinit ht.2
  | fork p kstack copied =>
    obtain rfl := Option.some.inj ht
    exact .fork kstack copied
  | scheduler =>
    obtain rfl := Option.some.inj ht
    exact .scheduler h
  | yield p =>
    obtain rfl := Option.some.inj ht
    exact .yield (hrun p rfl)
  | sleep p chan =>
    obtain rfl := Option.some.inj ht
    exact .sleep (hrun p rfl) (.inl ⟨chan, rfl⟩)
  | wakeup chan =>
    obtain rfl := Option.some.inj ht
    exact .of_wakes (.wakeup1 s _)
  | kill pid =>
    obtain rfl := Option.some.inj ht
    exact .kill s pid
  | exit p => exact .exit (hrun p rfl) ht
  | wait p =>
    obtain rfl := Option.some.inj ht
    exact .wait (hrun p rfl)
  | setPriority p pr =>
    obtain rfl := Option.some.inj ht
    have hp := hrun p rfl
    exact .setProc (by simp [hp]) (by simp [hp])

end Change

/-! ## Whole runs -/

def NapInv (s : Naps) : Prop :=
  ∀ x, (s.table.proc x).state = .SLEEPING → (s.table.proc x).priority = raised (s.entered x)

theorem NapInv.next {s t : Naps} {op : Op} (h : NapInv s) (hinv : Inv false s.table)
    (ht : s.next op = some t) : NapInv t := by
  obtain ⟨u, hu, rfl⟩ := Option.map_eq_some_iff.1 ht
  intro x hx
  simp only at hx ⊢
  cases Change.of_next hinv hu x with
  | same hstate hprio =>
    rw [if_neg (fun hnew => hnew.1 (hstate ▸ hx)), hprio]
    exact h x (hstate ▸ hx)
  | awake _ ht => exact absurd hx ht
  | slept _ hs hprio => rw [if_pos ⟨by simp [hs], hx⟩, hprio]
  | woken _ ht | killed _ _ ht =>
    rw [hx] at ht
    cases ht

theorem napInv_of_reachable {s : Naps} (h : napMachine.Reachable s) : NapInv s := by
  refine Machine.Reach.invariant_of_reach ?_ (fun s op t hreach hs _ ht => ?_) h
  · rintro s rfl x hx
    cases hx
  · exact hs.next (Reach.inv (table_of_nap hreach)) ht

theorem yield_lowers (s : PTable) (p : Slot) :
    ((s.yield p).proc p).priority = lowered (lowered (s.proc p).priority) := by
  rw [yield_eq, (makerunnable_self _ p 1).priority_eq, PTable.setProc_same]
  exact adjustPriority_one _

/-- A `yield` lowers by at most one level exactly from the lower half, and a sleep with its wakeup
raises by at most one level exactly in the upper half. -/
theorem one_level_at_a_time {s t : Naps} {op : Op} (h : napMachine.Reachable s)
    (ht : s.next op = some t) :
    (∀ p, op = .yield p →
      ((t.table.proc p).priority - (s.table.proc p).priority ≤ 1 ↔
        2 ≤ (s.table.proc p).priority) ∧
      (InLevel (s.table.proc p).priority → InLevel (t.table.proc p).priority)) ∧
    ∀ x, (s.table.proc x).state = .SLEEPING → (t.table.proc x).state = .RUNNABLE →
      (∀ pid, op ≠ .kill pid) →
      (s.entered x - (t.table.proc x).priority ≤ 1 ↔ s.entered x ≤ 1) ∧
      (InLevel (s.entered x) → InLevel (t.table.proc x).priority) := by
  have hinv := napInv_of_reachable h
  obtain ⟨u, hu, rfl⟩ := Option.map_eq_some_iff.1 ht
  simp only
  constructor
  · rintro p rfl
    have hyield : u = s.table.yield p := by
      unfold Sched.next at hu
      split_ifs at hu
      exact (Option.some.inj hu).symm
    rw [hyield, yield_lowers]
    simp only [lowered, InLevel, MLF_LEVELS]
    constructor <;> split_ifs <;> omega
  · intro x hsleep hrun hkill
    cases Change.of_next (Reach.inv (table_of_nap h)) hu x with
    | same hstate _ =>
      rw [hrun, hsleep] at hstate
      cases hstate
    | awake hs _ => exact absurd hsleep hs
    | slept _ hs _ =>
      rw [hsleep] at hs
      cases hs
    | killed hop _ _ => exact absurd hop (hkill _)
    | woken _ _ hprio =>
      rw [hprio, hinv x hsleep]
      simp only [raised, InLevel, MLF_LEVELS]
      constructor <;> split_ifs <;> omega

/-- `init` is preempted from level 2. -/
theorem one_level_at_a_time_init : ∃ s t, napMachine.Reachable s ∧
    s.next (.yield initSlot) = some t ∧ (s.table.proc initSlot).priority = 2 ∧
    (t.table.proc initSlot).priority - (s.table.proc initSlot).priority ≤ 1 := by
  have hdec : (Machine.runList Naps.next .boot
      [.userinit, .scheduler, .yield initSlot, .scheduler]).any (fun s =>
        (s.table.proc initSlot).priority = 2 ∧ (s.next (.yield initSlot)).isSome) = true := by
    decide +kernel
  obtain ⟨s, hs, hobs⟩ := (Option.any_eq_true _ _).1 hdec
  obtain ⟨hprio, hsome⟩ := of_decide_eq_true hobs
  obtain ⟨t, ht⟩ := Option.isSome_iff_exists.1 hsome
  have hreach := Machine.reachable_of_runList _ (.init rfl) hs
  exact ⟨s, t, hreach, ht, hprio,
    ((one_level_at_a_time hreach ht).1 initSlot rfl).1.2 (by omega)⟩

/-- The first `yield` of `init` takes it from level 0 to level 2, and a sleep there, once it is
over, back to level 0. -/
theorem two_levels_at_a_time : ∃ s t u v w, napMachine.Reachable s ∧
    s.next (.yield initSlot) = some t ∧ t.next .scheduler = some u ∧
    u.next (.sleep initSlot (.addr 0)) = some v ∧ v.next (.wakeup (.addr 0)) = some w ∧
    (s.table.proc initSlot).priority = 0 ∧ (t.table.proc initSlot).priority = 2 ∧
    (w.table.proc initSlot).priority = 0 := by
  have hdec : (Machine.runList Naps.next .boot [.userinit, .scheduler]).any (fun s =>
      (s.next (.yield initSlot)).any fun t => (t.next .scheduler).any fun u =>
        (u.next (.sleep initSlot (.addr 0))).any fun v =>
          (v.next (.wakeup (.addr 0))).any fun w =>
            (s.table.proc initSlot).priority = 0 ∧ (t.table.proc initSlot).priority = 2 ∧
              (w.table.proc initSlot).priority = 0) = true := by
    decide +kernel
  obtain ⟨s, hs, hdec⟩ := (Option.any_eq_true _ _).1 hdec
  obtain ⟨t, ht, hdec⟩ := (Option.any_eq_true _ _).1 hdec
  obtain ⟨u, hu, hdec⟩ := (Option.any_eq_true _ _).1 hdec
  obtain ⟨v, hv, hdec⟩ := (Option.any_eq_true _ _).1 hdec
  obtain ⟨w, hw, hdec⟩ := (Option.any_eq_true _ _).1 hdec
  exact ⟨s, t, u, v, w, Machine.reachable_of_runList _ (.init rfl) hs, ht, hu, hv, hw,
    of_decide_eq_true hdec⟩

end Xv6.Sched
