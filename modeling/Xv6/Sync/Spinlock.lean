import Xv6.Lib.Machine

/-!
# Spinlocks

`initlock`, `acquire`, `release`, `pushcli` and `popcli` of `spinlock.c`, on any number of
processors.  The machine interleaves the processors at every access to a lock: `holding` reads
`locked` and `cpu` one after the other, `initlock` writes them so, and the two `xchg` are atomic.
-/

namespace Xv6.Spin

open Xv6.Lib

structure Spinlock where
  locked : Bool
  cpu : Option Nat

/-- Where a processor is. -/
inductive Pc
  | out
  /-- `acquire`, in `holding`: about to read `locked`. -/
  | acqLocked (l : Nat)
  | acqCpu (l : Nat)
  | spin (l : Nat)
  /-- `acquire`: about to set `lk->cpu`. -/
  | got (l : Nat)
  /-- `release`, in `holding`: about to read `locked`. -/
  | relLocked (l : Nat)
  | relCpu (l : Nat)
  | clear (l : Nat)
  /-- `release`: about to exchange `locked` with 0. -/
  | swap (l : Nat)
  | pop
  /-- `initlock`: about to set `locked` to 0. -/
  | initLocked (l : Nat)
  | initCpu (l : Nat)
  | panicked
  deriving DecidableEq

/-- A `struct cpu` with the processor's `FL_IF`.  The last field is not in the kernel: the
locks that `acquire` has returned with and `release` has not given back. -/
structure Cpu where
  ncli : Int
  intena : Bool
  flIf : Bool
  pc : Pc
  held : List Nat

inductive Call
  | initlock (l : Nat)
  | acquire (l : Nat)
  | release (l : Nat)
  | pushcli
  | popcli
  /-- The `sti` of `scheduler`. -/
  | sti
  /-- The assignment of `sched` to `cpu->intena`. -/
  | setIntena (intena : Bool)

structure State where
  lock : Nat → Spinlock
  cpus : Nat → Cpu

inductive Label
  | call (c : Nat) (a : Call)
  | step (c : Nat)

def pushcli (x : Cpu) : Cpu :=
  { x with
    flIf := false
    ncli := x.ncli + 1
    intena := if x.ncli = 0 then x.flIf else x.intena }

def popcli (x : Cpu) : Cpu :=
  if x.flIf then { x with pc := .panicked }
  else if x.ncli - 1 < 0 then { x with ncli := x.ncli - 1, pc := .panicked }
  else { x with ncli := x.ncli - 1, flIf := x.ncli - 1 = 0 && x.intena }

def call (x : Cpu) : Call → Cpu
  | .initlock l => { x with pc := .initLocked l }
  | .acquire l => { pushcli x with pc := .acqLocked l }
  | .release l => { x with pc := .relLocked l }
  | .pushcli => pushcli x
  | .popcli => popcli x
  | .sti => { x with flIf := true }
  | .setIntena intena => { x with intena := intena }

/-- The next access of processor `c` inside of `initlock`, `acquire` or `release`. -/
def advance (lock : Nat → Spinlock) (c : Nat) (x : Cpu) : (Nat → Spinlock) × Cpu :=
  match x.pc with
  | .out | .panicked => (lock, x)
  | .acqLocked l => (lock, { x with pc := if (lock l).locked then .acqCpu l else .spin l })
  | .acqCpu l => (lock, { x with pc := if (lock l).cpu = some c then .panicked else .spin l })
  | .spin l =>
    (Function.update lock l { lock l with locked := true },
      if (lock l).locked then x else { x with pc := .got l })
  | .got l =>
    (Function.update lock l { lock l with cpu := some c },
      { x with pc := .out, held := l :: x.held })
  | .relLocked l => (lock, { x with pc := if (lock l).locked then .relCpu l else .panicked })
  | .relCpu l => (lock, { x with pc := if (lock l).cpu = some c then .clear l else .panicked })
  | .clear l => (Function.update lock l { lock l with cpu := none }, { x with pc := .swap l })
  | .swap l =>
    (Function.update lock l { lock l with locked := false },
      { x with pc := .pop, held := x.held.erase l })
  | .pop => (lock, popcli { x with pc := .out })
  | .initLocked l =>
    (Function.update lock l { lock l with locked := false }, { x with pc := .initCpu l })
  | .initCpu l => (Function.update lock l { lock l with cpu := none }, { x with pc := .out })

def next (s : State) : Label → Option State
  | .call c a =>
    if (s.cpus c).pc = .out then
      some { s with cpus := Function.update s.cpus c (call (s.cpus c) a) }
    else none
  | .step c =>
    let r := advance s.lock c (s.cpus c)
    some ⟨r.1, Function.update s.cpus c r.2⟩

/-- `initlock` of every lock, and processors that come up with interrupts off. -/
def boot : State where
  lock _ := ⟨false, none⟩
  cpus _ := ⟨0, false, false, .out, []⟩

def machine : Machine State Label := .ofFun boot next

/-- The lock that `initlock` is about to write to. -/
def Pc.inits : Pc → Option Nat
  | .initLocked l | .initCpu l => some l
  | _ => none

/-- The rule for `initlock`: it writes to a lock only while the word of the lock is clear.  The
first `semget` runs it on the lock of the table without looking. -/
def InitFree (s : State) : Label → Prop
  | .call _ _ => True
  | .step c => ∀ l ∈ (s.cpus c).pc.inits, (s.lock l).locked = false

instance (s : State) : DecidablePred (InitFree s)
  | .call _ _ => instDecidableTrue
  | .step c => inferInstanceAs (Decidable (∀ l ∈ (s.cpus c).pc.inits, (s.lock l).locked = false))

/-! ## Who owns a lock -/

/-- The processor has won the `xchg` of `acquire` and not made that of `release`. -/
@[grind =] def Cpu.Owns (x : Cpu) (l : Nat) : Prop := l ∈ x.held ∨ x.pc = .got l

/-- The processor is the one that `lk->cpu` names. -/
@[grind =] def Cpu.Named (x : Cpu) (l : Nat) : Prop := l ∈ x.held ∧ x.pc ≠ .swap l

/-- What a processor knows of its own locks at a point of control. -/
@[grind =] def Cpu.Knows (x : Cpu) : Prop :=
  match x.pc with
  | .spin l | .got l => l ∉ x.held
  | .clear l | .swap l => l ∈ x.held
  | _ => True

/-- The state stands for locks with these owners. -/
structure Rep (owner : Nat → Option Nat) (s : State) : Prop where
  owns : ∀ l c, (s.cpus c).Owns l ↔ owner l = some c
  locked : ∀ l, (s.lock l).locked = (owner l).isSome
  cpu : ∀ l c, (s.lock l).cpu = some c ↔ (s.cpus c).Named l
  knows : ∀ c, (s.cpus c).Knows ∧ (s.cpus c).held.Nodup

/-- Locks as the rest of the kernel sees them: processor `c` takes lock `l` while nobody has
it, or gives it back. -/
def lockMachine : Machine (Nat → Option Nat) (Nat × Nat) where
  init owner := owner = fun _ => none
  step owner e owner' :=
    (owner e.2 = none ∧ owner' = Function.update owner e.2 (some e.1)) ∨
      (owner e.2 = some e.1 ∧ owner' = Function.update owner e.2 none)

variable {owner owner' : Nat → Option Nat} {s : State} {c : Nat}

theorem Rep.owner_of_cpu (h : Rep owner s) {l : Nat} (hc : (s.lock l).cpu = some c) :
    owner l = some c :=
  (h.owns l c).1 (.inl ((h.cpu l c).1 hc).1)

theorem rep_boot : Rep (fun _ => none) boot where
  owns := by simp [boot, Cpu.Owns]
  locked := by simp [boot]
  cpu := by simp [boot, Cpu.Named]
  knows := by simp [boot, Cpu.Knows]

/-- A step of processor `c`, given by what is so for itself and what stays so for others. -/
theorem Rep.edit (h : Rep owner s) {lock : Nat → Spinlock} {x : Cpu}
    (howns : ∀ l, x.Owns l ↔ owner' l = some c) (hcpu : ∀ l, (lock l).cpu = some c ↔ x.Named l)
    (hothers : ∀ l, ∀ d ≠ c, (owner l = some d ↔ owner' l = some d) ∧
      ((s.lock l).cpu = some d ↔ (lock l).cpu = some d))
    (hlocked : ∀ l, (lock l).locked = (owner' l).isSome) (hknows : x.Knows ∧ x.held.Nodup) :
    Rep owner' ⟨lock, Function.update s.cpus c x⟩ := by
  refine ⟨fun l d => ?_, hlocked, fun l d => ?_, fun d => ?_⟩ <;> by_cases hd : d = c
  · simpa [hd] using howns l
  · simpa [hd, h.owns] using (hothers l d hd).1
  · simpa [hd] using hcpu l
  · simpa [hd, ← h.cpu] using (hothers l d hd).2.symm
  · simpa [hd] using hknows
  · simpa [hd] using h.knows d

theorem Rep.call (h : Rep owner s) (hpc : (s.cpus c).pc = .out) (a : Call) :
    Rep owner { s with cpus := Function.update s.cpus c (call (s.cpus c) a) } := by
  have howns := fun l => h.owns l c
  have hcpu := fun l => h.cpu l c
  have hnodup := (h.knows c).2
  unfold Cpu.Owns at howns
  unfold Cpu.Named at hcpu
  cases a <;> refine h.edit ?_ ?_ (fun _ _ _ => ⟨.rfl, .rfl⟩) h.locked ?_ <;>
    grind [Spin.call, pushcli, popcli]

theorem Rep.advance (h : Rep owner s) (c : Nat) (hok : InitFree s (.step c)) :
    ∃ owner', (owner' = owner ∨ ∃ e, lockMachine.step owner e owner') ∧
      Rep owner' ⟨(advance s.lock c (s.cpus c)).1,
        Function.update s.cpus c (advance s.lock c (s.cpus c)).2⟩ := by
  have hknows := h.knows c
  have howns := fun l => h.owns l c
  have hcpu := fun l => h.cpu l c
  have hlocked := h.locked
  unfold Spin.advance
  unfold Cpu.Knows at hknows
  unfold Cpu.Owns at howns
  unfold Cpu.Named at hcpu
  -- Only the two `xchg`, at `spin` and `swap`, change who owns a lock.
  cases hpc : (s.cpus c).pc with
  | out | panicked => exact ⟨owner, .inl rfl, by simpa using h⟩
  | pop =>
    refine ⟨owner, .inl rfl, h.edit ?_ ?_ (fun _ _ _ => ⟨.rfl, .rfl⟩) hlocked ?_⟩ <;>
      grind [popcli]
  | relLocked l | relCpu l | acqLocked l | acqCpu l =>
    refine ⟨owner, .inl rfl, h.edit ?_ ?_ (fun _ _ _ => ⟨.rfl, .rfl⟩) hlocked ?_⟩ <;> grind
  | spin l =>
    cases hl : (s.lock l).locked with
    | true => refine ⟨owner, .inl rfl, h.edit ?_ ?_ ?_ ?_ ?_⟩ <;> grind
    | false =>
      have hfree : owner l = none := by simpa [hl] using (hlocked l).symm
      refine ⟨Function.update owner l (some c), .inr ⟨(c, l), .inl ⟨hfree, rfl⟩⟩,
        h.edit ?_ ?_ ?_ ?_ ?_⟩ <;> grind
  | got l =>
    have hnamed := fun d => h.owner_of_cpu (l := l) (c := d)
    refine ⟨owner, .inl rfl, h.edit ?_ ?_ ?_ ?_ ?_⟩ <;> grind
  | clear l => refine ⟨owner, .inl rfl, h.edit ?_ ?_ ?_ ?_ ?_⟩ <;> grind
  | initLocked l =>
    have hfree := hok l (by simp [hpc, Pc.inits])
    refine ⟨owner, .inl rfl, h.edit ?_ ?_ ?_ ?_ ?_⟩ <;> grind
  | initCpu l =>
    -- Nobody owns the lock, so `lk->cpu` is zero already.
    have hfree := hok l (by simp [hpc, Pc.inits])
    have hnamed := fun d => h.owner_of_cpu (l := l) (c := d)
    refine ⟨owner, .inl rfl, h.edit ?_ ?_ ?_ ?_ ?_⟩ <;> grind
  | swap l =>
    refine ⟨Function.update owner l none, .inr ⟨(c, l), .inr ⟨?_, rfl⟩⟩,
      h.edit ?_ ?_ ?_ ?_ ?_⟩ <;> grind

theorem exists_rep (h : machine.Reach InitFree s) :
    ∃ owner, lockMachine.Reachable owner ∧ Rep owner s := by
  induction h with
  | init h =>
    subst h
    exact ⟨_, .init rfl, rep_boot⟩
  | @step s t e _ hok ht ih =>
    obtain ⟨owner, hreach, hrep⟩ := ih
    cases e with
    | call c a =>
      obtain ⟨hpc, ht⟩ := Option.ite_none_right_eq_some.1 ht
      cases ht
      exact ⟨owner, hreach, hrep.call hpc a⟩
    | step c =>
      cases ht
      obtain ⟨owner', heq | ⟨e, he⟩, hrep'⟩ := hrep.advance c hok
      · exact ⟨owner', heq ▸ hreach, hrep'⟩
      · exact ⟨owner', .step hreach trivial he, hrep'⟩

/-- However the processors interleave and whatever they call, if `initlock` runs on free locks
only then the locks are locks: a processor is between the `xchg` of `acquire` and that of
`release` exactly if it is the one owner, the word is set exactly while there is an owner, and
`lk->cpu` names nobody else. -/
theorem mutual_exclusion (h : machine.Reach InitFree s) :
    ∃ owner, lockMachine.Reachable owner ∧ (∀ l c, (s.cpus c).Owns l ↔ owner l = some c) ∧
      (∀ l, (s.lock l).locked = (owner l).isSome) ∧
      ∀ l c, (s.lock l).cpu = some c → owner l = some c := by
  obtain ⟨owner, hreach, hrep⟩ := exists_rep h
  exact ⟨owner, hreach, hrep.owns, hrep.locked, fun l c => hrep.owner_of_cpu⟩

/-- After an `initlock` of a free lock, processor 1 spins for it while processor 0 has it. -/
theorem mutual_exclusion_two : ∃ s, machine.Reach InitFree s ∧ (s.cpus 0).held = [7] ∧
    (s.cpus 1).pc = .spin 7 ∧ ∃ owner, lockMachine.Reachable owner ∧ owner 7 = some 0 := by
  obtain ⟨s, hs⟩ : ∃ s, Machine.runList (fun s e => if InitFree s e then next s e else none) boot
      [.call 0 (.initlock 7), .step 0, .step 0, .call 0 (.acquire 7), .call 1 (.acquire 7),
      .step 1, .step 0, .step 0, .step 1, .step 0, .step 1] = some s := ⟨_, rfl⟩
  have hreach := Machine.reach_of_runList _ (.init rfl) hs
  obtain ⟨owner, howner, howns, _⟩ := mutual_exclusion hreach
  cases hs
  exact ⟨_, hreach, rfl, rfl, owner, howner, (howns 7 0).1 (.inl (List.mem_singleton_self 7))⟩

/-- An `initlock` of a held lock, as by a late first `semget`, gives it a second owner. -/
theorem initlock_two_owners : ∃ s, machine.Reachable s ∧ (s.cpus 0).Owns 7 ∧ (s.cpus 1).Owns 7 := by
  obtain ⟨s, hs⟩ : ∃ s, Machine.runList next boot [.call 0 (.acquire 7), .step 0, .step 0, .step 0,
      .call 1 (.initlock 7), .step 1, .step 1, .call 1 (.acquire 7), .step 1, .step 1,
      .step 1] = some s := ⟨_, rfl⟩
  have hreach : machine.Reachable s := Machine.reachable_of_runList _ (.init rfl) hs
  cases hs
  exact ⟨_, hreach, .inl (List.mem_singleton_self 7), .inl (List.mem_singleton_self 7)⟩

/-! ## Callers that keep to the rules -/

/-- No lock is acquired twice or released by others, `popcli` undoes a `pushcli` of its own,
`scheduler` turns interrupts on outside of them, and `initlock` is for free locks. -/
def Disciplined (s : State) : Label → Prop
  | .call c (.acquire l) => l ∉ (s.cpus c).held
  | .call c (.release l) => l ∈ (s.cpus c).held
  | .call c .popcli => ((s.cpus c).held.length : Int) < (s.cpus c).ncli
  | .call c .sti => (s.cpus c).ncli = 0
  | .step c => InitFree s (.step c)
  | _ => True

theorem Disciplined.initFree {e : Label} (h : Disciplined s e) : InitFree s e := by
  cases e with
  | call => trivial
  | step => exact h

/-- The calls of `pushcli` that are neither undone nor for a lock in `held`. -/
def Pc.pending : Pc → Nat
  | .acqLocked _ | .acqCpu _ | .spin _ | .got _ | .pop => 1
  | _ => 0

def Pc.Meets (held : List Nat) : Pc → Prop
  | .acqLocked l | .acqCpu l => l ∉ held
  | .relLocked l | .relCpu l => l ∈ held
  | .panicked => False
  | _ => True

structure Cpu.Calm (x : Cpu) : Prop where
  count : (x.held.length : Int) + x.pc.pending ≤ x.ncli
  off : x.flIf = true → x.ncli = 0
  meets : x.pc.Meets x.held

theorem Cpu.Calm.popcli {x : Cpu} (h : x.Calm) (hpc : x.pc = .out)
    (hlt : (x.held.length : Int) < x.ncli) : (popcli x).Calm := by
  have hoff := h.off
  unfold Spin.popcli
  rw [if_neg (by grind), if_neg (by omega)]
  exact ⟨by simp [hpc, Pc.pending]; omega, by simp; omega, by simp [hpc, Pc.Meets]⟩

theorem Cpu.Calm.call {a : Call} (h : (s.cpus c).Calm) (hpc : (s.cpus c).pc = .out)
    (hok : Disciplined s (.call c a)) : (call (s.cpus c) a).Calm := by
  have hcount := h.count
  simp only [hpc, Pc.pending] at hcount
  cases a with
  | popcli => exact h.popcli hpc hok
  | pushcli =>
    refine ⟨?_, by simp [Spin.call, pushcli], by simp [Spin.call, pushcli, hpc, Pc.Meets]⟩
    simp only [Spin.call, pushcli, hpc, Pc.pending]
    omega
  | acquire l =>
    refine ⟨?_, by simp [Spin.call, pushcli], hok⟩
    simp only [Spin.call, pushcli, Pc.pending]
    omega
  | release l => exact ⟨hcount, h.off, hok⟩
  | initlock l => exact ⟨hcount, h.off, trivial⟩
  | sti => exact ⟨h.count, fun _ => hok, h.meets⟩
  | setIntena b => exact ⟨h.count, h.off, h.meets⟩

theorem Cpu.Calm.advance (hrep : Rep owner s) (h : (s.cpus c).Calm) :
    (advance s.lock c (s.cpus c)).2.Calm := by
  have hcount := h.count
  have hoff := h.off
  have hmeets := h.meets
  have hknows := (hrep.knows c).1
  unfold Spin.advance
  unfold Cpu.Knows at hknows
  cases hpc : (s.cpus c).pc with rw [hpc] at hcount hmeets hknows
  | out | panicked => exact h
  | acqLocked l =>
    dsimp only
    split
    · exact ⟨hcount, hoff, hmeets⟩
    · exact ⟨hcount, hoff, trivial⟩
  | acqCpu l =>
    have hother : (s.lock l).cpu ≠ some c := fun h => hmeets ((hrep.cpu l c).1 h).1
    simpa only [if_neg hother] using ⟨hcount, hoff, trivial⟩
  | spin l =>
    dsimp only
    split
    · exact h
    · exact ⟨hcount, hoff, trivial⟩
  | got l =>
    refine ⟨?_, hoff, trivial⟩
    simpa [Pc.pending] using hcount
  | clear l | initLocked l | initCpu l => exact ⟨hcount, hoff, trivial⟩
  | relLocked l =>
    have hlocked : (s.lock l).locked = true := by
      rw [hrep.locked, (hrep.owns l c).1 (.inl hmeets)]
      rfl
    simpa only [if_pos hlocked] using ⟨hcount, hoff, hmeets⟩
  | relCpu l =>
    have hself : (s.lock l).cpu = some c := (hrep.cpu l c).2 ⟨hmeets, by simp [hpc]⟩
    simpa only [if_pos hself] using ⟨hcount, hoff, trivial⟩
  | swap l =>
    have hlen := List.length_erase_add_one hknows
    refine ⟨?_, hoff, trivial⟩
    simp only [Pc.pending] at hcount ⊢
    omega
  | pop =>
    simp only [Pc.pending] at hcount
    refine Cpu.Calm.popcli ⟨?_, hoff, trivial⟩ rfl ?_ <;> simp only [Pc.pending] <;> omega

theorem calm_of_reach (h : machine.Reach Disciplined s) (c : Nat) : (s.cpus c).Calm := by
  induction h with
  | init h =>
    subst h
    exact ⟨by simp [boot, Pc.pending], by simp [boot], trivial⟩
  | @step s t e hs hok ht ih =>
    cases e with
    | call d a =>
      obtain ⟨hpc, ht⟩ := Option.ite_none_right_eq_some.1 ht
      cases ht
      by_cases hc : c = d
      · subst hc
        simpa using ih.call hpc hok
      · simpa [hc] using ih
    | step d =>
      cases ht
      by_cases hc : c = d
      · subst hc
        obtain ⟨owner, _, hrep⟩ := exists_rep (hs.mono fun _ _ => Disciplined.initFree)
        simpa using ih.advance hrep
      · simpa [hc] using ih

/-- Outside of this code, or in `initlock`, which leaves interrupts alone. -/
def Pc.Interruptible : Pc → Prop
  | .out | .initLocked _ | .initCpu _ => True
  | _ => False

/-- Under the rules no processor panics, and interrupts are on only where a processor is
outside of `acquire` and `release` and owns no lock. -/
theorem never_panics (h : machine.Reach Disciplined s) (c : Nat) :
    (s.cpus c).pc ≠ .panicked ∧
      ((s.cpus c).flIf = true → (s.cpus c).pc.Interruptible ∧ ∀ l, ¬ (s.cpus c).Owns l) := by
  obtain ⟨hcount, hoff, hmeets⟩ := calm_of_reach h c
  obtain ⟨owner, _, hrep⟩ := exists_rep (h.mono fun _ _ => Disciplined.initFree)
  have hknows := (hrep.knows c).1
  refine ⟨by grind [Pc.Meets], fun hon => ?_⟩
  have hnone : (s.cpus c).held = [] := by
    have hzero := hoff hon
    exact List.eq_nil_of_length_eq_zero (by omega)
  have hpc : (s.cpus c).pc.Interruptible := by
    rw [hnone] at hmeets hcount
    unfold Cpu.Knows at hknows
    rw [hnone] at hknows
    cases hpc : (s.cpus c).pc <;> simp_all [Pc.pending, Pc.Meets, Pc.Interruptible]
  refine ⟨hpc, fun l => ?_⟩
  rintro (hheld | hgot)
  · simp [hnone] at hheld
  · rw [hgot] at hpc
    exact hpc

instance (s : State) : DecidablePred (Disciplined s)
  | .call c a => by
    cases a <;> unfold Disciplined <;> infer_instance
  | .step c => inferInstanceAs (Decidable (InitFree s (.step c)))

/-- Two processors with interrupts on acquire one lock, the second after the first has released
it; then the first has interrupts on again while the second owns the lock. -/
theorem never_panics_two : ∃ s, machine.Reach Disciplined s ∧ (s.cpus 0).flIf = true ∧
    (∀ l, ¬ (s.cpus 0).Owns l) ∧ (s.cpus 1).held = [7] ∧ (s.cpus 1).flIf = false ∧
    (s.cpus 1).pc ≠ .panicked := by
  obtain ⟨s, hs⟩ : ∃ s, Machine.runList
      (fun s e => if Disciplined s e then next s e else none) boot
      ([.call 0 .sti, .call 1 .sti, .call 0 (.acquire 7), .step 0, .step 0, .step 0,
        .call 1 (.acquire 7), .step 1, .step 1, .step 1, .call 0 (.release 7), .step 0, .step 0,
        .step 0, .step 0, .step 0, .step 1, .step 1]) = some s := ⟨_, rfl⟩
  have hreach := Machine.reach_of_runList _ (.init rfl) hs
  have hone := never_panics hreach 1
  have hzero := never_panics hreach 0
  cases hs
  exact ⟨_, hreach, rfl, (hzero.2 rfl).2, rfl, rfl, hone.1⟩

end Xv6.Spin
