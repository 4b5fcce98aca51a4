import Xv6.Sched.Runs

/-!
# Spinlock, `sleep` and `wakeup` over the process table

Kernel code that waits follows one pattern: take a spinlock, look at the data
it protects, `sleep(chan, lk)` in a loop while the data is not ready, change the
data, `wakeup(chan)` the others, release.  This module embeds that pattern once.
A `Client` supplies the code between the calls; the machine interleaves the
processes at every lock operation, with `sleep` handing over from the client's
lock to `ptable.lock`, and with every operation of the process table as a step
of its own.
-/

namespace Xv6.Sync

open Xv6.Lib Xv6.Sched

inductive Next (σ K : Type)
  | goto (d : σ) (k : K)
  | sleep (d : σ) (chan : Chan) (k : K)
  | wakeup (d : σ) (chan : Chan) (k : K)
  | release (d : σ) (rv : Int)
  /-- A return that leaves the lock held. -/
  | ret (d : σ) (rv : Int)

inductive Entry (σ K : Type)
  | acquire (d : σ) (k : K)
  | initlock (d : σ) (k : K)
  | ret (d : σ) (rv : Int)

/-- Code over the data `σ` that one spinlock protects.  `K` are its points of
control and `A` the calls that processes make. -/
structure Client (σ K A : Type) where
  enter : A → Slot → σ → Entry σ K
  body : K → Slot → σ → Next σ K
  /-- The channels that the code sleeps on. -/
  own : Chan → Bool
  /-- The caller of `exit` has given back its part of the data, as `exit` does
  through calls of its own before it takes `ptable.lock`. -/
  mayExit : σ → Slot → Bool
  /-- What `exit` itself resets in the caller's part of the data. -/
  onExit : Slot → σ → σ

variable {σ K A : Type}

inductive Pc (K : Type)
  | idle
  | acq (k : K)
  | crit (k : K)
  /-- `sleep`: about to acquire `ptable.lock`. -/
  | sleepAcq (chan : Chan) (k : K)
  /-- `sleep`: about to release the lock. -/
  | sleepRel (chan : Chan) (k : K)
  /-- `sleep`: about to set `chan` and `state` and to call `sched`. -/
  | sleepSet (chan : Chan) (k : K)
  | asleep (chan : Chan) (k : K)
  /-- `sleep`: dispatched again, about to release `ptable.lock`. -/
  | resume (k : K)
  /-- `wakeup`: about to acquire `ptable.lock`. -/
  | wakeAcq (chan : Chan) (k : K)
  | wakeRun (chan : Chan) (k : K)
  /-- `wakeup`: about to release `ptable.lock`. -/
  | wakeRel (k : K)
  deriving DecidableEq

def Pc.isIdle : Pc K → Bool
  | .idle => true
  | _ => false

def Pc.isAcq : Pc K → Bool
  | .acq _ => true
  | _ => false

structure State (σ K : Type) where
  pt : PTable
  ptLock : Option Slot
  lock : Option Slot
  pc : Slot → Pc K
  data : σ

inductive Label (A : Type)
  | call (p : Slot) (a : A)
  | step (p : Slot)
  | table (op : Op)

namespace State

@[simps -fullyApplied pt ptLock lock data]
def setPc (s : State σ K) (p : Slot) (c : Pc K) : State σ K :=
  { s with pc := Function.update s.pc p c }

@[simp] theorem setPc_self (s : State σ K) (p : Slot) (c : Pc K) : (s.setPc p c).pc p = c := by
  simp [setPc]

@[simp] theorem setPc_ne (s : State σ K) {p x : Slot} (c : Pc K) (h : x ≠ p) :
    (s.setPc p c).pc x = s.pc x := by
  simp [setPc, h]

end State

namespace Client

variable (c : Client σ K A)

/-- The stretch of code at `k`, run by `p` with the lock held. -/
def run (s : State σ K) (p : Slot) (k : K) : Option (State σ K) :=
  match c.body k p s.data with
  | .goto d k => some ({ s with data := d }.setPc p (.crit k))
  | .sleep d chan k => some ({ s with data := d }.setPc p (.sleepAcq chan k))
  | .wakeup d chan k => some ({ s with data := d }.setPc p (.wakeAcq chan k))
  | .release d _ =>
    -- `release` panics when the lock is not held
    if s.lock = some p then some ({ s with data := d, lock := none }.setPc p .idle) else none
  | .ret d _ => some ({ s with data := d }.setPc p .idle)

def advance (s : State σ K) (p : Slot) : Option (State σ K) :=
  match s.pc p with
  | .idle | .asleep _ _ => none
  | .acq k => if s.lock = none then some ({ s with lock := some p }.setPc p (.crit k)) else none
  | .crit k => c.run s p k
  | .sleepAcq chan k =>
    if s.ptLock = none then some ({ s with ptLock := some p }.setPc p (.sleepRel chan k))
    else none
  | .sleepRel chan k =>
    if s.lock = some p then some ({ s with lock := none }.setPc p (.sleepSet chan k)) else none
  | .sleepSet chan k =>
    -- `sched` switches to the scheduler, which releases `ptable.lock`
    some ({ s with pt := s.pt.sleep p chan, ptLock := none }.setPc p (.asleep chan k))
  | .resume k =>
    if s.ptLock = some p then some ({ s with ptLock := none }.setPc p (.acq k)) else none
  | .wakeAcq chan k =>
    if s.ptLock = none then some ({ s with ptLock := some p }.setPc p (.wakeRun chan k))
    else none
  | .wakeRun chan k => some ({ s with pt := s.pt.wakeup1 (some chan) }.setPc p (.wakeRel k))
  | .wakeRel k =>
    if s.ptLock = some p then some ({ s with ptLock := none }.setPc p (.crit k)) else none

def start (s : State σ K) (p : Slot) (a : A) : Option (State σ K) :=
  match s.pc p with
  | .idle =>
    match c.enter a p s.data with
    | .acquire d k => some ({ s with data := d }.setPc p (.acq k))
    | .initlock d k => some ({ s with data := d, lock := none }.setPc p (.acq k))
    | .ret d _ => some { s with data := d }
  | _ => none

/-- The table operations that other kernel code makes while the client's code
is where it is.  A process can be preempted before it has acquired the lock. -/
def allowed (s : State σ K) : Op → Bool
  | .yield p => (s.pc p).isIdle || (s.pc p).isAcq
  | .sleep p chan => (s.pc p).isIdle && !c.own chan
  | .exit p => (s.pc p).isIdle && c.mayExit s.data p
  | .fork p _ _ | .wait p | .setPriority p _ => (s.pc p).isIdle
  | .userinit | .scheduler | .wakeup _ | .kill _ => true

/-- The process dispatched by `scheduler` resumes with `ptable.lock` held when it
had been switched out inside `sleep`. -/
def resumed (s : State σ K) : State σ K :=
  match s.pt.dispatched with
  | none => s
  | some p =>
    match s.pc p with
    | .asleep _ k => { s with ptLock := some p }.setPc p (.resume k)
    | _ => s

def tableStep (s : State σ K) (op : Op) : Option (State σ K) :=
  if s.ptLock = none then
    (Sched.next s.pt op).map fun pt =>
      match op with
      | .scheduler => { resumed s with pt := pt }
      | .exit p => { s with pt := pt, data := c.onExit p s.data }
      | _ => { s with pt := pt }
  else none

def next (s : State σ K) : Label A → Option (State σ K)
  | .call p a => if (s.pt.proc p).state = .RUNNING then c.start s p a else none
  | .step p => if (s.pt.proc p).state = .RUNNING then c.advance s p else none
  | .table op => if c.allowed s op then c.tableStep s op else none

def boot (d : σ) : State σ K :=
  { pt := .boot, ptLock := none, lock := none, pc := fun _ => .idle, data := d }

/-- The client's code, any number of processes and the process table. -/
def machine (d : σ) : Machine (State σ K) (Label A) := .ofFun (boot d) c.next

end Client

/-! ## What a step can do -/

namespace Client

variable (c : Client σ K A)

inductive Move (s : State σ K) (p : Slot) : State σ K → Prop
  | acquire {k : K} (hpc : s.pc p = .acq k) (hl : s.lock = none) :
      Move s p ({ s with lock := some p }.setPc p (.crit k))
  | goto {k k' : K} {d : σ} (hpc : s.pc p = .crit k) (hb : c.body k p s.data = .goto d k') :
      Move s p ({ s with data := d }.setPc p (.crit k'))
  | sleep {k k' : K} {d : σ} {ch : Chan} (hpc : s.pc p = .crit k)
      (hb : c.body k p s.data = .sleep d ch k') :
      Move s p ({ s with data := d }.setPc p (.sleepAcq ch k'))
  | wakeup {k k' : K} {d : σ} {ch : Chan} (hpc : s.pc p = .crit k)
      (hb : c.body k p s.data = .wakeup d ch k') :
      Move s p ({ s with data := d }.setPc p (.wakeAcq ch k'))
  | release {k : K} {d : σ} {rv : Int} (hpc : s.pc p = .crit k)
      (hb : c.body k p s.data = .release d rv) (hl : s.lock = some p) :
      Move s p ({ s with data := d, lock := none }.setPc p .idle)
  | ret {k : K} {d : σ} {rv : Int} (hpc : s.pc p = .crit k)
      (hb : c.body k p s.data = .ret d rv) : Move s p ({ s with data := d }.setPc p .idle)
  | sleepAcq {k : K} {ch : Chan} (hpc : s.pc p = .sleepAcq ch k) (hl : s.ptLock = none) :
      Move s p ({ s with ptLock := some p }.setPc p (.sleepRel ch k))
  | sleepRel {k : K} {ch : Chan} (hpc : s.pc p = .sleepRel ch k) (hl : s.lock = some p) :
      Move s p ({ s with lock := none }.setPc p (.sleepSet ch k))
  | sleepSet {k : K} {ch : Chan} (hpc : s.pc p = .sleepSet ch k) :
      Move s p ({ s with pt := s.pt.sleep p ch, ptLock := none }.setPc p (.asleep ch k))
  | resume {k : K} (hpc : s.pc p = .resume k) (hl : s.ptLock = some p) :
      Move s p ({ s with ptLock := none }.setPc p (.acq k))
  | wakeAcq {k : K} {ch : Chan} (hpc : s.pc p = .wakeAcq ch k) (hl : s.ptLock = none) :
      Move s p ({ s with ptLock := some p }.setPc p (.wakeRun ch k))
  | wakeRun {k : K} {ch : Chan} (hpc : s.pc p = .wakeRun ch k) :
      Move s p ({ s with pt := s.pt.wakeup1 (some ch) }.setPc p (.wakeRel k))
  | wakeRel {k : K} (hpc : s.pc p = .wakeRel k) (hl : s.ptLock = some p) :
      Move s p ({ s with ptLock := none }.setPc p (.crit k))

variable {c} {s t : State σ K}

theorem Move.of_run {p : Slot} {k : K} (hpc : s.pc p = .crit k) (h : c.run s p k = some t) :
    c.Move s p t := by
  unfold Client.run at h
  split at h
  case h_1 hb => exact Option.some.inj h ▸ .goto hpc hb
  case h_2 hb => exact Option.some.inj h ▸ .sleep hpc hb
  case h_3 hb => exact Option.some.inj h ▸ .wakeup hpc hb
  case h_4 hb =>
    split_ifs at h with hl
    exact Option.some.inj h ▸ .release hpc hb hl
  case h_5 hb => exact Option.some.inj h ▸ .ret hpc hb

theorem Move.of_advance {p : Slot} (h : c.advance s p = some t) : c.Move s p t := by
  unfold Client.advance at h
  cases hpc : s.pc p <;> simp only [hpc, reduceCtorEq] at h
  case crit k => exact .of_run hpc h
  case sleepSet ch k => exact Option.some.inj h ▸ .sleepSet hpc
  case wakeRun ch k => exact Option.some.inj h ▸ .wakeRun hpc
  all_goals obtain ⟨hl, h⟩ := Option.ite_none_right_eq_some.1 h
  case acq k => exact Option.some.inj h ▸ .acquire hpc hl
  case sleepAcq ch k => exact Option.some.inj h ▸ .sleepAcq hpc hl
  case sleepRel ch k => exact Option.some.inj h ▸ .sleepRel hpc hl
  case resume k => exact Option.some.inj h ▸ .resume hpc hl
  case wakeAcq ch k => exact Option.some.inj h ▸ .wakeAcq hpc hl
  case wakeRel k => exact Option.some.inj h ▸ .wakeRel hpc hl

variable (c) in
/-- A step of the table leaves the data and both locks alone, except for `exit`
and that a dispatched sleeper comes back with `ptable.lock` held. -/
inductive TableMove (s : State σ K) (op : Op) (pt : PTable) : State σ K → Prop
  | plain (hop : ∀ p, op ≠ .exit p) : TableMove s op pt { s with pt := pt }
  | exit {p : Slot} (hop : op = .exit p) :
      TableMove s op pt { s with pt := pt, data := c.onExit p s.data }
  | resume {p : Slot} {ch : Chan} {k : K} (hop : op = .scheduler) (hpc : s.pc p = .asleep ch k)
      (hd : s.pt.dispatched = some p) :
      TableMove s op pt ({ s with pt := pt, ptLock := some p }.setPc p (.resume k))

theorem TableMove.of_tableStep {op : Op} (h : c.tableStep s op = some t) :
    s.ptLock = none ∧ ∃ pt, Sched.next s.pt op = some pt ∧ c.TableMove s op pt t := by
  unfold tableStep at h
  split_ifs at h with hl
  refine ⟨hl, ?_⟩
  obtain ⟨pt, hpt, rfl⟩ := Option.map_eq_some_iff.1 h
  refine ⟨pt, hpt, ?_⟩
  split
  · unfold resumed
    split
    · exact .plain (by simp)
    · split
      · rename_i p hd _ ch k hpc
        exact .resume rfl hpc hd
      · exact .plain (by simp)
  · exact .exit rfl
  · rename_i hop
    exact .plain hop

end Client

/-! ## The locks exclude each other -/

/-- The points of control at which a process holds the client's lock. -/
def Pc.holdsLock : Pc K → Bool
  | .crit _ | .sleepAcq _ _ | .sleepRel _ _ | .wakeAcq _ _ | .wakeRun _ _ | .wakeRel _ => true
  | _ => false

/-- The points of control at which a process holds `ptable.lock`. -/
def Pc.holdsPtLock : Pc K → Bool
  | .sleepRel _ _ | .sleepSet _ _ | .resume _ | .wakeRun _ _ | .wakeRel _ => true
  | _ => false

structure Locked (s : State σ K) : Prop where
  lock : ∀ p, (s.pc p).holdsLock = true → s.lock = some p
  ptLock : ∀ p, (s.pc p).holdsPtLock = true → s.ptLock = some p

namespace Locked

variable {s t : State σ K}

theorem eq_of_holdsLock (h : Locked s) {p q : Slot} (hp : (s.pc p).holdsLock = true)
    (hq : (s.pc q).holdsLock = true) : q = p := by
  have hpq := (h.lock p hp).symm.trans (h.lock q hq)
  exact (Option.some.inj hpq).symm

theorem eq_of_holdsPtLock (h : Locked s) {p q : Slot} (hp : (s.pc p).holdsPtLock = true)
    (hq : (s.pc q).holdsPtLock = true) : q = p := by
  have hpq := (h.ptLock p hp).symm.trans (h.ptLock q hq)
  exact (Option.some.inj hpq).symm

/-- A move of `p` keeps the locks exclusive when it changes a lock only from
free or from being its own. -/
theorem move (h : Locked s) {p : Slot} {pc : Pc K} (hpc : t.pc = Function.update s.pc p pc)
    (hlock : t.lock = s.lock ∨ s.lock = none ∨ s.lock = some p)
    (hpt : t.ptLock = s.ptLock ∨ s.ptLock = none ∨ s.ptLock = some p)
    (hself : pc.holdsLock = true → t.lock = some p)
    (hselfPt : pc.holdsPtLock = true → t.ptLock = some p) : Locked t := by
  refine ⟨fun x hx => ?_, fun x hx => ?_⟩
  · by_cases hxp : x = p
    · subst hxp
      exact hself (by simpa [hpc] using hx)
    · rw [hpc, Function.update_of_ne hxp] at hx
      have hsx := h.lock x hx
      rcases hlock with heq | hnone | hown
      · rw [heq, hsx]
      · simp [hsx] at hnone
      · exact absurd (Option.some.inj (hsx.symm.trans hown)) hxp
  · by_cases hxp : x = p
    · subst hxp
      exact hselfPt (by simpa [hpc] using hx)
    · rw [hpc, Function.update_of_ne hxp] at hx
      have hsx := h.ptLock x hx
      rcases hpt with heq | hnone | hown
      · rw [heq, hsx]
      · simp [hsx] at hnone
      · exact absurd (Option.some.inj (hsx.symm.trans hown)) hxp

theorem of_move {c : Client σ K A} {p : Slot} (h : Locked s) (hm : c.Move s p t) : Locked t := by
  have hlock := h.lock p
  have hpt := h.ptLock p
  cases hm with
  | acquire hpc hl => exact h.move rfl (.inr (.inl hl)) (.inl rfl) (by simp) (by simp [Pc.holdsPtLock])
  | goto hpc hb | sleep hpc hb | wakeup hpc hb =>
    have hown : s.lock = some p := hlock (by simp [hpc, Pc.holdsLock])
    exact h.move rfl (.inl rfl) (.inl rfl) (by simp [hown]) (by simp [Pc.holdsPtLock])
  | release hpc hb hl =>
    exact h.move rfl (.inr (.inr hl)) (.inl rfl) (by simp [Pc.holdsLock])
      (by simp [Pc.holdsPtLock])
  | ret hpc hb =>
    exact h.move rfl (.inl rfl) (.inl rfl) (by simp [Pc.holdsLock]) (by simp [Pc.holdsPtLock])
  | sleepAcq hpc hl | wakeAcq hpc hl =>
    have hown : s.lock = some p := hlock (by simp [hpc, Pc.holdsLock])
    exact h.move rfl (.inl rfl) (.inr (.inl hl)) (by simp [hown]) (by simp)
  | sleepRel hpc hl =>
    have hown : s.ptLock = some p := hpt (by simp [hpc, Pc.holdsPtLock])
    exact h.move rfl (.inr (.inr hl)) (.inl rfl) (by simp [Pc.holdsLock]) (by simp [hown])
  | sleepSet hpc =>
    have hown : s.ptLock = some p := hpt (by simp [hpc, Pc.holdsPtLock])
    exact h.move rfl (.inl rfl) (.inr (.inr hown)) (by simp [Pc.holdsLock])
      (by simp [Pc.holdsPtLock])
  | resume hpc hl =>
    exact h.move rfl (.inl rfl) (.inr (.inr hl)) (by simp [Pc.holdsLock])
      (by simp [Pc.holdsPtLock])
  | wakeRun hpc =>
    have hown : s.lock = some p := hlock (by simp [hpc, Pc.holdsLock])
    have hownPt : s.ptLock = some p := hpt (by simp [hpc, Pc.holdsPtLock])
    generalize s.pt.wakeup1 _ = pt
    exact h.move rfl (.inl rfl) (.inl rfl) (by simp [hown]) (by simp [hownPt])
  | wakeRel hpc hl =>
    have hown : s.lock = some p := hlock (by simp [hpc, Pc.holdsLock])
    exact h.move rfl (.inl rfl) (.inr (.inr hl)) (by simp [hown]) (by simp [Pc.holdsPtLock])

theorem of_tableMove {op : Op} {pt : PTable} (h : Locked s) (hl : s.ptLock = none)
    {c : Client σ K A} (hm : c.TableMove s op pt t) : Locked t := by
  cases hm with
  | plain | exit => exact ⟨h.lock, h.ptLock⟩
  | resume _ hpc hd =>
    exact h.move rfl (.inl rfl) (.inr (.inl hl)) (by simp [Pc.holdsLock]) (by simp)

theorem of_start {c : Client σ K A} {p : Slot} {a : A} (h : Locked s)
    (ht : c.start s p a = some t)
    (hinit : ∀ d k, c.enter a p s.data = .initlock d k → ∀ q, (s.pc q).holdsLock = false) :
    Locked t := by
  unfold Client.start at ht
  split at ht
  · split at ht <;> obtain rfl := Option.some.inj ht
    · exact h.move rfl (.inl rfl) (.inl rfl) (by simp [Pc.holdsLock]) (by simp [Pc.holdsPtLock])
    · rename_i d k henter
      have hnobody : Locked { s with lock := none } :=
        ⟨fun q hq => absurd hq (by simp [hinit d k henter q]), h.ptLock⟩
      exact hnobody.move rfl (.inl rfl) (.inl rfl) (by simp [Pc.holdsLock])
        (by simp [Pc.holdsPtLock])
    · exact ⟨h.lock, h.ptLock⟩
  · simp at ht

end Locked

/-! ## Points of control and data -/

/-- The point of the client's code at which a process is, or to which it returns
from `sleep`, `wakeup` or `acquire`. -/
def Pc.point : Pc K → Option K
  | .idle => none
  | .acq k | .crit k | .sleepAcq _ k | .sleepRel _ k | .sleepSet _ k | .asleep _ k | .resume k
  | .wakeAcq _ k | .wakeRun _ k | .wakeRel k => some k

/-- The channel of a process inside `sleep`, with the point to which it returns. -/
def Pc.sleeping : Pc K → Option (Chan × K)
  | .sleepAcq ch k | .sleepRel ch k | .sleepSet ch k | .asleep ch k => some (ch, k)
  | _ => none

def State.points (s : State σ K) (p : Slot) : Option K := (s.pc p).point

theorem State.points_update {s t : State σ K} {p : Slot} {pc : Pc K}
    (h : t.pc = Function.update s.pc p pc) :
    t.points = Function.update s.points p pc.point := by
  funext x
  by_cases hx : x = p
  · subst hx
    simp [State.points, h]
  · simp [State.points, h, hx]

theorem State.points_setPc (s : State σ K) (p : Slot) (pc : Pc K) :
    (s.setPc p pc).points = Function.update s.points p pc.point :=
  State.points_update rfl

theorem State.points_eq {s t : State σ K} {p : Slot} {pc : Pc K}
    (h : t.pc = Function.update s.pc p pc) (hpc : pc.point = (s.pc p).point) :
    t.points = s.points := by
  rw [State.points_update h, hpc]
  exact Function.update_eq_self p s.points

def Next.data : Next σ K → σ
  | .goto d _ | .sleep d _ _ | .wakeup d _ _ | .release d _ | .ret d _ => d

def Next.point : Next σ K → Option K
  | .goto _ k | .sleep _ _ k | .wakeup _ _ k => some k
  | .release _ _ | .ret _ _ => none

theorem Client.Move.data_points {c : Client σ K A} {s t : State σ K} {p : Slot}
    (h : c.Move s p t) :
    (t.data = s.data ∧ t.points = s.points) ∨
      ∃ k, s.pc p = .crit k ∧ t.data = (c.body k p s.data).data ∧
        t.points = Function.update s.points p (c.body k p s.data).point := by
  cases h with
  | goto hpc hb | sleep hpc hb | wakeup hpc hb | release hpc hb _ | ret hpc hb =>
    refine .inr ⟨_, hpc, by rw [hb]; rfl, ?_⟩
    rw [hb]
    exact State.points_setPc _ _ _
  | acquire hpc _ | sleepAcq hpc _ | sleepRel hpc _ | sleepSet hpc | resume hpc _
  | wakeAcq hpc _ | wakeRel hpc _ =>
    exact .inl ⟨rfl, State.points_eq rfl (by simp [hpc, Pc.point])⟩
  | wakeRun hpc =>
    generalize s.pt.wakeup1 _ = pt
    exact .inl ⟨rfl, State.points_eq rfl (by simp [hpc, Pc.point])⟩

theorem Client.TableMove.points_eq {c : Client σ K A} {s t : State σ K} {op : Op} {pt : PTable}
    (h : c.TableMove s op pt t) : t.points = s.points := by
  cases h with
  | plain | exit => rfl
  | resume _ hpc _ => exact State.points_eq rfl (by simp [hpc, Pc.point])

theorem Client.start_cases {c : Client σ K A} {s t : State σ K} {p : Slot} {a : A}
    (h : c.start s p a = some t) :
    s.pc p = .idle ∧ t.pt = s.pt ∧
      ((∃ d k, (c.enter a p s.data = .acquire d k ∨ c.enter a p s.data = .initlock d k) ∧
          t.data = d ∧ t.pc = Function.update s.pc p (.acq k)) ∨
        ∃ d rv, c.enter a p s.data = .ret d rv ∧ t.data = d ∧ t.pc = s.pc) := by
  unfold Client.start at h
  split at h
  · rename_i hidle
    refine ⟨hidle, ?_⟩
    split at h <;> obtain rfl := Option.some.inj h
    · rename_i d k henter
      exact ⟨rfl, .inl ⟨d, k, .inl henter, rfl, rfl⟩⟩
    · rename_i d k henter
      exact ⟨rfl, .inl ⟨d, k, .inr henter, rfl, rfl⟩⟩
    · rename_i d rv henter
      exact ⟨rfl, .inr ⟨d, rv, henter, rfl, rfl⟩⟩
  · simp at h

def Outside (Outer : K → Prop) (s : State σ K) : Prop :=
  ∀ x k, (s.pc x).point = some k → (s.pc x).holdsLock = false → Outer k

namespace Outside

variable {c : Client σ K A} {Outer : K → Prop} {s t : State σ K}

theorem move (h : Outside Outer s) {p : Slot} {pc : Pc K}
    (htpc : t.pc = Function.update s.pc p pc)
    (hself : ∀ k, pc.point = some k → pc.holdsLock = false → Outer k) : Outside Outer t := by
  intro x k hk hlock
  rw [htpc] at hk hlock
  by_cases hxp : x = p
  · subst hxp
    rw [Function.update_self] at hk hlock
    exact hself k hk hlock
  · rw [Function.update_of_ne hxp] at hk hlock
    exact h x k hk hlock

theorem of_move {p : Slot} (h : Outside Outer s) (hm : c.Move s p t)
    (hsleep : ∀ ch k, s.pc p = .sleepRel ch k → Outer k) : Outside Outer t := by
  have hself := h p
  cases hm with
  | sleepRel hpc _ =>
    apply h.move rfl
    intro k hk _
    obtain rfl := Option.some.inj hk
    exact hsleep _ _ hpc
  | acquire | goto | sleep | wakeup | release | ret | sleepAcq | wakeAcq | wakeRel =>
    exact h.move rfl (by simp [Pc.point, Pc.holdsLock])
  | wakeRun hpc =>
    generalize s.pt.wakeup1 _ = pt
    exact h.move rfl (by simp [Pc.holdsLock])
  | sleepSet hpc | resume hpc _ =>
    exact h.move rfl (by simpa [hpc, Pc.point, Pc.holdsLock] using hself)

theorem of_start {p : Slot} {a : A} (h : Outside Outer s) (ht : c.start s p a = some t)
    (henter : ∀ d k, c.enter a p s.data = .acquire d k ∨ c.enter a p s.data = .initlock d k →
      Outer k) : Outside Outer t := by
  obtain ⟨_, _, ⟨d, k, hk, _, htpc⟩ | ⟨_, _, _, _, htpc⟩⟩ := Client.start_cases ht
  · apply h.move htpc
    intro k' hk' _
    obtain rfl := Option.some.inj hk'
    exact henter d k hk
  · intro x k hk hlock
    rw [htpc] at hk hlock
    exact h x k hk hlock

theorem of_tableMove {op : Op} {pt : PTable} (h : Outside Outer s) (hm : c.TableMove s op pt t) :
    Outside Outer t := by
  cases hm with
  | plain | exit => exact h
  | @resume p _ _ _ hpc _ =>
    have hself := h p
    exact h.move rfl (by simpa [hpc, Pc.point, Pc.holdsLock] using hself)

end Outside

/-! ## Who is inside `sleep` -/

theorem scheduler_dispatched {s : PTable} {p : Slot} (h : s.dispatched = some p) :
    (s.scheduler.proc p).state = .RUNNING := by
  unfold PTable.dispatched at h
  obtain ⟨i, hi, hfirst⟩ := Option.bind_eq_some_iff.1 h
  simp [PTable.scheduler, hi, PTable.dequeue, hfirst]

theorem Client.sleepsOn_of_allowed {c : Client σ K A} {s : State σ K} {op : Op} {pt : PTable}
    (hop : c.allowed s op = true) (hproc : ∀ x, c.own (.proc x) = false)
    (hnext : Sched.next s.pt op = some pt) {x : Slot} {ch : Chan} (hown : c.own ch = true)
    (hx : SleepsOn pt (some ch) x) : SleepsOn s.pt (some ch) x := by
  refine (sleepsOn_of_next hnext hx).resolve_right ?_
  rintro ⟨ch', heq, hput⟩
  obtain rfl := Option.some.inj heq
  rcases hput with rfl | ⟨_, rfl⟩
  · simp [Client.allowed, hown] at hop
  · simp [hproc] at hown

/-- A process that is asleep on a channel of the client is inside its `sleep`,
and the channel fits the point to which it returns. -/
structure Parked (c : Client σ K A) (Fits : Chan → K → Prop) (s : State σ K) : Prop where
  parked : ∀ x ch, c.own ch = true → SleepsOn s.pt (some ch) x → ∃ k, s.pc x = .asleep ch k
  fits : ∀ x ch k, (s.pc x).sleeping = some (ch, k) → Fits ch k

namespace Parked

variable {c : Client σ K A} {Fits : Chan → K → Prop} {s t : State σ K}

theorem move (h : Parked c Fits s) {p : Slot} {pc : Pc K}
    (htpc : t.pc = Function.update s.pc p pc)
    (hsleeps : ∀ x ch, c.own ch = true → SleepsOn t.pt (some ch) x →
      x ≠ p ∧ SleepsOn s.pt (some ch) x ∨ x = p ∧ ∃ k, pc = .asleep ch k)
    (hfits : ∀ ch k, pc.sleeping = some (ch, k) → Fits ch k) : Parked c Fits t := by
  constructor
  · intro x ch hown hx
    rcases hsleeps x ch hown hx with ⟨hxp, hbefore⟩ | ⟨rfl, k, rfl⟩
    · obtain ⟨k, hk⟩ := h.parked x ch hown hbefore
      exact ⟨k, by rw [htpc, Function.update_of_ne hxp, hk]⟩
    · exact ⟨k, by rw [htpc, Function.update_self]⟩
  · intro x ch k hx
    rw [htpc] at hx
    by_cases hxp : x = p
    · subst hxp
      exact hfits ch k (by simpa using hx)
    · exact h.fits x ch k (by simpa [hxp] using hx)

theorem ne_of_sleepsOn (h : Parked c Fits s) {p x : Slot} {ch : Chan} (hown : c.own ch = true)
    (hpc : ∀ k, s.pc p ≠ .asleep ch k) (hx : SleepsOn s.pt (some ch) x) : x ≠ p := by
  rintro rfl
  obtain ⟨k, hk⟩ := h.parked x ch hown hx
  exact hpc k hk

theorem of_move {p : Slot} (h : Parked c Fits s) (hm : c.Move s p t)
    (hbody : ∀ k p d d' ch k', c.body k p d = .sleep d' ch k' → Fits ch k') :
    Parked c Fits t := by
  have hfits := h.fits p
  have hstay : (∀ ch k, s.pc p ≠ .asleep ch k) → ∀ x ch, c.own ch = true →
      SleepsOn s.pt (some ch) x → ∀ Q : Prop, x ≠ p ∧ SleepsOn s.pt (some ch) x ∨ Q :=
    fun hpc x ch hown hx Q => .inl ⟨h.ne_of_sleepsOn hown (hpc ch) hx, hx⟩
  cases hm with
  | acquire hpc _ | goto hpc _ | wakeup hpc _ | release hpc _ _ | ret hpc _ | resume hpc _
  | wakeAcq hpc _ | wakeRel hpc _ =>
    exact h.move rfl (fun x ch hown hx => hstay (by simp [hpc]) x ch hown hx _)
      (by simp [Pc.sleeping])
  | sleep hpc hb =>
    refine h.move rfl (fun x ch hown hx => hstay (by simp [hpc]) x ch hown hx _) ?_
    intro ch k heq
    obtain ⟨rfl, rfl⟩ := by simpa [Pc.sleeping] using heq
    exact hbody _ _ _ _ _ _ hb
  | sleepAcq hpc _ | sleepRel hpc _ =>
    refine h.move rfl (fun x ch hown hx => hstay (by simp [hpc]) x ch hown hx _) ?_
    simpa [hpc, Pc.sleeping] using hfits
  | @sleepSet k ch' hpc =>
    refine h.move rfl (fun x ch hown hx => ?_) (by simpa [hpc, Pc.sleeping] using hfits)
    by_cases hxp : x = p
    · subst hxp
      have hch : ch' = ch := by simpa [SleepsOn, PTable.sleep] using hx
      exact .inr ⟨rfl, k, by rw [hch]⟩
    · exact .inl ⟨hxp, by simpa [SleepsOn, PTable.sleep, hxp] using hx⟩
  | @wakeRun k ch' hpc =>
    generalize hpt : s.pt.wakeup1 (some ch') = pt
    refine h.move rfl (fun x ch hown hx => ?_) (by simp [Pc.sleeping])
    change SleepsOn pt (some ch) x at hx
    rw [← hpt] at hx
    have hsame := wakeup1_of_ne_runnable (ne_runnable_of_eq hx.1 (by simp))
    exact hstay (by simp [hpc]) x ch hown
      ⟨hsame.state_eq ▸ hx.1, hsame.chan_eq ▸ hx.2⟩ _

theorem of_start {p : Slot} {a : A} (h : Parked c Fits s) (ht : c.start s p a = some t) :
    Parked c Fits t := by
  obtain ⟨hidle, hpt, ⟨_, k, _, _, htpc⟩ | ⟨_, _, _, _, htpc⟩⟩ := Client.start_cases ht
  · refine h.move htpc (fun x ch hown hx => ?_) (by simp [Pc.sleeping])
    rw [hpt] at hx
    exact .inl ⟨h.ne_of_sleepsOn hown (by simp [hidle]) hx, hx⟩
  · constructor
    · rw [hpt, htpc]
      exact h.parked
    · rw [htpc]
      exact h.fits

theorem of_tableMove {op : Op} {pt : PTable} (h : Parked c Fits s) (hop : c.allowed s op = true)
    (hproc : ∀ x, c.own (.proc x) = false) (hnext : Sched.next s.pt op = some pt)
    (hm : c.TableMove s op pt t) : Parked c Fits t := by
  have hsleeps : ∀ x ch, c.own ch = true → SleepsOn pt (some ch) x →
      SleepsOn s.pt (some ch) x :=
    fun x ch => Client.sleepsOn_of_allowed hop hproc hnext
  cases hm with
  | plain | exit =>
    exact ⟨fun x ch hown hx => h.parked x ch hown (hsleeps x ch hown hx), h.fits⟩
  | @resume p _ _ hsched _ hd =>
    refine h.move rfl (fun x ch hown hx => .inl ⟨?_, hsleeps x ch hown hx⟩)
      (by simp [Pc.sleeping])
    rintro rfl
    subst hsched
    have hrun := scheduler_dispatched hd
    obtain rfl : s.pt.scheduler = pt := by
      simpa [Sched.next, Op.caller, Op.apply] using hnext
    exact absurd (hrun.symm.trans hx.1) (by simp)

end Parked

end Xv6.Sync
