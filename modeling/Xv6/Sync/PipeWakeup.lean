import Xv6.Sync.Pipe

/-!
# Who sleeps on a pipe

A reader need not sleep while there are bytes or the write end is closed, nor a writer
while there is room or the read end is closed.  `pipewrite` gives up at a full buffer
without a `wakeup`: if it has filled the buffer itself, from empty, then the readers
that sleep on the pipe are not told.
-/

namespace Xv6.Sync

open Xv6.Lib Xv6.Sched

def pipeProtocol : Protocol pipeClient where
  Ready ch d :=
    (ch = nreadChan ∧ (d.isEmpty = false ∨ d.writeopen = false)) ∨
      (ch = nwriteChan ∧ (d.isFull = false ∨ d.readopen = false))
  Owes
    | .write _ _ _ fresh, ch => fresh = true ∧ ch = nreadChan
    | .copy _ _, ch => ch = nwriteChan
    | .full _ _ _, _ | .written _, _ | .read _, _ | .copied _ _, _ | .close _, _ | .closed, _ =>
      False
  own := by
    rintro ch d (⟨rfl, _⟩ | ⟨rfl, _⟩)
    · rfl
    · rfl
  own_proc _ := rfl

/-- `pipewrite` does not give up at a buffer that it has filled from empty since it
acquired the lock or called `wakeup`. -/
def PointKeeps (d : Pipe) (p : Slot) : Pc PipePoint → Prop
  | .crit (.write _ n i fresh) =>
    (i : Int) < n ∧ d.isFull = true ∧ d.givesUp p = true → fresh = false
  | _ => True

def KeepsReaders (s : PipeState) : Label PipeCall → Prop
  | .step p => PointKeeps s.data p (s.pc p)
  | .call _ _ | .table _ => True

instance (d : Pipe) (p : Slot) (pc : Pc PipePoint) : Decidable (PointKeeps d p pc) := by
  unfold PointKeeps
  split <;> exact inferInstance

instance (s : PipeState) : (l : Label PipeCall) → Decidable (KeepsReaders s l)
  | .step p => inferInstanceAs (Decidable (PointKeeps s.data p (s.pc p)))
  | .call _ _ | .table _ => inferInstanceAs (Decidable True)

section

variable {s : PipeState} {k : PipePoint} {d : Pipe}

theorem kept_of_ready {ch : Chan} (hready : pipeProtocol.Ready ch s.data)
    (howes : ¬ pipeProtocol.Owes k ch) : pipeProtocol.Kept s k ch := .inr ⟨hready, howes⟩

theorem pipe_disciplined (h : PipeInv s) {p : Slot} (hpc : s.pc p = .crit k)
    (hkeeps : KeepsReaders s (.step p)) :
    pipeProtocol.Disciplined s k (pipeClient.body k p s.data) := by
  have hok := h.points p k (by simp [State.points, hpc, Pc.point])
  cases k with
  | write addr n i fresh =>
    simp only [KeepsReaders, PointKeeps, hpc] at hkeeps
    simp only [pipeClient, pipewriteBody]
    split_ifs with hi hfull hup
    · -- it gives up, and has told the readers of its bytes
      intro ch hready
      refine kept_of_ready hready ?_
      simp [pipeProtocol, hkeeps ⟨hi, hfull, hup⟩]
    · intro ch hready
      by_cases hch : ch = nreadChan
      · exact .inr (.inl hch.symm)
      · exact .inl (kept_of_ready hready (by simp [pipeProtocol, hch]))
    · intro ch hready
      rcases hready with ⟨rfl, _⟩ | ⟨rfl, hroom⟩
      · by_cases hfresh : (fresh || s.data.isEmpty) = true
        · exact .inr ⟨hfresh, rfl⟩
        · simp only [Bool.or_eq_true, not_or, Bool.not_eq_true] at hfresh
          refine .inl (kept_of_ready (.inl ⟨rfl, .inl hfresh.2⟩) ?_)
          simp [pipeProtocol, hfresh.1]
      · refine .inl (kept_of_ready (.inr ⟨rfl, .inl (by simpa using hfull)⟩) ?_)
        simp [pipeProtocol, nreadChan, nwriteChan]
    · intro ch hready
      by_cases hch : ch = nreadChan
      · exact .inr (.inl hch.symm)
      · exact .inl (kept_of_ready hready (by simp [pipeProtocol, hch]))
  | full addr n i =>
    refine ⟨fun ch hready => kept_of_ready hready (by simp [pipeProtocol]), ?_⟩
    rintro (⟨hch, _⟩ | ⟨_, hroom⟩)
    · simp [nreadChan, nwriteChan] at hch
    · simp [hok.1, hok.2] at hroom
  | written | copied | closed =>
    exact fun ch hready => kept_of_ready hready (by simp [pipeProtocol])
  | read n =>
    simp only [pipeClient, pipereadBody]
    split_ifs with hempty hkilled
    · exact fun ch hready => kept_of_ready hready (by simp [pipeProtocol])
    · refine ⟨fun ch hready => kept_of_ready hready (by simp [pipeProtocol]), ?_⟩
      simp only [Bool.and_eq_true] at hempty
      rintro (⟨_, hbytes⟩ | ⟨hch, _⟩)
      · simp [hempty.1, hempty.2] at hbytes
      · simp [nreadChan, nwriteChan] at hch
    · exact fun ch hready => .inl (kept_of_ready hready (by simp [pipeProtocol]))
  | copy n i =>
    simp only [pipeClient, pipereadCopy]
    split_ifs with hi
    · intro ch hready
      rcases hready with ⟨rfl, _⟩ | ⟨rfl, _⟩
      · refine .inl (kept_of_ready (.inl ⟨rfl, .inl hi.2⟩) ?_)
        simp [pipeProtocol, nreadChan, nwriteChan]
      · exact .inr rfl
    · intro ch hready
      by_cases hch : ch = nwriteChan
      · exact .inr (.inl hch.symm)
      · exact .inl (kept_of_ready hready hch)
  | close writable =>
    simp only [pipeClient, pipecloseBody]
    split_ifs
    · rintro ch (⟨rfl, _⟩ | ⟨rfl, hroom⟩)
      · exact .inr (.inl rfl)
      · exact .inl (kept_of_ready (.inr ⟨rfl, hroom⟩) (by simp [pipeProtocol]))
    · rintro ch (⟨rfl, hbytes⟩ | ⟨rfl, _⟩)
      · exact .inl (kept_of_ready (.inl ⟨rfl, hbytes⟩) (by simp [pipeProtocol]))
      · exact .inr (.inl rfl)

end

/-! ## Runs -/

namespace PipeInv

variable {s t : PipeState}

theorem heard_refresh (h : pipeProtocol.Heard s) : pipeProtocol.Heard s.refresh :=
  ⟨h.heard, h.about⟩

theorem heard_of_next (h : PipeInv s) (hheard : pipeProtocol.Heard s) {l : Label PipeCall}
    (hok : KeepsReaders s l) (hstep : pipeNext s l = some t) : pipeProtocol.Heard t := by
  obtain ⟨u, hu, rfl⟩ := Option.map_eq_some_iff.1 hstep
  apply heard_refresh
  cases l with
  | call p a =>
    obtain ⟨_, hu⟩ := Option.ite_none_right_eq_some.1 hu
    have hdata : u.data = s.data := by
      obtain ⟨_, _, ⟨d, k, hk, hd, _⟩ | ⟨d, rv, hret, _, _⟩⟩ := Client.start_cases hu
      · rw [hd]
        cases a <;> simp only [pipeClient, reduceCtorEq, or_false, Entry.acquire.injEq] at hk <;>
          exact hk.1.symm
      · cases a <;> simp [pipeClient] at hret
    exact hheard.of_start hu fun ch hready => by rwa [hdata] at hready
  | step p =>
    obtain ⟨_, hu⟩ := Option.ite_none_right_eq_some.1 hu
    exact hheard.of_move h.locked (.of_advance hu) fun k hpc => pipe_disciplined h hpc hok
  | table op =>
    obtain ⟨hop, hu⟩ := Option.ite_none_right_eq_some.1 hu
    obtain ⟨_, pt, hnext, hm⟩ := Client.TableMove.of_tableStep hu
    exact hheard.of_tableMove hop hnext hm fun _ _ _ hready => hready

theorem heard_boot (data : Nat → UInt8) : pipeProtocol.Heard (Client.boot (.alloc data)) := by
  refine ⟨fun ch _ => .inr fun x hx => ?_, by simp [Client.boot]⟩
  rcases hx with ⟨k, hk⟩ | hsl
  · simp [Client.boot] at hk
  · simp [Client.boot, SleepsOn, PTable.boot, Proc.zero] at hsl

end PipeInv

theorem Reach.pipeHeard {data : Nat → UInt8} {s : PipeState}
    (h : (pipeMachine data).Reach KeepsReaders s) : pipeProtocol.Heard s := by
  apply Machine.Reach.invariant_of_reach (I := pipeProtocol.Heard) _ _ h
  · rintro t rfl
    exact PipeInv.heard_boot data
  · intro t l u ht hheard hok hstep
    exact (Reach.pipeInv ht).heard_of_next hheard hok hstep

def NoStuckPeer (s : PipeState) : Prop :=
  (s.data.isEmpty = false ∨ s.data.writeopen = false → ∀ p, ¬ SleepsOn s.pt (some nreadChan) p) ∧
    (s.data.isFull = false ∨ s.data.readopen = false →
      ∀ p, ¬ SleepsOn s.pt (some nwriteChan) p)

/-- In every run in which `pipewrite` does not give up at a buffer that it has filled
from empty, nobody sleeps on the pipe who need not while the lock is free. -/
theorem pipe_no_stuck_peer {data : Nat → UInt8} {s : PipeState}
    (h : (pipeMachine data).Reach KeepsReaders s) (hfree : s.lock = none) : NoStuckPeer s := by
  have hinv := Reach.pipeInv h
  have hheard := Reach.pipeHeard h
  have hawake : ∀ ch, pipeProtocol.Ready ch s.data → ∀ p, ¬ SleepsOn s.pt (some ch) p := by
    intro ch hready p hp
    rcases hheard.heard ch hready with ⟨q, hq⟩ | hun
    · have hlock := hinv.locked.lock q (Protocol.holdsLock_of_owes hq)
      simp [hfree] at hlock
    · exact hun p (.inr hp)
  exact ⟨fun hbytes => hawake _ (.inl ⟨rfl, hbytes⟩), fun hroom => hawake _ (.inr ⟨rfl, hroom⟩)⟩

/-- `init` goes to sleep in `piperead`, and its child writes a byte. -/
def sleeperWoken : List (Label PipeCall) :=
  let init : Slot := ⟨0, Sched.zero_lt_NPROC⟩
  let child : Slot := ⟨1, Sched.one_lt_NPROC⟩
  [.table .userinit, .table .scheduler, .table (.fork init true true), .table .scheduler,
    .call init (.piperead 1)] ++ List.replicate 5 (.step init) ++
    [.call child (.pipewrite [7] 1)] ++ List.replicate 7 (.step child)

theorem pipe_no_stuck_peer_woken :
    ∃ s, Machine.runList (fun s l => if KeepsReaders s l then pipeNext s l else none)
        (Client.boot (.alloc fun _ => 0)) sleeperWoken = some s ∧
      s.lock = none ∧ s.data.isEmpty = false ∧ ∀ p, ¬ SleepsOn s.pt (some nreadChan) p := by
  have hdec : (Machine.runList (fun s l => if KeepsReaders s l then pipeNext s l else none)
      (Client.boot (.alloc fun _ => 0)) sleeperWoken).any
        (fun s => s.lock = none ∧ s.data.isEmpty = false) = true := by
    decide +kernel
  obtain ⟨s, hs, hgoal⟩ := (Option.any_eq_true _ _).1 hdec
  obtain ⟨hlock, hbytes⟩ := by simpa using hgoal
  have hreach : (pipeMachine fun _ => 0).Reach KeepsReaders s :=
    Machine.reach_of_runList sleeperWoken (.init rfl) hs
  exact ⟨s, hs, hlock, hbytes, (pipe_no_stuck_peer hreach hlock).1 (.inl hbytes)⟩

/-- `init` goes to sleep in `piperead`.  Its child is killed after it has entered
`pipewrite` with more bytes than the pipe holds: it fills the buffer and gives up. -/
def killedWriter : List (Label PipeCall) :=
  let init : Slot := ⟨0, Sched.zero_lt_NPROC⟩
  let child : Slot := ⟨1, Sched.one_lt_NPROC⟩
  [.table .userinit, .table .scheduler, .table (.fork init true true), .table .scheduler,
    .call init (.piperead 1)] ++ List.replicate 5 (.step init) ++
    [.call child (.pipewrite [] 513), .table (.kill 2)] ++ List.replicate 514 (.step child)

theorem not_forall_no_stuck_peer : ¬ ∀ (data : Nat → UInt8) (s : PipeState),
    (pipeMachine data).Reachable s → s.lock = none → NoStuckPeer s := by
  intro hall
  have hdec : (Machine.runList pipeNext (Client.boot (.alloc fun _ => 0)) killedWriter).any
      (fun s => s.lock = none ∧ s.data.isEmpty = false ∧
        (s.pt.proc ⟨0, by decide⟩).state = .SLEEPING ∧
        (s.pt.proc ⟨0, by decide⟩).chan = some nreadChan) = true := by
    decide +kernel
  obtain ⟨s, hs, hgoal⟩ := (Option.any_eq_true _ _).1 hdec
  obtain ⟨hlock, hbytes, hstate, hchan⟩ := by simpa using hgoal
  have hreach : (pipeMachine fun _ => 0).Reachable s :=
    Machine.reachable_of_runList killedWriter (.init rfl) hs
  exact (hall _ s hreach hlock).1 (.inl hbytes) _ ⟨hstate, hchan⟩

end Xv6.Sync
