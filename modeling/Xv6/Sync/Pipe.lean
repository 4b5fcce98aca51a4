import Xv6.Lib.Ring
import Xv6.Sync.Wakeup

/-!
# Pipes

`pipewrite`, `piperead` and `pipeclose` as a client of the monitor of `p->lock`, and
what they do to the bytes: readers get, in order, the bytes that writers have stored.
-/

namespace Xv6.Sync

open Xv6.Lib Xv6.Sched

def PIPESIZE : Nat := 512

/-- `struct pipe` without its lock, what `proc->killed` reads for each process, and the
bytes that have passed through the pipe, which the kernel does not keep. -/
structure Pipe extends RingBuffer UInt8 where
  readopen : Bool
  writeopen : Bool
  killed : Slot → Bool
  stored : List UInt8
  delivered : List UInt8

/-- The addresses of `p->nread` and `p->nwrite` as sleep channels. -/
def nreadChan : Chan := .addr 0

def nwriteChan : Chan := .addr 1

inductive PipePoint
  /-- The loop of `pipewrite` at byte `i`.  `fresh` says that it has stored a byte into an
  empty buffer and has not called `wakeup` since. -/
  | write (addr : List UInt8) (n : Int) (i : Nat) (fresh : Bool)
  /-- `pipewrite` about to `sleep` at a full buffer. -/
  | full (addr : List UInt8) (n : Int) (i : Nat)
  | written (n : Int)
  /-- The test of the first loop of `piperead`. -/
  | read (n : Int)
  /-- The loop of `piperead` that copies. -/
  | copy (n : Int) (i : Nat)
  | copied (n : Int) (i : Nat)
  | close (writable : Bool)
  | closed
  deriving DecidableEq

inductive PipeCall
  | pipewrite (addr : List UInt8) (n : Int)
  | piperead (n : Int)
  | pipeclose (writable : Bool)
  deriving DecidableEq

namespace Pipe

def isEmpty (d : Pipe) : Bool := d.nread = d.nwrite

def isFull (d : Pipe) : Bool := d.nwrite = (d.nread + PIPESIZE) % 2 ^ 32

def store (d : Pipe) (b : UInt8) : Pipe :=
  { d with toRingBuffer := d.toRingBuffer.put PIPESIZE (2 ^ 32) b, stored := d.stored ++ [b] }

def deliver (d : Pipe) : Pipe :=
  { d with
    toRingBuffer := d.toRingBuffer.take (2 ^ 32)
    delivered := d.delivered ++ [d.toRingBuffer.front PIPESIZE] }

def givesUp (d : Pipe) (p : Slot) : Bool := !d.readopen || d.killed p

end Pipe

def pipewriteBody (addr : List UInt8) (n : Int) (i : Nat) (fresh : Bool) (p : Slot) (d : Pipe) :
    Next Pipe PipePoint :=
  if (i : Int) < n then
    if d.isFull then
      if d.givesUp p then .release d (-1) else .wakeup d nreadChan (.full addr n i)
    else .goto (d.store (addr.getD i 0)) (.write addr n (i + 1) (fresh || d.isEmpty))
  else .wakeup d nreadChan (.written n)

def pipereadBody (n : Int) (p : Slot) (d : Pipe) : Next Pipe PipePoint :=
  if d.isEmpty && d.writeopen then
    if d.killed p then .release d (-1) else .sleep d nreadChan (.read n)
  else .goto d (.copy n 0)

def pipereadCopy (n : Int) (i : Nat) (d : Pipe) : Next Pipe PipePoint :=
  if (i : Int) < n ∧ d.isEmpty = false then .goto d.deliver (.copy n (i + 1))
  else .wakeup d nwriteChan (.copied n i)

def pipecloseBody (writable : Bool) (d : Pipe) : Next Pipe PipePoint :=
  if writable then .wakeup { d with writeopen := false } nreadChan .closed
  else .wakeup { d with readopen := false } nwriteChan .closed

/-- The pipe calls as a client of the monitor of `p->lock`.  The page of a pipe with both
ends closed is given to `kfree` and not used again. -/
def pipeClient : Client Pipe PipePoint PipeCall where
  enter
    | .pipewrite addr n, _, d => .acquire d (.write addr n 0 false)
    | .piperead n, _, d => .acquire d (.read n)
    | .pipeclose writable, _, d => .acquire d (.close writable)
  body
    | .write addr n i fresh, p, d => pipewriteBody addr n i fresh p d
    | .full addr n i, _, d => .sleep d nwriteChan (.write addr n i false)
    | .written n, _, d => .release d n
    | .read n, p, d => pipereadBody n p d
    | .copy n i, _, d => pipereadCopy n i d
    | .copied _ i, _, d => .release d i
    | .close writable, _, d => pipecloseBody writable d
    | .closed, _, d => .release d 0
  own ch := ch = nreadChan ∨ ch = nwriteChan
  mayExit _ _ := true
  onExit _ d := d

abbrev PipeState : Type := State Pipe PipePoint

/-- A pipe as `pipealloc` leaves it; `data` is what was in the page. -/
def Pipe.alloc (data : Nat → UInt8) : Pipe where
  data := data
  nread := 0
  nwrite := 0
  readopen := true
  writeopen := true
  killed _ := false
  stored := []
  delivered := []

def PipeState.refresh (s : PipeState) : PipeState :=
  { s with data := { s.data with killed := fun p => (s.pt.proc p).killed } }

def pipeNext (s : PipeState) (l : Label PipeCall) : Option PipeState :=
  (pipeClient.next s l).map PipeState.refresh

def pipeMachine (data : Nat → UInt8) : Machine PipeState (Label PipeCall) :=
  .ofFun (Client.boot (.alloc data)) pipeNext

/-! ## The bytes -/

/-- The bytes in the buffer are those that have been stored and not delivered. -/
def Pipe.Fifo (d : Pipe) : Prop :=
  ∃ q, d.toRingBuffer.Carries PIPESIZE (2 ^ 32) q ∧ d.stored = d.delivered ++ q

theorem PIPESIZE_lt : PIPESIZE < 2 ^ 32 := by decide

theorem PIPESIZE_dvd : PIPESIZE ∣ 2 ^ 32 := ⟨2 ^ 23, by decide⟩

namespace Pipe

variable {d : Pipe}

theorem isEmpty_iff {q : List UInt8} (h : d.toRingBuffer.Carries PIPESIZE (2 ^ 32) q) :
    d.isEmpty = true ↔ q = [] := by
  unfold isEmpty
  rw [decide_eq_true_eq]
  exact h.eq_iff_nil PIPESIZE_lt

theorem isFull_iff {q : List UInt8} (h : d.toRingBuffer.Carries PIPESIZE (2 ^ 32) q) :
    d.isFull = true ↔ q.length = PIPESIZE := by
  unfold isFull
  rw [decide_eq_true_eq]
  exact h.eq_iff_full PIPESIZE_lt

theorem Fifo.store (h : d.Fifo) (hfull : d.isFull = false) (b : UInt8) : (d.store b).Fifo := by
  obtain ⟨q, hq, hstored⟩ := h
  have hlt : q.length < PIPESIZE := by
    have hle := hq.length_le
    have hne : ¬ q.length = PIPESIZE := by
      rw [← isFull_iff hq, hfull]
      simp
    omega
  refine ⟨q ++ [b], hq.put PIPESIZE_dvd hlt, ?_⟩
  show d.stored ++ [b] = d.delivered ++ (q ++ [b])
  rw [hstored, List.append_assoc]

theorem Fifo.deliver (h : d.Fifo) (hempty : d.isEmpty = false) : d.deliver.Fifo := by
  obtain ⟨q, hq, hstored⟩ := h
  cases q with
  | nil =>
    have hnil := (isEmpty_iff hq).2 rfl
    simp [hempty] at hnil
  | cons b q =>
    refine ⟨q, hq.take PIPESIZE_dvd, ?_⟩
    show d.stored = (d.delivered ++ [d.toRingBuffer.front PIPESIZE]) ++ q
    rw [hq.front_eq, hstored, List.append_assoc]
    rfl

theorem Fifo.prefix_stored (h : d.Fifo) :
    (d.nwrite + 2 ^ 32 - d.nread) % 2 ^ 32 ≤ PIPESIZE ∧ d.delivered <+: d.stored := by
  obtain ⟨q, hq, hstored⟩ := h
  rw [hq.sub_mod PIPESIZE_lt]
  exact ⟨hq.length_le, q, hstored.symm⟩

theorem Fifo.eq_of_isEmpty (h : d.Fifo) (hempty : d.isEmpty = true) : d.stored = d.delivered := by
  obtain ⟨q, hq, hstored⟩ := h
  rw [hstored, (isEmpty_iff hq).1 hempty, List.append_nil]

end Pipe

/-- What `pipewrite` has found before it sleeps, and `piperead` when it copies: with nothing
copied so far, an empty buffer means that the write end is closed. -/
def PipeOk (d : Pipe) : PipePoint → Prop
  | .full _ _ _ => d.isFull = true ∧ d.readopen = true
  | .copy _ 0 => d.isEmpty = true → d.writeopen = false
  | .copied n 0 => 0 < n → d.isEmpty = true ∧ d.writeopen = false
  | _ => True

def PipeOuter : PipePoint → Prop
  | .write _ _ _ false | .read _ | .close _ => True
  | _ => False

theorem pipeOk_of_outer {d : Pipe} {k : PipePoint} (h : PipeOuter k) : PipeOk d k := by
  cases k with
  | full | copy | copied => exact h.elim
  | write | written | read | close | closed => exact trivial

theorem pipe_body {d : Pipe} {k : PipePoint} (p : Slot) (hfifo : d.Fifo) (hok : PipeOk d k) :
    (pipeClient.body k p d).data.Fifo ∧
      ∀ k', (pipeClient.body k p d).point = some k' → PipeOk (pipeClient.body k p d).data k' := by
  cases k with
  | write addr n i fresh =>
    simp only [pipeClient, pipewriteBody]
    split_ifs with hi hfull hup
    · exact ⟨hfifo, by simp [Next.point]⟩
    · refine ⟨hfifo, fun k' hk' => ?_⟩
      obtain rfl := Option.some.inj hk'
      have hopen : d.readopen = true := by
        cases hr : d.readopen with
        | true => rfl
        | false => simp [Pipe.givesUp, hr] at hup
      exact ⟨hfull, hopen⟩
    · exact ⟨hfifo.store (by simpa using hfull) _, by simp [Next.point, PipeOk]⟩
    · exact ⟨hfifo, by simp [Next.point, PipeOk]⟩
  | full | written | closed | copied =>
    refine ⟨hfifo, ?_⟩
    simp [pipeClient, Next.point, PipeOk]
  | read n =>
    simp only [pipeClient, pipereadBody]
    split_ifs with hempty hkilled
    · exact ⟨hfifo, by simp [Next.point]⟩
    · exact ⟨hfifo, by simp [Next.point, PipeOk]⟩
    · refine ⟨hfifo, fun k' hk' => ?_⟩
      obtain rfl := Option.some.inj hk'
      intro he
      have hclosed : d.writeopen = false := by
        simpa [show d.isEmpty = true from he] using hempty
      exact hclosed
  | copy n i =>
    simp only [pipeClient, pipereadCopy]
    split_ifs with hi
    · exact ⟨hfifo.deliver hi.2, by simp [Next.point, PipeOk]⟩
    · refine ⟨hfifo, fun k' hk' => ?_⟩
      obtain rfl := Option.some.inj hk'
      cases i with
      | succ i => exact trivial
      | zero =>
        intro hn
        have hempty : d.isEmpty = true := by
          by_contra hne
          exact hi ⟨by simpa using hn, by simpa using hne⟩
        exact ⟨hempty, hok hempty⟩
  | close writable =>
    simp only [pipeClient, pipecloseBody]
    split_ifs
    · exact ⟨hfifo, by simp [Next.point, PipeOk]⟩
    · exact ⟨hfifo, by simp [Next.point, PipeOk]⟩

/-! ## Runs -/

def PipeFits (ch : Chan) (k : PipePoint) : Prop :=
  (ch = nwriteChan ∧ ∃ addr n i, k = .write addr n i false) ∨ (ch = nreadChan ∧ ∃ n, k = .read n)

theorem pipe_sleep {k : PipePoint} {p : Slot} {d d' : Pipe} {ch : Chan} {k' : PipePoint}
    (h : pipeClient.body k p d = .sleep d' ch k') : PipeFits ch k' := by
  cases k with
  | write addr n i fresh =>
    simp only [pipeClient, pipewriteBody] at h
    split_ifs at h
  | full addr n i =>
    obtain ⟨_, rfl, rfl⟩ := Next.sleep.inj h
    exact .inl ⟨rfl, addr, n, i, rfl⟩
  | written | copied | closed => simp [pipeClient] at h
  | read n =>
    simp only [pipeClient, pipereadBody] at h
    split_ifs at h
    obtain ⟨_, rfl, rfl⟩ := Next.sleep.inj h
    exact .inr ⟨rfl, n, rfl⟩
  | copy n i =>
    simp only [pipeClient, pipereadCopy] at h
    split_ifs at h
  | close writable =>
    simp only [pipeClient, pipecloseBody] at h
    split_ifs at h

structure PipeInv (s : PipeState) : Prop where
  locked : Locked s
  parked : Parked pipeClient PipeFits s
  outside : Outside PipeOuter s
  fifo : s.data.Fifo
  points : ∀ p k, s.points p = some k → PipeOk s.data k

namespace PipeInv

variable {s t : PipeState}

theorem pipeOk_of_ne (h : PipeInv s) {p q : Slot} (hp : (s.pc p).holdsLock = true) (hq : q ≠ p)
    {k : PipePoint} (hk : s.points q = some k) (d : Pipe) : PipeOk d k := by
  apply pipeOk_of_outer
  apply h.outside q k hk
  by_contra hne
  exact hq (h.locked.eq_of_holdsLock hp (by simpa using hne))

theorem of_move (h : PipeInv s) {p : Slot} (hm : pipeClient.Move s p t) : PipeInv t := by
  have hparked := h.parked.of_move hm fun _ _ _ _ _ _ => pipe_sleep
  have houtside : Outside PipeOuter t := by
    apply h.outside.of_move hm
    intro ch k hpc
    rcases h.parked.fits p ch k (by simp [hpc, Pc.sleeping]) with
      ⟨_, addr, n, i, rfl⟩ | ⟨_, n, rfl⟩
    · exact trivial
    · exact trivial
  have hlocked := h.locked.of_move hm
  rcases hm.data_points with ⟨hd, hp⟩ | ⟨k, hpc, hd, hp⟩
  · refine ⟨hlocked, hparked, houtside, by rw [hd]; exact h.fifo, fun q k hk => ?_⟩
    rw [hp] at hk
    rw [hd]
    exact h.points q k hk
  · have hk : s.points p = some k := by simp [State.points, hpc, Pc.point]
    obtain ⟨hfifo, hnext⟩ := pipe_body p h.fifo (h.points p k hk)
    refine ⟨hlocked, hparked, houtside, by rw [hd]; exact hfifo, fun q k' hk' => ?_⟩
    rw [hp] at hk'
    by_cases hq : q = p
    · subst hq
      rw [Function.update_self] at hk'
      rw [hd]
      exact hnext k' hk'
    · rw [Function.update_of_ne hq] at hk'
      exact h.pipeOk_of_ne (by simp [hpc, Pc.holdsLock]) hq hk' _

theorem of_start (h : PipeInv s) {p : Slot} {a : PipeCall} (ht : pipeClient.start s p a = some t) :
    PipeInv t := by
  have hentry : ∀ d k, pipeClient.enter a p s.data = .acquire d k ∨
      pipeClient.enter a p s.data = .initlock d k → d = s.data ∧ PipeOuter k := by
    intro d k hk
    cases a <;> simp only [pipeClient, reduceCtorEq, or_false, Entry.acquire.injEq] at hk <;>
      obtain ⟨rfl, rfl⟩ := hk <;> exact ⟨rfl, trivial⟩
  have hlocked : Locked t := by
    apply h.locked.of_start ht
    intro d k hk
    cases a <;> simp [pipeClient] at hk
  have houtside : Outside PipeOuter t := h.outside.of_start ht fun d k hk => (hentry d k hk).2
  obtain ⟨_, _, ⟨d, k, hk, hd, htpc⟩ | ⟨d, rv, hret, _, _⟩⟩ := Client.start_cases ht
  · obtain ⟨rfl, houter⟩ := hentry d k hk
    refine ⟨hlocked, h.parked.of_start ht, houtside, by rw [hd]; exact h.fifo, fun q k' hk' => ?_⟩
    rw [hd]
    rw [State.points_update htpc] at hk'
    by_cases hq : q = p
    · subst hq
      rw [Function.update_self] at hk'
      obtain rfl := Option.some.inj hk'
      exact pipeOk_of_outer houter
    · rw [Function.update_of_ne hq] at hk'
      exact h.points q k' hk'
  · cases a <;> simp [pipeClient] at hret

theorem of_tableMove (h : PipeInv s) {op : Op} {pt : PTable} (hl : s.ptLock = none)
    (hop : pipeClient.allowed s op = true) (hnext : Sched.next s.pt op = some pt)
    (hm : pipeClient.TableMove s op pt t) : PipeInv t where
  locked := h.locked.of_tableMove hl hm
  parked := h.parked.of_tableMove hop (fun _ => rfl) hnext hm
  outside := h.outside.of_tableMove hm
  fifo := by
    cases hm <;> exact h.fifo
  points := by
    rw [hm.points_eq]
    cases hm <;> exact h.points

theorem refresh (h : PipeInv s) : PipeInv s.refresh where
  locked := ⟨h.locked.lock, h.locked.ptLock⟩
  parked := ⟨h.parked.parked, h.parked.fits⟩
  outside := h.outside
  fifo := h.fifo
  points p k hk := by
    have hok := h.points p k hk
    cases k with
    | copy n i => cases i <;> exact hok
    | copied n i => cases i <;> exact hok
    | full => exact hok
    | write | written | read | close | closed => exact trivial

theorem of_next (h : PipeInv s) {l : Label PipeCall} (hstep : pipeNext s l = some t) :
    PipeInv t := by
  obtain ⟨u, hu, rfl⟩ := Option.map_eq_some_iff.1 hstep
  apply PipeInv.refresh
  cases l with
  | call p a =>
    obtain ⟨_, hu⟩ := Option.ite_none_right_eq_some.1 hu
    exact h.of_start hu
  | step p =>
    obtain ⟨_, hu⟩ := Option.ite_none_right_eq_some.1 hu
    exact h.of_move (.of_advance hu)
  | table op =>
    obtain ⟨hop, hu⟩ := Option.ite_none_right_eq_some.1 hu
    obtain ⟨hl, pt, hnext, hm⟩ := Client.TableMove.of_tableStep hu
    exact h.of_tableMove hl hop hnext hm

theorem boot (data : Nat → UInt8) : PipeInv (Client.boot (.alloc data)) where
  locked := ⟨by simp [Client.boot, Pc.holdsLock], by simp [Client.boot, Pc.holdsPtLock]⟩
  parked := ⟨by simp [Client.boot, SleepsOn, PTable.boot, Proc.zero],
    by simp [Client.boot, Pc.sleeping]⟩
  outside x k hk := by simp [Client.boot, Pc.point] at hk
  fifo := ⟨[], RingBuffer.carries_nil (by decide) data, rfl⟩
  points p k hk := by simp [State.points, Client.boot, Pc.point] at hk

end PipeInv

theorem Reach.pipeInv {data : Nat → UInt8} {s : PipeState} {ok : PipeState → Label PipeCall → Prop}
    (h : (pipeMachine data).Reach ok s) : PipeInv s := by
  apply Machine.Reach.invariant (I := PipeInv) _ _ h
  · rintro t rfl
    exact .boot data
  · intro t l u ht _ hstep
    exact ht.of_next hstep

def PipePoint.reads : PipePoint → Option Int
  | .read n | .copy n _ | .copied n _ => some n
  | _ => none

/-- In every run the buffer holds no more than `PIPESIZE` bytes by its counters, readers
have got a beginning of what writers have stored, and a `piperead` that was asked for
bytes returns 0 only at the end of a closed pipe. -/
theorem pipe_fifo {data : Nat → UInt8} {s : PipeState} (h : (pipeMachine data).Reachable s) :
    (s.data.nwrite + 2 ^ 32 - s.data.nread) % 2 ^ 32 ≤ PIPESIZE ∧
    s.data.delivered <+: s.data.stored ∧
    ∀ p k n d, s.pc p = .crit k → k.reads = some n → 0 < n →
      pipeClient.body k p s.data = .release d 0 →
      s.data.writeopen = false ∧ s.data.delivered = s.data.stored := by
  have hinv := Reach.pipeInv h
  obtain ⟨hcount, hprefix⟩ := hinv.fifo.prefix_stored
  refine ⟨hcount, hprefix, fun p k n d hpc hreads hn hret => ?_⟩
  have hok := hinv.points p k (by simp [State.points, hpc, Pc.point])
  cases k with
  | write | full | written | close | closed => simp [PipePoint.reads] at hreads
  | read m =>
    simp only [pipeClient, pipereadBody] at hret
    split_ifs at hret
    simp at hret
  | copy m i =>
    simp only [pipeClient, pipereadCopy] at hret
    split_ifs at hret
  | copied m i =>
    obtain rfl : m = n := by simpa [PipePoint.reads] using hreads
    obtain ⟨_, hi⟩ := Next.release.inj hret
    obtain rfl : i = 0 := by simpa using hi
    obtain ⟨hempty, hclosed⟩ := hok hn
    exact ⟨hclosed, (hinv.fifo.eq_of_isEmpty hempty).symm⟩

/-- `init` writes two bytes, its child reads them, `init` closes the write end and the
child is told that this was all. -/
def twoBytes : List (Label PipeCall) :=
  let init : Slot := ⟨0, Sched.zero_lt_NPROC⟩
  let child : Slot := ⟨1, Sched.one_lt_NPROC⟩
  [.table .userinit, .table .scheduler, .call init (.pipewrite [7, 9] 2)] ++
    List.replicate 8 (.step init) ++ [.table (.fork init true true), .table .scheduler,
    .call child (.piperead 4)] ++ List.replicate 9 (.step child) ++
    [.call init (.pipeclose true)] ++ List.replicate 6 (.step init) ++
    [.call child (.piperead 4)] ++ List.replicate 6 (.step child)

theorem pipe_fifo_two_bytes :
    ∃ s, Machine.runList pipeNext (Client.boot (.alloc fun _ => 0)) twoBytes = some s ∧
      s.pc ⟨1, by decide⟩ = .crit (.copied 4 0) ∧ s.data.delivered = [7, 9] ∧
      s.data.writeopen = false ∧ s.data.delivered = s.data.stored := by
  have hdec : (Machine.runList pipeNext (Client.boot (.alloc fun _ => 0)) twoBytes).any
      (fun s => s.pc ⟨1, by decide⟩ = .crit (.copied 4 0) ∧ s.data.delivered = [7, 9]) = true := by
    decide +kernel
  obtain ⟨s, hs, hgoal⟩ := (Option.any_eq_true _ _).1 hdec
  obtain ⟨hpc, hbytes⟩ := by simpa using hgoal
  have hreach : (pipeMachine fun _ => 0).Reachable s :=
    Machine.reachable_of_runList twoBytes (.init rfl) hs
  have hend := (pipe_fifo hreach).2.2 ⟨1, by decide⟩ _ 4 s.data hpc rfl (by decide) rfl
  exact ⟨s, hs, hpc, hbytes, hend⟩

end Xv6.Sync
