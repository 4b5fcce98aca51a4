import Xv6.Sched.Runs

/-!
# The order of dispatch

The operations of the table are compositions of a few that touch the queue: `makerunnable`, which
appends, a turn of `scheduler`, which takes the first, and writes that the lists do not depend on.
A run of these remembers when each process was last made runnable.
-/

namespace Xv6.Sched

open Xv6.Lib

/-! ## Queue operations -/

inductive QueueOp
  | makerunnable (p : Slot) (priority : Int)
  | scheduler
  /-- Any other write of a process record. -/
  | write (p : Slot) (r : Proc)
  | globals (initproc : Option Slot) (nextpid : Int)

/-- The writes that leave the lists alone: of a process that is not runnable, or of fields that
the lists do not depend on. -/
def Writable (r r' : Proc) : Prop :=
  r.state ≠ .RUNNABLE ∧ r'.state ≠ .RUNNABLE ∨
    r'.state = r.state ∧ r'.priority = r.priority ∧ r'.next = r.next

instance (r r' : Proc) : Decidable (Writable r r') := inferInstanceAs (Decidable (_ ∨ _))

def QueueOp.apply (s : PTable) : QueueOp → Option PTable
  | .makerunnable p d => if (s.proc p).state ≠ .RUNNABLE then some (s.makerunnable p d) else none
  | .scheduler => some s.scheduler
  | .write p r => if Writable (s.proc p) r then some (s.setProc p r) else none
  | .globals initproc nextpid => some { s with initproc := initproc, nextpid := nextpid }

/-- A table with the times at which its processes were made runnable. -/
structure Timed where
  table : PTable
  clock : Nat
  stamp : Slot → Nat

namespace Timed

def stamped (x : Timed) : QueueOp → Slot → Nat
  | .makerunnable p _ => Function.update x.stamp p x.clock
  | _ => x.stamp

def next (x : Timed) (op : QueueOp) : Option Timed :=
  (op.apply x.table).map fun t => ⟨t, x.clock + 1, x.stamped op⟩

def boot : Timed := ⟨.boot, 0, fun _ => 0⟩

end Timed

def queueMachine : Machine Timed QueueOp := .ofFun .boot Timed.next

/-! ## Every operation of the table is made of queue operations -/

def Composed : PTable → PTable → Prop :=
  Relation.ReflTransGen fun s t => ∃ op, QueueOp.apply s op = some t

namespace Composed

variable {s t u : PTable} {p : Slot}

theorem refl (s : PTable) : Composed s s := Relation.ReflTransGen.refl

theorem trans (h : Composed s t) (h' : Composed t u) : Composed s u :=
  Relation.ReflTransGen.trans h h'

theorem makerunnable (hp : (s.proc p).state ≠ .RUNNABLE) (d : Int) :
    Composed s (s.makerunnable p d) :=
  .single ⟨.makerunnable p d, if_pos hp⟩

theorem scheduler (s : PTable) : Composed s s.scheduler := .single ⟨.scheduler, rfl⟩

theorem globals (s : PTable) (i : Option Slot) (n : Int) :
    Composed s { s with initproc := i, nextpid := n } :=
  .single ⟨.globals i n, rfl⟩

theorem write {r : Proc} (hp : (s.proc p).state ≠ .RUNNABLE) (hr : r.state ≠ .RUNNABLE) :
    Composed s (s.setProc p r) :=
  .single ⟨.write p r, if_pos (.inl ⟨hp, hr⟩)⟩

theorem touch {r : Proc} (hstate : r.state = (s.proc p).state)
    (hprio : r.priority = (s.proc p).priority) (hnext : r.next = (s.proc p).next) :
    Composed s (s.setProc p r) :=
  .single ⟨.write p r, if_pos (.inr ⟨hstate, hprio, hnext⟩)⟩

theorem foldl {f : PTable → Slot → PTable} (hf : ∀ s p, Composed s (f s p)) (l : List Slot)
    (s : PTable) : Composed s (l.foldl f s) := by
  induction l generalizing s with
  | nil => exact refl s
  | cons p l ih => exact (hf s p).trans (ih (f s p))

theorem wakeup1 (s : PTable) (c : Option Chan) : Composed s (s.wakeup1 c) := by
  refine foldl (fun s p => ?_) _ s
  unfold PTable.wakeupOne
  split_ifs with hc
  · exact makerunnable (by simp [hc.1]) (-1)
  · exact refl s

theorem abandonOne (s : PTable) (p c : Slot) : Composed s (PTable.abandonOne p s c) := by
  have hset : Composed s (s.setProc c { s.proc c with parent := s.initproc }) :=
    touch rfl rfl rfl
  unfold PTable.abandonOne
  simp only
  split_ifs
  · exact hset.trans (wakeup1 _ _)
  · exact hset
  · exact refl s

theorem exit (hp : (s.proc p).state = .RUNNING) (ht : s.exit p = some t) : Composed s t := by
  have hinit : s.initproc ≠ some p := by
    intro hinit
    simp [PTable.exit, hinit] at ht
  rw [exit_eq hinit] at ht
  obtain rfl := Option.some.inj ht
  have hpassed : Composed s (passedOn s p) :=
    (wakeup1 s _).trans (foldl (fun s c => abandonOne s p c) _ _)
  have hrun := passedOn_state hp
  generalize passedOn s p = u at hpassed hrun ⊢
  exact hpassed.trans (write (by simp [hrun]) (by simp))

theorem sleep (hp : (s.proc p).state = .RUNNING) (c : Chan) : Composed s (s.sleep p c) :=
  write (by simp [hp]) (by simp)

theorem wait (hp : (s.proc p).state = .RUNNING) : Composed s (s.wait p).1 := by
  unfold PTable.wait
  split
  · rename_i z hfind
    have hz : (s.proc z).parent = some p ∧ (s.proc z).state = .ZOMBIE := by
      simpa using List.find?_some hfind
    exact write (by simp [hz.2]) (by simp)
  · simp only
    split_ifs
    · exact refl s
    · exact sleep hp _

theorem yield (hp : (s.proc p).state = .RUNNING) : Composed s (s.yield p) := by
  rw [yield_eq]
  refine (write (by simp [hp]) ?_).trans (makerunnable ?_ 1)
  · simp [hp]
  · simp [hp]

theorem kill (s : PTable) (pid : Int) : Composed s (s.kill pid).1 := by
  unfold PTable.kill
  split
  · exact refl s
  · rename_i p _
    have hmark : Composed s (s.setProc p { s.proc p with killed := true }) := touch rfl rfl rfl
    simp only [PTable.setProc_same]
    split_ifs with hsleep
    · exact hmark.trans (makerunnable (by simp [hsleep]) 0)
    · exact hmark

theorem allocproc (s : PTable) (kstack : Bool) : Composed s (s.allocproc kstack).1 ∧
    ∀ p, (s.allocproc kstack).2 = some p →
      ((s.allocproc kstack).1.proc p).state = .EMBRYO := by
  unfold PTable.allocproc
  split
  · exact ⟨refl s, by simp⟩
  · rename_i p hfind
    have hp := find_unused hfind
    have hembryo : Composed s (s.setProc p
        { s.proc p with state := .EMBRYO, pid := s.nextpid }) :=
      write (by simp [hp]) (by simp)
    have hnext := hembryo.trans (globals _ s.initproc (s.nextpid + 1))
    have hprio := hnext.trans (write (p := p)
      (r := { s.proc p with state := .EMBRYO, pid := s.nextpid, priority := 0 })
      (by simp) (by simp))
    cases kstack
    · refine ⟨?_, by simp⟩
      simpa using hprio.trans (write (p := p)
        (r := { s.proc p with state := .UNUSED, pid := s.nextpid, priority := 0 })
        (by simp) (by simp))
    · exact ⟨by simpa using hprio, by simp⟩

theorem userinit (ht : s.userinit = some t) : Composed s t := by
  obtain ⟨halloc, hembryo⟩ := allocproc s true
  unfold PTable.userinit at ht
  split at ht
  · cases ht
  · rename_i u p heq
    obtain rfl := Option.some.inj ht
    rw [heq] at halloc hembryo
    have hinit := halloc.trans (globals u (some p) u.nextpid)
    exact hinit.trans (makerunnable (by simpa using ne_of_eq_of_ne (hembryo p rfl) (by simp)) 0)

theorem fork (s : PTable) (p : Slot) (kstack copied : Bool) :
    Composed s (s.fork p kstack copied).1 := by
  obtain ⟨halloc, hembryo⟩ := allocproc s kstack
  unfold PTable.fork
  split
  · rename_i u heq
    rwa [heq] at halloc
  · rename_i u np heq
    rw [heq] at halloc hembryo
    have hnp : (u.proc np).state = .EMBRYO := hembryo np rfl
    split_ifs
    · have hparent := halloc.trans (touch (p := np)
        (r := { u.proc np with parent := some p }) rfl rfl rfl)
      exact hparent.trans (makerunnable (by simp [hnp]) 0)
    · exact halloc.trans (write (by simp [hnp]) (by simp))

theorem of_next {op : Op} (ht : next s op = some t) : Composed s t := by
  unfold Sched.next at ht
  split_ifs at ht with hrun
  cases op with
  | userinit =>
    simp only [Op.apply, Option.ite_none_right_eq_some] at ht
    exact .userinit ht.2
  | fork p kstack copied =>
    obtain rfl := Option.some.inj ht
    exact .fork s p kstack copied
  | scheduler =>
    obtain rfl := Option.some.inj ht
    exact .scheduler s
  | yield p =>
    obtain rfl := Option.some.inj ht
    exact .yield (hrun p rfl)
  | sleep p chan =>
    obtain rfl := Option.some.inj ht
    exact .sleep (hrun p rfl) chan
  | wakeup chan =>
    obtain rfl := Option.some.inj ht
    exact .wakeup1 s _
  | kill pid =>
    obtain rfl := Option.some.inj ht
    exact .kill s pid
  | exit p => exact .exit (hrun p rfl) ht
  | wait p =>
    obtain rfl := Option.some.inj ht
    exact .wait (hrun p rfl)
  | setPriority p pr =>
    obtain rfl := Option.some.inj ht
    have hp := hrun p rfl
    exact .write (by simp [hp]) (by simp [hp])

theorem timed (h : Composed s t) {x : Timed} (hx : queueMachine.Reachable x)
    (hs : x.table = s) : ∃ y, queueMachine.Reachable y ∧ y.table = t := by
  induction h with
  | refl => exact ⟨x, hx, hs⟩
  | tail _ hstep ih =>
    obtain ⟨y, hy, rfl⟩ := ih
    obtain ⟨op, hop⟩ := hstep
    exact ⟨_, .step hy trivial (Option.map_eq_some_iff.2 ⟨_, hop, rfl⟩), rfl⟩

end Composed

theorem exists_timed {s : PTable} (h : machine.Reachable s) :
    ∃ x, queueMachine.Reachable x ∧ x.table = s := by
  refine Machine.Reach.invariant
    (I := fun s => ∃ x, queueMachine.Reachable x ∧ x.table = s) ?_ ?_ h
  · rintro s rfl
    exact ⟨_, .init rfl, rfl⟩
  · rintro s op t ⟨x, hx, hs⟩ _ ht
    exact (Composed.of_next ht).timed hx hs

/-! ## First come, first served -/

/-- The lists `q` are those of the table, each in the order in which its processes came. -/
structure Ordered (x : Timed) (q : Nat → List Slot) : Prop where
  rep : QueueRep x.table q
  order : ∀ i < MLF_LEVELS, (q i).Pairwise fun a b => x.stamp a < x.stamp b
  past : ∀ i < MLF_LEVELS, ∀ p ∈ q i, x.stamp p < x.clock

theorem pushAt_eq (q : Nat → List Slot) (p : Slot) (pr : Int) (i : Nat) :
    pushAt q p pr i = q i ∨ pushAt q p pr i = q i ++ [p] := by
  unfold pushAt
  split_ifs
  · by_cases hi : i = pr.toNat
    · subst hi
      exact .inr (Function.update_self ..)
    · exact .inl (Function.update_of_ne hi ..)
  · exact .inl rfl

namespace Ordered

variable {x : Timed} {q : Nat → List Slot} {p : Slot}

theorem sublist {q' : Nat → List Slot} {t : PTable} (h : Ordered x q) (hrep : QueueRep t q')
    (hsub : ∀ i, (q' i).Sublist (q i)) : Ordered ⟨t, x.clock + 1, x.stamp⟩ q' where
  rep := hrep
  order i hi := (h.order i hi).sublist (hsub i)
  past i hi y hy := Nat.lt_succ_of_lt (h.past i hi y ((hsub i).subset hy))

theorem makerunnable (h : Ordered x q) (hp : (x.table.proc p).state ≠ .RUNNABLE) (d : Int) :
    ∃ q', Ordered ⟨x.table.makerunnable p d, x.clock + 1,
      Function.update x.stamp p x.clock⟩ q' := by
  have hoff := h.rep.offQueue hp
  have hrep := (h.rep.setProc hoff
    { x.table.proc p with
      priority := PTable.adjustPriority d (x.table.proc p).priority
      state := .RUNNABLE }).enqueue (p := p) (by simp) hoff
  -- the stamps of those who wait are old, and that of `p` is the present
  have hold : ∀ i < MLF_LEVELS, ∀ y ∈ q i,
      Function.update x.stamp p x.clock y = x.stamp y := by
    intro i hi y hy
    refine Function.update_of_ne ?_ _ _
    rintro rfl
    exact hoff i hi hy
  have hlist : ∀ i < MLF_LEVELS, (q i).Pairwise (fun a b =>
      Function.update x.stamp p x.clock a < Function.update x.stamp p x.clock b) := by
    intro i hi
    refine (h.order i hi).imp_of_mem fun {a b} ha hb hab => ?_
    rwa [hold i hi a ha, hold i hi b hb]
  refine ⟨_, hrep, fun i hi => ?_, fun i hi y hy => ?_⟩
  · rcases pushAt_eq q p _ i with heq | heq
    · rw [heq]
      exact hlist i hi
    · rw [heq, List.pairwise_append]
      refine ⟨hlist i hi, List.pairwise_singleton _ _, fun y hy z hz => ?_⟩
      simp only
      rw [List.mem_singleton.1 hz, hold i hi y hy, Function.update_self]
      exact h.past i hi y hy
  · by_cases hyp : y = p
    · rw [hyp]
      simp
    · have hmem : y ∈ q i := by
        rcases pushAt_eq q p (PTable.adjustPriority d (x.table.proc p).priority) i with heq | heq
        · rwa [PTable.setProc_same, heq] at hy
        · rw [PTable.setProc_same, heq] at hy
          simpa [hyp] using hy
      simp only
      rw [hold i hi y hmem]
      exact Nat.lt_succ_of_lt (h.past i hi y hmem)

end Ordered

theorem QueueRep.isempty_iff {s : PTable} {q : Nat → List Slot} (h : QueueRep s q) {i : Nat}
    (hi : i < MLF_LEVELS) : s.isempty i = true ↔ q i = [] := by
  rw [(h.chain i hi).eq_nil_iff, PTable.isempty, Option.isNone_iff_eq_none]

theorem QueueRep.congr_levels {s : PTable} {q q' : Nat → List Slot} (h : QueueRep s q)
    (hq : ∀ i < MLF_LEVELS, q' i = q i) : QueueRep s q' where
  chain i hi := hq i hi ▸ h.chain i hi
  last i hi := hq i hi ▸ h.last i hi
  nodup i hi := hq i hi ▸ h.nodup i hi
  member i hi := hq i hi ▸ h.member i hi

theorem QueueRep.scheduler {s : PTable} {q : Nat → List Slot} (h : QueueRep s q) :
    (s.scheduler = s) ∨ ∃ i p, i < MLF_LEVELS ∧ (∀ j < i, q j = []) ∧
      q i = p :: (q i).tail ∧ QueueRep s.scheduler (Function.update q i (q i).tail) ∧
      ∀ y, y ≠ p → SameButNext (s.scheduler.proc y) (s.proc y) := by
  unfold PTable.scheduler
  split
  · exact .inl rfl
  · rename_i i hi
    split
    · exact .inl rfl
    · rename_i t p hdeq
      obtain ⟨_, hlt, hbefore⟩ := List.find?_range_eq_some.1 hi
      have hlt : i < MLF_LEVELS := by simpa using hlt
      obtain ⟨hqi, hrep⟩ := h.dispatch hlt hdeq
        { t.proc p with state := .RUNNING, ticksProc := 0, chan := none }
      refine .inr ⟨i, p, hlt, fun j hj => ?_, hqi, hrep, fun y hy => ?_⟩
      · exact (h.isempty_iff (hj.trans hlt)).1 (by simpa using hbefore j hj)
      · rw [PTable.setProc_ne _ _ hy]
        exact dequeue_sameButNext hdeq y

theorem Ordered.next {x y : Timed} {op : QueueOp} {q : Nat → List Slot} (h : Ordered x q)
    (hy : x.next op = some y) : ∃ q', Ordered y q' := by
  obtain ⟨t, ht, rfl⟩ := Option.map_eq_some_iff.1 hy
  cases op with
  | makerunnable p d =>
    obtain ⟨hp, ht⟩ := Option.ite_none_right_eq_some.1 ht
    obtain rfl := Option.some.inj ht
    exact h.makerunnable hp d
  | scheduler =>
    obtain rfl := Option.some.inj ht
    rcases h.rep.scheduler with hsame | ⟨i, p, hi, _, hqi, hrep, _⟩
    · rw [hsame]
      exact ⟨q, h.sublist h.rep fun _ => List.Sublist.refl _⟩
    · refine ⟨_, h.sublist hrep fun j => ?_⟩
      by_cases hji : j = i
      · subst hji
        rw [Function.update_self]
        exact List.tail_sublist _
      · rw [Function.update_of_ne hji]
  | write p r =>
    obtain ⟨hw, ht⟩ := Option.ite_none_right_eq_some.1 ht
    obtain rfl := Option.some.inj ht
    refine ⟨q, h.sublist ?_ fun _ => List.Sublist.refl _⟩
    rcases hw with ⟨hp, _⟩ | ⟨hstate, hprio, hnext⟩
    · exact h.rep.setProc (h.rep.offQueue hp) r
    · exact h.rep.touch hstate hprio hnext
  | globals i n =>
    obtain rfl := Option.some.inj ht
    exact ⟨q, h.sublist (h.rep.congr rfl fun _ _ => rfl) fun _ => List.Sublist.refl _⟩

theorem Ordered.boot : Ordered .boot fun _ => [] := by
  refine ⟨⟨fun i _ => ?_, by simp, by simp, by simp⟩, by simp, by simp⟩
  simp [Timed.boot, PTable.boot, Lib.IsChain]

theorem ordered_of_reachable {x : Timed} (h : queueMachine.Reachable x) : ∃ q, Ordered x q := by
  refine Machine.Reach.invariant (I := fun x => ∃ q, Ordered x q) ?_ ?_ h
  · rintro x rfl
    exact ⟨_, Ordered.boot⟩
  · rintro x op y ⟨q, hq⟩ _ hy
    exact hq.next hy

/-- The process that the scheduler puts on a CPU has the least priority value of all who wait, came
first of those at its level, and is taken out of its list; the lists stay as they are otherwise. -/
theorem dispatch_order {x : Timed} (h : queueMachine.Reachable x) {p : Slot}
    (hp : (x.table.proc p).state ≠ .RUNNING)
    (hrun : (x.table.scheduler.proc p).state = .RUNNING) :
    ∃ q, QueueRep x.table q ∧ (∃ i < MLF_LEVELS, p ∈ q i) ∧
      (∀ i < MLF_LEVELS, ∀ y ∈ q i,
        (x.table.proc p).priority ≤ (x.table.proc y).priority ∧
        (p ∈ q i → y ≠ p → x.stamp p < x.stamp y)) ∧
      QueueRep x.table.scheduler fun i => (q i).erase p := by
  obtain ⟨q, hq⟩ := ordered_of_reachable h
  rcases hq.rep.scheduler with hsame | ⟨i, z, hi, hbefore, hqi, hrep, hother⟩
  · rw [hsame] at hrun
    exact absurd hrun hp
  · -- nobody else is put on a CPU
    obtain rfl : p = z := by
      by_contra hpz
      rw [(hother p hpz).state_eq] at hrun
      exact hp hrun
    have hmem : p ∈ q i := hqi ▸ List.mem_cons_self
    have hlevel : ∀ j < MLF_LEVELS, p ∈ q j → j = i := by
      intro j hj hpj
      by_contra hji
      exact hq.rep.disjoint hi hj (Ne.symm hji) hmem hpj
    refine ⟨q, hq.rep, ⟨i, hi, hmem⟩, fun j hj y hy => ⟨?_, fun hpj hyp => ?_⟩, ?_⟩
    · rw [(hq.rep.member i hi p hmem).2, (hq.rep.member j hj y hy).2]
      have hle : i ≤ j := by
        by_contra hlt
        rw [hbefore j (by omega)] at hy
        cases hy
      exact_mod_cast hle
    · obtain rfl := hlevel j hj hpj
      have horder := hq.order j hj
      rw [hqi] at horder hy
      exact (List.pairwise_cons.1 horder).1 y ((List.mem_cons.1 hy).resolve_left hyp)
    · refine hrep.congr_levels fun j hj => ?_
      by_cases hji : j = i
      · subst hji
        rw [Function.update_self, hqi, List.erase_cons_head, List.tail_cons]
      · rw [Function.update_of_ne hji, List.erase_of_not_mem fun hpj => hji (hlevel j hj hpj)]

/-- `init` comes first, its child second. -/
theorem dispatch_order_init : ∃ x, queueMachine.Reachable x ∧
    (x.table.scheduler.proc initSlot).state = .RUNNING ∧
    x.stamp initSlot < x.stamp ⟨1, by decide⟩ ∧ ∃ q, QueueRep x.table q ∧
      QueueRep x.table.scheduler fun i => (q i).erase initSlot := by
  have hdec : (Machine.runList Timed.next .boot
      [.makerunnable initSlot 0, .makerunnable ⟨1, by decide⟩ 0]).any (fun x =>
        (x.table.proc initSlot).state = .RUNNABLE ∧
          (x.table.scheduler.proc initSlot).state = .RUNNING ∧
            x.stamp initSlot < x.stamp ⟨1, by decide⟩) = true := by
    decide +kernel
  obtain ⟨x, hx, hobs⟩ := (Option.any_eq_true _ _).1 hdec
  obtain ⟨hstate, hrun, hstamp⟩ := of_decide_eq_true hobs
  have hreach : queueMachine.Reachable x := Machine.reachable_of_runList _ (.init rfl) hx
  obtain ⟨q, hrep, _, _, hrep'⟩ := dispatch_order hreach (p := initSlot) (by simp [hstate]) hrun
  exact ⟨x, hreach, hrun, hstamp, q, hrep, hrep'⟩

end Xv6.Sched
