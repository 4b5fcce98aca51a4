import Xv6.Sched.Reaping

/-!
# Pids and `kill`

`kill` goes through the slots of `ptable.proc` and compares pids without a look at the state.
A free slot has pid `0`, or after a failed `fork` the pid of a process that was never started,
and its mark stays until a process in the slot is waited for.
-/

namespace Xv6.Sched

open Xv6.Lib

/-! ## Steps that give no pid and mark nobody -/

theorem SameButNext.pid_eq {a b : Proc} (h : SameButNext a b) : a.pid = b.pid := by
  have := congrArg Proc.pid h
  simpa using this

theorem SameButNext.killed_eq {a b : Proc} (h : SameButNext a b) : a.killed = b.killed := by
  have := congrArg Proc.killed h
  simpa using this

theorem enqueue_nextpid (s : PTable) (p : Slot) : (s.enqueue p).nextpid = s.nextpid := by
  unfold PTable.enqueue
  simp only
  split_ifs
  · split <;> rfl
  · rfl

structure SameIds (s t : PTable) : Prop where
  pid : ∀ x, (t.proc x).pid = (s.proc x).pid
  killed : ∀ x, (t.proc x).killed = (s.proc x).killed
  nextpid : t.nextpid = s.nextpid

namespace SameIds

variable {s t u : PTable} {p : Slot}

theorem refl (s : PTable) : SameIds s s := ⟨fun _ => rfl, fun _ => rfl, rfl⟩

theorem trans (h : SameIds s t) (h' : SameIds t u) : SameIds s u where
  pid x := (h'.pid x).trans (h.pid x)
  killed x := (h'.killed x).trans (h.killed x)
  nextpid := h'.nextpid.trans h.nextpid

theorem of_sameButNext (h : ∀ x, SameButNext (t.proc x) (s.proc x))
    (hnext : t.nextpid = s.nextpid) : SameIds s t :=
  ⟨fun x => (h x).pid_eq, fun x => (h x).killed_eq, hnext⟩

theorem setProc {r : Proc} (hpid : r.pid = (s.proc p).pid)
    (hkilled : r.killed = (s.proc p).killed) : SameIds s (s.setProc p r) := by
  refine ⟨fun x => ?_, fun x => ?_, rfl⟩ <;> by_cases hx : x = p
  · rw [hx, PTable.setProc_same, hpid]
  · rw [PTable.setProc_ne _ _ hx]
  · rw [hx, PTable.setProc_same, hkilled]
  · rw [PTable.setProc_ne _ _ hx]

theorem makerunnable (s : PTable) (p : Slot) (d : Int) : SameIds s (s.makerunnable p d) := by
  have hset : SameIds s (s.setProc p { s.proc p with
      priority := PTable.adjustPriority d (s.proc p).priority, state := .RUNNABLE }) :=
    setProc rfl rfl
  exact hset.trans
    (of_sameButNext (fun x => enqueue_sameButNext _ p x) (enqueue_nextpid _ p))

theorem foldl {f : PTable → Slot → PTable} (hf : ∀ s p, SameIds s (f s p)) (l : List Slot)
    (s : PTable) : SameIds s (l.foldl f s) := by
  induction l generalizing s with
  | nil => exact refl s
  | cons p l ih => exact (hf s p).trans (ih (f s p))

theorem wakeup1 (s : PTable) (c : Option Chan) : SameIds s (s.wakeup1 c) := by
  refine foldl (fun s p => ?_) _ s
  unfold PTable.wakeupOne
  split_ifs
  · exact makerunnable s p (-1)
  · exact refl s

theorem abandonOne (s : PTable) (p c : Slot) : SameIds s (PTable.abandonOne p s c) := by
  have hset : SameIds s (s.setProc c { s.proc c with parent := s.initproc }) := setProc rfl rfl
  unfold PTable.abandonOne
  simp only
  split_ifs
  · exact hset.trans (wakeup1 _ _)
  · exact hset
  · exact refl s

theorem exit (h : s.exit p = some t) : SameIds s t := by
  have hinit : s.initproc ≠ some p := by
    intro hinit
    simp [PTable.exit, hinit] at h
  rw [exit_eq hinit] at h
  obtain rfl := Option.some.inj h
  have hpassed : SameIds s (passedOn s p) :=
    (wakeup1 s _).trans (foldl (fun s c => abandonOne s p c) _ _)
  generalize passedOn s p = u at hpassed ⊢
  exact hpassed.trans (setProc rfl rfl)

theorem sleep (s : PTable) (p : Slot) (c : Chan) : SameIds s (s.sleep p c) := setProc rfl rfl

theorem yield (s : PTable) (p : Slot) : SameIds s (s.yield p) := by
  rw [yield_eq]
  have hlower : SameIds s (s.setProc p { s.proc p with
      priority := if (s.proc p).priority < 3 then (s.proc p).priority + 1
        else (s.proc p).priority }) :=
    setProc rfl rfl
  exact hlower.trans (makerunnable _ p 1)

theorem scheduler (s : PTable) : SameIds s s.scheduler := by
  unfold PTable.scheduler
  split
  · exact refl s
  · split
    · exact refl s
    · rename_i t p hdeq
      have htaken : SameIds s t := by
        unfold PTable.dequeue at hdeq
        split at hdeq
        · cases hdeq
        · rename_i f _
          obtain ⟨rfl, rfl⟩ := Prod.mk.inj (Option.some.inj hdeq)
          exact of_sameButNext (fun x => sameButNext_setProc_next _ f x none) rfl
      exact htaken.trans (setProc rfl rfl)

theorem sysSetPriority (s : PTable) (p : Slot) (pr : Int) :
    SameIds s (s.sysSetPriority p pr) := setProc rfl rfl

end SameIds

/-! ## `kill` -/

def PTable.killTarget (s : PTable) (pid : Int) : Option Slot :=
  (List.finRange NPROC).find? fun p => (s.proc p).pid = pid

section Target

variable {s : PTable} {pid : Int} {x : Slot}

theorem pid_of_killTarget (h : s.killTarget pid = some x) : (s.proc x).pid = pid := by
  simpa using List.find?_some h

theorem killTarget_eq_none : s.killTarget pid = none ↔ ∀ x, (s.proc x).pid ≠ pid := by
  simp [PTable.killTarget]

theorem kill_of_none (h : s.killTarget pid = none) : s.kill pid = (s, -1) := by
  unfold PTable.killTarget at h
  unfold PTable.kill
  rw [h]

theorem kill_of_some (h : s.killTarget pid = some x) :
    (s.kill pid).2 = 0 ∧
      SameIds (s.setProc x { s.proc x with killed := true }) (s.kill pid).1 := by
  unfold PTable.killTarget at h
  unfold PTable.kill
  rw [h]
  simp only
  split_ifs
  · exact ⟨rfl, .makerunnable _ x 0⟩
  · exact ⟨rfl, .refl _⟩

theorem kill_pid (s : PTable) (pid : Int) (y : Slot) :
    ((s.kill pid).1.proc y).pid = (s.proc y).pid := by
  cases h : s.killTarget pid with
  | none => rw [kill_of_none h]
  | some x =>
    rw [(kill_of_some h).2.pid]
    by_cases hy : y = x
    · rw [hy, PTable.setProc_same]
    · rw [PTable.setProc_ne _ _ hy]

theorem kill_nextpid (s : PTable) (pid : Int) : (s.kill pid).1.nextpid = s.nextpid := by
  cases h : s.killTarget pid with
  | none => rw [kill_of_none h]
  | some x => exact (kill_of_some h).2.nextpid

theorem kill_killed (s : PTable) (pid : Int) (y : Slot) :
    ((s.kill pid).1.proc y).killed = true ↔
      (s.proc y).killed = true ∨ s.killTarget pid = some y := by
  cases h : s.killTarget pid with
  | none => simp [kill_of_none h]
  | some x =>
    rw [(kill_of_some h).2.killed]
    by_cases hy : y = x
    · simp [hy]
    · simp [hy, Ne.symm hy]

end Target

section Marks

variable {s t : PTable} {op : Op} {x : Slot}

theorem allocproc_killed (s : PTable) (kstack : Bool) (x : Slot) :
    ((s.allocproc kstack).1.proc x).killed = (s.proc x).killed := by
  unfold PTable.allocproc
  split
  · rfl
  · rename_i p _
    by_cases hx : x = p
    · cases kstack <;> simp [hx]
    · cases kstack <;> simp [hx]

theorem userinit_killed (ht : s.userinit = some t) : (t.proc x).killed = (s.proc x).killed := by
  have halloc := allocproc_killed s true x
  unfold PTable.userinit at ht
  split at ht
  · cases ht
  · rename_i u p heq
    obtain rfl := Option.some.inj ht
    rw [heq] at halloc
    exact ((SameIds.makerunnable _ p 0).killed x).trans halloc

theorem fork_killed (s : PTable) (p : Slot) (kstack copied : Bool) (x : Slot) :
    ((s.fork p kstack copied).1.proc x).killed = (s.proc x).killed := by
  have halloc := allocproc_killed s kstack x
  unfold PTable.fork
  split
  · rename_i u heq
    rwa [heq] at halloc
  · rename_i u np heq
    rw [heq] at halloc
    have hset : ∀ r, r.pid = (u.proc np).pid → r.killed = (u.proc np).killed →
        ((u.setProc np r).proc x).killed = (s.proc x).killed :=
      fun r hpid hkilled => ((SameIds.setProc hpid hkilled).killed x).trans halloc
    split_ifs
    · exact ((SameIds.makerunnable _ np 0).killed x).trans (hset _ rfl rfl)
    · exact hset _ rfl rfl

theorem killed_of_next (ht : next s op = some t) (hx : (t.proc x).killed = true) :
    (s.proc x).killed = true ∨ ∃ pid, op = .kill pid ∧ s.killTarget pid = some x := by
  have hsame : SameIds s t → (s.proc x).killed = true ∨
      ∃ pid, op = .kill pid ∧ s.killTarget pid = some x := fun h => .inl (h.killed x ▸ hx)
  unfold next at ht
  split_ifs at ht
  cases op with
  | userinit =>
    simp only [Op.apply, Option.ite_none_right_eq_some] at ht
    exact .inl (userinit_killed ht.2 ▸ hx)
  | fork p kstack copied =>
    obtain rfl := Option.some.inj ht
    exact .inl (fork_killed s p kstack copied x ▸ hx)
  | scheduler =>
    obtain rfl := Option.some.inj ht
    exact hsame (.scheduler s)
  | yield p =>
    obtain rfl := Option.some.inj ht
    exact hsame (.yield s p)
  | sleep p chan =>
    obtain rfl := Option.some.inj ht
    exact hsame (.sleep s p chan)
  | wakeup chan =>
    obtain rfl := Option.some.inj ht
    exact hsame (.wakeup1 s _)
  | kill pid =>
    obtain rfl := Option.some.inj ht
    rcases (kill_killed s pid x).1 hx with hold | htarget
    · exact .inl hold
    · exact .inr ⟨pid, rfl, htarget⟩
  | exit p => exact hsame (.exit ht)
  | wait p =>
    obtain rfl := Option.some.inj ht
    cases hz : s.zombieChild p with
    | some z =>
      simp only [wait_of_zombieChild hz] at hx
      by_cases hxz : x = z
      · simp [hxz] at hx
      · exact .inl (by rwa [PTable.setProc_ne _ _ hxz] at hx)
    | none =>
      refine hsame ?_
      unfold PTable.zombieChild at hz
      unfold PTable.wait
      rw [hz]
      simp only
      split_ifs
      · exact .refl s
      · exact .sleep s p _
  | setPriority p pr =>
    obtain rfl := Option.some.inj ht
    exact hsame (.sysSetPriority s p pr)

end Marks

/-- What `kill(pid)` is for: to mark the live process with the pid, if there is one. -/
structure KillSpec (s : PTable) (pid : Int) : Prop where
  result : (s.kill pid).2 = 0 ↔ ∃ x, (s.proc x).state ≠ .UNUSED ∧ (s.proc x).pid = pid
  marks : ∀ x, (s.proc x).state ≠ .UNUSED → (s.proc x).pid = pid →
    ∀ y, ((s.kill pid).1.proc y).killed = true ↔ (s.proc y).killed = true ∨ y = x
  absent : (∀ x, (s.proc x).state ≠ .UNUSED → (s.proc x).pid ≠ pid) → s.kill pid = (s, -1)

/-! ## Pids are not shared -/

structure PidInv (s : PTable) : Prop where
  pos : ∀ x, (s.proc x).state ≠ .UNUSED → 0 < (s.proc x).pid
  lt : ∀ x, (s.proc x).pid < s.nextpid
  uniq : ∀ x y, 0 < (s.proc x).pid → (s.proc x).pid = (s.proc y).pid → x = y
  fresh : 0 < s.nextpid

namespace PidInv

variable {s t : PTable} {x : Slot}

theorem same (h : PidInv s) (hpid : ∀ x, (t.proc x).pid = (s.proc x).pid)
    (hnext : t.nextpid = s.nextpid)
    (hlive : ∀ x, (t.proc x).state ≠ .UNUSED → (s.proc x).state ≠ .UNUSED) : PidInv t := by
  constructor
  case pos => exact fun x hx => by rw [hpid]; exact h.pos x (hlive x hx)
  case lt => exact fun x => by rw [hpid, hnext]; exact h.lt x
  case uniq =>
    intro x y hx hxy
    rw [hpid] at hx
    rw [hpid, hpid] at hxy
    exact h.uniq x y hx hxy
  case fresh => rw [hnext]; exact h.fresh

theorem alloc (h : PidInv s) (hself : (t.proc x).pid = s.nextpid)
    (hother : ∀ y, y ≠ x → (t.proc y).pid = (s.proc y).pid ∧
      ((t.proc y).state ≠ .UNUSED → (s.proc y).state ≠ .UNUSED))
    (hnext : t.nextpid = s.nextpid + 1) : PidInv t := by
  have hfresh := h.fresh
  constructor
  case pos =>
    intro y hy
    by_cases hyx : y = x
    · rw [hyx, hself]
      exact hfresh
    · rw [(hother y hyx).1]
      exact h.pos y ((hother y hyx).2 hy)
  case lt =>
    intro y
    rw [hnext]
    by_cases hyx : y = x
    · rw [hyx, hself]
      omega
    · rw [(hother y hyx).1]
      have := h.lt y
      omega
  case uniq =>
    intro y z hy hyz
    by_cases hyx : y = x <;> by_cases hzx : z = x
    · rw [hyx, hzx]
    · rw [hyx, hself, (hother z hzx).1] at hyz
      exact absurd hyz (ne_of_gt (h.lt z))
    · rw [hzx, hself, (hother y hyx).1] at hyz
      exact absurd hyz (ne_of_lt (h.lt y))
    · rw [(hother y hyx).1] at hy hyz
      rw [(hother z hzx).1] at hyz
      exact h.uniq y z hy hyz
  case fresh => omega

theorem reap (h : PidInv s) {r : Proc} (hpid : r.pid = 0) (hr : r.state = .UNUSED) :
    PidInv (s.setProc x r) := by
  have hother : ∀ y, y ≠ x → (s.setProc x r).proc y = s.proc y := fun y hy =>
    PTable.setProc_ne _ _ hy
  have hself : (s.setProc x r).proc x = r := PTable.setProc_same _ _ _
  constructor
  case pos =>
    intro y hy
    by_cases hyx : y = x
    · rw [hyx, hself] at hy
      exact absurd hr hy
    · rw [hother y hyx] at hy ⊢
      exact h.pos y hy
  case lt =>
    intro y
    by_cases hyx : y = x
    · rw [hyx, hself, hpid]
      exact h.fresh
    · rw [hother y hyx]
      exact h.lt y
  case uniq =>
    intro y z hy hyz
    by_cases hyx : y = x
    · rw [hyx, hself, hpid] at hy
      omega
    by_cases hzx : z = x
    · rw [hzx, hself, hpid] at hyz
      omega
    · rw [hother y hyx] at hy hyz
      rw [hother z hzx] at hyz
      exact h.uniq y z hy hyz
  case fresh => exact h.fresh

theorem boot : PidInv .boot := by
  constructor <;> simp [PTable.boot, Proc.zero]

end PidInv

/-! ## Whole runs -/

theorem allocproc_ids {s t : PTable} {x : Slot} (h : s.allocproc true = (t, some x)) :
    (s.proc x).state = .UNUSED ∧ t.nextpid = s.nextpid + 1 ∧ (t.proc x).pid = s.nextpid ∧
      (t.proc x).killed = (s.proc x).killed ∧ ∀ y, y ≠ x → t.proc y = s.proc y := by
  unfold PTable.allocproc at h
  split at h
  · cases h
  · rename_i y hfind
    simp only [if_true, Prod.mk.injEq, Option.some.injEq] at h
    obtain ⟨rfl, rfl⟩ := h
    refine ⟨find_unused hfind, rfl, by simp, by simp, fun z hz => by simp [hz]⟩

/-- What an operation does to the pids and marks: it keeps them, `kill` marks, an unused slot is
given a pid, an embryo is given up or a zombie is reaped. -/
inductive Ids (s t : Family) : FamilyOp → Prop
  | same {op : FamilyOp} (hids : SameIds s.table t.table)
      (hfree : ∀ x, (t.table.proc x).state = .UNUSED ↔ (s.table.proc x).state = .UNUSED) :
      Ids s t op
  | kill {pid : Int} (ht : t.table = (s.table.kill pid).1) : Ids s t (.kill pid)
  | drop {p x : Slot} (hp : s.fork p = some (x, false))
      (ht : t.table = s.table.setProc x { s.table.proc x with state := .UNUSED }) :
      Ids s t (.giveUp p)
  | alloc {op : FamilyOp} {x : Slot} (hunused : (s.table.proc x).state = .UNUSED)
      (hused : (t.table.proc x).state ≠ .UNUSED)
      (hnext : t.table.nextpid = s.table.nextpid + 1)
      (hpid : (t.table.proc x).pid = s.table.nextpid)
      (hother : ∀ y, y ≠ x → SameButNext (t.table.proc y) (s.table.proc y)) : Ids s t op
  | reap {p x : Slot} (ht : t.table = s.table.setProc x
      { s.table.proc x with state := .UNUSED, pid := 0, parent := none, killed := false }) :
      Ids s t (.wait p)

section Ids

variable {s t : Family} {p : Slot} {op : FamilyOp}

theorem Ids.of_resched {u : PTable} (hids : SameIds s.table u) (hst : Resched s.table u) :
    Ids s { s with table := u } op :=
  .same hids fun _ => hst.state_eq_iff (.inr (.inl rfl))

theorem Ids.of_userinit (ht : s.apply .userinit = some t) : Ids s t .userinit := by
  simp only [Family.apply, Option.ite_none_right_eq_some] at ht
  obtain ⟨_, ht⟩ := ht
  split at ht
  · cases ht
  · rename_i u hu
    obtain ⟨x, hx, rfl⟩ := Option.map_eq_some_iff.1 ht
    unfold PTable.userinit at hu
    split at hu
    · cases hu
    · rename_i w y halloc
      obtain rfl := Option.some.inj hu
      obtain ⟨hunused, hnext, hpid, _, hother⟩ := allocproc_ids halloc
      have hids := SameIds.makerunnable { w with initproc := some y } y 0
      refine .alloc (x := y) hunused ?_ (hids.nextpid.trans hnext) ((hids.pid y).trans hpid) ?_
      · rw [Family.allocated, (makerunnable_self _ y 0).state_eq]
        simp
      · intro z hz
        have hsame := makerunnable_ne { w with initproc := some y } 0 hz
        rwa [show ({ w with initproc := some y } : PTable).proc z = s.table.proc z from
          hother z hz] at hsame

theorem Ids.of_allocproc (ht : s.apply (.allocproc p) = some t) : Ids s t (.allocproc p) := by
  simp only [Family.apply] at ht
  cases halloc : s.table.allocproc true with
  | mk u np =>
    rw [halloc] at ht
    cases np with
    | none =>
      obtain rfl := Option.some.inj ht
      obtain rfl := allocproc_none halloc
      exact .same (.refl _) fun _ => Iff.rfl
    | some np =>
      obtain rfl := Option.some.inj ht
      obtain ⟨hunused, hnext, hpid, _, hother⟩ := allocproc_ids halloc
      obtain ⟨_, r, hr, _, hst⟩ := allocproc_some halloc
      refine .alloc hunused ?_ hnext hpid fun y hy => ?_
      · have hembryo : (u.proc np).state = .EMBRYO :=
          (hst.state_eq_iff (.inr (.inr rfl))).2 (by rw [PTable.setProc_same, hr])
        show (u.proc np).state ≠ .UNUSED
        simp [hembryo]
      · show SameButNext (u.proc y) (s.table.proc y)
        rw [hother y hy]
        exact .refl _

theorem Ids.of_wait (hp : (s.table.proc p).state = .RUNNING)
    (ht : s.apply (.wait p) = some t) : Ids s t (.wait p) := by
  simp only [Family.apply] at ht
  cases hz : s.table.zombieChild p with
  | some x =>
    rw [wait_of_zombieChild hz, hz] at ht
    obtain rfl := Option.some.inj ht
    exact .reap rfl
  | none =>
    rw [hz] at ht
    obtain rfl := Option.some.inj ht
    have hsleep : Ids s { s with table := s.table.sleep p (.proc p) } (.wait p) := by
      refine .same (.sleep _ _ _) fun x => ?_
      by_cases hx : x = p
      · simp [PTable.sleep, hx, hp]
      · simp [PTable.sleep, hx]
    unfold PTable.zombieChild at hz
    unfold PTable.wait
    rw [hz]
    simp only
    split_ifs
    · exact .same (.refl _) fun _ => Iff.rfl
    · exact hsleep

theorem Ids.of_next (h : FamilyInv s) (ht : s.next op = some t) : Ids s t op := by
  obtain ⟨hallowed, ht⟩ := Family.next_eq_some.1 ht
  cases op with
  | userinit => exact .of_userinit ht
  | allocproc p => exact .of_allocproc ht
  | giveUp p =>
    simp only [Family.apply] at ht
    split at ht
    · rename_i np hp
      obtain rfl := Option.some.inj ht
      exact .drop hp rfl
    · cases ht
  | setParent p =>
    simp only [Family.apply] at ht
    split at ht
    · rename_i np hp
      obtain rfl := Option.some.inj ht
      refine .same (.setProc rfl rfl) fun x => ?_
      rw [show ∀ u, (Family.setFork u p (some (np, true))).table = u.table from fun _ => rfl,
        (setProc_parent_eq s.table np x (some p)).1]
    · cases ht
  | finish p =>
    simp only [Family.apply] at ht
    split at ht
    · rename_i np hp
      obtain rfl := Option.some.inj ht
      obtain ⟨hembryo, _⟩ := h.forks.embryo p np true hp
      refine .same (.makerunnable _ np 0) fun x => ?_
      show ((s.table.makerunnable np 0).proc x).state = _ ↔ _
      by_cases hx : x = np
      · rw [hx, (makerunnable_self _ np 0).state_eq, hembryo]
        simp
      · rw [(makerunnable_ne _ 0 hx).state_eq]
    · cases ht
  | scheduler =>
    obtain rfl := Option.some.inj ht
    exact .of_resched (.scheduler _) (.scheduler h.queue)
  | yield p =>
    obtain rfl := Option.some.inj ht
    exact .of_resched (.yield _ p) (.yield hallowed)
  | sleep p a =>
    obtain rfl := Option.some.inj ht
    exact .of_resched (.sleep _ p _) (.sleep hallowed.1 _ (by simp))
  | wakeup chan =>
    obtain rfl := Option.some.inj ht
    exact .of_resched (.wakeup1 _ _) (.wakeup1 _ _)
  | kill pid =>
    obtain rfl := Option.some.inj ht
    exact .kill rfl
  | exit p =>
    obtain ⟨u, hu, rfl⟩ := Option.map_eq_some_iff.1 ht
    have hexit := exited_of_exit hallowed.1 hu
    refine .same (.exit hu) fun x => ?_
    by_cases hx : x = p
    · rw [hx, hexit.zombie, hallowed.1]
      simp
    · exact hexit.state_eq_iff hx (.inr (.inl rfl))
  | wait p => exact .of_wait hallowed.1 ht
  | setPriority p pr =>
    obtain rfl := Option.some.inj ht
    exact .of_resched (.sysSetPriority _ p pr) (.sysSetPriority hallowed.1 pr)

theorem PidInv.next (h : PidInv s.table) (hids : Ids s t op) : PidInv t.table := by
  cases hids with
  | same hids hfree =>
    exact h.same hids.pid hids.nextpid fun x hx hs => hx ((hfree x).2 hs)
  | kill ht =>
    rw [ht]
    refine h.same (kill_pid _ _) (kill_nextpid _ _) fun x hx hs => hx ?_
    exact ((Resched.kill _ _).state_eq_iff (.inr (.inl rfl))).2 hs
  | @drop p x hp ht =>
    rw [ht]
    have hids : SameIds s.table
        (s.table.setProc x { s.table.proc x with state := .UNUSED }) := .setProc rfl rfl
    refine h.same hids.pid rfl fun y hy => ?_
    by_cases hyx : y = x
    · simp [hyx] at hy
    · rwa [PTable.setProc_ne _ _ hyx] at hy
  | alloc _ _ hnext hpid hother =>
    refine h.alloc hpid (fun y hy => ⟨(hother y hy).pid_eq, ?_⟩) hnext
    rw [(hother y hy).state_eq]
    exact id
  | reap ht =>
    rw [ht]
    exact h.reap rfl rfl

end Ids

theorem pidInv_of_reachable {s : Family} (h : familyMachine.Reachable s) : PidInv s.table := by
  refine Machine.Reach.invariant_of_reach (I := fun s => PidInv s.table) (fun s hs => ?_)
    (fun s op t hreach hs _ ht => ?_) h
  · obtain rfl := hs
    exact PidInv.boot
  · exact hs.next (.of_next (familyInv_of_reachable hreach) ht)

def PTable.NotFree (s : PTable) (pid : Int) : Prop :=
  ∀ x, (s.proc x).state = .UNUSED → (s.proc x).pid ≠ pid

instance (s : PTable) (pid : Int) : Decidable (s.NotFree pid) :=
  inferInstanceAs (Decidable (∀ _, _))

theorem killSpec_iff {s : PTable} (h : PidInv s) (pid : Int) : KillSpec s pid ↔ s.NotFree pid := by
  constructor
  · intro hspec x hx hpid
    have hnone : s.killTarget pid ≠ none := fun hnone => killTarget_eq_none.1 hnone x hpid
    obtain ⟨y, hy⟩ := Option.ne_none_iff_exists'.1 hnone
    obtain ⟨z, hz, hzpid⟩ := hspec.result.1 (kill_of_some hy).1
    -- the pid of a live process is its own
    have heq : z = x := h.uniq z x (h.pos z hz) (hzpid.trans hpid.symm)
    exact hz (heq ▸ hx)
  · intro hfree
    have hlive : ∀ x, (s.proc x).pid = pid → (s.proc x).state ≠ .UNUSED :=
      fun x hx hunused => hfree x hunused hx
    constructor
    case result =>
      cases hy : s.killTarget pid with
      | none =>
        rw [kill_of_none hy]
        simpa using fun x _ => killTarget_eq_none.1 hy x
      | some y =>
        have hpid := pid_of_killTarget hy
        exact iff_of_true (kill_of_some hy).1 ⟨y, hlive y hpid, hpid⟩
    case marks =>
      intro x hx hpid y
      have htarget : s.killTarget pid = some x := by
        cases hy : s.killTarget pid with
        | none => exact absurd hpid (killTarget_eq_none.1 hy x)
        | some y =>
          have heq := h.uniq x y (h.pos x hx) (hpid.trans (pid_of_killTarget hy).symm)
          rw [heq]
      rw [kill_killed, htarget, Option.some_inj, eq_comm (a := x)]
    case absent =>
      intro hnone
      exact kill_of_none (killTarget_eq_none.2 fun x hx => hnone x (hlive x hx) hx)

/-- No mark is put on a free slot, nor left on one by a `fork` that fails. -/
def LiveKills (s : Family) : FamilyOp → Prop
  | .kill pid => s.table.NotFree pid
  | .giveUp p => ∀ x, s.fork p = some (x, false) → (s.table.proc x).killed = false
  | _ => True

instance (s : Family) : (op : FamilyOp) → Decidable (LiveKills s op)
  | .kill pid => inferInstanceAs (Decidable (s.table.NotFree pid))
  | .giveUp _ => inferInstanceAs (Decidable (∀ _, _))
  | .userinit | .allocproc _ | .setParent _ | .finish _ | .scheduler | .yield _ | .sleep _ _
  | .wakeup _ | .exit _ | .wait _ | .setPriority _ _ => inferInstanceAs (Decidable True)

def FreeUnmarked (s : PTable) : Prop := ∀ x, (s.proc x).state = .UNUSED → (s.proc x).killed = false

theorem FreeUnmarked.next {s t : Family} {op : FamilyOp} (h : FreeUnmarked s.table)
    (hok : LiveKills s op) (hids : Ids s t op) : FreeUnmarked t.table := by
  intro x hx
  cases hids with
  | same hids hfree =>
    rw [hids.killed]
    exact h x ((hfree x).1 hx)
  | @kill pid ht =>
    rw [ht] at hx ⊢
    have hfree := ((Resched.kill s.table pid).state_eq_iff (.inr (.inl rfl))).1 hx
    by_contra hmarked
    rcases (kill_killed s.table pid x).1 (by simpa using hmarked) with hkilled | htarget
    · rw [h x hfree] at hkilled
      cases hkilled
    · exact hok x hfree (pid_of_killTarget htarget)
  | @drop p y hp ht =>
    rw [ht] at hx ⊢
    by_cases hxy : x = y
    · rw [hxy, PTable.setProc_same]
      exact hok y hp
    · rw [PTable.setProc_ne _ _ hxy] at hx ⊢
      exact h x hx
  | @alloc _ y _ hused _ _ hother =>
    have hxy : x ≠ y := by
      rintro rfl
      exact hused hx
    rw [(hother x hxy).state_eq] at hx
    rw [(hother x hxy).killed_eq]
    exact h x hx
  | @reap p y ht =>
    rw [ht] at hx ⊢
    by_cases hxy : x = y
    · rw [hxy, PTable.setProc_same]
    · rw [PTable.setProc_ne _ _ hxy] at hx ⊢
      exact h x hx

theorem freeUnmarked_of_reach {s : Family} (h : familyMachine.Reach LiveKills s) :
    FreeUnmarked s.table := by
  refine Machine.Reach.invariant_of_reach (I := fun s => FreeUnmarked s.table) (fun s hs => ?_)
    (fun s op t hreach hs hok ht => ?_) h
  · obtain rfl := hs
    exact fun _ _ => rfl
  · exact hs.next hok (.of_next (familyInv_of_reachable hreach.reachable) ht)

theorem killed_of_allocproc {s t : Family} {p np : Slot} (h : FreeUnmarked s.table)
    (ht : s.next (.allocproc p) = some t) (hp : t.fork p = some (np, false)) :
    (t.table.proc np).killed = false := by
  obtain ⟨⟨_, hidle⟩, ht⟩ := Family.next_eq_some.1 ht
  simp only [Family.apply] at ht
  cases halloc : s.table.allocproc true with
  | mk u x =>
    rw [halloc] at ht
    cases x with
    | none =>
      obtain rfl := Option.some.inj ht
      rw [hidle] at hp
      cases hp
    | some x =>
      obtain rfl := Option.some.inj ht
      obtain rfl : x = np := by simpa [Family.setFork, Family.allocated] using hp
      obtain ⟨hunused, _, _, hkilled, _⟩ := allocproc_ids halloc
      exact hkilled.trans (h x hunused)

/-- In every table `kill` does what it is for exactly with a pid that no free slot has, and in
runs that kill with no other pid every child starts unmarked. -/
theorem kill_live_only (s : Family) :
    (familyMachine.Reachable s → ∀ pid, KillSpec s.table pid ↔ s.table.NotFree pid) ∧
    (familyMachine.Reach LiveKills s → ∀ p t np, s.next (.allocproc p) = some t →
      t.fork p = some (np, false) → (t.table.proc np).killed = false) :=
  ⟨fun hs pid => killSpec_iff (pidInv_of_reachable hs) pid,
    fun hs _ _ _ ht hp => killed_of_allocproc (freeUnmarked_of_reach hs) ht hp⟩

/-- `init` is marked and forks. -/
theorem kill_live_only_init : ∃ s t, familyMachine.Reach LiveKills s ∧ KillSpec s.table 1 ∧
    s.next (.allocproc initSlot) = some t ∧ t.fork initSlot = some (⟨1, by decide⟩, false) ∧
    (t.table.proc ⟨1, by decide⟩).killed = false := by
  have hdec : (Machine.runList (fun s op => if LiveKills s op then s.next op else none) .boot
      [.userinit, .scheduler, .kill 1]).any (fun s => s.table.NotFree 1 ∧
        (s.next (.allocproc initSlot)).any fun t =>
          t.fork initSlot = some (⟨1, by decide⟩, false)) = true := by
    decide +kernel
  obtain ⟨s, hs, hobs⟩ := (Option.any_eq_true _ _).1 hdec
  simp only [Bool.decide_and, Bool.decide_eq_true, Bool.and_eq_true, decide_eq_true_eq] at hobs
  obtain ⟨t, ht, hfork⟩ := (Option.any_eq_true _ _).1 hobs.2
  have hreach : familyMachine.Reach LiveKills s := Machine.reach_of_runList _ (.init rfl) hs
  exact ⟨s, t, hreach, ((kill_live_only s).1 hreach.reachable 1).2 hobs.1, ht,
    of_decide_eq_true hfork, (kill_live_only s).2 hreach _ t _ ht (of_decide_eq_true hfork)⟩

/-- `kill(0)` marks a free slot, and the next child has the mark. -/
theorem kill_marks_free_slot : ∃ s t u, familyMachine.Reachable s ∧ ¬ KillSpec s.table 0 ∧
    s.next (.kill 0) = some t ∧ t.next (.allocproc initSlot) = some u ∧
    u.fork initSlot = some (⟨1, by decide⟩, false) ∧
    (u.table.proc ⟨1, by decide⟩).killed = true := by
  have hdec : (Machine.runList Family.next .boot [.userinit, .scheduler]).any (fun s =>
      (s.table.kill 0).2 = 0 ∧ (∀ x, (s.table.proc x).state ≠ .UNUSED → (s.table.proc x).pid ≠ 0) ∧
        (s.next (.kill 0)).any fun t => (t.next (.allocproc initSlot)).any fun u =>
          u.fork initSlot = some (⟨1, by decide⟩, false) ∧
            (u.table.proc ⟨1, by decide⟩).killed = true) = true := by
    decide +kernel
  obtain ⟨s, hs, hobs⟩ := (Option.any_eq_true _ _).1 hdec
  obtain ⟨hzero, hnone, hrest⟩ := of_decide_eq_true hobs
  obtain ⟨t, ht, hrest⟩ := (Option.any_eq_true _ _).1 hrest
  obtain ⟨u, hu, hobs⟩ := (Option.any_eq_true _ _).1 hrest
  obtain ⟨hfork, hkilled⟩ := of_decide_eq_true hobs
  refine ⟨s, t, u, Machine.reachable_of_runList _ (.init rfl) hs, fun hspec => ?_, ht, hu,
    hfork, hkilled⟩
  obtain ⟨x, hx, hpid⟩ := hspec.result.1 hzero
  exact hnone x hx hpid

/-- The pid of a process is below `nextpid`, and no other slot, free or not, has it. -/
theorem pids_unique {s : Family} (h : familyMachine.Reachable s) {x : Slot}
    (hx : (s.table.proc x).state ≠ .UNUSED) :
    0 < (s.table.proc x).pid ∧ (s.table.proc x).pid < s.table.nextpid ∧
      ∀ y, (s.table.proc x).pid = (s.table.proc y).pid → x = y :=
  have hinv := pidInv_of_reachable h
  ⟨hinv.pos x hx, hinv.lt x, fun y => hinv.uniq x y (hinv.pos x hx)⟩

/-- `init` and two children of it, one in the slot of a child that was reaped. -/
theorem pids_unique_family : ∃ s, familyMachine.Reachable s ∧ (s.table.proc childSlot).pid = 3 ∧
    ∀ y, (s.table.proc childSlot).pid = (s.table.proc y).pid → childSlot = y := by
  have hdec : (Machine.runList Family.next .boot (childRun ++
      [.allocproc initSlot, .setParent initSlot, .finish initSlot, .allocproc initSlot])).any
      (fun s => (s.table.proc childSlot).state ≠ .UNUSED ∧ (s.table.proc childSlot).pid = 3) = true := by
    decide +kernel
  obtain ⟨s, hs, hobs⟩ := (Option.any_eq_true _ _).1 hdec
  obtain ⟨hused, hpid⟩ := of_decide_eq_true hobs
  have hreach : familyMachine.Reachable s := Machine.reachable_of_runList _ (.init rfl) hs
  exact ⟨s, hreach, hpid, (pids_unique hreach hused).2.2⟩

end Xv6.Sched
