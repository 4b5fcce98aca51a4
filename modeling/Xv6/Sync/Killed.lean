import Xv6.Sched.Kill
import Xv6.Sync.Semaphore

/-!
# `kill` and the loop of `semdown`

`kill` makes a sleeper runnable and leaves it to the loop around `sleep` to look at
`proc->killed`.  The loops of `piperead`, `pipewrite`, `consoleread`, `sys_sleep` and `wait` do;
the loop of `semdown` looks at the value alone.
-/

namespace Xv6.Sync

open Xv6.Lib Xv6.Sched

def SleepsInSemdown (s : SemState) (p : Slot) : Prop :=
  ∃ i, s.pc p = .asleep (semChan i) (.wait i) ∧ (s.pt.proc p).state = .SLEEPING

/-- Between the call of `sleep` and the switch to the scheduler. -/
def Pc.fallingAsleep {K : Type} : Pc K → Bool
  | .sleepAcq _ _ | .sleepRel _ _ | .sleepSet _ _ => true
  | _ => false

def findsZero (d : STable) : Pc Point → Bool
  | .crit (.wait i) => (d.sem i).value = 0
  | _ => false

/-- A marked process finds a unit when it tests for one, and nobody is marked between the test and
the switch to the scheduler. -/
def HeedsKill (s : SemState) : Label SemCall → Prop
  | .step p => (s.pt.proc p).killed = true → findsZero s.data (s.pc p) = false
  | .table (.kill pid) => ∀ p, s.pt.killTarget pid = some p → (s.pc p).fallingAsleep = false
  | _ => True

instance (s : SemState) : (l : Label SemCall) → Decidable (HeedsKill s l)
  | .step _ => inferInstanceAs (Decidable (_ → _))
  | .table (.kill _) => inferInstanceAs (Decidable (∀ _, _))
  | .call _ _ | .table .userinit | .table (.fork _ _ _) | .table .scheduler | .table (.yield _)
  | .table (.sleep _ _) | .table (.wakeup _) | .table (.exit _) | .table (.wait _)
  | .table (.setPriority _ _) => inferInstanceAs (Decidable True)

def MarkedAwake (s : SemState) : Prop :=
  ∀ p, (s.pt.proc p).killed = true → (s.pc p).fallingAsleep = false

section Steps

variable {s t : SemState} {p : Slot} {l : Label SemCall}

theorem findsZero_of_sleep {k k' : Point} {d d' : STable} {ch : Chan}
    (h : semClient.body k p d = .sleep d' ch k') : findsZero d (.crit k) = true := by
  cases k with
  | wait i =>
    simp only [semClient, semdownLoop] at h
    split_ifs at h with hzero
    simpa [findsZero] using hzero
  | get i v =>
    simp only [semClient, semgetBody] at h
    repeat' split at h
    all_goals cases h
  | free i => simp [semClient, semfreeBody] at h
  | down i =>
    simp only [semClient, semdownBody] at h
    split_ifs at h
  | up i =>
    simp only [semClient, semupBody] at h
    split_ifs at h
  | upDone i => simp [semClient, semupDone] at h

theorem MarkedAwake.move {pc : Pc Point} (h : MarkedAwake s)
    (hkilled : ∀ x, (t.pt.proc x).killed = (s.pt.proc x).killed)
    (hpc : t.pc = Function.update s.pc p pc)
    (hself : (s.pt.proc p).killed = true → pc.fallingAsleep = false) : MarkedAwake t := by
  intro x hx
  rw [hkilled] at hx
  rw [hpc]
  by_cases hxp : x = p
  · subst hxp
    rw [Function.update_self]
    exact hself hx
  · rw [Function.update_of_ne hxp]
    exact h x hx

theorem MarkedAwake.of_move (h : MarkedAwake s) (hok : HeedsKill s (.step p))
    (hm : semClient.Move s p t) : MarkedAwake t := by
  have hp := h p
  cases hm with
  | acquire | goto | wakeup | release | ret | resume | wakeAcq | wakeRel =>
    exact h.move (fun _ => rfl) rfl fun _ => rfl
  | @sleep k k' d ch hpc hb =>
    refine h.move (fun _ => rfl) rfl fun hkilled => ?_
    have hfinds := hok hkilled
    rw [hpc, findsZero_of_sleep hb] at hfinds
    cases hfinds
  | sleepAcq hpc | sleepRel hpc =>
    refine h.move (fun _ => rfl) rfl fun hkilled => ?_
    have hfalling := hp hkilled
    rw [hpc] at hfalling
    cases hfalling
  | @sleepSet k ch hpc => exact h.move (SameIds.sleep s.pt p ch).killed rfl fun _ => rfl
  | @wakeRun k ch hpc =>
    have hkilled := (SameIds.wakeup1 s.pt (some ch)).killed
    generalize s.pt.wakeup1 (some ch) = pt at hkilled ⊢
    exact h.move hkilled rfl fun _ => rfl

theorem MarkedAwake.of_tableMove {op : Op} {pt : PTable} (h : MarkedAwake s)
    (hok : HeedsKill s (.table op)) (hnext : Sched.next s.pt op = some pt)
    (hm : semClient.TableMove s op pt t) : MarkedAwake t := by
  have hkilled : ∀ x, (pt.proc x).killed = true → (s.pc x).fallingAsleep = false := by
    intro x hx
    rcases killed_of_next hnext hx with hold | ⟨pid, rfl, htarget⟩
    · exact h x hold
    · exact hok x htarget
  cases hm with
  | plain | exit => exact hkilled
  | @resume p ch k _ hpc hd =>
    intro x hx
    by_cases hxp : x = p
    · rw [hxp, State.setPc_self]
      rfl
    · rw [State.setPc_ne _ _ hxp]
      exact hkilled x hx

theorem MarkedAwake.next (h : MarkedAwake s) (hok : HeedsKill s l)
    (ht : semClient.next s l = some t) : MarkedAwake t := by
  cases l with
  | call p a =>
    obtain ⟨_, ht⟩ := Option.ite_none_right_eq_some.1 ht
    obtain ⟨_, hpt, ⟨_, k, _, _, hpc⟩ | ⟨_, _, _, _, hpc⟩⟩ := Client.start_cases ht
    · exact h.move (fun _ => by rw [hpt]) hpc fun _ => rfl
    · intro x hx
      rw [hpt] at hx
      rw [hpc]
      exact h x hx
  | step p =>
    obtain ⟨_, ht⟩ := Option.ite_none_right_eq_some.1 ht
    exact h.of_move hok (.of_advance ht)
  | table op =>
    obtain ⟨_, ht⟩ := Option.ite_none_right_eq_some.1 ht
    obtain ⟨_, pt, hnext, hm⟩ := Client.TableMove.of_tableStep ht
    exact h.of_tableMove hok hnext hm

theorem sleeping_of_next {u v : PTable} {op : Op} {x : Slot} (ht : Sched.next u op = some v)
    (hx : (v.proc x).state = .SLEEPING) :
    (u.proc x).state = .SLEEPING ∨ (∃ ch, op = .sleep x ch) ∨ op = .wait x := by
  by_contra hnot
  simp only [not_or] at hnot
  refine absurd hx ((next_edits ht).keeps (P := fun r => r.state ≠ .SLEEPING)
    (fun r r' hedit hr => ?_) hnot.1)
  cases hedit with
  | sleep chan hop =>
    rcases hop with hop | ⟨hop, _⟩
    · exact absurd ⟨chan, hop⟩ hnot.2.1
    · exact absurd hop hnot.2.2
  | next | priority | parent | lower | killed | setPriority => exact hr
  | makerunnable | embryo | unused | dispatch | zombie | reap => simp

/-- Whoever is blocked after a step of `q` was blocked before, unless it is `q` that fell asleep. -/
theorem SleepsInSemdown.before {q : Slot} {pc : Pc Point} (hp : SleepsInSemdown t p)
    (hpc : t.pc = Function.update s.pc q pc) (hself : q = p → ∀ ch k, pc ≠ .asleep ch k)
    (hstate : q ≠ p → (t.pt.proc p).state = .SLEEPING → (s.pt.proc p).state = .SLEEPING) :
    SleepsInSemdown s p := by
  obtain ⟨i, hasleep, hsleep⟩ := hp
  rw [hpc] at hasleep
  by_cases hqp : q = p
  · rw [hqp, Function.update_self] at hasleep
    exact absurd hasleep (hself hqp _ _)
  · rw [Function.update_of_ne (Ne.symm hqp)] at hasleep
    exact ⟨i, hasleep, hstate hqp hsleep⟩

theorem SleepsInSemdown.of_move {q : Slot} (hm : semClient.Move s q t) (hp : SleepsInSemdown t p)
    (hq : q = p → (s.pc q).fallingAsleep = false) : SleepsInSemdown s p := by
  cases hm with
  | acquire | goto | sleep | wakeup | release | ret | sleepAcq | sleepRel | resume | wakeAcq
  | wakeRel => exact hp.before rfl (by simp) fun _ hsleep => hsleep
  | @sleepSet k ch hpc =>
    refine hp.before rfl (fun hqp => ?_) fun hqp hsleep => ?_
    · have hfalling := hq hqp
      rw [hpc] at hfalling
      cases hfalling
    · have hne : ((s.pt.sleep q ch).proc p).state = .SLEEPING := hsleep
      rwa [PTable.sleep, PTable.setProc_ne _ _ (Ne.symm hqp)] at hne
  | @wakeRun k ch hpc =>
    have hstate : ((s.pt.wakeup1 (some ch)).proc p).state = .SLEEPING →
        (s.pt.proc p).state = .SLEEPING := by
      intro hsleep
      rwa [(wakeup1_of_ne_runnable (ne_runnable_of_eq hsleep (by simp))).state_eq] at hsleep
    generalize s.pt.wakeup1 (some ch) = pt at hp hstate
    exact hp.before rfl (by simp) fun _ => hstate

theorem SleepsInSemdown.of_tableMove {op : Op} {pt : PTable} (hop : semClient.allowed s op = true)
    (hnext : Sched.next s.pt op = some pt) (hm : semClient.TableMove s op pt t)
    (hp : SleepsInSemdown t p) : SleepsInSemdown s p := by
  -- who is asleep calls nothing
  have hstate : ∀ i, s.pc p = .asleep (semChan i) (.wait i) → (pt.proc p).state = .SLEEPING →
      (s.pt.proc p).state = .SLEEPING := by
    intro i hpc hsleep
    rcases sleeping_of_next hnext hsleep with hsame | ⟨ch, rfl⟩ | rfl
    · exact hsame
    · simp [Client.allowed, hpc, Pc.isIdle] at hop
    · simp [Client.allowed, hpc, Pc.isIdle] at hop
  cases hm with
  | plain | exit =>
    obtain ⟨i, hpc, hsleep⟩ := hp
    exact ⟨i, hpc, hstate i hpc hsleep⟩
  | @resume q ch k _ hpc hd =>
    obtain ⟨i, hasleep, hsleep⟩ := hp
    by_cases hqp : p = q
    · rw [hqp, State.setPc_self] at hasleep
      cases hasleep
    · rw [State.setPc_ne _ _ hqp] at hasleep
      exact ⟨i, hasleep, hstate i hasleep hsleep⟩

theorem SleepsInSemdown.of_next (h : MarkedAwake s) (ht : semClient.next s l = some t)
    (hkilled : (s.pt.proc p).killed = true) (hp : SleepsInSemdown t p) : SleepsInSemdown s p := by
  cases l with
  | call q a =>
    obtain ⟨_, ht⟩ := Option.ite_none_right_eq_some.1 ht
    obtain ⟨_, hpt, ⟨_, k, _, _, hpc⟩ | ⟨_, _, _, _, hpc⟩⟩ := Client.start_cases ht
    · exact hp.before hpc (by simp) fun _ hsleep => hpt ▸ hsleep
    · obtain ⟨i, hasleep, hsleep⟩ := hp
      exact ⟨i, hpc ▸ hasleep, hpt ▸ hsleep⟩
  | step q =>
    obtain ⟨_, ht⟩ := Option.ite_none_right_eq_some.1 ht
    exact hp.of_move (.of_advance ht) fun hqp => h q (hqp ▸ hkilled)
  | table op =>
    obtain ⟨hop, ht⟩ := Option.ite_none_right_eq_some.1 ht
    obtain ⟨_, pt, hnext, hm⟩ := Client.TableMove.of_tableStep ht
    exact .of_tableMove hop hnext hm hp

end Steps

theorem Reach.markedAwake {s : SemState} (h : semMachine.Reach HeedsKill s) : MarkedAwake s := by
  refine Machine.Reach.invariant ?_ (fun s l t hs hok ht => hs.next hok ht) h
  rintro s rfl p hp
  cases hp

/-- A marked process is not put back to sleep. -/
theorem killed_leaves_semdown {s t : SemState} {l : Label SemCall} {p : Slot}
    (h : semMachine.Reach HeedsKill s) (ht : semMachine.step s l t)
    (hkilled : (s.pt.proc p).killed = true) (hawake : ¬ SleepsInSemdown s p) :
    ¬ SleepsInSemdown t p :=
  fun hp => hawake (hp.of_next (Reach.markedAwake h) ht hkilled)

/-- `init` makes a semaphore and, marked, is about to take a unit of it. -/
def markedRun : List (Label SemCall) :=
  [.table .userinit, .table .scheduler, .table (.kill 1), .call initSlot (.semget (-1) 1),
    .step initSlot, .step initSlot, .call initSlot (.semdown 0), .step initSlot, .step initSlot]

theorem killed_leaves_semdown_unit : ∃ s t, semMachine.Reach HeedsKill s ∧
    semMachine.step s (.step initSlot) t ∧ (s.pt.proc initSlot).killed = true ∧
    s.pc initSlot = .crit (.wait 0) ∧ ¬ SleepsInSemdown t initSlot := by
  have hdec : (Machine.runList (fun s l => if HeedsKill s l then semClient.next s l else none)
      (Client.boot .boot) markedRun).any (fun s => (s.pt.proc initSlot).killed = true ∧
        s.pc initSlot = .crit (.wait 0) ∧ (semClient.next s (.step initSlot)).isSome) = true := by
    decide +kernel
  obtain ⟨s, hs, hobs⟩ := (Option.any_eq_true _ _).1 hdec
  obtain ⟨hkilled, hpc, hsome⟩ := of_decide_eq_true hobs
  obtain ⟨t, ht⟩ := Option.isSome_iff_exists.1 hsome
  have hreach : semMachine.Reach HeedsKill s := Machine.reach_of_runList _ (.init rfl) hs
  refine ⟨s, t, hreach, ht, hkilled, hpc, killed_leaves_semdown hreach ht hkilled ?_⟩
  rintro ⟨i, hasleep, _⟩
  rw [hpc] at hasleep
  cases hasleep

/-- `init` is killed while it sleeps in `semdown`; it wakes up, finds no unit and sleeps again. -/
theorem killed_sleeps_again : ∃ s t, semMachine.Reachable s ∧
    semMachine.step s (.step initSlot) t ∧ (s.pt.proc initSlot).killed = true ∧
    ¬ SleepsInSemdown s initSlot ∧ SleepsInSemdown t initSlot := by
  have hdec : (Machine.runList semClient.next (Client.boot .boot)
      ([.table .userinit, .table .scheduler, .call initSlot (.semget (-1) 0), .step initSlot,
        .step initSlot, .call initSlot (.semdown 0)] ++ List.replicate 6 (.step initSlot) ++
        [.table (.kill 1), .table .scheduler] ++ List.replicate 5 (.step initSlot))).any (fun s =>
          (s.pt.proc initSlot).killed = true ∧ (s.pt.proc initSlot).state = .RUNNING ∧
            (semClient.next s (.step initSlot)).any fun t =>
              t.pc initSlot = .asleep (semChan 0) (.wait 0) ∧
                (t.pt.proc initSlot).state = .SLEEPING) = true := by
    decide +kernel
  obtain ⟨s, hs, hobs⟩ := (Option.any_eq_true _ _).1 hdec
  obtain ⟨hkilled, hrun, hrest⟩ := of_decide_eq_true hobs
  obtain ⟨t, ht, hobs⟩ := (Option.any_eq_true _ _).1 hrest
  have hsleep := of_decide_eq_true hobs
  refine ⟨s, t, Machine.reachable_of_runList _ (.init rfl) hs, ht, hkilled, ?_, ⟨0, hsleep⟩⟩
  rintro ⟨i, _, hstate⟩
  rw [hrun] at hstate
  cases hstate

end Xv6.Sync
