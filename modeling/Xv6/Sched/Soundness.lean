import Xv6.Sched.Queue

/-!
# The multilevel queue over whole runs

Every table operation is a sequence of three kinds of writes: overwriting a
process that is on no list, `makerunnable` of such a process, and a dispatch.
Each keeps the lists well formed.  The first two keep every runnable process on
a list as well, as long as `makerunnable` arrives at a priority that names a
level; `sys_set_priority` stores any word, so this is a condition on the run.
-/

namespace Xv6.Sched

open Xv6.Lib

def InLevel (pr : Int) : Prop := 0 ≤ pr ∧ pr < MLF_LEVELS

theorem adjustPriority_zero (pr : Int) : PTable.adjustPriority 0 pr = 0 := by
  simp [PTable.adjustPriority]

theorem adjustPriority_one (pr : Int) :
    PTable.adjustPriority 1 pr = if pr < 3 then pr + 1 else pr := by
  simp [PTable.adjustPriority, SIZEMLF]

theorem adjustPriority_neg_one (pr : Int) :
    PTable.adjustPriority (-1) pr = if pr > 0 then pr - 1 else pr := by
  simp [PTable.adjustPriority]

/-- The lists are well formed and, if `full`, hold every runnable process. -/
def Inv (full : Bool) (s : PTable) : Prop :=
  ∃ q, QueueRep s q ∧
    (full = true → ∀ p, (s.proc p).state = .RUNNABLE → ¬ OffQueue q p)

theorem makerunnable_self (s : PTable) (p : Slot) (d : Int) :
    SameButNext ((s.makerunnable p d).proc p)
      { s.proc p with priority := PTable.adjustPriority d (s.proc p).priority
                      state := .RUNNABLE } := by
  refine (enqueue_sameButNext _ p p).trans ?_
  simpa using SameButNext.refl _

theorem makerunnable_ne (s : PTable) {p x : Slot} (d : Int) (h : x ≠ p) :
    SameButNext ((s.makerunnable p d).proc x) (s.proc x) := by
  refine (enqueue_sameButNext _ p x).trans ?_
  simpa [h] using SameButNext.refl _

@[simp] theorem makerunnable_initproc (s : PTable) (p : Slot) (d : Int) :
    (s.makerunnable p d).initproc = s.initproc := by
  simp [PTable.makerunnable, enqueue_initproc]

theorem mem_pushAt_self {q : Nat → List Slot} {p : Slot} {pr : Int} (h : InLevel pr) :
    ¬ OffQueue (pushAt q p pr) p := by
  intro hoff
  refine hoff pr.toNat (by have := h.1; have := h.2; omega) ?_
  simp [pushAt, if_pos (show 0 ≤ pr ∧ pr < MLF_LEVELS from h)]

theorem not_offQueue_pushAt {q : Nat → List Slot} {p x : Slot} {pr : Int}
    (h : ¬ OffQueue q x) : ¬ OffQueue (pushAt q p pr) x := by
  intro hoff
  apply h
  intro i hi hm
  apply hoff i hi
  unfold pushAt
  split_ifs
  · by_cases hip : i = pr.toNat
    · subst hip
      simp [hm]
    · simpa [hip] using hm
  · exact hm

namespace Inv

variable {full : Bool} {s : PTable}

theorem congr (h : Inv full s) {t : PTable} (hproc : t.proc = s.proc)
    (hmlf : t.mlf = s.mlf) : Inv full t := by
  obtain ⟨q, hq, hfull⟩ := h
  refine ⟨q, hq.congr hmlf fun p _ => by rw [hproc], ?_⟩
  rwa [hproc]

theorem setProc (h : Inv full s) {p : Slot} (hp : (s.proc p).state ≠ .RUNNABLE)
    {r : Proc} (hr : r.state ≠ .RUNNABLE) : Inv full (s.setProc p r) := by
  obtain ⟨q, hq, hfull⟩ := h
  refine ⟨q, hq.setProc (hq.offQueue hp) r, fun hb x hx => ?_⟩
  by_cases hxp : x = p
  · subst hxp
    exact absurd (by simpa using hx) hr
  · exact hfull hb x (by simpa [hxp] using hx)

theorem touch (h : Inv full s) {p : Slot} {r : Proc} (hstate : r.state = (s.proc p).state)
    (hprio : r.priority = (s.proc p).priority) (hnext : r.next = (s.proc p).next) :
    Inv full (s.setProc p r) := by
  obtain ⟨q, hq, hfull⟩ := h
  refine ⟨q, hq.touch hstate hprio hnext, fun hb x hx => hfull hb x ?_⟩
  by_cases hxp : x = p
  · subst hxp
    rwa [PTable.setProc_same, hstate] at hx
  · rwa [PTable.setProc_ne _ _ hxp] at hx

theorem makerunnable (h : Inv full s) {p : Slot} (hp : (s.proc p).state ≠ .RUNNABLE)
    {d : Int} (hpr : full = true → InLevel (PTable.adjustPriority d (s.proc p).priority)) :
    Inv full (s.makerunnable p d) := by
  obtain ⟨q, hq, hfull⟩ := h
  have hoff := hq.offQueue hp
  have hrep := (hq.setProc hoff
    { s.proc p with priority := PTable.adjustPriority d (s.proc p).priority
                    state := .RUNNABLE }).enqueue (p := p) (by simp) hoff
  refine ⟨_, hrep, fun hb x hx => ?_⟩
  by_cases hxp : x = p
  · subst hxp
    exact mem_pushAt_self (by simpa using hpr hb)
  · refine not_offQueue_pushAt (hfull hb x ?_)
    rwa [(makerunnable_ne s d hxp).state_eq] at hx

theorem dispatch (h : Inv full s) {t : PTable} {p : Slot} {i : Nat} (hi : i < MLF_LEVELS)
    (hdeq : s.dequeue i = some (t, p)) {r : Proc} (hr : r.state ≠ .RUNNABLE) :
    Inv full (t.setProc p r) := by
  obtain ⟨q, hq, hfull⟩ := h
  obtain ⟨hqi, hrep⟩ := hq.dispatch hi hdeq r
  refine ⟨_, hrep, fun hb x hx hxoff => ?_⟩
  by_cases hxp : x = p
  · subst hxp
    exact hr (by simpa using hx)
  · have hts : (t.proc x).state = (s.proc x).state := (dequeue_sameButNext hdeq x).state_eq
    refine hfull hb x (by simpa [hxp, hts] using hx) fun j hj hm => ?_
    refine hxoff j hj ?_
    by_cases hji : j = i
    · subst hji
      rw [hqi] at hm
      simpa [hxp] using hm
    · simpa [hji] using hm

end Inv

/-! ## `wakeup1` -/

theorem ne_runnable_of_eq {st st' : ProcState} (h : st = st') (hne : st' ≠ .RUNNABLE) :
    st ≠ .RUNNABLE := h ▸ hne

def SleepsOn (s : PTable) (chan : Option Chan) (x : Slot) : Prop :=
  (s.proc x).state = .SLEEPING ∧ (s.proc x).chan = chan

/-- The sleeper's priority names a level after `makerunnable(p, -1)`. -/
def Wakeable (s : PTable) (x : Slot) : Prop :=
  0 ≤ (s.proc x).priority ∧ (s.proc x).priority ≤ MLF_LEVELS

theorem wakeable_iff (s : PTable) (x : Slot) :
    Wakeable s x ↔ InLevel (PTable.adjustPriority (-1) (s.proc x).priority) := by
  rw [adjustPriority_neg_one]
  simp only [Wakeable, InLevel, MLF_LEVELS]
  split_ifs <;> omega

/-- A pass over the table leaves a process as it was or makes a sleeper
runnable, and so never puts one to sleep or changes who is a zombie. -/
theorem wakeupOne_proc (c : Option Chan) (s : PTable) (p x : Slot) :
    SameButNext ((PTable.wakeupOne c s p).proc x) (s.proc x) ∨
      (SleepsOn s c x ∧ SameButNext ((PTable.wakeupOne c s p).proc x)
        { s.proc x with
          priority := PTable.adjustPriority (-1) (s.proc x).priority
          state := .RUNNABLE }) := by
  unfold PTable.wakeupOne
  split_ifs with hc
  · by_cases hx : x = p
    · subst hx
      exact .inr ⟨hc, makerunnable_self s x (-1)⟩
    · exact .inl (makerunnable_ne s (-1) hx)
  · exact .inl (.refl _)

@[simp] theorem wakeupOne_initproc (c : Option Chan) (s : PTable) (p : Slot) :
    (PTable.wakeupOne c s p).initproc = s.initproc := by
  unfold PTable.wakeupOne
  split_ifs <;> simp

theorem wakeupOne_of_ne_runnable {c : Option Chan} {s : PTable} {p x : Slot}
    (h : ((PTable.wakeupOne c s p).proc x).state ≠ .RUNNABLE) :
    SameButNext ((PTable.wakeupOne c s p).proc x) (s.proc x) := by
  rcases wakeupOne_proc c s p x with hs | ⟨_, hs⟩
  · exact hs
  · exact absurd hs.state_eq h

theorem wakeupOne_of_not_sleeping {c : Option Chan} {s : PTable} {p x : Slot}
    (h : (s.proc x).state ≠ .SLEEPING) :
    SameButNext ((PTable.wakeupOne c s p).proc x) (s.proc x) := by
  rcases wakeupOne_proc c s p x with hs | ⟨hsl, _⟩
  · exact hs
  · exact absurd hsl.1 h

@[simp] theorem foldl_wakeupOne_initproc (c : Option Chan) (l : List Slot) (s : PTable) :
    (l.foldl (PTable.wakeupOne c) s).initproc = s.initproc := by
  induction l generalizing s with
  | nil => rfl
  | cons p l ih => rw [List.foldl_cons, ih, wakeupOne_initproc]

theorem foldl_wakeupOne_of_ne_runnable {c : Option Chan} (l : List Slot) {s : PTable}
    {x : Slot} (h : ((l.foldl (PTable.wakeupOne c) s).proc x).state ≠ .RUNNABLE) :
    SameButNext ((l.foldl (PTable.wakeupOne c) s).proc x) (s.proc x) := by
  induction l generalizing s with
  | nil => exact .refl _
  | cons p l ih =>
    have hl := ih h
    rw [List.foldl_cons] at h ⊢
    exact hl.trans (wakeupOne_of_ne_runnable (hl.state_eq ▸ h))

theorem foldl_wakeupOne_of_not_sleeping {c : Option Chan} (l : List Slot) {s : PTable}
    {x : Slot} (h : (s.proc x).state ≠ .SLEEPING) :
    SameButNext ((l.foldl (PTable.wakeupOne c) s).proc x) (s.proc x) := by
  induction l generalizing s with
  | nil => exact .refl _
  | cons p l ih =>
    have hp := wakeupOne_of_not_sleeping (c := c) (p := p) h
    rw [List.foldl_cons]
    exact (ih (hp.state_eq ▸ h)).trans hp

theorem foldl_wakeupOne_of_not_sleepsOn {c : Option Chan} (l : List Slot) {s : PTable}
    {x : Slot} (h : ¬ SleepsOn s c x) :
    SameButNext ((l.foldl (PTable.wakeupOne c) s).proc x) (s.proc x) := by
  induction l generalizing s with
  | nil => exact .refl _
  | cons p l ih =>
    have hp : SameButNext ((PTable.wakeupOne c s p).proc x) (s.proc x) :=
      (wakeupOne_proc c s p x).resolve_right fun hs => h hs.1
    rw [List.foldl_cons]
    refine (ih ?_).trans hp
    unfold SleepsOn at h ⊢
    rwa [hp.state_eq, hp.chan_eq]

theorem Inv.foldl_wakeupOne {full : Bool} (c : Option Chan) (l : List Slot) {s : PTable}
    (h : Inv full s) (hok : full = true → ∀ x, SleepsOn s c x → Wakeable s x) :
    Inv full (l.foldl (PTable.wakeupOne c) s) := by
  induction l generalizing s with
  | nil => exact h
  | cons p l ih =>
    rw [List.foldl_cons]
    refine ih ?_ fun hb x hx => ?_
    · unfold PTable.wakeupOne
      split_ifs with hc
      · refine h.makerunnable (by simp [hc.1]) fun hb => ?_
        exact (wakeable_iff s p).1 (hok hb p hc)
      · exact h
    · have hsame := wakeupOne_of_ne_runnable (ne_runnable_of_eq hx.1 (by simp))
      have hx' : SleepsOn s c x :=
        ⟨hsame.state_eq ▸ hx.1, hsame.chan_eq ▸ hx.2⟩
      simpa [Wakeable, hsame.priority_eq] using hok hb x hx'

theorem Inv.wakeup1 {full : Bool} {s : PTable} (c : Option Chan) (h : Inv full s)
    (hok : full = true → ∀ x, SleepsOn s c x → Wakeable s x) : Inv full (s.wakeup1 c) :=
  Inv.foldl_wakeupOne c _ h hok

@[simp] theorem wakeup1_initproc (c : Option Chan) (s : PTable) :
    (s.wakeup1 c).initproc = s.initproc :=
  foldl_wakeupOne_initproc c _ s

theorem wakeup1_of_ne_runnable {c : Option Chan} {s : PTable} {x : Slot}
    (h : ((s.wakeup1 c).proc x).state ≠ .RUNNABLE) :
    SameButNext ((s.wakeup1 c).proc x) (s.proc x) := by
  unfold PTable.wakeup1 at h ⊢
  exact foldl_wakeupOne_of_ne_runnable _ h

theorem wakeup1_of_not_sleeping {s : PTable} {x : Slot} (c : Option Chan)
    (h : (s.proc x).state ≠ .SLEEPING) : SameButNext ((s.wakeup1 c).proc x) (s.proc x) := by
  unfold PTable.wakeup1
  exact foldl_wakeupOne_of_not_sleeping _ h

theorem wakeup1_of_not_sleepsOn {c : Option Chan} {s : PTable} {x : Slot}
    (h : ¬ SleepsOn s c x) : SameButNext ((s.wakeup1 c).proc x) (s.proc x) := by
  unfold PTable.wakeup1
  exact foldl_wakeupOne_of_not_sleepsOn _ h

theorem not_sleepsOn_foldl_wakeupOne {c : Option Chan} (l : List Slot) {s : PTable} {x : Slot}
    (hx : x ∈ l) : ¬ SleepsOn (l.foldl (PTable.wakeupOne c) s) c x := by
  intro hsl
  have hsame := foldl_wakeupOne_of_ne_runnable l (ne_runnable_of_eq hsl.1 (by simp))
  induction l generalizing s with
  | nil => simp at hx
  | cons p l ih =>
    rcases List.mem_cons.1 hx with rfl | hmem
    · -- its own turn wakes `x`, and no later turn puts it to sleep again
      have hawake : ((PTable.wakeupOne c s x).proc x).state ≠ .SLEEPING := by
        have hbefore : (s.proc x).state = .SLEEPING ∧ (s.proc x).chan = c :=
          ⟨hsame.state_eq ▸ hsl.1, hsame.chan_eq ▸ hsl.2⟩
        unfold PTable.wakeupOne
        rw [if_pos hbefore, (makerunnable_self s x (-1)).state_eq]
        simp
      have hlater := foldl_wakeupOne_of_not_sleeping (c := c) l hawake
      exact hawake (hlater.state_eq ▸ hsl.1)
    · rw [List.foldl_cons] at hsl
      exact ih hmem hsl (foldl_wakeupOne_of_ne_runnable l (ne_runnable_of_eq hsl.1 (by simp)))

theorem not_sleepsOn_wakeup1 (s : PTable) (c : Option Chan) (x : Slot) :
    ¬ SleepsOn (s.wakeup1 c) c x := by
  unfold PTable.wakeup1
  exact not_sleepsOn_foldl_wakeupOne _ (List.mem_finRange x)

/-! ## `exit` -/

/-- The channel that a parent of the exiting process sleeps on. -/
def parentChan (s : PTable) (p : Slot) : Option Chan := (s.proc p).parent.map Chan.proc

def initChan (s : PTable) : Option Chan := s.initproc.map Chan.proc

def HasZombie (s : PTable) (p : Slot) : Prop :=
  ∃ c, (s.proc c).parent = some p ∧ (s.proc c).state = .ZOMBIE

theorem abandonOne_of_parent {p c : Slot} {s : PTable}
    (h : (s.proc c).parent = some p) :
    PTable.abandonOne p s c =
      if (s.proc c).state = .ZOMBIE then
        (s.setProc c { s.proc c with parent := s.initproc }).wakeup1 (initChan s)
      else s.setProc c { s.proc c with parent := s.initproc } := by
  simp [PTable.abandonOne, h, initChan]

theorem abandonOne_of_not_parent {p c : Slot} {s : PTable}
    (h : (s.proc c).parent ≠ some p) : PTable.abandonOne p s c = s := by
  simp [PTable.abandonOne, h]

@[simp] theorem abandonOne_initproc (p c : Slot) (s : PTable) :
    (PTable.abandonOne p s c).initproc = s.initproc := by
  by_cases hc : (s.proc c).parent = some p
  · rw [abandonOne_of_parent hc]
    split_ifs <;> simp
  · rw [abandonOne_of_not_parent hc]

theorem setProc_parent_eq (s : PTable) (c x : Slot) (o : Option Slot) :
    let r := (s.setProc c { s.proc c with parent := o }).proc x
    r.state = (s.proc x).state ∧ r.chan = (s.proc x).chan ∧
      r.priority = (s.proc x).priority ∧
      r.parent = if x = c then o else (s.proc x).parent := by
  by_cases hx : x = c
  · subst hx
    simp
  · simp [hx]

/-- What the loop body leaves of a process that it does not make runnable. -/
def Abandoned (s : PTable) (p c x : Slot) (r : Proc) : Prop :=
  r.state = (s.proc x).state ∧ r.chan = (s.proc x).chan ∧
    r.priority = (s.proc x).priority ∧
    r.parent = if x = c ∧ (s.proc c).parent = some p then s.initproc
      else (s.proc x).parent

theorem abandoned_of_sameButNext {s t : PTable} {p c x : Slot}
    (hc : (s.proc c).parent = some p)
    (h : SameButNext (t.proc x)
      ((s.setProc c { s.proc c with parent := s.initproc }).proc x)) :
    Abandoned s p c x (t.proc x) := by
  obtain ⟨hst, hch, hpr, hpa⟩ := setProc_parent_eq s c x s.initproc
  refine ⟨h.state_eq.trans hst, h.chan_eq.trans hch, h.priority_eq.trans hpr, ?_⟩
  rw [h.parent_eq, hpa]
  simp [hc]

theorem abandonOne_of_not_sleeping {p c x : Slot} {s : PTable}
    (h : (s.proc x).state ≠ .SLEEPING) :
    Abandoned s p c x ((PTable.abandonOne p s c).proc x) := by
  by_cases hc : (s.proc c).parent = some p
  · have hst := (setProc_parent_eq s c x s.initproc).1
    rw [abandonOne_of_parent hc]
    split_ifs
    · exact abandoned_of_sameButNext hc
        (wakeup1_of_not_sleeping (initChan s) (hst.symm ▸ h))
    · exact abandoned_of_sameButNext hc (.refl _)
  · rw [abandonOne_of_not_parent hc]
    simp [Abandoned, hc]

theorem abandonOne_of_ne_runnable {p c x : Slot} {s : PTable}
    (h : ((PTable.abandonOne p s c).proc x).state ≠ .RUNNABLE) :
    Abandoned s p c x ((PTable.abandonOne p s c).proc x) := by
  by_cases hc : (s.proc c).parent = some p
  · rw [abandonOne_of_parent hc] at h ⊢
    split_ifs at h ⊢
    · exact abandoned_of_sameButNext hc (wakeup1_of_ne_runnable h)
    · exact abandoned_of_sameButNext hc (.refl _)
  · rw [abandonOne_of_not_parent hc]
    simp [Abandoned, hc]

end Xv6.Sched
