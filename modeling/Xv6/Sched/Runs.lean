import Xv6.Sched.Edits

/-!
# No operation breaks the queue, and which ones lose a process

The step lemmas of this module assemble the writes of each operation.  They
give, over every run, the shape of the four lists; and, over the runs in which
every requeued process arrives at a level, that no runnable process is lost.
-/

namespace Xv6.Sched

open Xv6.Lib

/-! ## What each operation keeps -/

section Steps

variable {full : Bool} {s : PTable}

theorem find_unused {p : Slot}
    (h : (List.finRange NPROC).find? (fun p => (s.proc p).state = .UNUSED) = some p) :
    (s.proc p).state = .UNUSED := by
  simpa using List.find?_some h

theorem Inv.allocproc (h : Inv full s) (kstack : Bool) :
    Inv full (s.allocproc kstack).1 ∧
      ∀ p ∈ (s.allocproc kstack).2, ((s.allocproc kstack).1.proc p).state = .EMBRYO := by
  unfold PTable.allocproc
  split
  · exact ⟨h, by simp⟩
  · rename_i p hfind
    have hp := find_unused hfind
    have h₁ : Inv full (s.setProc p { s.proc p with state := .EMBRYO, pid := s.nextpid }) :=
      h.setProc (by simp [hp]) (by simp)
    have h₂ := h₁.congr (t := { s.setProc p { s.proc p with state := .EMBRYO, pid := s.nextpid }
      with nextpid := s.nextpid + 1 }) rfl rfl
    have h₃ := h₂.setProc (p := p) (r := { s.proc p with
      state := .EMBRYO, pid := s.nextpid, priority := 0 }) (by simp) (by simp)
    cases kstack with
    | true => exact ⟨by simpa using h₃, by simp⟩
    | false =>
      refine ⟨?_, by simp⟩
      simpa using h₃.setProc (p := p) (r := { s.proc p with
        state := .UNUSED, pid := s.nextpid, priority := 0 }) (by simp) (by simp)

theorem inLevel_zero : InLevel 0 := by simp [InLevel, MLF_LEVELS]

theorem Inv.userinit {t : PTable} (h : Inv full s) (ht : s.userinit = some t) :
    Inv full t := by
  obtain ⟨hinv, hemb⟩ := h.allocproc true
  unfold PTable.userinit at ht
  split at ht
  · simp at ht
  · rename_i u p heq
    rw [heq] at hinv hemb
    obtain rfl := Option.some.inj ht
    have hp : (u.proc p).state = .EMBRYO := hemb p rfl
    exact (hinv.congr rfl rfl : Inv full { u with initproc := some p }).makerunnable
      (by simp [hp]) fun _ => by simpa [adjustPriority_zero] using inLevel_zero

theorem Inv.fork (h : Inv full s) (p : Slot) (kstack copied : Bool) :
    Inv full (s.fork p kstack copied).1 := by
  obtain ⟨hinv, hemb⟩ := h.allocproc kstack
  unfold PTable.fork
  split
  · rename_i u heq
    exact (heq ▸ hinv :)
  · rename_i u np heq
    rw [heq] at hinv hemb
    have hnp : (u.proc np).state = .EMBRYO := hemb np rfl
    cases copied with
    | true =>
      have h₁ := hinv.setProc (p := np) (r := { u.proc np with parent := some p })
        (by simp [hnp]) (by simp [hnp])
      exact h₁.makerunnable (by simp [hnp]) fun _ => by
        simpa [adjustPriority_zero] using inLevel_zero
    | false => exact hinv.setProc (by simp [hnp]) (by simp)

theorem Inv.scheduler (h : Inv full s) : Inv full s.scheduler := by
  unfold PTable.scheduler
  split
  · exact h
  · rename_i i hi
    have hlt : i < MLF_LEVELS := by simpa using List.mem_of_find?_eq_some hi
    split
    · exact h
    · rename_i u p hdeq
      exact h.dispatch hlt hdeq (by simp)

theorem Inv.sleep (h : Inv full s) {p : Slot} (hp : (s.proc p).state = .RUNNING)
    (c : Chan) : Inv full (s.sleep p c) :=
  h.setProc (by simp [hp]) (by simp)

theorem Inv.wait (h : Inv full s) {p : Slot} (hp : (s.proc p).state = .RUNNING) :
    Inv full (s.wait p).1 := by
  unfold PTable.wait
  split
  · rename_i c hfind
    have hc := List.find?_some hfind
    simp only [decide_eq_true_eq] at hc
    exact h.setProc (by simp [hc.2]) (by simp)
  · simp only
    split_ifs
    · exact h
    · exact h.sleep hp _

theorem Inv.kill (h : Inv full s) (pid : Int) : Inv full (s.kill pid).1 := by
  unfold PTable.kill
  split
  · exact h
  · rename_i p _
    have h₁ : Inv full (s.setProc p { s.proc p with killed := true }) :=
      h.touch rfl rfl rfl
    simp only [PTable.setProc_same]
    split_ifs with hsl
    · refine h₁.makerunnable (by simp [hsl]) fun _ => ?_
      simpa [adjustPriority_zero] using inLevel_zero
    · exact h₁

theorem yield_priority (pr : Int) :
    InLevel (PTable.adjustPriority 1 (if pr < 3 then pr + 1 else pr)) ↔
      -2 ≤ pr ∧ pr < MLF_LEVELS := by
  rw [adjustPriority_one]
  simp only [InLevel, MLF_LEVELS]
  split_ifs <;> omega

theorem yield_eq (s : PTable) (p : Slot) :
    s.yield p = (s.setProc p { s.proc p with
      priority := if (s.proc p).priority < 3 then (s.proc p).priority + 1
        else (s.proc p).priority }).makerunnable p 1 := by
  unfold PTable.yield
  simp only
  split_ifs with hlt
  · rfl
  · have : s.setProc p (s.proc p) = s := by simp [PTable.setProc]
    rw [this]

theorem Inv.yield (h : Inv full s) {p : Slot} (hp : (s.proc p).state = .RUNNING)
    (hok : full = true → -2 ≤ (s.proc p).priority ∧ (s.proc p).priority < MLF_LEVELS) :
    Inv full (s.yield p) := by
  rw [yield_eq]
  refine (h.setProc (by simp [hp]) (by simp [hp])).makerunnable (by simp [hp]) fun hb => ?_
  rw [PTable.setProc_same]
  exact (yield_priority _).2 (hok hb)

theorem Inv.sysSetPriority (h : Inv full s) {p : Slot} (hp : (s.proc p).state = .RUNNING)
    (pr : Int) : Inv full (s.sysSetPriority p pr) :=
  h.setProc (by simp [hp]) (by simp [hp])

theorem HasZombie.of_abandonOne {p c : Slot} {s : PTable}
    (h : HasZombie (PTable.abandonOne p s c) p) (hp : s.initproc ≠ some p) :
    HasZombie s p := by
  obtain ⟨z, hpar, hzomb⟩ := h
  obtain ⟨hst, _, _, hpa⟩ :=
    abandonOne_of_ne_runnable (ne_runnable_of_eq hzomb (by simp))
  rw [hpa] at hpar
  split_ifs at hpar with hz
  · exact absurd hpar hp
  · exact ⟨z, hpar, hst ▸ hzomb⟩

/-- The loop of `exit` over the children.  The condition speaks about `init`
only if some child is a zombie, since only then is `init` woken. -/
theorem Inv.foldl_abandonOne {p : Slot} (l : List Slot) {s : PTable} (h : Inv full s)
    (hp : s.initproc ≠ some p)
    (hok : full = true → HasZombie s p → ∀ x, SleepsOn s (initChan s) x → Wakeable s x) :
    Inv full (l.foldl (PTable.abandonOne p) s) := by
  induction l generalizing s with
  | nil => exact h
  | cons c l ih =>
    rw [List.foldl_cons]
    refine ih ?_ (by simpa using hp) fun hb hz x hx => ?_
    · by_cases hc : (s.proc c).parent = some p
      · rw [abandonOne_of_parent hc]
        have hset : Inv full (s.setProc c { s.proc c with parent := s.initproc }) :=
          h.touch rfl rfl rfl
        split_ifs with hzomb
        · refine hset.wakeup1 _ fun hb x hx => ?_
          obtain ⟨hst, hch, hpr, _⟩ := setProc_parent_eq s c x s.initproc
          have := hok hb ⟨c, hc, hzomb⟩ x ⟨hst ▸ hx.1, hch ▸ hx.2⟩
          simpa [Wakeable, hpr] using this
        · exact hset
      · rwa [abandonOne_of_not_parent hc]
    · obtain ⟨hst, hch, hpr, _⟩ :=
        abandonOne_of_ne_runnable (ne_runnable_of_eq hx.1 (by simp))
      have hsl : SleepsOn s (initChan s) x :=
        ⟨hst ▸ hx.1, hch ▸ (by simpa [initChan] using hx.2)⟩
      simpa [Wakeable, hpr] using hok hb (hz.of_abandonOne hp) x hsl

theorem wakeup1_state_of_running {s : PTable} {p : Slot} {c : Option Chan}
    (h : (s.proc p).state = .RUNNING) : ((s.wakeup1 c).proc p).state = .RUNNING := by
  rw [(wakeup1_of_not_sleeping c (by simp [h])).state_eq, h]

theorem foldl_abandonOne_state {p x : Slot} (l : List Slot) {s : PTable}
    (h : (s.proc x).state = .RUNNING) :
    ((l.foldl (PTable.abandonOne p) s).proc x).state = .RUNNING := by
  induction l generalizing s with
  | nil => exact h
  | cons c l ih =>
    exact ih ((abandonOne_of_not_sleeping (by simp [h])).1.trans h)

/-- The table just before the exiting process becomes a zombie. -/
def passedOn (s : PTable) (p : Slot) : PTable :=
  (List.finRange NPROC).foldl (PTable.abandonOne p) (s.wakeup1 (parentChan s p))

theorem exit_eq {p : Slot} (hp : s.initproc ≠ some p) :
    s.exit p = some ((passedOn s p).setProc p
      { (passedOn s p).proc p with state := .ZOMBIE }) := by
  unfold PTable.exit
  rw [if_neg hp]
  simp only [passedOn, parentChan]

theorem passedOn_state {p : Slot} (h : (s.proc p).state = .RUNNING) :
    ((passedOn s p).proc p).state = .RUNNING := by
  unfold passedOn
  exact foldl_abandonOne_state _ (wakeup1_state_of_running h)

theorem Inv.passedOn {p : Slot} (h : Inv full s) (hp : s.initproc ≠ some p)
    (hok : full = true → ∀ x, SleepsOn s (parentChan s p) x ∨
      (HasZombie s p ∧ SleepsOn s (initChan s) x) → Wakeable s x) :
    Inv full (passedOn s p) := by
  have h₁ : Inv full (s.wakeup1 (parentChan s p)) :=
    h.wakeup1 _ fun hb x hx => hok hb x (.inl hx)
  refine h₁.foldl_abandonOne _ (by simpa using hp) fun hb hz x hx => ?_
  have hsame := wakeup1_of_ne_runnable (ne_runnable_of_eq hx.1 (by simp))
  obtain ⟨c, hpar, hzomb⟩ := hz
  have hzs := wakeup1_of_ne_runnable (ne_runnable_of_eq hzomb (by simp))
  have hsl : SleepsOn s (initChan s) x :=
    ⟨hsame.state_eq ▸ hx.1, hsame.chan_eq ▸ (by simpa [initChan] using hx.2)⟩
  have hz' : HasZombie s p := ⟨c, hzs.parent_eq ▸ hpar, hzs.state_eq ▸ hzomb⟩
  simpa [Wakeable, hsame.priority_eq] using hok hb x (.inr ⟨hz', hsl⟩)

theorem Inv.exit {p : Slot} {t : PTable} (h : Inv full s)
    (hrun : (s.proc p).state = .RUNNING) (ht : s.exit p = some t)
    (hok : full = true → ∀ x, SleepsOn s (parentChan s p) x ∨
      (HasZombie s p ∧ SleepsOn s (initChan s) x) → Wakeable s x) : Inv full t := by
  by_cases hp : s.initproc = some p
  · simp [PTable.exit, hp] at ht
  · rw [exit_eq hp] at ht
    obtain rfl := Option.some.inj ht
    exact (h.passedOn hp hok).setProc (by simp [passedOn_state hrun]) (by simp)

end Steps

/-! ## Whole runs -/

/-- The processes that an operation wakes with `makerunnable(p, -1)`. -/
def Woken (s : PTable) : Op → Slot → Prop
  | .wakeup chan, x => SleepsOn s (some chan) x
  | .exit p, x => SleepsOn s (parentChan s p) x ∨
      (HasZombie s p ∧ SleepsOn s (initChan s) x)
  | _, _ => False

/-- Whoever the operation requeues has a priority that leads to a level: the
running process of a `yield`, which is lowered by up to two levels, and the
sleepers that are woken, which are raised by at most one. -/
def Requeueable (s : PTable) (op : Op) : Prop :=
  (∀ p, op = .yield p → -2 ≤ (s.proc p).priority ∧ (s.proc p).priority < MLF_LEVELS) ∧
    ∀ x, Woken s op x → Wakeable s x

theorem Inv.next {full : Bool} {s t : PTable} {op : Op} (h : Inv full s)
    (ht : next s op = some t) (hok : full = true → Requeueable s op) : Inv full t := by
  unfold Sched.next at ht
  split_ifs at ht with hrun
  cases op with
  | userinit =>
    simp only [Op.apply] at ht
    split_ifs at ht
    exact h.userinit ht
  | fork p kstack copied =>
    obtain rfl := Option.some.inj ht
    exact h.fork p kstack copied
  | scheduler =>
    obtain rfl := Option.some.inj ht
    exact h.scheduler
  | yield p =>
    obtain rfl := Option.some.inj ht
    exact h.yield (hrun p rfl) fun hb => (hok hb).1 p rfl
  | sleep p chan =>
    obtain rfl := Option.some.inj ht
    exact h.sleep (hrun p rfl) chan
  | wakeup chan =>
    obtain rfl := Option.some.inj ht
    exact h.wakeup1 (some chan) fun hb x hx => (hok hb).2 x hx
  | kill pid =>
    obtain rfl := Option.some.inj ht
    exact h.kill pid
  | exit p => exact h.exit (hrun p rfl) ht fun hb x hx => (hok hb).2 x hx
  | wait p =>
    obtain rfl := Option.some.inj ht
    exact h.wait (hrun p rfl)
  | setPriority p pr =>
    obtain rfl := Option.some.inj ht
    exact h.sysSetPriority (hrun p rfl) pr

theorem Inv.boot (full : Bool) : Inv full .boot := by
  refine ⟨fun _ => [], ⟨fun i _ => rfl, by simp, by simp, by simp⟩, fun _ p hp => ?_⟩
  simp [PTable.boot, Proc.zero] at hp

/-! ## A process that `enqueue` dropped stays off every list -/

def Lost (s : PTable) (x : Slot) : Prop :=
  (s.proc x).state = .RUNNABLE ∧ ¬ InLevel (s.proc x).priority

theorem Lost.of_sameButNext {s t : PTable} {x : Slot} (h : Lost s x)
    (hsame : SameButNext (t.proc x) (s.proc x)) : Lost t x := by
  unfold Lost
  rw [hsame.state_eq, hsame.priority_eq]
  exact h

theorem Lost.foldl_abandonOne {p x : Slot} (l : List Slot) {s : PTable} (h : Lost s x) :
    Lost (l.foldl (PTable.abandonOne p) s) x := by
  induction l generalizing s with
  | nil => exact h
  | cons c l ih =>
    obtain ⟨hst, _, hpr, _⟩ := abandonOne_of_not_sleeping (p := p) (c := c) (x := x)
      (s := s) (by simp [h.1])
    exact ih ⟨hst.trans h.1, hpr ▸ h.2⟩

theorem lost_foldl_wakeupOne {c : Option Chan} (l : List Slot) {s : PTable} {x : Slot}
    (hx : x ∈ l) (hsl : SleepsOn s c x) (hbad : ¬ Wakeable s x) :
    Lost (l.foldl (PTable.wakeupOne c) s) x := by
  induction l generalizing s with
  | nil => simp at hx
  | cons p l ih =>
    rw [List.foldl_cons]
    by_cases hxp : x = p
    · subst hxp
      have hlost : Lost (PTable.wakeupOne c s x) x := by
        have hsame := makerunnable_self s x (-1)
        have hw : PTable.wakeupOne c s x = s.makerunnable x (-1) := if_pos hsl
        rw [hw]
        refine ⟨hsame.state_eq, ?_⟩
        rw [hsame.priority_eq]
        exact fun hin => hbad ((wakeable_iff s x).2 hin)
      exact hlost.of_sameButNext
        (foldl_wakeupOne_of_not_sleeping l (by simp [hlost.1]))
    · have hsame : SameButNext ((PTable.wakeupOne c s p).proc x) (s.proc x) := by
        unfold PTable.wakeupOne
        split_ifs
        · exact makerunnable_ne s (-1) hxp
        · exact .refl _
      refine ih (by simpa [hxp] using hx) ⟨?_, ?_⟩ ?_
      · rw [hsame.state_eq, hsl.1]
      · rw [hsame.chan_eq, hsl.2]
      · simpa [Wakeable, hsame.priority_eq] using hbad

theorem lost_wakeup1 {c : Option Chan} {s : PTable} {x : Slot} (hsl : SleepsOn s c x)
    (hbad : ¬ Wakeable s x) : Lost (s.wakeup1 c) x := by
  unfold PTable.wakeup1
  exact lost_foldl_wakeupOne _ (List.mem_finRange x) hsl hbad

theorem lost_foldl_abandonOne {p x c : Slot} (l : List Slot) {s : PTable} (hc : c ∈ l)
    (hpar : (s.proc c).parent = some p) (hzomb : (s.proc c).state = .ZOMBIE)
    (hsl : SleepsOn s (initChan s) x) (hbad : ¬ Wakeable s x) :
    Lost (l.foldl (PTable.abandonOne p) s) x := by
  induction l generalizing s with
  | nil => simp at hc
  | cons d l ih =>
    rw [List.foldl_cons]
    by_cases hnow : (s.proc d).parent = some p ∧ (s.proc d).state = .ZOMBIE
    · obtain ⟨hst, hch, hpr, _⟩ := setProc_parent_eq s d x s.initproc
      refine Lost.foldl_abandonOne l ?_
      rw [abandonOne_of_parent hnow.1, if_pos hnow.2]
      exact lost_wakeup1 ⟨hst ▸ hsl.1, hch ▸ hsl.2⟩ (by simpa [Wakeable, hpr] using hbad)
    · have hcd : c ≠ d := by
        rintro rfl
        exact hnow ⟨hpar, hzomb⟩
      -- the loop body only moves `d` to another parent
      have hd : ∀ y, ((PTable.abandonOne p s d).proc y).state = (s.proc y).state ∧
          ((PTable.abandonOne p s d).proc y).chan = (s.proc y).chan ∧
          ((PTable.abandonOne p s d).proc y).priority = (s.proc y).priority ∧
          (y ≠ d → ((PTable.abandonOne p s d).proc y).parent = (s.proc y).parent) := by
        intro y
        by_cases hdp : (s.proc d).parent = some p
        · rw [abandonOne_of_parent hdp, if_neg fun hz => hnow ⟨hdp, hz⟩]
          obtain ⟨hst, hch, hpr, hpa⟩ := setProc_parent_eq s d y s.initproc
          exact ⟨hst, hch, hpr, fun hy => by rw [hpa, if_neg hy]⟩
        · rw [abandonOne_of_not_parent hdp]
          simp
      refine ih (by simpa [hcd] using hc) ?_ ?_ ⟨?_, ?_⟩ ?_
      · rw [(hd c).2.2.2 hcd, hpar]
      · rw [(hd c).1, hzomb]
      · rw [(hd x).1, hsl.1]
      · rw [(hd x).2.1, hsl.2]
        simp [initChan]
      · simpa [Wakeable, (hd x).2.2.1] using hbad

theorem lost_exit {p x : Slot} {s t : PTable} (hrun : (s.proc p).state = .RUNNING)
    (ht : s.exit p = some t)
    (hw : SleepsOn s (parentChan s p) x ∨ (HasZombie s p ∧ SleepsOn s (initChan s) x))
    (hbad : ¬ Wakeable s x) : Lost t x := by
  have hsleep : (s.proc x).state = .SLEEPING := hw.elim (·.1) (·.2.1)
  have hxp : x ≠ p := by
    rintro rfl
    simp [hrun] at hsleep
  have hlost : Lost (passedOn s p) x := by
    unfold passedOn
    by_cases hfirst : SleepsOn s (parentChan s p) x
    · exact (lost_wakeup1 hfirst hbad).foldl_abandonOne _
    · obtain ⟨⟨c, hpar, hzomb⟩, hsl⟩ := hw.resolve_left hfirst
      have hzs := wakeup1_of_not_sleeping (parentChan s p) (s := s) (x := c) (by simp [hzomb])
      have hxs := wakeup1_of_not_sleepsOn hfirst
      refine lost_foldl_abandonOne _ (List.mem_finRange c) ?_ ?_ ⟨?_, ?_⟩ ?_
      · rw [hzs.parent_eq, hpar]
      · rw [hzs.state_eq, hzomb]
      · rw [hxs.state_eq, hsl.1]
      · rw [hxs.chan_eq, hsl.2]
        simp [initChan]
      · simpa [Wakeable, hxs.priority_eq] using hbad
  by_cases hp : s.initproc = some p
  · simp [PTable.exit, hp] at ht
  · rw [exit_eq hp] at ht
    obtain rfl := Option.some.inj ht
    exact hlost.of_sameButNext (by simpa [hxp] using SameButNext.refl _)

theorem lost_yield {p : Slot} {s : PTable}
    (hbad : ¬ (-2 ≤ (s.proc p).priority ∧ (s.proc p).priority < MLF_LEVELS)) :
    Lost (s.yield p) p := by
  rw [yield_eq]
  have hsame := makerunnable_self (s.setProc p { s.proc p with
    priority := if (s.proc p).priority < 3 then (s.proc p).priority + 1
      else (s.proc p).priority }) p 1
  refine ⟨hsame.state_eq, ?_⟩
  rw [hsame.priority_eq]
  simp only [PTable.setProc_same]
  exact fun hin => hbad ((yield_priority _).1 hin)

theorem exists_lost {s t : PTable} {op : Op} (ht : next s op = some t)
    (hbad : ¬ Requeueable s op) : ∃ x, Lost t x := by
  unfold Sched.next at ht
  split_ifs at ht with hrun
  unfold Requeueable at hbad
  rw [not_and_or] at hbad
  rcases hbad with hbad | hbad
  · push Not at hbad
    obtain ⟨p, rfl, hpr⟩ := hbad
    obtain rfl := Option.some.inj ht
    exact ⟨p, lost_yield fun h => absurd h.2 (by simpa using hpr h.1)⟩
  · push Not at hbad
    obtain ⟨x, hw, hbad⟩ := hbad
    cases op with
    | wakeup chan =>
      obtain rfl := Option.some.inj ht
      exact ⟨x, lost_wakeup1 hw hbad⟩
    | exit p => exact ⟨x, lost_exit (hrun p rfl) ht hw hbad⟩
    | _ => exact hw.elim

theorem Reach.inv {s : PTable} {ok : PTable → Op → Prop} (h : machine.Reach ok s) :
    Inv false s := by
  refine h.invariant (I := Inv false) ?_ fun s op t hs _ ht => hs.next ht (by simp)
  rintro _ rfl
  exact .boot false

theorem Reach.inv_full {s : PTable} (h : machine.Reach Requeueable s) : Inv true s := by
  refine h.invariant (I := Inv true) ?_ fun s op t hs hok ht => hs.next ht fun _ => hok
  rintro _ rfl
  exact .boot true

/-- The chain that starts at `first` of level `i` visits exactly `xs`. -/
structure LevelSound (s : PTable) (i : Nat) (xs : List Slot) : Prop where
  chain : IsChain s.link (s.mlf i).first xs
  nodup : xs.Nodup
  last : (s.mlf i).first ≠ none → (s.mlf i).last = xs.getLast?
  member : ∀ p ∈ xs, (s.proc p).state = .RUNNABLE ∧ (s.proc p).priority = i

/-- In every reachable table the four chains are finite and duplicate free, end
where `last` says, are disjoint, and hold runnable processes of their level. -/
theorem mlf_sound {s : PTable} (h : machine.Reachable s) :
    ∃ q : Nat → List Slot, (∀ i < MLF_LEVELS, LevelSound s i (q i)) ∧
      ∀ i < MLF_LEVELS, ∀ j < MLF_LEVELS, i ≠ j → (q i).Disjoint (q j) := by
  obtain ⟨q, hq, _⟩ := Reach.inv h
  refine ⟨q, fun i hi => ⟨hq.chain i hi, hq.nodup i hi, fun hne => ?_, hq.member i hi⟩,
    fun i hi j hj hij x hx => hq.disjoint hi hj hij hx⟩
  have hqi : q i ≠ [] := fun hnil => hne ((hq.chain i hi).eq_nil_iff.1 hnil)
  rw [List.getLast?_eq_some_getLast hqi]
  exact hq.last i hi _ (List.getLast?_eq_some_getLast hqi)

def initSlot : Slot := ⟨0, Sched.zero_lt_NPROC⟩

def childSlot : Slot := ⟨1, Sched.one_lt_NPROC⟩

/-- `init` forks two children and yields; the first child sleeps and the second wakes it. -/
def familyRun : List Op :=
  let second : Slot := ⟨2, Sched.two_lt_NPROC⟩
  [.userinit, .scheduler, .fork initSlot true true, .fork initSlot true true, .yield initSlot,
    .scheduler, .sleep childSlot (.addr 0), .scheduler, .wakeup (.addr 0), .yield second]

theorem mlf_sound_family :
    ∃ s, machine.Reachable s ∧ (∀ p : Slot, p.val < 3 → (s.proc p).state = .RUNNABLE) ∧
      ∃ q : Nat → List Slot, (∀ i < MLF_LEVELS, LevelSound s i (q i)) ∧
        ∀ i < MLF_LEVELS, ∀ j < MLF_LEVELS, i ≠ j → (q i).Disjoint (q j) := by
  have hdec : (Machine.runList next .boot familyRun).any
      (fun s => ∀ p : Slot, p.val < 3 → (s.proc p).state = .RUNNABLE) = true := by
    decide +kernel
  obtain ⟨s, hs, hrun⟩ := (Option.any_eq_true _ _).1 hdec
  have hreach := Machine.reachable_of_runList familyRun (.init rfl) hs
  exact ⟨s, hreach, of_decide_eq_true hrun, mlf_sound hreach⟩

def OnList (s : PTable) (p : Slot) : Prop :=
  InLevel (s.proc p).priority ∧
    ∃ xs, IsChain s.link (s.mlf (s.proc p).priority.toNat).first xs ∧ p ∈ xs

/-- Every runnable process can still be picked by the scheduler. -/
def NoLost (s : PTable) : Prop := ∀ p, (s.proc p).state = .RUNNABLE → OnList s p

theorem NoLost.of_inv {s : PTable} (h : Inv true s) : NoLost s := by
  obtain ⟨q, hq, hfull⟩ := h
  intro p hp
  have hon := hfull rfl p hp
  simp only [OffQueue, not_forall, not_not] at hon
  obtain ⟨i, hi, hm⟩ := hon
  have hpr := (hq.member i hi p hm).2
  refine ⟨⟨by omega, by omega⟩, q i, ?_, hm⟩
  rw [hpr]
  exact hq.chain i hi

theorem Lost.not_noLost {s : PTable} {x : Slot} (h : Lost s x) : ¬ NoLost s :=
  fun hall => h.2 (hall x h.1).1

/-- Over the runs whose steps are all `Requeueable` no runnable process is off
its list, and the condition is exact: any other step loses one. -/
theorem noLost_iff_requeueable {s : PTable} (h : machine.Reach Requeueable s) :
    NoLost s ∧ ∀ op t, machine.step s op t → (NoLost t ↔ Requeueable s op) := by
  have hinv := Reach.inv_full h
  refine ⟨.of_inv hinv, fun op t ht => ⟨fun hall => ?_, fun hok => ?_⟩⟩
  · by_contra hbad
    obtain ⟨x, hx⟩ := exists_lost ht hbad
    exact hx.not_noLost hall
  · exact .of_inv (hinv.next ht fun _ => hok)

instance (s : PTable) (op : Op) : DecidablePred (Woken s op) := fun x => by
  cases op <;> unfold Woken <;> unfold SleepsOn <;> unfold HasZombie <;> infer_instance

instance (s : PTable) (op : Op) : Decidable (Requeueable s op) := by
  unfold Requeueable Wakeable
  infer_instance

theorem noLost_iff_requeueable_family :
    ∃ s, machine.Reach Requeueable s ∧ (∀ p : Slot, p.val < 3 → (s.proc p).state = .RUNNABLE) ∧
      NoLost s ∧ ∀ op t, machine.step s op t → (NoLost t ↔ Requeueable s op) := by
  have hdec : (Machine.runList (fun s op => if Requeueable s op then next s op else none) .boot
      familyRun).any (fun s => ∀ p : Slot, p.val < 3 → (s.proc p).state = .RUNNABLE) = true := by
    decide +kernel
  obtain ⟨s, hs, hrun⟩ := (Option.any_eq_true _ _).1 hdec
  have hreach := Machine.reach_of_runList familyRun (.init rfl) hs
  exact ⟨s, hreach, of_decide_eq_true hrun, noLost_iff_requeueable hreach⟩

def lostRun : List Op := [.userinit, .scheduler, .setPriority initSlot 4, .yield initSlot]

theorem not_forall_noLost : ¬ ∀ s, machine.Reachable s → NoLost s := by
  intro hall
  have hdec : (Machine.runList next .boot lostRun).any (fun t =>
      (t.proc initSlot).state = .RUNNABLE ∧ (t.proc initSlot).priority = 4) = true := by
    decide +kernel
  obtain ⟨t, ht, hbad⟩ := (Option.any_eq_true _ _).1 hdec
  obtain ⟨hstate, hprio⟩ := by simpa using hbad
  have hreach := Machine.reachable_of_runList lostRun (.init rfl) ht
  have hin := (hall t hreach initSlot hstate).1
  rw [hprio] at hin
  exact absurd hin.2 (by simp [MLF_LEVELS])

end Xv6.Sched
