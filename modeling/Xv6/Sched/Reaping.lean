import Xv6.Sched.Tree

/-!
# Whoever exits is waited for at most once

An embryo belongs to the one process that is in `fork` for it.  A process that has exited and
was not waited for is a zombie, and only its parent can be the one that waits for it.
-/

namespace Xv6.Sched

open Xv6.Lib

variable {s t : PTable} {p q x : Slot}

/-! ## Embryos -/

structure Forks (s : PTable) (fork : Slot → Option (Slot × Bool)) : Prop where
  embryo : ∀ p x b, fork p = some (x, b) → (s.proc x).state = .EMBRYO ∧
    (s.proc x).parent = (if b then some p else none) ∧ (s.proc p).Started
  maker : ∀ p q x b c, fork p = some (x, b) → fork q = some (x, c) → p = q

theorem Forks.update {fork : Slot → Option (Slot × Bool)} {y : Option (Slot × Bool)}
    (h : Forks s fork)
    (hothers : ∀ q x b, q ≠ p → fork q = some (x, b) → (t.proc x).state = .EMBRYO ∧
      (t.proc x).parent = (s.proc x).parent ∧ (t.proc q).Started)
    (hown : ∀ x b, y = some (x, b) → (t.proc x).state = .EMBRYO ∧
      (t.proc x).parent = (if b then some p else none) ∧ (t.proc p).Started ∧
      ∀ q c, q ≠ p → fork q ≠ some (x, c)) : Forks t (Function.update fork p y) := by
  constructor
  case embryo =>
    intro q x b hq
    by_cases hqp : q = p
    · subst hqp
      rw [Function.update_self] at hq
      obtain ⟨hembryo, hparent, hstart, _⟩ := hown x b hq
      exact ⟨hembryo, hparent, hstart⟩
    · rw [Function.update_of_ne hqp] at hq
      obtain ⟨hembryo, hparent, hstart⟩ := hothers q x b hqp hq
      exact ⟨hembryo, hparent.trans (h.embryo q x b hq).2.1, hstart⟩
  case maker =>
    intro q r x b c hq hr
    by_cases hqp : q = p
    · by_cases hrp : r = p
      · rw [hqp, hrp]
      · rw [hqp, Function.update_self] at hq
        rw [Function.update_of_ne hrp] at hr
        exact absurd hr ((hown x b hq).2.2.2 r c hrp)
    · by_cases hrp : r = p
      · rw [hrp, Function.update_self] at hr
        rw [Function.update_of_ne hqp] at hq
        exact absurd hq ((hown x c hr).2.2.2 q b hqp)
      · rw [Function.update_of_ne hqp] at hq
        rw [Function.update_of_ne hrp] at hr
        exact h.maker q r x b c hq hr

section Forks

variable {fork : Slot → Option (Slot × Bool)}

theorem Forks.same (h : Forks s fork)
    (hsame : ∀ q x b, fork q = some (x, b) → (t.proc x).state = .EMBRYO ∧
      (t.proc x).parent = (s.proc x).parent ∧ (t.proc q).Started) : Forks t fork := by
  refine ⟨fun q x b hq => ?_, h.maker⟩
  obtain ⟨hembryo, hparent, hstart⟩ := hsame q x b hq
  exact ⟨hembryo, hparent.trans (h.embryo q x b hq).2.1, hstart⟩

theorem Forks.resched (h : Forks s fork) (hst : Resched s t) : Forks t fork := by
  refine h.same fun q x b hq => ?_
  obtain ⟨hembryo, _, hstart⟩ := h.embryo q x b hq
  exact ⟨(hst.state_eq_iff (.inr (.inr rfl))).2 hembryo, hst.parent x, (hst.started_iff q).2 hstart⟩

theorem Forks.setProc {r : Proc} (h : Forks s fork) (hx : ¬ (s.proc x).Started)
    (hembryo : (s.proc x).state ≠ .EMBRYO) : Forks (s.setProc x r) fork := by
  refine h.same fun q y b hq => ?_
  obtain ⟨hy, _, hstart⟩ := h.embryo q y b hq
  have hyx : y ≠ x := by
    rintro rfl
    exact hembryo hy
  have hqx : q ≠ x := by
    rintro rfl
    exact hx hstart
  rw [PTable.setProc_ne _ _ hyx, PTable.setProc_ne _ _ hqx]
  exact ⟨hy, rfl, hstart⟩

theorem Forks.exit (h : Forks s fork) (ht : Exited p s t) (hp : (s.proc p).Started)
    (hidle : fork p = none) : Forks t fork := by
  refine h.same fun q x b hq => ?_
  obtain ⟨hx, hparent, hstart⟩ := h.embryo q x b hq
  have hqp : q ≠ p := by
    rintro rfl
    rw [hidle] at hq
    cases hq
  have hxp : x ≠ p := by
    rintro rfl
    exact hp.ne_embryo hx
  refine ⟨(ht.state_eq_iff hxp (.inr (.inr rfl))).2 hx, ?_, (ht.started hqp).2 hstart⟩
  rw [ht.parent, if_neg]
  rw [hparent]
  cases b with
  | false => simp
  | true => exact fun heq => hqp (Option.some.inj heq)

theorem Forks.other {np : Slot} {b : Bool} (h : Forks s fork) (hp : fork p = some (np, b))
    {c : Bool} (hqp : q ≠ p) (hq : fork q = some (x, c)) : x ≠ np ∧ q ≠ np := by
  refine ⟨?_, ?_⟩
  · rintro rfl
    exact hqp (h.maker q p x c b hq hp)
  · rintro rfl
    exact (h.embryo q x c hq).2.2.ne_embryo (h.embryo p q b hp).1

end Forks

/-! ## The ledger of exits -/

structure Ledger (s : PTable) (serial : Slot → Nat) (exited : List (Slot × Nat))
    (returned : List (Slot × Slot × Nat)) : Prop where
  le : ∀ x n, (x, n) ∈ exited → n ≤ serial x
  alive : ∀ x, (s.proc x).Started ∨ (s.proc x).state = .EMBRYO → (x, serial x) ∉ exited
  zombie : ∀ x, (s.proc x).state = .ZOMBIE → (x, serial x) ∈ exited ∧
    ∀ q, (q, x, serial x) ∉ returned
  exited : ∀ q x n, (q, x, n) ∈ returned → (x, n) ∈ exited
  once : (returned.map Prod.snd).Nodup

section Ledger

variable {serial : Slot → Nat} {exited : List (Slot × Nat)} {returned : List (Slot × Slot × Nat)}

theorem Ledger.same (h : Ledger s serial exited returned)
    (halive : ∀ x, (t.proc x).Started ∨ (t.proc x).state = .EMBRYO →
      (s.proc x).Started ∨ (s.proc x).state = .EMBRYO)
    (hzombie : ∀ x, (t.proc x).state = .ZOMBIE → (s.proc x).state = .ZOMBIE) :
    Ledger t serial exited returned :=
  ⟨h.le, fun x hx => h.alive x (halive x hx), fun x hx => h.zombie x (hzombie x hx), h.exited,
    h.once⟩

theorem Ledger.resched (h : Ledger s serial exited returned) (hst : Resched s t) :
    Ledger t serial exited returned := by
  refine h.same (fun x hx => ?_) fun x => (hst.state_eq_iff (.inl rfl)).1
  rwa [hst.started_iff, hst.state_eq_iff (.inr (.inr rfl))] at hx

theorem Ledger.alloc (h : Ledger s serial exited returned) (hx : ¬ (s.proc x).Started)
    (hother : ∀ y, y ≠ x → (t.proc y).state = (s.proc y).state)
    (hnew : (t.proc x).state ≠ .ZOMBIE) :
    Ledger t (Function.update serial x (serial x + 1)) exited returned := by
  constructor
  case le =>
    intro y n hy
    have hle := h.le y n hy
    by_cases hyx : y = x
    · subst hyx
      rw [Function.update_self]
      omega
    · rwa [Function.update_of_ne hyx]
  case alive =>
    intro y hy
    by_cases hyx : y = x
    · subst hyx
      rw [Function.update_self]
      intro hmem
      have hle := h.le y _ hmem
      omega
    · rw [Function.update_of_ne hyx]
      rw [Proc.started_congr (hother y hyx), hother y hyx] at hy
      exact h.alive y hy
  case zombie =>
    intro y hy
    have hyx : y ≠ x := by
      rintro rfl
      exact hnew hy
    rw [Function.update_of_ne hyx]
    rw [hother y hyx] at hy
    exact h.zombie y hy
  case exited => exact h.exited
  case once => exact h.once

theorem Ledger.exit (h : Ledger s serial exited returned) (ht : Exited p s t)
    (hp : (s.proc p).Started) : Ledger t serial ((p, serial p) :: exited) returned := by
  have hfresh := h.alive p (.inl hp)
  constructor
  case le =>
    intro x n hx
    rcases List.mem_cons.1 hx with heq | hx
    · obtain ⟨rfl, rfl⟩ := Prod.mk.inj heq
      exact Nat.le_refl _
    · exact h.le x n hx
  case alive =>
    intro x hx hmem
    have hxp : x ≠ p := by
      rintro rfl
      rcases hx with hx | hx
      · exact hx.ne_zombie ht.zombie
      · rw [ht.zombie] at hx
        cases hx
    rw [ht.started hxp, ht.state_eq_iff hxp (.inr (.inr rfl))] at hx
    rcases List.mem_cons.1 hmem with heq | hmem
    · exact hxp (Prod.mk.inj heq).1
    · exact h.alive x hx hmem
  case zombie =>
    intro x hx
    by_cases hxp : x = p
    · subst hxp
      exact ⟨List.mem_cons_self, fun q hq => hfresh (h.exited q x _ hq)⟩
    · rw [ht.state_eq_iff hxp (.inl rfl)] at hx
      obtain ⟨hmem, hnot⟩ := h.zombie x hx
      exact ⟨List.mem_cons_of_mem _ hmem, hnot⟩
  case exited => exact fun q x n hq => List.mem_cons_of_mem _ (h.exited q x n hq)
  case once => exact h.once

theorem Ledger.reap (h : Ledger s serial exited returned) (hx : (s.proc x).state = .ZOMBIE)
    {r : Proc} (hr : r.state = .UNUSED) (p : Slot) :
    Ledger (s.setProc x r) serial exited ((p, x, serial x) :: returned) := by
  obtain ⟨hexited, hnot⟩ := h.zombie x hx
  have hne : ∀ y, ((s.setProc x r).proc y).state ≠ .UNUSED → y ≠ x := by
    rintro y hy rfl
    rw [PTable.setProc_same] at hy
    exact hy hr
  constructor
  case le => exact h.le
  case alive =>
    intro y hy
    have hyx : y ≠ x := hne y (hy.elim (fun hs => hs.ne_unused) fun he => by simp [he])
    rw [PTable.setProc_ne _ _ hyx] at hy
    exact h.alive y hy
  case zombie =>
    intro y hy
    have hyx : y ≠ x := hne y (by simp [hy])
    rw [PTable.setProc_ne _ _ hyx] at hy
    obtain ⟨hmem, hreturned⟩ := h.zombie y hy
    refine ⟨hmem, fun q hq => ?_⟩
    rcases List.mem_cons.1 hq with heq | hq
    · exact hyx (Prod.mk.inj (Prod.mk.inj heq).2).1
    · exact hreturned q hq
  case exited =>
    intro q y n hq
    rcases List.mem_cons.1 hq with heq | hq
    · obtain ⟨_, heq⟩ := Prod.mk.inj heq
      rw [heq]
      exact hexited
    · exact h.exited q y n hq
  case once =>
    rw [List.map_cons, List.nodup_cons]
    refine ⟨fun hmem => ?_, h.once⟩
    obtain ⟨⟨q, y⟩, hq, heq⟩ := List.mem_map.1 hmem
    obtain rfl : y = (x, serial x) := heq
    exact hnot q hq

end Ledger

/-! ## Whole runs -/

structure FamilyInv (s : Family) : Prop where
  queue : Inv false s.table
  kin : Kin s.table
  forks : Forks s.table s.fork
  ledger : Ledger s.table s.serial s.exited s.returned

theorem allocproc_some (h : s.allocproc true = (t, some x)) :
    (s.proc x).state = .UNUSED ∧ ∃ r, r.state = .EMBRYO ∧ r.parent = (s.proc x).parent ∧
      Resched (s.setProc x r) t := by
  unfold PTable.allocproc at h
  split at h
  · cases h
  · rename_i y hfind
    simp only [if_true, Prod.mk.injEq, Option.some.injEq] at h
    obtain ⟨rfl, rfl⟩ := h
    refine ⟨find_unused hfind, { s.proc y with
      state := .EMBRYO, pid := s.nextpid, priority := 0 }, rfl, rfl, ?_⟩
    refine .of_sameButNext (fun z => ?_) rfl
    by_cases hz : z = y
    · subst hz
      simpa using SameButNext.refl _
    · simpa [hz] using SameButNext.refl _

theorem allocproc_none (h : s.allocproc true = (t, none)) : t = s := by
  unfold PTable.allocproc at h
  split at h
  · exact (Prod.mk.inj h).1.symm
  · simp at h

theorem userinit_some (hdead : ∀ z, ¬ (s.proc z).Started) (hu : s.userinit = some t)
    (hx : t.initproc = some x) :
    ((s.proc x).state = .UNUSED ∧ (t.proc x).state = .RUNNABLE ∧
      (t.proc x).parent = (s.proc x).parent) ∧
    ∀ z, z ≠ x → (t.proc z).state = (s.proc z).state ∧ (t.proc z).parent = (s.proc z).parent := by
  unfold PTable.userinit at hu
  split at hu
  · cases hu
  · rename_i w y halloc
    obtain rfl := Option.some.inj hu
    obtain rfl : y = x := by simpa using hx
    obtain ⟨hunused, r, _, hparent, hst⟩ := allocproc_some halloc
    refine ⟨⟨hunused, ?_, ?_⟩, fun z hz => ?_⟩
    · exact (makerunnable_self _ y 0).state_eq
    · refine (makerunnable_self _ y 0).parent_eq.trans ((hst.parent y).trans ?_)
      rw [PTable.setProc_same, hparent]
    · have hset : (s.setProc y r).proc z = s.proc z := PTable.setProc_ne _ _ hz
      have hsame := makerunnable_ne { w with initproc := some y } 0 hz
      refine ⟨hsame.state_eq.trans ?_, hsame.parent_eq.trans ?_⟩
      · exact (hst.state_eq (by rw [hset]; exact hdead z)).trans (by rw [hset])
      · exact (hst.parent z).trans (by rw [hset])

namespace FamilyInv

variable {s t : Family} {p q x : Slot}

theorem resched {u : PTable} (h : FamilyInv s) (hq : Inv false u) (hst : Resched s.table u) :
    FamilyInv { s with table := u } :=
  ⟨hq, h.kin.resched hst, h.forks.resched hst, h.ledger.resched hst⟩

theorem userinit {u : PTable} (h : FamilyInv s) (hnone : s.table.initproc = none)
    (hu : s.table.userinit = some u) (hx : u.initproc = some x) :
    FamilyInv (s.allocated u x) := by
  have hdead := h.kin.boot hnone
  have hzombie : ∀ z, (s.table.proc z).state ≠ .ZOMBIE := by
    intro z hz
    obtain ⟨q, _, hq, _⟩ := h.kin.parent z (.inr hz) (by simp [hnone])
    exact hdead q hq
  obtain ⟨⟨hunused, hstate, hparent⟩, hother⟩ := userinit_some hdead hu hx
  have honly : ∀ z, (u.proc z).Started ∨ (u.proc z).state = .ZOMBIE → z = x := by
    intro z hz
    by_contra hzx
    rw [Proc.started_congr (hother z hzx).1, (hother z hzx).1] at hz
    exact hz.elim (hdead z) (hzombie z)
  refine ⟨h.queue.userinit hu, ?_, ?_, ?_⟩
  · constructor
    case parent => exact fun z hz hroot => absurd (hx.trans (congrArg some (honly z hz).symm)) hroot
    case unused =>
      intro z hz
      have hzx : z ≠ x := by
        rintro rfl
        exact absurd (hstate.symm.trans hz) (by simp)
      exact (hother z hzx).2.trans (h.kin.unused z ((hother z hzx).1.symm.trans hz))
    case init =>
      intro i hi
      obtain rfl : x = i := Option.some.inj (hx.symm.trans hi)
      exact ⟨.inr (.inl hstate), hparent.trans (h.kin.unused x hunused)⟩
    case boot => exact fun hnone' => absurd (hx.symm.trans hnone') (by simp)
    case waits =>
      intro z hz
      obtain rfl := honly z (.inl (.inl hz.1))
      exact absurd (hstate.symm.trans hz.1) (by simp)
  · refine h.forks.same fun q z b hq => ?_
    exact absurd (h.forks.embryo q z b hq).2.2 (hdead q)
  · exact h.ledger.alloc (hdead x) (fun z hz => (hother z hz).1)
      fun hz => absurd (hstate.symm.trans hz) (by simp)

theorem allocproc {u : PTable} (h : FamilyInv s) (hp : (s.table.proc p).Started)
    (hx : s.table.allocproc true = (u, some x)) :
    FamilyInv ((s.allocated u x).setFork p (some (x, false))) := by
  obtain ⟨hunused, r, hr, hparent, hst⟩ := allocproc_some hx
  have hnot : ¬ (s.table.proc x).Started := fun hstart => hstart.ne_unused hunused
  have hxp : p ≠ x := by
    rintro rfl
    exact hnot hp
  have hself : (u.proc x).state = .EMBRYO ∧ (u.proc x).parent = none := by
    rw [hst.state_eq_iff (.inr (.inr rfl)), hst.parent, PTable.setProc_same, hparent]
    exact ⟨hr, h.kin.unused x hunused⟩
  have hforks : Forks u s.fork :=
    (h.forks.setProc hnot (by simp [hunused])).resched hst
  constructor
  case queue =>
    have hq := (h.queue.allocproc true).1
    rwa [hx] at hq
  case kin => exact (h.kin.setProc hnot (.inl hr)).resched hst
  case forks =>
    show Forks u (Function.update s.fork p (some (x, false)))
    refine hforks.update (fun q y b _ hq => ?_) fun y b hy => ?_
    · obtain ⟨hembryo, _, hstart⟩ := hforks.embryo q y b hq
      exact ⟨hembryo, rfl, hstart⟩
    · obtain ⟨rfl, rfl⟩ := Prod.mk.inj (Option.some.inj hy)
      refine ⟨hself.1, by simpa using hself.2, ?_, fun q c _ hq => ?_⟩
      · rw [hst.started_iff, PTable.setProc_ne _ _ hxp]
        exact hp
      · have hembryo := (h.forks.embryo q x c hq).1
        rw [hunused] at hembryo
        cases hembryo
  case ledger =>
    have hother : ∀ y, y ≠ x → ((s.table.setProc x r).proc y).state =
        (s.table.proc y).state := fun y hy => by rw [PTable.setProc_ne _ _ hy]
    have hset := h.ledger.alloc (t := s.table.setProc x r) hnot hother (by simp [hr])
    exact hset.resched hst

theorem embryo {r : Proc} {b : Bool} {y : Option (Slot × Bool)} (h : FamilyInv s)
    (hp : s.fork p = some (x, b))
    (hr : r.state = .EMBRYO ∨ r.state = .UNUSED ∧ r.parent = none)
    (hy : ∀ z c, y = some (z, c) → z = x ∧ r.state = .EMBRYO ∧
      r.parent = if c then some p else none) :
    FamilyInv ({ s with table := s.table.setProc x r }.setFork p y) := by
  obtain ⟨hembryo, hparent, hstart⟩ := h.forks.embryo p x b hp
  have hnot : ¬ (s.table.proc x).Started := fun hx => hx.ne_embryo hembryo
  have hpx : p ≠ x := by
    rintro rfl
    exact hnot hstart
  constructor
  case queue =>
    refine h.queue.setProc (by simp [hembryo]) ?_
    rcases hr with hr | ⟨hr, _⟩ <;> simp [hr]
  case kin => exact h.kin.setProc hnot hr
  case forks =>
    show Forks (s.table.setProc x r) (Function.update s.fork p y)
    refine h.forks.update (fun q z c hqp hq => ?_) fun z c hz => ?_
    · obtain ⟨hzx, hqx⟩ := h.forks.other hp hqp hq
      rw [PTable.setProc_ne _ _ hzx, PTable.setProc_ne _ _ hqx]
      exact ⟨(h.forks.embryo q z c hq).1, rfl, (h.forks.embryo q z c hq).2.2⟩
    · obtain ⟨rfl, hstate, hparent'⟩ := hy z c hz
      rw [PTable.setProc_same, PTable.setProc_ne _ _ hpx]
      refine ⟨hstate, hparent', hstart, fun q c hqp hq => ?_⟩
      exact (h.forks.other hp hqp hq).1 rfl
  case ledger =>
    show Ledger (s.table.setProc x r) s.serial s.exited s.returned
    refine h.ledger.same (fun z hz => ?_) fun z hz => ?_
    · by_cases hzx : z = x
      · exact .inr (hzx ▸ hembryo)
      · rwa [PTable.setProc_ne _ _ hzx] at hz
    · by_cases hzx : z = x
      · subst hzx
        rw [PTable.setProc_same] at hz
        rcases hr with hr | ⟨hr, _⟩
        · rw [hr] at hz
          cases hz
        · rw [hr] at hz
          cases hz
      · rwa [PTable.setProc_ne _ _ hzx] at hz

theorem finish (h : FamilyInv s) (hp : s.fork p = some (x, true)) :
    FamilyInv ({ s with table := s.table.makerunnable x 0 }.setFork p none) := by
  obtain ⟨hembryo, hparent, hstart⟩ := h.forks.embryo p x true hp
  have hself := makerunnable_self s.table x 0
  have hother : ∀ z, z ≠ x → SameButNext ((s.table.makerunnable x 0).proc z) (s.table.proc z) :=
    fun z hz => makerunnable_ne s.table 0 hz
  constructor
  case queue => exact h.queue.makerunnable (by simp [hembryo]) (by simp)
  case kin => exact h.kin.start hembryo (by simpa using hparent) hstart 0
  case forks =>
    refine h.forks.update (fun q z c hqp hq => ?_) fun z c hz => ?_
    · obtain ⟨hzx, hqx⟩ := h.forks.other hp hqp hq
      obtain ⟨hz, _, hq'⟩ := h.forks.embryo q z c hq
      exact ⟨(hother z hzx).state_eq.trans hz, (hother z hzx).parent_eq,
        (Proc.started_congr (hother q hqx).state_eq).2 hq'⟩
    · cases hz
  case ledger =>
    show Ledger (s.table.makerunnable x 0) s.serial s.exited s.returned
    refine h.ledger.same (fun z hz => ?_) fun z hz => ?_
    · by_cases hzx : z = x
      · exact .inr (hzx ▸ hembryo)
      · rwa [Proc.started_congr (hother z hzx).state_eq, (hother z hzx).state_eq] at hz
    · by_cases hzx : z = x
      · subst hzx
        rw [hself.state_eq] at hz
        cases hz
      · rwa [(hother z hzx).state_eq] at hz

theorem exit {u : PTable} (h : FamilyInv s) (hp : (s.table.proc p).state = .RUNNING)
    (hidle : s.fork p = none) (hu : s.table.exit p = some u) :
    FamilyInv { s with table := u, exited := (p, s.serial p) :: s.exited } := by
  have hexit := exited_of_exit hp hu
  have hstart : (s.table.proc p).Started := .inr (.inr hp)
  exact ⟨h.queue.exit hp hu (by simp), h.kin.exit hstart hexit,
    h.forks.exit hexit hstart hidle, h.ledger.exit hexit hstart⟩

theorem zombieChild (hx : s.table.zombieChild p = some x) :
    (s.table.proc x).parent = some p ∧ (s.table.proc x).state = .ZOMBIE := by
  simpa using List.find?_some hx

theorem wait (h : FamilyInv s) (hp : (s.table.proc p).state = .RUNNING)
    (ht : s.apply (.wait p) = some t) : FamilyInv t := by
  simp only [Family.apply] at ht
  cases hz : s.table.zombieChild p with
  | some x =>
    rw [wait_of_zombieChild hz, hz] at ht
    obtain rfl := Option.some.inj ht
    obtain ⟨_, hzombie⟩ := zombieChild hz
    have hnot : ¬ (s.table.proc x).Started := fun hx => hx.ne_zombie hzombie
    exact ⟨h.queue.setProc (by simp [hzombie]) (by simp),
      h.kin.setProc hnot (.inr ⟨rfl, rfl⟩), h.forks.setProc hnot (by simp [hzombie]),
      h.ledger.reap hzombie rfl p⟩
  | none =>
    rw [hz] at ht
    obtain rfl := Option.some.inj ht
    refine h.resched (h.queue.wait hp) ?_
    have hnone : ¬ HasZombie s.table p := by
      rintro ⟨c, hparent, hzombie⟩
      have hall := List.find?_eq_none.1 hz c (List.mem_finRange c)
      simp [hparent, hzombie] at hall
    unfold PTable.zombieChild at hz
    unfold PTable.wait
    rw [hz]
    show Resched s.table (ite _ _ _ : PTable × Option Int).1
    split_ifs
    · exact .refl _
    · exact .sleep hp _ fun _ => hnone

theorem next (h : FamilyInv s) {op : FamilyOp} (ht : s.next op = some t) : FamilyInv t := by
  obtain ⟨hallowed, ht⟩ := Family.next_eq_some.1 ht
  cases op with
  | userinit =>
    simp only [Family.apply, Option.ite_none_right_eq_some] at ht
    obtain ⟨hnone, ht⟩ := ht
    split at ht
    · cases ht
    · rename_i u hu
      obtain ⟨x, hx, rfl⟩ := Option.map_eq_some_iff.1 ht
      exact h.userinit hnone hu hx
  | allocproc p =>
    simp only [Family.apply] at ht
    cases halloc : s.table.allocproc true with
    | mk u np =>
      rw [halloc] at ht
      cases np with
      | none =>
        obtain rfl := Option.some.inj ht
        obtain rfl := allocproc_none halloc
        exact h
      | some np =>
        obtain rfl := Option.some.inj ht
        exact h.allocproc (.inr (.inr hallowed.1)) halloc
  | giveUp p =>
    simp only [Family.apply] at ht
    split at ht
    · rename_i np hp
      obtain rfl := Option.some.inj ht
      have hparent := (h.forks.embryo p np false hp).2.1
      refine h.embryo hp (.inr ⟨rfl, by simpa using hparent⟩) ?_
      rintro z c ⟨⟩
    · cases ht
  | setParent p =>
    simp only [Family.apply] at ht
    split at ht
    · rename_i np hp
      obtain rfl := Option.some.inj ht
      have hembryo := (h.forks.embryo p np false hp).1
      refine h.embryo hp (.inl hembryo) ?_
      rintro z c ⟨⟩
      exact ⟨rfl, hembryo, rfl⟩
    · cases ht
  | finish p =>
    simp only [Family.apply] at ht
    split at ht
    · rename_i np hp
      obtain rfl := Option.some.inj ht
      exact h.finish hp
    · cases ht
  | scheduler =>
    obtain rfl := Option.some.inj ht
    exact h.resched h.queue.scheduler (.scheduler h.queue)
  | yield p =>
    obtain rfl := Option.some.inj ht
    exact h.resched (h.queue.yield hallowed (by simp)) (.yield hallowed)
  | sleep p a =>
    obtain rfl := Option.some.inj ht
    exact h.resched (h.queue.sleep hallowed.1 _) (.sleep hallowed.1 _ (by simp))
  | wakeup chan =>
    obtain rfl := Option.some.inj ht
    exact h.resched (h.queue.wakeup1 _ (by simp)) (.wakeup1 _ _)
  | kill pid =>
    obtain rfl := Option.some.inj ht
    exact h.resched (h.queue.kill pid) (.kill _ pid)
  | exit p =>
    obtain ⟨u, hu, rfl⟩ := Option.map_eq_some_iff.1 ht
    exact h.exit hallowed.1 hallowed.2 hu
  | wait p => exact h.wait hallowed.1 ht
  | setPriority p pr =>
    obtain rfl := Option.some.inj ht
    exact h.resched (h.queue.sysSetPriority hallowed.1 pr) (.sysSetPriority hallowed.1 pr)

theorem boot : FamilyInv .boot := by
  have hunused : ∀ x, ¬ (Family.boot.table.proc x).Started ∧
      (Family.boot.table.proc x).state ≠ .ZOMBIE := by
    intro x
    simp [Family.boot, PTable.boot, Proc.zero, Proc.Started]
  refine ⟨Inv.boot false, ?_, ⟨?_, ?_⟩, ?_⟩
  · constructor
    case parent => exact fun x hx _ => absurd hx (by simp [hunused x])
    case unused => exact fun x _ => rfl
    case init => rintro i ⟨⟩
    case boot => exact fun _ x => (hunused x).1
    case waits => exact fun x hx => absurd (.inl hx.1) (hunused x).1
  · rintro p x b ⟨⟩
  · rintro p q x b c ⟨⟩
  · constructor
    case le => simp [Family.boot]
    case alive => simp [Family.boot]
    case zombie => exact fun x hx => absurd hx (hunused x).2
    case exited => simp [Family.boot]
    case once => simp [Family.boot]

end FamilyInv

theorem familyInv_of_reachable {s : Family} (h : familyMachine.Reachable s) : FamilyInv s := by
  refine Machine.Reach.invariant (fun s hs => ?_) (fun s op t hs _ ht => hs.next ht) h
  rw [show s = .boot from hs]
  exact .boot

theorem returned_of_next {s t : Family} {op : FamilyOp} (ht : s.next op = some t) :
    t.returned = s.returned ∨ ∃ q x, op = .wait q ∧ (s.table.proc x).parent = some q ∧
      (s.table.proc x).state = .ZOMBIE ∧ (s.table.wait q).2 = some (s.table.proc x).pid ∧
      t.returned = (q, x, s.serial x) :: s.returned := by
  obtain ⟨_, ht⟩ := Family.next_eq_some.1 ht
  cases op with
  | wait p =>
    obtain rfl := Option.some.inj ht
    cases hz : s.table.zombieChild p with
    | none => exact .inl rfl
    | some x =>
      obtain ⟨hparent, hzombie⟩ := FamilyInv.zombieChild hz
      refine .inr ⟨p, x, rfl, hparent, hzombie, ?_, rfl⟩
      rw [wait_of_zombieChild hz]
  | userinit =>
    simp only [Family.apply, Option.ite_none_right_eq_some] at ht
    obtain ⟨_, ht⟩ := ht
    split at ht
    · cases ht
    · obtain ⟨x, _, rfl⟩ := Option.map_eq_some_iff.1 ht
      exact .inl rfl
  | exit p =>
    obtain ⟨u, _, rfl⟩ := Option.map_eq_some_iff.1 ht
    exact .inl rfl
  | allocproc p =>
    simp only [Family.apply] at ht
    split at ht
    · obtain rfl := Option.some.inj ht
      exact .inl rfl
    · obtain rfl := Option.some.inj ht
      exact .inl rfl
  | giveUp p | setParent p | finish p =>
    simp only [Family.apply] at ht
    split at ht
    · obtain rfl := Option.some.inj ht
      exact .inl rfl
    · cases ht
  | scheduler | yield p | sleep p a | wakeup chan | kill pid | setPriority p pr =>
    obtain rfl := Option.some.inj ht
    exact .inl rfl

/-- In every run each process but the first has a parent that is in use and has not exited,
nobody sleeps in `wait` with a child that has exited, and each process that has exited is
returned at most once, to the process that is its parent then. -/
theorem process_tree {s : Family} (h : familyMachine.Reachable s) :
    (∀ x, (s.table.proc x).state = .SLEEPING ∨ (s.table.proc x).state = .RUNNABLE ∨
        (s.table.proc x).state = .RUNNING ∨ (s.table.proc x).state = .ZOMBIE →
      s.table.initproc ≠ some x → ∃ q, (s.table.proc x).parent = some q ∧
        (s.table.proc q).state ≠ .UNUSED ∧ (s.table.proc q).state ≠ .EMBRYO ∧
        (s.table.proc q).state ≠ .ZOMBIE) ∧
    (∀ x, (s.table.proc x).state = .SLEEPING → (s.table.proc x).chan = some (.proc x) →
      ∀ c, (s.table.proc c).parent = some x → (s.table.proc c).state ≠ .ZOMBIE) ∧
    ((s.returned.map Prod.snd).Nodup ∧ ∀ r ∈ s.returned, r.2 ∈ s.exited) ∧
    ∀ op t, s.next op = some t → t.returned = s.returned ∨
      ∃ q x, op = .wait q ∧ (s.table.proc x).parent = some q ∧
        (s.table.proc x).state = .ZOMBIE ∧ (s.table.wait q).2 = some (s.table.proc x).pid ∧
        t.returned = (q, x, s.serial x) :: s.returned := by
  have hinv := familyInv_of_reachable h
  refine ⟨fun x hx hroot => ?_, fun x hsleep hchan c hparent hzombie => ?_,
    ⟨hinv.ledger.once, fun r hr => hinv.ledger.exited r.1 r.2.1 r.2.2 hr⟩,
    fun op t ht => returned_of_next ht⟩
  · have hborn : (s.table.proc x).Started ∨ (s.table.proc x).state = .ZOMBIE := by
      unfold Proc.Started
      tauto
    obtain ⟨q, hparent, hq, _⟩ := hinv.kin.parent x hborn hroot
    exact ⟨q, hparent, hq.ne_unused, hq.ne_embryo, hq.ne_zombie⟩
  · exact hinv.kin.waits x ⟨hsleep, hchan⟩ ⟨c, hparent, hzombie⟩

/-- `init` forks a child, which exits while `init` sleeps in `wait`, and is returned. -/
def childRun : List FamilyOp :=
  [.userinit, .scheduler, .allocproc initSlot, .setParent initSlot, .finish initSlot,
    .wait initSlot, .scheduler, .exit ⟨1, Sched.one_lt_NPROC⟩, .scheduler, .wait initSlot]

theorem process_tree_child : ∃ s, familyMachine.Reachable s ∧
    s.exited = [(⟨1, by decide⟩, 1)] ∧ s.returned = [(initSlot, ⟨1, by decide⟩, 1)] ∧
    (s.returned.map Prod.snd).Nodup := by
  have hrun : ((Machine.runList Family.next .boot childRun).map fun s =>
      (s.exited, s.returned)) =
        some ([(⟨1, by decide⟩, 1)], [(initSlot, ⟨1, by decide⟩, 1)]) := by
    decide +kernel
  obtain ⟨s, hs, hobs⟩ := Option.map_eq_some_iff.1 hrun
  obtain ⟨hexited, hreturned⟩ := Prod.mk.inj hobs
  have hreach := Machine.reachable_of_runList childRun (.init rfl) hs
  exact ⟨s, hreach, hexited, hreturned, (process_tree hreach).2.2.1.1⟩

end Xv6.Sched
