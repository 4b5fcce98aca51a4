import Xv6.Vm.Effects

/-!
# Every page has one owner

Without shared blocks the account of a page says where it is: on the free list,
in one user entry, page table or directory of one process, a kernel stack or a
pipe.  Between calls the account never exceeds one, so no two of these have the same
page; inside of `deallocuvm` a page is on the free list before its entry is cleared.
-/

namespace Xv6.Vm

open Xv6.Lib
open Xv6.Sched (Slot NPROC)

inductive Role
  | kstack
  | dir
  | table (i : Nat)
  | user (v : Nat)

inductive Place
  | free (i : Nat)
  | pipe (i : Nat)
  | proc (p : Slot) (x : Role)

def Proc.Has (r : Proc) (f : Frame) : Role → Prop
  | .kstack => r.kstack = f
  | .dir => r.pgdir.frame = f
  | .table i => i < NPDENTRIES ∧ r.pgdir.tableFrame i = some f
  | .user v => v < UPAGES ∧ r.pgdir.userFrame v = some f

/-- Page `f` is in a place.  A slot that is `UNUSED` has no pages. -/
def State.Has (s : State) (f : Frame) : Place → Prop
  | .free i => s.mem.free[i]? = some f
  | .pipe i => s.kern.pipes[i]? = some f
  | .proc p x => (s.kern.proc p).life ≠ .unused ∧ (s.kern.proc p).Has f x

/-! ## From counts to places -/

variable {f : Frame}

def Role.group : Role → Fin 4
  | .kstack => 0
  | .dir => 1
  | .table _ => 2
  | .user _ => 3

def Proc.amount (r : Proc) (f : Frame) : Fin 4 → Nat
  | 0 => if r.kstack = f then 1 else 0
  | 1 => if r.pgdir.frame = f then 1 else 0
  | 2 => Nat.count (fun i => r.pgdir.tableFrame i = some f) NPDENTRIES
  | 3 => r.pgdir.mappings f

theorem Proc.sum_amount {r : Proc} {S : Frame → Bool} (hlife : r.life ≠ .unused)
    (hS : S f = false) : ∑ g, r.amount f g = r.uses S f := by
  rw [Proc.uses_of_life hlife, PageDir.uses, hS, Fin.sum_univ_four]
  simp only [Bool.false_eq_true, if_false, Proc.amount]
  omega

theorem Proc.Has.amount_pos {r : Proc} {x : Role} (h : r.Has f x) : 0 < r.amount f x.group := by
  cases x with
  | kstack => simp [Role.group, Proc.amount, show r.kstack = f from h]
  | dir => simp [Role.group, Proc.amount, show r.pgdir.frame = f from h]
  | table i => exact count_pos_of_lt (P := fun i => r.pgdir.tableFrame i = some f) h.1 h.2
  | user v => exact PageDir.mappings_pos h.1 h.2

theorem Proc.Has.unique {r : Proc} {x y : Role} (hle : ∑ g, r.amount f g ≤ 1) (hx : r.Has f x)
    (hy : r.Has f y) : x = y := by
  have hgroup := eq_of_sum_le_one hle hx.amount_pos hy.amount_pos
  have hone : r.amount f x.group ≤ 1 :=
    (Finset.single_le_sum (fun _ _ => Nat.zero_le _) (Finset.mem_univ _)).trans hle
  cases x with
  | kstack => cases y <;> first | rfl | simp [Role.group] at hgroup
  | dir => cases y <;> first | rfl | simp [Role.group] at hgroup
  | table i =>
    cases y with
    | table j =>
      rw [count_unique (P := fun i => r.pgdir.tableFrame i = some f) hone hx.1 hy.1 hx.2 hy.2]
    | kstack | dir | user w => simp [Role.group] at hgroup
  | user v =>
    cases y with
    | user w =>
      rw [count_unique (P := fun v => r.pgdir.userFrame v = some f) hone hx.1 hy.1 hx.2 hy.2]
    | kstack | dir | table j => simp [Role.group] at hgroup

def Place.group : Place → Bool ⊕ Slot
  | .free _ => .inl false
  | .pipe _ => .inl true
  | .proc p _ => .inr p

def State.amount (s : State) (f : Frame) : Bool ⊕ Slot → Nat
  | .inl false => s.mem.free.count f
  | .inl true => s.kern.pipes.count f
  | .inr p => (s.kern.proc p).uses s.kern.shared f

theorem sum_amount_le (s : State) (f : Frame) : ∑ g, s.amount f g ≤ total s.kern s.mem f := by
  rw [Fintype.sum_sum_type, Fintype.sum_bool]
  unfold total
  simp only [State.amount]
  omega

theorem State.Has.amount_pos {s : State} {a : Place} (hS : s.kern.shared f = false)
    (h : s.Has f a) : 0 < s.amount f a.group := by
  cases a with
  | free i => exact List.count_pos_iff.2 (List.mem_of_getElem? h)
  | pipe i => exact List.count_pos_iff.2 (List.mem_of_getElem? h)
  | proc p x =>
    have hpos : (s.kern.proc p).amount f x.group ≤ ∑ g, (s.kern.proc p).amount f g :=
      Finset.single_le_sum (fun _ _ => Nat.zero_le _) (Finset.mem_univ _)
    rw [Proc.sum_amount h.1 hS] at hpos
    exact Nat.lt_of_lt_of_le h.2.amount_pos hpos

theorem Single.unique {s : State} {a b : Place} (h : Single f s.kern s.mem)
    (hS : s.kern.shared f = false) (ha : s.Has f a) (hb : s.Has f b) : a = b := by
  have hsum : ∑ g, s.amount f g ≤ 1 := (sum_amount_le s f).trans h.le
  have hgroup := eq_of_sum_le_one hsum (ha.amount_pos hS) (hb.amount_pos hS)
  have hle : s.amount f a.group ≤ 1 :=
    (Finset.single_le_sum (fun _ _ => Nat.zero_le _) (Finset.mem_univ _)).trans hsum
  cases a with
  | free i =>
    cases b with
    | free j => rw [list_count_unique hle ha hb]
    | pipe j => simp [Place.group] at hgroup
    | proc q y => simp [Place.group] at hgroup
  | pipe i =>
    cases b with
    | free j => simp [Place.group] at hgroup
    | pipe j => rw [list_count_unique hle ha hb]
    | proc q y => simp [Place.group] at hgroup
  | proc p x =>
    cases b with
    | free j => simp [Place.group] at hgroup
    | pipe j => simp [Place.group] at hgroup
    | proc q y =>
      obtain rfl : p = q := by simpa [Place.group] using hgroup
      rw [ha.2.unique (by rwa [Proc.sum_amount ha.1 hS]) hb.2]

/-! ## Runs without shared memory -/

def NoShm (_ : State) (e : Event) : Prop :=
  match e.call with
  | .shmCreate | .shmGet _ _ | .shmClose _ => False
  | _ => True

instance (s : State) : (e : Event) → Decidable (NoShm s e)
  | ⟨_, .shmCreate⟩ | ⟨_, .shmGet _ _⟩ | ⟨_, .shmClose _⟩ => inferInstanceAs (Decidable False)
  | ⟨_, .sbrk _⟩ | ⟨_, .fork⟩ | ⟨_, .exec _⟩ | ⟨_, .exit⟩ | ⟨_, .wait⟩ | ⟨_, .pipe⟩
  | ⟨_, .pipeclose _⟩ => inferInstanceAs (Decidable True)

/-- No block is created, and no process but the first one has anything in `shmem`. -/
structure Unattached (k : Kernel) : Prop where
  block : ∀ i, i < MAXSHM → (k.block i).refcount = -1
  slots : ∀ p, (k.proc p).life = .live → p = k.initproc ∨ ∀ i, (k.proc p).shmem i = -1

section Unattached

variable {k : Kernel} {m : Mem} {p : Slot}

theorem Unattached.shared_eq_false (h : Unattached k) (f : Frame) : k.shared f = false := by
  rw [Bool.eq_false_iff]
  intro hsh
  obtain ⟨j, hj, _, hpos⟩ := shared_iff.1 hsh
  have hneg := h.block j hj
  omega

theorem Unattached.setProc {r : Proc} (h : Unattached k)
    (hr : r.life = .live → p = k.initproc ∨ ∀ i, r.shmem i = -1) : Unattached (k.setProc p r) := by
  refine ⟨h.block, fun q hlive => ?_⟩
  by_cases hq : q = p
  · subst hq
    simp only [Kernel.setProc, Function.update_self] at hlive ⊢
    exact hr hlive
  · simp only [Kernel.setProc, Function.update_of_ne hq] at hlive ⊢
    exact h.slots q hlive

theorem closeAll_of_unattached {is : List Nat} (h : ∀ i, (k.proc p).shmem i = -1) :
    closeAll p is k = pure k := by
  induction is with
  | nil => rfl
  | cons i is ih => rw [closeAll_cons, if_neg (by simp [h i]), ih]

theorem Unattached.exitOk (h : ∀ i, (k.proc p).shmem i = -1) : ExitOk k p m := by
  intro j _
  rw [closeAll_of_unattached h]
  show CloseOk k p ((k.proc p).shmem j)
  rw [h j]
  intro hneg
  omega

theorem ClosesAll.eq_of_unattached {is : List Nat} {k' : Kernel} (hclose : ClosesAll p is k k')
    (h : ∀ i, (k.proc p).shmem i = -1) : k' = k := by
  induction hclose with
  | nil k => rfl
  | skip _ _ ih => exact ih h
  | close hi _ _ _ => exact absurd (h _) hi

theorem Unattached.bury (h : Unattached k) : Unattached (k.bury p) := by
  refine ⟨h.block, fun q hq => ?_⟩
  by_cases hqp : q = p
  · simp [Kernel.bury, hqp] at hq
  · have hsame : ((k.bury p).proc q).life = (k.proc q).life ∧
        ((k.bury p).proc q).shmem = (k.proc q).shmem := by
      simp only [Kernel.bury, hqp, if_false]
      split_ifs <;> exact ⟨rfl, rfl⟩
    rw [hsame.1] at hq
    rw [hsame.2]
    exact h.slots q hq

theorem Unattached.effect {s : State} {e : Event} {v : Int} {k' : Kernel}
    (h : Unattached s.kern) (hlive : (s.kern.proc e.proc).life = .live) (hok : NoShm s e)
    (heffect : Effect s.kern e.proc e.call v k') : Unattached k' := by
  obtain ⟨p, call⟩ := e
  have hp := h.slots p hlive
  cases heffect with
  | quiet _ _ _ _ _ _ => exact ⟨h.block, h.slots⟩
  | memory _ _ _ _ _ _ => exact h.setProc fun _ => hp
  | forked q kstack d _ =>
    have hpid : Unattached { s.kern with nextpid := s.kern.nextpid + 1 } := ⟨h.block, h.slots⟩
    exact hpid.setProc fun _ => .inr fun _ => rfl
  | reaped q _ => exact h.setProc fun hlive => by simp at hlive
  | exited k₁ hinit hclose =>
    obtain rfl := hclose.eq_of_unattached (hp.resolve_left hinit)
    exact h.bury
  | created | attached | closed => exact hok.elim

end Unattached

theorem post_userinit_unattached (name : Int) {m : Mem} :
    (userinit name).post (fun k _ => Unattached k) m := by
  apply post_userinit_of
  intro kstack d
  refine ⟨fun i hi => by simp [noKernel, Kernel.setProc, shmInit, hi], fun q hlive => .inl ?_⟩
  by_contra hq
  simp only [noKernel, Kernel.setProc] at hlive hq
  rw [Function.update_of_ne hq] at hlive
  simp [noProc] at hlive

theorem Reach.unattached {name : Int} {m : Mem} {s₀ s : State} (hboot : Boots name m s₀)
    (h : (machine s₀).Reach NoShm s) : Unattached s.kern := by
  apply Machine.Reach.invariant (I := fun s => Unattached s.kern) _ _ h
  · rintro t rfl
    exact (Prog.wp_run (post_userinit_unattached name)).1 _ _ hboot.run
  · intro t e u ht hok hstep
    obtain ⟨hlive, r, hrun⟩ := next_eq_some hstep
    exact ht.effect hlive hok ((Prog.wp_run (post_code_effect e.call)).1 (r, u.kern) u.mem hrun)

theorem Unattached.careful {s t : State} {e : Event} (h : Unattached s.kern) (hok : NoShm s e)
    (hnext : next s e = some t) : Careful s e := by
  obtain ⟨hlive, r, hrun⟩ := next_eq_some hnext
  obtain ⟨p, call⟩ := e
  cases call with
  | shmCreate => exact hok.elim
  | shmGet key mem => exact hok.elim
  | shmClose key => exact hok.elim
  | exit =>
    rcases h.slots p hlive with hinit | hslots
    · -- the first process does not get out of `exit`
      have hpanic : (exit s.kern p).run s.mem = .halt (.panic "init exiting") := by
        rw [exit, if_pos hinit]
        rfl
      exact absurd (hpanic.symm.trans hrun) (by simp)
    · exact Unattached.exitOk hslots
  | sbrk n => exact trivial
  | fork => exact trivial
  | exec img => exact trivial
  | wait => exact trivial
  | pipe => exact trivial
  | pipeclose f => exact trivial

/-- The state with another page table of process `p` and another free list. -/
def State.remap (s : State) (p : Slot) (d : PageDir) (m : Mem) : State :=
  ⟨s.kern.setProc p { s.kern.proc p with pgdir := d }, m⟩

/-- The loop of `deallocuvm` on the page table of process `p`, with `kfree(v)` and `*pte = 0` as
actions of their own. -/
def clearSteps (p : Slot) (keep : Frame → Bool) (top : Nat) : Nat → Nat → Prog State Unit Unit
  | 0, _ => pure ()
  | fuel + 1, a => do
    let d ← Prog.atomic () fun s => .ok ((s.kern.proc p).pgdir, s)
    if a < top then
      match d.table (a / NPTENTRIES) with
      | none => clearSteps p keep top fuel (a + NPTENTRIES)
      | some t =>
        match t.pte (a % NPTENTRIES) with
        | none => clearSteps p keep top fuel (a + 1)
        | some pte =>
          if pte.frame = 0 then Prog.panic () "kfree"
          else do
            Prog.when (keep pte.frame = false)
              ((kfree pte.frame).lift (fun s => s.mem) fun m s => { s with mem := m })
            Prog.atomic () fun s => .ok ((), s.remap p (d.setPte a none) s.mem)
            clearSteps p keep top fuel (a + 1)
    else pure ()

def deallocSteps (p : Slot) (keep : Frame → Bool) (oldsz newsz : Nat) : Prog State Unit Nat :=
  if oldsz ≤ newsz then pure oldsz
  else do
    clearSteps p keep (pages oldsz) (pages oldsz) (PGROUNDUP newsz / PGSIZE)
    pure newsz

/-- `growproc(n)` by process `p` with `n < 0`. -/
def shrinkSteps (p : Slot) (n : Int) : Prog State Unit Int := do
  let k ← Prog.atomic () fun s => .ok (s.kern, s)
  let r := k.proc p
  let sz ← deallocSteps p k.shared r.sz ((r.sz + n) % 2 ^ 32).toNat
  if sz = 0 then pure (-1)
  else do
    Prog.atomic () fun s => .ok ((), { s with
      kern := s.kern.setProc p { s.kern.proc p with sz := sz } })
    pure 0

theorem State.remap_self (s : State) (p : Slot) : s.remap p (s.kern.proc p).pgdir s.mem = s := by
  simp [remap, Kernel.setProc]

variable {p : Slot} {keep : Frame → Bool} {s : State} {d d' : PageDir} {m m' : Mem}

theorem run_clearSteps {top fuel a : Nat}
    (h : (clearRange "kfree" keep top fuel d a).run m = .ok (d', m')) :
    (clearSteps p keep top fuel a).run (s.remap p d m) = .ok ((), s.remap p d' m') := by
  induction fuel generalizing d m a with
  | zero =>
    cases h
    rfl
  | succ fuel ih =>
    rw [clearRange] at h
    rw [clearSteps]
    refine (Prog.run_bind_of_ok (a := d) (t := s.remap p d m) ?_).trans ?_
    · simp [Prog.atomic, Prog.run, State.remap, Kernel.setProc]
    by_cases ha : a < top
    swap
    · simp only [if_neg ha] at h ⊢
      cases h
      rfl
    simp only [if_pos ha] at h ⊢
    cases ht : d.table (a / NPTENTRIES) with
    | none =>
      simp only [ht] at h
      exact ih h
    | some t =>
      cases hpte : t.pte (a % NPTENTRIES) with
      | none =>
        simp only [ht, hpte] at h ⊢
        exact ih h
      | some pte =>
        simp only [ht, hpte] at h ⊢
        by_cases hzero : pte.frame = 0
        · simp [hzero, Prog.panic, Prog.run, Prog.atomic] at h
        simp only [if_neg hzero] at h ⊢
        have hclear : ∀ m₁, (clearRange "kfree" keep top fuel (d.setPte a none) (a + 1)).run m₁ =
            .ok (d', m') → (Prog.bind (Prog.atomic () fun s : State =>
              .ok ((), s.remap p (d.setPte a none) s.mem)) fun _ =>
                clearSteps p keep top fuel (a + 1)).run (s.remap p d m₁) =
                  .ok ((), s.remap p d' m') := by
          intro m₁ h₁
          refine (Prog.run_bind_of_ok (a := ()) (t := s.remap p (d.setPte a none) m₁) ?_).trans
            (ih h₁)
          simp [Prog.atomic, Prog.run, State.remap, Kernel.setProc]
        cases hkeep : keep pte.frame with
        | true =>
          simp only [hkeep] at h
          exact hclear m h
        | false =>
          simp only [hkeep] at h
          by_cases hram : m.isRam pte.frame = true
          · have hfree : (kfree pte.frame).run m =
                .ok ((), { m with free := pte.frame :: m.free }) := by
              simp [kfree, Prog.atomic, Prog.run, hram]
            refine Eq.trans ?_ (hclear _ ((Prog.run_bind_of_ok hfree).symm.trans h))
            refine Prog.run_bind_of_ok (a := ()) ?_
            simp [Prog.when, Prog.lift, kfree, Prog.atomic, Prog.run, State.remap, hram]
          · simp [kfree, bind, Prog.bind, Prog.atomic, Prog.run, hram] at h

theorem run_deallocSteps {oldsz newsz sz : Nat}
    (h : (deallocuvm keep d oldsz newsz).run m = .ok ((d', sz), m')) :
    (deallocSteps p keep oldsz newsz).run (s.remap p d m) = .ok (sz, s.remap p d' m') := by
  unfold deallocuvm at h
  unfold deallocSteps
  split_ifs at h ⊢
  · cases h
    rfl
  · obtain ⟨d₁, m₁, hclear, hret⟩ := Prog.exists_of_run_bind h
    cases hret
    exact Prog.run_bind_of_ok (run_clearSteps hclear)

/-- With nobody else at work the steps are those of `growproc`. -/
theorem run_shrinkSteps {n v : Int} {k : Kernel} (hn : n < 0)
    (h : (growproc s.kern p n).run s.mem = .ok ((v, k), m)) :
    (shrinkSteps p n).run s = .ok (v, ⟨k, m⟩) := by
  simp only [growproc, if_neg (not_lt.2 hn.le), if_pos hn] at h
  obtain ⟨⟨d, sz⟩, m₁, hdealloc, hrun⟩ := Prog.exists_of_run_bind h
  have hsteps := run_deallocSteps (p := p) (s := s) hdealloc
  rw [State.remap_self] at hsteps
  refine (Prog.run_bind_of_ok (a := s.kern) (t := s) (by simp [Prog.atomic, Prog.run])).trans
    ((Prog.run_bind_of_ok hsteps).trans ?_)
  dsimp only at hrun ⊢
  split_ifs at hrun ⊢ <;> cases hrun
  · rfl
  · simp [bind, Prog.bind, Prog.run, Prog.atomic, pure, State.remap, Kernel.setProc]

end Xv6.Vm
