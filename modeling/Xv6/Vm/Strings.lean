import Xv6.Files.Dir
import Xv6.Lib.Pool
import Xv6.Vm.Owners

/-!
# Strings in user memory

A path is checked by `fetchstr` when the call begins, and is read where it lies by `namex`,
while other processes run and store to the pages that they map.  The kernel stops reading at
the first NUL it finds, which need not be there any more.
-/

namespace Xv6.Vm

open Xv6.Lib
open Xv6.Sched (Slot)
open Xv6.Files (SLASH DIRSIZ)

structure Space where
  vm : State
  ram : Frame → Nat → UInt8

namespace Space

def sz (s : Space) (p : Slot) : Nat := (s.vm.kern.proc p).sz

def pte (s : Space) (p : Slot) (va : Nat) : Option Pte :=
  (s.vm.kern.proc p).pgdir.lookup (va / PGSIZE)

def byte (s : Space) (p : Slot) (va : Nat) : Option UInt8 :=
  (s.pte p va).map fun pte => s.ram pte.frame (va % PGSIZE)

def Writes (s : Space) (q : Slot) (f : Frame) : Prop :=
  (s.vm.kern.proc q).life = .live ∧
    ∃ va pte, s.pte q va = some pte ∧ pte.u = true ∧ pte.w = true ∧ pte.frame = f

/-- The address is in a page that no other process can store to. -/
def Private (s : Space) (p : Slot) (va : Nat) : Prop :=
  ∃ pte, s.pte p va = some pte ∧ ∀ q, q ≠ p → ¬ s.Writes q pte.frame

/-- A string that the other processes can not make longer than the memory, or one that they
can not touch at all. -/
def Guarded (s : Space) (p : Slot) (addr : Nat) : Prop :=
  (∃ va, addr ≤ va ∧ va < s.sz p ∧ s.Private p va ∧ s.byte p va = some 0) ∨
    ∀ va, addr ≤ va → va < s.sz p → s.Private p va

end Space

/-- What the kernel does with the memory of a process in a call. -/
inductive Touch
  | other
  /-- `fetchstr` begins. -/
  | fetch (addr : Nat)
  /-- The byte at the address is read. -/
  | load (va : Nat)
  deriving DecidableEq

abbrev StrM (α : Type) : Type 1 := Prog Space Touch α

/-- The length of the address space bounds every loop over a string. -/
def ADDRESSES : Nat := 2 ^ 32

/-- A read by the kernel; a page that is not there is a fault in the kernel. -/
def load (p : Slot) (va : Nat) : StrM UInt8 :=
  .atomic (.load va) fun s =>
    match s.byte p va with
    | some c => .ok (c, s)
    | none => .halt (.panic "trap")

def fetchLoop (p : Slot) : Nat → Nat → StrM Bool
  | 0, _ => pure false
  | n + 1, va => do
    let c ← load p va
    if c = 0 then pure true else fetchLoop p n (va + 1)

/-- `fetchstr`; `false` is its result -1. -/
def fetchstr (p : Slot) (addr : Nat) : StrM Bool := do
  let sz ← Prog.atomic (.fetch addr) fun s => .ok (s.sz p, s)
  if sz ≤ addr then pure false else fetchLoop p (sz - addr) addr

def scan (p : Slot) (go : UInt8 → Bool) : Nat → Nat → StrM Nat
  | 0, path => pure path
  | n + 1, path => do
    let c ← load p path
    if go c then scan p go n (path + 1) else pure path

def copyName (p : Slot) : Nat → Nat → StrM (List UInt8)
  | 0, _ => pure []
  | n + 1, va => do
    let c ← load p va
    let cs ← copyName p n (va + 1)
    pure (c :: cs)

def skipelem (p : Slot) (path : Nat) : StrM (Option (Nat × List UInt8)) := do
  let path ← scan p (· = SLASH) ADDRESSES path
  let c ← load p path
  if c = 0 then pure none
  else do
    let last ← scan p (fun c => c ≠ SLASH && c ≠ 0) ADDRESSES path
    let name ← copyName p (min (last - path) DIRSIZ) path
    let next ← scan p (· = SLASH) ADDRESSES last
    pure (some (next, name))

def namexElem (p : Slot) (nameiparent : Bool) (path : Nat) : StrM (Option Nat) := do
  let r ← skipelem p path
  match r with
  | none => pure none
  | some (path, _) => do
    -- `ilock` may sleep
    Prog.atomic .other fun s => .ok ((), s)
    if nameiparent then do
      let c ← load p path
      if c = 0 then pure none else pure (some path)
    else pure (some path)

/-- The loop of `namex`; `found` says for each element whether it is found in a directory. -/
def namexLoop (p : Slot) (nameiparent : Bool) : List Bool → Nat → StrM Unit
  | [], path => do
    let _ ← namexElem p nameiparent path
    pure ()
  | found :: rest, path => do
    let r ← namexElem p nameiparent path
    match r with
    | none => pure ()
    | some path => if found then namexLoop p nameiparent rest path else pure ()

def namex (p : Slot) (nameiparent : Bool) (found : List Bool) (path : Nat) : StrM Unit := do
  let _ ← load p path
  namexLoop p nameiparent found path

/-- The loop of `exec` that looks for the last element of the path. -/
def lastElem (p : Slot) : Nat → Nat → Nat → StrM Nat
  | 0, _, last => pure last
  | n + 1, va, last => do
    let c ← load p va
    if c = 0 then pure last
    else lastElem p n (va + 1) (if c = SLASH then va + 1 else last)

def safestrcpy (p : Slot) : Nat → Nat → StrM (List UInt8)
  | 0, _ => pure []
  | n + 1, va => do
    let c ← load p va
    if c = 0 then pure []
    else do
      let cs ← safestrcpy p n (va + 1)
      pure (c :: cs)

/-- The name that `exec` keeps for debugging; `proc->name` has 16 bytes. -/
def execName (p : Slot) (path : Nat) : StrM Unit := do
  let last ← lastElem p ADDRESSES path path
  let _ ← safestrcpy p 15 last
  pure ()

/-- A path argument, how it is looked up, which elements are found, and whether the call is
`exec`. -/
structure PathArg where
  addr : UInt32
  nameiparent : Bool
  found : List Bool
  exec : Bool

def fetchAll (p : Slot) : List PathArg → StrM Bool
  | [] => pure true
  | x :: xs => do
    let ok ← fetchstr p x.addr.toNat
    if ok then fetchAll p xs else pure false

/-- A system call with paths: each is looked up after `argstr` has checked them all. -/
def pathCall (p : Slot) (args : List PathArg) : StrM Int := do
  let ok ← fetchAll p args
  if ok then do
    Prog.forList args fun x => do
      -- `begin_trans` may sleep
      Prog.atomic .other fun s => .ok ((), s)
      namex p x.nameiparent x.found x.addr.toNat
      Prog.when x.exec (execName p x.addr.toNat)
    pure 0
  else pure (-1)

structure Store where
  proc : Slot
  va : Nat
  value : UInt8

def Space.store (busy : Slot → Bool) (s : Space) (e : Store) : Option Space :=
  if busy e.proc = false ∧ (s.vm.kern.proc e.proc).life = .live then
    match s.pte e.proc e.va with
    | some pte =>
      if pte.u ∧ pte.w then
        some { s with
          ram := Function.update s.ram pte.frame
            (Function.update (s.ram pte.frame) (e.va % PGSIZE) e.value) }
      else none
    | none => none
  else none

def pathSystem : System Slot (List PathArg) Store Space Touch Int where
  code := pathCall
  ready s p := (s.vm.kern.proc p).life = .live
  env := Space.store

/-- The system calls and stores from a state that the kernel can be in. -/
def pathMachine : Machine (Pool Slot Space Touch Int) (Turn Slot (List PathArg) Store) :=
  Pool.machine pathSystem fun s =>
    ∃ name m s₀, Boots name m s₀ ∧ (machine s₀).Reachable s.vm

/-! ## What a call relies on -/

/-- The size of the process and the bytes that only it can store to. -/
structure Reading where
  sz : Nat
  fixed : Nat → Option UInt8

/-- The account is right: these bytes stay what they are while the process is in a call. -/
structure Reading.Ok (s : Space) (p : Slot) (r : Reading) : Prop where
  sz : r.sz = s.sz p
  fixed : ∀ va c, r.fixed va = some c ↔ s.Private p va ∧ s.byte p va = some c

def Reading.Ends (r : Reading) (addr : Nat) : Prop :=
  ∃ va, addr ≤ va ∧ va < r.sz ∧ r.fixed va = some 0

theorem Reading.Ends.mono {r : Reading} {a b : Nat} (h : r.Ends b) (hab : a ≤ b) :
    r.Ends a := by
  obtain ⟨va, hle, hva, hnul⟩ := h
  exact ⟨va, Nat.le_trans hab hle, hva, hnul⟩

theorem Reading.Ends.lt {r : Reading} {addr : Nat} (h : r.Ends addr) : addr < r.sz := by
  obtain ⟨va, hle, hva, _⟩ := h
  exact Nat.lt_of_le_of_lt hle hva

theorem Reading.Ends.tail {r : Reading} {addr : Nat} {c : UInt8} (h : r.Ends addr)
    (hc : ∀ d, r.fixed addr = some d → c = d) (hne : c ≠ 0) : r.Ends (addr + 1) := by
  obtain ⟨va, hle, hva, hnul⟩ := h
  have hother : addr ≠ va := by
    intro heq
    subst heq
    exact hne (hc 0 hnul)
  exact ⟨va, by omega, hva, hnul⟩

def FetchGuarded (p : Slot) (s : Space) : Touch → Prop
  | .fetch addr => s.Guarded p addr
  | _ => True

/-- Strings that are fetched are guarded; all that is read is below the size. -/
def pathRules : Rules Slot Space Touch (Option Reading) Unit where
  inv _ s acc := ∀ p r, acc p = some r → r.Ok s p
  idle a := a = none
  cond := FetchGuarded
  check p _ s
    | .load va => va < s.sz p
    | _ => True

theorem exists_reading (s : Space) (p : Slot) : ∃ r : Reading, r.Ok s p := by
  classical
  refine ⟨⟨s.sz p, fun va => if s.Private p va then s.byte p va else none⟩, rfl, ?_⟩
  intro va c
  by_cases hprivate : s.Private p va
  · simp [hprivate]
  · simp [hprivate]

section

variable {p : Slot} {r : Reading} {α β : Type}

theorem safe_look {l : Touch} {f : Space → Res (α × Space)} {Q : α → Prop}
    (hcheck : ∀ s, r.Ok s p → pathRules.check p (some r) s l)
    (hf : ∀ s a t, r.Ok s p → pathRules.cond p s l → f s = .ok (a, t) → t = s ∧ Q a) :
    pathRules.Safe p (fun a x => x = some r ∧ Q a) (.atomic l f) (some r) := by
  apply Rules.safe_atomic
  intro i s acc hinv hacc _ hcond
  have hok : r.Ok s p := hinv p r hacc
  refine ⟨hcheck s hok, fun a t ht => ?_⟩
  obtain ⟨rfl, hQ⟩ := hf s a t hok hcond ht
  refine ⟨some r, ?_, nofun, rfl, hQ⟩
  rwa [← hacc, Function.update_eq_self]

theorem safe_then {m : StrM α} {g : α → StrM β} {Q : α → Prop} {T : β → Prop}
    (hm : pathRules.Safe p (fun a x => x = some r ∧ Q a) m (some r))
    (hg : ∀ a, Q a → pathRules.Safe p (fun b x => x = some r ∧ T b) (g a) (some r)) :
    pathRules.Safe p (fun b x => x = some r ∧ T b) (m >>= g) (some r) := by
  apply hm.bind
  rintro a x ⟨rfl, hQ⟩
  exact hg a hQ

theorem safe_load {va : Nat} (hva : va < r.sz) :
    pathRules.Safe p (fun c x => x = some r ∧ ∀ d, r.fixed va = some d → c = d) (load p va)
      (some r) := by
  apply safe_look
  · intro s hok
    show va < s.sz p
    rw [← hok.sz]
    exact hva
  · intro s c t hok _ ht
    cases hbyte : s.byte p va with
    | none => simp [hbyte] at ht
    | some b =>
      obtain ⟨rfl, rfl⟩ : b = c ∧ s = t := by simpa [hbyte] using ht
      refine ⟨rfl, fun d hd => ?_⟩
      have heq := ((hok.fixed va d).1 hd).2
      rw [hbyte] at heq
      exact Option.some.inj heq

theorem safe_fetchLoop {n va : Nat} (hn : va + n = r.sz)
    (hguard : r.Ends va ∨ ∀ v, va ≤ v → v < r.sz → ∃ c, r.fixed v = some c) :
    pathRules.Safe p (fun b x => x = some r ∧ (b = true → r.Ends va)) (fetchLoop p n va)
      (some r) := by
  induction n generalizing va with
  | zero => exact ⟨rfl, nofun⟩
  | succ n ih =>
    have hva : va < r.sz := by omega
    apply safe_then (safe_load hva)
    intro c hc
    by_cases hzero : c = 0
    · rw [if_pos hzero]
      refine ⟨rfl, fun _ => ?_⟩
      rcases hguard with hends | hall
      · exact hends
      · obtain ⟨d, hd⟩ := hall va (Nat.le_refl va) hva
        have hnul : d = 0 := (hc d hd).symm.trans hzero
        exact ⟨va, Nat.le_refl va, hva, by rw [hd, hnul]⟩
    · rw [if_neg hzero]
      have hrest : r.Ends (va + 1) ∨
          ∀ v, va + 1 ≤ v → v < r.sz → ∃ c, r.fixed v = some c := by
        rcases hguard with hends | hall
        · exact .inl (hends.tail hc hzero)
        · exact .inr fun v hv => hall v (by omega)
      apply (ih (by omega) hrest).mono
      rintro b x ⟨rfl, hends⟩
      exact ⟨rfl, fun hb => (hends hb).mono (Nat.le_succ va)⟩

theorem safe_fetchstr {addr : Nat} :
    pathRules.Safe p (fun b x => x = some r ∧ (b = true → r.Ends addr)) (fetchstr p addr)
      (some r) := by
  apply safe_then (Q := fun sz => sz = r.sz ∧
    (r.Ends addr ∨ ∀ v, addr ≤ v → v < r.sz → ∃ c, r.fixed v = some c))
  · apply safe_look
    · exact fun _ _ => trivial
    · intro s sz t hok hcond ht
      obtain ⟨rfl, rfl⟩ : s.sz p = sz ∧ s = t := by simpa using ht
      refine ⟨rfl, hok.sz.symm, ?_⟩
      have hguard : s.Guarded p addr := hcond
      rcases hguard with ⟨va, hle, hva, hprivate, hnul⟩ | hall
      · rw [← hok.sz] at hva
        exact .inl ⟨va, hle, hva, (hok.fixed va 0).2 ⟨hprivate, hnul⟩⟩
      · refine .inr fun v hle hv => ?_
        rw [hok.sz] at hv
        obtain ⟨pte, hpte, hwrites⟩ := hall v hle hv
        have hbyte : s.byte p v = some (s.ram pte.frame (v % PGSIZE)) := by
          simp only [Space.byte, hpte, Option.map_some]
        exact ⟨_, (hok.fixed v _).2 ⟨⟨pte, hpte, hwrites⟩, hbyte⟩⟩
  · rintro sz ⟨rfl, hguard⟩
    by_cases hsz : r.sz ≤ addr
    · rw [if_pos hsz]
      exact ⟨rfl, nofun⟩
    · rw [if_neg hsz]
      exact safe_fetchLoop (by omega) hguard

theorem safe_fetchAll {args : List PathArg} :
    pathRules.Safe p
      (fun b x => x = some r ∧ (b = true → ∀ arg ∈ args, r.Ends arg.addr.toNat))
      (fetchAll p args) (some r) := by
  induction args with
  | nil => exact ⟨rfl, fun _ _ h => nomatch h⟩
  | cons arg args ih =>
    apply safe_then safe_fetchstr
    intro b hb
    cases b with
    | false => exact ⟨rfl, nofun⟩
    | true =>
      apply ih.mono
      rintro b x ⟨rfl, hrest⟩
      refine ⟨rfl, fun htrue => ?_⟩
      rw [List.forall_mem_cons]
      exact ⟨hb rfl, hrest htrue⟩

/-! ## The lookups -/

theorem safe_scan {go : UInt8 → Bool} (hgo : go 0 = false) {n path : Nat}
    (hends : r.Ends path) :
    pathRules.Safe p (fun q x => x = some r ∧ path ≤ q ∧ r.Ends q) (scan p go n path)
      (some r) := by
  induction n generalizing path with
  | zero => exact ⟨rfl, Nat.le_refl path, hends⟩
  | succ n ih =>
    apply safe_then (safe_load hends.lt)
    intro c hc
    cases hstop : go c with
    | false => exact ⟨rfl, Nat.le_refl path, hends⟩
    | true =>
      have hne : c ≠ 0 := by
        rintro rfl
        rw [hgo] at hstop
        cases hstop
      apply (ih (hends.tail hc hne)).mono
      rintro q x ⟨rfl, hle, hq⟩
      exact ⟨rfl, by omega, hq⟩

theorem safe_copyName {n va : Nat} (hn : va + n ≤ r.sz) :
    pathRules.Safe p (fun _ x => x = some r ∧ True) (copyName p n va) (some r) := by
  induction n generalizing va with
  | zero => exact ⟨rfl, trivial⟩
  | succ n ih =>
    apply safe_then (safe_load (by omega))
    intro c _
    apply safe_then (ih (by omega))
    exact fun _ _ => ⟨rfl, trivial⟩

theorem safe_skipelem {path : Nat} (hends : r.Ends path) :
    pathRules.Safe p (fun q x => x = some r ∧ ∀ next name, q = some (next, name) → r.Ends next)
      (skipelem p path) (some r) := by
  apply safe_then (safe_scan (by decide) hends)
  rintro path ⟨_, hends⟩
  apply safe_then (safe_load hends.lt)
  intro c _
  by_cases hzero : c = 0
  · rw [if_pos hzero]
    exact ⟨rfl, nofun⟩
  · rw [if_neg hzero]
    apply safe_then (safe_scan (by decide) hends)
    rintro last ⟨hle, hlast⟩
    have hlt := hlast.lt
    apply safe_then (safe_copyName (by omega))
    intro name _
    apply safe_then (safe_scan (by decide) hlast)
    rintro next ⟨_, hnext⟩
    refine ⟨rfl, ?_⟩
    rintro _ _ ⟨⟩
    exact hnext

theorem safe_other :
    pathRules.Safe p (fun _ x => x = some r ∧ True) (Prog.atomic .other fun s => .ok ((), s))
      (some r) := by
  apply safe_look
  · exact fun _ _ => trivial
  · intro s a t _ _ ht
    obtain rfl : s = t := by simpa using ht
    exact ⟨rfl, trivial⟩

theorem safe_namexElem {nameiparent : Bool} {path : Nat} (hends : r.Ends path) :
    pathRules.Safe p (fun q x => x = some r ∧ ∀ next, q = some next → r.Ends next)
      (namexElem p nameiparent path) (some r) := by
  apply safe_then (safe_skipelem hends)
  intro q hq
  cases q with
  | none => exact ⟨rfl, nofun⟩
  | some e =>
    have hnext : r.Ends e.1 := hq e.1 e.2 rfl
    apply safe_then safe_other
    intro _ _
    have hdone : pathRules.Safe p (fun q x => x = some r ∧ ∀ next, q = some next → r.Ends next)
        (pure (some e.1)) (some r) := by
      refine ⟨rfl, ?_⟩
      rintro _ ⟨⟩
      exact hnext
    cases nameiparent with
    | false => exact hdone
    | true =>
      apply safe_then (safe_load hnext.lt)
      intro c _
      by_cases hzero : c = 0
      · rw [if_pos hzero]
        exact ⟨rfl, nofun⟩
      · rw [if_neg hzero]
        exact hdone

theorem safe_namexLoop {nameiparent : Bool} {found : List Bool} {path : Nat}
    (hends : r.Ends path) :
    pathRules.Safe p (fun _ x => x = some r ∧ True) (namexLoop p nameiparent found path)
      (some r) := by
  induction found generalizing path with
  | nil =>
    apply safe_then (safe_namexElem hends)
    exact fun _ _ => ⟨rfl, trivial⟩
  | cons b found ih =>
    apply safe_then (safe_namexElem hends)
    intro q hq
    cases q with
    | none => exact ⟨rfl, trivial⟩
    | some next =>
      cases b with
      | false => exact ⟨rfl, trivial⟩
      | true => exact ih (hq next rfl)

theorem safe_lastElem {n va last : Nat} (hends : r.Ends va) (hlast : r.Ends last) :
    pathRules.Safe p (fun q x => x = some r ∧ r.Ends q) (lastElem p n va last) (some r) := by
  induction n generalizing va last with
  | zero => exact ⟨rfl, hlast⟩
  | succ n ih =>
    apply safe_then (safe_load hends.lt)
    intro c hc
    by_cases hzero : c = 0
    · rw [if_pos hzero]
      exact ⟨rfl, hlast⟩
    · rw [if_neg hzero]
      have hnext : r.Ends (va + 1) := hends.tail hc hzero
      apply ih hnext
      split_ifs
      · exact hnext
      · exact hlast

theorem safe_safestrcpy {n va : Nat} (hends : r.Ends va) :
    pathRules.Safe p (fun _ x => x = some r ∧ True) (safestrcpy p n va) (some r) := by
  induction n generalizing va with
  | zero => exact ⟨rfl, trivial⟩
  | succ n ih =>
    apply safe_then (safe_load hends.lt)
    intro c hc
    by_cases hzero : c = 0
    · rw [if_pos hzero]
      exact ⟨rfl, trivial⟩
    · rw [if_neg hzero]
      apply safe_then (ih (hends.tail hc hzero))
      exact fun _ _ => ⟨rfl, trivial⟩

theorem safe_execName {path : Nat} (hends : r.Ends path) :
    pathRules.Safe p (fun _ x => x = some r ∧ True) (execName p path) (some r) := by
  apply safe_then (safe_lastElem hends hends)
  intro last hlast
  apply safe_then (safe_safestrcpy hlast)
  exact fun _ _ => ⟨rfl, trivial⟩

theorem safe_lookup {arg : PathArg} (hends : r.Ends arg.addr.toNat) :
    pathRules.Safe p (fun _ x => x = some r ∧ True)
      (do
        Prog.atomic .other fun s => .ok ((), s)
        namex p arg.nameiparent arg.found arg.addr.toNat
        Prog.when arg.exec (execName p arg.addr.toNat))
      (some r) := by
  apply safe_then safe_other
  intro _ _
  apply safe_then (Q := fun _ => True)
  · apply safe_then (safe_load hends.lt)
    exact fun _ _ => safe_namexLoop hends
  · intro _ _
    cases hexec : arg.exec with
    | false => exact ⟨rfl, trivial⟩
    | true => exact safe_execName hends

theorem safe_pathCall {args : List PathArg} :
    pathRules.Safe p (fun _ x => x = some r ∧ True) (pathCall p args) (some r) := by
  apply safe_then safe_fetchAll
  intro b hb
  cases b with
  | false => exact ⟨rfl, trivial⟩
  | true =>
    apply safe_then (Q := fun _ => True)
    · apply (Rules.safe_forList (I := fun _ x => x = some r) rfl ?_).mono
      · exact fun _ _ h => ⟨h, trivial⟩
      · rintro arg rest x harg rfl
        apply (safe_lookup (hb rfl arg harg)).mono
        exact fun _ _ h => h.1
    · exact fun _ _ => ⟨rfl, trivial⟩

end

/-! ## Stores -/

theorem Reading.Ok.store {busy : Slot → Bool} {s t : Space} {e : Store} {p : Slot} {r : Reading}
    (h : r.Ok s p) (hbusy : busy p = true) (ht : s.store busy e = some t) : r.Ok t p := by
  unfold Space.store at ht
  split_ifs at ht with hready
  split at ht
  · rename_i pte hpte
    split_ifs at ht with hflags
    obtain rfl := Option.some.inj ht
    refine ⟨h.sz, fun va c => (h.fixed va c).trans (and_congr_right ?_)⟩
    rintro ⟨own, hown, hwrites⟩
    have hother : e.proc ≠ p := by
      rintro rfl
      rw [hbusy] at hready
      exact absurd hready.1 (by decide)
    have hframe : own.frame ≠ pte.frame := by
      intro heq
      exact hwrites e.proc hother ⟨hready.2, e.va, pte, hpte, hflags.1, hflags.2, heq.symm⟩
    have hpte' : ∀ u, ({ s with ram := u } : Space).pte p va = some own := fun _ => hown
    simp only [Space.byte, hpte', Option.map_some, Function.update_of_ne hframe]
  · cases ht

theorem pathSound : pathRules.Sound pathSystem () where
  call := by
    intro s acc p args hinv _ _
    obtain ⟨r, hr⟩ := exists_reading s p
    refine ⟨some r, nofun, fun q u hq => ?_, ?_⟩
    · by_cases hqp : q = p
      · subst hqp
        rw [Function.update_self] at hq
        obtain rfl := Option.some.inj hq
        exact hr
      · rw [Function.update_of_ne hqp] at hq
        exact hinv q u hq
    · apply safe_pathCall.mono
      rintro a x ⟨rfl, _⟩ u acc' hinv' hacc
      refine ⟨none, rfl, fun q v hq => ?_⟩
      by_cases hqp : q = p
      · subst hqp
        rw [Function.update_self] at hq
        cases hq
      · rw [Function.update_of_ne hqp] at hq
        exact hinv' q v hq
  env := by
    intro busy s acc e t hinv hidle ht
    refine ⟨acc, fun p r hp => ?_, fun q => .inl rfl⟩
    apply (hinv p r hp).store ?_ ht
    by_contra hbusy
    have hnone : acc p = none := hidle p (Bool.eq_false_iff.2 hbusy)
    rw [hnone] at hp
    cases hp

/-- If every path that is fetched has a NUL that the other processes can not store to, or
lies where they can not store at all, then every byte that is read for a path is below the
size of the process. -/
theorem path_bytes_in_range {s : Pool Slot Space Touch Int}
    (h : pathMachine.Reach (fun s e => s.Meets FetchGuarded e) s) {p : Slot} {va : Nat}
    (hload : s.action p = some (.load va)) : va < s.state.sz p := by
  obtain ⟨acc, hacc⟩ := pathSound.holds (s := s)
    (fun s _ => ⟨fun _ => none, nofun, fun _ => rfl⟩) h
  exact hacc.check hload trivial

/-! ## Runs -/

/-- A page that is not that of a shared block is stored to by its process alone. -/
theorem Space.private_of_single {s : Space} {p : Slot} {va : Nat} {pte : Pte}
    (hpte : s.pte p va = some pte) (hva : va / PGSIZE < UPAGES)
    (hlive : (s.vm.kern.proc p).life = .live) (hshared : s.vm.kern.shared pte.frame = false)
    (h : Single pte.frame s.vm.kern s.vm.mem) : s.Private p va := by
  refine ⟨pte, hpte, fun q hq hwrites => ?_⟩
  obtain ⟨hqlive, vb, pteb, hpteb, hu, _, hframe⟩ := hwrites
  have hvb : vb / PGSIZE < UPAGES := by
    by_contra hle
    have hkernel := (h.sane.proc q).kernel (by simp [hqlive])
    simp [hkernel.upper _ (Nat.not_lt.1 hle) pteb hpteb] at hu
  have hhere : s.vm.Has pte.frame (.proc p (.user (va / PGSIZE))) :=
    ⟨by simp [hlive], hva, congrArg (Option.map Pte.frame) hpte⟩
  have hthere : s.vm.Has pte.frame (.proc q (.user (vb / PGSIZE))) :=
    ⟨by simp [hqlive], hvb, hframe ▸ congrArg (Option.map Pte.frame) hpteb⟩
  have hsame := h.unique hshared hhere hthere
  simp only [Place.proc.injEq] at hsame
  exact hq hsame.1.symm

theorem path_start {C : Pool Slot Space Touch Int → Turn Slot (List PathArg) Store → Prop}
    {s₀ s : State} (hboot : Boots (-5) smallMem s₀) (hs : (machine s₀).Reachable s)
    (ram : Frame → Nat → UInt8) : pathMachine.Reach C ⟨⟨s, ram⟩, fun _ => none⟩ :=
  .init ⟨⟨-5, smallMem, s₀, hboot, hs⟩, rfl⟩

theorem path_run {C C' : Pool Slot Space Touch Int → Turn Slot (List PathArg) Store → Prop}
    [∀ s e, Decidable (C s e)] (himp : ∀ s e, C s e → C' s e) {s t : Pool Slot Space Touch Int}
    (hs : pathMachine.Reach C' s) {turns : List (Turn Slot (List PathArg) Store)}
    (hrun : Machine.runList (fun s e => if C s e then s.next pathSystem e else none) s turns =
      some t) : pathMachine.Reach C' t := by
  have hreach := Machine.reach_of_runList turns (.init rfl) hrun
  apply Machine.Reach.invariant (I := pathMachine.Reach C') _ _ hreach
  · rintro _ rfl
    exact hs
  · intro s e u hs hok hnext
    exact .step hs (himp s e hok) hnext

def parentProc : Slot := ⟨1, Sched.one_lt_NPROC⟩

def childProc : Slot := ⟨2, Sched.two_lt_NPROC⟩

def Unfetched (_ : Slot) (_ : Space) : Touch → Prop
  | .fetch _ => False
  | _ => True

instance (p : Slot) (s : Space) (l : Touch) : Decidable (Unfetched p s l) := by
  unfold Unfetched
  split <;> infer_instance

theorem Unfetched.guarded {p : Slot} {s : Space} {l : Touch} (h : Unfetched p s l) :
    FetchGuarded p s l := by
  cases l with
  | fetch addr => exact h.elim
  | other => trivial
  | load va => trivial

/-- A path of two letters at the end of the shared page. -/
def pathRam (f : Frame) (i : Nat) : UInt8 := if f = 1136 ∧ 4094 ≤ i then 97 else 0

/-- After the path is fetched, the child makes its last letter a slash; the parent reads it
up to the NUL. -/
def overwriteRun : List (Turn Slot (List PathArg) Store) :=
  List.replicate 3 (.step parentProc) ++ [.env ⟨childProc, 8191, SLASH⟩] ++
    List.replicate 8 (.step parentProc)

/-- The path of the second process lies in the page that it shares with its child and ends in
one of its own. -/
theorem path_bytes_in_range_overwritten : ∃ s,
    pathMachine.Reach (fun s e => s.Meets FetchGuarded e) s ∧
      s.state.byte parentProc 8191 = some SLASH ∧ s.action parentProc = some (.load 8192) ∧
        8192 < s.state.sz parentProc := by
  have hrun : ((smallRun Careful
      (shareRun ++ [⟨parentProc, .sbrk 4096⟩, ⟨parentProc, .fork⟩])).bind fun s =>
        (Pool.next pathSystem ⟨⟨s, pathRam⟩, fun _ => none⟩
          (.call parentProc [⟨8190, true, [], false⟩])).bind fun t =>
            (t.next pathSystem (.step parentProc)).bind fun u =>
              (Machine.runList (fun (s : Pool Slot Space Touch Int) e =>
                if s.Meets Unfetched e then s.next pathSystem e else none) u overwriteRun).map
                  fun v => decide ((s.kern.proc parentProc).life = .live ∧
                    (s.kern.proc parentProc).sz = 12288 ∧
                    (s.kern.proc parentProc).pgdir.lookup 2 = some ⟨1137, true, true⟩ ∧
                    s.kern.shared 1137 = false ∧ t.action parentProc = some (.fetch 8190) ∧
                    v.state.byte parentProc 8191 = some SLASH ∧
                    v.action parentProc = some (.load 8192))) = some true := by
    decide +kernel
  obtain ⟨s, hs, hrun⟩ := Option.bind_eq_some_iff.1 hrun
  obtain ⟨s₀, hboots, hcareful⟩ := exists_of_smallRun hs
  obtain ⟨t, ht, hrun⟩ := Option.bind_eq_some_iff.1 hrun
  obtain ⟨u, hu, hrun⟩ := Option.bind_eq_some_iff.1 hrun
  obtain ⟨v, hv, hend⟩ := Option.map_eq_some_iff.1 hrun
  obtain ⟨hlive, hsz, hpte, hshared, hfetch, hslash, hload⟩ := of_decide_eq_true hend
  have hstate : t.state = ⟨s, pathRam⟩ := by
    simp only [Pool.next] at ht
    split_ifs at ht
    exact (congrArg Pool.state (Option.some.inj ht)).symm
  have hguarded : t.Meets FetchGuarded (.step parentProc : Turn Slot (List PathArg) Store) := by
    simp only [Pool.Meets, hfetch, FetchGuarded, hstate]
    refine .inl ⟨8192, by decide, ?_, ?_, ?_⟩
    · rw [Space.sz, hsz]
      decide
    · exact Space.private_of_single hpte (by decide) hlive hshared
        (hboots.reach (by decide) hcareful)
    · rw [Space.byte, Space.pte, show 8192 / PGSIZE = 2 from rfl, hpte]
      rfl
  have hcalled : pathMachine.Reach (fun s e => s.Meets FetchGuarded e) t :=
    .step (e := .call parentProc _) (path_start hboots hcareful.reachable pathRam) trivial ht
  have hreach : pathMachine.Reach (fun s e => s.Meets FetchGuarded e) v :=
    path_run (fun s e => Pool.Meets.mono fun _ _ _ => Unfetched.guarded)
      (.step hcalled hguarded hu) hv
  exact ⟨v, hreach, hslash, hload, path_bytes_in_range hreach hload⟩

/-- A path of the second process in the page that it shares with its child; the child makes
it longer between the check and the use. -/
def lengthenRun : List (Turn Slot (List PathArg) Store) :=
  Pool.alone parentProc [⟨8191, true, [], false⟩] 3 ++ [.env ⟨childProc, 8191, 97⟩] ++
    List.replicate 4 (.step parentProc)

theorem path_bytes_out_of_range : ∃ s p va, pathMachine.Reachable s ∧
    s.action p = some (.load va) ∧ s.state.sz p ≤ va := by
  have hrun : ((smallRun (fun _ _ => True) (shareRun ++ [⟨parentProc, .fork⟩])).bind fun s =>
      (Machine.runList (fun (s : Pool Slot Space Touch Int) e =>
        if True then s.next pathSystem e else none) ⟨⟨s, fun _ _ => 0⟩, fun _ => none⟩
          lengthenRun).map fun s => decide (s.action parentProc = some (.load 8192) ∧
            s.state.sz parentProc = 8192)) = some true := by
    decide +kernel
  obtain ⟨s, hs, hrun⟩ := Option.bind_eq_some_iff.1 hrun
  obtain ⟨s₀, hboots, hreach⟩ := exists_of_smallRun hs
  obtain ⟨t, ht, hend⟩ := Option.map_eq_some_iff.1 hrun
  obtain ⟨hload, hsz⟩ := of_decide_eq_true hend
  have hstart := path_start (C := fun _ _ => True) hboots hreach fun _ _ => 0
  exact ⟨t, parentProc, 8192, path_run (fun _ _ h => h) hstart ht, hload, Nat.le_of_eq hsz⟩

/-! ## A string that nobody changes -/

/-- The bytes of a string and a NUL are at `va`. -/
def Space.Str (s : Space) (p : Slot) : Nat → List UInt8 → Prop
  | va, [] => s.byte p va = some 0
  | va, c :: cs => s.byte p va = some c ∧ c ≠ 0 ∧ s.Str p (va + 1) cs

section Str

variable {s : Space} {p : Slot} {va n : Nat} {cs : List UInt8}

theorem run_load {c : UInt8} (h : s.byte p va = some c) : (load p va).run s = .ok (c, s) := by
  simp [load, Prog.atomic, Prog.run, h]

theorem run_scan (go stop : UInt8 → Bool) (hnul : go 0 = false) (hgo : ∀ c ≠ 0, go c = stop c)
    (h : s.Str p va cs) (hn : cs.length < n) :
    (scan p go n va).run s = .ok (va + (cs.takeWhile stop).length, s) ∧
      s.Str p (va + (cs.takeWhile stop).length) (cs.dropWhile stop) := by
  induction cs generalizing va n with
  | nil =>
    obtain ⟨n, rfl⟩ := Nat.exists_eq_succ_of_ne_zero (Nat.ne_zero_of_lt hn)
    refine ⟨(Prog.run_bind_of_ok (run_load h)).trans ?_, h⟩
    rw [hnul]
    rfl
  | cons c cs ih =>
    obtain ⟨n, rfl⟩ := Nat.exists_eq_succ_of_ne_zero (Nat.ne_zero_of_lt hn)
    have hload := Prog.run_bind_of_ok (g := fun c => if go c then scan p go n (va + 1) else pure va)
      (run_load h.1)
    rw [hgo c h.2.1] at hload
    by_cases hc : stop c
    · obtain ⟨hrun, hstr⟩ := ih h.2.2 (Nat.lt_of_succ_lt_succ hn)
      rw [List.takeWhile_cons_of_pos hc, List.dropWhile_cons_of_pos hc, List.length_cons,
        Nat.add_comm _ 1, ← Nat.add_assoc]
      exact ⟨hload.trans (by rwa [if_pos hc]), hstr⟩
    · rw [List.takeWhile_cons_of_neg hc, List.dropWhile_cons_of_neg hc]
      exact ⟨hload.trans (by rw [if_neg hc]; rfl), h⟩

theorem run_copyName (h : s.Str p va cs) (hn : n ≤ cs.length) :
    (copyName p n va).run s = .ok (cs.take n, s) := by
  induction n generalizing va cs with
  | zero => rfl
  | succ n ih =>
    cases cs with
    | nil => cases hn
    | cons c cs =>
      refine (Prog.run_bind_of_ok (run_load h.1)).trans ?_
      exact Prog.run_bind_of_ok (ih h.2.2 (Nat.le_of_succ_le_succ hn))

/-- On a string that stays as it is, `skipelem` finds the element and the rest that the `skipelem`
of the file system finds in the bytes. -/
theorem run_skipelem (h : s.Str p va cs) (hlen : cs.length < ADDRESSES) :
    ∃ r, (skipelem p va).run s = .ok (r, s) ∧
      Option.Rel (fun x y => x.2 = y.1 ∧ s.Str p x.1 y.2) r (Files.skipelem cs) := by
  have hshort {cs : List UInt8} (go : UInt8 → Bool) (hlen : cs.length < ADDRESSES) :
      (cs.dropWhile go).length < ADDRESSES :=
    (List.dropWhile_sublist go).length_le.trans_lt hlen
  obtain ⟨hslash, hstr⟩ := run_scan (· = SLASH) _ (by decide) (fun _ _ => rfl) h hlen
  have hlen' := hshort (· = SLASH) hlen
  unfold Files.skipelem
  cases hcs : cs.dropWhile fun c => c = SLASH with
  | nil =>
    rw [hcs] at hstr
    exact ⟨none, (Prog.run_bind_of_ok hslash).trans (Prog.run_bind_of_ok (run_load hstr)), .none⟩
  | cons c rest =>
    rw [hcs] at hstr hlen'
    obtain ⟨hlast, hrest⟩ := run_scan (fun c => c ≠ SLASH && c ≠ 0) (· ≠ SLASH)
      (by decide) (by simp +contextual) hstr hlen'
    obtain ⟨hnext, hstr'⟩ := run_scan (· = SLASH) _ (by decide) (fun _ _ => rfl) hrest
      (hshort _ hlen')
    have hword := List.takeWhile_prefix (l := c :: rest) fun c => decide (c ≠ SLASH)
    have hname := run_copyName hstr (n := min _ DIRSIZ) (min_le_of_left_le hword.length_le)
    rw [Nat.min_comm, ← List.take_take, ← List.prefix_iff_eq_take.1 hword, Nat.min_comm] at hname
    refine ⟨some (_, _), (Prog.run_bind_of_ok hslash).trans
      ((Prog.run_bind_of_ok (run_load hstr.1)).trans ?_), .some ⟨rfl, hstr'⟩⟩
    rw [if_neg hstr.2.1]
    refine (Prog.run_bind_of_ok hlast).trans ((Prog.run_bind_of_ok ?_).trans
      (Prog.run_bind_of_ok hnext))
    rw [Nat.add_sub_cancel_left]
    exact hname

end Str

end Xv6.Vm
