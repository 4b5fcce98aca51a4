import Xv6.Lib.Int32
import Xv6.Files.Disk

/-!
# User buffers

The system calls that transfer bytes to or from a buffer of the caller.  `argptr` adds the length
to the address as an unsigned word, so that a negative length may pass its test; `readi` then
takes it for a large one and transfers the rest of the file.
-/

namespace Xv6.Buffers

open Xv6.Lib Xv6.Fs
open Xv6.Files (MAXFILE)

inductive FileKind
  | pipe
  | dev
  | inode
  deriving DecidableEq

/-- An open file.  `ready` is how many bytes a pipe or device has or takes before the call
returns, or `writei` accepts. -/
structure OpenFile where
  kind : FileKind
  readable : Bool
  writable : Bool
  size : Nat
  off : UInt32
  ready : Nat
  size_le : size ≤ MAXFILE * BSIZE

/-- What the calls read of the process: its size, at most `KERNBASE`, the saved `%esp`, the words
of its memory and its files. -/
structure Caller where
  sz : Nat
  esp : UInt32
  word : Nat → UInt32
  ofile : Fin 16 → Option OpenFile
  sz_le : sz ≤ 2 ^ 31

def Caller.arg (u : Caller) (n : Nat) : Nat := (u.esp.toNat + 4 + 4 * n) % 2 ^ 32

def fetchint (u : Caller) (addr : Nat) : Option UInt32 :=
  if u.sz ≤ addr ∨ u.sz < (addr + 4) % 2 ^ 32 then none else some (u.word addr)

def argint (u : Caller) (n : Nat) : Option UInt32 := fetchint u (u.arg n)

def argptr (u : Caller) (n : Nat) (size : Int) : Option Nat :=
  (argint u n).bind fun i =>
    if u.sz ≤ i.toNat ∨ u.sz < ((i.toNat + size) % 2 ^ 32).toNat then none else some i.toNat

def argfd (u : Caller) (n : Nat) : Option OpenFile :=
  (argint u n).bind fun fd => if h : fd.toNat < 16 then u.ofile ⟨fd.toNat, h⟩ else none

def readiBytes (size off : Nat) (n : Int) : Option Nat :=
  let n := (n % 2 ^ 32).toNat
  if size < off ∨ (off + n) % 2 ^ 32 < off then none
  else if size < (off + n) % 2 ^ 32 then some (size - off)
  else some n

/-- How many bytes `fileread` transfers; `none` is its result -1. -/
def OpenFile.read (f : OpenFile) (n : Int) : Option Nat :=
  if f.readable = false then none
  else if f.kind = .inode then readiBytes f.size f.off.toNat n
  else some (min n.toNat f.ready)

def OpenFile.write (f : OpenFile) (n : Int) : Option Nat :=
  if f.writable = false then none else some (min n.toNat f.ready)

/-- The part that `sys_read` and `sys_write` share: where the buffer is and how many of its bytes
are touched, unless the result is -1. -/
def transfer (io : OpenFile → Int → Option Nat) (u : Caller) : Option (Nat × Nat) := do
  let f ← argfd u 0
  let n ← argint u 2
  let p ← argptr u 1 (int32 n.toNat)
  let k ← io f (int32 n.toNat)
  pure (p, k)

def sysRead (u : Caller) : Option (Nat × Nat) := transfer OpenFile.read u

def sysWrite (u : Caller) : Option (Nat × Nat) := transfer OpenFile.write u

/-- `sys_fstat`; a `struct stat` has 20 bytes. -/
def sysFstat (u : Caller) : Option (Nat × Nat) := do
  let f ← argfd u 0
  let p ← argptr u 1 20
  if f.kind = .pipe then none else pure (p, 20)

/-- `sys_pipe`, where `ok` tells that there are two files and descriptors. -/
def sysPipe (ok : Bool) (u : Caller) : Option (Nat × Nat) := do
  let p ← argptr u 0 8
  if ok then pure (p, 8) else none

/-- The call returns -1 or touches the memory of the process only. -/
def Confined (u : Caller) (r : Option (Nat × Nat)) : Prop := ∀ x ∈ r, x.2 = 0 ∨ x.1 + x.2 ≤ u.sz

/-- If the length is negative and passes the tests of `argptr` and `readi`, the rest of the file
has room. -/
def ReadFits (u : Caller) : Prop :=
  ∀ f ∈ argfd u 0, ∀ n ∈ argint u 2, ∀ p ∈ argint u 1, f.readable = true → f.kind = .inode →
    int32 n.toNat < 0 → p.toNat < u.sz → -int32 n.toNat ≤ p.toNat →
      f.off.toNat < f.size → f.off.toNat < -int32 n.toNat →
        p.toNat + (f.size - f.off.toNat) ≤ u.sz

section Buffers

variable {u : Caller} {n : Nat}

theorem fits_of_argint {w : UInt32} (h : argint u n = some w) : u.arg n + 4 ≤ u.sz := by
  have hsz := u.sz_le
  unfold argint fetchint at h
  split_ifs at h with hbad
  omega

theorem argptr_eq_some {size : Int} {p : Nat} (h : argptr u n size = some p) :
    ∃ w, argint u n = some w ∧ w.toNat = p ∧ p < u.sz ∧ ((p + size) % 2 ^ 32).toNat ≤ u.sz := by
  obtain ⟨w, hw, hp⟩ := Option.bind_eq_some_iff.1 h
  split_ifs at hp with hbad
  obtain rfl := Option.some.inj hp
  exact ⟨w, hw, rfl, by omega, by omega⟩

theorem argptr_fits {size : Int} {p : Nat} (h : argptr u n size = some p) (h0 : 0 ≤ size)
    (hlt : size < 2 ^ 31) : p + size ≤ u.sz := by
  obtain ⟨_, _, _, hp, hend⟩ := argptr_eq_some h
  have hsz := u.sz_le
  omega

theorem confined_transfer_iff (io : OpenFile → Int → Option Nat) :
    Confined u (transfer io u) ↔ ∀ f ∈ argfd u 0, ∀ n ∈ argint u 2,
      ∀ p ∈ argptr u 1 (int32 n.toNat), ∀ k ∈ io f (int32 n.toNat), k = 0 ∨ p + k ≤ u.sz := by
  simp only [Confined, transfer, Option.mem_def, Option.bind_eq_bind, Option.bind_eq_some_iff,
    Option.pure_def, Option.some.injEq]
  constructor
  · intro h f hf n hn p hp k hk
    exact h (p, k) ⟨f, hf, n, hn, p, hp, k, hk, rfl⟩
  · rintro h x ⟨f, hf, n, hn, p, hp, k, hk, rfl⟩
    exact h f hf n hn p hp k hk

theorem int32_bounds (x : Int) : -2 ^ 31 ≤ int32 x ∧ int32 x < 2 ^ 31 := by
  rw [int32, Int.bmod_def]
  omega

theorem part_fits {x : Int} {p k : Nat} (hp : argptr u n (int32 x) = some p)
    (hk : k ≤ (int32 x).toNat) : k = 0 ∨ p + k ≤ u.sz := by
  have hx := int32_bounds x
  by_cases h0 : 0 ≤ int32 x
  · have hfits := argptr_fits hp h0 hx.2
    omega
  · omega

/-- A length that is not negative bounds what `readi` transfers; of a negative one it makes the
rest of the file, if the offset is small enough. -/
theorem readiBytes_eq {size off k : Nat} {x : Int} (hsize : size < 2 ^ 31)
    (hx : -2 ^ 31 ≤ x ∧ x < 2 ^ 31) (h : readiBytes size off x = some k) :
    0 ≤ x ∧ k ≤ x.toNat ∨ x < 0 ∧ off < -x ∧ off ≤ size ∧ k = size - off := by
  unfold readiBytes at h
  simp only at h
  split_ifs at h <;> (obtain rfl := Option.some.inj h; omega)

theorem confined_sysRead_iff : Confined u (sysRead u) ↔ ReadFits u := by
  rw [sysRead, confined_transfer_iff]
  constructor
  · intro h f hf n hn p hp hread hkind hneg hlt hle hend hoff
    have hx := int32_bounds n.toNat
    have hsize := f.size_le
    have hmax : MAXFILE * BSIZE < 2 ^ 31 := by decide
    have hptr : argptr u 1 (int32 n.toNat) = some p.toNat := by
      rw [argptr, Option.mem_def.1 hp, Option.bind_some, if_neg (by omega)]
    have hbytes : f.read (int32 n.toNat) = some (f.size - f.off.toNat) := by
      rw [OpenFile.read, if_neg (by simp [hread]), if_pos hkind, readiBytes, if_neg (by omega),
        if_pos (by omega)]
    have hfits := h f hf n hn _ hptr _ hbytes
    omega
  · intro h f hf n hn p hp k hk
    have hx := int32_bounds n.toNat
    have hsize := f.size_le
    have hmax : MAXFILE * BSIZE < 2 ^ 31 := by decide
    obtain ⟨w, hw, rfl, hlt, hend⟩ := argptr_eq_some hp
    rw [OpenFile.read, Option.mem_def] at hk
    split_ifs at hk with hread hkind
    · rcases readiBytes_eq (by omega) hx hk with ⟨_, hle⟩ | ⟨hneg, hoff, hle, rfl⟩
      · exact part_fits hp hle
      · have hfits := h f hf n hn w hw (by simpa using hread) hkind hneg hlt
        omega
    · obtain rfl := Option.some.inj hk
      exact part_fits hp (Nat.min_le_left _ _)

theorem confined_sysWrite (u : Caller) : Confined u (sysWrite u) := by
  rw [sysWrite, confined_transfer_iff]
  intro f hf n hn p hp k hk
  rw [OpenFile.write, Option.mem_def] at hk
  split_ifs at hk
  obtain rfl := Option.some.inj hk
  exact part_fits hp (Nat.min_le_left _ _)

end Buffers

/-- The calls touch no memory but that of the process just when `read` is not given a negative
length that passes for one, with more of the file to come than there is room for. -/
theorem buffers_confined_iff (u : Caller) (ok : Bool) :
    ((∀ n w, argint u n = some w → u.arg n + 4 ≤ u.sz) ∧ Confined u (sysRead u) ∧
      Confined u (sysWrite u) ∧ Confined u (sysFstat u) ∧ Confined u (sysPipe ok u)) ↔
      ReadFits u := by
  have hstat : Confined u (sysFstat u) := by
    intro x hx
    simp only [sysFstat, Option.mem_def, Option.bind_eq_bind, Option.bind_eq_some_iff] at hx
    obtain ⟨f, hf, p, hp, hx⟩ := hx
    split_ifs at hx
    obtain rfl := Option.some.inj hx
    exact Or.inr (by exact_mod_cast argptr_fits hp (by decide) (by decide))
  have hpipe : Confined u (sysPipe ok u) := by
    intro x hx
    simp only [sysPipe, Option.mem_def, Option.bind_eq_bind, Option.bind_eq_some_iff] at hx
    obtain ⟨p, hp, hx⟩ := hx
    split_ifs at hx
    obtain rfl := Option.some.inj hx
    exact Or.inr (by exact_mod_cast argptr_fits hp (by decide) (by decide))
  rw [confined_sysRead_iff]
  exact ⟨fun h => h.2.1, fun h => ⟨fun _ _ => fits_of_argint, h, confined_sysWrite u, hstat, hpipe⟩⟩

/-- A process of one page that reads -1 bytes of a file of 100 bytes to its last byte. -/
def lastByte : Caller where
  sz := 4096
  esp := 0
  word a := if a = 8 then 4095 else if a = 12 then 0xffffffff else 0
  ofile _ := some ⟨.inode, true, false, 100, 0, 0, Nat.le_of_ble_eq_true rfl⟩
  sz_le := Nat.le_of_ble_eq_true rfl

theorem read_exceeds_size : ¬ Confined lastByte (sysRead lastByte) := by
  rw [confined_sysRead_iff]
  intro h
  exact absurd (h _ rfl _ rfl _ rfl rfl rfl (by decide) (by decide) (by decide) (by decide)
    (by decide)) (by decide)

end Xv6.Buffers
