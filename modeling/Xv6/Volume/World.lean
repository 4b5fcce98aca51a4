import Xv6.Volume.Layout
import Xv6.Fs.LogAtomic
import Xv6.Lib.Contract

/-!
# The file system behind the blocks

An image has the inodes, the bits and the data blocks that a state of the file system stands
for, wherever they are at the moment: the copy of an inode in the cache counts, and its place
on the disk only once the copy has been written there.  A world adds what the running code
holds.  `Takes` is the calculus for code that is followed on worlds.
-/

namespace Xv6.Volume

open Xv6.Lib Xv6.Fs Xv6.Files Xv6.Sched

structure Image where
  node : Nat → Dinode
  bit : Nat → Bool
  blk : Nat → Block

structure Key where
  dev : Nat
  inum : Nat
  ref : Int
  busy : Bool
  valid : Bool

def Key.of (ip : Inode) : Key := ⟨ip.dev, ip.inum, ip.ref, ip.busy, ip.valid⟩

structure World where
  image : Image
  /-- The inodes that are not on the disk as they are in the cache. -/
  dirty : Nat → Prop
  key : Entry → Key
  /-- The sectors whose buffers are locked. -/
  held : Finset Nat
  /-- Sectors among which are those in the log. -/
  logged : Finset Nat
  trans : Option Slot

variable {a : LogArea}

structure Shows (g : Layout a) (m : Image) (dirty : Nat → Prop) (x : Nat) (d : Block) : Prop where
  super : x = 1 → Superblock.decode d = g.sb
  inode : ∀ i < g.sb.ninodes, IBLOCK i = x → ¬ dirty i → Same (.decode d (i % IPB)) (m.node i)
  bit : ∀ b < g.sb.size, BBLOCK b g.sb.ninodes = x → testBit d (b % BPB) = m.bit b
  data : g.first ≤ x → d = m.blk x

structure Keyed (g : Layout a) (key : Entry → Key) : Prop where
  dev : ∀ e, 0 < (key e).ref → (key e).dev = ROOTDEV
  inum : ∀ e, 0 < (key e).ref → (key e).inum < g.sb.ninodes
  unique : ∀ e e', 0 < (key e).ref → 0 < (key e').ref → (key e).inum = (key e').inum → e = e'

structure World.Valid (g : Layout a) (w : World) : Prop where
  keyed : Keyed g w.key
  fits : ∀ i < g.sb.ninodes, Fits (w.image.node i)
  /-- The blocks before the data blocks are never free. -/
  reserved : ∀ b < g.first, w.image.bit b = true
  held : ∀ x ∈ w.held, x < a.start
  logged : ∀ x ∈ w.logged, x < a.start

structure Logged (a : LogArea) (n : Nat) (sector : Nat → Nat) (disk : Nat → Block)
    (logged : Finset Nat) : Prop where
  mem : ∀ j < n, sector j ∈ logged
  inj : ∀ i j, i < n → j < n → sector i = sector j → i = j
  copy : ∀ j < n, disk (a.start + j + 1) = disk (sector j)

structure At (g : Layout a) (s : FsState) (w : World) : Prop where
  valid : w.Valid g
  home : ∀ x < a.start, Shows g w.image w.dirty x (s.disk x)
  key : ∀ e, Key.of (s.icache e) = w.key e
  copy : ∀ e, 0 < (w.key e).ref → (w.key e).valid = true →
    Same (s.icache e).copy (w.image.node (w.key e).inum)
  locked : ∀ x, s.locked x = true ↔ x ∈ w.held
  trans : s.trans = w.trans
  log : Logged a s.n s.sector s.disk w.logged

section Logged

variable {n : Nat} {sector : Nat → Nat} {disk : Nat → Block} {logged : Finset Nat}

theorem Logged.n_le (h : Logged a n sector disk logged) : n ≤ logged.card := by
  have himage : (Finset.range n).image sector ⊆ logged := by
    intro x hx
    obtain ⟨j, hj, rfl⟩ := Finset.mem_image.1 hx
    exact h.mem j (Finset.mem_range.1 hj)
  have hinj : Set.InjOn sector (Finset.range n) := by
    intro i hi j hj hij
    exact h.inj i j (by simpa using hi) (by simpa using hj) hij
  calc n = ((Finset.range n).image sector).card := by
        rw [Finset.card_image_of_injOn hinj, Finset.card_range]
    _ ≤ logged.card := Finset.card_le_card himage

theorem Logged.write (h : Logged a n sector disk logged) (hlt : ∀ x ∈ logged, x < a.start) {x : Nat}
    (hx : x < a.start) (d : Block) :
    Logged a (if logSlot n sector x = n then n + 1 else n)
      (Function.update sector (logSlot n sector x) x)
      (Function.update (Function.update disk x d) (a.start + logSlot n sector x + 1) d)
      (insert x logged) := by
  have hcases := logSlot_cases n sector x
  have hn : ∀ j, j < (if logSlot n sector x = n then n + 1 else n) →
      j = logSlot n sector x ∨ (j ≠ logSlot n sector x ∧ j < n) := by
    intro j hj
    by_cases hne : j = logSlot n sector x
    · exact .inl hne
    · split_ifs at hj with hend <;> omega
  have hother : ∀ j, j ≠ logSlot n sector x → j < n → sector j ≠ x := by
    intro j hne hj hsec
    rcases hcases with ⟨hlt, hslot⟩ | ⟨_, hno⟩
    · exact hne (h.inj j _ hj hlt (hsec.trans hslot.symm))
    · exact hno j hj hsec
  refine ⟨fun j hj => ?_, fun i j hi hj hij => ?_, fun j hj => ?_⟩
  · rcases hn j hj with rfl | ⟨hne, hj⟩
    · simp
    · rw [Function.update_of_ne hne]
      exact Finset.mem_insert_of_mem (h.mem j hj)
  · rcases hn i hi with rfl | ⟨hnei, hi⟩ <;> rcases hn j hj with rfl | ⟨hnej, hj⟩
    · rfl
    · rw [Function.update_self, Function.update_of_ne hnej] at hij
      exact absurd hij.symm (hother j hnej hj)
    · rw [Function.update_self, Function.update_of_ne hnei] at hij
      exact absurd hij (hother i hnei hi)
    · rw [Function.update_of_ne hnei, Function.update_of_ne hnej] at hij
      exact h.inj i j hi hj hij
  · rcases hn j hj with rfl | ⟨hne, hj⟩
    · rw [Function.update_self, Function.update_self, Function.update_of_ne (by omega),
        Function.update_self]
    · have hsec := hother j hne hj
      have hhome := hlt _ (h.mem j hj)
      rw [Function.update_of_ne hne, Function.update_of_ne (by omega),
        Function.update_of_ne (by omega), Function.update_of_ne (by omega),
        Function.update_of_ne hsec]
      exact h.copy j hj

end Logged

/-! ## The calculus -/

def contract (g : Layout a) (C : Act → FsState → Prop) (E : Halt → Prop) :
    Contract FsState Act where
  cond := C
  check _ s := ∃ w, At g s w
  stop := E

variable {α β : Type}

/-- Started in the world, the code ends in a world that `R` relates to its result. -/
def Takes (g : Layout a) (C : Act → FsState → Prop) (E : Halt → Prop) (m : FsM α) (w : World)
    (R : α → World → Prop) : Prop :=
  ∀ s, At g s w → m.Sat (contract g C E) (fun r t => ∃ w', At g t w' ∧ R r w') s

variable {g : Layout a} {C : Act → FsState → Prop} {E : Halt → Prop} {w : World}
  {R R' : α → World → Prop}

theorem takes_pure {r : α} (h : R r w) : Takes g C E (pure r) w R :=
  fun _ hat => ⟨w, hat, h⟩

theorem Takes.bind {m : FsM α} {k : α → FsM β} {T : β → World → Prop} (h : Takes g C E m w R)
    (hk : ∀ r w', R r w' → Takes g C E (k r) w' T) : Takes g C E (m.bind k) w T := fun s hat =>
  (h s hat).bind fun r t ⟨w', hat', hR⟩ => hk r w' hR t hat'

theorem Takes.seq {m : FsM α} {k : α → FsM β} {T : β → World → Prop}
    (h : Takes g C E m w fun r w' => Takes g C E (k r) w' T) : Takes g C E (m.bind k) w T :=
  h.bind fun _ _ hk => hk

theorem Takes.of_eq {m : FsM α} {v : World} (hv : v = w) (h : Takes g C E m w R) :
    Takes g C E m v R := by
  rw [hv]
  exact h

theorem takes_valid {m : FsM α} (h : w.Valid g → Takes g C E m w R) : Takes g C E m w R :=
  fun s hat => h hat.valid s hat

theorem Takes.run {m : FsM α} (h : Takes g (fun _ _ => True) (fun _ => False) m w R)
    {s : FsState} (hat : At g s w) : ∃ r t w', m.run s = .ok (r, t) ∧ At g t w' ∧ R r w' := by
  obtain ⟨hok, hhalt⟩ := (h s hat).run (Prog.along_of_forall (fun _ _ => trivial) m s)
  cases hrun : m.run s with
  | ok x =>
    obtain ⟨r, t⟩ := x
    obtain ⟨w', hat', hR⟩ := hok r t hrun
    exact ⟨r, t, w', rfl, hat', hR⟩
  | halt x => exact (hhalt x hrun).elim

theorem takes_ite {c : Prop} [Decidable c] {m m' : FsM α} (hpos : c → Takes g C E m w R)
    (hneg : ¬ c → Takes g C E m' w R) : Takes g C E (if c then m else m') w R := fun s hat =>
  Prog.sat_ite (fun hc => hpos hc s hat) fun hc => hneg hc s hat

theorem takes_when {c : Prop} [Decidable c] {m : FsM Unit} {R : Unit → World → Prop}
    (hpos : c → Takes g C E m w R) (hneg : ¬ c → R () w) : Takes g C E (Prog.when c m) w R :=
  takes_ite hpos fun hc => takes_pure (hneg hc)

theorem takes_atomic {l : Act} {f : FsState → Res (α × FsState)}
    (h : ∀ s, At g s w → C l s → (∀ r t, f s = .ok (r, t) → ∃ w', At g t w' ∧ R r w') ∧
      ∀ x, f s = .halt x → E x) : Takes g C E (.atomic l f) w R := fun s hat =>
  Prog.sat_atomic fun hC => ⟨⟨w, hat⟩, h s hat hC⟩

theorem takes_stop {msg : String} (h : E (.panic msg)) : Takes g C E (stop msg) w R := by
  apply takes_atomic
  intro s _ _
  refine ⟨nofun, fun x hx => ?_⟩
  obtain rfl : Halt.panic msg = x := by simpa using hx
  exact h

theorem takes_get {f : FsState → α} (h : ∀ s, At g s w → R (f s) w) : Takes g C E (get f) w R := by
  apply takes_atomic
  intro s hat _
  refine ⟨fun r t ht => ?_, nofun⟩
  obtain ⟨rfl, rfl⟩ : f s = r ∧ s = t := by simpa using ht
  exact ⟨w, hat, h s hat⟩

theorem takes_put {f : FsState → FsState} {v : World} {R : Unit → World → Prop}
    (hat : ∀ s, At g s w → At g (f s) v) (h : R () v) : Takes g C E (put f) w R := by
  apply takes_atomic
  intro s hs _
  refine ⟨fun r t ht => ?_, nofun⟩
  obtain rfl : f s = t := by simpa using ht
  exact ⟨v, hat s hs, h⟩

end Xv6.Volume
