import Xv6.Files.Inode
import Mathlib

/-!
# What the blocks of a disk say

The areas of a disk, and how inodes and bits are laid out in their blocks.  An inode that is
written to its block is read back, and leaves the other inodes of the block alone; the same
goes for the bits of the bitmap.
-/

namespace Xv6.Volume

open Xv6.Lib Xv6.Fs Xv6.Files

variable {a : LogArea}

/-- The inode blocks, the bitmap, the data blocks and the log come one after the other, and the
log ends where the disk ends. -/
structure Layout (a : LogArea) where
  sb : Superblock
  log_eq : a.start + a.size = sb.size
  data_le : sb.ninodes / IPB + 3 + (sb.size / BPB + 1) ≤ a.start

namespace Layout

variable (g : Layout a)

def first : Nat := g.sb.ninodes / IPB + 3 + (g.sb.size / BPB + 1)

theorem first_le : g.first ≤ a.start := g.data_le

theorem start_le : a.start ≤ g.sb.size := by
  have hend := g.log_eq
  omega

theorem one_lt_first : 1 < g.first := by
  unfold first IPB BPB BSIZE
  omega

theorem one_lt_iblock (i : Nat) : 1 < IBLOCK i := by
  unfold IBLOCK IPB
  omega

variable {g}

theorem iblock_lt_bblock {i : Nat} (hi : i < g.sb.ninodes) (b : Nat) :
    IBLOCK i < BBLOCK b g.sb.ninodes := by
  unfold IBLOCK BBLOCK IPB BPB BSIZE
  omega

theorem bblock_lt_first {b : Nat} (hb : b < g.sb.size) : BBLOCK b g.sb.ninodes < g.first := by
  have hdiv : b / BPB ≤ g.sb.size / BPB := Nat.div_le_div_right (by omega)
  unfold BBLOCK first
  omega

theorem iblock_lt_first {i : Nat} (hi : i < g.sb.ninodes) : IBLOCK i < g.first := by
  unfold IBLOCK first IPB BPB BSIZE
  omega

end Layout

/-! ## Inodes in their blocks -/

/-- The same inode: only the addresses that an inode has on the disk count. -/
structure Same (d d' : Dinode) : Prop where
  type : d.type = d'.type
  major : d.major = d'.major
  minor : d.minor = d'.minor
  nlink : d.nlink = d'.nlink
  size : d.size = d'.size
  addrs : ∀ k ≤ NDIRECT, d.addrs k = d'.addrs k

theorem Same.refl (d : Dinode) : Same d d := ⟨rfl, rfl, rfl, rfl, rfl, fun _ _ => rfl⟩

theorem Same.symm {d d' : Dinode} (h : Same d d') : Same d' d :=
  ⟨h.type.symm, h.major.symm, h.minor.symm, h.nlink.symm, h.size.symm,
    fun k hk => (h.addrs k hk).symm⟩

theorem Same.trans {d d' d'' : Dinode} (h : Same d d') (h' : Same d' d'') : Same d d'' :=
  ⟨h.type.trans h'.type, h.major.trans h'.major, h.minor.trans h'.minor,
    h.nlink.trans h'.nlink, h.size.trans h'.size,
    fun k hk => (h.addrs k hk).trans (h'.addrs k hk)⟩

structure Fits (d : Dinode) : Prop where
  type : d.type < 2 ^ 16
  major : d.major < 2 ^ 16
  minor : d.minor < 2 ^ 16
  nlink : d.nlink < 2 ^ 16
  size : d.size < 2 ^ 32
  addrs : ∀ k ≤ NDIRECT, d.addrs k < 2 ^ 32

theorem fits_decode (b : Block) (j : Nat) : Fits (.decode b j) where
  type := b.get_lt _ 2
  major := b.get_lt _ 2
  minor := b.get_lt _ 2
  nlink := b.get_lt _ 2
  size := b.get_lt _ 4
  addrs _ _ := b.get_lt _ 4

theorem Fits.of_same {d d' : Dinode} (h : Fits d) (hsame : Same d d') : Fits d' where
  type := hsame.type ▸ h.type
  major := hsame.major ▸ h.major
  minor := hsame.minor ▸ h.minor
  nlink := hsame.nlink ▸ h.nlink
  size := hsame.size ▸ h.size
  addrs k hk := hsame.addrs k hk ▸ h.addrs k hk

theorem same_decode_of_bytes {b c : Block} {j : Nat}
    (h : ∀ i, 128 * j ≤ i → i < 128 * j + 128 → b.byte i = c.byte i) :
    Same (.decode b j) (.decode c j) := by
  have hget : ∀ off w, off + w ≤ 128 → b.get (dinodeOff j + off) w = c.get (dinodeOff j + off) w := by
    intro off w hw
    unfold dinodeOff
    exact Bytes.get_congr fun i hlo hhi => h i (by omega) (by omega)
  refine ⟨hget 0 2 (by omega), hget 2 2 (by omega), hget 4 2 (by omega), hget 6 2 (by omega),
    hget 8 4 (by omega), fun k hk => ?_⟩
  have hk' : k ≤ 12 := hk
  have haddr := hget (76 + 4 * k) 4 (by omega)
  rwa [← Nat.add_assoc] at haddr

theorem byte_putAddrs_of_notMem {addrs : Nat → Nat} {off m i : Nat} {b : Block}
    (h : i < off + 76 ∨ off + 76 + 4 * m ≤ i) : (putAddrs addrs off m b).byte i = b.byte i := by
  induction m with
  | zero => rfl
  | succ m ih =>
    rw [putAddrs, Bytes.byte_set_of_notMem (by omega)]
    exact ih (by omega)

theorem get_putAddrs_of_disjoint {addrs : Nat → Nat} {off m off' w : Nat} {b : Block}
    (h : off' + w ≤ off + 76) : (putAddrs addrs off m b).get off' w = b.get off' w :=
  Bytes.get_congr fun _ _ _ => byte_putAddrs_of_notMem (by omega)

theorem get_putAddrs {addrs : Nat → Nat} {off m k : Nat} {b : Block} (hk : k < m)
    (hoff : off + 76 + 4 * m ≤ BSIZE) (haddr : addrs k < 2 ^ 32) :
    (putAddrs addrs off m b).get (off + 76 + 4 * k) 4 = addrs k := by
  induction m with
  | zero => omega
  | succ m ih =>
    rw [putAddrs]
    rcases Nat.lt_succ_iff_lt_or_eq.1 hk with hlt | rfl
    · rw [Bytes.get_set_of_disjoint (by omega)]
      exact ih hlt (by omega)
    · exact Bytes.get_set_self (by omega) (by simpa using haddr)

theorem byte_encode_of_notMem {d : Dinode} {b : Block} {j i : Nat}
    (h : i < 128 * j ∨ 128 * j + 128 ≤ i) : (d.encode b j).byte i = b.byte i := by
  unfold Dinode.encode dinodeOff NDIRECT
  rw [byte_putAddrs_of_notMem (by omega)]
  repeat rw [Bytes.byte_set_of_notMem (by omega)]

theorem decode_encode_self {d : Dinode} (hd : Fits d) (b : Block) {j : Nat} (hj : j < IPB) :
    Same (.decode (d.encode b j) j) d := by
  have hj' : j < 4 := hj
  have hfield : ∀ (off w v : Nat) (c : Block), off + w ≤ 128 → v < 256 ^ w →
      (c.set (128 * j + off) w v).get (128 * j + off) w = v := by
    intro off w v c hw hv
    exact Bytes.get_set_self (by unfold BSIZE; omega) hv
  constructor
  case addrs =>
    intro k hk
    exact get_putAddrs (by omega) (by unfold dinodeOff NDIRECT BSIZE; omega) (hd.addrs k hk)
  all_goals
    simp only [Dinode.decode, Dinode.encode, dinodeOff]
    rw [get_putAddrs_of_disjoint (by omega)]
  case size => exact hfield 8 4 _ _ (by omega) hd.size
  case nlink =>
    rw [Bytes.get_set_of_disjoint (by omega)]
    exact hfield 6 2 _ _ (by omega) hd.nlink
  case minor =>
    repeat rw [Bytes.get_set_of_disjoint (by omega)]
    exact hfield 4 2 _ _ (by omega) hd.minor
  case major =>
    repeat rw [Bytes.get_set_of_disjoint (by omega)]
    exact hfield 2 2 _ _ (by omega) hd.major
  case type =>
    repeat rw [Bytes.get_set_of_disjoint (by omega)]
    exact hfield 0 2 _ _ (by omega) hd.type

theorem decode_encode_of_ne (d : Dinode) (b : Block) {j j' : Nat} (h : j' ≠ j) :
    Same (.decode (d.encode b j) j') (.decode b j') := by
  apply same_decode_of_bytes
  intro i hlo hhi
  apply byte_encode_of_notMem
  omega

/-! ## Bits -/

theorem toNat_byte_set_one {b : Block} {i v : Nat} (hi : i < BSIZE) (hv : v < 256) :
    ((b.set i 1 v).byte i).toNat = v := by
  rw [Bytes.byte_set_of_mem hi (by omega) (by omega)]
  simpa using Nat.mod_eq_of_lt hv

theorem toNat_or_lt (x : UInt8) {k : Nat} (hk : k < 8) : x.toNat ||| 2 ^ k < 256 := by
  have hx : x.toNat < 2 ^ 8 := x.toNat_lt
  have hpow : 2 ^ k < 2 ^ 8 := Nat.pow_lt_pow_right (by omega) hk
  exact Nat.or_lt_two_pow hx hpow

section Bits

variable {b : Block} {bi bj : Nat}

theorem testBit_set_one {v : Nat} (hbi : bi < BPB) (hv : v < 256) :
    testBit (b.set (bi / 8) 1 v) bj =
      if bj / 8 = bi / 8 then v.testBit (bj % 8) else testBit b bj := by
  have hbyte : bi / 8 < BSIZE := Nat.div_lt_of_lt_mul (by unfold BPB at hbi; omega)
  unfold testBit
  split_ifs with h
  · rw [h, toNat_byte_set_one hbyte hv]
  · rw [Bytes.byte_set_of_notMem (by omega)]

theorem testBit_setBit (hbi : bi < BPB) :
    testBit (setBit b bi) bj = if bj = bi then true else testBit b bj := by
  have hbit : bi % 8 < 8 := Nat.mod_lt _ (by omega)
  rw [setBit, testBit_set_one hbi (toNat_or_lt _ hbit)]
  by_cases h : bj = bi
  · subst h
    simp [Nat.testBit_or, Nat.testBit_two_pow_self]
  · rw [if_neg h]
    split_ifs with hdiv
    · have hmod : bi % 8 ≠ bj % 8 := by omega
      rw [Nat.testBit_or, Nat.testBit_two_pow, decide_eq_false hmod, Bool.or_false, testBit, hdiv]
    · rfl

theorem findClear_eq_some {n : Nat} :
    findClear b n = some bi ↔ bi < n ∧ testBit b bi = false ∧ ∀ bj < bi, testBit b bj = true := by
  unfold findClear
  rw [List.find?_range_eq_some]
  simp only [Bool.not_eq_true', List.mem_range, Bool.not_not]
  tauto

theorem findClear_eq_none {n : Nat} : findClear b n = none ↔ ∀ bj < n, testBit b bj = true := by
  simp [findClear]

end Bits

end Xv6.Volume
