import Xv6.Volume.Blocks
import Xv6.Lib.Owner

/-!
# The pointers of inodes

The pointers of an inode are its addresses and the entries of its indirect block.  On a sound
disk the pointers own the data blocks whose bits are set.  What an allocation, a write and a
truncation do to the pointers and to the contents of files is said here, on images.
-/

namespace Xv6.Volume

open Xv6.Lib Xv6.Fs Xv6.Files

variable {a : LogArea} {g : Layout a} {m : Image}

def NPTR : Nat := NDIRECT + 1 + NINDIRECT

/-- Pointer `k`: an address, or an entry of the indirect block. -/
def Image.slot (m : Image) (i k : Nat) : Nat :=
  if k ≤ NDIRECT then (m.node i).addrs k
  else if (m.node i).addrs NDIRECT = 0 then 0
  else (m.blk ((m.node i).addrs NDIRECT)).get (4 * (k - (NDIRECT + 1))) 4

def Image.Live (g : Layout a) (m : Image) (i : Nat) : Prop :=
  i < g.sb.ninodes ∧ (m.node i).type ≠ 0

instance (i : Nat) : Decidable (m.Live g i) := inferInstanceAs (Decidable (_ ∧ _))

def Image.ptr (g : Layout a) (m : Image) (x : Nat × Nat) : Nat :=
  if m.Live g x.1 ∧ x.2 < NPTR then m.slot x.1 x.2 else 0

/-- The block is outside the area of inodes and bitmap, and its bit is set. -/
def Image.Used (g : Layout a) (m : Image) (b : Nat) : Prop :=
  g.first ≤ b ∧ b < g.sb.size ∧ m.bit b = true

structure Owned (g : Layout a) (m : Image) : Prop where
  owns : Owns (m.ptr g) (m.Used g)
  low : ∀ x, m.ptr g x < a.start

def slotOf (n : Nat) : Nat := if n < NDIRECT then n else n + 1

def Image.fptr (m : Image) (i n : Nat) : Nat := m.slot i (slotOf n)

def Image.byte (m : Image) (i o : Nat) : UInt8 :=
  if m.fptr i (o / BSIZE) = 0 then 0 else (m.blk (m.fptr i (o / BSIZE))).byte (o % BSIZE)

def setAddr (d : Dinode) (k b : Nat) : Dinode :=
  { d with addrs := Function.update d.addrs k b }

@[simp] theorem setAddr_self (d : Dinode) (k b : Nat) : (setAddr d k b).addrs k = b := by
  simp only [setAddr, Function.update_self]

@[simp] theorem setAddr_of_ne (d : Dinode) {k l : Nat} (h : l ≠ k) (b : Nat) :
    (setAddr d k b).addrs l = d.addrs l := by
  simp only [setAddr, Function.update_of_ne h]

def Image.setNode (m : Image) (i : Nat) (d : Dinode) : Image :=
  { m with node := Function.update m.node i d }

@[simp] theorem Image.setNode_self (m : Image) (i : Nat) (d : Dinode) :
    (m.setNode i d).node i = d := by
  simp only [Image.setNode, Function.update_self]

@[simp] theorem Image.setNode_of_ne (m : Image) {i j : Nat} (h : j ≠ i) (d : Dinode) :
    (m.setNode i d).node j = m.node j := by
  simp only [Image.setNode, Function.update_of_ne h]

/-! ## Slots -/

section Slots

variable {i k n : Nat}

theorem slotOf_lt (h : n < MAXFILE) : slotOf n < NPTR := by
  unfold MAXFILE at h
  unfold slotOf NPTR
  split_ifs <;> omega

theorem slotOf_ne (n : Nat) : slotOf n ≠ NDIRECT := by
  unfold slotOf
  split_ifs <;> omega

theorem slotOf_inj {n n' : Nat} (h : slotOf n = slotOf n') : n = n' := by
  unfold slotOf at h
  split_ifs at h <;> omega

theorem ptr_eq (hlive : m.Live g i) (hk : k < NPTR) : m.ptr g (i, k) = m.slot i k :=
  if_pos ⟨hlive, hk⟩

theorem ptr_fptr (hlive : m.Live g i) (hn : n < MAXFILE) :
    m.ptr g (i, slotOf n) = m.fptr i n :=
  ptr_eq hlive (slotOf_lt hn)

theorem slot_direct (hk : k ≤ NDIRECT) : m.slot i k = (m.node i).addrs k := if_pos hk

theorem slot_entry (hk : NDIRECT < k) (hind : (m.node i).addrs NDIRECT ≠ 0) :
    m.slot i k = (m.blk ((m.node i).addrs NDIRECT)).get (4 * (k - (NDIRECT + 1))) 4 := by
  rw [Image.slot, if_neg (by omega), if_neg hind]

theorem slot_none (hk : NDIRECT < k) (hind : (m.node i).addrs NDIRECT = 0) : m.slot i k = 0 := by
  rw [Image.slot, if_neg (by omega), if_pos hind]

theorem ptr_indirect (hlive : m.Live g i) : m.ptr g (i, NDIRECT) = (m.node i).addrs NDIRECT := by
  rw [ptr_eq hlive (by unfold NPTR; omega), slot_direct (Nat.le_refl _)]

theorem slot_entry_congr {m' : Image} (hk : NDIRECT < k)
    (haddr : (m'.node i).addrs NDIRECT = (m.node i).addrs NDIRECT)
    (hblk : (m.node i).addrs NDIRECT ≠ 0 →
      m'.blk ((m.node i).addrs NDIRECT) = m.blk ((m.node i).addrs NDIRECT)) :
    m'.slot i k = m.slot i k := by
  by_cases hind : (m.node i).addrs NDIRECT = 0
  · rw [slot_none hk hind, slot_none hk (haddr.trans hind)]
  · have hind' : (m'.node i).addrs NDIRECT ≠ 0 := by rwa [haddr]
    rw [slot_entry hk hind, slot_entry hk hind', haddr, hblk hind]

theorem slot_congr {m' : Image} (haddrs : ∀ k ≤ NDIRECT, (m'.node i).addrs k = (m.node i).addrs k)
    (hblk : (m.node i).addrs NDIRECT ≠ 0 →
      m'.blk ((m.node i).addrs NDIRECT) = m.blk ((m.node i).addrs NDIRECT)) (k : Nat) :
    m'.slot i k = m.slot i k := by
  by_cases hk : k ≤ NDIRECT
  · rw [slot_direct hk, slot_direct hk, haddrs k hk]
  · exact slot_entry_congr (by omega) (haddrs NDIRECT (Nat.le_refl _)) hblk

theorem ptr_congr {m' : Image} (hlive : ∀ j, m'.Live g j ↔ m.Live g j)
    (hslot : ∀ j k, m.Live g j → k < NPTR → m'.slot j k = m.slot j k) : m'.ptr g = m.ptr g := by
  funext ⟨j, k⟩
  unfold Image.ptr
  by_cases h : m.Live g j ∧ k < NPTR
  · rw [if_pos ⟨(hlive j).2 h.1, h.2⟩, if_pos h]
    exact hslot j k h.1 h.2
  · rw [if_neg h, if_neg fun h' => h ⟨(hlive j).1 h'.1, h'.2⟩]

theorem ptr_update {m' : Image} {b : Nat} (hlive : ∀ j, m'.Live g j ↔ m.Live g j)
    (hi : m.Live g i) (hk : k < NPTR) (hself : m'.slot i k = b)
    (hrest : ∀ l, l ≠ k → m'.slot i l = m.slot i l)
    (hother : ∀ j l, j ≠ i → m.Live g j → m'.slot j l = m.slot j l) :
    m'.ptr g = Function.update (m.ptr g) (i, k) b := by
  funext ⟨j, l⟩
  by_cases hx : ((j, l) : Nat × Nat) = (i, k)
  · obtain ⟨rfl, rfl⟩ := Prod.mk.inj hx
    rw [Function.update_self, ptr_eq ((hlive j).2 hi) hk, hself]
  · rw [Function.update_of_ne hx]
    unfold Image.ptr
    by_cases h : m.Live g j ∧ l < NPTR
    · rw [if_pos ⟨(hlive j).2 h.1, h.2⟩, if_pos h]
      by_cases hji : j = i
      · subst hji
        exact hrest l fun hlk => hx (by rw [hlk])
      · exact hother j l hji h.1
    · rw [if_neg h, if_neg fun h' => h ⟨(hlive j).1 h'.1, h'.2⟩]

end Slots

/-! ## Sound disks -/

section Owned

variable (h : Owned g m)
include h

theorem Owned.first_le {x : Nat × Nat} (hx : m.ptr g x ≠ 0) : g.first ≤ m.ptr g x :=
  (h.owns.used x hx).1

theorem Owned.bit {x : Nat × Nat} (hx : m.ptr g x ≠ 0) : m.bit (m.ptr g x) = true :=
  (h.owns.used x hx).2.2

theorem Owned.ne {b : Nat} (hb : m.bit b = false) (hpos : b ≠ 0) (x : Nat × Nat) :
    m.ptr g x ≠ b := by
  apply h.owns.ne _ hpos
  rintro ⟨_, _, hbit⟩
  rw [hb] at hbit
  exact absurd hbit (by decide)

theorem Owned.fptr_range {i n : Nat} (hi : m.Live g i) (hn : n < MAXFILE) (hne : m.fptr i n ≠ 0) :
    g.first ≤ m.fptr i n ∧ m.fptr i n < a.start := by
  have hlow := h.low (i, slotOf n)
  rw [← ptr_fptr hi hn] at hne ⊢
  exact ⟨h.first_le hne, hlow⟩

theorem Owned.indirect_ne {i j n : Nat} (hi : m.Live g i) (hj : m.Live g j) (hn : n < MAXFILE)
    (hne : m.fptr j n ≠ 0) : (m.node i).addrs NDIRECT ≠ m.fptr j n := by
  intro heq
  rw [← ptr_fptr hj hn] at hne heq
  rw [← ptr_indirect hi] at heq
  have hinj := h.owns.inj _ _ hne heq.symm
  exact slotOf_ne n (congrArg Prod.snd hinj)

theorem Owned.indirect_inj {i j : Nat} (hi : m.Live g i) (hj : m.Live g j)
    (hne : (m.node i).addrs NDIRECT ≠ 0) (heq : (m.node i).addrs NDIRECT = (m.node j).addrs NDIRECT) :
    i = j := by
  rw [← ptr_indirect hi] at hne heq
  rw [← ptr_indirect hj] at heq
  exact congrArg Prod.fst (h.owns.inj _ _ hne heq)

theorem Owned.fptr_inj {i j n n' : Nat} (hi : m.Live g i) (hj : m.Live g j) (hn : n < MAXFILE)
    (hn' : n' < MAXFILE) (hne : m.fptr i n ≠ 0) (heq : m.fptr i n = m.fptr j n') :
    i = j ∧ n = n' := by
  rw [← ptr_fptr hi hn] at hne heq
  rw [← ptr_fptr hj hn'] at heq
  have hinj := h.owns.inj _ _ hne heq
  exact ⟨congrArg Prod.fst hinj, slotOf_inj (congrArg Prod.snd hinj)⟩

end Owned

def Image.grab (m : Image) (b : Nat) : Image := (m.setBit b true).setBlk b fun _ => 0

theorem live_grab {b i : Nat} : (m.grab b).Live g i ↔ m.Live g i := Iff.rfl

theorem pos_of_first_le {b : Nat} (hb : g.first ≤ b) : b ≠ 0 := by
  have hpos := g.one_lt_first
  omega

theorem Owned.set {m' : Image} {b : Nat} {x : Nat × Nat} (h : Owned g m) (hb : g.first ≤ b)
    (hlt : b < a.start) (hbit : m.bit b = false)
    (hptr : m'.ptr g = Function.update (m.ptr g) x b)
    (hbits : m'.bit = Function.update m.bit b true) : Owned g m' := by
  have hsize : b < g.sb.size := hlt.trans_le g.start_le
  refine ⟨?_, fun y => ?_⟩
  · rw [hptr]
    apply h.owns.alloc
    · rintro ⟨_, _, hset⟩
      rw [hbit] at hset
      exact absurd hset (by decide)
    · rintro c ⟨hfirst, hc, hset⟩
      refine ⟨hfirst, hc, ?_⟩
      rw [hbits]
      by_cases hcb : c = b
      · rw [hcb, Function.update_self]
      · rw [Function.update_of_ne hcb, hset]
    · exact ⟨hb, hsize, by rw [hbits, Function.update_self]⟩
  · rw [hptr]
    by_cases hy : y = x
    · rw [hy, Function.update_self]
      exact hlt
    · rw [Function.update_of_ne hy]
      exact h.low y

theorem covers_set {m' : Image} {b : Nat} {x : Nat × Nat}
    (h : Covers (m.ptr g) (m.Used g)) (hx : m.ptr g x = 0)
    (hptr : m'.ptr g = Function.update (m.ptr g) x b)
    (hbits : m'.bit = Function.update m.bit b true) : Covers (m'.ptr g) (m'.Used g) := by
  rw [hptr]
  apply h.alloc hx
  rintro c ⟨hfirst, hc, hset⟩
  by_cases hcb : c = b
  · exact .inl hcb
  · rw [hbits, Function.update_of_ne hcb] at hset
    exact .inr ⟨pos_of_first_le hfirst, hfirst, hc, hset⟩

section Alloc

variable {b i k : Nat} (h : Owned g m) (hb : g.first ≤ b) (hbit : m.bit b = false)
include h hb hbit

theorem Owned.blk_grab {x : Nat × Nat} : (m.grab b).blk (m.ptr g x) = m.blk (m.ptr g x) :=
  Image.setBlk_of_ne _ (h.ne hbit (pos_of_first_le hb) x) _

theorem Owned.slot_grab (hi : m.Live g i) (k : Nat) : (m.grab b).slot i k = m.slot i k := by
  apply slot_congr
  · exact fun _ _ => rfl
  · intro _
    rw [← ptr_indirect hi]
    exact h.blk_grab hb hbit

theorem Owned.ptr_grab : (m.grab b).ptr g = m.ptr g :=
  ptr_congr (fun _ => live_grab) fun _ k hi _ => h.slot_grab hb hbit hi k

theorem Owned.grab : Owned g (m.grab b) := by
  refine ⟨?_, ?_⟩
  · rw [h.ptr_grab hb hbit]
    apply h.owns.mono
    rintro c ⟨hfirst, hc, hset⟩
    refine ⟨hfirst, hc, ?_⟩
    by_cases hcb : c = b
    · rw [hcb]
      exact Image.setBit_self _ b true
    · exact (Image.setBit_of_ne _ hcb true).trans hset
  · rw [h.ptr_grab hb hbit]
    exact h.low

theorem Owned.ptr_setAddr (hi : m.Live g i) (hk : k ≤ NDIRECT) (hzero : (m.node i).addrs k = 0) :
    ((m.grab b).setNode i (setAddr (m.node i) k b)).ptr g =
      Function.update (m.ptr g) (i, k) b := by
  have hlive : ∀ j, ((m.grab b).setNode i (setAddr (m.node i) k b)).Live g j ↔ m.Live g j := by
    intro j
    unfold Image.Live
    by_cases hj : j = i
    · rw [hj, Image.setNode_self]
      rfl
    · rw [Image.setNode_of_ne _ hj]
      rfl
  apply ptr_update hlive hi (by unfold NPTR; omega)
  · rw [slot_direct hk, Image.setNode_self, setAddr_self]
  · intro l hlk
    by_cases hdirect : l ≤ NDIRECT
    · rw [slot_direct hdirect, slot_direct hdirect, Image.setNode_self, setAddr_of_ne _ hlk]
    · by_cases hind : k = NDIRECT
      · -- the new indirect block has no entries
        subst hind
        rw [slot_none (by omega) hzero, slot_entry (by omega)]
        · rw [Image.setNode_self, setAddr_self]
          change ((m.grab b).blk b).get _ 4 = 0
          rw [Image.grab, Image.setBlk_self]
          exact Bytes.get_zero _ 4
        · rw [Image.setNode_self, setAddr_self]
          exact pos_of_first_le hb
      · rw [← h.slot_grab hb hbit hi l]
        apply slot_entry_congr (by omega)
        · rw [Image.setNode_self, setAddr_of_ne _ (Ne.symm hind)]
          rfl
        · exact fun _ => rfl
  · intro j l hji hj
    rw [← h.slot_grab hb hbit hj l]
    apply slot_congr
    · intro l _
      rw [Image.setNode_of_ne _ hji]
    · exact fun _ => rfl

end Alloc

theorem slot_setBlk_of_ne {i x : Nat} (hne : (m.node i).addrs NDIRECT ≠ x) (d : Block) (k : Nat) :
    (m.setBlk x d).slot i k = m.slot i k := by
  have haddrs : ∀ k ≤ NDIRECT, ((m.setBlk x d).node i).addrs k = (m.node i).addrs k :=
    fun _ _ => rfl
  exact slot_congr haddrs (fun _ => Image.setBlk_of_ne _ hne d) k

theorem slot_setIndirect {i k : Nat} (hk : NDIRECT < k) (hind : (m.node i).addrs NDIRECT ≠ 0)
    (d : Block) : (m.setBlk ((m.node i).addrs NDIRECT) d).slot i k =
      d.get (4 * (k - (NDIRECT + 1))) 4 := by
  have hentry := slot_entry (m := m.setBlk ((m.node i).addrs NDIRECT) d) hk hind
  rw [hentry]
  exact congrArg (fun c : Block => c.get _ 4) (Image.setBlk_self _ _ d)

theorem Owned.ptr_setEntry {i j b : Nat} (h : Owned g m) (hi : m.Live g i)
    (hind : (m.node i).addrs NDIRECT ≠ 0) (hj : j < NINDIRECT) (hb : b < 2 ^ 32) :
    (m.setBlk ((m.node i).addrs NDIRECT)
      ((m.blk ((m.node i).addrs NDIRECT)).set (4 * j) 4 b)).ptr g =
      Function.update (m.ptr g) (i, NDIRECT + 1 + j) b := by
  have hsub : NDIRECT + 1 + j - (NDIRECT + 1) = j := by omega
  refine ptr_update (fun _ => Iff.rfl) hi (by unfold NPTR; omega) ?_ ?_ ?_
  · rw [slot_setIndirect (by omega) hind, hsub]
    have hfits : 4 * j + 4 ≤ BSIZE := by
      unfold NINDIRECT at hj
      omega
    exact Bytes.get_set_self hfits (by simpa using hb)
  · intro l hl
    by_cases hdirect : l ≤ NDIRECT
    · rw [slot_direct hdirect, slot_direct hdirect]
      rfl
    · rw [slot_setIndirect (by omega) hind, slot_entry (by omega) hind]
      exact Bytes.get_set_of_disjoint (by omega)
  · intro i' l hne hi'
    apply slot_setBlk_of_ne
    intro heq
    exact hne (h.indirect_inj hi' hi (heq ▸ hind) heq)

theorem Owned.ptr_setData {i n : Nat} (h : Owned g m) (hi : m.Live g i) (hn : n < MAXFILE)
    (hne : m.fptr i n ≠ 0) (d : Block) : (m.setBlk (m.fptr i n) d).ptr g = m.ptr g := by
  refine ptr_congr (fun _ => Iff.rfl) fun j k hj _ => ?_
  exact slot_setBlk_of_ne (h.indirect_ne hj hi hn hne) d k

/-! ## Contents -/

theorem byte_congr {m' : Image} {i : Nat} (o : Nat)
    (h : (m'.fptr i (o / BSIZE) = m.fptr i (o / BSIZE) ∧
        (m.fptr i (o / BSIZE) ≠ 0 →
          m'.blk (m.fptr i (o / BSIZE)) = m.blk (m.fptr i (o / BSIZE)))) ∨
      (m.fptr i (o / BSIZE) = 0 ∧ m'.blk (m'.fptr i (o / BSIZE)) = fun _ => 0)) :
    m'.byte i o = m.byte i o := by
  unfold Image.byte
  rcases h with ⟨hptr, hblk⟩ | ⟨hzero, hblk⟩
  · rw [hptr]
    split_ifs with hz
    · rfl
    · rw [hblk hz]
  · rw [if_pos hzero]
    split_ifs
    · rfl
    · rw [hblk, Bytes.byte_zero]

/-! ## Fields of inodes -/

section SetNode

variable {i : Nat} {d : Dinode} (haddrs : ∀ k ≤ NDIRECT, d.addrs k = (m.node i).addrs k)
include haddrs

theorem slot_setNode (j k : Nat) : (m.setNode i d).slot j k = m.slot j k := by
  apply slot_congr
  · intro l hl
    by_cases hj : j = i
    · rw [hj, Image.setNode_self, haddrs l hl]
    · rw [Image.setNode_of_ne _ hj]
  · exact fun _ => rfl

theorem byte_setNode (j o : Nat) : (m.setNode i d).byte j o = m.byte j o :=
  byte_congr o (.inl ⟨slot_setNode haddrs j _, fun _ => rfl⟩)

variable (htype : d.type = 0 ↔ (m.node i).type = 0)
include htype

omit haddrs in
theorem live_setNode {j : Nat} : (m.setNode i d).Live g j ↔ m.Live g j := by
  unfold Image.Live
  by_cases hj : j = i
  · rw [hj, Image.setNode_self, ne_eq, ne_eq, htype]
  · rw [Image.setNode_of_ne _ hj]

theorem ptr_setNode : (m.setNode i d).ptr g = m.ptr g :=
  ptr_congr (fun _ => live_setNode htype) fun j k _ _ => slot_setNode haddrs j k

theorem Owned.setNode (h : Owned g m) : Owned g (m.setNode i d) := by
  refine ⟨?_, ?_⟩
  · rw [ptr_setNode haddrs htype]
    exact h.owns
  · rw [ptr_setNode haddrs htype]
    exact h.low

end SetNode

end Xv6.Volume
