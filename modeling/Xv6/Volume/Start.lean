import Xv6.Volume.Pointers
import Xv6.Files.System

/-!
# The world of a disk

What a disk stands for when no code is running yet, and what the small disk stands for.
-/

namespace Xv6.Volume

open Xv6.Lib Xv6.Fs Xv6.Files Xv6.Sched

variable {a : LogArea} {g : Layout a}

def Image.ofDisk (g : Layout a) (disk : Nat → Block) : Image where
  node i := .decode (disk (IBLOCK i)) (i % IPB)
  bit b := testBit (disk (BBLOCK b g.sb.ninodes)) (b % BPB)
  blk := disk

def World.ofDisk (g : Layout a) (disk : Nat → Block) : World where
  image := .ofDisk g disk
  dirty _ := False
  key e := .of ((startFs disk).icache e)
  held := ∅
  logged := ∅
  trans := none

/-- The areas of the disk are where its super block says, and the bits before the data blocks
are set. -/
structure Formatted (g : Layout a) (disk : Nat → Block) : Prop where
  super : Superblock.decode (disk 1) = g.sb
  root : ROOTINO < g.sb.ninodes
  reserved : ∀ b < g.first, (Image.ofDisk g disk).bit b = true

theorem at_startFs {disk : Nat → Block} (h : Formatted g disk) :
    At g (startFs disk) (World.ofDisk g disk) := by
  have hroot : ∀ e, 0 < ((World.ofDisk g disk).key e).ref → e = rootEntry := by
    intro e href
    by_contra hne
    simp [World.ofDisk, startFs, Key.of, hne] at href
  have hkeyed : Keyed g (World.ofDisk g disk).key := by
    refine ⟨fun _ _ => rfl, fun e href => ?_, fun e e' href href' _ => ?_⟩
    · rw [hroot e href]
      exact h.root
    · rw [hroot e href, hroot e' href']
  have hvalid : (World.ofDisk g disk).Valid g :=
    ⟨hkeyed, fun _ _ => fits_decode _ _, h.reserved, by simp [World.ofDisk],
      by simp [World.ofDisk]⟩
  refine ⟨hvalid, fun x _ => ⟨fun hx => ?_, fun i _ hx _ => ?_, fun b _ hx => ?_, fun _ => rfl⟩,
    fun _ => rfl, fun _ _ hval => ?_, ?_, rfl, ?_⟩
  · rw [hx]
    exact h.super
  · rw [← hx]
    exact Same.refl _
  · rw [← hx]
    rfl
  · exact absurd hval (by simp [World.ofDisk, startFs, Key.of])
  · simp [World.ofDisk, startFs]
  · exact ⟨by simp [startFs], by simp [startFs], by simp [startFs]⟩

/-! ## The small disk -/

def smallLayout : Layout smallArea := ⟨⟨30, 15, 4, 10⟩, by decide, by decide⟩

theorem formatted_small : Formatted smallLayout smallDisk where
  super := by
    have hfields : (smallDisk 1).get 0 4 = 30 ∧ (smallDisk 1).get 4 4 = 15 ∧
        (smallDisk 1).get 8 4 = 4 ∧ (smallDisk 1).get 12 4 = 10 := by decide +kernel
    obtain ⟨hsize, hnblocks, hninodes, hnlog⟩ := hfields
    rw [Superblock.decode, hsize, hnblocks, hninodes, hnlog]
    rfl
  root := by decide
  reserved := by decide +kernel

theorem ptr_small {x : Nat × Nat} (h : (Image.ofDisk smallLayout smallDisk).ptr smallLayout x ≠ 0) :
    x = (ROOTINO, 0) := by
  obtain ⟨i, k⟩ := x
  unfold Image.ptr at h
  rw [ite_ne_right_iff] at h
  obtain ⟨⟨⟨hi, hlive⟩, _⟩, hslot⟩ := h
  have hnodes : ∀ i < 4, ((Image.ofDisk smallLayout smallDisk).node i).type ≠ 0 → i = ROOTINO := by
    decide +kernel
  obtain rfl := hnodes i hi hlive
  have haddrs : ∀ k ≤ NDIRECT,
      ((Image.ofDisk smallLayout smallDisk).node ROOTINO).addrs k ≠ 0 → k = 0 := by
    decide +kernel
  by_cases hk : k ≤ NDIRECT
  · rw [slot_direct hk] at hslot
    rw [haddrs k hk hslot]
  · have hind := haddrs NDIRECT (Nat.le_refl _)
    rw [slot_none (by omega) (by_contra fun hne => absurd (hind hne) (by decide))] at hslot
    exact absurd rfl hslot

theorem ptr_small_root :
    (Image.ofDisk smallLayout smallDisk).ptr smallLayout (ROOTINO, 0) = 5 := by
  decide +kernel

theorem owned_small : Owned smallLayout (Image.ofDisk smallLayout smallDisk) := by
  refine ⟨⟨fun x y hx hxy => ?_, fun x hx => ?_⟩, fun x => ?_⟩
  · have hy : (Image.ofDisk smallLayout smallDisk).ptr smallLayout y ≠ 0 := by rwa [← hxy]
    exact (ptr_small hx).trans (ptr_small hy).symm
  · rw [ptr_small hx, ptr_small_root]
    exact ⟨by decide, by decide, by decide +kernel⟩
  · by_cases hx : (Image.ofDisk smallLayout smallDisk).ptr smallLayout x = 0
    · rw [hx]
      decide
    · rw [ptr_small hx, ptr_small_root]
      decide

end Xv6.Volume
