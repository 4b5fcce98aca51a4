import Xv6.Volume.Pointers

/-!
# The contents of files

`bmap` leaves the contents of all files as they are, `readi` returns bytes of the contents and
`writei` overwrites them.
-/

namespace Xv6.Volume

open Xv6.Lib Xv6.Fs Xv6.Files Xv6.Sched

variable {a : LogArea} {α : Type} {g : Layout a} {C : Act → FsState → Prop} {E : Halt → Prop}
  {w w' w'' : World} {R : α → World → Prop}

def Layout.bitmap (g : Layout a) : Finset Nat :=
  (Finset.range g.sb.size).image fun b => BBLOCK b g.sb.ninodes

theorem mem_bitmap {b : Nat} (hb : b < g.sb.size) : BBLOCK b g.sb.ninodes ∈ g.bitmap :=
  Finset.mem_image_of_mem _ (Finset.mem_range.2 hb)

structure Alike (d d' : Dinode) : Prop where
  type : d.type = d'.type
  major : d.major = d'.major
  minor : d.minor = d'.minor
  nlink : d.nlink = d'.nlink
  size : d.size = d'.size

theorem Alike.refl (d : Dinode) : Alike d d := ⟨rfl, rfl, rfl, rfl, rfl⟩

theorem Alike.trans {d d' d'' : Dinode} (h : Alike d d') (h' : Alike d' d'') : Alike d d'' :=
  ⟨h.type.trans h'.type, h.major.trans h'.major, h.minor.trans h'.minor, h.nlink.trans h'.nlink,
    h.size.trans h'.size⟩

/-- Code that works on the blocks of inode `i` leaves alone what it does not work on. -/
structure Evolves (g : Layout a) (i : Nat) (w w' : World) : Prop where
  owned : Owned g w.image → Owned g w'.image
  covers : Covers (w.image.ptr g) (w.image.Used g) → Covers (w'.image.ptr g) (w'.image.Used g)
  node : ∀ j, j ≠ i → w'.image.node j = w.image.node j
  alike : Alike (w'.image.node i) (w.image.node i)
  ptr : ∀ x, w.image.ptr g x ≠ 0 → w'.image.ptr g x = w.image.ptr g x
  other : ∀ j k, j ≠ i → w'.image.ptr g (j, k) = w.image.ptr g (j, k)
  byte : ∀ j o, j ≠ i → w.image.Live g j → o < MAXFILE * BSIZE → w'.image.byte j o = w.image.byte j o
  key : w'.key = w.key
  held : w'.held = w.held
  trans : w'.trans = w.trans
  dirty : ∀ j, j ≠ i → (w'.dirty j ↔ w.dirty j)

namespace Evolves

variable {i : Nat}

theorem refl (w : World) : Evolves g i w w where
  owned h := h
  covers h := h
  node _ _ := rfl
  alike := Alike.refl _
  ptr _ _ := rfl
  other _ _ _ := rfl
  byte _ _ _ _ _ := rfl
  key := rfl
  held := rfl
  trans := rfl
  dirty _ _ := Iff.rfl

theorem live (h : Evolves g i w w') {j : Nat} : w'.image.Live g j ↔ w.image.Live g j := by
  unfold Image.Live
  by_cases hj : j = i
  · rw [hj, h.alike.type]
  · rw [h.node j hj]

theorem comp (h : Evolves g i w w') (h' : Evolves g i w' w'') : Evolves g i w w'' where
  owned ho := h'.owned (h.owned ho)
  covers hc := h'.covers (h.covers hc)
  node j hj := (h'.node j hj).trans (h.node j hj)
  alike := h'.alike.trans h.alike
  ptr x hx := by
    have hstep := h.ptr x hx
    rw [← hstep] at hx
    exact (h'.ptr x hx).trans hstep
  other j k hj := (h'.other j k hj).trans (h.other j k hj)
  byte j o hj hlive ho := (h'.byte j o hj (h.live.2 hlive) ho).trans (h.byte j o hj hlive ho)
  key := h'.key.trans h.key
  held := h'.held.trans h.held
  trans := h'.trans.trans h.trans
  dirty j hj := (h'.dirty j hj).trans (h.dirty j hj)

end Evolves

/-! ## A new block for a file -/

def Image.avail (g : Layout a) (m : Image) : Nat :=
  ((Finset.Ico g.first a.start).filter fun b => m.bit b = false).card

/-- There are `n` free blocks, or there is one whenever `balloc` looks for it. -/
def Ample (g : Layout a) (C : Act → FsState → Prop) (m : Image) (n : Nat) : Prop :=
  (∀ m, Supply g C m) ∨ n ≤ m.avail g

theorem Ample.supply {m : Image} {n : Nat} (h : Ample g C m n) (hn : 0 < n) : Supply g C m := by
  rcases h with hall | havail
  · exact hall m
  · intro _ _ _ _ _ _
    obtain ⟨b, hb⟩ := Finset.card_pos.1 (hn.trans_le havail)
    rw [Finset.mem_filter, Finset.mem_Ico] at hb
    exact ⟨b, hb.1.2, hb.2⟩

theorem avail_grab {m m' : Image} {b : Nat} (hb : g.first ≤ b) (hlt : b < a.start)
    (hbit : m.bit b = false) (hbits : m'.bit = Function.update m.bit b true) :
    m.avail g = m'.avail g + 1 := by
  have herase : (Finset.Ico g.first a.start).filter (fun c => m'.bit c = false) =
      ((Finset.Ico g.first a.start).filter fun c => m.bit c = false).erase b := by
    ext c
    rw [Finset.mem_erase, Finset.mem_filter, Finset.mem_filter, hbits]
    by_cases hcb : c = b
    · simp [hcb]
    · simp [hcb]
  have hmem : b ∈ (Finset.Ico g.first a.start).filter fun c => m.bit c = false :=
    Finset.mem_filter.2 ⟨Finset.mem_Ico.2 ⟨hb, hlt⟩, hbit⟩
  unfold Image.avail
  rw [herase, Finset.card_erase_add_one hmem]

/-- Pointer `k` of inode `i`, which was null, now points to the new block `b`. -/
structure Puts (g : Layout a) (i k b : Nat) (m m' : Image) : Prop where
  first : g.first ≤ b
  low : b < a.start
  clear : m.bit b = false
  live : m.Live g i
  null : m.ptr g (i, k) = 0
  ptr : m'.ptr g = Function.update (m.ptr g) (i, k) b
  bit : m'.bit = Function.update m.bit b true
  zero : m'.blk b = fun _ => 0
  blk : ∀ x, x ≠ b → (NDIRECT < k → x ≠ (m.node i).addrs NDIRECT) → m'.blk x = m.blk x
  node : ∀ j, j ≠ i → m'.node j = m.node j
  alike : Alike (m'.node i) (m.node i)

namespace Puts

variable {i k b : Nat} {m m' : Image}

theorem live_iff (h : Puts g i k b m m') {j : Nat} : m'.Live g j ↔ m.Live g j := by
  unfold Image.Live
  by_cases hj : j = i
  · rw [hj, h.alike.type]
  · rw [h.node j hj]

theorem owned (h : Puts g i k b m m') (ho : Owned g m) : Owned g m' :=
  ho.set h.first h.low h.clear h.ptr h.bit

theorem covers (h : Puts g i k b m m') (hc : Covers (m.ptr g) (m.Used g)) :
    Covers (m'.ptr g) (m'.Used g) :=
  covers_set hc h.null h.ptr h.bit

theorem avail (h : Puts g i k b m m') : m.avail g = m'.avail g + 1 :=
  avail_grab h.first h.low h.clear h.bit

theorem byte (h : Puts g i k b m m') (ho : Owned g m) {j o : Nat} (hj : m.Live g j)
    (hlt : o < MAXFILE * BSIZE) : m'.byte j o = m.byte j o := by
  have hn : o / BSIZE < MAXFILE := Nat.div_lt_of_lt_mul (by rwa [Nat.mul_comm] at hlt)
  have hfptr : m'.fptr j (o / BSIZE) =
      Function.update (m.ptr g) (i, k) b (j, slotOf (o / BSIZE)) := by
    rw [← ptr_fptr (h.live_iff.2 hj) hn, h.ptr]
  apply byte_congr
  by_cases hx : ((j, slotOf (o / BSIZE)) : Nat × Nat) = (i, k)
  · right
    have hnull := h.null
    rw [← hx, ptr_fptr hj hn] at hnull
    rw [hx, Function.update_self] at hfptr
    rw [hfptr]
    exact ⟨hnull, h.zero⟩
  · left
    rw [Function.update_of_ne hx, ptr_fptr hj hn] at hfptr
    refine ⟨hfptr, fun hne => h.blk _ ?_ fun _ heq => ?_⟩
    · rw [← ptr_fptr hj hn]
      exact ho.ne h.clear (pos_of_first_le h.first) _
    · exact ho.indirect_ne h.live hj hn hne heq.symm

end Puts

theorem puts_addr {m : Image} {i k b : Nat} (ho : Owned g m) (hb : g.first ≤ b) (hlt : b < a.start)
    (hbit : m.bit b = false) (hi : m.Live g i) (hk : k ≤ NDIRECT)
    (hzero : (m.node i).addrs k = 0) :
    Puts g i k b m ((m.grab b).setNode i (setAddr (m.node i) k b)) where
  first := hb
  low := hlt
  clear := hbit
  live := hi
  null := by rw [ptr_eq hi (by unfold NPTR; omega), slot_direct hk, hzero]
  ptr := ho.ptr_setAddr hb hbit hi hk hzero
  bit := rfl
  zero := Image.setBlk_self _ b _
  blk x hne _ := Image.setBlk_of_ne _ hne _
  node j hj := Image.setNode_of_ne _ hj _
  alike := by
    rw [Image.setNode_self]
    exact ⟨rfl, rfl, rfl, rfl, rfl⟩

theorem puts_entry {m : Image} {i j b : Nat} (ho : Owned g m) (hb : g.first ≤ b)
    (hlt : b < a.start) (hbit : m.bit b = false) (hi : m.Live g i)
    (hind : (m.node i).addrs NDIRECT ≠ 0) (hj : j < NINDIRECT)
    (hzero : (m.blk ((m.node i).addrs NDIRECT)).get (4 * j) 4 = 0) :
    Puts g i (NDIRECT + 1 + j) b m ((m.grab b).setBlk ((m.node i).addrs NDIRECT)
      ((m.blk ((m.node i).addrs NDIRECT)).set (4 * j) 4 b)) where
  first := hb
  low := hlt
  clear := hbit
  live := hi
  null := by
    have hsub : NDIRECT + 1 + j - (NDIRECT + 1) = j := by omega
    rw [ptr_eq hi (by unfold NPTR; omega), slot_entry (by omega) hind, hsub, hzero]
  ptr := by
    have hlt' : b < 2 ^ 32 := by
      have hfits := a.fits
      omega
    have hptr := (ho.grab hb hbit).ptr_setEntry (i := i) hi hind hj hlt'
    rw [ho.ptr_grab hb hbit] at hptr
    have hblk := ho.blk_grab hb hbit (x := (i, NDIRECT))
    rw [ptr_indirect hi] at hblk
    rw [← hblk]
    exact hptr
  bit := rfl
  zero := by
    rw [Image.setBlk_of_ne]
    · exact Image.setBlk_self _ b _
    · rw [← ptr_indirect hi]
      exact (ho.ne hbit (pos_of_first_le hb) _).symm
  blk x hne hx := by
    rw [Image.setBlk_of_ne _ (hx (by omega))]
    exact Image.setBlk_of_ne _ hne _
  node _ _ := rfl
  alike := Alike.refl _

def Image.setting (m : Image) (i k b : Nat) : Finset Nat :=
  if k ≤ NDIRECT then {b} else {b, (m.node i).addrs NDIRECT}

structure Gains (g : Layout a) (i k b : Nat) (w w' : World) : Prop where
  puts : Puts g i k b w.image w'.image
  key : w'.key = w.key
  held : w'.held = w.held
  trans : w'.trans = w.trans
  dirty : ∀ j, j ≠ i → (w'.dirty j ↔ w.dirty j)
  logged : w'.logged ⊆ w.logged ∪ (g.bitmap ∪ w.image.setting i k b)

theorem Gains.evolves {i k b : Nat} (h : Gains g i k b w w') (ho : Owned g w.image) :
    Evolves g i w w' where
  owned _ := h.puts.owned ho
  covers := h.puts.covers
  node := h.puts.node
  alike := h.puts.alike
  ptr x hx := by
    rw [h.puts.ptr, Function.update_of_ne]
    rintro rfl
    exact hx h.puts.null
  other j l hj := by
    rw [h.puts.ptr, Function.update_of_ne]
    exact fun heq => hj (congrArg Prod.fst heq)
  byte j o _ hlive hlt := h.puts.byte ho hlive hlt
  key := h.key
  held := h.held
  trans := h.trans
  dirty := h.dirty

theorem alloc_logged (w : World) {b : Nat} (hb : b < g.sb.size) {D : Finset Nat} (hD : b ∈ D) :
    (w.alloc g b).logged ⊆ w.logged ∪ (g.bitmap ∪ D) := by
  intro x hx
  rw [World.alloc, Finset.mem_insert, Finset.mem_insert] at hx
  rw [Finset.mem_union, Finset.mem_union]
  rcases hx with rfl | rfl | hx
  · exact .inr (.inr hD)
  · exact .inr (.inl (mem_bitmap hb))
  · exact .inl hx

theorem Gains.fptr {i n b : Nat} (h : Gains g i (slotOf n) b w w') (hn : n < MAXFILE) :
    w'.image.fptr i n = b := by
  rw [← ptr_fptr (h.puts.live_iff.2 h.puts.live) hn, h.puts.ptr, Function.update_self]

theorem Gains.indirect {i b : Nat} (h : Gains g i NDIRECT b w w') :
    (w'.image.node i).addrs NDIRECT = b := by
  rw [← ptr_indirect (h.puts.live_iff.2 h.puts.live), h.puts.ptr, Function.update_self]

theorem Gains.indirect_eq {i k b : Nat} (h : Gains g i k b w w') (hk : k ≠ NDIRECT) :
    (w'.image.node i).addrs NDIRECT = (w.image.node i).addrs NDIRECT := by
  have hne : ((i, NDIRECT) : Nat × Nat) ≠ (i, k) := fun heq => hk (congrArg Prod.snd heq).symm
  rw [← ptr_indirect (h.puts.live_iff.2 h.puts.live), h.puts.ptr, Function.update_of_ne hne,
    ptr_indirect h.puts.live]

theorem Gains.null {i n b : Nat} (h : Gains g i (slotOf n) b w w') (hn : n < MAXFILE) :
    w.image.fptr i n = 0 := by
  rw [← ptr_fptr h.puts.live hn, h.puts.null]

theorem Gains.fptr_of_ne {i n k b : Nat} (h : Gains g i k b w w') (hn : n < MAXFILE)
    (hne : slotOf n ≠ k) : w'.image.fptr i n = w.image.fptr i n := by
  rw [← ptr_fptr (h.puts.live_iff.2 h.puts.live) hn, h.puts.ptr, Function.update_of_ne,
    ptr_fptr h.puts.live hn]
  exact fun heq => hne (congrArg Prod.snd heq)

theorem Gains.card_le {i b : Nat} (h : Gains g i NDIRECT b w w') :
    (w'.logged ∪ g.bitmap).card ≤ (w.logged ∪ g.bitmap).card + 1 := by
  have hsub : w'.logged ∪ g.bitmap ⊆ w.logged ∪ g.bitmap ∪ {b} := by
    have hlogged := h.logged
    rw [Image.setting, if_pos (Nat.le_refl _), ← Finset.union_assoc] at hlogged
    apply Finset.union_subset hlogged
    exact Finset.subset_union_right.trans Finset.subset_union_left
  exact (Finset.card_le_card hsub).trans (Finset.card_union_le _ _)

theorem Ample.mono {m m' : Image} {n k : Nat} (h : Ample g C m n)
    (hle : n ≤ m.avail g → k ≤ m'.avail g) : Ample g C m' k := by
  rcases h with hall | havail
  · exact .inl hall
  · exact .inr (hle havail)

theorem roomy_of_room {k : Nat} (h : Room a E ((w.logged ∪ g.bitmap).card + k)) : w.Roomy g E := by
  intro b hb
  apply h.mono
  apply (Finset.card_le_card _).trans (Nat.le_add_right _ _)
  exact Finset.insert_subset (Finset.mem_union_right _ (mem_bitmap hb)) Finset.subset_union_left

structure Funds (g : Layout a) (C : Act → FsState → Prop) (E : Halt → Prop) (w : World)
    (n : Nat) : Prop where
  ample : Ample g C w.image n
  room : Room a E ((w.logged ∪ g.bitmap).card + n)
  trans : w.InTrans E

theorem Funds.mono {n k : Nat} (h : Funds g C E w n) (hle : k ≤ n) : Funds g C E w k where
  ample := h.ample.mono (by omega)
  room := h.room.mono (by omega)
  trans := h.trans

theorem Funds.supply {n : Nat} (h : Funds g C E w n) (hn : 0 < n) : Supply g C w.image :=
  h.ample.supply hn

inductive Maps (g : Layout a) (i n : Nat) (w : World) : World → Prop
  | old (h : w.image.fptr i n ≠ 0) : Maps g i n w w
  | new {b : Nat} {w' : World} (h : Gains g i (slotOf n) b w w') : Maps g i n w w'
  | both {b b' : Nat} {w' w'' : World} (hn : NDIRECT ≤ n) (h : Gains g i NDIRECT b w w')
      (h' : Gains g i (slotOf n) b' w' w'') : Maps g i n w w''

def Image.lack (m : Image) (i n : Nat) : Nat :=
  (if m.fptr i n = 0 then 1 else 0) + if NDIRECT ≤ n ∧ (m.node i).addrs NDIRECT = 0 then 1 else 0

theorem takes_bmapEntry {i n : Nat} {R : Nat → World → Prop} (ho : Owned g w.image)
    (hlive : w.image.Live g i) (hheld : w.held = ∅) (hn : NDIRECT ≤ n) (hlt : n < MAXFILE)
    (hind : (w.image.node i).addrs NDIRECT ≠ 0)
    (hfunds : w.image.fptr i n = 0 → Funds g C E w 1)
    (hold : w.image.fptr i n ≠ 0 → R (w.image.fptr i n) w)
    (hnew : ∀ b w', Gains g i (slotOf n) b w w' → R b w') :
    Takes g C E (do
      let bp ← breadFor (.entry ((w.image.node i).addrs NDIRECT) (n - NDIRECT))
        ((w.image.node i).addrs NDIRECT)
      let addr := bp.data.get (4 * (n - NDIRECT)) 4
      if addr = 0 then
        let addr ← balloc a
        logWrite a { bp with data := bp.data.set (4 * (n - NDIRECT)) 4 addr }
        brelse bp
        pure addr
      else
        brelse bp
        pure addr) w R := by
  have hslot : slotOf n = NDIRECT + 1 + (n - NDIRECT) := by
    unfold slotOf
    split_ifs <;> omega
  have hj : n - NDIRECT < NINDIRECT := by
    unfold MAXFILE at hlt
    omega
  have hptr : w.image.ptr g (i, NDIRECT) ≠ 0 := by rwa [ptr_indirect hlive]
  have hfirst := ho.first_le hptr
  have hlow := ho.low (i, NDIRECT)
  have hbit := ho.bit hptr
  rw [ptr_indirect hlive] at hfirst hlow hbit
  have hfptr : w.image.fptr i n =
      (w.image.blk ((w.image.node i).addrs NDIRECT)).get (4 * (n - NDIRECT)) 4 := by
    have hsub : NDIRECT + 1 + (n - NDIRECT) - (NDIRECT + 1) = n - NDIRECT := by omega
    rw [Image.fptr, hslot, slot_entry (by omega) hind, hsub]
  have hclear' : World.Clear g { w with
      held := insert ((w.image.node i).addrs NDIRECT) w.held } := by
    intro x hx
    rcases Finset.mem_insert.1 hx with rfl | hx
    · exact ⟨hfirst, hbit⟩
    · rw [hheld] at hx
      exact absurd hx (Finset.notMem_empty x)
  have hnotMem : (w.image.node i).addrs NDIRECT ∉ w.held := by
    rw [hheld]
    exact Finset.notMem_empty _
  apply Takes.seq
  refine takes_breadFor hlow hnotMem fun s d hat hC hd => ?_
  obtain rfl := hd.data hfirst
  apply takes_ite
  · intro hzero
    have hnull : w.image.fptr i n = 0 := hfptr.trans hzero
    obtain ⟨hample, hroom, htrans⟩ := hfunds hnull
    apply Takes.seq
    refine takes_balloc hclear' (hample.supply Nat.one_pos) (roomy_of_room (k := 1) hroom) htrans
      fun b hb hbl hbbit => ?_
    have hsize : b < g.sb.size := hbl.trans_le g.start_le
    have hcard : (w.alloc g b).logged.card ≤ (w.logged ∪ g.bitmap).card + 1 := by
      have hsub := alloc_logged w hsize (Finset.mem_singleton_self b)
      rw [← Finset.union_assoc] at hsub
      exact (Finset.card_le_card hsub).trans (Finset.card_union_le _ _)
    apply Takes.seq
    refine takes_writeData hfirst hlow (hroom.mono hcard) htrans ?_
    apply Takes.seq
    apply takes_brelse
    apply takes_pure
    apply hnew
    have hputs := puts_entry ho hb hbl hbbit hlive hind hj hzero
    rw [← hslot] at hputs
    refine ⟨hputs, rfl, ?_, rfl, fun _ _ => Iff.rfl, ?_⟩
    · exact Finset.erase_insert hnotMem
    · have hsub : (w.alloc g b).logged ⊆ w.logged ∪ (g.bitmap ∪
          {b, (w.image.node i).addrs NDIRECT}) :=
        alloc_logged w hsize (Finset.mem_insert_self _ _)
      rw [Image.setting, if_neg (by omega)]
      refine Finset.insert_subset ?_ hsub
      simp
  · intro hne
    have hsome : w.image.fptr i n ≠ 0 := by rwa [hfptr]
    apply Takes.seq
    apply takes_brelse
    refine Takes.of_eq (World.release hnotMem) ?_
    apply takes_pure
    have hR := hold hsome
    rwa [hfptr] at hR

section Map

variable {e : Entry} (href : 0 < (w.key e).ref) (hval : (w.key e).valid = true)
  (ho : Owned g w.image) (hlive : w.image.Live g (w.key e).inum) (hclear : w.Clear g)
include href hval ho hlive hclear

theorem takes_allocAddr {k : Nat} {R : Nat → World → Prop} (hk : k ≤ NDIRECT)
    (hzero : (w.image.node (w.key e).inum).addrs k = 0) (hfunds : Funds g C E w 1)
    (h : ∀ b w', Gains g (w.key e).inum k b w w' → R b w') :
    Takes g C E (allocAddr a e k) w R := by
  apply takes_valid
  intro hvalid
  apply Takes.seq
  refine takes_balloc hclear (hfunds.supply Nat.one_pos) (roomy_of_room hfunds.room) hfunds.trans
    fun b hb hlt hbit => ?_
  have hsize : b < g.sb.size := hlt.trans_le g.start_le
  have hfits := hvalid.fits _ hlive.1
  apply Takes.seq
  refine takes_setCopy href hval (fun d d' hsame => ?_) ?_ ?_
  · refine { hsame with addrs := fun l hl => ?_ }
    by_cases hlk : l = k
    · simp [hlk]
    · simp [hlk, hsame.addrs l hl]
  · refine { hfits with addrs := fun l hl => ?_ }
    by_cases hlk : l = k
    · have hstart := a.fits
      simp only [hlk, Function.update_self]
      omega
    · simp only [Function.update_of_ne hlk]
      exact hfits.addrs l hl
  · apply takes_pure
    apply h
    refine ⟨puts_addr ho hb hlt hbit hlive hk hzero, rfl, rfl, rfl, fun j hj => ?_, ?_⟩
    · exact or_iff_right hj
    · rw [Image.setting, if_pos hk]
      exact alloc_logged w hsize (Finset.mem_singleton_self b)

theorem takes_loadAddr {k : Nat} {R : Nat → World → Prop} (hk : k ≤ NDIRECT)
    (hfunds : (w.image.node (w.key e).inum).addrs k = 0 → Funds g C E w 1)
    (hold : (w.image.node (w.key e).inum).addrs k ≠ 0 →
      R ((w.image.node (w.key e).inum).addrs k) w)
    (hnew : ∀ b w', Gains g (w.key e).inum k b w w' → R b w') :
    Takes g C E (loadAddr a e k) w R := by
  have hread : Takes g C E (.atomic (.addr e k) fun s => .ok ((s.icache e).copy.addrs k, s)) w
      fun addr w' => addr = (w.image.node (w.key e).inum).addrs k ∧ w' = w := by
    apply takes_atomic
    intro s hat _
    refine ⟨fun r t ht => ?_, nofun⟩
    obtain ⟨rfl, rfl⟩ : (s.icache e).copy.addrs k = r ∧ s = t := by simpa using ht
    exact ⟨w, hat, (hat.copy e href hval).addrs k hk, rfl⟩
  apply hread.bind
  rintro addr _ ⟨rfl, rfl⟩
  apply takes_ite
  · intro hzero
    exact takes_allocAddr href hval ho hlive hclear hk hzero (hfunds hzero) hnew
  · intro hne
    exact takes_pure (hold hne)

theorem takes_bmap {n : Nat} {R : Nat → World → Prop} (hheld : w.held = ∅) (hn : n < MAXFILE)
    (hfunds : w.image.fptr (w.key e).inum n = 0 →
      Funds g C E w (w.image.lack (w.key e).inum n))
    (h : ∀ w', Maps g (w.key e).inum n w w' → R (w'.image.fptr (w.key e).inum n) w') :
    Takes g C E (bmap a e n) w R := by
  have hlack : w.image.fptr (w.key e).inum n = 0 → 1 ≤ w.image.lack (w.key e).inum n := by
    intro hzero
    rw [Image.lack, if_pos hzero]
    omega
  unfold bmap
  apply takes_ite
  · intro hdirect
    have hslot : slotOf n = n := if_pos hdirect
    have hfptr : w.image.fptr (w.key e).inum n = (w.image.node (w.key e).inum).addrs n := by
      rw [Image.fptr, hslot, slot_direct (Nat.le_of_lt hdirect)]
    refine takes_loadAddr href hval ho hlive hclear (Nat.le_of_lt hdirect) (fun hzero => ?_)
      (fun hne => ?_) fun b w' hgains => ?_
    · rw [← hfptr] at hzero
      exact (hfunds hzero).mono (hlack hzero)
    · rw [← hfptr] at hne ⊢
      exact h w (.old hne)
    · rw [← hslot] at hgains
      rw [← hgains.fptr hn]
      exact h w' (.new hgains)
  · intro hindirect
    apply takes_ite
    · intro _
      have hle : NDIRECT ≤ n := by omega
      have hslot : slotOf n = n + 1 := if_neg hindirect
      have hnull : (w.image.node (w.key e).inum).addrs NDIRECT = 0 →
          w.image.fptr (w.key e).inum n = 0 := by
        intro hind
        rw [Image.fptr, hslot, slot_none (by omega) hind]
      apply Takes.seq
      refine takes_loadAddr href hval ho hlive hclear (Nat.le_refl _) (fun hzero => ?_)
        (fun hne => ?_) fun b w' hgains => ?_
      · exact (hfunds (hnull hzero)).mono (hlack (hnull hzero))
      · refine takes_bmapEntry ho hlive hheld hle hn hne (fun hzero => ?_)
          (fun hsome => h w (.old hsome)) fun b w' hgains => ?_
        · exact (hfunds hzero).mono (hlack hzero)
        · rw [← hgains.fptr hn]
          exact h w' (.new hgains)
      · have hzero := hgains.puts.null
        rw [ptr_indirect hlive] at hzero
        have hnull' : w'.image.fptr (w.key e).inum n = 0 := by
          rw [hgains.fptr_of_ne hn (slotOf_ne n), hnull hzero]
        have hind := hgains.indirect
        have hpos : (w'.image.node (w.key e).inum).addrs NDIRECT ≠ 0 := by
          rw [hind]
          exact pos_of_first_le hgains.puts.first
        have hfunds' : Funds g C E w' 1 := by
          have htwo := hfunds (hnull hzero)
          rw [Image.lack, if_pos (hnull hzero), if_pos ⟨hle, hzero⟩] at htwo
          refine ⟨htwo.ample.mono fun havail => ?_, htwo.room.mono ?_, ?_⟩
          · rw [hgains.puts.avail] at havail
            omega
          · exact Nat.succ_le_succ hgains.card_le
          · rw [World.InTrans, hgains.trans]
            exact htwo.trans
        rw [← hind]
        refine takes_bmapEntry (hgains.puts.owned ho) (hgains.puts.live_iff.2 hlive)
          (hgains.held.trans hheld) hle hn hpos (fun _ => hfunds')
          (fun hsome => absurd hnull' hsome) fun b' w'' hgains' => ?_
        rw [← hgains'.fptr hn]
        exact h w'' (.both hle hgains hgains')
    · intro hbig
      unfold MAXFILE at hn
      omega

end Map

/-! ## What `bmap` does -/

theorem fptr_ne_zero {m : Image} {i n : Nat} (hn : NDIRECT ≤ n) (h : m.fptr i n ≠ 0) :
    (m.node i).addrs NDIRECT ≠ 0 := by
  intro hind
  have hslot : slotOf n = n + 1 := if_neg (by omega)
  exact h (by rw [Image.fptr, hslot, slot_none (by omega) hind])

def Image.touched (m : Image) (i n : Nat) : Finset Nat :=
  if n < NDIRECT then {m.fptr i n} else {m.fptr i n, (m.node i).addrs NDIRECT}

theorem Gains.touched {i n b : Nat} (h : Gains g i (slotOf n) b w w') (hn : n < MAXFILE) :
    w.image.setting i (slotOf n) b = w'.image.touched i n := by
  unfold Image.setting Image.touched
  rw [h.fptr hn, h.indirect_eq (slotOf_ne n)]
  have hiff : slotOf n ≤ NDIRECT ↔ n < NDIRECT := by
    unfold slotOf
    split_ifs <;> omega
  simp only [hiff]

namespace Maps

variable {i n : Nat} (h : Maps g i n w w')
include h

theorem evolves (ho : Owned g w.image) : Evolves g i w w' := by
  cases h with
  | old _ => exact .refl w
  | new h => exact h.evolves ho
  | both _ h h' => exact (h.evolves ho).comp (h'.evolves (h.puts.owned ho))

theorem byte (ho : Owned g w.image) {o : Nat} (hlt : o < MAXFILE * BSIZE) :
    w'.image.byte i o = w.image.byte i o := by
  cases h with
  | old _ => rfl
  | new h => exact h.puts.byte ho h.puts.live hlt
  | both _ h h' =>
    rw [h'.puts.byte (h.puts.owned ho) h'.puts.live hlt, h.puts.byte ho h.puts.live hlt]

theorem here (hn : n < MAXFILE) : w'.image.fptr i n ≠ 0 := by
  cases h with
  | old h => exact h
  | new h =>
    rw [h.fptr hn]
    exact pos_of_first_le h.puts.first
  | both _ _ h' =>
    rw [h'.fptr hn]
    exact pos_of_first_le h'.puts.first

theorem eq_of_ne (hn : n < MAXFILE) (hne : w.image.fptr i n ≠ 0) : w' = w := by
  cases h with
  | old _ => rfl
  | new h => exact absurd (h.null hn) hne
  | both _ h h' =>
    have hnull := h'.null hn
    rw [h.fptr_of_ne hn (slotOf_ne n)] at hnull
    exact absurd hnull hne

theorem rest {l : Nat} (hl : l < MAXFILE) (hne : l ≠ n) : w'.image.fptr i l = w.image.fptr i l := by
  have hslot : slotOf l ≠ slotOf n := fun heq => hne (slotOf_inj heq)
  cases h with
  | old _ => rfl
  | new h => exact h.fptr_of_ne hl hslot
  | both _ h h' => rw [h'.fptr_of_ne hl hslot, h.fptr_of_ne hl (slotOf_ne l)]

theorem avail (hn : n < MAXFILE) : w.image.avail g = w'.image.avail g + w.image.lack i n := by
  have hhere := h.here hn
  cases h with
  | old h =>
    have hno : ¬ (NDIRECT ≤ n ∧ (w.image.node i).addrs NDIRECT = 0) :=
      fun hind => fptr_ne_zero hind.1 h hind.2
    rw [Image.lack, if_neg h, if_neg hno]
    rfl
  | new h =>
    have hno : ¬ (NDIRECT ≤ n ∧ (w.image.node i).addrs NDIRECT = 0) := by
      rintro ⟨hle, hind⟩
      rw [← h.indirect_eq (slotOf_ne n)] at hind
      exact fptr_ne_zero hle hhere hind
    rw [Image.lack, if_pos (h.null hn), if_neg hno, h.puts.avail]
  | both hle h h' =>
    have hnull := h'.null hn
    rw [h.fptr_of_ne hn (slotOf_ne n)] at hnull
    have hind := h.puts.null
    rw [ptr_indirect h.puts.live] at hind
    rw [Image.lack, if_pos hnull, if_pos ⟨hle, hind⟩, h.puts.avail, h'.puts.avail]

theorem logged (hn : n < MAXFILE) :
    w'.logged ⊆ w.logged ∪ (g.bitmap ∪ w'.image.touched i n) := by
  cases h with
  | old _ => exact Finset.subset_union_left
  | new h =>
    rw [← h.touched hn]
    exact h.logged
  | both hle h h' =>
    have hind : (w'.image.node i).addrs NDIRECT ∈ w'.image.touched i n := by
      rw [Image.touched, if_neg (by omega)]
      exact Finset.mem_insert_of_mem (Finset.mem_singleton_self _)
    have hfirst := h.logged
    rw [Image.setting, if_pos (Nat.le_refl _), ← h.indirect, ← h'.indirect_eq (slotOf_ne n)]
      at hfirst
    intro x hx
    have hx' := h'.logged hx
    rw [h'.touched hn, Finset.mem_union] at hx'
    rcases hx' with hx' | hx'
    · have hx'' := hfirst hx'
      rw [Finset.mem_union, Finset.mem_union, Finset.mem_singleton] at hx''
      rw [Finset.mem_union, Finset.mem_union]
      rcases hx'' with hold | hbm | rfl
      · exact .inl hold
      · exact .inr (.inl hbm)
      · exact .inr (.inr hind)
    · exact Finset.mem_union_right _ hx'

end Maps

end Xv6.Volume
