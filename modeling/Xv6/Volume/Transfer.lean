import Xv6.Volume.Contents

/-!
# readi and writei

Both go over the blocks of a range of bytes.  `Spans` says what has become of the file system
when the blocks before block `q` of the range have been looked up.
-/

namespace Xv6.Volume

open Xv6.Lib Xv6.Fs Xv6.Files Xv6.Sched

variable {a : LogArea} {α : Type} {g : Layout a} {C : Act → FsState → Prop} {E : Halt → Prop}
  {w₀ w w' : World} {R : α → World → Prop}

/-- Blocks that are missing in blocks `lo`, …, `hi - 1` of a file. -/
def Image.lacks (m : Image) (i lo hi : Nat) : Nat :=
  ((Finset.Ico lo hi).filter fun n => m.fptr i n = 0).card +
    if NDIRECT < hi ∧ lo < hi ∧ (m.node i).addrs NDIRECT = 0 then 1 else 0

/-- The blocks of the range, and the indirect block if it has part in it. -/
def Image.reach (m : Image) (i lo hi : Nat) : Finset Nat :=
  (Finset.Ico lo hi).biUnion (m.touched i)

theorem reach_setNode {m : Image} {i : Nat} {d : Dinode}
    (haddrs : ∀ k ≤ NDIRECT, d.addrs k = (m.node i).addrs k) (lo hi : Nat) :
    (m.setNode i d).reach i lo hi = m.reach i lo hi := by
  apply Finset.biUnion_congr rfl
  intro n _
  unfold Image.touched
  rw [Image.setNode_self, haddrs NDIRECT (Nat.le_refl _)]
  simp only [Image.fptr, slot_setNode haddrs]

theorem card_reach_le (m : Image) (i lo hi : Nat) :
    (m.reach i lo hi).card ≤ (hi - lo) + if hi ≤ NDIRECT then 0 else 1 := by
  have hcard : ((Finset.Ico lo hi).image (m.fptr i)).card ≤ hi - lo := by
    have hle := Finset.card_image_le (s := Finset.Ico lo hi) (f := m.fptr i)
    rwa [Nat.card_Ico] at hle
  split_ifs with hdirect
  · have hsub : m.reach i lo hi ⊆ (Finset.Ico lo hi).image (m.fptr i) := by
      intro x hx
      obtain ⟨n, hn, hx⟩ := Finset.mem_biUnion.1 hx
      have hlt : n < NDIRECT := by
        have := (Finset.mem_Ico.1 hn).2
        omega
      rw [Image.touched, if_pos hlt, Finset.mem_singleton] at hx
      exact Finset.mem_image.2 ⟨n, hn, hx.symm⟩
    exact (Finset.card_le_card hsub).trans hcard
  · have hsub : m.reach i lo hi ⊆
        (Finset.Ico lo hi).image (m.fptr i) ∪ {(m.node i).addrs NDIRECT} := by
      intro x hx
      obtain ⟨n, hn, hx⟩ := Finset.mem_biUnion.1 hx
      rw [Finset.mem_union, Finset.mem_singleton, Finset.mem_image]
      unfold Image.touched at hx
      split_ifs at hx
      · rw [Finset.mem_singleton] at hx
        exact .inl ⟨n, hn, hx.symm⟩
      · rw [Finset.mem_insert, Finset.mem_singleton] at hx
        rcases hx with hx | hx
        · exact .inl ⟨n, hn, hx.symm⟩
        · exact .inr hx
    calc (m.reach i lo hi).card
        ≤ ((Finset.Ico lo hi).image (m.fptr i) ∪ {(m.node i).addrs NDIRECT}).card :=
          Finset.card_le_card hsub
      _ ≤ ((Finset.Ico lo hi).image (m.fptr i)).card + 1 := Finset.card_union_le _ _
      _ ≤ hi - lo + 1 := Nat.succ_le_succ hcard

theorem lacks_step {i q hi : Nat} (h : Maps g i q w w') (ho : Owned g w.image)
    (hi' : w.image.Live g i) (hq : q < hi) (hhi : hi ≤ MAXFILE) :
    w'.image.lacks i (q + 1) hi + w.image.lack i q ≤ w.image.lacks i q hi := by
  have hico : Finset.Ico q hi = insert q (Finset.Ico (q + 1) hi) := by
    ext n
    rw [Finset.mem_insert, Finset.mem_Ico, Finset.mem_Ico]
    omega
  have hfilter : ((Finset.Ico (q + 1) hi).filter fun n => w'.image.fptr i n = 0) =
      (Finset.Ico (q + 1) hi).filter fun n => w.image.fptr i n = 0 := by
    apply Finset.filter_congr
    intro n hn
    rw [Finset.mem_Ico] at hn
    rw [h.rest (by omega) (by omega)]
  have hcount : ((Finset.Ico q hi).filter fun n => w.image.fptr i n = 0).card =
      ((Finset.Ico (q + 1) hi).filter fun n => w.image.fptr i n = 0).card +
        if w.image.fptr i q = 0 then 1 else 0 := by
    have hnotMem : q ∉ (Finset.Ico (q + 1) hi).filter fun n => w.image.fptr i n = 0 := by
      rw [Finset.mem_filter, Finset.mem_Ico]
      omega
    rw [hico, Finset.filter_insert]
    split_ifs
    · exact Finset.card_insert_of_notMem hnotMem
    · rfl
  -- a missing indirect block is still missing, or has been allocated
  have hind : (if NDIRECT < hi ∧ q + 1 < hi ∧ (w'.image.node i).addrs NDIRECT = 0 then 1 else 0) +
      (if NDIRECT ≤ q ∧ (w.image.node i).addrs NDIRECT = 0 then 1 else 0) ≤
      if NDIRECT < hi ∧ q < hi ∧ (w.image.node i).addrs NDIRECT = 0 then 1 else 0 := by
    have hkeep : (w'.image.node i).addrs NDIRECT = 0 → (w.image.node i).addrs NDIRECT = 0 := by
      intro hzero
      by_contra hne
      have hptr := (h.evolves ho).ptr (i, NDIRECT)
      rw [ptr_indirect hi', ptr_indirect ((h.evolves ho).live.2 hi')] at hptr
      exact hne ((hptr hne).symm.trans hzero)
    have hnew : NDIRECT ≤ q → (w'.image.node i).addrs NDIRECT ≠ 0 :=
      fun hle => fptr_ne_zero hle (h.here (by omega))
    split_ifs <;> omega
  unfold Image.lacks Image.lack
  rw [hfilter, hcount]
  omega

def Image.Whole (m : Image) (i lo hi : Nat) : Prop := ∀ n, lo ≤ n → n < hi → m.fptr i n ≠ 0

structure Spans (g : Layout a) (i lo hi : Nat) (w₀ : World) (q : Nat) (w : World) : Prop where
  evolves : Evolves g i w₀ w
  here : ∀ n, lo ≤ n → n < q → w.image.fptr i n ≠ 0
  later : ∀ n, q ≤ n → n < MAXFILE → w.image.fptr i n = w₀.image.fptr i n
  logged : w.logged ⊆ w₀.logged ∪ (g.bitmap ∪ w.image.reach i lo q)
  avail : w₀.image.avail g + w.image.lacks i q hi ≤ w.image.avail g + w₀.image.lacks i lo hi
  clean : w₀.image.Whole i lo hi → w.dirty = w₀.dirty

namespace Spans

variable {i lo hi q : Nat}

theorem refl (w : World) : Spans g i lo hi w lo w where
  evolves := .refl w
  here n hlo hn := by omega
  later _ _ _ := rfl
  logged := Finset.subset_union_left
  avail := Nat.le_refl _
  clean _ := rfl

variable (h : Spans g i lo hi w₀ q w) (ho : Owned g w₀.image) (hi' : w₀.image.Live g i)
  (hlo : lo ≤ q)
include h ho hi'

theorem touched_eq (hmaps : Maps g i q w w') (hq : q < MAXFILE) {n : Nat} (hlo : lo ≤ n)
    (hn : n < q) : w'.image.touched i n = w.image.touched i n := by
  have hne := h.here n hlo hn
  have hlive := h.evolves.live.2 hi'
  have hev := hmaps.evolves (h.evolves.owned ho)
  unfold Image.touched
  rw [hmaps.rest (by omega) (by omega)]
  split_ifs with hdirect
  · rfl
  · have hptr := hev.ptr (i, NDIRECT)
    rw [ptr_indirect hlive, ptr_indirect (hev.live.2 hlive)] at hptr
    rw [hptr (fptr_ne_zero (by omega) hne)]

include hlo in
theorem step (hmaps : Maps g i q w w') (hq : q < hi) (hhi : hi ≤ MAXFILE) :
    Spans g i lo hi w₀ (q + 1) w' where
  evolves := h.evolves.comp (hmaps.evolves (h.evolves.owned ho))
  here n hlo hn := by
    by_cases hnq : n = q
    · rw [hnq]
      exact hmaps.here (by omega)
    · rw [hmaps.rest (by omega) hnq]
      exact h.here n hlo (by omega)
  later n hn hlt := by
    rw [hmaps.rest hlt (by omega), h.later n (by omega) hlt]
  logged := by
    intro x hx
    have hsub := hmaps.logged (by omega) hx
    rw [Finset.mem_union, Finset.mem_union] at hsub ⊢
    have hreach : ∀ n, lo ≤ n → n < q + 1 → x ∈ w'.image.touched i n →
        x ∈ w'.image.reach i lo (q + 1) := fun n hn hn' hx =>
      Finset.mem_biUnion.2 ⟨n, Finset.mem_Ico.2 ⟨hn, hn'⟩, hx⟩
    rcases hsub with hold | hbm | hnew
    · have hsub := h.logged hold
      rw [Finset.mem_union, Finset.mem_union] at hsub
      rcases hsub with hold | hbm | hold
      · exact .inl hold
      · exact .inr (.inl hbm)
      · obtain ⟨n, hn, hx⟩ := Finset.mem_biUnion.1 hold
        rw [Finset.mem_Ico] at hn
        rw [← h.touched_eq ho hi' hmaps (by omega) hn.1 hn.2] at hx
        exact .inr (.inr (hreach n hn.1 (by omega) hx))
    · exact .inr (.inl hbm)
    · exact .inr (.inr (hreach q hlo (by omega) hnew))
  avail := by
    have hlacks := lacks_step hmaps (h.evolves.owned ho) (h.evolves.live.2 hi') hq hhi
    have havail := hmaps.avail (by omega)
    have hold := h.avail
    omega
  clean hwhole := by
    have hne : w.image.fptr i q ≠ 0 := by
      rw [h.later q (Nat.le_refl q) (by omega)]
      exact hwhole q hlo hq
    rw [hmaps.eq_of_ne (by omega) hne]
    exact h.clean hwhole

end Spans

/-- What it takes to work on blocks `lo`, …, `hi - 1` of a file. -/
structure Budget (g : Layout a) (C : Act → FsState → Prop) (E : Halt → Prop) (w : World)
    (i lo hi : Nat) : Prop where
  ample : Ample g C w.image (w.image.lacks i lo hi)
  room : Room a E ((w.logged ∪ g.bitmap).card + (hi - lo) + 2)
  trans : w.InTrans E

theorem lack_le_lacks {m : Image} {i q hi : Nat} (hq : q < hi) : m.lack i q ≤ m.lacks i q hi := by
  unfold Image.lack Image.lacks
  have hcount : (if m.fptr i q = 0 then 1 else 0) ≤
      ((Finset.Ico q hi).filter fun n => m.fptr i n = 0).card := by
    split_ifs with hzero
    · apply Finset.card_pos.2
      exact ⟨q, Finset.mem_filter.2 ⟨Finset.mem_Ico.2 ⟨Nat.le_refl q, hq⟩, hzero⟩⟩
    · exact Nat.zero_le _
  have hind : (if NDIRECT ≤ q ∧ (m.node i).addrs NDIRECT = 0 then 1 else 0) ≤
      if NDIRECT < hi ∧ q < hi ∧ (m.node i).addrs NDIRECT = 0 then 1 else 0 := by
    split_ifs <;> omega
  omega

theorem lack_le_two (m : Image) (i q : Nat) : m.lack i q ≤ 2 := by
  unfold Image.lack
  split_ifs <;> omega

namespace Spans

variable {i lo hi q : Nat} (h : Spans g i lo hi w₀ q w)
include h

theorem card_le : (w.logged ∪ g.bitmap).card ≤ (w₀.logged ∪ g.bitmap).card + (q - lo) + 1 := by
  have hsub : w.logged ∪ g.bitmap ⊆ (w₀.logged ∪ g.bitmap) ∪ w.image.reach i lo q := by
    have hlogged := h.logged
    rw [← Finset.union_assoc] at hlogged
    apply Finset.union_subset hlogged
    exact Finset.subset_union_right.trans Finset.subset_union_left
  have hreach := card_reach_le w.image i lo q
  have hone : (if q ≤ NDIRECT then 0 else 1) ≤ 1 := by split_ifs <;> omega
  calc (w.logged ∪ g.bitmap).card
      ≤ ((w₀.logged ∪ g.bitmap) ∪ w.image.reach i lo q).card := Finset.card_le_card hsub
    _ ≤ (w₀.logged ∪ g.bitmap).card + (w.image.reach i lo q).card := Finset.card_union_le _ _
    _ ≤ (w₀.logged ∪ g.bitmap).card + (q - lo) + 1 := by omega

theorem inTrans (htrans : w₀.InTrans E) : w.InTrans E := by
  rw [World.InTrans, h.evolves.trans]
  exact htrans

theorem funds (hbudget : Budget g C E w₀ i lo hi) (hlo : lo ≤ q) (hq : q < hi) :
    Funds g C E w (w.image.lack i q) where
  ample := by
    apply hbudget.ample.mono
    intro havail
    have hold := h.avail
    have hlack : w.image.lack i q ≤ w.image.lacks i q hi := lack_le_lacks hq
    omega
  room := by
    apply hbudget.room.mono
    have hcard := h.card_le
    have htwo := lack_le_two w.image i q
    omega
  trans := h.inTrans hbudget.trans

end Spans

/-! ## readi -/

theorem byte_block {m : Image} {i q k : Nat} (hne : m.fptr i q ≠ 0) (hk : k < BSIZE) :
    m.byte i (q * BSIZE + k) = (m.blk (m.fptr i q)).byte k := by
  have hdiv : (q * BSIZE + k) / BSIZE = q := by
    unfold BSIZE at hk ⊢
    omega
  have hmod : (q * BSIZE + k) % BSIZE = k := by
    unfold BSIZE at hk ⊢
    omega
  rw [Image.byte, hdiv, hmod, if_neg hne]

def Image.bytes (m : Image) (i off n : Nat) : List UInt8 :=
  (List.range n).map fun k => m.byte i (off + k)

theorem bytes_split {m : Image} {i off n k : Nat} (hk : k ≤ n) :
    m.bytes i off n = m.bytes i off k ++ m.bytes i (off + k) (n - k) := by
  obtain ⟨l, rfl⟩ := Nat.exists_eq_add_of_le hk
  unfold Image.bytes
  rw [Nat.add_sub_cancel_left, List.range_add, List.map_append, List.map_map]
  congr 1
  apply List.map_congr_left
  intro x _
  rw [Function.comp_apply, Nat.add_assoc]

theorem slice_eq_bytes {m : Image} {i off k : Nat} (hne : m.fptr i (off / BSIZE) ≠ 0)
    (hk : k ≤ BSIZE - off % BSIZE) :
    slice (m.blk (m.fptr i (off / BSIZE))) (off % BSIZE) k = m.bytes i off k := by
  unfold slice Image.bytes
  apply List.map_congr_left
  intro x hx
  rw [List.mem_range] at hx
  have hoff : off + x = off / BSIZE * BSIZE + (off % BSIZE + x) := by
    have := Nat.div_add_mod' off BSIZE
    omega
  have hmod : off % BSIZE < BSIZE := Nat.mod_lt _ (by decide)
  rw [hoff, byte_block hne (by omega)]

structure Ranges (off n q hi : Nat) : Prop where
  none : n = 0 → q = hi
  some : 0 < n → q = off / BSIZE ∧ hi = (off + n - 1) / BSIZE + 1

theorem Ranges.next {off n q hi : Nat} (h : Ranges off n q hi) (hn : 0 < n) :
    Ranges (off + min n (BSIZE - off % BSIZE)) (n - min n (BSIZE - off % BSIZE)) (q + 1) hi := by
  obtain ⟨hq, hhi⟩ := h.some hn
  unfold BSIZE at hq hhi ⊢
  refine ⟨fun hzero => ?_, fun hpos => ⟨?_, ?_⟩⟩ <;> unfold BSIZE at * <;> omega

theorem Ranges.lt {off n q hi : Nat} (h : Ranges off n q hi) (hn : 0 < n) : q < hi := by
  obtain ⟨hq, hhi⟩ := h.some hn
  unfold BSIZE at hq hhi
  omega

theorem Ranges.le_maxfile {off n q hi : Nat} (h : Ranges off n q hi) (hn : 0 < n)
    (hlt : off + n ≤ MAXFILE * BSIZE) : hi ≤ MAXFILE := by
  obtain ⟨_, hhi⟩ := h.some hn
  unfold MAXFILE NDIRECT NINDIRECT BSIZE at *
  omega

section Loops

variable {e : Entry} {i lo hi : Nat} (hinum : (w₀.key e).inum = i) (href : 0 < (w₀.key e).ref)
  (hval : (w₀.key e).valid = true) (ho : Owned g w₀.image) (hlive : w₀.image.Live g i)
  (hheld : w₀.held = ∅)
include hinum href hval ho hlive hheld

theorem takes_bmapNext {q : Nat} {R : Nat → World → Prop} (hspans : Spans g i lo hi w₀ q w)
    (hlo : lo ≤ q) (hq : q < hi) (hhi : hi ≤ MAXFILE)
    (hplan : w₀.image.Whole i lo hi ∨ Budget g C E w₀ i lo hi)
    (h : ∀ w', Maps g i q w w' → Spans g i lo hi w₀ (q + 1) w' → R (w'.image.fptr i q) w') :
    Takes g C E (bmap a e q) w R := by
  have hkey := hspans.evolves.key
  have hheld' : w.held = ∅ := hspans.evolves.held.trans hheld
  have hclear : w.Clear g := by
    intro x hx
    rw [hheld'] at hx
    exact absurd hx (Finset.notMem_empty x)
  have hinum' : (w.key e).inum = i := by rw [hkey, hinum]
  subst hinum'
  refine takes_bmap (by rwa [hkey]) (by rwa [hkey]) (hspans.evolves.owned ho)
    (hspans.evolves.live.2 hlive) hclear hheld' (by omega) (fun hzero => ?_) fun w' hmaps => ?_
  · rcases hplan with hwhole | hbudget
    · rw [hspans.later q (Nat.le_refl q) (by omega)] at hzero
      exact absurd hzero (hwhole q hlo hq)
    · exact hspans.funds hbudget hlo hq
  · exact h w' hmaps (hspans.step ho hlive hlo hmaps hq hhi)

theorem takes_readFrom {fuel off n q : Nat} {R : List UInt8 → World → Prop}
    (hspans : Spans g i lo hi w₀ q w)
    (hbytes : ∀ o < MAXFILE * BSIZE, w.image.byte i o = w₀.image.byte i o)
    (hsame : w₀.image.Whole i lo hi → w = w₀) (hrange : Ranges off n q hi) (hlo : lo ≤ q)
    (hfuel : n ≤ fuel) (hlt : off + n ≤ MAXFILE * BSIZE)
    (hplan : w₀.image.Whole i lo hi ∨ Budget g C E w₀ i lo hi)
    (h : ∀ w', Spans g i lo hi w₀ hi w' →
      (∀ o < MAXFILE * BSIZE, w'.image.byte i o = w₀.image.byte i o) →
      (w₀.image.Whole i lo hi → w' = w₀) → R (w₀.image.bytes i off n) w') :
    Takes g C E (readFrom a e fuel off n) w R := by
  induction fuel generalizing off n q w R with
  | zero =>
    obtain rfl : n = 0 := by omega
    apply takes_pure
    rw [hrange.none rfl] at hspans
    exact h w hspans hbytes hsame
  | succ fuel ih =>
    unfold readFrom
    apply takes_ite
    · rintro rfl
      apply takes_pure
      rw [hrange.none rfl] at hspans
      exact h w hspans hbytes hsame
    · intro hne
      have hpos : 0 < n := Nat.pos_of_ne_zero hne
      have hq := hrange.lt hpos
      have hhi := hrange.le_maxfile hpos hlt
      obtain ⟨hqoff, _⟩ := hrange.some hpos
      rw [← hqoff]
      apply Takes.seq
      refine takes_bmapNext hinum href hval ho hlive hheld hspans hlo hq hhi hplan
        fun w' hmaps hspans' => ?_
      have ho' := hspans'.evolves.owned ho
      have hlive' := hspans'.evolves.live.2 hlive
      have hfptr := hmaps.here (show q < MAXFILE by omega)
      have hbytes' : ∀ o < MAXFILE * BSIZE, w'.image.byte i o = w₀.image.byte i o := by
        intro o ho'
        rw [hmaps.byte (hspans.evolves.owned ho) ho', hbytes o ho']
      have hsame' : w₀.image.Whole i lo hi → w' = w₀ := by
        intro hwhole
        have hw := hsame hwhole
        have hne : w.image.fptr i q ≠ 0 := by
          rw [hw]
          exact hwhole q hlo hq
        rw [hmaps.eq_of_ne (by omega) hne, hw]
      obtain ⟨hfirst, hlow⟩ := ho'.fptr_range hlive' (by omega) hfptr
      have hnotMem : w'.image.fptr i q ∉ w'.held := by
        rw [hspans'.evolves.held, hheld]
        exact Finset.notMem_empty _
      have hk : min n (BSIZE - off % BSIZE) ≤ n := Nat.min_le_left _ _
      apply Takes.seq
      refine takes_bread hlow hnotMem fun d hd => ?_
      obtain rfl := hd.data hfirst
      apply Takes.seq
      apply takes_brelse
      refine Takes.of_eq (World.release hnotMem) ?_
      apply Takes.seq
      refine ih hspans' hbytes' hsame' (hrange.next hpos) (by omega) ?_ (by omega)
        fun w'' hspans'' hbytes'' hsame'' => ?_
      · have hmod : off % BSIZE < BSIZE := Nat.mod_lt _ (by decide)
        omega
      · apply takes_pure
        have hslice : slice (w'.image.blk (w'.image.fptr i q)) (off % BSIZE)
            (min n (BSIZE - off % BSIZE)) =
            w₀.image.bytes i off (min n (BSIZE - off % BSIZE)) := by
          rw [hqoff] at hfptr ⊢
          rw [slice_eq_bytes hfptr (Nat.min_le_right _ _)]
          apply List.map_congr_left
          intro x hx
          rw [List.mem_range] at hx
          exact hbytes' _ (by omega)
        rw [hslice, ← bytes_split hk]
        exact h w'' hspans'' hbytes'' hsame''

end Loops

/-! ## writei -/

theorem byte_blit {b : Block} {off k i : Nat} {src : Nat → UInt8} (hi : i < BSIZE) :
    (blit b off src k).byte i = if off ≤ i ∧ i < off + k then src (i - off) else b.byte i := by
  unfold Bytes.byte
  rw [dif_pos hi, dif_pos hi]
  rfl

section Write

variable {i q : Nat} (ho : Owned g w.image) (hlive : w.image.Live g i) (hq : q < MAXFILE)
  (hne : w.image.fptr i q ≠ 0)
include ho hlive hq hne

theorem fptr_setData {j n : Nat} (hj : w.image.Live g j) (hn : n < MAXFILE) (d : Block) :
    (w.image.setBlk (w.image.fptr i q) d).fptr j n = w.image.fptr j n := by
  have hlive' : (w.image.setBlk (w.image.fptr i q) d).Live g j := hj
  rw [← ptr_fptr hlive' hn, ho.ptr_setData hlive hq hne, ptr_fptr hj hn]

theorem byte_setData {j o : Nat} (hj : w.image.Live g j) (hlt : o < MAXFILE * BSIZE) (d : Block) :
    (w.image.setBlk (w.image.fptr i q) d).byte j o =
      if j = i ∧ o / BSIZE = q then d.byte (o % BSIZE) else w.image.byte j o := by
  have hn : o / BSIZE < MAXFILE := Nat.div_lt_of_lt_mul (by rwa [Nat.mul_comm] at hlt)
  unfold Image.byte
  rw [fptr_setData ho hlive hq hne hj hn]
  by_cases hhere : j = i ∧ o / BSIZE = q
  · rw [if_pos hhere, hhere.1, hhere.2, if_neg hne, Image.setBlk_self]
  · rw [if_neg hhere]
    by_cases hzero : w.image.fptr j (o / BSIZE) = 0
    · rw [if_pos hzero, if_pos hzero]
    · rw [if_neg hzero, if_neg hzero, Image.setBlk_of_ne]
      intro heq
      exact hhere (ho.fptr_inj hj hlive hn hq hzero heq)

theorem evolves_write (d : Block) : Evolves g i w { w with
    image := w.image.setBlk (w.image.fptr i q) d
    logged := insert (w.image.fptr i q) w.logged } where
  owned _ := by
    refine ⟨?_, ?_⟩
    · rw [ho.ptr_setData hlive hq hne]
      exact ho.owns
    · rw [ho.ptr_setData hlive hq hne]
      exact ho.low
  covers hc := by
    rw [ho.ptr_setData hlive hq hne]
    exact hc
  node _ _ := rfl
  alike := Alike.refl _
  ptr x _ := congrFun (ho.ptr_setData hlive hq hne d) x
  other j k _ := congrFun (ho.ptr_setData hlive hq hne d) (j, k)
  byte j o hji hj hlt := by
    rw [byte_setData ho hlive hq hne hj hlt, if_neg fun h => hji h.1]
  key := rfl
  held := rfl
  trans := rfl
  dirty _ _ := Iff.rfl

end Write

theorem mem_touched (m : Image) (i n : Nat) : m.fptr i n ∈ m.touched i n := by
  unfold Image.touched
  split_ifs <;> simp

theorem Spans.write {i lo hi q : Nat} (h : Spans g i lo hi w₀ (q + 1) w) (ho : Owned g w₀.image)
    (hlive : w₀.image.Live g i) (hlo : lo ≤ q) (hq : q < MAXFILE) (hhi : hi ≤ MAXFILE)
    (d : Block) : Spans g i lo hi w₀ (q + 1) { w with
      image := w.image.setBlk (w.image.fptr i q) d
      logged := insert (w.image.fptr i q) w.logged } := by
  have ho' := h.evolves.owned ho
  have hlive' := h.evolves.live.2 hlive
  have hne := h.here q hlo (Nat.lt_succ_self q)
  have hfptr : ∀ n < MAXFILE, (w.image.setBlk (w.image.fptr i q) d).fptr i n = w.image.fptr i n :=
    fun n hn => fptr_setData ho' hlive' hq hne hlive' hn d
  have hreach : (w.image.setBlk (w.image.fptr i q) d).reach i lo (q + 1) =
      w.image.reach i lo (q + 1) := by
    apply Finset.biUnion_congr rfl
    intro n hn
    rw [Finset.mem_Ico] at hn
    unfold Image.touched
    rw [hfptr n (by omega)]
    rfl
  have hlacks : (w.image.setBlk (w.image.fptr i q) d).lacks i (q + 1) hi =
      w.image.lacks i (q + 1) hi := by
    have hfilter : ((Finset.Ico (q + 1) hi).filter fun n =>
        (w.image.setBlk (w.image.fptr i q) d).fptr i n = 0) =
        (Finset.Ico (q + 1) hi).filter fun n => w.image.fptr i n = 0 := by
      apply Finset.filter_congr
      intro n hn
      rw [Finset.mem_Ico] at hn
      rw [hfptr n (by omega)]
    unfold Image.lacks
    rw [hfilter]
    rfl
  refine ⟨h.evolves.comp (evolves_write ho' hlive' hq hne d), fun n hn hlt => ?_,
    fun n hn hlt => ?_, ?_, ?_, h.clean⟩
  · change (w.image.setBlk (w.image.fptr i q) d).fptr i n ≠ 0
    rw [hfptr n (by omega)]
    exact h.here n hn hlt
  · change (w.image.setBlk (w.image.fptr i q) d).fptr i n = _
    rw [hfptr n hlt]
    exact h.later n hn hlt
  · change insert (w.image.fptr i q) w.logged ⊆ _ ∪ (_ ∪ Image.reach (Image.setBlk _ _ _) i lo _)
    rw [hreach]
    apply Finset.insert_subset _ h.logged
    apply Finset.mem_union_right
    apply Finset.mem_union_right
    exact Finset.mem_biUnion.2 ⟨q, Finset.mem_Ico.2 ⟨hlo, Nat.lt_succ_self q⟩, mem_touched _ _ _⟩
  · change _ + Image.lacks (Image.setBlk _ _ _) i _ hi ≤ _
    rw [hlacks]
    exact h.avail

def Image.Overwrites (m m' : Image) (i off n : Nat) (src : Nat → UInt8) : Prop :=
  ∀ o < MAXFILE * BSIZE, m'.byte i o = if off ≤ o ∧ o < off + n then src (o - off) else m.byte i o

theorem overwrites_block {i q off k : Nat} (ho : Owned g w.image) (hlive : w.image.Live g i)
    (hq : q < MAXFILE) (hne : w.image.fptr i q ≠ 0) (hqoff : q = off / BSIZE)
    (hk : k ≤ BSIZE - off % BSIZE) (src : Nat → UInt8) :
    w.image.Overwrites (w.image.setBlk (w.image.fptr i q)
      (blit (w.image.blk (w.image.fptr i q)) (off % BSIZE) src k)) i off k src := by
  intro o hlt
  have hmod : o % BSIZE < BSIZE := Nat.mod_lt _ (by decide)
  have hdiv := Nat.div_add_mod o BSIZE
  have hdiv' := Nat.div_add_mod off BSIZE
  rw [byte_setData ho hlive hq hne hlive hlt]
  by_cases hblock : o / BSIZE = q
  · have hsame : o / BSIZE = off / BSIZE := hblock.trans hqoff
    rw [if_pos ⟨rfl, hblock⟩, byte_blit hmod]
    rw [hsame] at hdiv
    have hiff : (off % BSIZE ≤ o % BSIZE ∧ o % BSIZE < off % BSIZE + k) ↔
        off ≤ o ∧ o < off + k := by omega
    have hsub : o % BSIZE - off % BSIZE = o - off := by omega
    simp only [hiff, hsub]
    split_ifs
    · rfl
    · rw [Image.byte, hblock, if_neg hne]
  · have hout : ¬ (off ≤ o ∧ o < off + k) := by
      rintro ⟨hle, hlt⟩
      apply hblock
      rw [hqoff]
      unfold BSIZE at *
      omega
    rw [if_neg fun h => hblock h.2, if_neg hout]

section Loops

variable {e : Entry} {i lo hi : Nat} (hinum : (w₀.key e).inum = i) (href : 0 < (w₀.key e).ref)
  (hval : (w₀.key e).valid = true) (ho : Owned g w₀.image) (hlive : w₀.image.Live g i)
  (hheld : w₀.held = ∅)
include hinum href hval ho hlive hheld

theorem takes_writeFrom {fuel off n q : Nat} {src : Nat → UInt8} {R : Unit → World → Prop}
    (hspans : Spans g i lo hi w₀ q w) (hrange : Ranges off n q hi) (hlo : lo ≤ q)
    (hfuel : n ≤ fuel) (hlt : off + n ≤ MAXFILE * BSIZE) (hbudget : Budget g C E w₀ i lo hi)
    (h : ∀ w', Spans g i lo hi w₀ hi w' → w.image.Overwrites w'.image i off n src → R () w') :
    Takes g C E (writeFrom a e fuel src off n) w R := by
  induction fuel generalizing off n q w src with
  | zero =>
    obtain rfl : n = 0 := by omega
    apply takes_pure
    rw [hrange.none rfl] at hspans
    exact h w hspans fun o _ => by rw [if_neg (by omega)]
  | succ fuel ih =>
    unfold writeFrom
    apply takes_ite
    · rintro rfl
      apply takes_pure
      rw [hrange.none rfl] at hspans
      exact h w hspans fun o _ => by rw [if_neg (by omega)]
    · intro hne
      have hpos : 0 < n := Nat.pos_of_ne_zero hne
      have hq := hrange.lt hpos
      have hhi := hrange.le_maxfile hpos hlt
      obtain ⟨hqoff, _⟩ := hrange.some hpos
      have hmod : off % BSIZE < BSIZE := Nat.mod_lt _ (by decide)
      rw [← hqoff]
      apply Takes.seq
      refine takes_bmapNext hinum href hval ho hlive hheld hspans hlo hq hhi (.inr hbudget)
        fun w' hmaps hspans' => ?_
      have ho' := hspans'.evolves.owned ho
      have hlive' := hspans'.evolves.live.2 hlive
      have hfptr := hmaps.here (show q < MAXFILE by omega)
      obtain ⟨hfirst, hlow⟩ := ho'.fptr_range hlive' (by omega) hfptr
      have hnotMem : w'.image.fptr i q ∉ w'.held := by
        rw [hspans'.evolves.held, hheld]
        exact Finset.notMem_empty _
      have hroom : Room a E w'.logged.card := by
        apply hbudget.room.mono
        have hcard := hspans'.card_le
        have hle : w'.logged.card ≤ (w'.logged ∪ g.bitmap).card :=
          Finset.card_le_card Finset.subset_union_left
        omega
      apply Takes.seq
      refine takes_bread hlow hnotMem fun d hd => ?_
      obtain rfl := hd.data hfirst
      apply Takes.seq
      refine takes_writeData hfirst hlow hroom (hspans'.inTrans hbudget.trans) ?_
      apply Takes.seq
      apply takes_brelse
      refine Takes.of_eq (w := { w' with
        image := w'.image.setBlk (w'.image.fptr i q)
          (blit (w'.image.blk (w'.image.fptr i q)) (off % BSIZE) src
            (min n (BSIZE - off % BSIZE)))
        logged := insert (w'.image.fptr i q) w'.logged }) ?_ ?_
      · change { w' with image := _, held := (insert _ w'.held).erase _, logged := _ } = _
        rw [Finset.erase_insert hnotMem]
      have hk : min n (BSIZE - off % BSIZE) ≤ n := Nat.min_le_left _ _
      have hstep := overwrites_block ho' hlive' (show q < MAXFILE by omega) hfptr hqoff
        (Nat.min_le_right n (BSIZE - off % BSIZE)) src
      refine ih (hspans'.write ho hlive hlo (by omega) hhi _) (hrange.next hpos) (by omega) ?_
        (by omega) fun w'' hspans'' hover => ?_
      · omega
      · refine h w'' hspans'' fun o hlt' => ?_
        rw [hover o hlt']
        have hbyte := hstep o hlt'
        rw [hmaps.byte (hspans.evolves.owned ho) hlt'] at hbyte
        generalize min n (BSIZE - off % BSIZE) = k at hk hbyte ⊢
        split_ifs with hlater hhere hhere
        · change src (o - (off + k) + k) = src (o - off)
          congr 1
          omega
        · omega
        · rw [hbyte, if_pos (by omega)]
        · rw [hbyte, if_neg (by omega)]

end Loops

/-! ## The functions -/

def stopBlock (off n : Nat) : Nat := if n = 0 then off / BSIZE else (off + n - 1) / BSIZE + 1

theorem ranges (off n : Nat) : Ranges off n (off / BSIZE) (stopBlock off n) where
  none hn := by rw [stopBlock, if_pos hn]
  some hn := ⟨rfl, by rw [stopBlock, if_neg (by omega)]⟩

def readLen (size off n : Nat) : Nat := if size < off + n then size - off else n

def Refused (size off n : Nat) : Prop := size < off ∨ (off + n) % 2 ^ 32 < off

def blocksOf (size : Nat) : Nat := (size + BSIZE - 1) / BSIZE

def Image.Complete (m : Image) (i : Nat) : Prop := m.Whole i 0 (blocksOf (m.node i).size)

structure Writes (g : Layout a) (i off n : Nat) (src : Nat → UInt8) (w w' : World) : Prop where
  owned : Owned g w'.image
  covers : Covers (w.image.ptr g) (w.image.Used g) → Covers (w'.image.ptr g) (w'.image.Used g)
  node : ∀ j, j ≠ i → w'.image.node j = w.image.node j
  alike : Alike (w'.image.node i)
    { w.image.node i with size := max (w.image.node i).size (off + n) }
  ptr : ∀ x, w.image.ptr g x ≠ 0 → w'.image.ptr g x = w.image.ptr g x
  byte : ∀ j o, j ≠ i → w.image.Live g j → o < MAXFILE * BSIZE →
    w'.image.byte j o = w.image.byte j o
  overwrites : w.image.Overwrites w'.image i off n src
  complete : w.image.Complete i → w'.image.Complete i
  key : w'.key = w.key
  held : w'.held = w.held
  trans : w'.trans = w.trans
  dirty : ∀ j, j ≠ i → (w'.dirty j ↔ w.dirty j)
  clean : w.image.Complete i → ¬ w.dirty i → ¬ w'.dirty i
  logged : w'.logged ⊆ w.logged ∪ (g.bitmap ∪
    insert (IBLOCK i) (w'.image.reach i (off / BSIZE) (stopBlock off n)))

theorem Evolves.fptr {i j n : Nat} (h : Evolves g i w w') (hj : w.image.Live g j)
    (hn : n < MAXFILE) (hne : w.image.fptr j n ≠ 0) : w'.image.fptr j n = w.image.fptr j n := by
  rw [← ptr_fptr hj hn] at hne ⊢
  rw [← ptr_fptr (h.live.2 hj) hn]
  exact h.ptr _ hne

def Spares (g : Layout a) (i : Nat) (w w' : World) : Prop :=
  w.image.avail g + w'.image.lacks i 0 MAXFILE ≤ w'.image.avail g + w.image.lacks i 0 MAXFILE

theorem lacks_le_all {m : Image} {i lo hi : Nat} (hhi : hi ≤ MAXFILE) :
    m.lacks i lo hi ≤ m.lacks i 0 MAXFILE := by
  have hcount : ((Finset.Ico lo hi).filter fun n => m.fptr i n = 0).card ≤
      ((Finset.Ico 0 MAXFILE).filter fun n => m.fptr i n = 0).card := by
    apply Finset.card_le_card
    apply Finset.filter_subset_filter
    exact Finset.Ico_subset_Ico (Nat.zero_le lo) hhi
  unfold Image.lacks
  split_ifs <;> omega

theorem Spans.lacks_le {i lo hi : Nat} (h : Spans g i lo hi w hi w') (hlive : w.image.Live g i)
    (hhi : hi ≤ MAXFILE) :
    w'.image.lacks i 0 MAXFILE + w.image.lacks i lo hi ≤ w.image.lacks i 0 MAXFILE := by
  have hdisjoint : Disjoint ((Finset.Ico 0 MAXFILE).filter fun n => w'.image.fptr i n = 0)
      ((Finset.Ico lo hi).filter fun n => w.image.fptr i n = 0) := by
    rw [Finset.disjoint_left]
    intro n hn hn'
    rw [Finset.mem_filter, Finset.mem_Ico] at hn hn'
    exact h.here n hn'.1.1 hn'.1.2 hn.2
  have hsub : ((Finset.Ico 0 MAXFILE).filter fun n => w'.image.fptr i n = 0) ∪
      ((Finset.Ico lo hi).filter fun n => w.image.fptr i n = 0) ⊆
      (Finset.Ico 0 MAXFILE).filter fun n => w.image.fptr i n = 0 := by
    intro n hn
    rw [Finset.mem_union, Finset.mem_filter, Finset.mem_filter, Finset.mem_Ico,
      Finset.mem_Ico] at hn
    rw [Finset.mem_filter, Finset.mem_Ico]
    rcases hn with ⟨hn, hzero⟩ | ⟨hn, hzero⟩
    · refine ⟨hn, by_contra fun hne => hne ?_⟩
      rw [← h.evolves.fptr hlive hn.2 hne, hzero]
    · exact ⟨by omega, hzero⟩
  have hcount := Finset.card_le_card hsub
  rw [Finset.card_union_of_disjoint hdisjoint] at hcount
  have hkeep : (w'.image.node i).addrs NDIRECT = 0 → (w.image.node i).addrs NDIRECT = 0 := by
    intro hzero
    by_contra hne
    have hptr := h.evolves.ptr (i, NDIRECT)
    rw [ptr_indirect hlive, ptr_indirect (h.evolves.live.2 hlive)] at hptr
    exact hne ((hptr hne).symm.trans hzero)
  have hnew : NDIRECT < hi → lo < hi → (w'.image.node i).addrs NDIRECT ≠ 0 := fun hdir hlo =>
    fptr_ne_zero (n := hi - 1) (by omega) (h.here (hi - 1) (by omega) (by omega))
  unfold Image.lacks
  split_ifs <;> omega

theorem Spans.spares {i lo hi : Nat} (h : Spans g i lo hi w hi w') (hlive : w.image.Live g i)
    (hhi : hi ≤ MAXFILE) : Spares g i w w' := by
  have hlacks := h.lacks_le hlive hhi
  have havail := h.avail
  unfold Spares
  omega

theorem Spans.writes {i off n : Nat} {src : Nat → UInt8}
    (h : Spans g i (off / BSIZE) (stopBlock off n) w (stopBlock off n) w')
    (hover : w.image.Overwrites w'.image i off n src) (ho : Owned g w.image)
    (hlive : w.image.Live g i) (hsize : (w.image.node i).size ≤ MAXFILE * BSIZE)
    (hoff : off ≤ (w.image.node i).size) (hin : n = 0 ∨ off + n ≤ (w.image.node i).size) :
    Writes g i off n src w w' := by
  have hev := h.evolves
  have hmax : max (w.image.node i).size (off + n) = (w.image.node i).size := by omega
  have hblocks : blocksOf (w.image.node i).size ≤ MAXFILE := by
    unfold blocksOf MAXFILE NDIRECT NINDIRECT BSIZE at *
    omega
  have hstop : stopBlock off n ≤ blocksOf (w.image.node i).size := by
    unfold stopBlock blocksOf BSIZE
    split_ifs <;> omega
  refine
    { owned := hev.owned ho
      covers := hev.covers
      node := hev.node
      alike := by rw [hmax]; exact hev.alike
      ptr := hev.ptr
      byte := hev.byte
      overwrites := hover
      complete := fun hc l hlo hl => ?_
      key := hev.key
      held := hev.held
      trans := hev.trans
      dirty := hev.dirty
      clean := fun hc hdirty => ?_
      logged := ?_ }
  · rw [hev.alike.size] at hl
    have hne := hc l hlo hl
    rwa [hev.fptr hlive (by omega) hne]
  · rw [h.clean fun l hlo hl => hc l (Nat.zero_le l) (by omega)]
    exact hdirty
  · apply h.logged.trans
    apply Finset.union_subset_union_right
    apply Finset.union_subset_union_right
    exact Finset.subset_insert _ _

def World.resize (w : World) (i size : Nat) : World :=
  w.renew i { w.image.node i with size := size }

theorem Spares.resize {i size : Nat} (h : Spares g i w w') : Spares g i w (w'.resize i size) := by
  have haddrs : ∀ k ≤ NDIRECT, ({ w'.image.node i with size := size } : Dinode).addrs k =
      (w'.image.node i).addrs k := fun _ _ => rfl
  have hlacks : (w'.resize i size).image.lacks i 0 MAXFILE = w'.image.lacks i 0 MAXFILE := by
    change (w'.image.setNode i _).lacks i 0 MAXFILE = _
    unfold Image.lacks
    simp only [Image.fptr, slot_setNode haddrs, Image.setNode_self]
    congr
  unfold Spares at h ⊢
  rw [hlacks]
  exact h

theorem Spans.extends {i off n : Nat} {src : Nat → UInt8}
    (h : Spans g i (off / BSIZE) (stopBlock off n) w (stopBlock off n) w')
    (hover : w.image.Overwrites w'.image i off n src) (ho : Owned g w.image)
    (hlive : w.image.Live g i) (hoff : off ≤ (w.image.node i).size) (hn : 0 < n)
    (hgrow : (w.image.node i).size < off + n) (hlt : off + n ≤ MAXFILE * BSIZE) :
    Writes g i off n src w (w'.resize i (off + n)) := by
  have hev := h.evolves
  have hmax : max (w.image.node i).size (off + n) = off + n := by omega
  have hnode : (w'.resize i (off + n)).image =
      w'.image.setNode i { w'.image.node i with size := off + n } := rfl
  have haddrs : ∀ k ≤ NDIRECT, ({ w'.image.node i with size := off + n } : Dinode).addrs k =
      (w'.image.node i).addrs k := fun _ _ => rfl
  have htype : ({ w'.image.node i with size := off + n } : Dinode).type = 0 ↔
      (w'.image.node i).type = 0 := Iff.rfl
  refine
    { owned := (hev.owned ho).setNode haddrs htype
      covers := fun hc => ?_
      node := fun j hj => ?_
      alike := ?_
      ptr := fun x hx => ?_
      byte := fun j o hji hj ho => ?_
      overwrites := fun o ho => ?_
      complete := fun hc l hlo hl => ?_
      key := hev.key
      held := hev.held
      trans := hev.trans
      dirty := fun j hj => ?_
      clean := fun _ _ hdirty => hdirty.1 rfl
      logged := ?_ }
  · rw [hnode, ptr_setNode haddrs htype]
    exact hev.covers hc
  · rw [hnode, Image.setNode_of_ne _ hj]
    exact hev.node j hj
  · rw [hnode, Image.setNode_self, hmax]
    exact { hev.alike with size := rfl }
  · rw [hnode, ptr_setNode haddrs htype]
    exact hev.ptr x hx
  · rw [hnode, byte_setNode haddrs]
    exact hev.byte j o hji hj ho
  · rw [hnode, byte_setNode haddrs]
    exact hover o ho
  · rw [hnode, Image.setNode_self] at hl
    rw [hnode]
    change (w'.image.setNode i _).slot i (slotOf l) ≠ 0
    rw [slot_setNode haddrs]
    change l < blocksOf (off + n) at hl
    have hstop : blocksOf (off + n) = stopBlock off n := by
      unfold stopBlock blocksOf BSIZE
      rw [if_neg (by omega)]
      omega
    by_cases hl' : l < off / BSIZE
    · have hne := hc l hlo (by unfold blocksOf BSIZE at *; omega)
      have hl'' : l < MAXFILE := by
        unfold MAXFILE NDIRECT NINDIRECT BSIZE at *
        omega
      have hkeep := hev.fptr hlive hl'' hne
      rw [Image.fptr] at hkeep
      rw [hkeep]
      exact hne
    · exact h.here l (by omega) (by omega)
  · have hor : (w'.resize i (off + n)).dirty j ↔ w'.dirty j := by
      constructor
      · rintro ⟨_, heq | hd⟩
        · exact absurd heq hj
        · exact hd
      · exact fun hd => ⟨hj, .inr hd⟩
    exact hor.trans (hev.dirty j hj)
  · rw [hnode, reach_setNode haddrs]
    change insert (IBLOCK i) w'.logged ⊆ _
    apply Finset.insert_subset
    · simp
    · apply h.logged.trans
      apply Finset.union_subset_union_right
      apply Finset.union_subset_union_right
      exact Finset.subset_insert _ _

section Functions

variable {e : Entry} {i : Nat} (hinum : (w.key e).inum = i) (href : 0 < (w.key e).ref)
  (hval : (w.key e).valid = true) (ho : Owned g w.image) (hlive : w.image.Live g i)
  (hheld : w.held = ∅) (hdev : (w.image.node i).type ≠ T_DEV)
include hinum href hval ho hlive hheld hdev

theorem takes_readi {off n : Nat} {R : Option (List UInt8) → World → Prop}
    (hsize : (w.image.node i).size ≤ MAXFILE * BSIZE)
    (hplan : w.image.Whole i (off / BSIZE)
        (stopBlock off (readLen (w.image.node i).size off n)) ∨
      Budget g C E w i (off / BSIZE) (stopBlock off (readLen (w.image.node i).size off n)))
    (hno : Refused (w.image.node i).size off n → R none w)
    (h : ¬ Refused (w.image.node i).size off n → ∀ w',
      Spans g i (off / BSIZE) (stopBlock off (readLen (w.image.node i).size off n)) w
        (stopBlock off (readLen (w.image.node i).size off n)) w' →
      (∀ o < MAXFILE * BSIZE, w'.image.byte i o = w.image.byte i o) →
      (w.image.Whole i (off / BSIZE) (stopBlock off (readLen (w.image.node i).size off n)) →
        w' = w) →
      R (some (w.image.bytes i off (readLen (w.image.node i).size off n))) w') :
    Takes g C E (readi a e off n) w R := by
  apply Takes.seq
  refine takes_getCopy href hval fun d hd => ?_
  rw [hinum] at hd
  simp only [id]
  rw [hd.type, hd.size]
  apply takes_ite
  · exact fun htype => absurd htype hdev
  · intro _
    apply takes_ite
    · intro hbad
      exact takes_pure (hno hbad)
    · intro hok
      apply Takes.seq
      refine takes_readFrom hinum href hval ho hlive hheld (Spans.refl w) (fun _ _ => rfl)
        (fun _ => rfl) (ranges off _) (Nat.le_refl _) (Nat.le_refl _) ?_ hplan
        fun w' hspans hbytes hsame => ?_
      · change off + readLen (w.image.node i).size off n ≤ _
        unfold readLen
        unfold Refused at *
        split_ifs <;> omega
      · exact takes_pure (h hok w' hspans hbytes hsame)

omit hdev in
theorem takes_writeiGo {off n : Nat} {src : Nat → UInt8} {R : Int → World → Prop}
    (hsize : (w.image.node i).size ≤ MAXFILE * BSIZE) (hoff : off ≤ (w.image.node i).size)
    (hlt : off + n ≤ MAXFILE * BSIZE) (hbudget : Budget g C E w i (off / BSIZE) (stopBlock off n))
    (h : ∀ w', Writes g i off n src w w' → Spares g i w w' → R n w') :
    Takes g C E (do
      writeFrom a e n src off n
      let size ← getCopy e fun d => d.size
      Prog.when (0 < n ∧ size < off + n) do
        setCopy e fun d => { d with size := off + n }
        iupdate a e
      pure (n : Int)) w R := by
  apply takes_valid
  intro hvalid
  apply Takes.seq
  refine takes_writeFrom hinum href hval ho hlive hheld (Spans.refl w) (ranges off n)
    (Nat.le_refl _) (Nat.le_refl _) hlt hbudget fun w' hspans hover => ?_
  have hkey := hspans.evolves.key
  have hsame := hspans.evolves.alike.size
  have hspares : Spares g i w w' := by
    apply hspans.spares hlive
    unfold stopBlock MAXFILE NDIRECT NINDIRECT BSIZE at *
    split_ifs <;> omega
  apply Takes.seq
  refine takes_getCopy (by rwa [hkey]) (by rwa [hkey]) fun d hd => ?_
  rw [hkey, hinum] at hd
  rw [hd.size, hsame]
  apply Takes.seq
  apply takes_when
  · rintro ⟨hpos, hgrow⟩
    have hheld' : w'.held = ∅ := hspans.evolves.held.trans hheld
    have hroom : Room a E w'.logged.card := by
      apply hbudget.room.mono
      have hcard := hspans.card_le
      have hle : w'.logged.card ≤ (w'.logged ∪ g.bitmap).card :=
        Finset.card_le_card Finset.subset_union_left
      omega
    have htrans := hspans.inTrans hbudget.trans
    have hclear : w'.Clear g := by
      intro x hx
      rw [hheld'] at hx
      exact absurd hx (Finset.notMem_empty x)
    apply takes_valid
    intro hvalid'
    have hfits := hvalid'.fits i hlive.1
    have hfits' : Fits { w'.image.node i with size := off + n } := by
      refine { hfits with size := ?_ }
      change off + n < 2 ^ 32
      unfold MAXFILE NDIRECT NINDIRECT BSIZE at hlt
      omega
    have hinum' : (w'.key e).inum = i := by rw [hkey, hinum]
    refine takes_renew (f := fun d => { d with size := off + n }) (by rwa [hkey]) (by rwa [hkey])
      (fun _ _ hd => ⟨hd.type, hd.major, hd.minor, hd.nlink, rfl, hd.addrs⟩) (by rwa [hinum'])
      hclear hroom htrans ?_
    apply takes_pure
    rw [hinum']
    exact h _ (hspans.extends hover ho hlive hoff hpos hgrow hlt) hspares.resize
  · intro hin
    exact takes_pure (h _ (hspans.writes hover ho hlive hsize hoff (by omega)) hspares)

theorem takes_writei {off n : Nat} {src : Nat → UInt8} {R : Int → World → Prop}
    (hsize : (w.image.node i).size ≤ MAXFILE * BSIZE)
    (hbudget : ¬ Refused (w.image.node i).size off n → off + n ≤ MAXFILE * BSIZE →
      Budget g C E w i (off / BSIZE) (stopBlock off n))
    (hno : Refused (w.image.node i).size off n ∨ MAXFILE * BSIZE < off + n → R (-1) w)
    (h : ¬ Refused (w.image.node i).size off n → off + n ≤ MAXFILE * BSIZE →
      ∀ w', Writes g i off n src w w' → Spares g i w w' → R n w') :
    Takes g C E (writei a e src off n) w R := by
  apply Takes.seq
  refine takes_getCopy href hval fun d hd => ?_
  rw [hinum] at hd
  apply takes_ite
  · exact fun htype => absurd (hd.type.symm.trans htype) hdev
  · intro _
    apply takes_ite
    · intro hbad
      rw [id, hd.size] at hbad
      exact takes_pure (hno (.inl hbad))
    · intro hok
      rw [id, hd.size] at hok
      apply takes_ite
      · intro hbig
        exact takes_pure (hno (.inr hbig))
      · intro hfits
        have hlt : off + n ≤ MAXFILE * BSIZE := Nat.le_of_not_lt hfits
        have hoff : off ≤ (w.image.node i).size := by
          have hle := not_or.1 hok
          omega
        exact takes_writeiGo hinum href hval ho hlive hheld hsize hoff hlt (hbudget hok hlt)
          (h hok hlt)

end Functions

end Xv6.Volume
