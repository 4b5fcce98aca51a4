import Xv6.Volume.Actions

/-!
# Blocks and inodes of a world

What `balloc`, `bfree`, `ilock`, `iupdate` and `ialloc` do to the world.
-/

namespace Xv6.Volume

open Xv6.Lib Xv6.Fs Xv6.Files Xv6.Sched

variable {a : LogArea} {α : Type} {g : Layout a} {C : Act → FsState → Prop} {E : Halt → Prop}
  {w : World} {R : α → World → Prop}

theorem World.release {x : Nat} (hfree : x ∉ w.held) :
    { w with held := (insert x w.held).erase x } = w := by
  rw [Finset.erase_insert hfree]

/-- The code holds no buffers but those of data blocks in use. -/
def World.Clear (g : Layout a) (w : World) : Prop :=
  ∀ x ∈ w.held, g.first ≤ x ∧ w.image.bit x = true

theorem World.Clear.notMem (h : w.Clear g) {x : Nat} (hx : x < g.first) : x ∉ w.held := by
  intro hmem
  have hle := (h x hmem).1
  omega

theorem takes_readBlock {x : Nat} {k : Block → FsM α} (hx : x < a.start) (hfree : x ∉ w.held)
    (h : ∀ d, Shows g w.image w.dirty x d → Takes g C E (k d) w R) :
    Takes g C E (do
      let bp ← bread x
      brelse bp
      k bp.data) w R := by
  apply Takes.seq
  apply takes_bread hx hfree
  intro d hd
  apply Takes.seq
  apply takes_brelse
  change Takes g C E (k d) { w with held := (insert x w.held).erase x } R
  rw [World.release hfree]
  exact h d hd

theorem takes_readsb {R : Superblock → World → Prop} (hclear : w.Clear g) (h : R g.sb w) :
    Takes g C E readsb w R := by
  have hlt : 1 < a.start := g.one_lt_first.trans_le g.first_le
  refine takes_readBlock (k := fun d => pure (Superblock.decode d)) hlt (hclear.notMem g.one_lt_first)
    fun d hd => ?_
  rw [hd.super rfl]
  exact takes_pure h

/-! ## Data blocks -/

def Image.setBlk (m : Image) (x : Nat) (d : Block) : Image :=
  { m with blk := Function.update m.blk x d }

def Image.setBit (m : Image) (b : Nat) (v : Bool) : Image :=
  { m with bit := Function.update m.bit b v }

@[simp] theorem Image.setBlk_self (m : Image) (x : Nat) (d : Block) : (m.setBlk x d).blk x = d := by
  simp only [Image.setBlk, Function.update_self]

@[simp] theorem Image.setBlk_of_ne (m : Image) {x y : Nat} (h : y ≠ x) (d : Block) :
    (m.setBlk x d).blk y = m.blk y := by
  simp only [Image.setBlk, Function.update_of_ne h]

@[simp] theorem Image.setBit_self (m : Image) (b : Nat) (v : Bool) : (m.setBit b v).bit b = v := by
  simp only [Image.setBit, Function.update_self]

@[simp] theorem Image.setBit_of_ne (m : Image) {b c : Nat} (h : c ≠ b) (v : Bool) :
    (m.setBit b v).bit c = m.bit c := by
  simp only [Image.setBit, Function.update_of_ne h]

theorem redraws_data (hvalid : w.Valid g) {x : Nat} (hx : g.first ≤ x) (d : Block) :
    Redraws g w x d (w.image.setBlk x d) w.dirty where
  here :=
    { super := fun h => by have := g.one_lt_first; omega
      inode := fun i hi h => by have := Layout.iblock_lt_first hi; omega
      bit := fun b hb h => by have := Layout.bblock_lt_first hb; omega
      data := fun _ => (Image.setBlk_self _ x d).symm }
  others y _ hne c hc :=
    { hc with data := fun hy => (hc.data hy).trans (Image.setBlk_of_ne _ hne d).symm }
  copy _ _ _ := Same.refl _
  fits := hvalid.fits
  reserved := hvalid.reserved

theorem takes_writeData {b : Buffer} {R : Unit → World → Prop} (hx : g.first ≤ b.sector)
    (hlt : b.sector < a.start) (hroom : Room a E w.logged.card) (htrans : w.InTrans E)
    (h : R () { w with
      image := w.image.setBlk b.sector b.data, logged := insert b.sector w.logged }) :
    Takes g C E (logWrite a b) w R := by
  intro s hat
  exact takes_logWrite hlt (redraws_data hat.valid hx b.data) hroom htrans h s hat

theorem takes_bzero {x : Nat} {R : Unit → World → Prop} (hx : g.first ≤ x) (hlt : x < a.start)
    (hfree : x ∉ w.held) (hroom : Room a E w.logged.card) (htrans : w.InTrans E)
    (h : R () { w with image := w.image.setBlk x fun _ => 0, logged := insert x w.logged }) :
    Takes g C E (bzero a x) w R := by
  apply Takes.seq
  apply takes_bread hlt hfree
  intro d _
  apply Takes.seq
  refine takes_writeData hx hlt hroom htrans ?_
  apply takes_brelse
  change R () { w with
    image := _, held := (insert x w.held).erase x, logged := insert x w.logged }
  rw [Finset.erase_insert hfree]
  exact h

/-! ## The bitmap -/

theorem bblock_eq_iff {b c n : Nat} : BBLOCK b n = BBLOCK c n ↔ b / BPB = c / BPB := by
  unfold BBLOCK
  omega

theorem redraws_bit (hvalid : w.Valid g) {b : Nat} {v : Bool} {d d' : Block} (hb : b < g.sb.size)
    (hres : g.first ≤ b ∨ v = true) (hd : Shows g w.image w.dirty (BBLOCK b g.sb.ninodes) d)
    (hbit : ∀ j, testBit d' j = if j = b % BPB then v else testBit d j) :
    Redraws g w (BBLOCK b g.sb.ninodes) d' (w.image.setBit b v) w.dirty := by
  have hlt := Layout.bblock_lt_first hb
  refine ⟨⟨fun h => ?_, fun i hi h => ?_, fun c hc h => ?_, fun h => ?_⟩, fun y _ hne c hc => ?_,
    fun _ _ _ => Same.refl _, hvalid.fits, fun c hc => ?_⟩
  · unfold BBLOCK IPB BPB BSIZE at h
    omega
  · have hlt'  := Layout.iblock_lt_bblock hi b
    omega
  · rw [hbit]
    rw [bblock_eq_iff] at h
    by_cases hcb : c = b
    · rw [hcb, if_pos rfl, Image.setBit_self]
    · have hne : c % BPB ≠ b % BPB := by
        intro hmod
        exact hcb (by rw [← Nat.div_add_mod c BPB, ← Nat.div_add_mod b BPB, h, hmod])
      rw [if_neg hne, Image.setBit_of_ne _ hcb]
      exact hd.bit c hc (bblock_eq_iff.2 h)
  · omega
  · refine { hc with bit := fun e he h => ?_ }
    have heb : e ≠ b := by
      rintro rfl
      exact hne h.symm
    rw [Image.setBit_of_ne _ heb]
    exact hc.bit e he h
  · by_cases hcb : c = b
    · rw [hcb, Image.setBit_self]
      exact hres.resolve_left (by omega)
    · rw [Image.setBit_of_ne _ hcb]
      exact hvalid.reserved c hc

theorem takes_writeBit {b : Nat} {v : Bool} {d d' : Block} {R : Unit → World → Prop}
    (hb : b < g.sb.size) (hres : g.first ≤ b ∨ v = true)
    (hd : Shows g w.image w.dirty (BBLOCK b g.sb.ninodes) d)
    (hbit : ∀ j, testBit d' j = if j = b % BPB then v else testBit d j)
    (hroom : Room a E w.logged.card) (htrans : w.InTrans E)
    (h : R () { w with
      image := w.image.setBit b v, logged := insert (BBLOCK b g.sb.ninodes) w.logged }) :
    Takes g C E (logWrite a ⟨BBLOCK b g.sb.ninodes, d'⟩) w R := by
  intro s hat
  have hlt := (Layout.bblock_lt_first hb).trans_le g.first_le
  exact takes_logWrite hlt (redraws_bit hat.valid hb hres hd hbit) hroom htrans h s hat

/-- Where `balloc` looks for a block, there is a free one before the log. -/
def Supply (g : Layout a) (C : Act → FsState → Prop) (m : Image) : Prop :=
  ∀ s b w, At g s w → w.image = m → C (.balloc b) s → ∃ x < a.start, m.bit x = false

def World.alloc (g : Layout a) (w : World) (b : Nat) : World :=
  { w with
    image := (w.image.setBit b true).setBlk b fun _ => 0
    logged := insert b (insert (BBLOCK b g.sb.ninodes) w.logged) }

/-- There is room in the log for a block of the bitmap and one more block. -/
def World.Roomy (g : Layout a) (E : Halt → Prop) (w : World) : Prop :=
  ∀ b < g.sb.size, Room a E (insert (BBLOCK b g.sb.ninodes) w.logged).card

theorem World.Roomy.room (h : w.Roomy g E) : Room a E w.logged.card := by
  have hlt := g.one_lt_first
  have hfirst := g.first_le
  have hstart := g.start_le
  exact (h 0 (by omega)).mono (Finset.card_le_card (Finset.subset_insert _ _))

theorem takes_ballocFound {b : Nat} {d d' : Block} {R : Nat → World → Prop} (hb : g.first ≤ b)
    (hlt : b < a.start) (hbit : w.image.bit b = false)
    (hd : Shows g w.image w.dirty (BBLOCK b g.sb.ninodes) d)
    (hset : ∀ j, testBit d' j = if j = b % BPB then true else testBit d j) (hclear : w.Clear g)
    (hroom : w.Roomy g E) (htrans : w.InTrans E) (h : R b (w.alloc g b)) :
    Takes g C E (do
      logWrite a ⟨BBLOCK b g.sb.ninodes, d'⟩
      brelse ⟨BBLOCK b g.sb.ninodes, d⟩
      bzero a b
      pure b)
      { w with held := insert (BBLOCK b g.sb.ninodes) w.held } R := by
  have hsize : b < g.sb.size := hlt.trans_le g.start_le
  have hbm : BBLOCK b g.sb.ninodes < g.first := Layout.bblock_lt_first hsize
  have hnotMem := hclear.notMem hbm
  have hfree : b ∉ w.held := by
    intro hmem
    rw [(hclear b hmem).2] at hbit
    exact absurd hbit (by decide)
  apply Takes.seq
  refine takes_writeBit hsize (.inr rfl) hd hset hroom.room htrans ?_
  apply Takes.seq
  apply takes_brelse
  change Takes g C E _ { w with
    image := _, held := (insert (BBLOCK b g.sb.ninodes) w.held).erase (BBLOCK b g.sb.ninodes),
    logged := _ } R
  rw [Finset.erase_insert hnotMem]
  apply Takes.seq
  refine takes_bzero hb hlt hfree (hroom b hsize) htrans ?_
  exact takes_pure h

theorem takes_ballocFrom {R : Nat → World → Prop} (hclear : w.Clear g) (hsupply : Supply g C w.image)
    (hroom : w.Roomy g E) (htrans : w.InTrans E)
    (h : ∀ b, g.first ≤ b → b < a.start → w.image.bit b = false → R b (w.alloc g b)) {k b : Nat}
    (hfuel : g.sb.size ≤ b + k * BPB) (hmod : b % BPB = 0) (hprev : ∀ c < b, w.image.bit c = true)
    (hmore : b < a.start) : Takes g C E (ballocFrom a g.sb k b) w R := by
  have hstart := g.start_le
  induction k generalizing b with
  | zero => omega
  | succ k ih =>
    have hbm : BBLOCK b g.sb.ninodes < g.first := Layout.bblock_lt_first (by omega)
    have hnotMem := hclear.notMem hbm
    apply Takes.seq
    apply takes_breadFor (hbm.trans_le g.first_le) hnotMem
    intro s d hat hC hd
    obtain ⟨x, hx, hxbit⟩ := hsupply s b w hat rfl hC
    have hblock : ∀ j < BPB, BBLOCK (b + j) g.sb.ninodes = BBLOCK b g.sb.ninodes ∧
        (b + j) % BPB = j := by
      intro j hj
      unfold BBLOCK
      unfold BPB BSIZE at hmod hj ⊢
      omega
    have hbits : ∀ j < min BPB (g.sb.size - b), testBit d j = w.image.bit (b + j) := by
      intro j hj
      obtain ⟨hsame, hrem⟩ := hblock j (by omega)
      rw [← hd.bit (b + j) (by omega) hsame, hrem]
    cases hfind : findClear d (min BPB (g.sb.size - b)) with
    | some bi =>
      obtain ⟨hbi, hclr, hset⟩ := findClear_eq_some.1 hfind
      obtain ⟨hsame, hrem⟩ := hblock bi (by omega)
      have hbit : w.image.bit (b + bi) = false := by rw [← hbits bi hbi, hclr]
      have hbelow : ∀ c < b + bi, w.image.bit c = true := by
        intro c hc
        by_cases hcb : c < b
        · exact hprev c hcb
        · have hj := hset (c - b) (by omega)
          rwa [hbits (c - b) (by omega), Nat.add_sub_cancel' (by omega)] at hj
      have hlt : b + bi < a.start := by
        by_contra hge
        rw [hbelow x (by omega)] at hxbit
        exact absurd hxbit (by decide)
      have hfirst : g.first ≤ b + bi := by
        by_contra hge
        rw [hat.valid.reserved (b + bi) (by omega)] at hbit
        exact absurd hbit (by decide)
      have hsetBit : ∀ j, testBit (setBit d bi) j =
          if j = (b + bi) % BPB then true else testBit d j := by
        intro j
        rw [hrem]
        exact testBit_setBit (by omega)
      rw [← hsame] at hd ⊢
      exact takes_ballocFound hfirst hlt hbit hd hsetBit hclear hroom htrans
        (h _ hfirst hlt hbit)
    | none =>
      have hall := findClear_eq_none.1 hfind
      have hbelow : ∀ c < min (b + BPB) g.sb.size, w.image.bit c = true := by
        intro c hc
        by_cases hcb : c < b
        · exact hprev c hcb
        · have hj := hall (c - b) (by omega)
          rwa [hbits (c - b) (by omega), Nat.add_sub_cancel' (by omega)] at hj
      have hxge : min (b + BPB) g.sb.size ≤ x := by
        by_contra hlt
        rw [hbelow x (by omega)] at hxbit
        exact absurd hxbit (by decide)
      apply Takes.seq
      apply takes_brelse
      change Takes g C E _ { w with
        held := (insert (BBLOCK b g.sb.ninodes) w.held).erase (BBLOCK b g.sb.ninodes) } R
      rw [World.release hnotMem]
      refine ih ?_ ?_ (fun c hc => hbelow c (by omega)) (by omega)
      · rw [Nat.succ_mul] at hfuel
        omega
      · rw [Nat.add_mod_right]
        exact hmod

theorem takes_balloc {R : Nat → World → Prop} (hclear : w.Clear g) (hsupply : Supply g C w.image)
    (hroom : w.Roomy g E) (htrans : w.InTrans E)
    (h : ∀ b, g.first ≤ b → b < a.start → w.image.bit b = false → R b (w.alloc g b)) :
    Takes g C E (balloc a) w R := by
  have hlt := g.one_lt_first
  have hfirst := g.first_le
  apply Takes.seq
  apply takes_readsb hclear
  refine takes_ballocFrom hclear hsupply hroom htrans h ?_ (by decide) (by simp) (by omega)
  unfold BPB BSIZE
  omega

/-! ## Inodes -/

section Inodes

variable {e : Entry}

theorem iblock_eq_iff {i j : Nat} : IBLOCK i = IBLOCK j ↔ i / IPB = j / IPB := by
  unfold IBLOCK
  omega

def World.written (w : World) (i : Nat) : World :=
  { w with dirty := fun j => j ≠ i ∧ w.dirty j, logged := insert (IBLOCK i) w.logged }

theorem shows_inode {m : Image} {dirty dirty' : Nat → Prop} {i : Nat} {d d' : Block}
    (hi : i < g.sb.ninodes) (node : Nat → Dinode) (hd : Shows g m dirty (IBLOCK i) d)
    (hself : Same (.decode d' (i % IPB)) (node i))
    (hother : ∀ j, j % IPB ≠ i % IPB → Same (.decode d' (j % IPB)) (.decode d (j % IPB)))
    (hnode : ∀ j, j ≠ i → node j = m.node j) (hdirty : ∀ j, j ≠ i → dirty j → dirty' j) :
    Shows g { m with node := node } dirty' (IBLOCK i) d' where
  super h := by
    have := Layout.one_lt_iblock i
    omega
  inode j hj h hclean := by
    by_cases hji : j = i
    · rw [hji]
      exact hself
    · have hmod : j % IPB ≠ i % IPB := by
        intro hmod
        rw [iblock_eq_iff] at h
        exact hji (by rw [← Nat.div_add_mod j IPB, ← Nat.div_add_mod i IPB, h, hmod])
      have hsame := hd.inode j hj h fun hdj => hclean (hdirty j hji hdj)
      change Same _ (node j)
      rw [hnode j hji]
      exact (hother j hmod).trans hsame
  bit b hb h := by
    have := Layout.iblock_lt_bblock hi b
    omega
  data h := by
    have := Layout.iblock_lt_first hi
    omega

theorem Shows.setNode {m : Image} {dirty dirty' : Nat → Prop} {i y : Nat} {c : Block}
    {node : Nat → Dinode} (hc : Shows g m dirty y c) (hy : y ≠ IBLOCK i)
    (hnode : ∀ j, j ≠ i → node j = m.node j) (hdirty : ∀ j, j ≠ i → dirty j → dirty' j) :
    Shows g { m with node := node } dirty' y c := by
  refine { hc with inode := fun j hj h hclean => ?_ }
  have hji : j ≠ i := by
    rintro rfl
    exact hy h.symm
  change Same _ (node j)
  rw [hnode j hji]
  exact hc.inode j hj h fun hdj => hclean (hdirty j hji hdj)

theorem takes_iupdate {R : Unit → World → Prop} (href : 0 < (w.key e).ref)
    (hval : (w.key e).valid = true) (hclear : w.Clear g) (hroom : Room a E w.logged.card)
    (htrans : w.InTrans E) (h : R () (w.written (w.key e).inum)) :
    Takes g C E (iupdate a e) w R := by
  apply takes_valid
  intro hvalid
  have hi := hvalid.keyed.inum e href
  have hib := Layout.iblock_lt_first hi
  have hnotMem := hclear.notMem hib
  have hj : (w.key e).inum % IPB < IPB := Nat.mod_lt _ (by decide)
  apply Takes.seq
  apply takes_getKey (fun k => k.inum) fun _ => rfl
  apply Takes.seq
  apply takes_bread (hib.trans_le g.first_le) hnotMem
  intro d hd
  apply Takes.seq
  refine takes_getCopy href hval fun c hc => ?_
  have hshows : Shows g w.image (w.written (w.key e).inum).dirty (IBLOCK (w.key e).inum)
      (c.encode d ((w.key e).inum % IPB)) := by
    apply shows_inode hi w.image.node hd
    · exact (decode_encode_self ((hvalid.fits _ hi).of_same hc.symm) d hj).trans hc
    · exact fun j hne => decode_encode_of_ne c d hne
    · exact fun _ _ => rfl
    · exact fun j hne hdirty => ⟨hne, hdirty⟩
  have hothers : ∀ y < a.start, y ≠ IBLOCK (w.key e).inum → ∀ c,
      Shows g w.image w.dirty y c → Shows g w.image (w.written (w.key e).inum).dirty y c :=
    fun y _ hne c hc => hc.setNode hne (fun _ _ => rfl) fun j hji hdirty => ⟨hji, hdirty⟩
  apply Takes.seq
  refine takes_logWrite (hib.trans_le g.first_le) ⟨hshows, hothers, fun _ _ _ => Same.refl _,
    hvalid.fits, hvalid.reserved⟩ hroom htrans ?_
  apply takes_brelse
  change R () { w with
    dirty := _, held := (insert (IBLOCK (w.key e).inum) w.held).erase (IBLOCK (w.key e).inum),
    logged := _ }
  rw [Finset.erase_insert hnotMem]
  exact h

def World.renew (w : World) (i : Nat) (d : Dinode) : World := (w.setNode i d).written i

section Renew

variable {f : Dinode → Dinode} (href : 0 < (w.key e).ref) (hval : (w.key e).valid = true)
  (hf : ∀ d d', Same d d' → Same (f d) (f d')) (hfits : Fits (f (w.image.node (w.key e).inum)))
  (hclear : w.Clear g) (hroom : Room a E w.logged.card) (htrans : w.InTrans E)
include href hval hf hfits hclear hroom htrans

theorem takes_renew {R : Unit → World → Prop}
    (h : R () (w.renew (w.key e).inum (f (w.image.node (w.key e).inum)))) :
    Takes g C E (do
      setCopy e f
      iupdate a e) w R := by
  apply Takes.seq
  refine takes_setCopy href hval hf hfits ?_
  exact takes_iupdate href hval hclear hroom htrans h

end Renew

def World.locked (w : World) (e : Entry) : World :=
  w.setKey e { w.key e with busy := true, valid := true }

theorem World.setKey_self (w : World) (e : Entry) : w.setKey e (w.key e) = w := by
  rw [World.setKey, Function.update_eq_self]

theorem At.copyIn {s : FsState} (hat : At g s w) (hval : (w.key e).valid = false) (d : Dinode) :
    At g (s.setInode e { s.icache e with copy := d }) w := by
  have hkey : Key.of { s.icache e with copy := d } = w.key e := hat.key e
  rw [← w.setKey_self e, ← hkey]
  apply hat.setKey
  · rw [hkey, Function.update_eq_self]
    exact hat.valid.keyed
  · intro _ hv
    have hv' : (Key.of { s.icache e with copy := d }).valid = true := hv
    rw [hkey, hval] at hv'
    exact absurd hv' (by decide)

theorem At.validate {s : FsState} (hat : At g s w) (href : 0 < (w.key e).ref)
    (hsame : Same (s.icache e).copy (w.image.node (w.key e).inum)) :
    At g (s.setInode e { s.icache e with valid := true })
      (w.setKey e { w.key e with valid := true }) := by
  have hkey : Key.of { s.icache e with valid := true } = { w.key e with valid := true } := by
    rw [← hat.key e]
    rfl
  have hinum : (s.icache e).inum = (w.key e).inum := by
    rw [← hat.key e]
    rfl
  rw [← hkey]
  apply hat.setKey
  · rw [hkey]
    exact hat.valid.keyed.update fun _ => ⟨href, rfl, rfl⟩
  · intro _ _
    change Same (s.icache e).copy (w.image.node (s.icache e).inum)
    rwa [hinum]

theorem takes_load {b : Buffer} {d : Dinode} {k : FsM α} (href : 0 < (w.key e).ref)
    (hval : (w.key e).valid = false) (hsame : Same d (w.image.node (w.key e).inum))
    (h : Takes g C E k { w.setKey e { w.key e with valid := true } with
      held := w.held.erase b.sector } R) :
    Takes g C E (do
      setCopy e fun _ => d
      brelse b
      put fun s => s.setInode e { s.icache e with valid := true }
      k) w R := by
  intro s hat
  have hat₁ := hat.copyIn hval d
  have hat₂ := hat₁.brelse b
  have hcopy : ((s.setInode e { s.icache e with copy := d }).icache e).copy = d := by
    simp [FsState.setInode]
  refine Prog.sat_act.2 fun _ => ⟨⟨w, hat⟩, fun _ t ht => ?_, by simp⟩
  obtain rfl : _ = t := by simpa using ht
  refine Prog.sat_act.2 fun _ => ⟨⟨w, hat₁⟩, fun _ t ht => ?_, by simp⟩
  obtain rfl : _ = t := by simpa using ht
  refine Prog.sat_act.2 fun _ => ⟨⟨_, hat₂⟩, fun _ t ht => ?_, by simp⟩
  obtain rfl : _ = t := by simpa using ht
  apply h
  apply hat₂.validate href
  rw [hcopy]
  exact hsame

theorem takes_ilock {R : Unit → World → Prop} (href : 0 < (w.key e).ref)
    (hbusy : E .block ∨ (w.key e).busy = false) (hclear : w.Clear g)
    (hload : (w.key e).valid = false → ¬ w.dirty (w.key e).inum ∧
      ((w.image.node (w.key e).inum).type = 0 → E (.panic "ilock: no type")))
    (h : (w.key e).busy = false →
      ((w.key e).valid = false → (w.image.node (w.key e).inum).type ≠ 0) → R () (w.locked e)) :
    Takes g C E (ilock e) w R := by
  apply takes_valid
  intro hvalid
  have hi := hvalid.keyed.inum e href
  have hib := Layout.iblock_lt_first hi
  have hnotMem := hclear.notMem hib
  have hself : (w.lock e true).key e = { w.key e with busy := true } := by
    simp [World.lock, World.setKey]
  apply Takes.seq
  refine takes_ilockBusy href hbusy fun hfree => ?_
  apply Takes.seq
  refine takes_getKey (fun k => k.valid) (fun _ => rfl) ?_
  rw [hself]
  apply takes_ite
  · intro hval
    apply takes_pure
    have hlocked : w.locked e = w.lock e true := by
      unfold World.locked World.lock
      have hval' : (w.key e).valid = true := hval
      rw [← hval']
    rw [← hlocked]
    refine h hfree fun hno => ?_
    have hval' : (w.key e).valid = true := hval
    rw [hno] at hval'
    exact absurd hval' (by decide)
  · intro hval
    have hno : (w.key e).valid = false := by simpa using hval
    obtain ⟨hdirty, htype⟩ := hload hno
    apply Takes.seq
    refine takes_getKey (fun k => k.inum) (fun _ => rfl) ?_
    rw [hself]
    apply Takes.seq
    refine takes_bread (hib.trans_le g.first_le) hnotMem fun d hd => ?_
    have hsame := hd.inode _ hi rfl hdirty
    have hworld : { (w.lock e true).setKey e { w.key e with busy := true, valid := true } with
        held := (insert (IBLOCK (w.key e).inum) w.held).erase (IBLOCK (w.key e).inum) } =
        w.locked e := by
      rw [Finset.erase_insert hnotMem]
      simp [World.lock, World.locked, World.setKey]
    refine takes_load (by rw [hself]; exact href) (by rw [hself]; exact hno)
      (by rw [hself]; exact hsame) ?_
    rw [hself]
    refine Takes.of_eq hworld ?_
    have hkey : (w.locked e).key e = { w.key e with busy := true, valid := true } := by
      simp [World.locked, World.setKey]
    apply Takes.seq
    refine takes_getCopy (by rw [hkey]; exact href) (by rw [hkey]) fun d hd => ?_
    rw [hkey] at hd
    change Same d (w.image.node (w.key e).inum) at hd
    rw [hd.type]
    apply takes_when
    · intro hzero
      exact takes_stop (htype hzero)
    · intro hne
      exact h hfree fun _ => hne

end Inodes

end Xv6.Volume
