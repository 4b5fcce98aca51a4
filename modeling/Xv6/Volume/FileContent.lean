import Xv6.Volume.Transfer
import Xv6.Volume.Start

/-!
# Files as lists of bytes

What `readi` returns and `writei` does, in terms of the contents of the file.
-/

namespace Xv6.Volume

open Xv6.Lib Xv6.Fs Xv6.Files Xv6.Sched

variable {a : LogArea} {g : Layout a} {w w' : World}

def Image.content (m : Image) (i : Nat) : List UInt8 := m.bytes i 0 (m.node i).size

section Lists

variable {m m' : Image} {i j off n : Nat}

theorem length_bytes : (m.bytes i off n).length = n := by
  rw [Image.bytes, List.length_map, List.length_range]

theorem length_content : (m.content i).length = (m.node i).size := length_bytes

theorem take_bytes (h : n ≤ j) : (m.bytes i off j).take n = m.bytes i off n := by
  rw [bytes_split h, List.take_left' length_bytes]

theorem drop_bytes (h : n ≤ j) : (m.bytes i off j).drop n = m.bytes i (off + n) (j - n) := by
  rw [bytes_split h, List.drop_left' length_bytes]

theorem bytes_eq_content (h : off ≤ (m.node i).size) :
    m.bytes i off (readLen (m.node i).size off n) = ((m.content i).drop off).take n := by
  rw [Image.content, drop_bytes h, Nat.zero_add]
  unfold readLen
  split_ifs with hlt
  · rw [List.take_of_length_le]
    rw [length_bytes]
    omega
  · rw [take_bytes (by omega)]

theorem bytes_congr (h : ∀ k < n, m'.byte j (off + k) = m.byte i (off + k)) :
    m'.bytes j off n = m.bytes i off n := by
  apply List.map_congr_left
  intro k hk
  exact h k (List.mem_range.1 hk)

theorem content_overwrites {src : Nat → UInt8} (h : m.Overwrites m' i off n src)
    (hsize : (m'.node i).size = max (m.node i).size (off + n)) (hoff : off ≤ (m.node i).size)
    (hmax : (m.node i).size ≤ MAXFILE * BSIZE) (hlt : off + n ≤ MAXFILE * BSIZE) :
    m'.content i =
      (m.content i).take off ++ (List.range n).map src ++ (m.content i).drop (off + n) := by
  have hfirst : m'.bytes i 0 off = (m.content i).take off := by
    rw [Image.content, take_bytes hoff]
    apply bytes_congr
    intro k hk
    rw [h _ (by omega), if_neg (by omega)]
  have hmiddle : m'.bytes i off n = (List.range n).map src := by
    apply List.map_congr_left
    intro k hk
    rw [List.mem_range] at hk
    rw [h _ (by omega), if_pos (by omega), Nat.add_sub_cancel_left]
  have hlast : m'.bytes i (off + n) ((m.node i).size - (off + n)) =
      (m.content i).drop (off + n) := by
    by_cases hle : off + n ≤ (m.node i).size
    · rw [Image.content, drop_bytes hle, Nat.zero_add]
      apply bytes_congr
      intro k hk
      rw [h _ (by omega), if_neg (by omega)]
    · rw [List.drop_eq_nil_of_le (by rw [length_content]; omega), Nat.sub_eq_zero_of_le (by omega)]
      rfl
  have hrest : m'.bytes i off ((m'.node i).size - off) =
      (List.range n).map src ++ (m.content i).drop (off + n) := by
    have hsub : (m'.node i).size - off - n = (m.node i).size - (off + n) := by omega
    rw [bytes_split (k := n) (by omega), hmiddle, hsub, hlast]
  rw [Image.content, bytes_split (k := off) (by omega), Nat.zero_add, hfirst, hrest,
    List.append_assoc]

end Lists

structure Usable (g : Layout a) (w : World) (e : Entry) (i : Nat) : Prop where
  inum : (w.key e).inum = i
  ref : 0 < (w.key e).ref
  valid : (w.key e).valid = true
  live : i < g.sb.ninodes
  type : (w.image.node i).type = T_FILE ∨ (w.image.node i).type = T_DIR
  size : (w.image.node i).size ≤ MAXFILE * BSIZE
  owned : Owned g w.image
  held : w.held = ∅

/-- In a transaction, with enough free blocks and room in the log for blocks `lo`, …, `hi - 1`
of the file, its indirect block, its inode and the bitmap. -/
structure Provided (g : Layout a) (w : World) (i lo hi : Nat) : Prop where
  trans : w.trans.isSome = true
  blocks : w.image.lacks i lo hi ≤ w.image.avail g
  room : (w.logged ∪ g.bitmap).card + (hi - lo) + 2 < min LOGSIZE (a.size - 1)

theorem Provided.budget {i lo hi : Nat} (h : Provided g w i lo hi) :
    Budget g (fun _ _ => True) (fun _ => False) w i lo hi where
  ample := .inr h.blocks
  room := by
    have hroom := h.room
    exact .inr (by omega)
  trans := .inr h.trans

/-- Every other inode is as it was, with its contents and with its place: in the cache, and on
the disk unless it was not there before. -/
structure SameOthers (g : Layout a) (i : Nat) (w w' : World) : Prop where
  node : ∀ j, j ≠ i → w'.image.node j = w.image.node j
  content : ∀ j, j ≠ i → w.image.Live g j → (w.image.node j).size ≤ MAXFILE * BSIZE →
    w'.image.content j = w.image.content j
  key : w'.key = w.key
  dirty : ∀ j, j ≠ i → (w'.dirty j ↔ w.dirty j)

namespace SameOthers

variable {i : Nat} {w'' : World}

theorem refl (w : World) : SameOthers g i w w :=
  ⟨fun _ _ => rfl, fun _ _ _ _ => rfl, rfl, fun _ _ => Iff.rfl⟩

theorem live (h : SameOthers g i w w') {j : Nat} (hj : j ≠ i) (hlive : w.image.Live g j) :
    w'.image.Live g j :=
  ⟨hlive.1, by rw [h.node j hj]; exact hlive.2⟩

theorem trans (h : SameOthers g i w w') (h' : SameOthers g i w' w'') : SameOthers g i w w'' where
  node j hj := (h'.node j hj).trans (h.node j hj)
  content j hj hlive hsize := by
    have hsame := h'.content j hj (h.live hj hlive) (by rwa [h.node j hj])
    exact hsame.trans (h.content j hj hlive hsize)
  key := h'.key.trans h.key
  dirty j hj := (h'.dirty j hj).trans (h.dirty j hj)

end SameOthers

theorem content_of_byte {m m' : Image} {j : Nat} (hnode : m'.node j = m.node j)
    (hbyte : ∀ o < MAXFILE * BSIZE, m'.byte j o = m.byte j o)
    (hsize : (m.node j).size ≤ MAXFILE * BSIZE) : m'.content j = m.content j := by
  rw [Image.content, hnode]
  apply bytes_congr
  intro k hk
  exact hbyte _ (by omega)

theorem Writes.sameOthers {i off n : Nat} {src : Nat → UInt8} (h : Writes g i off n src w w') :
    SameOthers g i w w' where
  node := h.node
  content j hj hlive hsize :=
    content_of_byte (h.node j hj) (fun o ho => h.byte j o hj hlive ho) hsize
  key := h.key
  dirty := h.dirty

theorem Evolves.sameOthers {i : Nat} (h : Evolves g i w w') : SameOthers g i w w' where
  node := h.node
  content j hj hlive hsize :=
    content_of_byte (h.node j hj) (fun o ho => h.byte j o hj hlive ho) hsize
  key := h.key
  dirty := h.dirty

section Usable

variable {e : Entry} {i : Nat} (h : Usable g w e i)
include h

theorem Usable.isLive : w.image.Live g i := by
  refine ⟨h.live, ?_⟩
  rcases h.type with htype | htype <;> rw [htype] <;> decide

theorem Usable.ne_dev : (w.image.node i).type ≠ T_DEV := by
  rcases h.type with htype | htype <;> rw [htype] <;> decide

theorem Usable.writei_refused {s : FsState} (hat : At g s w) {off n : Nat} (src : Nat → UInt8)
    (hno : Refused (w.image.node i).size off n ∨ MAXFILE * BSIZE < off + n) :
    (writei a e src off n).run s = .ok (-1, s) := by
  have hsame := hat.copy e h.ref h.valid
  rw [h.inum] at hsame
  unfold Refused at hno
  change ((if (s.icache e).copy.type = T_DEV then _
    else if (s.icache e).copy.size < off ∨ (off + n) % 2 ^ 32 < off then _
    else if MAXFILE * BSIZE < off + n then _ else _) : FsM Int).run s = _
  rw [if_neg (hsame.type ▸ h.ne_dev), hsame.size]
  split_ifs with hrefused hbig
  · rfl
  · rfl
  · omega

theorem Usable.readi_refused {s : FsState} (hat : At g s w) {off n : Nat}
    (hno : Refused (w.image.node i).size off n) : (readi a e off n).run s = .ok (none, s) := by
  have hsame := hat.copy e h.ref h.valid
  rw [h.inum] at hsame
  unfold Refused at hno
  change ((if (s.icache e).copy.type = T_DEV then _
    else if (s.icache e).copy.size < off ∨ (off + n) % 2 ^ 32 < off then _ else _) :
    FsM (Option (List UInt8))).run s = _
  rw [if_neg (hsame.type ▸ h.ne_dev), hsame.size, if_pos hno]
  rfl

theorem Usable.writei_content {s : FsState} (hat : At g s w) {off n : Nat} (src : Nat → UInt8)
    (hok : ¬ Refused (w.image.node i).size off n) (hlt : off + n ≤ MAXFILE * BSIZE)
    (hprov : Provided g w i (off / BSIZE) (stopBlock off n)) :
    ∃ t w', (writei a e src off n).run s = .ok ((n : Int), t) ∧ At g t w' ∧
      w'.image.content i = (w.image.content i).take off ++ (List.range n).map src ++
        (w.image.content i).drop (off + n) ∧
      SameOthers g i w w' := by
  have hoff : off ≤ (w.image.node i).size := by
    unfold Refused at hok
    omega
  obtain ⟨r, t, w', hrun, hat', rfl, hwrites⟩ := Takes.run
    (takes_writei (R := fun r w' => r = (n : Int) ∧ Writes g i off n src w w') h.inum h.ref h.valid
      h.owned h.isLive h.held h.ne_dev h.size (fun _ _ => hprov.budget)
      (fun hno => absurd hno (not_or.2 ⟨hok, Nat.not_lt.2 hlt⟩)) fun _ _ w' hwrites _ => ⟨rfl, hwrites⟩) hat
  refine ⟨t, w', hrun, hat', ?_, hwrites.sameOthers⟩
  exact content_overwrites hwrites.overwrites hwrites.alike.size hoff h.size hlt

theorem Usable.readi_content {s : FsState} (hat : At g s w) {off n : Nat}
    (hok : ¬ Refused (w.image.node i).size off n)
    (hprov : w.image.Complete i ∨
      Provided g w i (off / BSIZE) (stopBlock off (readLen (w.image.node i).size off n))) :
    ∃ t w', (readi a e off n).run s = .ok (some (((w.image.content i).drop off).take n), t) ∧
      At g t w' ∧ w'.image.content i = w.image.content i ∧ SameOthers g i w w' := by
  have hoff : off ≤ (w.image.node i).size := by
    unfold Refused at hok
    omega
  have hplan : w.image.Whole i (off / BSIZE)
        (stopBlock off (readLen (w.image.node i).size off n)) ∨
      Budget g (fun _ _ => True) (fun _ => False) w i (off / BSIZE)
        (stopBlock off (readLen (w.image.node i).size off n)) := by
    rcases hprov with hall | hprov
    · left
      intro l _ hl
      apply hall l (Nat.zero_le l)
      unfold readLen stopBlock at hl
      unfold blocksOf
      unfold BSIZE at *
      split_ifs at hl <;> omega
    · exact .inr hprov.budget
  obtain ⟨r, t, w', hrun, hat', rfl, hspans, hbytes⟩ := Takes.run
    (takes_readi (R := fun r w' =>
        r = some (w.image.bytes i off (readLen (w.image.node i).size off n)) ∧
        Evolves g i w w' ∧ ∀ o < MAXFILE * BSIZE, w'.image.byte i o = w.image.byte i o)
      h.inum h.ref h.valid h.owned h.isLive h.held h.ne_dev h.size hplan
      (fun hno => absurd hno hok) fun _ w' hspans hbytes _ => ⟨rfl, hspans.evolves, hbytes⟩) hat
  refine ⟨t, w', ?_, hat', ?_, hspans.sameOthers⟩
  · rw [hrun, bytes_eq_content hoff]
  · rw [Image.content, hspans.alike.size]
    apply bytes_congr
    intro k hk
    exact hbytes _ (by have hmax := h.size; omega)

end Usable

/-- The root directory of the small disk is locked in a transaction. -/
def smallOpen : World :=
  World.locked { World.ofDisk smallLayout smallDisk with trans := some initproc } rootEntry

def openRoot : FsM Unit := do
  beginTrans initproc
  ilock rootEntry

theorem openRoot_run : ∃ s, openRoot.run (startFs smallDisk) = .ok ((), s) ∧
    At smallLayout s smallOpen := by
  have htakes : Takes smallLayout (fun _ _ => True) (fun _ => False) openRoot
      (World.ofDisk smallLayout smallDisk) fun _ w' => w' = smallOpen := by
    apply Takes.seq
    refine takes_beginTrans (.inr rfl) fun _ => ?_
    have hclear : World.Clear smallLayout
        { World.ofDisk smallLayout smallDisk with trans := some initproc } := by
      intro x hx
      exact absurd hx (Finset.notMem_empty x)
    refine takes_ilock (by decide +kernel) (.inr rfl) hclear (fun _ => ⟨id, fun htype => ?_⟩)
      fun _ _ => rfl
    exact absurd htype (by decide +kernel)
  obtain ⟨_, s, _, hrun, hat, rfl⟩ := htakes.run (at_startFs formatted_small)
  exact ⟨s, hrun, hat⟩

theorem usable_smallOpen : Usable smallLayout smallOpen rootEntry ROOTINO where
  inum := by decide +kernel
  ref := by decide +kernel
  valid := by decide +kernel
  live := by decide
  type := by decide +kernel
  size := by decide +kernel
  owned := owned_small
  held := rfl

end Xv6.Volume
