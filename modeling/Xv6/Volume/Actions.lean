import Xv6.Volume.World

/-!
# Actions on worlds

What the buffers, the log and the inode cache do to the world.
-/

namespace Xv6.Volume

open Xv6.Lib Xv6.Fs Xv6.Files Xv6.Sched

variable {a : LogArea} {α : Type} {g : Layout a} {C : Act → FsState → Prop} {E : Halt → Prop}
  {w : World} {R : α → World → Prop}

/-! ## Buffers -/

theorem takes_breadFor {l : Act} {x : Nat} {R : Buffer → World → Prop} (hx : x < a.start)
    (hfree : x ∉ w.held)
    (h : ∀ s d, At g s w → C l s → Shows g w.image w.dirty x d →
      R ⟨x, d⟩ { w with held := insert x w.held }) :
    Takes g C E (breadFor l x) w R := by
  apply takes_atomic
  intro s hat hC
  have hopen : s.locked x = false := by
    rw [← Bool.not_eq_true, hat.locked]
    exact hfree
  simp only [hopen, Bool.false_eq_true, if_false]
  refine ⟨fun r t ht => ?_, nofun⟩
  obtain ⟨rfl, rfl⟩ : Buffer.mk x (s.disk x) = r ∧ _ = t := by simpa using ht
  have hvalid : World.Valid g { w with held := insert x w.held } := by
    refine { hat.valid with held := fun y hy => ?_ }
    rcases Finset.mem_insert.1 hy with rfl | hy
    · exact hx
    · exact hat.valid.held y hy
  have hlocked : ∀ y, Function.update s.locked x true y = true ↔ y ∈ insert x w.held := by
    intro y
    rw [Finset.mem_insert, ← hat.locked y]
    by_cases hy : y = x
    · simp [hy]
    · simp [hy]
  exact ⟨_, { hat with valid := hvalid, locked := hlocked }, h s _ hat hC (hat.home x hx)⟩

theorem takes_bread {x : Nat} {R : Buffer → World → Prop} (hx : x < a.start) (hfree : x ∉ w.held)
    (h : ∀ d, Shows g w.image w.dirty x d → R ⟨x, d⟩ { w with held := insert x w.held }) :
    Takes g C E (bread x) w R :=
  takes_breadFor hx hfree fun _ d _ _ => h d

theorem At.brelse {s : FsState} (hat : At g s w) (b : Buffer) :
    At g { s with locked := Function.update s.locked b.sector false }
      { w with held := w.held.erase b.sector } := by
  have hvalid : World.Valid g { w with held := w.held.erase b.sector } :=
    { hat.valid with held := fun y hy => hat.valid.held y (Finset.mem_of_mem_erase hy) }
  have hlocked : ∀ y, Function.update s.locked b.sector false y = true ↔
      y ∈ w.held.erase b.sector := by
    intro y
    rw [Finset.mem_erase, ← hat.locked y]
    by_cases hy : y = b.sector
    · simp [hy]
    · simp [hy]
  exact { hat with valid := hvalid, locked := hlocked }

theorem takes_brelse {b : Buffer} {R : Unit → World → Prop}
    (h : R () { w with held := w.held.erase b.sector }) : Takes g C E (brelse b) w R :=
  takes_put (fun _ hat => hat.brelse b) h

/-! ## The log -/

/-- The contents `d` of block `x` make the image of the world the image `m`. -/
structure Redraws (g : Layout a) (w : World) (x : Nat) (d : Block) (m : Image)
    (dirty : Nat → Prop) : Prop where
  here : Shows g m dirty x d
  others : ∀ y < a.start, y ≠ x → ∀ c, Shows g w.image w.dirty y c → Shows g m dirty y c
  copy : ∀ e, 0 < (w.key e).ref → (w.key e).valid = true →
    Same (w.image.node (w.key e).inum) (m.node (w.key e).inum)
  fits : ∀ i < g.sb.ninodes, Fits (m.node i)
  reserved : ∀ b < g.first, m.bit b = true

def Room (a : LogArea) (E : Halt → Prop) (k : Nat) : Prop :=
  E (.panic "too big a transaction") ∨ (k < LOGSIZE ∧ k + 1 < a.size)

theorem Room.mono {k k' : Nat} (h : Room a E k) (hle : k' ≤ k) : Room a E k' := by
  rcases h with hE | hroom
  · exact .inl hE
  · exact .inr (by omega)

def World.InTrans (w : World) (E : Halt → Prop) : Prop :=
  E (.panic "write outside of trans") ∨ w.trans.isSome = true

theorem takes_logWrite {b : Buffer} {m : Image} {dirty : Nat → Prop} {R : Unit → World → Prop}
    (hx : b.sector < a.start) (hdraw : Redraws g w b.sector b.data m dirty)
    (hroom : Room a E w.logged.card) (htrans : w.InTrans E)
    (h : R () { w with image := m, dirty := dirty, logged := insert b.sector w.logged }) :
    Takes g C E (logWrite a b) w R := by
  apply takes_atomic
  intro s hat _
  have hn := hat.log.n_le
  have hslot : s.locked (a.start + logSlot s.n s.sector b.sector + 1) = false := by
    rw [← Bool.not_eq_true, hat.locked]
    intro hmem
    have hlt := hat.valid.held _ hmem
    omega
  by_cases hbig : LOGSIZE ≤ s.n ∨ a.size ≤ s.n + 1
  · refine ⟨fun r t ht => by simp [hbig] at ht, fun x hxx => ?_⟩
    obtain rfl : Halt.panic "too big a transaction" = x := by simpa [hbig] using hxx
    rcases hroom with hE | hroom
    · exact hE
    · omega
  by_cases hnone : s.trans.isNone = true
  · refine ⟨fun r t ht => by simp [hbig, hnone] at ht, fun x hxx => ?_⟩
    obtain rfl : Halt.panic "write outside of trans" = x := by simpa [hbig, hnone] using hxx
    rcases htrans with hE | hsome
    · exact hE
    · rw [← hat.trans, Option.isSome_iff_ne_none] at hsome
      exact absurd (by simpa using hnone) hsome
  simp only [hbig, hnone, hslot, if_false, Bool.false_eq_true]
  refine ⟨fun r t ht => ?_, nofun⟩
  obtain rfl : _ = t := by simpa using ht
  have hvalid : World.Valid g
      { w with image := m, dirty := dirty, logged := insert b.sector w.logged } := by
    refine { hat.valid with fits := hdraw.fits, reserved := hdraw.reserved, logged := ?_ }
    intro y hy
    rcases Finset.mem_insert.1 hy with rfl | hy
    · exact hx
    · exact hat.valid.logged y hy
  have hhome : ∀ y < a.start, Shows g m dirty y
      (Function.update (Function.update s.disk b.sector b.data)
        (a.start + logSlot s.n s.sector b.sector + 1) b.data y) := by
    intro y hy
    rw [Function.update_of_ne (by omega)]
    by_cases hy' : y = b.sector
    · rw [hy', Function.update_self]
      exact hdraw.here
    · rw [Function.update_of_ne hy']
      exact hdraw.others y hy hy' _ (hat.home y hy)
  exact ⟨_, { hat with
    valid := hvalid
    home := hhome
    copy := fun e href hval => (hat.copy e href hval).trans (hdraw.copy e href hval)
    log := hat.log.write hat.valid.logged hx b.data }, h⟩

theorem takes_beginTrans {p : Slot} {R : Unit → World → Prop} (hblock : E .block ∨ w.trans = none)
    (h : w.trans = none → R () { w with trans := some p }) :
    Takes g C E (beginTrans p) w R := by
  apply takes_atomic
  intro s hat _
  rw [hat.trans]
  by_cases hsome : w.trans.isSome = true
  · refine ⟨fun r t ht => by simp [hsome] at ht, fun x hx => ?_⟩
    obtain rfl : Halt.block = x := by simpa [hsome] using hx
    rcases hblock with hE | hnone
    · exact hE
    · simp [hnone] at hsome
  · simp only [hsome, if_false, Bool.false_eq_true]
    refine ⟨fun r t ht => ?_, nofun⟩
    obtain rfl : _ = t := by simpa using ht
    have hnone : w.trans = none := by simpa using hsome
    have hvalid : World.Valid g { w with trans := some p } := { hat.valid with }
    exact ⟨_, { hat with valid := hvalid, trans := rfl }, h hnone⟩

theorem installTrans_eq {sector : Nat → Nat} {d : Nat → Block} {k : Nat}
    (hcopy : ∀ j < k, d (a.start + j + 1) = d (sector j)) :
    installTrans a sector k d = d := by
  induction k with
  | zero => rfl
  | succ k ih =>
    rw [Files.installTrans, ih fun j hj => hcopy j (by omega), hcopy k (by omega)]
    exact Function.update_eq_self _ _

theorem takes_commitTrans {R : Unit → World → Prop} (hheld : w.held = ∅)
    (h : R () { w with logged := ∅, trans := none }) : Takes g C E (commitTrans a) w R := by
  apply takes_atomic
  intro s hat _
  have hopen : ∀ x, s.locked x = false := by
    intro x
    rw [← Bool.not_eq_true, hat.locked, hheld]
    exact Finset.notMem_empty x
  have hcan : s.canCommit a = true := by simp [FsState.canCommit, hopen]
  have hvalid : World.Valid g { w with logged := ∅, trans := none } :=
    { hat.valid with logged := by simp }
  have hlog : ∀ sector d, Logged a 0 sector d ∅ := fun _ _ =>
    ⟨by simp, by simp, by simp⟩
  by_cases hn : 0 < s.n
  · simp only [hn, hcan, if_true]
    refine ⟨fun r t ht => ?_, nofun⟩
    obtain rfl : _ = t := by simpa using ht
    have hcopy : ∀ j < s.n, writeHead a s.n s.sector s.disk (a.start + j + 1) =
        writeHead a s.n s.sector s.disk (s.sector j) := by
      intro j hj
      have hhome := hat.valid.logged _ (hat.log.mem j hj)
      unfold Files.writeHead
      rw [Function.update_of_ne (by omega), Function.update_of_ne (by omega)]
      exact hat.log.copy j hj
    have hhome : ∀ x < a.start, Shows g w.image w.dirty x (writeHead a 0 s.sector
        (installTrans a s.sector s.n (writeHead a s.n s.sector s.disk)) x) := by
      intro x hx
      rw [installTrans_eq hcopy]
      unfold Files.writeHead
      rw [Function.update_of_ne (by omega), Function.update_of_ne (by omega)]
      exact hat.home x hx
    exact ⟨_, { hat with valid := hvalid, home := hhome, trans := rfl, log := hlog _ _ }, h⟩
  · simp only [hn, if_false]
    refine ⟨fun r t ht => ?_, nofun⟩
    obtain rfl : _ = t := by simpa using ht
    have hzero : s.n = 0 := by omega
    refine ⟨_, { hat with valid := hvalid, trans := rfl, log := ?_ }, h⟩
    change Logged a s.n s.sector s.disk ∅
    rw [hzero]
    exact hlog _ _

/-! ## The inode cache -/

def World.setKey (w : World) (e : Entry) (k : Key) : World :=
  { w with key := Function.update w.key e k }

def World.setNode (w : World) (i : Nat) (d : Dinode) : World :=
  { w with
    image := { w.image with node := Function.update w.image.node i d }
    dirty := fun j => j = i ∨ w.dirty j }

theorem At.setKey {s : FsState} (hat : At g s w) (e : Entry) (ip : Inode)
    (hkeyed : Keyed g (Function.update w.key e (Key.of ip)))
    (hcopy : 0 < ip.ref → ip.valid = true → Same ip.copy (w.image.node ip.inum)) :
    At g (s.setInode e ip) (w.setKey e (Key.of ip)) := by
  have hvalid : World.Valid g (w.setKey e (Key.of ip)) := { hat.valid with keyed := hkeyed }
  refine { hat with valid := hvalid, key := fun e' => ?_, copy := fun e' href hval => ?_ }
  · simp only [FsState.setInode, World.setKey]
    by_cases he : e' = e
    · rw [he, Function.update_self, Function.update_self]
    · rw [Function.update_of_ne he, Function.update_of_ne he]
      exact hat.key e'
  · simp only [FsState.setInode, World.setKey] at href hval ⊢
    by_cases he : e' = e
    · rw [he, Function.update_self] at href hval ⊢
      rw [Function.update_self]
      exact hcopy href hval
    · rw [Function.update_of_ne he] at href hval ⊢
      rw [Function.update_of_ne he]
      exact hat.copy e' href hval

theorem Keyed.update {key : Entry → Key} (h : Keyed g key) {e : Entry} {k : Key}
    (hk : 0 < k.ref → 0 < (key e).ref ∧ k.dev = (key e).dev ∧ k.inum = (key e).inum) :
    Keyed g (Function.update key e k) := by
  have hold : ∀ e', 0 < (Function.update key e k e').ref → 0 < (key e').ref ∧
      (Function.update key e k e').dev = (key e').dev ∧
      (Function.update key e k e').inum = (key e').inum := by
    intro e' href
    by_cases he : e' = e
    · subst he
      rw [Function.update_self] at href ⊢
      exact hk href
    · rw [Function.update_of_ne he] at href ⊢
      exact ⟨href, rfl, rfl⟩
  refine ⟨fun e' href => ?_, fun e' href => ?_, fun e₁ e₂ h₁ h₂ hinum => ?_⟩
  · obtain ⟨hpos, hdev, _⟩ := hold e' href
    exact hdev.trans (h.dev e' hpos)
  · obtain ⟨hpos, _, hinum⟩ := hold e' href
    exact hinum ▸ h.inum e' hpos
  · obtain ⟨hpos₁, _, hinum₁⟩ := hold e₁ h₁
    obtain ⟨hpos₂, _, hinum₂⟩ := hold e₂ h₂
    exact h.unique e₁ e₂ hpos₁ hpos₂ (by rw [← hinum₁, ← hinum₂, hinum])

theorem Keyed.take {key : Entry → Key} (h : Keyed g key) {e : Entry} {k : Key}
    (hdev : k.dev = ROOTDEV) (hinum : k.inum < g.sb.ninodes)
    (hnew : ∀ e', 0 < (key e').ref → (key e').inum ≠ k.inum) :
    Keyed g (Function.update key e k) := by
  have hcases : ∀ e', 0 < (Function.update key e k e').ref →
      (e' = e ∧ Function.update key e k e' = k) ∨
        (e' ≠ e ∧ Function.update key e k e' = key e' ∧ 0 < (key e').ref) := by
    intro e' href
    by_cases he : e' = e
    · subst he
      exact .inl ⟨rfl, Function.update_self _ _ _⟩
    · rw [Function.update_of_ne he] at href ⊢
      exact .inr ⟨he, rfl, href⟩
  refine ⟨fun e' href => ?_, fun e' href => ?_, fun e₁ e₂ h₁ h₂ heq => ?_⟩
  · rcases hcases e' href with ⟨_, hk⟩ | ⟨_, hk, hpos⟩
    · rw [hk, hdev]
    · rw [hk, h.dev e' hpos]
  · rcases hcases e' href with ⟨_, hk⟩ | ⟨_, hk, hpos⟩
    · rwa [hk]
    · rw [hk]
      exact h.inum e' hpos
  · rcases hcases e₁ h₁ with ⟨he₁, hk₁⟩ | ⟨_, hk₁, hpos₁⟩ <;>
      rcases hcases e₂ h₂ with ⟨he₂, hk₂⟩ | ⟨_, hk₂, hpos₂⟩
    · rw [he₁, he₂]
    · rw [hk₁, hk₂] at heq
      exact absurd heq.symm (hnew e₂ hpos₂)
    · rw [hk₁, hk₂] at heq
      exact absurd heq (hnew e₁ hpos₁)
    · rw [hk₁, hk₂] at heq
      exact h.unique e₁ e₂ hpos₁ hpos₂ heq

section Entry

variable {e : Entry}

theorem takes_getKey {f : Inode → α} (f' : Key → α) (hf : ∀ ip, f ip = f' (Key.of ip))
    (h : R (f' (w.key e)) w) : Takes g C E (get fun s => f (s.icache e)) w R := by
  apply takes_get
  intro s hat
  rwa [hf, hat.key e]

theorem takes_getCopy {f : Dinode → α} (href : 0 < (w.key e).ref)
    (hval : (w.key e).valid = true)
    (h : ∀ d, Same d (w.image.node (w.key e).inum) → R (f d) w) :
    Takes g C E (getCopy e f) w R :=
  takes_get fun _ hat => h _ (hat.copy e href hval)

theorem takes_setCopy {f : Dinode → Dinode} {R : Unit → World → Prop} (href : 0 < (w.key e).ref)
    (hval : (w.key e).valid = true) (hf : ∀ d d', Same d d' → Same (f d) (f d'))
    (hfits : Fits (f (w.image.node (w.key e).inum)))
    (h : R () (w.setNode (w.key e).inum (f (w.image.node (w.key e).inum)))) :
    Takes g C E (setCopy e f) w R := by
  apply takes_put ?_ h
  intro s hat
  have hvalid : World.Valid g
      (w.setNode (w.key e).inum (f (w.image.node (w.key e).inum))) := by
    refine { hat.valid with fits := fun i hi => ?_ }
    simp only [World.setNode]
    by_cases hie : i = (w.key e).inum
    · rw [hie, Function.update_self]
      exact hfits
    · rw [Function.update_of_ne hie]
      exact hat.valid.fits i hi
  refine { hat with
    valid := hvalid
    home := fun x hx => { hat.home x hx with inode := fun i hi hx hclean => ?_ }
    key := fun e' => ?_
    copy := fun e' href' hval' => ?_ }
  · have hne : i ≠ (w.key e).inum := fun heq => hclean (.inl heq)
    simp only [World.setNode, Function.update_of_ne hne]
    exact (hat.home _ (hx ▸ (Layout.iblock_lt_first hi).trans_le g.first_le)).inode i hi hx
      fun hdirty => hclean (.inr hdirty)
  · apply Eq.trans _ (hat.key e')
    simp only [FsState.setInode]
    by_cases he : e' = e
    · rw [he, Function.update_self]
      rfl
    · rw [Function.update_of_ne he]
  · have href'' : 0 < (w.key e').ref := href'
    have hval'' : (w.key e').valid = true := hval'
    simp only [FsState.setInode, World.setNode]
    by_cases he : e' = e
    · rw [he, Function.update_self, Function.update_self]
      exact hf _ _ (hat.copy e href hval)
    · have hne : (w.key e').inum ≠ (w.key e).inum := fun heq =>
        he (hat.valid.keyed.unique e' e href'' href heq)
      rw [Function.update_of_ne he, Function.update_of_ne hne]
      exact hat.copy e' href'' hval''

def World.refer (w : World) (e : Entry) (n : Int) : World :=
  w.setKey e { w.key e with ref := (w.key e).ref + n }

/-- `iget` has found the inode in the cache, or has taken a free entry for it. -/
inductive World.Gets (w : World) (e : Entry) (inum : Nat) : World → Prop
  | cached (href : 0 < (w.key e).ref) (hinum : (w.key e).inum = inum) :
      w.Gets e inum (w.refer e 1)
  | taken (href : (w.key e).ref = 0) (hnew : ∀ e', 0 < (w.key e').ref → (w.key e').inum ≠ inum) :
      w.Gets e inum (w.setKey e ⟨ROOTDEV, inum, 1, false, false⟩)

theorem At.refer {s : FsState} (hat : At g s w) (href : 0 < (w.key e).ref) (n : Int) :
    At g (s.setInode e { s.icache e with ref := (s.icache e).ref + n }) (w.refer e n) := by
  have hkey : Key.of { s.icache e with ref := (s.icache e).ref + n } =
      { w.key e with ref := (w.key e).ref + n } := by
    rw [← hat.key e]
    rfl
  unfold World.refer
  rw [← hkey]
  apply hat.setKey
  · rw [hkey]
    exact hat.valid.keyed.update fun _ => ⟨href, rfl, rfl⟩
  · intro _ hval
    have hkey' := hat.key e
    have hcopy := hat.copy e href (by rw [← hkey']; exact hval)
    rw [← hkey'] at hcopy
    exact hcopy

theorem takes_igetFor {l : Act} {inum : Nat} {R : Entry → World → Prop}
    (hinum : inum < g.sb.ninodes) (hfull : E (.panic "iget: no inodes") ∨ ∃ e, (w.key e).ref = 0)
    (h : ∀ s e w', At g s w → C l s → w.Gets e inum w' → R e w') :
    Takes g C E (igetFor l ROOTDEV inum) w R := by
  apply takes_atomic
  intro s hat hC
  have href : ∀ e, (s.icache e).ref = (w.key e).ref := fun e => by rw [← hat.key e]; rfl
  have hdev : ∀ e, (s.icache e).dev = (w.key e).dev := fun e => by rw [← hat.key e]; rfl
  have hinum' : ∀ e, (s.icache e).inum = (w.key e).inum := fun e => by rw [← hat.key e]; rfl
  cases hcached : s.cached ROOTDEV inum with
  | some e =>
    refine ⟨fun r t ht => ?_, nofun⟩
    obtain ⟨rfl, rfl⟩ : e = r ∧ _ = t := by simpa using ht
    have hfound := List.find?_some hcached
    simp only [decide_eq_true_eq, href, hdev, hinum'] at hfound
    exact ⟨_, hat.refer hfound.1 1, h s e _ hat hC (.cached hfound.1 hfound.2.2)⟩
  | none =>
    have hnew : ∀ e, 0 < (w.key e).ref → (w.key e).inum ≠ inum := by
      intro e hpos heq
      have hno := List.find?_eq_none.1 hcached e (List.mem_finRange e)
      simp only [decide_eq_true_eq, href, hdev, hinum'] at hno
      exact hno ⟨hpos, hat.valid.keyed.dev e hpos, heq⟩
    cases hempty : s.empty with
    | none =>
      refine ⟨nofun, fun x hx => ?_⟩
      obtain rfl : Halt.panic "iget: no inodes" = x := by simpa using hx
      rcases hfull with hE | ⟨e, hzero⟩
      · exact hE
      · have hno := List.find?_eq_none.1 hempty e (List.mem_finRange e)
        simp [href, hzero] at hno
    | some e =>
      refine ⟨fun r t ht => ?_, nofun⟩
      obtain ⟨rfl, rfl⟩ : e = r ∧ _ = t := by simpa using ht
      have hzero := List.find?_some hempty
      simp only [decide_eq_true_eq, href] at hzero
      refine ⟨_, hat.setKey e _ ?_ nofun, h s e _ hat hC (.taken hzero hnew)⟩
      exact hat.valid.keyed.take rfl hinum hnew

theorem At.flag {s : FsState} (hat : At g s w) (href : 0 < (w.key e).ref) (busy : Bool) :
    At g (s.setInode e { s.icache e with busy := busy })
      (w.setKey e { w.key e with busy := busy }) := by
  have hkey : Key.of { s.icache e with busy := busy } = { w.key e with busy := busy } := by
    rw [← hat.key e]
    rfl
  rw [← hkey]
  apply hat.setKey
  · rw [hkey]
    exact hat.valid.keyed.update fun _ => ⟨href, rfl, rfl⟩
  · intro _ hval
    have hkey' := hat.key e
    have hcopy := hat.copy e href (by rw [← hkey']; exact hval)
    rw [← hkey'] at hcopy
    exact hcopy

def World.lock (w : World) (e : Entry) (busy : Bool) : World :=
  w.setKey e { w.key e with busy := busy }

theorem takes_ilockBusy {R : Unit → World → Prop} (href : 0 < (w.key e).ref)
    (hbusy : E .block ∨ (w.key e).busy = false)
    (h : (w.key e).busy = false → R () (w.lock e true)) : Takes g C E (ilockBusy e) w R := by
  apply takes_atomic
  intro s hat _
  have href' : ¬ (s.icache e).ref < 1 := by
    have hpos : 0 < (Key.of (s.icache e)).ref := hat.key e ▸ href
    have hsame : (Key.of (s.icache e)).ref = (s.icache e).ref := rfl
    omega
  have hbusy' : (s.icache e).busy = (w.key e).busy := by
    rw [← hat.key e]
    rfl
  simp only [href', if_false, hbusy']
  cases hb : (w.key e).busy with
  | true =>
    refine ⟨nofun, fun x hx => ?_⟩
    obtain rfl : Halt.block = x := by simpa using hx
    rcases hbusy with hE | hfree
    · exact hE
    · rw [hfree] at hb
      exact absurd hb (by simp)
  | false =>
    refine ⟨fun r t ht => ?_, nofun⟩
    obtain rfl : _ = t := by simpa using ht
    exact ⟨_, hat.flag href true, h hb⟩

theorem takes_iunlock {R : Unit → World → Prop} (href : 0 < (w.key e).ref)
    (hbusy : (w.key e).busy = true) (h : R () (w.lock e false)) :
    Takes g C E (iunlock e) w R := by
  apply takes_atomic
  intro s hat _
  have hkey := hat.key e
  have hcond : ¬ ((s.icache e).busy = false ∨ (s.icache e).ref < 1) := by
    have hpos : 0 < (Key.of (s.icache e)).ref := hkey ▸ href
    have hb : (Key.of (s.icache e)).busy = true := hkey ▸ hbusy
    simp only [Key.of] at hpos hb
    simp only [hb, Bool.true_eq_false, false_or]
    omega
  simp only [hcond, if_false]
  refine ⟨fun r t ht => ?_, nofun⟩
  obtain rfl : _ = t := by simpa using ht
  exact ⟨_, hat.flag href false, h⟩

end Entry

end Xv6.Volume
