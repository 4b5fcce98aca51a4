import Xv6.Fs.CacheInv

/-!
# Coherence of the buffer cache

Every step of a process keeps the invariant, so in every run `bread` returns the contents
of the sector and nobody else has the buffer.
-/

namespace Xv6.Fs.Bcache

open Xv6.Lib

variable {P : Type}

namespace State

variable {s t : State P} {l : List Index} {p q : P} {b : Index} {c : Pc} {x : Buffer}

section

variable [DecidableEq P]

/-! ## The steps -/

theorem Inv.goto (h : s.Inv l) (hin : c.Inside → (s.pc p).Inside)
    (hvalid : ∀ b, s.held p b = true → (s.buf b).valid = true ∨ c.Pending b)
    (hknows : c.Knows s.buf (s.held p) l) : (s.goto p c).Inv l :=
  h.move s.lock (fun hc => h.lock p (hin hc)) (fun q _ => h.lock q) hvalid hknows

theorem Inv.acquire (h : s.Inv l) (hpc : ∀ y, ¬ (s.pc p).Pending y)
    (hknows : c.Knows s.buf (s.held p) l) (ht : s.acquire p c = some t) : t.Inv l := by
  unfold State.acquire at ht
  split_ifs at ht with hlock
  have hnone : s.lock = none := Option.isNone_iff_eq_none.1 hlock
  obtain rfl := Option.some.inj ht
  apply h.move
  · exact fun _ => rfl
  · exact fun q hq hin => absurd hin (h.outside (.inr hnone) hq)
  · exact fun b hb => .inl (h.valid_of_pc hb (hpc b))
  · exact hknows

theorem getD_none_map_some {α : Type} (o : Option α) : (o.map some).getD none = o := by
  cases o with
  | none => rfl
  | some a => rfl

omit [DecidableEq P] in
theorem Inv.knows_first (h : s.Inv l) (dev sector : UInt32) :
    (Pc.look dev sector (s.links.next none)).Knows s.buf (s.held p) l := by
  refine ⟨[], l, rfl, ?_, fun _ hy => absurd hy List.not_mem_nil⟩
  rw [h.circle.next_head, List.head?_map, getD_none_map_some]

omit [DecidableEq P] in
theorem Inv.knows_next (h : s.Inv l) {dev sector : UInt32}
    (hknows : (Pc.look dev sector (some b)).Knows s.buf (s.held p) l)
    (hne : (s.buf b).key ≠ (dev, sector)) :
    (Pc.look dev sector (s.links.next (some b))).Knows s.buf (s.held p) l := by
  obtain ⟨pre, rest, hl, hb, hpre⟩ := hknows
  obtain ⟨rest', rfl⟩ := List.head?_eq_some_iff.1 hb.symm
  refine ⟨pre ++ [b], rest', ?_, ?_, ?_⟩
  · rw [hl, List.append_assoc, List.singleton_append]
  · have hcircle := h.circle
    rw [hl, List.map_append, List.map_cons] at hcircle
    rw [hcircle.next_mem, List.head?_map, getD_none_map_some]
  · intro y hy
    rcases List.mem_append.1 hy with hy | hy
    · exact hpre y hy
    · rw [List.mem_singleton.1 hy]
      exact hne

theorem Inv.look (h : s.Inv l) {dev sector : UInt32} {n : Node}
    (hpc : s.pc p = .look dev sector n) : (s.look p dev sector n).Inv l := by
  have hknows := h.knows p
  rw [hpc] at hknows
  have hlock : s.lock = some p := h.lock p (by rw [hpc]; trivial)
  have hpend : ∀ y, ¬ (s.pc p).Pending y := by
    rw [hpc]
    exact fun _ => id
  have hvalid : ∀ b, s.held p b = true → (s.buf b).valid = true := fun b hb =>
    h.valid_of_pc hb (hpend b)
  cases n with
  | none =>
    obtain ⟨pre, rest, hl, hb, hpre⟩ := hknows
    obtain rfl : rest = [] := List.head?_eq_none_iff.1 hb.symm
    apply h.goto
    · rw [hpc]
      exact id
    · exact fun b hb => .inl (hvalid b hb)
    · intro y
      apply hpre y
      rw [List.append_nil] at hl
      exact hl ▸ h.mem y
  | some b =>
    simp only [State.look]
    split_ifs with hkey hfree
    · obtain ⟨pre, rest, hl, hb, hpre⟩ := hknows
      obtain ⟨rest', rfl⟩ := List.head?_eq_some_iff.1 hb.symm
      obtain ⟨rfl, rfl⟩ := hkey
      exact h.hit hlock hpend hfree hl hpre
    · apply h.move
      · exact fun hin => hin.elim
      · exact fun q hq hin => absurd hin (h.outside (.inl hlock) hq)
      · exact fun b hb => .inl (hvalid b hb)
      · trivial
    · apply h.goto
      · rw [hpc]
        exact id
      · exact fun b hb => .inl (hvalid b hb)
      · apply h.knows_next hknows
        exact fun heq => hkey (Prod.mk.inj heq)

theorem Inv.recycle (h : s.Inv l) {dev sector : UInt32} {n : Node}
    (hpc : s.pc p = .recycle dev sector n) (ht : s.recycle p dev sector n = some t) :
    t.Inv l := by
  have hknows := h.knows p
  rw [hpc] at hknows
  have hlock : s.lock = some p := h.lock p (by rw [hpc]; trivial)
  have hpend : ∀ y, ¬ (s.pc p).Pending y := by
    rw [hpc]
    exact fun _ => id
  cases n with
  | none => cases ht
  | some b =>
    simp only [State.recycle] at ht
    split_ifs at ht with hfree hvalid
    · obtain rfl := Option.some.inj ht
      refine h.recycled hlock hpend hfree.1 hknows rfl rfl rfl rfl ?_ ?_
      · intro k hk
        exact if_neg (hk hvalid)
      · exact fun _ => if_pos rfl
    · obtain rfl := Option.some.inj ht
      refine h.recycled hlock hpend hfree.1 hknows rfl rfl rfl rfl ?_ ?_
      · exact fun _ _ => rfl
      · exact fun hval => absurd hval hvalid
    · obtain rfl := Option.some.inj ht
      apply h.goto
      · rw [hpc]
        exact id
      · exact fun b hb => .inl (h.valid_of_pc hb (hpend b))
      · exact hknows

omit [DecidableEq P] in
theorem Inv.stored_eq_none (h : s.Inv l) (hb : s.held p b = true)
    (hvalid : (s.buf b).valid = false) : s.stored (s.buf b).dev (s.buf b).sector = none := by
  apply h.unread
  intro y hy heq
  have hyb : y = b := by
    apply h.unique y b _ _ heq
    · intro hfr
      rw [hfr.2] at hy
      cases hy
    · intro hfr
      have hbusy := h.busy p b hb
      rw [hfr.1] at hbusy
      cases hbusy
  rw [hyb, hvalid] at hy
  cases hy

omit [DecidableEq P] in
theorem edit_setBuf (s : State P) (p : P) (b : Index) (x : Buffer) :
    Edit s (s.setBuf b x) p b x :=
  ⟨rfl, rfl, rfl, fun _ _ => rfl, rfl, fun _ _ _ => rfl, fun _ _ _ => rfl⟩

theorem Edit.goto (e : Edit s t p b x) (c : Pc) : Edit s (t.goto p c) p b x :=
  { e with pc := fun q hq => (Function.update_of_ne hq ..).trans (e.pc q hq) }

omit [DecidableEq P] in
theorem Edit.setDisk (e : Edit s t p b x) (d : Block) :
    Edit s (t.setDisk (s.buf b).key d) p b x :=
  { e with disk := fun dev sector hne => (if_neg hne).trans (e.disk dev sector hne) }

omit [DecidableEq P] in
theorem Edit.setStored (e : Edit s t p b x) (d : Option Block) :
    Edit s (t.setStored (s.buf b).key d) p b x :=
  { e with stored := fun dev sector hne => (if_neg hne).trans (e.stored dev sector hne) }

theorem pc_goto (s : State P) (p : P) (c : Pc) : (s.goto p c).pc p = c :=
  Function.update_self ..

theorem Inv.serve_reading (h : s.Inv l) {dev sector : UInt32}
    (hpc : s.pc p = .reading dev sector b) :
    ((s.serve b).goto p (.back dev sector b)).Inv l := by
  have hknows := h.knows p
  rw [hpc] at hknows
  obtain ⟨hb, hkey, hvalid, hdirty⟩ := hknows
  have hserve : s.serve b = s.setBuf b
      { s.buf b with
        data := s.disk (s.buf b).dev (s.buf b).sector
        valid := true
        dirty := false } := if_neg (by rw [hdirty]; exact Bool.false_ne_true)
  rw [hserve]
  have hedit := (edit_setBuf s p b { s.buf b with
    data := s.disk (s.buf b).dev (s.buf b).sector
    valid := true
    dirty := false }).goto (.back dev sector b)
  refine h.edit hedit hb (h.busy p b hb) rfl rfl ?_ ?_ ?_ ?_
  · show _ = Option.getD (s.stored (s.buf b).dev (s.buf b).sector) _
    rw [h.stored_eq_none hb hvalid]
    rfl
  · rw [pc_goto]
    exact id
  · rw [hpc]
    exact fun y hy heq => hy heq.symm
  · rw [pc_goto, Pc.Knows, hedit.buf_self]
    exact ⟨hb, hkey, rfl⟩

theorem Inv.serve_writing (h : s.Inv l) (hpc : s.pc p = .writing b) :
    ((s.serve b).goto p .idle).Inv l := by
  have hknows := h.knows p
  rw [hpc] at hknows
  obtain ⟨hb, hdirty⟩ := hknows
  have hvalid : (s.buf b).valid = true := h.valid_of_pc hb (by rw [hpc]; exact id)
  have hserve : s.serve b = (s.setDisk (s.buf b).key (s.buf b).data).setBuf b
      { s.buf b with valid := true, dirty := false } := if_pos hdirty
  rw [hserve]
  have hedit := ((edit_setBuf s p b { s.buf b with valid := true, dirty := false }).setDisk
    (s.buf b).data).goto .idle
  refine h.edit hedit hb (h.busy p b hb) rfl rfl ?_ ?_ ?_ ?_
  · have hdata := h.contents b hvalid
    show (s.buf b).data = Option.getD (s.stored (s.buf b).dev (s.buf b).sector) (if _ then _ else _)
    rw [if_pos rfl]
    cases hst : s.stored (s.buf b).dev (s.buf b).sector with
    | none => rfl
    | some d =>
      rw [hdata]
      show Option.getD (s.stored (s.buf b).dev (s.buf b).sector) _ = d
      rw [hst]
      rfl
  · rw [pc_goto]
    exact id
  · rw [hpc]
    exact fun y _ => id
  · rw [pc_goto]
    trivial

theorem Inv.step (h : s.Inv l) (ht : s.step p = some t) : ∃ l', t.Inv l' := by
  have hknows := h.knows p
  unfold State.step at ht
  split at ht
  case h_1 => cases ht
  case h_2 dev sector hpc =>
    exact ⟨l, h.acquire (by rw [hpc]; exact fun _ => id) (h.knows_first dev sector) ht⟩
  case h_3 dev sector b hpc =>
    exact ⟨l, h.acquire (by rw [hpc]; exact fun _ => id) (h.knows_first dev sector) ht⟩
  case h_4 dev sector n hpc =>
    obtain rfl := Option.some.inj ht
    exact ⟨l, h.look hpc⟩
  case h_5 dev sector n hpc => exact ⟨l, h.recycle hpc ht⟩
  case h_6 dev sector b hpc =>
    rw [hpc] at hknows
    have hin : ∀ c : Pc, ¬ c.Inside → c.Inside → (s.pc p).Inside := fun _ hnot hc =>
      absurd hc hnot
    have hother : ∀ y, s.held p y = true → y ≠ b → (s.buf y).valid = true := by
      intro y hy hyb
      apply h.valid_of_pc hy
      rw [hpc]
      exact fun heq => hyb heq.symm
    split_ifs at ht with hvalid
    · obtain rfl := Option.some.inj ht
      refine ⟨l, h.goto (hin _ id) ?_ ⟨hknows.1, hknows.2, hvalid⟩⟩
      intro y hy
      by_cases hyb : y = b
      · exact .inl (hyb ▸ hvalid)
      · exact .inl (hother y hy hyb)
    · unfold State.iderw at ht
      split_ifs at ht
      obtain rfl := Option.some.inj ht
      have hfalse : (s.buf b).valid = false := Bool.eq_false_of_not_eq_true hvalid
      refine ⟨l, h.goto (hin _ id) ?_ ⟨hknows.1, hknows.2, hfalse, h.clean b hfalse⟩⟩
      intro y hy
      by_cases hyb : y = b
      · exact .inr hyb.symm
      · exact .inl (hother y hy hyb)
  case h_7 dev sector b hpc =>
    obtain rfl := Option.some.inj ht
    exact ⟨l, h.serve_reading hpc⟩
  case h_8 dev sector b hpc =>
    obtain rfl := Option.some.inj ht
    refine ⟨l, h.goto (fun hc => hc.elim) ?_ trivial⟩
    exact fun y hy => .inl (h.valid_of_pc hy (by rw [hpc]; exact id))
  case h_9 b hpc =>
    obtain rfl := Option.some.inj ht
    exact ⟨l, h.serve_writing hpc⟩
  case h_10 b hpc =>
    rw [hpc] at hknows
    exact ⟨l, h.acquire (c := .relink b) (by rw [hpc]; exact fun _ => id) hknows ht⟩
  case h_11 b hpc =>
    rw [hpc] at hknows
    obtain rfl := Option.some.inj ht
    exact h.release (h.lock p (by rw [hpc]; trivial)) (by rw [hpc]; exact fun _ => id) hknows

omit [DecidableEq P] in
theorem Inv.edit_idle (h : s.Inv l) (huses : s.Uses p b) (e : Edit s t p b x)
    (hbusy : x.busy = (s.buf b).busy) (hvalid : x.valid = (s.buf b).valid)
    (hkey : x.key = (s.buf b).key) (hdata : x.data = t.content (s.buf b).key)
    (hin : ¬ (t.pc p).Inside) (hknows : (t.pc p).Knows t.buf (t.held p) l) : t.Inv l := by
  obtain ⟨hpc, hb⟩ := huses
  have hpend : ∀ y, ¬ (s.pc p).Pending y := by
    rw [hpc]
    exact fun _ => id
  exact h.edit e hb (hbusy.trans (h.busy p b hb)) (hvalid.trans (h.valid_of_pc hb (hpend b)))
    hkey hdata hin (fun y _ => hpend y) hknows

omit [DecidableEq P] in
theorem Inv.data_eq (h : s.Inv l) (huses : s.Uses p b) :
    (s.buf b).data = s.content (s.buf b).key :=
  h.contents b (h.valid_of_pc huses.2 (by rw [huses.1]; exact id))

theorem Inv.next (h : s.Inv l) {e : Label P} (ht : s.next e = some t) : ∃ l', t.Inv l' := by
  cases e with
  | step p => exact h.step ht
  | bread p dev sector =>
    simp only [State.next] at ht
    split_ifs at ht with hpc
    obtain rfl := Option.some.inj ht
    refine ⟨l, h.goto (fun hc => hc.elim) ?_ trivial⟩
    exact fun y hy => .inl (h.valid_of_pc hy (by rw [hpc]; exact id))
  | store p b data =>
    simp only [State.next] at ht
    split_ifs at ht with huses
    obtain rfl := Option.some.inj ht
    have hedit := (edit_setBuf s p b { s.buf b with data := data }).setStored (some data)
    refine ⟨l, h.edit_idle huses hedit rfl rfl rfl ?_ ?_ ?_⟩
    · show data = Option.getD (if _ then _ else _) _
      rw [if_pos rfl]
      rfl
    · show ¬ (s.pc p).Inside
      rw [huses.1]
      exact id
    · show (s.pc p).Knows _ _ l
      rw [huses.1]
      trivial
  | bwrite p b =>
    simp only [State.next] at ht
    split_ifs at ht with huses
    unfold State.iderw at ht
    split_ifs at ht
    obtain rfl := Option.some.inj ht
    have hedit := (edit_setBuf s p b { s.buf b with dirty := true }).goto (.writing b)
    refine ⟨l, h.edit_idle huses.1 hedit rfl rfl rfl (h.data_eq huses.1) ?_ ?_⟩
    · rw [pc_goto]
      exact id
    · rw [pc_goto, Pc.Knows, hedit.buf_self]
      exact ⟨huses.1.2, rfl⟩
  | logWrite p b =>
    simp only [State.next] at ht
    split_ifs at ht with huses
    obtain rfl := Option.some.inj ht
    have hedit := edit_setBuf s p b { s.buf b with dirty := true }
    refine ⟨l, h.edit_idle huses hedit rfl rfl rfl (h.data_eq huses) ?_ ?_⟩
    · show ¬ (s.pc p).Inside
      rw [huses.1]
      exact id
    · show (s.pc p).Knows _ _ l
      rw [huses.1]
      trivial
  | brelse p b =>
    simp only [State.next] at ht
    split_ifs at ht with huses
    obtain rfl := Option.some.inj ht
    refine ⟨l, h.goto (fun hc => hc.elim) ?_ huses.1.2⟩
    exact fun y hy => .inl (h.valid_of_pc hy (by rw [huses.1.1]; exact id))

end

end State

section

variable [DecidableEq P] {disk : UInt32 → UInt32 → Block} {s : State P}

theorem inv_of_reachable (h : (machine P disk).Reachable s) : ∃ l, s.Inv l := by
  refine Machine.Reach.invariant (I := fun s => ∃ l, s.Inv l) ?_ ?_ h
  · rintro _ rfl
    exact ⟨_, State.inv_boot disk⟩
  · rintro s e t ⟨l, hl⟩ _ ht
    exact hl.next ht

/-- The buffer is still for the same sector, and has not become invalid. -/
def Buffer.Keeps (x y : Buffer) : Prop := y.key = x.key ∧ (x.valid = true → y.valid = true)

omit [DecidableEq P] in
theorem keeps_setBuf {b c : Index} {x : Buffer} (h : (s.buf c).Keeps x) :
    (s.buf b).Keeps ((s.setBuf c x).buf b) := by
  show (s.buf b).Keeps (Function.update s.buf c x b)
  by_cases hbc : b = c
  · rw [hbc, Function.update_self]
    exact h
  · rw [Function.update_of_ne hbc]
    exact ⟨rfl, id⟩

omit [DecidableEq P] in
theorem keeps_serve {b c : Index} : (s.buf b).Keeps ((s.serve c).buf b) := by
  simp only [State.serve]
  split_ifs
  · exact keeps_setBuf (s := s.setDisk _ _) ⟨rfl, fun _ => rfl⟩
  · exact keeps_setBuf ⟨rfl, fun _ => rfl⟩

theorem State.step_keeps {t : State P} {p : P} {b : Index} (ht : s.step p = some t) :
    (s.buf b).Keeps (t.buf b) ∨ (s.buf b).busy = false ∧ (s.buf b).dirty = false := by
  have hsame : (s.buf b).Keeps (s.buf b) := ⟨rfl, id⟩
  have hacquire : ∀ c, s.acquire p c = some t → (s.buf b).Keeps (t.buf b) := by
    intro c hc
    unfold State.acquire at hc
    split_ifs at hc
    obtain rfl := Option.some.inj hc
    exact hsame
  unfold State.step at ht
  split at ht
  case h_1 => cases ht
  case h_2 | h_3 | h_10 => exact .inl (hacquire _ ht)
  case h_4 dev sector n hpc =>
    obtain rfl := Option.some.inj ht
    left
    cases n with
    | none => exact hsame
    | some c =>
      simp only [State.look]
      split_ifs
      · exact keeps_setBuf ⟨rfl, id⟩
      · exact hsame
      · exact hsame
  case h_5 dev sector n hpc =>
    cases n with
    | none => cases ht
    | some c =>
      simp only [State.recycle] at ht
      by_cases hbc : b = c
      · by_cases hfree : (s.buf c).busy = false ∧ (s.buf c).dirty = false
        · right
          rwa [hbc]
        · rw [if_neg hfree] at ht
          obtain rfl := Option.some.inj ht
          exact .inl hsame
      · left
        have hkeep : ∀ u : State P, ∀ x, u.buf = s.buf →
            (s.buf b).Keeps ((u.setBuf c x).buf b) := by
          intro u x hu
          show (s.buf b).Keeps (Function.update u.buf c x b)
          rw [Function.update_of_ne hbc, hu]
          exact hsame
        split_ifs at ht
        · obtain rfl := Option.some.inj ht
          exact hkeep (s.setStored _ _) _ rfl
        · obtain rfl := Option.some.inj ht
          exact hkeep s _ rfl
        · obtain rfl := Option.some.inj ht
          exact hsame
  case h_6 dev sector c hpc =>
    left
    split_ifs at ht
    · obtain rfl := Option.some.inj ht
      exact hsame
    · unfold State.iderw at ht
      split_ifs at ht
      obtain rfl := Option.some.inj ht
      exact hsame
  case h_7 | h_9 =>
    obtain rfl := Option.some.inj ht
    exact .inl keeps_serve
  case h_8 =>
    obtain rfl := Option.some.inj ht
    exact .inl hsame
  case h_11 =>
    obtain rfl := Option.some.inj ht
    exact .inl (keeps_setBuf ⟨rfl, id⟩)

theorem State.next_keeps {t : State P} {e : Label P} {b : Index} (ht : s.next e = some t) :
    (s.buf b).Keeps (t.buf b) ∨ (s.buf b).busy = false ∧ (s.buf b).dirty = false := by
  have hsame : (s.buf b).Keeps (s.buf b) := ⟨rfl, id⟩
  cases e with
  | step p => exact step_keeps ht
  | bread p dev sector =>
    simp only [State.next] at ht
    split_ifs at ht
    obtain rfl := Option.some.inj ht
    exact .inl hsame
  | store p c data =>
    simp only [State.next] at ht
    split_ifs at ht
    obtain rfl := Option.some.inj ht
    exact .inl (keeps_setBuf ⟨rfl, id⟩)
  | bwrite p c =>
    simp only [State.next] at ht
    split_ifs at ht
    unfold State.iderw at ht
    split_ifs at ht
    obtain rfl := Option.some.inj ht
    exact .inl (keeps_setBuf ⟨rfl, id⟩)
  | logWrite p c =>
    simp only [State.next] at ht
    split_ifs at ht
    obtain rfl := Option.some.inj ht
    exact .inl (keeps_setBuf ⟨rfl, id⟩)
  | brelse p c =>
    simp only [State.next] at ht
    split_ifs at ht
    obtain rfl := Option.some.inj ht
    exact .inl hsame

/-- In every run of any processes at most one buffer is for a sector, a busy buffer has one
holder, the links run through every buffer once, only a buffer that is neither busy nor
dirty is recycled, and `bread` returns what was last stored for the sector since it was
read in, or else what the disk has. -/
theorem bcache_coherent (h : (machine P disk).Reachable s) :
    (∀ a b, (s.buf a).dev ≠ NODEV → (s.buf a).key = (s.buf b).key → a = b) ∧
    (∀ p b, s.held p b = true → (s.buf b).busy = true) ∧
    (∀ b, (s.buf b).busy = true → ∃! p, s.held p b = true) ∧
    (∃ l : List Index, (∀ b, l.count b = 1) ∧ Circle s.links none (l.map some)) ∧
    (∀ e t b, s.next e = some t → ¬ (s.buf b).Keeps (t.buf b) →
      (s.buf b).busy = false ∧ (s.buf b).dirty = false) ∧
    ∀ p dev sector b, s.pc p = .back dev sector b →
      s.held p b = true ∧ (s.buf b).key = (dev, sector) ∧
        (s.buf b).data = (s.stored dev sector).getD (s.disk dev sector) := by
  obtain ⟨l, hinv⟩ := inv_of_reachable h
  have hnotfresh : ∀ a, (s.buf a).dev ≠ NODEV → ¬ (s.buf a).Fresh := fun a ha hfr =>
    ha (Prod.mk.inj (hinv.fresh a hfr)).1
  refine ⟨?_, hinv.busy, ?_, ⟨l, ?_, hinv.circle⟩, ?_, ?_⟩
  · intro a b ha hab
    have hb : (s.buf b).dev ≠ NODEV := by
      rw [← (Prod.mk.inj hab).1]
      exact ha
    exact hinv.unique a b (hnotfresh a ha) (hnotfresh b hb) hab
  · intro b hb
    obtain ⟨p, hp⟩ := hinv.owner b hb
    exact ⟨p, hp, fun q hq => hinv.single q p b hq hp⟩
  · exact fun b => List.count_eq_one_of_mem hinv.nodup (hinv.mem b)
  · exact fun e t b ht hkeep => (State.next_keeps ht).resolve_left hkeep
  · intro p dev sector b hpc
    have hknows := hinv.knows p
    rw [hpc] at hknows
    obtain ⟨hheld, hkey, hvalid⟩ := hknows
    have hdata := hinv.contents b hvalid
    rw [hkey] at hdata
    exact ⟨hheld, hkey, hdata⟩

end

/-- One process reads a sector in and stores into it, another one asks for the sector,
sleeps until it is released and gets what was stored. -/
def handOver : List (Label Bool) :=
  let b : Index := ⟨0, by decide⟩
  [.bread false 1 5] ++ List.replicate 16 (.step false) ++
    [.store false b fun _ => 7, .bread true 1 5, .step true] ++ List.replicate 10 (.step true) ++
    [.brelse false b, .step false, .step false] ++ List.replicate 3 (.step true)

theorem bcache_coherent_hand_over :
    ∃ s, Machine.runList State.next (State.boot fun _ _ _ => 0) handOver = some s ∧
      s.pc true = .back 1 5 ⟨0, by decide⟩ ∧
      (s.buf ⟨0, by decide⟩).data = (s.stored 1 5).getD (s.disk 1 5) ∧
      (s.stored 1 5).map (fun data => data ⟨0, by decide⟩) = some 7 := by
  have hdec : (Machine.runList State.next (State.boot fun _ _ _ => 0) handOver).any
      (fun s => s.pc true = .back 1 5 ⟨0, by decide⟩ ∧
        (s.stored 1 5).map (fun data => data ⟨0, by decide⟩) = some 7) = true := by
    decide +kernel
  obtain ⟨s, hs, hgoal⟩ := (Option.any_eq_true _ _).1 hdec
  obtain ⟨hpc, hstored⟩ := of_decide_eq_true hgoal
  have hreach : (machine Bool fun _ _ _ => 0).Reachable s :=
    Machine.reachable_of_runList handOver (.init rfl) hs
  have hback := (bcache_coherent hreach).2.2.2.2.2 true 1 5 ⟨0, by decide⟩ hpc
  exact ⟨s, hs, hpc, hback.2.2, hstored⟩

end Xv6.Fs.Bcache
