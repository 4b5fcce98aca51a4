import Xv6.Fs.Cache

/-!
# The invariant of the buffer cache

The invariant has a list of all buffers in the order of the links.  A buffer that was
never asked for has the key `(-1, 0)`, which a caller may ask for too, so buffers are
told apart by their keys only once they have been asked for; one that was asked for by
that key comes before those that were not.
-/

namespace Xv6.Fs.Bcache

open Xv6.Lib

variable {P : Type}

def noKey : Key := (NODEV, 0)

namespace Pc

def Inside : Pc → Prop
  | .look _ _ _ | .recycle _ _ _ | .relink _ => True
  | _ => False

/-- The process has the buffer from `bget` and has not read it in yet. -/
def Pending (b : Index) : Pc → Prop
  | .got _ _ c | .reading _ _ c => c = b
  | _ => False

def Knows (buf : Index → Buffer) (held : Index → Bool) (l : List Index) : Pc → Prop
  | .idle | .bget _ _ | .asleep _ _ _ => True
  | .look dev sector b => ∃ pre rest, l = pre ++ rest ∧ b = rest.head? ∧
      ∀ x ∈ pre, (buf x).key ≠ (dev, sector)
  | .recycle dev sector _ => ∀ x, (buf x).key ≠ (dev, sector)
  | .got dev sector b => held b = true ∧ (buf b).key = (dev, sector)
  | .reading dev sector b => held b = true ∧ (buf b).key = (dev, sector) ∧
      (buf b).valid = false ∧ (buf b).dirty = false
  | .back dev sector b => held b = true ∧ (buf b).key = (dev, sector) ∧ (buf b).valid = true
  | .writing b => held b = true ∧ (buf b).dirty = true
  | .brelse b | .relink b => held b = true

end Pc

namespace State

def content (s : State P) (k : Key) : Block := (s.stored k.1 k.2).getD (s.disk k.1 k.2)

structure Inv (s : State P) (l : List Index) : Prop where
  lock : ∀ p, (s.pc p).Inside → s.lock = some p
  mem : ∀ b, b ∈ l
  circle : Circle s.links none (l.map some)
  order : l.Pairwise fun a b =>
    (s.buf a).Fresh → (s.buf b).key = noKey → (s.buf b).Fresh
  unique : ∀ a b, ¬ (s.buf a).Fresh → ¬ (s.buf b).Fresh → (s.buf a).key = (s.buf b).key → a = b
  fresh : ∀ b, (s.buf b).Fresh → (s.buf b).key = noKey
  clean : ∀ b, (s.buf b).valid = false → (s.buf b).dirty = false
  busy : ∀ p b, s.held p b = true → (s.buf b).busy = true
  owner : ∀ b, (s.buf b).busy = true → ∃ p, s.held p b = true
  single : ∀ p q b, s.held p b = true → s.held q b = true → p = q
  valid : ∀ p b, s.held p b = true → (s.buf b).valid = true ∨ (s.pc p).Pending b
  contents : ∀ b, (s.buf b).valid = true → (s.buf b).data = s.content (s.buf b).key
  unread : ∀ dev sector, (∀ b, (s.buf b).valid = true → (s.buf b).key ≠ (dev, sector)) →
    s.stored dev sector = none
  knows : ∀ p, (s.pc p).Knows s.buf (s.held p) l

end State

/-! ## The list after `binit` -/

theorem circle_foldl {bs : List Index} {r : Links Node} {l : List Index}
    (hc : Circle r none (l.map some)) (hnodup : bs.Nodup) (hdisj : ∀ b ∈ bs, b ∉ l) :
    Circle (bs.foldl (fun r b => r.insertFront none (some b)) r) none
      ((bs.reverse ++ l).map some) := by
  induction bs generalizing r l with
  | nil => exact hc
  | cons b bs ih =>
    obtain ⟨hb, hbs⟩ := List.nodup_cons.1 hnodup
    rw [List.foldl_cons, List.reverse_cons, List.append_assoc, List.singleton_append]
    apply ih _ hbs
    · intro c hcb hmem
      rcases List.mem_cons.1 hmem with rfl | hmem
      · exact hb hcb
      · exact hdisj c (List.mem_cons_of_mem b hcb) hmem
    · rw [List.map_cons]
      apply hc.insertFront
      · exact Option.some_ne_none b
      · simpa using hdisj b List.mem_cons_self

theorem circle_binit : Circle binit none ((List.finRange NBUF).reverse.map some) := by
  have hnil : Circle (⟨fun _ => none, fun _ => none⟩ : Links Node) none
      (([] : List Index).map some) := Circle.nil rfl rfl
  have hfold := circle_foldl hnil (List.nodup_finRange NBUF)
    fun b _ => List.not_mem_nil
  rwa [List.append_nil] at hfold

namespace State

theorem inv_boot (disk : UInt32 → UInt32 → Block) :
    (boot disk : State P).Inv (List.finRange NBUF).reverse where
  lock p hin := hin.elim
  mem b := List.mem_reverse.2 (List.mem_finRange b)
  circle := circle_binit
  order := List.pairwise_of_forall fun _ _ hfresh _ => hfresh
  unique a b ha _ _ := absurd ⟨rfl, rfl⟩ ha
  fresh _ _ := rfl
  clean _ _ := rfl
  busy p b h := by cases h
  owner b h := by cases h
  single p q b h _ := by cases h
  valid p b h := by cases h
  contents b h := by cases h
  unread _ _ _ := rfl
  knows p := trivial

/-! ## Steps of one process -/

variable {s : State P} {l : List Index} {p q : P} {b : Index} {c : Pc}

theorem Knows.congr {buf buf' : Index → Buffer} {held held' : Index → Bool} {l' : List Index}
    (h : c.Knows buf held l)
    (hkeys : c.Inside → l' = l ∧ ∀ x, (buf' x).key = (buf x).key)
    (hheld : ∀ x, held x = true → held' x = true ∧ buf' x = buf x) :
    c.Knows buf' held' l' := by
  cases c with
  | idle | bget _ _ | asleep _ _ _ => trivial
  | look dev sector b =>
    obtain ⟨rfl, hkey⟩ := hkeys trivial
    obtain ⟨pre, rest, hl, hb, hpre⟩ := h
    refine ⟨pre, rest, hl, hb, fun x hx => ?_⟩
    rw [hkey]
    exact hpre x hx
  | recycle dev sector b =>
    intro x
    rw [(hkeys trivial).2]
    exact h x
  | got dev sector b =>
    rw [Pc.Knows, (hheld b h.1).2]
    exact ⟨(hheld b h.1).1, h.2⟩
  | reading dev sector b =>
    rw [Pc.Knows, (hheld b h.1).2]
    exact ⟨(hheld b h.1).1, h.2⟩
  | back dev sector b =>
    rw [Pc.Knows, (hheld b h.1).2]
    exact ⟨(hheld b h.1).1, h.2⟩
  | writing b =>
    rw [Pc.Knows, (hheld b h.1).2]
    exact ⟨(hheld b h.1).1, h.2⟩
  | brelse b | relink b => exact (hheld b h).1

theorem Inv.valid_of_pc (h : s.Inv l) (hb : s.held p b = true) (hpc : ¬ (s.pc p).Pending b) :
    (s.buf b).valid = true :=
  (h.valid p b hb).resolve_right hpc

theorem Inv.outside (h : s.Inv l) (hlock : s.lock = some p ∨ s.lock = none) (hq : q ≠ p) :
    ¬ (s.pc q).Inside := by
  intro hin
  have hsome := h.lock q hin
  rcases hlock with hlock | hlock
  · rw [hlock] at hsome
    exact hq (Option.some.inj hsome).symm
  · rw [hlock] at hsome
    cases hsome

theorem Inv.move [DecidableEq P] (h : s.Inv l) (lock : Option P) (hin : c.Inside → lock = some p)
    (hother : ∀ q, q ≠ p → (s.pc q).Inside → lock = some q)
    (hvalid : ∀ b, s.held p b = true → (s.buf b).valid = true ∨ c.Pending b)
    (hknows : c.Knows s.buf (s.held p) l) :
    ({ s.goto p c with lock := lock } : State P).Inv l :=
  { h with
    lock := (Function.forall_update_iff s.pc fun q c => c.Inside → lock = some q).2 ⟨hin, hother⟩
    valid := (Function.forall_update_iff s.pc fun q c =>
      ∀ b, s.held q b = true → (s.buf b).valid = true ∨ c.Pending b).2
        ⟨hvalid, fun q _ => h.valid q⟩
    knows := (Function.forall_update_iff s.pc fun q c => c.Knows s.buf (s.held q) l).2
        ⟨hknows, fun q _ => h.knows q⟩ }

/-- The step of a process changes at most the buffer `b`, what is stored for it and what
the disk has for it. -/
structure Edit (s t : State P) (p : P) (b : Index) (x : Buffer) : Prop where
  buf : t.buf = Function.update s.buf b x
  links : t.links = s.links
  lock : t.lock = s.lock
  pc : ∀ q, q ≠ p → t.pc q = s.pc q
  held : t.held = s.held
  disk : ∀ dev sector, (dev, sector) ≠ (s.buf b).key → t.disk dev sector = s.disk dev sector
  stored : ∀ dev sector, (dev, sector) ≠ (s.buf b).key → t.stored dev sector = s.stored dev sector

variable {t : State P} {x : Buffer}

theorem Edit.buf_self (e : Edit s t p b x) : t.buf b = x := by
  rw [e.buf, Function.update_self]

theorem Edit.buf_of_ne (e : Edit s t p b x) {y : Index} (hy : y ≠ b) : t.buf y = s.buf y := by
  rw [e.buf, Function.update_of_ne hy]

theorem Edit.key (e : Edit s t p b x) (hkey : x.key = (s.buf b).key) (y : Index) :
    (t.buf y).key = (s.buf y).key := by
  by_cases hy : y = b
  · rw [hy, e.buf_self, hkey]
  · rw [e.buf_of_ne hy]

theorem Edit.busy (e : Edit s t p b x) (hbusy : x.busy = (s.buf b).busy) (y : Index) :
    (t.buf y).busy = (s.buf y).busy := by
  by_cases hy : y = b
  · rw [hy, e.buf_self, hbusy]
  · rw [e.buf_of_ne hy]

theorem Edit.fresh (e : Edit s t p b x) (hb : (s.buf b).busy = true) (hx : x.busy = true)
    (y : Index) : (t.buf y).Fresh ↔ (s.buf y).Fresh := by
  by_cases hy : y = b
  · rw [hy, e.buf_self, Buffer.Fresh, Buffer.Fresh, hb, hx]
    simp
  · rw [e.buf_of_ne hy]

theorem Edit.content (e : Edit s t p b x) {k : Key} (hk : k ≠ (s.buf b).key) :
    t.content k = s.content k := by
  rw [State.content, State.content, e.disk k.1 k.2 hk, e.stored k.1 k.2 hk]

/-- A process that holds a buffer may change its data and its other flags, as long as the
data are what is stored or on the disk. -/
theorem Inv.edit (h : s.Inv l) (e : Edit s t p b x) (hb : s.held p b = true)
    (hbusy : x.busy = true) (hvalid : x.valid = true) (hkey : x.key = (s.buf b).key)
    (hdata : x.data = t.content (s.buf b).key) (hin : ¬ (t.pc p).Inside)
    (hpend : ∀ y, y ≠ b → ¬ (s.pc p).Pending y)
    (hknows : (t.pc p).Knows t.buf (t.held p) l) : t.Inv l := by
  have hbusy' : (s.buf b).busy = true := h.busy p b hb
  have hfresh := e.fresh hbusy' hbusy
  have hkeys := e.key hkey
  have hbusys := e.busy (hbusy.trans hbusy'.symm)
  constructor
  case mem => exact h.mem
  case lock =>
    intro q hq
    by_cases hqp : q = p
    · exact absurd (hqp ▸ hq) hin
    · rw [e.lock]
      exact h.lock q (e.pc q hqp ▸ hq)
  case circle =>
    rw [e.links]
    exact h.circle
  case order => simpa only [hfresh, hkeys] using h.order
  case unique => simpa only [hfresh, hkeys] using h.unique
  case fresh => simpa only [hfresh, hkeys] using h.fresh
  case clean =>
    intro y hy
    by_cases hyb : y = b
    · rw [hyb, e.buf_self, hvalid] at hy
      cases hy
    · rw [e.buf_of_ne hyb] at hy ⊢
      exact h.clean y hy
  case busy => simpa only [hbusys, e.held] using h.busy
  case owner => simpa only [hbusys, e.held] using h.owner
  case single => simpa only [e.held] using h.single
  case valid =>
    intro q y hy
    by_cases hyb : y = b
    · rw [hyb, e.buf_self]
      exact .inl hvalid
    · rw [e.held] at hy
      rw [e.buf_of_ne hyb]
      by_cases hqp : q = p
      · subst q
        exact .inl (h.valid_of_pc hy (hpend y hyb))
      · rw [e.pc q hqp]
        exact h.valid q y hy
  case contents =>
    intro y hy
    by_cases hyb : y = b
    · rw [hyb, e.buf_self, hdata, hkey]
    · rw [e.buf_of_ne hyb] at hy ⊢
      -- Two buffers that have been asked for have different keys.
      have hne : (s.buf y).key ≠ (s.buf b).key := by
        intro heq
        apply hyb
        apply h.unique y b _ _ heq
        · intro hfr
          rw [hfr.2] at hy
          cases hy
        · intro hfr
          rw [hfr.1] at hbusy'
          cases hbusy'
      rw [e.content hne]
      exact h.contents y hy
  case unread =>
    intro dev sector hnone
    have hne : (dev, sector) ≠ (s.buf b).key := by
      intro heq
      apply hnone b
      · rw [e.buf_self, hvalid]
      · rw [e.buf_self, hkey, heq]
    rw [e.stored dev sector hne]
    apply h.unread
    intro y hy
    by_cases hyb : y = b
    · rw [hyb]
      exact hne.symm
    · have hy' := hnone y
      rw [e.buf_of_ne hyb] at hy'
      exact hy' hy
  case knows =>
    intro q
    by_cases hqp : q = p
    · rw [hqp]
      exact hknows
    · rw [e.pc q hqp, e.held]
      apply Knows.congr (h.knows q)
      · exact fun _ => ⟨rfl, hkeys⟩
      · intro y hy
        refine ⟨hy, e.buf_of_ne ?_⟩
        rintro rfl
        exact hqp (h.single q p y hy hb)

/-! ## Taking and releasing a buffer -/

section

variable [DecidableEq P]

theorem held_setHeld {v : Bool} {y : Index} :
    (s.setHeld p b v).held q y = if q = p ∧ y = b then v else s.held q y := by
  show Function.update s.held p (Function.update (s.held p) b v) q y = _
  by_cases hqp : q = p
  · subst q
    by_cases hyb : y = b
    · subst y
      simp
    · simp [hyb]
  · simp [hqp]

def taken (s : State P) (p : P) (b : Index) (x : Buffer)
    (st : UInt32 → UInt32 → Option Block) : State P :=
  { ((s.setBuf b x).setHeld p b true).goto p (.got x.dev x.sector b) with
    lock := none
    stored := st }

variable {st : UInt32 → UInt32 → Option Block}

theorem taken_buf_self : (s.taken p b x st).buf b = x := Function.update_self ..

theorem taken_buf_of_ne {y : Index} (hy : y ≠ b) : (s.taken p b x st).buf y = s.buf y :=
  Function.update_of_ne hy ..

theorem taken_pc_self : (s.taken p b x st).pc p = .got x.dev x.sector b :=
  Function.update_self ..

theorem taken_pc_of_ne (hq : q ≠ p) : (s.taken p b x st).pc q = s.pc q :=
  Function.update_of_ne hq ..

theorem taken_held {y : Index} :
    (s.taken p b x st).held q y = if q = p ∧ y = b then true else s.held q y :=
  held_setHeld (s := s.setBuf b x)

theorem Inv.take (h : s.Inv l) (hlock : s.lock = some p) (hpc : ∀ y, ¬ (s.pc p).Pending y)
    (hfree : (s.buf b).busy = false) (hbusy : x.busy = true)
    (hclean : x.valid = false → x.dirty = false)
    (hkey : ∀ y, y ≠ b → ¬ (s.buf y).Fresh → (s.buf y).key ≠ x.key)
    (horder : l.Pairwise fun a c => ((s.taken p b x st).buf a).Fresh →
      ((s.taken p b x st).buf c).key = noKey → ((s.taken p b x st).buf c).Fresh)
    (hdata : x.valid = true → x.data = (st x.dev x.sector).getD (s.disk x.dev x.sector))
    (hstored : ∀ y, y ≠ b → (s.buf y).valid = true →
      st (s.buf y).dev (s.buf y).sector = s.stored (s.buf y).dev (s.buf y).sector)
    (hunread : ∀ dev sector, (∀ y, y ≠ b → (s.buf y).valid = true →
      (s.buf y).key ≠ (dev, sector)) → (x.valid = true → x.key ≠ (dev, sector)) →
      st dev sector = none) :
    (s.taken p b x st).Inv l := by
  have hself : (s.taken p b x st).buf b = x := taken_buf_self
  have hnotheld : ∀ q, s.held q b ≠ true := by
    intro q hq
    rw [h.busy q b hq] at hfree
    cases hfree
  have hxfresh : ¬ x.Fresh := by
    intro hfr
    rw [hfr.1] at hbusy
    cases hbusy
  have hheld : ∀ q y, (s.taken p b x st).held q y = true → y = b ∧ q = p ∨
      y ≠ b ∧ s.held q y = true := by
    intro q y hy
    rw [taken_held] at hy
    split_ifs at hy with hif
    · exact .inl ⟨hif.2, hif.1⟩
    · refine .inr ⟨?_, hy⟩
      rintro rfl
      exact hnotheld q hy
  constructor
  case mem => exact h.mem
  case circle => exact h.circle
  case order => exact horder
  case lock =>
    intro q hq
    by_cases hqp : q = p
    · subst q
      rw [taken_pc_self] at hq
      exact hq.elim
    · rw [taken_pc_of_ne hqp] at hq
      exact absurd hq (h.outside (.inl hlock) hqp)
  case unique =>
    intro y z hy hz hyz
    by_cases hyb : y = b
    · by_cases hzb : z = b
      · rw [hyb, hzb]
      · rw [hyb, hself, taken_buf_of_ne hzb] at hyz
        rw [taken_buf_of_ne hzb] at hz
        exact absurd hyz.symm (hkey z hzb hz)
    · rw [taken_buf_of_ne hyb] at hy hyz
      by_cases hzb : z = b
      · rw [hzb, hself] at hyz
        exact absurd hyz (hkey y hyb hy)
      · rw [taken_buf_of_ne hzb] at hz hyz
        exact h.unique y z hy hz hyz
  case fresh =>
    intro y hy
    by_cases hyb : y = b
    · rw [hyb, hself] at hy
      exact absurd hy hxfresh
    · rw [taken_buf_of_ne hyb] at hy ⊢
      exact h.fresh y hy
  case clean =>
    intro y hy
    by_cases hyb : y = b
    · rw [hyb, hself] at hy ⊢
      exact hclean hy
    · rw [taken_buf_of_ne hyb] at hy ⊢
      exact h.clean y hy
  case busy =>
    intro q y hy
    rcases hheld q y hy with ⟨rfl, _⟩ | ⟨hyb, hy⟩
    · rw [hself, hbusy]
    · rw [taken_buf_of_ne hyb]
      exact h.busy q y hy
  case owner =>
    intro y hy
    by_cases hyb : y = b
    · exact ⟨p, by rw [taken_held, if_pos ⟨rfl, hyb⟩]⟩
    · rw [taken_buf_of_ne hyb] at hy
      obtain ⟨q, hq⟩ := h.owner y hy
      exact ⟨q, by rw [taken_held, if_neg (fun hand => hyb hand.2), hq]⟩
  case single =>
    intro q r y hq hr
    rcases hheld q y hq with ⟨hyb, rfl⟩ | ⟨hyb, hq⟩
    · rcases hheld r y hr with ⟨_, rfl⟩ | ⟨hyb', _⟩
      · rfl
      · exact absurd hyb hyb'
    · rcases hheld r y hr with ⟨hyb', _⟩ | ⟨_, hr⟩
      · exact absurd hyb' hyb
      · exact h.single q r y hq hr
  case valid =>
    intro q y hy
    rcases hheld q y hy with ⟨rfl, rfl⟩ | ⟨hyb, hy⟩
    · rw [taken_pc_self]
      exact .inr rfl
    · rw [taken_buf_of_ne hyb]
      by_cases hqp : q = p
      · subst q
        exact .inl (h.valid_of_pc hy (hpc y))
      · rw [taken_pc_of_ne hqp]
        exact h.valid q y hy
  case contents =>
    intro y hy
    by_cases hyb : y = b
    · rw [hyb, hself] at hy ⊢
      exact hdata hy
    · rw [taken_buf_of_ne hyb] at hy ⊢
      rw [h.contents y hy]
      show Option.getD (s.stored _ _) _ = Option.getD (st (s.buf y).dev (s.buf y).sector) _
      rw [hstored y hyb hy]
      rfl
  case unread =>
    intro dev sector hnone
    apply hunread dev sector
    · intro y hyb hy
      have hy' := hnone y
      rw [taken_buf_of_ne hyb] at hy'
      exact hy' hy
    · have hb := hnone b
      rw [hself] at hb
      exact hb
  case knows =>
    intro q
    by_cases hqp : q = p
    · subst q
      rw [taken_pc_self]
      refine ⟨?_, ?_⟩
      · rw [taken_held, if_pos ⟨rfl, rfl⟩]
      · rw [hself]
        rfl
    · rw [taken_pc_of_ne hqp]
      apply Knows.congr (h.knows q)
      · exact fun hin => absurd hin (h.outside (.inl hlock) hqp)
      · intro y hy
        have hyb : y ≠ b := by
          rintro rfl
          exact hnotheld q hy
        refine ⟨?_, taken_buf_of_ne hyb⟩
        rw [taken_held, if_neg (fun hand => hyb hand.2), hy]

omit [DecidableEq P] in
theorem Inv.nodup (h : s.Inv l) : l.Nodup :=
  List.Nodup.of_map some (List.nodup_cons.1 h.circle.nodup).2

theorem taken_fresh {y : Index} (hbusy : x.busy = true) :
    ((s.taken p b x st).buf y).Fresh → y ≠ b ∧ (s.buf y).Fresh := by
  intro hy
  by_cases hyb : y = b
  · rw [hyb, taken_buf_self] at hy
    rw [hy.1] at hbusy
    cases hbusy
  · rw [taken_buf_of_ne hyb] at hy
    exact ⟨hyb, hy⟩

theorem Inv.order_hit (h : s.Inv l) {pre rest : List Index} (hl : l = pre ++ b :: rest)
    (hpre : ∀ y ∈ pre, (s.buf y).key ≠ (s.buf b).key) (hbusy : x.busy = true)
    (hkey : x.key = (s.buf b).key) :
    l.Pairwise fun a c => ((s.taken p b x st).buf a).Fresh →
      ((s.taken p b x st).buf c).key = noKey → ((s.taken p b x st).buf c).Fresh := by
  have hkeep : ∀ a c, c ≠ b →
      ((s.buf a).Fresh → (s.buf c).key = noKey → (s.buf c).Fresh) →
      ((s.taken p b x st).buf a).Fresh → ((s.taken p b x st).buf c).key = noKey →
        ((s.taken p b x st).buf c).Fresh := by
    intro a c hcb hac ha hc
    rw [taken_buf_of_ne hcb] at hc ⊢
    exact hac (taken_fresh hbusy ha).2 hc
  have horder := h.order
  have hnodup := h.nodup
  rw [hl, List.pairwise_append, List.pairwise_cons] at horder
  rw [hl, List.nodup_append, List.nodup_cons] at hnodup
  obtain ⟨hpre', ⟨_, hrest⟩, hcross⟩ := horder
  obtain ⟨_, ⟨hbrest, _⟩, hdisj⟩ := hnodup
  rw [hl, List.pairwise_append, List.pairwise_cons]
  refine ⟨?_, ⟨?_, ?_⟩, ?_⟩
  · apply hpre'.imp_of_mem
    intro a c _ hc
    exact hkeep a c fun hcb => hdisj c hc b List.mem_cons_self hcb
  · intro c _ hb
    exact absurd rfl (taken_fresh hbusy hb).1
  · apply hrest.imp_of_mem
    intro a c _ hc
    exact hkeep a c (ne_of_mem_of_not_mem hc hbrest)
  · intro a ha c hc
    rcases List.mem_cons.1 hc with rfl | hmem
    · intro hfresh hno
      -- A buffer that was not asked for is before this one, and the loop passed over it.
      rw [taken_buf_self, hkey] at hno
      exact absurd ((h.fresh a (taken_fresh hbusy hfresh).2).trans hno.symm) (hpre a ha)
    · exact hkeep a c (ne_of_mem_of_not_mem hmem hbrest) (hcross a ha c hc)

theorem Inv.hit (h : s.Inv l) (hlock : s.lock = some p) (hpc : ∀ y, ¬ (s.pc p).Pending y)
    (hfree : (s.buf b).busy = false) {pre rest : List Index} (hl : l = pre ++ b :: rest)
    (hpre : ∀ y ∈ pre, (s.buf y).key ≠ (s.buf b).key) :
    (s.taken p b { s.buf b with busy := true } s.stored).Inv l := by
  refine h.take hlock hpc hfree rfl (fun hval => h.clean b hval) ?_ ?_ ?_ ?_ ?_
  · intro y hyb hy heq
    by_cases hb : (s.buf b).Fresh
    · have hymem := h.mem y
      rw [hl] at hymem
      rcases List.mem_append.1 hymem with hymem | hymem
      · exact hpre y hymem heq
      · have hrest : y ∈ rest := (List.mem_cons.1 hymem).resolve_left hyb
        have horder := h.order
        rw [hl, List.pairwise_append, List.pairwise_cons] at horder
        exact hy (horder.2.1.1 y hrest hb (heq.trans (h.fresh b hb)))
    · exact hyb (h.unique y b hy hb heq)
  · exact h.order_hit hl hpre rfl rfl
  · exact h.contents b
  · exact fun _ _ _ => rfl
  · intro dev sector hother hb
    apply h.unread
    intro y hy
    by_cases hyb : y = b
    · subst y
      exact hb hy
    · exact hother y hyb hy

theorem Inv.recycled (h : s.Inv l) (hlock : s.lock = some p) (hpc : ∀ y, ¬ (s.pc p).Pending y)
    (hfree : (s.buf b).busy = false) {dev sector : UInt32}
    (hnone : ∀ y, (s.buf y).key ≠ (dev, sector)) (hbusy : x.busy = true)
    (hvalid : x.valid = false) (hdirty : x.dirty = false) (hkey : x.key = (dev, sector))
    (hkeep : ∀ k : Key, ((s.buf b).valid = true → k ≠ (s.buf b).key) →
      st k.1 k.2 = s.stored k.1 k.2)
    (hclear : (s.buf b).valid = true → st (s.buf b).dev (s.buf b).sector = none) :
    (s.taken p b x st).Inv l := by
  apply h.take hlock hpc hfree hbusy fun _ => hdirty
  · intro y _ _
    rw [hkey]
    exact hnone y
  · apply h.order.imp
    intro a c hac ha hc
    obtain ⟨hab, hfa⟩ := taken_fresh hbusy ha
    by_cases hcb : c = b
    · rw [hcb, taken_buf_self, hkey] at hc
      exact absurd ((h.fresh a hfa).trans hc.symm) (hnone a)
    · rw [taken_buf_of_ne hcb] at hc ⊢
      exact hac hfa hc
  · intro hval
    rw [hvalid] at hval
    cases hval
  · intro y hyb hy
    apply hkeep (s.buf y).key
    intro hb heq
    apply hyb
    apply h.unique y b _ _ heq
    · intro hfr
      rw [hfr.2] at hy
      cases hy
    · intro hfr
      rw [hfr.2] at hb
      cases hb
  · intro dev' sector' hother _
    by_cases hb : (s.buf b).valid = true ∧ (dev', sector') = (s.buf b).key
    · obtain ⟨hb, heq⟩ := hb
      obtain ⟨rfl, rfl⟩ := Prod.mk.inj heq
      exact hclear hb
    · rw [show st dev' sector' = s.stored dev' sector' from
        hkeep (dev', sector') fun hval heq => hb ⟨hval, heq⟩]
      apply h.unread
      intro y hy
      by_cases hyb : y = b
      · subst y
        exact fun heq => hb ⟨hy, heq.symm⟩
      · exact hother y hyb hy

theorem relink_buf_of_ne {y : Index} (hy : y ≠ b) : (s.relink p b).buf y = s.buf y :=
  Function.update_of_ne hy ..

theorem relink_key (y : Index) : ((s.relink p b).buf y).key = (s.buf y).key := by
  by_cases hyb : y = b
  · rw [hyb, show (s.relink p b).buf b = _ from Function.update_self ..]
    rfl
  · rw [relink_buf_of_ne hyb]

theorem relink_valid (y : Index) : ((s.relink p b).buf y).valid = (s.buf y).valid := by
  by_cases hyb : y = b
  · rw [hyb, show (s.relink p b).buf b = _ from Function.update_self ..]
  · rw [relink_buf_of_ne hyb]

theorem relink_held_eq {y : Index} :
    (s.relink p b).held q y = if q = p ∧ y = b then false else s.held q y :=
  held_setHeld (s := s.setBuf b { s.buf b with busy := false })

theorem relink_held {y : Index} (hy : (s.relink p b).held q y = true) :
    (q ≠ p ∨ y ≠ b) ∧ s.held q y = true := by
  rw [relink_held_eq] at hy
  split_ifs at hy with hcond
  exact ⟨not_and_or.1 hcond, hy⟩

theorem Inv.release (h : s.Inv l) (hlock : s.lock = some p) (hpc : ∀ y, ¬ (s.pc p).Pending y)
    (hb : s.held p b = true) : ∃ l', (s.relink p b).Inv l' := by
  obtain ⟨l₁, l₂, hl⟩ := List.append_of_mem (h.mem b)
  have hvalid : (s.buf b).valid = true := h.valid_of_pc hb (hpc b)
  have hnodup := h.nodup
  rw [hl] at hnodup
  have hnotmem : b ∉ l₁ ++ l₂ := by
    rw [List.nodup_middle] at hnodup
    exact (List.nodup_cons.1 hnodup).1
  have hself : (s.relink p b).buf b = { s.buf b with busy := false } := Function.update_self ..
  have hfresh : ∀ y, ((s.relink p b).buf y).Fresh ↔ (s.buf y).Fresh := by
    intro y
    by_cases hyb : y = b
    · rw [Buffer.Fresh, Buffer.Fresh, relink_valid, hyb, hvalid]
      simp
    · rw [relink_buf_of_ne hyb]
  have hother : ∀ q y, (s.relink p b).held q y = true → y ≠ b := by
    rintro q y hy rfl
    obtain ⟨hqy, hq⟩ := relink_held hy
    exact hqy.elim (fun hqp => hqp (h.single q p y hq hb)) fun hyy => hyy rfl
  have hpcs : ∀ q, q ≠ p → (s.relink p b).pc q = s.pc q := fun q hq =>
    Function.update_of_ne hq ..
  have hpcp : (s.relink p b).pc p = .idle := Function.update_self ..
  refine ⟨b :: (l₁ ++ l₂), ?_⟩
  constructor
  case lock =>
    intro q hq
    by_cases hqp : q = p
    · rw [hqp, hpcp] at hq
      exact hq.elim
    · rw [hpcs q hqp] at hq
      exact absurd hq (h.outside (.inl hlock) hqp)
  case mem =>
    intro y
    have hy := h.mem y
    rw [hl, List.mem_append, List.mem_cons] at hy
    rw [List.mem_cons, List.mem_append]
    tauto
  case circle =>
    have hcircle := h.circle
    rw [hl, List.map_append, List.map_cons] at hcircle
    rw [List.map_cons, List.map_append]
    apply hcircle.unlink.insertFront (Option.some_ne_none b)
    rw [← List.map_append]
    simpa using hnotmem
  case order =>
    have horder := h.order
    rw [hl] at horder
    simp only [hfresh, relink_key]
    rw [List.pairwise_cons]
    constructor
    · intro y _ hbf
      rw [hbf.2] at hvalid
      cases hvalid
    · exact horder.sublist ((List.sublist_cons_self b l₂).append_left l₁)
  case unique =>
    simp only [hfresh, relink_key]
    exact h.unique
  case fresh =>
    simp only [hfresh, relink_key]
    exact h.fresh
  case clean =>
    intro y hy
    rw [relink_valid] at hy
    by_cases hyb : y = b
    · rw [hyb, hvalid] at hy
      cases hy
    · rw [relink_buf_of_ne hyb]
      exact h.clean y hy
  case busy =>
    intro q y hy
    rw [relink_buf_of_ne (hother q y hy)]
    exact h.busy q y (relink_held hy).2
  case owner =>
    intro y hy
    by_cases hyb : y = b
    · rw [hyb, hself] at hy
      cases hy
    · rw [relink_buf_of_ne hyb] at hy
      obtain ⟨q, hq⟩ := h.owner y hy
      refine ⟨q, ?_⟩
      rw [relink_held_eq, if_neg fun hand => hyb hand.2, hq]
  case single =>
    intro q r y hq hr
    exact h.single q r y (relink_held hq).2 (relink_held hr).2
  case valid =>
    intro q y hy
    rw [relink_valid]
    by_cases hqp : q = p
    · subst q
      exact .inl (h.valid_of_pc (relink_held hy).2 (hpc y))
    · rw [hpcs q hqp]
      exact h.valid q y (relink_held hy).2
  case contents =>
    intro y hy
    rw [relink_valid] at hy
    rw [relink_key]
    have hdata : ((s.relink p b).buf y).data = (s.buf y).data := by
      by_cases hyb : y = b
      · rw [hyb, hself]
      · rw [relink_buf_of_ne hyb]
    rw [hdata]
    exact h.contents y hy
  case unread =>
    simp only [relink_valid, relink_key]
    exact h.unread
  case knows =>
    intro q
    by_cases hqp : q = p
    · rw [hqp, hpcp]
      trivial
    · rw [hpcs q hqp]
      apply Knows.congr (h.knows q)
      · exact fun hin => absurd hin (h.outside (.inl hlock) hqp)
      · intro y hy
        have hyb : y ≠ b := by
          rintro rfl
          exact hqp (h.single q p y hy hb)
        refine ⟨?_, relink_buf_of_ne hyb⟩
        rw [relink_held_eq, if_neg fun hand => hyb hand.2, hy]

end

end State

end Xv6.Fs.Bcache
