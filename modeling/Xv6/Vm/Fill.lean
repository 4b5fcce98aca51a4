import Xv6.Vm.Range

/-!
# Growing all or nothing

`allocuvm` with what it writes to its pages, among others who may hold all the free pages at any
of its calls of `kalloc`.  It does not look at the result of `mappages`: when the page for a page
table is refused, the page that was to be mapped is lost.
-/

namespace Xv6.Vm

open Xv6.Lib

/-! ## Refusals -/

def veiled {β : Type} (f : Mem → Res (β × Mem)) (m : Mem) : Res (β × Mem) :=
  match f { m with free := [] } with
  | .ok (b, t) => .ok (b, { t with free := t.free ++ m.free })
  | .halt h => .halt h

/-- The program among others.  The list says at which actions they hold the free pages. -/
def refusing {α : Type} : VmM α → Prog (Mem × List Bool) Unit α
  | .ret a => .ret a
  | .act l f k => .act l
      (fun s => match (if s.2.headD false then veiled f else f) s.1 with
        | .ok (b, t) => .ok (b, (t, s.2.tail))
        | .halt h => .halt h)
      fun b => refusing (k b)

def Steady {α : Type} : VmM α → Prop
  | .ret _ => True
  | .act _ f k => (∀ m, veiled f m = f m) ∧ ∀ b, Steady (k b)

section Refusing

variable {α β : Type} {E : Halt → Mem × List Bool → Prop} {m : Mem} {bs : List Bool}

theorem refusing_bind (p : VmM α) (g : α → VmM β) :
    refusing (p.bind g) = (refusing p).bind fun a => refusing (g a) := by
  induction p with
  | ret a => rfl
  | act l f k ih =>
    simp only [refusing, Prog.bind]
    congr
    funext b
    exact ih b

theorem wp_refusing_bind {p : VmM α} {g : α → VmM β} {s : Mem × List Bool}
    {Q : β → Mem × List Bool → Prop}
    (h : (refusing p).wp (fun _ => True) E
      (fun a t => (refusing (g a)).wp (fun _ => True) E Q t) s) :
    (refusing (p.bind g)).wp (fun _ => True) E Q s := by
  rw [refusing_bind]
  exact Prog.wp_bind h

theorem wp_refusing_seq {p : VmM α} {g : α → VmM β} {s : Mem × List Bool}
    {R : α → Mem × List Bool → Prop} {Q : β → Mem × List Bool → Prop}
    (hp : (refusing p).wp (fun _ => True) E R s)
    (hg : ∀ a t, R a t → (refusing (g a)).wp (fun _ => True) E Q t) :
    (refusing (p.bind g)).wp (fun _ => True) E Q s :=
  wp_refusing_bind (Prog.wp_imp hp hg)

theorem wp_refusing_panic {msg : String} {Q : α → Mem × List Bool → Prop}
    (hE : E (.panic msg) (m, bs)) :
    (refusing (Prog.panic () msg : VmM α)).wp (fun _ => True) E Q (m, bs) := by
  rw [Prog.panic, Prog.atomic, refusing, Prog.wp]
  refine ⟨trivial, ?_⟩
  cases hb : bs.headD false <;> simpa [hb, veiled] using hE

theorem wp_refusing_kalloc {Q : Option Frame → Mem × List Bool → Prop}
    (hno : bs.headD false = true ∨ m.free = [] → Q none (m, bs.tail))
    (hyes : ∀ f fs, bs.headD false = false → m.free = f :: fs →
      Q (some f) ({ m with free := fs }, bs.tail)) :
    (refusing kalloc).wp (fun _ => True) E Q (m, bs) := by
  rw [kalloc, Prog.atomic, refusing, Prog.wp]
  refine ⟨trivial, ?_⟩
  cases hb : bs.headD false with
  | true => simpa [hb, veiled, refusing, Prog.wp] using hno (.inl hb)
  | false =>
    cases hfree : m.free with
    | nil => simpa [hfree, hb, refusing, Prog.wp] using hno (.inr hfree)
    | cons f fs => simpa [hfree, hb, refusing, Prog.wp] using hyes f fs hb hfree

theorem wp_refusing_steady {p : VmM α} {Q : α → Mem → Prop} (hp : Steady p)
    {E : Halt → Mem → Prop} (h : p.wp (fun _ => True) E Q m) :
    (refusing p).wp (fun _ => True) (fun x s => E x s.1) (fun a s => Q a s.1) (m, bs) := by
  induction p generalizing m bs with
  | ret a => exact h
  | act l f k ih =>
    obtain ⟨_, hok, hhalt⟩ := Prog.wp_act.1 h
    rw [refusing, Prog.wp]
    refine ⟨trivial, ?_⟩
    have hf : (if bs.headD false then veiled f else f) m = f m := by
      split_ifs
      · exact hp.1 m
      · rfl
    simp only [hf]
    cases hfm : f m with
    | ok r => exact ih r.1 (hp.2 r.1) (hok r.1 r.2 hfm)
    | halt x => exact hhalt x hfm

theorem steady_bind {p : VmM α} {g : α → VmM β} (hp : Steady p) (hg : ∀ a, Steady (g a)) :
    Steady (p.bind g) := by
  induction p with
  | ret a => exact hg a
  | act l f k ih => exact ⟨hp.1, fun b => ih b (hp.2 b)⟩

theorem steady_kfree (f : Frame) : Steady (kfree f) := by
  refine ⟨fun m => ?_, fun _ => trivial⟩
  have hsame : ({ m with free := [] } : Mem).isRam f = m.isRam f := rfl
  cases hram : m.isRam f <;> simp [veiled, hsame, hram]

theorem steady_panic (msg : String) : Steady (Prog.panic () msg : VmM α) :=
  ⟨fun _ => rfl, fun _ => trivial⟩

theorem steady_clearRange {msg : String} {keep : Frame → Bool} {top fuel a : Nat} {d : PageDir} :
    Steady (clearRange msg keep top fuel d a) := by
  induction fuel generalizing d a with
  | zero => trivial
  | succ fuel ih =>
    rw [clearRange]
    split_ifs
    · cases d.table (a / NPTENTRIES) with
      | none => exact ih
      | some t =>
        cases hpte : t.pte (a % NPTENTRIES) with
        | none =>
          simp only [hpte]
          exact ih
        | some pte =>
          simp only [hpte]
          split_ifs
          · exact steady_panic msg
          · exact steady_bind (steady_kfree _) fun _ => ih
          · exact ih
    · trivial

theorem steady_deallocuvm {S : Frame → Bool} {d : PageDir} {oldsz newsz : Nat} :
    Steady (deallocuvm S d oldsz newsz) := by
  unfold deallocuvm
  split_ifs
  · trivial
  · exact steady_bind steady_clearRange fun _ => trivial

end Refusing

/-! ## What the pages hold -/

abbrev Ram : Type := Frame → Nat → UInt8

def Ram.zero (st : Ram) (f : Frame) : Ram := Function.update st f fun _ => 0

def fillLoop : Nat → PageDir → Nat → Ram → VmM ((PageDir × Bool) × Ram)
  | 0, d, _, st => pure ((d, true), st)
  | n + 1, d, a, st => do
    match ← kalloc with
    | none => pure ((d, false), st)
    | some f => do
      let r ← mappages d (a * PGSIZE) PGSIZE f true true
      fillLoop n r.1 (a + 1) (st.zero f)

def allocuvmRam (S : Frame → Bool) (d : PageDir) (oldsz newsz : Nat) (st : Ram) :
    VmM ((PageDir × Nat) × Ram) :=
  if KERNBASE ≤ newsz then pure ((d, 0), st)
  else if newsz < oldsz then pure ((d, oldsz), st)
  else do
    let a := PGROUNDUP oldsz / PGSIZE
    let r ← fillLoop (pages newsz - a) d a st
    if r.1.2 then pure ((r.1.1, newsz), r.2)
    else do
      let r' ← deallocuvm S r.1.1 newsz oldsz
      pure ((r'.1, 0), r.2)

theorem fillLoop_fst (n : Nat) (d : PageDir) (a : Nat) (st : Ram) :
    (fillLoop n d a st).bind (fun r => pure r.1) = allocLoop n d a := by
  induction n generalizing d a st with
  | zero => rfl
  | succ n ih =>
    rw [fillLoop, allocLoop]
    show (kalloc.bind _).bind _ = kalloc.bind _
    rw [Prog.bind_assoc]
    congr
    funext o
    cases o with
    | none => rfl
    | some f =>
      show ((mappages _ _ _ _ _ _).bind _).bind _ = (mappages _ _ _ _ _ _).bind _
      rw [Prog.bind_assoc]
      congr
      funext r
      exact ih r.1 (a + 1) (st.zero f)

theorem allocuvmRam_fst (S : Frame → Bool) (d : PageDir) (oldsz newsz : Nat) (st : Ram) :
    (allocuvmRam S d oldsz newsz st).bind (fun r => pure r.1) = allocuvm S d oldsz newsz := by
  unfold allocuvmRam allocuvm
  split_ifs
  · rfl
  · rfl
  · simp only [← fillLoop_fst _ d _ st]
    show ((fillLoop _ _ _ _).bind _).bind _ = ((fillLoop _ _ _ _).bind _).bind _
    rw [Prog.bind_assoc, Prog.bind_assoc]
    congr
    funext r
    show Prog.bind (ite _ _ _) _ = ite _ _ _
    split_ifs
    · rfl
    · show ((deallocuvm _ _ _ _).bind _).bind _ = (deallocuvm _ _ _ _).bind _
      rw [Prog.bind_assoc]
      rfl

/-! ## The loop -/

/-- The pages that the loop of `allocuvm` gets for `n` pages from page `a` on, while there are
`free` of them: for each, whether its page table was there or could be allocated. -/
def grants : Nat → (Nat → Bool) → Nat → List Bool → Nat → List Bool
  | 0, _, _, _, _ => []
  | n + 1, has, a, bs, free =>
    if bs.headD false = true ∨ free = 0 then []
    else if has (a / NPTENTRIES) = true then true :: grants n has (a + 1) bs.tail (free - 1)
    else if bs.tail.headD false = true ∨ free - 1 = 0 then
      false :: grants n has (a + 1) bs.tail.tail (free - 1)
    else true :: grants n (Function.update has (a / NPTENTRIES) true) (a + 1) bs.tail.tail
      (free - 1 - 1)

def PageDir.has (d : PageDir) (i : Nat) : Bool := (d.table i).isSome

/-- The pages `os` have been cleared for the pages from `a` on, and those with `true` have been
mapped, with page tables in `ts`. -/
structure Fills (d : PageDir) (m : Mem) (st : Ram) (a : Nat) (os : List (Bool × Frame))
    (ts : List Frame) (d' : PageDir) (m' : Mem) (st' : Ram) : Prop where
  pages : ∀ v, d'.lookup v = if a ≤ v ∧ (os.getD (v - a) (false, 0)).1 = true then
    some ⟨(os.getD (v - a) (false, 0)).2, true, true⟩ else d.lookup v
  old : ∀ i, d.table i ≠ none → d'.tableFrame i = d.tableFrame i
  new : ∀ t ∈ ts, ∃ i, d.table i = none ∧ d'.tableFrame i = some t
  only : ∀ i t, d'.tableFrame i = some t → d.tableFrame i = some t ∨ t ∈ ts
  frames : m.free.Perm (os.map Prod.snd ++ (ts ++ m'.free))
  first : m'.first = m.first
  ram : ∀ f, st' f = if f ∈ os.map Prod.snd then fun _ => 0 else st f

section Loop

variable {d d' : PageDir} {m m₁ m' : Mem} {st st' : Ram} {a n : Nat} {g t : Frame}
  {gs ts : List Frame} {os : List (Bool × Frame)} {bs : List Bool}

theorem Fills.zero (d : PageDir) (m : Mem) (st : Ram) (a : Nat) : Fills d m st a [] [] d m st :=
  ⟨fun v => by rw [if_neg (by simp)], fun _ _ => rfl, by simp, fun _ _ h => .inl h, by simp,
    rfl, by simp⟩

theorem Fills.page {d₁ : PageDir} {ok : Bool} (hfree : m.free = g :: gs)
    (hframe : d₁.tableFrame = d.tableFrame) (hlook : ∀ v, d₁.lookup v =
      if v = a ∧ ok = true then some ⟨g, true, true⟩ else d.lookup v)
    (h : Fills d₁ { m with free := gs } (st.zero g) (a + 1) os ts d' m' st') :
    Fills d m st a ((ok, g) :: os) ts d' m' st' := by
  have hnone : ∀ i, d₁.table i = none ↔ d.table i = none := fun i => by
    rw [← Option.map_eq_none_iff (f := Table.frame), ← Option.map_eq_none_iff (f := Table.frame)]
    exact iff_of_eq (congrArg (· = none) (congrFun hframe i))
  refine ⟨fun v => ?_, fun i hi => ?_, fun t ht => ?_, fun i t hi => ?_, ?_, h.first, fun f => ?_⟩
  · rw [h.pages, hlook]
    by_cases hv : v = a
    · subst hv
      simp
    · by_cases hle : a ≤ v
      · obtain ⟨k, rfl⟩ : ∃ k, v = a + (k + 1) := ⟨v - (a + 1), by omega⟩
        rw [Nat.add_sub_cancel_left, List.getD_cons_succ, show a + (k + 1) - (a + 1) = k by omega]
        simp
      · rw [if_neg (by omega), if_neg (by omega), if_neg (by omega)]
  · rw [h.old i (by rwa [ne_eq, hnone]), hframe]
  · obtain ⟨i, hi, hit⟩ := h.new t ht
    exact ⟨i, (hnone i).1 hi, hit⟩
  · rw [← hframe]
    exact h.only i t hi
  · rw [hfree]
    exact h.frames.cons g
  · rw [h.ram]
    by_cases hf : f = g <;> simp [Ram.zero, hf]

theorem Fills.table {i : Nat} (hfree : m.free.Perm (t :: m₁.free)) (hfirst : m₁.first = m.first)
    (hi : d.table i = none)
    (h : Fills (d.setTable i ⟨t, fun _ => none⟩) m₁ st a os ts d' m' st') :
    Fills d m st a os (t :: ts) d' m' st' := by
  have htables : ∀ j, (d.setTable i ⟨t, fun _ => none⟩).tableFrame j =
      if j = i then some t else d.tableFrame j := by
    intro j
    by_cases hj : j = i <;> simp [PageDir.tableFrame, PageDir.setTable, hj]
  have hnone : ∀ j, (d.setTable i ⟨t, fun _ => none⟩).table j = none ↔ j ≠ i ∧ d.table j = none := by
    intro j
    by_cases hj : j = i <;> simp [PageDir.setTable, hj]
  refine ⟨fun v => by rw [h.pages, PageDir.lookup_setTable_empty hi], fun j hj => ?_,
    fun t' ht' => ?_, fun j t' hj => ?_, ?_, h.first.trans hfirst, h.ram⟩
  · have hne : j ≠ i := fun heq => hj (by rw [heq, hi])
    rw [h.old j (fun h => hj ((hnone j).1 h).2), htables, if_neg hne]
  · rcases List.mem_cons.1 ht' with rfl | ht'
    · exact ⟨i, hi, by rw [h.old i (fun h => ((hnone i).1 h).1 rfl), htables, if_pos rfl]⟩
    · obtain ⟨j, hj, hjt⟩ := h.new t' ht'
      exact ⟨j, ((hnone j).1 hj).2, hjt⟩
  · rw [List.mem_cons]
    rcases h.only j t' hj with hold | hnew
    · rw [htables] at hold
      split_ifs at hold with hji
      · exact .inr (.inl (Option.some.inj hold).symm)
      · exact .inl hold
    · exact .inr (.inr hnew)
  · calc m.free.Perm (t :: m₁.free) := hfree
      _ |>.Perm (t :: (os.map Prod.snd ++ (ts ++ m'.free))) := h.frames.cons t
      _ |>.Perm (os.map Prod.snd ++ (t :: ts ++ m'.free)) := List.perm_middle.symm

theorem has_setPte (d : PageDir) (v : Nat) (x : Option Pte) : (d.setPte v x).has = d.has := by
  funext i
  rw [Bool.eq_iff_iff, PageDir.has, PageDir.has, Option.isSome_iff_ne_none,
    Option.isSome_iff_ne_none, ne_eq, PageDir.table_setPte_eq_none]

theorem has_setTable (d : PageDir) (i : Nat) (t : Table) :
    (d.setTable i t).has = Function.update d.has i true := by
  funext j
  by_cases hj : j = i <;> simp [PageDir.has, PageDir.setTable, hj]

theorem wp_refusing_mappages {E : Halt → Mem × List Bool → Prop}
    {Q : PageDir × Bool → Mem × List Bool → Prop} {w u : Bool} (ha : a < 2 ^ 20)
    (hE : d.lookup a ≠ none → E (.panic "remap") (m, bs))
    (hold : d.table (a / NPTENTRIES) ≠ none → d.lookup a = none →
      Q (d.setPte a (some ⟨g, w, u⟩), true) (m, bs))
    (hfail : d.table (a / NPTENTRIES) = none → bs.headD false = true ∨ m.free = [] →
      Q (d, false) (m, bs.tail))
    (hnew : ∀ t ts, d.table (a / NPTENTRIES) = none → bs.headD false = false → m.free = t :: ts →
      Q ((d.setTable (a / NPTENTRIES) ⟨t, fun _ => none⟩).setPte a (some ⟨g, w, u⟩), true)
        ({ m with free := ts }, bs.tail)) :
    (refusing (mappages d (a * PGSIZE) PGSIZE g w u)).wp (fun _ => True) E Q (m, bs) := by
  by_cases ht : d.table (a / NPTENTRIES) = none
  · rw [mappages_new ha ht]
    exact wp_refusing_bind (wp_refusing_kalloc (hfail ht) fun t ts => hnew t ts ht)
  · rw [mappages_old ha ht]
    cases hlook : d.lookup a with
    | none => exact hold ht hlook
    | some pte => exact wp_refusing_panic (hE (by simp [hlook]))

theorem ends_fillLoop (hn : a + n ≤ 2 ^ 20)
    (hempty : ∀ v, a ≤ v → v < a + n → d.lookup v = none) :
    (refusing (fillLoop n d a st)).ends (fun r s => ∃ os ts,
      os.map Prod.fst = grants n d.has a bs m.free.length ∧ os.length ≤ n ∧
      (r.1.2 = true ↔ os.length = n) ∧ Fills d m st a os ts r.1.1 s.1 r.2) (m, bs) := by
  induction n generalizing d a m st bs with
  | zero => exact ⟨[], [], rfl, le_refl 0, by simp, Fills.zero d m st a⟩
  | succ n ih =>
    rw [fillLoop, grants]
    apply wp_refusing_bind
    apply wp_refusing_kalloc
    · intro hno
      rw [if_pos (hno.imp_right List.length_eq_zero_iff.2)]
      exact ⟨[], [], rfl, Nat.zero_le _, by simp, Fills.zero d m st a⟩
    intro g gs hb hfree
    have hpte : ∀ d₀ : PageDir, d₀.table (a / NPTENTRIES) ≠ none → ∀ v,
        (d₀.setPte a (some ⟨g, true, true⟩)).lookup v =
          if v = a ∧ true = true then some ⟨g, true, true⟩ else d₀.lookup v := by
      intro d₀ ht v
      by_cases hv : v = a
      · rw [hv, PageDir.lookup_setPte_self ht, if_pos ⟨rfl, rfl⟩]
      · rw [PageDir.lookup_setPte_of_ne hv, if_neg (fun h => hv h.1)]
    have hrest : ∀ d₀ : PageDir, (∀ w, d₀.lookup w = d.lookup w) → ∀ v, a + 1 ≤ v →
        v < a + 1 + n → (d₀.setPte a (some ⟨g, true, true⟩)).lookup v = none := by
      intro d₀ hd₀ v hle hlt
      rw [PageDir.lookup_setPte_of_ne (by omega), hd₀, hempty v (by omega) (by omega)]
    rw [if_neg (by rw [hb, hfree]; simp), hfree, List.length_cons, Nat.add_sub_cancel]
    apply wp_refusing_bind
    apply wp_refusing_mappages (by omega) (fun h => h (hempty a (le_refl a) (by omega)))
    · intro ht _
      have hhas : d.has (a / NPTENTRIES) = true := Option.isSome_iff_ne_none.2 ht
      rw [if_pos hhas, ← has_setPte d a (some ⟨g, true, true⟩)]
      refine Prog.wp_imp (ih (by omega) (hrest d fun _ => rfl)) ?_
      rintro r s ⟨os, ts, hos, hlen, hok, hf⟩
      exact ⟨(true, g) :: os, ts, by simp [hos], by simpa using hlen, by simpa using hok,
        hf.page hfree (funext fun i => PageDir.table_setPte_map d a i _) (hpte d ht)⟩
    · intro ht hno
      -- the page is lost, and the loop goes on
      simp only at hno
      rw [if_neg (by simp [PageDir.has, ht]), if_pos (hno.imp_right List.length_eq_zero_iff.2)]
      refine Prog.wp_imp (ih (by omega) fun v hle hlt => hempty v (by omega) (by omega)) ?_
      rintro r s ⟨os, ts, hos, hlen, hok, hf⟩
      exact ⟨(false, g) :: os, ts, by simp [hos], by simpa using hlen, by simpa using hok,
        hf.page hfree rfl (fun v => by simp)⟩
    · intro t ts ht hb' hts
      simp only at hts
      subst hts
      rw [if_neg (by simp [PageDir.has, ht]), if_neg (by rw [hb']; simp), List.length_cons,
        Nat.add_sub_cancel, ← has_setTable d _ ⟨t, fun _ => none⟩,
        ← has_setPte _ a (some ⟨g, true, true⟩)]
      refine Prog.wp_imp (ih (by omega) (hrest _ (PageDir.lookup_setTable_empty ht t))) ?_
      rintro r s ⟨os, ts', hos, hlen, hok, hf⟩
      have hpage : Fills _ { m with free := g :: ts } st a ((true, g) :: os) ts' r.1.1 s.1 r.2 :=
        hf.page rfl (funext fun i => PageDir.table_setPte_map _ a i _)
          (hpte _ (by simp [PageDir.setTable]))
      refine ⟨_, t :: ts', by simp [hos], by simpa using hlen, by simpa using hok,
        Fills.table ?_ ?_ ht hpage⟩
      · rw [hfree]
        exact .swap t g ts
      · rfl

end Loop

/-! ## The whole function -/

/-- The free list has distinct pages that the allocator takes back and that are not shared. -/
structure Stock (S : Frame → Bool) (m : Mem) : Prop where
  nodup : m.free.Nodup
  ram : ∀ f ∈ m.free, f ≠ 0 ∧ m.isRam f = true ∧ S f = false

/-- Each page from `lo` up to `hi` is mapped to a page of its own, which was free and is
cleared. -/
structure Mapped (d : PageDir) (m : Mem) (st : Ram) (lo hi : Nat) (d' : PageDir) (m' : Mem)
    (st' : Ram) : Prop where
  fresh : ∀ v, lo ≤ v → v < hi → ∃ f, f ∈ m.free ∧ f ∉ m'.free ∧
    d'.lookup v = some ⟨f, true, true⟩ ∧ st' f = fun _ => 0
  distinct : ∀ v w, lo ≤ v → v < hi → lo ≤ w → w < hi → d'.userFrame v = d'.userFrame w → v = w
  rest : ∀ v, v < lo ∨ hi ≤ v → d'.lookup v = d.lookup v

/-- Nothing is mapped, and all pages are free again but those for page tables. -/
structure Restored (d : PageDir) (m : Mem) (d' : PageDir) (m' : Mem) : Prop where
  same : ∀ v, d'.lookup v = d.lookup v
  back : ∀ f ∈ m.free, f ∈ m'.free ∨ ∃ i, d.table i = none ∧ d'.tableFrame i = some f

def AllOrNothing (d : PageDir) (m : Mem) (st : Ram) (oldsz newsz : Nat)
    (r : (PageDir × Nat) × Ram) (m' : Mem) : Prop :=
  r.1.2 = newsz ∧ Mapped d m st (pages oldsz) (pages newsz) r.1.1 m' r.2 ∨
    r.1.2 = 0 ∧ Restored d m r.1.1 m'

def allocuvmGrants (d : PageDir) (m : Mem) (oldsz newsz : Nat) (bs : List Bool) : List Bool :=
  grants (pages newsz - pages oldsz) d.has (pages oldsz) bs m.free.length

section Whole

variable {S : Frame → Bool} {d d₁ d' : PageDir} {m m₁ m' : Mem} {st st' : Ram} {lo hi : Nat}
  {os : List (Bool × Frame)} {ts : List Frame} {bs : List Bool} {oldsz newsz : Nat}

theorem Fills.mem (h : Fills d m st lo os ts d' m' st') {o : Bool × Frame} (ho : o ∈ os) :
    o.2 ∈ m.free :=
  h.frames.mem_iff.2 (List.mem_append_left _ (List.mem_map_of_mem ho))

theorem Fills.nodup (h : Fills d m st lo os ts d' m' st') (hs : m.free.Nodup) :
    (os.map Prod.snd).Nodup ∧ ∀ o ∈ os, o.2 ∉ ts ∧ o.2 ∉ m'.free := by
  have hall := h.frames.nodup_iff.1 hs
  rw [List.nodup_append] at hall
  refine ⟨hall.1, fun o ho => ?_⟩
  rw [← not_or, ← List.mem_append]
  exact fun hmem => hall.2.2 o.2 (List.mem_map_of_mem ho) o.2 hmem rfl

theorem Fills.lookup_page (h : Fills d m st lo os ts d' m' st') {k : Nat} (hk : k < os.length)
    (hok : os[k].1 = true) : d'.lookup (lo + k) = some ⟨os[k].2, true, true⟩ := by
  rw [h.pages, Nat.add_sub_cancel_left, List.getD_eq_getElem _ _ hk, if_pos ⟨by omega, hok⟩]

theorem Fills.page_eq (h : Fills d m st lo os ts d' m' st') {v : Nat} {pte : Pte} (hle : lo ≤ v)
    (hnone : d.lookup v = none) (hpte : d'.lookup v = some pte) :
    ∃ (k : Nat) (hk : k < os.length), v = lo + k ∧ os[k].1 = true ∧ pte = ⟨os[k].2, true, true⟩ := by
  obtain ⟨k, rfl⟩ := Nat.exists_eq_add_of_le hle
  rw [h.pages, hnone, Nat.add_sub_cancel_left] at hpte
  split_ifs at hpte with hok
  by_cases hk : k < os.length
  · rw [List.getD_eq_getElem _ _ hk] at hok hpte
    exact ⟨k, hk, rfl, hok.2, (Option.some.inj hpte).symm⟩
  · rw [List.getD_eq_default _ _ (by omega)] at hok
    exact absurd hok.2 (by simp)

theorem frame_inj (hnodup : (os.map Prod.snd).Nodup) {j k : Nat} (hj : j < os.length)
    (hk : k < os.length) (heq : os[j].2 = os[k].2) : j = k := by
  have hj' : j < (os.map Prod.snd).length := by simpa using hj
  have hk' : k < (os.map Prod.snd).length := by simpa using hk
  have heq' : (os.map Prod.snd)[j] = (os.map Prod.snd)[k] := by simpa using heq
  exact hnodup.getElem_inj_iff.1 heq'

theorem Fills.mapped_iff (h : Fills d m st lo os ts d' m' st') (hs : m.free.Nodup)
    (hempty : ∀ v, lo ≤ v → v < lo + os.length → d.lookup v = none) :
    Mapped d m st lo (lo + os.length) d' m' st' ↔ false ∉ os.map Prod.fst := by
  obtain ⟨hnodup, hapart⟩ := h.nodup hs
  constructor
  · intro hm hmem
    obtain ⟨o, ho, hbad⟩ := List.mem_map.1 hmem
    obtain ⟨k, hk, rfl⟩ := List.getElem_of_mem ho
    obtain ⟨f, _, _, hpte, _⟩ := hm.fresh (lo + k) (by omega) (by omega)
    rw [h.pages, Nat.add_sub_cancel_left, List.getD_eq_getElem _ _ hk, hbad, if_neg (by simp),
      hempty _ (by omega) (by omega)] at hpte
    cases hpte
  · intro hall
    have hok : ∀ (k : Nat) (hk : k < os.length), os[k].1 = true := by
      intro k hk
      by_contra hfalse
      exact hall (List.mem_map.2 ⟨os[k], List.getElem_mem hk, by simpa using hfalse⟩)
    refine ⟨fun v hle hlt => ?_, fun v w hv hv' hw hw' heq => ?_, fun v hv => ?_⟩
    · obtain ⟨k, rfl⟩ := Nat.exists_eq_add_of_le hle
      have hk : k < os.length := by omega
      refine ⟨os[k].2, h.mem (List.getElem_mem hk), (hapart _ (List.getElem_mem hk)).2,
        h.lookup_page hk (hok k hk), ?_⟩
      rw [h.ram, if_pos (List.mem_map_of_mem (List.getElem_mem hk))]
    · obtain ⟨j, rfl⟩ := Nat.exists_eq_add_of_le hv
      obtain ⟨k, rfl⟩ := Nat.exists_eq_add_of_le hw
      have hj : j < os.length := by omega
      have hk : k < os.length := by omega
      rw [PageDir.userFrame, PageDir.userFrame, h.lookup_page hj (hok j hj),
        h.lookup_page hk (hok k hk)] at heq
      rw [frame_inj hnodup hj hk (Option.some.inj heq)]
    · rw [h.pages, if_neg]
      rintro ⟨hle, hok'⟩
      rw [List.getD_eq_default _ _ (by omega)] at hok'
      cases hok'

theorem Fills.sweepable (h : Fills d m st lo os ts d' m' st') (hs : Stock S m)
    (hempty : ∀ v, lo ≤ v → v < hi → d.lookup v = none)
    (hlo : lo % NPTENTRIES = 0 ∨ d.table (lo / NPTENTRIES) ≠ none) : Sweepable S d' lo hi m' := by
  refine ⟨fun v hle hlt hsome => ?_, fun v pte hle hlt hpte => ?_,
    fun v w f hv hv' hw hw' _ hfv hfw => ?_⟩
  · rcases hlo with hzero | ht
    · exact .inl (by omega)
    by_cases hsame : v / NPTENTRIES = lo / NPTENTRIES
    · refine .inl (Nat.le_of_add_le_add_left (a := NPTENTRIES * (lo / NPTENTRIES)) ?_)
      rw [Nat.div_add_mod, ← hsame, Nat.div_add_mod]
      exact hle
    · have hdiv : lo / NPTENTRIES ≤ v / NPTENTRIES := Nat.div_le_div_right hle
      refine .inr ⟨lo / NPTENTRIES, le_refl _, by omega, fun hnone => ht ?_⟩
      have hframe := h.old _ ht
      rwa [PageDir.tableFrame, hnone, Option.map_none, eq_comm, PageDir.tableFrame,
        Option.map_eq_none_iff] at hframe
  · obtain ⟨k, hk, rfl, hok, rfl⟩ := h.page_eq hle (hempty v hle hlt) hpte
    have hram := hs.ram _ (h.mem (List.getElem_mem hk))
    refine ⟨hram.1, fun _ => ?_⟩
    rw [Mem.isRam, h.first]
    exact hram.2.1
  · obtain ⟨_, hpv, hgv⟩ := Option.map_eq_some_iff.1 hfv
    obtain ⟨_, hpw, hgw⟩ := Option.map_eq_some_iff.1 hfw
    obtain ⟨j, hj, rfl, _, rfl⟩ := h.page_eq hv (hempty v hv hv') hpv
    obtain ⟨k, hk, rfl, _, rfl⟩ := h.page_eq hw (hempty w hw hw') hpw
    rw [frame_inj (h.nodup hs.nodup).1 hj hk (hgv.trans hgw.symm)]

theorem Fills.same (h : Fills d m st lo os ts d₁ m₁ st')
    (hempty : ∀ v, lo ≤ v → v < hi → d.lookup v = none) (hlen : lo + os.length ≤ hi)
    (hfrees : Frees S d₁ lo hi m₁ d' m') (v : Nat) : d'.lookup v = d.lookup v := by
  by_cases hv : lo ≤ v ∧ v < hi
  · rw [hfrees.cleared v hv.1 hv.2, hempty v hv.1 hv.2]
  · rw [hfrees.rest v (by omega), h.pages, if_neg]
    rintro ⟨hle, hok⟩
    rw [List.getD_eq_default _ _ (by omega)] at hok
    cases hok

theorem Fills.restored_iff (h : Fills d m st lo os ts d₁ m₁ st') (hs : Stock S m)
    (hempty : ∀ v, lo ≤ v → v < hi → d.lookup v = none) (hlen : lo + os.length ≤ hi)
    (htables : d'.tableFrame = d₁.tableFrame) (hfrees : Frees S d₁ lo hi m₁ d' m') :
    Restored d m d' m' ↔ false ∉ os.map Prod.fst := by
  obtain ⟨fs, rfl, _, hmem⟩ := hfrees.freed
  obtain ⟨hnodup, hapart⟩ := h.nodup hs.nodup
  -- a page is given back exactly if it was mapped
  have hback : ∀ (k : Nat) (hk : k < os.length), os[k].2 ∈ fs ↔ os[k].1 = true := by
    intro k hk
    rw [hmem]
    constructor
    · rintro ⟨_, v, hle, hlt, hf⟩
      obtain ⟨_, hpte, hg⟩ := Option.map_eq_some_iff.1 hf
      obtain ⟨j, hj, rfl, hok, rfl⟩ := h.page_eq hle (hempty v hle hlt) hpte
      obtain rfl := frame_inj hnodup hj hk hg
      exact hok
    · intro hok
      refine ⟨(hs.ram _ (h.mem (List.getElem_mem hk))).2.2, lo + k, by omega, by omega, ?_⟩
      rw [PageDir.userFrame, h.lookup_page hk hok, Option.map_some]
  constructor
  · intro hr hbad
    obtain ⟨o, ho, hfalse⟩ := List.mem_map.1 hbad
    obtain ⟨k, hk, rfl⟩ := List.getElem_of_mem ho
    rcases hr.back _ (h.mem ho) with hfree | ⟨i, hi, hframe⟩
    · rcases List.mem_append.1 hfree with hfs | hm₁
      · exact absurd ((hback k hk).1 hfs) (by simp [hfalse])
      · exact (hapart _ ho).2 hm₁
    · rw [htables] at hframe
      rcases h.only i _ hframe with hold | ht
      · simp [PageDir.tableFrame, hi] at hold
      · exact (hapart _ ho).1 ht
  · intro hall
    refine ⟨h.same hempty hlen hfrees, fun f hf => ?_⟩
    simp only [List.mem_append]
    rcases List.mem_append.1 (h.frames.mem_iff.1 hf) with hmap | htf
    · obtain ⟨o, ho, rfl⟩ := List.mem_map.1 hmap
      obtain ⟨k, hk, rfl⟩ := List.getElem_of_mem ho
      refine .inl (.inl ((hback k hk).2 ?_))
      by_contra hfalse
      exact hall (List.mem_map.2 ⟨os[k], ho, by simpa using hfalse⟩)
    · rcases List.mem_append.1 htf with ht | hf
      · obtain ⟨i, hi, hframe⟩ := h.new f ht
        exact .inr ⟨i, hi, by rw [htables, hframe]⟩
      · exact .inl (.inr hf)

structure Allocated (S : Frame → Bool) (d : PageDir) (m : Mem) (st : Ram) (oldsz newsz : Nat)
    (bs : List Bool) (r : (PageDir × Nat) × Ram) (m' : Mem) (os : List (Bool × Frame))
    (ts : List Frame) : Prop where
  grants : os.map Prod.fst = allocuvmGrants d m oldsz newsz bs
  result : os.length = pages newsz - pages oldsz ∧ r.1.2 = newsz ∧
      Fills d m st (pages oldsz) os ts r.1.1 m' r.2 ∨
    os.length < pages newsz - pages oldsz ∧ r.1.2 = 0 ∧ ∃ d₁ m₁,
      Fills d m st (pages oldsz) os ts d₁ m₁ r.2 ∧ r.1.1.tableFrame = d₁.tableFrame ∧
      Frees S d₁ (pages oldsz) (pages newsz) m₁ r.1.1 m'

theorem pages_le_UPAGES (hlt : newsz < KERNBASE) : pages newsz ≤ UPAGES := by
  rw [← pages_kernbase]
  exact pages_mono hlt.le

theorem table_of_mapped (hmapped : ∀ v, v < UPAGES → (d.lookup v ≠ none ↔ v < pages oldsz))
    (hlt : oldsz < KERNBASE) :
    pages oldsz % NPTENTRIES = 0 ∨ d.table (pages oldsz / NPTENTRIES) ≠ none := by
  by_cases hzero : pages oldsz % NPTENTRIES = 0
  · exact .inl hzero
  · have hle := pages_le_UPAGES hlt
    have hpos : 0 < pages oldsz := Nat.pos_of_ne_zero fun h => hzero (by rw [h, Nat.zero_mod])
    have hlast := (hmapped (pages oldsz - 1) (by omega)).2 (by omega)
    obtain ⟨pte, hpte⟩ := Option.ne_none_iff_exists'.1 hlast
    have htable := PageDir.table_ne_none_of_lookup hpte
    have hnp : NPTENTRIES = 1024 := rfl
    rw [show (pages oldsz - 1) / NPTENTRIES = pages oldsz / NPTENTRIES by rw [hnp] at hzero ⊢; omega]
      at htable
    exact .inr htable

theorem empty_of_mapped (hmapped : ∀ v, v < UPAGES → (d.lookup v ≠ none ↔ v < pages oldsz))
    (hlt : newsz < KERNBASE) (v : Nat) (hv : pages oldsz ≤ v) (hv' : v < pages newsz) :
    d.lookup v = none := by
  have hpages := pages_le_UPAGES hlt
  by_contra hsome
  exact absurd ((hmapped v (by omega)).1 hsome) (by omega)

theorem ends_allocuvmRam (hs : Stock S m)
    (hmapped : ∀ v, v < UPAGES → (d.lookup v ≠ none ↔ v < pages oldsz)) (hle : oldsz ≤ newsz)
    (hlt : newsz < KERNBASE) : (refusing (allocuvmRam S d oldsz newsz st)).ends
      (fun r s => ∃ os ts, Allocated S d m st oldsz newsz bs r s.1 os ts) (m, bs) := by
  have hup : UPAGES = 2 ^ 19 := rfl
  have hpages := pages_le_UPAGES hlt
  have hmono := pages_mono hle
  have hempty := empty_of_mapped hmapped hlt
  unfold allocuvmRam
  rw [if_neg (by omega), if_neg (by omega), PGROUNDUP_div (by omega)]
  refine wp_refusing_seq (ends_fillLoop (by omega) fun v hv hv' => hempty v hv (by omega)) ?_
  rintro ⟨⟨d₁, ok⟩, st₁⟩ s ⟨os, ts, hos, hlen, hok, hfills⟩
  simp only at hok hfills
  cases ok with
  | true => exact ⟨os, ts, hos, .inl ⟨hok.1 rfl, rfl, hfills⟩⟩
  | false =>
    have hless : os.length < pages newsz - pages oldsz := by
      have hne : os.length ≠ pages newsz - pages oldsz := fun h => by simpa using hok.2 h
      omega
    have hsize : oldsz < newsz := by
      by_contra hnot
      obtain rfl : oldsz = newsz := by omega
      omega
    refine wp_refusing_seq (wp_refusing_steady steady_deallocuvm (ends_deallocuvm_frees hsize hlt.le
      (hfills.sweepable hs hempty (table_of_mapped hmapped (by omega))))) ?_
    rintro r s' ⟨_, htables, hfrees⟩
    exact ⟨os, ts, hos, .inr ⟨hless, rfl, d₁, _, hfills, htables, hfrees⟩⟩

end Whole

/-- `allocuvm` is all or nothing if it gets a page table with each page that it gets. -/
theorem allocuvm_all_or_nothing_iff (S : Frame → Bool) (d : PageDir) (m : Mem) (st : Ram)
    (bs : List Bool) (oldsz newsz : Nat) (hs : Stock S m)
    (hmapped : ∀ v, v < UPAGES → (d.lookup v ≠ none ↔ v < pages oldsz)) (hle : oldsz ≤ newsz)
    (hlt : newsz < KERNBASE) (hpos : 0 < newsz) :
    (∃ r s, (refusing (allocuvmRam S d oldsz newsz st)).run (m, bs) = .ok (r, s) ∧
      AllOrNothing d m st oldsz newsz r s.1) ↔ false ∉ allocuvmGrants d m oldsz newsz bs := by
  have hempty := empty_of_mapped hmapped hlt
  have hmono := pages_mono hle
  refine Prog.ends_run_iff (ends_allocuvmRam hs hmapped hle hlt) ?_
  rintro r s ⟨os, ts, halloc⟩
  rw [← halloc.grants]
  rcases halloc.result with ⟨hlen, hr, hfills⟩ | ⟨hlen, hr, d₁, m₁, hfills, htables, hfrees⟩
  · have hhi : pages oldsz + os.length = pages newsz := by omega
    rw [AllOrNothing, hr, ← hhi, hfills.mapped_iff hs.nodup fun v h h' => hempty v h (by omega)]
    simp [hpos.ne']
  · rw [AllOrNothing, hr, hfills.restored_iff hs hempty (by omega) htables hfrees]
    simp [hpos.ne]

def bareDir : PageDir := ⟨400, fun _ => none⟩

theorem bareDir_mapped (v : Nat) : bareDir.lookup v ≠ none ↔ v < pages 0 := by
  have hzero : pages 0 = 0 := by decide
  simp [PageDir.lookup, bareDir, hzero]

theorem stock_of_lt {m : Mem} (hfirst : m.first = 500) (hnodup : m.free.Nodup)
    (hfree : ∀ f ∈ m.free, 500 ≤ f ∧ f < 600) : Stock (fun _ => false) m := by
  refine ⟨hnodup, fun f hf => ?_⟩
  obtain ⟨hle, hlt⟩ := hfree f hf
  refine ⟨Nat.ne_of_gt (Nat.lt_of_lt_of_le (by decide) hle), ?_, rfl⟩
  rw [Mem.isRam, hfirst, decide_eq_true_eq]
  exact ⟨hle, Nat.lt_trans hlt (by decide)⟩

theorem allocuvm_all_or_nothing_iff_two :
    allocuvmGrants bareDir ⟨0, 500, 0, [500, 501]⟩ 0 PGSIZE [] = [true] ∧
      ∃ r s, (refusing (allocuvmRam (fun _ => false) bareDir 0 PGSIZE fun _ _ => 1)).run
        (⟨0, 500, 0, [500, 501]⟩, []) = .ok (r, s) ∧
        AllOrNothing bareDir ⟨0, 500, 0, [500, 501]⟩ (fun _ _ => 1) 0 PGSIZE r s.1 :=
  ⟨by decide, (allocuvm_all_or_nothing_iff _ _ _ _ _ _ _ (stock_of_lt rfl (by simp) (by simp))
    (fun v _ => bareDir_mapped v) (Nat.zero_le _) (by decide) (by decide)).2 (by decide)⟩

/-- With one free page left there is none for the page table; `allocuvm` returns the new size all
the same. -/
theorem allocuvm_one_page_short :
    ¬ ∀ (S : Frame → Bool) (d : PageDir) (m : Mem) (st : Ram) (bs : List Bool) (oldsz newsz : Nat),
      Stock S m → (∀ v, v < UPAGES → (d.lookup v ≠ none ↔ v < pages oldsz)) → oldsz ≤ newsz →
      newsz < KERNBASE → 0 < newsz →
      ∃ r s, (refusing (allocuvmRam S d oldsz newsz st)).run (m, bs) = .ok (r, s) ∧
        AllOrNothing d m st oldsz newsz r s.1 := by
  intro hall
  have hstock : Stock (fun _ => false) ⟨0, 500, 0, [500]⟩ := stock_of_lt rfl (by simp) (by simp)
  obtain ⟨r, s, hrun, hout⟩ := hall (fun _ => false) bareDir ⟨0, 500, 0, [500]⟩ (fun _ _ => 1) []
    0 PGSIZE hstock (fun v _ => bareDir_mapped v) (Nat.zero_le _) (by decide) (by decide)
  obtain ⟨os, ts, halloc⟩ := (Prog.wp_run (ends_allocuvmRam hstock (fun v _ => bareDir_mapped v)
    (Nat.zero_le _) (by decide))).1 _ _ hrun
  have hgrants : os.map Prod.fst = [false] := halloc.grants
  have hlen : os.length = pages PGSIZE - pages 0 := by
    rw [← List.length_map Prod.fst, hgrants]
    decide
  rcases halloc.result with ⟨_, hr, hfills⟩ | ⟨hless, _⟩
  · rcases hout with ⟨_, hmapped⟩ | ⟨hzero, _⟩
    · have hno := (hfills.mapped_iff hstock.nodup fun v _ _ => by
        simp [PageDir.lookup, bareDir]).1 (by rw [hlen]; exact hmapped)
      rw [hgrants] at hno
      exact hno (by simp)
    · exact absurd (hr.symm.trans hzero) (by decide)
  · exact absurd hless (by omega)

end Xv6.Vm
