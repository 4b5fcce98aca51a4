import Xv6.Fs.LogRules

/-!
# Recovery can be interrupted

What recovery will make of a disk is a function of the disk, `view`.  Copying
blocks home does not change it, and erasing the header afterwards does not
either, so recovery may crash and start again any number of times.
-/

namespace Xv6.Fs

open Xv6.Lib

/-! ## What recovery makes of a disk -/

def replay (sector : Nat → Nat) (blocks : Nat → Block) : Nat → (Nat → Block) → Nat → Block
  | 0, h => h
  | k + 1, h => Function.update (replay sector blocks k h) (sector k) (blocks k)

section Replay

variable {sector : Nat → Nat} {blocks : Nat → Block} {h h' : Nat → Block} {i j k : Nat}

theorem replay_of_notMem (hi : ∀ l, l < k → sector l ≠ i) :
    replay sector blocks k h i = h i := by
  induction k with
  | zero => rfl
  | succ k ih =>
    rw [replay, Function.update_of_ne (Ne.symm (hi k (by omega)))]
    exact ih fun l hl => hi l (by omega)

theorem replay_congr (hi : h i = h' i ∨ ∃ l, l < k ∧ sector l = i) :
    replay sector blocks k h i = replay sector blocks k h' i := by
  induction k with
  | zero => simpa [replay] using hi
  | succ k ih =>
    simp only [replay]
    by_cases hk : i = sector k
    · simp [hk]
    · rw [Function.update_of_ne hk, Function.update_of_ne hk]
      apply ih
      rcases hi with heq | ⟨l, hl, rfl⟩
      · exact .inl heq
      · refine .inr ⟨l, ?_, rfl⟩
        have hne : l ≠ k := fun hlk => hk (by rw [hlk])
        omega

theorem replay_replay (hjk : j ≤ k) :
    replay sector blocks k (replay sector blocks j h) = replay sector blocks k h := by
  funext i
  by_cases hi : ∃ l, l < k ∧ sector l = i
  · exact replay_congr (.inr hi)
  · push Not at hi
    rw [replay_of_notMem hi, replay_of_notMem hi]
    exact replay_of_notMem fun l hl => hi l (by omega)

theorem replay_of_mem (hinj : ∀ l, l < k → sector l = sector j → l = j) (hj : j < k) :
    replay sector blocks k h (sector j) = blocks j := by
  induction k with
  | zero => omega
  | succ k ih =>
    rw [replay]
    by_cases hjk : j = k
    · subst hjk
      rw [Function.update_self]
    · have hne : sector j ≠ sector k := fun heq => hjk (hinj k (by omega) heq.symm).symm
      rw [Function.update_of_ne hne]
      exact ih (fun l hl => hinj l (by omega)) (by omega)

theorem replay_ext {sector' : Nat → Nat} {blocks' : Nat → Block}
    (hs : ∀ l, l < k → sector l = sector' l) (hb : ∀ l, l < k → blocks l = blocks' l) :
    replay sector blocks k h = replay sector' blocks' k h := by
  induction k with
  | zero => rfl
  | succ k ih =>
    rw [replay, replay, ih (fun l hl => hs l (by omega)) fun l hl => hb l (by omega),
      hs k (by omega), hb k (by omega)]

end Replay

/-! ## The header block -/

theorem get_putSectors (sector : Nat → Nat) (b : Block) (k : Nat) :
    (putSectors sector k b).get 0 4 = b.get 0 4 := by
  induction k with
  | zero => rfl
  | succ k ih => rw [putSectors, Bytes.get_set_of_disjoint (by omega), ih]

theorem headSector_putSectors {sector : Nat → Nat} {b : Block} {i k : Nat} (hi : i < k)
    (hk : k ≤ LOGSIZE) (hlt : sector i < 2 ^ 32) :
    headSector (putSectors sector k b) i = sector i := by
  unfold headSector
  simp only [LOGSIZE] at hk
  induction k with
  | zero => omega
  | succ k ih =>
    rw [putSectors]
    by_cases hik : i = k
    · subst hik
      apply Bytes.get_set_self
      · simp only [BSIZE]
        omega
      · exact hlt
    · rw [Bytes.get_set_of_disjoint (by omega)]
      exact ih (by omega) (by omega)

theorem headN_putHead {sector : Nat → Nat} {b : Block} {n : Nat} (hn : n ≤ LOGSIZE) :
    headN (putHead n sector b) = n := by
  simp only [LOGSIZE] at hn
  have hget : (putHead n sector b).get 0 4 = n := by
    rw [putHead, get_putSectors, Bytes.get_set_self (by simp only [BSIZE]; omega) (by omega)]
  rw [headN, hget, if_pos (by omega)]

theorem headSector_putHead {sector : Nat → Nat} {b : Block} {i n : Nat} (hi : i < n)
    (hn : n ≤ LOGSIZE) (hlt : sector i < 2 ^ 32) :
    headSector (putHead n sector b) i = sector i :=
  headSector_putSectors hi hn hlt

variable (a : LogArea)

def view (d : Nat → Block) : Nat → Block :=
  replay (headSector (d a.start)) (fun i => d (a.start + i + 1)) (headN (d a.start)) d

/-- The header is empty or names blocks of the log and home locations. -/
structure LogOk (d : Nat → Block) : Prop where
  le : headN (d a.start) ≤ LOGSIZE
  home : ∀ i, i < headN (d a.start) → headSector (d a.start) i < a.start

def SameHome (f g : Nat → Block) : Prop := ∀ i, i < a.start → f i = g i

/-- The disk is well formed and recovery would leave `v` below the log. -/
def Holds (d v : Nat → Block) : Prop := LogOk a d ∧ SameHome a (view a d) v

theorem view_of_empty {d : Nat → Block} (h : headN (d a.start) = 0) : view a d = d := by
  simp [view, h, replay]

theorem holds_of_empty {d v : Nat → Block} (h : headN (d a.start) = 0) (hv : SameHome a d v) :
    Holds a d v := by
  refine ⟨⟨by simp [h], by simp [h]⟩, ?_⟩
  rwa [view_of_empty a h]

/-- A header block for a log whose blocks are `blocks`, over the home locations
`h`. -/
structure OnDisk (hb : Block) (blocks : Nat → Block) (h d : Nat → Block) : Prop where
  head : d a.start = hb
  log : ∀ i, i < headN hb → d (a.start + i + 1) = blocks i
  home : SameHome a d h

section Install

variable {a} {hb : Block} {blocks h d : Nat → Block} {j : Nat}

theorem OnDisk.holds (hle : headN hb ≤ LOGSIZE)
    (hsec : ∀ i, i < headN hb → headSector hb i < a.start) (hj : j ≤ headN hb)
    (hd : OnDisk a hb blocks (replay (headSector hb) blocks j h) d) :
    Holds a d (replay (headSector hb) blocks (headN hb) h) := by
  refine ⟨⟨by simpa only [hd.head] using hle, by simpa only [hd.head] using hsec⟩,
    fun i hi => ?_⟩
  have hlog : replay (headSector hb) (fun i => d (a.start + i + 1)) (headN hb) d =
      replay (headSector hb) blocks (headN hb) d := replay_ext (fun _ _ => rfl) hd.log
  calc view a d i = replay (headSector hb) blocks (headN hb) d i := by
        rw [view, hd.head, hlog]
    _ = replay (headSector hb) blocks (headN hb) (replay (headSector hb) blocks j h) i :=
        replay_congr (.inl (hd.home i hi))
    _ = replay (headSector hb) blocks (headN hb) h i := by rw [replay_replay hj]

theorem OnDisk.copy (hsec : headSector hb j < a.start)
    (hd : OnDisk a hb blocks (replay (headSector hb) blocks j h) d) :
    OnDisk a hb blocks (replay (headSector hb) blocks (j + 1) h)
      (Function.update d (headSector hb j) (blocks j)) := by
  refine ⟨?_, fun i hi => ?_, fun i hi => ?_⟩
  · rw [Function.update_of_ne (by omega)]
    exact hd.head
  · rw [Function.update_of_ne (by omega)]
    exact hd.log i hi
  · rw [replay]
    by_cases hij : i = headSector hb j
    · simp [hij]
    · rw [Function.update_of_ne hij, Function.update_of_ne hij]
      exact hd.home i hi

def cleaned (sector : Nat → Nat) (m : Nat → Status) : Nat → Nat → Status
  | 0 => m
  | j + 1 => Function.update (cleaned sector m j) (sector j) .clean

theorem cleaned_of_notMem {sector : Nat → Nat} {m : Nat → Status} {i : Nat}
    (hi : ∀ l, l < j → sector l ≠ i) : cleaned sector m j i = m i := by
  induction j with
  | zero => rfl
  | succ j ih =>
    rw [cleaned, Function.update_of_ne (Ne.symm (hi j (by omega)))]
    exact ih fun l hl => hi l (by omega)

theorem cleaned_of_mem {sector : Nat → Nat} {m : Nat → Status} {l : Nat} (hl : l < j) :
    cleaned sector m j (sector l) = .clean := by
  induction j with
  | zero => omega
  | succ j ih =>
    rw [cleaned]
    by_cases heq : sector l = sector j
    · simp [heq]
    · rw [Function.update_of_ne heq]
      have hne : l ≠ j := fun hlj => heq (by rw [hlj])
      exact ih (by omega)

theorem cleaned_ne_out {sector : Nat → Nat} {m : Nat → Status} (hm : ∀ i, m i ≠ .out) (i : Nat) :
    cleaned sector m j i ≠ .out := by
  induction j with
  | zero => exact hm i
  | succ j ih =>
    rw [cleaned]
    by_cases heq : i = sector j
    · simp [heq]
    · rwa [Function.update_of_ne heq]

end Install

section Programs

variable {a} {X : Prop} {m : Nat → Status} {s : LogState} {C : LogState → Prop}

theorem wp_installOne {hb : Block} {blocks h : Nat → Block} {r j : Nat} {t : LogState}
    (hle : headN hb ≤ LOGSIZE) (hsec : ∀ i, i < headN hb → headSector hb i < a.start)
    (hC : ∀ t : LogState, Holds a t.disk (replay (headSector hb) blocks (headN hb) h) →
      t.returned = r → C t) (hr : s.returned = r)
    (hs : ∀ i, i < headN hb → s.sector i = headSector hb i) (hout : ∀ i, m i ≠ .out)
    (hclean : ∀ i, i < headN hb → m (a.start + i + 1) = .clean) (hj : j < headN hb)
    (hcore : t.toCore = { s.toCore with disk := t.disk })
    (hdt : OnDisk a hb blocks (replay (headSector hb) blocks j h) t.disk)
    (hmt : Caches X (cleaned (headSector hb) m j) t) :
    (do
      let lbuf ← bread (a.start + j + 1)
      let home ← field fun s => s.sector j
      let dbuf ← bread home
      let dbuf ← bwrite { dbuf with data := lbuf.data }
      brelse lbuf
      brelse dbuf : LogM Unit).wp C (Halts C X) (fun _ u =>
        u.toCore = { s.toCore with disk := u.disk } ∧
          OnDisk a hb blocks (replay (headSector hb) blocks (j + 1) h) u.disk ∧
          Caches X (cleaned (headSector hb) m (j + 1)) u) t := by
  have hCj : ∀ u : LogState, u.toCore = t.toCore → C u := by
    intro u hu
    apply hC u
    · rw [hu]
      exact hdt.holds hle hsec hj.le
    · rw [hu, hcore]
      exact hr
  have hlogne : ∀ l, l < j → headSector hb l ≠ a.start + j + 1 := by
    intro l hl
    have hlt := hsec l (by omega)
    omega
  have hne : headSector hb j ≠ a.start + j + 1 := by
    have hlt := hsec j hj
    omega
  have hlogclean : cleaned (headSector hb) m j (a.start + j + 1) = .clean := by
    rw [cleaned_of_notMem hlogne, hclean j hj]
  refine Prog.wp_bind (wp_bread (hCj t rfl) hmt (cleaned_ne_out hout _) ?_)
  intro lbuf t₁ hlsec hlbuf hcore₁ hm₁
  rw [hlogclean] at hlbuf
  refine Prog.wp_bind (wp_field (hCj t₁ hcore₁) ?_)
  have hhome : t₁.sector j = headSector hb j := by
    rw [hcore₁, hcore]
    exact hs j hj
  rw [hhome]
  refine Prog.wp_bind (wp_bread (hCj t₁ hcore₁) hm₁ ?_ ?_)
  · rw [Function.update_of_ne hne]
    exact cleaned_ne_out hout _
  intro dbuf t₂ hdsec _ hcore₂ hm₂
  have hcore₂' : t₂.toCore = t.toCore := hcore₂.trans hcore₁
  refine Prog.wp_bind (wp_bwrite (hCj t₂ hcore₂') hm₂ (by simp [hdsec]) ?_)
  intro t₃ hcore₃ hm₃
  -- the block is home now
  have hdata : lbuf.data = blocks j := hlbuf.1.trans (hdt.log j hj)
  have hdisk₃ : t₃.disk = Function.update t.disk (headSector hb j) (blocks j) := by
    rw [hcore₃, hcore₂']
    simp only [hdsec, hdata]
  have hcoreEnd : ∀ u : LogState, u.toCore = t₃.toCore →
      u.toCore = { s.toCore with disk := u.disk } := by
    intro u hu
    rw [hu, hcore₃, hcore₂', hcore]
  have hd₃ := hdt.copy (hsec j hj)
  have hC₃ : ∀ u : LogState, u.toCore = t₃.toCore → C u := by
    intro u hu
    apply hC u
    · rw [hu, hdisk₃]
      exact hd₃.holds hle hsec (by omega)
    · rw [hcoreEnd u hu]
      exact hr
  refine Prog.wp_bind (wp_brelse_clean (hC₃ t₃ rfl) hm₃ hlbuf.2 ?_ ?_)
  · rw [hdisk₃, hlsec, Function.update_of_ne (Ne.symm hne), hlbuf.1]
  intro t₄ hcore₄ hm₄
  refine wp_brelse_clean (hC₃ t₄ hcore₄) hm₄ rfl ?_ ?_
  · rw [hcore₄, hdisk₃]
    simp [hdsec, hdata]
  intro t₅ hcore₅ hm₅
  have hcore₅' : t₅.toCore = t₃.toCore := hcore₅.trans hcore₄
  refine ⟨hcoreEnd t₅ hcore₅', ?_, ?_⟩
  · rw [hcore₅', hdisk₃]
    exact hd₃
  · have hstat : cleaned (headSector hb) m (j + 1) = Function.update (Function.update
        (Function.update (Function.update (cleaned (headSector hb) m j) (a.start + j + 1) .out)
          (headSector hb j) .out) lbuf.sector .clean) dbuf.sector .clean := by
      funext i
      rw [cleaned, hlsec, hdsec]
      by_cases hi : i = headSector hb j
      · simp [hi]
      · by_cases hi' : i = a.start + j + 1
        · subst hi'
          simp [Ne.symm hne, hlogclean]
        · simp [hi, hi']
    rw [hstat]
    exact hm₅

theorem wp_installTrans {hb : Block} {blocks h : Nat → Block} {r : Nat}
    (hle : headN hb ≤ LOGSIZE) (hsec : ∀ i, i < headN hb → headSector hb i < a.start)
    (hC : ∀ t : LogState, Holds a t.disk (replay (headSector hb) blocks (headN hb) h) →
      t.returned = r → C t)
    (hd : OnDisk a hb blocks h s.disk) (hn : s.n = headN hb)
    (hs : ∀ i, i < headN hb → s.sector i = headSector hb i) (hr : s.returned = r)
    (hm : Caches X m s) (hout : ∀ i, m i ≠ .out)
    (hclean : ∀ i, i < headN hb → m (a.start + i + 1) = .clean) :
    (installTrans a).wp C (Halts C X) (fun _ t =>
      t.toCore = { s.toCore with disk := t.disk } ∧
        OnDisk a hb blocks (replay (headSector hb) blocks (headN hb) h) t.disk ∧
        Caches X (cleaned (headSector hb) m (headN hb)) t) s := by
  have hstart : C s := hC s (hd.holds hle hsec (Nat.zero_le _)) hr
  apply Prog.wp_bind
  apply wp_field hstart
  rw [hn]
  refine Prog.wp_forRange (I := fun j (t : LogState) => t.toCore = { s.toCore with disk := t.disk } ∧
      OnDisk a hb blocks (replay (headSector hb) blocks j h) t.disk ∧
      Caches X (cleaned (headSector hb) m j) t) ⟨rfl, hd, hm⟩ ?_
  rintro j t hj ⟨hcore, hdt, hmt⟩
  exact wp_installOne hle hsec hC hr hs hout hclean hj hcore hdt hmt

theorem wp_writeHead {Q : Unit → LogState → Prop} (hC : ∀ t : LogState, t.toCore = s.toCore → C t)
    (hC' : ∀ (b : Block) (t : LogState), t.toCore = { s.toCore with
      disk := Function.update s.disk a.start (putHead s.n s.sector b) } → C t)
    (hm : Caches X m s) (hstart : m a.start = .clean)
    (hQ : ∀ (b : Block) (t : LogState), t.toCore = { s.toCore with
      disk := Function.update s.disk a.start (putHead s.n s.sector b) } → Caches X m t → Q () t) :
    (writeHead a).wp C (Halts C X) Q s := by
  refine Prog.wp_bind (wp_bread (hC s rfl) hm (by simp [hstart]) ?_)
  intro buf t₁ hsec _ hcore₁ hm₁
  refine Prog.wp_bind (wp_field (hC t₁ hcore₁) ?_)
  refine Prog.wp_bind (wp_bwrite (hC t₁ hcore₁) hm₁ (by simp [hsec]) ?_)
  intro t₂ hcore₂ hm₂
  simp only [hcore₁, hsec] at hcore₂ hm₂
  refine wp_brelse_clean (hC' buf.data t₂ hcore₂) hm₂ rfl ?_ ?_
  · simp [hcore₂, hcore₁, hsec]
  intro t₃ hcore₃ hm₃
  refine hQ buf.data t₃ (hcore₃.trans hcore₂) ?_
  have hstat : Function.update (Function.update m a.start .out) a.start .clean = m := by
    rw [Function.update_idem, ← hstart, Function.update_eq_self]
  simp only [hsec] at hm₃
  rwa [hstat] at hm₃

theorem wp_readHead {Q : Unit → LogState → Prop}
    (hC : ∀ t : LogState, t.disk = s.disk → t.returned = s.returned → C t)
    (hm : Caches X m s) (hstart : m a.start = .clean)
    (hQ : ∀ t : LogState, t.disk = s.disk → t.returned = s.returned → t.busy = s.busy →
      t.n = headN (s.disk a.start) →
      (∀ i, i < headN (s.disk a.start) → t.sector i = headSector (s.disk a.start) i) →
      Caches X m t → Q () t) :
    (readHead a).wp C (Halts C X) Q s := by
  refine Prog.wp_bind (wp_bread (hC s rfl rfl) hm (by simp [hstart]) ?_)
  intro buf t₁ hsec hbuf hcore₁ hm₁
  rw [hstart] at hbuf
  have hdisk₁ : t₁.disk = s.disk := congrArg Core.disk hcore₁
  have hret₁ : t₁.returned = s.returned := congrArg Core.returned hcore₁
  refine Prog.wp_bind (wp_assign (hC t₁ hdisk₁ hret₁) ?_)
  refine wp_brelse_clean (hC _ hdisk₁ hret₁) (hm₁.congr rfl rfl rfl) hbuf.2 ?_ ?_
  · simp [hdisk₁, hsec, hbuf.1]
  intro t₂ hcore₂ hm₂
  have hstat : Function.update (Function.update m a.start .out) buf.sector .clean = m := by
    rw [hsec, Function.update_idem, ← hstart, Function.update_eq_self]
  rw [hstat] at hm₂
  refine hQ t₂ ?_ ?_ ?_ ?_ ?_ hm₂
  · rw [hcore₂]
    exact hdisk₁
  · rw [hcore₂]
    exact hret₁
  · rw [hcore₂, ← hcore₁]
  · rw [hcore₂, ← hbuf.1]
  · intro i hi
    rw [← hbuf.1] at hi ⊢
    simp only [hcore₂, if_pos hi]

/-- The header is empty, the home locations are `h` and no transaction is open. -/
structure Idle (a : LogArea) (X : Prop) (h : Nat → Block) (r : Nat) (s : LogState) : Prop where
  empty : headN (s.disk a.start) = 0
  home : SameHome a s.disk h
  n : s.n = 0
  busy : s.busy = false
  returned : s.returned = r
  caches : Caches X (fun _ => .clean) s

theorem erased {d v : Nat → Block} (hv : SameHome a d v) (sector : Nat → Nat) (b : Block) :
    headN (Function.update d a.start (putHead 0 sector b) a.start) = 0 ∧
      SameHome a (Function.update d a.start (putHead 0 sector b)) v := by
  constructor
  · rw [Function.update_self]
    exact headN_putHead (Nat.zero_le _)
  · intro i hi
    rw [Function.update_of_ne (by omega)]
    exact hv i hi

theorem wp_finish {Q : Unit → LogState → Prop} {hb : Block} {blocks h v : Nat → Block} {r : Nat}
    (hle : headN hb ≤ LOGSIZE) (hsec : ∀ i, i < headN hb → headSector hb i < a.start)
    (hv : SameHome a (replay (headSector hb) blocks (headN hb) h) v)
    (hC : ∀ t : LogState, Holds a t.disk v → t.returned = r → C t)
    (hd : OnDisk a hb blocks h s.disk) (hn : s.n = headN hb)
    (hs : ∀ i, i < headN hb → s.sector i = headSector hb i) (hr : s.returned = r)
    (hm : Caches X m s) (hout : ∀ i, m i ≠ .out)
    (hclean : ∀ i, (∀ l, l < headN hb → headSector hb l ≠ i) → m i = .clean)
    (hQ : ∀ t : LogState, headN (t.disk a.start) = 0 → SameHome a t.disk v → t.n = 0 →
      t.busy = s.busy → t.returned = r → Caches X (fun _ => .clean) t → Q () t) :
    (do
      installTrans a
      assign fun s => { s with n := 0 }
      writeHead a : LogM Unit).wp C (Halts C X) Q s := by
  have hhold : ∀ d', Holds a d' (replay (headSector hb) blocks (headN hb) h) → Holds a d' v :=
    fun d' hd' => ⟨hd'.1, fun i hi => (hd'.2 i hi).trans (hv i hi)⟩
  have hlog : ∀ i, m (a.start + i + 1) = .clean := by
    intro i
    apply hclean
    intro l hl
    have hlt := hsec l hl
    omega
  refine Prog.wp_seq (wp_installTrans hle hsec (fun t ht => hC t (hhold _ ht)) hd hn hs hr hm hout
    fun i _ => hlog i) ?_
  rintro _ t₁ ⟨hcore₁, hd₁, hm₁⟩
  have hret₁ : t₁.returned = r := by
    rw [hcore₁]
    exact hr
  have hC₁ : C t₁ := hC t₁ (hhold _ (hd₁.holds hle hsec (Nat.le_refl _))) hret₁
  have hhome₁ : SameHome a t₁.disk v := fun i hi => (hd₁.home i hi).trans (hv i hi)
  have hstat : cleaned (headSector hb) m (headN hb) = fun _ => .clean := by
    funext i
    by_cases hi : ∃ l, l < headN hb ∧ headSector hb l = i
    · obtain ⟨l, hl, rfl⟩ := hi
      exact cleaned_of_mem hl
    · push Not at hi
      rw [cleaned_of_notMem hi, hclean i hi]
  rw [hstat] at hm₁
  refine Prog.wp_bind (wp_assign hC₁ ?_)
  refine wp_writeHead (m := fun _ => .clean) ?_ ?_ ⟨hm₁.holds, hm₁.turns⟩ rfl ?_
  · intro t ht
    have hdisk : t.disk = t₁.disk := by rw [ht]
    refine hC t ?_ ((congrArg Core.returned ht).trans hret₁)
    rw [hdisk]
    exact hhold _ (hd₁.holds hle hsec (Nat.le_refl _))
  · intro b t ht
    obtain ⟨hempty, hhome⟩ := erased hhome₁ t₁.sector b
    refine hC t ?_ ((congrArg Core.returned ht).trans hret₁)
    rw [ht]
    exact holds_of_empty a hempty hhome
  · intro b t ht hm
    obtain ⟨hempty, hhome⟩ := erased hhome₁ t₁.sector b
    refine hQ t ?_ ?_ (congrArg Core.n ht) ?_ ((congrArg Core.returned ht).trans hret₁) hm
    · rw [ht]
      exact hempty
    · rw [ht]
      exact hhome
    · rw [congrArg Core.busy ht, hcore₁]

theorem wp_recoverFromLog {v : Nat → Block} {r : Nat}
    (hC : ∀ t : LogState, Holds a t.disk v → t.returned = r → C t) (hd : Holds a s.disk v)
    (hr : s.returned = r) (hb : s.busy = false) (hm : Caches X (fun _ => .clean) s) :
    (recoverFromLog a).wp C (Halts C X) (fun _ => Idle a X v r) s := by
  refine Prog.wp_bind (wp_readHead (fun t ht hret => ?_) hm rfl ?_)
  · exact hC t (by rwa [ht]) (hret.trans hr)
  intro t₁ hdisk hret hbusy hn hs hm₁
  have hview : SameHome a (replay (headSector (s.disk a.start))
      (fun i => s.disk (a.start + i + 1)) (headN (s.disk a.start)) s.disk) v := hd.2
  refine wp_finish hd.1.le hd.1.home hview hC ?_ hn hs (hret.trans hr) hm₁ (by simp) (by simp) ?_
  · rw [hdisk]
    exact ⟨rfl, fun _ _ => rfl, fun _ _ => rfl⟩
  · intro t hempty hhome hn' hbusy' hret' hm'
    exact ⟨hempty, hhome, hn', hbusy'.trans (hbusy.trans hb), hret', hm'⟩

end Programs

end Xv6.Fs
