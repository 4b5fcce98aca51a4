import Xv6.Fs.LogCrash

/-!
# Transactions survive a crash whole

While the header is empty, writing blocks of the log leaves what recovery would
make of the disk alone; writing the header turns it into the state after the
transaction at once.  So after a crash anywhere, and any number of crashes during
recovery, recovery leaves the state after some number of whole transactions,
among them every one whose `commit_trans` had returned.
-/

namespace Xv6.Fs

open Xv6.Lib

/-! ## The state inside a transaction -/

def Write.apply (w : Write) (h : Nat → Block) : Nat → Block :=
  Function.update h w.sector (w.change (h w.sector))

def applyTx (h : Nat → Block) (ws : List Write) : Nat → Block :=
  ws.foldl (fun h w => w.apply h) h

def after (h : Nat → Block) (txs : List (List Write)) (k : Nat) : Nat → Block :=
  (txs.take k).foldl applyTx h

/-- The logged sectors are dirty in the cache, the others are clean. -/
def marked (sector : Nat → Nat) (cur : Nat → Block) : Nat → Nat → Status
  | 0 => fun _ => .clean
  | n + 1 => Function.update (marked sector cur n) (sector n) (.dirty (cur (sector n)))

theorem marked_of_notMem {sector : Nat → Nat} {cur : Nat → Block} {n i : Nat}
    (hi : ∀ l, l < n → sector l ≠ i) : marked sector cur n i = .clean := by
  induction n with
  | zero => rfl
  | succ n ih =>
    rw [marked, Function.update_of_ne (Ne.symm (hi n (by omega)))]
    exact ih fun l hl => hi l (by omega)

theorem marked_of_mem {sector : Nat → Nat} {cur : Nat → Block} {n l : Nat} (hl : l < n) :
    marked sector cur n (sector l) = .dirty (cur (sector l)) := by
  induction n with
  | zero => omega
  | succ n ih =>
    rw [marked]
    by_cases heq : sector l = sector n
    · simp [heq]
    · rw [Function.update_of_ne heq]
      have hne : l ≠ n := fun hln => heq (by rw [hln])
      exact ih (by omega)

theorem marked_ne_out (sector : Nat → Nat) (cur : Nat → Block) (n i : Nat) :
    marked sector cur n i ≠ .out := by
  by_cases hi : ∃ l, l < n ∧ sector l = i
  · obtain ⟨l, hl, rfl⟩ := hi
    simp [marked_of_mem hl]
  · push Not at hi
    simp [marked_of_notMem hi]

/-- Inside a transaction that started from the home locations `h` and has made
them `cur` in memory. -/
structure InTx (a : LogArea) (h cur : Nat → Block) (c : Core) : Prop where
  empty : headN (c.disk a.start) = 0
  home : SameHome a c.disk h
  le : c.n ≤ LOGSIZE
  below : ∀ i, i < c.n → c.sector i < a.start
  inj : ∀ i j, i < c.n → j < c.n → c.sector i = c.sector j → i = j
  log : ∀ i, i < c.n → c.disk (a.start + i + 1) = cur (c.sector i)
  rest : ∀ i, i < a.start → (∀ l, l < c.n → c.sector l ≠ i) → cur i = h i

theorem logSlot_cases (n : Nat) (sector : Nat → Nat) (i : Nat) :
    (logSlot n sector i < n ∧ sector (logSlot n sector i) = i) ∨
      (logSlot n sector i = n ∧ ∀ l, l < n → sector l ≠ i) := by
  unfold logSlot
  cases hf : (List.range n).find? fun j => sector j = i with
  | none =>
    refine .inr ⟨rfl, fun l hl => ?_⟩
    have hnone := List.find?_eq_none.1 hf l (by simpa using hl)
    simpa using hnone
  | some j =>
    have hmem := List.mem_of_find?_eq_some hf
    have hj := List.find?_some hf
    exact .inl ⟨by simpa using hmem, by simpa using hj⟩

/-- `struct log` and the disk after `log_write` of the block `v` for sector `i`. -/
def Core.logged (a : LogArea) (c : Core) (i : Nat) (v : Block) : Core :=
  let l := logSlot c.n c.sector i
  { c with
    disk := Function.update c.disk (a.start + l + 1) v
    sector := Function.update c.sector l i
    n := if l = c.n then c.n + 1 else c.n }

section Logged

variable {a : LogArea} {h cur : Nat → Block} {c : Core} {i : Nat} {v : Block}

theorem logged_slot_lt (c : Core) (i : Nat) (v : Block) :
    logSlot c.n c.sector i < (c.logged a i v).n := by
  simp only [Core.logged]
  rcases logSlot_cases c.n c.sector i with ⟨hlt, _⟩ | ⟨heq, _⟩
  · rw [if_neg (by omega)]
    exact hlt
  · rw [if_pos heq]
    omega

theorem logged_other (hc : InTx a h cur c) {l : Nat} (hl : l < (c.logged a i v).n)
    (hne : l ≠ logSlot c.n c.sector i) :
    l < c.n ∧ (c.logged a i v).sector l = c.sector l ∧ c.sector l ≠ i := by
  have hsec : (c.logged a i v).sector l = c.sector l := by
    simp [Core.logged, hne]
  simp only [Core.logged] at hl
  rcases logSlot_cases c.n c.sector i with ⟨hlt, heq⟩ | ⟨heq, hnone⟩
  · rw [if_neg (by omega)] at hl
    refine ⟨hl, hsec, fun hli => hne ?_⟩
    exact hc.inj _ _ hl hlt (hli.trans heq.symm)
  · rw [if_pos heq] at hl
    have hlt : l < c.n := by omega
    exact ⟨hlt, hsec, hnone l hlt⟩

theorem logged_self (c : Core) (i : Nat) (v : Block) :
    (c.logged a i v).sector (logSlot c.n c.sector i) = i := by
  simp [Core.logged]

theorem logged_of_listed (c : Core) (i : Nat) (v : Block) {l : Nat} (hl : l < c.n) :
    ∃ l', l' < (c.logged a i v).n ∧ (c.logged a i v).sector l' = c.sector l := by
  by_cases hli : c.sector l = i
  · exact ⟨_, logged_slot_lt c i v, (logged_self c i v).trans hli.symm⟩
  · have hne : l ≠ logSlot c.n c.sector i := by
      intro hls
      rcases logSlot_cases c.n c.sector i with ⟨_, heq⟩ | ⟨heq, _⟩
      · exact hli (hls ▸ heq)
      · omega
    refine ⟨l, ?_, by simp [Core.logged, hne]⟩
    simp only [Core.logged]
    split_ifs <;> omega

theorem InTx.logged (hc : InTx a h cur c) (hi : i < a.start) (hn : c.n < LOGSIZE) :
    InTx a h (Function.update cur i v) (c.logged a i v) where
  empty := by
    simp only [Core.logged]
    rw [Function.update_of_ne (by omega)]
    exact hc.empty
  home := by
    intro j hj
    simp only [Core.logged]
    rw [Function.update_of_ne (by omega)]
    exact hc.home j hj
  le := by
    simp only [Core.logged]
    split_ifs <;> omega
  below := by
    intro l hl
    by_cases hls : l = logSlot c.n c.sector i
    · rw [hls, logged_self]
      exact hi
    · obtain ⟨hlt, hsec, _⟩ := logged_other hc hl hls
      rw [hsec]
      exact hc.below l hlt
  inj := by
    intro l l' hl hl' heq
    by_cases hls : l = logSlot c.n c.sector i
    · by_cases hls' : l' = logSlot c.n c.sector i
      · rw [hls, hls']
      · obtain ⟨_, hsec', hne'⟩ := logged_other hc hl' hls'
        rw [hls, logged_self, hsec'] at heq
        exact absurd heq.symm hne'
    · obtain ⟨hlt, hsec, hne⟩ := logged_other hc hl hls
      by_cases hls' : l' = logSlot c.n c.sector i
      · rw [hls', logged_self, hsec] at heq
        exact absurd heq hne
      · obtain ⟨hlt', hsec', _⟩ := logged_other hc hl' hls'
        rw [hsec, hsec'] at heq
        exact hc.inj l l' hlt hlt' heq
  log := by
    intro l hl
    by_cases hls : l = logSlot c.n c.sector i
    · rw [hls, logged_self]
      simp [Core.logged]
    · obtain ⟨hlt, hsec, hne⟩ := logged_other hc hl hls
      rw [hsec, Function.update_of_ne hne, ← hc.log l hlt]
      simp only [Core.logged]
      rw [Function.update_of_ne (by omega)]
  rest := by
    intro j hj hnone
    have hji : j ≠ i := by
      intro hji
      exact hnone _ (logged_slot_lt c i v) (by rw [logged_self, hji])
    rw [Function.update_of_ne hji]
    apply hc.rest j hj
    intro l hl hlj
    obtain ⟨l', hl', hsec⟩ := logged_of_listed c i v hl
    exact hnone l' hl' (hsec.trans hlj)

theorem marked_logged (hc : InTx a h cur c) (hi : i < a.start) (hn : c.n < LOGSIZE) :
    marked (c.logged a i v).sector (Function.update cur i v) (c.logged a i v).n =
      Function.update (Function.update (Function.update (Function.update
        (marked c.sector cur c.n) i .out) (a.start + logSlot c.n c.sector i + 1) .out)
        (a.start + logSlot c.n c.sector i + 1) .clean) i (.dirty v) := by
  have hc' := hc.logged (v := v) hi hn
  funext j
  by_cases hji : j = i
  · have hmem : marked (c.logged a i v).sector (Function.update cur i v) (c.logged a i v).n
        ((c.logged a i v).sector (logSlot c.n c.sector i)) = .dirty _ :=
      marked_of_mem (logged_slot_lt c i v)
    rw [logged_self] at hmem
    simp [hji, hmem]
  · rw [Function.update_of_ne hji]
    by_cases hjl : j = a.start + logSlot c.n c.sector i + 1
    · have hnone : ∀ l, l < (c.logged a i v).n → (c.logged a i v).sector l ≠ j := by
        intro l hl
        have hlt := hc'.below l hl
        omega
      rw [marked_of_notMem hnone, hjl, Function.update_self]
    · rw [Function.update_of_ne hjl, Function.update_of_ne hjl, Function.update_of_ne hji]
      by_cases hlisted : ∃ l, l < c.n ∧ c.sector l = j
      · obtain ⟨l, hl, rfl⟩ := hlisted
        obtain ⟨l', hl', hsec⟩ := logged_of_listed c i v hl
        rw [marked_of_mem hl, ← hsec, marked_of_mem hl', hsec, Function.update_of_ne hji]
      · push Not at hlisted
        rw [marked_of_notMem hlisted]
        apply marked_of_notMem
        intro l hl
        by_cases hls : l = logSlot c.n c.sector i
        · rw [hls, logged_self]
          exact Ne.symm hji
        · obtain ⟨hlt, hsec, _⟩ := logged_other hc hl hls
          rw [hsec]
          exact hlisted l hlt

end Logged

/-! ## Rules for the calls -/

section Programs

variable {a : LogArea} {h cur : Nat → Block} {r : Nat} {s : LogState} {C : LogState → Prop}

structure Open (a : LogArea) (h cur : Nat → Block) (r : Nat) (s : LogState) : Prop where
  tx : InTx a h cur s.toCore
  caches : Caches True (marked s.sector cur s.n) s
  busy : s.busy = true
  returned : s.returned = r

theorem InTx.holds {c : Core} (hc : InTx a h cur c) : Holds a c.disk h :=
  holds_of_empty a hc.empty hc.home

theorem InTx.gives {c : Core} (hc : InTx a h cur c) {i : Nat} (hi : i < a.start) {b : Buf}
    (hb : (marked c.sector cur c.n i).gives (c.disk i) b) : b.data = cur i := by
  by_cases hlisted : ∃ l, l < c.n ∧ c.sector l = i
  · obtain ⟨l, hl, rfl⟩ := hlisted
    rw [marked_of_mem hl] at hb
    exact hb.1
  · push Not at hlisted
    rw [marked_of_notMem hlisted] at hb
    rw [hb.1, hc.home i hi, hc.rest i hi hlisted]

theorem wp_logWrite {m : Nat → Status} {b : Buf} {Q : Buf → LogState → Prop}
    (hC : ∀ t : LogState, Holds a t.disk h → t.returned = s.returned → C t)
    (htx : InTx a h cur s.toCore) (hbusy : s.busy = true) (hb : b.sector < a.start)
    (hm : Caches True m s)
    (hclean : m (a.start + logSlot s.n s.sector b.sector + 1) = .clean)
    (hQ : ∀ t : LogState, s.n < LOGSIZE → t.toCore = s.toCore.logged a b.sector b.data →
      Caches True (Function.update (Function.update m
        (a.start + logSlot s.n s.sector b.sector + 1) .out)
        (a.start + logSlot s.n s.sector b.sector + 1) .clean) t → Q { b with dirty := true } t) :
    (logWrite a b).wp C (Halts C True) Q s := by
  have hCs : C s := hC s htx.holds rfl
  refine Prog.wp_bind (wp_field hCs ?_)
  split_ifs with hfull
  · exact Prog.wp_atomic hCs (by simp) fun x _ => ⟨hCs, trivial⟩
  have hn : s.n < LOGSIZE := by omega
  refine Prog.wp_bind (wp_field hCs ?_)
  rw [hbusy, if_neg (by simp)]
  refine Prog.wp_bind (wp_field hCs ?_)
  refine Prog.wp_bind (wp_assign hCs ?_)
  generalize hl : logSlot s.n s.sector b.sector = l at hclean hQ ⊢
  have hC₂ : ∀ t : LogState, t.disk = s.disk → t.returned = s.returned → C t :=
    fun t hdisk hret => hC t (hdisk ▸ htx.holds) hret
  refine Prog.wp_bind (wp_bread (hC₂ _ rfl rfl) (hm.congr rfl rfl rfl) (by simp [hclean]) ?_)
  intro lbuf t₃ hlsec _ hcore₃ hm₃
  refine Prog.wp_bind (wp_bwrite (hC₂ t₃ (by rw [hcore₃]) (by rw [hcore₃])) hm₃
    (by simp [hlsec]) ?_)
  intro t₄ hcore₄ hm₄
  -- the log block is on the disk, but the header does not name it yet
  have hdisk₄ : t₄.disk = Function.update s.disk (a.start + l + 1) b.data := by
    rw [hcore₄, hcore₃]
    simp only [hlsec]
  have hheld : Holds a t₄.disk h := by
    have hlogged := (htx.logged (v := b.data) hb hn).holds
    rw [Core.logged, hl] at hlogged
    rwa [hdisk₄]
  have hC₄ : ∀ t : LogState, t.disk = t₄.disk → t.returned = t₄.returned → C t := by
    intro t hdisk hret
    refine hC t (hdisk ▸ hheld) (hret.trans ?_)
    rw [hcore₄, hcore₃]
  refine Prog.wp_bind (wp_brelse_clean (hC₄ t₄ rfl rfl) hm₄ rfl ?_ ?_)
  · simp [hdisk₄, hlsec]
  intro t₅ hcore₅ hm₅
  refine Prog.wp_bind (wp_assign (hC₄ t₅ (by rw [hcore₅]) (by rw [hcore₅])) ?_)
  simp only [hlsec] at hm₅
  refine hQ _ hn ?_ ?_
  · rw [Core.logged, hl]
    by_cases hls : l = s.n <;> simp [hls, hcore₅, hcore₄, hcore₃, hlsec]
  · refine hm₅.congr ?_ ?_ ?_ <;> split_ifs <;> rfl

theorem wp_modify {w : Write} (hw : w.sector < a.start)
    (hC : ∀ t : LogState, Holds a t.disk h → t.returned = r → C t) (hs : Open a h cur r s) :
    (modify a w).wp C (Halts C True) (fun _ => Open a h (w.apply cur) r) s := by
  have hCs : C s := hC s hs.tx.holds hs.returned
  refine Prog.wp_bind (wp_bread hCs hs.caches (marked_ne_out _ _ _ _) ?_)
  intro b t₁ hsec hb hcore₁ hm₁
  have hdata : b.data = cur w.sector := hs.tx.gives hw hb
  have hnone : ∀ l, l < s.n → s.sector l ≠ a.start + logSlot s.n s.sector w.sector + 1 := by
    intro l hl
    have hlt := hs.tx.below l hl
    omega
  apply Prog.wp_bind
  refine wp_logWrite ?_ (hcore₁ ▸ hs.tx) ?_ (by simpa [hsec] using hw) hm₁ ?_ ?_
  · intro t hold hret
    refine hC t hold (hret.trans ?_)
    rw [hcore₁]
    exact hs.returned
  · rw [hcore₁]
    exact hs.busy
  · simp only [hcore₁, hsec]
    rw [Function.update_of_ne (by omega), marked_of_notMem hnone]
  intro t₂ hn hcore₂ hm₂
  simp only [hcore₁, hsec, hdata] at hn hcore₂ hm₂
  have htx₂ := hs.tx.logged (v := w.change (cur w.sector)) hw hn
  have hret₂ : t₂.returned = r := by
    rw [hcore₂]
    exact hs.returned
  have hheld : Holds a t₂.disk h := by
    rw [hcore₂]
    exact htx₂.holds
  refine wp_brelse_dirty (hC t₂ hheld hret₂) hm₂ rfl ?_
  intro t₃ hcore₃ hm₃
  have hcore₃' := hcore₃.trans hcore₂
  refine ⟨?_, ?_, ?_, ?_⟩
  · rw [hcore₃']
    exact htx₂
  · simp only [hsec, hdata] at hm₃
    rw [← marked_logged hs.tx hw hn] at hm₃
    rwa [hcore₃']
  · rw [hcore₃']
    exact hs.busy
  · rw [hcore₃]
    exact hret₂

/-- The header that `commit_trans` writes names the blocks of the transaction. -/
structure Committed (a : LogArea) (h cur : Nat → Block) (c : Core) (hb : Block) : Prop where
  headN : headN hb = c.n
  headSector : ∀ i, i < c.n → headSector hb i = c.sector i
  onDisk : OnDisk a hb (fun i => c.disk (a.start + i + 1)) h (Function.update c.disk a.start hb)
  view : SameHome a (replay (Fs.headSector hb) (fun i => c.disk (a.start + i + 1)) (Fs.headN hb) h)
    cur

theorem InTx.committed {c : Core} (htx : InTx a h cur c) (b : Block) :
    Committed a h cur c (putHead c.n c.sector b) := by
  have hsec : ∀ l, l < c.n → headSector (putHead c.n c.sector b) l = c.sector l := by
    intro l hl
    have hlt := htx.below l hl
    have hfits := a.fits
    exact headSector_putHead hl htx.le (by omega)
  have hn : headN (putHead c.n c.sector b) = c.n := headN_putHead htx.le
  refine ⟨hn, hsec, ⟨Function.update_self .., fun i _ => ?_, fun i hi => ?_⟩, fun i hi => ?_⟩
  · rw [Function.update_of_ne (by omega)]
  · rw [Function.update_of_ne (by omega)]
    exact htx.home i hi
  · rw [hn, replay_ext hsec fun _ _ => rfl]
    by_cases hex : ∃ l, l < c.n ∧ c.sector l = i
    · obtain ⟨l, hl, rfl⟩ := hex
      rw [replay_of_mem (fun l' hl' => htx.inj l' l hl' hl) hl]
      exact htx.log l hl
    · push Not at hex
      rw [replay_of_notMem hex]
      exact (htx.rest i hi hex).symm

theorem Committed.le {c : Core} {hb : Block} (hc : Committed a h cur c hb)
    (htx : InTx a h cur c) : Fs.headN hb ≤ LOGSIZE := by
  rw [hc.headN]
  exact htx.le

theorem Committed.below {c : Core} {hb : Block} (hc : Committed a h cur c hb)
    (htx : InTx a h cur c) : ∀ i, i < Fs.headN hb → Fs.headSector hb i < a.start := by
  intro i hi
  rw [hc.headN] at hi
  rw [hc.headSector i hi]
  exact htx.below i hi

theorem Committed.holds {c : Core} {hb : Block} (hc : Committed a h cur c hb)
    (htx : InTx a h cur c) : Holds a (Function.update c.disk a.start hb) cur := by
  have hold := hc.onDisk.holds (hc.le htx) (hc.below htx) (Nat.zero_le _)
  exact ⟨hold.1, fun i hi => (hold.2 i hi).trans (hc.view i hi)⟩

theorem wp_commitTrans (hC : ∀ t : LogState, Holds a t.disk h → t.returned = r → C t)
    (hC' : ∀ t : LogState, Holds a t.disk cur → t.returned = r → C t) (hs : Open a h cur r s) :
    (commitTrans a).wp C (Halts C True) (fun _ => Idle a True cur r) s := by
  have hCs : C s := hC s hs.tx.holds hs.returned
  have hclose : ∀ t : LogState, headN (t.disk a.start) = 0 → SameHome a t.disk cur → t.n = 0 →
      t.returned = r → Caches True (fun _ => .clean) t →
      (assign fun s => { s with busy := false }).wp C (Halts C True)
        (fun _ => Idle a True cur r) t := by
    intro t hempty hhome hn hret hm
    refine wp_assign (hC' t (holds_of_empty a hempty hhome) hret) ?_
    exact ⟨hempty, hhome, hn, rfl, hret, hm.congr rfl rfl rfl⟩
  refine Prog.wp_bind (wp_field hCs ?_)
  split_ifs with hn
  · refine Prog.wp_bind (wp_writeHead ?_ ?_ hs.caches (marked_of_notMem ?_) ?_)
    · intro t ht
      apply hC t
      · rw [ht]
        exact hs.tx.holds
      · rw [ht]
        exact hs.returned
    · intro b t ht
      apply hC' t
      · rw [ht]
        exact (hs.tx.committed b).holds hs.tx
      · rw [ht]
        exact hs.returned
    · intro l hl
      have hlt := hs.tx.below l hl
      omega
    · intro b t ht hm
      have hc := hs.tx.committed b
      generalize putHead s.n s.sector b = hb at ht hc
      have hfin : (do
          installTrans a
          assign fun s => { s with n := 0 }
          writeHead a : LogM Unit).wp C (Halts C True) (fun _ t =>
            (assign fun s => { s with busy := false }).wp C (Halts C True)
              (fun _ => Idle a True cur r) t) t := by
        refine wp_finish (hc.le hs.tx) (hc.below hs.tx) hc.view hC' ?_ ?_ ?_ ?_ hm
          (marked_ne_out _ _ _) ?_ ?_
        · rw [ht]
          exact hc.onDisk
        · rw [ht, hc.headN]
        · intro i hi
          rw [hc.headN] at hi
          rw [ht, hc.headSector i hi]
        · rw [ht]
          exact hs.returned
        · intro i hi
          apply marked_of_notMem
          intro l hl
          rw [← hc.headSector l hl]
          exact hi l (by rwa [hc.headN])
        · intro u hempty hhome hn _ hret hm
          exact hclose u hempty hhome hn hret hm
      have hall := Prog.wp_bind hfin
      simpa only [Bind.bind, Prog.bind_assoc] using hall
  · have hn₀ : s.n = 0 := by omega
    refine hclose s hs.tx.empty ?_ hn₀ hs.returned ?_
    · intro i hi
      rw [hs.tx.home i hi, hs.tx.rest i hi (by simp [hn₀])]
    · have hm := hs.caches
      rw [hn₀] at hm
      exact hm

theorem wp_beginTrans (hC : ∀ t : LogState, Holds a t.disk h → t.returned = r → C t)
    (hs : Idle a True h r s) :
    beginTrans.wp C (Halts C True) (fun _ => Open a h h r) s := by
  refine Prog.wp_atomic (hC s (holds_of_empty a hs.empty hs.home) hs.returned) ?_ ?_
  · intro _ t ht
    obtain rfl : { s with busy := true } = t := by simpa [hs.busy] using ht
    refine ⟨⟨hs.empty, hs.home, ?_, ?_, ?_, ?_, fun _ _ _ => rfl⟩, ?_, rfl, hs.returned⟩
    · simp [hs.n]
    · simp [hs.n]
    · simp [hs.n]
    · simp [hs.n]
    · rw [hs.n]
      exact hs.caches.congr rfl rfl rfl
  · simp [hs.busy]

theorem wp_transaction {ws : List Write} (hws : ∀ w ∈ ws, w.sector < a.start)
    (hC : ∀ t : LogState, Holds a t.disk h → t.returned = r → C t)
    (hC' : ∀ t : LogState, Holds a t.disk (applyTx h ws) → t.returned = r → C t)
    (hs : Idle a True h r s) :
    (transaction a ws).wp C (Halts C True) (fun _ => Idle a True (applyTx h ws) (r + 1)) s := by
  refine Prog.wp_seq (wp_beginTrans hC hs) fun _ t₁ h₁ => ?_
  -- what is left of the transaction is what separates `cur` from its end
  refine Prog.wp_seq (Prog.wp_forList
    (I := fun rest t => ∃ cur, Open a h cur r t ∧ applyTx cur rest = applyTx h ws)
    ⟨h, h₁, rfl⟩ ?_) ?_
  · rintro w rest t hw ⟨cur, hopen, hend⟩
    refine Prog.wp_imp (wp_modify (hws w hw) hC hopen) ?_
    intro _ u hu
    exact ⟨w.apply cur, hu, hend⟩
  · rintro _ t₂ ⟨cur, hopen, hend⟩
    obtain rfl : cur = applyTx h ws := hend
    refine Prog.wp_seq (wp_commitTrans hC hC' hopen) fun _ t₃ h₃ => ?_
    refine wp_assign (hC' t₃ (holds_of_empty a h₃.empty h₃.home) h₃.returned) ?_
    exact ⟨h₃.empty, h₃.home, h₃.n, h₃.busy, congrArg (· + 1) h₃.returned,
      h₃.caches.congr rfl rfl rfl⟩

/-- At every moment recovery would leave a prefix of the transactions with all that
have returned. -/
theorem wp_transactions {txs : List (List Write)}
    (hws : ∀ ws ∈ txs, ∀ w ∈ ws, w.sector < a.start)
    (hC : ∀ k (t : LogState), k ≤ txs.length → Holds a t.disk (after h txs k) →
      t.returned ≤ r + k → C t) (hs : Idle a True h r s) :
    (transactions a txs).wp C (Halts C True)
      (fun _ => Idle a True (after h txs txs.length) (r + txs.length)) s := by
  induction txs generalizing h r s with
  | nil => exact hs
  | cons ws txs ih =>
    refine Prog.wp_seq (wp_transaction (hws ws List.mem_cons_self) ?_ ?_ hs) ?_
    · intro t hold hret
      exact hC 0 t (Nat.zero_le _) hold (by omega)
    · intro t hold hret
      exact hC 1 t (by simp) hold (by omega)
    · intro _ t ht
      have hrest := ih (fun ws' hws' => hws ws' (List.mem_cons_of_mem ws hws')) ?_ ht
      · have hlen : r + 1 + txs.length = r + (ws :: txs).length := by
          rw [List.length_cons]
          omega
        rwa [hlen] at hrest
      · intro k u hk hold hret
        exact hC (k + 1) u (by simpa using hk) hold (by omega)

end Programs

/-! ## Crashes -/

theorem caches_boot (disk : Nat → Block) {turns : List Turn} (returned : Nat) {X : Prop}
    (hX : ∀ t ∈ turns, t.full = true → X) :
    Caches X (fun _ => .clean) (LogState.boot disk turns returned) :=
  ⟨fun _ => .inl rfl, hX⟩

/-- A boot that crashes in `recover_from_log` after `n` actions. -/
structure Crash where
  turns : List Turn
  n : Nat

def reboot (a : LogArea) (s : LogState) (c : Crash) : LogState :=
  ((recoverFromLog a).exec c.n (LogState.boot s.disk c.turns s.returned)).1

/-- What is left when the transactions are cut short after `n` actions. -/
def crashed (a : LogArea) (d : Nat → Block) (txs : List (List Write)) (turns : List Turn)
    (n : Nat) : LogState :=
  ((transactions a txs).exec n (LogState.boot d turns 0)).1

/-- Recovery of the disk `d` can complete, and whenever it completes the home
locations are `v` and the log is empty. -/
structure RecoversTo (a : LogArea) (d v : Nat → Block) : Prop where
  completes : ∀ turns r, (∀ t ∈ turns, t.full = false) → ∃ n t,
    (recoverFromLog a).exec n (LogState.boot d turns r) = (t, some ((), 0))
  home : ∀ turns r n t l,
    (recoverFromLog a).exec n (LogState.boot d turns r) = (t, some ((), l)) →
      headN (t.disk a.start) = 0 ∧ ∀ i, i < a.start → t.disk i = v i

section Crashes

variable {a : LogArea} {d v : Nat → Block}

theorem Holds.reboot {s : LogState} (hs : Holds a s.disk v) (c : Crash) :
    Holds a (reboot a s c).disk v ∧ (reboot a s c).returned = s.returned := by
  have hwp := wp_recoverFromLog (C := fun t => Holds a t.disk v ∧ t.returned = s.returned)
    (X := True) (fun t hold hret => ⟨hold, hret⟩) (s := LogState.boot s.disk c.turns s.returned)
    hs rfl rfl (caches_boot _ _ fun _ _ _ => trivial)
  have hexec := Prog.wp_exec (Prog.wp_mono hwp (fun _ hc => hc) (fun _ _ he => he.1)
    fun _ _ hq => hq) c.n
  cases hres : ((recoverFromLog a).exec c.n (LogState.boot s.disk c.turns s.returned)).2 with
  | none => exact hexec.1 hres
  | some res =>
    have hidle := hexec.2 res.1 res.2 hres
    exact ⟨holds_of_empty a hidle.empty hidle.home, hidle.returned⟩

theorem Holds.reboots {s : LogState} (hs : Holds a s.disk v) (crashes : List Crash) :
    Holds a (crashes.foldl (Fs.reboot a) s).disk v := by
  induction crashes generalizing s with
  | nil => exact hs
  | cons c crashes ih => exact ih (hs.reboot c).1

theorem Holds.recoversTo (hd : Holds a d v) : RecoversTo a d v := by
  constructor
  · intro turns r hfull
    have hwp := wp_recoverFromLog (C := fun _ => True) (X := False) (fun _ _ _ => trivial)
      (s := LogState.boot d turns r) hd rfl rfl
      (caches_boot d r fun t ht hfull' => by simp [hfull t ht] at hfull')
    have hends := Prog.wp_mono hwp (fun _ hc => hc) (fun _ _ he => he.2) fun _ _ hq => hq
    obtain ⟨n, _, t, hexec, _⟩ := Prog.exists_exec_of_wp hends
    exact ⟨n, t, hexec⟩
  · intro turns r n t l hexec
    have hwp := wp_recoverFromLog (C := fun _ => True) (X := True) (fun _ _ _ => trivial)
      (s := LogState.boot d turns r) hd rfl rfl (caches_boot d r fun _ _ _ => trivial)
    have hends := Prog.wp_exec (Prog.wp_mono hwp (fun _ hc => hc) (fun _ _ he => he.1)
      fun _ _ hq => hq) n
    rw [hexec] at hends
    have hidle := hends.2 () l rfl
    exact ⟨hidle.empty, hidle.home⟩

theorem holds_crashed {txs : List (List Write)} (hd : headN (d a.start) = 0)
    (hws : ∀ ws ∈ txs, ∀ w ∈ ws, w.sector < a.start) (turns : List Turn) (n : Nat) :
    ∃ k, (crashed a d txs turns n).returned ≤ k ∧ k ≤ txs.length ∧
      Holds a (crashed a d txs turns n).disk (after d txs k) := by
  have hidle : Idle a True d 0 (LogState.boot d turns 0) :=
    ⟨hd, fun _ _ => rfl, rfl, rfl, rfl, caches_boot _ _ fun _ _ _ => trivial⟩
  have hwp := wp_transactions (C := fun t => ∃ k, t.returned ≤ k ∧ k ≤ txs.length ∧
    Holds a t.disk (after d txs k)) hws
    (fun k t hk hold hret => ⟨k, by omega, hk, hold⟩) hidle
  have hexec := Prog.wp_exec (Prog.wp_mono hwp (fun _ hc => hc) (fun _ _ he => he.1)
    fun _ _ hq => hq) n
  cases hres : ((transactions a txs).exec n (LogState.boot d turns 0)).2 with
  | none => exact hexec.1 hres
  | some res =>
    have hend := hexec.2 res.1 res.2 hres
    refine ⟨txs.length, ?_, Nat.le_refl _, holds_of_empty a hend.empty hend.home⟩
    have hret := hend.returned
    rw [Nat.zero_add] at hret
    exact hret.le

/-- After a crash anywhere in a sequence of transactions and any number of crashes
in recovery, recovery leaves the state after a prefix of the transactions, whole
and in order, with every one whose `commit_trans` had returned. -/
theorem log_crash_atomic (a : LogArea) (d : Nat → Block) (txs : List (List Write))
    (hd : headN (d a.start) = 0) (hws : ∀ ws ∈ txs, ∀ w ∈ ws, w.sector < a.start)
    (turns : List Turn) (n : Nat) (crashes : List Crash) :
    ∃ k, (crashed a d txs turns n).returned ≤ k ∧ k ≤ txs.length ∧
      RecoversTo a (crashes.foldl (reboot a) (crashed a d txs turns n)).disk (after d txs k) := by
  obtain ⟨k, hret, hk, hold⟩ := holds_crashed hd hws turns n
  exact ⟨k, hret, hk, (hold.reboots crashes).recoversTo⟩

theorem smallLog_fits : 4 + 11 ≤ 2 ^ 31 := by decide

def smallLog : LogArea := ⟨4, 11, smallLog_fits⟩

def twoTxs : List (List Write) :=
  [[⟨2, fun b => b.set 0 1 7⟩, ⟨3, fun b => b.set 0 1 7⟩],
    [⟨2, fun b => b.set 0 1 8⟩, ⟨3, fun b => b.set 0 1 8⟩]]

/-- Two transactions on sectors 2 and 3.  The crash comes when the second is installed in sector
2 and not yet in sector 3, and recovery crashes twice. -/
theorem log_crash_atomic_torn :
    (crashed smallLog (fun _ _ => 0) twoTxs [] 80).returned = 1 ∧
    (crashed smallLog (fun _ _ => 0) twoTxs [] 80).disk 2 ⟨0, by decide⟩ = 8 ∧
    (crashed smallLog (fun _ _ => 0) twoTxs [] 80).disk 3 ⟨0, by decide⟩ = 7 ∧
    ∃ k, (crashed smallLog (fun _ _ => 0) twoTxs [] 80).returned ≤ k ∧ k ≤ 2 ∧
      RecoversTo smallLog ([⟨[], 3⟩, ⟨[], 9⟩].foldl (reboot smallLog)
        (crashed smallLog (fun _ _ => 0) twoTxs [] 80)).disk (after (fun _ _ => 0) twoTxs k) := by
  have hcrash : (crashed smallLog (fun _ _ => 0) twoTxs [] 80).returned = 1 ∧
      (crashed smallLog (fun _ _ => 0) twoTxs [] 80).disk 2 ⟨0, by decide⟩ = 8 ∧
      (crashed smallLog (fun _ _ => 0) twoTxs [] 80).disk 3 ⟨0, by decide⟩ = 7 := by
    decide +kernel
  exact ⟨hcrash.1, hcrash.2.1, hcrash.2.2, log_crash_atomic smallLog (fun _ _ => 0) twoTxs
    (by decide) (by simp [twoTxs, smallLog]) [] 80 [⟨[], 3⟩, ⟨[], 9⟩]⟩

end Crashes

end Xv6.Fs
