import Xv6.Volume.Filewrite

/-!
# Writing through a shared descriptor

Processes that share a `struct file` write through it, an action at a time in any order.  Its
offset is added to after `writei` has returned, but both happen inside of one transaction, and
there is only one at a time.
-/

namespace Xv6.Volume

open Xv6.Lib Xv6.Fs Xv6.Files Xv6.Sched

variable {a : LogArea}

/-! ## Inside of a transaction -/

/-- `log.busy` is as it was. -/
def Trans (T : Option Slot) (s : FsState) : Prop := s.trans = T

section Keeps

variable {T : Option Slot} {α : Type}

theorem keeps_pure (r : α) : (pure r : FsM α).Keeps (Trans T) := trivial

theorem keeps_get (f : FsState → α) : (get f).Keeps (Trans T) := by
  apply Prog.keeps_atomic
  rintro s _ _ hs ⟨⟩
  exact hs

theorem keeps_put {f : FsState → FsState} (hf : ∀ s, (f s).trans = s.trans) :
    (put f).Keeps (Trans T) := by
  apply Prog.keeps_atomic
  rintro s _ _ hs ⟨⟩
  exact (hf s).trans hs

theorem keeps_stop (msg : String) : (stop msg : FsM α).Keeps (Trans T) := by
  apply Prog.keeps_atomic
  rintro s _ _ _ ⟨⟩

theorem keeps_breadFor (l : Act) (b : Nat) : (breadFor l b).Keeps (Trans T) := by
  apply Prog.keeps_atomic
  intro s _ _ hs hf
  split_ifs at hf
  cases hf
  exact hs

theorem keeps_brelse (b : Buffer) : (brelse b).Keeps (Trans T) := keeps_put fun _ => rfl

theorem keeps_logWrite (b : Buffer) : (logWrite a b).Keeps (Trans T) := by
  apply Prog.keeps_atomic
  intro s _ _ hs hf
  dsimp only at hf
  split_ifs at hf <;> cases hf
  · exact hs
  · exact hs

theorem keeps_readsb : readsb.Keeps (Trans T) :=
  (keeps_breadFor _ _).bind fun _ => (keeps_brelse _).bind fun _ => keeps_pure _

theorem keeps_bzero (b : Nat) : (bzero a b).Keeps (Trans T) :=
  (keeps_breadFor _ _).bind fun _ => (keeps_logWrite _).bind fun _ => keeps_brelse _

theorem keeps_ballocFrom (sb : Superblock) (k b : Nat) :
    (ballocFrom a sb k b).Keeps (Trans T) := by
  induction k generalizing b with
  | zero => exact keeps_stop _
  | succ k ih =>
    apply (keeps_breadFor _ _).bind
    intro bp
    cases findClear bp.data (min BPB (sb.size - b)) with
    | some bi =>
      exact (keeps_logWrite _).bind fun _ => (keeps_brelse _).bind fun _ =>
        (keeps_bzero _).bind fun _ => keeps_pure _
    | none => exact (keeps_brelse _).bind fun _ => ih _

theorem keeps_balloc : (balloc a).Keeps (Trans T) :=
  keeps_readsb.bind fun sb => keeps_ballocFrom sb _ _

theorem keeps_setInode (e : Entry) (x : FsState → Inode) :
    (put fun s => s.setInode e (x s)).Keeps (Trans T) :=
  keeps_put fun _ => rfl

theorem keeps_setCopy (e : Entry) (f : Dinode → Dinode) : (setCopy e f).Keeps (Trans T) :=
  keeps_setInode e _

theorem keeps_iupdate (e : Entry) : (iupdate a e).Keeps (Trans T) :=
  (keeps_get _).bind fun _ => (keeps_breadFor _ _).bind fun _ => (keeps_get _).bind fun _ =>
    (keeps_logWrite _).bind fun _ => keeps_brelse _

theorem keeps_loadAddr (e : Entry) (k : Nat) : (loadAddr a e k).Keeps (Trans T) := by
  refine Prog.Keeps.bind (Prog.keeps_atomic ?_) fun addr => Prog.keeps_ite ?_ (keeps_pure _)
  · rintro s _ _ hs ⟨⟩
    exact hs
  · exact keeps_balloc.bind fun _ => (keeps_setCopy _ _).bind fun _ => keeps_pure _

theorem keeps_bmap (e : Entry) (bn : Nat) : (bmap a e bn).Keeps (Trans T) := by
  apply Prog.keeps_ite (keeps_loadAddr e bn)
  apply Prog.keeps_ite _ (keeps_stop _)
  refine (keeps_loadAddr e NDIRECT).bind fun ind => (keeps_breadFor _ _).bind fun bp => ?_
  apply Prog.keeps_ite
  · exact keeps_balloc.bind fun _ => (keeps_logWrite _).bind fun _ =>
      (keeps_brelse _).bind fun _ => keeps_pure _
  · exact (keeps_brelse _).bind fun _ => keeps_pure _

theorem keeps_ilock (e : Entry) : (ilock e).Keeps (Trans T) := by
  refine Prog.Keeps.bind (Prog.keeps_atomic ?_) fun _ => (keeps_get _).bind fun valid => ?_
  · intro s _ _ hs hf
    split_ifs at hf
    cases hf
    exact hs
  · apply Prog.keeps_ite (keeps_pure _)
    exact (keeps_get _).bind fun _ => (keeps_breadFor _ _).bind fun _ =>
      (keeps_setCopy _ _).bind fun _ => (keeps_brelse _).bind fun _ =>
      (keeps_setInode _ _).bind fun _ => (keeps_get _).bind fun _ =>
      Prog.keeps_when (keeps_stop _)

theorem keeps_iunlock (e : Entry) : (iunlock e).Keeps (Trans T) := by
  apply Prog.keeps_atomic
  intro s _ _ hs hf
  split_ifs at hf
  cases hf
  exact hs

theorem keeps_writeFrom (e : Entry) (fuel : Nat) (src : Nat → UInt8) (off n : Nat) :
    (writeFrom a e fuel src off n).Keeps (Trans T) := by
  induction fuel generalizing src off n with
  | zero => exact keeps_pure _
  | succ fuel ih =>
    apply Prog.keeps_ite (keeps_pure _)
    exact (keeps_bmap e _).bind fun _ => (keeps_breadFor _ _).bind fun _ =>
      (keeps_logWrite _).bind fun _ => (keeps_brelse _).bind fun _ => ih _ _ _

theorem keeps_writei (e : Entry) (src : Nat → UInt8) (off n : Nat) :
    (writei a e src off n).Keeps (Trans T) := by
  apply (keeps_get _).bind
  intro copy
  apply Prog.keeps_ite
  · apply Prog.keeps_ite _ (keeps_pure _)
    exact (keeps_iunlock e).bind fun _ => (keeps_ilock e).bind fun _ => keeps_pure _
  · apply Prog.keeps_ite (keeps_pure _)
    apply Prog.keeps_ite (keeps_pure _)
    exact (keeps_writeFrom e n src off n).bind fun _ => (keeps_get _).bind fun _ =>
      (Prog.keeps_when ((keeps_setCopy _ _).bind fun _ => keeps_iupdate e)).bind fun _ =>
      keeps_pure _

end Keeps

structure Inside (s₀ : Sys) (f : FileId) (p : Slot) (s : Sys) : Prop extends Stable s₀ f s where
  trans : s.fs.trans = some p

section Inside

variable {s s₀ : Sys} {f : FileId} {p : Slot} {α : Type}

theorem keeps_fs {m : FsM α} (h : m.Keeps (Trans (some p))) : (fs m).Keeps (Inside s₀ f p) :=
  h.lift (fun _ hs => hs.trans) fun _ _ ht hs => ⟨hs.toStable.setFs _, ht⟩

theorem along_writeTurn (ip : Entry) (src : Nat → UInt8) (n : Nat) (hs : Inside s₀ f p s) :
    (writeTurn a f ip src n).Along (fun _ => Inside s₀ f p) s := by
  refine (keeps_fs (keeps_ilock ip)).along_bind hs fun _ s hs => ?_
  refine (Prog.keeps_atomic fun _ _ _ hs hf => ?_).along_bind hs fun off s hs => ?_
  · cases hf
    exact hs
  refine (keeps_fs (keeps_writei ip src off n)).along_bind hs fun r s hs => ?_
  refine (Prog.keeps_when (Prog.keeps_atomic fun _ _ _ hs hf => ?_)).along_bind hs
    fun _ s hs => ?_
  · cases hf
    exact ⟨hs.setOff _, hs.trans⟩
  refine (keeps_fs (keeps_iunlock ip)).along_bind hs fun _ s hs => ?_
  exact Prog.along_act.2 ⟨hs, fun _ _ _ => trivial⟩

end Inside

/-! ## The writers -/

def bytesOf (src : Nat → UInt8) (n : Nat) : List UInt8 := (List.range n).map src

/-- The turns of processes that only write to the file, at most 1536 bytes at a time. -/
def WritesTo (s₀ : Sys) (f : FileId) : Turn Slot Call Event → Prop
  | .call p (.write fd _ n) => openFile s₀ p fd = some f ∧ 0 ≤ n ∧ n ≤ 1536
  | .step _ => True
  | _ => False

def Turn.buffer (p : Slot) : Turn Slot Call Event → List (List UInt8)
  | .call q (.write _ src n) => if q = p then [bytesOf src n.toNat] else []
  | _ => []

/-- The buffers that a process writes. -/
def buffers (turns : List (Turn Slot Call Event)) (p : Slot) : List (List UInt8) :=
  turns.flatMap (Turn.buffer p)

/-- What `filewrite` does after its only turn. -/
def finish (a : LogArea) (p : Slot) (f : FileId) (ip : Entry) (src : Nat → UInt8) (n : Nat)
    (r : Int) : SysM Int :=
  (if r < 0 then pure false else if r ≠ n then Files.halt "short filewrite"
    else filewriteFrom a p f ip (n - 1) (fun k => src (k + n)) (n - n) : SysM Bool).bind
    fun all => pure (if all then (n : Int) else -1)

/-- What a process that is not in a transaction still has to do, and what it still has to
write. -/
inductive Waiting (a : LogArea) (s₀ : Sys) (f : FileId) (p : Slot) :
    Option (SysM Int) → List (List UInt8) → Prop
  | out : Waiting a s₀ f p none []
  | called {fd : Int} (src : Nat → UInt8) {n : Nat} (hfd : openFile s₀ p fd = some f)
      (hn : n ≤ 1536) : Waiting a s₀ f p (some (sysWrite a p fd src n)) [bytesOf src n]
  | found (src : Nat → UInt8) {n : Nat} (hn : n ≤ 1536) :
      Waiting a s₀ f p (some (filewrite a p f src n)) [bytesOf src n]
  | begins (src : Nat → UInt8) {n : Nat} (hpos : 0 < n) (hn : n ≤ 1536) :
      Waiting a s₀ f p (some ((fs (beginTrans p)).bind fun _ =>
        (writeTurn a f (s₀.file f).ip src n).bind (finish a p f (s₀.file f).ip src n)))
        [bytesOf src n]

/-- The process is in a transaction, which ends in the state `s'`. -/
inductive Busy (a : LogArea) (s₀ : Sys) (f : FileId) (p : Slot) (s s' : Sys) :
    Option (SysM Int) → List UInt8 → Prop
  | mk {β : Type} {l : Act} {act : Sys → Res (β × Sys)} {k : β → SysM Int} (src : Nat → UInt8)
      {n : Nat} (halong : (Prog.act l act k).Along (fun _ => Inside s₀ f p) s)
      (hrun : (Prog.act l act k).run s = .ok ((n : Int), s')) :
      Busy a s₀ f p s s'
        (some ((Prog.act l act k).bind (finish a p f (s₀.file f).ip src n))) (bytesOf src n)

/-- Nobody is in a transaction, and the buffers in `done` have been written. -/
structure Rests (g : Layout a) (s₀ : Sys) (f : FileId) (i : Nat) (done : List (Slot × List UInt8))
    (s : Sys) : Prop where
  ready : ∃ w, Ready g s f i w
  stable : Stable s₀ f s
  off : (s.file f).off = fileSize s f
  content : contentOf s.fs (s₀.file f).ip =
    contentOf s₀.fs (s₀.file f).ip ++ (done.map Prod.snd).flatten

/-- What has been written, and what is still to be written, of what the processes have asked
for. -/
def Order (done : List (Slot × List UInt8)) (pend asked : Slot → List (List UInt8)) : Prop :=
  ∀ p, (done.filter fun x => x.1 = p).map Prod.snd ++ pend p = asked p

/-- Who is in a transaction and with which buffer, and the state at the end of it. -/
inductive Phase (a : LogArea) (s₀ : Sys) (f : FileId) (s : Pool Slot Sys Act Int)
    (pend : Slot → List (List UInt8)) (s' : Sys) : Option (Slot × List UInt8) → Prop
  | rest (hstate : s.state = s') : Phase a s₀ f s pend s' none
  | busy {p : Slot} {buf : List UInt8} (hpend : pend p = [buf])
      (hbusy : Busy a s₀ f p s.state s' (s.prog p) buf) : Phase a s₀ f s pend s' (some (p, buf))

structure Shares (g : Layout a) (s₀ : Sys) (f : FileId) (i : Nat)
    (asked : Slot → List (List UInt8)) (done : List (Slot × List UInt8))
    (pend : Slot → List (List UInt8)) (o : Option (Slot × List UInt8)) (s' : Sys)
    (s : Pool Slot Sys Act Int) : Prop where
  order : Order done pend asked
  others : ∀ q, o.map Prod.fst ≠ some q → Waiting a s₀ f q (s.prog q) (pend q)
  stable : Stable s₀ f s.state
  phase : Phase a s₀ f s pend s' o
  rests : Rests g s₀ f i (done ++ o.toList) s'

section Writers

variable {g : Layout a} {s₀ : Sys} {f : FileId} {i : Nat} {done : List (Slot × List UInt8)}
  {pend asked : Slot → List (List UInt8)} {s t : Pool Slot Sys Act Int} {p : Slot}

theorem Order.write (h : Order done pend asked) {buf : List UInt8} (hpend : pend p = [buf]) :
    Order (done ++ [(p, buf)]) (Function.update pend p []) asked := by
  intro q
  rw [← h q]
  by_cases hq : q = p
  · subst hq
    simp [hpend]
  · have hne : ¬ p = q := fun heq => hq heq.symm
    simp [hne, Function.update_of_ne hq]

theorem Order.ask (h : Order done pend asked) (buf : List UInt8) (hpend : pend p = []) :
    Order done (Function.update pend p [buf]) (fun q => asked q ++ if p = q then [buf] else []) := by
  intro q
  dsimp only
  rw [← h q]
  by_cases hq : q = p
  · subst hq
    simp [hpend]
  · have hne : ¬ p = q := fun heq => hq heq.symm
    simp [hne, Function.update_of_ne hq]

theorem length_flatten_done (done : List (Slot × List UInt8)) :
    (done.map Prod.snd).flatten.length =
      ∑ p, ((done.filter fun x => x.1 = p).map Prod.snd).flatten.length := by
  induction done with
  | nil => simp
  | cons x done ih =>
    have hsplit : ∀ p, (((x :: done).filter fun y => y.1 = p).map Prod.snd).flatten.length =
        (if x.1 = p then x.2.length else 0) +
          ((done.filter fun y => y.1 = p).map Prod.snd).flatten.length := by
      intro p
      by_cases hp : x.1 = p
      · simp [hp]
      · simp [hp]
    simp only [hsplit, Finset.sum_add_distrib, ← ih]
    simp

/-- A buffer that is still to be written is in what has been asked for. -/
theorem Order.length_le (h : Order done pend asked) {buf : List UInt8} (hpend : pend p = [buf]) :
    (done.map Prod.snd).flatten.length + buf.length ≤ ∑ q, (asked q).flatten.length := by
  have hsum : ∑ q, (asked q).flatten.length = (done.map Prod.snd).flatten.length +
      ∑ q, (pend q).flatten.length := by
    rw [length_flatten_done, ← Finset.sum_add_distrib]
    apply Finset.sum_congr rfl
    intro q _
    rw [← h q, List.flatten_append, List.length_append]
  have hone : (pend p).flatten.length ≤ ∑ q, (pend q).flatten.length :=
    Finset.single_le_sum (f := fun q => (pend q).flatten.length) (fun _ _ => Nat.zero_le _)
      (Finset.mem_univ p)
  rw [hsum]
  simp only [hpend, List.flatten_cons, List.flatten_nil, List.append_nil] at hone
  omega

variable {o : Option (Slot × List UInt8)} {s' : Sys}

theorem Shares.move (h : Shares g s₀ f i asked done pend o s' s) (hp : o.map Prod.fst ≠ some p)
    {q : Option (SysM Int)} (hstate : t.state = s.state)
    (hprog : t.prog = Function.update s.prog p q) {x : List (List UInt8)}
    (hwaiting : Waiting a s₀ f p q x) {done' : List (Slot × List UInt8)}
    {asked' : Slot → List (List UInt8)} (horder : Order done' (Function.update pend p x) asked')
    (hflat : (done'.map Prod.snd).flatten = (done.map Prod.snd).flatten) :
    Shares g s₀ f i asked' done' (Function.update pend p x) o s' t := by
  refine ⟨horder, fun r hr => ?_, hstate ▸ h.stable, ?_, ?_⟩
  · by_cases hrp : r = p
    · subst hrp
      rwa [hprog, Function.update_self, Function.update_self]
    · rw [hprog, Function.update_of_ne hrp, Function.update_of_ne hrp]
      exact h.others r hr
  · cases h.phase with
    | rest hs => exact .rest (hstate.trans hs)
    | @busy r buf hpend hbusy =>
      have hrp : r ≠ p := fun heq => hp (congrArg some heq)
      refine .busy (by rwa [Function.update_of_ne hrp]) ?_
      rwa [hprog, Function.update_of_ne hrp, hstate]
  · obtain ⟨hready, hstable, hoff, hcontent⟩ := h.rests
    refine ⟨hready, hstable, hoff, ?_⟩
    rw [hcontent]
    simp [hflat]

theorem finish_self (p : Slot) (ip : Entry) (src : Nat → UInt8) (n : Nat) :
    finish a p f ip src n n = .ret (n : Int) := by
  have hloop : filewriteFrom a p f ip (n - 1) (fun k => src (k + n)) (n - n) = pure true := by
    rw [Nat.sub_self]
    cases n - 1 with
    | zero => rfl
    | succ m => exact if_pos rfl
  rw [finish, if_neg (by omega), if_neg (by simp), hloop]
  rfl

theorem Pool.step_act {l : Act} {β : Type} {act : Sys → Res (β × Sys)} {k : β → SysM Int}
    (hprog : s.prog p = some (.act l act k)) (ht : s.next (system a) (.step p) = some t) :
    ∃ b, act s.state = .ok (b, t.state) ∧
      t.prog = Function.update s.prog p (Pool.rest (k b)) := by
  simp only [Pool.next, hprog] at ht
  split at ht
  · rename_i b u hact
    obtain rfl := Option.some.inj ht
    exact ⟨b, hact, rfl⟩
  · cases ht

theorem Shares.call (h : Shares g s₀ f i asked done pend o s' s) {fd n : Int} {src : Nat → UInt8}
    (hok : WritesTo s₀ f (.call p (.write fd src n)))
    (ht : s.next (system a) (.call p (.write fd src n)) = some t) :
    ∃ pend, Shares g s₀ f i
      (fun q => asked q ++ Turn.buffer q (.call p (.write fd src n))) done pend o s' t := by
  obtain ⟨hfd, hpos, hn⟩ := hok
  obtain ⟨n, rfl⟩ := Int.eq_ofNat_of_zero_le hpos
  simp only [Pool.next] at ht
  split_ifs at ht with hready
  have hstate : t.state = s.state := by
    cases ht
    rfl
  have hprog : t.prog = Function.update s.prog p (some (sysWrite a p fd src n)) := by
    cases ht
    rfl
  have hnone : s.prog p = none := Option.isNone_iff_eq_none.1 hready.1
  have hp : o.map Prod.fst ≠ some p := by
    intro ho
    cases h.phase with
    | rest => cases ho
    | @busy r buf _ hbusy =>
      obtain rfl := Option.some.inj ho
      rw [hnone] at hbusy
      cases hbusy
  have hpend : pend p = [] := by
    have hwaiting := h.others p hp
    rw [hnone] at hwaiting
    generalize pend p = x at hwaiting
    cases hwaiting
    rfl
  have horder := h.order.ask (p := p) (bytesOf src n) hpend
  exact ⟨_, h.move hp hstate hprog (.called src hfd (by omega)) horder rfl⟩

/-- A step up to `begin_trans`. -/
theorem Shares.look (h : Shares g s₀ f i asked done pend o s' s) (hp : o.map Prod.fst ≠ some p)
    {q : Option (SysM Int)} (hstate : t.state = s.state)
    (hprog : t.prog = Function.update s.prog p q) (hwaiting : Waiting a s₀ f p q (pend p)) :
    ∃ done pend o s', Shares g s₀ f i asked done pend o s' t := by
  have hself : Function.update pend p (pend p) = pend := Function.update_eq_self p pend
  exact ⟨_, _, _, _, h.move hp hstate hprog hwaiting (by rw [hself]; exact h.order) rfl⟩

theorem Shares.step_called (h : Shares g s₀ f i asked done pend o s' s)
    (hp : o.map Prod.fst ≠ some p) {fd : Int} {src : Nat → UInt8} {n : Nat}
    (hfd : openFile s₀ p fd = some f) (hn : n ≤ 1536)
    (hprog : s.prog p = some (sysWrite a p fd src n)) (hpend : pend p = [bytesOf src n])
    (ht : s.next (system a) (.step p) = some t) :
    ∃ done pend o s', Shares g s₀ f i asked done pend o s' t := by
  obtain ⟨b, hact, hnext⟩ := Pool.step_act hprog ht
  have hopen : openFile s.state p fd = some f := by
    rw [h.stable.openFile_eq]
    exact hfd
  obtain ⟨j, hargfd⟩ := argfd_run s.state p fd
  rw [hopen] at hargfd
  obtain ⟨rfl, hstate⟩ : some (j, f) = b ∧ s.state = t.state := by
    have hrun : (argfd p fd).run s.state = .ok (b, t.state) := hact
    simpa [hrun] using hargfd.symm
  exact h.look hp hstate.symm hnext (by rw [hpend]; exact .found src hn)

theorem filewriteFrom_once (p : Slot) (ip : Entry) (src : Nat → UInt8) {n : Nat}
    (hn : n + 1 ≤ 1536) :
    ((filewriteFrom a p f ip (n + 1) src (n + 1)).bind fun all =>
      pure (if all then ((n + 1 : Nat) : Int) else -1)) =
    (fs (beginTrans p)).bind fun _ =>
      (writeTurn a f ip src (n + 1)).bind (finish a p f ip src (n + 1)) := by
  rw [filewriteFrom, if_neg (Nat.succ_ne_zero n), min_eq_left (show n + 1 ≤ MAXWRITE from hn)]
  refine (Prog.bind_assoc _ _ _).trans ?_
  congr 1
  funext _
  exact Prog.bind_assoc _ _ _

theorem Shares.step_found (h : Shares g s₀ f i asked done pend o s' s)
    (htype : (s₀.file f).type = .FD_INODE) (hwritable : (s₀.file f).writable = true)
    (hp : o.map Prod.fst ≠ some p) {src : Nat → UInt8} {n : Nat} (hn : n ≤ 1536)
    (hprog : s.prog p = some (filewrite a p f src n)) (hpend : pend p = [bytesOf src n])
    (ht : s.next (system a) (.step p) = some t) :
    ∃ done pend o s', Shares g s₀ f i asked done pend o s' t := by
  obtain ⟨ff, hact, hnext⟩ := Pool.step_act hprog ht
  obtain ⟨rfl, hstate⟩ : s.state.file f = ff ∧ s.state = t.state := by simpa using hact
  obtain ⟨off, hfile⟩ := h.stable.file
  have hwrite : (s.state.file f).writable = true := by rw [hfile]; exact hwritable
  have hinode : (s.state.file f).type = .FD_INODE := by rw [hfile]; exact htype
  have hip : (s.state.file f).ip = (s₀.file f).ip := by rw [hfile]
  simp only [Prog.bind, hwrite, hinode, hip, Bool.not_true, Bool.false_eq_true, if_false,
    Int.toNat_natCast, if_neg (Int.not_lt.2 (Int.natCast_nonneg n))] at hnext
  cases n with
  | zero =>
    refine ⟨_, _, _, _, h.move hp hstate.symm hnext (.out) (h.order.write hpend) ?_⟩
    simp [bytesOf]
  | succ n =>
    refine h.look hp hstate.symm hnext ?_
    rw [hpend]
    have hbegins : Waiting a s₀ f p _ _ := .begins src (Nat.succ_pos n) hn
    rwa [← filewriteFrom_once p _ src hn] at hbegins

theorem Rests.write (hroom : Roomy g) (h : Rests g s₀ f i done s.state) (src : Nat → UInt8)
    {n : Nat} (hpos : 0 < n) (hn : n ≤ 1536) (p : Slot)
    (hfits : fileSize s.state f + n ≤ MAXFILE * BSIZE) :
    ∃ s', (writeTurn a f (s₀.file f).ip src n).run (begun s.state p) = .ok ((n : Int), s') ∧
      Rests g s₀ f i (done ++ [(p, bytesOf src n)]) s' := by
  obtain ⟨w, hready⟩ := h.ready
  obtain ⟨off, hfile⟩ := h.stable.file
  have hip : (s.state.file f).ip = (s₀.file f).ip := by rw [hfile]
  have hsize := hready.fileSize_eq
  have hoff := h.off
  have hok : FitsAt s.state f i n w := ⟨by omega, by omega⟩
  obtain ⟨s', w', hturn, hwrote⟩ := hready.turn_written p src hok hpos
    (hready.provided hroom hn hok.2)
  rw [hip] at hturn
  have hinside : Inside s₀ f p (begun s.state p) := ⟨h.stable.setFs _, rfl⟩
  refine ⟨s', hturn, ⟨w', hwrote.ready⟩, ?_, ?_, ?_⟩
  · exact (stable_writeTurn _ src n).run hinside.toStable hturn
  · rw [hwrote.off, hwrote.ready.fileSize_eq, hwrote.size hok.1]
    omega
  · have hcontent := hwrote.contentOf_eq hready
    have hlen : (contentOf s.state.fs (s.state.file f).ip).length = (s.state.file f).off := by
      rw [hready.contentOf_eq, length_content]
      omega
    rw [← hlen, overwrite_end, hip, h.content] at hcontent
    rw [hcontent]
    simp [bytesOf]

theorem Shares.step_begins (hroom : Roomy g) (h : Shares g s₀ f i asked done pend o s' s)
    (hsize : (contentOf s₀.fs (s₀.file f).ip).length + ∑ q, (asked q).flatten.length ≤
      MAXFILE * BSIZE)
    (hp : o.map Prod.fst ≠ some p) {src : Nat → UInt8} {n : Nat} (hpos : 0 < n) (hn : n ≤ 1536)
    (hprog : s.prog p = some ((fs (beginTrans p)).bind fun _ =>
      (writeTurn a f (s₀.file f).ip src n).bind (finish a p f (s₀.file f).ip src n)))
    (hpend : pend p = [bytesOf src n]) (ht : s.next (system a) (.step p) = some t) :
    ∃ done pend o s', Shares g s₀ f i asked done pend o s' t := by
  obtain ⟨⟨⟩, hact, hnext⟩ := Pool.step_act hprog ht
  cases h.phase with
  | @busy r buf _ hbusy =>
    -- the log is busy, so the action waits
    have htrans : s.state.fs.trans = some r := by
      generalize s.prog r = m at hbusy
      cases hbusy with
      | mk src halong hrun => exact (Prog.along_act.1 halong).1.trans
    simp [htrans] at hact
  | rest hstate =>
    subst hstate
    have hrests : Rests g s₀ f i done s.state := by
      have hrests := h.rests
      rwa [Option.toList_none, List.append_nil] at hrests
    obtain ⟨w, hready⟩ := hrests.ready
    have hfree : s.state.fs.trans = none := hready.stands.trans.trans hready.trans
    have hbegun : begun s.state p = t.state := by
      simpa [hfree, begun] using hact
    have hlen : (contentOf s.state.fs (s₀.file f).ip).length = fileSize s.state f := by
      obtain ⟨off, hfile⟩ := hrests.stable.file
      have hip : (s.state.file f).ip = (s₀.file f).ip := by rw [hfile]
      rw [← hip, hready.contentOf_eq, length_content, hready.fileSize_eq]
    rw [hrests.content, List.length_append] at hlen
    have hle := h.order.length_le hpend
    have hbytes : (bytesOf src n).length = n := by simp [bytesOf]
    obtain ⟨s', hturn, hafter⟩ := hrests.write hroom src hpos hn p (by omega)
    rw [hbegun] at hturn
    have hinside : Inside s₀ f p t.state := by
      rw [← hbegun]
      exact ⟨hrests.stable.setFs _, rfl⟩
    refine ⟨done, pend, some (p, bytesOf src n), s', h.order, fun q hq => ?_, hinside.toStable,
      .busy hpend ?_, hafter⟩
    · have hqp : q ≠ p := fun heq => hq (congrArg some heq.symm)
      rw [hnext, Function.update_of_ne hqp]
      exact h.others q (by simp)
    · rw [hnext, Function.update_self]
      exact .mk src (along_writeTurn _ src n hinside) hturn

theorem Shares.step_busy {buf : List UInt8}
    (h : Shares g s₀ f i asked done pend (some (p, buf)) s' s)
    (ht : s.next (system a) (.step p) = some t) :
    ∃ done pend o s', Shares g s₀ f i asked done pend o s' t := by
  obtain ⟨hpend, hbusy⟩ : pend p = [buf] ∧ Busy a s₀ f p s.state s' (s.prog p) buf := by
    cases h.phase with
    | busy hpend hbusy => exact ⟨hpend, hbusy⟩
  generalize hm : s.prog p = m at hbusy
  cases hbusy with
  | @mk β l act k src n halong hrun =>
    obtain ⟨b, hact, hnext⟩ := Pool.step_act hm ht
    have hrest := (Prog.along_act.1 halong).2 b t.state hact
    simp only [Prog.run, hact] at hrun
    have hothers : ∀ q, q ≠ p → Waiting a s₀ f q (t.prog q) (pend q) := fun q hqp => by
      rw [hnext, Function.update_of_ne hqp]
      exact h.others q fun heq => hqp (Option.some.inj heq).symm
    have hself : t.prog p = Pool.rest ((k b).bind (finish a p f (s₀.file f).ip src n)) := by
      rw [hnext, Function.update_self]
    generalize k b = m at hrest hrun hself
    cases m with
    | ret r =>
      obtain ⟨rfl, rfl⟩ : r = n ∧ t.state = s' := by simpa [Prog.run] using hrun
      refine ⟨done ++ [(p, bytesOf src n)], Function.update pend p [], none, t.state,
        h.order.write hpend, fun q _ => ?_, h.rests.stable, .rest rfl, ?_⟩
      · by_cases hqp : q = p
        · subst hqp
          rw [hself, Function.update_self, Prog.bind, finish_self]
          exact .out
        · rw [Function.update_of_ne hqp]
          exact hothers q hqp
      · simpa using h.rests
    | act l act k =>
      refine ⟨done, pend, some (p, bytesOf src n), s', h.order, fun q hq => ?_,
        (Prog.along_act.1 hrest).1.toStable, .busy hpend ?_, h.rests⟩
      · exact hothers q fun heq => hq (congrArg some heq.symm)
      · rw [hself]
        exact .mk src hrest hrun

theorem Shares.step (hroom : Roomy g) (h : Shares g s₀ f i asked done pend o s' s)
    (htype : (s₀.file f).type = .FD_INODE) (hwritable : (s₀.file f).writable = true)
    (hsize : (contentOf s₀.fs (s₀.file f).ip).length + ∑ q, (asked q).flatten.length ≤
      MAXFILE * BSIZE) (ht : s.next (system a) (.step p) = some t) :
    ∃ done pend o s', Shares g s₀ f i asked done pend o s' t := by
  by_cases hp : o.map Prod.fst = some p
  · obtain ⟨⟨_, buf⟩, rfl, rfl⟩ := Option.map_eq_some_iff.1 hp
    exact h.step_busy ht
  · have hwaiting := h.others p hp
    generalize hprog : s.prog p = m at hwaiting
    generalize hpend : pend p = x at hwaiting
    cases hwaiting with
    | out => simp [Pool.next, hprog] at ht
    | called src hfd hn => exact h.step_called hp hfd hn hprog hpend ht
    | found src hn => exact h.step_found htype hwritable hp hn hprog hpend ht
    | begins src hpos hn => exact h.step_begins hroom hsize hp hpos hn hprog hpend ht

theorem Shares.run (hroom : Roomy g) (htype : (s₀.file f).type = .FD_INODE)
    (hwritable : (s₀.file f).writable = true) (turns : List (Turn Slot Call Event))
    (hturns : ∀ e ∈ turns, WritesTo s₀ f e)
    (h : Shares g s₀ f i asked done pend o s' s)
    (hsize : (contentOf s₀.fs (s₀.file f).ip).length +
      ∑ q, (asked q ++ buffers turns q).flatten.length ≤ MAXFILE * BSIZE)
    (hrun : Machine.runList (Pool.next (system a)) s turns = some t) :
    ∃ done pend o s', Shares g s₀ f i (fun q => asked q ++ buffers turns q) done pend o s' t := by
  induction turns generalizing s asked done pend o s' with
  | nil =>
    obtain rfl := Option.some.inj hrun
    simp only [buffers, List.flatMap_nil, List.append_nil]
    exact ⟨done, pend, o, s', h⟩
  | cons e turns ih =>
    obtain ⟨u, hu, hrest⟩ := Option.bind_eq_some_iff.1 hrun
    have hsplit : ∀ q, asked q ++ buffers (e :: turns) q =
        asked q ++ Turn.buffer q e ++ buffers turns q := by
      intro q
      rw [buffers, List.flatMap_cons, List.append_assoc]
      rfl
    simp only [hsplit] at hsize ⊢
    have hnext : ∃ done pend o s',
        Shares g s₀ f i (fun q => asked q ++ Turn.buffer q e) done pend o s' u := by
      have hok := hturns e List.mem_cons_self
      cases e with
      | env e => exact hok.elim
      | step p =>
        simp only [Turn.buffer, List.append_nil] at hsize ⊢
        refine h.step hroom htype hwritable (le_trans ?_ hsize) hu
        gcongr
        simp
      | call p c =>
        cases c with
        | write fd src n =>
          obtain ⟨pend, hcall⟩ := h.call hok hu
          exact ⟨done, pend, o, s', hcall⟩
        | _ => exact hok.elim
    obtain ⟨done, pend, o, s', hnext⟩ := hnext
    exact ih (fun e he => hturns e (List.mem_cons_of_mem _ he)) hnext hsize hrest

/-- All calls are done: the buffers stand behind the old contents in some order that is the order
of each process, and the offset is at the end. -/
theorem shared_writes {w : World} (hroom : Roomy g) (hready : Ready g s₀ f i w)
    (hend : (s₀.file f).off = fileSize s₀ f) (turns : List (Turn Slot Call Event))
    (hturns : ∀ e ∈ turns, WritesTo s₀ f e)
    (hsize : fileSize s₀ f + ∑ p, (buffers turns p).flatten.length ≤ MAXFILE * BSIZE)
    (hrun : Machine.runList (Pool.next (system a)) ⟨s₀, fun _ => none⟩ turns = some s)
    (hdone : ∀ p, s.prog p = none) :
    ∃ order : List (Slot × List UInt8),
      (∀ p, (order.filter fun x => x.1 = p).map Prod.snd = buffers turns p) ∧
      contentOf s.state.fs (s₀.file f).ip =
        contentOf s₀.fs (s₀.file f).ip ++ (order.map Prod.snd).flatten ∧
      (s.state.file f).off = fileSize s.state f := by
  have hlen : (contentOf s₀.fs (s₀.file f).ip).length = fileSize s₀ f := by
    rw [hready.contentOf_eq, length_content, hready.fileSize_eq]
  have hstable : Stable s₀ f s₀ := .refl s₀ f
  have hstart : Shares g s₀ f i (fun _ => []) [] (fun _ => []) none s₀ ⟨s₀, fun _ => none⟩ :=
    ⟨fun _ => rfl, fun _ _ => .out, hstable, .rest rfl, ⟨w, hready⟩, hstable, hend, by simp⟩
  obtain ⟨done, pend, o, s', hshares⟩ := hstart.run hroom hready.type hready.writable turns hturns
    (by simpa [hlen] using hsize) hrun
  cases hshares.phase with
  | @busy p buf _ hbusy =>
    rw [hdone] at hbusy
    cases hbusy
  | rest hstate =>
    subst hstate
    refine ⟨done, fun p => ?_, by simpa using hshares.rests.content, hshares.rests.off⟩
    have hpend : pend p = [] := by
      have hwaiting := hshares.others p (by simp)
      rw [hdone] at hwaiting
      generalize pend p = x at hwaiting
      cases hwaiting
      rfl
    simpa [hpend] using hshares.order p

end Writers

/-- The file of five bytes, open in two processes. -/
def sharedSys (t : FsState) (e : Entry) : Sys :=
  { (seekSys t e).setFd secondProc seekFd (some seekFile) with life := fun _ => .live }

/-- The second process comes to `begin_trans` while the first one is in its transaction. -/
def twoWrites : List (Turn Slot Call Event) :=
  [.call initproc (.write 0 (fun _ => 1) 1), .call secondProc (.write 0 (fun _ => 2) 1)] ++
    .replicate 3 (.step initproc) ++ .replicate 2 (.step secondProc) ++
    .replicate 18 (.step initproc) ++ .replicate 19 (.step secondProc)

theorem shared_writes_two : ∃ (s₀ : Sys) (s : Pool Slot Sys Act Int),
    Machine.runList (Pool.next (system seekArea)) ⟨s₀, fun _ => none⟩ twoWrites = some s ∧
    ∃ order : List (Slot × List UInt8),
      (∀ p, (order.filter fun x => x.1 = p).map Prod.snd = buffers twoWrites p) ∧
      contentOf s.state.fs (s₀.file seekFile).ip =
        contentOf s₀.fs (s₀.file seekFile).ip ++ (order.map Prod.snd).flatten ∧
      (s.state.file seekFile).off = fileSize s.state seekFile := by
  obtain ⟨t, e, w, hload, hready, himage⟩ := ready_seek
  have hdec : (match loadFile.evaluate 7 (startFs seekDisk) with
      | .ok (e, t) => (Pool.evaluate (system seekArea) (fun _ _ => True) 7
          ⟨sharedSys t e, fun _ => none⟩ twoWrites).any fun s => decide (∀ p, (s.prog p).isNone)
      | .halt _ => false) = true := by decide +kernel
  rw [Prog.evaluate_eq, hload] at hdec
  obtain ⟨s, hs, hnone⟩ := (Option.any_eq_true _ _).1 hdec
  rw [Pool.evaluate_eq] at hs
  simp only [if_true] at hs
  have hshared : Ready seekLayout (sharedSys t e) seekFile 2 w :=
    ⟨hready.stands, hready.type, hready.writable, hready.usable, hready.idle, hready.trans,
      hready.logged, hready.blocks⟩
  have hsize : fileSize (sharedSys t e) seekFile = 5 := by
    rw [hshared.fileSize_eq, himage]
    exact nodes_seek.2.2.2
  have hbytes : ∑ p, (buffers twoWrites p).flatten.length = 2 := by decide +kernel
  refine ⟨sharedSys t e, s, hs, ?_⟩
  refine shared_writes roomy_seek hshared hsize.symm twoWrites ?_ (by rw [hsize, hbytes]; decide) hs
    fun p => Option.isNone_iff_eq_none.1 (of_decide_eq_true hnone p)
  intro e he
  simp only [twoWrites, List.cons_append, List.nil_append, List.mem_cons, List.mem_append,
    List.mem_replicate] at he
  rcases he with rfl | rfl | ((⟨_, rfl⟩ | ⟨_, rfl⟩) | ⟨_, rfl⟩) | ⟨_, rfl⟩
  · exact ⟨rfl, by decide, by decide⟩
  · exact ⟨rfl, by decide, by decide⟩
  all_goals trivial

/-- The data area is full, and the file gets the first blocks of the log. -/
def fullRun : List (Turn Slot Call Event) :=
  Pool.alone initproc (.write 0 (fun _ => 0) 512) 30 ++
    Pool.alone secondProc (.write 0 (fun _ => 0) 512) 30

theorem zero_of_mem_fullRun {p : Slot} {buf : List UInt8} (hbuf : buf ∈ buffers fullRun p)
    {b : UInt8} (hb : b ∈ buf) : b = 0 := by
  obtain ⟨e, he, hmem⟩ := List.mem_flatMap.1 hbuf
  simp only [fullRun, Pool.alone, List.cons_append, List.mem_cons, List.mem_append,
    List.mem_replicate] at he
  have hwrite : ∀ q, buf ∈ Turn.buffer p (.call q (.write 0 (fun _ => 0) 512)) → b = 0 := by
    intro q hq
    simp only [Turn.buffer] at hq
    split_ifs at hq
    · rw [List.mem_singleton.1 hq] at hb
      obtain ⟨_, _, rfl⟩ := List.mem_map.1 hb
      rfl
    · cases hq
  rcases he with rfl | ⟨_, rfl⟩ | rfl | ⟨_, rfl⟩
  · exact hwrite _ hmem
  · cases hmem
  · exact hwrite _ hmem
  · cases hmem

/-- Both calls return 512, but the transactions have written their heads into the file. -/
theorem shared_writes_full : ∃ s₀, (machine fullArea).Reachable s₀ ∧ s₀.prog = (fun _ => none) ∧
    ∃ f s, inodeFile s₀.state initproc 0 = some f ∧ inodeFile s₀.state secondProc 0 = some f ∧
      (s₀.state.file f).off = 0 ∧ contentOf s₀.state.fs (s₀.state.file f).ip = [] ∧
      Machine.runList (Pool.next (system fullArea)) s₀ fullRun = some s ∧
      (∀ p, s.prog p = none) ∧ (s.state.file f).off = 1024 ∧
      ¬ ∃ order : List (Slot × List UInt8),
        (∀ p, (order.filter fun x => x.1 = p).map Prod.snd = buffers fullRun p) ∧
        contentOf s.state.fs (s₀.state.file f).ip = (order.map Prod.snd).flatten := by
  obtain ⟨s₀, hreach, hobs⟩ := reach_start fullArea fullDisk (C := fun _ _ => True)
    (Pool.alone initproc (.open filePath (O_CREATE + O_RDWR)) 85 ++
      Pool.alone initproc (.fork true) 23)
    (P := fun s => decide (∀ p, (s.prog p).isNone) && (inodeFile s.state initproc 0).any fun f =>
      decide (inodeFile s.state secondProc 0 = some f ∧ (s.state.file f).off = 0 ∧
        contentOf s.state.fs (s.state.file f).ip = []) &&
      (Pool.evaluate (system fullArea) (fun _ _ => True) 7 s fullRun).any
        fun t : Pool Slot Sys Act Int => decide ((∀ p, (t.prog p).isNone) ∧
          (t.state.file f).off = 1024 ∧ (contentOf t.state.fs (s.state.file f).ip)[4]? = some 4)) (by decide +kernel)
  obtain ⟨hidle, hobs⟩ := Bool.and_eq_true_iff.1 hobs
  obtain ⟨f, hfile, hobs⟩ := (Option.any_eq_true _ _).1 hobs
  obtain ⟨hbefore, hafter⟩ := Bool.and_eq_true_iff.1 hobs
  obtain ⟨s, hs, hafter⟩ := (Option.any_eq_true _ _).1 hafter
  obtain ⟨hsecond, hoff, hcontent⟩ := of_decide_eq_true hbefore
  obtain ⟨hdone, hend, hbyte⟩ := of_decide_eq_true hafter
  rw [Pool.evaluate_eq] at hs
  simp only [if_true] at hs
  have hnone : s₀.prog = fun _ => none :=
    funext fun p => Option.isNone_iff_eq_none.1 (of_decide_eq_true hidle p)
  refine ⟨s₀, hreach, hnone, f, s, hfile, hsecond, hoff, hcontent, hs,
    fun p => Option.isNone_iff_eq_none.1 (hdone p), hend, ?_⟩
  rintro ⟨order, horder, hflat⟩
  have hmem : (4 : UInt8) ∈ contentOf s.state.fs (s₀.state.file f).ip := List.mem_of_getElem? hbyte
  rw [hflat] at hmem
  obtain ⟨buf, hbuf, hfour⟩ := List.mem_flatten.1 hmem
  obtain ⟨x, hx, rfl⟩ := List.mem_map.1 hbuf
  have hasked : x.2 ∈ buffers fullRun x.1 := by
    rw [← horder x.1]
    exact List.mem_map.2 ⟨x, List.mem_filter.2 ⟨hx, by simp⟩, rfl⟩
  exact absurd (zero_of_mem_fullRun hasked hfour) (by decide)

end Xv6.Volume
