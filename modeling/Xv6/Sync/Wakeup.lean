import Xv6.Sync.Monitor

/-!
# No wakeup is lost

A client promises, for each of its channels, a condition on the data under which
nobody need wait there.  If it sleeps only while the condition is false and
calls `wakeup` whenever it makes the condition true, then the two-lock handover
in `sleep` leaves no process asleep on a channel whose condition holds, at any
moment at which the client's lock is free.
-/

namespace Xv6.Sync

open Xv6.Lib Xv6.Sched

variable {σ K A : Type}

def Waits (s : State σ K) (ch : Chan) (x : Slot) : Prop :=
  (∃ k, s.pc x = .sleepSet ch k) ∨ SleepsOn s.pt (some ch) x

def Unattended (s : State σ K) (ch : Chan) : Prop := ∀ x, ¬ Waits s ch x

/-- The conditions of a client's channels, and the wakeups that it still has to
make at each point of control. -/
structure Protocol (c : Client σ K A) where
  Ready : Chan → σ → Prop
  Owes : K → Chan → Prop
  own : ∀ {ch d}, Ready ch d → c.own ch = true
  own_proc : ∀ x, c.own (.proc x) = false

namespace Protocol

variable {c : Client σ K A} (P : Protocol c)

def owes : Pc K → Chan → Prop
  | .crit k, ch | .wakeRel k, ch => P.Owes k ch
  | .wakeAcq ch' k, ch | .wakeRun ch' k, ch => ch' = ch ∨ P.Owes k ch
  | _, _ => False

/-- Whoever waits on a channel that is ready will be woken by a process that
owes the wakeup, and nobody is about to wait on a channel that is ready. -/
structure Heard (s : State σ K) : Prop where
  heard : ∀ ch, P.Ready ch s.data → (∃ p, P.owes (s.pc p) ch) ∨ Unattended s ch
  about : ∀ p ch k, s.pc p = .sleepAcq ch k ∨ s.pc p = .sleepRel ch k → ¬ P.Ready ch s.data

def Kept (s : State σ K) (k : K) (ch : Chan) : Prop :=
  Unattended s ch ∨ (P.Ready ch s.data ∧ ¬ P.Owes k ch)

/-- What the stretch of code at `k` must do for the channels that it makes ready. -/
def Disciplined (s : State σ K) (k : K) : Next σ K → Prop
  | .goto d k' => ∀ ch, P.Ready ch d → P.Kept s k ch ∨ P.Owes k' ch
  | .sleep d ch' _ => (∀ ch, P.Ready ch d → P.Kept s k ch) ∧ ¬ P.Ready ch' d
  | .wakeup d ch' k' => ∀ ch, P.Ready ch d → P.Kept s k ch ∨ ch' = ch ∨ P.Owes k' ch
  | .release d _ | .ret d _ => ∀ ch, P.Ready ch d → P.Kept s k ch

variable {P} {s t : State σ K}

theorem holdsLock_of_owes {pc : Pc K} {ch : Chan} (h : P.owes pc ch) : pc.holdsLock = true := by
  cases pc <;> simp_all [owes, Pc.holdsLock]

theorem Heard.unattended_of_holdsLock (h : P.Heard s) (hl : Locked s) {p : Slot} {ch : Chan}
    (hp : (s.pc p).holdsLock = true) (hready : P.Ready ch s.data) (howes : ¬ P.owes (s.pc p) ch) :
    Unattended s ch := by
  refine (h.heard ch hready).resolve_left ?_
  rintro ⟨q, hq⟩
  rw [hl.eq_of_holdsLock hp (holdsLock_of_owes hq)] at hq
  exact howes hq

theorem Heard.unattended_of_kept (h : P.Heard s) (hl : Locked s) {p : Slot} {k : K} {ch : Chan}
    (hpc : s.pc p = .crit k) (hk : P.Kept s k ch) : Unattended s ch := by
  rcases hk with hun | ⟨hready, howes⟩
  · exact hun
  · refine h.unattended_of_holdsLock hl (p := p) ?_ hready ?_
    · simp [hpc, Pc.holdsLock]
    · simpa [hpc, owes] using howes

theorem Heard.frame (h : P.Heard s) (hdata : t.data = s.data)
    (howes : ∀ q ch, P.owes (s.pc q) ch → P.owes (t.pc q) ch)
    (hwaits : ∀ x ch, P.Ready ch s.data → Waits t ch x → Waits s ch x)
    (habout : ∀ p ch k, t.pc p = .sleepAcq ch k ∨ t.pc p = .sleepRel ch k →
      s.pc p = .sleepAcq ch k ∨ s.pc p = .sleepRel ch k) : P.Heard t := by
  constructor
  · intro ch hready
    rw [hdata] at hready
    rcases h.heard ch hready with ⟨q, hq⟩ | hun
    · exact .inl ⟨q, howes q ch hq⟩
    · exact .inr fun x hx => hun x (hwaits x ch hready hx)
  · intro p ch k hpc
    rw [hdata]
    exact h.about p ch k (habout p ch k hpc)

theorem waits_setPc {pc : Pc K} {p x : Slot} {ch : Chan} (hpt : t.pt = s.pt)
    (hpc : t.pc = Function.update s.pc p pc) (hne : ∀ k, pc ≠ .sleepSet ch k)
    (hx : Waits t ch x) : Waits s ch x := by
  rcases hx with ⟨k, hk⟩ | hsl
  · by_cases hxp : x = p
    · subst hxp
      rw [hpc, Function.update_self] at hk
      exact absurd hk (hne k)
    · rw [hpc, Function.update_of_ne hxp] at hk
      exact .inl ⟨k, hk⟩
  · rw [hpt] at hsl
    exact .inr hsl

theorem Heard.of_body (h : P.Heard s) (hl : Locked s) {p : Slot} {k : K} {pc : Pc K}
    (hpc : s.pc p = .crit k) (hpt : t.pt = s.pt) (htpc : t.pc = Function.update s.pc p pc)
    (hne : ∀ ch k, pc ≠ .sleepSet ch k)
    (hready : ∀ ch, P.Ready ch t.data → P.Kept s k ch ∨ P.owes pc ch)
    (habout : ∀ ch k, pc = .sleepAcq ch k ∨ pc = .sleepRel ch k → ¬ P.Ready ch t.data) :
    P.Heard t := by
  constructor
  · intro ch hch
    rcases hready ch hch with hkept | howes
    · have hun := h.unattended_of_kept hl hpc hkept
      exact .inr fun x hx => hun x (waits_setPc hpt htpc (hne ch) hx)
    · exact .inl ⟨p, by simpa [htpc] using howes⟩
  · intro x ch k' hx
    by_cases hxp : x = p
    · subst hxp
      rw [htpc, Function.update_self] at hx
      exact habout ch k' hx
    · rw [htpc, Function.update_of_ne hxp] at hx
      have hholds : (s.pc x).holdsLock = true := by
        rcases hx with hx | hx <;> simp [hx, Pc.holdsLock]
      exact absurd (hl.eq_of_holdsLock (by simp [hpc, Pc.holdsLock]) hholds) hxp

theorem waits_sleep {p x : Slot} {ch ch' : Chan} {k : K} (hpc : s.pc p = .sleepSet ch' k)
    (hpt : t.pt = s.pt.sleep p ch') (htpc : t.pc = Function.update s.pc p (.asleep ch' k))
    (hx : Waits t ch x) : Waits s ch x := by
  by_cases hxp : x = p
  · subst hxp
    rcases hx with ⟨k', hk⟩ | hsl
    · simp [htpc] at hk
    · have hch : ch' = ch := by simpa [hpt, SleepsOn, PTable.sleep] using hsl
      exact .inl ⟨k, hch ▸ hpc⟩
  · rcases hx with ⟨k', hk⟩ | hsl
    · rw [htpc, Function.update_of_ne hxp] at hk
      exact .inl ⟨k', hk⟩
    · refine .inr ?_
      simpa [hpt, SleepsOn, PTable.sleep, hxp] using hsl

theorem waits_wakeup1 {p x : Slot} {ch ch' : Chan} {k : K}
    (hpt : t.pt = s.pt.wakeup1 (some ch')) (htpc : t.pc = Function.update s.pc p (.wakeRel k))
    (hx : Waits t ch x) : Waits s ch x := by
  rcases hx with ⟨k', hk⟩ | hsl
  · by_cases hxp : x = p
    · subst hxp
      simp [htpc] at hk
    · rw [htpc, Function.update_of_ne hxp] at hk
      exact .inl ⟨k', hk⟩
  · rw [hpt] at hsl
    have hsame := wakeup1_of_ne_runnable (ne_runnable_of_eq hsl.1 (by simp))
    exact .inr ⟨hsame.state_eq ▸ hsl.1, hsame.chan_eq ▸ hsl.2⟩

/-- After `wakeup1` nobody is asleep on the channel, and with `ptable.lock` held
nobody else can be halfway into `sleep`. -/
theorem unattended_wakeup1 {p : Slot} {ch : Chan} {k : K} (hl : Locked s)
    (hpc : s.pc p = .wakeRun ch k) (hpt : t.pt = s.pt.wakeup1 (some ch))
    (htpc : t.pc = Function.update s.pc p (.wakeRel k)) : Unattended t ch := by
  rintro x (⟨k', hk⟩ | hsl)
  · by_cases hxp : x = p
    · subst hxp
      simp [htpc] at hk
    · rw [htpc, Function.update_of_ne hxp] at hk
      exact hxp (hl.eq_of_holdsPtLock (by simp [hpc, Pc.holdsPtLock])
        (by simp [hk, Pc.holdsPtLock]))
  · rw [hpt] at hsl
    exact not_sleepsOn_wakeup1 _ _ _ hsl

theorem owes_update {p q : Slot} {pc : Pc K} {ch : Chan}
    (hself : P.owes (s.pc p) ch → P.owes pc ch) (hq : P.owes (s.pc q) ch) :
    P.owes (Function.update s.pc p pc q) ch := by
  by_cases hqp : q = p
  · subst hqp
    simpa using hself hq
  · simpa [hqp] using hq

theorem about_update {p q : Slot} {pc : Pc K} {ch : Chan} {k : K}
    (hself : pc = .sleepAcq ch k ∨ pc = .sleepRel ch k →
      s.pc p = .sleepAcq ch k ∨ s.pc p = .sleepRel ch k)
    (hq : Function.update s.pc p pc q = .sleepAcq ch k ∨
      Function.update s.pc p pc q = .sleepRel ch k) :
    s.pc q = .sleepAcq ch k ∨ s.pc q = .sleepRel ch k := by
  by_cases hqp : q = p
  · subst hqp
    exact hself (by simpa using hq)
  · simpa [hqp] using hq

theorem Heard.of_wakeRun (h : P.Heard s) (hl : Locked s) {p : Slot} {ch' : Chan} {k : K}
    (hpc : s.pc p = .wakeRun ch' k) (hdata : t.data = s.data)
    (hpt : t.pt = s.pt.wakeup1 (some ch'))
    (htpc : t.pc = Function.update s.pc p (.wakeRel k)) : P.Heard t := by
  constructor
  · intro ch hready
    rw [hdata] at hready
    by_cases howes : P.Owes k ch
    · exact .inl ⟨p, by simpa [htpc, owes] using howes⟩
    · by_cases hch : ch' = ch
      · exact .inr (hch ▸ unattended_wakeup1 hl hpc hpt htpc)
      · have hun := h.unattended_of_holdsLock hl (p := p) (by simp [hpc, Pc.holdsLock]) hready
          (by simp [hpc, owes, hch, howes])
        exact .inr fun x hx => hun x (waits_wakeup1 hpt htpc hx)
  · intro q ch k' hq
    rw [hdata]
    rw [htpc] at hq
    exact h.about q ch k' (about_update (by simp) hq)

theorem Heard.of_move (h : P.Heard s) (hl : Locked s) {p : Slot} (hm : c.Move s p t)
    (hd : ∀ k, s.pc p = .crit k → P.Disciplined s k (c.body k p s.data)) : P.Heard t := by
  cases hm with
  | acquire hpc _ =>
    refine h.frame rfl (fun q ch => owes_update (by simp [hpc, owes])) ?_
      fun q ch k => about_update (by simp)
    exact fun x ch _ => waits_setPc rfl rfl (by simp)
  | goto hpc hb =>
    have hdis := hd _ hpc
    rw [hb] at hdis
    exact h.of_body hl hpc rfl rfl (by simp) hdis (by simp)
  | sleep hpc hb =>
    have hdis := hd _ hpc
    rw [hb] at hdis
    refine h.of_body hl hpc rfl rfl (by simp) (fun ch hch => .inl (hdis.1 ch hch)) ?_
    rintro ch k (heq | heq)
    · obtain ⟨rfl, rfl⟩ := Pc.sleepAcq.inj heq
      exact hdis.2
    · simp at heq
  | wakeup hpc hb =>
    have hdis := hd _ hpc
    rw [hb] at hdis
    exact h.of_body hl hpc rfl rfl (by simp) hdis (by simp)
  | release hpc hb _ | ret hpc hb =>
    have hdis := hd _ hpc
    rw [hb] at hdis
    exact h.of_body hl hpc rfl rfl (by simp) (fun ch hch => .inl (hdis ch hch)) (by simp)
  | sleepAcq hpc _ =>
    refine h.frame rfl (fun q ch => owes_update (by simp [hpc, owes])) ?_
      fun q ch k => about_update (by simp [hpc])
    exact fun x ch _ => waits_setPc rfl rfl (by simp)
  | @sleepRel k ch' hpc _ =>
    refine h.frame rfl (fun q ch => owes_update (by simp [hpc, owes])) (fun x ch hready => ?_)
      fun q ch k => about_update (by simp)
    have hne : ch' ≠ ch := by
      rintro rfl
      exact h.about p ch' k (.inr hpc) hready
    exact waits_setPc rfl rfl (by simp [hne])
  | sleepSet hpc =>
    refine h.frame rfl (fun q ch => owes_update (by simp [hpc, owes])) ?_
      fun q ch k => about_update (by simp)
    exact fun x ch _ => waits_sleep hpc rfl rfl
  | resume hpc _ =>
    refine h.frame rfl (fun q ch => owes_update (by simp [hpc, owes])) ?_
      fun q ch k => about_update (by simp)
    exact fun x ch _ => waits_setPc rfl rfl (by simp)
  | wakeAcq hpc _ | wakeRel hpc _ =>
    refine h.frame rfl (fun q ch => owes_update (by simp [hpc, owes])) ?_
      fun q ch k => about_update (by simp)
    exact fun x ch _ => waits_setPc rfl rfl (by simp)
  | @wakeRun k ch' hpc =>
    generalize hpt : s.pt.wakeup1 (some ch') = pt
    exact h.of_wakeRun hl hpc rfl hpt.symm rfl

theorem Heard.of_tableMove (h : P.Heard s) {op : Op} {pt : PTable} (hop : c.allowed s op = true)
    (hnext : Sched.next s.pt op = some pt) (hm : c.TableMove s op pt t)
    (hexit : ∀ p ch, op = .exit p → P.Ready ch (c.onExit p s.data) → P.Ready ch s.data) :
    P.Heard t := by
  have hsleeps : ∀ x ch, P.Ready ch s.data → SleepsOn pt (some ch) x →
      SleepsOn s.pt (some ch) x :=
    fun x ch hready => Client.sleepsOn_of_allowed hop P.own_proc hnext (P.own hready)
  cases hm with
  | plain =>
    refine h.frame rfl (fun _ _ hq => hq) (fun x ch hready hx => ?_) fun _ _ _ hq => hq
    exact hx.imp_right (hsleeps x ch hready)
  | @exit p hop =>
    refine ⟨fun ch hready => ?_, fun q ch k hq hready => ?_⟩
    · have hbefore := hexit p ch hop hready
      refine (h.heard ch hbefore).imp_right fun hun x hx => hun x ?_
      exact hx.imp_right (hsleeps x ch hbefore)
    · exact h.about q ch k hq (hexit p ch hop hready)
  | @resume p _ _ _ hpc _ =>
    refine h.frame rfl (fun q ch => owes_update (by simp [hpc, owes])) (fun x ch hready hx => ?_)
      fun q ch k => about_update (by simp)
    rcases hx with ⟨k, hk⟩ | hsl
    · by_cases hxp : x = p
      · subst hxp
        simp at hk
      · exact .inl ⟨k, by simpa [hxp] using hk⟩
    · exact .inr (hsleeps x ch hready hsl)

theorem Heard.of_start (h : P.Heard s) {p : Slot} {a : A} (ht : c.start s p a = some t)
    (hready : ∀ ch, P.Ready ch t.data → P.Ready ch s.data) : P.Heard t := by
  obtain ⟨hidle, hpt, hcases⟩ := Client.start_cases ht
  obtain ⟨pc, htpc, hpc⟩ : ∃ pc, t.pc = Function.update s.pc p pc ∧
      ∀ ch k, pc ≠ .sleepSet ch k ∧ pc ≠ .sleepAcq ch k ∧ pc ≠ .sleepRel ch k := by
    rcases hcases with ⟨_, k, _, _, htpc⟩ | ⟨_, _, _, _, htpc⟩
    · exact ⟨.acq k, htpc, by simp⟩
    · exact ⟨.idle, by simp [htpc, ← hidle], by simp⟩
  constructor
  · intro ch hch
    rcases h.heard ch (hready ch hch) with ⟨q, hq⟩ | hun
    · exact .inl ⟨q, htpc ▸ owes_update (by simp [hidle, owes]) hq⟩
    · exact .inr fun x hx => hun x (waits_setPc hpt htpc (fun k => (hpc ch k).1) hx)
  · intro q ch k hq hch
    rw [htpc] at hq
    have hbefore := about_update (p := p) (by simp [hpc ch k]) hq
    exact h.about q ch k hbefore (hready ch hch)

end Protocol

end Xv6.Sync
