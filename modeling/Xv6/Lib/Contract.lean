import Xv6.Lib.Pool

/-!
# Contracts of programs that run alone

A contract says what may be assumed and what is to be shown of the state in which an action is
taken, and how a program may stop in the middle.  `Sat` is the calculus for programs that keep
it and end with a postcondition.
-/

namespace Xv6.Lib

structure Contract (σ ℓ : Type) where
  cond : ℓ → σ → Prop
  check : ℓ → σ → Prop
  stop : Halt → Prop

variable {σ τ ℓ α β : Type}

namespace Prog

/-- The program keeps the contract from the state on, and ends with `Q`. -/
def Sat (K : Contract σ ℓ) (Q : α → σ → Prop) : Prog σ ℓ α → σ → Prop
  | .ret a, s => Q a s
  | .act l f k, s => K.cond l s → K.check l s ∧
      match f s with
      | .ok (b, t) => (k b).Sat K Q t
      | .halt h => K.stop h

def Along (C : ℓ → σ → Prop) : Prog σ ℓ α → σ → Prop
  | .ret _, _ => True
  | .act l f k, s => C l s ∧
      match f s with
      | .ok (b, t) => (k b).Along C t
      | .halt _ => True

variable {K : Contract σ ℓ} {Q Q' : α → σ → Prop} {s : σ}

theorem sat_act {l : ℓ} {f : σ → Res (β × σ)} {k : β → Prog σ ℓ α} :
    (act l f k).Sat K Q s ↔ (K.cond l s → K.check l s ∧
      (∀ b t, f s = .ok (b, t) → (k b).Sat K Q t) ∧ ∀ h, f s = .halt h → K.stop h) := by
  simp only [Sat]
  cases hf : f s with
  | ok r =>
    obtain ⟨b, t⟩ := r
    simp
  | halt h => simp

theorem along_act {C : ℓ → σ → Prop} {l : ℓ} {f : σ → Res (β × σ)} {k : β → Prog σ ℓ α} :
    (act l f k).Along C s ↔ C l s ∧ ∀ b t, f s = .ok (b, t) → (k b).Along C t := by
  simp only [Along]
  cases hf : f s with
  | ok r =>
    obtain ⟨b, t⟩ := r
    simp
  | halt h => simp

theorem Sat.bind {m : Prog σ ℓ α} {g : α → Prog σ ℓ β} {T : β → σ → Prop} (h : m.Sat K Q s)
    (hg : ∀ a t, Q a t → (g a).Sat K T t) : (m.bind g).Sat K T s := by
  induction m generalizing s with
  | ret a => exact hg a s h
  | act l f k ih =>
    refine sat_act.2 fun hcond => ?_
    obtain ⟨hcheck, hok, hhalt⟩ := sat_act.1 h hcond
    exact ⟨hcheck, fun b t hf => ih b (hok b t hf), hhalt⟩

theorem sat_atomic {l : ℓ} {f : σ → Res (α × σ)}
    (h : K.cond l s → K.check l s ∧ (∀ a t, f s = .ok (a, t) → Q a t) ∧
      ∀ h, f s = .halt h → K.stop h) : (atomic l f).Sat K Q s :=
  sat_act.2 h

theorem sat_ite {c : Prop} [Decidable c] {m m' : Prog σ ℓ α} (hpos : c → m.Sat K Q s)
    (hneg : ¬ c → m'.Sat K Q s) : (if c then m else m').Sat K Q s := by
  split_ifs with hc
  · exact hpos hc
  · exact hneg hc

/-! ## Runs -/

theorem Sat.run {m : Prog σ ℓ α} (h : m.Sat K Q s) (halong : m.Along K.cond s) :
    (∀ a t, m.run s = .ok (a, t) → Q a t) ∧ ∀ x, m.run s = .halt x → K.stop x := by
  induction m generalizing s with
  | ret a =>
    refine ⟨fun b t hrun => ?_, by simp [Prog.run]⟩
    obtain ⟨rfl, rfl⟩ : a = b ∧ s = t := by simpa [Prog.run] using hrun
    exact h
  | act l f k ih =>
    obtain ⟨hcond, hrest⟩ := along_act.1 halong
    obtain ⟨_, hok, hhalt⟩ := sat_act.1 h hcond
    simp only [Prog.run]
    cases hf : f s with
    | ok r => exact ih r.1 (hok r.1 r.2 hf) (hrest r.1 r.2 hf)
    | halt x =>
      refine ⟨by simp, fun y hy => ?_⟩
      obtain rfl : x = y := by simpa using hy
      exact hhalt x hf

theorem along_of_forall {C : ℓ → σ → Prop} (h : ∀ l s, C l s) (m : Prog σ ℓ α) (s : σ) :
    m.Along C s := by
  induction m generalizing s with
  | ret a => trivial
  | act l f k ih => exact along_act.2 ⟨h l s, fun b t _ => ih b t⟩

theorem Along.bind {C : ℓ → σ → Prop} {m : Prog σ ℓ α} {g : α → Prog σ ℓ β} (h : m.Along C s)
    (hg : ∀ a t, m.run s = .ok (a, t) → (g a).Along C t) : (m.bind g).Along C s := by
  induction m generalizing s with
  | ret a => exact hg a s rfl
  | act l f k ih =>
    obtain ⟨hC, hrest⟩ := along_act.1 h
    refine along_act.2 ⟨hC, fun b t hf => ih b (hrest b t hf) fun a u hrun => hg a u ?_⟩
    simpa only [Prog.run, hf] using hrun

theorem along_ite {C : ℓ → σ → Prop} {c : Prop} [Decidable c] {m m' : Prog σ ℓ α}
    (hpos : c → m.Along C s) (hneg : ¬ c → m'.Along C s) : (if c then m else m').Along C s := by
  split_ifs with hc
  · exact hpos hc
  · exact hneg hc

/-! ## What every action keeps -/

/-- Every action keeps `P`, from whatever state it is taken. -/
def Keeps (P : σ → Prop) : Prog σ ℓ α → Prop
  | .ret _ => True
  | .act _ f k => (∀ s b t, P s → f s = .ok (b, t) → P t) ∧ ∀ b, (k b).Keeps P

section Keeps

variable {P : σ → Prop}

theorem keeps_atomic {l : ℓ} {f : σ → Res (α × σ)} (h : ∀ s b t, P s → f s = .ok (b, t) → P t) :
    (atomic l f).Keeps P :=
  ⟨h, fun _ => trivial⟩

theorem Keeps.bind {m : Prog σ ℓ α} {g : α → Prog σ ℓ β} (h : m.Keeps P)
    (hg : ∀ a, (g a).Keeps P) : (m.bind g).Keeps P := by
  induction m with
  | ret a => exact hg a
  | act l f k ih => exact ⟨h.1, fun b => ih b (h.2 b)⟩

theorem keeps_ite {c : Prop} [Decidable c] {m m' : Prog σ ℓ α} (h : m.Keeps P)
    (h' : m'.Keeps P) : (if c then m else m').Keeps P := by
  split_ifs
  · exact h
  · exact h'

theorem keeps_when {c : Prop} [Decidable c] {m : Prog σ ℓ Unit} (h : m.Keeps P) :
    (when c m).Keeps P :=
  keeps_ite h trivial

theorem Keeps.lift {R : τ → Prop} {get : τ → σ} {set : σ → τ → τ} {m : Prog σ ℓ α}
    (h : m.Keeps P) (hget : ∀ s, R s → P (get s)) (hset : ∀ t s, P t → R s → R (set t s)) :
    (m.lift get set).Keeps R := by
  induction m with
  | ret a => trivial
  | act l f k ih =>
    refine ⟨fun s b t hs hf => ?_, fun b => ih b (h.2 b)⟩
    cases hfs : f (get s) with
    | halt x => simp [hfs] at hf
    | ok r =>
      obtain ⟨c, u⟩ := r
      obtain ⟨rfl, rfl⟩ : c = b ∧ set u s = t := by simpa [hfs] using hf
      exact hset u s (h.1 (get s) c u (hget s hs) hfs) hs

theorem keeps_trivial (m : Prog σ ℓ α) : m.Keeps fun _ => True := by
  induction m with
  | ret a => trivial
  | act l f k ih => exact ⟨fun _ _ _ _ _ => trivial, ih⟩

theorem Keeps.along {m : Prog σ ℓ α} (h : m.Keeps P) (hs : P s) : m.Along (fun _ => P) s := by
  induction m generalizing s with
  | ret a => trivial
  | act l f k ih => exact along_act.2 ⟨hs, fun b t hf => ih b (h.2 b) (h.1 s b t hs hf)⟩

theorem Keeps.run {m : Prog σ ℓ α} (h : m.Keeps P) (hs : P s) {a : α} {t : σ}
    (hrun : m.run s = .ok (a, t)) : P t := by
  induction m generalizing s with
  | ret b =>
    obtain ⟨_, rfl⟩ : b = a ∧ s = t := by simpa [Prog.run] using hrun
    exact hs
  | act l f k ih =>
    simp only [Prog.run] at hrun
    cases hf : f s with
    | ok r =>
      rw [hf] at hrun
      exact ih r.1 (h.2 r.1) (h.1 s r.1 r.2 hs hf) hrun
    | halt x => simp [hf] at hrun

/-- A program keeps `P`, and what comes after it has `P` before its actions. -/
theorem Keeps.along_bind {m : Prog σ ℓ α} {g : α → Prog σ ℓ β} (h : m.Keeps P) (hs : P s)
    (hg : ∀ a t, P t → (g a).Along (fun _ => P) t) : (m.bind g).Along (fun _ => P) s :=
  (h.along hs).bind fun a t hrun => hg a t (h.run hs hrun)

end Keeps

end Prog

end Xv6.Lib
