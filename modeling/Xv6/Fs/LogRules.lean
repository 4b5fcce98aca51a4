import Xv6.Fs.Log

/-!
# Rules for the buffer cache

What the cache may hold for each sector is one of three statuses, none of which
the other processes can disturb.  The calls on buffers then have one rule each.
-/

namespace Xv6.Fs

open Xv6.Lib

inductive Status
  /-- Absent, or a clean copy of the disk. -/
  | clean
  /-- A dirty buffer with these contents. -/
  | dirty (data : Block)
  /-- Locked by the running code. -/
  | out

def Status.holds : Status → Block → Cached → Prop
  | .clean, d, c => c = .absent ∨ c = .idle d false
  | .dirty data, _, c => c = .idle data true
  | .out, _, c => c = .busy

/-- The cache is as `m` says, and only if `X` holds can it run out of buffers. -/
structure Caches (X : Prop) (m : Nat → Status) (s : LogState) : Prop where
  holds : ∀ i, (m i).holds (s.disk i) (s.cache i)
  turns : ∀ t ∈ s.turns, t.full = true → X

variable {X : Prop} {m : Nat → Status} {s : LogState}

theorem Caches.congr {t : LogState} (h : Caches X m s) (hdisk : t.disk = s.disk)
    (hcache : t.cache = s.cache) (hturns : t.turns = s.turns) : Caches X m t := by
  refine ⟨?_, ?_⟩
  · rw [hdisk, hcache]
    exact h.holds
  · rw [hturns]
    exact h.turns

theorem Caches.setCache (h : Caches X m s) {i : Nat} {st : Status} {c : Cached}
    (hc : st.holds (s.disk i) c) : Caches X (Function.update m i st) (s.setCache i c) := by
  refine ⟨fun j => ?_, h.turns⟩
  by_cases hj : j = i
  · subst hj
    simpa [LogState.setCache] using hc
  · simpa [LogState.setCache, hj] using h.holds j

theorem Caches.setCache_self (h : Caches X m s) {i : Nat} {c : Cached}
    (hc : (m i).holds (s.disk i) c) : Caches X m (s.setCache i c) := by
  simpa using h.setCache hc

theorem Caches.other (h : Caches X m s) (o : Other) :
    Caches X m (s.other o) ∧ (s.other o).toCore = s.toCore ∧ (s.other o).turns = s.turns := by
  cases o with
  | recycle i =>
    simp only [LogState.other]
    split
    · rename_i data hc
      have hi := h.holds i
      refine ⟨h.setCache_self ?_, rfl, rfl⟩
      cases hm : m i <;> simp_all [Status.holds]
    · exact ⟨h, rfl, rfl⟩
  | fetch i =>
    simp only [LogState.other]
    split
    · rename_i hc
      have hi := h.holds i
      refine ⟨h.setCache_self ?_, rfl, rfl⟩
      cases hm : m i <;> simp_all [Status.holds]
    · exact ⟨h, rfl, rfl⟩

theorem Caches.others (h : Caches X m s) (os : List Other) :
    Caches X m (os.foldl LogState.other s) ∧
      (os.foldl LogState.other s).toCore = s.toCore := by
  induction os generalizing s with
  | nil => exact ⟨h, rfl⟩
  | cons o os ih =>
    obtain ⟨ho, hcore, _⟩ := h.other o
    obtain ⟨hall, hcore'⟩ := ih ho
    exact ⟨hall, hcore'.trans hcore⟩

theorem Caches.takeTurn (h : Caches X m s) :
    Caches X m s.takeTurn.1 ∧ s.takeTurn.1.toCore = s.toCore ∧
      (s.takeTurn.2 = true → X) := by
  unfold LogState.takeTurn
  split
  · exact ⟨h, rfl, by simp⟩
  · rename_i t ts hturns
    have hrest : Caches X m { s with turns := ts } :=
      ⟨h.holds, fun u hu => h.turns u (by simp [hturns, hu])⟩
    obtain ⟨hall, hcore⟩ := hrest.others t.others
    exact ⟨hall, hcore, h.turns t (by simp [hturns])⟩

def Status.gives : Status → Block → Buf → Prop
  | .clean, d, b => b.data = d ∧ b.dirty = false
  | .dirty data, _, b => b.data = data ∧ b.dirty = true
  | .out, _, _ => False

section Rules

variable {α : Type} {C : LogState → Prop} {Q : α → LogState → Prop}

/-- A halt is allowed wherever a crash is, if the cache may run out of buffers. -/
def Halts (C : LogState → Prop) (X : Prop) (_ : Halt) (s : LogState) : Prop := C s ∧ X

theorem wp_bread {Q : Buf → LogState → Prop} {i : Nat} (hC : C s) (hm : Caches X m s)
    (hout : m i ≠ .out)
    (hQ : ∀ b t, b.sector = i → (m i).gives (s.disk i) b → t.toCore = s.toCore →
      Caches X (Function.update m i .out) t → Q b t) :
    (bread i).wp C (Halts C X) Q s := by
  obtain ⟨hturn, hcore, hfull⟩ := hm.takeTurn
  have hdisk : s.takeTurn.1.disk = s.disk := congrArg Core.disk hcore
  have hi := hturn.holds i
  have htake : Caches X (Function.update m i .out) (s.takeTurn.1.setCache i .busy) :=
    hturn.setCache rfl
  apply Prog.wp_atomic hC
  · intro b t hf
    simp only at hf
    split at hf
    · simp at hf
    · rename_i data dirty hc
      obtain ⟨rfl, rfl⟩ : _ = b ∧ _ = t := by simpa using hf
      refine hQ _ _ rfl ?_ hcore htake
      rw [hc] at hi
      cases hst : m i <;> simp_all [Status.holds, Status.gives]
    · rename_i hc
      split_ifs at hf
      obtain ⟨rfl, rfl⟩ : _ = b ∧ _ = t := by simpa using hf
      refine hQ _ _ rfl ?_ hcore htake
      rw [hc] at hi
      cases hst : m i <;> simp_all [Status.holds, Status.gives]
  · intro x hf
    simp only at hf
    split at hf
    · rename_i hc
      rw [hc] at hi
      cases hst : m i <;> simp_all [Status.holds]
    · simp at hf
    · split_ifs at hf with hfl
      exact ⟨hC, hfull hfl⟩

theorem wp_bwrite {Q : Buf → LogState → Prop} {E : Halt → LogState → Prop} {b : Buf} (hC : C s)
    (hm : Caches X m s) (hout : m b.sector = .out)
    (hQ : ∀ t, t.toCore = { s.toCore with disk := Function.update s.disk b.sector b.data } →
      Caches X m t → Q { b with dirty := false } t) : (bwrite b).wp C E Q s := by
  apply Prog.wp_atomic hC
  · intro b' t hf
    obtain ⟨rfl, rfl⟩ : _ = b' ∧ _ = t := by simpa using hf
    refine hQ _ rfl ⟨fun j => ?_, hm.turns⟩
    have hj := hm.holds j
    by_cases hjb : j = b.sector
    · subst hjb
      rw [hout] at hj ⊢
      exact hj
    · simpa [hjb] using hj
  · intro x hf
    simp at hf

theorem wp_brelse {Q : Unit → LogState → Prop} {E : Halt → LogState → Prop} {b : Buf}
    {c : Status} (hC : C s) (hm : Caches X m s)
    (hc : c.holds (s.disk b.sector) (.idle b.data b.dirty))
    (hQ : ∀ t, t.toCore = s.toCore → Caches X (Function.update m b.sector c) t → Q () t) :
    (brelse b).wp C E Q s := by
  apply Prog.wp_atomic hC
  · intro u t hf
    obtain rfl : _ = t := by simpa using hf
    exact hQ _ rfl (hm.setCache hc)
  · intro x hf
    simp at hf

theorem wp_brelse_clean {Q : Unit → LogState → Prop} {E : Halt → LogState → Prop} {b : Buf}
    (hC : C s) (hm : Caches X m s) (hdirty : b.dirty = false)
    (hdata : b.data = s.disk b.sector)
    (hQ : ∀ t, t.toCore = s.toCore → Caches X (Function.update m b.sector .clean) t → Q () t) :
    (brelse b).wp C E Q s := by
  have hclean : Status.clean.holds (s.disk b.sector) (.idle b.data b.dirty) := by
    simp [Status.holds, hdirty, hdata]
  exact wp_brelse hC hm hclean hQ

theorem wp_brelse_dirty {Q : Unit → LogState → Prop} {E : Halt → LogState → Prop} {b : Buf}
    (hC : C s) (hm : Caches X m s) (hdirty : b.dirty = true)
    (hQ : ∀ t, t.toCore = s.toCore →
      Caches X (Function.update m b.sector (.dirty b.data)) t → Q () t) :
    (brelse b).wp C E Q s := by
  have hkept : (Status.dirty b.data).holds (s.disk b.sector) (.idle b.data b.dirty) := by
    simp [Status.holds, hdirty]
  exact wp_brelse hC hm hkept hQ

theorem wp_field {f : LogState → α} {E : Halt → LogState → Prop} (hC : C s)
    (hQ : Q (f s) s) : (field f).wp C E Q s := by
  apply Prog.wp_atomic hC
  · intro v t hf
    obtain ⟨rfl, rfl⟩ : f s = v ∧ s = t := by simpa using hf
    exact hQ
  · intro x hf
    simp at hf

theorem wp_assign {f : LogState → LogState} {Q : Unit → LogState → Prop}
    {E : Halt → LogState → Prop} (hC : C s) (hQ : Q () (f s)) : (assign f).wp C E Q s := by
  apply Prog.wp_atomic hC
  · intro v t hf
    obtain rfl : f s = t := by simpa using hf
    exact hQ
  · intro x hf
    simp at hf

end Rules

end Xv6.Fs
