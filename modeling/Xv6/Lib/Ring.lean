import Mathlib

/-!
# Ring buffers with free-running counters

A buffer of `N` cells with two counters, of what has been put in and of what has been
taken out.  The counters are kept modulo `M` only and a cell is found by taking a
counter modulo `N`, so `N` has to divide `M`.  `Carries` is the abstraction to the
queue of what is in the buffer.
-/

namespace Xv6.Lib

structure RingBuffer (α : Type) where
  data : Nat → α
  nread : Nat
  nwrite : Nat

namespace RingBuffer

variable {α : Type}

def put (N M : Nat) (r : RingBuffer α) (a : α) : RingBuffer α :=
  { r with data := Function.update r.data (r.nwrite % N) a, nwrite := (r.nwrite + 1) % M }

def front (N : Nat) (r : RingBuffer α) : α := r.data (r.nread % N)

def unput (M : Nat) (r : RingBuffer α) : RingBuffer α :=
  { r with nwrite := (r.nwrite + M - 1) % M }

def back (N M : Nat) (r : RingBuffer α) : α := r.data ((r.unput M).nwrite % N)

def take (M : Nat) (r : RingBuffer α) : RingBuffer α := { r with nread := (r.nread + 1) % M }

structure Carries (N M : Nat) (r : RingBuffer α) (q : List α) : Prop where
  length_le : q.length ≤ N
  nread_lt : r.nread < M
  nwrite_eq : r.nwrite = (r.nread + q.length) % M
  cells : ∀ j a, q[j]? = some a → r.data ((r.nread + j) % N) = a

theorem carries_nil {N M : Nat} (hM : 0 < M) (data : Nat → α) :
    Carries N M ⟨data, 0, 0⟩ [] := by
  refine ⟨Nat.zero_le N, hM, ?_, ?_⟩
  · simp
  · intro j a hj
    simp at hj

theorem add_mod_ne {N a i j : Nat} (hij : i < j) (hj : j < N) : (a + i) % N ≠ (a + j) % N := by
  intro heq
  have hmod : (a + i) ≡ (a + j) [MOD N] := heq
  have hcancel : i ≡ j [MOD N] := Nat.ModEq.add_left_cancel' a hmod
  have hi : i % N = i := Nat.mod_eq_of_lt (hij.trans hj)
  have hj' : j % N = j := Nat.mod_eq_of_lt hj
  have hsame : i % N = j % N := hcancel
  omega

theorem add_mod_eq_iff {M a i j : Nat} (hi : i < M) (hj : j < M) :
    (a + i) % M = (a + j) % M ↔ i = j := by
  constructor
  · intro heq
    rcases Nat.lt_trichotomy i j with hij | hij | hij
    · exact absurd heq (add_mod_ne hij hj)
    · exact hij
    · exact absurd heq.symm (add_mod_ne hij hi)
  · intro hij
    rw [hij]

theorem add_mod_sub {M a i j : Nat} (hij : i ≤ j) (hj : j < M) :
    ((a + j) % M + M - (a + i) % M) % M = j - i := by
  have hM : 0 < M := by omega
  have hi := Nat.mod_lt (a + i) hM
  have heq : ((a + j) % M + M - (a + i) % M + i) ≡ j [MOD M] := by
    have hle : (a + i) % M ≤ (a + j) % M + M := by omega
    apply Nat.ModEq.add_left_cancel' a
    calc a + ((a + j) % M + M - (a + i) % M + i)
        = (a + i) + ((a + j) % M + M - (a + i) % M) := by omega
      _ ≡ (a + i) % M + ((a + j) % M + M - (a + i) % M) [MOD M] :=
        Nat.ModEq.add_right _ (Nat.mod_modEq _ _).symm
      _ = (a + j) % M + M := by omega
      _ ≡ (a + j) [MOD M] := by
        rw [Nat.ModEq, Nat.add_mod_right, Nat.mod_mod]
  have hsub : ((a + j) % M + M - (a + i) % M) + i ≡ (j - i) + i [MOD M] := by
    rw [Nat.sub_add_cancel hij]
    exact heq
  have hcancel : ((a + j) % M + M - (a + i) % M) % M = (j - i) % M :=
    Nat.ModEq.add_right_cancel' i hsub
  rw [hcancel]
  exact Nat.mod_eq_of_lt (by omega)

namespace Carries

variable {N M : Nat} {r : RingBuffer α} {q : List α} {a : α}

theorem sub_mod (h : Carries N M r q) (hNM : N < M) : (r.nwrite + M - r.nread) % M = q.length := by
  have hlen := h.length_le
  have hread := h.nread_lt
  have hwrite := h.nwrite_eq
  by_cases hwrap : r.nread + q.length < M
  · rw [Nat.mod_eq_of_lt hwrap] at hwrite
    have heq : r.nwrite + M - r.nread = q.length + M := by omega
    rw [heq, Nat.add_mod_right]
    exact Nat.mod_eq_of_lt (by omega)
  · rw [Nat.mod_eq_sub_mod (by omega), Nat.mod_eq_of_lt (by omega)] at hwrite
    have heq : r.nwrite + M - r.nread = q.length := by omega
    rw [heq]
    exact Nat.mod_eq_of_lt (by omega)

theorem eq_iff_nil (h : Carries N M r q) (hNM : N < M) : r.nread = r.nwrite ↔ q = [] := by
  have hsub := h.sub_mod hNM
  have hread := h.nread_lt
  constructor
  · intro heq
    rw [← heq, Nat.add_sub_cancel_left, Nat.mod_self] at hsub
    exact List.length_eq_zero_iff.1 hsub.symm
  · rintro rfl
    have hwrite := h.nwrite_eq
    rw [List.length_nil, Nat.add_zero, Nat.mod_eq_of_lt hread] at hwrite
    exact hwrite.symm

theorem eq_iff_full (h : Carries N M r q) (hNM : N < M) :
    r.nwrite = (r.nread + N) % M ↔ q.length = N := by
  have hlen := h.length_le
  rw [h.nwrite_eq]
  constructor
  · intro heq
    by_contra hne
    have hlt : q.length < N := by omega
    have hmod : (r.nread + q.length) ≡ (r.nread + N) [MOD M] := heq
    have hcancel : q.length ≡ N [MOD M] := Nat.ModEq.add_left_cancel' _ hmod
    have hsame : q.length % M = N % M := hcancel
    rw [Nat.mod_eq_of_lt (by omega), Nat.mod_eq_of_lt hNM] at hsame
    exact hne hsame
  · intro heq
    rw [heq]

theorem put (h : Carries N M r q) (hdvd : N ∣ M) (hlt : q.length < N) :
    Carries N M (r.put N M a) (q ++ [a]) := by
  have hcell : r.nwrite % N = (r.nread + q.length) % N := by
    rw [h.nwrite_eq, Nat.mod_mod_of_dvd _ hdvd]
  refine ⟨?_, h.nread_lt, ?_, fun j b hj => ?_⟩
  · rw [List.length_append, List.length_singleton]
    omega
  · show (r.nwrite + 1) % M = (r.nread + (q ++ [a]).length) % M
    rw [h.nwrite_eq, Nat.mod_add_mod, List.length_append, List.length_singleton, Nat.add_assoc]
  · show Function.update r.data (r.nwrite % N) a ((r.nread + j) % N) = b
    rw [hcell]
    rcases Nat.lt_trichotomy j q.length with hjq | rfl | hjq
    · rw [Function.update_of_ne (add_mod_ne hjq hlt)]
      rw [List.getElem?_append_left hjq] at hj
      exact h.cells j b hj
    · rw [Function.update_self]
      simpa using hj
    · rw [List.getElem?_eq_none (by simp; omega)] at hj
      simp at hj

theorem front_eq (h : Carries N M r (a :: q)) : r.front N = a := by
  have hcell := h.cells 0 a (by simp)
  rwa [Nat.add_zero] at hcell

theorem take (h : Carries N M r (a :: q)) (hdvd : N ∣ M) : Carries N M (r.take M) q := by
  have hread := h.nread_lt
  have hlen := h.length_le
  rw [List.length_cons] at hlen
  refine ⟨by omega, Nat.mod_lt _ (by omega), ?_, fun j b hj => ?_⟩
  · show r.nwrite = ((r.nread + 1) % M + q.length) % M
    rw [h.nwrite_eq, Nat.mod_add_mod, List.length_cons]
    congr 1
    omega
  · show r.data (((r.nread + 1) % M + j) % N) = b
    have hcell := h.cells (j + 1) b (by simpa using hj)
    rw [Nat.add_mod ((r.nread + 1) % M) j N, Nat.mod_mod_of_dvd _ hdvd, ← Nat.add_mod]
    rwa [show r.nread + 1 + j = r.nread + (j + 1) by omega]

theorem unput_nwrite (h : Carries N M r (q ++ [a])) :
    (r.unput M).nwrite = (r.nread + q.length) % M := by
  have hwrite := h.nwrite_eq
  have hread := h.nread_lt
  rw [List.length_append, List.length_singleton] at hwrite
  show (r.nwrite + M - 1) % M = _
  rw [hwrite]
  by_cases hwrap : (r.nread + q.length) % M + 1 = M
  · have hzero : (r.nread + (q.length + 1)) % M = 0 := by
      rw [← Nat.add_assoc, ← Nat.mod_add_mod, hwrap, Nat.mod_self]
    rw [hzero, Nat.zero_add, Nat.mod_eq_of_lt (by omega)]
    omega
  · have hlt : (r.nread + q.length) % M < M := Nat.mod_lt _ (by omega)
    have hsucc : (r.nread + (q.length + 1)) % M = (r.nread + q.length) % M + 1 := by
      rw [← Nat.add_assoc, ← Nat.mod_add_mod]
      exact Nat.mod_eq_of_lt (by omega)
    rw [hsucc]
    have heq : (r.nread + q.length) % M + 1 + M - 1 = (r.nread + q.length) % M + M := by omega
    rw [heq, Nat.add_mod_right, Nat.mod_mod]

theorem back_eq (h : Carries N M r (q ++ [a])) (hdvd : N ∣ M) : r.back N M = a := by
  show r.data ((r.unput M).nwrite % N) = a
  rw [h.unput_nwrite, Nat.mod_mod_of_dvd _ hdvd]
  exact h.cells q.length a (by simp)

theorem unput (h : Carries N M r (q ++ [a])) : Carries N M (r.unput M) q := by
  have hlen := h.length_le
  rw [List.length_append, List.length_singleton] at hlen
  refine ⟨by omega, h.nread_lt, h.unput_nwrite, fun j b hj => h.cells j b ?_⟩
  rw [List.getElem?_append_left (List.getElem?_eq_some_iff.1 hj).1]
  exact hj

end Carries

end RingBuffer

end Xv6.Lib
