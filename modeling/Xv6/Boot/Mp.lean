import Mathlib

/-!
# The scan of the MP configuration table

The loop of `mpinit` over the entries of a table that `mpconfig` has accepted.  At an entry of a
type that it does not know the loop stays where it is, and nothing bounds the number of
processors by the length of the array `cpus`.
-/

namespace Xv6.Boot

def NCPU : Nat := 8

def MPCONF : Nat := 44

abbrev Table : Type := Nat → UInt8

def Table.length (t : Table) : Nat := (t 4).toNat + 256 * (t 5).toNat

def Table.sum (t : Table) (len : Nat) : UInt8 := ((List.range len).map t).sum

def Table.Accepted (t : Table) : Prop :=
  (t 0 = 80 ∧ t 1 = 67 ∧ t 2 = 77 ∧ t 3 = 80) ∧ (t 6 = 1 ∨ t 6 = 4) ∧ t.sum t.length = 0

/-- The variables that the loop assigns.  `cpus` are the entries of the array that it has
written, the last one first. -/
structure Mp where
  ismp : Bool
  ncpu : Nat
  ioapicid : UInt8
  bcpu : Nat
  cpus : List Nat

def Mp.proc (s : Mp) (t : Table) (p : Nat) : Mp :=
  { s with
    ismp := s.ismp && s.ncpu = (t (p + 1)).toNat
    bcpu := if t (p + 3) &&& 2 ≠ 0 then s.ncpu else s.bcpu
    cpus := s.ncpu :: s.cpus
    ncpu := s.ncpu + 1 }

/-- The loop of `mpinit` from `p` to `e`, with at most `fuel` turns. -/
def mpLoop (t : Table) (e : Nat) : Nat → Nat → Mp → Option Mp
  | 0, _, _ => none
  | fuel + 1, p, s =>
    if e ≤ p then some s
    else if t p = 0 then mpLoop t e fuel (p + 20) (s.proc t p)
    else if t p = 2 then mpLoop t e fuel (p + 8) { s with ioapicid := t (p + 1) }
    else if t p = 1 ∨ t p = 3 ∨ t p = 4 then mpLoop t e fuel (p + 8) s
    else mpLoop t e fuel p { s with ismp := false }

def Mp.start : Mp := ⟨true, 0, 0, 0, []⟩

/-- From `p` to `e` there are entries of the five types only, `n` of them processors. -/
inductive Entries (t : Table) (e : Nat) : Nat → Nat → Prop
  | done {p : Nat} (h : e ≤ p) : Entries t e p 0
  | proc {p n : Nat} (hlt : p < e) (hp : t p = 0) (h : Entries t e (p + 20) n) :
    Entries t e p (n + 1)
  | other {p n : Nat} (hlt : p < e) (hp : t p ∈ [1, 2, 3, 4]) (h : Entries t e (p + 8) n) :
    Entries t e p n

theorem reverse_range_succ (a n : Nat) (l : List Nat) :
    (List.range' (a + 1) n).reverse ++ a :: l = (List.range' a (n + 1)).reverse ++ l := by
  simp [List.range'_succ]

theorem entries_of_mpLoop {t : Table} {e fuel p : Nat} {s s' : Mp}
    (h : mpLoop t e fuel p s = some s') :
    ∃ n, Entries t e p n ∧ s'.cpus = (List.range' s.ncpu n).reverse ++ s.cpus := by
  induction fuel generalizing p s with
  | zero => cases h
  | succ fuel ih =>
    rw [mpLoop] at h
    split_ifs at h with hdone hproc hio hbus
    · exact ⟨0, .done hdone, by rw [← Option.some.inj h]; rfl⟩
    · obtain ⟨n, hn, hcpus⟩ := ih h
      refine ⟨n + 1, .proc (Nat.lt_of_not_le hdone) hproc hn, ?_⟩
      rw [hcpus, ← reverse_range_succ]
      rfl
    · obtain ⟨n, hn, hcpus⟩ := ih h
      exact ⟨n, .other (Nat.lt_of_not_le hdone) (by simp [hio]) hn, hcpus⟩
    · obtain ⟨n, hn, hcpus⟩ := ih h
      have hmem : t p ∈ [1, 2, 3, 4] := by rcases hbus with hb | hb | hb <;> simp [hb]
      exact ⟨n, .other (Nat.lt_of_not_le hdone) hmem hn, hcpus⟩
    · -- An unknown type: what ends later from the same place consists of known entries.
      exact ih (s := { s with ismp := false }) h

theorem mpLoop_of_entries {t : Table} {e p n : Nat} (h : Entries t e p n) (s : Mp) :
    ∃ fuel s', mpLoop t e fuel p s = some s' ∧
      s'.cpus = (List.range' s.ncpu n).reverse ++ s.cpus := by
  induction h generalizing s with
  | done h => exact ⟨1, s, if_pos h, rfl⟩
  | @proc p n hlt hp _ ih =>
    obtain ⟨fuel, s', hrun, hcpus⟩ := ih (s.proc t p)
    refine ⟨fuel + 1, s', ?_, ?_⟩
    · rw [mpLoop, if_neg (Nat.not_le.2 hlt), if_pos hp, hrun]
    · rw [hcpus, ← reverse_range_succ]
      rfl
  | @other p n hlt hp _ ih =>
    by_cases hio : t p = 2
    · obtain ⟨fuel, s', hrun, hcpus⟩ := ih { s with ioapicid := t (p + 1) }
      refine ⟨fuel + 1, s', ?_, hcpus⟩
      rw [mpLoop, if_neg (Nat.not_le.2 hlt), if_neg (by rw [hio]; decide), if_pos hio, hrun]
    · obtain ⟨fuel, s', hrun, hcpus⟩ := ih s
      have hbus : t p = 1 ∨ t p = 3 ∨ t p = 4 := by simpa [hio] using hp
      have hproc : t p ≠ 0 := by rcases hbus with hb | hb | hb <;> rw [hb] <;> decide
      exact ⟨fuel + 1, s', by rw [mpLoop, if_neg (Nat.not_le.2 hlt), if_neg hproc, if_neg hio,
        if_pos hbus, hrun], hcpus⟩

theorem cpus_lt_iff (n : Nat) :
    (∀ i ∈ (List.range' 0 n).reverse ++ [], i < NCPU) ↔ n ≤ NCPU := by
  simp only [List.append_nil, List.mem_reverse, List.mem_range'_1, Nat.zero_add]
  constructor
  · intro h
    by_contra hn
    exact absurd (h NCPU ⟨Nat.zero_le _, Nat.lt_of_not_le hn⟩) (Nat.lt_irrefl _)
  · intro h i hi
    exact Nat.lt_of_lt_of_le hi.2 h

/-- The loop over an accepted table ends and writes to `cpus` inside its bounds just when the
table has entries of the five types only, and at most `NCPU` processors among them. -/
theorem mpinit_ends_iff (t : Table) (_ : t.Accepted) :
    (∃ fuel s, mpLoop t t.length fuel MPCONF Mp.start = some s ∧ ∀ i ∈ s.cpus, i < NCPU) ↔
      ∃ n ≤ NCPU, Entries t t.length MPCONF n := by
  constructor
  · rintro ⟨fuel, s, hrun, hcpus⟩
    obtain ⟨n, hn, heq⟩ := entries_of_mpLoop hrun
    rw [heq] at hcpus
    exact ⟨n, (cpus_lt_iff n).1 hcpus, hn⟩
  · rintro ⟨n, hle, hn⟩
    obtain ⟨fuel, s, hrun, heq⟩ := mpLoop_of_entries hn Mp.start
    refine ⟨fuel, s, hrun, ?_⟩
    rw [heq]
    exact (cpus_lt_iff n).2 hle

/-- A table of `len` bytes whose only entry that is not zero everywhere starts with `b`. -/
def loneTable (len ck b : UInt8) : Table
  | 0 => 80
  | 1 => 67
  | 2 => 77
  | 3 => 80
  | 4 => len
  | 6 => 1
  | 7 => ck
  | 44 => b
  | _ => 0

theorem mpinit_ends_iff_one : (loneTable 64 143 0).Accepted ∧
    ∃ fuel s, mpLoop (loneTable 64 143 0) 64 fuel MPCONF Mp.start = some s ∧
      ∀ i ∈ s.cpus, i < NCPU :=
  have hacc : (loneTable 64 143 0).Accepted := by
    refine ⟨⟨rfl, rfl, rfl, rfl⟩, Or.inl rfl, ?_⟩
    decide +kernel
  ⟨hacc, (mpinit_ends_iff _ hacc).2 ⟨1, by decide, .proc (by decide) rfl (.done (by decide))⟩⟩

/-- An entry of type 5: the loop never ends. -/
theorem mpinit_stays : (loneTable 45 157 5).Accepted ∧
    ¬ ∃ fuel s, mpLoop (loneTable 45 157 5) 45 fuel MPCONF Mp.start = some s ∧
      ∀ i ∈ s.cpus, i < NCPU := by
  refine ⟨⟨⟨rfl, rfl, rfl, rfl⟩, Or.inl rfl, by decide +kernel⟩, ?_⟩
  rintro ⟨fuel, s, hrun, _⟩
  obtain ⟨n, hn, _⟩ := entries_of_mpLoop hrun
  cases hn with
  | done h => exact absurd h (by decide)
  | proc _ hp _ => exact absurd hp (by decide)
  | other _ hp _ => exact absurd hp (by decide)

end Xv6.Boot
