import Xv6.Files.References

/-!
# Transactions

`log_write` has to be called inside a transaction.  It is reached from `iput`, which frees an
inode without links with its last reference, and from `bmap`, which allocates the blocks of a
hole.  A run in which neither happens outside of a transaction keeps every `log_write` of a
process between a `begin_trans` and the `commit_trans` of the same process.
-/

namespace Xv6.Files

open Xv6.Lib Xv6.Fs Xv6.Sched

variable {a : LogArea}

instance (p : Slot) (s : FsState) : (l : Act) → Decidable (Frugal p s l)
  | .iput _ => inferInstanceAs (Decidable (_ ∨ _))
  | .addr _ _ => inferInstanceAs (Decidable (_ ∨ _))
  | .entry _ _ => inferInstanceAs (Decidable (_ ∨ _))
  | .other | .beginTrans | .commitTrans | .logWrite _ | .balloc _ | .ilock _ | .fresh _ _
  | .found _ _ _ | .addTo _ | .remove _ => inferInstanceAs (Decidable True)

/-- No process frees an inode or fills a hole outside of its own transactions. -/
def FrugalTurn (s : Pool Slot Sys Act Int) (e : Turn Slot Call Event) : Prop :=
  s.Meets (fun p s l => Frugal p s.fs l) e

instance (s : Pool Slot Sys Act Int) (e : Turn Slot Call Event) : Decidable (FrugalTurn s e) :=
  inferInstanceAs (Decidable (s.Meets _ e))

theorem accounts_of_frugal {s : Pool Slot Sys Act Int} (h : (machine a).Reach FrugalTurn s) :
    ∃ acc, (sysRules ⟨True, False⟩).Holds () s acc := by
  apply accounts (a := a)
  exact h.mono fun s e he => Pool.Meets.mono (fun _ _ _ hl => ⟨fun _ => hl, False.elim⟩) he

/-- In every run whose turns are frugal, each `log_write` is in a transaction of its own process,
which a process begins and commits in turn, and has committed at the end of each call. -/
theorem transactions_bracketed {s : Pool Slot Sys Act Int} (h : (machine a).Reach FrugalTurn s)
    (p : Slot) :
    (∀ sector, s.action p = some (.logWrite sector) → s.state.fs.trans = some p) ∧
    (s.action p = some .beginTrans → s.state.fs.trans ≠ some p) ∧
    (s.action p = some .commitTrans → s.state.fs.trans = some p) ∧
    (s.prog p = none → s.state.fs.trans ≠ some p) := by
  obtain ⟨acc, hacc⟩ := accounts_of_frugal h
  have hok : Ok s.state acc := hacc.inv
  refine ⟨fun sector hact => ?_, fun hact => ?_, fun hact => ?_, fun hnone htrans => ?_⟩
  · exact (hacc.check hact ⟨fun _ => trivial, False.elim⟩).1 trivial
  · exact (hacc.check hact ⟨fun _ => trivial, False.elim⟩).1
  · exact (hacc.check hact ⟨fun _ => trivial, False.elim⟩).1
  · have hbal := (hok.tables.rest p (hacc.idle p hnone)).1
    rw [hok.inodes.trans p, hbal.trans] at htrans
    cases htrans

theorem nonzero_of_all {l : List UInt8} (h : l.all (fun c => c ≠ 0) = true) :
    ∀ c ∈ l, c ≠ 0 := by
  intro c hc
  exact of_decide_eq_true (List.all_eq_true.1 h c hc)

def smallPath (l : List UInt8) (h : ∀ c ∈ l, c ≠ 0) : Option Path := some ⟨l, h⟩

def Act.written : Act → Option Nat
  | .logWrite sector => some sector
  | _ => none

theorem Act.eq_of_written {act : Option Act} {sector : Nat}
    (h : act.bind Act.written = some sector) : act = some (.logWrite sector) := by
  obtain ⟨x, rfl, hx⟩ := Option.bind_eq_some_iff.1 h
  cases x <;> simp [Act.written] at hx
  rw [hx]

/-- In the middle of `mkdir("d")` a process is about to write in its transaction. -/
theorem transactions_bracketed_mkdir : ∃ s : Pool Slot Sys Act Int,
    (machine smallArea).Reach FrugalTurn s ∧
    (∃ sector, s.action initproc = some (.logWrite sector)) ∧
    s.state.fs.trans = some initproc := by
  obtain ⟨s, hreach, hobs⟩ := reach_start smallArea smallDisk (C := FrugalTurn)
    (Pool.alone initproc (.mkdir (smallPath [100] (nonzero_of_all rfl))) 30)
    (P := fun s => ((s.action initproc).bind Act.written).isSome) (by decide +kernel)
  obtain ⟨sector, hsector⟩ := Option.isSome_iff_exists.1 hobs
  have hact := Act.eq_of_written hsector
  exact ⟨s, hreach, ⟨sector, hact⟩, (transactions_bracketed hreach initproc).1 sector hact⟩

/-- `mkdir("d")`, `chdir("d")`, `unlink("../d")`, `chdir("/")`: the last reference to the
removed directory is dropped by `chdir`, which is in no transaction. -/
theorem chdir_writes_outside : ∃ s : Pool Slot Sys Act Int, (machine smallArea).Reachable s ∧
    (∃ sector, s.action initproc = some (.logWrite sector)) ∧ s.state.fs.trans = none ∧
    s.halted initproc = some (.panic "write outside of trans") := by
  obtain ⟨s, hreach, hobs⟩ := reach_start smallArea smallDisk (C := fun _ _ => True)
    (Pool.alone initproc (.mkdir (smallPath [100] (nonzero_of_all rfl))) 136 ++
      Pool.alone initproc (.chdir (smallPath [100] (nonzero_of_all rfl))) 35 ++
      Pool.alone initproc (.unlink (smallPath [46, 46, 47, 100] (nonzero_of_all rfl))) 74 ++
      Pool.alone initproc (.chdir (smallPath [47] (nonzero_of_all rfl))) 18)
    (P := fun s => ((s.action initproc).bind Act.written).any fun _ =>
      s.state.fs.trans = none ∧ s.halted initproc = some (.panic "write outside of trans"))
    (by decide +kernel)
  obtain ⟨sector, hsector, hstate⟩ := (Option.any_eq_true _ _).1 hobs
  exact ⟨s, hreach, ⟨sector, Act.eq_of_written hsector⟩, of_decide_eq_true hstate⟩

end Xv6.Files
