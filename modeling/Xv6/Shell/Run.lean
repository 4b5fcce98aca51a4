import Xv6.Shell.Accepts

/-!
# Running a command

`runcmd` of `sh.c` on the descriptor table of the process that runs it.  A command of the tree
is named by the path to it.  Whether the `k`th call of `open`, `pipe` or `fork` that `runcmd`
makes for a command succeeds is given by `ok`.
-/

namespace Xv6.Shell

def NOFILE : Nat := 16

abbrev Path : Type := List Bool

/-- What a descriptor is open on. -/
inductive Chan
  | console
  | given (n : Nat)
  | file (name mode : Nat)
  /-- An end of the pipe that `runcmd` made for a command. -/
  | readEnd (pipe : Path)
  | writeEnd (pipe : Path)
  deriving DecidableEq

abbrev Fds : Type := List (Option Chan)

def close (fds : Fds) (fd : Nat) : Fds := fds.set fd none

/-- The lowest free descriptor, as `fdalloc` takes it. -/
def fdalloc (fds : Fds) (f : Chan) : Option (Nat × Fds) :=
  (fds.findIdx? Option.isNone).map fun fd => (fd, fds.set fd (some f))

def dup (fds : Fds) (fd : Nat) : Fds :=
  match (fds[fd]?).join with
  | none => fds
  | some f => ((fdalloc fds f).map Prod.snd).getD fds

/-- `pipe`: the two descriptors and the table. -/
def pipe (p : Path) (fds : Fds) : Option (Nat × Nat × Fds) :=
  (fdalloc fds (.readEnd p)).bind fun (r, fds) =>
    (fdalloc fds (.writeEnd p)).map fun (w, fds) => (r, w, fds)

/-- What a process does up to its end.  Where it executes a program or waits, the command that
it runs and its descriptors are recorded. -/
inductive Run (τ : Type)
  | exit (msg : String)
  | exec (p : Path) (argv : List Arg) (fds : τ)
  | fork (child parent : Run τ)
  | wait (p : Path) (fds : τ) (rest : Run τ)

def runcmd (ok : Path → Nat → Bool) : Path → Cmd → Fds → Run Fds
  | p, .exec argv, fds =>
    match argv with
    | some _ :: _ => .exec p argv fds
    | _ => .exit ""
  | p, .redir cmd file _ mode fd, fds =>
    match if ok p 0 then fdalloc (close fds fd) (.file file mode) else none with
    | none => .exit "open %s failed\n"
    | some (_, fds) => runcmd ok (false :: p) cmd fds
  | p, .list left right, fds =>
    if ok p 0 then
      .fork (runcmd ok (false :: p) left fds) (.wait p fds (runcmd ok (true :: p) right fds))
    else .exit "fork\n"
  | p, .pipe left right, fds =>
    match if ok p 0 then pipe p fds else none with
    | none => .exit "pipe\n"
    | some (r, w, fds) =>
      let ends fds := close (close fds r) w
      if ok p 1 then
        .fork (runcmd ok (false :: p) left (ends (dup (close fds 1) w)))
          (if ok p 2 then
            .fork (runcmd ok (true :: p) right (ends (dup (close fds 0) r)))
              (.wait p (ends fds) (.wait p (ends fds) (.exit "")))
          else .exit "fork\n")
      else .exit "fork\n"
  | p, .back cmd, fds =>
    if ok p 0 then .fork (runcmd ok (false :: p) cmd fds) (.exit "") else .exit "fork\n"

/-! ## What a command means -/

/-- The run of a command as far as its standard input and output go: a redirection replaces
one of them, and a pipe joins the output of the left side to the input of the right side. -/
def meaning (ok : Path → Nat → Bool) : Path → Cmd → Chan × Chan → Run (Chan × Chan)
  | p, .exec argv, io =>
    match argv with
    | some _ :: _ => .exec p argv io
    | _ => .exit ""
  | p, .redir cmd file _ mode fd, (i, o) =>
    if ok p 0 then
      meaning ok (false :: p) cmd (if fd = 0 then (.file file mode, o) else (i, .file file mode))
    else .exit "open %s failed\n"
  | p, .list left right, io =>
    if ok p 0 then
      .fork (meaning ok (false :: p) left io) (.wait p io (meaning ok (true :: p) right io))
    else .exit "fork\n"
  | p, .pipe left right, (i, o) =>
    if ok p 0 then
      if ok p 1 then
        .fork (meaning ok (false :: p) left (i, .writeEnd p))
          (if ok p 2 then
            .fork (meaning ok (true :: p) right (.readEnd p, o))
              (.wait p (i, o) (.wait p (i, o) (.exit "")))
          else .exit "fork\n")
      else .exit "fork\n"
    else .exit "pipe\n"
  | p, .back cmd, io =>
    if ok p 0 then .fork (meaning ok (false :: p) cmd io) (.exit "") else .exit "fork\n"

def Run.map {τ υ : Type} (f : τ → υ) : Run τ → Run υ
  | .exit msg => .exit msg
  | .exec p argv fds => .exec p argv (f fds)
  | .fork child parent => .fork (child.map f) (parent.map f)
  | .wait p fds rest => .wait p (f fds) (rest.map f)

/-- Descriptors 0, 1 and 2 are open, and no others. -/
def std (e : Chan) (io : Chan × Chan) : Fds :=
  some io.1 :: some io.2 :: some e :: List.replicate (NOFILE - 3) none

/-- All redirections are of descriptor 0 or 1. -/
def Cmd.StdOnly : Cmd → Prop
  | .exec _ => True
  | .redir cmd _ _ _ fd => (fd = 0 ∨ fd = 1) ∧ cmd.StdOnly
  | .pipe left right | .list left right => left.StdOnly ∧ right.StdOnly
  | .back cmd => cmd.StdOnly

theorem Redirs.stdOnly {ts : List Token} {rs : List Redirection} (h : Redirs ts rs) :
    ∀ r ∈ rs, r.fd = 0 ∨ r.fd = 1 := by
  induction h with
  | nil => simp
  | @cons x q eq r ts rs hr _ ih =>
    refine List.forall_mem_cons.2 ⟨?_, ih⟩
    cases x <;> cases hr <;> simp

theorem Words.stdOnly {ts : List Token} {ws : List (Nat × Nat)} {rs : List Redirection}
    (h : Words ts ws rs) : ∀ r ∈ rs, r.fd = 0 ∨ r.fd = 1 := by
  induction h with
  | nil => simp
  | cons hr _ ih => exact List.forall_mem_append.2 ⟨hr.stdOnly, ih⟩

theorem stdOnly_wrap {rs : List Redirection} (hrs : ∀ r ∈ rs, r.fd = 0 ∨ r.fd = 1) {cmd : Cmd}
    (h : cmd.StdOnly) : (wrap rs cmd).StdOnly := by
  induction rs generalizing cmd with
  | nil => exact h
  | cons r rs ih =>
    obtain ⟨hr, hrs⟩ := List.forall_mem_cons.1 hrs
    exact @ih hrs (.redir cmd r.file r.efile r.mode r.fd) ⟨hr, h⟩

theorem stdOnly_backs (k : Nat) {cmd : Cmd} (h : cmd.StdOnly) : (backs k cmd).StdOnly := by
  induction k generalizing cmd with
  | zero => exact h
  | succ k ih => exact @ih (.back cmd) h

theorem Derives.stdOnly {nt : Nt} {ts : List Token} {cmd : Cmd} (h : Derives nt ts cmd) :
    cmd.StdOnly := by
  induction h with
  | block _ hr ih => exact stdOnly_wrap hr.stdOnly ih
  | words hr hw _ =>
    exact stdOnly_wrap (List.forall_mem_append.2 ⟨hr.stdOnly, hw.stdOnly⟩) trivial
  | single _ ih => exact ih
  | pipe _ _ ih ih' => exact ⟨ih, ih'⟩
  | last k _ ih => exact stdOnly_backs k ih
  | list k _ _ ih ih' => exact ⟨stdOnly_backs k ih, ih'⟩

theorem stdOnly_of_parsecmd {buf buf' : List UInt8} {n : Nat} {cmd : Cmd}
    (hn : 4 * (tokens buf).length + 5 ≤ n) (h : parsecmd n buf = .ok (cmd, buf')) :
    cmd.StdOnly := by
  rcases parsecmd_cases hn with ⟨msg, hpanic⟩ | ⟨cmd', buf'', hok, hd⟩
  · simp [hpanic] at h
  · rw [hok] at h
    cases h
    exact hd.stdOnly

theorem runcmd_std (ok : Path → Nat → Bool) {cmd : Cmd} (h : cmd.StdOnly) (p : Path) (e : Chan)
    (io : Chan × Chan) : runcmd ok p cmd (std e io) = (meaning ok p cmd io).map (std e) := by
  induction cmd generalizing p io with
  | exec argv => rcases argv with _ | ⟨_ | _, _⟩ <;> rfl
  | redir cmd file efile mode fd ih =>
    rw [runcmd, meaning]
    cases ok p 0 with
    | false => rfl
    | true =>
      rcases h with ⟨rfl | rfl, h⟩
      · exact ih h (false :: p) (.file file mode, io.2)
      · exact ih h (false :: p) (io.1, .file file mode)
  | pipe left right ihl ihr =>
    rw [runcmd, meaning]
    cases ok p 0 with
    | false => rfl
    | true =>
      cases ok p 1 with
      | false => rfl
      | true =>
        have hl := ihl h.1 (false :: p) (io.1, .writeEnd p)
        have hr := ihr h.2 (true :: p) (.readEnd p, io.2)
        cases ok p 2 with
        | false => exact congrArg (Run.fork · _) hl
        | true => exact congrArg₂ (fun l r => Run.fork l (Run.fork r _)) hl hr
  | list left right ihl ihr =>
    rw [runcmd, meaning]
    cases ok p 0 with
    | false => rfl
    | true =>
      exact congrArg₂ (fun l r => Run.fork l (Run.wait _ _ r)) (ihl h.1 _ _) (ihr h.2 _ _)
  | back cmd ih =>
    rw [runcmd, meaning]
    cases ok p 0 with
    | false => rfl
    | true => exact congrArg (Run.fork · _) (ih h _ _)

/-- For every line that is accepted and whatever calls fail, the processes that `runcmd`
starts have as descriptors 0 and 1 what the command means, and none above 2. -/
theorem runcmd_line {buf buf' : List UInt8} {n : Nat} {cmd : Cmd}
    (hn : 4 * (tokens buf).length + 5 ≤ n) (h : parsecmd n buf = .ok (cmd, buf'))
    (ok : Path → Nat → Bool) (e : Chan) (io : Chan × Chan) :
    runcmd ok [] cmd (std e io) = (meaning ok [] cmd io).map (std e) :=
  runcmd_std ok (stdOnly_of_parsecmd hn h) [] e io

/-- The line `a|b`. -/
theorem runcmd_line_piped :
    runcmd (fun _ _ => true) [] (.pipe (.exec (argvOf [(0, 1)])) (.exec (argvOf [(2, 3)])))
      (std (.given 2) (.given 0, .given 1)) =
    .fork (.exec [false] (argvOf [(0, 1)]) (std (.given 2) (.given 0, .writeEnd [])))
      (.fork (.exec [true] (argvOf [(2, 3)]) (std (.given 2) (.readEnd [], .given 1)))
        (.wait [] (std (.given 2) (.given 0, .given 1))
          (.wait [] (std (.given 2) (.given 0, .given 1)) (.exit "")))) :=
  runcmd_line (by decide) (rfl : parsecmd 17 [97, 124, 98, 0] = _) (fun _ _ => true) _ _

/-! ## The ends of pipes -/

/-- Wherever a process executes a program or waits, what is recorded has the property. -/
def Run.All {τ : Type} (P : Path → τ → Prop) : Run τ → Prop
  | .exit _ => True
  | .exec p _ fds => P p fds
  | .fork child parent => child.All P ∧ parent.All P
  | .wait p fds rest => P p fds ∧ rest.All P

theorem Run.All.map {τ υ : Type} {f : τ → υ} {P : Path → τ → Prop} {Q : Path → υ → Prop}
    (hf : ∀ p x, P p x → Q p (f x)) {r : Run τ} (h : r.All P) : (r.map f).All Q := by
  induction r with
  | exit msg => trivial
  | exec p argv fds => exact hf _ _ h
  | fork child parent ihc ihp => exact ⟨ihc h.1, ihp h.2⟩
  | wait p fds rest ih => exact ⟨hf _ _ h.1, ih h.2⟩

/-- An end of a pipe is for a command on that side of the pipe. -/
def Chan.Fits (p : Path) : Chan → Prop
  | .readEnd q => true :: q <:+ p
  | .writeEnd q => false :: q <:+ p
  | _ => True

theorem Chan.Fits.cons {c : Chan} {p : Path} (h : c.Fits p) (b : Bool) : c.Fits (b :: p) := by
  cases c with
  | readEnd q | writeEnd q => exact h.trans (List.suffix_cons b p)
  | _ => trivial

theorem meaning_fits (ok : Path → Nat → Bool) (cmd : Cmd) {p : Path} {i o : Chan}
    (hi : i.Fits p) (ho : o.Fits p) :
    (meaning ok p cmd (i, o)).All fun p io => io.1.Fits p ∧ io.2.Fits p := by
  induction cmd generalizing p i o with
  | exec argv => rcases argv with _ | ⟨_ | _, _⟩ <;> simp [meaning, Run.All, hi, ho]
  | redir cmd file efile mode fd ih =>
    rw [meaning]
    split_ifs
    · exact ih trivial (ho.cons _)
    · exact ih (hi.cons _) trivial
    · trivial
  | pipe left right ihl ihr =>
    have hleft := ihl (o := .writeEnd p) (hi.cons false) List.suffix_rfl
    have hright := ihr (i := .readEnd p) List.suffix_rfl (ho.cons true)
    rw [meaning]
    split_ifs
    · exact ⟨hleft, hright, ⟨hi, ho⟩, ⟨hi, ho⟩, trivial⟩
    · exact ⟨hleft, trivial⟩
    · trivial
    · trivial
  | list left right ihl ihr =>
    rw [meaning]
    split_ifs
    · exact ⟨ihl (hi.cons _) (ho.cons _), ⟨hi, ho⟩, ihr (hi.cons _) (ho.cons _)⟩
    · trivial
  | back cmd ih =>
    rw [meaning]
    split_ifs
    · exact ⟨ih (hi.cons _) (ho.cons _), trivial⟩
    · trivial

/-- Where a process of an accepted line executes a program or waits, it has the write end of a
pipe only on the left side of it and the read end only on the right side, and either only as
descriptor 0 or 1. -/
theorem runcmd_pipes {buf buf' : List UInt8} {n : Nat} {cmd : Cmd}
    (hn : 4 * (tokens buf).length + 5 ≤ n) (h : parsecmd n buf = .ok (cmd, buf'))
    (ok : Path → Nat → Bool) :
    (runcmd ok [] cmd (std (.given 2) (.given 0, .given 1))).All fun p fds =>
      ∃ io, fds = std (.given 2) io ∧ io.1.Fits p ∧ io.2.Fits p := by
  rw [runcmd_std ok (stdOnly_of_parsecmd hn h)]
  exact (meaning_fits ok cmd (i := .given 0) (o := .given 1) trivial trivial).map
    fun p io hio => ⟨io, rfl, hio⟩

theorem runcmd_pipes_piped :
    (runcmd (fun _ _ => true) [] (.pipe (.exec (argvOf [(0, 1)])) (.exec (argvOf [(2, 3)])))
      (std (.given 2) (.given 0, .given 1))).All fun p fds =>
        ∃ io, fds = std (.given 2) io ∧ io.1.Fits p ∧ io.2.Fits p :=
  runcmd_pipes (by decide) (rfl : parsecmd 17 [97, 124, 98, 0] = _) fun _ _ => true

/-! ## The descriptors of the shell -/

/-- The loop of `main` that opens the console, with `n` turns to go; `none` is that they have
run out. -/
def openConsole : Nat → Fds → Option Fds
  | 0, _ => none
  | n + 1, fds =>
    match fdalloc fds .console with
    | none => some fds
    | some (fd, fds) => if 3 ≤ fd then some (close fds fd) else openConsole n fds

theorem openConsole_full (n : Nat) (a b c : Chan) (fds : Fds) :
    openConsole (n + 1) (some a :: some b :: some c :: fds) =
      some (some a :: some b :: some c :: fds) := by
  simp only [openConsole, fdalloc, List.findIdx?_cons, Option.isNone_some, Bool.false_eq_true,
    if_false]
  cases h : fds.findIdx? Option.isNone with
  | none => rfl
  | some k =>
    obtain ⟨hk, hnone, _⟩ := List.findIdx?_eq_some_iff_getElem.1 h
    have hset : fds.set k none = fds := by
      rw [← Option.isNone_iff_eq_none.1 hnone, List.set_getElem_self]
    simp [close, hset]

/-- The loop ends after at most four turns: 0, 1 and 2 are open and the others are as they
were. -/
theorem openConsole_std (n : Nat) (a b c : Option Chan) (fds : Fds) :
    openConsole (n + 4) (a :: b :: c :: fds) =
      some (some (a.getD .console) :: some (b.getD .console) :: some (c.getD .console) :: fds) := by
  -- Each turn but the last fills the first free one of the three; the last leaves the loop.
  cases a <;> cases b <;> cases c <;> exact openConsole_full _ _ _ _ _

end Xv6.Shell
