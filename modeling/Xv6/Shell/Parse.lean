import Mathlib

/-!
# The shell's parser

The scanner and the recursive-descent parser of `sh.c`.  A cursor is the text from `*ps` up
to `es`; a pointer into the line is an offset.  The functions run on fuel, which bounds the
depth of the calls and the turns of the loops.
-/

namespace Xv6.Shell

def MAXARGS : Nat := 10

def O_RDONLY : Nat := 0x000

def O_WRONLY : Nat := 0x001

def O_CREATE : Nat := 0x200

def ch (c : Char) : UInt8 := c.toNat.toUInt8

def whitespace : List UInt8 := [ch ' ', ch '\t', ch '\r', ch '\n', 11]

def symbols : List UInt8 := [ch '<', ch '|', ch '>', ch '&', ch ';', ch '(', ch ')']

/-! ## Commands -/

/-- The entries of `argv` and `eargv`: where a word starts and where it ends. -/
abbrev Arg : Type := Option (Nat × Nat)

inductive Cmd
  | exec (argv : List Arg)
  | redir (cmd : Cmd) (file efile mode fd : Nat)
  | pipe (left right : Cmd)
  | list (left right : Cmd)
  | back (cmd : Cmd)
  deriving DecidableEq

inductive Error
  /-- `panic`, which exits. -/
  | panic (msg : String)
  /-- An index outside `argv` and `eargv`. -/
  | bounds
  | fuel
  deriving DecidableEq

def execcmd : Cmd := .exec (List.replicate MAXARGS none)

/-- Assign entry `i` of `argv` and `eargv` in the `execcmd` below the redirections. -/
def Cmd.setArg : Cmd → Nat → Arg → Except Error Cmd
  | .exec argv, i, a => if i < argv.length then .ok (.exec (argv.set i a)) else .error .bounds
  | .redir cmd file efile mode fd, i, a => do
    let cmd ← cmd.setArg i a
    pure (.redir cmd file efile mode fd)
  | cmd, _, _ => .ok cmd

/-! ## The scanner -/

inductive Sym
  | bar
  | lparen
  | rparen
  | semi
  | amp
  | lt
  | gt
  /-- `>>`, which `gettoken` returns as `+`. -/
  | append
  deriving DecidableEq

inductive Tok
  | eof
  | sym (x : Sym)
  | word
  deriving DecidableEq

abbrev Cursor : Type := List UInt8

def skip (s : Cursor) : Cursor := s.dropWhile fun c => whitespace.contains c

def symbol (c : UInt8) : Option Sym :=
  if c = ch '|' then some .bar
  else if c = ch '(' then some .lparen
  else if c = ch ')' then some .rparen
  else if c = ch ';' then some .semi
  else if c = ch '&' then some .amp
  else if c = ch '<' then some .lt
  else if c = ch '>' then some .gt
  else none

/-- The switch of `gettoken`: the token at `q` and where it ends. -/
def scan (q : Cursor) : Tok × Cursor :=
  match q with
  | [] => (.eof, [])
  | c :: s =>
    match symbol c with
    | some .gt => if s.head? = some (ch '>') then (.sym .append, s.tail) else (.sym .gt, s)
    | some x => (.sym x, s)
    | none => (.word, q.dropWhile fun c => !whitespace.contains c && !symbols.contains c)

/-- `gettoken`: the token, where it starts and ends, and the cursor after it. -/
def gettoken (s : Cursor) : Tok × Cursor × Cursor × Cursor :=
  let q := skip s
  let (ret, eq) := scan q
  (ret, q, eq, skip eq)

def peek (s : Cursor) (toks : List UInt8) : Bool × Cursor :=
  let s := skip s
  (match s with
    | [] => false
    | c :: _ => toks.contains c, s)

/-! ## The parser -/

section

-- the length of the line
variable (es : Nat)

def off (s : Cursor) : Nat := es - s.length

def parseredirs : Nat → Cmd → Cursor → Except Error (Cmd × Cursor)
  | 0, _, _ => .error .fuel
  | n + 1, cmd, s =>
    let (more, s) := peek s [ch '<', ch '>']
    if more then
      let (tok, _, _, s) := gettoken s
      let (file, q, eq, s) := gettoken s
      if file ≠ .word then .error (.panic "missing file for redirection")
      else
        match tok with
        | .sym .lt => parseredirs n (.redir cmd (off es q) (off es eq) O_RDONLY 0) s
        | .sym .gt =>
          parseredirs n (.redir cmd (off es q) (off es eq) (O_WRONLY ||| O_CREATE) 1) s
        | .sym .append =>
          parseredirs n (.redir cmd (off es q) (off es eq) (O_WRONLY ||| O_CREATE) 1) s
        | _ => parseredirs n cmd s
    else .ok (cmd, s)

def argsLoop : Nat → Nat → Cmd → Cursor → Except Error (Nat × Cmd × Cursor)
  | 0, _, _, _ => .error .fuel
  | n + 1, argc, ret, s =>
    let (stop, s) := peek s [ch '|', ch ')', ch '&', ch ';']
    if stop then .ok (argc, ret, s)
    else
      let (tok, q, eq, s) := gettoken s
      match tok with
      | .eof => .ok (argc, ret, s)
      | .sym _ => .error (.panic "syntax")
      | .word => do
        let ret ← ret.setArg argc (some (off es q, off es eq))
        if MAXARGS ≤ argc + 1 then .error (.panic "too many args")
        else do
          let (ret, s) ← parseredirs es n ret s
          argsLoop n (argc + 1) ret s

def backLoop : Nat → Cmd → Cursor → Except Error (Cmd × Cursor)
  | 0, _, _ => .error .fuel
  | n + 1, cmd, s =>
    let (more, s) := peek s [ch '&']
    if more then
      let (_, _, _, s) := gettoken s
      backLoop n (.back cmd) s
    else .ok (cmd, s)

mutual

def parseline : Nat → Cursor → Except Error (Cmd × Cursor)
  | 0, _ => .error .fuel
  | n + 1, s => do
    let (cmd, s) ← parsepipe n s
    let (cmd, s) ← backLoop n cmd s
    let (more, s) := peek s [ch ';']
    if more then
      let (_, _, _, s) := gettoken s
      let (right, s) ← parseline n s
      pure (.list cmd right, s)
    else pure (cmd, s)

def parsepipe : Nat → Cursor → Except Error (Cmd × Cursor)
  | 0, _ => .error .fuel
  | n + 1, s => do
    let (cmd, s) ← parseexec n s
    let (more, s) := peek s [ch '|']
    if more then
      let (_, _, _, s) := gettoken s
      let (right, s) ← parsepipe n s
      pure (.pipe cmd right, s)
    else pure (cmd, s)

def parseexec : Nat → Cursor → Except Error (Cmd × Cursor)
  | 0, _ => .error .fuel
  | n + 1, s => do
    let (block, s) := peek s [ch '(']
    if block then parseblock n s
    else
      let (ret, s) ← parseredirs es n execcmd s
      let (argc, ret, s) ← argsLoop es n 0 ret s
      let ret ← ret.setArg argc none
      pure (ret, s)

def parseblock : Nat → Cursor → Except Error (Cmd × Cursor)
  | 0, _ => .error .fuel
  | n + 1, s => do
    let (block, s) := peek s [ch '(']
    if !block then .error (.panic "parseblock")
    else
      let (_, _, _, s) := gettoken s
      let (cmd, s) ← parseline n s
      let (close, s) := peek s [ch ')']
      if !close then .error (.panic "syntax - missing )")
      else
        let (_, _, _, s) := gettoken s
        parseredirs es n cmd s

end

end

/-! ## parsecmd -/

def nulArgs : List Arg → List UInt8 → Except Error (List UInt8)
  | [], _ => .error .bounds
  | none :: _, buf => .ok buf
  | some (_, eq) :: argv, buf => nulArgs argv (buf.set eq 0)

/-- `nulterminate`: the line with the strings of a command terminated. -/
def nulterminate : Cmd → List UInt8 → Except Error (List UInt8)
  | .exec argv, buf => nulArgs argv buf
  | .redir cmd _ efile _ _, buf => do
    let buf ← nulterminate cmd buf
    pure (buf.set efile 0)
  | .pipe left right, buf => do
    let buf ← nulterminate left buf
    nulterminate right buf
  | .list left right, buf => do
    let buf ← nulterminate left buf
    nulterminate right buf
  | .back cmd, buf => nulterminate cmd buf

def text (buf : List UInt8) : Cursor := buf.takeWhile fun c => c ≠ 0

/-- `parsecmd`, with fuel `n`: the command, and the line as it leaves it. -/
def parsecmd (n : Nat) (buf : List UInt8) : Except Error (Cmd × List UInt8) := do
  let (cmd, s) ← parseline (text buf).length n (text buf)
  let (_, s) := peek s []
  if s ≠ [] then .error (.panic "syntax")
  else
    let buf ← nulterminate cmd buf
    pure (cmd, buf)

end Xv6.Shell
