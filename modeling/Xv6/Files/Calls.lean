import Xv6.Files.Dir

/-!
# Open files and the system calls

`file.c`, the file part of `pipe.c`, `sysfile.c`, and what `fork`, `exit` and `exec` do with
files and directories.  A failing `argstr` is a path that is `none`.  The bytes in a pipe are
in `Xv6.Sync.Pipe`, so reading and writing a pipe does nothing here.
-/

namespace Xv6.Files

open Xv6.Lib Xv6.Fs Xv6.Sched

def NOFILE : Nat := 16

def NFILE : Nat := 100

def O_WRONLY : Nat := 1

def O_RDWR : Nat := 2

def O_CREATE : Nat := 512

inductive FdType
  | FD_NONE
  | FD_PIPE
  | FD_INODE
  deriving DecidableEq

structure File where
  type : FdType
  ref : Nat
  readable : Bool
  writable : Bool
  /-- The page of the pipe. -/
  pipe : Nat
  ip : Entry
  /-- `ip` has been set; until then it is 0. -/
  opened : Bool
  off : Nat

structure PipeEnds where
  readopen : Bool
  writeopen : Bool

def PipeEnds.close (ends : PipeEnds) (writable : Bool) : PipeEnds :=
  if writable then { ends with writeopen := false } else { ends with readopen := false }

def PipeEnds.isClosed (ends : PipeEnds) : Bool := !ends.readopen && !ends.writeopen

inductive Life
  | unused
  /-- Being made by `fork`. -/
  | embryo
  | live
  | zombie
  deriving DecidableEq

abbrev FileId : Type := Fin NFILE

abbrev Fd : Type := Fin NOFILE

structure Sys where
  fs : FsState
  /-- `ftable.file`. -/
  file : FileId → File
  ofile : Slot → Fd → Option FileId
  cwd : Slot → Option Entry
  life : Slot → Life
  /-- The memory of pages, as far as they are pipes. -/
  pipe : Nat → PipeEnds
  /-- The free list of `kalloc`. -/
  free : List Nat
  /-- How often `pipealloc` has got a page. -/
  allocs : Nat → Nat
  /-- How often `pipeclose` has passed a page to `kfree`. -/
  frees : Nat → Nat

abbrev SysM (α : Type) : Type 1 := Prog Sys Act α

namespace Sys

def setFile (s : Sys) (f : FileId) (x : File) : Sys :=
  { s with file := Function.update s.file f x }

def setFd (s : Sys) (p : Slot) (fd : Fd) (x : Option FileId) : Sys :=
  { s with ofile := Function.update s.ofile p (Function.update (s.ofile p) fd x) }

end Sys

def fs {α : Type} (m : FsM α) : SysM α := m.lift Sys.fs fun t s => { s with fs := t }

def look {α : Type} (f : Sys → α) : SysM α := .atomic .other fun s => .ok (f s, s)

def change (f : Sys → Sys) : SysM Unit := .atomic .other fun s => .ok ((), f s)

def halt {α : Type} (msg : String) : SysM α := .atomic .other fun _ => .halt (.panic msg)

variable (a : LogArea)

/-! ## `file.c` -/

def filealloc : SysM (Option FileId) :=
  .atomic .other fun s =>
    match (List.finRange NFILE).find? fun f => (s.file f).ref = 0 with
    | some f => .ok (some f, s.setFile f { s.file f with ref := 1 })
    | none => .ok (none, s)

def filedup (f : FileId) : SysM Unit :=
  .atomic .other fun s =>
    if (s.file f).ref < 1 then .halt (.panic "filedup")
    else .ok ((), s.setFile f { s.file f with ref := (s.file f).ref + 1 })

/-- `fileclose` under `ftable.lock`: what is to be closed if that was the last reference. -/
def filedrop (f : FileId) : SysM (Option File) :=
  .atomic .other fun s =>
    let ff := s.file f
    if ff.ref < 1 then .halt (.panic "fileclose")
    else if 0 < ff.ref - 1 then .ok (none, s.setFile f { ff with ref := ff.ref - 1 })
    else .ok (some ff, s.setFile f { ff with ref := 0, type := .FD_NONE })

def kalloc : SysM (Option Nat) :=
  .atomic .other fun s =>
    match s.free with
    | [] => .ok (none, s)
    | page :: rest => .ok (some page,
        { s with free := rest, allocs := Function.update s.allocs page (s.allocs page + 1) })

def kfree (page : Nat) : SysM Unit :=
  change fun s =>
    { s with
      free := page :: s.free
      frees := Function.update s.frees page (s.frees page + 1) }

def pipeclose (page : Nat) (writable : Bool) : SysM Unit := do
  let last ← .atomic .other fun s =>
    let ends := (s.pipe page).close writable
    .ok (ends.isClosed, { s with pipe := Function.update s.pipe page ends })
  Prog.when (last = true) (kfree page)

def fileclose (p : Slot) (f : FileId) : SysM Unit := do
  let last ← filedrop f
  match last with
  | none => pure ()
  | some ff =>
    match ff.type with
    | .FD_PIPE => pipeclose ff.pipe ff.writable
    | .FD_INODE =>
      fs (beginTrans p)
      fs (iput a ff.ip)
      fs (commitTrans a)
    | .FD_NONE => pure ()

/-- The result, and what has been copied to the caller. -/
def fileread (f : FileId) (n : Int) : SysM (Int × List UInt8) := do
  let ff ← look fun s => s.file f
  if !ff.readable then pure (-1, [])
  else
    match ff.type with
    | .FD_PIPE => pure (0, [])
    | .FD_INODE =>
      fs (ilock ff.ip)
      let off ← look fun s => (s.file f).off
      let r ← fs (readi a ff.ip off (n % 2 ^ 32).toNat)
      match r with
      | none =>
        fs (iunlock ff.ip)
        pure (-1, [])
      | some bytes =>
        change fun s =>
          s.setFile f { s.file f with off := ((s.file f).off + bytes.length) % 2 ^ 32 }
        fs (iunlock ff.ip)
        pure (bytes.length, bytes)
    | .FD_NONE => halt "fileread"

def MAXWRITE : Nat := (LOGSIZE - 1 - 1 - 2) / 2 * 512

/-- A turn of the loop of `filewrite`, inside of its transaction. -/
def writeTurn (f : FileId) (ip : Entry) (src : Nat → UInt8) (n1 : Nat) : SysM Int := do
  fs (ilock ip)
  let off ← look fun s => (s.file f).off
  let r ← fs (writei a ip src off n1)
  Prog.when (0 < r) (change fun s =>
    s.setFile f { s.file f with off := ((s.file f).off + r.toNat) % 2 ^ 32 })
  fs (iunlock ip)
  fs (commitTrans a)
  pure r

/-- The loop of `filewrite`, with `n - i` bytes to go; each turn writes at least one. -/
def filewriteFrom (p : Slot) (f : FileId) (ip : Entry) : Nat → (Nat → UInt8) → Nat → SysM Bool
  | 0, _, _ => pure true
  | fuel + 1, src, n =>
    if n = 0 then pure true
    else do
      let n1 := min n MAXWRITE
      fs (beginTrans p)
      let r ← writeTurn a f ip src n1
      if r < 0 then pure false
      else if r ≠ n1 then halt "short filewrite"
      else filewriteFrom p f ip fuel (fun k => src (k + n1)) (n - n1)

def filewrite (p : Slot) (f : FileId) (src : Nat → UInt8) (n : Int) : SysM Int := do
  let ff ← look fun s => s.file f
  if !ff.writable then pure (-1)
  else
    match ff.type with
    | .FD_PIPE => pure n
    | .FD_INODE =>
      if n < 0 then pure (-1)
      else
        let all ← filewriteFrom a p f ff.ip n.toNat src n.toNat
        pure (if all then n else -1)
    | .FD_NONE => halt "filewrite"

def filestat (f : FileId) : SysM Int := do
  let ff ← look fun s => s.file f
  match ff.type with
  | .FD_INODE =>
    fs (ilock ff.ip)
    fs (iunlock ff.ip)
    pure 0
  | _ => pure (-1)

/-! ## Descriptors -/

def argfd (p : Slot) (fd : Int) : SysM (Option (Fd × FileId)) :=
  look fun s =>
    if h : 0 ≤ fd ∧ fd < NOFILE then
      let i : Fd := ⟨fd.toNat, by omega⟩
      (s.ofile p i).map fun f => (i, f)
    else none

def fdalloc (p : Slot) (f : FileId) : SysM (Option Fd) :=
  .atomic .other fun s =>
    match (List.finRange NOFILE).find? fun fd => (s.ofile p fd).isNone with
    | some fd => .ok (some fd, s.setFd p fd (some f))
    | none => .ok (none, s)

def sysDup (p : Slot) (fd : Int) : SysM Int := do
  let r ← argfd p fd
  match r with
  | none => pure (-1)
  | some (_, f) =>
    let new ← fdalloc p f
    match new with
    | none => pure (-1)
    | some new =>
      filedup f
      pure new.val

def sysRead (p : Slot) (fd n : Int) : SysM (Int × List UInt8) := do
  let r ← argfd p fd
  match r with
  | none => pure (-1, [])
  | some (_, f) => fileread a f n

def sysWrite (p : Slot) (fd : Int) (src : Nat → UInt8) (n : Int) : SysM Int := do
  let r ← argfd p fd
  match r with
  | none => pure (-1)
  | some (_, f) => filewrite a p f src n

def sysFstat (p : Slot) (fd : Int) : SysM Int := do
  let r ← argfd p fd
  match r with
  | none => pure (-1)
  | some (_, f) => filestat f

def sysClose (p : Slot) (fd : Int) : SysM Int := do
  let r ← argfd p fd
  match r with
  | none => pure (-1)
  | some (fd, f) =>
    change fun s => s.setFd p fd none
    fileclose a p f
    pure 0

def pipeinit (rf wf : FileId) (page : Nat) : SysM Unit :=
  change fun s =>
    let s := { s with pipe := Function.update s.pipe page ⟨true, true⟩ }
    let s := s.setFile rf
      { s.file rf with type := .FD_PIPE, readable := true, writable := false, pipe := page }
    s.setFile wf
      { s.file wf with type := .FD_PIPE, readable := false, writable := true, pipe := page }

def pipealloc (p : Slot) : SysM (Option (FileId × FileId)) := do
  let f0 ← filealloc
  match f0 with
  | none => pure none
  | some f0 =>
    let f1 ← filealloc
    match f1 with
    | none =>
      fileclose a p f0
      pure none
    | some f1 =>
      let page ← kalloc
      match page with
      | none =>
        fileclose a p f0
        fileclose a p f1
        pure none
      | some page =>
        pipeinit f0 f1 page
        pure (some (f0, f1))

def sysPipe (p : Slot) : SysM Int := do
  let r ← pipealloc a p
  match r with
  | none => pure (-1)
  | some (rf, wf) =>
    let fd0 ← fdalloc p rf
    match fd0 with
    | none =>
      fileclose a p rf
      fileclose a p wf
      pure (-1)
    | some fd0 =>
      let fd1 ← fdalloc p wf
      match fd1 with
      | none =>
        change fun s => s.setFd p fd0 none
        fileclose a p rf
        fileclose a p wf
        pure (-1)
      | some _ => pure 0

/-! ## Names -/

/-- `proc->cwd`; only a process that has exited has none. -/
def getCwd (p : Slot) : SysM Entry :=
  .atomic .other fun s =>
    match s.cwd p with
    | some e => .ok (e, s)
    | none => .halt .block

def linkBad (ip : Entry) : FsM Int := do
  ilock ip
  setCopy ip fun d => { d with nlink := (d.nlink + (2 ^ 16 - 1)) % 2 ^ 16 }
  iupdate a ip
  iunlockput a ip
  commitTrans a
  pure (-1)

def linkEntry (dp ip : Entry) (name : Name) : FsM Bool := do
  let dev ← .atomic (.addTo dp) fun s => .ok ((s.icache dp).dev, s)
  let dev' ← get fun s => (s.icache ip).dev
  let inum ← get fun s => (s.icache ip).inum
  if dev ≠ dev' then pure false else dirlink a dp name inum

/-- `sys_link`: create the path `new` as a link to the same inode as `old`. -/
def link (p : Slot) (cwd : Entry) (old new : Path) : FsM Int := do
  let r ← namei a cwd old
  match r with
  | none => pure (-1)
  | some ip =>
    beginTrans p
    ilock ip
    let type ← getCopy ip fun d => d.type
    if type = T_DIR then
      iunlockput a ip
      commitTrans a
      pure (-1)
    else
      setCopy ip fun d => { d with nlink := (d.nlink + 1) % 2 ^ 16 }
      iupdate a ip
      iunlock ip
      let r ← nameiparent a cwd new
      match r with
      | none => linkBad a ip
      | some (dp, name) =>
        ilock dp
        let linked ← linkEntry a dp ip name
        if linked then
          iunlockput a dp
          iput a ip
          commitTrans a
          pure 0
        else
          iunlockput a dp
          linkBad a ip

def unlinkBad (dp : Entry) : FsM Int := do
  iunlockput a dp
  commitTrans a
  pure (-1)

def canUnlink (ip : Entry) (copy : Dinode) : FsM Bool :=
  if copy.type = T_DIR then isdirempty a ip else pure true

def unlink (p : Slot) (cwd : Entry) (path : Path) : FsM Int := do
  let r ← nameiparent a cwd path
  match r with
  | none => pure (-1)
  | some (dp, name) =>
    beginTrans p
    ilock dp
    if sameName name DOT ∨ sameName name DOTDOT then unlinkBad a dp
    else
      let found ← dirlookup a dp name
      match found with
      | none => unlinkBad a dp
      | some (ip, off) =>
        ilock ip
        let copy ← getCopy ip id
        if copy.nlink = 0 ∨ 2 ^ 15 ≤ copy.nlink then stop "unlink: nlink < 1"
        else
          let empty ← canUnlink a ip copy
          if !empty then
            iunlockput a ip
            unlinkBad a dp
          else
            .atomic (.remove ip) fun s => .ok ((), s)
            let r ← writei a dp (fun _ => 0) off DENT
            if r ≠ DENT then stop "unlink: writei"
            else
              Prog.when (copy.type = T_DIR) do
                setCopy dp fun d => { d with nlink := (d.nlink + (2 ^ 16 - 1)) % 2 ^ 16 }
                iupdate a dp
              iunlockput a dp
              setCopy ip fun d => { d with nlink := (d.nlink + (2 ^ 16 - 1)) % 2 ^ 16 }
              iupdate a ip
              iunlockput a ip
              commitTrans a
              pure 0

def sysLink (p : Slot) (old new : Option Path) : SysM Int := do
  match old, new with
  | some old, some new =>
    let cwd ← getCwd p
    fs (link a p cwd old new)
  | _, _ => pure (-1)

def sysUnlink (p : Slot) (path : Option Path) : SysM Int := do
  match path with
  | none => pure (-1)
  | some path =>
    let cwd ← getCwd p
    fs (unlink a p cwd path)

def openInode (p : Slot) (path : Path) (omode : Nat) : SysM (Option Entry) := do
  let cwd ← getCwd p
  if omode &&& O_CREATE ≠ 0 then
    fs (beginTrans p)
    let ip ← fs (create a cwd path T_FILE 0 0)
    fs (commitTrans a)
    pure ip
  else
    let ip ← fs (namei a cwd path)
    match ip with
    | none => pure none
    | some ip =>
      fs (ilock ip)
      let type ← fs (getCopy ip fun d => d.type)
      if type = T_DIR ∧ omode ≠ 0 then
        fs (iunlockput a ip)
        pure none
      else pure (some ip)

def sysOpen (p : Slot) (path : Option Path) (omode : Nat) : SysM Int := do
  match path with
  | none => pure (-1)
  | some path =>
    let r ← openInode a p path omode
    match r with
    | none => pure (-1)
    | some ip =>
      let f ← filealloc
      match f with
      | none =>
        fs (iunlockput a ip)
        pure (-1)
      | some f =>
        let fd ← fdalloc p f
        match fd with
        | none =>
          fileclose a p f
          fs (iunlockput a ip)
          pure (-1)
        | some fd =>
          fs (iunlock ip)
          change fun s => s.setFile f
            { s.file f with
              type := .FD_INODE
              ip := ip
              opened := true
              off := 0
              readable := omode &&& O_WRONLY = 0
              writable := omode &&& O_WRONLY ≠ 0 || omode &&& O_RDWR ≠ 0 }
          pure fd.val

def sysMake (p : Slot) (path : Option Path) (type major minor : Nat) : SysM Int := do
  fs (beginTrans p)
  match path with
  | none =>
    fs (commitTrans a)
    pure (-1)
  | some path =>
    let cwd ← getCwd p
    let r ← fs (create a cwd path type major minor)
    match r with
    | none =>
      fs (commitTrans a)
      pure (-1)
    | some ip =>
      fs (iunlockput a ip)
      fs (commitTrans a)
      pure 0

def sysMkdir (p : Slot) (path : Option Path) : SysM Int := sysMake a p path T_DIR 0 0

def sysMknod (p : Slot) (path : Option Path) (major minor : Int) : SysM Int :=
  sysMake a p path T_DEV (major % 2 ^ 16).toNat (minor % 2 ^ 16).toNat

def sysChdir (p : Slot) (path : Option Path) : SysM Int := do
  match path with
  | none => pure (-1)
  | some path =>
    let cwd ← getCwd p
    let r ← fs (namei a cwd path)
    match r with
    | none => pure (-1)
    | some ip =>
      fs (ilock ip)
      let type ← fs (getCopy ip fun d => d.type)
      if type ≠ T_DIR then
        fs (iunlockput a ip)
        pure (-1)
      else
        fs (iunlock ip)
        let cwd ← getCwd p
        fs (iput a cwd)
        change fun s => { s with cwd := Function.update s.cwd p (some ip) }
        pure 0

/-- What `exec` does with the file: it reads some parts of it.  Which ones is decided by
what the file holds and by the memory there is, so any list of them is allowed. -/
def execFile (cwd : Entry) (path : Path) (parts : List (Nat × Nat)) : FsM Int := do
  let r ← namei a cwd path
  match r with
  | none => pure (-1)
  | some ip =>
    ilock ip
    Prog.forList parts fun part => do
      let _ ← readi a ip part.1 part.2
      pure ()
    iunlockput a ip
    pure 0

def sysExec (p : Slot) (path : Option Path) (parts : List (Nat × Nat)) : SysM Int := do
  match path with
  | none => pure (-1)
  | some path =>
    let cwd ← getCwd p
    fs (execFile a cwd path parts)

def fillFrom (p : Slot) (f : FileId) (src : Nat → UInt8) : Nat → Int → SysM Unit
  | 0, _ => pure ()
  | fuel + 1, zerosize =>
    if 0 < zerosize then do
      let _ ← filewrite a p f src zerosize
      fillFrom p f src fuel (zerosize - 4096)
    else pure ()

def newoff (ff : File) (size : Nat) (offset base garbage : Int) : Int :=
  if base = 0 then offset
  else if base = 1 then ff.off + offset
  else if base = 2 then size + offset
  else garbage

/-- What `sys_lseek` uses unset or unchecked: `newoff` before it is assigned, the word that
`f->ip->size` is while `f->ip` is 0, whether `kalloc` has a page, and the memory from there on. -/
structure Unset where
  newoff : Int
  size : Nat
  page : Bool
  src : Nat → UInt8

def zeroPage (src : Nat → UInt8) (k : Nat) : UInt8 := if k < 4096 then 0 else src k

/-- The end of `sys_lseek`; `kfree` panics on the null page. -/
def seekTo (p : Slot) (f : FileId) (size off : Nat) (m : Unset) : SysM Int := do
  Prog.when (size < off) do
    fillFrom a p f (zeroPage m.src) (off - size) (Int.bmod (off - size) (2 ^ 32))
    Prog.when (m.page = false) (halt "kfree")
  change fun s => s.setFile f { s.file f with off := off }
  pure 0

/-- `sys_lseek`.  The `f->ip` of a pipe is what the structure had before.  Without an open file
`f` is not set at all, which may be a pointer that faults. -/
def sysLseek (p : Slot) (fd offset base : Int) (m : Unset) : SysM Int := do
  let r ← argfd p fd
  match r with
  | none => halt "lseek"
  | some (_, f) =>
    let ff ← look fun s => s.file f
    let size ← fs (getCopy ff.ip fun d => d.size)
    let size := if ff.opened then size else m.size
    let off := (newoff ff size offset base m.newoff % 2 ^ 32).toNat
    if off < size then pure (-1) else seekTo a p f size off m

/-! ## Processes -/

def allocproc : SysM (Option Slot) :=
  .atomic .other fun s =>
    match (List.finRange NPROC).find? fun q => s.life q = .unused with
    | some q => .ok (some q, { s with life := Function.update s.life q .embryo })
    | none => .ok (none, s)

def forkFd (p np : Slot) (fd : Fd) : SysM Unit := do
  let f ← look fun s => s.ofile p fd
  match f with
  | none => pure ()
  | some f =>
    filedup f
    change fun s => s.setFd np fd (some f)

/-- `fork`; `mem` says whether there is memory for the new process. -/
def sysFork (p : Slot) (mem : Bool) : SysM Int := do
  let r ← allocproc
  match r with
  | none => pure (-1)
  | some np =>
    if mem then
      Prog.forList (List.finRange NOFILE) (forkFd p np)
      let cwd ← getCwd p
      let cwd ← fs (idup cwd)
      change fun s => { s with cwd := Function.update s.cwd np (some cwd) }
      change fun s => { s with life := Function.update s.life np .live }
      pure np.val
    else
      change fun s => { s with life := Function.update s.life np .unused }
      pure (-1)

def exitFd (p : Slot) (fd : Fd) : SysM Unit := do
  let f ← look fun s => s.ofile p fd
  match f with
  | none => pure ()
  | some f =>
    fileclose a p f
    change fun s => s.setFd p fd none

def initproc : Slot := ⟨0, Sched.zero_lt_NPROC⟩

def sysExit (p : Slot) : SysM Int := do
  Prog.when (p = initproc) (halt "init exiting")
  Prog.forList (List.finRange NOFILE) (exitFd a p)
  fs (beginTrans p)
  let cwd ← getCwd p
  fs (iput a cwd)
  fs (commitTrans a)
  change fun s => { s with cwd := Function.update s.cwd p none }
  change fun s => { s with life := Function.update s.life p .zombie }
  pure 0

inductive Call
  | open (path : Option Path) (omode : Nat)
  | mkdir (path : Option Path)
  | mknod (path : Option Path) (major minor : Int)
  | link (old new : Option Path)
  | unlink (path : Option Path)
  | chdir (path : Option Path)
  | exec (path : Option Path) (parts : List (Nat × Nat))
  | read (fd n : Int)
  | write (fd : Int) (src : Nat → UInt8) (n : Int)
  | lseek (fd offset base : Int) (m : Unset)
  | fstat (fd : Int)
  | close (fd : Int)
  | dup (fd : Int)
  | pipe
  | fork (mem : Bool)
  | exit

def code (p : Slot) : Call → SysM Int
  | .open path omode => sysOpen a p path omode
  | .mkdir path => sysMkdir a p path
  | .mknod path major minor => sysMknod a p path major minor
  | .link old new => sysLink a p old new
  | .unlink path => sysUnlink a p path
  | .chdir path => sysChdir a p path
  | .exec path parts => sysExec a p path parts
  | .read fd n => do
    let r ← sysRead a p fd n
    pure r.1
  | .write fd src n => sysWrite a p fd src n
  | .lseek fd offset base m => sysLseek a p fd offset base m
  | .fstat fd => sysFstat p fd
  | .close fd => sysClose a p fd
  | .dup fd => sysDup p fd
  | .pipe => sysPipe a p
  | .fork mem => sysFork p mem
  | .exit => sysExit a p

end Xv6.Files
