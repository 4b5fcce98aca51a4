import Xv6.Files.Inode

/-!
# Directories and paths

A name is the bytes of a `char[DIRSIZ]` before its first NUL, a path the bytes of a string.
-/

namespace Xv6.Files

open Xv6.Lib Xv6.Fs

/-- Directory is a file containing a sequence of `dirent` structures. -/
def DIRSIZ : Nat := 14

def DENT : Nat := 2 + DIRSIZ

abbrev Name : Type := List UInt8

def cname (bytes : List UInt8) : Name := (bytes.take DIRSIZ).takeWhile fun c => c ≠ 0

def sameName (s t : List UInt8) : Bool := cname s = cname t

structure Dirent where
  inum : Nat
  name : List UInt8

def Dirent.decode (bytes : List UInt8) : Dirent where
  inum := (bytes.getD 0 0).toNat + 256 * (bytes.getD 1 0).toNat
  name := bytes.drop 2

/-- The bytes of an entry, with the name as `strncpy` copies it. -/
def direntBytes (inum : Nat) (name : Name) (k : Nat) : UInt8 :=
  if k = 0 then UInt8.ofNat inum
  else if k = 1 then UInt8.ofNat (inum / 256)
  else name.getD (k - 2) 0

variable (a : LogArea)

def readDirent (dp : Entry) (off : Nat) (msg : String) : FsM Dirent := do
  let r ← readi a dp off DENT
  match r with
  | some bytes => if bytes.length = DENT then pure (.decode bytes) else stop msg
  | none => stop msg

def dirlookupFrom (dp : Entry) (name : Name) : Nat → Nat → FsM (Option (Entry × Nat))
  | 0, _ => pure none
  | k + 1, off => do
    let de ← readDirent a dp off "dirlink read"
    if de.inum = 0 then dirlookupFrom dp name k (off + DENT)
    else if sameName name de.name then
      let dev ← get fun s => (s.icache dp).dev
      let e ← igetFor (.found dp name de.inum) dev de.inum
      pure (some (e, off))
    else dirlookupFrom dp name k (off + DENT)

/-- Look for a directory entry in a directory: the inode and the offset of the entry. -/
def dirlookup (dp : Entry) (name : Name) : FsM (Option (Entry × Nat)) := do
  let copy ← getCopy dp id
  if copy.type ≠ T_DIR then stop "dirlookup not DIR"
  else dirlookupFrom a dp name ((copy.size + DENT - 1) / DENT) 0

/-- The offset of the first empty entry from `off` on, or the end. -/
def findEmpty (dp : Entry) : Nat → Nat → FsM Nat
  | 0, off => pure off
  | k + 1, off => do
    let de ← readDirent a dp off "dirlink read"
    if de.inum = 0 then pure off else findEmpty dp k (off + DENT)

/-- Write a new directory entry into the directory; `false` is `-1`. -/
def dirlink (dp : Entry) (name : Name) (inum : Nat) : FsM Bool := do
  let found ← dirlookup a dp name
  match found with
  | some (e, _) =>
    iput a e
    pure false
  | none =>
    let size ← getCopy dp fun d => d.size
    let off ← findEmpty a dp ((size + DENT - 1) / DENT) 0
    let r ← writei a dp (direntBytes inum name) off DENT
    if r = DENT then pure true else stop "dirlink"

/-! ## Paths -/

structure Path where
  bytes : List UInt8
  noNul : ∀ c ∈ bytes, c ≠ 0

def SLASH : UInt8 := 47

/-- The next path element and the path after it, without leading slashes. -/
def skipelem (path : List UInt8) : Option (Name × List UInt8) :=
  match path.dropWhile fun c => c = SLASH with
  | [] => none
  | c :: rest =>
    let path := c :: rest
    some ((path.takeWhile fun c => c ≠ SLASH).take DIRSIZ,
      (path.dropWhile fun c => c ≠ SLASH).dropWhile fun c => c = SLASH)

/-- The path elements that `skipelem` finds one after the other. -/
def elems : Nat → List UInt8 → List Name
  | 0, _ => []
  | fuel + 1, path =>
    match skipelem path with
    | none => []
    | some (name, rest) => name :: elems fuel rest

def Path.elems (path : Path) : List Name := Files.elems path.bytes.length path.bytes

/-- The loop of `namex`; `name` is the last path element so far. -/
def namexFrom (parent : Bool) : Entry → Name → List Name → FsM (Option (Entry × Name))
  | ip, name, [] =>
    if parent then do
      iput a ip
      pure none
    else pure (some (ip, name))
  | ip, _, name :: rest => do
    ilock ip
    let type ← getCopy ip fun d => d.type
    if type ≠ T_DIR then
      iunlockput a ip
      pure none
    else if parent = true ∧ rest = [] then
      iunlock ip
      pure (some (ip, name))
    else
      let next ← dirlookup a ip name
      match next with
      | none =>
        iunlockput a ip
        pure none
      | some (next, _) =>
        iunlockput a ip
        namexFrom parent next name rest

def namexStart (cwd : Entry) (path : Path) : FsM Entry :=
  if path.bytes.head? = some SLASH then iget ROOTDEV ROOTINO else idup cwd

/-- Look up and return the inode for a path name, or its parent and the final element. -/
def namex (cwd : Entry) (path : Path) (parent : Bool) : FsM (Option (Entry × Name)) := do
  let ip ← namexStart cwd path
  namexFrom a parent ip [] path.elems

def namei (cwd : Entry) (path : Path) : FsM (Option Entry) := do
  let r ← namex a cwd path false
  pure (r.map Prod.fst)

def nameiparent (cwd : Entry) (path : Path) : FsM (Option (Entry × Name)) :=
  namex a cwd path true

/-! ## The parts of `sysfile.c` that change directories -/

def DOT : Name := [46]

def DOTDOT : Name := [46, 46]

def isdiremptyFrom (dp : Entry) : Nat → Nat → FsM Bool
  | 0, _ => pure true
  | k + 1, off => do
    let de ← readDirent a dp off "isdirempty: readi"
    if de.inum ≠ 0 then pure false else isdiremptyFrom dp k (off + DENT)

def isdirempty (dp : Entry) : FsM Bool := do
  let size ← getCopy dp fun d => d.size
  isdiremptyFrom a dp ((size - 2 * DENT + DENT - 1) / DENT) (2 * DENT)

def createDots (dp ip : Entry) : FsM Unit := do
  setCopy dp fun d => { d with nlink := (d.nlink + 1) % 2 ^ 16 }
  iupdate a dp
  let inum ← get fun s => (s.icache ip).inum
  let dot ← dirlink a ip DOT inum
  if dot then
    let up ← get fun s => (s.icache dp).inum
    let dotdot ← dirlink a ip DOTDOT up
    Prog.when (dotdot = false) (stop "create dots")
  else stop "create dots"

/-- The inode that the path names is created, or opened if it is a file and is to be one.
It is returned locked. -/
def create (cwd : Entry) (path : Path) (type major minor : Nat) : FsM (Option Entry) := do
  let r ← nameiparent a cwd path
  match r with
  | none => pure none
  | some (dp, name) =>
    ilock dp
    let found ← dirlookup a dp name
    match found with
    | some (ip, _) =>
      iunlockput a dp
      ilock ip
      let t ← getCopy ip fun d => d.type
      if type = T_FILE ∧ t = T_FILE then pure (some ip)
      else
        iunlockput a ip
        pure none
    | none =>
      let dev ← .atomic (.addTo dp) fun s => .ok ((s.icache dp).dev, s)
      let ip ← ialloc a dev type
      ilock ip
      setCopy ip fun d => { d with major := major, minor := minor, nlink := 1 }
      iupdate a ip
      Prog.when (type = T_DIR) (createDots a dp ip)
      let inum ← get fun s => (s.icache ip).inum
      let linked ← dirlink a dp name inum
      if linked then
        iunlockput a dp
        pure (some ip)
      else stop "create: dirlink"

end Xv6.Files
