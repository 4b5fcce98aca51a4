import Xv6.Files.Disk

/-!
# Inodes: the cache, allocation, contents

`icache.lock` makes what a function does under it one action.  `I_BUSY` is a flag that a
process waits for and gives back.
-/

namespace Xv6.Files

open Xv6.Lib Xv6.Fs

def T_DIR : Nat := 1

def T_FILE : Nat := 2

def T_DEV : Nat := 3

def NDEV : Nat := 10

def CONSOLE : Nat := 1

/-! ## The inode on the disk -/

def dinodeOff (j : Nat) : Nat := 128 * j

def Dinode.decode (b : Block) (j : Nat) : Dinode where
  type := b.get (dinodeOff j) 2
  major := b.get (dinodeOff j + 2) 2
  minor := b.get (dinodeOff j + 4) 2
  nlink := b.get (dinodeOff j + 6) 2
  size := b.get (dinodeOff j + 8) 4
  addrs k := b.get (dinodeOff j + 76 + 4 * k) 4

def putAddrs (addrs : Nat → Nat) (off : Nat) : Nat → Block → Block
  | 0, b => b
  | k + 1, b => (putAddrs addrs off k b).set (off + 76 + 4 * k) 4 (addrs k)

def Dinode.encode (d : Dinode) (b : Block) (j : Nat) : Block :=
  let off := dinodeOff j
  putAddrs d.addrs off (NDIRECT + 1)
    (((((b.set off 2 d.type).set (off + 2) 2 d.major).set (off + 4) 2 d.minor).set
      (off + 6) 2 d.nlink).set (off + 8) 4 d.size)

def Dinode.fresh (b : Block) (j type : Nat) : Block :=
  (b.set (dinodeOff j) 128 0).set (dinodeOff j) 2 type

/-! ## The inode cache -/

def FsState.setInode (s : FsState) (e : Entry) (x : Inode) : FsState :=
  { s with icache := Function.update s.icache e x }

def setCopy (e : Entry) (f : Dinode → Dinode) : FsM Unit :=
  put fun s => s.setInode e { s.icache e with copy := f (s.icache e).copy }

def getCopy {α : Type} (e : Entry) (f : Dinode → α) : FsM α := get fun s => f (s.icache e).copy

def FsState.cached (s : FsState) (dev inum : Nat) : Option Entry :=
  (List.finRange NINODE).find? fun e =>
    0 < (s.icache e).ref ∧ (s.icache e).dev = dev ∧ (s.icache e).inum = inum

def FsState.empty (s : FsState) : Option Entry :=
  (List.finRange NINODE).find? fun e => (s.icache e).ref = 0

def igetFor (l : Act) (dev inum : Nat) : FsM Entry :=
  .atomic l fun s =>
    match s.cached dev inum with
    | some e => .ok (e, s.setInode e { s.icache e with ref := (s.icache e).ref + 1 })
    | none =>
      match s.empty with
      | none => .halt (.panic "iget: no inodes")
      | some e => .ok (e, s.setInode e
          { s.icache e with dev := dev, inum := inum, ref := 1, busy := false, valid := false })

def iget (dev inum : Nat) : FsM Entry := igetFor .other dev inum

def idup (e : Entry) : FsM Entry :=
  .atomic .other fun s => .ok (e, s.setInode e { s.icache e with ref := (s.icache e).ref + 1 })

def ilockBusy (e : Entry) : FsM Unit :=
  .atomic (.ilock e) fun s =>
    if (s.icache e).ref < 1 then .halt (.panic "ilock")
    else if (s.icache e).busy then .halt .block
    else .ok ((), s.setInode e { s.icache e with busy := true })

def ilock (e : Entry) : FsM Unit := do
  ilockBusy e
  let valid ← get fun s => (s.icache e).valid
  if valid then pure ()
  else
    let inum ← get fun s => (s.icache e).inum
    let bp ← bread (IBLOCK inum)
    setCopy e fun _ => .decode bp.data (inum % IPB)
    brelse bp
    put fun s => s.setInode e { s.icache e with valid := true }
    let type ← getCopy e fun d => d.type
    Prog.when (type = 0) (stop "ilock: no type")

def iunlock (e : Entry) : FsM Unit :=
  .atomic .other fun s =>
    if (s.icache e).busy = false ∨ (s.icache e).ref < 1 then .halt (.panic "iunlock")
    else .ok ((), s.setInode e { s.icache e with busy := false })

variable (a : LogArea)

def iupdate (e : Entry) : FsM Unit := do
  let inum ← get fun s => (s.icache e).inum
  let bp ← bread (IBLOCK inum)
  let copy ← getCopy e id
  logWrite a { bp with data := copy.encode bp.data (inum % IPB) }
  brelse bp

def iallocFrom (dev type : Nat) : Nat → Nat → FsM Entry
  | 0, _ => stop "ialloc: no inodes"
  | k + 1, inum => do
    let bp ← bread (IBLOCK inum)
    if (Dinode.decode bp.data (inum % IPB)).type = 0 then
      logWrite a { bp with data := Dinode.fresh bp.data (inum % IPB) type }
      brelse bp
      igetFor (.fresh dev inum) dev inum
    else
      brelse bp
      iallocFrom dev type k (inum + 1)

def ialloc (dev type : Nat) : FsM Entry := do
  let sb ← readsb
  iallocFrom a dev type (sb.ninodes - 1) 1

/-! ## The blocks of an inode -/

def allocAddr (e : Entry) (k : Nat) : FsM Nat := do
  let addr ← balloc a
  setCopy e fun d => { d with addrs := Function.update d.addrs k addr }
  pure addr

/-- `ip->addrs[k]`, where a block is allocated if there is none. -/
def loadAddr (e : Entry) (k : Nat) : FsM Nat := do
  let addr ← .atomic (.addr e k) fun s => .ok ((s.icache e).copy.addrs k, s)
  if addr = 0 then allocAddr a e k else pure addr

/-- The disk block address of the `bn`th block of the inode, which is allocated if there is
none. -/
def bmap (e : Entry) (bn : Nat) : FsM Nat :=
  if bn < NDIRECT then loadAddr a e bn
  else
    let bn := bn - NDIRECT
    if bn < NINDIRECT then do
      let ind ← loadAddr a e NDIRECT
      let bp ← breadFor (.entry ind bn) ind
      let addr := bp.data.get (4 * bn) 4
      if addr = 0 then
        let addr ← balloc a
        logWrite a { bp with data := bp.data.set (4 * bn) 4 addr }
        brelse bp
        pure addr
      else
        brelse bp
        pure addr
    else stop "bmap: out of range"

def itruncDirect (e : Entry) (i : Nat) : FsM Unit := do
  let addr ← getCopy e fun d => d.addrs i
  Prog.when (addr ≠ 0) do
    bfree a addr
    setCopy e fun d => { d with addrs := Function.update d.addrs i 0 }

def itruncIndirect (e : Entry) : FsM Unit := do
  let ind ← getCopy e fun d => d.addrs NDIRECT
  Prog.when (ind ≠ 0) do
    let bp ← bread ind
    Prog.forRange NINDIRECT fun j =>
      Prog.when (bp.data.get (4 * j) 4 ≠ 0) (bfree a (bp.data.get (4 * j) 4))
    brelse bp
    bfree a ind
    setCopy e fun d => { d with addrs := Function.update d.addrs NDIRECT 0 }

def itrunc (e : Entry) : FsM Unit := do
  Prog.forRange NDIRECT (itruncDirect a e)
  itruncIndirect a e
  setCopy e fun d => { d with size := 0 }
  iupdate a e

/-- The test of `iput` under `icache.lock`: drop the reference, or take the inode to free it. -/
def iputTest (e : Entry) : FsM Bool :=
  .atomic (.iput e) fun s =>
    let ip := s.icache e
    if ip.ref = 1 ∧ ip.valid = true ∧ ip.copy.nlink = 0 then
      if ip.busy then .halt (.panic "iput busy")
      else .ok (true, s.setInode e { ip with busy := true })
    else .ok (false, s.setInode e { ip with ref := ip.ref - 1 })

/-- Drop a reference to an in-memory inode, and free the inode if that was the last
reference and it has no links. -/
def iput (e : Entry) : FsM Unit := do
  let free ← iputTest e
  Prog.when (free = true) do
    itrunc a e
    setCopy e fun d => { d with type := 0 }
    iupdate a e
    put fun s => s.setInode e
      { s.icache e with busy := false, valid := false, ref := (s.icache e).ref - 1 }

def iunlockput (e : Entry) : FsM Unit := do
  iunlock e
  iput a e

/-! ## Contents -/

def slice (b : Block) (off m : Nat) : List UInt8 := (List.range m).map fun k => b.byte (off + k)

def blit (b : Block) (off : Nat) (src : Nat → UInt8) (m : Nat) : Block := fun i =>
  if off ≤ i.val ∧ i.val < off + m then src (i.val - off) else b i

def hasDev (major : Nat) : Bool := major < NDEV && major == CONSOLE

def consoleread (e : Entry) (n : Nat) : FsM (Option (List UInt8)) := do
  iunlock e
  let r ← .atomic .other fun s =>
    match s.input with
    | [] => .halt .block
    | r :: rest => .ok (r.map fun bytes => bytes.take n, { s with input := rest })
  ilock e
  pure r

def consolewrite (e : Entry) (n : Nat) : FsM Int := do
  iunlock e
  ilock e
  pure n

/-- The loop of `readi`; each turn reads at least one byte. -/
def readFrom (e : Entry) : Nat → Nat → Nat → FsM (List UInt8)
  | 0, _, _ => pure []
  | fuel + 1, off, n =>
    if n = 0 then pure []
    else do
      let b ← bmap a e (off / BSIZE)
      let bp ← bread b
      let m := min n (BSIZE - off % BSIZE)
      brelse bp
      let rest ← readFrom e fuel (off + m) (n - m)
      pure (slice bp.data (off % BSIZE) m ++ rest)

/-- Read data from the inode; `none` is `-1`. -/
def readi (e : Entry) (off n : Nat) : FsM (Option (List UInt8)) := do
  let copy ← getCopy e id
  if copy.type = T_DEV then
    if hasDev copy.major then consoleread e n else pure none
  else if copy.size < off ∨ (off + n) % 2 ^ 32 < off then pure none
  else
    let n := if copy.size < off + n then copy.size - off else n
    let bytes ← readFrom a e n off n
    pure (some bytes)

def writeFrom (e : Entry) : Nat → (Nat → UInt8) → Nat → Nat → FsM Unit
  | 0, _, _, _ => pure ()
  | fuel + 1, src, off, n =>
    if n = 0 then pure ()
    else do
      let b ← bmap a e (off / BSIZE)
      let bp ← bread b
      let m := min n (BSIZE - off % BSIZE)
      logWrite a { bp with data := blit bp.data (off % BSIZE) src m }
      brelse bp
      writeFrom e fuel (fun k => src (k + m)) (off + m) (n - m)

def writei (e : Entry) (src : Nat → UInt8) (off n : Nat) : FsM Int := do
  let copy ← getCopy e id
  if copy.type = T_DEV then
    if hasDev copy.major then consolewrite e n else pure (-1)
  else if copy.size < off ∨ (off + n) % 2 ^ 32 < off then pure (-1)
  else if MAXFILE * BSIZE < off + n then pure (-1)
  else
    writeFrom a e n src off n
    let size ← getCopy e fun d => d.size
    Prog.when (0 < n ∧ size < off + n) do
      setCopy e fun d => { d with size := off + n }
      iupdate a e
    pure n

end Xv6.Files
