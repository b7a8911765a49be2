import Mathlib.Algebra.Group.Int.Defs
import Xv6.Files.Names

/-! # `mkfs.c`

The program writes the image sector by sector: all zeros, the super block, then an inode, a
directory entry and the bytes of every file given, and in the end the size of the root directory and
the bitmap. Numbers are stored in Intel byte order, so `xint` and `xshort` are part of how a word of
a sector is read and written. The files named on the command line can all be opened, and `read`
fills its buffer as long as there are bytes.
-/

namespace Xv6.Mkfs

open Lib
open Fs (tDir tFile dot dotdot slash dirent)
open Files (Block Dinode short)

/-! ## Layout of the image -/

abbrev fsSize : Nat := 1000
abbrev nInodes : Nat := 200

abbrev dinodeSize : Nat := 64
abbrev ipb : Nat := bSize / dinodeSize

abbrev nbitmap : Nat := fsSize / (bSize * 8) + 1
abbrev ninodeblocks : Nat := nInodes / ipb + 1
abbrev nlog : Nat := logSize

abbrev logstart : Nat := 2
abbrev inodestart : Nat := 2 + nlog
abbrev bmapstart : Nat := 2 + nlog + ninodeblocks
abbrev nmeta : Nat := 2 + nlog + ninodeblocks + nbitmap
abbrev nblocks : Nat := fsSize - nmeta

def iblock (inum : Nat) : Nat := inum / ipb + inodestart

def zeroes : Block := fun _ => 0

def superSector : Block :=
  ((((((zeroes.setUint 0 fsSize).setUint 1 nblocks).setUint 2 nInodes).setUint 3 nlog).setUint 4
    logstart).setUint 5 inodestart).setUint 6 bmapstart

def ushort (b : Block) (j : Nat) : Nat := (b (2 * j)).toNat + 256 * (b (2 * j + 1)).toNat

/-- The first four fields of `struct dinode`. -/
def half (d : Dinode) : Nat → Int
  | 0 => d.type
  | 1 => d.major
  | 2 => d.minor
  | _ => d.nlink

/-- The fields of `struct dinode` behind them. -/
def word (d : Dinode) : Nat → Nat
  | 0 => d.size
  | i + 1 => if h : i < nDirect + 1 then d.addrs ⟨i, h⟩ else 0

def dinodeByte (d : Dinode) (r : Nat) : UInt8 :=
  if r < 8 then UInt8.ofNat ((half d (r / 2) % 2 ^ 16).toNat / 256 ^ (r % 2))
  else UInt8.ofNat (word d ((r - 8) / 4) / 256 ^ (r % 4))

/-- `*dip = *ip`, where `dip` is the inode `slot` of the sector. -/
def setDinode (b : Block) (slot : Nat) (d : Dinode) : Block := fun k =>
  if k / dinodeSize = slot then dinodeByte d (k % dinodeSize) else b k

def getDinode (b : Block) (slot : Nat) : Dinode where
  type := ushort b (32 * slot)
  major := short (ushort b (32 * slot + 1))
  minor := short (ushort b (32 * slot + 2))
  nlink := short (ushort b (32 * slot + 3))
  size := b.uint (16 * slot + 2)
  addrs := fun i => b.uint (16 * slot + 3 + i)

/-! ## The program -/

/-- The image, of which `count` sectors are written, and the two counters. -/
structure State where
  sectors : Nat → Block
  count : Nat
  freeinode : Nat
  freeblock : Nat

structure Input where
  name : CString
  bytes : List UInt8
  terminated : 0 ∉ name

def Input.target (f : Input) : CString := if f.name.headD 0 = 95 then f.name.tail else f.name

def wsect (sec : Nat) (buf : Block) : Code State Unit :=
  modify fun m => { m with sectors := Function.update m.sectors sec buf, count := max m.count (sec + 1) }

/-- `rsect(sec, buf)`: behind the end of the image there is nothing to read. -/
def rsect (sec : Nat) : Code State Block := do
  let m ← get
  if sec < m.count then return m.sectors sec else throw "read"

def winode (inum : Nat) (d : Dinode) : Code State Unit := do
  let buf ← rsect (iblock inum)
  wsect (iblock inum) (setDinode buf (inum % ipb) d)

def rinode (inum : Nat) : Code State Dinode := do
  let buf ← rsect (iblock inum)
  return getDinode buf (inum % ipb)

def ialloc (type : Nat) : Code State Nat := do
  let inum := (← get).freeinode
  modify fun m => { m with freeinode := inum + 1 }
  winode inum { Dinode.new type with nlink := 1 }
  return inum

def nextBlock : Code State Nat := do
  let b := (← get).freeblock
  modify fun m => { m with freeblock := b + 1 }
  return b

/-- `din.addrs[i]`, with the next block if it is `0`. -/
def fillAddr (din : Dinode) (i : Fin (nDirect + 1)) : Code State (Dinode × Nat) := do
  if din.addrs i = 0 then
    let b ← nextBlock
    return ({ din with addrs := Function.update din.addrs i b }, b)
  else return (din, din.addrs i)

/-- The sector `x` for the block `fbn` of a file, as `iappend` finds it. -/
def sectorOf (din : Dinode) (fbn : Nat) : Code State (Dinode × Nat) :=
  if h : fbn < nDirect then fillAddr din ⟨fbn, Nat.lt_succ_of_lt h⟩
  else do
    let (din, ind) ← fillAddr din (Fin.last nDirect)
    let indirect ← rsect ind
    if indirect.uint (fbn - nDirect) = 0 then
      let b ← nextBlock
      wsect ind (indirect.setUint (fbn - nDirect) b)
      return (din, b)
    else return (din, indirect.uint (fbn - nDirect))

/-- The loop of `iappend`; each round writes at least one byte. -/
def appendLoop : Nat → Dinode → Nat → List UInt8 → Code State (Dinode × Nat)
  | 0, din, off, _ => pure (din, off)
  | fuel + 1, din, off, p =>
    if p = [] then pure (din, off)
    else if off / bSize < maxFile then do
      let (din, x) ← sectorOf din (off / bSize)
      let n1 := min p.length ((off / bSize + 1) * bSize - off)
      let buf ← rsect x
      wsect x (buf.write (off - off / bSize * bSize) (p.take n1))
      appendLoop fuel din (off + n1) (p.drop n1)
    else throw "assert(fbn < MAXFILE)"

def iappend (inum : Nat) (p : List UInt8) : Code State Unit := do
  let din ← rinode inum
  let (din, off) ← appendLoop p.length din din.size p
  winode inum { din with size := off }

def bitmapSector (used : Nat) : Block :=
  (List.range used).foldl (fun buf i =>
    Function.update buf (i / 8) (UInt8.ofNat ((buf (i / 8)).toNat ||| 2 ^ (i % 8)))) zeroes

def balloc (used : Nat) : Code State Unit :=
  if used < bSize * 8 then wsect bmapstart (bitmapSector used)
  else throw "assert(used < BSIZE * 8)"

/-- `while ((cc = read(fd, buf, sizeof(buf))) > 0) iappend(inum, buf, cc);` -/
def copyLoop (inum : Nat) : Nat → List UInt8 → Code State Unit
  | 0, _ => pure ()
  | fuel + 1, bytes =>
    if bytes = [] then pure ()
    else do
      iappend inum (bytes.take bSize)
      copyLoop inum fuel (bytes.drop bSize)

/-- One round of the loop over the command line. -/
def addFile (f : Input) : Code State Unit := do
  if slash ∈ f.name then throw "assert(index(argv[i], '/') == 0)"
  else
    let inum ← ialloc tFile
    iappend rootIno (dirent inum (chars dirSiz f.target))
    copyLoop inum f.bytes.length f.bytes

def fixRoot : Code State Unit := do
  let din ← rinode rootIno
  winode rootIno { din with size := (din.size / bSize + 1) * bSize }

/-- `main`, from the loop that writes zeros on. -/
def main (files : List Input) : Code State Unit := do
  (List.range fsSize).forM fun i => wsect i zeroes
  wsect 1 superSector
  let rootino ← ialloc tDir
  if rootino = rootIno then
    iappend rootino (dirent rootino dot)
    iappend rootino (dirent rootino dotdot)
    files.forM addFile
    fixRoot
    balloc (← get).freeblock
  else throw "assert(rootino == ROOTINO)"

def start : State where
  sectors := fun _ => zeroes
  count := 0
  freeinode := 1
  freeblock := nmeta

/-! ## What the kernel finds -/

def readsb (sectors : Nat → Block) : Files.Superblock where
  size := (sectors 1).uint 0
  ninodes := (sectors 1).uint 2
  bmapstart := (sectors 1).uint 6

/-- The inode `inum`, through `IBLOCK`; numbers from `sb.ninodes` on stand for no inode. -/
def dinodeAt (sectors : Nat → Block) (inum : Nat) : Dinode :=
  if inum < (readsb sectors).ninodes then
    getDinode (sectors (inum / ipb + (sectors 1).uint 5)) (inum % ipb)
  else Dinode.new 0

/-- The bit of the block `b`, through `BBLOCK`. -/
def bitAt (sectors : Nat → Block) (b : Nat) : Bool :=
  (sectors (b / (bSize * 8) + (readsb sectors).bmapstart) (b % (bSize * 8) / 8)).toNat.testBit (b % 8)

/-- The disk as the kernel finds it, with nothing in the inode cache. -/
def disk (sectors : Nat → Block) : Files.Store where
  bitmap := bitAt sectors
  dinodes := dinodeAt sectors
  blocks := sectors
  icache := fun _ => ⟨0, 0, 0, false, false, Dinode.new 0⟩

end Xv6.Mkfs
