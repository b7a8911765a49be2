import Xv6.Lib.Panic
import Xv6.Fs.Path

/-! # Blocks and inodes of `fs.c`

The disk is its bitmap, its inodes and its blocks, each as the buffer cache shows them;
`log_write` makes a change visible at once, and `begin_op` and `end_op` are left out. Calls run
one at a time, so a sleep lock that is held is held by the caller itself, who then never
returns. All inodes lie on `ROOTDEV`, the one device that the global `sb` describes.
-/

namespace Xv6.Files

open Function
open Lib Fs

/-- `struct superblock`, as far as it is read. -/
structure Superblock where
  size : Nat
  ninodes : Nat
  bmapstart : Nat

/-- The bytes of a block; what lies behind the first `BSIZE` is never used. -/
abbrev Block := Nat → UInt8

def Block.uint (b : Block) (j : Nat) : Nat :=
  (b (4 * j)).toNat + 256 * (b (4 * j + 1)).toNat + 256 ^ 2 * (b (4 * j + 2)).toNat +
    256 ^ 3 * (b (4 * j + 3)).toNat

def Block.setUint (b : Block) (j v : Nat) : Block := fun k =>
  if k / 4 = j then UInt8.ofNat (v / 256 ^ (k % 4)) else b k

def Block.write (b : Block) (off : Nat) (src : List UInt8) : Block := fun k =>
  if off ≤ k ∧ k < off + src.length then src.getD (k - off) 0 else b k

def short (x : Int) : Int := x.bmod (2 ^ 16)

structure Dinode where
  type : Nat
  major : Int
  minor : Int
  nlink : Int
  size : Nat
  addrs : Fin (nDirect + 1) → Nat

/-- `struct inode`, with the copy of the disk inode that `valid` announces. -/
structure Inode where
  dev : Nat
  inum : Nat
  ref : Int
  locked : Bool
  valid : Bool
  copy : Dinode

structure Store where
  bitmap : Nat → Bool
  dinodes : Nat → Dinode
  blocks : Nat → Block
  icache : Slot → Inode

def Store.set (s : Store) (ip : Slot) (f : Inode → Inode) : Store :=
  { s with icache := update s.icache ip (f (s.icache ip)) }

/-- A change of a field of `*ip` that lives on disk. -/
def Store.edit (s : Store) (ip : Slot) (f : Dinode → Dinode) : Store :=
  s.set ip fun x => { x with copy := f x.copy }

def Store.setAddr (s : Store) (ip : Slot) (i : Fin (nDirect + 1)) (addr : Nat) : Store :=
  s.edit ip fun d => { d with addrs := update d.addrs i addr }

def Store.setBlock (s : Store) (b : Nat) (data : Block) : Store :=
  { s with blocks := update s.blocks b data }

def Store.mark (s : Store) (b : Nat) (inUse : Bool) : Store :=
  { s with bitmap := update s.bitmap b inUse }

/-! ## Blocks -/

def balloc (sb : Superblock) : Code Store Nat := do
  let s ← get
  match (List.range sb.size).find? fun b => !s.bitmap b with
  | some b => do
    modify (·.mark b true)
    modify (·.setBlock b fun _ => 0)
    return b
  | none => throw "balloc: out of blocks"

def bfree (b : Nat) : Code Store Unit := do
  if (← get).bitmap b then modify (·.mark b false) else throw "freeing free block"

/-- `ip->addrs[i]`, with a new block if it is `0`. -/
def addrOrAlloc (sb : Superblock) (ip : Slot) (i : Fin (nDirect + 1)) : Code Store Nat := do
  let addr := ((← get).icache ip).copy.addrs i
  if addr = 0 then
    let addr ← balloc sb
    modify (·.setAddr ip i addr)
    return addr
  else return addr

def bmap (sb : Superblock) (ip : Slot) (bn : Nat) : Code Store Nat :=
  if h : bn < nDirect then addrOrAlloc sb ip ⟨bn, Nat.lt_succ_of_lt h⟩
  else if bn - nDirect < nIndirect then do
    let bp ← addrOrAlloc sb ip (Fin.last nDirect)
    let addr := ((← get).blocks bp).uint (bn - nDirect)
    if addr = 0 then
      let addr ← balloc sb
      modify fun s => s.setBlock bp ((s.blocks bp).setUint (bn - nDirect) addr)
      return addr
    else return addr
  else throw "bmap: out of range"

/-! ## Inodes -/

def iupdate (ip : Slot) : Code Store Unit :=
  modify fun s => { s with dinodes := update s.dinodes (s.icache ip).inum (s.icache ip).copy }

def iget (dev inum : Nat) : Code Store Slot := do
  let s ← get
  match scanCache (fun i => (s.icache i).ref)
      fun i => (s.icache i).dev == dev && (s.icache i).inum == inum with
  | .cached i => do
    modify (·.set i fun x => { x with ref := x.ref + 1 })
    return i
  | .empty i => do
    modify (·.set i fun x => { x with dev := dev, inum := inum, ref := 1, valid := false })
    return i
  | .full => throw "iget: no inodes"

/-- `memset(dip, 0, sizeof(*dip)); dip->type = type`. -/
def Dinode.new (type : Nat) : Dinode :=
  { type := type, major := 0, minor := 0, nlink := 0, size := 0, addrs := fun _ => 0 }

def ialloc (sb : Superblock) (dev type : Nat) : Code Store Slot := do
  let s ← get
  match (List.range sb.ninodes).find? fun inum => 1 ≤ inum && (s.dinodes inum).type == 0 with
  | some inum => do
    modify fun s => { s with dinodes := update s.dinodes inum (Dinode.new type) }
    iget dev inum
  | none => throw "ialloc: no inodes"

def idup (ip : Slot) : Code Store Unit := modify (·.set ip fun x => { x with ref := x.ref + 1 })

def acquiresleep (ip : Slot) : Code Store Unit := do
  if ((← get).icache ip).locked then throw "acquiresleep: held by the caller"
  else modify (·.set ip fun x => { x with locked := true })

def releasesleep (ip : Slot) : Code Store Unit := modify (·.set ip fun x => { x with locked := false })

/-- What `ilock` does when `ip->valid` is `0`. -/
def iload (ip : Slot) : Code Store Unit := do
  modify fun s => s.set ip fun x => { x with copy := s.dinodes x.inum, valid := true }
  if ((← get).icache ip).copy.type = 0 then throw "ilock: no type" else return

def ilock (ip : Slot) : Code Store Unit := do
  if ((← get).icache ip).ref < 1 then throw "ilock"
  else
    acquiresleep ip
    if ((← get).icache ip).valid then return else iload ip

def iunlock (ip : Slot) : Code Store Unit := do
  let x := (← get).icache ip
  if x.locked = false ∨ x.ref < 1 then throw "iunlock" else releasesleep ip

def truncDirect (ip : Slot) (i : Fin nDirect) : Code Store Unit := do
  let addr := ((← get).icache ip).copy.addrs i.castSucc
  if addr = 0 then return
  else
    bfree addr
    modify (·.setAddr ip i.castSucc 0)

/-- The indirect block in `itrunc`, and the blocks it names. -/
def truncIndirect (ip : Slot) : Code Store Unit := do
  let bp := ((← get).icache ip).copy.addrs (Fin.last nDirect)
  if bp = 0 then return
  else
    let a := (← get).blocks bp
    (List.range nIndirect).forM fun j => if a.uint j = 0 then pure () else bfree (a.uint j)
    bfree bp
    modify (·.setAddr ip (Fin.last nDirect) 0)

def itrunc (ip : Slot) : Code Store Unit := do
  (List.finRange nDirect).forM (truncDirect ip)
  truncIndirect ip
  modify (·.edit ip fun d => { d with size := 0 })
  iupdate ip

/-- What `iput` does with an inode that has no links and no other references. -/
def ifree (ip : Slot) : Code Store Unit := do
  itrunc ip
  modify (·.edit ip fun d => { d with type := 0 })
  iupdate ip
  modify (·.set ip fun x => { x with valid := false })

def iput (ip : Slot) : Code Store Unit := do
  acquiresleep ip
  let x := (← get).icache ip
  (if x.valid ∧ x.copy.nlink = 0 ∧ x.ref = 1 then ifree ip else pure ())
  releasesleep ip
  modify (·.set ip fun x => { x with ref := x.ref - 1 })

def iunlockput (ip : Slot) : Code Store Unit := do
  iunlock ip
  iput ip

/-! ## Inode content -/

/-- The driver of the console, the only one in `devsw`. -/
abbrev console : Int := 1

/-- The loop of `readi`; each round reads at least one byte. -/
def readLoop (sb : Superblock) (ip : Slot) : Nat → Nat → Nat → Code Store (List UInt8)
  | 0, _, _ => pure []
  | fuel + 1, off, n =>
    if n = 0 then pure []
    else do
      let b ← bmap sb ip (off / bSize)
      let m := min n (bSize - off % bSize)
      let data := (← get).blocks b
      let rest ← readLoop sb ip fuel (off + m) (n - m)
      return (List.range m).map (fun k => data (off % bSize + k)) ++ rest

/-- `readi(ip, dst, off, n)`: the bytes read, or `-1`. `input` is what the console answers. -/
def readi (sb : Superblock) (ip : Slot) (off n : Nat) (input : List UInt8) :
    Code Store (Option (List UInt8)) := do
  let d := ((← get).icache ip).copy
  if d.type = tDev then
    if d.major = console then return some (input.take n) else return none
  else if off > d.size ∨ (off + n) % uintMod < off then return none
  else
    let n := if off + n > d.size then d.size - off else n
    return some (← readLoop sb ip n off n)

/-- The loop of `writei`; each round writes at least one byte. -/
def writeLoop (sb : Superblock) (ip : Slot) : Nat → List UInt8 → Nat → Code Store Unit
  | 0, _, _ => pure ()
  | fuel + 1, src, off =>
    if src = [] then pure ()
    else do
      let b ← bmap sb ip (off / bSize)
      let m := min src.length (bSize - off % bSize)
      modify fun s => s.setBlock b ((s.blocks b).write (off % bSize) (src.take m))
      writeLoop sb ip fuel (src.drop m) (off + m)

/-- `writei(ip, src, off, n)`: the number of bytes written, or `-1`. -/
def writei (sb : Superblock) (ip : Slot) (src : List UInt8) (off : Nat) : Code Store (Option Nat) := do
  let d := ((← get).icache ip).copy
  if d.type = tDev then
    if d.major = console then return some src.length else return none
  else if off > d.size ∨ (off + src.length) % uintMod < off then return none
  else if off + src.length > maxFile * bSize then return none
  else
    writeLoop sb ip src.length src off
    (if 0 < src.length ∧ off + src.length > ((← get).icache ip).copy.size then do
      modify (·.edit ip fun d => { d with size := off + src.length })
      iupdate ip
    else pure ())
    return some src.length

end Xv6.Files
