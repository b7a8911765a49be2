import Xv6.Fs.Walk
import Xv6.Files.Inode

/-! # Directories and path names over blocks

The directory layer and the name layer of `fs.c`, and the calls of `sysfile.c` that work on
inodes alone. A name is looked up by the process that makes the call.
-/

namespace Xv6.Files

open Lib
open Fs (tDir tFile tDev direntSize namecmp direntInum direntName dirent dot dotdot slash skipelem)

variable (sb : Superblock)

/-! ## Directories -/

/-- `readi(dp, (char *)&de, off, sizeof(de))` where a short read is a `panic`. -/
def readDirent (msg : String) (dp : Fs.Slot) (off : Nat) : Code Store (List UInt8) := do
  match ← readi sb dp off direntSize [] with
  | some de => if de.length = direntSize then return de else throw msg
  | none => throw msg

/-- The loop of `dirlookup` from `off` on: `de.inum` of the entry found, and its offset. -/
def lookupLoop (dp : Fs.Slot) (name : CString) : Nat → Nat → Code Store (Option (Nat × Nat))
  | 0, _ => pure none
  | fuel + 1, off => do
    if off < ((← get).icache dp).copy.size then
      let de ← readDirent sb "dirlookup read" dp off
      if direntInum de = 0 then lookupLoop dp name fuel (off + direntSize)
      else if namecmp name (direntName de) = 0 then return some (direntInum de, off)
      else lookupLoop dp name fuel (off + direntSize)
    else return none

def dirlookup (dp : Fs.Slot) (name : CString) : Code Store (Option (Fs.Slot × Nat)) := do
  let x := (← get).icache dp
  if x.copy.type ≠ tDir then throw "dirlookup not DIR"
  else
    match ← lookupLoop sb dp name (x.copy.size + 1) 0 with
    | none => return none
    | some (inum, off) =>
      let ip ← iget x.dev inum
      return some (ip, off)

/-- The loop of `dirlink` that looks for an empty entry, from `off` on. -/
def emptyLoop (dp : Fs.Slot) : Nat → Nat → Code Store Nat
  | 0, off => pure off
  | fuel + 1, off => do
    if off < ((← get).icache dp).copy.size then
      let de ← readDirent sb "dirlink read" dp off
      if direntInum de = 0 then return off else emptyLoop dp fuel (off + direntSize)
    else return off

def dirlink (dp : Fs.Slot) (name : CString) (inum : Nat) : Code Store Int := do
  match ← dirlookup sb dp name with
  | some (ip, _) =>
    iput ip
    return -1
  | none =>
    let off ← emptyLoop sb dp (((← get).icache dp).copy.size + 1) 0
    let r ← writei sb dp (dirent inum (chars dirSiz name)) off
    if r = some direntSize then return 0 else throw "dirlink"

def isdiremptyLoop (dp : Fs.Slot) : Nat → Nat → Code Store Bool
  | 0, _ => pure true
  | fuel + 1, off => do
    if off < ((← get).icache dp).copy.size then
      let de ← readDirent sb "isdirempty: readi" dp off
      if direntInum de = 0 then isdiremptyLoop dp fuel (off + direntSize) else return false
    else return true

def isdirempty (dp : Fs.Slot) : Code Store Bool := do
  isdiremptyLoop sb dp (((← get).icache dp).copy.size + 1) (2 * direntSize)

/-! ## Paths -/

/-- The loop of `namex`: the inode found, and the buffer `name`. -/
def namexLoop (p : Fs.Proc) (nameiparent : Bool) :
    Nat → CString → CString → Fs.Slot → Code Store (Option (Fs.Slot × CString))
  | 0, _, _, _ => throw "namex: out of fuel"
  | fuel + 1, path, name, ip =>
    match skipelem path name with
    | none =>
      if nameiparent then do
        iput ip
        return none
      else return some (ip, name)
    | some (path, name) => do
      ilock ip
      if ((← get).icache ip).copy.type ≠ tDir then
        iunlockput ip
        return none
      else if p.inNewroot ≠ 0 ∧ p.newrootInode = some ip ∧ namecmp name dotdot = 0 then
        if nameiparent ∧ path.headD 0 = 0 then
          iunlock ip
          return some (ip, name)
        else
          idup ip
          iunlockput ip
          namexLoop p nameiparent fuel path name ip
      else if nameiparent ∧ path.headD 0 = 0 then
        iunlock ip
        return some (ip, name)
      else
        match ← dirlookup sb ip name with
        | none =>
          iunlockput ip
          return none
        | some (next, _) =>
          iunlockput ip
          namexLoop p nameiparent fuel path name next

def namexStart (p : Fs.Proc) (path : CString) : Code Store Fs.Slot := do
  if p.inNewroot = 1 then
    if path.headD 0 = slash then
      let x := (← get).icache p.cwd
      iget x.dev x.inum
    else
      idup p.cwd
      return p.cwd
  else
    if path.headD 0 = slash then iget rootDev rootIno
    else
      idup p.cwd
      return p.cwd

def namex (p : Fs.Proc) (path : CString) (nameiparent : Bool) (name : CString) :
    Code Store (Option (Fs.Slot × CString)) := do
  let ip ← namexStart p path
  namexLoop sb p nameiparent (path.length + 1) path name ip

/-- `namei(path)`; its buffer for components starts with arbitrary bytes. -/
def namei (p : Fs.Proc) (path buf : CString) : Code Store (Option Fs.Slot) := do
  return (← namex sb p path false buf).map Prod.fst

def nameiparent (p : Fs.Proc) (path name : CString) : Code Store (Option (Fs.Slot × CString)) :=
  namex sb p path true name

def isInodeDirectory (ip : Fs.Slot) : Code Store Bool := do
  ilock ip
  let isDir := ((← get).icache ip).copy.type == tDir
  iunlock ip
  return isDir

/-! ## Calls on inodes -/

/-- A change of a field of `*ip`, and `iupdate(ip)`. -/
def change (ip : Fs.Slot) (f : Dinode → Dinode) : Code Store Unit := do
  modify (·.edit ip f)
  iupdate ip

def addLink (ip : Fs.Slot) (n : Int) : Code Store Unit :=
  change ip fun d => { d with nlink := short (d.nlink + n) }

/-- The entries `.` and `..` of a new directory. -/
def linkDots (dp ip : Fs.Slot) : Code Store Unit := do
  addLink dp 1
  let s ← get
  if (← dirlink sb ip dot (s.icache ip).inum) < 0 then throw "create dots"
  else if (← dirlink sb ip dotdot (s.icache dp).inum) < 0 then throw "create dots"
  else return

def createNew (dp : Fs.Slot) (name : CString) (type : Nat) (major minor : Int) :
    Code Store Fs.Slot := do
  let ip ← ialloc sb ((← get).icache dp).dev type
  ilock ip
  change ip fun d => { d with major := short major, minor := short minor, nlink := 1 }
  (if type = tDir then linkDots sb dp ip else pure ())
  if (← dirlink sb dp name ((← get).icache ip).inum) < 0 then throw "create: dirlink"
  else
    iunlockput dp
    return ip

/-- `create(path, type, major, minor)`; the inode it returns is locked. -/
def create (p : Fs.Proc) (path : CString) (type : Nat) (major minor : Int) (buf : CString) :
    Code Store (Option Fs.Slot) := do
  match ← nameiparent sb p path buf with
  | none => return none
  | some (dp, name) =>
    ilock dp
    match ← dirlookup sb dp name with
    | some (ip, _) =>
      iunlockput dp
      ilock ip
      if type = tFile ∧ ((← get).icache ip).copy.type = tFile then return some ip
      else
        iunlockput ip
        return none
    | none => return some (← createNew sb dp name type major minor)

/-- The `bad:` branch of `sys_link`. -/
def linkBad (ip : Fs.Slot) : Code Store Int := do
  ilock ip
  addLink ip (-1)
  iunlockput ip
  return -1

def linkTo (p : Fs.Proc) (ip : Fs.Slot) (new buf : CString) : Code Store Int := do
  match ← nameiparent sb p new buf with
  | none => linkBad ip
  | some (dp, name) =>
    ilock dp
    let s ← get
    if (s.icache dp).dev ≠ (s.icache ip).dev then
      iunlockput dp
      linkBad ip
    else if (← dirlink sb dp name (s.icache ip).inum) < 0 then
      iunlockput dp
      linkBad ip
    else
      iunlockput dp
      iput ip
      return 0

def sysLink (p : Fs.Proc) (old new buf : CString) : Code Store Int := do
  match ← namei sb p old buf with
  | none => return -1
  | some ip =>
    ilock ip
    if ((← get).icache ip).copy.type = tDir then
      iunlockput ip
      return -1
    else
      addLink ip 1
      iunlock ip
      linkTo sb p ip new buf

/-- `sys_unlink` once the entry at `off` of `dp` has been found to name `ip`. -/
def unlinkEntry (dp ip : Fs.Slot) (off : Nat) : Code Store Int := do
  let r ← writei sb dp (List.replicate direntSize 0) off
  if r ≠ some direntSize then throw "unlink: writei"
  else
    (if ((← get).icache ip).copy.type = tDir then addLink dp (-1) else pure ())
    iunlockput dp
    addLink ip (-1)
    iunlockput ip
    return 0

def sysUnlink (p : Fs.Proc) (path buf : CString) : Code Store Int := do
  match ← nameiparent sb p path buf with
  | none => return -1
  | some (dp, name) =>
    ilock dp
    if namecmp name dot = 0 ∨ namecmp name dotdot = 0 then
      iunlockput dp
      return -1
    else
      match ← dirlookup sb dp name with
      | none =>
        iunlockput dp
        return -1
      | some (ip, off) =>
        ilock ip
        let d := ((← get).icache ip).copy
        if d.nlink < 1 then throw "unlink: nlink < 1"
        else
          let removable ← (if d.type = tDir then isdirempty sb ip else pure true)
          if removable then unlinkEntry sb dp ip off
          else
            iunlockput ip
            iunlockput dp
            return -1

def sysMkdir (p : Fs.Proc) (path buf : CString) : Code Store Int := do
  match ← create sb p path tDir 0 0 buf with
  | none => return -1
  | some ip =>
    iunlockput ip
    return 0

def sysMknod (p : Fs.Proc) (path : CString) (major minor : Int) (buf : CString) : Code Store Int := do
  match ← create sb p path tDev major minor buf with
  | none => return -1
  | some ip =>
    iunlockput ip
    return 0

end Xv6.Files
