import Xv6.Params
import Xv6.Lib.Word
import Xv6.Lib.Writes

/-! # The redo log of `log.c`: commit and recovery

The disk is a map from block numbers to byte blocks. The buffer cache is the map of
its valid buffers: `bread` hands out the cached copy when there is one, and keeping a
block that was only read never changes what a later `bread` returns, so reads leave
the state alone. Every `bwrite` is recorded, in order: a crash keeps the disk after
some prefix of these writes and loses everything else.
-/

namespace Xv6.Log

open Lib

abbrev Block := Bytes

structure LogHeader where
  n : Int
  block : Nat → Nat

/-- `log.start` and `log.size`. The first block of the log area is the header, which has
room for `LOGSIZE` block numbers. -/
structure Geometry where
  start : Nat
  size : Nat
  size_pos : 0 < size
  size_le : size ≤ logSize + 1

/-- The part of the kernel that `log.c` works on, with the disk writes made so far. -/
structure LogState where
  disk : Nat → Block
  cache : Nat → Option Block
  lh : LogHeader
  writes : List (Nat × Block)

/-- `bread`: the content of a block as the kernel sees it. -/
def LogState.bread (s : LogState) (b : Nat) : Block :=
  (s.cache b).getD (s.disk b)

def LogState.bwrite (s : LogState) (b : Nat) (data : Block) : LogState :=
  { s with
    disk := Function.update s.disk b data
    cache := Function.update s.cache b (some data)
    writes := s.writes ++ [(b, data)] }

/-! ## The header block -/

def headerN (b : Block) : Int := toInt32 (b.word 0)

def headerBlock (b : Block) (i : Nat) : Nat := b.word (4 + 4 * i)

/-- The loop of `write_head` over the buffer of the header block. -/
def encodeHead (buf : Block) (lh : LogHeader) : Block :=
  (List.range lh.n.toNat).foldl (fun hb i => hb.setWord (4 + 4 * i) (lh.block i))
    (buf.setWord 0 (ofInt32 lh.n))

/-! ## `log.c` -/

def installTrans (g : Geometry) (s : LogState) : LogState :=
  (List.range s.lh.n.toNat).foldl
    (fun s tail => s.bwrite (s.lh.block tail) (s.bread (g.start + tail + 1))) s

def readHead (g : Geometry) (s : LogState) : LogState :=
  let buf := s.bread g.start
  { s with lh :=
      { n := headerN buf
        block := fun i => if (i : Int) < headerN buf then headerBlock buf i else s.lh.block i } }

def writeHead (g : Geometry) (s : LogState) : LogState :=
  s.bwrite g.start (encodeHead (s.bread g.start) s.lh)

def clearHead (s : LogState) : LogState :=
  { s with lh := { s.lh with n := 0 } }

def recoverFromLog (g : Geometry) (s : LogState) : LogState :=
  writeHead g (clearHead (installTrans g (readHead g s)))

def writeLog (g : Geometry) (s : LogState) : LogState :=
  (List.range s.lh.n.toNat).foldl
    (fun s tail => s.bwrite (g.start + tail + 1) (s.bread (s.lh.block tail))) s

def commit (g : Geometry) (s : LogState) : LogState :=
  if s.lh.n > 0 then
    writeHead g (clearHead (installTrans g (writeHead g (writeLog g s))))
  else s

/-! ## Crashes -/

/-- The kernel at boot: only the disk survives, memory is zero. -/
def booted (d : Nat → Block) : LogState where
  disk := d
  cache := fun _ => none
  lh := ⟨0, fun _ => 0⟩
  writes := []

/-- The disk after the first `k` of a list of writes. -/
def crashAfter (k : Nat) (ws : List (Nat × Block)) (d : Nat → Block) : Nat → Block :=
  applyWrites (ws.take k) d

/-- The writes of one recovery from disk `d`. -/
def recoveryWrites (g : Geometry) (d : Nat → Block) : List (Nat × Block) :=
  (recoverFromLog g (booted d)).writes

/-- Recoveries that crash, each after the given number of its own writes. -/
def crashedRecoveries (g : Geometry) (d : Nat → Block) (ks : List Nat) : Nat → Block :=
  ks.foldl (fun d k => crashAfter k (recoveryWrites g d) d) d

/-- The disk after a recovery that runs to its end. -/
def recovered (g : Geometry) (d : Nat → Block) : Nat → Block :=
  (recoverFromLog g (booted d)).disk

/-! ## Transactions -/

/-- The blocks of one transaction with their new contents: distinct `uint` block numbers
outside the log area, at most `log.size - 1` of them. -/
structure Transaction (g : Geometry) where
  blocks : List (Nat × Block)
  length_le : blocks.length ≤ g.size - 1
  nodup : (blocks.map Prod.fst).Nodup
  home : ∀ w ∈ blocks, w.1 < g.start ∨ g.start + g.size ≤ w.1
  isUint : ∀ w ∈ blocks, w.1 < uintMod

/-- The kernel as `commit()` finds it: `log.lh` lists the blocks of the transaction and
their new contents are pinned in the cache. -/
structure Pending (g : Geometry) (tx : Transaction g) (s : LogState) : Prop where
  n_eq : s.lh.n = tx.blocks.length
  block_eq : ∀ i w, tx.blocks[i]? = some w → s.lh.block i = w.1
  pinned : ∀ w ∈ tx.blocks, s.cache w.1 = some w.2
  writes_eq : s.writes = []

/-- A kernel about to commit `tx` over the disk `d`. -/
def pendingState {g : Geometry} (tx : Transaction g) (d : Nat → Block) : LogState where
  disk := d
  cache := fun b => tx.blocks.lookup b
  lh := ⟨tx.blocks.length, fun i => (tx.blocks[i]?.map Prod.fst).getD 0⟩
  writes := []

/-- Two disks hold the same content in every block outside the log area. -/
def HomeEq (g : Geometry) (d e : Nat → Block) : Prop :=
  ∀ b, b < g.start ∨ g.start + g.size ≤ b → d b = e b

end Xv6.Log
