import Xv6.Block
import Xv6.Lib.Writes

/-! The write-ahead log of `log.c`: commit and recovery over a disk and the blocks cached in
memory. Every `bwrite` is recorded, so that a crash is a prefix of the recorded writes. -/
namespace Xv6.Log
open Writes

/-- `log.start` and `log.size`. Block `start` is the header, the rest hold logged data. -/
structure LogArea where
  start : ℕ
  size : ℕ
  pos : 0 < size

def LogArea.Contains (g : LogArea) (b : ℕ) : Prop := g.start ≤ b ∧ b < g.start + g.size

instance (g : LogArea) (b : ℕ) : Decidable (g.Contains b) := by
  unfold LogArea.Contains
  infer_instance

/-- The disk, the valid cached buffers, and the block writes issued since boot. A block that is
not cached is read from the disk; the device performs the writes in this order. -/
structure Machine where
  disk : Disk
  cache : ℕ → Option Block
  writes : List (ℕ × Block)

def boot (d : Disk) : Machine := ⟨d, fun _ => none, []⟩

def bread (m : Machine) (b : ℕ) : Block := (m.cache b).getD (m.disk b)

def setData (m : Machine) (b : ℕ) (v : Block) : Machine :=
  { m with cache := Function.update m.cache b (some v) }

def bwrite (m : Machine) (b : ℕ) : Machine :=
  { m with
    disk := Function.update m.disk b (bread m b)
    writes := m.writes ++ [(b, bread m b)] }

/-- The entries `log.lh.block[0 .. log.lh.n)`. -/
abbrev Logheader := List ℕ

/-- The loop bound a header block gives: `lh->n` is a signed `int`. -/
def headCount (h : Block) : ℕ := if h.word 0 < 2 ^ 31 then h.word 0 else 0

def headBlocks (h : Block) : Logheader := (List.range (headCount h)).map fun i => h.word (i + 1)

/-- The header block after `hb->n = log.lh.n` and the copying loop of `write_head`; entries past
the new count keep their old contents. -/
def fillHead : Logheader → ℕ → Block → Block
  | [], _, h => h
  | b :: lh, i, h => fillHead lh (i + 1) (h.setWord (i + 1) b)

def headBlock (lh : Logheader) (h : Block) : Block := fillHead lh 0 (h.setWord 0 lh.length)

def readHead (g : LogArea) (m : Machine) : Logheader := headBlocks (bread m g.start)

def writeHead (g : LogArea) (lh : Logheader) (m : Machine) : Machine :=
  bwrite (setData m g.start (headBlock lh (bread m g.start))) g.start

/-- The loop of `write_log` from index `tail` on: cache block to log block. -/
def writeLogFrom (g : LogArea) : ℕ → Logheader → Machine → Machine
  | _, [], m => m
  | tail, b :: lh, m =>
    let logBlock := g.start + tail + 1
    writeLogFrom g (tail + 1) lh (bwrite (setData m logBlock (bread m b)) logBlock)

def writeLog (g : LogArea) (lh : Logheader) (m : Machine) : Machine := writeLogFrom g 0 lh m

/-- The loop of `install_trans` from index `tail` on: log block to home location. -/
def installFrom (g : LogArea) : ℕ → Logheader → Machine → Machine
  | _, [], m => m
  | tail, b :: lh, m =>
    installFrom g (tail + 1) lh (bwrite (setData m b (bread m (g.start + tail + 1))) b)

def installTrans (g : LogArea) (lh : Logheader) (m : Machine) : Machine := installFrom g 0 lh m

def commit (g : LogArea) (lh : Logheader) (m : Machine) : Machine :=
  if lh.length > 0 then
    writeHead g [] (installTrans g lh (writeHead g lh (writeLog g lh m)))
  else m

def recoverFromLog (g : LogArea) (m : Machine) : Machine :=
  writeHead g [] (installTrans g (readHead g m) m)

/-- The disk a crash leaves when `k` of the writes recorded by `m` reached `d`. -/
def crashDisk (d : Disk) (m : Machine) (k : ℕ) : Disk := applyWrites d (m.writes.take k)

/-- Boot from `d` and run recovery; each number of `ks` is a boot whose recovery is cut after
that many block writes, the last boot completes. -/
def recoverAfter (g : LogArea) : List ℕ → Disk → Machine
  | [], d => recoverFromLog g (boot d)
  | k :: ks, d => recoverAfter g ks (crashDisk d (recoverFromLog g (boot d)) k)

end Xv6.Log
