import Xv6.Lib.Ring
import Xv6.Lib.Transition
import Xv6.Params

/-! The disk driver `virtio_disk.c` with the device on the other side of its two rings. A process
and the interrupt handler hold `vdisk_lock` while they run; the device works at any moment. -/
namespace Xv6.Virtio
open Function RingBuffer

abbrev num : ℕ := 8

instance neZeroNum : NeZero num := ⟨by decide⟩

abbrev descNext : ℕ := 1

abbrev descWrite : ℕ := 2

/-- What the driver puts in the field `addr`. -/
inductive Addr (B : Type) where
  | null
  | ops (i : ℕ)
  | data (b : B)
  | status (i : ℕ)
  deriving DecidableEq

structure Desc (B : Type) where
  addr : Addr B
  len : ℕ
  flags : ℕ
  next : ℕ
  deriving DecidableEq

structure BlkReq where
  type : ℕ
  reserved : ℕ
  sector : ℕ
  deriving DecidableEq

structure Info (B : Type) where
  b : Option B
  status : ℕ

inductive Panic where
  | freeDesc1
  | freeDesc2
  | intrStatus
  /-- a trap on `b->disk` with a null `b` -/
  | nullBuf
  deriving DecidableEq

/-- The variable `disk`. In the ring `avail` the tail is `avail->idx`, and the head is the index up
to which the device has read. In the ring `used` the tail is `used->idx` and the head
`used_idx`. -/
structure Disk (B : Type) where
  desc : ℕ → Desc B
  avail : Ring ℕ num 16
  used : Ring ℕ num 16
  free : ℕ → Bool
  info : ℕ → Info B
  ops : ℕ → BlkReq

structure Req (B : Type) where
  b : B
  sector : ℕ
  write : Bool
  deriving DecidableEq

namespace Disk
variable {B : Type}

@[simps -fullyApplied, grind] def setFree (d : Disk B) (i : ℕ) (x : Bool) : Disk B :=
  { d with free := update d.free i x }

@[simps -fullyApplied, grind] def setDesc (d : Disk B) (i : ℕ) (x : Desc B) : Disk B :=
  { d with desc := update d.desc i x }

@[simps -fullyApplied, grind] def setInfo (d : Disk B) (i : ℕ) (x : Info B) : Disk B :=
  { d with info := update d.info i x }

@[simps -fullyApplied, grind] def setOps (d : Disk B) (i : ℕ) (x : BlkReq) : Disk B :=
  { d with ops := update d.ops i x }

@[simps -fullyApplied, grind] def setAvail (d : Disk B) (r : Ring ℕ num 16) : Disk B :=
  { d with avail := r }

@[simps -fullyApplied, grind]
def setUsed (d : Disk B) (r : Ring ℕ num 16) : Disk B := { d with used := r }

def allocDesc (d : Disk B) : Option (ℕ × Disk B) :=
  ((List.range num).find? d.free).map fun i => (i, d.setFree i false)

def freeDesc (d : Disk B) (i : ℕ) : Except Panic (Disk B) :=
  if num ≤ i then .error .freeDesc1
  else if d.free i then .error .freeDesc2
  else .ok ((d.setDesc i ⟨.null, 0, 0, 0⟩).setFree i true)

/-- The loop of `free_chain`; `none` when the bound on the rounds is too small. -/
@[grind] def freeChain : ℕ → Disk B → ℕ → Option (Except Panic (Disk B))
  | 0, _, _ => none
  | fuel + 1, d, i =>
    match d.freeDesc i with
    | .error e => some (.error e)
    | .ok d' =>
      if (d.desc i).flags &&& descNext ≠ 0 then freeChain fuel d' (d.desc i).next else some (.ok d')

/-- The loop of `alloc3_desc`, with the descriptors in `idx` and `n` more to find. -/
@[grind] def alloc3Loop : ℕ → List ℕ → Disk B → Except Panic (Disk B × Option (List ℕ))
  | 0, idx, d => .ok (d, some idx)
  | n + 1, idx, d =>
    match d.allocDesc with
    | some (i, d') => alloc3Loop n (idx ++ [i]) d'
    | none => (idx.foldlM freeDesc d).map fun d' => (d', none)

def alloc3Desc (d : Disk B) : Except Panic (Disk B × Option (List ℕ)) := alloc3Loop 3 [] d

/-- The descriptors of a request, up to the entry of the avail ring. -/
def format (d : Disk B) (r : Req B) (i j k : ℕ) : Disk B :=
  let d := d.setOps i ⟨if r.write then 1 else 0, 0, r.sector⟩
  let d := d.setDesc i ⟨.ops i, 16, descNext, j⟩
  let d := d.setDesc j ⟨.data r.b, bsize, (if r.write then 0 else descWrite) ||| descNext, k⟩
  let d := d.setDesc k ⟨.status i, 1, descWrite, 0⟩
  let d := d.setInfo i ⟨some r.b, 0xff⟩
  d.setAvail (d.avail.store i)

/-- The device follows a chain to its end and writes 0 to the address there. -/
@[grind] def writeStatus (d : Disk B) (i : ℕ) : Disk B :=
  match (d.desc (d.desc (d.desc i).next).next).addr with
  | .status j => d.setInfo j { d.info j with status := 0 }
  | _ => d

end Disk

inductive Stage where
  | format
  /-- before `disk.avail->idx += 1` -/
  | publish
  | check
  | sleep
  deriving DecidableEq

inductive Pos (B : Type) where
  | idle
  | alloc (r : Req B)
  /-- in `sleep(&disk.free[0], ..)` -/
  | allocSleep (r : Req B)
  | owns (st : Stage) (r : Req B) (idx : List ℕ)
  deriving DecidableEq

inductive Holder (P : Type) where
  | proc (p : P)
  | intr
  deriving DecidableEq

/-- `bufDisk b` is `b->disk`, and `holder b` has the sleep lock of `b`. The device has read the
chains in `work` and not completed them. The field `completed` records history: whether the device
has completed the chain that begins with a descriptor since it was submitted. -/
structure State (P B : Type) where
  disk : Disk B
  bufDisk : B → Bool
  holder : B → Option P
  lock : Option (Holder P)
  pos : P → Pos B
  work : List ℕ
  completed : ℕ → Bool
  panic : Option Panic

/-- The last three actions are the device's or the handler's. -/
inductive Act (P B : Type) where
  | bget (p : P) (b : B)
  | brelse (p : P) (b : B)
  /-- a call of `virtio_disk_rw` from `bread` or `bwrite` -/
  | rw (p : P) (b : B) (blockno : ℕ) (write : Bool)
  | go (p : P)
  /-- `sleep` returns with the lock -/
  | wake (p : P)
  | intr
  /-- one round of the loop of `virtio_disk_intr` -/
  | intrLoop
  | consume
  | complete (i : ℕ)

namespace State
variable {P B : Type}

@[simps -fullyApplied, grind]
def setDisk (s : State P B) (d : Disk B) : State P B := { s with disk := d }

@[simps -fullyApplied, grind] def setLock (s : State P B) (l : Option (Holder P)) : State P B :=
  { s with lock := l }

@[simps -fullyApplied, grind] def setPanic (s : State P B) (e : Panic) : State P B :=
  { s with panic := some e }

variable [DecidableEq P] [DecidableEq B]

@[simps -fullyApplied, grind] def setPos (s : State P B) (p : P) (x : Pos B) : State P B :=
  { s with pos := update s.pos p x }

@[simps -fullyApplied, grind] def setBufDisk (s : State P B) (b : B) (x : Bool) : State P B :=
  { s with bufDisk := update s.bufDisk b x }

@[simps -fullyApplied, grind] def setHolder (s : State P B) (b : B) (x : Option P) : State P B :=
  { s with holder := update s.holder b x }

def init : State P B where
  disk :=
    { desc := fun _ => ⟨.null, 0, 0, 0⟩
      avail := ⟨fun _ => 0, 0, 0⟩
      used := ⟨fun _ => 0, 0, 0⟩
      free := fun i => i < num
      info := fun _ => ⟨none, 0⟩
      ops := fun _ => ⟨0, 0, 0⟩ }
  bufDisk := fun _ => false
  holder := fun _ => none
  lock := none
  pos := fun _ => .idle
  work := []
  completed := fun _ => false
  panic := none

/-- A process that holds the lock goes on in `virtio_disk_rw`. -/
def go (s : State P B) (p : P) : Option (State P B) :=
  match s.pos p with
  | .alloc r =>
    match s.disk.alloc3Desc with
    | .error e => some (s.setPanic e)
    | .ok (d, none) => some (((s.setDisk d).setPos p (.allocSleep r)).setLock none)
    | .ok (d, some idx) => some ((s.setDisk d).setPos p (.owns .format r idx))
  | .owns .format r [i, j, k] =>
    some (((s.setDisk (s.disk.format r i j k)).setBufDisk r.b true).setPos p
      (.owns .publish r [i, j, k]))
  | .owns .publish r (i :: idx) =>
    some { (s.setDisk (s.disk.setAvail s.disk.avail.advance)).setPos p
      (.owns .check r (i :: idx)) with completed := update s.completed i false }
  | .owns .check r (i :: idx) =>
    if s.bufDisk r.b then some ((s.setPos p (.owns .sleep r (i :: idx))).setLock none)
    else
      match (s.disk.setInfo i { s.disk.info i with b := none }).freeChain num i with
      | none => none
      | some (.error e) => some (s.setPanic e)
      | some (.ok d) => some (((s.setDisk d).setPos p .idle).setLock none)
  | _ => none

@[grind] def intrLoop (s : State P B) : State P B :=
  if s.disk.used.Empty then s.setLock none
  else if (s.disk.info s.disk.used.front).status ≠ 0 then s.setPanic .intrStatus
  else
    match (s.disk.info s.disk.used.front).b with
    | none => s.setPanic .nullBuf
    | some b => (s.setDisk (s.disk.setUsed s.disk.used.pop)).setBufDisk b false

/-- The callers of `virtio_disk_rw` hold the sleep lock of the buffer: `bread` has it from `bget`,
and `bwrite` tests it. A sleeping process may be woken at any moment. -/
def next (s : State P B) (a : Act P B) : Option (State P B) :=
  if s.panic ≠ none then none
  else match a with
  | .bget p b =>
    if s.pos p = .idle ∧ s.holder b = none then some (s.setHolder b (some p)) else none
  | .brelse p b =>
    if s.pos p = .idle ∧ s.holder b = some p then some (s.setHolder b none) else none
  | .rw p b blockno write =>
    if s.pos p = .idle ∧ s.holder b = some p ∧ s.lock = none then
      some ((s.setPos p (.alloc ⟨b, blockno * (bsize / 512) % 2 ^ 32, write⟩)).setLock
        (some (.proc p)))
    else none
  | .go p => if s.lock = some (.proc p) then s.go p else none
  | .wake p =>
    if s.lock = none then
      match s.pos p with
      | .allocSleep r => some ((s.setPos p (.alloc r)).setLock (some (.proc p)))
      | .owns .sleep r idx => some ((s.setPos p (.owns .check r idx)).setLock (some (.proc p)))
      | _ => none
    else none
  | .intr => if s.lock = none then some (s.setLock (some .intr)) else none
  | .intrLoop => if s.lock = some .intr then some s.intrLoop else none
  | .consume =>
    if s.disk.avail.Empty then none
    else some { s.setDisk (s.disk.setAvail s.disk.avail.pop) with
      work := s.work ++ [s.disk.avail.front] }
  | .complete i =>
    if i ∈ s.work then
      some { s.setDisk ((s.disk.writeStatus i).setUsed (s.disk.used.push i)) with
        work := s.work.erase i
        completed := update s.completed i true }
    else none

end State
end Xv6.Virtio
