import OscHost.Schedule.Settings
import OscHost.Stream.Signal
import OscHost.Bytes

/-!
A pool of payload buffers in size classes. A class that runs low asks for more once, through its
`requested` flag and the pool's signal; housekeeping answers with a batch of refills, which the class
takes in when it next runs low.
-/

namespace OscHost

/-- Storage of a fixed size that holds no payload. What is left in it of an earlier one is not kept track of. -/
structure Block where
  size : Nat
  deriving DecidableEq, Repr, Inhabited

/-- A payload in storage of a possibly larger size. -/
structure Buffer where
  bytes : List UInt8
  capacity : Nat
  deriving DecidableEq, Repr, Inhabited

namespace Buffer

/-- A buffer outside of any pool, with no room to spare. -/
def ofBytes (bytes : List UInt8) : Buffer := ⟨bytes, bytes.length⟩

def length (b : Buffer) : Nat := b.bytes.length

def isEmpty (b : Buffer) : Bool := b.bytes.isEmpty

/-- Shorten the payload. It never becomes longer. -/
def truncate (b : Buffer) (length : Nat) : Buffer := { b with bytes := b.bytes.take length }

/-- Put bytes over the front of the payload, as far as they fit. -/
def fill (b : Buffer) (bytes : List UInt8) : Buffer :=
  { b with bytes := bytes.take b.length ++ b.bytes.drop bytes.length }

end Buffer

structure SizeClass where
  size : Nat
  free : List Block
  /-- How many free blocks the class keeps at most. -/
  limit : Nat
  /-- Blocks on their way from housekeeping, oldest first. A queue of a fixed capacity between two threads: they come
  out in the order in which they went in, and none gets lost. -/
  refills : List Block := []
  /-- How many refills may be on their way. -/
  refillLimit : Nat
  requested : Bool := false
  deriving DecidableEq, Repr, Inhabited

namespace SizeClass

def ofSize (size preallocate : Nat) : SizeClass :=
  { size
    free := List.replicate preallocate ⟨size⟩
    limit := preallocate + max preallocate 1
    refillLimit := max preallocate 1 }

/-- Take in refills as far as the free list has room. -/
def absorb (c : SizeClass) : SizeClass :=
  let count := c.limit - c.free.length
  { c with free := (c.refills.take count).reverse ++ c.free, refills := c.refills.drop count }

/-- Take a free block, looking for refills first if the class is low. -/
def take (c : SizeClass) (lowWatermark : Nat) : Option Block × SizeClass :=
  let c := if c.free.length ≤ lowWatermark then c.absorb else c
  match c.free with
  | [] => (none, c)
  | block :: free => (some block, { c with free })

/-- Take a block back. A full class drops it. -/
def give (c : SizeClass) (block : Block) : SizeClass :=
  if c.free.length < c.limit then { c with free := block :: c.free } else c

/-- Answer a standing request with up to `batch` refills. -/
def topUp (c : SizeClass) (batch : Nat) : Option Nat × SizeClass :=
  if c.requested then
    let count := min batch (c.refillLimit - c.refills.length)
    (some count,
      { c with requested := false, refills := c.refills ++ List.replicate count ⟨c.size⟩ })
  else
    (none, c)

end SizeClass

structure Pool where
  classes : List SizeClass
  maxPayload : Nat
  lowWatermark : Nat
  /-- Refills sent for one request. -/
  batch : Nat
  /-- Raised when a class starts to ask for more. -/
  signal : Signal := {}
  deriving DecidableEq, Repr, Inhabited

/-- Refills that were sent to one class. -/
structure TopUp where
  size : Nat
  count : Nat
  deriving DecidableEq, Repr

namespace Pool

def ofSettings (s : Settings) : Pool :=
  { classes := s.poolClasses.map fun size => SizeClass.ofSize size s.poolPreallocate
    maxPayload := s.maxPayload
    lowWatermark := s.poolLowWatermark
    batch := max (s.poolPreallocate - s.poolLowWatermark) 1 }

/-- Split the classes before the first that `p` holds of. -/
def splitAtFirst (p : SizeClass → Bool) (classes : List SizeClass) :
    List SizeClass × List SizeClass :=
  (classes.takeWhile (!p ·), classes.dropWhile (!p ·))

/-- A buffer with a payload of `length` bytes, from the first class that can hold it. Blocks hold no bytes, so the
payload is all zeros where a buffer that was used before would still show its old bytes. Whoever takes a buffer for
a payload given by value puts all of its bytes over them. -/
def alloc (pool : Pool) (length : Nat) : Option Buffer × Pool :=
  if pool.maxPayload < length then (none, pool)
  else
    match splitAtFirst (fun c => length ≤ c.size) pool.classes with
    | (_, []) => (none, pool)
    | (before, c :: after) =>
      let (block, c) := c.take pool.lowWatermark
      let starved := block.isNone || c.free.length < pool.lowWatermark
      let signal := if starved && !c.requested then pool.signal.notify.2 else pool.signal
      let c := { c with requested := c.requested || starved }
      (block.map fun block => ⟨zeros length, block.size⟩,
        { pool with classes := before ++ c :: after, signal })

/-- Take a buffer back into the first class of its size. One that fits no class is dropped. -/
def release (pool : Pool) (buffer : Buffer) : Pool :=
  match splitAtFirst (fun c => c.size == buffer.capacity) pool.classes with
  | (_, []) => pool
  | (before, c :: after) =>
    { pool with classes := before ++ c.give ⟨buffer.capacity⟩ :: after }

def releaseAll (pool : Pool) (buffers : List Buffer) : Pool := buffers.foldl release pool

/-- Free buffers in the class that would serve a payload of this length. -/
def available (pool : Pool) (length : Nat) : Nat :=
  match pool.classes.find? fun c => length ≤ c.size with
  | some c => c.free.length
  | none => 0

def hasRequests (pool : Pool) : Bool := pool.classes.any (·.requested)

def topUp (pool : Pool) : List TopUp × Pool :=
  let answered := pool.classes.map fun c => (c.topUp pool.batch, c.size)
  (answered.filterMap fun ((count, _), size) => count.map fun count => ⟨size, count⟩,
    { pool with classes := answered.map fun ((_, c), _) => c })

def shipped (sent : List TopUp) : Nat := total (sent.map (·.count))

def notify (pool : Pool) : Bool × Pool :=
  let (sent, signal) := pool.signal.notify
  (sent, { pool with signal })

def acknowledge (pool : Pool) : Pool := { pool with signal := pool.signal.acknowledge }

def takeWake (pool : Pool) : Bool × Pool :=
  let (woken, signal) := pool.signal.takeWake
  (woken, { pool with signal })

end Pool

end OscHost
