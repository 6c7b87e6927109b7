import Epox.Foundation.Family
import Mathlib.Data.Option.Basic

/-!
# The intrusive queue of `queue.rs`

Queue heads and queue entries live in one heap and are linked by raw pointers.  An address `Loc` is
either the head of a queue or the entry embedded in an element, and a pointer is an optional address,
`none` being the null pointer.  The head of a queue is never freed or moved while the queue is in use,
so heads and entries are the only addresses there are.

Following a null pointer is undefined behaviour in the source; here it makes the operation fail
(`none` of the outer `Option`).  Reference counts are not part of this file.
-/

namespace Epox

universe u

/-- The address of a queue entry: the `head` of a queue or the `queue_entry` of an element. -/
inductive Loc (Q E : Type u)
  | head (q : Q)
  | entry (e : E)
  deriving DecidableEq

/-- `struct QueueEntry`. -/
structure QueueEntry (Q E : Type u) where
  prev : Option (Loc Q E)
  next : Option (Loc Q E)

/-- `QueueEntry::new`: an entry that is not queued. -/
def QueueEntry.new {Q E : Type u} : QueueEntry Q E where
  prev := none
  next := none

/-- The memory that holds all heads and entries. -/
abbrev Heap (Q E : Type u) := Loc Q E → QueueEntry Q E

namespace Heap

variable {Q E : Type u} [DecidableEq Q] [DecidableEq E]

/-- Overwrite the `prev` field at an address. -/
def writePrev (m : Heap Q E) (x : Loc Q E) (v : Option (Loc Q E)) : Heap Q E :=
  Function.update m x { m x with prev := v }

/-- Overwrite the `next` field at an address. -/
def writeNext (m : Heap Q E) (x : Loc Q E) (v : Option (Loc Q E)) : Heap Q E :=
  Function.update m x { m x with next := v }

@[simp] lemma prev_writePrev (m : Heap Q E) (x y : Loc Q E) (v : Option (Loc Q E)) :
    (m.writePrev x v y).prev = if y = x then v else (m y).prev := by
  by_cases h : y = x <;> simp [writePrev, h]

@[simp] lemma next_writePrev (m : Heap Q E) (x y : Loc Q E) (v : Option (Loc Q E)) :
    (m.writePrev x v y).next = (m y).next := by
  by_cases h : y = x <;> simp [writePrev, h]

@[simp] lemma prev_writeNext (m : Heap Q E) (x y : Loc Q E) (v : Option (Loc Q E)) :
    (m.writeNext x v y).prev = (m y).prev := by
  by_cases h : y = x <;> simp [writeNext, h]

@[simp] lemma next_writeNext (m : Heap Q E) (x y : Loc Q E) (v : Option (Loc Q E)) :
    (m.writeNext x v y).next = if y = x then v else (m y).next := by
  by_cases h : y = x <;> simp [writeNext, h]

/-- `(*p).prev = v`. -/
def setPrev (m : Heap Q E) (p v : Option (Loc Q E)) : Option (Heap Q E) :=
  p.map fun x => m.writePrev x v

/-- `(*p).next = v`. -/
def setNext (m : Heap Q E) (p v : Option (Loc Q E)) : Option (Heap Q E) :=
  p.map fun x => m.writeNext x v

/-- `Queue::init`. -/
def init (m : Heap Q E) (q : Q) : Heap Q E :=
  Function.update m (.head q) { prev := some (.head q), next := some (.head q) }

/-- `QueueEntry::is_queued`. -/
def isQueued (m : Heap Q E) (x : Loc Q E) : Bool :=
  (m x).prev.isSome

/-- `QueueEntry::unqueue`. -/
def unqueue (m : Heap Q E) (x : Loc Q E) : Option (Heap Q E) :=
  if !isQueued m x then
    some m
  else do
    let m ← setNext m (m x).prev (m x).next
    let m ← setPrev m (m x).next (m x).prev
    setPrev m (some x) none

/-- `Queue::push`. -/
def push (m : Heap Q E) (q : Q) (e : E) : Option (Heap Q E) := do
  let m ← unqueue m (.entry e)
  let m ← setNext m (some (.entry e)) (m (.head q)).next
  let m ← setPrev m (some (.entry e)) (some (.head q))
  let m ← setPrev m (m (.head q)).next (some (.entry e))
  setNext m (some (.head q)) (some (.entry e))

/-- `Queue::is_empty`. -/
def isEmpty (m : Heap Q E) (q : Q) : Bool :=
  (m (.head q)).prev = some (.head q)

/-- `Queueable::from_entry`: the element an entry is embedded in.  Applied to the head of a queue the
pointer arithmetic of the source leaves every object. -/
def fromEntry : Loc Q E → Option E
  | .head _ => none
  | .entry e => some e

/-- `Queue::pop`. -/
def pop (m : Heap Q E) (q : Q) : Option (Option E × Heap Q E) :=
  if isEmpty m q then
    some (none, m)
  else do
    let entry ← (m (.head q)).prev
    let m ← unqueue m entry
    let e ← fromEntry entry
    some (some e, m)

/-- `Queue::release`; the queue it is called on plays no role. -/
def release (m : Heap Q E) (e : E) : Option (Heap Q E) :=
  unqueue m (.entry e)

/-- The heap before any operation: every head has been through `Queue::init` and every entry is a
fresh `QueueEntry::new`. -/
def initialised : Heap Q E
  | .head q => init (fun _ => QueueEntry.new) q (.head q)
  | .entry _ => QueueEntry.new

end Heap

end Epox
