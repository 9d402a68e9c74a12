import PackedRecord.Layout.Compile
import PackedRecord.OrderedMap

/-!
# The layout cache

A cache keeps the layouts of formats that were compiled through it, up to a capacity.  There is no
order of eviction: when a new layout finds the cache full, the cache is emptied first.  A format
without a layout leaves no trace, and a cache of capacity zero keeps nothing.  The slots of all its
layouts are kept in one `Room`, the standard one unless it is given another.

A layout is handed out with the number under which it was compiled, so that two handles are the same
object exactly when their numbers agree.  Handles stay good whatever becomes of the cache.
-/

namespace PackedRecord

/-- A compiled layout, and the number of compilations before its own. -/
structure Handle where
  id : Nat
  layout : Layout
  deriving DecidableEq, Repr

structure LayoutCache where
  /-- Where the slots of the layouts are kept. -/
  room : Room
  capacity : Nat
  entries : OrderedMap Handle
  /-- How many layouts were compiled through the cache so far. -/
  compiled : Nat

namespace LayoutCache

/-- The capacity of a cache that is not given one. -/
def defaultCapacity : Nat := 100

/-- An empty cache that compiles within `room`. -/
def within (room : Room) (capacity : Nat) : LayoutCache := ⟨room, capacity, .empty, 0⟩

def withCapacity (capacity : Nat) : LayoutCache := within .standard capacity

def new : LayoutCache := withCapacity defaultCapacity

def size (c : LayoutCache) : Nat := c.entries.size

def isEmpty (c : LayoutCache) : Bool := c.entries.isEmpty

/-- The handle of a format, if it is kept. -/
def get? (c : LayoutCache) (format : String) : Option Handle := c.entries.get? format

def contains (c : LayoutCache) (format : String) : Bool := c.entries.contains format

def clear (c : LayoutCache) : LayoutCache := { c with entries := .empty }

/-- Keeps a handle, in an emptied cache if there is no place left. -/
def store (c : LayoutCache) (format : String) (handle : Handle) : LayoutCache :=
  if c.capacity = 0 then c
  else if c.capacity ≤ c.size then
    { c with entries := OrderedMap.empty.insert format handle }
  else { c with entries := c.entries.insert format handle }

/-- The handle of a format: the one that is kept, or a new one, which is kept from now on. -/
def getOrCompile (c : LayoutCache) (format : String) :
    Except FormatFault Handle × LayoutCache :=
  match c.get? format with
  | some handle => (.ok handle, c)
  | none =>
    match Layout.compileWithin c.room format with
    | .error fault => (.error fault, c)
    | .ok layout =>
      let handle : Handle := ⟨c.compiled, layout⟩
      (.ok handle, { c with compiled := c.compiled + 1 }.store format handle)

end LayoutCache

end PackedRecord
