import PackedRecord.Cache
import PackedRecord.Packing
import PackedRecord.Unpacking
import PackedRecord.Datum.Flatten
import PackedRecord.Datum.Rebuild

/-!
# Working from a format at hand

Where there is only a format, its layout comes out of a cache.  Each operation answers with its
result and the cache afterwards; the result is the same whatever the cache held before.
-/

namespace PackedRecord.LayoutCache

/-- Runs an operation on the layout of a format. -/
def withLayout {α : Type} (c : LayoutCache) (format : String)
    (operation : Layout → Except Fault α) : Except Fault α × LayoutCache :=
  match c.getOrCompile format with
  | (.error fault, c) => (.error (.format fault), c)
  | (.ok handle, c) => (operation handle.layout, c)

/-- The size of the static region. -/
def calcSize (c : LayoutCache) (format : String) : Except Fault Nat × LayoutCache :=
  c.withLayout format fun l => .ok l.size

def packWith (c : LayoutCache) (format : String) (policy : Policy) (values : List Value) :
    Except Fault (Array UInt8) × LayoutCache :=
  c.withLayout format fun l => (l.packWith policy values).mapError .pack

def pack (c : LayoutCache) (format : String) (values : List Value) :
    Except Fault (Array UInt8) × LayoutCache :=
  c.packWith format .standard values

def unpack (c : LayoutCache) (format : String) (buffer : Array UInt8) :
    Except Fault (List Value) × LayoutCache :=
  c.withLayout format fun l => (l.unpack buffer).mapError .unpack

/-- Packs the leaves of a datum; a datum without leaves to pack does not reach the cache. -/
def packDatum (c : LayoutCache) (format : String) (d : Datum) :
    Except Fault (Array UInt8) × LayoutCache :=
  match d.flatten with
  | .error fault => (.error fault, c)
  | .ok values => c.pack format values

/-- Unpacks into a datum of a shape. -/
def unpackDatum (c : LayoutCache) (format : String) (s : Shape) (buffer : Array UInt8) :
    Except Fault Datum × LayoutCache :=
  match c.unpack format buffer with
  | (.error fault, c) => (.error fault, c)
  | (.ok values, c) => (s.ofValues values, c)

end PackedRecord.LayoutCache
