import Flowgraph.Decimal.Double

/-!
# The size of a cache

How much a store holds: the number of its results and the bytes of their files.
-/

namespace Flowgraph.Cache

/-- The number of entries and of their bytes. -/
structure Usage where
  entries : Int
  bytes : Int
deriving DecidableEq

/-- The size in words. -/
def Usage.text (u : Usage) : String :=
  s!"{u.entries} entries, {((Decimal.Double.ofInt u.bytes).divNat 1024).fixed 1} KiB"

end Flowgraph.Cache
