/-!
# Byte strings

Names and texts in graphs are byte strings, since files may hold any bytes. They are compared byte
by byte.
-/

namespace Flowgraph

/-- Two byte strings are equal if their bytes are. -/
instance (priority := 2000) decidableEqBytes : DecidableEq ByteArray := ByteArray.instDecidableEq

end Flowgraph
