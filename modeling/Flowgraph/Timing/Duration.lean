import Flowgraph.Decimal.Double

/-!
# Durations

A duration is a number of nanoseconds in 64 bits, and shown in milliseconds.
-/

namespace Flowgraph

/-- A duration in nanoseconds; sums wrap around. -/
abbrev Duration := Int64

def Duration.millis (d : Duration) : Decimal.Double :=
  (Decimal.Double.ofInt d.toInt).divNat 1000000

end Flowgraph
