import Talea.Core.Store

/-!
# What the log store takes from its libraries

Events reach the disk as JSON guarded by a CRC-32, and the Bloom filter hashes
keys with two seeds of the standard hasher.  None of these is the store's own
code, so they are parameters here, together with the one fact about them the
store relies on: parsing the JSON of an event returns that event.
-/

namespace Talea.Log

/-- Local mirror of a sequenced ledger event. -/
structure WireEvent where
  seq : Int
  at' : Int
  event : LedgerEvent
  deriving DecidableEq

structure Runtime where
  /-- `serde_json::to_vec` on a wire event. -/
  toVec : WireEvent → List UInt8
  /-- `serde_json::from_slice` at the type of wire events. -/
  fromSlice : List UInt8 → Option WireEvent
  /-- `crc32fast::hash`. -/
  crc32 : List UInt8 → UInt32
  /-- The default hasher under the first and the second Bloom seed. -/
  bloomHash1 : String → UInt64
  bloomHash2 : String → UInt64
  fromSlice_toVec : ∀ ev, fromSlice (toVec ev) = some ev

/-- The key a wire event commits and the answer that commit receives. -/
def WireEvent.committed (ev : WireEvent) : Option (String × Committed) :=
  ev.event.committedAs ev.seq ev.at'

end Talea.Log
