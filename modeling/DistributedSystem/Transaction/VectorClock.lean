import DistributedSystem.Library.Search
import DistributedSystem.Transaction.Message
import Mathlib.Data.List.OfFn

/-!
# Vector clock operations

`updateMyVectorClock` of `helper.c` and `mergeVectorClock`, which `tmanager.c` and
`tworker.c` both define with the same body. Times are 32-bit words, so a tick wraps.
-/

namespace DistributedSystem.Transaction

open DistributedSystem.Library

/-- `updateMyVectorClock`: advance the entry of `port` and return its index, which is
    `MAX_NODES` when there is no such entry. -/
def updateMyVectorClock (port : NodeId) (vc : VClock) : ℕ × VClock :=
  match firstFin (fun i => (vc i).nodeId = port) with
  | some i => (i, Function.update vc i { vc i with time := ((vc i).time + 1) % 2 ^ 32 })
  | none => (maxNodes, vc)

/-- The clock after `updateMyVectorClock`. -/
def tick (port : NodeId) (vc : VClock) : VClock := (updateMyVectorClock port vc).2

/-- The inner loop of `mergeVectorClock` for one entry of the received clock. -/
def mergeEntry (mine : VClock) (c : Clock) : VClock :=
  match firstFin (fun j => c.nodeId = (mine j).nodeId ∨ (mine j).nodeId = 0) with
  | some j =>
      if c.nodeId = (mine j).nodeId then
        if c.time > (mine j).time then
          Function.update mine j { mine j with time := c.time }
        else mine
      else Function.update mine j c
  | none => mine

/-- The outer loop of `mergeVectorClock`, which stops at the first unused entry. -/
def mergeLoop (mine : VClock) : List Clock → VClock
  | [] => mine
  | c :: cs => if c.nodeId = 0 then mine else mergeLoop (mergeEntry mine c) cs

/-- `mergeVectorClock` -/
def mergeVectorClock (mine : VClock) (m : TxMessage) : VClock :=
  mergeLoop mine (List.ofFn m.vectorClock)

end DistributedSystem.Transaction
