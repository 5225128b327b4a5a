import StreamGraph.Collective
import StreamGraph.Dataset

/-!
Sharing a data set out. The coordinator announces the bound and the newest timestamps, and hands
every rank its share of each batch. A coordinator without a data set announces the bound zero,
which lets all ranks fail together.
-/

namespace StreamGraph.Dataset

def announceTag : Tag := 0x0100

def shareTag : Tag := 0x0110

/-- Hands out the shares of the batches from `index` on, `count` of them. -/
def scatterBatches (member : Member) (dataset : Option Dataset) :
    (count index : Nat) → Collective (List (List Edge))
  | 0, _ => return []
  | count + 1, index => do
      let outgoing ← match dataset with
        | none => pure []
        | some dataset => do
            let batch ← ExceptT.mk (pure (dataset.batch index))
            pure (shares member.size batch.edges)
      let mine ← Collective.scatter shareTag 0 outgoing
      let others ← scatterBatches member dataset count (index + 1)
      return mine :: others

/-- Shares the coordinator's data set out; what the other ranks pass is ignored. -/
def distribute (member : Member) (passed : Option Dataset) (count : Nat) :
    Collective Dataset := do
  let dataset := if member.isCoordinator then passed else none
  let bound ← Collective.broadcastOne announceTag 0 ((dataset.map Dataset.bound).getD 0)
  if bound = 0 then
    throw (.layout .noDataset)
  let stamps ← Collective.broadcast (announceTag.offset 1) 0
    ((dataset.map fun dataset => dataset.batches.map Batch.newest).getD [])
  if stamps.length ≠ count then
    throw (.layout (.batches stamps.length count))
  let pieces ← scatterBatches member dataset count 0
  ExceptT.mk (pure (ofShares pieces stamps bound))

end StreamGraph.Dataset
