import BcosSync.Protocol.Types
import Mathlib.Tactic.SplitIfs
import Mathlib.Data.List.Dedup

/-!
# The sync config

`BlockSyncConfig` with the operations that write the chain heights.  Group
membership and connectivity come from the framework's base class; they are
membership tests on key data.
-/

namespace BcosSync

structure BlockSyncConfig where
  nodeID : PublicPtr
  genesisHash : HashType := HashType.zero
  blockNumber : ℤ := 0
  nextBlock : ℤ := 0
  executedBlock : ℤ := 0
  hash : HashType := HashType.zero
  knownHighestNumber : ℤ := 0
  knownLatestHash : HashType := HashType.zero
  maxDownloadingBlockQueueSize : ℕ := 256
  maxDownloadRequestQueueSize : ℕ := 1000
  maxRequestBlocks : ℕ := 8
  maxShardPerPeer : ℕ := 2
  committedProposalNumber : ℤ := 0
  consensusNodeList : List PublicPtr := []
  observerNodeList : List PublicPtr := []
  connectedNodeList : List PublicPtr := []

namespace BlockSyncConfig

def setKnownLatestHash (hash : HashType) (c : BlockSyncConfig) :
    BlockSyncConfig :=
  { c with knownLatestHash := hash }

def setKnownHighestNumber (number : ℤ) (c : BlockSyncConfig) :
    BlockSyncConfig :=
  { c with knownHighestNumber := number }

def setGenesisHash (hash : HashType) (c : BlockSyncConfig) : BlockSyncConfig :=
  let c := { c with genesisHash := hash }
  if c.knownLatestHash = HashType.zero then c.setKnownLatestHash hash else c

def setExecutedBlock (executedBlock : ℤ) (c : BlockSyncConfig) :
    BlockSyncConfig :=
  if c.blockNumber ≤ executedBlock then
    { c with executedBlock := executedBlock }
  else c

def resetBlockInfo (blockNumber : ℤ) (hash : HashType)
    (c : BlockSyncConfig) : BlockSyncConfig :=
  let c := { c with blockNumber := blockNumber, hash := hash,
                    nextBlock := blockNumber + 1 }
  let c :=
    if c.knownHighestNumber < blockNumber then
      (c.setKnownHighestNumber blockNumber).setKnownLatestHash hash
    else c
  if c.executedBlock < blockNumber then
    { c with executedBlock := blockNumber }
  else c

/-- The early return of `resetConfig`. -/
def ignores (c : BlockSyncConfig) (ledgerConfig : LedgerConfig) : Prop :=
  ledgerConfig.blockNumber ≤ c.blockNumber ∧ 0 < c.blockNumber

instance (c : BlockSyncConfig) (ledgerConfig : LedgerConfig) :
    Decidable (c.ignores ledgerConfig) :=
  inferInstanceAs (Decidable (_ ∧ _))

/-- `resetConfig` without the notification of the consensus module. -/
def resetConfig (ledgerConfig : LedgerConfig) (c : BlockSyncConfig) :
    BlockSyncConfig :=
  if c.ignores ledgerConfig then c
  else
    { c.resetBlockInfo ledgerConfig.blockNumber ledgerConfig.hash with
      consensusNodeList := ledgerConfig.consensusNodeList
      observerNodeList := ledgerConfig.observerNodeList }

/-- All nodes of the group, each key once. -/
def groupNodeList (c : BlockSyncConfig) : List PublicPtr :=
  (c.consensusNodeList ++ c.observerNodeList).pwFilter
    fun a b => a.data ≠ b.data

def existsInGroup (c : BlockSyncConfig) (node : PublicPtr) : Bool :=
  (c.consensusNodeList ++ c.observerNodeList).any
    fun member => member.data == node.data

def connected (c : BlockSyncConfig) (node : PublicPtr) : Bool :=
  c.connectedNodeList.any fun peer => peer.data == node.data

/-! ## What the height operations do -/

theorem setExecutedBlock_blockNumber (n : ℤ) (c : BlockSyncConfig) :
    (c.setExecutedBlock n).blockNumber = c.blockNumber := by
  unfold setExecutedBlock
  split <;> rfl

theorem setExecutedBlock_nextBlock (n : ℤ) (c : BlockSyncConfig) :
    (c.setExecutedBlock n).nextBlock = c.nextBlock := by
  unfold setExecutedBlock
  split <;> rfl

theorem setExecutedBlock_executedBlock
    (n : ℤ) (c : BlockSyncConfig) :
    (c.setExecutedBlock n).executedBlock =
      if c.blockNumber ≤ n then n else c.executedBlock := by
  unfold setExecutedBlock
  split <;> rfl

theorem setExecutedBlock_knownHighestNumber
    (n : ℤ) (c : BlockSyncConfig) :
    (c.setExecutedBlock n).knownHighestNumber = c.knownHighestNumber := by
  unfold setExecutedBlock
  split <;> rfl

attribute [simp] setExecutedBlock_blockNumber setExecutedBlock_nextBlock
  setExecutedBlock_executedBlock setExecutedBlock_knownHighestNumber

theorem resetConfig_of_ignores {c : BlockSyncConfig} {l : LedgerConfig}
    (h : c.ignores l) : c.resetConfig l = c := by
  rw [resetConfig, if_pos h]

theorem resetConfig_blockNumber {c : BlockSyncConfig} {l : LedgerConfig}
    (h : ¬ c.ignores l) : (c.resetConfig l).blockNumber = l.blockNumber := by
  rw [resetConfig, if_neg h]
  dsimp only [resetBlockInfo]
  split_ifs <;> rfl

theorem resetConfig_nextBlock {c : BlockSyncConfig} {l : LedgerConfig}
    (h : ¬ c.ignores l) : (c.resetConfig l).nextBlock = l.blockNumber + 1 := by
  rw [resetConfig, if_neg h]
  dsimp only [resetBlockInfo]
  split_ifs <;> rfl

theorem resetConfig_executedBlock {c : BlockSyncConfig} {l : LedgerConfig}
    (h : ¬ c.ignores l) :
    (c.resetConfig l).executedBlock = max c.executedBlock l.blockNumber := by
  rw [resetConfig, if_neg h]
  dsimp only [resetBlockInfo]
  split_ifs <;>
    simp only [setKnownHighestNumber, setKnownLatestHash] at * <;> omega

theorem resetConfig_knownHighestNumber {c : BlockSyncConfig}
    {l : LedgerConfig} (h : ¬ c.ignores l) :
    (c.resetConfig l).knownHighestNumber =
      max c.knownHighestNumber l.blockNumber := by
  rw [resetConfig, if_neg h]
  dsimp only [resetBlockInfo]
  split_ifs <;>
    simp only [setKnownHighestNumber, setKnownLatestHash] at * <;> omega

end BlockSyncConfig

end BcosSync
