import Mathlib.Data.Int.Notation
import Mathlib.Data.Nat.Notation
import BcosSync.Support.PriorityQueue

/-!
# Protocol data

The values the block sync module handles: hashes, node ids, blocks, ledger
configs and the wire message.  Fields that the module only prints to the log
are left out.

Blocks are passed around by shared pointer, and two blocks decoded from the
same bytes are different objects.  `Block.ptr` is the identity of the object.
-/

namespace BcosSync

abbrev Bytes := List UInt8

def HashType.size : ℕ := 32

/-- A fixed-size hash value. -/
abbrev HashType := { data : Bytes // data.length = HashType.size }

/-- The default-constructed `HashType()`. -/
def HashType.zero : HashType := ⟨List.replicate HashType.size 0, by simp⟩

/-- A shared pointer to a public key.  Tables compare the key data, while
`==` on two pointers compares the objects. -/
structure PublicPtr where
  addr : ℕ
  data : Bytes
deriving DecidableEq

structure Error where
  errorCode : ℤ
  errorMessage : String
deriving DecidableEq

instance Except.decidableEq {ε α : Type} [DecidableEq ε] [DecidableEq α] :
    DecidableEq (Except ε α)
  | .error a, .error b => decidable_of_iff (a = b) (by simp)
  | .ok a, .ok b => decidable_of_iff (a = b) (by simp)
  | .error _, .ok _ => isFalse nofun
  | .ok _, .error _ => isFalse nofun

structure Transaction where
  encodedData : Bytes
  hash : HashType
deriving DecidableEq

structure BlockHeader where
  number : ℤ
  hash : HashType
  sealer : ℤ
deriving DecidableEq

/-- What the block factory decodes from one block datum. -/
structure BlockData where
  blockHeader : BlockHeader
  transactions : List Transaction
deriving DecidableEq

/-- A block object. -/
structure Block extends BlockData where
  ptr : ℕ
deriving DecidableEq

namespace Block

def number (b : Block) : ℤ := b.blockHeader.number

def hash (b : Block) : HashType := b.blockHeader.hash

def transactionsSize (b : Block) : ℕ := b.transactions.length

/-- The order of `BlockCmp`: the lower height is nearer to the top. -/
def Before (a b : Block) : Prop := a.number ≤ b.number

instance : DecidableRel Before := fun a b =>
  inferInstanceAs (Decidable (a.number ≤ b.number))

end Block

/-- `createBlock` of the block factory: it throws on undecodable data. -/
abbrev BlockFactory := Bytes → Option BlockData

/-- `BlockQueue`: any implementation of a priority queue under `BlockCmp`. -/
abbrev BlockQueue := PriorityQueue Block Block.Before

/-- The block queue that keeps its blocks in a sorted list. -/
def sortedBlockQueue : BlockQueue :=
  PriorityQueue.sortedList Block.Before
    (fun a b => le_total a.number b.number)
    (fun _ _ _ hab hbc => le_trans hab hbc)

structure LedgerConfig where
  blockNumber : ℤ
  hash : HashType
  consensusNodeList : List PublicPtr
  observerNodeList : List PublicPtr
  txsSize : ℕ := 0
  sealerId : ℤ := 0
deriving DecidableEq

namespace LedgerConfig

def setTxsSize (txsSize : ℕ) (l : LedgerConfig) : LedgerConfig :=
  { l with txsSize := txsSize }

def setSealerId (sealerId : ℤ) (l : LedgerConfig) : LedgerConfig :=
  { l with sealerId := sealerId }

end LedgerConfig

/-! ## Messages -/

/-- The protobuf message shared by all packets. -/
structure BlockSyncMessage where
  version : ℤ := 0
  packetType : ℤ := 0
  number : ℤ := 0
  hash : Bytes := []
  genesisHash : Bytes := []
  size : ℤ := 0
  blocksData : List Bytes := []
deriving DecidableEq

namespace BlockSyncPacketType

def blockStatusPacket : ℤ := 0x00
def blockRequestPacket : ℤ := 0x01
def blockResponsePacket : ℤ := 0x02

end BlockSyncPacketType

/-- A status packet as its getters present it. -/
structure BlockSyncStatus where
  version : ℤ := 0
  number : ℤ
  hash : HashType
  genesisHash : HashType
deriving DecidableEq

/-- `deserializeObject` for one hash field: short data leaves the value as it
was, longer data is cut to the hash size. -/
def deserializeHash (old : HashType) (data : Bytes) : HashType :=
  if h : HashType.size ≤ data.length then
    ⟨data.take HashType.size, by simp [h]⟩
  else old

/-- `createBlockSyncStatusMsg(msg)`. -/
def BlockSyncStatus.ofMessage (msg : BlockSyncMessage) : BlockSyncStatus where
  version := msg.version
  number := msg.number
  hash := deserializeHash HashType.zero msg.hash
  genesisHash := deserializeHash HashType.zero msg.genesisHash

/-- A block packet; each entry is the encoding of one block. -/
structure BlocksMsg where
  blocksData : List Bytes
deriving DecidableEq

/-- `createBlocksMsg(msg)`. -/
def BlocksMsg.ofMessage (msg : BlockSyncMessage) : BlocksMsg where
  blocksData := msg.blocksData

/-- What the node sends through the front service. -/
inductive Packet
  | status (msg : BlockSyncStatus)
  | request (number : ℤ) (size : ℕ)
  | blocks (number : ℤ) (blockData : Bytes)
deriving DecidableEq

end BcosSync
