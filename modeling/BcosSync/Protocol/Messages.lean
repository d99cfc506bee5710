import BcosSync.Protocol.StatusMessage

/-!
# Requests and block packets

`BlockRequestImpl` and `BlocksMsgImpl` keep all their data in the protobuf
message.  An object made from another one holds the message of that one; its
own constructor sets the packet type in a message that is dropped.

The second part has the packets a node sends: how each of them is put together
and encoded, and the message that the receiver decodes.
-/

namespace BcosSync

open MachineInt

/-- `BlockSyncMsgImpl`; requests and block packets add no data to it. -/
structure BlockSyncMsgImpl where
  syncMessage : BlockSyncMessage
deriving DecidableEq

namespace BlockSyncMsgImpl

/-- The constructor of a fresh message. -/
def new : BlockSyncMsgImpl := ⟨{}⟩

def version (m : BlockSyncMsgImpl) : ℤ := m.syncMessage.version

def number (m : BlockSyncMsgImpl) : ℤ := m.syncMessage.number

def packetType (m : BlockSyncMsgImpl) : ℤ := m.syncMessage.packetType

def setVersion (version : Int32) (m : BlockSyncMsgImpl) : BlockSyncMsgImpl :=
  ⟨{ m.syncMessage with version := version.toInt }⟩

def setNumber (number : Int64) (m : BlockSyncMsgImpl) : BlockSyncMsgImpl :=
  ⟨{ m.syncMessage with number := number.toInt }⟩

def setPacketType (packetType : Int32) (m : BlockSyncMsgImpl) :
    BlockSyncMsgImpl :=
  ⟨{ m.syncMessage with packetType := packetType.toInt }⟩

def encode (codec : PBCodec) (m : BlockSyncMsgImpl) : Bytes :=
  codec.serialize m.syncMessage

/-- `decode`: it throws on data that does not parse. -/
def decode (codec : PBCodec) (data : Bytes) (_m : BlockSyncMsgImpl) :
    Option BlockSyncMsgImpl :=
  (codec.parse data).map BlockSyncMsgImpl.mk

end BlockSyncMsgImpl

/-- `BlockRequestImpl`. -/
abbrev BlockRequestImpl := BlockSyncMsgImpl

namespace BlockRequestImpl

/-- The constructor of a fresh request. -/
def new : BlockRequestImpl :=
  ⟨{ packetType := BlockSyncPacketType.blockRequestPacket }⟩

/-- The constructor from bytes. -/
def ofData (codec : PBCodec) (data : Bytes) : Option BlockRequestImpl :=
  new.decode codec data

/-- The constructor from a message. -/
def ofSyncMsg (syncMessage : BlockSyncMessage) : BlockRequestImpl :=
  { new with syncMessage := syncMessage }

def size (m : BlockRequestImpl) : ℕ := toSize m.syncMessage.size

/-- `setSize`: the field is an `int64`. -/
def setSize (size : UInt64) (m : BlockRequestImpl) : BlockRequestImpl :=
  ⟨{ m.syncMessage with size := size.toInt64.toInt }⟩

theorem toInt_toInt64 (size : UInt64) :
    size.toInt64.toInt = toInt64 size.toNat := by
  have hbits : size.toInt64.toInt = (size.toNat : ℤ).bmod (2 ^ 64) :=
    BitVec.toInt_eq_toNat_bmod size.toBitVec
  rw [hbits, Int.bmod_def]
  unfold toInt64
  split_ifs <;> omega

end BlockRequestImpl

/-- `BlocksMsgImpl`. -/
abbrev BlocksMsgImpl := BlockSyncMsgImpl

namespace BlocksMsgImpl

/-- The constructor of a fresh block packet. -/
def new : BlocksMsgImpl :=
  ⟨{ packetType := BlockSyncPacketType.blockResponsePacket }⟩

/-- The constructor from bytes. -/
def ofData (codec : PBCodec) (data : Bytes) : Option BlocksMsgImpl :=
  new.decode codec data

/-- The constructor from a message. -/
def ofSyncMsg (syncMessage : BlockSyncMessage) : BlocksMsgImpl :=
  { new with syncMessage := syncMessage }

def blocksSize (m : BlocksMsgImpl) : ℕ := m.syncMessage.blocksData.length

/-- `blockData`, for an index that exists. -/
def blockData (index : ℕ) (m : BlocksMsgImpl) : Option Bytes :=
  m.syncMessage.blocksData[index]?

/-- `appendBlockData`: an empty entry is added and then set. -/
def appendBlockData (blockData : Bytes) (m : BlocksMsgImpl) : BlocksMsgImpl :=
  let index := m.blocksSize
  let added := m.syncMessage.blocksData ++ [[]]
  ⟨{ m.syncMessage with blocksData := added.set index blockData }⟩

theorem blocksData_appendBlockData (blockData : Bytes) (m : BlocksMsgImpl) :
    (m.appendBlockData blockData).syncMessage.blocksData =
      m.syncMessage.blocksData ++ [blockData] := by
  dsimp only [appendBlockData, blocksSize]
  rw [List.set_append_right _ _ le_rfl, Nat.sub_self]
  rfl

end BlocksMsgImpl

namespace BlockSyncMsgFactory

/-- `createBlockRequest(_data)`. -/
def createBlockRequest (codec : PBCodec) (data : Bytes) :
    Option BlockRequestImpl :=
  BlockRequestImpl.ofData codec data

/-- `createBlockRequest(_msg)`. -/
def createBlockRequestOf (msg : BlockSyncMessage) : BlockRequestImpl :=
  BlockRequestImpl.ofSyncMsg msg

/-- `createBlocksMsg(_data)`. -/
def createBlocksMsg (codec : PBCodec) (data : Bytes) : Option BlocksMsgImpl :=
  BlocksMsgImpl.ofData codec data

/-- `createBlocksMsg(_msg)`. -/
def createBlocksMsgOf (msg : BlockSyncMessage) : BlocksMsgImpl :=
  BlocksMsgImpl.ofSyncMsg msg

/-- `createBlockSyncStatusMsg(_number, _hash, _gensisHash, _version)`. -/
def createBlockSyncStatusMsgFrom (number : Int64) (hash genesisHash : HashType)
    (version : Int32) : BlockSyncStatusImpl :=
  (((BlockSyncStatusImpl.new.setVersion version).setNumber number).setHash
    hash).setGenesisHash genesisHash

end BlockSyncMsgFactory

open BlockSyncMsgFactory

namespace BlockSyncMsgImpl

/-! ## Runs of setters -/

/-- What a user writes to a request or a block packet. -/
inductive Setter
  | setVersion (version : Int32)
  | setNumber (number : Int64)
  | setPacketType (packetType : Int32)
  | setSize (size : UInt64)
  | appendBlockData (blockData : Bytes)

def set (m : BlockSyncMsgImpl) : Setter → BlockSyncMsgImpl
  | .setVersion version => m.setVersion version
  | .setNumber number => m.setNumber number
  | .setPacketType packetType => m.setPacketType packetType
  | .setSize size => BlockRequestImpl.setSize size m
  | .appendBlockData blockData => BlocksMsgImpl.appendBlockData blockData m

def setAll (m : BlockSyncMsgImpl) (setters : List Setter) : BlockSyncMsgImpl :=
  setters.foldl set m

namespace Setter

def number : Setter → Option ℤ
  | .setNumber number => some number.toInt
  | _ => none

def size : Setter → Option ℕ
  | .setSize size => some size.toNat
  | _ => none

def blockData : Setter → Option Bytes
  | .appendBlockData blockData => some blockData
  | _ => none

/-- The value written last, or the one of before. -/
def last {α : Type} (field : Setter → Option α) (old : α)
    (setters : List Setter) : α :=
  setters.foldl (fun value setter => (field setter).getD value) old

end Setter

variable {m : BlockSyncMsgImpl}

theorem inRange_set (h : m.syncMessage.InRange) (setter : Setter) :
    (m.set setter).syncMessage.InRange := by
  cases setter with
  | setVersion version =>
      unfold set setVersion
      exact ⟨⟨version.le_toInt, version.toInt_lt⟩, h.packetType, h.number,
        h.size⟩
  | setNumber number =>
      unfold set setNumber
      exact ⟨h.version, h.packetType, ⟨number.le_toInt, number.toInt_lt⟩,
        h.size⟩
  | setPacketType packetType =>
      unfold set setPacketType
      exact ⟨h.version, ⟨packetType.le_toInt, packetType.toInt_lt⟩, h.number,
        h.size⟩
  | setSize size =>
      unfold set BlockRequestImpl.setSize
      exact ⟨h.version, h.packetType, h.number,
        ⟨size.toInt64.le_toInt, size.toInt64.toInt_lt⟩⟩
  | appendBlockData => exact ⟨h.version, h.packetType, h.number, h.size⟩

theorem inRange_setAll (h : m.syncMessage.InRange) (setters : List Setter) :
    (m.setAll setters).syncMessage.InRange := by
  induction setters generalizing m with
  | nil => exact h
  | cons setter setters ih => exact ih (inRange_set h setter)

theorem number_set (setter : Setter) (m : BlockSyncMsgImpl) :
    (m.set setter).number = setter.number.getD m.number := by
  cases setter <;> rfl

theorem number_setAll (setters : List Setter) (m : BlockSyncMsgImpl) :
    (m.setAll setters).number = Setter.last Setter.number m.number setters := by
  induction setters generalizing m with
  | nil => rfl
  | cons setter setters ih =>
      refine (ih (m.set setter)).trans ?_
      rw [number_set]
      rfl

/-- A size is read back from its signed field. -/
theorem toSize_toInt64 {n : ℕ} (h : n < 2 ^ 64) : toSize (toInt64 n) = n := by
  unfold toSize toInt64
  omega

theorem size_set (setter : Setter) (m : BlockSyncMsgImpl) :
    BlockRequestImpl.size (m.set setter) =
      setter.size.getD (BlockRequestImpl.size m) := by
  cases setter with
  | setSize size =>
      rw [BlockRequestImpl.size]
      dsimp only [set, BlockRequestImpl.setSize]
      rw [BlockRequestImpl.toInt_toInt64]
      exact toSize_toInt64 size.toNat_lt
  | setVersion | setNumber | setPacketType | appendBlockData => rfl

theorem size_setAll (setters : List Setter) (m : BlockSyncMsgImpl) :
    BlockRequestImpl.size (m.setAll setters) =
      Setter.last Setter.size (BlockRequestImpl.size m) setters := by
  induction setters generalizing m with
  | nil => rfl
  | cons setter setters ih =>
      refine (ih (m.set setter)).trans ?_
      rw [size_set]
      rfl

theorem blocksData_set (setter : Setter) (m : BlockSyncMsgImpl) :
    (m.set setter).syncMessage.blocksData =
      m.syncMessage.blocksData ++ setter.blockData.toList := by
  cases setter with
  | appendBlockData blockData =>
      exact BlocksMsgImpl.blocksData_appendBlockData blockData m
  | setVersion | setNumber | setPacketType | setSize =>
      exact (List.append_nil _).symm

theorem blocksData_setAll (setters : List Setter) (m : BlockSyncMsgImpl) :
    (m.setAll setters).syncMessage.blocksData =
      m.syncMessage.blocksData ++ setters.filterMap Setter.blockData := by
  induction setters generalizing m with
  | nil => exact (List.append_nil _).symm
  | cons setter setters ih =>
      refine (ih (m.set setter)).trans ?_
      rw [blocksData_set, List.filterMap_cons]
      cases setter.blockData with
      | none => rw [Option.toList_none, List.append_nil]
      | some data => exact List.append_assoc _ [data] _

/-- Both ways of reading give the object that was encoded. -/
theorem reads_encode (codec : PBCodec) (h : m.syncMessage.InRange) :
    createBlockRequest codec (m.encode codec) = some m ∧
      createBlocksMsg codec (m.encode codec) = some m ∧
      (createBlockSyncMsg codec (m.encode codec)).map createBlockRequestOf =
        some m ∧
      (createBlockSyncMsg codec (m.encode codec)).map createBlocksMsgOf =
        some m := by
  have hparse : codec.parse (m.encode codec) = some m.syncMessage :=
    codec.parse_serialize m.syncMessage h
  have hdecode : (codec.parse (m.encode codec)).map BlockSyncMsgImpl.mk =
      some m := by
    rw [hparse]
    rfl
  exact ⟨hdecode, hdecode, hdecode, hdecode⟩

/-- What a run of setters writes to a message is read back, as a request and
as a block packet, from the bytes and through a message: the number and the
size written last, and the blocks in the order in which they were appended. -/
theorem setAll_roundTrips (codec : PBCodec) (h : m.syncMessage.InRange)
    (setters : List Setter) :
    ∃ u, createBlockRequest codec ((m.setAll setters).encode codec) = some u ∧
      createBlocksMsg codec ((m.setAll setters).encode codec) = some u ∧
      (createBlockSyncMsg codec ((m.setAll setters).encode codec)).map
        createBlockRequestOf = some u ∧
      (createBlockSyncMsg codec ((m.setAll setters).encode codec)).map
        createBlocksMsgOf = some u ∧
      u.number = Setter.last Setter.number m.number setters ∧
      BlockRequestImpl.size u =
        Setter.last Setter.size (BlockRequestImpl.size m) setters ∧
      BlocksMsgImpl.blocksSize u = BlocksMsgImpl.blocksSize m +
        (setters.filterMap Setter.blockData).length ∧
      ∀ index, BlocksMsgImpl.blockData index u =
        (m.syncMessage.blocksData ++
          setters.filterMap Setter.blockData)[index]? := by
  obtain ⟨hrequest, hblocks, hrequestOf, hblocksOf⟩ :=
    reads_encode codec (inRange_setAll h setters)
  have hdata := blocksData_setAll setters m
  refine ⟨m.setAll setters, hrequest, hblocks, hrequestOf, hblocksOf,
    number_setAll setters m, size_setAll setters m, ?_, fun index => ?_⟩
  · rw [BlocksMsgImpl.blocksSize, hdata, List.length_append]
    rfl
  · rw [BlocksMsgImpl.blockData, hdata]

/-- The request for 16 blocks from height 5 on, after another one. -/
theorem setAll_roundTrips_sample :
    ∃ u, createBlockRequest proto3 ((BlockRequestImpl.new.setAll
        [.setSize 8, .setNumber 5, .setSize 16]).encode proto3) = some u ∧
      u.number = 5 ∧ BlockRequestImpl.size u = 16 := by
  obtain ⟨u, hu, -, -, -, hnumber, hsize, -⟩ := setAll_roundTrips proto3
    (m := BlockRequestImpl.new)
    ⟨by decide, by decide, by decide, by decide⟩
    [.setSize 8, .setNumber 5, .setSize 16]
  exact ⟨u, hu, hnumber, hsize⟩

end BlockSyncMsgImpl

/-! ## Packets -/

namespace Packet

/-- The numbers of a packet fit their types. -/
def InRange : Packet → Prop
  | .status msg =>
      (-2 ^ 31 ≤ msg.version ∧ msg.version < 2 ^ 31) ∧
        -2 ^ 63 ≤ msg.number ∧ msg.number < 2 ^ 63
  | .request number size =>
      (-2 ^ 63 ≤ number ∧ number < 2 ^ 63) ∧ size < 2 ^ 64
  | .blocks number _ => -2 ^ 63 ≤ number ∧ number < 2 ^ 63

/-- The bytes the node hands to the front service. -/
def encode (codec : PBCodec) : Packet → Bytes
  | .status msg =>
      (createBlockSyncStatusMsgFrom (.ofInt msg.number) msg.hash
        msg.genesisHash (.ofInt msg.version)).encode codec
  | .request number size =>
      (BlockRequestImpl.setSize (.ofNat size)
        (BlockRequestImpl.new.setNumber (.ofInt number))).encode codec
  | .blocks number blockData =>
      ((BlocksMsgImpl.appendBlockData blockData .new).setNumber
        (.ofInt number)).encode codec

/-- The message of a packet. -/
def message : Packet → BlockSyncMessage
  | .status msg =>
      { version := msg.version
        packetType := BlockSyncPacketType.blockStatusPacket
        number := msg.number
        hash := msg.hash.1
        genesisHash := msg.genesisHash.1 }
  | .request number size =>
      { packetType := BlockSyncPacketType.blockRequestPacket
        number := number
        size := toInt64 size }
  | .blocks number blockData =>
      { packetType := BlockSyncPacketType.blockResponsePacket
        number := number
        blocksData := [blockData] }

variable {p : Packet}

theorem InRange.message (h : p.InRange) : p.message.InRange := by
  have hzero : (-2 ^ 31 ≤ (0 : ℤ) ∧ (0 : ℤ) < 2 ^ 31) ∧
      -2 ^ 63 ≤ (0 : ℤ) ∧ (0 : ℤ) < 2 ^ 63 := by decide
  cases p with
  | status msg => exact ⟨h.1, hzero.1, h.2, hzero.2⟩
  | request number size =>
      exact ⟨hzero.1, (by decide : -2 ^ 31 ≤ (1 : ℤ) ∧ (1 : ℤ) < 2 ^ 31), h.1,
        toInt64_range _⟩
  | blocks number blockData =>
      exact ⟨hzero.1, (by decide : -2 ^ 31 ≤ (2 : ℤ) ∧ (2 : ℤ) < 2 ^ 31), h,
        hzero.2⟩

theorem encode_eq (codec : PBCodec) (h : p.InRange) :
    p.encode codec = codec.serialize p.message := by
  cases p with
  | status msg =>
      obtain ⟨⟨hvlow, hvhigh⟩, hlow, hhigh⟩ := h
      dsimp only [encode, message, createBlockSyncStatusMsgFrom,
        BlockSyncStatusImpl.setVersion, BlockSyncStatusImpl.setNumber,
        BlockSyncStatusImpl.setHash, BlockSyncStatusImpl.setGenesisHash,
        BlockSyncStatusImpl.encode]
      rw [Int64.toInt_ofInt_of_le hlow hhigh,
        Int32.toInt_ofInt_of_le hvlow hvhigh]
      rfl
  | request number size =>
      obtain ⟨⟨hlow, hhigh⟩, hsize⟩ := h
      dsimp only [encode, message, BlockSyncMsgImpl.setNumber,
        BlockRequestImpl.setSize, BlockSyncMsgImpl.encode]
      rw [Int64.toInt_ofInt_of_le hlow hhigh, BlockRequestImpl.toInt_toInt64,
        UInt64.toNat_ofNat_of_lt' hsize]
      rfl
  | blocks number blockData =>
      obtain ⟨hlow, hhigh⟩ := h
      dsimp only [encode, message, BlockSyncMsgImpl.setNumber,
        BlockSyncMsgImpl.encode]
      rw [Int64.toInt_ofInt_of_le hlow hhigh]
      rfl

/-- The receiver decodes the message of the packet. -/
theorem parse_encode (codec : PBCodec) (h : p.InRange) :
    createBlockSyncMsg codec (p.encode codec) = some p.message := by
  rw [encode_eq codec h]
  exact codec.parse_serialize p.message h.message

/-- A status is presented as it was sent. -/
theorem ofMessage_status (msg : BlockSyncStatus) :
    BlockSyncStatus.ofMessage (message (.status msg)) = msg := by
  unfold BlockSyncStatus.ofMessage message
  rw [BlockSyncStatusImpl.deserializeHash_val,
    BlockSyncStatusImpl.deserializeHash_val]

end Packet

end BcosSync
