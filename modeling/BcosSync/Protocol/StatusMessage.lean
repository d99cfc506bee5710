import BcosSync.Protocol.Codec
import BcosSync.Support.TransitionSystem

/-!
# Status messages

`BlockSyncStatusImpl` keeps each hash twice: in the protobuf message, where a
field may have any length, and as a fixed-size value that the getter returns.
The setters write both.  `deserializeObject` reads the field only if it is long
enough, so that a `decode` over an object that holds a hash already can leave
the value of the message before.
-/

namespace BcosSync

open TransitionSystem

structure BlockSyncStatusImpl where
  syncMessage : BlockSyncMessage
  hash : HashType
  genesisHash : HashType
deriving DecidableEq

namespace BlockSyncStatusImpl

def version (s : BlockSyncStatusImpl) : ℤ := s.syncMessage.version

def number (s : BlockSyncStatusImpl) : ℤ := s.syncMessage.number

def packetType (s : BlockSyncStatusImpl) : ℤ := s.syncMessage.packetType

def setVersion (version : Int32) (s : BlockSyncStatusImpl) :
    BlockSyncStatusImpl :=
  { s with syncMessage := { s.syncMessage with version := version.toInt } }

def setNumber (number : Int64) (s : BlockSyncStatusImpl) :
    BlockSyncStatusImpl :=
  { s with syncMessage := { s.syncMessage with number := number.toInt } }

def setHash (hash : HashType) (s : BlockSyncStatusImpl) :
    BlockSyncStatusImpl :=
  { s with
    hash := hash
    syncMessage := { s.syncMessage with hash := hash.1 } }

def setGenesisHash (genesisHash : HashType) (s : BlockSyncStatusImpl) :
    BlockSyncStatusImpl :=
  { s with
    genesisHash := genesisHash
    syncMessage := { s.syncMessage with genesisHash := genesisHash.1 } }

def deserializeObject (s : BlockSyncStatusImpl) : BlockSyncStatusImpl :=
  { s with
    hash := deserializeHash s.hash s.syncMessage.hash
    genesisHash := deserializeHash s.genesisHash s.syncMessage.genesisHash }

/-- `decode`: it throws on data that does not parse. -/
def decode (codec : PBCodec) (data : Bytes) (s : BlockSyncStatusImpl) :
    Option BlockSyncStatusImpl :=
  (codec.parse data).map fun syncMessage =>
    { s with syncMessage := syncMessage }.deserializeObject

def encode (codec : PBCodec) (s : BlockSyncStatusImpl) : Bytes :=
  codec.serialize s.syncMessage

/-- The constructor of a fresh status. -/
def new : BlockSyncStatusImpl where
  syncMessage := { packetType := BlockSyncPacketType.blockStatusPacket }
  hash := HashType.zero
  genesisHash := HashType.zero

/-- The constructor from bytes. -/
def ofData (codec : PBCodec) (data : Bytes) : Option BlockSyncStatusImpl :=
  new.decode codec data

/-- The constructor from a message.  The packet type is set in the message
that is replaced. -/
def ofSyncMsg (syncMessage : BlockSyncMessage) : BlockSyncStatusImpl :=
  { new with syncMessage := syncMessage }.deserializeObject

end BlockSyncStatusImpl

namespace BlockSyncMsgFactory

def createBlockSyncMsg (codec : PBCodec) (data : Bytes) :
    Option BlockSyncMessage :=
  codec.parse data

/-- `createBlockSyncStatusMsg(_data)`. -/
def createBlockSyncStatusMsg (codec : PBCodec) (data : Bytes) :
    Option BlockSyncStatusImpl :=
  BlockSyncStatusImpl.ofData codec data

/-- `createBlockSyncStatusMsg(_msg)`. -/
def createBlockSyncStatusMsgOf (msg : BlockSyncMessage) :
    BlockSyncStatusImpl :=
  BlockSyncStatusImpl.ofSyncMsg msg

end BlockSyncMsgFactory

open BlockSyncMsgFactory

namespace BlockSyncStatusImpl

/-- What a user does to a status.  Data that does not parse is not decoded. -/
inductive Input
  | setVersion (version : Int32)
  | setNumber (number : Int64)
  | setHash (hash : HashType)
  | setGenesisHash (genesisHash : HashType)
  | decode (data : Bytes)

def step (codec : PBCodec) (s : BlockSyncStatusImpl) :
    Input → Option BlockSyncStatusImpl
  | .setVersion version => some (s.setVersion version)
  | .setNumber number => some (s.setNumber number)
  | .setHash hash => some (s.setHash hash)
  | .setGenesisHash genesisHash => some (s.setGenesisHash genesisHash)
  | .decode data => s.decode codec data

/-- A status as a constructor leaves it. -/
inductive IsInit (codec : PBCodec) : BlockSyncStatusImpl → Prop
  | new : IsInit codec new
  | ofData {s : BlockSyncStatusImpl} (data : Bytes) :
      createBlockSyncStatusMsg codec data = some s → IsInit codec s
  | ofSyncMsg {msg : BlockSyncMessage} (data : Bytes) :
      createBlockSyncMsg codec data = some msg →
        IsInit codec (createBlockSyncStatusMsgOf msg)

end BlockSyncStatusImpl

/-- The life of a status. -/
def statusMessage (codec : PBCodec) :
    TransitionSystem BlockSyncStatusImpl BlockSyncStatusImpl.Input where
  IsInit := BlockSyncStatusImpl.IsInit codec
  step := BlockSyncStatusImpl.step codec

namespace BlockSyncStatusImpl

variable {codec : PBCodec} {s t : BlockSyncStatusImpl}

/-- The getters of `t` return what those of `s` return. -/
structure Presents (t s : BlockSyncStatusImpl) : Prop where
  version : t.version = s.version
  number : t.number = s.number
  packetType : t.packetType = s.packetType
  hash : t.hash = s.hash
  genesisHash : t.genesisHash = s.genesisHash

/-- What `encode` writes is read back as the getters have it, directly and
through a message. -/
def RoundTrips (codec : PBCodec) (s : BlockSyncStatusImpl) : Prop :=
  (∃ t, createBlockSyncStatusMsg codec (s.encode codec) = some t ∧
    t.Presents s) ∧
  ∃ msg, createBlockSyncMsg codec (s.encode codec) = some msg ∧
    (createBlockSyncStatusMsgOf msg).Presents s

/-! ## The two copies -/

/-- The two ways to decode a status agree on all data. -/
theorem createBlockSyncStatusMsg_eq (codec : PBCodec) (data : Bytes) :
    createBlockSyncStatusMsg codec data =
      (createBlockSyncMsg codec data).map createBlockSyncStatusMsgOf :=
  rfl

/-- The node reads a message the same way. -/
theorem ofMessage_eq (msg : BlockSyncMessage) :
    BlockSyncStatus.ofMessage msg =
      { version := (createBlockSyncStatusMsgOf msg).version
        number := (createBlockSyncStatusMsgOf msg).number
        hash := (createBlockSyncStatusMsgOf msg).hash
        genesisHash := (createBlockSyncStatusMsgOf msg).genesisHash } :=
  rfl

/-- A value read over another one does not depend on it just where the field
is long enough. -/
theorem deserializeHash_eq_iff {old : HashType} {data : Bytes} :
    deserializeHash old data = deserializeHash HashType.zero data ↔
      HashType.size ≤ data.length ∨ old = HashType.zero := by
  unfold deserializeHash
  split_ifs with h
  · exact iff_of_true rfl (.inl h)
  · exact (or_iff_right h).symm

theorem deserializeHash_val (old hash : HashType) :
    deserializeHash old hash.1 = hash := by
  unfold deserializeHash
  rw [dif_pos hash.2.ge]
  exact Subtype.ext (List.take_of_length_le hash.2.le)

/-- The getters return what a reader of the stored fields gets. -/
structure Coherent (s : BlockSyncStatusImpl) : Prop where
  hash : s.hash = deserializeHash HashType.zero s.syncMessage.hash
  genesisHash :
    s.genesisHash = deserializeHash HashType.zero s.syncMessage.genesisHash

theorem encode_decodes (codec : PBCodec) (hs : s.syncMessage.InRange) :
    createBlockSyncMsg codec (s.encode codec) = some s.syncMessage ∧
      createBlockSyncStatusMsg codec (s.encode codec) =
        some (createBlockSyncStatusMsgOf s.syncMessage) := by
  have hparse : createBlockSyncMsg codec (s.encode codec) =
      some s.syncMessage :=
    codec.parse_serialize s.syncMessage hs
  refine ⟨hparse, ?_⟩
  rw [createBlockSyncStatusMsg_eq, hparse, Option.map_some]

theorem presents_iff :
    (createBlockSyncStatusMsgOf s.syncMessage).Presents s ↔ s.Coherent :=
  ⟨fun h => ⟨h.hash.symm, h.genesisHash.symm⟩,
    fun h => ⟨rfl, rfl, rfl, h.hash.symm, h.genesisHash.symm⟩⟩

theorem roundTrips_iff (hs : s.syncMessage.InRange) :
    s.RoundTrips codec ↔ s.Coherent := by
  obtain ⟨hmsg, hstatus⟩ := encode_decodes codec hs
  rw [← presents_iff]
  constructor
  · rintro ⟨⟨t, ht, hpresents⟩, -⟩
    obtain rfl := Option.some.inj (hstatus.symm.trans ht)
    exact hpresents
  · exact fun hpresents => ⟨⟨_, hstatus, hpresents⟩, _, hmsg, hpresents⟩

/-! ## Steps -/

theorem step_inRange {i : Input} (hs : s.syncMessage.InRange)
    (h : s.step codec i = some t) : t.syncMessage.InRange := by
  cases i with
  | setVersion version =>
      obtain rfl := Option.some.inj h
      exact ⟨⟨version.le_toInt, version.toInt_lt⟩, hs.packetType, hs.number,
        hs.size⟩
  | setNumber number =>
      obtain rfl := Option.some.inj h
      exact ⟨hs.version, hs.packetType, ⟨number.le_toInt, number.toInt_lt⟩,
        hs.size⟩
  | setHash hash =>
      obtain rfl := Option.some.inj h
      exact ⟨hs.version, hs.packetType, hs.number, hs.size⟩
  | setGenesisHash genesisHash =>
      obtain rfl := Option.some.inj h
      exact ⟨hs.version, hs.packetType, hs.number, hs.size⟩
  | decode data =>
      obtain ⟨msg, hmsg, rfl⟩ := Option.map_eq_some_iff.mp h
      exact codec.parse_inRange data msg hmsg

/-- A hash field that is decoded is long enough, or there is no value to be
left over. -/
def Replaces (codec : PBCodec) (s : BlockSyncStatusImpl) : Input → Prop
  | .decode data =>
      ∀ msg, codec.parse data = some msg →
        (HashType.size ≤ msg.hash.length ∨ s.hash = HashType.zero) ∧
          (HashType.size ≤ msg.genesisHash.length ∨
            s.genesisHash = HashType.zero)
  | _ => True

/-- A `decode` over any object. -/
theorem coherent_decode_iff {data : Bytes}
    (h : s.decode codec data = some t) :
    t.Coherent ↔ s.Replaces codec (.decode data) := by
  obtain ⟨msg, hmsg, rfl⟩ := Option.map_eq_some_iff.mp h
  constructor
  · intro hcoherent msg' hmsg'
    obtain rfl := Option.some.inj (hmsg.symm.trans hmsg')
    exact ⟨deserializeHash_eq_iff.mp hcoherent.hash,
      deserializeHash_eq_iff.mp hcoherent.genesisHash⟩
  · intro hreplaces
    obtain ⟨hhash, hgenesis⟩ := hreplaces msg hmsg
    exact ⟨deserializeHash_eq_iff.mpr hhash,
      deserializeHash_eq_iff.mpr hgenesis⟩

theorem step_coherent_iff {i : Input} (hs : s.Coherent)
    (h : s.step codec i = some t) : t.Coherent ↔ s.Replaces codec i := by
  cases i with
  | setVersion version | setNumber number =>
      obtain rfl := Option.some.inj h
      exact iff_of_true ⟨hs.hash, hs.genesisHash⟩ trivial
  | setHash hash =>
      obtain rfl := Option.some.inj h
      exact iff_of_true ⟨(deserializeHash_val _ hash).symm, hs.genesisHash⟩
        trivial
  | setGenesisHash genesisHash =>
      obtain rfl := Option.some.inj h
      exact iff_of_true ⟨hs.hash, (deserializeHash_val _ genesisHash).symm⟩
        trivial
  | decode data => exact coherent_decode_iff h

/-! ## Runs -/

theorem IsInit.inRange (h : IsInit codec s) : s.syncMessage.InRange := by
  cases h with
  | new => exact ⟨by decide, by decide, by decide, by decide⟩
  | ofData data hdata =>
      obtain ⟨msg, hmsg, rfl⟩ := Option.map_eq_some_iff.mp hdata
      exact codec.parse_inRange data msg hmsg
  | ofSyncMsg data hdata => exact codec.parse_inRange data _ hdata

theorem IsInit.coherent (h : IsInit codec s) : s.Coherent := by
  cases h with
  | new => exact ⟨rfl, rfl⟩
  | ofData data hdata =>
      obtain ⟨msg, hmsg, rfl⟩ := Option.map_eq_some_iff.mp hdata
      exact ⟨rfl, rfl⟩
  | ofSyncMsg data hdata => exact ⟨rfl, rfl⟩

/-- Whatever has been done to a status, both ways of decoding what it encodes
to give one and the same status, with its version, number and packet type.
All the statuses on the way round trip if and only if every `decode` replaces
the hashes that are held. -/
theorem run_roundTrips_iff (hs : (statusMessage codec).IsInit s)
    (is : List Input) :
    ((statusMessage codec).AllStates (RoundTrips codec) s is ↔
      (statusMessage codec).AllSteps (Replaces codec) s is) ∧
    ∀ t, (statusMessage codec).exec s is = some t →
      ∃ u msg, createBlockSyncStatusMsg codec (t.encode codec) = some u ∧
        createBlockSyncMsg codec (t.encode codec) = some msg ∧
        createBlockSyncStatusMsgOf msg = u ∧ u.version = t.version ∧
        u.number = t.number ∧ u.packetType = t.packetType := by
  have hinit := IsInit.inRange hs
  have hstep : ∀ s i t, s.syncMessage.InRange →
      (statusMessage codec).step s i = some t → t.syncMessage.InRange :=
    fun s i t hs ht => step_inRange hs ht
  constructor
  · refine allStates_iff_allSteps (A := fun _ => True)
      (fun s i t _ => hstep s i t) ?_ (fun _ _ => trivial) hinit
      ((roundTrips_iff hinit).mpr (IsInit.coherent hs))
    intro s i t _ hrange htrips ht
    rw [roundTrips_iff (hstep s i t hrange ht)]
    exact step_coherent_iff ((roundTrips_iff hrange).mp htrips) ht
  · intro t hrun
    have hrange : t.syncMessage.InRange :=
      exec_preserves (I := fun t => t.syncMessage.InRange) hstep hinit hrun
    obtain ⟨hmsg, hstatus⟩ := encode_decodes codec hrange
    exact ⟨_, _, hstatus, hmsg, rfl, rfl, rfl, rfl⟩

/-- The hash of ones. -/
def sampleHash : HashType := ⟨List.replicate HashType.size 1, by decide⟩

/-- A status is set up, and decodes a message with both hashes. -/
def sampleInputs : List Input :=
  [.setVersion 1, .setHash sampleHash,
    .decode (proto3.serialize
      { number := 300, hash := HashType.zero.1
        genesisHash := sampleHash.1 })]

theorem run_roundTrips_iff_sample :
    ((statusMessage proto3).AllStates (RoundTrips proto3) new sampleInputs ↔
      (statusMessage proto3).AllSteps (Replaces proto3) new sampleInputs) ∧
    ∀ t, (statusMessage proto3).exec new sampleInputs = some t →
      ∃ u msg, createBlockSyncStatusMsg proto3 (t.encode proto3) = some u ∧
        createBlockSyncMsg proto3 (t.encode proto3) = some msg ∧
        createBlockSyncStatusMsgOf msg = u ∧ u.version = t.version ∧
        u.number = t.number ∧ u.packetType = t.packetType :=
  run_roundTrips_iff .new sampleInputs

/-! ## A stale hash -/

/-- A status that holds a hash decodes the bytes of a fresh one: its getter
returns the hash of before, which is not in what it encodes to. -/
theorem decode_keeps_stale_hash :
    ∃ s, (statusMessage proto3).exec new
        [.setHash sampleHash, .decode (new.encode proto3)] = some s ∧
      (statusMessage proto3).IsInit new ∧
      ∃ t, createBlockSyncStatusMsg proto3 (s.encode proto3) = some t ∧
        s.hash = sampleHash ∧ t.hash = HashType.zero ∧
        ¬ s.RoundTrips proto3 := by
  have hrun : (statusMessage proto3).exec new
      [.setHash sampleHash, .decode (new.encode proto3)] =
        some { new with hash := sampleHash } := by
    rfl
  refine ⟨_, hrun, .new, new, rfl, rfl, rfl, ?_⟩
  rintro ⟨⟨t, ht, hpresents⟩, -⟩
  obtain rfl : new = t := Option.some.inj ht
  exact absurd hpresents.hash (by decide)

end BlockSyncStatusImpl

end BcosSync
