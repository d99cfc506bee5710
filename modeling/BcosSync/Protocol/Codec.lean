import BcosSync.Protocol.Types
import BcosSync.Support.MachineInt
import BcosSync.Support.WireFormat

/-!
# Messages on the wire

The protobuf library, as far as the module relies on it: `encodePBObject` and
`decodePBObject` for `BlockSyncMessage`.  `proto3` is the codec that the
message definition of the repository gives.
-/

namespace BcosSync

open MachineInt WireFormat

/-- The integers fit the fields of the message. -/
structure BlockSyncMessage.InRange (m : BlockSyncMessage) : Prop where
  version : -2 ^ 31 ≤ m.version ∧ m.version < 2 ^ 31
  packetType : -2 ^ 31 ≤ m.packetType ∧ m.packetType < 2 ^ 31
  number : -2 ^ 63 ≤ m.number ∧ m.number < 2 ^ 63
  size : -2 ^ 63 ≤ m.size ∧ m.size < 2 ^ 63

/-- A codec for the message: parsing undoes serialisation, and a parsed
message is one.  Parsing has no other message to start from, so that it
replaces all fields. -/
structure PBCodec where
  serialize : BlockSyncMessage → Bytes
  parse : Bytes → Option BlockSyncMessage
  parse_serialize : ∀ m, m.InRange → parse (serialize m) = some m
  parse_inRange : ∀ data m, parse data = some m → m.InRange

namespace BlockSyncMessage

/-- The fields of the message in the order of their numbers. -/
def toFields (m : BlockSyncMessage) : List Field :=
  varintField 1 (toSize m.version) ++
    (varintField 2 (toSize m.packetType) ++
      (varintField 3 (toSize m.number) ++
        (bytesField 4 m.hash ++
          (bytesField 5 m.genesisHash ++
            (varintField 6 (toSize m.size) ++
              m.blocksData.map fun data => ⟨7, .bytes data⟩)))))

/-- A field that is read replaces what was read before, or is one more block.
Unknown fields are skipped. -/
def merge (m : BlockSyncMessage) : Field → BlockSyncMessage
  | ⟨1, .varint value⟩ => { m with version := toInt32 value }
  | ⟨2, .varint value⟩ => { m with packetType := toInt32 value }
  | ⟨3, .varint value⟩ => { m with number := toInt64 value }
  | ⟨4, .bytes data⟩ => { m with hash := data }
  | ⟨5, .bytes data⟩ => { m with genesisHash := data }
  | ⟨6, .varint value⟩ => { m with size := toInt64 value }
  | ⟨7, .bytes data⟩ => { m with blocksData := m.blocksData ++ [data] }
  | _ => m

def ofFields (fields : List Field) : BlockSyncMessage :=
  fields.foldl merge {}

variable {m : BlockSyncMessage}

theorem number_of_mem_toFields {f : Field} (h : f ∈ m.toFields) :
    f.number ≠ 0 := by
  simp only [toFields, List.mem_append, List.mem_map] at h
  rcases h with h | h | h | h | h | h | ⟨data, -, rfl⟩
  · exact (number_of_mem_varintField h).trans_ne (by decide)
  · exact (number_of_mem_varintField h).trans_ne (by decide)
  · exact (number_of_mem_varintField h).trans_ne (by decide)
  · exact (number_of_mem_bytesField h).trans_ne (by decide)
  · exact (number_of_mem_bytesField h).trans_ne (by decide)
  · exact (number_of_mem_varintField h).trans_ne (by decide)
  · exact (by decide : 7 ≠ 0)

theorem foldl_blocksData (blocksData : List Bytes) (m : BlockSyncMessage) :
    (blocksData.map fun data => (⟨7, .bytes data⟩ : Field)).foldl merge m =
      { m with blocksData := m.blocksData ++ blocksData } := by
  induction blocksData generalizing m with
  | nil => rw [List.append_nil, List.map_nil, List.foldl_nil]
  | cons data blocksData ih =>
      rw [List.map_cons, List.foldl_cons, ih]
      exact congrArg (fun blocksData => { m with blocksData := blocksData })
        (List.append_assoc _ _ _)

/-- An integer is read back into a message that has 0 there. -/
theorem foldl_int {number : ℕ} {value : ℤ} {convert : ℤ → ℤ}
    (set : ℤ → BlockSyncMessage)
    (hrange : -2 ^ 63 ≤ value ∧ value < 2 ^ 63)
    (hconvert : convert (toSize value) = value)
    (hmerge : ∀ n : ℕ, merge (set 0) ⟨number, .varint n⟩ = set (convert n)) :
    (varintField number (toSize value)).foldl merge (set 0) = set value := by
  refine foldl_varintField (fun hzero => ?_) fun _ => ?_
  · rw [toSize_eq_zero hrange hzero]
  · rw [hmerge, hconvert]

/-- Every field of a message is read back. -/
theorem ofFields_toFields (h : m.InRange) : ofFields m.toFields = m := by
  have hversion : (varintField 1 (toSize m.version)).foldl merge {} =
      { version := m.version } :=
    foldl_int (fun version => { version := version })
      (by have hrange := h.version; omega) (toInt32_toSize h.version)
      fun _ => rfl
  have hpacketType : (varintField 2 (toSize m.packetType)).foldl merge
      { version := m.version } =
        { version := m.version, packetType := m.packetType } :=
    foldl_int (fun packetType =>
        { version := m.version, packetType := packetType })
      (by have hrange := h.packetType; omega)
      (toInt32_toSize h.packetType) fun _ => rfl
  have hnumber : (varintField 3 (toSize m.number)).foldl merge
      { version := m.version, packetType := m.packetType } =
        { version := m.version, packetType := m.packetType
          number := m.number } :=
    foldl_int (fun number =>
        { version := m.version, packetType := m.packetType
          number := number })
      h.number (toInt64_toSize h.number) fun _ => rfl
  have hhash : (bytesField 4 m.hash).foldl merge
      { version := m.version, packetType := m.packetType
        number := m.number } =
        { version := m.version, packetType := m.packetType
          number := m.number, hash := m.hash } := by
    refine foldl_bytesField (fun hnil => ?_) fun _ => rfl
    rw [hnil]
  have hgenesisHash : (bytesField 5 m.genesisHash).foldl merge
      { version := m.version, packetType := m.packetType
        number := m.number, hash := m.hash } =
        { version := m.version, packetType := m.packetType
          number := m.number, hash := m.hash
          genesisHash := m.genesisHash } := by
    refine foldl_bytesField (fun hnil => ?_) fun _ => rfl
    rw [hnil]
  have hsize : (varintField 6 (toSize m.size)).foldl merge
      { version := m.version, packetType := m.packetType
        number := m.number, hash := m.hash
        genesisHash := m.genesisHash } =
        { version := m.version, packetType := m.packetType
          number := m.number, hash := m.hash
          genesisHash := m.genesisHash, size := m.size } :=
    foldl_int (fun size =>
        { version := m.version, packetType := m.packetType
          number := m.number, hash := m.hash
          genesisHash := m.genesisHash, size := size })
      h.size (toInt64_toSize h.size) fun _ => rfl
  rw [ofFields, toFields, List.foldl_append, hversion, List.foldl_append,
    hpacketType, List.foldl_append, hnumber, List.foldl_append, hhash,
    List.foldl_append, hgenesisHash, List.foldl_append, hsize,
    foldl_blocksData, List.nil_append]

/-- A field that is merged keeps the message in range. -/
theorem InRange.merge (h : m.InRange) (f : Field) : (m.merge f).InRange := by
  unfold BlockSyncMessage.merge
  split
  · exact ⟨toInt32_range _, h.packetType, h.number, h.size⟩
  · exact ⟨h.version, toInt32_range _, h.number, h.size⟩
  · exact ⟨h.version, h.packetType, toInt64_range _, h.size⟩
  · exact ⟨h.version, h.packetType, h.number, h.size⟩
  · exact ⟨h.version, h.packetType, h.number, h.size⟩
  · exact ⟨h.version, h.packetType, h.number, toInt64_range _⟩
  · exact ⟨h.version, h.packetType, h.number, h.size⟩
  · exact h

theorem inRange_ofFields (fields : List Field) : (ofFields fields).InRange := by
  suffices hfold : ∀ m : BlockSyncMessage, m.InRange →
      (fields.foldl merge m).InRange from
    hfold {} ⟨by decide, by decide, by decide, by decide⟩
  induction fields with
  | nil => exact fun m h => h
  | cons f fields ih => exact fun m h => ih (m.merge f) (h.merge f)

end BlockSyncMessage

/-- The codec of the proto3 definition of the message. -/
def proto3 : PBCodec where
  serialize m := WireFormat.encode m.toFields
  parse data := (WireFormat.decode data).map BlockSyncMessage.ofFields
  parse_serialize m h := by
    rw [WireFormat.decode_encode fun f hf =>
        BlockSyncMessage.number_of_mem_toFields hf,
      Option.map_some, BlockSyncMessage.ofFields_toFields h]
  parse_inRange data m h := by
    obtain ⟨fields, -, rfl⟩ := Option.map_eq_some_iff.mp h
    exact BlockSyncMessage.inRange_ofFields fields

/-- The bytes of a status of version 1 at height 300. -/
example : proto3.serialize { version := 1, number := 300, hash := [7] } =
    [8, 1, 24, 172, 2, 34, 1, 7] := by decide

end BcosSync
