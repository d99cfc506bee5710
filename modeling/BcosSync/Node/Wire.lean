import BcosSync.Node.BlockSync
import BcosSync.Protocol.Messages

/-!
# A node on the wire

The front service hands over bytes, or an error in their place.  Data that
does not decode ends in the `catch` block, and a packet of an unknown type in
the default branch; both leave the node as it is.  So a run on the wire is the
run of the node over the messages that are left, and what the node reaches is
what it reaches with messages whose integers fit their fields.
-/

namespace BcosSync

open BlockSyncMsgFactory TransitionSystem

namespace BlockSync

variable {P : BlockQueue} {createBlock : BlockFactory} {codec : PBCodec}
  {s t : BlockSync P}

/-- `asyncNotifyBlockSyncMessage`. -/
def asyncNotifyBlockSyncMessageData (codec : PBCodec) (error : Option Error)
    (nodeID : PublicPtr) (data : Bytes) (s : BlockSync P) : BlockSync P :=
  match error with
  | some _ => s
  | none =>
      match createBlockSyncMsg codec data with
      | none => s
      | some syncMsg => s.asyncNotifyBlockSyncMessage nodeID syncMsg

/-- A packet that arrives is handled as the message of this packet. -/
theorem receive_packet (codec : PBCodec) {p : Packet} (hp : p.InRange)
    (nodeID : PublicPtr) (s : BlockSync P) :
    s.asyncNotifyBlockSyncMessageData codec none nodeID (p.encode codec) =
      s.asyncNotifyBlockSyncMessage nodeID p.message := by
  rw [asyncNotifyBlockSyncMessageData, p.parse_encode codec hp]

def IsMessage : Input → Prop
  | .syncMessage _ _ => True
  | _ => False

/-- What can happen to a node on the wire: bytes arrive, or one of the other
inputs. -/
inductive WireInput
  | message (error : Option Error) (nodeID : PublicPtr) (data : Bytes)
  | other (input : { i : Input // ¬ IsMessage i })

def wireStep (codec : PBCodec) (createBlock : BlockFactory)
    (s : BlockSync P) : WireInput → Option (BlockSync P)
  | .message error nodeID data =>
      some (s.asyncNotifyBlockSyncMessageData codec error nodeID data)
  | .other input => s.step createBlock input.1

end BlockSync

/-- The runs of a sync node on the wire. -/
def wireSystem (codec : PBCodec) (P : BlockQueue)
    (createBlock : BlockFactory) :
    TransitionSystem (BlockSync P) BlockSync.WireInput where
  IsInit := BlockSync.IsInit P
  step := BlockSync.wireStep codec createBlock

namespace BlockSync

variable {P : BlockQueue} {createBlock : BlockFactory} {codec : PBCodec}
  {s t : BlockSync P}

/-- The packet type is one of the three. -/
def KnownType (syncMsg : BlockSyncMessage) : Prop :=
  syncMsg.packetType = BlockSyncPacketType.blockStatusPacket ∨
    syncMsg.packetType = BlockSyncPacketType.blockRequestPacket ∨
    syncMsg.packetType = BlockSyncPacketType.blockResponsePacket

instance (syncMsg : BlockSyncMessage) : Decidable (KnownType syncMsg) :=
  inferInstanceAs (Decidable (_ ∨ _ ∨ _))

/-- The message that bytes from the front service carry, if they carry one
the node knows. -/
def received (codec : PBCodec) (error : Option Error) (data : Bytes) :
    Option BlockSyncMessage :=
  match error with
  | some _ => none
  | none => (createBlockSyncMsg codec data).filter fun m => KnownType m

/-- The input of the node for an input on the wire. -/
def WireInput.input (codec : PBCodec) : WireInput → Option Input
  | .message error nodeID data =>
      (received codec error data).map (.syncMessage nodeID)
  | .other input => some input.1

/-- A message of another type changes nothing. -/
theorem notify_of_unknown {syncMsg : BlockSyncMessage}
    (h : ¬ KnownType syncMsg) (nodeID : PublicPtr) (s : BlockSync P) :
    s.asyncNotifyBlockSyncMessage nodeID syncMsg = s := by
  obtain ⟨hstatus, hother⟩ := not_or.mp h
  obtain ⟨hrequest, hblocks⟩ := not_or.mp hother
  rw [asyncNotifyBlockSyncMessage, if_neg hstatus, if_neg hrequest,
    if_neg hblocks]

/-- Bytes that carry a message are handled as it, others change nothing. -/
theorem notifyData_eq (codec : PBCodec) (error : Option Error)
    (nodeID : PublicPtr) (data : Bytes) (s : BlockSync P) :
    s.asyncNotifyBlockSyncMessageData codec error nodeID data =
      (received codec error data).elim s fun syncMsg =>
        s.asyncNotifyBlockSyncMessage nodeID syncMsg := by
  unfold asyncNotifyBlockSyncMessageData received
  cases error with
  | some e => rfl
  | none =>
      dsimp only
      cases createBlockSyncMsg codec data with
      | none => rfl
      | some syncMsg =>
          dsimp only
          by_cases hknown : KnownType syncMsg
          · have hkept : (some syncMsg).filter (fun m => KnownType m) =
                some syncMsg := Option.filter_some_pos (by simpa using hknown)
            rw [hkept]
            rfl
          · have hleft : (some syncMsg).filter (fun m => KnownType m) =
                none := Option.filter_some_neg (by simpa using hknown)
            rw [hleft]
            exact notify_of_unknown hknown nodeID s

theorem wireStep_of_none {i : WireInput} (h : i.input codec = none)
    (s : BlockSync P) : s.wireStep codec createBlock i = some s := by
  cases i with
  | other input => cases h
  | message error nodeID data =>
      rw [wireStep, notifyData_eq, Option.map_eq_none_iff.mp h]
      rfl

theorem wireStep_of_some {i : WireInput} {j : Input}
    (h : i.input codec = some j) (s : BlockSync P) :
    s.wireStep codec createBlock i = s.step createBlock j := by
  cases i with
  | other input =>
      obtain rfl := Option.some.inj h
      rfl
  | message error nodeID data =>
      obtain ⟨syncMsg, hmsg, rfl⟩ := Option.map_eq_some_iff.mp h
      rw [wireStep, notifyData_eq, hmsg]
      rfl

/-- A run on the wire is the run over what the bytes carry. -/
theorem exec_wire (is : List WireInput) (s : BlockSync P) :
    (wireSystem codec P createBlock).exec s is =
      (nodeSystem P createBlock).exec s
        (is.filterMap (WireInput.input codec)) := by
  induction is generalizing s with
  | nil => rfl
  | cons i is ih =>
      rw [exec, List.filterMap_cons]
      cases hi : i.input codec with
      | none =>
          have hstep : (wireSystem codec P createBlock).step s i = some s :=
            wireStep_of_none hi s
          rw [hstep]
          exact ih s
      | some j =>
          have hstep : (wireSystem codec P createBlock).step s i =
              (nodeSystem P createBlock).step s j :=
            wireStep_of_some hi s
          rw [hstep]
          dsimp only
          rw [exec]
          cases (nodeSystem P createBlock).step s j with
          | none => rfl
          | some t => exact ih t

/-- The integers of a message fit the fields of the message. -/
def MessageFits : Input → Prop
  | .syncMessage _ syncMsg => syncMsg.InRange
  | _ => True

theorem received_inRange {error : Option Error} {data : Bytes}
    {syncMsg : BlockSyncMessage}
    (h : received codec error data = some syncMsg) : syncMsg.InRange := by
  unfold received at h
  cases error with
  | some e => cases h
  | none =>
      exact codec.parse_inRange data syncMsg (Option.filter_eq_some_iff.mp h).1

theorem input_fits {i : WireInput} {j : Input} (h : i.input codec = some j) :
    MessageFits j := by
  cases i with
  | message error nodeID data =>
      obtain ⟨syncMsg, hmsg, rfl⟩ := Option.map_eq_some_iff.mp h
      exact received_inRange hmsg
  | other input =>
      obtain rfl := Option.some.inj h
      obtain ⟨i, hi⟩ := input
      cases i with
      | syncMessage => exact absurd trivial hi
      | _ => trivial

/-- Every input whose integers fit can arrive on the wire. -/
theorem exists_wireInput (codec : PBCodec) (createBlock : BlockFactory)
    {j : Input} (h : MessageFits j) (s : BlockSync P) :
    ∃ i, s.wireStep codec createBlock i = s.step createBlock j := by
  by_cases hmessage : IsMessage j
  · cases j with
    | syncMessage nodeID syncMsg =>
        have hparse : createBlockSyncMsg codec (codec.serialize syncMsg) =
            some syncMsg := codec.parse_serialize syncMsg h
        refine ⟨.message none nodeID (codec.serialize syncMsg), ?_⟩
        rw [wireStep, asyncNotifyBlockSyncMessageData, hparse]
        rfl
    | _ => exact hmessage.elim
  · exact ⟨.other ⟨j, hmessage⟩, rfl⟩

theorem reachable_of_wire (h : (wireSystem codec P createBlock).Reachable s) :
    (nodeSystem P createBlock).ReachableBy MessageFits s := by
  refine h.invariant
    (I := fun s => (nodeSystem P createBlock).ReachableBy MessageFits s)
    ?_ ?_
  · exact fun s hs => .init hs
  intro s i t _ hs hstep
  cases hi : i.input codec with
  | none =>
      have hsame : some s = some t := (wireStep_of_none hi s).symm.trans hstep
      exact Option.some.inj hsame ▸ hs
  | some j =>
      exact .step hs (input_fits hi) ((wireStep_of_some hi s).symm.trans hstep)

theorem wire_of_reachable
    (h : (nodeSystem P createBlock).ReachableBy MessageFits s) :
    (wireSystem codec P createBlock).Reachable s := by
  refine h.invariant
    (I := fun s => (wireSystem codec P createBlock).Reachable s) ?_ ?_
  · exact fun s hs => .init hs
  intro s j t hj hs hstep
  obtain ⟨i, hi⟩ := exists_wireInput codec createBlock hj s
  exact .step hs trivial (hi.trans hstep)

/-- A node on the wire makes the runs of the node over the messages that its
bytes carry, with errors, data that does not decode and packets of unknown
types left out.  It reaches exactly what the node reaches by messages whose
integers fit their fields. -/
theorem wire_refines_node (codec : PBCodec) (P : BlockQueue)
    (createBlock : BlockFactory) (s : BlockSync P) :
    (∀ is, (wireSystem codec P createBlock).exec s is =
      (nodeSystem P createBlock).exec s
        (is.filterMap (WireInput.input codec))) ∧
    ((wireSystem codec P createBlock).Reachable s ↔
      (nodeSystem P createBlock).ReachableBy MessageFits s) :=
  ⟨fun is => exec_wire is s, reachable_of_wire, wire_of_reachable⟩

end BlockSync

end BcosSync
