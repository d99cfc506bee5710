import BcosSync.Peers.KnownHighest

/-!
# Admission and eviction of peers

A peer is worth an entry if it is in the group or ahead of the node.  Statuses
and requests make entries for such peers only, and `maintainPeersConnection`
deletes the entries of the others, and of the peers that are not connected.
-/

namespace BcosSync

open BlockSync

/-! ## The table operations, entry by entry -/

namespace SyncPeerStatus

variable {t : SyncPeerStatus}

theorem lookup_updatePeerStatus_ne {peer : PublicPtr} {id : Bytes}
    (hid : id ≠ peer.data) (status : BlockSyncStatus) (t : SyncPeerStatus)
    (c : BlockSyncConfig) :
    (updatePeerStatus peer status t c).1.lookup id = t.lookup id := by
  unfold updatePeerStatus
  split
  · rfl
  · split
    · dsimp only
      rw [lookup_replace, if_neg hid]
    · exact AList.lookup_insert_ne hid

/-- Deleting the nodes of some peers. -/
theorem lookup_deletePeers (peers : List PeerStatus) (t : SyncPeerStatus)
    (id : Bytes) :
    (peers.foldl (fun t p => SyncPeerStatus.deletePeer p.nodeId t) t).lookup
        id =
      if ∃ p ∈ peers, p.nodeId.data = id then none else t.lookup id := by
  induction peers generalizing t with
  | nil => simp
  | cons p peers ih =>
      rw [List.foldl_cons, ih, deletePeer]
      by_cases hid : p.nodeId.data = id
      · subst hid
        rw [AList.lookup_erase, ite_self, if_pos ⟨p, List.mem_cons_self, rfl⟩]
      · rw [AList.lookup_erase_ne (Ne.symm hid)]
        simp [hid]

/-- Where every entry is filed under the key of its node, deleting the nodes
of the entries that satisfy `test` leaves the other entries. -/
theorem lookup_sweep (hfiled : t.Forall fun id p => p.nodeId.data = id)
    (test : PeerStatus → Bool) (id : Bytes) :
    (((t.entries.map fun e => e.2).filter test).foldl
        (fun t p => SyncPeerStatus.deletePeer p.nodeId t) t).lookup id =
      (t.lookup id).filter fun p => !test p := by
  have hdeleted : (∃ p ∈ (t.entries.map fun e => e.2).filter test,
      p.nodeId.data = id) ↔ ∃ p, t.lookup id = some p ∧ test p = true := by
    constructor
    · rintro ⟨p, hp, rfl⟩
      obtain ⟨hmem, htest⟩ := List.mem_filter.mp hp
      obtain ⟨⟨key, _⟩, he, rfl⟩ := List.mem_map.mp hmem
      have hlookup : t.lookup key = some _ :=
        (List.mem_dlookup_iff t.nodupKeys).mpr he
      have hkey : _ = key := hfiled key _ hlookup
      exact ⟨_, hkey ▸ hlookup, htest⟩
    · rintro ⟨p, hp, htest⟩
      refine ⟨p, List.mem_filter.mpr ⟨?_, htest⟩, hfiled id p hp⟩
      exact List.mem_map.mpr
        ⟨⟨id, p⟩, (List.mem_dlookup_iff t.nodupKeys).mp hp, rfl⟩
  rw [lookup_deletePeers]
  cases hlookup : t.lookup id with
  | none => simp
  | some p =>
      cases htest : test p with
      | false =>
          rw [if_neg, Option.filter_some_pos (by simp [htest])]
          rw [hdeleted]
          rintro ⟨q, hq, hqtest⟩
          obtain rfl := Option.some.inj (hlookup.symm.trans hq)
          rw [htest] at hqtest
          cases hqtest
      | true =>
          rw [if_pos (hdeleted.mpr ⟨p, hlookup, htest⟩),
            Option.filter_some_neg (by simp [htest])]

end SyncPeerStatus

/-! ## Who is swept -/

theorem BlockSyncConfig.existsInGroup_congr {c : BlockSyncConfig}
    {a b : PublicPtr} (h : a.data = b.data) :
    c.existsInGroup a = c.existsInGroup b := by
  unfold existsInGroup
  rw [h]

theorem BlockSyncConfig.connected_congr {c : BlockSyncConfig}
    {a b : PublicPtr} (h : a.data = b.data) :
    c.connected a = c.connected b := by
  unfold connected
  rw [h]

/-- An entry other than the node's own is swept unless its peer is connected,
and in the group or ahead of the node. -/
theorem uncorrelated_of_ne {c : BlockSyncConfig} {p : PeerStatus}
    (hself : p.nodeId.data ≠ c.nodeID.data) :
    (!uncorrelated c p) =
      (c.connected p.nodeId &&
        (c.existsInGroup p.nodeId || decide (c.blockNumber < p.number))) := by
  have hne : p.nodeId ≠ c.nodeID := fun heq => hself (congrArg _ heq)
  have hahead : decide (c.blockNumber < p.number) =
      !decide (p.number ≤ c.blockNumber) := by
    rw [← decide_not, decide_eq_decide]
    exact not_le.symm
  unfold uncorrelated
  rw [if_neg hne, hahead]
  cases c.connected p.nodeId <;> cases c.existsInGroup p.nodeId <;> simp

/-- The group has a connected node besides this one. -/
def BlockSyncConfig.HasOtherConnected (c : BlockSyncConfig) : Prop :=
  ∃ node ∈ c.consensusNodeList ++ c.observerNodeList,
    node.data ≠ c.nodeID.data ∧ c.connected node = true

/-- A connected node of the group is one of those that statuses go to. -/
theorem exists_mem_connectedGroupNodes {c : BlockSyncConfig}
    {node : PublicPtr} (hmem : node ∈ c.consensusNodeList ++ c.observerNodeList)
    (hother : node.data ≠ c.nodeID.data)
    (hconnected : c.connected node = true) :
    ∃ node' ∈ connectedGroupNodes c, node.data = node'.data := by
  -- each key of the group has one representative in `groupNodeList`
  have hlisted : ∃ node' ∈ c.groupNodeList, node.data = node'.data := by
    by_contra hnone
    have hsplit : ∀ {x y z : PublicPtr}, x.data ≠ z.data →
        x.data ≠ y.data ∨ y.data ≠ z.data := by
      intro x y z hxz
      by_cases hxy : x.data = y.data
      · exact .inr fun hyz => hxz (hxy.trans hyz)
      · exact .inl hxy
    have hall : ∀ node' ∈ c.groupNodeList, node.data ≠ node'.data :=
      fun node' hnode' hdata => hnone ⟨node', hnode', hdata⟩
    exact (List.forall_mem_pwFilter
      (R := fun a b : PublicPtr => a.data ≠ b.data) hsplit node _).mp hall
        node hmem rfl
  obtain ⟨node', hlisted, hdata⟩ := hlisted
  refine ⟨node', List.mem_filter.mpr ⟨hlisted, ?_⟩, hdata⟩
  rw [BlockSyncConfig.connected_congr hdata] at hconnected
  simpa [← hdata, hconnected] using hother

theorem connectedGroupNodes_ne_nil {c : BlockSyncConfig}
    (h : c.HasOtherConnected) : connectedGroupNodes c ≠ [] := by
  obtain ⟨node, hmem, hother, hconnected⟩ := h
  obtain ⟨node', hnode', -⟩ :=
    exists_mem_connectedGroupNodes hmem hother hconnected
  exact List.ne_nil_of_mem hnode'

namespace PeerSide

/-- Every entry but the node's own is of the group or ahead of the node. -/
def Correlated (p : PeerSide) : Prop :=
  p.syncStatus.Forall fun id entry => id ≠ p.config.nodeID.data →
    p.config.existsInGroup entry.nodeId = true ∨
      p.config.blockNumber < entry.number

/-- Every entry is filed under the key of its node. -/
abbrev IsFiled (p : PeerSide) : Prop :=
  p.syncStatus.Forall fun id entry => entry.nodeId.data = id

theorem WellKept.isFiled {p : PeerSide} (h : p.WellKept) : p.IsFiled :=
  h.mono fun _ _ hentry => hentry.1

/-! ## Admission -/

/-- A status that is let in belongs to a peer that is worth an entry. -/
theorem Correlated.updatePeerStatus {p : PeerSide} (h : p.Correlated)
    (hfiled : p.IsFiled) {nodeID : PublicPtr} {syncMsg : BlockSyncMessage}
    (hadmits : p.Admits nodeID syncMsg) :
    (p.updatePeerStatus nodeID
      (BlockSyncStatus.ofMessage syncMsg)).Correlated := by
  have hgroup : ∀ entry : PeerStatus, entry.nodeId.data = nodeID.data →
      entry.number = syncMsg.number →
      p.config.existsInGroup entry.nodeId = true ∨
        p.config.blockNumber < entry.number := by
    intro entry hdata hnumber
    rw [BlockSyncConfig.existsInGroup_congr hdata, hnumber]
    exact hadmits
  have htable := (hfiled.and h).updatePeerStatus nodeID
    (BlockSyncStatus.ofMessage syncMsg) p.config ?_ ?_
  · obtain ⟨number, hash, hconfig⟩ := SyncPeerStatus.updatePeerStatus_config
      nodeID (BlockSyncStatus.ofMessage syncMsg) p.syncStatus p.config
    rw [PeerSide.updatePeerStatus, hconfig]
    exact htable.mono fun _ _ hentry => hentry.2
  · rintro entry ⟨hdata, hentry⟩
    unfold PeerStatus.update
    split_ifs
    · exact ⟨hdata, hentry⟩
    · exact ⟨hdata, hentry⟩
    · exact ⟨hdata, fun _ => hgroup _ hdata rfl⟩
    · exact ⟨hdata, fun _ => hgroup _ hdata rfl⟩
  · exact ⟨rfl, fun _ => hgroup _ rfl rfl⟩

end PeerSide

/-! ## The own entry -/

namespace PeerSide

variable {genesisHash : HashType} {rs : List Report} {p : PeerSide}

/-- The own status gives the own entry the current height. -/
theorem Informed.lookup_ownStatus (h : Informed genesisHash rs p) :
    ∃ entry,
      (p.apply .ownStatus).syncStatus.lookup p.config.nodeID.data =
          some entry ∧
        entry.number = p.config.blockNumber := by
  rw [PeerSide.apply, PeerSide.updatePeerStatus]
  unfold SyncPeerStatus.updatePeerStatus
  rw [if_neg (not_not_intro (by rfl))]
  split
  · next entry hentry =>
      obtain ⟨-, hgenesis⟩ := h.entries _ _ hentry
      dsimp only
      rw [SyncPeerStatus.lookup_replace, if_pos rfl, hentry]
      refine ⟨_, rfl, ?_⟩
      unfold PeerStatus.update
      split_ifs with hsame hother
      · exact hsame.2.symm
      · -- the entry has the genesis hash of the node, or none yet
        rcases hgenesis with hzero | heq
        · exact absurd hzero hother.1
        · exact absurd (h.genesisHash_eq.trans heq.symm) hother.2
      · rfl
      · rfl
  · exact ⟨_, AList.lookup_insert _, rfl⟩

/-- The own status is taken over `n` times. -/
theorem Informed.run_ownStatus (h : Informed genesisHash rs p) (n : ℕ) :
    (p.run (.replicate n .ownStatus)).config = p.config ∧
      (∀ id ≠ p.config.nodeID.data,
        (p.run (.replicate n .ownStatus)).syncStatus.lookup id =
          p.syncStatus.lookup id) ∧
      (n ≠ 0 → ∃ entry,
        (p.run (.replicate n .ownStatus)).syncStatus.lookup
            p.config.nodeID.data = some entry ∧
          entry.number = p.config.blockNumber) := by
  induction n generalizing p with
  | zero => exact ⟨rfl, fun _ _ => rfl, fun hne => absurd rfl hne⟩
  | succ n ih =>
      have hconfig : (p.apply .ownStatus).config = p.config :=
        h.config_ownStatus p.config.nodeID
      obtain ⟨hrest, hothers, hown⟩ := ih (p := p.apply .ownStatus)
        (h.ownStatus p.config.nodeID)
      rw [hconfig] at hrest hothers hown
      refine ⟨hrest, fun id hid => (hothers id hid).trans ?_, fun _ => ?_⟩
      · exact SyncPeerStatus.lookup_updatePeerStatus_ne hid _ _ _
      · by_cases hn : n = 0
        · subst hn
          exact h.lookup_ownStatus
        · exact hown hn

end PeerSide

namespace BlockSync

variable {P : BlockQueue} {createBlock : BlockFactory}

theorem onPeerStatus_correlated {s : BlockSync P}
    (hfiled : s.peerSide.IsFiled) (h : s.peerSide.Correlated)
    (nodeID : PublicPtr) (syncMsg : BlockSyncMessage) :
    (s.onPeerStatus nodeID syncMsg).peerSide.Correlated := by
  unfold onPeerStatus
  split_ifs with hrejected
  · exact h
  · have hadmits : s.config.existsInGroup nodeID = true ∨
        s.config.blockNumber < syncMsg.number := by
      simpa [imp_iff_or_not, or_comm] using hrejected
    have hside : s.peerSide.Admits nodeID syncMsg := hadmits
    exact h.updatePeerStatus hfiled hside

/-- A request makes an entry for a peer of the group only. -/
theorem onPeerBlocksRequest_correlated {s : BlockSync P}
    (h : s.peerSide.Correlated) (nodeID : PublicPtr)
    (syncMsg : BlockSyncMessage) :
    (s.onPeerBlocksRequest nodeID syncMsg).peerSide.Correlated := by
  have hinserted : PeerSide.Correlated ⟨s.config,
      if (s.syncStatus.peerStatus nodeID).isNone ∧
        s.config.existsInGroup nodeID
      then s.syncStatus.insertEmptyPeer nodeID else s.syncStatus⟩ := by
    split_ifs with hinsert
    · exact SyncPeerStatus.Forall.insertEmptyPeer h fun _ => .inl hinsert.2
    · exact h
  unfold onPeerBlocksRequest
  dsimp only
  split
  · exact h
  · next peer hpeer =>
      exact SyncPeerStatus.Forall.replace hinserted (hinserted _ peer hpeer)

/-- Any sync messages leave every entry correlated. -/
theorem reachable_correlated_messages {s : BlockSync P}
    (hs : (nodeSystem P createBlock).Reachable s)
    (h : s.peerSide.Correlated)
    (packets : List (PublicPtr × BlockSyncMessage)) :
    (packets.foldl (fun s packet =>
      s.asyncNotifyBlockSyncMessage packet.1 packet.2)
        s).peerSide.Correlated := by
  induction packets generalizing s with
  | nil => exact h
  | cons packet packets ih =>
      refine ih (.step (i := .syncMessage packet.1 packet.2) hs trivial rfl) ?_
      unfold asyncNotifyBlockSyncMessage
      dsimp only
      split_ifs
      · exact onPeerStatus_correlated (reachable_wellKept hs).isFiled h _ _
      · exact onPeerBlocksRequest_correlated h _ _
      · exact h
      · exact h

theorem peerSide_foldl_ownStatus (nodes : List PublicPtr) (s : BlockSync P) :
    (nodes.foldl
      (fun s node =>
        let updated := SyncPeerStatus.updatePeerStatus s.config.nodeID
          (currentStatus s.config) s.syncStatus s.config
        { s with syncStatus := updated.1, config := updated.2 }.send node
          (.status (currentStatus s.config))) s).peerSide =
      s.peerSide.run (.replicate nodes.length .ownStatus) := by
  induction nodes generalizing s with
  | nil => rfl
  | cons node nodes ih =>
      rw [List.foldl_cons, ih]
      rfl

/-- `maintainPeersConnection` of a node of the group: the sweep, and then the
own status once for each connected node. -/
theorem peerSide_maintainPeersConnection {s : BlockSync P}
    (hgroup : s.config.existsInGroup s.config.nodeID = true) :
    s.maintainPeersConnection.peerSide =
      PeerSide.run
        ⟨s.config, ((s.syncStatus.entries.map fun e => e.2).filter
          (uncorrelated s.config)).foldl
            (fun t p => SyncPeerStatus.deletePeer p.nodeId t) s.syncStatus⟩
        (.replicate (connectedGroupNodes s.config).length .ownStatus) := by
  unfold maintainPeersConnection
  rw [if_neg (by simp [hgroup])]
  exact peerSide_foldl_ownStatus _ _

/-- The sweep keeps an entry of another node if and only if its peer is
connected, and in the group or ahead of the node; it changes none of the
entries it keeps, adds only the own one, and brings that up to date if another
node of the group is connected.  Statuses and requests make no entry that the
sweep would not keep for a connected peer. -/
theorem reachable_maintainPeersConnection {s : BlockSync P}
    (hs : (nodeSystem P createBlock).Reachable s)
    (hgroup : s.config.existsInGroup s.config.nodeID = true) :
    (∀ id ≠ s.config.nodeID.data,
      s.maintainPeersConnection.syncStatus.lookup id =
        (s.syncStatus.lookup id).filter fun p =>
          s.config.connected p.nodeId &&
            (s.config.existsInGroup p.nodeId ||
              decide (s.config.blockNumber < p.number))) ∧
    s.maintainPeersConnection.config = s.config ∧
    (s.config.HasOtherConnected → ∃ own,
      s.maintainPeersConnection.syncStatus.lookup s.config.nodeID.data =
          some own ∧
        own.number = s.config.blockNumber) ∧
    (s.peerSide.Correlated →
      (∀ nodeID syncMsg,
        (s.onPeerStatus nodeID syncMsg).peerSide.Correlated ∧
          (s.onPeerBlocksRequest nodeID syncMsg).peerSide.Correlated) ∧
      ∀ packets : List (PublicPtr × BlockSyncMessage),
        (packets.foldl (fun s packet =>
          s.asyncNotifyBlockSyncMessage packet.1 packet.2)
            s).peerSide.Correlated) := by
  have hfiled := (reachable_wellKept hs).isFiled
  obtain ⟨genesisHash, rs, hinformed⟩ := reachable_informed hs
  have hsweep := SyncPeerStatus.lookup_sweep (t := s.syncStatus) hfiled
    (uncorrelated s.config)
  have hswept : PeerSide.Informed genesisHash rs
      ⟨s.config, ((s.syncStatus.entries.map fun e => e.2).filter
        (uncorrelated s.config)).foldl
          (fun t p => SyncPeerStatus.deletePeer p.nodeId t) s.syncStatus⟩ := by
    refine ⟨hinformed.genesisHash_eq, hinformed.known,
      hinformed.blockNumber_le, fun id entry hentry => ?_⟩
    have hkept := (hsweep id).symm.trans hentry
    exact hinformed.entries id entry (Option.filter_eq_some_iff.mp hkept).1
  obtain ⟨hconfig, hothers, hown⟩ := hswept.run_ownStatus
    (connectedGroupNodes s.config).length
  rw [← peerSide_maintainPeersConnection hgroup] at hconfig hothers hown
  refine ⟨fun id hid => ?_, hconfig, fun hother => hown ?_, fun h => ⟨?_, ?_⟩⟩
  · refine ((hothers id hid).trans (hsweep id)).trans ?_
    cases hlookup : s.syncStatus.lookup id with
    | none => rfl
    | some p =>
        have hself : p.nodeId.data ≠ s.config.nodeID.data :=
          (hfiled id p hlookup).trans_ne hid
        simp only [Option.filter_some, uncorrelated_of_ne hself]
  · exact fun hzero => connectedGroupNodes_ne_nil hother
      (List.length_eq_zero_iff.mp hzero)
  · exact fun nodeID syncMsg =>
      ⟨onPeerStatus_correlated hfiled h nodeID syncMsg,
        onPeerBlocksRequest_correlated h nodeID syncMsg⟩
  · exact reachable_correlated_messages hs h

/-- Two peers have reported, and one of them is connected. -/
theorem reachable_maintainPeersConnection_sample :
    ∃ s, Sample.system.Reachable s ∧
      s.maintainPeersConnection.syncStatus.lookup Sample.peer.data =
        s.syncStatus.lookup Sample.peer.data ∧
      s.maintainPeersConnection.syncStatus.lookup Sample.otherPeer.data =
        none ∧
      ∃ own, s.maintainPeersConnection.syncStatus.lookup
          Sample.nodeID.data = some own ∧ own.number = 0 := by
  obtain ⟨s, hrun, hnodeID, hgroup, hkept, hswept, hother, hnumber⟩ :
      ∃ s, Sample.system.exec Sample.node
          [Sample.status Sample.peer 9, Sample.status Sample.otherPeer 5,
            .notifyConnectedNodes [Sample.peer]] = some s ∧
        s.config.nodeID = Sample.nodeID ∧
        s.config.existsInGroup s.config.nodeID = true ∧
        (∃ p, s.syncStatus.lookup Sample.peer.data = some p ∧
          s.config.connected p.nodeId = true ∧
          s.config.existsInGroup p.nodeId = true) ∧
        (∃ p, s.syncStatus.lookup Sample.otherPeer.data = some p ∧
          s.config.connected p.nodeId = false) ∧
        s.config.HasOtherConnected ∧ s.config.blockNumber = 0 := by
    refine ⟨_, rfl, rfl, rfl, ⟨_, rfl, rfl, rfl⟩, ⟨_, rfl, rfl⟩, ?_, rfl⟩
    exact ⟨Sample.peer, by decide +kernel, by decide, rfl⟩
  have hreach : Sample.system.Reachable s := .of_exec Sample.isInit_node hrun
  obtain ⟨hsweep, -, hown, -⟩ :=
    reachable_maintainPeersConnection hreach hgroup
  rw [hnodeID] at hsweep
  refine ⟨s, hreach, ?_, ?_, ?_⟩
  · obtain ⟨p, hp, hconnected, hmember⟩ := hkept
    rw [hsweep _ (by decide), hp, Option.filter_some_pos]
    rw [hconnected, hmember]
    rfl
  · obtain ⟨p, hp, hconnected⟩ := hswept
    rw [hsweep _ (by decide), hp, Option.filter_some_neg]
    rw [hconnected]
    rfl
  · rw [hnodeID, hnumber] at hown
    exact hown hother

end BlockSync

end BcosSync
