import BcosSync.Network.Sending
import BcosSync.Node.Wire
import BcosSync.Peers.Admission

/-!
# What a node takes over

A step changes the heights of the config to a height that its input names:
the chain height to that of a ledger config, the highest known number to the
chain height or to the number of a message.  The peer table changes when a
message arrives and when the node maintains its connections, and only there.
-/

namespace BcosSync

open MachineInt SyncPeerStatus CommitSide

/-- The input is a message whose number is `n` or higher. -/
def ReportsUpTo (i : BlockSync.Input) (n : ℤ) : Prop :=
  ∃ nodeID syncMsg, i = .syncMessage nodeID syncMsg ∧ n ≤ syncMsg.number

theorem ReportsUpTo.mono {i : BlockSync.Input} {m n : ℤ}
    (h : ReportsUpTo i n) (hle : m ≤ n) : ReportsUpTo i m := by
  obtain ⟨nodeID, syncMsg, hi, hn⟩ := h
  exact ⟨nodeID, syncMsg, hi, hle.trans hn⟩

/-- What an input can do to the config. -/
structure BlockSyncConfig.Advances (i : BlockSync.Input)
    (c d : BlockSyncConfig) : Prop where
  nodeID : d.nodeID = c.nodeID
  maxRequestBlocks : d.maxRequestBlocks = c.maxRequestBlocks
  maxShardPerPeer : d.maxShardPerPeer = c.maxShardPerPeer
  blockNumber : d.blockNumber = c.blockNumber ∨
    ledgerNumber i = some d.blockNumber
  blockNumber_le : c.blockNumber ≤ d.blockNumber
  known : d.knownHighestNumber ≤ c.knownHighestNumber ∨
    d.knownHighestNumber ≤ d.blockNumber ∨
    ReportsUpTo i d.knownHighestNumber

namespace BlockSyncConfig

theorem Advances.refl (i : BlockSync.Input) (c : BlockSyncConfig) :
    Advances i c c :=
  ⟨rfl, rfl, rfl, .inl rfl, le_rfl, .inl le_rfl⟩

theorem Advances.trans {i : BlockSync.Input} {c d e : BlockSyncConfig}
    (h : Advances i c d) (h' : Advances i d e) : Advances i c e := by
  refine ⟨h'.nodeID.trans h.nodeID,
    h'.maxRequestBlocks.trans h.maxRequestBlocks,
    h'.maxShardPerPeer.trans h.maxShardPerPeer, ?_,
    h.blockNumber_le.trans h'.blockNumber_le, ?_⟩
  · rcases h'.blockNumber with hsame | hledger
    · rw [hsame]
      exact h.blockNumber
    · exact .inr hledger
  · rcases h'.known with hle | hreported
    · rcases h.known with hknown | hnumber | hreported
      · exact .inl (hle.trans hknown)
      · exact .inr (.inl (hle.trans (hnumber.trans h'.blockNumber_le)))
      · exact .inr (.inr (hreported.mono hle))
    · exact .inr hreported

theorem advances_setExecutedBlock (i : BlockSync.Input) (n : ℤ)
    (c : BlockSyncConfig) : Advances i c (c.setExecutedBlock n) := by
  unfold setExecutedBlock
  split
  · exact ⟨rfl, rfl, rfl, .inl rfl, le_rfl, .inl le_rfl⟩
  · exact .refl i c

theorem nodeID_resetConfig (l : LedgerConfig) (c : BlockSyncConfig) :
    (c.resetConfig l).nodeID = c.nodeID := by
  unfold resetConfig resetBlockInfo
  dsimp only
  split_ifs <;> rfl

theorem maxRequestBlocks_resetConfig (l : LedgerConfig)
    (c : BlockSyncConfig) :
    (c.resetConfig l).maxRequestBlocks = c.maxRequestBlocks := by
  unfold resetConfig resetBlockInfo
  dsimp only
  split_ifs <;> rfl

theorem maxShardPerPeer_resetConfig (l : LedgerConfig)
    (c : BlockSyncConfig) :
    (c.resetConfig l).maxShardPerPeer = c.maxShardPerPeer := by
  unfold resetConfig resetBlockInfo
  dsimp only
  split_ifs <;> rfl

/-- A ledger config can raise the chain height. -/
theorem advances_resetConfig {i : BlockSync.Input} {c : BlockSyncConfig}
    {l : LedgerConfig} (hl : ledgerNumber i = some l.blockNumber)
    (hi : NonNegative i) (hnonneg : 0 ≤ c.blockNumber) :
    Advances i c (c.resetConfig l) := by
  by_cases hignored : c.ignores l
  · rw [resetConfig_of_ignores hignored]
    exact .refl i c
  · have hnumber := resetConfig_blockNumber hignored
    have hpos := hi l.blockNumber hl
    refine ⟨nodeID_resetConfig l c, maxRequestBlocks_resetConfig l c,
      maxShardPerPeer_resetConfig l c,
      .inr (hl.trans (congrArg some hnumber.symm)), ?_, ?_⟩
    · unfold ignores at hignored
      omega
    · rw [resetConfig_knownHighestNumber hignored, hnumber]
      exact (le_max_iff.mp le_rfl).imp_right .inl

theorem updateKnownMaxBlockInfo_number (status : BlockSyncStatus)
    (c : BlockSyncConfig) :
    (updateKnownMaxBlockInfo status c).knownHighestNumber =
        c.knownHighestNumber ∨
      (updateKnownMaxBlockInfo status c).knownHighestNumber =
        status.number := by
  unfold updateKnownMaxBlockInfo
  split_ifs
  · exact .inl rfl
  · exact .inl rfl
  · exact .inr rfl

/-- A status can raise what is known to its number. -/
theorem advances_updatePeerStatus {i : BlockSync.Input} (peer : PublicPtr)
    {status : BlockSyncStatus} (t : SyncPeerStatus) {c : BlockSyncConfig}
    (hstatus : status.number ≤ c.blockNumber ∨ ReportsUpTo i status.number) :
    Advances i c (SyncPeerStatus.updatePeerStatus peer status t c).2 := by
  have hknown : (SyncPeerStatus.updatePeerStatus peer status t
        c).2.knownHighestNumber = c.knownHighestNumber ∨
      (SyncPeerStatus.updatePeerStatus peer status t
        c).2.knownHighestNumber = status.number := by
    unfold SyncPeerStatus.updatePeerStatus
    split
    · exact .inl rfl
    · split
      · dsimp only
        split
        · exact updateKnownMaxBlockInfo_number status c
        · exact .inl rfl
      · exact updateKnownMaxBlockInfo_number status c
  obtain ⟨number, hash, hconfig⟩ :=
    SyncPeerStatus.updatePeerStatus_config peer status t c
  rw [hconfig] at hknown ⊢
  refine ⟨rfl, rfl, rfl, .inl rfl, le_rfl, ?_⟩
  rcases hknown with hsame | hnumber
  · exact .inl hsame.le
  · rw [hnumber]
    exact .inr hstatus

end BlockSyncConfig

theorem PeerSide.Update.advances {i : BlockSync.Input} {p q : PeerSide}
    (h : Update i p q) (hi : NonNegative i)
    (hnonneg : 0 ≤ p.config.blockNumber) : p.config.Advances i q.config := by
  cases h with
  | executed n c t => exact c.advances_setExecutedBlock i n
  | reset l c t hl => exact BlockSyncConfig.advances_resetConfig hl hi hnonneg
  | committedIndex n c t => exact ⟨rfl, rfl, rfl, .inl rfl, le_rfl, .inl le_rfl⟩
  | connectedNodes nodes c t =>
      exact ⟨rfl, rfl, rfl, .inl rfl, le_rfl, .inl le_rfl⟩
  | peerStatus nodeID syncMsg c t hmsg =>
      exact BlockSyncConfig.advances_updatePeerStatus nodeID t
        (.inr ⟨nodeID, syncMsg, hmsg, le_rfl⟩)
  | ownStatus c t =>
      exact BlockSyncConfig.advances_updatePeerStatus c.nodeID t
        (.inl le_rfl)
  | insertPeer => exact .refl i _
  | request => exact .refl i _
  | deletePeer => exact .refl i _

namespace BlockSync

variable {P : BlockQueue} {createBlock : BlockFactory} {s t : BlockSync P}
  {i : Input}

theorem step_advances (hstep : s.step createBlock i = some t)
    (hi : NonNegative i) (hnonneg : 0 ≤ s.config.blockNumber) :
    s.config.Advances i t.config := by
  refine (step_updates hstep).preserves
    (K := fun p => s.config.Advances i p.config) ?_ (.refl i s.config)
  intro p q hp hupdate
  exact hp.trans (hupdate.advances hi (hnonneg.trans hp.blockNumber_le))

theorem step_wellKept (hstep : s.step createBlock i = some t)
    (h : s.peerSide.WellKept) : t.peerSide.WellKept :=
  (step_updates hstep).preserves PeerSide.Update.wellKept h

/-- What a node starts with. -/
theorem IsInit.starts (h : IsInit P s) :
    s.syncStatus = ∅ ∧ s.outbox = [] ∧ s.config.maxRequestBlocks = 8 ∧
      s.config.maxShardPerPeer = 2 ∧
      s.config.knownHighestNumber = max 0 s.config.blockNumber := by
  obtain ⟨c, genesisHash, l, hc⟩ := h
  have hgenesis : (c.setGenesisHash genesisHash).blockNumber = 0 ∧
      (c.setGenesisHash genesisHash).knownHighestNumber = 0 ∧
      (c.setGenesisHash genesisHash).maxRequestBlocks = 8 ∧
      (c.setGenesisHash genesisHash).maxShardPerPeer = 2 := by
    unfold BlockSyncConfig.setGenesisHash
    dsimp only
    split_ifs
    · exact ⟨hc.blockNumber, hc.knownHighestNumber, hc.maxRequestBlocks,
        hc.maxShardPerPeer⟩
    · exact ⟨hc.blockNumber, hc.knownHighestNumber, hc.maxRequestBlocks,
        hc.maxShardPerPeer⟩
  obtain ⟨hnumber, hknown, hrequest, hshards⟩ := hgenesis
  have hreset : ¬ (c.setGenesisHash genesisHash).ignores l := by
    rintro ⟨-, hpos⟩
    omega
  have hside : ((new P c).init genesisHash l).peerSide =
      ⟨(c.setGenesisHash genesisHash).resetConfig l, ∅⟩ :=
    peerSide_resetConfig l _
  have hconfig := congrArg PeerSide.config hside
  refine ⟨congrArg PeerSide.syncStatus hside, ?_, ?_, ?_, ?_⟩
  · unfold init BlockSync.resetConfig
    split_ifs <;> rfl
  · rw [← hrequest]
    refine (congrArg BlockSyncConfig.maxRequestBlocks hconfig).trans ?_
    exact BlockSyncConfig.maxRequestBlocks_resetConfig l _
  · rw [← hshards]
    refine (congrArg BlockSyncConfig.maxShardPerPeer hconfig).trans ?_
    exact BlockSyncConfig.maxShardPerPeer_resetConfig l _
  · change ((new P c).init genesisHash l).peerSide.config.knownHighestNumber =
      max 0 ((new P c).init genesisHash l).peerSide.config.blockNumber
    rw [hconfig, BlockSyncConfig.resetConfig_knownHighestNumber hreset,
      BlockSyncConfig.resetConfig_blockNumber hreset, hknown]

/-! ## The peer table -/

section Table

variable {E : Bytes → PeerStatus → Prop}

/-- The own entry is the only one that changes when the node maintains its
connections. -/
theorem maintainPeersConnection_forall (h : s.syncStatus.Forall E)
    (hupdate : ∀ p, E s.config.nodeID.data p →
      E s.config.nodeID.data (p.update (currentStatus s.config)).2)
    (hnew : E s.config.nodeID.data
      (.new s.config.nodeID (currentStatus s.config))) :
    s.maintainPeersConnection.syncStatus.Forall E := by
  have hdelete : ∀ (peers : List PeerStatus) (t : SyncPeerStatus),
      t.Forall E → SyncPeerStatus.Forall E
        (peers.foldl (fun t p => SyncPeerStatus.deletePeer p.nodeId t) t) := by
    intro peers
    induction peers with
    | nil => exact fun t ht => ht
    | cons p peers ih => exact fun t ht => ih _ (ht.deletePeer p.nodeId)
  have hown : ∀ n (p : PeerSide), p.syncStatus.Forall E →
      p.config.nodeID = s.config.nodeID →
      currentStatus p.config = currentStatus s.config →
        (p.run (.replicate n .ownStatus)).syncStatus.Forall E := by
    intro n
    induction n with
    | zero => exact fun p hp _ _ => hp
    | succ n ih =>
        intro p hp hnodeID hstatus
        obtain ⟨number, hash, hconfig⟩ :=
          SyncPeerStatus.updatePeerStatus_config p.config.nodeID
            (currentStatus p.config) p.syncStatus p.config
        refine ih (p.updatePeerStatus p.config.nodeID
          (currentStatus p.config)) ?_ ?_ ?_
        · rw [hnodeID, hstatus]
          exact hp.updatePeerStatus _ _ _ hupdate hnew
        · dsimp only [PeerSide.updatePeerStatus]
          rw [hconfig]
          exact hnodeID
        · dsimp only [PeerSide.updatePeerStatus]
          rw [hconfig]
          exact hstatus
  by_cases hgroup : s.config.existsInGroup s.config.nodeID = true
  · have hside := congrArg PeerSide.syncStatus
      (peerSide_maintainPeersConnection hgroup)
    change s.maintainPeersConnection.peerSide.syncStatus.Forall E
    rw [hside]
    exact hown _ _ (hdelete _ _ h) rfl rfl
  · unfold maintainPeersConnection
    rw [if_pos (by simpa using hgroup)]
    exact h

theorem syncStatus_onNewBlock (l : LedgerConfig) (s : BlockSync P) :
    (s.onNewBlock l).syncStatus = s.syncStatus := by
  obtain ⟨out, hout⟩ := broadcastSyncStatus_eq (s.resetConfig l)
  have htable := congrArg PeerSide.syncStatus (peerSide_resetConfig l s)
  rw [onNewBlock, hout]
  exact htable

theorem syncStatus_onCommitBlock (throws : Option ThrowSite) (b : Block)
    (a : Except Error LedgerConfig) (s : BlockSync P) :
    (onCommitBlock throws b a s).syncStatus = s.syncStatus := by
  cases a with
  | error e => rfl
  | ok l =>
      dsimp only [onCommitBlock]
      unfold finalizeBlock
      dsimp only
      split_ifs
      · rfl
      · rw [(silent_tryToCommit throws _).syncStatus, syncStatus_onNewBlock]
        rfl

/-- What a step that is no message keeps of the entries. -/
theorem step_forall (hstep : s.step createBlock i = some t)
    (hi : ¬ IsMessage i) (h : s.syncStatus.Forall E)
    (hupdate : ∀ p, E s.config.nodeID.data p →
      E s.config.nodeID.data (p.update (currentStatus s.config)).2)
    (hnew : E s.config.nodeID.data
      (.new s.config.nodeID (currentStatus s.config))) :
    t.syncStatus.Forall E := by
  have hsame : ∀ u : BlockSync P, u.syncStatus = s.syncStatus →
      u.syncStatus.Forall E := fun u hu => hu ▸ h
  cases i with
  | downloadTask rand =>
      obtain rfl := Option.some.inj hstep
      have htable := congrArg PeerSide.syncStatus
        (peerSide_tryToRequestBlocks rand (s.requestState createBlock))
      exact hsame _
        (htable.trans (silent_requestState createBlock s).syncStatus)
  | maintainPeersConnection =>
      obtain rfl := Option.some.inj hstep
      exact maintainPeersConnection_forall h hupdate hnew
  | downloadTimeout =>
      simp only [step] at hstep
      split_ifs at hstep
      obtain rfl := Option.some.inj hstep
      exact h
  | syncMessage nodeID syncMsg => exact absurd trivial hi
  | notifyNewBlock l =>
      obtain rfl := Option.some.inj hstep
      unfold asyncNotifyNewBlock
      split_ifs
      · refine hsame _ ?_
        rw [(silent_tryToCommit none _).syncStatus, syncStatus_onNewBlock]
      · exact h
  | notifyCommittedIndex number =>
      obtain rfl := Option.some.inj hstep
      exact h
  | notifyConnectedNodes nodes =>
      obtain rfl := Option.some.inj hstep
      exact h
  | executeBlockAnswer b a throws =>
      obtain ⟨-, rfl⟩ := answer_eq_some.mp hstep
      exact hsame _ (silent_onExecuteBlock throws b a (s.resolve _)).syncStatus
  | asyncCheckBlockAnswer b a throws =>
      obtain ⟨-, rfl⟩ := answer_eq_some.mp hstep
      exact hsame _ (silent_onCheckBlock throws b a (s.resolve _)).syncStatus
  | asyncStoreTransactionsAnswer b e throws =>
      obtain ⟨-, rfl⟩ := answer_eq_some.mp hstep
      exact hsame _
        (silent_onStoreTransactions throws b e (s.resolve _)).syncStatus
  | commitBlockAnswer b a throws =>
      obtain ⟨-, rfl⟩ := answer_eq_some.mp hstep
      exact hsame _ (syncStatus_onCommitBlock throws b a (s.resolve _))

/-- What a message keeps of the entries: a status updates the entry of its
sender, a request is queued there. -/
theorem syncMessage_forall {nodeID : PublicPtr} {syncMsg : BlockSyncMessage}
    (h : s.syncStatus.Forall E)
    (hstatus : syncMsg.packetType = BlockSyncPacketType.blockStatusPacket →
      (∀ p, E nodeID.data p →
        E nodeID.data (p.update (BlockSyncStatus.ofMessage syncMsg)).2) ∧
        E nodeID.data (.new nodeID (BlockSyncStatus.ofMessage syncMsg)))
    (hrequest : syncMsg.packetType = BlockSyncPacketType.blockRequestPacket →
      E nodeID.data (.newEmpty nodeID) ∧
        ∀ p, E nodeID.data p → E nodeID.data
          { p with
            downloadRequests := p.downloadRequests.push
              s.config.maxDownloadRequestQueueSize syncMsg.number
              (toSize syncMsg.size) }) :
    (s.asyncNotifyBlockSyncMessage nodeID syncMsg).syncStatus.Forall E := by
  unfold asyncNotifyBlockSyncMessage
  split_ifs with hisStatus hisRequest
  · obtain ⟨hupdate, hnew⟩ := hstatus hisStatus
    unfold onPeerStatus
    split_ifs
    · exact h
    · exact h.updatePeerStatus nodeID _ s.config hupdate hnew
  · obtain ⟨hempty, hpush⟩ := hrequest hisRequest
    unfold onPeerBlocksRequest
    dsimp only
    have hinserted : SyncPeerStatus.Forall E
        (if (s.syncStatus.peerStatus nodeID).isNone ∧
            s.config.existsInGroup nodeID
          then s.syncStatus.insertEmptyPeer nodeID else s.syncStatus) := by
      split
      · exact h.insertEmptyPeer hempty
      · exact h
    split
    · exact h
    · next peer hpeer =>
        exact hinserted.replace (hpush _ (hinserted _ _ hpeer))
  · exact h
  · exact h

/-- What a packet that arrives keeps of the entries. -/
theorem receive_forall {packet : Packet} {nodeID : PublicPtr}
    (h : s.syncStatus.Forall E)
    (hstatus : ∀ msg, packet = .status msg →
      (∀ p, E nodeID.data p → E nodeID.data (p.update msg).2) ∧
        E nodeID.data (.new nodeID msg))
    (hrequest : ∀ number size, packet = .request number size →
      E nodeID.data (.newEmpty nodeID) ∧
        ∀ p, E nodeID.data p → E nodeID.data
          { p with
            downloadRequests := p.downloadRequests.push
              s.config.maxDownloadRequestQueueSize number
              (toSize (toInt64 size)) }) :
    (s.asyncNotifyBlockSyncMessage nodeID packet.message).syncStatus.Forall
      E := by
  cases packet with
  | status msg =>
      refine syncMessage_forall h (fun _ => ?_) fun hother => ?_
      · rw [Packet.ofMessage_status]
        exact hstatus msg rfl
      · cases hother
  | request number size =>
      refine syncMessage_forall h (fun hother => ?_) fun _ =>
        hrequest number size rfl
      cases hother
  | blocks number blockData =>
      refine syncMessage_forall h (fun hother => ?_) fun hother => ?_
      · cases hother
      · cases hother

end Table

end BlockSync

end BcosSync
