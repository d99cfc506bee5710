import BcosSync.Commit.Effects
import BcosSync.Commit.Refinement
import Mathlib.Logic.Relation

/-!
# The peer side of a node

The config and the peer table, with the elementary updates the node makes to
them.  One input is a sequence of such updates (`step_updates`), so that what
each of them preserves, every step preserves.
-/

namespace BcosSync

open BlockSync Relation

structure PeerSide where
  config : BlockSyncConfig
  syncStatus : SyncPeerStatus

/-- One update of the config or the peer table that input `i` can make. -/
inductive PeerSide.Update (i : Input) : PeerSide → PeerSide → Prop
  | executed (n : ℤ) (c : BlockSyncConfig) (t : SyncPeerStatus) :
      Update i ⟨c, t⟩ ⟨c.setExecutedBlock n, t⟩
  | reset (l : LedgerConfig) (c : BlockSyncConfig) (t : SyncPeerStatus) :
      CommitSide.ledgerNumber i = some l.blockNumber →
      Update i ⟨c, t⟩ ⟨c.resetConfig l, t⟩
  | committedIndex (n : ℤ) (c : BlockSyncConfig) (t : SyncPeerStatus) :
      Update i ⟨c, t⟩ ⟨{ c with committedProposalNumber := n }, t⟩
  | connectedNodes (nodes : List PublicPtr) (c : BlockSyncConfig)
      (t : SyncPeerStatus) :
      Update i ⟨c, t⟩ ⟨{ c with connectedNodeList := nodes }, t⟩
  | peerStatus (nodeID : PublicPtr) (syncMsg : BlockSyncMessage)
      (c : BlockSyncConfig) (t : SyncPeerStatus) :
      i = .syncMessage nodeID syncMsg →
      c.existsInGroup nodeID = true ∨ c.blockNumber < syncMsg.number →
      Update i ⟨c, t⟩
        ⟨(SyncPeerStatus.updatePeerStatus nodeID
            (BlockSyncStatus.ofMessage syncMsg) t c).2,
          (SyncPeerStatus.updatePeerStatus nodeID
            (BlockSyncStatus.ofMessage syncMsg) t c).1⟩
  | ownStatus (c : BlockSyncConfig) (t : SyncPeerStatus) :
      Update i ⟨c, t⟩
        ⟨(SyncPeerStatus.updatePeerStatus c.nodeID (currentStatus c) t c).2,
          (SyncPeerStatus.updatePeerStatus c.nodeID (currentStatus c) t c).1⟩
  | insertPeer (nodeID : PublicPtr) (c : BlockSyncConfig)
      (t : SyncPeerStatus) :
      Update i ⟨c, t⟩ ⟨c, t.insertEmptyPeer nodeID⟩
  | request (nodeID : PublicPtr) (peer : PeerStatus) (number size : ℤ)
      (c : BlockSyncConfig) (t : SyncPeerStatus) :
      t.peerStatus nodeID = some peer →
      Update i ⟨c, t⟩
        ⟨c, t.replace nodeID.data
          { peer with
            downloadRequests := peer.downloadRequests.push
              c.maxDownloadRequestQueueSize number size }⟩
  | deletePeer (nodeID : PublicPtr) (c : BlockSyncConfig)
      (t : SyncPeerStatus) :
      Update i ⟨c, t⟩ ⟨c, t.deletePeer nodeID⟩

namespace BlockSync

variable {P : BlockQueue} {createBlock : BlockFactory} {i : Input}

def peerSide (s : BlockSync P) : PeerSide := ⟨s.config, s.syncStatus⟩

/-- `s` and `t` are related by updates that input `i` can make. -/
def UpdatesTo (i : Input) (s t : BlockSync P) : Prop :=
  ReflTransGen (PeerSide.Update i) s.peerSide t.peerSide

namespace UpdatesTo

theorem of_eq {s t : BlockSync P} (h : t.peerSide = s.peerSide) :
    UpdatesTo i s t := by
  rw [UpdatesTo, h]

theorem trans {s t u : BlockSync P} (h₁ : UpdatesTo i s t)
    (h₂ : UpdatesTo i t u) : UpdatesTo i s u :=
  ReflTransGen.trans h₁ h₂

theorem single {s t : BlockSync P}
    (h : PeerSide.Update i s.peerSide t.peerSide) : UpdatesTo i s t :=
  ReflTransGen.single h

theorem setExecutedBlock (n : ℤ) (s : BlockSync P) :
    UpdatesTo i s (s.setExecutedBlock n) :=
  single (.executed n _ _)

end UpdatesTo

/-! ## The callbacks -/

theorem peerSide_tryToCommit (throws : Option ThrowSite) (s : BlockSync P) :
    (tryToCommitBlockToLedger throws s).peerSide = s.peerSide := by
  obtain ⟨q, pending, trace, heq⟩ := tryToCommit_eq throws s
  rw [heq]
  rfl

theorem peerSide_commitBlockState (throws : Option ThrowSite) (b : Block)
    (s : BlockSync P) :
    (commitBlockState throws b s).peerSide = s.peerSide := by
  obtain ⟨pending, trace, heq⟩ := commitBlockState_eq throws b s
  rw [heq]
  rfl

theorem peerSide_commitBlock (throws : Option ThrowSite) (b : Block)
    (s : BlockSync P) : (commitBlock throws b s).peerSide = s.peerSide := by
  obtain ⟨pending, trace, heq⟩ := commitBlock_eq throws b s
  rw [heq]
  rfl

theorem peerSide_resetConfig (l : LedgerConfig) (s : BlockSync P) :
    (s.resetConfig l).peerSide =
      ⟨s.config.resetConfig l, s.syncStatus⟩ := by
  unfold resetConfig
  split_ifs with hignored
  · rw [BlockSyncConfig.resetConfig_of_ignores hignored]
    rfl
  · rfl

theorem updatesTo_onNewBlock {l : LedgerConfig}
    (hl : CommitSide.ledgerNumber i = some l.blockNumber)
    (s : BlockSync P) : UpdatesTo i s (s.onNewBlock l) := by
  obtain ⟨out, hout⟩ := broadcastSyncStatus_eq (s.resetConfig l)
  have hside : (s.onNewBlock l).peerSide =
      ⟨s.config.resetConfig l, s.syncStatus⟩ := by
    rw [onNewBlock, hout, ← peerSide_resetConfig]
    rfl
  refine .single ?_
  rw [hside]
  exact .reset l _ _ hl

theorem updatesTo_onExecuteBlock (throws : Option ThrowSite) (b : Block)
    (a : Except Error BlockHeader) (s : BlockSync P) :
    UpdatesTo i s (onExecuteBlock throws b a s) := by
  unfold onExecuteBlock
  cases a with
  | error e => exact .setExecutedBlock _ (s.log _)
  | ok header =>
      dsimp only
      split_ifs
      · exact (UpdatesTo.setExecutedBlock _ (s.log _)).trans
          (.of_eq (peerSide_tryToCommit throws _))
      · exact .setExecutedBlock _ (s.log _)

theorem updatesTo_onCheckBlock (throws : Option ThrowSite) (b : Block)
    (a : Except Error Bool) (s : BlockSync P) :
    UpdatesTo i s (onCheckBlock throws b a s) := by
  match a with
  | .error _ => exact .setExecutedBlock _ (s.log _)
  | .ok false => exact .setExecutedBlock _ (s.log _)
  | .ok true => exact .of_eq (peerSide_commitBlock throws b (s.log _))

theorem updatesTo_onStoreTransactions (throws : Option ThrowSite) (b : Block)
    (e : Option Error) (s : BlockSync P) :
    UpdatesTo i s (onStoreTransactions throws b e s) := by
  cases e with
  | none => exact .of_eq (peerSide_commitBlockState throws b (s.log _))
  | some e => exact .setExecutedBlock _ (s.log _)

theorem updatesTo_finalizeBlock (throws : Option ThrowSite) (b : Block)
    {l : LedgerConfig}
    (hl : CommitSide.ledgerNumber i = some l.blockNumber)
    (s : BlockSync P) : UpdatesTo i s (finalizeBlock throws b l s) := by
  unfold finalizeBlock
  dsimp only
  split_ifs
  · exact .of_eq rfl
  · exact (updatesTo_onNewBlock hl (s.log (.newBlockHandler b l))).trans
      (.of_eq (peerSide_tryToCommit throws _))

theorem updatesTo_onCommitBlock (throws : Option ThrowSite) (b : Block)
    {a : Except Error LedgerConfig}
    (hi : ∀ l, a = .ok l → CommitSide.ledgerNumber i = some l.blockNumber)
    (s : BlockSync P) : UpdatesTo i s (onCommitBlock throws b a s) := by
  cases a with
  | error e => exact .setExecutedBlock _ (s.log _)
  | ok l =>
      exact updatesTo_finalizeBlock throws b
        (l := CommitSide.completedConfig b l) (hi l rfl)
        (s.log (.commitBlockAnswer b (.ok l)))

/-! ## The download task -/

/-- The state in which the download task calls `tryToRequestBlocks`. -/
def requestState (createBlock : BlockFactory) (s : BlockSync P) :
    BlockSync P :=
  (s.maintainDownloadingBuffer createBlock).maintainDownloadingQueue

theorem updatesTo_applyBlock (b : Block) {s t : BlockSync P}
    (h : t.peerSide = s.peerSide) : UpdatesTo i s (applyBlock b t) := by
  refine UpdatesTo.trans (.of_eq h) ?_
  unfold applyBlock
  split_ifs
  · exact .setExecutedBlock _ t
  · exact .of_eq rfl

theorem updatesTo_requestState (s : BlockSync P) :
    UpdatesTo i s (s.requestState createBlock) := by
  obtain ⟨buffered, hbuffered⟩ := maintainDownloadingBuffer_eq createBlock s
  obtain ⟨q, pending, trace, hprepared⟩ := prepareExecution_eq
    (s.maintainDownloadingBuffer createBlock)
  have hside : (s.maintainDownloadingBuffer
      createBlock).prepareExecution.peerSide = s.peerSide := by
    rw [hprepared, hbuffered]
    rfl
  unfold requestState maintainDownloadingQueue
  split_ifs
  · exact .of_eq (by rw [hbuffered]; rfl)
  · dsimp only
    split
    · exact .of_eq hside
    · exact updatesTo_applyBlock _ hside

theorem peerSide_tryToRequestBlocks (rand : ℕ → ℕ → ℕ) (s : BlockSync P) :
    (s.tryToRequestBlocks rand).peerSide = s.peerSide := by
  unfold tryToRequestBlocks
  dsimp only
  split_ifs <;> rfl

/-! ## Messages and peers -/

theorem updatesTo_syncMessage (nodeID : PublicPtr)
    (syncMsg : BlockSyncMessage) (s : BlockSync P) :
    UpdatesTo (.syncMessage nodeID syncMsg) s
      (s.asyncNotifyBlockSyncMessage nodeID syncMsg) := by
  unfold asyncNotifyBlockSyncMessage
  split_ifs
  · unfold onPeerStatus
    split_ifs with hrejected
    · exact .of_eq rfl
    · refine .single (.peerStatus nodeID syncMsg _ _ rfl ?_)
      simpa [imp_iff_or_not, or_comm] using hrejected
  · unfold onPeerBlocksRequest
    dsimp only
    split
    · exact .of_eq rfl
    · next peer hpeer =>
        refine ReflTransGen.tail (b := ⟨s.config, _⟩) ?_
          (.request nodeID peer syncMsg.number _ s.config _ hpeer)
        split_ifs
        · exact .single (.insertPeer nodeID _ _)
        · exact .refl
  · exact .of_eq rfl
  · exact .of_eq rfl

theorem updatesTo_maintainPeersConnection (s : BlockSync P) :
    UpdatesTo i s s.maintainPeersConnection := by
  have hdelete : ∀ (peers : List PeerStatus) (t : SyncPeerStatus),
      ReflTransGen (PeerSide.Update i) ⟨s.config, t⟩
        ⟨s.config, peers.foldl
          (fun t p => SyncPeerStatus.deletePeer p.nodeId t) t⟩ := by
    intro peers
    induction peers with
    | nil => exact fun t => .refl
    | cons p peers ih =>
        exact fun t => .head (.deletePeer p.nodeId _ _) (ih _)
  have hown : ∀ (nodes : List PublicPtr) (t : BlockSync P),
      UpdatesTo i t (nodes.foldl
        (fun s node =>
          let updated := SyncPeerStatus.updatePeerStatus s.config.nodeID
            (currentStatus s.config) s.syncStatus s.config
          { s with syncStatus := updated.1, config := updated.2 }.send node
            (.status (currentStatus s.config))) t) := by
    intro nodes
    induction nodes with
    | nil => exact fun t => .of_eq rfl
    | cons node nodes ih =>
        exact fun t => UpdatesTo.trans (.single (.ownStatus _ _)) (ih _)
  unfold maintainPeersConnection
  split
  · exact .of_eq rfl
  · let peersToDelete := (s.syncStatus.entries.map fun e => e.2).filter
      (uncorrelated s.config)
    let kept := peersToDelete.foldl
      (fun t p => SyncPeerStatus.deletePeer p.nodeId t) s.syncStatus
    exact (hdelete peersToDelete s.syncStatus).trans
      (hown (connectedGroupNodes s.config) { s with syncStatus := kept })

/-! ## Steps -/

/-- One input is a sequence of elementary updates. -/
theorem step_updates {s t : BlockSync P}
    (hstep : s.step createBlock i = some t) : UpdatesTo i s t := by
  cases i with
  | downloadTask rand =>
      obtain rfl := Option.some.inj hstep
      exact (updatesTo_requestState s).trans
        (.of_eq (peerSide_tryToRequestBlocks rand _))
  | downloadTimeout =>
      simp only [step] at hstep
      split_ifs at hstep
      obtain rfl := Option.some.inj hstep
      exact .of_eq rfl
  | maintainPeersConnection =>
      obtain rfl := Option.some.inj hstep
      exact updatesTo_maintainPeersConnection s
  | syncMessage nodeID syncMsg =>
      obtain rfl := Option.some.inj hstep
      exact updatesTo_syncMessage nodeID syncMsg s
  | notifyNewBlock l =>
      obtain rfl := Option.some.inj hstep
      unfold asyncNotifyNewBlock
      split_ifs
      · exact (updatesTo_onNewBlock rfl s).trans
          (.of_eq (peerSide_tryToCommit none _))
      · exact .of_eq rfl
  | notifyCommittedIndex number =>
      obtain rfl := Option.some.inj hstep
      exact .single (.committedIndex number _ _)
  | notifyConnectedNodes nodes =>
      obtain rfl := Option.some.inj hstep
      exact .single (.connectedNodes nodes _ _)
  | executeBlockAnswer b a throws =>
      obtain ⟨-, rfl⟩ := answer_eq_some.mp hstep
      exact updatesTo_onExecuteBlock throws b a (s.resolve _)
  | asyncCheckBlockAnswer b a throws =>
      obtain ⟨-, rfl⟩ := answer_eq_some.mp hstep
      exact updatesTo_onCheckBlock throws b a (s.resolve _)
  | asyncStoreTransactionsAnswer b e throws =>
      obtain ⟨-, rfl⟩ := answer_eq_some.mp hstep
      exact updatesTo_onStoreTransactions throws b e (s.resolve _)
  | commitBlockAnswer b a throws =>
      obtain ⟨-, rfl⟩ := answer_eq_some.mp hstep
      refine updatesTo_onCommitBlock throws b ?_ (s.resolve _)
      rintro l rfl
      rfl

/-- What the updates preserve, a sequence of them preserves. -/
theorem UpdatesTo.preserves {K : PeerSide → Prop}
    (hK : ∀ p q, K p → PeerSide.Update i p q → K q) {s t : BlockSync P}
    (h : UpdatesTo i s t) (hs : K s.peerSide) : K t.peerSide :=
  ReflTransGen.rec (motive := fun q _ => K q) hs
    (fun _ hupdate ih => hK _ _ ih hupdate) h

end BlockSync

end BcosSync
