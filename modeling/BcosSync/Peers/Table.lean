import BcosSync.Peers.Model

/-!
# The entries of the peer table

Every entry of the peer table is filed under the key of its node, and its
request queue stays within the capacity, in every reachable state.
-/

namespace BcosSync

namespace SyncPeerStatus

variable {t : SyncPeerStatus} {E : Bytes → PeerStatus → Prop}

theorem lookup_replace (id : Bytes) (p : PeerStatus) (t : SyncPeerStatus)
    (id' : Bytes) :
    (t.replace id p).lookup id' =
      if id' = id then (t.lookup id).map fun _ => p else t.lookup id' := by
  suffices hlist : ∀ l : List (Sigma fun _ : Bytes => PeerStatus),
      (l.kreplace id p).dlookup id' =
        if id' = id then (l.dlookup id).map fun _ => p
        else l.dlookup id' from hlist t.entries
  intro l
  induction l with
  | nil => split_ifs <;> rfl
  | cons entry l ih =>
      obtain ⟨key, value⟩ := entry
      by_cases hkey : id = key
      · subst hkey
        have hhead : List.kreplace id p (⟨id, value⟩ :: l) =
            ⟨id, p⟩ :: l :=
          List.lookmap_cons_some _ _ (dif_pos rfl)
        rw [hhead]
        split_ifs with hid
        · subst hid
          rw [List.dlookup_cons_eq, List.dlookup_cons_eq]
          rfl
        · rw [List.dlookup_cons_ne _ _ hid, List.dlookup_cons_ne _ _ hid]
      · have htail : List.kreplace id p (⟨key, value⟩ :: l) =
            ⟨key, value⟩ :: List.kreplace id p l :=
          List.lookmap_cons_none _ _ (dif_neg hkey)
        rw [htail, List.dlookup_cons_ne (a := id) _ _ hkey]
        by_cases hid' : id' = key
        · subst hid'
          rw [if_neg (Ne.symm hkey), List.dlookup_cons_eq,
            List.dlookup_cons_eq]
        · rw [List.dlookup_cons_ne _ _ hid', ih,
            List.dlookup_cons_ne _ _ hid']

/-- Every entry of the table satisfies `E`. -/
def Forall (E : Bytes → PeerStatus → Prop) (t : SyncPeerStatus) : Prop :=
  ∀ id p, t.lookup id = some p → E id p

theorem Forall.and {E' : Bytes → PeerStatus → Prop} (h : t.Forall E)
    (h' : t.Forall E') : t.Forall fun id p => E id p ∧ E' id p :=
  fun id p hp => ⟨h id p hp, h' id p hp⟩

theorem Forall.mono {E' : Bytes → PeerStatus → Prop} (h : t.Forall E)
    (hE : ∀ id p, E id p → E' id p) : t.Forall E' :=
  fun id p hp => hE id p (h id p hp)

theorem Forall.replace (h : t.Forall E) {id : Bytes} {p : PeerStatus}
    (hp : E id p) : SyncPeerStatus.Forall E (t.replace id p) := by
  intro id' p' hp'
  rw [lookup_replace] at hp'
  split_ifs at hp' with hid
  · obtain ⟨_, -, rfl⟩ := Option.map_eq_some_iff.mp hp'
    exact hid ▸ hp
  · exact h id' p' hp'

theorem Forall.insert (h : t.Forall E) {id : Bytes} {p : PeerStatus}
    (hp : E id p) : SyncPeerStatus.Forall E (t.insert id p) := by
  intro id' p' hp'
  by_cases hid : id' = id
  · subst hid
    rw [AList.lookup_insert] at hp'
    exact Option.some.inj hp' ▸ hp
  · rw [AList.lookup_insert_ne hid] at hp'
    exact h id' p' hp'

theorem Forall.deletePeer (h : t.Forall E) (peer : PublicPtr) :
    SyncPeerStatus.Forall E (t.deletePeer peer) := by
  intro id p hp
  by_cases hid : id = peer.data
  · subst hid
    rw [SyncPeerStatus.deletePeer, AList.lookup_erase] at hp
    cases hp
  · rw [SyncPeerStatus.deletePeer, AList.lookup_erase_ne hid] at hp
    exact h id p hp

theorem Forall.insertEmptyPeer (h : t.Forall E) {peer : PublicPtr}
    (hp : E peer.data (PeerStatus.newEmpty peer)) :
    SyncPeerStatus.Forall E (t.insertEmptyPeer peer) := by
  unfold SyncPeerStatus.insertEmptyPeer insertNew
  split
  · exact h
  · exact h.insert hp

theorem Forall.updatePeerStatus (h : t.Forall E) (peer : PublicPtr)
    (status : BlockSyncStatus) (c : BlockSyncConfig)
    (hupdate : ∀ p, E peer.data p → E peer.data (p.update status).2)
    (hnew : E peer.data (PeerStatus.new peer status)) :
    SyncPeerStatus.Forall E
      (SyncPeerStatus.updatePeerStatus peer status t c).1 := by
  unfold SyncPeerStatus.updatePeerStatus
  split
  · exact h
  · split
    · next entry hentry => exact h.replace (hupdate _ (h _ _ hentry))
    · exact h.insert hnew

end SyncPeerStatus

/-- The entry is filed under the key of its node, and its request queue is
within the capacity. -/
def PeerStatus.Filed (capacity : ℕ) (id : Bytes) (p : PeerStatus) : Prop :=
  p.nodeId.data = id ∧ p.downloadRequests.size ≤ capacity

theorem PeerStatus.Filed.update {capacity : ℕ} {status : BlockSyncStatus}
    {id : Bytes} (p : PeerStatus) (h : p.Filed capacity id) :
    (p.update status).2.Filed capacity id := by
  unfold PeerStatus.update
  split_ifs <;> exact h

namespace PeerSide

/-- All entries are filed, with the capacity of the config. -/
def WellKept (p : PeerSide) : Prop :=
  p.syncStatus.Forall
    (PeerStatus.Filed p.config.maxDownloadRequestQueueSize)

theorem maxDownloadRequestQueueSize_updatePeerStatus (peer : PublicPtr)
    (status : BlockSyncStatus) (t : SyncPeerStatus) (c : BlockSyncConfig) :
    (SyncPeerStatus.updatePeerStatus peer status t
      c).2.maxDownloadRequestQueueSize = c.maxDownloadRequestQueueSize := by
  obtain ⟨_, _, heq⟩ :=
    SyncPeerStatus.updatePeerStatus_config peer status t c
  rw [heq]

theorem maxDownloadRequestQueueSize_resetConfig (l : LedgerConfig)
    (c : BlockSyncConfig) :
    (c.resetConfig l).maxDownloadRequestQueueSize =
      c.maxDownloadRequestQueueSize := by
  unfold BlockSyncConfig.resetConfig BlockSyncConfig.resetBlockInfo
  dsimp only
  split_ifs <;> rfl

theorem Update.wellKept {i : BlockSync.Input} (p q : PeerSide)
    (h : p.WellKept) (hupdate : Update i p q) : q.WellKept := by
  cases hupdate with
  | executed n c t =>
      unfold WellKept BlockSyncConfig.setExecutedBlock
      split_ifs <;> exact h
  | reset l c t =>
      unfold WellKept
      rw [maxDownloadRequestQueueSize_resetConfig]
      exact h
  | committedIndex => exact h
  | connectedNodes => exact h
  | peerStatus nodeID syncMsg c t =>
      unfold WellKept
      rw [maxDownloadRequestQueueSize_updatePeerStatus]
      exact SyncPeerStatus.Forall.updatePeerStatus h _ _ c
        PeerStatus.Filed.update ⟨rfl, Nat.zero_le _⟩
  | ownStatus c t =>
      unfold WellKept
      rw [maxDownloadRequestQueueSize_updatePeerStatus]
      exact SyncPeerStatus.Forall.updatePeerStatus h _ _ c
        PeerStatus.Filed.update ⟨rfl, Nat.zero_le _⟩
  | insertPeer =>
      exact SyncPeerStatus.Forall.insertEmptyPeer h ⟨rfl, Nat.zero_le _⟩
  | request nodeID peer number size c t hpeer =>
      obtain ⟨hkey, hroom⟩ := h _ _ hpeer
      exact SyncPeerStatus.Forall.replace h
        ⟨hkey, DownloadRequestQueue.size_push_le number size hroom⟩
  | deletePeer nodeID => exact SyncPeerStatus.Forall.deletePeer h nodeID

end PeerSide

namespace BlockSync

variable {P : BlockQueue} {createBlock : BlockFactory}

theorem IsInit.wellKept {s : BlockSync P} (h : IsInit P s) :
    s.peerSide.WellKept := by
  obtain ⟨c, genesisHash, l, -⟩ := h
  have hside : ((new P c).init genesisHash l).peerSide = _ :=
    peerSide_resetConfig l _
  rw [hside]
  intro id p hp
  cases hp

/-- Every entry of a reachable peer table is filed. -/
theorem reachable_wellKept {s : BlockSync P}
    (hs : (nodeSystem P createBlock).Reachable s) : s.peerSide.WellKept := by
  refine hs.invariant (I := fun s => s.peerSide.WellKept) ?_ ?_
  · exact fun s hs => IsInit.wellKept hs
  · exact fun s i t _ h hstep =>
      (step_updates hstep).preserves PeerSide.Update.wellKept h

end BlockSync

end BcosSync
