import BcosSync.Network.Entries

/-!
# Statuses do not contradict each other

Whatever a node is told, the statuses it sends are of one chain: their numbers
do not fall, and no positive number comes with two hashes.  So members that
hear of each other only cannot be brought to believe different things of a
third one at one height, also when its statuses arrive late or out of order.
-/

namespace BcosSync

open BlockSync SyncPeerStatus MessagePassing

/-- A status that may come after another one of the same node.  A height that
is not positive may be set anew. -/
structure BlockSyncStatus.Follows (new old : BlockSyncStatus) : Prop where
  genesisHash : new.genesisHash = old.genesisHash
  number : 0 < old.number → old.number ≤ new.number
  hash : 0 < old.number → old.number = new.number → new.hash = old.hash

namespace BlockSyncStatus

theorem Follows.refl (status : BlockSyncStatus) : status.Follows status :=
  ⟨rfl, fun _ => le_rfl, fun _ _ => rfl⟩

theorem Follows.trans {a b c : BlockSyncStatus} (h : c.Follows b)
    (h' : b.Follows a) : c.Follows a := by
  refine ⟨h.genesisHash.trans h'.genesisHash, fun hpos => ?_,
    fun hpos heq => ?_⟩
  · have hle := h'.number hpos
    exact hle.trans (h.number (hpos.trans_le hle))
  · have hle := h'.number hpos
    have hle' := h.number (hpos.trans_le hle)
    have hmid : a.number = b.number := by omega
    exact (h.hash (hmid ▸ hpos) (by omega)).trans (h'.hash hpos hmid)

/-- Statuses of one positive number have one hash. -/
def Agrees (a b : BlockSyncStatus) : Prop :=
  0 < a.number → a.number = b.number → a.hash = b.hash

instance : Std.Symm Agrees :=
  ⟨fun _ _ h hpos heq => (h (heq ▸ hpos) heq.symm).symm⟩

theorem Follows.agrees {a b : BlockSyncStatus} (h : a.Follows b) :
    a.Agrees b :=
  fun hpos heq => h.hash (heq ▸ hpos) heq.symm

end BlockSyncStatus

namespace BlockSync

variable {P : BlockQueue} {createBlock : BlockFactory} {s t : BlockSync P}

/-! ## What one node says -/

/-- The status that a packet carries. -/
def statusOf (m : PublicPtr × Packet) : Option BlockSyncStatus :=
  match m.2 with
  | .status msg => some msg
  | _ => none

/-- The statuses that have been sent, the newest one first. -/
def statuses (outbox : List (PublicPtr × Packet)) : List BlockSyncStatus :=
  outbox.filterMap statusOf

/-- Each status the node has sent follows the ones before it, and the current
one follows them all. -/
structure SpeaksOnce (s : BlockSync P) : Prop where
  sent : (statuses s.outbox).Pairwise BlockSyncStatus.Follows
  current : ∀ old ∈ statuses s.outbox, (currentStatus s.config).Follows old

theorem mem_statuses {outbox : List (PublicPtr × Packet)}
    {status : BlockSyncStatus} :
    status ∈ statuses outbox ↔ ∃ dst, (dst, .status status) ∈ outbox := by
  rw [statuses, List.mem_filterMap]
  constructor
  · rintro ⟨⟨dst, packet⟩, hm, hstatus⟩
    cases packet with
    | status msg =>
        obtain rfl := Option.some.inj hstatus
        exact ⟨dst, hm⟩
    | request number size => cases hstatus
    | blocks number blockData => cases hstatus
  · exact fun ⟨dst, hm⟩ => ⟨_, hm, rfl⟩

/-- Heights and hashes of the config are set together, and once only. -/
theorem step_follows {i : Input} (hstep : s.step createBlock i = some t) :
    (currentStatus t.config).Follows (currentStatus s.config) := by
  refine (step_updates hstep).preserves
    (K := fun p => (currentStatus p.config).Follows (currentStatus s.config))
    ?_ (.refl _)
  intro p q hp hupdate
  refine BlockSyncStatus.Follows.trans ?_ hp
  cases hupdate with
  | executed n c table =>
      have hsame : currentStatus (c.setExecutedBlock n) = currentStatus c := by
        unfold BlockSyncConfig.setExecutedBlock
        split_ifs <;> rfl
      exact hsame ▸ .refl _
  | reset l c table =>
      by_cases hignores : c.ignores l
      · rw [BlockSyncConfig.resetConfig, if_pos hignores]
        exact .refl _
      · have hnumber := BlockSyncConfig.resetConfig_blockNumber hignores
        have hlt : 0 < c.blockNumber → c.blockNumber < l.blockNumber :=
          fun hpos => not_le.mp fun hle => hignores ⟨hle, hpos⟩
        refine ⟨?_, fun hpos => ?_, fun hpos heq => ?_⟩
        · dsimp only [currentStatus]
          rw [BlockSyncConfig.resetConfig, if_neg hignores]
          unfold BlockSyncConfig.resetBlockInfo
          dsimp only
          split_ifs <;> rfl
        · exact (hlt hpos).le.trans_eq hnumber.symm
        · exact absurd (heq.trans hnumber) (hlt hpos).ne
  | committedIndex n c table => exact .refl _
  | connectedNodes nodes c table => exact .refl _
  | peerStatus nodeID syncMsg c table =>
      obtain ⟨number, hash, hconfig⟩ := updatePeerStatus_config nodeID
        (BlockSyncStatus.ofMessage syncMsg) table c
      dsimp only
      rw [hconfig]
      exact .refl _
  | ownStatus c table =>
      obtain ⟨number, hash, hconfig⟩ := updatePeerStatus_config c.nodeID
        (currentStatus c) table c
      dsimp only
      rw [hconfig]
      exact .refl _
  | insertPeer => exact .refl _
  | request => exact .refl _
  | deletePeer => exact .refl _

/-- A node that goes on may announce its current status. -/
theorem SpeaksOnce.grows (h : s.SpeaksOnce)
    (hfollows : (currentStatus t.config).Follows (currentStatus s.config))
    (hgrows : Grows (fun m => ∀ msg, m.2 = .status msg →
      msg = currentStatus t.config) s.outbox t.outbox) : t.SpeaksOnce := by
  obtain ⟨sent, hout, hsent⟩ := hgrows
  have hnew : ∀ status ∈ statuses sent, status = currentStatus t.config := by
    intro status hstatus
    obtain ⟨dst, hm⟩ := mem_statuses.mp hstatus
    exact hsent _ hm status rfl
  have hold : ∀ old ∈ statuses s.outbox,
      (currentStatus t.config).Follows old :=
    fun old hmem => hfollows.trans (h.current old hmem)
  have happend : statuses t.outbox = statuses sent ++ statuses s.outbox := by
    rw [hout, statuses, List.filterMap_append]
    rfl
  constructor
  · rw [happend, List.pairwise_append]
    refine ⟨List.pairwise_of_forall_mem_list fun a ha b hb => ?_, h.sent,
      fun a ha b hb => ?_⟩
    · rw [hnew a ha, hnew b hb]
      exact .refl _
    · rw [hnew a ha]
      exact hold b hb
  · intro old hmem
    rw [happend] at hmem
    rcases List.mem_append.mp hmem with hmem | hmem
    · rw [hnew old hmem]
      exact .refl _
    · exact hold old hmem

theorem SpeaksOnce.agrees (h : s.SpeaksOnce) {a b : BlockSyncStatus}
    (ha : a ∈ statuses s.outbox) (hb : b ∈ statuses s.outbox) : a.Agrees b :=
  (h.sent.imp BlockSyncStatus.Follows.agrees).forall_of_forall
    (fun _ _ _ _ => rfl) ha hb

theorem SpeaksOnce.step {i : Input} (h : s.SpeaksOnce)
    (hstep : s.step createBlock i = some t) : t.SpeaksOnce := by
  refine h.grows (step_follows hstep) ((step_grows hstep fun rand _ =>
    tryToRequestBlocks_onlyRequests rand _).mono ?_)
  rintro m (⟨-, hstatus⟩ | ⟨number, size, hrequest⟩) msg hmsg
  · exact Packet.status.inj (hmsg.symm.trans hstatus)
  · cases hrequest.symm.trans hmsg

theorem SpeaksOnce.maintainBlockRequest {ledger : Ledger} {rand : ℕ → ℕ}
    {fuel : ℕ} (h : s.SpeaksOnce)
    (hpass : s.maintainBlockRequest ledger rand fuel = some t) :
    t.SpeaksOnce := by
  have hpass := pass_maintainBlockRequest hpass
  have hconfig : t.config = s.config := (congrArg BlockSync.config hpass.eq :)
  obtain ⟨sent, hout, hsent⟩ := hpass.answers_some
  refine h.grows (hconfig ▸ .refl _) ⟨sent, hout, fun m hm msg hmsg => ?_⟩
  obtain ⟨n, _, _, -, -, hpacket⟩ := hsent m hm
  cases hpacket.symm.trans hmsg

end BlockSync

namespace Deployment

variable {P : BlockQueue} {κ : Type} {D : Deployment κ}
  {N : κ → Member P} {j k k' : κ}

/-- The entry of another member has a positive number only if this member has
sent it, together with the hash. -/
def Stated (D : Deployment κ) (N : κ → Member P) (k : κ) (id : Bytes)
    (p : PeerStatus) : Prop :=
  ∀ j ≠ k, D.key j = id → 0 < p.number →
    ∃ status ∈ statuses (N j).sync.outbox,
      status.number = p.number ∧ status.hash = p.hash

theorem Stated.update {id : Bytes} {p : PeerStatus}
    (h : D.Stated N k id p) {status : BlockSyncStatus}
    (hstatus : ∀ j ≠ k, D.key j = id →
      status ∈ statuses (N j).sync.outbox) :
    D.Stated N k id (p.update status).2 := by
  unfold PeerStatus.update
  split_ifs
  · exact h
  · exact h
  · exact fun j hjk hj _ => ⟨status, hstatus j hjk hj, rfl, rfl⟩
  · exact fun j hjk hj _ => ⟨status, hstatus j hjk hj, rfl, rfl⟩

theorem restsOnSent_stated (D : Deployment κ) :
    D.RestsOnSent (P := P) D.Stated where
  mono hN h j hjk hj hpos := by
    obtain ⟨status, hmem, hstatus⟩ := h j hjk hj hpos
    obtain ⟨dst, hsent⟩ := mem_statuses.mp hmem
    exact ⟨status, mem_statuses.mpr ⟨dst, hN j hsent⟩, hstatus⟩
  emptied h _ := h
  own {N k} nodeID status hself := by
    have hnone : ∀ j ≠ k, D.key j = nodeID.data → False :=
      fun j hjk hj => hjk (D.key_injective (hj.trans hself))
    exact ⟨fun p hp => hp.update fun j hjk hj => (hnone j hjk hj).elim,
      fun j hjk hj => (hnone j hjk hj).elim⟩
  status {N k src dst status} hsent addr := by
    have hsays : ∀ j ≠ k, D.key j = D.key src →
        status ∈ statuses (N j).sync.outbox := by
      intro j _ hj
      exact D.key_injective hj ▸ mem_statuses.mpr ⟨dst, hsent⟩
    exact ⟨fun p hp => hp.update hsays,
      fun j hjk hj _ => ⟨status, hsays j hjk hj, rfl, rfl⟩⟩
  request _ _ _ _ _ :=
    ⟨fun _ _ _ hpos => absurd hpos (lt_irrefl _), fun _ _ hp => hp⟩

variable [DecidableEq κ]

/-- Whatever is made up and in whosever name, a member does not contradict
itself. -/
theorem reachable_speaksOnce (h : (networkSystem D P).Reachable N) (k : κ) :
    (N k).sync.SpeaksOnce := by
  refine (reachable_party h k).invariant
    (I := fun m : Member P => m.sync.SpeaksOnce) ?_ ?_
  · intro m hm
    have hnone : statuses m.sync.outbox = [] := by
      rw [hm.isInit.starts.2.1]
      rfl
    constructor
    · rw [hnone]
      exact .nil
    · rw [hnone]
      exact fun _ hmem => absurd hmem List.not_mem_nil
  · intro m i t _ hm hstep
    rcases Member.step_sync hstep with hsame | ⟨i, hsync⟩ |
      ⟨rand, fuel, hsync⟩
    · exact hsame ▸ hm
    · exact hm.step hsync
    · exact hm.maintainBlockRequest hsync

/-- The second member has announced its height. -/
theorem reachable_speaksOnce_sample :
    ∃ N, (networkSystem Sample.pair sortedBlockQueue).exec Sample.members
        Sample.exchange = some N ∧
      (Sample.nodeID, .status (currentStatus (N true).sync.config)) ∈
        (N true).sync.outbox ∧
      (N true).sync.SpeaksOnce := by
  have hrun : (((networkSystem Sample.pair sortedBlockQueue).exec
      Sample.members Sample.exchange).any fun N =>
        (Sample.nodeID, .status (currentStatus (N true).sync.config)) ∈
          (N true).sync.outbox) = true := by
    decide
  obtain ⟨N, hN, hsent⟩ := (Option.any_eq_true _ _).mp hrun
  exact ⟨N, hN, of_decide_eq_true hsent, reachable_speaksOnce
    (.of_exec Sample.isInit_members hN) true⟩

/-- Members do not believe different things of one member at one height, and
what they believe of its present height is so. -/
theorem reachable_agree_on_peers
    (h : (networkSystem D P).ReachableBy Genuine N) (hjk : j ≠ k)
    {p : PeerStatus} (hp : (N k).sync.syncStatus.lookup (D.key j) = some p)
    (hpos : 0 < p.number) :
    (p.number = (N j).height → p.hash = (N j).sync.config.hash) ∧
      ∀ k' p', j ≠ k' →
        (N k').sync.syncStatus.lookup (D.key j) = some p' →
        p'.number = p.number → p'.hash = p.hash := by
  have honce := reachable_speaksOnce (h.mono fun _ _ => trivial) j
  have hstated := (restsOnSent_stated D).reachable h
  obtain ⟨status, hmem, hnumber, hhash⟩ :=
    hstated k _ p hp j hjk rfl hpos
  refine ⟨fun hheight => ?_, fun k' p' hjk' hp' heq => ?_⟩
  · have hfollows := honce.current status hmem
    exact hhash.symm.trans
      (hfollows.hash (hnumber ▸ hpos) (hnumber.trans hheight)).symm
  · obtain ⟨status', hmem', hnumber', hhash'⟩ :=
      hstated k' _ p' hp' j hjk' rfl (heq ▸ hpos)
    rw [← hhash, ← hhash']
    exact honce.agrees hmem' hmem (by omega) (by omega)

/-- The first member has heard of the height of the second one. -/
theorem reachable_agree_on_peers_sample :
    ∃ N p, (networkSystem Sample.pair sortedBlockQueue).exec Sample.members
        Sample.exchange = some N ∧
      (N false).sync.syncStatus.lookup Sample.peer.data = some p ∧
      p.number = 2 ∧ p.hash = (N true).sync.config.hash := by
  have hrun : (((networkSystem Sample.pair sortedBlockQueue).exec
      Sample.members Sample.exchange).any fun N => (N true).height = 2 ∧
        ((N false).sync.syncStatus.lookup Sample.peer.data).any
          (fun p => p.number = 2) = true) = true := by
    decide
  obtain ⟨N, hN, hfacts⟩ := (Option.any_eq_true _ _).mp hrun
  obtain ⟨hheight, hheard⟩ := of_decide_eq_true hfacts
  obtain ⟨p, hp, hnumber⟩ := (Option.any_eq_true _ _).mp hheard
  have hnumber := of_decide_eq_true hnumber
  have hreach := (TransitionSystem.ReachableBy.init
    Sample.isInit_members).exec Sample.genuine_exchange hN
  have hpos : 0 < p.number := hnumber ▸ (by decide)
  exact ⟨N, p, hN, hp, hnumber, (reachable_agree_on_peers (j := true)
    (k := false) hreach (by decide) hp hpos).1 (hnumber.trans hheight.symm)⟩

end Deployment

end BcosSync
