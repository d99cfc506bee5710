import BcosSync.Network.Receiving

/-!
# Only peers at the top are asked

A node sends its requests to peers at the highest number that it knows of.  So
one peer that reports a number no other peer has reported is the only one that
is asked, until another peer reports as much or the chain of the node gets
there.  Whether the number is true makes no difference: a peer that makes it up
keeps the node from asking the others.
-/

namespace BcosSync

open BlockSync SyncPeerStatus CommitSide

namespace BlockSync

variable {P : BlockQueue} {createBlock : BlockFactory} {s t : BlockSync P}

/-! ## One peer at the top -/

/-- Nobody but the peer with key `id` has reported `n` or more, and the chain
of the node is below. -/
structure Exclusive (id : Bytes) (n : ℤ) (s : BlockSync P) : Prop where
  pos : 0 < n
  blockNumber_lt : s.config.blockNumber < n
  known : n ≤ s.config.knownHighestNumber
  others : s.syncStatus.Forall fun key p => key ≠ id → p.number < n

/-- A status from anybody else and a ledger config are below `n`. -/
structure StaysBelow (id : Bytes) (n : ℤ) (i : Input) : Prop where
  ledger : ∀ l ∈ ledgerNumber i, l < n
  status : ∀ nodeID syncMsg, i = .syncMessage nodeID syncMsg →
    syncMsg.packetType = BlockSyncPacketType.blockStatusPacket →
      nodeID.data ≠ id → syncMsg.number < n

/-- What is known does not fall. -/
theorem known_le_updatePeerStatus (peer : PublicPtr) (status : BlockSyncStatus)
    (table : SyncPeerStatus) (c : BlockSyncConfig) :
    c.knownHighestNumber ≤
      (updatePeerStatus peer status table c).2.knownHighestNumber := by
  have hraise : c.knownHighestNumber ≤
      (updateKnownMaxBlockInfo status c).knownHighestNumber := by
    unfold updateKnownMaxBlockInfo
    split_ifs with _ hle
    · exact le_rfl
    · exact le_rfl
    · exact (not_le.mp hle).le
  unfold updatePeerStatus
  split_ifs
  · exact le_rfl
  · split
    · dsimp only
      split_ifs
      · exact hraise
      · exact le_rfl
    · exact hraise

theorem step_heights {i : Input} {n : ℤ}
    (hstep : s.step createBlock i = some t)
    (hledger : ∀ l ∈ ledgerNumber i, l < n) (hnumber : s.config.blockNumber < n)
    (hknown : n ≤ s.config.knownHighestNumber) :
    t.config.blockNumber < n ∧ n ≤ t.config.knownHighestNumber := by
  refine (step_updates hstep).preserves
    (K := fun p => p.config.blockNumber < n ∧ n ≤ p.config.knownHighestNumber)
    ?_ ⟨hnumber, hknown⟩
  rintro p q ⟨hnumber, hknown⟩ hupdate
  cases hupdate with
  | executed m c table =>
      dsimp only at hnumber hknown ⊢
      unfold BlockSyncConfig.setExecutedBlock
      split_ifs <;> exact ⟨hnumber, hknown⟩
  | reset l c table hl =>
      dsimp only at hnumber hknown ⊢
      by_cases hignores : c.ignores l
      · rw [BlockSyncConfig.resetConfig, if_pos hignores]
        exact ⟨hnumber, hknown⟩
      · rw [BlockSyncConfig.resetConfig_blockNumber hignores,
          BlockSyncConfig.resetConfig_knownHighestNumber hignores]
        exact ⟨hledger _ hl, hknown.trans (le_max_left _ _)⟩
  | committedIndex => exact ⟨hnumber, hknown⟩
  | connectedNodes => exact ⟨hnumber, hknown⟩
  | peerStatus nodeID syncMsg c table =>
      have hle := known_le_updatePeerStatus nodeID
        (BlockSyncStatus.ofMessage syncMsg) table c
      obtain ⟨_, _, hconfig⟩ := updatePeerStatus_config nodeID
        (BlockSyncStatus.ofMessage syncMsg) table c
      refine ⟨?_, hknown.trans hle⟩
      dsimp only
      rw [hconfig]
      exact hnumber
  | ownStatus c table =>
      have hle := known_le_updatePeerStatus c.nodeID (currentStatus c) table c
      obtain ⟨_, _, hconfig⟩ := updatePeerStatus_config c.nodeID
        (currentStatus c) table c
      refine ⟨?_, hknown.trans hle⟩
      dsimp only
      rw [hconfig]
      exact hnumber
  | insertPeer => exact ⟨hnumber, hknown⟩
  | request => exact ⟨hnumber, hknown⟩
  | deletePeer => exact ⟨hnumber, hknown⟩

theorem update_number_lt {p : PeerStatus} {status : BlockSyncStatus} {n : ℤ}
    (hp : p.number < n) (hstatus : status.number < n) :
    (p.update status).2.number < n := by
  unfold PeerStatus.update
  split_ifs
  · exact hp
  · exact hp
  · exact hstatus
  · exact hstatus

theorem Exclusive.step {id : Bytes} {n : ℤ} {i : Input}
    (h : s.Exclusive id n) (hi : StaysBelow id n i)
    (hstep : s.step createBlock i = some t) : t.Exclusive id n := by
  obtain ⟨hnumber, hknown⟩ :=
    step_heights hstep hi.ledger h.blockNumber_lt h.known
  refine ⟨h.pos, hnumber, hknown, ?_⟩
  by_cases hmsg : IsMessage i
  · match i, hmsg with
    | .syncMessage nodeID syncMsg, _ =>
        obtain rfl := Option.some.inj hstep
        refine syncMessage_forall h.others (fun htype => ?_) fun _ => ?_
        · have hstatus := hi.status nodeID syncMsg rfl htype
          exact ⟨fun p hp hne => update_number_lt (hp hne) (hstatus hne),
            hstatus⟩
        · exact ⟨fun _ => h.pos, fun _ hp => hp⟩
  · exact step_forall hstep hmsg h.others
      (fun p hp hne => update_number_lt (hp hne) h.blockNumber_lt)
      fun _ => h.blockNumber_lt

/-- The requests that one step sends go to this peer. -/
theorem Exclusive.step_asks {id : Bytes} {n : ℤ} {i : Input}
    (h : s.Exclusive id n)
    (hfiled : ∀ key p, s.syncStatus.lookup key = some p → p.nodeId.data = key)
    (hstep : s.step createBlock i = some t) :
    Grows (fun m => IsRequest m → m.1.data = id) s.outbox t.outbox := by
  refine (step_grows (M := fun m => IsRequest m → m.1.data = id) hstep
    fun rand _ => ?_).mono fun m hm => hm.elim ?_ fun hasks => hasks
  · refine (tryToRequestBlocks_asksTop rand _).mono ?_
    rintro _ ⟨key, p, number, size, hp, htop, rfl⟩ -
    rw [(silent_requestState createBlock s).syncStatus] at hp
    have hknown : (s.requestState createBlock).config.knownHighestNumber =
        s.config.knownHighestNumber := by
      rcases config_requestState createBlock s with hsame | ⟨m, hset⟩
      · rw [hsame]
      · rw [hset]
        unfold BlockSyncConfig.setExecutedBlock
        split_ifs <;> rfl
    rw [hknown] at htop
    have hkey : key = id := by
      by_contra hne
      exact absurd (h.known.trans htop) (not_le.mpr (h.others key p hp hne))
    exact (hfiled key p hp).trans hkey
  · rintro ⟨-, hstatus⟩ ⟨number, size, hrequest⟩
    cases hstatus.symm.trans hrequest

/-- Once one peer alone has reported a number, a node asks nobody else for
blocks, whatever happens, until another peer reports as much or its own chain
gets there. -/
theorem run_asks_only {id : Bytes} {n : ℤ} {is : List Input}
    (hs : (nodeSystem P createBlock).Reachable s) (h : s.Exclusive id n)
    (his : ∀ i ∈ is, StaysBelow id n i)
    (hrun : (nodeSystem P createBlock).exec s is = some t) :
    Grows (fun m => IsRequest m → m.1.data = id) s.outbox t.outbox := by
  induction is generalizing s with
  | nil =>
      obtain rfl := Option.some.inj hrun
      exact .refl _ _
  | cons i is ih =>
      obtain ⟨u, hu, hrest⟩ := TransitionSystem.exists_of_exec_cons hrun
      obtain ⟨hi, his⟩ := List.forall_mem_cons.mp his
      have hfirst := h.step_asks
        (fun key p hp => (reachable_wellKept hs key p hp).1) hu
      exact hfirst.trans (ih (.step hs trivial hu) (h.step hi hu) his hrest)

/-- The first peer reports 5, the second one only 3. -/
theorem run_asks_only_sample :
    ∃ s t, Sample.system.exec Sample.node [Sample.status Sample.peer 5] =
        some s ∧
      Sample.system.exec s [Sample.status Sample.otherPeer 3, Sample.task] =
        some t ∧
      (Sample.peer, .request 1 5) ∈ t.outbox ∧
      Grows (fun m => IsRequest m → m.1.data = Sample.peer.data) s.outbox
        t.outbox := by
  obtain ⟨s, hfirst, t, hrest, hkeys, hlow, hknown, hasked⟩ :
      ∃ s, Sample.system.exec Sample.node [Sample.status Sample.peer 5] =
          some s ∧
        ∃ t, Sample.system.exec s
          [Sample.status Sample.otherPeer 3, Sample.task] = some t ∧
        s.syncStatus.keys = [Sample.peer.data] ∧
        s.config.blockNumber < 5 ∧ 5 ≤ s.config.knownHighestNumber ∧
        (Sample.peer, .request 1 5) ∈ t.outbox :=
    ⟨_, rfl, _, rfl, rfl, by decide, by decide, by decide⟩
  have hothers : s.syncStatus.Forall fun key p =>
      key ≠ Sample.peer.data → p.number < 5 := by
    intro key p hp hne
    have hmem : key ∈ s.syncStatus.keys := AList.mem_keys.mp
      (AList.lookup_isSome.mp (by rw [hp]; rfl))
    rw [hkeys] at hmem
    exact absurd (List.mem_singleton.mp hmem) hne
  have hbelow : ∀ i ∈ [Sample.status Sample.otherPeer 3, Sample.task],
      StaysBelow Sample.peer.data 5 i := by
    intro i hi
    simp only [List.mem_cons, List.not_mem_nil, or_false] at hi
    rcases hi with rfl | rfl
    · refine ⟨fun l hl => ?_, fun nodeID syncMsg heq _ _ => ?_⟩
      · cases hl
      · cases heq
        decide
    · refine ⟨fun l hl => ?_, fun nodeID syncMsg heq => ?_⟩
      · cases hl
      · cases heq
  exact ⟨s, t, hfirst, hrest, hasked,
    run_asks_only (.of_exec Sample.isInit_node hfirst)
      ⟨by decide, hlow, hknown, hothers⟩ hbelow hrest⟩

end BlockSync

end BcosSync
