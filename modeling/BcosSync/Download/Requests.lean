import BcosSync.Peers.Model

/-!
# Asking the peers for blocks

A request goes to peers that have reached the highest number the node has
heard of.  This number only rises: it stays when the peer that reported it
leaves the table or reports a lower number.  So when the download task starts
to ask for blocks, it sends a request if and only if the table holds a peer
with that number.
-/

namespace BcosSync

open TransitionSystem MachineInt

/-! ## Numbers in range -/

/-- The sizes of a request are positive, and a shard fits its type. -/
structure RequestSizes (maxRequestBlocks maxShardPerPeer : ℕ) : Prop where
  maxRequestBlocks_pos : 0 < maxRequestBlocks
  maxRequestBlocks_lt : maxRequestBlocks < 2 ^ 63
  maxShardPerPeer_pos : 0 < maxShardPerPeer

/-- The numbers of the config that bound a request fit their type, and the
chain height is one. -/
structure BlockSyncConfig.InRange (c : BlockSyncConfig) : Prop where
  nonneg : 0 ≤ c.blockNumber
  blockNumber_lt : c.blockNumber < 2 ^ 63
  knownHighestNumber_lt : c.knownHighestNumber < 2 ^ 63
  sizes : RequestSizes c.maxRequestBlocks c.maxShardPerPeer

namespace BlockSyncConfig.InRange

variable {c : BlockSyncConfig}

theorem setExecutedBlock (h : c.InRange) (n : ℤ) :
    (c.setExecutedBlock n).InRange := by
  unfold BlockSyncConfig.setExecutedBlock
  split_ifs
  · exact ⟨h.nonneg, h.blockNumber_lt, h.knownHighestNumber_lt, h.sizes⟩
  · exact h

theorem resetConfig (h : c.InRange) {l : LedgerConfig}
    (hnonneg : 0 ≤ l.blockNumber) (hlt : l.blockNumber < 2 ^ 63) :
    (c.resetConfig l).InRange := by
  have hknown := h.knownHighestNumber_lt
  by_cases hignored : c.ignores l
  · rwa [resetConfig_of_ignores hignored]
  · refine ⟨?_, ?_, ?_, ?_⟩
    · rwa [resetConfig_blockNumber hignored]
    · rwa [resetConfig_blockNumber hignored]
    · rw [BlockSyncConfig.resetConfig, if_neg hignored]
      dsimp only [resetBlockInfo]
      split_ifs <;> assumption
    · rw [BlockSyncConfig.resetConfig, if_neg hignored]
      dsimp only [resetBlockInfo]
      split_ifs <;> exact h.sizes

theorem updatePeerStatus (h : c.InRange) {status : BlockSyncStatus}
    (hlt : status.number < 2 ^ 63) (peer : PublicPtr) (t : SyncPeerStatus) :
    (SyncPeerStatus.updatePeerStatus peer status t c).2.InRange := by
  have hknown : (SyncPeerStatus.updateKnownMaxBlockInfo status c).InRange := by
    unfold SyncPeerStatus.updateKnownMaxBlockInfo
    split_ifs
    · exact h
    · exact h
    · exact ⟨h.nonneg, h.blockNumber_lt, hlt, h.sizes⟩
  unfold SyncPeerStatus.updatePeerStatus
  split
  · exact h
  · split
    · dsimp only
      split
      · exact hknown
      · exact h
    · exact hknown

end BlockSyncConfig.InRange

namespace BlockSync

variable {P : BlockQueue} {createBlock : BlockFactory}

/-- The numbers an input carries fit their type, and ledger configs carry
heights. -/
def CarriesInRange : Input → Prop
  | .syncMessage _ syncMsg => syncMsg.number < 2 ^ 63
  | .notifyNewBlock l => 0 ≤ l.blockNumber ∧ l.blockNumber < 2 ^ 63
  | .commitBlockAnswer _ (.ok l) _ =>
      0 ≤ l.blockNumber ∧ l.blockNumber < 2 ^ 63
  | _ => True

theorem carriesInRange_ledgerNumber {i : Input} {n : ℤ}
    (hi : CarriesInRange i) (hn : CommitSide.ledgerNumber i = some n) :
    0 ≤ n ∧ n < 2 ^ 63 := by
  cases i with
  | notifyNewBlock l =>
      obtain rfl := Option.some.inj hn
      exact hi
  | commitBlockAnswer b a throws =>
      cases a with
      | error e => cases hn
      | ok l =>
          obtain rfl := Option.some.inj hn
          exact hi
  | _ => cases hn

theorem update_inRange {i : Input} (hi : CarriesInRange i) (p q : PeerSide)
    (h : p.config.InRange) (hupdate : PeerSide.Update i p q) :
    q.config.InRange := by
  cases hupdate with
  | executed n => exact h.setExecutedBlock n
  | reset l c t hl =>
      obtain ⟨hnonneg, hlt⟩ := carriesInRange_ledgerNumber hi hl
      exact h.resetConfig hnonneg hlt
  | committedIndex =>
      exact ⟨h.nonneg, h.blockNumber_lt, h.knownHighestNumber_lt, h.sizes⟩
  | connectedNodes =>
      exact ⟨h.nonneg, h.blockNumber_lt, h.knownHighestNumber_lt, h.sizes⟩
  | peerStatus nodeID syncMsg c t heq =>
      subst heq
      have hnumber : (BlockSyncStatus.ofMessage syncMsg).number < 2 ^ 63 := hi
      exact h.updatePeerStatus hnumber nodeID t
  | ownStatus c t => exact h.updatePeerStatus h.blockNumber_lt c.nodeID t
  | insertPeer => exact h
  | request => exact h
  | deletePeer => exact h

theorem UpdatesTo.inRange {i : Input} (hi : CarriesInRange i)
    {s t : BlockSync P} (hupdates : UpdatesTo i s t)
    (h : s.config.InRange) : t.config.InRange :=
  hupdates.preserves (K := fun p => p.config.InRange) (update_inRange hi) h

/-! ## One request -/

/-- The outbox `out` has grown by at least one request, which was sent
last. -/
def HasAsked (before out : List (PublicPtr × Packet)) : Prop :=
  ∃ dst number size rest, out = (dst, .request number size) :: rest ∧
    before <:+ rest

theorem not_hasAsked_self (out : List (PublicPtr × Packet)) :
    ¬ HasAsked out out := by
  rintro ⟨dst, number, size, rest, heq, hsuffix⟩
  have hle := hsuffix.length_le
  rw [heq, List.length_cons] at hle
  omega

section RequestLoop

variable {c : BlockSyncConfig} {from_ to_ : ℤ} {shardNumber : ℕ}
  {t : SyncPeerStatus}

theorem requestShard_of_lt {p : PeerStatus} {l : RequestLoop}
    (hp : p.number < c.knownHighestNumber) :
    requestShard c from_ to_ shardNumber p l = (true, l) := by
  rw [requestShard, if_pos hp]

/-- A peer that has reached the highest number is asked. -/
theorem requestShard_of_le {p : PeerStatus} {l : RequestLoop}
    (hto : to_ ≤ c.knownHighestNumber) (hp : c.knownHighestNumber ≤ p.number) :
    ∃ number size,
      (requestShard c from_ to_ shardNumber p l).2.outbox =
        (p.nodeId, .request number size) :: l.outbox := by
  unfold requestShard
  rw [if_neg (not_lt.mpr hp)]
  dsimp only
  rw [if_neg]
  · exact ⟨_, _, rfl⟩
  · have hlast := min_le_right (toInt64 (toInt64 (from_ + 1 +
      l.shard * c.maxRequestBlocks) + c.maxRequestBlocks - 1)) to_
    omega

theorem requestShard_hasAsked {before : List (PublicPtr × Packet)}
    (p : PeerStatus) (l : RequestLoop) (h : HasAsked before l.outbox) :
    HasAsked before
      (requestShard c from_ to_ shardNumber p l).2.outbox := by
  unfold requestShard
  dsimp only
  split_ifs
  · exact h
  · exact h
  · obtain ⟨dst, number, size, rest, heq, hsuffix⟩ := h
    refine ⟨_, _, _, _, rfl, ?_⟩
    rw [heq]
    exact hsuffix.trans (List.suffix_cons _ _)

/-- Some entry of the table has reached the highest number.  The node's own
entry counts: `requestBlocks` does not leave it out. -/
def HasPeerAtTop (c : BlockSyncConfig) (t : SyncPeerStatus) : Prop :=
  ∃ id p, t.lookup id = some p ∧ c.knownHighestNumber ≤ p.number

theorem requestLoop_hasAsked {before : List (PublicPtr × Packet)}
    {rand : ℕ → ℕ → ℕ} (loops : ℕ) {l : RequestLoop}
    (h : HasAsked before l.outbox) :
    HasAsked before
      (requestLoop rand c t from_ to_ shardNumber loops l).outbox := by
  induction loops generalizing l with
  | zero => exact h
  | succ loops ih =>
      have hvisit : HasAsked before (SyncPeerStatus.foreachPeerRandom
          (rand loops) (requestShard c from_ to_ shardNumber) t
          { l with findPeer := false }).outbox :=
        SyncPeerStatus.visit_preserves
          (G := fun l : RequestLoop => HasAsked before l.outbox)
          requestShard_hasAsked _ (x := { l with findPeer := false }) h
      rw [requestLoop]
      dsimp only
      split_ifs
      · exact ih hvisit
      · exact hvisit
      · exact h

/-- The passes over the peers send a request if some peer has reached the
highest number. -/
theorem requestLoop_asks {rand : ℕ → ℕ → ℕ} (loops : ℕ) {l : RequestLoop}
    (hto : to_ ≤ c.knownHighestNumber) (hpeer : HasPeerAtTop c t)
    (hshard : l.shard < shardNumber) :
    HasAsked l.outbox
      (requestLoop rand c t from_ to_ shardNumber (loops + 1) l).outbox := by
  obtain ⟨id, p, hlookup, hp⟩ := hpeer
  have hid : id ∈ SyncPeerStatus.shuffle (rand loops) t.keys := by
    rw [SyncPeerStatus.mem_shuffle_keys, ← AList.mem_keys,
      ← AList.lookup_isSome, hlookup]
    rfl
  have hvisit : HasAsked l.outbox (SyncPeerStatus.foreachPeerRandom
      (rand loops) (requestShard c from_ to_ shardNumber) t
      { l with findPeer := false }).outbox := by
    refine SyncPeerStatus.visit_reaches
      (A := fun p => c.knownHighestNumber ≤ p.number)
      (I := fun l' => l.outbox <:+ l'.outbox)
      (G := fun l' => HasAsked l.outbox l'.outbox)
      (fun p l' h => requestShard_of_lt (not_le.mp h)) ?_
      requestShard_hasAsked hid hlookup hp
      (x := { l with findPeer := false }) List.suffix_rfl
    intro p l' hp hsuffix
    obtain ⟨number, size, heq⟩ := requestShard_of_le hto hp
    exact ⟨_, number, size, _, heq, hsuffix⟩
  rw [requestLoop, if_pos hshard]
  dsimp only
  split_ifs
  · exact requestLoop_hasAsked loops hvisit
  · exact hvisit

theorem requestLoop_of_no_peer {rand : ℕ → ℕ → ℕ} (loops : ℕ)
    {l : RequestLoop} (hpeer : ¬ HasPeerAtTop c t) :
    (requestLoop rand c t from_ to_ shardNumber loops l).outbox =
      l.outbox := by
  cases loops with
  | zero => rfl
  | succ loops =>
      have hvisit : SyncPeerStatus.foreachPeerRandom (rand loops)
          (requestShard c from_ to_ shardNumber) t
            { l with findPeer := false } = { l with findPeer := false } := by
        refine SyncPeerStatus.visit_eq_of_skips
          (A := fun p => c.knownHighestNumber ≤ p.number)
          (fun p l' h => requestShard_of_lt (not_le.mp h)) ?_ _
        exact fun id _ p hlookup hp => hpeer ⟨id, p, hlookup, hp⟩
      rw [requestLoop, hvisit]
      simp only [Bool.false_eq_true, if_false]
      split_ifs <;> rfl

/-- A range of heights has a shard. -/
theorem shardCount_pos
    (hsizes : RequestSizes c.maxRequestBlocks c.maxShardPerPeer)
    (hlt : from_ < to_) (hrange : to_ - from_ < 2 ^ 63) :
    0 < shardCount c from_ to_ := by
  obtain ⟨hpos, hfits, -⟩ := hsizes
  have hsize : (toSize (to_ - from_ + c.maxRequestBlocks - 1) : ℤ) =
      to_ - from_ + c.maxRequestBlocks - 1 := by
    apply toSize_of_range <;> omega
  unfold shardCount
  apply Nat.div_pos
  · omega
  · exact hpos

end RequestLoop

theorem requestBlocks_asks_iff {rand : ℕ → ℕ → ℕ} {from_ to_ : ℤ}
    {s : BlockSync P}
    (hsizes : RequestSizes s.config.maxRequestBlocks s.config.maxShardPerPeer)
    (hlt : from_ < to_) (hrange : to_ - from_ < 2 ^ 63)
    (hto : to_ ≤ s.config.knownHighestNumber) :
    HasAsked s.outbox (requestBlocks rand from_ to_ s).outbox ↔
      HasPeerAtTop s.config s.syncStatus := by
  constructor
  · intro hasked
    by_contra hpeer
    have hsame : (requestBlocks rand from_ to_ s).outbox = s.outbox :=
      requestLoop_of_no_peer _ hpeer
    rw [hsame] at hasked
    exact not_hasAsked_self _ hasked
  · intro hpeer
    obtain ⟨loops, hloops⟩ := Nat.exists_eq_add_one.mpr
      hsizes.maxShardPerPeer_pos
    unfold requestBlocks
    dsimp only
    rw [hloops]
    exact requestLoop_asks (c := s.config) (l := ⟨0, false, _, s.outbox⟩)
      loops hto hpeer (shardCount_pos hsizes hlt hrange)

/-! ## The call of `requestBlocks` -/

/-- `tryToRequestBlocks` calls `requestBlocks`. -/
structure CallsRequestBlocks (s : BlockSync P) : Prop where
  not_waiting : s.waitsForCommit = false
  shouldSyncing : s.shouldSyncing = true
  not_syncing : s.isSyncing = true →
    s.maxRequestNumber ≤ s.config.blockNumber ∨
      s.maxRequestNumber ≤ s.config.executedBlock
  blockNumber_lt : s.config.blockNumber < s.requestToNumber

theorem requestToNumber_le (s : BlockSync P) :
    s.requestToNumber ≤ s.config.knownHighestNumber := by
  unfold requestToNumber
  split
  · exact le_rfl
  · split_ifs
    · exact min_le_left _ _
    · exact le_rfl

/-- Nothing is sent without a call of `requestBlocks`, and the call works on
the state as it is, but for the download state and the notices. -/
theorem outbox_tryToRequestBlocks (rand : ℕ → ℕ → ℕ) (s : BlockSync P) :
    (s.CallsRequestBlocks →
      (s.tryToRequestBlocks rand).outbox =
        (requestBlocks rand s.config.blockNumber s.requestToNumber s).outbox) ∧
    (¬ s.CallsRequestBlocks → (s.tryToRequestBlocks rand).outbox = s.outbox) := by
  constructor
  · rintro ⟨hwaits, hsync, hsyncing, hlt⟩
    unfold tryToRequestBlocks
    dsimp only
    split_ifs with hwaiting hfetched hidle hnone hidle hnone
    · exact absurd (hwaits.symm.trans hwaiting) Bool.false_ne_true
    · have hsync' : s.downloadFinish.shouldSyncing = true := hsync
      have hidling : s.downloadFinish.isSyncing = false := rfl
      simp [hsync', hidling] at hidle
    · exact absurd hlt (not_lt.mpr hnone)
    · rfl
    · have hsyncing' : s.isSyncing = false :=
        Bool.eq_false_iff.mpr (mt hsyncing hfetched)
      simp [hsync, hsyncing'] at hidle
    · exact absurd hlt (not_lt.mpr hnone)
    · rfl
  · intro hcalls
    unfold tryToRequestBlocks
    dsimp only
    split_ifs with hwaiting hfetched hidle hnone hidle hnone
    · rfl
    · rfl
    · rfl
    · refine absurd ⟨by simpa using hwaiting, ?_, fun _ => hfetched,
        not_le.mp hnone⟩ hcalls
      by_contra hsync
      have hsync' : ¬ s.downloadFinish.shouldSyncing = true := hsync
      simp [hsync'] at hidle
    · rfl
    · rfl
    · simp only [Bool.or_eq_true, Bool.not_eq_true', not_or,
        Bool.not_eq_false] at hidle
      exact absurd ⟨by simpa using hwaiting, hidle.1,
        fun h => absurd h hidle.2, not_le.mp hnone⟩ hcalls

/-- What a download task should do when it asks for blocks: send a request if
some peer has reached the highest number, and none otherwise. -/
def AsksPeerAtTop (createBlock : BlockFactory) (s : BlockSync P) (i : Input)
    (t : BlockSync P) : Prop :=
  ∀ rand, i = .downloadTask rand →
    (s.requestState createBlock).CallsRequestBlocks →
      (HasAsked (s.requestState createBlock).outbox t.outbox ↔
        HasPeerAtTop (s.requestState createBlock).config
          (s.requestState createBlock).syncStatus)

theorem step_asksPeerAtTop {s t : BlockSync P} {i : Input}
    (h : s.config.InRange) (hstep : s.step createBlock i = some t) :
    AsksPeerAtTop createBlock s i t := by
  rintro rand rfl hcalls
  obtain rfl := Option.some.inj hstep
  have hrange : (s.requestState createBlock).config.InRange :=
    UpdatesTo.inRange (i := .downloadTask rand) trivial
      (updatesTo_requestState s) h
  have hnonneg := hrange.nonneg
  have hknown := hrange.knownHighestNumber_lt
  have hto := requestToNumber_le (s.requestState createBlock)
  have hlt := hcalls.blockNumber_lt
  change HasAsked _ ((s.requestState createBlock).tryToRequestBlocks
    rand).outbox ↔ _
  rw [(outbox_tryToRequestBlocks rand _).1 hcalls]
  exact requestBlocks_asks_iff hrange.sizes hlt (by omega) hto

theorem IsInit.inRange {s : BlockSync P} (h : IsInit P s)
    (hnonneg : 0 ≤ s.config.blockNumber)
    (hlt : s.config.blockNumber < 2 ^ 63) : s.config.InRange := by
  obtain ⟨c, genesisHash, l, hfresh⟩ := h
  have hnumbers : (c.setGenesisHash genesisHash).blockNumber = 0 ∧
      (c.setGenesisHash genesisHash).knownHighestNumber = 0 := by
    unfold BlockSyncConfig.setGenesisHash
    dsimp only
    split_ifs <;> exact ⟨hfresh.blockNumber, hfresh.knownHighestNumber⟩
  have hsizes : RequestSizes (c.setGenesisHash genesisHash).maxRequestBlocks
      (c.setGenesisHash genesisHash).maxShardPerPeer := by
    have hfixed : RequestSizes c.maxRequestBlocks c.maxShardPerPeer := by
      rw [hfresh.maxRequestBlocks, hfresh.maxShardPerPeer]
      constructor <;> omega
    unfold BlockSyncConfig.setGenesisHash
    dsimp only
    split_ifs <;> exact hfixed
  have hrange : (c.setGenesisHash genesisHash).InRange :=
    ⟨by omega, by omega, by omega, hsizes⟩
  have hignored : ¬ (c.setGenesisHash genesisHash).ignores l := by
    rintro ⟨-, hpos⟩
    omega
  have hconfig : ((new P c).init genesisHash l).config =
      (c.setGenesisHash genesisHash).resetConfig l :=
    congrArg PeerSide.config (peerSide_resetConfig l _)
  rw [hconfig] at hnonneg hlt ⊢
  change 0 ≤ ((c.setGenesisHash genesisHash).resetConfig l).blockNumber
    at hnonneg
  change ((c.setGenesisHash genesisHash).resetConfig l).blockNumber < 2 ^ 63
    at hlt
  rw [BlockSyncConfig.resetConfig_blockNumber hignored] at hnonneg hlt
  exact hrange.resetConfig hnonneg hlt

/-- Whenever a download task of a run asks for blocks, it sends a request if
and only if some peer has reached the highest number the node has heard of. -/
theorem run_asksPeerAtTop {s : BlockSync P} (hs : IsInit P s)
    (hnonneg : 0 ≤ s.config.blockNumber)
    (hlt : s.config.blockNumber < 2 ^ 63) {is : List Input}
    (his : ∀ i ∈ is, CarriesInRange i) :
    (nodeSystem P createBlock).AllTransitions (AsksPeerAtTop createBlock)
      s is :=
  AllTransitions.of_invariant (I := fun s => s.config.InRange)
    (fun _ _ _ hi h _ ht => (step_updates ht).inRange hi h)
    (fun _ _ _ _ h _ ht => step_asksPeerAtTop h ht) his
    (hs.inRange hnonneg hlt) AllTransitions.trivial

/-- Some other peer has the first blocks the node would ask for. -/
def HasPeerAhead (s : BlockSync P) : Prop :=
  ∃ id p, s.syncStatus.lookup id = some p ∧ p.nodeId ≠ s.config.nodeID ∧
    min (s.config.blockNumber + s.config.maxRequestBlocks)
      s.requestToNumber ≤ p.number

/-- If a download task asks for blocks and some other peer has the first of
them, it sends a request. -/
def AsksPeerAhead (createBlock : BlockFactory) (s : BlockSync P) (i : Input)
    (t : BlockSync P) : Prop :=
  ∀ rand, i = .downloadTask rand →
    (s.requestState createBlock).CallsRequestBlocks →
      (s.requestState createBlock).HasPeerAhead →
        HasAsked (s.requestState createBlock).outbox t.outbox

/-- The peer that reported height 100 leaves the table.  The other peer has
reached 50, but the download task asks nobody for the blocks from 1 on. -/
theorem departedPeer_stops_requests :
    ∃ s t, Sample.system.Reachable s ∧
      Sample.system.step s Sample.task = some t ∧
      ¬ AsksPeerAhead Sample.createBlock s Sample.task t := by
  let inputs : List Input :=
    [.notifyConnectedNodes [Sample.peer, Sample.otherPeer],
      Sample.status Sample.peer 100, Sample.status Sample.otherPeer 50,
      .notifyConnectedNodes [Sample.otherPeer], .maintainPeersConnection]
  obtain ⟨s, hrun, t, htask, hwaits, hsync, hidle, hlt, hpeer, hout⟩ :
      ∃ s, Sample.system.exec Sample.node inputs = some s ∧
      ∃ t, Sample.system.step s Sample.task = some t ∧
        (s.requestState Sample.createBlock).waitsForCommit = false ∧
        (s.requestState Sample.createBlock).shouldSyncing = true ∧
        (s.requestState Sample.createBlock).isSyncing = false ∧
        (s.requestState Sample.createBlock).config.blockNumber <
          (s.requestState Sample.createBlock).requestToNumber ∧
        (s.requestState Sample.createBlock).HasPeerAhead ∧
        t.outbox = (s.requestState Sample.createBlock).outbox :=
    ⟨_, rfl, _, rfl, rfl, rfl, rfl, by decide +kernel,
      ⟨Sample.otherPeer.data, _, rfl, by decide +kernel, by decide +kernel⟩,
      rfl⟩
  refine ⟨s, t, .of_exec Sample.isInit_node hrun, htask, fun hasks => ?_⟩
  have hcalls : (s.requestState Sample.createBlock).CallsRequestBlocks :=
    ⟨hwaits, hsync,
      fun hsyncing => absurd (hidle.symm.trans hsyncing) Bool.false_ne_true,
      hlt⟩
  have hasked := hasks _ rfl hcalls hpeer
  rw [hout] at hasked
  exact not_hasAsked_self _ hasked

theorem run_asksPeerAtTop_sample :
    Sample.system.AllTransitions (AsksPeerAtTop Sample.createBlock)
      Sample.node [Sample.status Sample.peer 2, Sample.task] := by
  refine run_asksPeerAtTop Sample.isInit_node (by decide) (by decide) ?_
  intro i hi
  rcases List.mem_pair.mp hi with rfl | rfl
  · exact (by decide : (2 : ℤ) < 2 ^ 63)
  · trivial

end BlockSync

end BcosSync
