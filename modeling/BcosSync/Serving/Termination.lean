import BcosSync.Peers.Table
import BcosSync.Serving.Queue

/-!
# Serving requests finishes

`maintainBlockRequest` finishes, with every queue empty, if and only if the
ledger has every height the queued requests ask for.  A single missing height
makes the loop over its queue go on for ever.
-/

namespace BcosSync

open SyncPeerStatus WhileLoop DownloadRequestQueue

namespace BlockSync

variable {P : BlockQueue} {createBlock : BlockFactory} {ledger : Ledger}

/-! ## The traversal -/

/-- Peers are visited one after the other: one without an entry is passed
over, the loop over the queue of another one ends. -/
inductive Pass (ledger : Ledger) (fuel : ℕ) (t : SyncPeerStatus) :
    List Bytes → BlockSync P → BlockSync P → Prop
  | nil {s : BlockSync P} : Pass ledger fuel t [] s s
  | skip {id : Bytes} {ids : List Bytes} {s s' : BlockSync P} :
      t.lookup id = none → Pass ledger fuel t ids s s' →
      Pass ledger fuel t (id :: ids) s s'
  | serve {id : Bytes} {ids : List Bytes} {p : PeerStatus} {x : Sending}
      {s s' : BlockSync P} : t.lookup id = some p →
      run (serveRound ledger s.config.maxDownloadRequestQueueSize p.nodeId)
        fuel ⟨p.downloadRequests, s.outbox⟩ = some x →
      Pass ledger fuel t ids (s.drained p x) s' →
      Pass ledger fuel t (id :: ids) s s'

section Traversal

variable {t : SyncPeerStatus} {fuel : ℕ} {s s' : BlockSync P}
  {ids : List Bytes}

theorem visit_servePeer_of_run {id : Bytes} {p : PeerStatus} {x : Sending}
    (hp : t.lookup id = some p)
    (hrun : run (serveRound ledger s.config.maxDownloadRequestQueueSize
      p.nodeId) fuel ⟨p.downloadRequests, s.outbox⟩ = some x) :
    visit (servePeer ledger fuel) t (id :: ids) (some s) =
      visit (servePeer ledger fuel) t ids (some (s.drained p x)) := by
  refine visit_cons_of_true hp ?_ ids
  rw [servePeer, hrun]

/-- A traversal that returns is a pass over the peers. -/
theorem pass_of_visit
    (h : visit (servePeer ledger fuel) t ids (some s) = some s') :
    Pass ledger fuel t ids s s' := by
  induction ids generalizing s with
  | nil => exact Option.some.inj h ▸ .nil
  | cons id ids ih =>
      cases hp : t.lookup id with
      | none =>
          rw [visit_cons_of_none hp] at h
          exact .skip hp (ih h)
      | some p =>
          cases hrun : run (serveRound ledger
              s.config.maxDownloadRequestQueueSize p.nodeId) fuel
              ⟨p.downloadRequests, s.outbox⟩ with
          | none =>
              have hleft : servePeer ledger fuel p (some s) =
                  (false, none) := by
                rw [servePeer, hrun]
              rw [visit_cons_of_false hp hleft] at h
              cases h
          | some x =>
              rw [visit_servePeer_of_run hp hrun] at h
              exact .serve hp hrun (ih h)

/-- With enough rounds for each queue the traversal returns. -/
theorem exists_fuel_of_serves (ids : List Bytes) (s : BlockSync P)
    (h : ∀ id p, t.lookup id = some p → ledger.Serves p.downloadRequests) :
    ∃ fuel, ∀ fuel', fuel ≤ fuel' →
      ∃ s', visit (servePeer ledger fuel') t ids (some s) = some s' := by
  induction ids generalizing s with
  | nil => exact ⟨0, fun _ _ => ⟨s, rfl⟩⟩
  | cons id ids ih =>
      cases hp : t.lookup id with
      | none =>
          obtain ⟨fuel, hfuel⟩ := ih s
          refine ⟨fuel, fun fuel' hle => ?_⟩
          rw [visit_cons_of_none hp]
          exact hfuel fuel' hle
      | some p =>
          obtain ⟨n, x, hx⟩ : Finishes (serveRound ledger
              s.config.maxDownloadRequestQueueSize p.nodeId)
                ⟨p.downloadRequests, s.outbox⟩ :=
            finishes_of_serves (h id p hp) s.outbox
          obtain ⟨m, hm⟩ := ih (s.drained p x)
          refine ⟨max n m, fun fuel' hle => ?_⟩
          rw [visit_servePeer_of_run hp
            (run_mono ((le_max_left n m).trans hle) hx)]
          exact hm fuel' ((le_max_right n m).trans hle)

/-- A pass finishes the loop of every peer. -/
theorem Pass.finishes (h : Pass ledger fuel t ids s s') :
    ∀ id ∈ ids, ∀ p, t.lookup id = some p →
      ∃ outbox, Finishes (serveRound ledger
        s.config.maxDownloadRequestQueueSize p.nodeId)
          ⟨p.downloadRequests, outbox⟩ := by
  induction h with
  | nil =>
      intro id hid
      cases hid
  | skip hnone _ ih =>
      intro id hid p hp
      rcases List.mem_cons.mp hid with rfl | hid
      · cases hnone.symm.trans hp
      · exact ih id hid p hp
  | @serve _ _ _ x s _ hsome hrun _ ih =>
      intro id hid p hp
      rcases List.mem_cons.mp hid with rfl | hid
      · cases hsome.symm.trans hp
        exact ⟨s.outbox, fuel, x, hrun⟩
      · exact ih id hid p hp

/-- The entries of peers that are not visited stay. -/
theorem Pass.lookup_of_not_mem (h : Pass ledger fuel t ids s s')
    (hkeyed : ∀ id p, t.lookup id = some p → p.nodeId.data = id)
    {id : Bytes} (hid : id ∉ ids) :
    s'.syncStatus.lookup id = s.syncStatus.lookup id := by
  induction h with
  | nil => rfl
  | skip _ _ ih => exact ih (not_or.mp (List.mem_cons.not.mp hid)).2
  | serve hp _ _ ih =>
      obtain ⟨hne, hid⟩ := not_or.mp (List.mem_cons.not.mp hid)
      rw [ih hid, drained, lookup_replace, if_neg]
      rw [hkeyed _ _ hp]
      exact hne

/-- The queues of the visited peers are empty afterwards. -/
theorem Pass.emptied (h : Pass ledger fuel t ids s s') (hnodup : ids.Nodup)
    (hkeyed : ∀ id p, t.lookup id = some p → p.nodeId.data = id) :
    ∀ id ∈ ids, t.lookup id ≠ none → ∀ p, s'.syncStatus.lookup id = some p →
      p.downloadRequests.requests = 0 := by
  induction h with
  | nil =>
      intro id hid
      cases hid
  | skip hnone _ ih =>
      intro id hid hsome p hp
      rcases List.mem_cons.mp hid with rfl | hid
      · exact absurd hnone hsome
      · exact ih (List.nodup_cons.mp hnodup).2 id hid hsome p hp
  | serve hsome hrun hpass ih =>
      obtain ⟨hnot, hnodup⟩ := List.nodup_cons.mp hnodup
      intro id hid hentry p hp
      rcases List.mem_cons.mp hid with rfl | hid
      · rw [hpass.lookup_of_not_mem hkeyed hnot, drained, lookup_replace,
          if_pos (hkeyed _ _ hsome).symm] at hp
        obtain ⟨_, -, rfl⟩ := Option.map_eq_some_iff.mp hp
        exact serveRound_eq_none_iff.mp (body_of_run hrun)
      · exact ih hnodup id hid hentry p hp

theorem Pass.mem_iff (h : Pass ledger fuel t ids s s') {id : Bytes} :
    id ∈ s'.syncStatus ↔ id ∈ s.syncStatus := by
  induction h with
  | nil => rfl
  | skip _ _ ih => exact ih
  | serve _ _ _ ih => rw [ih, drained, AList.mem_replace]

end Traversal

/-! ## The task -/

/-- One call of `maintainBlockRequest` returns, and every peer's queue is
empty then. -/
def FinishesServing (ledger : Ledger) (rand : ℕ → ℕ) (s : BlockSync P) :
    Prop :=
  ∃ fuel t, s.maintainBlockRequest ledger rand fuel = some t ∧
    ∀ id p, t.syncStatus.lookup id = some p →
      p.downloadRequests.requests = 0

/-- The ledger has every height of the merged requests of every peer. -/
def Serves (ledger : Ledger) (s : BlockSync P) : Prop :=
  s.syncStatus.Forall fun _ p => ledger.Serves p.downloadRequests

theorem finishesServing_of_serves {rand : ℕ → ℕ} {s : BlockSync P}
    (hkept : s.peerSide.WellKept) (h : s.Serves ledger) :
    s.FinishesServing ledger rand := by
  obtain ⟨fuel, hfuel⟩ := exists_fuel_of_serves
    (shuffle rand s.syncStatus.keys) s h
  obtain ⟨t, ht⟩ := hfuel fuel le_rfl
  have hpass := pass_of_visit ht
  refine ⟨fuel, t, ht, fun id p hp => ?_⟩
  have hmem : id ∈ s.syncStatus :=
    hpass.mem_iff.mp (AList.lookup_isSome.mp (by rw [hp]; rfl))
  refine hpass.emptied nodup_shuffle_keys (fun id p hp => (hkept id p hp).1)
    id (mem_shuffle_keys.mpr (AList.mem_keys.mp hmem)) ?_ p hp
  exact fun hnone => AList.lookup_eq_none.mp hnone hmem

theorem serves_of_finishesServing {rand : ℕ → ℕ} {s : BlockSync P}
    (hkept : s.peerSide.WellKept) {id : Bytes} {p : PeerStatus}
    (hp : s.syncStatus.lookup id = some p)
    (hplain : p.downloadRequests.Plain)
    (h : s.FinishesServing ledger rand) :
    ledger.Serves p.downloadRequests := by
  obtain ⟨fuel, t, ht, -⟩ := h
  have hmem : id ∈ s.syncStatus :=
    AList.lookup_isSome.mp (by rw [hp]; rfl)
  obtain ⟨outbox, hfinishes⟩ := (pass_of_visit ht).finishes id
    (mem_shuffle_keys.mpr (AList.mem_keys.mp hmem)) p hp
  exact serves_of_finishes (hkept id p hp).2 hplain hfinishes

/-- For every reachable peer table, serving finishes if the ledger has every
height of the merged requests; and only then, where no range of a queue
overflows or none of its starts is negative. -/
theorem reachable_finishesServing_iff {s : BlockSync P}
    (hs : (nodeSystem P createBlock).Reachable s) (ledger : Ledger)
    (rand : ℕ → ℕ) :
    (s.Serves ledger → s.FinishesServing ledger rand) ∧
      ((s.syncStatus.Forall fun _ p => p.downloadRequests.Plain) →
        (s.FinishesServing ledger rand ↔ s.Serves ledger)) := by
  have hkept := reachable_wellKept hs
  refine ⟨finishesServing_of_serves hkept, fun hplain => ⟨?_, ?_⟩⟩
  · exact fun h id p hp =>
      serves_of_finishesServing hkept hp (hplain id p hp) h
  · exact finishesServing_of_serves hkept

/-- A ledger at height 0. -/
def genesisLedger : Ledger where
  blockData n :=
    if n = 0 then .ok ⟨⟨0, HashType.zero, 0⟩, []⟩
    else .error ⟨-1, "not found"⟩
  encode _ := some []

/-- A peer asks for `size` blocks from `number` on. -/
def requestFrom (peer : PublicPtr) (number size : ℤ) : Input :=
  .syncMessage peer
    { packetType := BlockSyncPacketType.blockRequestPacket
      number := number
      size := size }

/-- A peer asks for block 1, which the ledger does not have yet: the task goes
on for ever. -/
theorem missingHeight_served_for_ever :
    ∃ s, Sample.system.Reachable s ∧
      ∀ rand, ¬ s.FinishesServing genesisLedger rand := by
  obtain ⟨s, hrun, p, hp, hrequests⟩ :
      ∃ s, Sample.system.exec Sample.node [requestFrom Sample.peer 1 1] =
        some s ∧ ∃ p, s.syncStatus.lookup Sample.peer.data = some p ∧
          p.downloadRequests.requests = {DownloadRequest.make 1 1} :=
    ⟨_, rfl, _, rfl, rfl⟩
  have hreach : Sample.system.Reachable s :=
    .of_exec Sample.isInit_node hrun
  have hinRange : ∀ r ∈ p.downloadRequests.requests,
      0 ≤ r.fromNumber ∧ r.stop < 2 ^ 63 := by
    intro r hr
    rw [hrequests, Multiset.mem_singleton] at hr
    subst hr
    exact ⟨by decide, by decide⟩
  refine ⟨s, hreach, fun rand hfinishes => ?_⟩
  have hserves := serves_of_finishesServing (reachable_wellKept hreach) hp
    (.inr fun r hr => (hinRange r hr).1) hfinishes
  have hhas := (serves_iff hinRange).mp hserves (DownloadRequest.make 1 1)
    (by rw [hrequests]; exact Multiset.mem_singleton_self _) 1
    (DownloadRequest.mem_numbers.mpr ⟨by decide, by decide⟩)
  exact hhas ⟨_, rfl⟩

theorem reachable_finishesServing_sample :
    ∃ s, Sample.system.exec Sample.node [requestFrom Sample.peer 0 1] =
      some s ∧
      ((s.Serves genesisLedger →
          s.FinishesServing genesisLedger fun _ => 0) ∧
        ((s.syncStatus.Forall fun _ p => p.downloadRequests.Plain) →
          ((s.FinishesServing genesisLedger fun _ => 0) ↔
            s.Serves genesisLedger))) := by
  obtain ⟨s, hrun⟩ : ∃ s, Sample.system.exec Sample.node
      [requestFrom Sample.peer 0 1] = some s := ⟨_, rfl⟩
  have hreach : Sample.system.Reachable s :=
    .of_exec Sample.isInit_node hrun
  exact ⟨s, hrun,
    reachable_finishesServing_iff hreach genesisLedger fun _ => 0⟩

end BlockSync

end BcosSync
