import BcosSync.Network.Entries

/-!
# Nobody is sent a block without asking

A block that a member sends answers a request for its height which the
receiver has sent to this member.  So do the requests that wait in the queues:
each is one that its peer has sent, with the number and the size it had there.
-/

namespace BcosSync

open MachineInt BlockSync SyncPeerStatus DownloadRequestQueue MessagePassing

namespace Deployment

variable {P : BlockQueue} {κ : Type} {D : Deployment κ}
  {N N' : κ → Member P} {k : κ} {t : Member P}

/-- The member with key `id` has asked `k` for `size` heights from `number`
on. -/
def Asked (D : Deployment κ) (N : κ → Member P) (id : Bytes) (k : κ)
    (number : ℤ) (size : ℕ) : Prop :=
  ∃ j dst, D.key j = id ∧ dst.data = D.key k ∧
    (dst, .request number size) ∈ (N j).sync.outbox

/-- The request in the queue is one that was sent. -/
def Solicits (D : Deployment κ) (N : κ → Member P) (k : κ) (id : Bytes)
    (p : PeerStatus) : Prop :=
  ∀ r ∈ p.downloadRequests.requests, ∃ number size,
    D.Asked N id k number size ∧ r.fromNumber = number ∧
      r.stop = number + size

theorem Asked.mono {id : Bytes} {number : ℤ} {size : ℕ}
    (h : D.Asked N id k number size) (hN : SendsMore N N') :
    D.Asked N' id k number size := by
  obtain ⟨j, dst, hj, hdst, hsent⟩ := h
  exact ⟨j, dst, hj, hdst, hN j hsent⟩

theorem solicits_of_empty {id : Bytes} {p : PeerStatus}
    (h : p.downloadRequests.requests = 0) : D.Solicits N k id p := by
  intro r hr
  rw [h] at hr
  exact absurd hr (Multiset.notMem_zero r)

theorem Solicits.update {id : Bytes} {p : PeerStatus}
    (h : D.Solicits N k id p) (status : BlockSyncStatus) :
    D.Solicits N k id (p.update status).2 := by
  unfold PeerStatus.update
  split_ifs <;> exact h

/-- A request that arrives is queued as it was sent. -/
theorem restsOnSent_solicits (D : Deployment κ) :
    D.RestsOnSent (P := P) D.Solicits where
  mono hN h r hr := by
    obtain ⟨number, size, hasked, hr⟩ := h r hr
    exact ⟨number, size, hasked.mono hN, hr⟩
  emptied _ hq := solicits_of_empty hq
  own nodeID status _ := ⟨fun p hp => hp.update status,
    solicits_of_empty requestQueue.elems_empty⟩
  status _ addr := ⟨fun p hp => hp.update _,
    solicits_of_empty requestQueue.elems_empty⟩
  request {N k src dst number size} hlt hsent hdst hnamed addr := by
    refine ⟨solicits_of_empty requestQueue.elems_empty,
      fun p capacity hp r hr => ?_⟩
    obtain ⟨⟨-, hsize⟩, hlow, hpos, hhigh⟩ := hnamed
    have hle := hhigh k hdst.symm
    have hbound := hlt k
    rw [BlockSyncMsgImpl.toSize_toInt64 hsize] at hr
    rcases Multiset.mem_cons.mp (Multiset.mem_of_le
      (requests_push_le _ _ _ _) hr) with rfl | hr
    · have hmake := @make_inRange (number, (size : ℤ))
        ⟨by omega, Int.natCast_nonneg size, by omega⟩
      exact ⟨number, size, ⟨src, dst, rfl, hdst, hsent⟩, hmake⟩
    · exact hp r hr

/-- The blocks that are new in an outbox come from a pass, which sends the
heights of the requests in the queues. -/
theorem exists_wants_of_blocks {i : Member.Input κ} (hN : D.AllReached N)
    (hstep : Member.step D k (N k) i = some t) {dst : PublicPtr} {n : ℤ}
    {data : Bytes} (hsent : (dst, .blocks n data) ∈ t.sync.outbox) :
    (dst, .blocks n data) ∈ (N k).sync.outbox ∨
      ∃ id p, (N k).sync.syncStatus.lookup id = some p ∧
        dst.data = id ∧ p.downloadRequests.Wants n := by
  have hknows := hN.knows k
  have hlt := hknows.height_lt
  rcases Member.step_sync hstep with hsame | ⟨i, hsync⟩ | ⟨rand, fuel, hsync⟩
  · exact .inl (hsame ▸ hsent)
  · refine ((step_grows hsync fun rand _ =>
      tryToRequestBlocks_onlyRequests rand _).mem hsent).imp_right ?_
    rintro (⟨-, hstatus⟩ | ⟨number, size, hrequest⟩)
    · cases hstatus
    · cases hrequest
  · obtain ⟨sent, hout, hanswers⟩ :=
      (pass_maintainBlockRequest hsync).answers fun id p hp r hr => by
        obtain ⟨hlow, hhigh⟩ := (hknows.entries id p hp).asked r hr
        omega
    rw [hout] at hsent
    refine (List.mem_append.mp hsent).symm.imp_right fun hnew => ?_
    obtain ⟨id, p, n', hp, hdst, hwants, _, _, -, -, hpacket⟩ :=
      hanswers _ hnew
    cases hpacket
    exact ⟨id, p, hp, (congrArg PublicPtr.data hdst).trans
      (hknows.wellKept id p hp).1, hwants⟩

variable [DecidableEq κ]

/-- Whoever is sent the block of a height has asked the sender for this
height. -/
theorem reachable_blocks_asked
    (h : (networkSystem D P).ReachableBy Genuine N) {dst : PublicPtr}
    {n : ℤ} {data : Bytes} (hsent : (dst, .blocks n data) ∈ (N k).sync.outbox) :
    ∃ number size, D.Asked N dst.data k number size ∧
      number ≤ n ∧ n < number + size := by
  induction h generalizing k with
  | init hN =>
      rw [(hN k).isInit.starts.2.1] at hsent
      cases hsent
  | @step N N' m hreach hA hmove ih =>
      obtain ⟨j, i⟩ := m
      obtain ⟨-, t, hstep, rfl⟩ := network_step.mp hmove
      have hmore := sendsMore_update hstep
      have hold : (dst, .blocks n data) ∈ (N k).sync.outbox ∨
          ∃ id p, (N k).sync.syncStatus.lookup id = some p ∧
            dst.data = id ∧ p.downloadRequests.Wants n := by
        by_cases hjk : k = j
        · subst hjk
          rw [Function.update_self] at hsent
          exact exists_wants_of_blocks (reachable_allReached hreach) hstep hsent
        · rw [Function.update_of_ne hjk] at hsent
          exact .inl hsent
      rcases hold with hold | ⟨id, p, hp, rfl, r, hr, hin⟩
      · obtain ⟨number, size, hasked, hin⟩ := ih hold
        exact ⟨number, size, hasked.mono hmore, hin⟩
      · obtain ⟨number, size, hasked, hfrom, hstop⟩ :=
          (restsOnSent_solicits D).reachable hreach k _ p hp r hr
        rw [hfrom, hstop] at hin
        exact ⟨number, size, hasked.mono hmore, hin⟩

/-- After the exchange, the second member serves. -/
theorem reachable_blocks_asked_sample :
    ∃ N, (networkSystem Sample.pair sortedBlockQueue).exec Sample.members
        (Sample.exchange ++ [(true, .serve (fun _ => 0) 2)]) = some N ∧
      (Sample.nodeID, .blocks 2 [2, 0]) ∈ (N true).sync.outbox ∧
      ∃ number size, Sample.pair.Asked N Sample.nodeID.data true number
        size ∧ number ≤ 2 ∧ 2 < number + size := by
  have hrun : (((networkSystem Sample.pair sortedBlockQueue).exec
      Sample.members (Sample.exchange ++ [(true, .serve (fun _ => 0) 2)])).any
        fun N => (Sample.nodeID, .blocks 2 [2, 0]) ∈ (N true).sync.outbox) =
          true := by
    decide
  obtain ⟨N, hN, hsent⟩ := (Option.any_eq_true _ _).mp hrun
  have hsent := of_decide_eq_true hsent
  have hgenuine : ∀ m ∈ Sample.exchange ++ [(true, .serve (fun _ => 0) 2)],
      Genuine m := by
    intro m hm
    rcases List.mem_append.mp hm with hm | hm
    · exact Sample.genuine_exchange m hm
    · rw [List.mem_singleton.mp hm]
      trivial
  have hreach := (TransitionSystem.ReachableBy.init
    Sample.isInit_members).exec hgenuine hN
  exact ⟨N, hN, hsent, reachable_blocks_asked hreach hsent⟩

end Deployment

end BcosSync
