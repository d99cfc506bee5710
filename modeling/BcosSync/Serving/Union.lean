import BcosSync.Serving.Termination

/-!
# Serving the union of the requests

Whatever the order in which requests in range are pushed, a pass over the
peers sends their peer each height of their union once, in ascending order.
-/

namespace BcosSync

open MachineInt SyncPeerStatus WhileLoop DownloadRequestQueue

/-- The packet the ledger's block of this height is sent in. -/
def Ledger.Answers (ledger : Ledger) (number : ℤ) (packet : Packet) : Prop :=
  ∃ block blockData, ledger.blockData number = .ok block ∧
    ledger.encode block = some blockData ∧ packet = .blocks number blockData

/-- The block of this height can be read from the ledger and sent. -/
def Ledger.Readable (ledger : Ledger) (number : ℤ) : Prop :=
  ∃ packet, ledger.Answers number packet

/-- The packet that the height is answered with. -/
def Ledger.reply (ledger : Ledger) (peer : PublicPtr) (number : ℤ) :
    Option (PublicPtr × Packet) :=
  match ledger.blockData number with
  | .error _ => none
  | .ok block =>
      (ledger.encode block).map fun blockData =>
        (peer, .blocks number blockData)

theorem Ledger.Readable.not_lacks {ledger : Ledger} {n : ℤ}
    (h : ledger.Readable n) : ¬ ledger.Lacks n := by
  rintro ⟨e, he⟩
  obtain ⟨_, block, _, hblock, -⟩ := h
  cases hblock.symm.trans he

/-- A height is answered if its block is in the ledger and can be encoded. -/
theorem Ledger.reply_eq_some {ledger : Ledger} {peer : PublicPtr} {n : ℤ}
    {m : PublicPtr × Packet} :
    ledger.reply peer n = some m ↔ m.1 = peer ∧ ledger.Answers n m.2 := by
  obtain ⟨dst, packet⟩ := m
  unfold Ledger.reply Ledger.Answers
  cases hblock : ledger.blockData n with
  | error e => simp
  | ok block =>
      simp only [Option.map_eq_some_iff, Prod.mk.injEq, Except.ok.injEq]
      constructor
      · rintro ⟨blockData, hdata, rfl, rfl⟩
        exact ⟨rfl, block, blockData, rfl, hdata, rfl⟩
      · rintro ⟨rfl, _, blockData, rfl, hdata, rfl⟩
        exact ⟨blockData, hdata, rfl, rfl⟩

theorem Ledger.isSome_reply_iff {ledger : Ledger} {peer : PublicPtr}
    {n : ℤ} : (ledger.reply peer n).isSome = true ↔ ledger.Readable n := by
  rw [Option.isSome_iff_exists]
  constructor
  · rintro ⟨m, hm⟩
    exact ⟨m.2, (reply_eq_some.mp hm).2⟩
  · rintro ⟨packet, hpacket⟩
    exact ⟨(peer, packet), reply_eq_some.mpr ⟨rfl, hpacket⟩⟩

/-- What has been sent to a peer, in this order. -/
def sentTo (id : Bytes) (outbox : List (PublicPtr × Packet)) : List Packet :=
  ((outbox.filter fun m => m.1.data = id).map Prod.snd).reverse

theorem sentTo_append (id : Bytes) (new old : List (PublicPtr × Packet)) :
    sentTo id (new ++ old) = sentTo id old ++ sentTo id new := by
  rw [sentTo, List.filter_append, List.map_append, List.reverse_append]
  rfl

theorem sentTo_eq_nil {id : Bytes} {outbox : List (PublicPtr × Packet)}
    (h : ∀ m ∈ outbox, m.1.data ≠ id) : sentTo id outbox = [] := by
  have hnone : (outbox.filter fun m => m.1.data = id) = [] :=
    List.filter_eq_nil_iff.mpr fun m hm => by simpa using h m hm
  rw [sentTo, hnone]
  rfl

/-- Replies to a peer are all sent to that peer. -/
theorem sentTo_replies (ledger : Ledger) (peer : PublicPtr) (ns : List ℤ) :
    sentTo peer.data (ns.filterMap (ledger.reply peer)).reverse =
      (ns.filterMap (ledger.reply peer)).map Prod.snd := by
  have hall : ((ns.filterMap (ledger.reply peer)).reverse.filter
      fun m => m.1.data = peer.data) =
        (ns.filterMap (ledger.reply peer)).reverse := by
    apply List.filter_eq_self.mpr
    intro m hm
    obtain ⟨n, -, hreply⟩ := List.mem_filterMap.mp (List.mem_reverse.mp hm)
    rw [(Ledger.reply_eq_some.mp hreply).1]
    exact decide_eq_true rfl
  rw [sentTo, hall, List.map_reverse, List.reverse_reverse]

/-- Each reply answers its height. -/
theorem answers_replies (ledger : Ledger) (peer : PublicPtr) (ns : List ℤ) :
    List.Forall₂ ledger.Answers
      (ns.filter fun n => (ledger.reply peer n).isSome)
      ((ns.filterMap (ledger.reply peer)).map Prod.snd) := by
  induction ns with
  | nil => exact .nil
  | cons n ns ih =>
      cases hreply : ledger.reply peer n with
      | none =>
          rw [List.filter_cons_of_neg (by simp [hreply]),
            List.filterMap_cons_none hreply]
          exact ih
      | some m =>
          rw [List.filter_cons_of_pos (by simp [hreply]),
            List.filterMap_cons_some hreply]
          exact .cons (Ledger.reply_eq_some.mp hreply).2 ih

namespace BlockSync

variable {P : BlockQueue} {createBlock : BlockFactory} {ledger : Ledger}
  {capacity : ℕ} {peer : PublicPtr}

/-! ## What is sent to one peer -/

theorem fetch_of_has {n : ℤ} (h : ¬ ledger.Lacks n) (x : Sending) :
    fetchAndSendBlock ledger capacity peer n x =
      { x with outbox := (ledger.reply peer n).toList ++ x.outbox } := by
  unfold fetchAndSendBlock Ledger.reply
  cases hblock : ledger.blockData n with
  | error e => exact absurd ⟨e, hblock⟩ h
  | ok block =>
      dsimp only
      cases ledger.encode block <;> rfl

variable (capacity peer) in
/-- The replies to heights that the ledger has are sent one after the
other. -/
theorem fetchBlocks_of_has {ns : List ℤ} (h : ∀ n ∈ ns, ¬ ledger.Lacks n)
    (x : Sending) :
    fetchAndSendBlocks ledger capacity peer ns x =
      { x with
        outbox := (ns.filterMap (ledger.reply peer)).reverse ++ x.outbox } := by
  induction ns generalizing x with
  | nil => rfl
  | cons n ns ih =>
      have hrest := ih (fun m hm => h m (List.mem_cons_of_mem n hm))
      rw [fetchAndSendBlocks, List.foldl_cons,
        fetch_of_has (h n List.mem_cons_self)]
      refine (hrest _).trans ?_
      cases hreply : ledger.reply peer n with
      | none =>
          rw [List.filterMap_cons_none hreply]
          rfl
      | some m =>
          rw [List.filterMap_cons_some hreply, List.reverse_cons,
            List.append_assoc]
          rfl

/-- The loop over a queue whose heights the ledger has sends the replies to
them. -/
theorem run_of_has {fuel : ℕ} {x y : Sending}
    (hrun : run (serveRound ledger capacity peer) fuel x = some y) :
    (∀ n ∈ x.reqQueue.fetched, ¬ ledger.Lacks n) →
      y.outbox = (x.reqQueue.fetched.filterMap (ledger.reply peer)).reverse ++
        x.outbox := by
  refine run_induction (R := fun x y =>
    (∀ n ∈ x.reqQueue.fetched, ¬ ledger.Lacks n) →
      y.outbox = (x.reqQueue.fetched.filterMap (ledger.reply peer)).reverse ++
        x.outbox) ?_ ?_ hrun
  · intro x hx _
    have hpop := topAndPop_eq_none_iff.mpr (serveRound_eq_none_iff.mp hx)
    rw [fetched, drain_of_none hpop]
    rfl
  · intro x y z hround ih hhas
    obtain ⟨r, q', hpop, rfl⟩ := serveRound_eq_some hround
    rw [fetched_of_some hpop] at hhas ⊢
    have hfirst : ∀ n ∈ r.numbers, ¬ ledger.Lacks n :=
      fun n hn => hhas n (List.mem_append_left _ hn)
    have hlater : ∀ n ∈ q'.fetched, ¬ ledger.Lacks n :=
      fun n hn => hhas n (List.mem_append_right _ hn)
    rw [fetchBlocks_of_has capacity peer hfirst] at ih
    rw [ih hlater, List.filterMap_append, List.reverse_append,
      List.append_assoc]

/-! ## What is sent to others -/

variable (ledger capacity peer) in
theorem fetch_sendsTo (n : ℤ) (x : Sending) :
    ∃ sent, (fetchAndSendBlock ledger capacity peer n x).outbox =
      sent ++ x.outbox ∧ ∀ m ∈ sent, m.1 = peer := by
  rw [fetchAndSendBlock]
  split
  · exact ⟨[], rfl, fun m hm => absurd hm List.not_mem_nil⟩
  · split
    · exact ⟨[], rfl, fun m hm => absurd hm List.not_mem_nil⟩
    · refine ⟨[_], rfl, fun m hm => ?_⟩
      rw [List.mem_singleton.mp hm]

variable (ledger capacity peer) in
theorem fetchBlocks_sendsTo (ns : List ℤ) (x : Sending) :
    ∃ sent, (fetchAndSendBlocks ledger capacity peer ns x).outbox =
      sent ++ x.outbox ∧ ∀ m ∈ sent, m.1 = peer := by
  induction ns generalizing x with
  | nil => exact ⟨[], rfl, fun m hm => absurd hm List.not_mem_nil⟩
  | cons n ns ih =>
      obtain ⟨first, hfirst, hto⟩ :=
        fetch_sendsTo ledger capacity peer n x
      obtain ⟨rest, hrest, hto'⟩ :=
        ih (fetchAndSendBlock ledger capacity peer n x)
      refine ⟨rest ++ first, ?_, ?_⟩
      · rw [fetchAndSendBlocks, List.foldl_cons]
        refine hrest.trans ?_
        rw [hfirst, List.append_assoc]
      · intro m hm
        exact (List.mem_append.mp hm).elim (hto' m) (hto m)

/-- The loop over the queue of a peer sends to that peer only. -/
theorem run_sendsTo {fuel : ℕ} {x y : Sending}
    (hrun : run (serveRound ledger capacity peer) fuel x = some y) :
    ∃ sent, y.outbox = sent ++ x.outbox ∧ ∀ m ∈ sent, m.1 = peer := by
  refine run_induction (R := fun x y => ∃ sent,
    y.outbox = sent ++ x.outbox ∧ ∀ m ∈ sent, m.1 = peer) ?_ ?_ hrun
  · exact fun x _ => ⟨[], rfl, fun m hm => absurd hm List.not_mem_nil⟩
  · rintro x y z hround ⟨rest, hrest, hto⟩
    obtain ⟨r, q', -, rfl⟩ := serveRound_eq_some hround
    obtain ⟨first, hfirst, hto'⟩ := fetchBlocks_sendsTo ledger capacity
      peer r.numbers { x with reqQueue := q' }
    refine ⟨rest ++ first, ?_, ?_⟩
    · rw [hrest, hfirst, List.append_assoc]
    · exact fun m hm => (List.mem_append.mp hm).elim (hto m) (hto' m)

/-! ## The pass over the peers -/

section Traversal

variable {t : SyncPeerStatus} {fuel : ℕ} {s s' : BlockSync P}
  {ids : List Bytes}

/-- The loop over the queue of another peer sends a peer nothing. -/
theorem sentTo_drained_of_ne {p : PeerStatus} {x : Sending} {id : Bytes}
    (hne : p.nodeId.data ≠ id)
    (hrun : run (serveRound ledger capacity p.nodeId) fuel
      ⟨p.downloadRequests, s.outbox⟩ = some x) :
    sentTo id (s.drained p x).outbox = sentTo id s.outbox := by
  obtain ⟨sent, hsent, hto⟩ := run_sendsTo hrun
  have hother : sentTo id sent = [] := by
    apply sentTo_eq_nil
    intro m hm
    rw [hto m hm]
    exact hne
  rw [drained, hsent, sentTo_append, hother, List.append_nil]

/-- A peer that is not visited is sent nothing. -/
theorem Pass.sentTo_of_not_mem (h : Pass ledger fuel t ids s s')
    (hkeyed : ∀ id p, t.lookup id = some p → p.nodeId.data = id)
    {id : Bytes} (hid : id ∉ ids) :
    sentTo id s'.outbox = sentTo id s.outbox := by
  induction h with
  | nil => rfl
  | skip _ _ ih => exact ih (not_or.mp (List.mem_cons.not.mp hid)).2
  | serve hp hrun _ ih =>
      obtain ⟨hne, hid⟩ := not_or.mp (List.mem_cons.not.mp hid)
      rw [ih hid]
      refine sentTo_drained_of_ne ?_ hrun
      rw [hkeyed _ _ hp]
      exact Ne.symm hne

/-- A visited peer whose heights the ledger has is sent the replies to
them. -/
theorem Pass.sentTo_of_has (h : Pass ledger fuel t ids s s')
    (hnodup : ids.Nodup)
    (hkeyed : ∀ id p, t.lookup id = some p → p.nodeId.data = id)
    {id : Bytes} {p : PeerStatus} (hid : id ∈ ids)
    (hp : t.lookup id = some p)
    (hhas : ∀ n ∈ p.downloadRequests.fetched, ¬ ledger.Lacks n) :
    sentTo id s'.outbox = sentTo id s.outbox ++
      (p.downloadRequests.fetched.filterMap (ledger.reply p.nodeId)).map
        Prod.snd := by
  induction h with
  | nil => cases hid
  | skip hnone _ ih =>
      rcases List.mem_cons.mp hid with rfl | hid
      · cases hnone.symm.trans hp
      · exact ih (List.nodup_cons.mp hnodup).2 hid
  | @serve id' _ p' x s _ hp' hrun hpass ih =>
      obtain ⟨hnot, hnodup⟩ := List.nodup_cons.mp hnodup
      by_cases hne : id = id'
      · -- the peer itself: nobody visited later is sent its packets
        subst hne
        cases hp.symm.trans hp'
        rw [hpass.sentTo_of_not_mem hkeyed hnot, drained,
          run_of_has hrun hhas, sentTo_append]
        have hkey := hkeyed id p hp
        exact congrArg _ (hkey ▸ sentTo_replies ledger p.nodeId _)
      · have hid := (List.mem_cons.mp hid).resolve_left hne
        have hkey := hkeyed id' p' hp'
        rw [ih hnodup hid, sentTo_drained_of_ne (hkey ▸ Ne.symm hne) hrun]

end Traversal

/-! ## The union of the requests -/

/-- The height `n` is one of the requests, numbers with sizes. -/
def Requested (reqs : List (ℤ × ℤ)) (n : ℤ) : Prop :=
  ∃ req ∈ reqs, req.1 ≤ n ∧ n < req.1 + req.2

/-- Between `s` and `t` the peer is sent the ledger's block of each height of
`H` once, in ascending order, and nothing else. -/
def SendsHeights (ledger : Ledger) (H : ℤ → Prop) (id : Bytes)
    (s t : BlockSync P) : Prop :=
  ∃ heights packets, heights.Pairwise (· < ·) ∧ (∀ n, n ∈ heights ↔ H n) ∧
    List.Forall₂ ledger.Answers heights packets ∧
      sentTo id t.outbox = sentTo id s.outbox ++ packets

variable {reqs : List (ℤ × ℤ)}

theorem make_inRange {req : ℤ × ℤ}
    (h : 0 ≤ req.1 ∧ 0 ≤ req.2 ∧ req.1 + req.2 < 2 ^ 63) :
    (DownloadRequest.make req.1 req.2).fromNumber = req.1 ∧
      (DownloadRequest.make req.1 req.2).stop = req.1 + req.2 := by
  obtain ⟨hnumber, hsize, hend⟩ := h
  have hfrom : (DownloadRequest.make req.1 req.2).fromNumber = req.1 :=
    toInt64_of_range (by omega) (by omega)
  refine ⟨hfrom, ?_⟩
  rw [DownloadRequest.stop, hfrom, make_size,
    toSize_of_range hsize (by omega)]

/-- The queue of requests in range has their heights. -/
theorem pushAll_requested
    (hreqs : ∀ req ∈ reqs, 0 ≤ req.1 ∧ 0 ≤ req.2 ∧ req.1 + req.2 < 2 ^ 63)
    (hroom : reqs.length ≤ capacity) :
    (pushAll capacity reqs .new).InRange ∧
      ∀ n, (∃ r ∈ (pushAll capacity reqs .new).requests,
        r.fromNumber ≤ n ∧ n < r.stop) ↔ Requested reqs n := by
  constructor
  · intro r hr
    obtain ⟨req, hreq, rfl⟩ := (mem_requests_pushAll hroom).mp hr
    obtain ⟨hfrom, hstop⟩ := make_inRange (hreqs req hreq)
    rw [hfrom, hstop]
    exact ⟨(hreqs req hreq).1, (hreqs req hreq).2.2⟩
  · intro n
    constructor
    · rintro ⟨r, hr, hin⟩
      obtain ⟨req, hreq, rfl⟩ := (mem_requests_pushAll hroom).mp hr
      obtain ⟨hfrom, hstop⟩ := make_inRange (hreqs req hreq)
      rw [hfrom, hstop] at hin
      exact ⟨req, hreq, hin⟩
    · rintro ⟨req, hreq, hin⟩
      obtain ⟨hfrom, hstop⟩ := make_inRange (hreqs req hreq)
      refine ⟨_, (mem_requests_pushAll hroom).mpr ⟨req, hreq, rfl⟩, ?_⟩
      rw [hfrom, hstop]
      exact hin

theorem SendsHeights.congr {H H' : ℤ → Prop} {id : Bytes}
    {s t : BlockSync P} (h : SendsHeights ledger H id s t)
    (hH : ∀ n, H n ↔ H' n) : SendsHeights ledger H' id s t := by
  obtain ⟨heights, packets, hascending, hmem, hsent⟩ := h
  exact ⟨heights, packets, hascending, fun n => (hmem n).trans (hH n), hsent⟩

/-- If the ledger has the heights of a queue in range, a pass over a reachable
peer table sends the peer those that can be encoded. -/
theorem sendsHeights_of_pass {s t : BlockSync P}
    (hkept : s.peerSide.WellKept) {id : Bytes} {p : PeerStatus}
    (hp : s.syncStatus.lookup id = some p)
    (hrange : p.downloadRequests.InRange) {H : ℤ → Prop}
    (hheights : ∀ n, (∃ r ∈ p.downloadRequests.requests,
      r.fromNumber ≤ n ∧ n < r.stop) ↔ H n)
    (hhas : ∀ n, H n → ¬ ledger.Lacks n) {rand : ℕ → ℕ} {fuel : ℕ}
    (hpass : s.maintainBlockRequest ledger rand fuel = some t) :
    SendsHeights ledger (fun n => H n ∧ ledger.Readable n) id s t := by
  have hmem : id ∈ shuffle rand s.syncStatus.keys :=
    mem_shuffle_keys.mpr (AList.mem_keys.mp
      (AList.lookup_isSome.mp (by rw [hp]; rfl)))
  have hfetched : ∀ n, n ∈ p.downloadRequests.fetched ↔ H n :=
    fun n => hrange.mem_fetched.trans (hheights n)
  refine ⟨p.downloadRequests.fetched.filter
      fun n => (ledger.reply p.nodeId n).isSome, _,
    hrange.fetched_ascends.filter _, fun n => ?_,
    answers_replies ledger p.nodeId p.downloadRequests.fetched,
    (pass_of_visit hpass).sentTo_of_has nodup_shuffle_keys
      (fun id p hp => (hkept id p hp).1) hmem hp
      fun n hn => hhas n ((hfetched n).mp hn)⟩
  rw [List.mem_filter, hfetched, Ledger.isSome_reply_iff]

/-- Requests in range, pushed in any order, are drained as ascending ranges
that do not touch each other and whose union is that of the requests.  A pass
of a reachable node sends the peer these heights, and it ends if the ledger
serves the other peers too. -/
theorem pushAll_serves_union (P : BlockQueue) (createBlock : BlockFactory)
    (reqs : List (ℤ × ℤ)) {capacity : ℕ}
    (hreqs : ∀ req ∈ reqs, 0 ≤ req.1 ∧ 0 ≤ req.2 ∧ req.1 + req.2 < 2 ^ 63)
    (hroom : reqs.length ≤ capacity) :
    (pushAll capacity reqs .new).drain.Pairwise
        (fun a b => a.stop < b.fromNumber) ∧
      (∀ n, (∃ r ∈ (pushAll capacity reqs .new).drain,
        r.fromNumber ≤ n ∧ n < r.stop) ↔ Requested reqs n) ∧
      ∀ (s : BlockSync P) (ledger : Ledger) (id : Bytes) (p : PeerStatus),
        (nodeSystem P createBlock).Reachable s →
        s.syncStatus.lookup id = some p →
        p.downloadRequests = pushAll capacity reqs .new →
        (∀ n, Requested reqs n → ledger.Readable n) →
        ((∀ id' p', s.syncStatus.lookup id' = some p' → id' ≠ id →
            ledger.Serves p'.downloadRequests) →
          ∀ rand, s.FinishesServing ledger rand) ∧
        ∀ rand fuel t, s.maintainBlockRequest ledger rand fuel = some t →
          SendsHeights ledger (Requested reqs) id s t := by
  obtain ⟨hrange, hheights⟩ := pushAll_requested hreqs hroom
  refine ⟨hrange.drain_apart, ?_, ?_⟩
  · exact fun n => (hrange.drain_covers n).trans (hheights n)
  · intro s ledger id p hs hp hqueue hreadable
    have hkept := reachable_wellKept hs
    rw [← hqueue] at hrange hheights
    constructor
    · intro hothers rand
      refine finishesServing_of_serves hkept fun id' p' hp' => ?_
      by_cases hid : id' = id
      · subst hid
        obtain rfl := Option.some.inj (hp'.symm.trans hp)
        refine serves_iff_fetched.mpr fun n hn => ?_
        have hn := (hheights n).mp (hrange.mem_fetched.mp hn)
        exact (hreadable n hn).not_lacks
      · exact hothers id' p' hp' hid
    · intro rand fuel t hpass
      exact (sendsHeights_of_pass hkept hp hrange hheights
        (fun n hn => (hreadable n hn).not_lacks) hpass).congr
          fun n => and_iff_left_of_imp (hreadable n)

/-- A peer asks twice for block 0, once for nothing behind it. -/
theorem pushAll_serves_union_sample :
    ∃ s p, Sample.system.exec Sample.node
        [requestFrom Sample.peer 0 1, requestFrom Sample.peer 1 0,
          requestFrom Sample.peer 0 1] = some s ∧
      s.syncStatus.lookup Sample.peer.data = some p ∧
      p.downloadRequests = pushAll 256 [(0, 1), (1, 0), (0, 1)] .new ∧
      ∀ rand fuel t,
        s.maintainBlockRequest genesisLedger rand fuel = some t →
          SendsHeights genesisLedger
            (Requested [(0, 1), (1, 0), (0, 1)]) Sample.peer.data s t := by
  obtain ⟨s, p, hrun, hp, hqueue⟩ : ∃ s p, Sample.system.exec Sample.node
        [requestFrom Sample.peer 0 1, requestFrom Sample.peer 1 0,
          requestFrom Sample.peer 0 1] = some s ∧
      s.syncStatus.lookup Sample.peer.data = some p ∧
      p.downloadRequests = pushAll 256 [(0, 1), (1, 0), (0, 1)] .new :=
    ⟨_, _, rfl, rfl, rfl⟩
  have hreadable : ∀ n, Requested [(0, 1), (1, 0), (0, 1)] n →
      genesisLedger.Readable n := by
    rintro n ⟨req, hreq, hlow, hhigh⟩
    have hn : n = 0 := by
      simp only [List.mem_cons, List.not_mem_nil, or_false] at hreq
      rcases hreq with rfl | rfl | rfl <;> omega
    exact ⟨_, _, _, if_pos hn, rfl, rfl⟩
  have hserves := pushAll_serves_union sortedBlockQueue Sample.createBlock
    [(0, 1), (1, 0), (0, 1)] (by decide)
    (show List.length [((0 : ℤ), (1 : ℤ)), (1, 0), (0, 1)] ≤ 256 by decide)
  refine ⟨s, p, hrun, hp, hqueue, ?_⟩
  exact (hserves.2.2 s genesisLedger _ p (.of_exec Sample.isInit_node hrun)
    hp hqueue hreadable).2

end BlockSync

end BcosSync
