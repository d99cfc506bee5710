import BcosSync.Serving.Union

/-!
# What serving answers

A pass over the peers sends block packets only, each to a peer whose queue
asks for its height, with the ledger's block of this height.  It leaves the
table as it was, but for the queues, which are empty afterwards.
-/

namespace BcosSync

open SyncPeerStatus WhileLoop DownloadRequestQueue

/-- A request of the queue asks for height `n`. -/
def DownloadRequestQueue.Wants (q : DownloadRequestQueue) (n : ℤ) : Prop :=
  ∃ r ∈ q.requests, r.fromNumber ≤ n ∧ n < r.stop

/-- A request in range that is pushed while there is room is in the queue. -/
theorem DownloadRequestQueue.wants_push {q : DownloadRequestQueue} {n : ℤ}
    {capacity : ℕ} {number size : ℤ} (hroom : q.size < capacity)
    (hnumber : 0 ≤ number) (hsize : 0 ≤ size) (hlt : number + size < 2 ^ 63)
    (hlow : number ≤ n) (hhigh : n < number + size) :
    (q.push capacity number size).Wants n := by
  obtain ⟨hfrom, hstop⟩ := @BlockSync.make_inRange (number, size)
    ⟨hnumber, hsize, hlt⟩
  refine ⟨DownloadRequest.make number size, ?_, hfrom.trans_le hlow, ?_⟩
  · rw [requests_push hroom]
    exact Multiset.mem_cons_self _ _
  · rwa [hstop]

/-- The new packets of an outbox answer heights with property `H`. -/
def AnswersHeights (ledger : Ledger) (peer : PublicPtr) (H : ℤ → Prop)
    (before after : List (PublicPtr × Packet)) : Prop :=
  ∃ sent, after = sent ++ before ∧
    ∀ m ∈ sent, m.1 = peer ∧ ∃ n, H n ∧ ledger.Answers n m.2

namespace AnswersHeights

variable {ledger : Ledger} {peer : PublicPtr} {H : ℤ → Prop}
  {a b c : List (PublicPtr × Packet)}

theorem refl (a : List (PublicPtr × Packet)) :
    AnswersHeights ledger peer H a a :=
  ⟨[], rfl, fun _ hm => absurd hm List.not_mem_nil⟩

theorem trans (h : AnswersHeights ledger peer H a b)
    (h' : AnswersHeights ledger peer H b c) :
    AnswersHeights ledger peer H a c := by
  obtain ⟨first, rfl, hfirst⟩ := h
  obtain ⟨rest, rfl, hrest⟩ := h'
  refine ⟨rest ++ first, (List.append_assoc _ _ _).symm, fun m hm => ?_⟩
  exact (List.mem_append.mp hm).elim (hrest m) (hfirst m)

theorem mono {H' : ℤ → Prop} (h : AnswersHeights ledger peer H a b)
    (hH : ∀ n, H n → H' n) : AnswersHeights ledger peer H' a b := by
  obtain ⟨sent, heq, hsent⟩ := h
  refine ⟨sent, heq, fun m hm => ?_⟩
  obtain ⟨hpeer, n, hn, hanswers⟩ := hsent m hm
  exact ⟨hpeer, n, hH n hn, hanswers⟩

end AnswersHeights

namespace BlockSync

variable {P : BlockQueue} {ledger : Ledger} {capacity : ℕ}
  {peer : PublicPtr} {x y : Sending}

/-! ## One queue -/

variable (ledger capacity peer) in
theorem fetch_answers (n : ℤ) (x : Sending) :
    AnswersHeights ledger peer (fun m => m = n) x.outbox
      (fetchAndSendBlock ledger capacity peer n x).outbox := by
  unfold fetchAndSendBlock
  split
  · exact .refl x.outbox
  · next block hblock =>
      split
      · exact .refl x.outbox
      · next blockData hdata =>
          refine ⟨[_], rfl, fun m hm => ?_⟩
          rw [List.mem_singleton.mp hm]
          exact ⟨rfl, n, rfl, block, blockData, hblock, hdata, rfl⟩

variable (ledger capacity peer) in
theorem fetchBlocks_answers (ns : List ℤ) (x : Sending) :
    AnswersHeights ledger peer (fun n => n ∈ ns) x.outbox
      (fetchAndSendBlocks ledger capacity peer ns x).outbox := by
  induction ns generalizing x with
  | nil => exact .refl x.outbox
  | cons n ns ih =>
      have hfirst := fetch_answers ledger capacity peer n x
      refine (hfirst.mono ?_).trans ((ih _).mono ?_)
      · rintro _ rfl
        exact List.mem_cons_self
      · exact fun m hm => List.mem_cons_of_mem n hm

/-- A round answers heights the queue asks for, and asks for no other one
afterwards. -/
theorem serveRound_wants (hrange : x.reqQueue.InRange)
    (h : serveRound ledger capacity peer x = some y) :
    y.reqQueue.InRange ∧ (∀ n, y.reqQueue.Wants n → x.reqQueue.Wants n) ∧
      AnswersHeights ledger peer x.reqQueue.Wants x.outbox y.outbox := by
  obtain ⟨r, q', hpop, rfl⟩ := serveRound_eq_some h
  obtain ⟨hlow, hstop, -, hheights⟩ := hrange.topAndPop hpop
  have hnumbers : ∀ n ∈ r.numbers, r.fromNumber ≤ n ∧ n < r.stop := by
    intro n hn
    rw [DownloadRequest.mem_numbers, DownloadRequest.numberLimit_eq hstop]
      at hn
    exact hn
  have hone : ∀ n ∈ r.numbers, (DownloadRequest.make n 1).fromNumber = n ∧
      (DownloadRequest.make n 1).stop = n + 1 := by
    intro n hn
    have hin := hnumbers n hn
    exact DownloadRequest.make_one (by omega) (by omega)
  refine ⟨?_, ?_, ?_⟩
  · intro r₀ hr₀
    rcases mem_requests_fetchBlocks hr₀ with hr₀ | ⟨n, hn, -, rfl⟩
    · exact hrange.mono hpop r₀ hr₀
    · have hin := hnumbers n hn
      obtain ⟨hfrom, hend⟩ := hone n hn
      rw [hfrom, hend]
      omega
  · rintro n ⟨r₀, hr₀, hin⟩
    rcases mem_requests_fetchBlocks hr₀ with hr₀ | ⟨k, hk, -, rfl⟩
    · exact (hheights n).mpr (.inr ⟨r₀, hr₀, hin⟩)
    · obtain ⟨hfrom, hend⟩ := hone k hk
      rw [hfrom, hend] at hin
      obtain rfl : n = k := by omega
      exact (hheights n).mpr (.inl (hnumbers n hk))
  · refine (fetchBlocks_answers ledger capacity peer r.numbers
      { x with reqQueue := q' }).mono ?_
    exact fun n hn => (hheights n).mpr (.inl (hnumbers n hn))

/-- The loop over a queue in range answers heights the queue asks for. -/
theorem run_answers {fuel : ℕ}
    (hrun : run (serveRound ledger capacity peer) fuel x = some y) :
    x.reqQueue.InRange →
      AnswersHeights ledger peer x.reqQueue.Wants x.outbox y.outbox := by
  refine run_induction (R := fun x y => x.reqQueue.InRange →
    AnswersHeights ledger peer x.reqQueue.Wants x.outbox y.outbox) ?_ ?_ hrun
  · exact fun x _ _ => .refl x.outbox
  · intro x y z hround ih hrange
    obtain ⟨hrange', hwants, hanswers⟩ := serveRound_wants hrange hround
    exact hanswers.trans ((ih hrange').mono hwants)

/-- Whatever the queue asks for, the loop sends blocks of the ledger. -/
theorem run_answers_some {fuel : ℕ}
    (hrun : run (serveRound ledger capacity peer) fuel x = some y) :
    AnswersHeights ledger peer (fun _ => True) x.outbox y.outbox := by
  refine run_induction (R := fun x y => AnswersHeights ledger peer
    (fun _ => True) x.outbox y.outbox) ?_ ?_ hrun
  · exact fun x _ => .refl x.outbox
  · intro x y z hround ih
    obtain ⟨r, q', -, rfl⟩ := serveRound_eq_some hround
    have hfetched := fetchBlocks_answers ledger capacity peer r.numbers
      { x with reqQueue := q' }
    exact (hfetched.mono fun _ _ => trivial).trans ih

/-! ## The pass over the peers -/

section Traversal

variable {t : SyncPeerStatus} {fuel : ℕ} {s s' : BlockSync P}
  {ids : List Bytes}

/-- What the loops over the queues answer, the pass answers. -/
theorem Pass.answers_of {H : PeerStatus → ℤ → Prop}
    (h : Pass ledger fuel t ids s s')
    (hloop : ∀ id p capacity outbox x, t.lookup id = some p →
      run (serveRound ledger capacity p.nodeId) fuel
        ⟨p.downloadRequests, outbox⟩ = some x →
          AnswersHeights ledger p.nodeId (H p) outbox x.outbox) :
    ∃ sent, s'.outbox = sent ++ s.outbox ∧
      ∀ m ∈ sent, ∃ id p n, t.lookup id = some p ∧ m.1 = p.nodeId ∧
        H p n ∧ ledger.Answers n m.2 := by
  induction h with
  | nil => exact ⟨[], rfl, fun _ hm => absurd hm List.not_mem_nil⟩
  | skip _ _ ih => exact ih
  | @serve id _ p x s _ hp hrun _ ih =>
      obtain ⟨first, hfirst, hto⟩ := hloop id p _ _ x hp hrun
      obtain ⟨rest, hrest, hto'⟩ := ih
      refine ⟨rest ++ first, ?_, fun m hm => ?_⟩
      · have hdrained : (s.drained p x).outbox = x.outbox := rfl
        rw [hrest, hdrained, hfirst, List.append_assoc]
      · rcases List.mem_append.mp hm with hm | hm
        · exact hto' m hm
        · obtain ⟨hpeer, n, hn, hanswers⟩ := hto m hm
          exact ⟨id, p, n, hp, hpeer, hn, hanswers⟩

theorem Pass.answers (h : Pass ledger fuel t ids s s')
    (hrange : t.Forall fun _ p => p.downloadRequests.InRange) :
    ∃ sent, s'.outbox = sent ++ s.outbox ∧
      ∀ m ∈ sent, ∃ id p n, t.lookup id = some p ∧ m.1 = p.nodeId ∧
        p.downloadRequests.Wants n ∧ ledger.Answers n m.2 :=
  h.answers_of (H := fun p => p.downloadRequests.Wants)
    fun id p _ _ _ hp hrun => run_answers hrun (hrange id p hp)

/-- A pass sends blocks of the ledger, whatever it has been asked for. -/
theorem Pass.answers_some (h : Pass ledger fuel t ids s s') :
    ∃ sent, s'.outbox = sent ++ s.outbox ∧
      ∀ m ∈ sent, ∃ n, ledger.Answers n m.2 := by
  obtain ⟨sent, hout, hsent⟩ := h.answers_of (H := fun _ _ => True)
    fun _ _ _ _ _ _ hrun => run_answers_some hrun
  refine ⟨sent, hout, fun m hm => ?_⟩
  obtain ⟨-, -, n, -, -, -, hanswers⟩ := hsent m hm
  exact ⟨n, hanswers⟩

/-- What holds of the entries, and does not depend on a request in the queue,
holds of them after the pass. -/
theorem Pass.forall {E : Bytes → PeerStatus → Prop}
    (hempty : ∀ id p q, E id p → q.requests = 0 →
      E id { p with downloadRequests := q })
    (hkeyed : ∀ id p, t.lookup id = some p → p.nodeId.data = id)
    (ht : t.Forall E) (h : Pass ledger fuel t ids s s')
    (hs : s.syncStatus.Forall E) : s'.syncStatus.Forall E := by
  induction h with
  | nil => exact hs
  | skip _ _ ih => exact ih hs
  | @serve id _ p x s _ hp hrun _ ih =>
      refine ih (Forall.replace hs ?_)
      rw [hkeyed id p hp]
      exact hempty id p x.reqQueue (ht id p hp)
        (serveRound_eq_none_iff.mp (body_of_run hrun))

/-- A pass touches the table and the outbox only. -/
theorem Pass.eq (h : Pass ledger fuel t ids s s') :
    s' = { s with syncStatus := s'.syncStatus, outbox := s'.outbox } := by
  induction h with
  | nil => rfl
  | skip _ _ ih => exact ih
  | serve _ _ _ ih =>
      rw [ih]
      rfl

end Traversal

/-- The task is a pass over the shuffled peers. -/
theorem pass_maintainBlockRequest {rand : ℕ → ℕ} {fuel : ℕ}
    {s t : BlockSync P}
    (h : s.maintainBlockRequest ledger rand fuel = some t) :
    Pass ledger fuel s.syncStatus (shuffle rand s.syncStatus.keys) s t :=
  pass_of_visit h

end BlockSync

end BcosSync
