import BcosSync.Serving.Drain

/-!
# Draining one request queue

The loop over the queue of one peer finishes if the ledger has every height of
the merged requests.  It does not finish once a height the ledger lacks has
been pushed back: an invariant keeps a request for such a height in the queue.
The invariant needs that no merged range overflows on the way, which is so
when no queued range overflows, and also when no start is negative.
-/

namespace BcosSync

open MachineInt DownloadRequestQueue

/-- The ledger has every height of the merged requests of the queue. -/
inductive Ledger.Serves (ledger : Ledger) : DownloadRequestQueue → Prop
  | done {q : DownloadRequestQueue} : q.topAndPop = none → ledger.Serves q
  | round {q q' : DownloadRequestQueue} {r : DownloadRequest} :
      q.topAndPop = some (r, q') → (∀ n ∈ r.numbers, ¬ ledger.Lacks n) →
      ledger.Serves q' → ledger.Serves q

/-- No range overflows, or no start is negative. -/
def DownloadRequestQueue.Plain (q : DownloadRequestQueue) : Prop :=
  (∀ r ∈ q.requests, r.stop < 2 ^ 63) ∨ ∀ r ∈ q.requests, 0 ≤ r.fromNumber

theorem DownloadRequestQueue.Plain.mono {q q' : DownloadRequestQueue}
    (h : q.Plain) (hle : q'.requests ≤ q.requests) : q'.Plain :=
  h.imp (fun h r hr => h r (Multiset.mem_of_le hle hr))
    (fun h r hr => h r (Multiset.mem_of_le hle hr))

namespace BlockSync

variable {ledger : Ledger} {capacity : ℕ} {peer : PublicPtr} {x : Sending}

/-! ## Pushing back -/

theorem reqQueue_fetch_of_lacks {n : ℤ} (h : ledger.Lacks n) :
    (fetchAndSendBlock ledger capacity peer n x).reqQueue =
      x.reqQueue.push capacity n 1 := by
  obtain ⟨e, he⟩ := h
  rw [fetchAndSendBlock, he]

theorem reqQueue_fetch_of_has {n : ℤ} (h : ¬ ledger.Lacks n) :
    (fetchAndSendBlock ledger capacity peer n x).reqQueue = x.reqQueue := by
  unfold fetchAndSendBlock
  cases hn : ledger.blockData n with
  | error e => exact absurd ⟨e, hn⟩ h
  | ok block =>
      dsimp only
      cases ledger.encode block <;> rfl

theorem reqQueue_fetchBlocks_of_has {ns : List ℤ}
    (h : ∀ n ∈ ns, ¬ ledger.Lacks n) :
    (fetchAndSendBlocks ledger capacity peer ns x).reqQueue = x.reqQueue := by
  induction ns generalizing x with
  | nil => rfl
  | cons n ns ih =>
      have hrest := ih (x := fetchAndSendBlock ledger capacity peer n x)
        fun m hm => h m (List.mem_cons_of_mem n hm)
      exact hrest.trans (reqQueue_fetch_of_has (h n List.mem_cons_self))

theorem requests_fetch_le (n : ℤ) :
    x.reqQueue.requests ≤
      (fetchAndSendBlock ledger capacity peer n x).reqQueue.requests := by
  by_cases hn : ledger.Lacks n
  · rw [reqQueue_fetch_of_lacks hn]
    by_cases hroom : x.reqQueue.size < capacity
    · rw [requests_push hroom]
      exact Multiset.le_cons_self _ _
    · rw [DownloadRequestQueue.push, if_pos (not_lt.mp hroom)]
  · rw [reqQueue_fetch_of_has hn]

theorem requests_fetchBlocks_le (ns : List ℤ) :
    x.reqQueue.requests ≤
      (fetchAndSendBlocks ledger capacity peer ns x).reqQueue.requests := by
  induction ns generalizing x with
  | nil => exact le_rfl
  | cons n ns ih => exact (requests_fetch_le n).trans ih

/-- Whatever is new in the queue is a height the ledger lacks. -/
theorem mem_requests_fetchBlocks {ns : List ℤ} {r : DownloadRequest}
    (h : r ∈
      (fetchAndSendBlocks ledger capacity peer ns x).reqQueue.requests) :
    r ∈ x.reqQueue.requests ∨
      ∃ n ∈ ns, ledger.Lacks n ∧ r = DownloadRequest.make n 1 := by
  induction ns generalizing x with
  | nil => exact .inl h
  | cons n ns ih =>
      rcases ih h with h | ⟨m, hm, hlacks, hr⟩
      · by_cases hn : ledger.Lacks n
        · rw [reqQueue_fetch_of_lacks hn] at h
          by_cases hroom : x.reqQueue.size < capacity
          · rw [requests_push hroom] at h
            rcases Multiset.mem_cons.mp h with hr | h
            · exact .inr ⟨n, List.mem_cons_self, hn, hr⟩
            · exact .inl h
          · rw [DownloadRequestQueue.push, if_pos (not_lt.mp hroom)] at h
            exact .inl h
        · rw [reqQueue_fetch_of_has hn] at h
          exact .inl h
      · exact .inr ⟨m, List.mem_cons_of_mem n hm, hlacks, hr⟩

theorem size_fetchBlocks_le {ns : List ℤ} (h : x.reqQueue.size ≤ capacity) :
    (fetchAndSendBlocks ledger capacity peer ns x).reqQueue.size ≤
      capacity := by
  induction ns generalizing x with
  | nil => exact h
  | cons n ns ih =>
      refine ih ?_
      by_cases hn : ledger.Lacks n
      · rw [reqQueue_fetch_of_lacks hn]
        exact size_push_le n 1 h
      · rw [reqQueue_fetch_of_has hn]
        exact h

/-- If the queue has room, the first height the ledger lacks goes back. -/
theorem exists_pushed {ns : List ℤ} (hroom : x.reqQueue.size < capacity)
    (hlacks : ∃ n ∈ ns, ledger.Lacks n) :
    ∃ n ∈ ns, ledger.Lacks n ∧ DownloadRequest.make n 1 ∈
      (fetchAndSendBlocks ledger capacity peer ns x).reqQueue.requests := by
  induction ns generalizing x with
  | nil =>
      obtain ⟨n, hn, -⟩ := hlacks
      cases hn
  | cons n ns ih =>
      by_cases hn : ledger.Lacks n
      · refine ⟨n, List.mem_cons_self, hn, ?_⟩
        refine Multiset.mem_of_le (requests_fetchBlocks_le
          (x := fetchAndSendBlock ledger capacity peer n x) ns) ?_
        rw [reqQueue_fetch_of_lacks hn, requests_push hroom]
        exact Multiset.mem_cons_self _ _
      · have hsame : (fetchAndSendBlock ledger capacity peer n x).reqQueue =
            x.reqQueue := reqQueue_fetch_of_has hn
        have hrest : ∃ m ∈ ns, ledger.Lacks m := by
          obtain ⟨m, hm, hlacks⟩ := hlacks
          rcases List.mem_cons.mp hm with rfl | hm
          · exact absurd hlacks hn
          · exact ⟨m, hm, hlacks⟩
        obtain ⟨m, hm, hpushed⟩ := ih
          (x := fetchAndSendBlock ledger capacity peer n x)
          (hsame ▸ hroom) hrest
        exact ⟨m, List.mem_cons_of_mem n hm, hpushed⟩

/-! ## Queues that are never emptied -/

/-- The queue holds a request below `e` for a height the ledger lacks, and
merging keeps the requests that end at `e` at most apart from the others. -/
structure Trapped (ledger : Ledger) (capacity : ℕ) (lo e : ℤ)
    (q : DownloadRequestQueue) : Prop where
  lo_ge : -2 ^ 63 ≤ lo
  lt : e < 2 ^ 63
  size_le : q.size ≤ capacity
  apart : ∀ r ∈ q.requests, lo ≤ r.fromNumber ∧
    (r.stop ≤ e ∨ 0 ≤ lo ∧ e < r.fromNumber)
  missing : ∃ r ∈ q.requests, r.stop ≤ e ∧
    ∃ n, r.fromNumber ≤ n ∧ n < r.stop ∧ ledger.Lacks n

/-- Fetching heights between `lo` and `e` leads to a trapped queue if one of
them is missing, or if a request for a missing height is left. -/
theorem trapped_fetchBlocks {lo e : ℤ} {ns : List ℤ} (hlo : -2 ^ 63 ≤ lo)
    (he : e < 2 ^ 63) (hroom : x.reqQueue.size < capacity)
    (hapart : ∀ r ∈ x.reqQueue.requests, lo ≤ r.fromNumber ∧
      (r.stop ≤ e ∨ 0 ≤ lo ∧ e < r.fromNumber))
    (hns : ∀ n ∈ ns, lo ≤ n ∧ n < e)
    (hmissing : (∃ n ∈ ns, ledger.Lacks n) ∨
      ∃ r ∈ x.reqQueue.requests, r.stop ≤ e ∧
        ∃ n, r.fromNumber ≤ n ∧ n < r.stop ∧ ledger.Lacks n) :
    Trapped ledger capacity lo e
      (fetchAndSendBlocks ledger capacity peer ns x).reqQueue := by
  have hone : ∀ n ∈ ns, (DownloadRequest.make n 1).fromNumber = n ∧
      (DownloadRequest.make n 1).stop = n + 1 := by
    intro n hn
    have hin := hns n hn
    exact DownloadRequest.make_one (by omega) (by omega)
  refine ⟨hlo, he, size_fetchBlocks_le hroom.le, ?_, ?_⟩
  · intro r hr
    rcases mem_requests_fetchBlocks hr with hr | ⟨n, hn, -, rfl⟩
    · exact hapart r hr
    · obtain ⟨hfrom, hstop⟩ := hone n hn
      have hin := hns n hn
      exact ⟨by omega, .inl (by omega)⟩
  · rcases hmissing with hlacks | ⟨r, hr, hrest⟩
    · obtain ⟨n, hn, hlacks, hpushed⟩ := exists_pushed hroom hlacks
      obtain ⟨hfrom, hstop⟩ := hone n hn
      have hin := hns n hn
      exact ⟨_, hpushed, by omega, n, by omega, by omega, hlacks⟩
    · exact ⟨r, Multiset.mem_of_le (requests_fetchBlocks_le ns) hr, hrest⟩

theorem serveRound_of_some {q' : DownloadRequestQueue} {r : DownloadRequest}
    (h : x.reqQueue.topAndPop = some (r, q')) :
    serveRound ledger capacity peer x =
      some (fetchAndSendBlocks ledger capacity peer r.numbers
        { x with reqQueue := q' }) := by
  have hnotEmpty : ¬ x.reqQueue.isEmpty = true := by
    rw [isEmpty_iff_requests, ← topAndPop_eq_none_iff, h]
    exact Option.some_ne_none _
  rw [serveRound, if_neg hnotEmpty, h]
  rfl

theorem serveRound_eq_none_iff :
    serveRound ledger capacity peer x = none ↔ x.reqQueue.requests = 0 := by
  rw [← isEmpty_iff_requests, serveRound]
  split_ifs with hempty
  · exact iff_of_true rfl hempty
  · rw [Option.map_eq_none_iff, topAndPop_eq_none_iff, ← isEmpty_iff_requests]

theorem serveRound_eq_some {y : Sending}
    (h : serveRound ledger capacity peer x = some y) :
    ∃ r q', x.reqQueue.topAndPop = some (r, q') ∧
      y = fetchAndSendBlocks ledger capacity peer r.numbers
        { x with reqQueue := q' } := by
  cases hpop : x.reqQueue.topAndPop with
  | none =>
      rw [serveRound_eq_none_iff.mpr (topAndPop_eq_none_iff.mp hpop)] at h
      cases h
  | some popped =>
      obtain ⟨r, q'⟩ := popped
      rw [serveRound_of_some hpop] at h
      exact ⟨r, q', rfl, (Option.some.inj h).symm⟩

/-- A round of the loop leaves a trapped queue trapped. -/
theorem Trapped.round {lo e : ℤ}
    (h : Trapped ledger capacity lo e x.reqQueue) :
    ∃ y, serveRound ledger capacity peer x = some y ∧
      Trapped ledger capacity lo e y.reqQueue := by
  obtain ⟨r₁, hr₁, hstop₁, n, hlow, hhigh, hlacks⟩ := h.missing
  cases hpop : x.reqQueue.topAndPop with
  | none =>
      rw [topAndPop_eq_none_iff.mp hpop] at hr₁
      exact absurd hr₁ (Multiset.notMem_zero r₁)
  | some popped =>
      obtain ⟨r, q'⟩ := popped
      obtain ⟨hlo, hstop, hcovers⟩ :=
        topAndPop_exact h.lt h.apart ⟨r₁, hr₁, hstop₁⟩ hpop
      have hle := (topAndPop_requests_lt hpop).le
      have hsize := topAndPop_size_lt hpop
      have hlt := h.lt
      have hlimit : r.numberLimit = r.stop :=
        DownloadRequest.numberLimit_eq (by omega)
      refine ⟨_, serveRound_of_some hpop, ?_⟩
      refine trapped_fetchBlocks h.lo_ge h.lt
        (hsize.trans_le h.size_le)
        (fun r₀ hr₀ => h.apart r₀ (Multiset.mem_of_le hle hr₀)) ?_ ?_
      · intro m hm
        have hin := DownloadRequest.mem_numbers.mp hm
        exact ⟨by omega, by omega⟩
      · rcases hcovers r₁ hr₁ with hleft | ⟨hfrom, hcovered⟩
        · exact .inr ⟨r₁, hleft, hstop₁, n, hlow, hhigh, hlacks⟩
        · exact .inl ⟨n, DownloadRequest.mem_numbers.mpr
            ⟨by omega, by omega⟩, hlacks⟩

theorem Trapped.not_finishes {lo e : ℤ}
    (h : Trapped ledger capacity lo e x.reqQueue) :
    ¬ WhileLoop.Finishes (serveRound ledger capacity peer) x :=
  WhileLoop.not_finishes_of_invariant
    (I := fun x => Trapped ledger capacity lo e x.reqQueue)
    (fun _ h => h.round) h

/-- In a plain queue, a round that asks for a missing height traps the
queue. -/
theorem exists_trapped {q' : DownloadRequestQueue} {r : DownloadRequest}
    (hsize : x.reqQueue.size ≤ capacity) (hplain : x.reqQueue.Plain)
    (hpop : x.reqQueue.topAndPop = some (r, q'))
    (hlacks : ∃ n ∈ r.numbers, ledger.Lacks n) :
    ∃ lo e, Trapped ledger capacity lo e
      (fetchAndSendBlocks ledger capacity peer r.numbers
        { x with reqQueue := q' }).reqQueue := by
  have hle := (topAndPop_requests_lt hpop).le
  have hroom : q'.size < capacity := (topAndPop_size_lt hpop).trans_le hsize
  obtain ⟨⟨first, hfirst, hfrom⟩, hmin⟩ := topAndPop_fromNumber hpop
  rcases hplain with hfits | hnonneg
  · have hwithin : ∀ r₀ ∈ x.reqQueue.requests, -2 ^ 63 ≤ r₀.fromNumber ∧
        (r₀.stop ≤ 2 ^ 63 - 1 ∨
          0 ≤ (-2 ^ 63 : ℤ) ∧ 2 ^ 63 - 1 < r₀.fromNumber) := by
      intro r₀ hr₀
      have hfit := hfits r₀ hr₀
      exact ⟨r₀.fromNumber_range.1, .inl (by omega)⟩
    have hfit := hfits first hfirst
    obtain ⟨hlow, hstop, -⟩ := topAndPop_exact (by omega) hwithin
      ⟨first, hfirst, by omega⟩ hpop
    have hlimit : r.numberLimit = r.stop :=
      DownloadRequest.numberLimit_eq (by omega)
    refine ⟨-2 ^ 63, 2 ^ 63 - 1, trapped_fetchBlocks le_rfl (by omega) hroom
      (fun r₀ hr₀ => hwithin r₀ (Multiset.mem_of_le hle hr₀)) ?_
      (.inl hlacks)⟩
    intro n hn
    have hin := DownloadRequest.mem_numbers.mp hn
    exact ⟨by omega, by omega⟩
  · have hrest := topAndPop_rest hnonneg hpop
    have hfirst₀ := hnonneg first hfirst
    have hlimit := toInt64_range r.stop
    refine ⟨0, r.numberLimit, trapped_fetchBlocks (by omega) hlimit.2 hroom
      ?_ ?_ (.inl hlacks)⟩
    · intro r₀ hr₀
      obtain ⟨n, hn, -⟩ := hlacks
      have hin := DownloadRequest.mem_numbers.mp hn
      have hbehind := hrest r₀ hr₀
      have hnonneg₀ := hnonneg r₀ (Multiset.mem_of_le hle hr₀)
      refine ⟨hnonneg₀, .inr ⟨le_rfl, ?_⟩⟩
      unfold DownloadRequest.numberLimit toInt64 at hin ⊢
      omega
    · intro n hn
      have hin := DownloadRequest.mem_numbers.mp hn
      exact ⟨by omega, hin.2⟩

/-! ## When the loop finishes -/

theorem finishes_of_serves {q : DownloadRequestQueue} (h : ledger.Serves q)
    (outbox : List (PublicPtr × Packet)) :
    WhileLoop.Finishes (serveRound ledger capacity peer) ⟨q, outbox⟩ := by
  induction h generalizing outbox with
  | done hpop =>
      apply WhileLoop.finishes_of_none
      exact serveRound_eq_none_iff.mpr (topAndPop_eq_none_iff.mp hpop)
  | @round q q' r hpop hhas _ ih =>
      let y := fetchAndSendBlocks ledger capacity peer r.numbers ⟨q', outbox⟩
      have hround : serveRound ledger capacity peer ⟨q, outbox⟩ = some y :=
        serveRound_of_some hpop
      have hqueue : y.reqQueue = q' := reqQueue_fetchBlocks_of_has hhas
      have hrest := ih y.outbox
      rw [← hqueue] at hrest
      exact (WhileLoop.finishes_iff_of_some hround).mpr hrest

/-- The loop over a plain queue finishes only if the ledger has every height
of the merged requests. -/
theorem serves_of_finishes {q : DownloadRequestQueue}
    {outbox : List (PublicPtr × Packet)} (hsize : q.size ≤ capacity)
    (hplain : q.Plain)
    (h : WhileLoop.Finishes (serveRound ledger capacity peer) ⟨q, outbox⟩) :
    ledger.Serves q := by
  induction q using drain_induction generalizing outbox with
  | hdone q hpop => exact .done hpop
  | hround q q' r hpop ih =>
      let y := fetchAndSendBlocks ledger capacity peer r.numbers ⟨q', outbox⟩
      have hround : serveRound ledger capacity peer ⟨q, outbox⟩ = some y :=
        serveRound_of_some hpop
      have hfinishes := (WhileLoop.finishes_iff_of_some hround).mp h
      by_cases hlacks : ∃ n ∈ r.numbers, ledger.Lacks n
      · obtain ⟨lo, e, htrapped⟩ := exists_trapped (x := ⟨q, outbox⟩)
          hsize hplain hpop hlacks
        exact absurd hfinishes htrapped.not_finishes
      · have hhas : ∀ n ∈ r.numbers, ¬ ledger.Lacks n :=
          fun m hm hm' => hlacks ⟨m, hm, hm'⟩
        have hqueue : y.reqQueue = q' := reqQueue_fetchBlocks_of_has hhas
        have hrest : WhileLoop.Finishes
            (serveRound ledger capacity peer) ⟨q', y.outbox⟩ := by
          rw [← hqueue]
          exact hfinishes
        exact .round hpop hhas (ih ((topAndPop_size_lt hpop).le.trans hsize)
          (hplain.mono (topAndPop_requests_lt hpop).le) hrest)

theorem serves_iff_of_some {q q' : DownloadRequestQueue}
    {r : DownloadRequest} (hpop : q.topAndPop = some (r, q')) :
    ledger.Serves q ↔
      (∀ n ∈ r.numbers, ¬ ledger.Lacks n) ∧ ledger.Serves q' := by
  constructor
  · intro h
    cases h with
    | done hnone => cases hnone.symm.trans hpop
    | round hsome hhas hrest =>
        simp only [hpop, Option.some.injEq, Prod.mk.injEq] at hsome
        obtain ⟨rfl, rfl⟩ := hsome
        exact ⟨hhas, hrest⟩
  · exact fun h => .round hpop h.1 h.2

theorem serves_iff_fetched {q : DownloadRequestQueue} :
    ledger.Serves q ↔ ∀ n ∈ q.fetched, ¬ ledger.Lacks n := by
  induction q using drain_induction with
  | hdone q hpop =>
      refine iff_of_true (.done hpop) fun n hn => ?_
      rw [fetched, drain_of_none hpop] at hn
      cases hn
  | hround q q' r hpop ih =>
      rw [serves_iff_of_some hpop, ih, fetched_of_some hpop]
      simp only [List.mem_append, or_imp, forall_and]

/-- Where no start is negative and no range overflows, the merged requests
have the heights of the queued ones and no others. -/
theorem serves_iff {q : DownloadRequestQueue}
    (hq : ∀ r ∈ q.requests, 0 ≤ r.fromNumber ∧ r.stop < 2 ^ 63) :
    ledger.Serves q ↔
      ∀ r ∈ q.requests, ∀ n ∈ r.numbers, ¬ ledger.Lacks n := by
  have hnumbers : ∀ r ∈ q.requests, ∀ n,
      n ∈ r.numbers ↔ r.fromNumber ≤ n ∧ n < r.stop := by
    intro r hr n
    rw [DownloadRequest.mem_numbers,
      DownloadRequest.numberLimit_eq (hq r hr).2]
  rw [serves_iff_fetched]
  constructor
  · intro h r hr n hn
    apply h n
    exact (InRange.mem_fetched hq).mpr ⟨r, hr, (hnumbers r hr n).mp hn⟩
  · intro h n hn
    obtain ⟨r, hr, hin⟩ := (InRange.mem_fetched hq).mp hn
    exact h r hr n ((hnumbers r hr n).mpr hin)

end BlockSync

end BcosSync
