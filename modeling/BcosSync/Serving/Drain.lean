import BcosSync.Serving.Model
import Mathlib.Data.List.Pairwise

/-!
# Draining a request queue

What repeated calls of `topAndPop` return.  Where no start is negative and no
range overflows, the ranges that come out ascend, do not touch each other, and
have the heights of the requests that went in.
-/

namespace BcosSync

open MachineInt

namespace DownloadRequest

theorem numberLimit_eq {r : DownloadRequest} (h : r.stop < 2 ^ 63) :
    r.numberLimit = r.stop := by
  have hrange := r.fromNumber_range
  have hle := r.stop_ge
  exact toInt64_of_range (by omega) h

/-- The request that is pushed back for one height. -/
theorem make_one {n : ℤ} (hlow : -2 ^ 63 ≤ n) (hhigh : n < 2 ^ 63) :
    (make n 1).fromNumber = n ∧ (make n 1).stop = n + 1 := by
  have hfrom : (make n 1).fromNumber = n := toInt64_of_range hlow hhigh
  refine ⟨hfrom, ?_⟩
  rw [stop, hfrom]
  rfl

end DownloadRequest

namespace DownloadRequestQueue

/-- The requests, numbers with sizes, pushed one after the other. -/
def pushAll (capacity : ℕ) (reqs : List (ℤ × ℤ)) (q : DownloadRequestQueue) :
    DownloadRequestQueue :=
  reqs.foldl (fun q req => q.push capacity req.1 req.2) q

/-- At most `n` calls of `topAndPop`. -/
def drainLoop : ℕ → DownloadRequestQueue → List DownloadRequest
  | 0, _ => []
  | n + 1, q =>
      match q.topAndPop with
      | none => []
      | some (r, q') => r :: drainLoop n q'

/-- What `topAndPop` returns until the queue is empty. -/
def drain (q : DownloadRequestQueue) : List DownloadRequest :=
  drainLoop q.size q

/-- The heights of the merged requests, in the order they are fetched. -/
def fetched (q : DownloadRequestQueue) : List ℤ :=
  q.drain.flatMap DownloadRequest.numbers

/-- No start is negative and no range overflows. -/
def InRange (q : DownloadRequestQueue) : Prop :=
  ∀ r ∈ q.requests, 0 ≤ r.fromNumber ∧ r.stop < 2 ^ 63

variable {q q' : DownloadRequestQueue} {r : DownloadRequest} {n : ℤ}

/-! ## Pushing -/

theorem requests_pushAll {capacity : ℕ} {reqs : List (ℤ × ℤ)}
    (h : reqs.length + q.size ≤ capacity) :
    (q.pushAll capacity reqs).requests =
      ↑(reqs.map fun req => DownloadRequest.make req.1 req.2) +
        q.requests := by
  induction reqs generalizing q with
  | nil => exact (Multiset.zero_add _).symm
  | cons req reqs ih =>
      rw [List.length_cons] at h
      have hroom : q.size < capacity := by omega
      have hone : (q.push capacity req.1 req.2).requests = _ :=
        requests_push hroom
      have hsize : (q.push capacity req.1 req.2).size = q.size + 1 := by
        rw [size_eq_card, hone, Multiset.card_cons, ← size_eq_card]
      have hrest := ih (q := q.push capacity req.1 req.2) (by omega)
      rw [hone, Multiset.add_cons, ← Multiset.cons_add,
        Multiset.cons_coe] at hrest
      exact hrest

theorem mem_requests_pushAll {capacity : ℕ} {reqs : List (ℤ × ℤ)}
    (h : reqs.length ≤ capacity) :
    r ∈ (new.pushAll capacity reqs).requests ↔
      ∃ req ∈ reqs, DownloadRequest.make req.1 req.2 = r := by
  have hempty : new.requests = 0 := requestQueue.elems_empty
  have hnone : new.size = 0 := by rw [size_eq_card, hempty, Multiset.card_zero]
  rw [requests_pushAll (by rw [hnone]; exact h), hempty, Multiset.add_zero,
    Multiset.mem_coe, List.mem_map]

/-! ## Draining -/

/-- A rule for draining: the queue is empty, or one merged request comes out
and the rest is drained. -/
theorem drain_induction {M : DownloadRequestQueue → Prop}
    (hdone : ∀ q, q.topAndPop = none → M q)
    (hround : ∀ q q' r, q.topAndPop = some (r, q') → M q' → M q)
    (q : DownloadRequestQueue) : M q := by
  induction hsize : q.size using Nat.strong_induction_on generalizing q with
  | _ n ih =>
      cases hpop : q.topAndPop with
      | none => exact hdone q hpop
      | some popped =>
          obtain ⟨r, q'⟩ := popped
          have hlt := topAndPop_size_lt hpop
          exact hround q q' r hpop (ih q'.size (by omega) q' rfl)

theorem drainLoop_of_none (hpop : q.topAndPop = none) (n : ℕ) :
    drainLoop n q = [] := by
  cases n with
  | zero => rfl
  | succ n => rw [drainLoop, hpop]

theorem drainLoop_of_some (hpop : q.topAndPop = some (r, q')) {n : ℕ}
    (h : q.size ≤ n) : ∃ m, q'.size ≤ m ∧ drainLoop n q =
      r :: drainLoop m q' := by
  have hlt := topAndPop_size_lt hpop
  obtain ⟨m, rfl⟩ : ∃ m, n = m + 1 := Nat.exists_eq_add_one.mpr (by omega)
  exact ⟨m, by omega, by rw [drainLoop, hpop]⟩

/-- More calls than there are requests change nothing. -/
theorem drainLoop_of_le : ∀ n, q.size ≤ n → drainLoop n q = q.drain := by
  induction q using drain_induction with
  | hdone q hpop =>
      intro n _
      rw [drain, drainLoop_of_none hpop, drainLoop_of_none hpop]
  | hround q q' r hpop ih =>
      intro n hn
      obtain ⟨m, hm, hloop⟩ := drainLoop_of_some hpop hn
      obtain ⟨k, hk, hdrain⟩ := drainLoop_of_some hpop le_rfl
      rw [drain, hloop, hdrain, ih m hm, ih k hk]

theorem drain_of_none (hpop : q.topAndPop = none) : q.drain = [] :=
  drainLoop_of_none hpop q.size

theorem drain_of_some (hpop : q.topAndPop = some (r, q')) :
    q.drain = r :: q'.drain := by
  obtain ⟨m, hm, hloop⟩ := drainLoop_of_some hpop le_rfl
  rw [drain, hloop, drainLoop_of_le m hm]

theorem fetched_of_some (hpop : q.topAndPop = some (r, q')) :
    q.fetched = r.numbers ++ q'.fetched := by
  rw [fetched, drain_of_some hpop, List.flatMap_cons]
  rfl

/-- Every drained request starts where one of the queue does. -/
theorem exists_start_of_mem_drain :
    ∀ r ∈ q.drain, ∃ r₀ ∈ q.requests, r.fromNumber = r₀.fromNumber := by
  induction q using drain_induction with
  | hdone q hpop =>
      intro r hr
      rw [drain_of_none hpop] at hr
      cases hr
  | hround q q' r hpop ih =>
      intro r₁ hr₁
      rw [drain_of_some hpop] at hr₁
      rcases List.mem_cons.mp hr₁ with rfl | hr₁
      · exact (topAndPop_fromNumber hpop).1
      · obtain ⟨r₀, hr₀, hfrom⟩ := ih r₁ hr₁
        exact ⟨r₀, Multiset.mem_of_le (topAndPop_requests_lt hpop).le hr₀,
          hfrom⟩

/-! ## Draining requests in range -/

theorem InRange.mono (h : q.InRange) (hpop : q.topAndPop = some (r, q')) :
    q'.InRange :=
  fun r hr => h r (Multiset.mem_of_le (topAndPop_requests_lt hpop).le hr)

/-- One merged request: it is in range, the requests that are left lie
strictly behind it, and its heights are those of the requests that are
gone. -/
theorem InRange.topAndPop (h : q.InRange)
    (hpop : q.topAndPop = some (r, q')) :
    0 ≤ r.fromNumber ∧ r.stop < 2 ^ 63 ∧
      (∀ r₀ ∈ q'.requests, r.stop < r₀.fromNumber) ∧
      ∀ n, (∃ r₀ ∈ q.requests, r₀.fromNumber ≤ n ∧ n < r₀.stop) ↔
        (r.fromNumber ≤ n ∧ n < r.stop) ∨
          ∃ r₀ ∈ q'.requests, r₀.fromNumber ≤ n ∧ n < r₀.stop := by
  have hwithin : ∀ r₀ ∈ q.requests,
      0 ≤ r₀.fromNumber ∧ r₀.stop ≤ 2 ^ 63 - 1 := by
    intro r₀ hr₀
    have hfit := h r₀ hr₀
    exact ⟨hfit.1, by omega⟩
  obtain ⟨⟨first, hfirst, -⟩, -⟩ := topAndPop_fromNumber hpop
  obtain ⟨hlow, hstop, hcovers⟩ := topAndPop_exact (by omega)
    (fun r₀ hr₀ => ⟨(hwithin r₀ hr₀).1, .inl (hwithin r₀ hr₀).2⟩)
    ⟨first, hfirst, (hwithin first hfirst).2⟩ hpop
  have hsub : q'.requests ≤ q.requests := (topAndPop_requests_lt hpop).le
  refine ⟨hlow, by omega, topAndPop_behind (fun r₀ hr₀ => (h r₀ hr₀).1) hpop
    (by omega), ?_⟩
  · intro n
    constructor
    · rintro ⟨r₀, hr₀, hin⟩
      rcases hcovers r₀ hr₀ with hleft | ⟨hfrom, hstop₀⟩
      · exact .inr ⟨r₀, hleft, hin⟩
      · exact .inl ⟨by omega, by omega⟩
    · rintro (⟨hfrom, hlt⟩ | ⟨r₀, hr₀, hin⟩)
      · exact topAndPop_covered (by omega) hwithin hpop hfrom hlt
      · exact ⟨r₀, Multiset.mem_of_le hsub hr₀, hin⟩

/-- The drained ranges ascend and do not touch each other. -/
theorem InRange.drain_apart (h : q.InRange) :
    q.drain.Pairwise fun a b => a.stop < b.fromNumber := by
  induction q using drain_induction with
  | hdone q hpop =>
      rw [drain_of_none hpop]
      exact .nil
  | hround q q' r hpop ih =>
      rw [drain_of_some hpop, List.pairwise_cons]
      refine ⟨fun b hb => ?_, ih (h.mono hpop)⟩
      obtain ⟨r₀, hr₀, hfrom⟩ := exists_start_of_mem_drain b hb
      rw [hfrom]
      exact (h.topAndPop hpop).2.2.1 r₀ hr₀

/-- The drained ranges have the heights of the requests. -/
theorem InRange.drain_covers (h : q.InRange) (n : ℤ) :
    (∃ r ∈ q.drain, r.fromNumber ≤ n ∧ n < r.stop) ↔
      ∃ r ∈ q.requests, r.fromNumber ≤ n ∧ n < r.stop := by
  induction q using drain_induction with
  | hdone q hpop =>
      rw [drain_of_none hpop, topAndPop_eq_none_iff.mp hpop]
      simp
  | hround q q' r hpop ih =>
      rw [drain_of_some hpop, (h.topAndPop hpop).2.2.2 n,
        ← ih (h.mono hpop)]
      simp only [List.mem_cons, exists_eq_or_imp]

theorem InRange.stop_lt (h : q.InRange) : ∀ r ∈ q.drain, r.stop < 2 ^ 63 := by
  induction q using drain_induction with
  | hdone q hpop =>
      intro r hr
      rw [drain_of_none hpop] at hr
      cases hr
  | hround q q' r hpop ih =>
      intro r₁ hr₁
      rw [drain_of_some hpop] at hr₁
      rcases List.mem_cons.mp hr₁ with rfl | hr₁
      · exact (h.topAndPop hpop).2.1
      · exact ih (h.mono hpop) r₁ hr₁

/-- What is fetched are the heights of the requests. -/
theorem InRange.mem_fetched (h : q.InRange) :
    n ∈ q.fetched ↔ ∃ r ∈ q.requests, r.fromNumber ≤ n ∧ n < r.stop := by
  rw [← h.drain_covers, fetched, List.mem_flatMap]
  refine exists_congr fun r => and_congr_right fun hr => ?_
  rw [DownloadRequest.mem_numbers,
    DownloadRequest.numberLimit_eq (h.stop_lt r hr)]

/-- Heights are fetched in ascending order, each of them once. -/
theorem InRange.fetched_ascends (h : q.InRange) :
    q.fetched.Pairwise (· < ·) := by
  rw [fetched, List.pairwise_flatMap]
  constructor
  · intro r _
    rw [DownloadRequest.numbers, List.pairwise_map]
    exact List.pairwise_lt_range.imp fun hlt => by omega
  · refine h.drain_apart.imp_of_mem fun ha hb hlt m hm k hk => ?_
    rw [DownloadRequest.mem_numbers,
      DownloadRequest.numberLimit_eq (h.stop_lt _ ha)] at hm
    rw [DownloadRequest.mem_numbers] at hk
    omega

end DownloadRequestQueue

end BcosSync
