import BcosSync.Protocol.Types
import BcosSync.Support.MachineInt
import Mathlib.Order.MinMax
import Mathlib.Tactic.SplitIfs

/-!
# The download request queue of a peer

Requests for block ranges, popped in merged form.  All arithmetic is the
64-bit arithmetic of the source: heights are `int64_t`, sizes are `size_t`,
and the merge loop works on `size_t` throughout.

In exact integers, a merge that starts at `a` ends at some `e` with
`a ≤ e < a + 2 ^ 64`, and it absorbs a request whose start is at most `e` when
both are read as `size_t`.  `topAndPop_rule` says that what every such
absorption keeps is so of the merged request and of the queue that is left.
-/

namespace BcosSync

open MachineInt

/-- A request for `size` blocks from `fromNumber` on. -/
structure DownloadRequest where
  fromNumber : ℤ
  size : ℕ
  fromNumber_range : -2 ^ 63 ≤ fromNumber ∧ fromNumber < 2 ^ 63
  size_lt : size < 2 ^ 64
deriving DecidableEq

namespace DownloadRequest

/-- The constructor call, with its conversions to `int64_t` and `size_t`. -/
def make (fromNumber size : ℤ) : DownloadRequest where
  fromNumber := toInt64 fromNumber
  size := toSize size
  fromNumber_range := toInt64_range fromNumber
  size_lt := toSize_lt size

/-- The height after the last one asked for, without overflow. -/
def stop (r : DownloadRequest) : ℤ := r.fromNumber + r.size

/-- Where the request ends for a merge that starts at `a`. -/
def endFrom (r : DownloadRequest) (a : ℤ) : ℤ := a + toSize (r.stop - a)

/-- The order of `DownloadRequestCmp`: the lower start is nearer to the top,
and of two requests with one start the longer one is. -/
def Before (a b : DownloadRequest) : Prop :=
  a.fromNumber < b.fromNumber ∨
    a.fromNumber = b.fromNumber ∧ b.size ≤ a.size

instance : DecidableRel Before := fun _ _ =>
  inferInstanceAs (Decidable (_ ∨ _))

theorem before_total (a b : DownloadRequest) : Before a b ∨ Before b a := by
  unfold Before
  omega

theorem before_trans (a b c : DownloadRequest)
    (hab : Before a b) (hbc : Before b c) : Before a c := by
  unfold Before at *
  omega

variable {r : DownloadRequest} {a : ℤ}

theorem stop_ge (r : DownloadRequest) : r.fromNumber ≤ r.stop := by
  unfold stop
  omega

theorem stop_lt (r : DownloadRequest) : r.stop < r.fromNumber + 2 ^ 64 := by
  have hsize := r.size_lt
  unfold stop
  omega

theorem endFrom_of_lt (ha : a ≤ r.fromNumber) (h : r.stop < a + 2 ^ 64) :
    r.endFrom a = r.stop := by
  have hge := r.stop_ge
  rw [endFrom, toSize_of_range (by omega) (by omega)]
  omega

/-- An end that wraps lies in front of the start. -/
theorem endFrom_of_ge (ha : -2 ^ 63 ≤ a) (h : a + 2 ^ 64 ≤ r.stop) :
    r.endFrom a = r.stop - 2 ^ 64 := by
  have hlt := r.stop_lt
  have hrange := r.fromNumber_range
  unfold endFrom toSize
  omega

end DownloadRequest

/-- Requests that tie have equal fields, so that every priority queue behaves
like the sorted list here. -/
def requestQueue : PriorityQueue DownloadRequest DownloadRequest.Before :=
  PriorityQueue.sortedList DownloadRequest.Before
    DownloadRequest.before_total DownloadRequest.before_trans

structure DownloadRequestQueue where
  reqQueue : requestQueue.Carrier

namespace DownloadRequestQueue

def new : DownloadRequestQueue := ⟨requestQueue.empty⟩

def size (q : DownloadRequestQueue) : ℕ := requestQueue.size q.reqQueue

def isEmpty (q : DownloadRequestQueue) : Bool :=
  requestQueue.size q.reqQueue == 0

/-- The requests in the queue. -/
def requests (q : DownloadRequestQueue) : Multiset DownloadRequest :=
  requestQueue.elems q.reqQueue

/-- `push`: requests beyond the capacity are dropped. -/
def push (capacity : ℕ) (fromNumber size : ℤ) (q : DownloadRequestQueue) :
    DownloadRequestQueue :=
  if capacity ≤ q.size then q
  else ⟨requestQueue.push q.reqQueue (DownloadRequest.make fromNumber size)⟩

/-- The `while` loop of `topAndPop`, for at most `n` rounds: `start` and
`size` are the merged range so far. -/
def mergeLoop : ℕ → ℕ → ℕ → requestQueue.Carrier → ℕ × requestQueue.Carrier
  | 0, _, size, q => (size, q)
  | n + 1, start, size, q =>
      match requestQueue.top q with
      | none => (size, q)
      | some topReq =>
          if toSize topReq.fromNumber ≤ (start + size) % 2 ^ 64 then
            mergeLoop n start
              (max size (toSize (topReq.fromNumber + topReq.size - start)))
              (requestQueue.pop q)
          else (size, q)

/-- `topAndPop`: the merge of the requests at the top, and the rest. -/
def topAndPop (q : DownloadRequestQueue) :
    Option (DownloadRequest × DownloadRequestQueue) :=
  match requestQueue.top q.reqQueue with
  | none => none
  | some topReq =>
      let start := toSize topReq.fromNumber
      let merged := mergeLoop q.size start 0 q.reqQueue
      some (DownloadRequest.make start merged.1, ⟨merged.2⟩)

variable {q q' : DownloadRequestQueue} {r t t' : DownloadRequest}
  {c : requestQueue.Carrier} {a e h : ℤ}

/-! ## Pushing -/

theorem size_eq_card (q : DownloadRequestQueue) :
    q.size = q.requests.card :=
  requestQueue.size_eq _

theorem requests_push {capacity : ℕ} {fromNumber size : ℤ}
    (h : q.size < capacity) :
    (q.push capacity fromNumber size).requests =
      DownloadRequest.make fromNumber size ::ₘ q.requests := by
  rw [push, if_neg (not_le.mpr h)]
  exact requestQueue.elems_push _ _

theorem requests_push_le (capacity : ℕ) (fromNumber size : ℤ)
    (q : DownloadRequestQueue) :
    (q.push capacity fromNumber size).requests ≤
      DownloadRequest.make fromNumber size ::ₘ q.requests := by
  rcases lt_or_ge q.size capacity with hroom | hfull
  · exact (requests_push hroom).le
  · rw [push, if_pos hfull]
    exact Multiset.le_cons_self _ _

theorem size_push_le {capacity : ℕ} (fromNumber size : ℤ)
    (h : q.size ≤ capacity) :
    (q.push capacity fromNumber size).size ≤ capacity := by
  rcases h.lt_or_eq with hlt | heq
  · rw [size_eq_card, requests_push hlt, Multiset.card_cons, ← size_eq_card]
    exact hlt
  · rw [push, if_pos heq.ge]
    exact h

/-! ## What is merged -/

theorem isEmpty_iff_requests : q.isEmpty = true ↔ q.requests = 0 := by
  rw [isEmpty, beq_iff_eq, ← Multiset.card_eq_zero, ← size_eq_card, size]

theorem topAndPop_eq_none_iff : q.topAndPop = none ↔ q.requests = 0 := by
  rw [requests, ← requestQueue.top_eq_none_iff, topAndPop]
  cases requestQueue.top q.reqQueue <;> simp

theorem topAndPop_eq_some (h : q.topAndPop = some (r, q')) :
    ∃ top, requestQueue.top q.reqQueue = some top ∧
      r = DownloadRequest.make (toSize top.fromNumber)
        (mergeLoop q.size (toSize top.fromNumber) 0 q.reqQueue).1 ∧
      q'.reqQueue =
        (mergeLoop q.size (toSize top.fromNumber) 0 q.reqQueue).2 := by
  unfold topAndPop at h
  cases htop : requestQueue.top q.reqQueue with
  | none =>
      rw [htop] at h
      cases h
  | some top =>
      simp only [htop, Option.some.injEq, Prod.mk.injEq] at h
      obtain ⟨hr, hq⟩ := h
      exact ⟨top, rfl, hr.symm, congrArg reqQueue hq.symm⟩

theorem mergeLoop_le (n start size : ℕ) (c : requestQueue.Carrier) :
    requestQueue.elems (mergeLoop n start size c).2 ≤
      requestQueue.elems c := by
  induction n generalizing size c with
  | zero => exact le_rfl
  | succ n ih =>
      rw [mergeLoop]
      cases htop : requestQueue.top c with
      | none => exact le_rfl
      | some top =>
          dsimp only
          split_ifs
          · refine (ih _ _).trans ?_
            rw [requestQueue.elems_of_top c top htop]
            exact Multiset.le_cons_self _ _
          · exact le_rfl

/-- The first request is always popped. -/
theorem mergeLoop_top_le {n : ℕ} {c : requestQueue.Carrier}
    {top : DownloadRequest} (htop : requestQueue.top c = some top) :
    requestQueue.elems (mergeLoop (n + 1) (toSize top.fromNumber) 0 c).2 ≤
      requestQueue.elems (requestQueue.pop c) := by
  have hlt := toSize_lt top.fromNumber
  rw [mergeLoop, htop]
  dsimp only
  rw [if_pos (by rw [Nat.add_zero, Nat.mod_eq_of_lt hlt])]
  exact mergeLoop_le _ _ _ _

theorem topAndPop_requests_lt (h : q.topAndPop = some (r, q')) :
    q'.requests < q.requests := by
  obtain ⟨top, htop, -, hrest⟩ := topAndPop_eq_some h
  have hpop := requestQueue.elems_of_top q.reqQueue top htop
  have hsize : ∃ n, q.size = n + 1 :=
    ⟨_, requestQueue.size_pop htop⟩
  obtain ⟨n, hn⟩ := hsize
  rw [requests, requests, hrest, hn, hpop]
  exact (mergeLoop_top_le htop).trans_lt (Multiset.lt_cons_self _ _)

theorem topAndPop_size_lt (h : q.topAndPop = some (r, q')) :
    q'.size < q.size := by
  have hlt := Multiset.card_lt_card (topAndPop_requests_lt h)
  rwa [← size_eq_card, ← size_eq_card] at hlt

/-! ## What `topAndPop` returns -/

@[simp] theorem make_size (fromNumber size : ℤ) :
    (DownloadRequest.make fromNumber size).size = toSize size := rfl

theorem make_fromNumber (r : DownloadRequest) (size : ℤ) :
    (DownloadRequest.make (toSize r.fromNumber) size).fromNumber =
      r.fromNumber := by
  have hrange := r.fromNumber_range
  simp only [DownloadRequest.make, toInt64, toSize]
  omega

/-- The merged request starts where the first request does, and no request
of the queue starts before it. -/
theorem topAndPop_fromNumber (h : q.topAndPop = some (r, q')) :
    (∃ top ∈ q.requests, r.fromNumber = top.fromNumber) ∧
      ∀ r₀ ∈ q.requests, r.fromNumber ≤ r₀.fromNumber := by
  obtain ⟨top, htop, hr, -⟩ := topAndPop_eq_some h
  have hfrom : r.fromNumber = top.fromNumber := by
    rw [hr, make_fromNumber]
  refine ⟨⟨top, requestQueue.mem_of_top htop, hfrom⟩, fun r₀ hr₀ => ?_⟩
  have hbefore : DownloadRequest.Before top r₀ :=
    requestQueue.le_of_top _ top htop r₀ hr₀
  unfold DownloadRequest.Before at hbefore
  omega

/-! ## A rule for merges -/

/-- `c` is what is left of the queue: what is gone stood in front of it. -/
structure Left (q : DownloadRequestQueue) (c : requestQueue.Carrier) :
    Prop where
  le : requestQueue.elems c ≤ q.requests
  front : ∀ t ∈ q.requests, t ∈ requestQueue.elems c ∨
    ∀ t' ∈ requestQueue.elems c, DownloadRequest.Before t t'

/-- The merge of the range from `a` to `e` goes on with the request `t` at the
top of what is left. -/
structure Absorbs (q : DownloadRequestQueue) (a e : ℤ)
    (c : requestQueue.Carrier) (t : DownloadRequest) : Prop where
  left : q.Left c
  top : requestQueue.top c = some t
  lower : -2 ^ 63 ≤ a
  start_le : a ≤ t.fromNumber
  le_end : a ≤ e
  end_lt : e < a + 2 ^ 64
  test : toSize t.fromNumber ≤ toSize e

theorem Left.refl (q : DownloadRequestQueue) : q.Left q.reqQueue where
  le := le_rfl
  front _ ht := .inl ht

theorem Left.mem (hc : q.Left c) (ht : t ∈ requestQueue.elems c) :
    t ∈ q.requests :=
  Multiset.mem_of_le hc.le ht

theorem Left.pop (hc : q.Left c) (htop : requestQueue.top c = some t) :
    q.Left (requestQueue.pop c) where
  le := by
    refine le_trans ?_ hc.le
    rw [requestQueue.elems_of_top c t htop]
    exact Multiset.le_cons_self _ _
  front t₀ ht₀ := by
    rcases hc.front t₀ ht₀ with hmem | hfront
    · rw [requestQueue.elems_of_top c t htop] at hmem
      rcases Multiset.mem_cons.mp hmem with rfl | hmem
      · right
        intro t' ht'
        exact requestQueue.le_of_top c t₀ htop t'
          (requestQueue.mem_of_mem_pop ht')
      · exact .inl hmem
    · right
      intro t' ht'
      exact hfront t' (requestQueue.mem_of_mem_pop ht')

/-- The new size of the merge loop, as an end of the range. -/
theorem add_mergedSize (a : ℤ) (size : ℕ) (t : DownloadRequest) :
    a + (max size (toSize (t.fromNumber + t.size - toSize a)) : ℕ) =
      max (a + size) (t.endFrom a) := by
  have hsame : toSize (t.fromNumber + t.size - toSize a) =
      toSize (t.stop - a) := by
    unfold DownloadRequest.stop toSize
    omega
  rw [hsame, DownloadRequest.endFrom]
  omega

/-- What every absorption keeps is so at the end, and then the top is not
absorbed. -/
theorem mergeLoop_rule {I : ℤ → requestQueue.Carrier → Prop}
    (ha : -2 ^ 63 ≤ a)
    (hstep : ∀ e c t, q.Absorbs a e c t → I e c →
      I (max e (t.endFrom a)) (requestQueue.pop c))
    (n size : ℕ) (c : requestQueue.Carrier) (hn : requestQueue.size c ≤ n)
    (hsize : size < 2 ^ 64) (hc : q.Left c)
    (hstart : ∀ t ∈ requestQueue.elems c, a ≤ t.fromNumber)
    (hI : I (a + size) c) :
    (mergeLoop n (toSize a) size c).1 < 2 ^ 64 ∧
      q.Left (mergeLoop n (toSize a) size c).2 ∧
      I (a + (mergeLoop n (toSize a) size c).1)
        (mergeLoop n (toSize a) size c).2 ∧
      ∀ t, requestQueue.top (mergeLoop n (toSize a) size c).2 = some t →
        toSize (a + (mergeLoop n (toSize a) size c).1) <
          toSize t.fromNumber := by
  induction n generalizing size c with
  | zero =>
      refine ⟨hsize, hc, hI, fun t ht => ?_⟩
      rw [mergeLoop] at ht
      rw [requestQueue.top_eq_none_of_size_eq_zero (Nat.le_zero.mp hn)] at ht
      cases ht
  | succ n ih =>
      rw [mergeLoop]
      cases htop : requestQueue.top c with
      | none =>
          refine ⟨hsize, hc, hI, fun t ht => ?_⟩
          cases htop.symm.trans ht
      | some t =>
          have hend : (toSize a + size) % 2 ^ 64 = toSize (a + size) := by
            unfold toSize
            omega
          dsimp only
          rw [hend]
          split_ifs with htest
          · have hpopped := requestQueue.size_pop htop
            have habs : q.Absorbs a (a + size) c t :=
              ⟨hc, htop, ha, hstart t (requestQueue.mem_of_top htop),
                by omega, by omega, htest⟩
            refine ih _ (requestQueue.pop c) (by omega)
              (max_lt hsize (toSize_lt _)) (hc.pop htop)
              (fun t ht => hstart t (requestQueue.mem_of_mem_pop ht)) ?_
            rw [add_mergedSize]
            exact hstep _ c t habs hI
          · refine ⟨hsize, hc, hI, fun t' ht' => ?_⟩
            cases htop.symm.trans ht'
            exact not_le.mp htest

/-- The rule for `topAndPop`. -/
theorem topAndPop_rule {I : ℤ → requestQueue.Carrier → Prop}
    (hpop : q.topAndPop = some (r, q'))
    (hstep : ∀ e c t, q.Absorbs r.fromNumber e c t → I e c →
      I (max e (t.endFrom r.fromNumber)) (requestQueue.pop c))
    (hI : I r.fromNumber q.reqQueue) :
    q.Left q'.reqQueue ∧ I r.stop q'.reqQueue ∧
      ∀ t, requestQueue.top q'.reqQueue = some t →
        toSize r.stop < toSize t.fromNumber := by
  have hstart := (topAndPop_fromNumber hpop).2
  obtain ⟨top, htop, hr, hrest⟩ := topAndPop_eq_some hpop
  have hsame : r.fromNumber = top.fromNumber := by rw [hr, make_fromNumber]
  rw [← hsame] at hr hrest
  obtain ⟨hlt, hleft, hI, htest⟩ :=
    mergeLoop_rule r.fromNumber_range.1 hstep q.size 0 q.reqQueue le_rfl
      (by omega) (Left.refl q) hstart (by simpa using hI)
  have hsize : r.size =
      (mergeLoop q.size (toSize r.fromNumber) 0 q.reqQueue).1 := by
    have hcast := congrArg DownloadRequest.size hr
    rw [make_size] at hcast
    have hrange := toSize_of_range (by omega) (Int.ofNat_lt.mpr hlt)
    omega
  rw [DownloadRequest.stop, hsize, hrest]
  exact ⟨hleft, hI, htest⟩

namespace Absorbs

theorem mem (h : q.Absorbs a e c t) : t ∈ q.requests :=
  h.left.mem (requestQueue.mem_of_top h.top)

theorem eq_or_mem_pop (h : q.Absorbs a e c t)
    (ht : t' ∈ requestQueue.elems c) :
    t' = t ∨ t' ∈ requestQueue.elems (requestQueue.pop c) := by
  rwa [requestQueue.elems_of_top c t h.top, Multiset.mem_cons] at ht

/-- No request that is left starts before the one that is absorbed. -/
theorem fromNumber_le (h : q.Absorbs a e c t)
    (ht : t' ∈ requestQueue.elems c) : t.fromNumber ≤ t'.fromNumber := by
  have hbefore : DownloadRequest.Before t t' :=
    requestQueue.le_of_top c t h.top t' ht
  unfold DownloadRequest.Before at hbefore
  omega

/-- A negative start is absorbed only while the end is negative, too. -/
theorem of_negative (h : q.Absorbs a e c t) (ht : t.fromNumber < 0) :
    e < 0 ∧ t.fromNumber ≤ e := by
  have htest := h.test
  have hlow := h.start_le
  have hend := h.end_lt
  have hlower := h.lower
  have hge := h.le_end
  unfold toSize at htest
  omega

/-- A start that is not negative is absorbed by every negative end. -/
theorem of_nonneg (h : q.Absorbs a e c t) (ht : 0 ≤ t.fromNumber) :
    e < 0 ∨ e < 2 ^ 64 ∧ t.fromNumber ≤ e ∨ t.fromNumber ≤ e - 2 ^ 64 := by
  have htest := h.test
  have hrange := t.fromNumber_range
  unfold toSize at htest
  omega

/-- An end that wraps extends the range no further than to the start of its
request. -/
theorem max_endFrom (h : q.Absorbs a e c t) :
    t.stop < a + 2 ^ 64 ∧ max e (t.endFrom a) = max e t.stop ∨
      a + 2 ^ 64 ≤ t.stop ∧ t.endFrom a < t.fromNumber := by
  rcases lt_or_ge t.stop (a + 2 ^ 64) with hlt | hge
  · left
    rw [DownloadRequest.endFrom_of_lt h.start_le hlt]
    exact ⟨hlt, rfl⟩
  · right
    have hstop := t.stop_lt
    rw [DownloadRequest.endFrom_of_ge h.lower hge]
    exact ⟨hge, by omega⟩

/-- What one more absorption says about the requests that are gone. -/
theorem gone {P P' : DownloadRequest → Prop}
    (h : q.Absorbs a e c t)
    (hall : ∀ t' ∈ q.requests, t' ∈ requestQueue.elems c ∨ P t')
    (hmono : ∀ t', P t' → P' t') (ht : P' t) :
    ∀ t' ∈ q.requests,
      t' ∈ requestQueue.elems (requestQueue.pop c) ∨ P' t' := by
  intro t' ht'
  rcases hall t' ht' with hleft | hgone
  · rcases h.eq_or_mem_pop hleft with rfl | hleft
    · exact .inr ht
    · exact .inl hleft
  · exact .inr (hmono t' hgone)

end Absorbs

/-! ## Merging without overflow -/

/-- While the range ends at `b` at most, a request that does so, too, or lies
behind `b` where no start is negative, is absorbed exactly. -/
theorem Absorbs.exact {b : ℤ} (h : q.Absorbs a e c t) (hb : b < 2 ^ 63)
    (he : e ≤ b) (hstop : t.stop ≤ b ∨ 0 ≤ a ∧ b < t.fromNumber) :
    t.stop ≤ b ∧ max e (t.endFrom a) = max e t.stop := by
  have hlower := h.lower
  have hle := h.le_end
  rcases hstop with hstop | ⟨hnonneg, hlt⟩
  · rw [DownloadRequest.endFrom_of_lt h.start_le (by omega)]
    exact ⟨hstop, rfl⟩
  · rcases h.of_nonneg (by omega) with hneg | ⟨-, hfrom⟩ | hfrom <;> omega

/-- If every request ends at `e` at most, or lies behind `e` and no start is
negative, the merged request is in range and covers what has been popped. -/
theorem topAndPop_exact {lo e : ℤ} (he : e < 2 ^ 63)
    (hq : ∀ r₀ ∈ q.requests, lo ≤ r₀.fromNumber ∧
      (r₀.stop ≤ e ∨ 0 ≤ lo ∧ e < r₀.fromNumber))
    (hhas : ∃ r₀ ∈ q.requests, r₀.stop ≤ e)
    (h : q.topAndPop = some (r, q')) :
    lo ≤ r.fromNumber ∧ r.stop ≤ e ∧
      ∀ r₀ ∈ q.requests, r₀ ∈ q'.requests ∨
        r.fromNumber ≤ r₀.fromNumber ∧ r₀.stop ≤ r.stop := by
  obtain ⟨⟨first, hfirst, hfrom⟩, hle⟩ := topAndPop_fromNumber h
  have hlo := (hq first hfirst).1
  have hstart : r.fromNumber ≤ e := by
    obtain ⟨r₁, hr₁, hstop₁⟩ := hhas
    have hle₁ := hle r₁ hr₁
    have hge₁ := r₁.stop_ge
    omega
  obtain ⟨-, ⟨hend, hcovers⟩, -⟩ := topAndPop_rule (I := fun e' c =>
      e' ≤ e ∧ ∀ r₀ ∈ q.requests,
        r₀ ∈ requestQueue.elems c ∨ r₀.stop ≤ e') h
    (fun e' c t habs hI => by
      have hstop : t.stop ≤ e ∨ 0 ≤ r.fromNumber ∧ e < t.fromNumber :=
        (hq t habs.mem).2.imp_right fun hbehind => ⟨by omega, hbehind.2⟩
      obtain ⟨hfit, hmax⟩ := habs.exact he hI.1 hstop
      rw [hmax]
      refine ⟨max_le hI.1 hfit, habs.gone hI.2 (fun t' ht' => ?_) ?_⟩
      · exact ht'.trans (le_max_left _ _)
      · exact le_max_right _ _)
    ⟨hstart, fun r₀ hr₀ => .inl hr₀⟩
  refine ⟨by omega, hend, fun r₀ hr₀ => ?_⟩
  exact (hcovers r₀ hr₀).imp_right fun hstop => ⟨hle r₀ hr₀, hstop⟩

/-- Where the top is not absorbed and no start is negative, nothing that is
left starts at the end or before. -/
theorem rest_behind
    (htest : ∀ t, requestQueue.top c = some t → toSize e < toSize t.fromNumber)
    (hc : ∀ t ∈ requestQueue.elems c, 0 ≤ t.fromNumber) :
    ∀ t ∈ requestQueue.elems c, e % 2 ^ 64 < t.fromNumber := by
  intro t ht
  cases htop : requestQueue.top c with
  | none =>
      rw [requestQueue.elems_of_top_none c htop] at ht
      exact absurd ht (Multiset.notMem_zero t)
  | some top =>
      have hbefore : DownloadRequest.Before top t :=
        requestQueue.le_of_top c top htop t ht
      have hnonneg := hc top (requestQueue.mem_of_top htop)
      have hrange := top.fromNumber_range
      have hlt := htest top htop
      unfold DownloadRequest.Before at hbefore
      unfold toSize at hlt
      omega

/-- Where no start is negative, the requests left lie behind the merged
one. -/
theorem topAndPop_rest (hq : ∀ r₀ ∈ q.requests, 0 ≤ r₀.fromNumber)
    (h : q.topAndPop = some (r, q')) :
    ∀ r₀ ∈ q'.requests, r.stop % 2 ^ 64 < r₀.fromNumber := by
  obtain ⟨hleft, -, htest⟩ := topAndPop_rule (I := fun _ _ => True) h
    (fun _ _ _ _ _ => trivial) trivial
  exact rest_behind htest fun r₀ hr₀ => hq r₀ (hleft.mem hr₀)

theorem topAndPop_nonneg (hq : ∀ r₀ ∈ q.requests, 0 ≤ r₀.fromNumber)
    (h : q.topAndPop = some (r, q')) : 0 ≤ r.fromNumber := by
  obtain ⟨⟨first, hfirst, hfrom⟩, -⟩ := topAndPop_fromNumber h
  exact hfrom ▸ hq first hfirst

/-- In particular they lie behind an end that has not wrapped. -/
theorem topAndPop_behind (hq : ∀ r₀ ∈ q.requests, 0 ≤ r₀.fromNumber)
    (h : q.topAndPop = some (r, q')) (hlt : r.stop < 2 ^ 64) :
    ∀ r₀ ∈ q'.requests, r.stop < r₀.fromNumber := by
  have hnonneg := topAndPop_nonneg hq h
  have hge := r.stop_ge
  intro r₀ hr₀
  have hrest := topAndPop_rest hq h r₀ hr₀
  rwa [Int.emod_eq_of_lt (by omega) hlt] at hrest

/-- Where no start is negative and no range overflows, every height of the
merged request is one of a request of the queue. -/
theorem topAndPop_covered {e : ℤ} (he : e < 2 ^ 63)
    (hq : ∀ r₀ ∈ q.requests, 0 ≤ r₀.fromNumber ∧ r₀.stop ≤ e)
    (h : q.topAndPop = some (r, q')) {k : ℤ} (hlow : r.fromNumber ≤ k)
    (hhigh : k < r.stop) :
    ∃ r₀ ∈ q.requests, r₀.fromNumber ≤ k ∧ k < r₀.stop := by
  obtain ⟨⟨first, hfirst, hfrom⟩, -⟩ := topAndPop_fromNumber h
  have hstart := hq first hfirst
  have hge := first.stop_ge
  obtain ⟨-, ⟨-, hcovered⟩, -⟩ := topAndPop_rule (I := fun e' c =>
      e' ≤ e ∧ ∀ k, r.fromNumber ≤ k → k < e' →
        ∃ r₀ ∈ q.requests, r₀.fromNumber ≤ k ∧ k < r₀.stop) h
    (fun e' c t habs hI => by
      obtain ⟨hnonneg, hstop⟩ := hq t habs.mem
      obtain ⟨-, hmax⟩ := habs.exact he hI.1 (.inl hstop)
      have hle := habs.le_end
      have hbegins : t.fromNumber ≤ e' := by
        rcases habs.of_nonneg hnonneg with hneg | ⟨-, hle⟩ | hle <;> omega
      rw [hmax]
      refine ⟨max_le hI.1 hstop, fun k hlow hhigh => ?_⟩
      rcases lt_or_ge k e' with hold | hnew
      · exact hI.2 k hlow hold
      · exact ⟨t, habs.mem, by omega, by omega⟩)
    ⟨by omega, fun k hlow hhigh => by omega⟩
  exact hcovered k hlow hhigh

end DownloadRequestQueue

end BcosSync
