import BcosSync.Serving.Overflow
import BcosSync.Serving.Termination

/-!
# Malformed requests in the queue

When draining a queue of any content fetches denoted heights only, and all
heights of the well-formed requests.  Overflows have to be kept away from the
well-formed requests, and a negative start must not bridge to heights nobody
asked for.
-/

namespace BcosSync

namespace DownloadRequestQueue

/-- Only denoted heights are fetched, and all heights of the well-formed
requests are. -/
def Faithful (q : DownloadRequestQueue) : Prop :=
  (∀ h ∈ q.fetched, ∃ r ∈ q.requests, r.Denotes h) ∧
    ∀ r ∈ q.requests, r.WellFormed → ∀ h, r.Denotes h → h ∈ q.fetched

/-- The height is owed, or in the range of the last negative start. -/
def Covered (q : DownloadRequestQueue) (h : ℤ) : Prop :=
  q.Owed h ∨ ∃ r, q.LastNegative r ∧ r.fromNumber ≤ h ∧ h < r.stop

/-- The queue is merged faithfully in spite of the malformed requests in
it. -/
structure Mergeable (q : DownloadRequestQueue) : Prop where
  /-- A negative size read as a `size_t` gives denoted heights, if any. -/
  honest : ∀ x ∈ q.requests, 2 ^ 63 ≤ x.size → x.stop < 2 ^ 63 →
    ∀ h, x.fromNumber ≤ h → h < x.stop → ∃ r ∈ q.requests, r.Denotes h
  crossesZero : q.CrossesZero
  spared : q.Spared q.Covered

variable {q q' : DownloadRequestQueue} {r t : DownloadRequest}
  {c : requestQueue.Carrier} {a e h : ℤ}

/-! ## Queues with starts of both signs -/

theorem LastNegative.same (hr : q.LastNegative r) (ht : q.LastNegative t) :
    r.fromNumber = t.fromNumber ∧ r.size = t.size := by
  have hrt := ht.2.2 r hr.1 hr.2.1
  have htr := hr.2.2 t ht.1 ht.2.1
  unfold DownloadRequest.Before at hrt htr
  omega

/-- The merge has absorbed the last negative start, runs through covered
heights from there on, and has absorbed what starts at its end at most. -/
structure Crossed (q : DownloadRequestQueue) (e : ℤ)
    (c : requestQueue.Carrier) (l : DownloadRequest) : Prop where
  last : q.LastNegative l
  stop_le : l.stop ≤ e
  nonneg : 0 ≤ e
  lt : e < 2 ^ 63
  covered : ∀ h, l.fromNumber ≤ h → h < e → q.Covered h
  rest : ∀ t ∈ requestQueue.elems c, 0 ≤ t.fromNumber
  gone : ∀ t ∈ q.requests, t ∈ requestQueue.elems c ∨
    t.fromNumber ≤ e ∧ (t.stop ≤ e ∨ t.fromNumber < 0 ∨ 2 ^ 63 ≤ t.stop)

/-- No height in front of the last negative start is covered. -/
theorem LastNegative.not_covered (hr : q.LastNegative r)
    (hlt : h < r.fromNumber) : ¬ q.Covered h := by
  rintro (howed | ⟨t, ht, hle, -⟩)
  · obtain ⟨w, -, hnonneg, -, hle, -⟩ := owed_iff.mp howed
    have hneg := hr.2.1
    omega
  · have hsame := hr.same ht
    omega

theorem Crossed.absorb {l : DownloadRequest} (hI : q.Crossed e c l)
    (hspared : q.Spared q.Covered) (hal : a ≤ l.fromNumber)
    (h : q.Absorbs a e c t) :
    q.Crossed (max e (t.endFrom a)) (requestQueue.pop c) l := by
  have hnonneg := hI.rest t (requestQueue.mem_of_top h.top)
  have hlower := h.lower
  have hneg := hI.last.2.1
  have hlt := hI.lt
  have hstop := hI.stop_le
  have hzero := hI.nonneg
  have hfrom : t.fromNumber ≤ e := by
    rcases h.of_nonneg hnonneg with hlt | ⟨-, hle⟩ | hle <;> omega
  have hrest : ∀ t' ∈ requestQueue.elems (requestQueue.pop c),
      0 ≤ t'.fromNumber :=
    fun t' ht' => hI.rest t' (requestQueue.mem_of_mem_pop ht')
  rcases lt_or_ge t.stop (2 ^ 63) with hfit | hover
  · rw [DownloadRequest.endFrom_of_lt h.start_le (by omega)]
    refine ⟨hI.last, by omega, by omega, by omega, fun k hlow hhigh => ?_,
      hrest, h.gone hI.gone (fun t' ht' => by omega) (by omega)⟩
    rcases lt_or_ge k e with hold | hnew
    · exact hI.covered k hlow hold
    · exact .inl (owed_iff.mpr
        ⟨t, h.mem, hnonneg, hfit, by omega, by omega⟩)
  · -- the heights in front of `t` are covered, so its end wraps behind `a`
    have hall := (hspared t h.mem hnonneg hover).1
      (hI.covered _ (by omega) (by omega))
    have hwrap : l.fromNumber ≤ t.stop - 2 ^ 64 := by
      by_contra hlt
      exact hI.last.not_covered (h := l.fromNumber - 1) (by omega)
        (hall _ (by omega) (by omega))
    have hlast := t.stop_lt
    have hmax : max e (t.endFrom a) = e := by
      rw [DownloadRequest.endFrom_of_ge hlower (by omega)]
      omega
    rw [hmax]
    exact ⟨hI.last, hstop, hzero, hlt, hI.covered, hrest,
      h.gone hI.gone (fun t' ht' => ht') ⟨hfrom, .inr (.inr hover)⟩⟩

/-- The absorption of the last negative start. -/
theorem Absorbs.crosses (h : q.Absorbs a e c t) (hneg : t.fromNumber < 0)
    (hnone : ∀ t' ∈ requestQueue.elems (requestQueue.pop c),
      0 ≤ t'.fromNumber)
    (hstop : 0 ≤ t.stop ∧ t.stop < 2 ^ 63) :
    q.Crossed (max e (t.endFrom a)) (requestQueue.pop c) t := by
  have hlower := h.lower
  have hlast := h.lastNegative hneg hnone
  obtain ⟨hend, -⟩ := h.of_negative hneg
  have hmax : max e (t.endFrom a) = t.stop := by
    rw [DownloadRequest.endFrom_of_lt h.start_le (by omega)]
    omega
  rw [hmax]
  refine ⟨hlast, le_rfl, hstop.1, hstop.2, fun k hlow hhigh =>
    .inr ⟨t, hlast, hlow, hhigh⟩, hnone, fun t' ht' => ?_⟩
  rcases h.left.front t' ht' with hleft | hfront
  · rcases h.eq_or_mem_pop hleft with rfl | hleft
    · exact .inr ⟨by omega, .inl le_rfl⟩
    · exact .inl hleft
  · have hbefore := hfront t (requestQueue.mem_of_top h.top)
    unfold DownloadRequest.Before at hbefore
    exact .inr ⟨by omega, .inr (.inl (by omega))⟩

/-- One round of a queue with starts of both signs: a negative start is left,
or the round crosses zero. -/
theorem crossed_of_topAndPop (hcross : q.CrossesZero)
    (hspared : q.Spared q.Covered)
    (hneg : ∃ t ∈ q.requests, t.fromNumber < 0)
    (hnonneg : ∃ t ∈ q.requests, 0 ≤ t.fromNumber)
    (hpop : q.topAndPop = some (r, q')) :
    q.Left q'.reqQueue ∧ ((∃ t ∈ q'.requests, t.fromNumber < 0) ∨
      (∃ l, q.Crossed r.stop q'.reqQueue l) ∧
        ∀ t ∈ q'.requests, r.stop < t.fromNumber) := by
  obtain ⟨hleft, hI, htest⟩ := topAndPop_rule (I := fun e c =>
      (∃ t ∈ requestQueue.elems c, t.fromNumber < 0) ∨
        ∃ l, q.Crossed e c l) hpop
    (fun e c t h hI => by
      rcases hI with ⟨t₀, ht₀, hneg₀⟩ | ⟨l, hI⟩
      · have hle := h.fromNumber_le ht₀
        by_cases hsome : ∃ t' ∈ requestQueue.elems (requestQueue.pop c),
            t'.fromNumber < 0
        · exact .inl hsome
        · push Not at hsome
          have hlast := h.lastNegative (by omega) hsome
          exact .inr ⟨t, h.crosses (by omega) hsome (hcross t hlast hnonneg)⟩
      · have hfirst := (topAndPop_fromNumber hpop).2 l hI.last.1
        exact .inr ⟨l, hI.absorb hspared hfirst h⟩) (.inl hneg)
  refine ⟨hleft, hI.imp_right fun hcrossed => ⟨hcrossed, fun t ht => ?_⟩⟩
  obtain ⟨l, hcrossed⟩ := hcrossed
  have hbehind := rest_behind htest hcrossed.rest t ht
  have hlt := hcrossed.lt
  rwa [Int.emod_eq_of_lt hcrossed.nonneg (by omega)] at hbehind

theorem covered_iff_owed (hq : ∀ t ∈ q.requests, 0 ≤ t.fromNumber) :
    q.Covered h ↔ q.Owed h := by
  constructor
  · rintro (howed | ⟨r, hr, -⟩)
    · exact howed
    · have hnonneg := hq r hr.1
      have hneg := hr.2.1
      omega
  · exact .inl

/-- A round that leaves a negative start absorbs negative starts only, and
covers no height of them. -/
theorem covered_iff_of_negative (hleft : q.Left q'.reqQueue)
    (hneg : ∃ t ∈ q'.requests, t.fromNumber < 0) :
    (∀ t ∈ q.requests, 0 ≤ t.fromNumber → t ∈ q'.requests) ∧
      ∀ h, q.Covered h ↔ q'.Covered h := by
  obtain ⟨t₀, ht₀, hneg₀⟩ := hneg
  have hrest : ∀ t ∈ q.requests, 0 ≤ t.fromNumber → t ∈ q'.requests := by
    intro t ht hnonneg
    rcases hleft.front t ht with hmem | hfront
    · exact hmem
    · have hbefore := hfront t₀ ht₀
      unfold DownloadRequest.Before at hbefore
      omega
  refine ⟨hrest, fun h => or_congr ?_ ?_⟩
  · rw [owed_iff, owed_iff]
    constructor
    · rintro ⟨w, hw, hnonneg, hin⟩
      exact ⟨w, hrest w hw hnonneg, hnonneg, hin⟩
    · rintro ⟨w, hw, hin⟩
      exact ⟨w, hleft.mem hw, hin⟩
  · constructor
    · rintro ⟨r, hr, hlow, hhigh⟩
      rcases hleft.front r hr.1 with hmem | hfront
      · exact ⟨r, ⟨hmem, hr.2.1, fun t ht hneg =>
          hr.2.2 t (hleft.mem ht) hneg⟩, hlow, hhigh⟩
      · -- a request like the last one is left
        have hlast : q'.LastNegative t₀ := by
          refine ⟨ht₀, hneg₀, fun t ht hneg => ?_⟩
          exact DownloadRequest.before_trans t r t₀
            (hr.2.2 t (hleft.mem ht) hneg) (hfront t₀ ht₀)
        have hsame := hr.same (hleft.lastNegative hlast)
        unfold DownloadRequest.stop at hhigh
        refine ⟨t₀, hlast, by omega, ?_⟩
        unfold DownloadRequest.stop
        omega
    · rintro ⟨r, hr, hin⟩
      exact ⟨r, hleft.lastNegative hr, hin⟩

theorem Spared.of_negative (hspared : q.Spared q.Covered)
    (hleft : q.Left q'.reqQueue)
    (hneg : ∃ t ∈ q'.requests, t.fromNumber < 0) :
    q'.Spared q'.Covered := by
  obtain ⟨hrest, hV⟩ := covered_iff_of_negative hleft hneg
  intro x hx hnonneg hover
  have hgap : ¬ q.Covered (-2 ^ 63 - 1) := by
    rintro (howed | ⟨r, -, hle, -⟩)
    · refine not_owed_of_lt (a := -2 ^ 63) (fun w _ => ?_) (by omega) howed
      exact w.fromNumber_range.1
    · have hrange := r.fromNumber_range
      omega
  refine (spares_iff hgap (by omega) (fun h _ => hV h)
    (fun t ht => hleft.mem ht) fun t ht => ?_).mp
      (hspared x (hleft.mem hx) hnonneg hover)
  rcases lt_or_ge t.fromNumber 0 with hneg | hpos
  · exact .inr ⟨by omega, fun _ => by omega⟩
  · exact .inl (hrest t ht hpos)

/-- Behind the round that crosses zero, no start is negative. -/
theorem Crossed.spared {l : DownloadRequest}
    (hI : q.Crossed e q'.reqQueue l) (hspared : q.Spared q.Covered)
    (hleft : q.Left q'.reqQueue)
    (hbehind : ∀ t ∈ q'.requests, e < t.fromNumber) :
    q'.Spared q'.Owed := by
  have hnonneg := hI.nonneg
  have hlt := hI.lt
  have hV : ∀ h, e ≤ h → (q.Covered h ↔ q'.Owed h) := by
    intro h hh
    constructor
    · rintro (howed | ⟨r, hr, -, hhigh⟩)
      · obtain ⟨w, hw, hpos, hstop, hlow, hhigh⟩ := owed_iff.mp howed
        rcases hI.gone w hw with hmem | hgone
        · exact owed_iff.mpr ⟨w, hmem, hpos, hstop, hlow, hhigh⟩
        · omega
      · have hsame := hr.same hI.last
        have hle := hI.stop_le
        unfold DownloadRequest.stop at hhigh hle
        omega
    · rintro ⟨w, hw, hin⟩
      exact .inl ⟨w, hleft.mem hw, hin⟩
  have hgap : ¬ q.Covered e := by
    rw [hV e le_rfl]
    exact not_owed_of_lt (fun t ht => Int.add_one_le_of_lt (hbehind t ht))
      (by omega)
  intro x hx hpos hover
  have hxlt := hbehind x hx
  refine (spares_iff hgap hxlt hV (fun t ht => hleft.mem ht)
    fun t ht => ?_).mp (hspared x (hleft.mem hx) hpos hover)
  rcases hI.gone t ht with hmem | ⟨hle, -⟩
  · exact .inl hmem
  · exact .inr ⟨by omega, fun _ => by omega⟩

/-- The round that crosses zero serves what it absorbs. -/
theorem Crossed.served {l : DownloadRequest}
    (hI : q.Crossed r.stop q'.reqQueue l)
    (hpop : q.topAndPop = some (r, q')) (hrest : q'.Served) :
    q.Served := by
  intro h howed
  obtain ⟨w, hw, hpos, hstop, hlow, hhigh⟩ := owed_iff.mp howed
  rcases hI.gone w hw with hmem | hgone
  · exact mem_fetched_of_rest hpop
      (hrest h (owed_iff.mpr ⟨w, hmem, hpos, hstop, hlow, hhigh⟩))
  · have hfirst := (topAndPop_fromNumber hpop).2 w hw
    exact mem_fetched_of_stop hpop hI.lt (by omega) (by omega)

/-- The well-formed requests are served if overflows are kept away. -/
theorem served_of_spared (hcross : q.CrossesZero)
    (hspared : q.Spared q.Covered) : q.Served := by
  induction q using drain_induction with
  | hdone q hpop =>
      rintro h ⟨w, hw, -⟩
      rw [topAndPop_eq_none_iff.mp hpop] at hw
      exact absurd hw (Multiset.notMem_zero w)
  | hround q q' r hpop ih =>
      by_cases hneg : ∃ t ∈ q.requests, t.fromNumber < 0
      · by_cases hnonneg : ∃ t ∈ q.requests, 0 ≤ t.fromNumber
        · obtain ⟨hleft, hround⟩ :=
            crossed_of_topAndPop hcross hspared hneg hnonneg hpop
          rcases hround with hneg' | ⟨⟨l, hcrossed⟩, hbehind⟩
          · have hserved := ih (hcross.mono hleft)
              (hspared.of_negative hleft hneg')
            rintro h ⟨w, hw, hwell, hden⟩
            have hmem :=
              (covered_iff_of_negative hleft hneg').1 w hw hwell.1
            exact mem_fetched_of_rest hpop (hserved h ⟨w, hmem, hwell, hden⟩)
          · exact hcrossed.served hpop ((served_iff_spared hcrossed.rest).mpr
              (hcrossed.spared hspared hleft hbehind))
        · push Not at hnonneg
          rintro h ⟨w, hw, hwell, -⟩
          have hlt := hnonneg w hw
          exact absurd hwell.1 (not_le.mpr hlt)
      · push Not at hneg
        refine (served_iff_spared hneg).mpr fun x hx hpos hover => ?_
        have hV : q.Covered = q.Owed :=
          funext fun h => propext (covered_iff_owed hneg)
        exact hV ▸ hspared x hx hpos hover

/-! ## Faithful queues -/

theorem faithful_iff_served (hhonest : ∀ h ∈ q.fetched,
      ∃ r ∈ q.requests, r.Denotes h) : q.Faithful ↔ q.Served := by
  constructor
  · rintro ⟨-, hserved⟩ h ⟨w, hw, hwell, hden⟩
    exact hserved w hw hwell h hden
  · intro hserved
    exact ⟨hhonest, fun w hw hwell h hden => hserved h ⟨w, hw, hwell, hden⟩⟩

theorem Mergeable.faithful (hq : q.Mergeable) : q.Faithful := by
  refine (faithful_iff_served ?_).mpr
    (served_of_spared hq.crossesZero hq.spared)
  refine fetched_within hq.crossesZero fun t ht hlt h hlow hhigh => ?_
  rcases lt_or_ge t.size (2 ^ 63) with hsize | hsize
  · exact ⟨t, ht, DownloadRequest.denotes_of_lt hsize hlow hhigh (by omega)⟩
  · exact hq.honest t ht hsize hlt h hlow hhigh

theorem mergeable_of_nonneg (hq : ∀ t ∈ q.requests, 0 ≤ t.fromNumber)
    (hfaithful : q.Faithful) : q.Mergeable where
  honest x hx hsize hlt h hlow hhigh := by
    have hnonneg := hq x hx
    unfold DownloadRequest.stop at hlt
    omega
  crossesZero r hr _ := by
    have hnonneg := hq r hr.1
    have hneg := hr.2.1
    omega
  spared := by
    have hV : q.Covered = q.Owed :=
      funext fun h => propext (covered_iff_owed hq)
    rw [hV, ← served_iff_spared hq]
    exact (faithful_iff_served hfaithful.1).mp hfaithful

theorem mergeable_of_negative (hq : ∀ t ∈ q.requests, t.fromNumber < 0)
    (hfaithful : q.Faithful) : q.Mergeable where
  honest x hx hsize hlt h hlow hhigh := by
    have hrange := x.fromNumber_range
    have hstop : 0 ≤ x.stop := by
      unfold DownloadRequest.stop
      omega
    exact hfaithful.1 h (mem_fetched_of_negative hq hx hstop hlt hlow hhigh)
  crossesZero := by
    rintro r - ⟨t, ht, hnonneg⟩
    exact absurd (hq t ht) (not_lt.mpr hnonneg)
  spared x hx hnonneg _ := absurd (hq x hx) (not_lt.mpr hnonneg)

/-- A queue with the conditions on its malformed requests is drained
faithfully, and where all starts have one sign no other queue is. -/
theorem faithful_iff_mergeable (q : DownloadRequestQueue) :
    (q.Mergeable → q.Faithful) ∧
      ((∀ r ∈ q.requests, 0 ≤ r.fromNumber) ∨
        (∀ r ∈ q.requests, r.fromNumber < 0) →
          (q.Faithful ↔ q.Mergeable)) := by
  refine ⟨Mergeable.faithful, fun hsign => ⟨fun hfaithful => ?_,
    Mergeable.faithful⟩⟩
  rcases hsign with hnonneg | hneg
  · exact mergeable_of_nonneg hnonneg hfaithful
  · exact mergeable_of_negative hneg hfaithful

theorem faithful_iff_mergeable_sample :
    (new.pushAll 1000 [(5, -10), (7, -3), (10, 5)]).Mergeable ∧
      (new.pushAll 1000 [(5, -10), (7, -3), (10, 5)]).Faithful := by
  have hmem : ∀ t, t ∈
      (new.pushAll 1000 [(5, -10), (7, -3), (10, 5)]).requests ↔
        t = DownloadRequest.make 5 (-10) ∨ t = DownloadRequest.make 7 (-3) ∨
          t = DownloadRequest.make 10 5 := by
    intro t
    rw [mem_requests_pushAll (by decide)]
    simp [eq_comm]
  have hnonneg : ∀ t ∈
      (new.pushAll 1000 [(5, -10), (7, -3), (10, 5)]).requests,
        0 ≤ t.fromNumber := by
    intro t ht
    rcases (hmem t).mp ht with rfl | rfl | rfl <;> decide
  have hwell : ∀ w ∈
      (new.pushAll 1000 [(5, -10), (7, -3), (10, 5)]).requests,
        w.WellFormed → w.fromNumber = 10 := by
    intro w hw hwell
    rcases (hmem w).mp hw with rfl | rfl | rfl
    · exact absurd hwell (by decide)
    · exact absurd hwell (by decide)
    · rfl
  have howed : ∀ h, (new.pushAll 1000
      [(5, -10), (7, -3), (10, 5)]).Covered h → 10 ≤ h := by
    intro h hcovered
    obtain ⟨w, hw, hw₀, hden⟩ := (covered_iff_owed hnonneg).mp hcovered
    exact (hwell w hw hw₀).symm.trans_le hden.2.1
  have hmerge : (new.pushAll 1000
      [(5, -10), (7, -3), (10, 5)]).Mergeable := by
    refine ⟨fun x hx hsize hlt => ?_, fun r hr _ => ?_,
      fun x hx _ hover => ⟨fun hcovered => ?_,
        fun _ hspill w hw hw₀ _ => ?_⟩⟩
    · rcases (hmem x).mp hx with rfl | rfl | rfl
      · exact absurd hlt (by decide)
      · exact absurd hlt (by decide)
      · exact absurd hsize (by decide)
    · exact absurd hr.2.1 (not_lt.mpr (hnonneg r hr.1))
    · have hten := howed _ hcovered
      rcases (hmem x).mp hx with rfl | rfl | rfl
      · exact absurd hten (by decide)
      · exact absurd hten (by decide)
      · exact absurd hover (by decide)
    · -- the overflow at 5 is closed by the request for 7
      have hten := hwell w hw hw₀
      rcases (hmem x).mp hx with rfl | rfl | rfl
      · refine ⟨DownloadRequest.make 7 (-3), (hmem _).mpr (.inr (.inl rfl)),
          by decide, ?_, by decide, by decide⟩
        rw [hten]
        decide
      · exact absurd hspill (by decide)
      · exact absurd hover (by decide)
  exact ⟨hmerge, (faithful_iff_mergeable _).1 hmerge⟩

/-- A request with the size `-10` swallows the five blocks the peer asks for
behind it. -/
theorem negativeSize_swallows :
    ∃ s p, Sample.system.exec Sample.node
        [BlockSync.requestFrom Sample.peer 5 (-10),
          BlockSync.requestFrom Sample.peer 10 5] = some s ∧
      s.syncStatus.lookup Sample.peer.data = some p ∧
      p.downloadRequests.fetched = [] ∧ ¬ p.downloadRequests.Faithful := by
  obtain ⟨s, p, hrun, hp, hqueue⟩ : ∃ s p, Sample.system.exec Sample.node
        [BlockSync.requestFrom Sample.peer 5 (-10),
          BlockSync.requestFrom Sample.peer 10 5] = some s ∧
      s.syncStatus.lookup Sample.peer.data = some p ∧
      p.downloadRequests = new.pushAll 1000 [(5, -10), (10, 5)] :=
    ⟨_, _, rfl, rfl, rfl⟩
  have hfetched : p.downloadRequests.fetched = [] := by
    rw [hqueue]
    decide
  have hmem : DownloadRequest.make 10 5 ∈ p.downloadRequests.requests := by
    rw [hqueue]
    exact (mem_requests_pushAll (by decide)).mpr ⟨(10, 5), by decide, rfl⟩
  refine ⟨s, p, hrun, hp, hfetched, ?_⟩
  rintro ⟨-, hserved⟩
  have hin := hserved _ hmem (by decide) 10 (by decide)
  rw [hfetched] at hin
  cases hin

end DownloadRequestQueue

end BcosSync
