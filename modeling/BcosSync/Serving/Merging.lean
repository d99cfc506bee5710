import BcosSync.Serving.Drain

/-!
# Merging requests that may overflow

What is fetched from a queue of any content: a bound from above where no merge
bridges from a negative end to a start that is not negative, and a bound from
below where all starts are negative.
-/

namespace BcosSync

open MachineInt

namespace DownloadRequest

/-- The size in the packet, before it became a `size_t`. -/
def signedSize (r : DownloadRequest) : ℤ := toInt64 r.size

/-- The request asks for this height.  A size that is not positive asks for
none. -/
def Denotes (r : DownloadRequest) (h : ℤ) : Prop :=
  0 < r.signedSize ∧ r.fromNumber ≤ h ∧ h < r.fromNumber + r.signedSize ∧
    h < 2 ^ 63

def WellFormed (r : DownloadRequest) : Prop :=
  0 ≤ r.fromNumber ∧ 0 < r.signedSize ∧
    r.fromNumber + r.signedSize ≤ 2 ^ 63 - 1

instance (r : DownloadRequest) (h : ℤ) : Decidable (r.Denotes h) :=
  inferInstanceAs (Decidable (_ ∧ _))

instance (r : DownloadRequest) : Decidable r.WellFormed :=
  inferInstanceAs (Decidable (_ ∧ _))

variable {r : DownloadRequest} {a h : ℤ}

/-- A range that overflows has an end in front of its start. -/
theorem numberLimit_le (h : 2 ^ 63 ≤ r.stop) :
    r.numberLimit ≤ r.fromNumber := by
  have hlt := r.stop_lt
  have hrange := r.fromNumber_range
  unfold numberLimit toInt64
  omega

theorem signedSize_of_lt (h : r.size < 2 ^ 63) : r.signedSize = r.size :=
  toInt64_of_range (by omega) (by omega)

theorem signedSize_of_ge (h : 2 ^ 63 ≤ r.size) : r.signedSize < 0 := by
  have hsize := r.size_lt
  unfold signedSize toInt64
  omega

theorem wellFormed_iff :
    r.WellFormed ↔ 0 ≤ r.fromNumber ∧ 0 < r.size ∧ r.stop < 2 ^ 63 := by
  unfold WellFormed stop
  rcases lt_or_ge r.size (2 ^ 63) with hlt | hge
  · rw [signedSize_of_lt hlt]
    omega
  · have hneg := signedSize_of_ge hge
    omega

/-- Below `2 ^ 63` a request of a positive size denotes its whole range. -/
theorem denotes_of_lt (hsize : r.size < 2 ^ 63) (hlow : r.fromNumber ≤ h)
    (hhigh : h < r.stop) (hh : h < 2 ^ 63) : r.Denotes h := by
  unfold stop at hhigh
  rw [Denotes, signedSize_of_lt hsize]
  omega

theorem Denotes.stop_gt (hden : r.Denotes h) : h < r.stop := by
  obtain ⟨-, -, hlt, -⟩ := hden
  have hpos : r.signedSize ≤ r.size := by
    rcases lt_or_ge r.size (2 ^ 63) with hsize | hsize
    · rw [signedSize_of_lt hsize]
    · have hneg := signedSize_of_ge hsize
      omega
  unfold stop
  omega

/-- The heights of a well-formed request. -/
theorem wellFormed_denotes_iff :
    r.WellFormed ∧ r.Denotes h ↔
      0 ≤ r.fromNumber ∧ r.stop < 2 ^ 63 ∧ r.fromNumber ≤ h ∧ h < r.stop := by
  rw [wellFormed_iff]
  constructor
  · rintro ⟨⟨hnonneg, -, hstop⟩, hden⟩
    exact ⟨hnonneg, hstop, hden.2.1, hden.stop_gt⟩
  · rintro ⟨hnonneg, hstop, hlow, hhigh⟩
    have hsize : r.stop = r.fromNumber + r.size := rfl
    exact ⟨⟨hnonneg, by omega, hstop⟩,
      denotes_of_lt (by omega) hlow hhigh (by omega)⟩

end DownloadRequest

namespace DownloadRequestQueue

variable {q q' : DownloadRequestQueue} {r t t' : DownloadRequest}
  {c : requestQueue.Carrier} {a e h : ℤ}

/-! ## What is fetched at most -/

/-- The request with a negative start that is popped last. -/
def LastNegative (q : DownloadRequestQueue) (r : DownloadRequest) : Prop :=
  r ∈ q.requests ∧ r.fromNumber < 0 ∧
    ∀ t ∈ q.requests, t.fromNumber < 0 → DownloadRequest.Before t r

/-- If there are starts of both signs, the last negative one has its end
among the heights. -/
def CrossesZero (q : DownloadRequestQueue) : Prop :=
  ∀ r, q.LastNegative r → (∃ t ∈ q.requests, 0 ≤ t.fromNumber) →
    0 ≤ r.stop ∧ r.stop < 2 ^ 63

theorem Left.lastNegative (hc : q.Left q'.reqQueue) (h : q'.LastNegative r) :
    q.LastNegative r := by
  obtain ⟨hmem, hneg, hlast⟩ := h
  refine ⟨hc.mem hmem, hneg, fun t ht htneg => ?_⟩
  rcases hc.front t ht with hleft | hfront
  · exact hlast t hleft htneg
  · exact hfront r hmem

theorem CrossesZero.mono (h : q.CrossesZero) (hc : q.Left q'.reqQueue) :
    q'.CrossesZero := by
  rintro r hr ⟨t, ht, hnonneg⟩
  exact h r (hc.lastNegative hr) ⟨t, hc.mem ht, hnonneg⟩

/-- The last negative start is the one after which none is left. -/
theorem Absorbs.lastNegative (h : q.Absorbs a e c t) (ht : t.fromNumber < 0)
    (hnone : ∀ t' ∈ requestQueue.elems (requestQueue.pop c),
      0 ≤ t'.fromNumber) : q.LastNegative t := by
  refine ⟨h.mem, ht, fun t' ht' hneg => ?_⟩
  rcases h.left.front t' ht' with hleft | hfront
  · rcases h.eq_or_mem_pop hleft with rfl | hleft
    · exact .inr ⟨rfl, le_rfl⟩
    · exact absurd (hnone t' hleft) (not_le.mpr hneg)
  · exact hfront t (requestQueue.mem_of_top h.top)

/-- The range from `a` to `e` has heights of `S` only, and a negative end is
not the end of the negative starts. -/
private structure Within (S : ℤ → Prop) (a e : ℤ)
    (c : requestQueue.Carrier) : Prop where
  range : e < 2 ^ 63 → ∀ h, a ≤ h → h < e → S h
  negative : e < 0 → (∃ t ∈ requestQueue.elems c, 0 ≤ t.fromNumber) →
    ∃ t ∈ requestQueue.elems c, t.fromNumber < 0

section Within

variable {S : ℤ → Prop}

/-- A range is extended by what the absorbed request adds, if it does not
start behind the end. -/
private theorem Within.extend (hI : Within S a e c)
    (h : q.Absorbs a e c t) (hfrom : t.fromNumber ≤ e)
    (hrange : t.stop < 2 ^ 63 →
      ∀ h, t.fromNumber ≤ h → h < t.stop → S h)
    (hend : max e (t.endFrom a) < 2 ^ 63) {k : ℤ} (hlow : a ≤ k)
    (hhigh : k < max e (t.endFrom a)) : S k := by
  rcases lt_or_ge k e with hold | hnew
  · exact hI.range (by omega) k hlow hold
  · rcases h.max_endFrom with ⟨-, hmax⟩ | ⟨-, hlt⟩
    · exact hrange (by omega) k (by omega) (by omega)
    · omega

private theorem Within.absorb (hI : Within S a e c)
    (hcross : q.CrossesZero)
    (hrange : ∀ t ∈ q.requests, t.stop < 2 ^ 63 →
      ∀ h, t.fromNumber ≤ h → h < t.stop → S h)
    (h : q.Absorbs a e c t) :
    Within S a (max e (t.endFrom a)) (requestQueue.pop c) := by
  have hlower := h.lower
  rcases lt_or_ge t.fromNumber 0 with hneg | hnonneg
  · obtain ⟨-, hfrom⟩ := h.of_negative hneg
    refine ⟨fun hend k hlow hhigh =>
      hI.extend h hfrom (hrange t h.mem) hend hlow hhigh, ?_⟩
    rintro hend ⟨t₀, ht₀, hnonneg⟩
    by_contra hnone
    push Not at hnone
    -- `t` is the last one, and its end is not negative
    obtain ⟨hstop, hfit⟩ := hcross t (h.lastNegative hneg hnone)
      ⟨t₀, h.left.mem (requestQueue.mem_of_mem_pop ht₀), hnonneg⟩
    rw [DownloadRequest.endFrom_of_lt h.start_le (by omega)] at hend
    omega
  · have hpos : 0 ≤ e := by
      by_contra hlt
      obtain ⟨t', ht', hneg⟩ := hI.negative (by omega)
        ⟨t, requestQueue.mem_of_top h.top, hnonneg⟩
      have hle := h.fromNumber_le ht'
      omega
    refine ⟨fun hend k hlow hhigh => ?_, fun hend => by omega⟩
    have hfrom : t.fromNumber ≤ e := by
      rcases h.of_nonneg hnonneg with hlt | ⟨-, hle⟩ | hle <;> omega
    exact hI.extend h hfrom (hrange t h.mem) hend hlow hhigh

/-- Only heights of requests are fetched, if no merge takes a negative end for
a height behind the others. -/
theorem fetched_within (hcross : q.CrossesZero)
    (hrange : ∀ t ∈ q.requests, t.stop < 2 ^ 63 →
      ∀ h, t.fromNumber ≤ h → h < t.stop → S h) :
    ∀ h ∈ q.fetched, S h := by
  induction q using drain_induction with
  | hdone q hpop =>
      intro h hh
      rw [fetched, drain_of_none hpop] at hh
      cases hh
  | hround q q' r hpop ih =>
      obtain ⟨top, htop, hfrom⟩ := (topAndPop_fromNumber hpop).1
      have hstart : Within S r.fromNumber r.fromNumber q.reqQueue :=
        ⟨fun _ h hlow hhigh => by omega,
          fun hneg _ => ⟨top, htop, by omega⟩⟩
      obtain ⟨hleft, hI, -⟩ := topAndPop_rule hpop
        (fun e c t h hI => Within.absorb hI hcross hrange h) hstart
      intro h hh
      rw [fetched_of_some hpop, List.mem_append] at hh
      rcases hh with hh | hh
      · rw [DownloadRequest.mem_numbers] at hh
        have hend : r.stop < 2 ^ 63 ∧ r.numberLimit = r.stop ∨
            r.numberLimit ≤ r.fromNumber := by
          rcases lt_or_ge r.stop (2 ^ 63) with hlt | hge
          · exact .inl ⟨hlt, r.numberLimit_eq hlt⟩
          · right
            exact r.numberLimit_le hge
        rcases hend with ⟨hlt, heq⟩ | hle
        · exact hI.range hlt h hh.1 (heq ▸ hh.2)
        · omega
      · exact ih (hcross.mono hleft)
          (fun t ht => hrange t (hleft.mem ht)) h hh

end Within

/-! ## What is fetched at least -/

/-- The heights of one round. -/
theorem mem_fetched_of_stop (hpop : q.topAndPop = some (r, q'))
    (hlt : r.stop < 2 ^ 63) (hlow : r.fromNumber ≤ h) (hhigh : h < r.stop) :
    h ∈ q.fetched := by
  rw [fetched_of_some hpop, List.mem_append]
  left
  rw [DownloadRequest.mem_numbers, DownloadRequest.numberLimit_eq hlt]
  exact ⟨hlow, hhigh⟩

theorem mem_fetched_of_rest (hpop : q.topAndPop = some (r, q'))
    (hh : h ∈ q'.fetched) : h ∈ q.fetched := by
  rw [fetched_of_some hpop, List.mem_append]
  exact .inr hh

/-- If all starts are negative, a range with its end among the heights is
fetched as a whole: a merge that absorbs it ends with it. -/
theorem mem_fetched_of_negative (hneg : ∀ t ∈ q.requests, t.fromNumber < 0)
    (hr : t ∈ q.requests) (hstop : 0 ≤ t.stop) (hlt : t.stop < 2 ^ 63)
    (hlow : t.fromNumber ≤ h) (hhigh : h < t.stop) : h ∈ q.fetched := by
  induction q using drain_induction with
  | hdone q hpop =>
      rw [topAndPop_eq_none_iff.mp hpop] at hr
      exact absurd hr (Multiset.notMem_zero t)
  | hround q q' r hpop ih =>
      obtain ⟨hleft, hI, -⟩ := topAndPop_rule (I := fun e c =>
          t ∈ requestQueue.elems c ∨ e = t.stop) hpop
        (fun e c t' habs hI => by
          obtain ⟨hend, -⟩ := habs.of_negative (hneg t' habs.mem)
          rcases hI with hmem | rfl
          · rcases habs.eq_or_mem_pop hmem with rfl | hmem
            · right
              have hlower := habs.lower
              rw [DownloadRequest.endFrom_of_lt habs.start_le (by omega)]
              omega
            · exact .inl hmem
          · omega) (.inl hr)
      rcases hI with hmem | hsame
      · exact mem_fetched_of_rest hpop
          (ih (fun t' ht' => hneg t' (hleft.mem ht')) hmem)
      · have hfrom := (topAndPop_fromNumber hpop).2 t hr
        exact mem_fetched_of_stop hpop (by omega) (by omega) (by omega)

end DownloadRequestQueue

end BcosSync
