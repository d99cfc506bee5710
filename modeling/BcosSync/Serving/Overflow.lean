import BcosSync.Serving.Merging

/-!
# Overflows without negative starts

A range that overflows can swallow the well-formed requests that are merged
with it or popped after it.  Where no start is negative, this happens exactly
if an overflow is not kept away from them: each merge runs through the heights
of well-formed requests, or has met an end that absorbs all that follows, or
one that absorbs nothing any more.
-/

namespace BcosSync

namespace DownloadRequestQueue

/-- A well-formed request asks for this height. -/
def Owed (q : DownloadRequestQueue) (h : ℤ) : Prop :=
  ∃ r ∈ q.requests, r.WellFormed ∧ r.Denotes h

/-- What keeps the overflow of `x` away from well-formed requests, where `V`
are the heights that merges run through.  If `x` is reached by such a merge,
the merge has begun early enough for the end of `x` to wrap behind it.  Else
`x` begins a merge of its own, and this merge is closed by an end that wraps in
front of it before a well-formed request is absorbed. -/
def Spares (V : ℤ → Prop) (q : DownloadRequestQueue) (x : DownloadRequest) :
    Prop :=
  (V (x.fromNumber - 1) →
    ∀ h, x.stop - 2 ^ 64 ≤ h → h < x.fromNumber → V h) ∧
  (¬ V (x.fromNumber - 1) → x.stop < 2 ^ 64 →
    ∀ w ∈ q.requests, w.WellFormed → x.fromNumber ≤ w.fromNumber →
      ∃ z ∈ q.requests, x.fromNumber < z.fromNumber ∧
        z.fromNumber ≤ w.fromNumber ∧
        2 ^ 64 ≤ z.stop ∧ z.stop < x.fromNumber + 2 ^ 64)

/-- Every overflow of a start that is not negative is kept away. -/
def Spared (V : ℤ → Prop) (q : DownloadRequestQueue) : Prop :=
  ∀ x ∈ q.requests, 0 ≤ x.fromNumber → 2 ^ 63 ≤ x.stop → Spares V q x

variable {q q' : DownloadRequestQueue} {r t x : DownloadRequest}
  {c : requestQueue.Carrier} {a b e h : ℤ} {V V' : ℤ → Prop}

theorem owed_iff : q.Owed h ↔ ∃ w ∈ q.requests, 0 ≤ w.fromNumber ∧
    w.stop < 2 ^ 63 ∧ w.fromNumber ≤ h ∧ h < w.stop := by
  unfold Owed
  simp only [DownloadRequest.wellFormed_denotes_iff]

/-- No height in front of all starts is owed. -/
theorem not_owed_of_lt (hlow : ∀ w ∈ q.requests, a ≤ w.fromNumber)
    (h : b < a) : ¬ q.Owed b := by
  rw [owed_iff]
  rintro ⟨w, hw, -, -, hle, -⟩
  have hlow := hlow w hw
  omega

/-- Heights that merges run through from some point on up to `e` begin behind
a gap. -/
theorem forall_range_mono {lo : ℤ} (hb : ¬ V b) (hbe : b < e)
    (hV : ∀ h, b ≤ h → V h → V' h) (hall : ∀ h, lo ≤ h → h < e → V h) :
    ∀ h, lo ≤ h → h < e → V' h := by
  have hbound : b < lo := by
    by_contra hle
    exact hb (hall b (not_lt.mp hle) hbe)
  intro h hlow hhigh
  exact hV h (by omega) (hall h hlow hhigh)

/-- What a request is spared from depends on the requests behind it and on the
heights in front of it, back to the first one merges do not run through. -/
theorem spares_iff (hb : ¬ V b) (hbx : b < x.fromNumber)
    (hV : ∀ h, b ≤ h → (V h ↔ V' h))
    (hsub : ∀ t ∈ q'.requests, t ∈ q.requests)
    (hrest : ∀ t ∈ q.requests, t ∈ q'.requests ∨
      t.fromNumber ≤ x.fromNumber ∧
        (t.WellFormed → t.fromNumber < x.fromNumber)) :
    Spares V q x ↔ Spares V' q' x := by
  have hb' : ¬ V' b := fun h => hb ((hV b le_rfl).mpr h)
  have hpred : V (x.fromNumber - 1) ↔ V' (x.fromNumber - 1) :=
    hV _ (by omega)
  refine and_congr ?_ ?_
  · rw [← hpred]
    exact imp_congr_right fun _ =>
      ⟨forall_range_mono hb hbx fun h hle => (hV h hle).mp,
        forall_range_mono hb' hbx fun h hle => (hV h hle).mpr⟩
  · rw [← hpred]
    refine imp_congr_right fun _ => imp_congr_right fun _ =>
      ⟨fun hall w hw hwell hle => ?_, fun hall w hw hwell hle => ?_⟩
    · obtain ⟨z, hz, hlt, hzw, hstop⟩ := hall w (hsub w hw) hwell hle
      rcases hrest z hz with hz | ⟨hzx, -⟩
      · exact ⟨z, hz, hlt, hzw, hstop⟩
      · omega
    · rcases hrest w hw with hw | ⟨-, hwx⟩
      · obtain ⟨z, hz, hlt, hzw, hstop⟩ := hall w hw hwell hle
        exact ⟨z, hsub z hz, hlt, hzw, hstop⟩
      · have hlt := hwx hwell
        omega

/-! ## A merge where no start is negative -/

/-- The merge from `a` on runs through owed heights up to the start of `x`. -/
def Reaches (q : DownloadRequestQueue) (a : ℤ) (x : DownloadRequest) : Prop :=
  x ∈ q.requests ∧ ∀ h, a ≤ h → h < x.fromNumber → q.Owed h

/-- An end beyond the heights that is not wrapped. -/
def Spills (x : DownloadRequest) : Prop := 2 ^ 63 ≤ x.stop ∧ x.stop < 2 ^ 64

/-- An end that is not wrapped, or wraps behind `a`. -/
def Harmless (a : ℤ) (t : DownloadRequest) : Prop :=
  t.stop < 2 ^ 64 ∨ a + 2 ^ 64 ≤ t.stop

/-- How the range from `a` to `e` has come about when `c` is left: through
owed heights only, or with an end that absorbs all that follows, or with one
that absorbs nothing any more. -/
inductive Merge (q : DownloadRequestQueue) (a : ℤ) :
    ℤ → requestQueue.Carrier → Prop
  | plain {e : ℤ} {c : requestQueue.Carrier} : e < 2 ^ 63 →
      (∀ h, a ≤ h → h < e → q.Owed h) →
      (∀ t ∈ q.requests, t ∈ requestQueue.elems c ∨
        t.fromNumber ≤ e ∧ (t.stop ≤ e ∨ a + 2 ^ 64 ≤ t.stop)) →
      Merge q a e c
  | spilled {e : ℤ} {c : requestQueue.Carrier} (x : DownloadRequest) :
      q.Reaches a x → Spills x → 2 ^ 63 ≤ e → e < 2 ^ 64 →
      (∀ t ∈ q.requests, t ∈ requestQueue.elems c ∨ Harmless a t) →
      Merge q a e c
  | closed {e : ℤ} {c : requestQueue.Carrier} (z : DownloadRequest) :
      q.Reaches a z ∨ (∃ x, q.Reaches a x ∧ Spills x) → z ∈ q.requests →
      2 ^ 64 ≤ z.stop → z.stop < a + 2 ^ 64 → 2 ^ 64 ≤ e →
      (∀ t ∈ requestQueue.elems c, z.fromNumber ≤ t.fromNumber) →
      (∀ t ∈ q.requests,
        t ∈ requestQueue.elems c ∨ DownloadRequest.Before t z) →
      (∀ t ∈ q.requests, t.fromNumber < z.fromNumber → Harmless a t) →
      Merge q a e c

theorem Merge.plain_of_lt (h : q.Merge a e c) (he : e < 2 ^ 63) :
    (∀ h, a ≤ h → h < e → q.Owed h) ∧
      ∀ t ∈ q.requests, t ∈ requestQueue.elems c ∨
        t.fromNumber ≤ e ∧ (t.stop ≤ e ∨ a + 2 ^ 64 ≤ t.stop) := by
  cases h with
  | plain _ howed hgone => exact ⟨howed, hgone⟩
  | spilled _ _ _ hge => omega
  | closed _ _ _ _ _ hge => omega

/-- The request that closes the merge. -/
theorem Absorbs.closes (h : q.Absorbs a e c t) (hend : 2 ^ 64 ≤ t.stop)
    (hlt : t.stop < a + 2 ^ 64)
    (hreach : q.Reaches a t ∨ ∃ x, q.Reaches a x ∧ Spills x)
    (hgone : ∀ t' ∈ q.requests,
      t' ∈ requestQueue.elems c ∨ Harmless a t') :
    q.Merge a (max e (t.endFrom a)) (requestQueue.pop c) := by
  rw [DownloadRequest.endFrom_of_lt h.start_le hlt]
  refine .closed t hreach h.mem hend hlt (by omega) (fun t' ht' => ?_)
    (fun t' ht' => ?_) (fun t' ht' hbefore => ?_)
  · exact h.fromNumber_le (requestQueue.mem_of_mem_pop ht')
  · exact h.gone h.left.front (fun t' hfront =>
      hfront t (requestQueue.mem_of_top h.top)) (.inr ⟨rfl, le_rfl⟩) t' ht'
  · rcases hgone t' ht' with hleft | hharmless
    · have hle := h.fromNumber_le hleft
      omega
    · exact hharmless

theorem Merge.absorb_plain (he : e < 2 ^ 63)
    (howed : ∀ h, a ≤ h → h < e → q.Owed h)
    (hgone : ∀ t ∈ q.requests, t ∈ requestQueue.elems c ∨
      t.fromNumber ≤ e ∧ (t.stop ≤ e ∨ a + 2 ^ 64 ≤ t.stop))
    (ha : 0 ≤ a) (h : q.Absorbs a e c t) :
    q.Merge a (max e (t.endFrom a)) (requestQueue.pop c) := by
  have hnonneg : 0 ≤ t.fromNumber := by
    have hle := h.start_le
    omega
  have hfrom : t.fromNumber ≤ e := by
    have hle := h.le_end
    rcases h.of_nonneg hnonneg with hlt | ⟨-, hle⟩ | hle <;> omega
  have hreach : q.Reaches a t :=
    ⟨h.mem, fun k hlow hhigh => howed k hlow (by omega)⟩
  have hharmless : ∀ t' : DownloadRequest,
      t'.fromNumber ≤ e ∧ (t'.stop ≤ e ∨ a + 2 ^ 64 ≤ t'.stop) →
        Harmless a t' := by
    rintro t' ⟨-, hle | hge⟩
    · exact .inl (by omega)
    · exact .inr hge
  rcases h.max_endFrom with ⟨hlt, hmax⟩ | ⟨hge, hwrap⟩
  · rcases lt_or_ge t.stop (2 ^ 63) with hfit | hover
    · rw [hmax]
      refine .plain (by omega) (fun k hlow hhigh => ?_)
        (h.gone hgone (fun t' ht' => by omega) (by omega))
      rcases lt_or_ge k e with hold | hnew
      · exact howed k hlow hold
      · exact owed_iff.mpr ⟨t, h.mem, hnonneg, hfit, by omega, by omega⟩
    · rcases lt_or_ge t.stop (2 ^ 64) with hspill | hclose
      · rw [hmax]
        exact .spilled t hreach ⟨hover, hspill⟩ (by omega) (by omega)
          (h.gone hgone hharmless (.inl hspill))
      · exact h.closes hclose hlt (.inl hreach) fun t' ht' =>
          (hgone t' ht').imp_right (hharmless t')
  · have hmax : max e (t.endFrom a) = e := by omega
    rw [hmax]
    exact .plain he howed
      (h.gone hgone (fun t' ht' => ht') ⟨hfrom, .inr hge⟩)

theorem Merge.absorb_spilled (hreach : q.Reaches a x) (hx : Spills x)
    (hlow : 2 ^ 63 ≤ e) (hhigh : e < 2 ^ 64)
    (hgone : ∀ t ∈ q.requests,
      t ∈ requestQueue.elems c ∨ Harmless a t)
    (h : q.Absorbs a e c t) :
    q.Merge a (max e (t.endFrom a)) (requestQueue.pop c) := by
  have hrange := t.fromNumber_range
  rcases h.max_endFrom with ⟨hlt, hmax⟩ | ⟨hge, hwrap⟩
  · rcases lt_or_ge t.stop (2 ^ 64) with hspill | hclose
    · rw [hmax]
      exact .spilled x hreach hx (by omega) (by omega)
        (h.gone hgone (fun t' ht' => ht') (.inl hspill))
    · exact h.closes hclose hlt (.inr ⟨x, hreach, hx⟩) hgone
  · have hmax : max e (t.endFrom a) = e := by omega
    rw [hmax]
    exact .spilled x hreach hx hlow hhigh
      (h.gone hgone (fun t' ht' => ht') (.inr hge))

/-- One absorption. -/
theorem Merge.absorb (hI : q.Merge a e c) (ha : 0 ≤ a)
    (h : q.Absorbs a e c t) :
    q.Merge a (max e (t.endFrom a)) (requestQueue.pop c) := by
  cases hI with
  | plain he howed hgone => exact absorb_plain he howed hgone ha h
  | spilled x hreach hx hlow hhigh hgone =>
      exact absorb_spilled hreach hx hlow hhigh hgone h
  | closed z _ _ _ _ hend =>
      have hle := h.start_le
      have hlt := h.end_lt
      rcases h.of_nonneg (by omega) with hneg | ⟨hhigh, -⟩ | hwrap <;> omega

/-- One round. -/
theorem merge_of_topAndPop (hq : ∀ t ∈ q.requests, 0 ≤ t.fromNumber)
    (hpop : q.topAndPop = some (r, q')) :
    q.Left q'.reqQueue ∧ q.Merge r.fromNumber r.stop q'.reqQueue := by
  have hnonneg := topAndPop_nonneg hq hpop
  have hrange := r.fromNumber_range
  have hstart : q.Merge r.fromNumber r.fromNumber q.reqQueue :=
    .plain hrange.2 (fun h hlow hhigh => by omega) (fun t ht => .inl ht)
  obtain ⟨hleft, hI, -⟩ := topAndPop_rule hpop
    (fun e c t h hI => hI.absorb hnonneg h) hstart
  exact ⟨hleft, hI⟩

/-! ## Queues without negative starts -/

/-- Every owed height is fetched. -/
def Served (q : DownloadRequestQueue) : Prop := ∀ h, q.Owed h → h ∈ q.fetched

/-- A round loses no well-formed request: it fetches what it absorbs, or
absorbs none of them. -/
def Keeps (q : DownloadRequestQueue) (r : DownloadRequest)
    (q' : DownloadRequestQueue) : Prop :=
  r.stop < 2 ^ 63 ∨ ∀ w ∈ q.requests, w.WellFormed → w ∈ q'.requests

theorem owed_of_mem_fetched (hq : ∀ t ∈ q.requests, 0 ≤ t.fromNumber) :
    ∀ h ∈ q.fetched, q.Owed h := by
  refine fetched_within (fun r hr _ => ?_) fun t ht hlt h hlow hhigh =>
    owed_iff.mpr ⟨t, ht, hq t ht, hlt, hlow, hhigh⟩
  have hnonneg := hq r hr.1
  have hneg := hr.2.1
  omega

/-- A well-formed request that a closed merge has absorbed starts before the
request that closed it. -/
theorem lt_of_before_closing {w z : DownloadRequest} (hw : w.stop < 2 ^ 63)
    (hz : 2 ^ 64 ≤ z.stop) (h : DownloadRequest.Before w z) :
    w.fromNumber < z.fromNumber := by
  unfold DownloadRequest.Before at h
  unfold DownloadRequest.stop at hw hz
  omega

section Nonnegative

variable (hq : ∀ t ∈ q.requests, 0 ≤ t.fromNumber)
  (hpop : q.topAndPop = some (r, q'))

include hq hpop

theorem served_of_keeps (hkeeps : q.Keeps r q') (hrest : q'.Served) :
    q.Served := by
  obtain ⟨-, hmerge⟩ := merge_of_topAndPop hq hpop
  intro h howed
  obtain ⟨w, hw, hnonneg, hstop, hlow, hhigh⟩ := owed_iff.mp howed
  have hwell : w.WellFormed :=
    (DownloadRequest.wellFormed_denotes_iff.mpr
      ⟨hnonneg, hstop, hlow, hhigh⟩).1
  have hfrom := (topAndPop_fromNumber hpop).2 w hw
  by_cases hleft : w ∈ q'.requests
  · exact mem_fetched_of_rest hpop
      (hrest h (owed_iff.mpr ⟨w, hleft, hnonneg, hstop, hlow, hhigh⟩))
  · rcases hkeeps with hlt | hall
    · rcases (hmerge.plain_of_lt hlt).2 w hw with hmem | ⟨-, hle | hge⟩
      · exact absurd hmem hleft
      · exact mem_fetched_of_stop hpop hlt (by omega) (by omega)
      · have hpos := topAndPop_nonneg hq hpop
        omega
    · exact absurd (hall w hw hwell) hleft

/-- What is owed by the requests that are left is not fetched before. -/
theorem mem_fetched_rest (h : ℤ) (howed : q'.Owed h) (hh : h ∈ q.fetched) :
    h ∈ q'.fetched := by
  rw [fetched_of_some hpop, List.mem_append] at hh
  rcases hh with hh | hh
  · rw [DownloadRequest.mem_numbers] at hh
    obtain ⟨w, hw, -, -, hlow, -⟩ := owed_iff.mp howed
    rcases lt_or_ge r.stop (2 ^ 63) with hlt | hge
    · have hlimit := r.numberLimit_eq hlt
      have hbehind := topAndPop_behind hq hpop (by omega) w hw
      omega
    · have hlimit := r.numberLimit_le hge
      omega
  · exact hh

theorem served_rest (hserved : q.Served) : q'.Served := by
  obtain ⟨hleft, -⟩ := merge_of_topAndPop hq hpop
  intro h howed
  obtain ⟨w, hw, hin⟩ := howed
  exact mem_fetched_rest hq hpop h ⟨w, hw, hin⟩
    (hserved h ⟨w, hleft.mem hw, hin⟩)

theorem keeps_of_served (hserved : q.Served) : q.Keeps r q' := by
  obtain ⟨hleft, hmerge⟩ := merge_of_topAndPop hq hpop
  rcases lt_or_ge r.stop (2 ^ 63) with hlt | hge
  · exact .inl hlt
  · right
    intro w hw hwell
    obtain ⟨hnonneg, hsize, hstop⟩ := DownloadRequest.wellFormed_iff.mp hwell
    have hpos : w.fromNumber < w.stop := by
      unfold DownloadRequest.stop
      omega
    -- the first height of `w` is fetched by a later round
    have hfirst := hserved w.fromNumber
      (owed_iff.mpr ⟨w, hw, hnonneg, hstop, le_rfl, hpos⟩)
    rw [fetched_of_some hpop, List.mem_append,
      DownloadRequest.mem_numbers] at hfirst
    have hlimit := r.numberLimit_le hge
    have hlater : w.fromNumber ∈ q'.fetched := by
      rcases hfirst with hin | hin
      · omega
      · exact hin
    obtain ⟨w', hw', -, -, hle, -⟩ := owed_iff.mp
      (owed_of_mem_fetched (fun t ht => hq t (hleft.mem ht)) _ hlater)
    cases hmerge with
    | plain hlt => omega
    | spilled x _ _ _ hlt =>
        have hbehind := topAndPop_behind hq hpop hlt w' hw'
        have hrange := w'.fromNumber_range
        omega
    | closed z _ _ hz _ _ hbehind hgone =>
        rcases hgone w hw with hmem | hbefore
        · exact hmem
        · have hlt := lt_of_before_closing hstop hz hbefore
          have hfrom := hbehind w' hw'
          omega

theorem served_iff_of_some : q.Served ↔ q.Keeps r q' ∧ q'.Served :=
  ⟨fun h => ⟨keeps_of_served hq hpop h, served_rest hq hpop h⟩,
    fun h => served_of_keeps hq hpop h.1 h.2⟩

end Nonnegative

/-! ### What keeps overflows away -/

/-- Heights at the end of a plain merge and behind it. -/
theorem owed_iff_of_plain (ha : 0 ≤ a) (hleft : q.Left q'.reqQueue)
    (hgone : ∀ t ∈ q.requests, t ∈ q'.requests ∨
      t.fromNumber ≤ e ∧ (t.stop ≤ e ∨ a + 2 ^ 64 ≤ t.stop)) (hh : e ≤ h) :
    q.Owed h ↔ q'.Owed h := by
  rw [owed_iff, owed_iff]
  constructor
  · rintro ⟨w, hw, hnonneg, hstop, hlow, hhigh⟩
    rcases hgone w hw with hmem | ⟨-, hle | hge⟩
    · exact ⟨w, hmem, hnonneg, hstop, hlow, hhigh⟩
    · omega
    · omega
  · rintro ⟨w, hw, hin⟩
    exact ⟨w, hleft.mem hw, hin⟩

section Nonnegative

variable (hq : ∀ t ∈ q.requests, 0 ≤ t.fromNumber)
  (hpop : q.topAndPop = some (r, q'))

include hq hpop

theorem spared_iff_of_plain (hlt : r.stop < 2 ^ 63) :
    q.Spared q.Owed ↔ q'.Spared q'.Owed := by
  obtain ⟨hleft, hmerge⟩ := merge_of_topAndPop hq hpop
  obtain ⟨howed, hgone⟩ := hmerge.plain_of_lt hlt
  have hpos := topAndPop_nonneg hq hpop
  have hbehind := topAndPop_behind hq hpop (by omega)
  have hV := fun h (hh : r.stop ≤ h) =>
    owed_iff_of_plain hpos hleft hgone hh
  have hgap : ¬ q.Owed r.stop := by
    rw [hV r.stop le_rfl]
    exact not_owed_of_lt (fun t ht => Int.add_one_le_of_lt (hbehind t ht))
      (by omega)
  have hsame : ∀ x ∈ q'.requests,
      (Spares q.Owed q x ↔ Spares q'.Owed q' x) := by
    intro x hx
    have hxlt := hbehind x hx
    refine spares_iff hgap hxlt hV (fun t ht => hleft.mem ht)
      fun t ht => ?_
    rcases hgone t ht with hmem | ⟨hle, -⟩
    · exact .inl hmem
    · exact .inr ⟨by omega, fun _ => by omega⟩
  constructor
  · intro h x hx hnonneg hover
    exact (hsame x hx).mp (h x (hleft.mem hx) hnonneg hover)
  · intro h x hx hnonneg hover
    by_cases hmem : x ∈ q'.requests
    · exact (hsame x hmem).mpr (h x hmem hnonneg hover)
    · -- `x` has been absorbed, and its end has wrapped behind the start
      rcases hgone x hx with hleft | ⟨hle, hstop | hstop⟩
      · exact absurd hleft hmem
      · omega
      · exact ⟨fun _ k hlow hhigh => howed k (by omega) (by omega),
          fun _ hspill => by omega⟩

/-- A merge that has run into an overflow keeps the well-formed requests if
overflows are kept away. -/
theorem keeps_of_spared (hspared : q.Spared q.Owed) : q.Keeps r q' := by
  obtain ⟨hleft, hmerge⟩ := merge_of_topAndPop hq hpop
  have hpos := topAndPop_nonneg hq hpop
  have hfirst := (topAndPop_fromNumber hpop).2
  have hbefore : ∀ k, k < r.fromNumber → ¬ q.Owed k :=
    fun k hk => not_owed_of_lt hfirst hk
  -- what is reached by a merge and overflows begins it, or wraps behind
  have hbegins : ∀ x, q.Reaches r.fromNumber x → 2 ^ 63 ≤ x.stop →
      x.stop < r.fromNumber + 2 ^ 64 → x.fromNumber = r.fromNumber := by
    intro x hreach hover hlt
    have hle := hfirst x hreach.1
    by_contra hne
    have hall := (hspared x hreach.1 (by omega) hover).1
      (hreach.2 _ (by omega) (by omega))
    exact hbefore (r.fromNumber - 1) (by omega)
      (hall _ (by omega) (by omega))
  -- and it needs a request that closes the merge, if it has not wrapped
  have hclosing : ∀ x, q.Reaches r.fromNumber x → Spills x →
      ∀ w ∈ q.requests, w.WellFormed → ∃ z ∈ q.requests,
        z.fromNumber ≤ w.fromNumber ∧ ¬ Harmless r.fromNumber z := by
    intro x hreach hspill w hw hwell
    have hsame := hbegins x hreach hspill.1 (by
      have hlt := hspill.2
      omega)
    have hle := hfirst w hw
    obtain ⟨z, hz, -, hzw, hlow, hhigh⟩ :=
      (hspared x hreach.1 (by omega) hspill.1).2
        (hbefore _ (by omega)) hspill.2 w hw hwell (by omega)
    refine ⟨z, hz, hzw, ?_⟩
    unfold Harmless
    omega
  cases hmerge with
  | plain hlt => exact .inl hlt
  | spilled x hreach hx hge hlt hgone =>
      right
      intro w hw hwell
      obtain ⟨z, hz, -, hharm⟩ := hclosing x hreach hx w hw hwell
      rcases hgone z hz with hmem | hharmless
      · have hbehind := topAndPop_behind hq hpop hlt z hmem
        have hrange := z.fromNumber_range
        omega
      · exact absurd hharmless hharm
  | closed z₀ hreach hz₀ hz₀low hz₀high _ _ hgone hharmless =>
      right
      intro w hw hwell
      rcases hgone w hw with hmem | hwz
      · exact hmem
      · have hstop := (DownloadRequest.wellFormed_iff.mp hwell).2.2
        have hlt := lt_of_before_closing hstop hz₀low hwz
        rcases hreach with hreach | ⟨x, hreach, hx⟩
        · have hsame := hbegins z₀ hreach (by omega) hz₀high
          have hle := hfirst w hw
          omega
        · obtain ⟨z, hz, hzw, hharm⟩ := hclosing x hreach hx w hw hwell
          exact absurd (hharmless z hz (by omega)) hharm

/-- An overflow that has been absorbed together with no well-formed request is
kept away from the others. -/
theorem spares_of_absorbed (hover : 2 ^ 63 ≤ r.stop)
    (hall : ∀ w ∈ q.requests, w.WellFormed → w ∈ q'.requests)
    (hx : x ∈ q.requests) (hgone : x ∉ q'.requests) :
    Spares q.Owed q x := by
  obtain ⟨-, hmerge⟩ := merge_of_topAndPop hq hpop
  cases hmerge with
  | plain hlt => omega
  | spilled _ _ _ _ hlt =>
      -- nothing is left, so nothing is owed
      have hnone : ∀ w ∈ q.requests, ¬ w.WellFormed := by
        intro w hw hwell
        have hbehind := topAndPop_behind hq hpop hlt w (hall w hw hwell)
        have hrange := w.fromNumber_range
        omega
      refine ⟨?_, fun _ _ w hw hwell => absurd hwell (hnone w hw)⟩
      rintro ⟨w, hw, hwell, -⟩
      exact absurd hwell (hnone w hw)
  | closed z _ hz hzlow hzhigh _ hbehind hfront =>
      have hxz : DownloadRequest.Before x z :=
        (hfront x hx).resolve_left hgone
      have hxle := (topAndPop_fromNumber hpop).2 x hx
      refine ⟨?_, fun _ hspill w hw hwell _ => ?_⟩
      · rintro ⟨w, hw, hwell, hden⟩
        have hle := hbehind w (hall w hw hwell)
        have hlow := hden.2.1
        unfold DownloadRequest.Before at hxz
        omega
      · refine ⟨z, hz, ?_, hbehind w (hall w hw hwell), hzlow, by omega⟩
        unfold DownloadRequest.Before at hxz
        unfold DownloadRequest.stop at hspill hzlow
        omega

theorem spared_iff_of_overflow (hover : 2 ^ 63 ≤ r.stop)
    (hkeeps : q.Keeps r q') : q.Spared q.Owed ↔ q'.Spared q'.Owed := by
  obtain ⟨hleft, -⟩ := merge_of_topAndPop hq hpop
  have hfirst := (topAndPop_fromNumber hpop).2
  have hall : ∀ w ∈ q.requests, w.WellFormed → w ∈ q'.requests :=
    hkeeps.resolve_left (not_lt.mpr hover)
  have hV : ∀ h, q.Owed h ↔ q'.Owed h := by
    intro h
    constructor
    · rintro ⟨w, hw, hwell, hden⟩
      exact ⟨w, hall w hw hwell, hwell, hden⟩
    · rintro ⟨w, hw, hin⟩
      exact ⟨w, hleft.mem hw, hin⟩
  have hsame : ∀ x ∈ q'.requests,
      (Spares q.Owed q x ↔ Spares q'.Owed q' x) := by
    intro x hx
    have hle := hfirst x (hleft.mem hx)
    refine spares_iff (not_owed_of_lt hfirst (b := r.fromNumber - 1)
      (by omega)) (by omega) (fun h _ => hV h) (fun t ht => hleft.mem ht)
      fun t ht => ?_
    by_cases hmem : t ∈ q'.requests
    · exact .inl hmem
    · right
      have hbefore := (hleft.front t ht).resolve_left hmem x hx
      unfold DownloadRequest.Before at hbefore
      exact ⟨by omega, fun hwell => absurd (hall t ht hwell) hmem⟩
  constructor
  · intro h x hx hnonneg hxover
    exact (hsame x hx).mp (h x (hleft.mem hx) hnonneg hxover)
  · intro h x hx hnonneg hxover
    by_cases hmem : x ∈ q'.requests
    · exact (hsame x hmem).mpr (h x hmem hnonneg hxover)
    · exact spares_of_absorbed hq hpop hover hall hx hmem

theorem spared_iff_of_some :
    q.Spared q.Owed ↔ q.Keeps r q' ∧ q'.Spared q'.Owed := by
  rcases lt_or_ge r.stop (2 ^ 63) with hlt | hge
  · rw [spared_iff_of_plain hq hpop hlt]
    exact (and_iff_right (.inl hlt)).symm
  · constructor
    · intro h
      have hkeeps := keeps_of_spared hq hpop h
      exact ⟨hkeeps, (spared_iff_of_overflow hq hpop hge hkeeps).mp h⟩
    · rintro ⟨hkeeps, h⟩
      exact (spared_iff_of_overflow hq hpop hge hkeeps).mpr h

end Nonnegative

/-- Without negative starts the well-formed requests are served exactly if
overflows are kept away from them. -/
theorem served_iff_spared (hq : ∀ t ∈ q.requests, 0 ≤ t.fromNumber) :
    q.Served ↔ q.Spared q.Owed := by
  induction q using drain_induction with
  | hdone q hpop =>
      have hempty := topAndPop_eq_none_iff.mp hpop
      constructor
      · intro _ x hx
        rw [hempty] at hx
        exact absurd hx (Multiset.notMem_zero x)
      · rintro _ h ⟨w, hw, -⟩
        rw [hempty] at hw
        exact absurd hw (Multiset.notMem_zero w)
  | hround q q' r hpop ih =>
      obtain ⟨hleft, -⟩ := merge_of_topAndPop hq hpop
      rw [served_iff_of_some hq hpop, spared_iff_of_some hq hpop,
        ih fun t ht => hq t (hleft.mem ht)]

end DownloadRequestQueue

end BcosSync
