import Mathlib.Data.Nat.Notation
import Mathlib.Logic.Basic

/-!
# Guarded transition systems and the rules for their runs

A transition system here is a step *function* with a guard: `step s i` is
`none` when input `i` is not enabled in state `s`.  The same definition is
replayed on a concrete list of inputs and reasoned about over all of them.

Besides the usual invariant rule the module contains two rules about runs
whose steps are watched by a condition: one transfers a property to every
state of a run whose steps all meet the condition, and one says when the
condition is exact, that is, when a run has the property throughout if and
only if each of its steps meets the condition.  A condition may also look
ahead, at the inputs that follow a step.
-/

universe u v

/-- A transition system over states `σ` and inputs `ι`. -/
structure TransitionSystem (σ : Type u) (ι : Type v) where
  IsInit : σ → Prop
  step : σ → ι → Option σ

namespace TransitionSystem

variable {σ : Type u} {ι : Type v} (S : TransitionSystem σ ι)

/-- Replay a list of inputs; `none` if one of them is not enabled on the way. -/
def exec : σ → List ι → Option σ
  | s, [] => some s
  | s, i :: is =>
      match S.step s i with
      | some t => exec t is
      | none => none

/-- States reached from an initial one by inputs that all satisfy `A`. -/
inductive ReachableBy (A : ι → Prop) : σ → Prop
  | init {s : σ} : S.IsInit s → ReachableBy A s
  | step {s t : σ} {i : ι} :
      ReachableBy A s → A i → S.step s i = some t → ReachableBy A t

/-- States reached from an initial one by any inputs. -/
abbrev Reachable : σ → Prop := S.ReachableBy fun _ => True

/-- Every transition the run makes satisfies `R`. -/
def AllTransitions (R : σ → ι → σ → Prop) : σ → List ι → Prop
  | _, [] => True
  | s, i :: is =>
      ∀ t, S.step s i = some t → R s i t ∧ AllTransitions R t is

/-- Every step of the run meets the condition `C` on its source and input. -/
abbrev AllSteps (C : σ → ι → Prop) : σ → List ι → Prop :=
  S.AllTransitions fun s i _ => C s i

/-- Every state of the run satisfies `Q`, the first and the last included. -/
def AllStates (Q : σ → Prop) (s : σ) (is : List ι) : Prop :=
  Q s ∧ S.AllTransitions (fun _ _ t => Q t) s is

/-- Every step of the run meets the condition `C` on its source, its input and
the inputs that follow. -/
def AllAhead (C : σ → ι → List ι → Prop) : σ → List ι → Prop
  | _, [] => True
  | s, i :: is => ∀ t, S.step s i = some t → C s i is ∧ AllAhead C t is

/-- Where `R` can be decided, a run can be checked against it. -/
def AllTransitions.decide {R : σ → ι → σ → Prop}
    [∀ s i t, Decidable (R s i t)] :
    ∀ (s : σ) (is : List ι), Decidable (S.AllTransitions R s is)
  | _, [] => isTrue trivial
  | s, i :: is =>
      match h : S.step s i with
      | some t =>
          have : Decidable (S.AllTransitions R t is) :=
            AllTransitions.decide t is
          decidable_of_iff (R s i t ∧ S.AllTransitions R t is)
            ⟨fun hR u hu => Option.some.inj (h.symm.trans hu) ▸ hR,
              fun hR => hR t h⟩
      | none => isTrue fun t ht => by cases h.symm.trans ht

instance {R : σ → ι → σ → Prop} [∀ s i t, Decidable (R s i t)] (s : σ)
    (is : List ι) : Decidable (S.AllTransitions R s is) :=
  AllTransitions.decide S s is

def AllAhead.decide {C : σ → ι → List ι → Prop}
    [∀ s i is, Decidable (C s i is)] :
    ∀ (s : σ) (is : List ι), Decidable (S.AllAhead C s is)
  | _, [] => isTrue trivial
  | s, i :: is =>
      match h : S.step s i with
      | some t =>
          have : Decidable (S.AllAhead C t is) := AllAhead.decide t is
          decidable_of_iff (C s i is ∧ S.AllAhead C t is)
            ⟨fun hC u hu => Option.some.inj (h.symm.trans hu) ▸ hC,
              fun hC => hC t h⟩
      | none => isTrue fun t ht => by cases h.symm.trans ht

instance {C : σ → ι → List ι → Prop} [∀ s i is, Decidable (C s i is)]
    (s : σ) (is : List ι) : Decidable (S.AllAhead C s is) :=
  AllAhead.decide S s is

variable {S}

theorem exec_cons {s t u : σ} {i : ι} {is : List ι} (ht : S.step s i = some t)
    (hrest : S.exec t is = some u) : S.exec s (i :: is) = some u := by
  rw [exec, ht]
  exact hrest

/-- A run over more than no inputs begins with a step. -/
theorem exists_of_exec_cons {s u : σ} {i : ι} {is : List ι}
    (h : S.exec s (i :: is) = some u) :
    ∃ t, S.step s i = some t ∧ S.exec t is = some u := by
  rw [exec] at h
  cases ht : S.step s i with
  | none =>
      rw [ht] at h
      cases h
  | some t =>
      rw [ht] at h
      exact ⟨t, rfl, h⟩

/-- One run after another. -/
theorem exec_append {s t u : σ} {is js : List ι} (h : S.exec s is = some t)
    (h' : S.exec t js = some u) : S.exec s (is ++ js) = some u := by
  induction is generalizing s with
  | nil =>
      obtain rfl := Option.some.inj h
      exact h'
  | cons i is ih =>
      obtain ⟨v, hv, hrest⟩ := exists_of_exec_cons h
      exact exec_cons hv (ih hrest)

/-- What every step keeps, a run keeps. -/
theorem exec_preserves {I : σ → Prop}
    (hstep : ∀ s i t, I s → S.step s i = some t → I t) {s t : σ}
    {is : List ι} (hI : I s) (hrun : S.exec s is = some t) : I t := by
  induction is generalizing s with
  | nil => exact Option.some.inj hrun ▸ hI
  | cons i is ih =>
      obtain ⟨u, hu, hrest⟩ := exists_of_exec_cons hrun
      exact ih (hstep s i u hI hu) hrest

/-- A run around one of its inputs. -/
theorem exec_of_mem {s t : σ} {is : List ι} (hrun : S.exec s is = some t)
    {i : ι} (hi : i ∈ is) :
    ∃ before after u v, S.exec s before = some u ∧ S.step u i = some v ∧
      S.exec v after = some t := by
  induction is generalizing s with
  | nil => cases hi
  | cons j js ih =>
      obtain ⟨w, hw, hrest⟩ := exists_of_exec_cons hrun
      rcases List.mem_cons.mp hi with rfl | hmem
      · exact ⟨[], js, s, w, rfl, hw, hrest⟩
      · obtain ⟨before, after, u, v, hbefore, hstep, hafter⟩ := ih hrest hmem
        exact ⟨j :: before, after, u, v, exec_cons hw hbefore,
          hstep, hafter⟩

/-- The invariant rule. -/
theorem ReachableBy.invariant {A : ι → Prop} {I : σ → Prop}
    (hinit : ∀ s, S.IsInit s → I s)
    (hstep : ∀ s i t, A i → I s → S.step s i = some t → I t)
    {s : σ} (h : S.ReachableBy A s) : I s := by
  induction h with
  | init hs => exact hinit _ hs
  | step _ hA hst ih => exact hstep _ _ _ hA ih hst

theorem ReachableBy.mono {A B : ι → Prop} (hAB : ∀ i, A i → B i)
    {s : σ} (h : S.ReachableBy A s) : S.ReachableBy B s := by
  induction h with
  | init hs => exact .init hs
  | step _ hA hst ih => exact .step ih (hAB _ hA) hst

/-- Replaying admissible inputs from a reachable state stays reachable. -/
theorem ReachableBy.exec {A : ι → Prop} {s t : σ} (h : S.ReachableBy A s)
    {is : List ι} (hA : ∀ i ∈ is, A i) (hrun : S.exec s is = some t) :
    S.ReachableBy A t := by
  induction is generalizing s with
  | nil =>
      rw [TransitionSystem.exec, Option.some.injEq] at hrun
      exact hrun ▸ h
  | cons i is ih =>
      obtain ⟨u, hu, hrest⟩ := exists_of_exec_cons hrun
      exact ih (.step h (hA i List.mem_cons_self) hu)
        (fun j hj => hA j (List.mem_cons_of_mem i hj)) hrest

/-- The invariant rule for a run from a reachable state. -/
theorem ReachableBy.exec_invariant {A : ι → Prop} {I : σ → Prop}
    (hstep : ∀ s i t, A i → S.ReachableBy A s → I s → S.step s i = some t →
      I t)
    {s t : σ} (h : S.ReachableBy A s) (hI : I s) {is : List ι}
    (hA : ∀ i ∈ is, A i) (hrun : S.exec s is = some t) : I t := by
  induction is generalizing s with
  | nil => exact Option.some.inj hrun ▸ hI
  | cons i is ih =>
      obtain ⟨u, hu, hrest⟩ := exists_of_exec_cons hrun
      have hi : A i := hA i List.mem_cons_self
      exact ih (.step h hi hu) (hstep s i u hi h hI hu)
        (fun j hj => hA j (List.mem_cons_of_mem i hj)) hrest

theorem Reachable.of_exec {s t : σ} (hs : S.IsInit s) {is : List ι}
    (hrun : S.exec s is = some t) : S.Reachable t :=
  (ReachableBy.init hs).exec (fun _ _ => trivial) hrun

/-- The transition rule: what every transition out of an invariant state
satisfies, every transition of a run satisfies. -/
theorem AllTransitions.of_invariant {A : ι → Prop} {I : σ → Prop}
    {C R : σ → ι → σ → Prop}
    (hstep : ∀ s i t, A i → I s → C s i t → S.step s i = some t → I t)
    (hR : ∀ s i t, A i → I s → C s i t → S.step s i = some t → R s i t)
    {s : σ} {is : List ι} (hA : ∀ i ∈ is, A i) (hInv : I s)
    (hC : S.AllTransitions C s is) : S.AllTransitions R s is := by
  induction is generalizing s with
  | nil => trivial
  | cons i is ih =>
      intro t ht
      obtain ⟨hCt, hCrest⟩ := hC t ht
      have hAi : A i := hA i List.mem_cons_self
      refine ⟨hR s i t hAi hInv hCt ht, ?_⟩
      exact ih (fun j hj => hA j (List.mem_cons_of_mem i hj))
        (hstep s i t hAi hInv hCt ht) hCrest

theorem AllTransitions.trivial {s : σ} {is : List ι} :
    S.AllTransitions (fun _ _ _ => True) s is := by
  induction is generalizing s with
  | nil => exact True.intro
  | cons i is ih => exact fun t _ => ⟨True.intro, ih⟩

theorem AllTransitions.mono {C R : σ → ι → σ → Prop}
    (h : ∀ s i t, C s i t → R s i t) {s : σ} {is : List ι}
    (hC : S.AllTransitions C s is) : S.AllTransitions R s is :=
  hC.of_invariant (A := fun _ => True) (I := fun _ => True)
    (fun _ _ _ _ _ _ _ => True.intro) (fun s i t _ _ hC _ => h s i t hC)
    (fun _ _ => True.intro) True.intro

/-- A condition that the inputs of the run meet in every state. -/
theorem AllTransitions.of_inputs {R : σ → ι → σ → Prop} {s : σ}
    {is : List ι} (h : ∀ i ∈ is, ∀ s t, R s i t) :
    S.AllTransitions R s is :=
  AllTransitions.of_invariant (A := fun i => ∀ s t, R s i t)
    (I := fun _ => True) (C := fun _ _ _ => True)
    (fun _ _ _ _ _ _ _ => True.intro) (fun s _ t hi _ _ _ => hi s t) h
    True.intro AllTransitions.trivial

theorem AllStates.mono {Q R : σ → Prop} (h : ∀ s, Q s → R s) {s : σ}
    {is : List ι} (hQ : S.AllStates Q s is) : S.AllStates R s is :=
  ⟨h s hQ.1, hQ.2.mono fun _ _ t => h t⟩

theorem AllStates.last {Q : σ → Prop} {s t : σ} {is : List ι}
    (hQ : S.AllStates Q s is) (hrun : S.exec s is = some t) : Q t := by
  induction is generalizing s with
  | nil => exact Option.some.inj hrun ▸ hQ.1
  | cons i is ih =>
      obtain ⟨u, hu, hrest⟩ := exists_of_exec_cons hrun
      exact ih (hQ.2 u hu) hrest

/-- If a step that misses `C` loses something and nothing brings it back, a
run that ends without the loss has met `C` throughout. -/
theorem allSteps_of_not_lost {I L : σ → Prop} {C : σ → ι → Prop}
    (hstep : ∀ s i t, I s → S.step s i = some t → I t)
    (hlose : ∀ s i t, I s → ¬ C s i → S.step s i = some t → L t)
    (hkeep : ∀ s i t, I s → L s → S.step s i = some t → L t)
    {s t : σ} {is : List ι} (hInv : I s) (hrun : S.exec s is = some t)
    (hlast : ¬ L t) : S.AllSteps C s is := by
  induction is generalizing s with
  | nil => exact True.intro
  | cons i is ih =>
      obtain ⟨u, hu, hrest⟩ := exists_of_exec_cons hrun
      have hIu := hstep s i u hInv hu
      have hnot : ¬ L u := by
        intro hLu
        refine hlast (exec_preserves (I := fun s => I s ∧ L s) ?_
          ⟨hIu, hLu⟩ hrest).2
        intro s i t hs ht
        exact ⟨hstep s i t hs.1 ht, hkeep s i t hs.1 hs.2 ht⟩
      intro v hv
      obtain rfl := Option.some.inj (hu.symm.trans hv)
      exact ⟨by_contra fun hC => hnot (hlose s i u hInv hC hu),
        ih hIu hrest⟩

/-- If on invariant states two transition properties agree, they agree on
whole runs. -/
theorem allTransitions_iff {A : ι → Prop} {I : σ → Prop}
    {C R : σ → ι → σ → Prop}
    (hstep : ∀ s i t, A i → I s → S.step s i = some t → I t)
    (hexact : ∀ s i t, A i → I s → S.step s i = some t →
      (R s i t ↔ C s i t))
    {s : σ} {is : List ι} (hA : ∀ i ∈ is, A i) (hInv : I s) :
    S.AllTransitions R s is ↔ S.AllTransitions C s is := by
  constructor
  · exact AllTransitions.of_invariant
      (fun s i t hi hs _ ht => hstep s i t hi hs ht)
      (fun s i t hi hs hr ht => (hexact s i t hi hs ht).mp hr) hA hInv
  · exact AllTransitions.of_invariant
      (fun s i t hi hs _ ht => hstep s i t hi hs ht)
      (fun s i t hi hs hc ht => (hexact s i t hi hs ht).mpr hc) hA hInv

/-- A property that steps meeting `C` preserve holds in every state of a run
whose steps all meet `C`. -/
theorem allStates_of_allSteps {A : ι → Prop} {I Q : σ → Prop}
    {C : σ → ι → Prop}
    (hstep : ∀ s i t, A i → I s → S.step s i = some t → I t)
    (hpres : ∀ s i t, A i → I s → Q s → C s i → S.step s i = some t → Q t)
    {s : σ} {is : List ι} (hA : ∀ i ∈ is, A i) (hInv : I s) (hQ : Q s)
    (hC : S.AllSteps C s is) : S.AllStates Q s is := by
  refine ⟨hQ, ?_⟩
  refine AllTransitions.of_invariant (I := fun s => I s ∧ Q s)
    (C := fun s i _ => C s i) ?_ ?_ hA ⟨hInv, hQ⟩ hC
  · intro s i t hi hs hc ht
    exact ⟨hstep s i t hi hs.1 ht, hpres s i t hi hs.1 hs.2 hc ht⟩
  · intro s i t hi hs hc ht
    exact hpres s i t hi hs.1 hs.2 hc ht

theorem AllTransitions.and {R R' : σ → ι → σ → Prop} {s : σ} {is : List ι}
    (h : S.AllTransitions R s is) (h' : S.AllTransitions R' s is) :
    S.AllTransitions (fun s i t => R s i t ∧ R' s i t) s is := by
  induction is generalizing s with
  | nil => exact True.intro
  | cons i is ih =>
      intro t ht
      obtain ⟨hR, hrest⟩ := h t ht
      obtain ⟨hR', hrest'⟩ := h' t ht
      exact ⟨⟨hR, hR'⟩, ih hrest hrest'⟩

/-- The exactness rule: when one step from a state with the property keeps it
if and only if the step meets `C`, a run has the property in all its states
if and only if all its steps meet `C`.  The steps may be known to meet another
condition `D`. -/
theorem allStates_iff_allSteps_of {A : ι → Prop} {I Q : σ → Prop}
    {C D : σ → ι → Prop}
    (hstep : ∀ s i t, A i → I s → S.step s i = some t → I t)
    (hexact : ∀ s i t, A i → I s → D s i → Q s → S.step s i = some t →
      (Q t ↔ C s i))
    {s : σ} {is : List ι} (hA : ∀ i ∈ is, A i) (hInv : I s)
    (hD : S.AllSteps D s is) (hQ : Q s) :
    S.AllStates Q s is ↔ S.AllSteps C s is := by
  constructor
  · rintro ⟨-, hall⟩
    refine AllTransitions.of_invariant (I := fun s => I s ∧ Q s)
      (C := fun s i t => Q t ∧ D s i) ?_ ?_ hA ⟨hInv, hQ⟩ (hall.and hD)
    · intro s i t hi hs hq ht
      exact ⟨hstep s i t hi hs.1 ht, hq.1⟩
    · intro s i t hi hs hq ht
      exact (hexact s i t hi hs.1 hq.2 hs.2 ht).mp hq.1
  · intro hC
    refine ⟨hQ, ?_⟩
    refine AllTransitions.of_invariant (I := fun s => I s ∧ Q s)
      (C := fun s i _ => C s i ∧ D s i) ?_ ?_ hA ⟨hInv, hQ⟩ (hC.and hD)
    · intro s i t hi hs hc ht
      exact ⟨hstep s i t hi hs.1 ht,
        (hexact s i t hi hs.1 hc.2 hs.2 ht).mpr hc.1⟩
    · intro s i t hi hs hc ht
      exact (hexact s i t hi hs.1 hc.2 hs.2 ht).mpr hc.1

/-- The exactness rule without a further condition. -/
theorem allStates_iff_allSteps {A : ι → Prop} {I Q : σ → Prop}
    {C : σ → ι → Prop}
    (hstep : ∀ s i t, A i → I s → S.step s i = some t → I t)
    (hexact : ∀ s i t, A i → I s → Q s → S.step s i = some t →
      (Q t ↔ C s i))
    {s : σ} {is : List ι} (hA : ∀ i ∈ is, A i) (hInv : I s) (hQ : Q s) :
    S.AllStates Q s is ↔ S.AllSteps C s is :=
  allStates_iff_allSteps_of (D := fun _ _ => True) hstep
    (fun s i t hi hs _ => hexact s i t hi hs) hA hInv .trivial hQ

/-! ## Conditions on what follows -/

/-- The rule for an invariant that knows the inputs still to come. -/
theorem AllAhead.allTransitions {I : σ → List ι → Prop}
    {C : σ → ι → List ι → Prop} {R : σ → ι → σ → Prop}
    (hstep : ∀ s i t is, I s (i :: is) → C s i is → S.step s i = some t →
      R s i t ∧ I t is)
    {s : σ} {is : List ι} (hInv : I s is) (hC : S.AllAhead C s is) :
    S.AllTransitions R s is := by
  induction is generalizing s with
  | nil => trivial
  | cons i is ih =>
      intro t ht
      obtain ⟨hCs, hCrest⟩ := hC t ht
      obtain ⟨hR, hInvt⟩ := hstep s i t is hInv hCs ht
      exact ⟨hR, ih hInvt hCrest⟩

/-- What a transition with `R` out of an invariant state shows of its input, a
run with `R` throughout shows of all its inputs. -/
theorem AllTransitions.forall_mem {A : ι → Prop} {I : σ → Prop}
    {R : σ → ι → σ → Prop} {Q : ι → Prop}
    (hstep : ∀ s i t, A i → I s → S.step s i = some t → I t)
    (hinput : ∀ s i t, I s → S.step s i = some t → R s i t → Q i)
    {s u : σ} {is : List ι} (hA : ∀ i ∈ is, A i) (hInv : I s)
    (hrun : S.exec s is = some u) (hR : S.AllTransitions R s is) :
    ∀ i ∈ is, Q i := by
  induction is generalizing s with
  | nil => exact fun i hi => absurd hi List.not_mem_nil
  | cons i is ih =>
      obtain ⟨t, ht, hrest⟩ := exists_of_exec_cons hrun
      obtain ⟨hRs, hRrest⟩ := hR t ht
      intro j hj
      rcases List.mem_cons.mp hj with rfl | hj
      · exact hinput s j t hInv ht hRs
      · exact ih (fun k hk => hA k (List.mem_cons_of_mem i hk))
          (hstep s i t (hA i List.mem_cons_self) hInv ht) hrest hRrest j hj

/-- If a step is bound to meet `C` for the rest of the run to have `R`, a run
with `R` throughout meets `C` throughout. -/
theorem AllTransitions.allAhead {A : ι → Prop} {I : σ → Prop}
    {C : σ → ι → List ι → Prop} {R : σ → ι → σ → Prop}
    (hstep : ∀ s i t, A i → I s → S.step s i = some t → I t)
    (hahead : ∀ s i t is u, I s → (∀ j ∈ i :: is, A j) →
      S.step s i = some t → S.exec t is = some u →
      S.AllTransitions R t is → C s i is)
    {s u : σ} {is : List ι} (hA : ∀ i ∈ is, A i) (hInv : I s)
    (hrun : S.exec s is = some u) (hR : S.AllTransitions R s is) :
    S.AllAhead C s is := by
  induction is generalizing s with
  | nil => trivial
  | cons i is ih =>
      intro t ht
      obtain ⟨v, hv, hrest⟩ := exists_of_exec_cons hrun
      obtain rfl := Option.some.inj (ht.symm.trans hv)
      obtain ⟨-, hRrest⟩ := hR t ht
      refine ⟨hahead s i t is u hInv hA ht hrest hRrest, ?_⟩
      exact ih (fun j hj => hA j (List.mem_cons_of_mem i hj))
        (hstep s i t (hA i List.mem_cons_self) hInv ht) hrest hRrest

/-! ## What a run can lead to -/

/-- Some run by inputs that satisfy `A` leads from `s` to a state with
`Q`. -/
def Leads (S : TransitionSystem σ ι) (A : ι → Prop) (s : σ)
    (Q : σ → Prop) : Prop :=
  ∃ is t, (∀ i ∈ is, A i) ∧ S.exec s is = some t ∧ Q t

namespace Leads

variable {A : ι → Prop} {Q R : σ → Prop} {s : σ}

theorem refl (h : Q s) : S.Leads A s Q :=
  ⟨[], s, fun _ hi => absurd hi List.not_mem_nil, rfl, h⟩

theorem step {i : ι} {t : σ} (hi : A i) (hstep : S.step s i = some t)
    (h : S.Leads A t Q) : S.Leads A s Q := by
  obtain ⟨is, u, his, hrun, hQ⟩ := h
  refine ⟨i :: is, u, fun j hj => ?_, exec_cons hstep hrun, hQ⟩
  rcases List.mem_cons.mp hj with rfl | hj
  · exact hi
  · exact his j hj

theorem single {i : ι} {t : σ} (hi : A i) (hstep : S.step s i = some t)
    (h : Q t) : S.Leads A s Q :=
  step hi hstep (refl h)

theorem mono (h : S.Leads A s Q) (hQ : ∀ t, Q t → R t) : S.Leads A s R := by
  obtain ⟨is, t, his, hrun, ht⟩ := h
  exact ⟨is, t, his, hrun, hQ t ht⟩

theorem trans (h : S.Leads A s Q) (hQ : ∀ t, Q t → S.Leads A t R) :
    S.Leads A s R := by
  obtain ⟨is, t, his, hrun, ht⟩ := h
  obtain ⟨js, u, hjs, hrest, hu⟩ := hQ t ht
  refine ⟨is ++ js, u, fun i hi => ?_, exec_append hrun hrest, hu⟩
  exact (List.mem_append.mp hi).elim (his i) (hjs i)

/-- A run from a reachable state leads to a reachable state. -/
theorem reachable {B : ι → Prop} (h : S.Leads A s Q) (hAB : ∀ i, A i → B i)
    (hs : S.ReachableBy B s) :
    S.Leads A s fun t => S.ReachableBy B t ∧ Q t := by
  obtain ⟨is, t, his, hrun, ht⟩ := h
  exact ⟨is, t, his, hrun, hs.exec (fun i hi => hAB i (his i hi)) hrun, ht⟩

/-- One system can do what another one does, through a map of its states and
inputs. -/
theorem map {τ : Type*} {κ : Type*} {T : TransitionSystem τ κ} {f : σ → τ}
    {g : ι → κ} {B : κ → Prop} (hA : ∀ i, A i → B (g i))
    (hstep : ∀ s i t, A i → S.step s i = some t →
      T.step (f s) (g i) = some (f t))
    (h : S.Leads A s Q) : T.Leads B (f s) fun u => ∃ t, Q t ∧ u = f t := by
  obtain ⟨is, t, his, hrun, ht⟩ := h
  induction is generalizing s with
  | nil =>
      obtain rfl := Option.some.inj hrun
      exact refl ⟨s, ht, rfl⟩
  | cons i is ih =>
      obtain ⟨u, hu, hrest⟩ := exists_of_exec_cons hrun
      have hi : A i := his i List.mem_cons_self
      exact step (hA i hi) (hstep s i u hi hu)
        (ih (fun j hj => his j (List.mem_cons_of_mem i hj)) hrest)

end Leads

end TransitionSystem
