import BcosSync.Support.TransitionSystem
import Mathlib.Logic.Function.Basic

/-!
# Parties that exchange messages

Each party takes inputs of its own and remembers what it has sent.  An input
may be the delivery of a message; it is enabled once the sender has sent this
message, and stays enabled.  So a message can arrive late, out of order, more
than once or never.

A party that relies on what others have told it relies on facts that stay true
while the others go on.  `ReachableBy.sound` is the rule for such facts: what
a party knows and what a message says are stable, and a move of one party
keeps its own knowledge and sends only what is so.
-/

universe u v w x

/-- Parties `κ` with states `σ` and inputs `ι` that exchange messages `μ`.
`delivers k i` is the sender and the message, if the input `i` of party `k`
is a delivery. -/
structure MessagePassing (κ : Type u) (σ : Type v) (ι : Type w)
    (μ : Type x) where
  IsInit : κ → σ → Prop
  step : κ → σ → ι → Option σ
  sent : σ → List μ
  delivers : κ → ι → Option (κ × μ)

namespace MessagePassing

variable {κ : Type u} {σ : Type v} {ι : Type w} {μ : Type x}
  (M : MessagePassing κ σ ι μ)

/-- One party, which may be delivered anything. -/
def party (k : κ) : TransitionSystem σ ι where
  IsInit := M.IsInit k
  step := M.step k

/-! ## Stable facts -/

section Stable

variable [DecidableEq κ] (R : σ → σ → Prop) (Knows : (κ → σ) → κ → Prop)
  (Says : (κ → σ) → κ → μ → Prop)

/-- Every party knows what it should, and every message says what is so. -/
structure Sound (N : κ → σ) : Prop where
  knows : ∀ k, Knows N k
  messages : ∀ k, ∀ m ∈ M.sent (N k), Says N k m

/-- The facts stay true while the parties go on as `R` has it. -/
structure Stable : Prop where
  refl : ∀ s, R s s
  knows : ∀ N N', (∀ k, R (N k) (N' k)) → ∀ k, N' k = N k →
    Knows N k → Knows N' k
  messages : ∀ N N', (∀ k, R (N k) (N' k)) → ∀ k m, Says N k m → Says N' k m

/-- Party `k` goes on to `t`: it still knows what it should, and what it has
sent on the way is so. -/
structure Keeps (N : κ → σ) (k : κ) (t : σ) : Prop where
  goesOn : R (N k) t
  knows : Knows (Function.update N k t) k
  messages : ∀ m ∈ M.sent t, m ∈ M.sent (N k) ∨
    Says (Function.update N k t) k m

variable {M R Knows Says} {N : κ → σ} {k : κ}

/-- Where one party goes on and the others stay, all go on. -/
theorem goesOn_update (hrefl : ∀ s, R s s) {t : σ} (ht : R (N k) t) (j : κ) :
    R (N j) (Function.update N k t j) := by
  by_cases hj : j = k
  · subst hj
    rwa [Function.update_self]
  · rw [Function.update_of_ne hj]
    exact hrefl (N j)

theorem Sound.update (hstable : Stable R Knows Says)
    (h : M.Sound Knows Says N) {t : σ} (ht : M.Keeps R Knows Says N k t) :
    M.Sound Knows Says (Function.update N k t) := by
  have hgoesOn := goesOn_update hstable.refl ht.goesOn
  constructor
  · intro j
    by_cases hj : j = k
    · exact hj ▸ ht.knows
    · exact hstable.knows N _ hgoesOn j (Function.update_of_ne hj _ _)
        (h.knows j)
  · intro j m hm
    by_cases hj : j = k
    · subst hj
      rw [Function.update_self] at hm
      rcases ht.messages m hm with hold | hnew
      · exact hstable.messages N _ hgoesOn j m (h.messages j m hold)
      · exact hnew
    · rw [Function.update_of_ne hj] at hm
      exact hstable.messages N _ hgoesOn j m (h.messages j m hm)

end Stable

/-! ## The network -/

variable [DecidableEq κ] [DecidableEq μ]

/-- All parties together.  An input names the party that takes it. -/
def network : TransitionSystem (κ → σ) (κ × ι) where
  IsInit N := ∀ k, M.IsInit k (N k)
  step N m :=
    if ∀ d ∈ M.delivers m.1 m.2, d.2 ∈ M.sent (N d.1) then
      (M.step m.1 (N m.1) m.2).map (Function.update N m.1)
    else none

variable {M} {N N' : κ → σ} {k : κ} {i : ι}

theorem network_step :
    M.network.step N (k, i) = some N' ↔
      (∀ d ∈ M.delivers k i, d.2 ∈ M.sent (N d.1)) ∧
        ∃ t, M.step k (N k) i = some t ∧ Function.update N k t = N' := by
  dsimp only [network]
  split
  · next h =>
      rw [Option.map_eq_some_iff]
      exact (and_iff_right h).symm
  · next h => exact iff_of_false nofun fun hstep => h hstep.1

/-- In a run of the network each party makes a run of its own. -/
theorem reachable_party {A : κ × ι → Prop} (h : M.network.ReachableBy A N)
    (k : κ) : (M.party k).ReachableBy (fun i => A (k, i)) (N k) := by
  refine h.invariant
    (I := fun N => (M.party k).ReachableBy (fun i => A (k, i)) (N k)) ?_ ?_
  · exact fun N hN => .init (hN k)
  · rintro N ⟨j, i⟩ N' hA hN hstep
    obtain ⟨-, t, ht, rfl⟩ := network_step.mp hstep
    by_cases hjk : k = j
    · subst hjk
      rw [Function.update_self]
      exact .step hN hA ht
    · rwa [Function.update_of_ne hjk]

section Rules

variable {R : σ → σ → Prop} {Knows : (κ → σ) → κ → Prop}
  {Says : (κ → σ) → κ → μ → Prop} {A : κ × ι → Prop}

/-- The rule for stable facts: a move starts where they hold, and what it is
delivered has been sent. -/
theorem ReachableBy.sound (hstable : Stable R Knows Says)
    (hinit : ∀ N, M.network.IsInit N → M.Sound Knows Says N)
    (hstep : ∀ N k i t, A (k, i) → M.network.ReachableBy A N →
      M.Sound Knows Says N →
        (∀ d ∈ M.delivers k i, d.2 ∈ M.sent (N d.1)) →
          M.step k (N k) i = some t → M.Keeps R Knows Says N k t)
    (h : M.network.ReachableBy A N) : M.Sound Knows Says N := by
  refine (h.invariant (I := fun N => M.network.ReachableBy A N ∧
    M.Sound Knows Says N) (fun N hN => ⟨.init hN, hinit N hN⟩) ?_).2
  rintro N ⟨k, i⟩ N' hA ⟨hreach, hN⟩ hmove
  refine ⟨.step hreach hA hmove, ?_⟩
  obtain ⟨hsent, t, ht, rfl⟩ := network_step.mp hmove
  exact hN.update hstable (hstep N k i t hA hreach hN hsent ht)

/-- The same along a run from a reachable network. -/
theorem ReachableBy.exec_sound (hstable : Stable R Knows Says)
    (hstep : ∀ N k i t, A (k, i) → M.network.ReachableBy A N →
      M.Sound Knows Says N →
        (∀ d ∈ M.delivers k i, d.2 ∈ M.sent (N d.1)) →
          M.step k (N k) i = some t → M.Keeps R Knows Says N k t)
    (h : M.network.ReachableBy A N) (hN : M.Sound Knows Says N)
    {is : List (κ × ι)} (hA : ∀ i ∈ is, A i)
    (hrun : M.network.exec N is = some N') : M.Sound Knows Says N' := by
  refine h.exec_invariant (I := fun N => M.Sound Knows Says N) ?_ hN hA hrun
  rintro N ⟨k, i⟩ N' hA hreach hN hmove
  obtain ⟨hsent, t, ht, rfl⟩ := network_step.mp hmove
  exact hN.update hstable (hstep N k i t hA hreach hN hsent ht)

end Rules

end MessagePassing
