import Mathlib.Data.Nat.Notation
import Mathlib.Data.List.Nodup

/-!
# Dealing in rounds

A number of items is dealt to the members of a list, in rounds in which each
member gets at most one item.  Every round may serve the members in an order
of its own.  The rounds end when the items do, or when there have been enough
of them.  Then no member has more items than there were rounds, and the loads
of two members differ by one at most.
-/

universe u v

namespace RoundRobin

variable {α : Type u} {β : Type v}

/-- The members who get the items, in the order in which they get them: `n`
items in at most `rounds` rounds, the round with `r` more to come in the order
`order r`. -/
def deal (order : ℕ → List α) : ℕ → ℕ → List α
  | 0, _ => []
  | r + 1, n => (order r).take n ++ deal order r (n - (order r).length)

variable {order : ℕ → List α}

theorem deal_zero (rounds : ℕ) : deal order rounds 0 = [] := by
  induction rounds with
  | zero => rfl
  | succ r ih =>
      rw [deal, List.take_zero, Nat.zero_sub, ih]
      rfl

theorem deal_nil (h : ∀ r, order r = []) (rounds n : ℕ) :
    deal order rounds n = [] := by
  induction rounds generalizing n with
  | zero => rfl
  | succ r ih =>
      rw [deal, h, ih, List.take_nil]
      rfl

theorem map_deal (f : α → β) (rounds n : ℕ) :
    (deal order rounds n).map f =
      deal (fun r => (order r).map f) rounds n := by
  induction rounds generalizing n with
  | zero => rfl
  | succ r ih =>
      rw [deal, deal, List.map_append, List.map_take, ih, List.length_map]

theorem mem_of_mem_deal {a : α} {rounds n : ℕ}
    (h : a ∈ deal order rounds n) : ∃ r, a ∈ order r := by
  induction rounds generalizing n with
  | zero => cases h
  | succ r ih =>
      rcases List.mem_append.mp h with h | h
      · exact ⟨r, List.mem_of_mem_take h⟩
      · exact ih h

theorem length_deal {q : ℕ} (h : ∀ r, (order r).length = q)
    (rounds n : ℕ) : (deal order rounds n).length = min n (rounds * q) := by
  induction rounds generalizing n with
  | zero => rw [deal, List.length_nil, Nat.zero_mul, Nat.min_zero]
  | succ r ih =>
      rw [deal, List.length_append, List.length_take, ih, h, Nat.succ_mul]
      omega

section Loads

variable [BEq α] [LawfulBEq α] {members : List α}

/-- No member gets more than one item a round. -/
theorem count_deal_le (h : ∀ r, (order r).Nodup) (a : α) (rounds n : ℕ) :
    (deal order rounds n).count a ≤ rounds := by
  induction rounds generalizing n with
  | zero => exact Nat.le_refl 0
  | succ r ih =>
      have hround : ((order r).take n).count a ≤ 1 :=
        List.nodup_iff_count_le_one.mp ((h r).sublist (List.take_sublist _ _)) a
      have hrest := ih (n - (order r).length)
      rw [deal, List.count_append]
      omega

/-- All members have the same load, some of them one item more. -/
theorem deal_balanced (hmembers : members.Nodup)
    (hperm : ∀ r, (order r).Perm members) (rounds n : ℕ) :
    ∃ load, ∀ a ∈ members, load ≤ (deal order rounds n).count a ∧
      (deal order rounds n).count a ≤ load + 1 := by
  induction rounds generalizing n with
  | zero => exact ⟨0, fun a _ => ⟨Nat.le_refl 0, Nat.zero_le 1⟩⟩
  | succ r ih =>
      have hnodup : (order r).Nodup := (hperm r).nodup_iff.mpr hmembers
      rw [deal]
      by_cases hfull : (order r).length ≤ n
      · -- a full round gives one item to everybody
        obtain ⟨load, hload⟩ := ih (n - (order r).length)
        refine ⟨load + 1, fun a ha => ?_⟩
        obtain ⟨hle, hge⟩ := hload a ha
        have hone : (order r).count a = 1 :=
          List.count_eq_one_of_mem hnodup ((hperm r).mem_iff.mpr ha)
        rw [List.take_of_length_le hfull, List.count_append, hone]
        omega
      · -- the items run out in this round
        have hout : n - (order r).length = 0 := by omega
        refine ⟨0, fun a _ => ⟨Nat.zero_le _, ?_⟩⟩
        rw [hout, deal_zero, List.append_nil]
        exact List.nodup_iff_count_le_one.mp
          (hnodup.sublist (List.take_sublist _ _)) a

end Loads

end RoundRobin
