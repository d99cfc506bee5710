import Mathlib.Data.List.Sort
import Mathlib.Data.Multiset.Filter

/-!
# Priority queues

`PriorityQueue α le` is any implementation of a priority queue over `α` in
which `le a b` says that `a` may stand in front of `b`.  Which of several
elements tied at the front is the top is left to the implementation, so that
what is proved here holds for a binary heap as well as for a sorted list.
The contents of a queue are a multiset.

The module also has the loop that pops while the top satisfies a test, and
`sortedList`, the implementation used to evaluate concrete examples.
-/

universe u

/-- An implementation of a priority queue together with its laws. -/
structure PriorityQueue (α : Type u) (le : α → α → Prop) where
  Carrier : Type u
  empty : Carrier
  push : Carrier → α → Carrier
  pop : Carrier → Carrier
  top : Carrier → Option α
  size : Carrier → ℕ
  elems : Carrier → Multiset α
  elems_empty : elems empty = 0
  elems_push : ∀ q a, elems (push q a) = a ::ₘ elems q
  elems_of_top : ∀ q a, top q = some a → elems q = a ::ₘ elems (pop q)
  elems_of_top_none : ∀ q, top q = none → elems q = 0
  elems_pop_of_top_none : ∀ q, top q = none → elems (pop q) = 0
  le_of_top : ∀ q a, top q = some a → ∀ b ∈ elems q, le a b
  size_eq : ∀ q, size q = (elems q).card

namespace PriorityQueue

variable {α : Type u} {le : α → α → Prop} (Q : PriorityQueue α le)

attribute [simp] elems_empty elems_push

theorem size_empty : Q.size Q.empty = 0 := by
  rw [Q.size_eq, Q.elems_empty, Multiset.card_zero]

theorem notMem_empty (a : α) : a ∉ Q.elems Q.empty := by
  rw [Q.elems_empty]
  exact Multiset.notMem_zero a

theorem mem_of_top {q : Q.Carrier} {a : α} (h : Q.top q = some a) :
    a ∈ Q.elems q := by
  rw [Q.elems_of_top q a h]
  exact Multiset.mem_cons_self a _

theorem mem_of_mem_pop {q : Q.Carrier} {a : α} (h : a ∈ Q.elems (Q.pop q)) :
    a ∈ Q.elems q := by
  cases htop : Q.top q with
  | none =>
      rw [Q.elems_pop_of_top_none q htop] at h
      exact absurd h (Multiset.notMem_zero a)
  | some b =>
      rw [Q.elems_of_top q b htop]
      exact Multiset.mem_cons_of_mem h

theorem top_eq_none_iff {q : Q.Carrier} :
    Q.top q = none ↔ Q.elems q = 0 := by
  constructor
  · exact Q.elems_of_top_none q
  · intro hzero
    cases htop : Q.top q with
    | none => rfl
    | some a =>
        have hmem := Q.mem_of_top htop
        rw [hzero] at hmem
        exact absurd hmem (Multiset.notMem_zero a)

theorem size_pop {q : Q.Carrier} {a : α} (h : Q.top q = some a) :
    Q.size q = Q.size (Q.pop q) + 1 := by
  rw [Q.size_eq, Q.size_eq, Q.elems_of_top q a h, Multiset.card_cons]

theorem top_eq_none_of_size_eq_zero {q : Q.Carrier} (h : Q.size q = 0) :
    Q.top q = none := by
  rw [top_eq_none_iff, ← Multiset.card_eq_zero, ← Q.size_eq, h]

theorem top_of_singleton {q : Q.Carrier} {a : α} (h : Q.elems q = {a}) :
    Q.top q = some a ∧ Q.elems (Q.pop q) = 0 := by
  cases htop : Q.top q with
  | none =>
      rw [Q.elems_of_top_none q htop] at h
      exact absurd h.symm (Multiset.singleton_ne_zero a)
  | some b =>
      rw [Q.elems_of_top q b htop] at h
      obtain ⟨rfl, hrest⟩ := (Multiset.singleton_eq_cons_iff _).mp h.symm
      exact ⟨rfl, hrest⟩

/-! ## Popping while the top satisfies a test -/

/-- At most `n` rounds of `while (!q.empty() && test(q.top())) q.pop()`. -/
def discardLoop (test : α → Bool) : ℕ → Q.Carrier → Q.Carrier
  | 0, q => q
  | n + 1, q =>
      match Q.top q with
      | none => q
      | some a =>
          if test a then discardLoop test n (Q.pop q) else q

/-- The whole loop: it cannot take more rounds than there are elements. -/
def discard (test : α → Bool) (q : Q.Carrier) : Q.Carrier :=
  Q.discardLoop test (Q.size q) q

variable {Q}

private theorem elems_discardLoop {test : α → Bool}
    (hdown : ∀ a b, le a b → test b = true → test a = true) (n : ℕ) :
    ∀ q : Q.Carrier, Q.size q ≤ n →
      Q.elems (Q.discardLoop test n q) =
        (Q.elems q).filter fun a => test a = false := by
  induction n with
  | zero =>
      intro q hq
      have hnone : Q.top q = none :=
        Q.top_eq_none_of_size_eq_zero (Nat.le_zero.mp hq)
      simp [discardLoop, Q.elems_of_top_none q hnone]
  | succ n ih =>
      intro q hq
      rw [discardLoop]
      cases htop : Q.top q with
      | none => simp [Q.elems_of_top_none q htop]
      | some a =>
          dsimp only
          by_cases ha : test a = true
          · rw [if_pos ha, Q.elems_of_top q a htop,
              Multiset.filter_cons_of_neg _ (by simp [ha])]
            have hsize := Q.size_pop htop
            exact ih (Q.pop q) (by omega)
          · rw [if_neg ha, eq_comm, Multiset.filter_eq_self]
            intro b hb
            -- a discarded element behind `a` would make `a` discardable too
            by_contra hbtest
            rw [Bool.not_eq_false] at hbtest
            exact ha (hdown a b (Q.le_of_top q a htop b hb) hbtest)

/-- When the test is closed towards the front, the loop removes exactly the
elements that satisfy it, wherever they are in the queue. -/
theorem elems_discard {test : α → Bool}
    (hdown : ∀ a b, le a b → test b = true → test a = true)
    (q : Q.Carrier) :
    Q.elems (Q.discard test q) =
      (Q.elems q).filter fun a => test a = false :=
  elems_discardLoop hdown (Q.size q) q le_rfl

/-- Where the top fails the test, the loop removes nothing. -/
theorem discard_of_top {test : α → Bool} {q : Q.Carrier} {a : α}
    (htop : Q.top q = some a) (ha : test a = false) :
    Q.discard test q = q := by
  rw [discard, Q.size_pop htop, discardLoop, htop]
  dsimp only
  rw [if_neg (by simp [ha])]

/-! ## The sorted-list implementation -/

/-- Lists kept in queue order; among ties the newest element is in front. -/
def sortedList (le : α → α → Prop) [DecidableRel le]
    (total : ∀ a b, le a b ∨ le b a)
    (trans : ∀ a b c, le a b → le b c → le a c) : PriorityQueue α le where
  Carrier := { l : List α // l.Pairwise le }
  empty := ⟨[], List.Pairwise.nil⟩
  push q a := ⟨q.1.orderedInsert le a, by
    have : Std.Total le := ⟨total⟩
    have : IsTrans α le := ⟨trans⟩
    exact q.2.orderedInsert a q.1⟩
  pop q := ⟨q.1.tail, q.2.tail⟩
  top q := q.1.head?
  size q := q.1.length
  elems q := ↑q.1
  elems_empty := rfl
  elems_push q a := by
    have hperm := List.perm_orderedInsert le a q.1
    exact Multiset.coe_eq_coe.mpr hperm
  elems_of_top := by
    rintro ⟨l, hl⟩ a h
    obtain ⟨rest, rfl⟩ := List.head?_eq_some_iff.mp h
    rfl
  elems_of_top_none := by
    rintro ⟨l, hl⟩ h
    rw [List.head?_eq_none_iff] at h
    subst h
    rfl
  elems_pop_of_top_none := by
    rintro ⟨l, hl⟩ h
    rw [List.head?_eq_none_iff] at h
    subst h
    rfl
  le_of_top := by
    rintro ⟨l, hl⟩ a h b hb
    obtain ⟨rest, rfl⟩ := List.head?_eq_some_iff.mp h
    rcases List.mem_cons.mp (Multiset.mem_coe.mp hb) with rfl | hrest
    · rcases total b b with hbb | hbb <;> exact hbb
    · exact List.rel_of_pairwise_cons hl hrest
  size_eq q := (Multiset.coe_card q.1).symm

end PriorityQueue
