import BcosSync.State.SyncPeerStatus

/-!
# The random traversal of the peer table

`foreachPeerRandom` shuffles the node ids and calls its function on one peer
after the other, until a call returns `false`.  The calls are related to the
entries of the table here: the ones that are made and the ones that are left
out are together a permutation of the entries.
-/

namespace BcosSync

/-- Calls of `f` on `called`, one after the other, from `x` to `y`.  Only the
last one can have returned `false`, and `stopped` says whether it has. -/
inductive Calls {α τ : Type} (f : α → τ → Bool × τ) :
    τ → List α → τ → Bool → Prop
  | finish (x : τ) : Calls f x [] x false
  | stop {a : α} {x y : τ} : f a x = (false, y) → Calls f x [a] y true
  | next {a : α} {called : List α} {x y z : τ} {stopped : Bool} :
      f a x = (true, y) → Calls f y called z stopped →
      Calls f x (a :: called) z stopped

/-- A function that always returns `true` is not stopped. -/
theorem Calls.not_stopped {α τ : Type} {f : α → τ → Bool × τ} {x y : τ}
    {called : List α} {stopped : Bool} (h : Calls f x called y stopped)
    (hf : ∀ a z, (f a z).1 = true) : stopped = false := by
  induction h with
  | finish => rfl
  | @stop a x y hcall =>
      have htrue := hf a x
      rw [hcall] at htrue
      cases htrue
  | next _ _ ih => exact ih

namespace SyncPeerStatus

variable {τ : Type} {rand : ℕ → ℕ} {f : PeerStatus → τ → Bool × τ}
  {t : SyncPeerStatus}

/-! ## The indices of the shuffle -/

/-- The indices that the shuffle loop swaps from index `i` down. -/
def shuffleIndices (rand : ℕ → ℕ) : ℕ → List (ℕ × ℕ)
  | 0 => []
  | i + 1 => (i + 1, rand (i + 1) % (i + 2)) :: shuffleIndices rand i

theorem shuffleLoop_eq_foldl (i : ℕ) (ids : Array Bytes) :
    shuffleLoop rand i ids =
      (shuffleIndices rand i).foldl
        (fun ids swapped => ids.swapIfInBounds swapped.1 swapped.2) ids := by
  induction i generalizing ids with
  | zero => rfl
  | succ i ih =>
      rw [shuffleLoop, ih]
      rfl

theorem shuffleIndices_le {i : ℕ} {swapped : ℕ × ℕ}
    (h : swapped ∈ shuffleIndices rand i) : swapped.1 ≤ i ∧ swapped.2 ≤ i := by
  induction i with
  | zero => cases h
  | succ i ih =>
      rcases List.mem_cons.mp h with rfl | h
      · have hselect := Nat.mod_lt (rand (i + 1)) (show 0 < i + 2 by omega)
        exact ⟨le_rfl, by dsimp only; omega⟩
      · obtain ⟨hfirst, hsecond⟩ := ih h
        exact ⟨by omega, by omega⟩

/-- No index of the shuffle is out of range. -/
theorem shuffleIndices_lt {ids : List Bytes} {swapped : ℕ × ℕ}
    (h : swapped ∈ shuffleIndices rand (ids.length - 1)) :
    swapped.1 < ids.length ∧ swapped.2 < ids.length := by
  have hle := shuffleIndices_le h
  have hne : ids.length - 1 ≠ 0 := by
    intro hzero
    rw [hzero] at h
    cases h
  omega

/-! ## The calls -/

/-- `f` with a record of the peers it is called on. -/
def recording (f : PeerStatus → τ → Bool × τ) (p : PeerStatus)
    (x : τ × List PeerStatus) : Bool × τ × List PeerStatus :=
  ((f p x.1).1, (f p x.1).2, x.2 ++ [p])

/-- The step lemma and its induction: the entries behind the ids are called in
order, up to the first `false`. -/
theorem visit_calls {entries : List (Sigma fun _ : Bytes => PeerStatus)}
    (hentries : ∀ e ∈ entries, t.lookup e.1 = some e.2) (x : τ) :
    ∃ called rest stopped, entries = called ++ rest ∧
      Calls (fun e => f e.2) x called (visit f t (entries.map Sigma.fst) x)
        stopped ∧
      (stopped = false → rest = []) ∧
      ∀ record, visit (recording f) t (entries.map Sigma.fst) (x, record) =
        (visit f t (entries.map Sigma.fst) x,
          record ++ called.map Sigma.snd) := by
  induction entries generalizing x with
  | nil =>
      refine ⟨[], [], false, rfl, .finish x, fun _ => rfl, fun record => ?_⟩
      rw [List.map_nil, List.map_nil, List.append_nil]
      rfl
  | cons e entries ih =>
      have hlookup := hentries e List.mem_cons_self
      rw [List.map_cons]
      cases hcall : f e.2 x with
      | mk goesOn y =>
          have hrecord : ∀ record, recording f e.2 (x, record) =
              (goesOn, y, record ++ [e.2]) := by
            intro record
            rw [recording, hcall]
          cases goesOn with
          | false =>
              rw [visit_cons_of_false hlookup hcall]
              refine ⟨[e], entries, true, rfl, .stop hcall, nofun, ?_⟩
              intro record
              rw [visit_cons_of_false hlookup (hrecord record)]
              rfl
          | true =>
              obtain ⟨called, rest, stopped, hsplit, hcalls, hrest, hlog⟩ :=
                ih (fun e' he' => hentries e' (List.mem_cons_of_mem e he')) y
              rw [visit_cons_of_true hlookup hcall]
              refine ⟨e :: called, rest, stopped, ?_, .next hcall hcalls,
                hrest, ?_⟩
              · rw [hsplit, List.cons_append]
              · intro record
                rw [visit_cons_of_true hlookup (hrecord record), hlog,
                  List.append_assoc]
                rfl

/-- The entry of an id. -/
def entry (t : SyncPeerStatus) (id : Bytes) :
    Option (Sigma fun _ : Bytes => PeerStatus) :=
  (t.lookup id).map (Sigma.mk id)

theorem entry_eq_some {id : Bytes} {e : Sigma fun _ : Bytes => PeerStatus} :
    t.entry id = some e ↔ e.1 = id ∧ t.lookup e.1 = some e.2 := by
  obtain ⟨key, p⟩ := e
  rw [entry, Option.map_eq_some_iff]
  constructor
  · rintro ⟨q, hq, heq⟩
    cases heq
    exact ⟨rfl, hq⟩
  · rintro ⟨rfl, hp⟩
    exact ⟨p, hp, rfl⟩

/-- Ids of the table, in any order, are the keys of their entries. -/
theorem map_fst_filterMap_entry {ids : List Bytes}
    (hids : ∀ id ∈ ids, id ∈ t.keys) :
    (ids.filterMap t.entry).map Sigma.fst = ids := by
  induction ids with
  | nil => rfl
  | cons id ids ih =>
      have hmem : id ∈ t := AList.mem_keys.mp (hids id List.mem_cons_self)
      obtain ⟨p, hp⟩ := Option.isSome_iff_exists.mp
        (AList.lookup_isSome.mpr hmem)
      have hentry : t.entry id = some ⟨id, p⟩ := entry_eq_some.mpr ⟨rfl, hp⟩
      rw [List.filterMap_cons_some hentry, List.map_cons,
        ih fun id' hid' => hids id' (List.mem_cons_of_mem id hid')]

theorem filterMap_entry_keys (t : SyncPeerStatus) :
    t.keys.filterMap t.entry = t.entries := by
  have hkeys : t.keys = t.entries.map Sigma.fst := rfl
  rw [hkeys, List.filterMap_map]
  calc
    t.entries.filterMap (t.entry ∘ Sigma.fst) =
        t.entries.filterMap some := by
      apply List.filterMap_congr
      intro e he
      exact entry_eq_some.mpr
        ⟨rfl, (List.mem_dlookup_iff t.nodupKeys).mpr he⟩
    _ = t.entries := List.filterMap_some

/-- The calls of `foreachPeerRandom` are on a prefix of a permutation of the
entries, all of them if the function always returns `true`, and end with the
first call that returns `false`.  The shuffle stays within the list of ids. -/
theorem foreachPeerRandom_calls (rand : ℕ → ℕ)
    (f : PeerStatus → τ → Bool × τ) (t : SyncPeerStatus) (x : τ) :
    (∃ called rest stopped,
      (called ++ rest).Perm t.entries ∧ (called.map Sigma.fst).Nodup ∧
      Calls (fun e => f e.2) x called (foreachPeerRandom rand f t x) stopped ∧
      (stopped = false → rest = []) ∧
      ((∀ p y, (f p y).1 = true) → rest = []) ∧
      foreachPeerRandom rand (recording f) t (x, []) =
        (foreachPeerRandom rand f t x, called.map Sigma.snd)) ∧
    shuffle rand t.keys =
      ((shuffleIndices rand (t.keys.length - 1)).foldl
        (fun ids swapped => ids.swapIfInBounds swapped.1 swapped.2)
        t.keys.toArray).toList ∧
    ∀ swapped ∈ shuffleIndices rand (t.keys.length - 1),
      swapped.1 < t.keys.length ∧ swapped.2 < t.keys.length := by
  refine ⟨?_, ?_, fun swapped h => shuffleIndices_lt h⟩
  · have hperm : (shuffle rand t.keys).Perm t.keys :=
      (shuffleLoop_perm rand _ _).toList
    have horder : ((shuffle rand t.keys).filterMap t.entry).map Sigma.fst =
        shuffle rand t.keys :=
      map_fst_filterMap_entry fun id hid => mem_shuffle_keys.mp hid
    have hentries : ((shuffle rand t.keys).filterMap t.entry).Perm
        t.entries := by
      have hall := hperm.filterMap t.entry
      rwa [filterMap_entry_keys] at hall
    have hlookup : ∀ e ∈ (shuffle rand t.keys).filterMap t.entry,
        t.lookup e.1 = some e.2 := by
      intro e he
      obtain ⟨id, -, hid⟩ := List.mem_filterMap.mp he
      exact (entry_eq_some.mp hid).2
    obtain ⟨called, rest, stopped, hsplit, hcalls, hrest, hrecord⟩ :=
      visit_calls (f := f) hlookup x
    rw [horder] at hcalls hrecord
    refine ⟨called, rest, stopped, hsplit ▸ hentries, ?_, hcalls, hrest, ?_,
      hrecord []⟩
    · have hnodup : (shuffle rand t.keys).Nodup := nodup_shuffle_keys
      rw [← horder, hsplit, List.map_append] at hnodup
      exact hnodup.of_append_left
    · exact fun hf => hrest (hcalls.not_stopped fun e y => hf e.2 y)
  · rw [shuffle, shuffleLoop_eq_foldl]

end SyncPeerStatus

end BcosSync
