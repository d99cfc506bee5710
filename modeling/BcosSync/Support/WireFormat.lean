import Mathlib.Algebra.Group.Nat.Defs
import Mathlib.Data.Nat.Notation
import Mathlib.Tactic.SplitIfs

/-!
# The protobuf wire format

Base-128 numbers and records of numbered fields, with the two wire types that
integers and byte strings need.  What is written is read back, for every
number and every list of fields.

The reader does not bound the length of a number; a user who stores 64 bits
takes the low 64 bits of what is read.
-/

namespace WireFormat

/-! ## Numbers -/

/-- Seven bits a byte, the lowest first, in at most `k + 1` bytes. -/
def encodeDigits : ℕ → ℕ → List UInt8
  | 0, n => [UInt8.ofNat n]
  | k + 1, n =>
      if n < 128 then [UInt8.ofNat n]
      else UInt8.ofNat (n % 128 + 128) :: encodeDigits k (n / 128)

def encodeVarint (n : ℕ) : List UInt8 := encodeDigits n.log2 n

/-- The number in front, and the bytes behind it. -/
def decodeVarint : List UInt8 → Option (ℕ × List UInt8)
  | [] => none
  | b :: data =>
      if b.toNat < 128 then some (b.toNat, data)
      else
        (decodeVarint data).map fun (n, rest) =>
          (b.toNat - 128 + 128 * n, rest)

theorem toNat_ofNat {n : ℕ} (h : n < 256) : (UInt8.ofNat n).toNat = n := by
  rw [UInt8.toNat_ofNat', Nat.mod_eq_of_lt h]

theorem decodeVarint_small {n : ℕ} (h : n < 128) (rest : List UInt8) :
    decodeVarint (UInt8.ofNat n :: rest) = some (n, rest) := by
  rw [decodeVarint, toNat_ofNat (by omega), if_pos h]

theorem decodeVarint_encodeDigits (rest : List UInt8) :
    ∀ k n, n < 128 ^ (k + 1) →
      decodeVarint (encodeDigits k n ++ rest) = some (n, rest) := by
  intro k
  induction k with
  | zero => exact fun n h => decodeVarint_small (by omega) rest
  | succ k ih =>
      intro n h
      rw [encodeDigits]
      split_ifs with hsmall
      · exact decodeVarint_small hsmall rest
      · have hrest : n / 128 < 128 ^ (k + 1) := by
          rw [Nat.div_lt_iff_lt_mul (by decide), ← Nat.pow_succ]
          exact h
        have hvalue : n % 128 + 128 - 128 + 128 * (n / 128) = n := by omega
        rw [List.cons_append, decodeVarint, toNat_ofNat (by omega),
          if_neg (by omega), ih (n / 128) hrest, Option.map_some]
        exact congrArg (fun value => some (value, rest)) hvalue

theorem decodeVarint_encodeVarint (n : ℕ) (rest : List UInt8) :
    decodeVarint (encodeVarint n ++ rest) = some (n, rest) := by
  refine decodeVarint_encodeDigits rest _ _ ?_
  exact Nat.lt_of_lt_of_le Nat.lt_log2_self
    (Nat.pow_le_pow_left (by decide) _)

/-! ## Fields -/

inductive Payload
  | varint (value : ℕ)
  | bytes (data : List UInt8)
deriving DecidableEq

structure Field where
  number : ℕ
  payload : Payload
deriving DecidableEq

namespace Payload

def wireType : Payload → ℕ
  | varint _ => 0
  | bytes _ => 2

def encode : Payload → List UInt8
  | varint value => encodeVarint value
  | bytes data => encodeVarint data.length ++ data

/-- The payload of a wire type in front, and the bytes behind it. -/
def decode : ℕ → List UInt8 → Option (Payload × List UInt8)
  | 0, data => (decodeVarint data).map fun (value, rest) => (varint value, rest)
  | 2, data =>
      (decodeVarint data).bind fun (length, rest) =>
        if length ≤ rest.length then
          some (bytes (rest.take length), rest.drop length)
        else none
  | _, _ => none

theorem wireType_lt (p : Payload) : p.wireType < 8 := by
  cases p with
  | varint value => exact (by decide : 0 < 8)
  | bytes data => exact (by decide : 2 < 8)

theorem decode_encode (p : Payload) (rest : List UInt8) :
    decode p.wireType (p.encode ++ rest) = some (p, rest) := by
  cases p with
  | varint value =>
      rw [encode, wireType, decode, decodeVarint_encodeVarint,
        Option.map_some]
  | bytes data =>
      rw [encode, wireType, decode, List.append_assoc,
        decodeVarint_encodeVarint, Option.bind_some]
      dsimp only
      rw [if_pos (by rw [List.length_append]; omega), List.take_left,
        List.drop_left]

end Payload

namespace Field

def encode (f : Field) : List UInt8 :=
  encodeVarint (8 * f.number + f.payload.wireType) ++ f.payload.encode

/-- The field in front, and the bytes behind it.  There is no field 0. -/
def decode (data : List UInt8) : Option (Field × List UInt8) :=
  (decodeVarint data).bind fun (tag, rest) =>
    if tag < 8 then none
    else
      (Payload.decode (tag % 8) rest).map fun (payload, rest) =>
        (⟨tag / 8, payload⟩, rest)

theorem decode_encode {f : Field} (h : f.number ≠ 0) (rest : List UInt8) :
    decode (f.encode ++ rest) = some (f, rest) := by
  have hlt := f.payload.wireType_lt
  have htype : (8 * f.number + f.payload.wireType) % 8 =
      f.payload.wireType := by
    omega
  have hnumber : (8 * f.number + f.payload.wireType) / 8 = f.number := by
    omega
  rw [encode, decode, List.append_assoc, decodeVarint_encodeVarint,
    Option.bind_some]
  dsimp only
  rw [if_neg (by omega), htype, hnumber, f.payload.decode_encode,
    Option.map_some]

theorem encode_ne_nil (f : Field) : f.encode ≠ [] := by
  intro hnil
  have htag := (List.append_eq_nil_iff.mp hnil).1
  have hread := decodeVarint_encodeVarint
    (8 * f.number + f.payload.wireType) []
  rw [htag] at hread
  cases hread

end Field

/-! ## Records -/

def encode (fields : List Field) : List UInt8 :=
  fields.flatMap Field.encode

/-- Read fields until the bytes are used up, `n` fields at most. -/
def decodeLoop : ℕ → List UInt8 → Option (List Field)
  | _, [] => some []
  | 0, _ :: _ => none
  | n + 1, b :: data =>
      (Field.decode (b :: data)).bind fun (field, rest) =>
        (decodeLoop n rest).map fun fields => field :: fields

/-- Each field takes a byte at least. -/
def decode (data : List UInt8) : Option (List Field) :=
  decodeLoop data.length data

theorem decodeLoop_encode {fields : List Field}
    (h : ∀ f ∈ fields, f.number ≠ 0) :
    ∀ n, fields.length ≤ n → decodeLoop n (encode fields) = some fields := by
  induction fields with
  | nil => exact fun n _ => by cases n <;> rfl
  | cons f fields ih =>
      intro n hn
      obtain ⟨n, rfl⟩ := Nat.exists_eq_add_one_of_ne_zero
        (Nat.ne_of_gt (Nat.zero_lt_of_lt hn))
      have hfield := Field.decode_encode (h f List.mem_cons_self)
        (encode fields)
      have hcons : encode (f :: fields) = f.encode ++ encode fields :=
        List.flatMap_cons
      obtain ⟨b, data, hdata⟩ := List.exists_cons_of_ne_nil
        (List.append_ne_nil_of_left_ne_nil f.encode_ne_nil (encode fields))
      rw [hdata] at hfield hcons
      rw [hcons, decodeLoop, hfield, Option.bind_some]
      dsimp only
      rw [ih (fun g hg => h g (List.mem_cons_of_mem f hg)) n
        (Nat.le_of_succ_le_succ hn), Option.map_some]

theorem length_le_encode (fields : List Field) :
    fields.length ≤ (encode fields).length := by
  induction fields with
  | nil => exact Nat.zero_le _
  | cons f fields ih =>
      have hpos := List.length_pos_iff.mpr f.encode_ne_nil
      rw [encode, List.flatMap_cons, List.length_append, List.length_cons]
      unfold encode at ih
      omega

/-- What is written is read back. -/
theorem decode_encode {fields : List Field}
    (h : ∀ f ∈ fields, f.number ≠ 0) :
    decode (encode fields) = some fields :=
  decodeLoop_encode h _ (length_le_encode fields)

/-! ## Optional fields -/

/-- A number, left out where it is 0. -/
def varintField (number value : ℕ) : List Field :=
  if value = 0 then [] else [⟨number, .varint value⟩]

/-- A byte string, left out where it is empty. -/
def bytesField (number : ℕ) (data : List UInt8) : List Field :=
  if data = [] then [] else [⟨number, .bytes data⟩]

theorem number_of_mem_varintField {number value : ℕ} {f : Field}
    (h : f ∈ varintField number value) : f.number = number := by
  unfold varintField at h
  split_ifs at h
  · cases h
  · exact congrArg Field.number (List.mem_singleton.mp h)

theorem number_of_mem_bytesField {number : ℕ} {data : List UInt8} {f : Field}
    (h : f ∈ bytesField number data) : f.number = number := by
  unfold bytesField at h
  split_ifs at h
  · cases h
  · exact congrArg Field.number (List.mem_singleton.mp h)

section Merge

variable {σ : Type} {merge : σ → Field → σ}

/-- Reading back a number that is written unless it is 0. -/
theorem foldl_varintField {s t : σ} {number value : ℕ}
    (hzero : value = 0 → s = t)
    (hmerge : value ≠ 0 → merge s ⟨number, .varint value⟩ = t) :
    (varintField number value).foldl merge s = t := by
  unfold varintField
  split_ifs with h
  · exact hzero h
  · exact hmerge h

/-- Reading back a byte string that is written unless it is empty. -/
theorem foldl_bytesField {s t : σ} {number : ℕ} {data : List UInt8}
    (hnil : data = [] → s = t)
    (hmerge : data ≠ [] → merge s ⟨number, .bytes data⟩ = t) :
    (bytesField number data).foldl merge s = t := by
  unfold bytesField
  split_ifs with h
  · exact hnil h
  · exact hmerge h

end Merge

end WireFormat
