import Mathlib.Data.List.Basic
import Mathlib.Algebra.Order.Group.Nat
import Nomic.Basic

/-!
# The `ed` binary codec

The light-client state and messages are written with the `ed` crate: integers as fixed-width
big-endian bytes, `[u8; N]` as its `N` bytes, `Option<T>` as a tag byte `0`/`1` followed by the
value, a slice or `Vec<u8>` as its bytes with no length (so `Vec::<u8>::decode` reads until the
input ends), and `LengthVec<u8, T>` (from `orga`) as a one-byte count followed by the elements.
A decoder reads from a byte stream and leaves the rest unread (`Decoder`).

Every primitive gets its streaming round trip, `d.run (encode x ++ rest) = .ok (x, rest)`,
tagged `@[simp]`, so that a record codec's round trip is a `simp` over its fields.
-/

namespace Nomic.Ethereum

/-- `ed::Error`: a tag or payload byte the decoder rejects, or the input ending early
(`read_exact` failing with `UnexpectedEof`). -/
inductive EdError where
  | unexpectedByte (b : UInt8)
  | unexpectedEof
  deriving DecidableEq, Repr

/-- A decoder: reads from the front of the input and returns the unread rest. -/
abbrev Decoder (α : Type) := StateT (List UInt8) (Except EdError) α

/-- `N` bytes (`[u8; N]`, a fixed-length byte vector). -/
structure Bytes (n : Nat) where
  toList : List UInt8
  length_eq : toList.length = n
  deriving DecidableEq, Repr

/-- `read_exact` of `n` bytes. -/
def readBytes (n : Nat) : Decoder (Bytes n) := fun s =>
  if h : n ≤ s.length then .ok (⟨s.take n, by simp [h]⟩, s.drop n) else .error .unexpectedEof

/-! ### Integers -/

/-- `to_be_bytes`: the `n` big-endian bytes of `x` modulo `256 ^ n`. -/
def beBytes : Nat → Nat → List UInt8
  | 0, _ => []
  | n + 1, x => beBytes n (x / 256) ++ [UInt8.ofNat (x % 256)]

/-- `from_be_bytes`. -/
def beValue (bs : List UInt8) : Nat := bs.foldl (fun acc b => acc * 256 + b.toNat) 0

@[simp] theorem length_beBytes (n x : Nat) : (beBytes n x).length = n := by
  induction n generalizing x <;> simp [beBytes, *]

theorem beValue_append_singleton (bs : List UInt8) (b : UInt8) :
    beValue (bs ++ [b]) = beValue bs * 256 + b.toNat := by
  simp [beValue, List.foldl_append]

theorem beValue_beBytes (n x : Nat) : beValue (beBytes n x) = x % 256 ^ n := by
  induction n generalizing x with
  | zero => simp [beBytes, beValue, Nat.mod_one]
  | succ n ih =>
    have hb : (UInt8.ofNat (x % 256)).toNat = x % 256 := by
      simp [UInt8.ofNat, UInt8.toNat, BitVec.toNat_ofNat]
    rw [beBytes, beValue_append_singleton, ih, hb, pow_succ, mul_comm (256 ^ n), Nat.mod_mul]
    ac_rfl

/-- The bytes of an `N`-byte integer. -/
def intBytes (n x : Nat) : Bytes n := ⟨beBytes n x, length_beBytes n x⟩

/-- `u64::encode_into`. -/
def encodeU64 (x : UInt64) : List UInt8 := beBytes 8 x.toNat

/-- `u64::decode`. -/
def decodeU64 : Decoder UInt64 := do
  let bs ← readBytes 8
  pure (UInt64.ofNat (beValue bs.toList))

/-- `u32::encode_into`. -/
def encodeU32 (x : UInt32) : List UInt8 := beBytes 4 x.toNat

/-- `u32::decode`. -/
def decodeU32 : Decoder UInt32 := do
  let bs ← readBytes 4
  pure (UInt32.ofNat (beValue bs.toList))

/-- `u8::decode`. -/
def decodeU8 : Decoder UInt8 := fun s =>
  match s with
  | b :: s => .ok (b, s)
  | [] => .error .unexpectedEof

/-! ### Containers -/

/-- `Option<T>::encode_into`: tag `0`, or tag `1` and the value. -/
def encodeOption {α : Type} (enc : α → List UInt8) : Option α → List UInt8
  | none => [0]
  | some a => 1 :: enc a

/-- `Option<T>::decode`. -/
def decodeOption {α : Type} (dec : Decoder α) : Decoder (Option α) := do
  let tag ← decodeU8
  match tag with
  | 0 => pure none
  | 1 => some <$> dec
  | b => throw (.unexpectedByte b)

/-- `Vec::<u8>::decode`: `ed` reads elements until the input ends. -/
def decodeVecU8 : Decoder (List UInt8) := fun s => .ok (s, [])

/-- `orga::encoding::LengthVec<u8, T>`: a stored count and the values. -/
structure LengthVec (α : Type) where
  len : UInt8
  values : List α
  deriving DecidableEq, Repr

/-- `LengthVec::encode_into`: the count, then each value. -/
def encodeLengthVec {α : Type} (enc : α → List UInt8) (v : LengthVec α) : List UInt8 :=
  v.len :: (v.values.map enc).flatten

/-- `n` values, one after another (`for _ in 0..n { values.push(T::decode(&mut input)?) }`). -/
def decodeVector {α : Type} (dec : Decoder α) : (n : Nat) → Decoder { l : List α // l.length = n }
  | 0 => pure ⟨[], rfl⟩
  | n + 1 => do
    let a ← dec
    let as ← decodeVector dec n
    pure ⟨a :: as.1, by simp [as.2]⟩

/-- `LengthVec::decode`: read the count, then that many values. -/
def decodeLengthVec {α : Type} (dec : Decoder α) : Decoder (LengthVec α) := do
  let len ← decodeU8
  let values ← decodeVector dec len.toNat
  pure ⟨len, values.1⟩

/-! ### Streaming round trips -/

@[simp] theorem except_ok_bind {ε α β : Type} (a : α) (f : α → Except ε β) :
    (Except.ok a >>= f) = f a := rfl

@[simp] theorem except_error_bind {ε α β : Type} (e : ε) (f : α → Except ε β) :
    (Except.error e >>= f) = .error e := rfl

@[simp] theorem except_pure {ε α : Type} (a : α) : (pure a : Except ε α) = .ok a := rfl

section RoundTrip

variable {α : Type} (rest : List UInt8)

@[simp] theorem readBytes_run {n : Nat} (b : Bytes n) :
    (readBytes n).run (b.toList ++ rest) = .ok (b, rest) := by
  obtain ⟨bs, rfl⟩ := b
  simp [readBytes, StateT.run]

theorem readBytes_run_of_lt {n : Nat} {s : List UInt8} (h : s.length < n) :
    (readBytes n).run s = .error .unexpectedEof := by
  simp [readBytes, StateT.run, Nat.not_le.2 h]

@[simp] theorem decodeU64_run (x : UInt64) : decodeU64.run (encodeU64 x ++ rest) = .ok (x, rest) := by
  have h := readBytes_run rest (intBytes 8 x.toNat)
  simp only [intBytes] at h
  have hv : beValue (beBytes 8 x.toNat) = x.toNat :=
    (beValue_beBytes 8 x.toNat).trans (Nat.mod_eq_of_lt x.toBitVec.isLt)
  simp [decodeU64, encodeU64, h, hv, uint64_ofNat_toNat]

@[simp] theorem decodeU32_run (x : UInt32) : decodeU32.run (encodeU32 x ++ rest) = .ok (x, rest) := by
  have h := readBytes_run rest (intBytes 4 x.toNat)
  simp only [intBytes] at h
  have hv : beValue (beBytes 4 x.toNat) = x.toNat :=
    (beValue_beBytes 4 x.toNat).trans (Nat.mod_eq_of_lt x.toBitVec.isLt)
  simp [decodeU32, encodeU32, h, hv, uint32_ofNat_toNat]

@[simp] theorem decodeU8_run (b : UInt8) : decodeU8.run (b :: rest) = .ok (b, rest) := rfl

theorem decodeOption_run {dec : Decoder α} {enc : α → List UInt8}
    (h : ∀ a rest, dec.run (enc a ++ rest) = .ok (a, rest)) (o : Option α) :
    (decodeOption dec).run (encodeOption enc o ++ rest) = .ok (o, rest) := by
  cases o <;> simp [decodeOption, encodeOption, h]

theorem decodeVector_run {dec : Decoder α} {enc : α → List UInt8}
    (h : ∀ a rest, dec.run (enc a ++ rest) = .ok (a, rest)) (as : List α) {n : Nat}
    (hn : as.length = n) :
    (decodeVector dec n).run ((as.map enc).flatten ++ rest) = .ok (⟨as, hn⟩, rest) := by
  subst hn
  induction as with
  | nil => rfl
  | cons a as ih => simp [decodeVector, h, ih]

/-- A `LengthVec` whose count is its length reads back. -/
theorem decodeLengthVec_run {dec : Decoder α} {enc : α → List UInt8}
    (h : ∀ a rest, dec.run (enc a ++ rest) = .ok (a, rest)) (v : LengthVec α)
    (hv : v.len.toNat = v.values.length) :
    (decodeLengthVec dec).run (encodeLengthVec enc v ++ rest) = .ok (v, rest) := by
  simp [decodeLengthVec, encodeLengthVec, decodeVector_run rest h v.values hv.symm]

@[simp] theorem decodeVecU8_run (s : List UInt8) : decodeVecU8.run s = .ok (s, []) := rfl

end RoundTrip

end Nomic.Ethereum
