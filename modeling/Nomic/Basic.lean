import Mathlib.Algebra.Group.Int
import Mathlib.Algebra.Group.Nat.Basic
import Mathlib.Data.List.AList
import Mathlib.Data.List.Sort

/-!
# Errors and outcomes

The relayer's functions return `crate::error::Result`; a few of them can also panic (an
`unwrap` on an `Err`, an index out of bounds, a checked arithmetic overflow). `Error` keeps the
kind and the text of each error the modelled code produces, and `Fault` adds the panic, so that
a function that may panic returns `Except Fault α` and "returns `Err`" and "panics" stay apart.
-/

namespace Nomic

/-- The errors of `crate::error::Error` that the modelled code produces, by kind and text. -/
inductive Error where
  /-- `orga::Error::App(msg)`. -/
  | app (msg : String)
  /-- A `std::io::Error`. -/
  | io (msg : String)
  /-- A failed call to the Bitcoin RPC or to the sidechain client. -/
  | rpc (msg : String)
  /-- An error of `SignatorySet::output_script`. -/
  | script (msg : String)
  deriving DecidableEq, Repr

/-- How a call that may panic ends when it does not return `Ok`. -/
inductive Fault where
  | err (e : Error)
  | panic (msg : String)
  deriving DecidableEq, Repr

/-! ### Machine integers -/

theorem uint32_eq_of_toNat_eq {a b : UInt32} (h : a.toNat = b.toNat) : a = b :=
  UInt32.eq_of_toBitVec_eq (BitVec.eq_of_toNat_eq h)

theorem uint8_ofNat_toNat (x : UInt8) : UInt8.ofNat x.toNat = x :=
  UInt8.eq_of_toBitVec_eq (BitVec.eq_of_toNat_eq (by
    simp [UInt8.ofNat, UInt8.toNat, Nat.mod_eq_of_lt x.toBitVec.isLt]))

theorem uint32_ofNat_toNat (x : UInt32) : UInt32.ofNat x.toNat = x :=
  UInt32.eq_of_toBitVec_eq (BitVec.eq_of_toNat_eq (by
    simp [UInt32.ofNat, UInt32.toNat, Nat.mod_eq_of_lt x.toBitVec.isLt]))

theorem uint64_ofNat_toNat (x : UInt64) : UInt64.ofNat x.toNat = x :=
  UInt64.eq_of_toBitVec_eq (BitVec.eq_of_toNat_eq (by
    simp [UInt64.ofNat, UInt64.toNat, Nat.mod_eq_of_lt x.toBitVec.isLt]))

/-- `usize` subtraction: a panic on underflow with overflow checks, wrapping without. -/
def subUsize (overflowChecks : Bool) (a b : Nat) : Except Fault Nat :=
  if b ≤ a then .ok (a - b)
  else if overflowChecks then .error (.panic "attempt to subtract with overflow")
  else .ok ((a + 2 ^ 64 - b) % 2 ^ 64)

theorem subUsize_of_le {overflowChecks : Bool} {a b : Nat} (h : b ≤ a) :
    subUsize overflowChecks a b = .ok (a - b) := if_pos h

end Nomic
