import Mathlib.Tactic.IntervalCases
import Nomic.Ethereum.Consensus

/-!
# `Bytes32` as text

`Bytes32` is written as `0x` followed by `hex::encode` of its 32 bytes (`Display`) and read by
`FromStr`: one leading `0x` is stripped, the rest goes through `hex::decode`, whose every error
becomes `App("Invalid hex")`, and a result of another length than 32 becomes
`App("Invalid length")`. `hex::encode` writes each byte as two lower-case digits of
`HEX_CHARS_LOWER`, high half first; `hex::decode` rejects a text of odd length, then reads two
digits at a time with `val`, which takes either case. A `&str` is taken as its UTF-8 bytes: they are
what `hex::decode` reads (`as_ref`) and what `strip_prefix("0x")` compares.

* `Hex.decode_eq_ok_iff`: `hex::decode` returns `bytes` exactly when `hex::encode bytes` is the text
  with its letters in lower case; so it reads back what `hex::encode` writes (`Hex.decode_encode`).
* `bytes32_fromStr_fmt`: `from_str` reads back the text `Display` writes, with or without its `0x`.
* `bytes32_fromStr_ok_iff`: `from_str` accepts `s` and returns `b` exactly when `Display` writes
  `b` as `s` less one leading `0x`, behind a `0x`, with its letters in lower case.
* `bytes32_fromStr_error_iff`: `from_str` fails with `Invalid hex` exactly on a text that is not of
  even length made of hex digits, and with `Invalid length` on one that is, of another length than
  64.
-/

namespace Nomic.Ethereum

namespace Hex

/-- `hex::FromHexError`, as `hex::decode` returns it. -/
inductive FromHexError where
  /-- A byte that is no hex digit, at its index in the text. -/
  | invalidHexCharacter (c : UInt8) (index : Nat)
  | oddLength
  deriving DecidableEq, Repr

/-- `HEX_CHARS_LOWER`. -/
def hexCharsLower : List UInt8 := "0123456789abcdef".toList.map Char.toUInt8

/-- The two digits `hex::encode` writes for a byte: `HEX_CHARS_LOWER[byte >> 4]`, then
`HEX_CHARS_LOWER[byte & 0x0F]`. -/
def byteToHex (b : UInt8) : List UInt8 :=
  [hexCharsLower.getD (b.toNat >>> 4) 0, hexCharsLower.getD (b.toNat &&& 0x0f) 0]

/-- `hex::encode`. -/
def encode (data : List UInt8) : List UInt8 := data.flatMap byteToHex

/-- `val`: the value of the hex digit `c`, in either case, at index `idx` of the text. -/
def val (c : UInt8) (idx : Nat) : Except FromHexError Nat :=
  if 0x41 ≤ c.toNat ∧ c.toNat ≤ 0x46 then .ok (c.toNat - 0x41 + 10)
  else if 0x61 ≤ c.toNat ∧ c.toNat ≤ 0x66 then .ok (c.toNat - 0x61 + 10)
  else if 0x30 ≤ c.toNat ∧ c.toNat ≤ 0x39 then .ok (c.toNat - 0x30)
  else .error (.invalidHexCharacter c idx)

/-- The loop of `FromHex for Vec<u8>` over `hex.chunks(2).enumerate()`: chunk `i` is the byte
`val(pair[0], 2 * i)? << 4 | val(pair[1], 2 * i + 1)?`, and `collect` stops at the first error.
The digits' values are below 16, so the `u8` shift and `|` compute as on `Nat`. A last chunk of
one byte is not reached: `decode` rejects a text of odd length first. -/
def decodeChunks (i : Nat) : List UInt8 → Except FromHexError (List UInt8)
  | hi :: lo :: rest => do
    let h ← val hi (2 * i)
    let l ← val lo (2 * i + 1)
    let bytes ← decodeChunks (i + 1) rest
    pure (UInt8.ofNat (h <<< 4 ||| l) :: bytes)
  | [_] => .error .oddLength
  | [] => .ok []

/-- `hex::decode` (`FromHex for Vec<u8>`). -/
def decode (hex : List UInt8) : Except FromHexError (List UInt8) :=
  if hex.length % 2 ≠ 0 then .error .oddLength else decodeChunks 0 hex

/-- `u8::to_ascii_lowercase`: `A` to `Z` become `a` to `z`, every other byte stays. -/
def toAsciiLowercase (c : UInt8) : UInt8 :=
  if 0x41 ≤ c.toNat ∧ c.toNat ≤ 0x5a then UInt8.ofNat (c.toNat + 0x20) else c

theorem bind_eq_ok {α β : Type} {x : Except FromHexError α} {f : α → Except FromHexError β} {b : β}
    (h : x >>= f = .ok b) : ∃ a, x = .ok a ∧ f a = .ok b := by
  cases x with
  | error e => cases h
  | ok a => exact ⟨a, rfl, h⟩

/-! ### Digits -/

section Digits

variable {c : UInt8} {v idx : Nat}

theorem getD_hexCharsLower_toNat (hv : v < 16) :
    (hexCharsLower.getD v 0).toNat = if v < 10 then 48 + v else 87 + v := by
  interval_cases v <;> rfl

theorem getD_hexCharsLower_mem (hv : v < 16) : hexCharsLower.getD v 0 ∈ hexCharsLower := by
  interval_cases v <;> decide

theorem toAsciiLowercase_toNat (c : UInt8) :
    (toAsciiLowercase c).toNat = if 65 ≤ c.toNat ∧ c.toNat ≤ 90 then c.toNat + 32 else c.toNat := by
  unfold toAsciiLowercase
  split_ifs
  · exact UInt8.toNat_ofNat_of_lt (by unfold UInt8.size; omega)
  · rfl

theorem toAsciiLowercase_of_mem {d : UInt8} (h : d ∈ hexCharsLower) : toAsciiLowercase d = d := by
  revert d
  decide

theorem val_eq_ok_iff :
    val c idx = .ok v ↔ v < 16 ∧ hexCharsLower.getD v 0 = toAsciiLowercase c := by
  constructor
  · intro h
    unfold val at h
    split_ifs at h <;> cases h <;>
    · refine ⟨by omega, UInt8.toNat.inj ?_⟩
      rw [getD_hexCharsLower_toNat (by omega), toAsciiLowercase_toNat]
      split_ifs <;> omega
  · rintro ⟨hv, heq⟩
    have hn := congrArg UInt8.toNat heq
    rw [getD_hexCharsLower_toNat hv, toAsciiLowercase_toNat] at hn
    unfold val
    split_ifs at hn ⊢ <;> first | omega | exact congrArg _ (by omega)

theorem val_ok_of_mem (h : toAsciiLowercase c ∈ hexCharsLower) (idx : Nat) :
    ∃ v, val c idx = .ok v := by
  obtain ⟨n, hn, hget⟩ := List.mem_iff_getElem.1 h
  have h16 : n < 16 := hn
  exact ⟨n, val_eq_ok_iff.2 ⟨h16, by simpa [List.getElem?_eq_getElem hn] using hget⟩⟩

end Digits

/-! ### Bytes and their two digits -/

theorem byteToHex_eq (b : UInt8) :
    byteToHex b = [hexCharsLower.getD (b.toNat / 16) 0, hexCharsLower.getD (b.toNat % 16) 0] := by
  have hlo : b.toNat &&& 0x0f = b.toNat % 16 := Nat.and_pow_two_sub_one_eq_mod b.toNat 4
  rw [byteToHex, Nat.shiftRight_eq_div_pow, hlo]

theorem shiftLeft_or_eq {h l : Nat} (hl : l < 16) : h <<< 4 ||| l = 16 * h + l := by
  rw [Nat.shiftLeft_eq, Nat.mul_comm, ← Nat.mul_add_lt_is_or (i := 4) hl]

theorem byteToHex_ofNat {h l : Nat} (hh : h < 16) (hl : l < 16) :
    byteToHex (UInt8.ofNat (h <<< 4 ||| l)) = [hexCharsLower.getD h 0, hexCharsLower.getD l 0] := by
  have hdiv : (16 * h + l) / 16 = h := by omega
  have hmod : (16 * h + l) % 16 = l := by omega
  rw [byteToHex_eq, shiftLeft_or_eq hl, UInt8.toNat_ofNat_of_lt (by unfold UInt8.size; omega),
    hdiv, hmod]

theorem ofNat_div_shiftLeft_or_mod (b : UInt8) :
    UInt8.ofNat ((b.toNat / 16) <<< 4 ||| b.toNat % 16) = b := by
  rw [shiftLeft_or_eq (Nat.mod_lt _ (by omega)), Nat.div_add_mod, uint8_ofNat_toNat]

@[simp] theorem encode_nil : encode [] = [] := rfl

@[simp] theorem encode_cons (b : UInt8) (bs : List UInt8) :
    encode (b :: bs) = hexCharsLower.getD (b.toNat / 16) 0 :: hexCharsLower.getD (b.toNat % 16) 0 ::
      encode bs := by
  simp [encode, byteToHex_eq]

@[simp] theorem length_encode (data : List UInt8) : (encode data).length = 2 * data.length := by
  induction data with
  | nil => rfl
  | cons b bs ih => simp only [encode_cons, List.length_cons, ih]; omega

theorem mem_encode {d : UInt8} {data : List UInt8} (h : d ∈ encode data) : d ∈ hexCharsLower := by
  induction data with
  | nil => cases h
  | cons b bs ih =>
    have hb : b.toNat < 256 := b.toBitVec.isLt
    simp only [encode_cons, List.mem_cons] at h
    rcases h with rfl | rfl | h
    · exact getD_hexCharsLower_mem (by omega)
    · exact getD_hexCharsLower_mem (by omega)
    · exact ih h

theorem map_toAsciiLowercase_encode (data : List UInt8) :
    (encode data).map toAsciiLowercase = encode data :=
  (List.map_congr_left fun _ hd => toAsciiLowercase_of_mem (mem_encode hd)).trans (List.map_id _)

/-! ### `hex::decode` -/

theorem decodeChunks_eq_ok_iff (i : Nat) (s bytes : List UInt8) :
    decodeChunks i s = .ok bytes ↔ encode bytes = s.map toAsciiLowercase := by
  induction i, s using decodeChunks.induct generalizing bytes with
  | case1 i hi lo rest ih =>
    constructor
    · intro h
      rw [decodeChunks] at h
      obtain ⟨vh, hvh, h⟩ := bind_eq_ok h
      obtain ⟨vl, hvl, h⟩ := bind_eq_ok h
      obtain ⟨bs, hbs, h⟩ := bind_eq_ok h
      cases h
      obtain ⟨hh, hgh⟩ := val_eq_ok_iff.1 hvh
      obtain ⟨hl, hgl⟩ := val_eq_ok_iff.1 hvl
      simp only [encode, List.flatMap_cons, byteToHex_ofNat hh hl, hgh, hgl, List.map_cons]
      rw [← encode, (ih bs).1 hbs]
      rfl
    · intro h
      cases bytes with
      | nil => cases h
      | cons b bs =>
        have hb : b.toNat < 256 := b.toBitVec.isLt
        simp only [encode_cons, List.map_cons, List.cons.injEq] at h
        obtain ⟨hgh, hgl, hrest⟩ := h
        simp only [decodeChunks, val_eq_ok_iff.2 ⟨by omega, hgh⟩,
          val_eq_ok_iff.2 ⟨Nat.mod_lt _ (by omega), hgl⟩, (ih bs).2 hrest, except_ok_bind,
          except_pure, ofNat_div_shiftLeft_or_mod]
  | case2 i c =>
    simp only [decodeChunks, List.map_cons, List.map_nil, reduceCtorEq, false_iff]
    intro h
    have := congrArg List.length h
    simp only [length_encode, List.length_singleton] at this
    omega
  | case3 i => cases bytes <;> simp [decodeChunks]

theorem decode_eq_ok_iff (s bytes : List UInt8) :
    decode s = .ok bytes ↔ encode bytes = s.map toAsciiLowercase := by
  unfold decode
  split_ifs with hodd
  · simp only [false_iff]
    intro h
    have := congrArg List.length h
    simp only [length_encode, List.length_map] at this
    omega
  · exact decodeChunks_eq_ok_iff 0 s bytes

theorem decode_encode (data : List UInt8) : decode (encode data) = .ok data :=
  (decode_eq_ok_iff _ _).2 (map_toAsciiLowercase_encode data).symm

theorem decode_ok_iff (s : List UInt8) :
    (∃ bytes, decode s = .ok bytes) ↔
      s.length % 2 = 0 ∧ ∀ c ∈ s, toAsciiLowercase c ∈ hexCharsLower := by
  constructor
  · rintro ⟨bytes, h⟩
    have h := (decode_eq_ok_iff s bytes).1 h
    refine ⟨?_, fun c hc => mem_encode (h ▸ List.mem_map_of_mem _ hc)⟩
    have := congrArg List.length h
    simp only [length_encode, List.length_map] at this
    omega
  · rintro ⟨heven, hdig⟩
    suffices ∀ i, ∃ bytes, decodeChunks i s = .ok bytes by
      simpa [decode, heven] using this 0
    intro i
    induction i, s using decodeChunks.induct with
    | case1 i hi lo rest ih =>
      obtain ⟨vh, hvh⟩ := val_ok_of_mem (hdig hi (by simp)) (2 * i)
      obtain ⟨vl, hvl⟩ := val_ok_of_mem (hdig lo (by simp)) (2 * i + 1)
      obtain ⟨bs, hbs⟩ := ih (by simp only [List.length_cons] at heven; omega)
        (fun c hc => hdig c (by simp [hc]))
      exact ⟨_, by simp only [decodeChunks, hvh, hvl, hbs]; rfl⟩
    | case2 i c => simp at heven
    | case3 i => exact ⟨[], rfl⟩

end Hex

/-! ### `Display` and `FromStr` -/

/-- The bytes of `"0x"`. -/
def hexPrefix : List UInt8 := "0x".toList.map Char.toUInt8

/-- `Bytes32`'s `Display`: `write!(f, "0x{}", hex::encode(&self.0))`. -/
def Bytes32.fmt (b : Bytes 32) : List UInt8 := hexPrefix ++ Hex.encode b.toList

/-- `s.strip_prefix("0x").unwrap_or(s)`. -/
def stripHexPrefix (s : List UInt8) : List UInt8 :=
  if hexPrefix.isPrefixOf s then s.drop hexPrefix.length else s

/-- `Bytes32::from_str`. -/
def Bytes32.fromStr (s : List UInt8) : Except Error (Bytes 32) :=
  match Hex.decode (stripHexPrefix s) with
  | .error _ => .error (.app "Invalid hex")
  | .ok bytes => if h : bytes.length = 32 then .ok ⟨bytes, h⟩ else .error (.app "Invalid length")

/-- `Network::ethereum_mainnet`: the genesis validators root is parsed and unwrapped. -/
def Network.ethereumMainnet : Except Fault Network :=
  match Bytes32.fromStr
      ("0x4b363db94e286120d76eb905340fdd4e54bfe9f06bf33ff6cf5ad27f511bfe95".toList.map Char.toUInt8) with
  | .ok root => .ok ⟨root, 4, 1606824023⟩
  | .error _ => .error (.panic "called Result::unwrap() on an Err value")

theorem stripHexPrefix_hexPrefix_append (t : List UInt8) : stripHexPrefix (hexPrefix ++ t) = t := by
  rw [stripHexPrefix, if_pos (List.isPrefixOf_iff_prefix.2 (List.prefix_append _ _)), List.drop_left]

theorem stripHexPrefix_encode (data : List UInt8) : stripHexPrefix (Hex.encode data) = Hex.encode data := by
  cases data with
  | nil => rfl
  | cons b bs =>
    have hb : b.toNat < 256 := b.toBitVec.isLt
    have hx : Hex.hexCharsLower.getD (b.toNat % 16) 0 ≠ 0x78 := fun h =>
      absurd (h ▸ Hex.getD_hexCharsLower_mem (Nat.mod_lt _ (by omega))) (by decide)
    rw [Hex.encode_cons, stripHexPrefix, if_neg]
    rw [show hexPrefix = [0x30, 0x78] from rfl]
    simp only [List.isPrefixOf, Bool.and_true, Bool.and_eq_true, beq_iff_eq, not_and]
    exact fun _ h => hx h.symm

theorem fromStr_eq_ok_iff_decode (s : List UInt8) (b : Bytes 32) :
    Bytes32.fromStr s = .ok b ↔ Hex.decode (stripHexPrefix s) = .ok b.toList := by
  unfold Bytes32.fromStr
  split
  · rename_i e he
    simp [he]
  · rename_i bytes hb
    rw [hb]
    split_ifs with hlen
    · constructor
      · rintro ⟨⟩; rfl
      · intro h
        cases b
        cases h
        rfl
    · exact iff_of_false (fun h => nomatch h) fun h => hlen (Except.ok.inj h ▸ b.length_eq)

/-- `from_str` reads back the text `Display` writes for every `Bytes32`, and that text less its
`0x`. -/
theorem bytes32_fromStr_fmt (b : Bytes 32) :
    Bytes32.fromStr (Bytes32.fmt b) = .ok b ∧ Bytes32.fromStr (Hex.encode b.toList) = .ok b := by
  rw [fromStr_eq_ok_iff_decode, fromStr_eq_ok_iff_decode, Bytes32.fmt,
    stripHexPrefix_hexPrefix_append, stripHexPrefix_encode]
  exact ⟨Hex.decode_encode _, Hex.decode_encode _⟩

/-- `from_str` accepts `s` and returns `b` exactly when `Display` writes `b` as `s` less one leading
`0x`, behind a `0x`, with its letters in lower case. -/
theorem bytes32_fromStr_ok_iff (s : List UInt8) (b : Bytes 32) :
    Bytes32.fromStr s = .ok b ↔
      Bytes32.fmt b = hexPrefix ++ (stripHexPrefix s).map Hex.toAsciiLowercase := by
  rw [fromStr_eq_ok_iff_decode, Hex.decode_eq_ok_iff, Bytes32.fmt, List.append_cancel_left_eq]

/-- `from_str` fails with `Invalid hex` exactly when the text less one leading `0x` is not of even
length made of hex digits in either case, and with `Invalid length` exactly when it is, but not 64
digits long. -/
theorem bytes32_fromStr_error_iff (s : List UInt8) :
    (Bytes32.fromStr s = .error (.app "Invalid hex") ↔
      ¬((stripHexPrefix s).length % 2 = 0 ∧
        ∀ c ∈ stripHexPrefix s, Hex.toAsciiLowercase c ∈ Hex.hexCharsLower)) ∧
    (Bytes32.fromStr s = .error (.app "Invalid length") ↔
      ((stripHexPrefix s).length % 2 = 0 ∧
        ∀ c ∈ stripHexPrefix s, Hex.toAsciiLowercase c ∈ Hex.hexCharsLower) ∧
      (stripHexPrefix s).length ≠ 64) := by
  rw [← Hex.decode_ok_iff]
  unfold Bytes32.fromStr
  split
  · rename_i e he
    simp [he]
  · rename_i bytes hb
    have hlen := congrArg List.length ((Hex.decode_eq_ok_iff _ _).1 hb)
    simp only [Hex.length_encode, List.length_map] at hlen
    have hdec : ∃ bytes, Hex.decode (stripHexPrefix s) = .ok bytes := ⟨bytes, hb⟩
    split_ifs with h32 <;> simp [hdec] <;> omega

example : ∃ n, Network.ethereumMainnet = .ok n := ⟨_, rfl⟩

end Nomic.Ethereum
