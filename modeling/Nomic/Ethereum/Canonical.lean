import Nomic.Ethereum.Consensus

/-!
# One encoding per value

The round trips of `Consensus` read an encoding back. This module proves the other direction:
the decoders accept nothing but encodings. A decoder is `Canonical` for an encoder when every
input it accepts is the encoding of the value it returns, followed by the bytes it leaves unread.
Integers are fixed-width big-endian, byte arrays are read exactly, the `Option` tag is `0` or `1`
and nothing else, and a `LengthVec` reads exactly the count it stores; each of these primitives is
canonical, and a record decoder, which reads its fields in order, is canonical for the
concatenation of its fields' encodings.

`lightClient_decode_canonical`: every byte string `LightClient::decode` accepts is
`encode_into` of the state it returns followed by the rest, so a stored light client has exactly
one byte representation. `bootstrap_decode_canonical`: the same for `Bootstrap`, whose decoded
branch always holds as many elements as its count says.
-/

namespace Nomic.Ethereum

variable {α β : Type}

/-- `d` accepts only encodings by `enc`: whatever input it reads is `enc` of the value it returns,
followed by the rest it leaves. -/
def Canonical (d : Decoder α) (enc : α → List UInt8) : Prop :=
  ∀ s a rest, d.run s = .ok (a, rest) → s = enc a ++ rest

theorem run_bind_ok {d : Decoder α} {k : α → Decoder β} {s rest : List UInt8} {b : β}
    (h : (d >>= k).run s = .ok (b, rest)) :
    ∃ a s', d.run s = .ok (a, s') ∧ (k a).run s' = .ok (b, rest) := by
  rw [StateT.run_bind] at h
  cases hd : d.run s with
  | error e => rw [hd] at h; cases h
  | ok p => exact ⟨p.1, p.2, rfl, by rw [hd] at h; exact h⟩

theorem run_pure_ok {a b : α} {s rest : List UInt8} (h : (pure a : Decoder α).run s = .ok (b, rest)) :
    a = b ∧ s = rest := by
  cases h
  exact ⟨rfl, rfl⟩

theorem run_map_ok {f : α → β} {d : Decoder α} {s rest : List UInt8} {b : β}
    (h : (f <$> d).run s = .ok (b, rest)) : ∃ a, d.run s = .ok (a, rest) ∧ f a = b := by
  rw [StateT.run_map] at h
  cases hd : d.run s with
  | error e => rw [hd] at h; cases h
  | ok p => rw [hd] at h; cases h; exact ⟨p.1, rfl, rfl⟩

/-! ### Primitives -/

theorem readBytes_canonical (n : Nat) : Canonical (readBytes n) Bytes.toList := by
  intro s a rest h
  simp only [readBytes, StateT.run] at h
  split_ifs at h
  cases h
  exact (List.take_append_drop n s).symm

theorem decodeU8_canonical : Canonical decodeU8 fun b => [b] := by
  intro s a rest h
  cases s with
  | nil => cases h
  | cons b s => cases h; rfl

theorem beValue_lt (bs : List UInt8) : beValue bs < 256 ^ bs.length := by
  induction bs using List.reverseRecOn with
  | nil => simp [beValue]
  | append_singleton bs b ih =>
    rw [beValue_append_singleton, List.length_append, List.length_singleton, pow_succ]
    have hb : b.toNat < 256 := b.toBitVec.isLt
    omega

theorem beBytes_beValue (bs : List UInt8) : beBytes bs.length (beValue bs) = bs := by
  induction bs using List.reverseRecOn with
  | nil => rfl
  | append_singleton bs b ih =>
    have hb : b.toNat < 256 := b.toBitVec.isLt
    have hdiv : (beValue bs * 256 + b.toNat) / 256 = beValue bs := by omega
    have hmod : (beValue bs * 256 + b.toNat) % 256 = b.toNat := by omega
    rw [beValue_append_singleton, List.length_append, List.length_singleton, beBytes, hdiv, hmod,
      ih, uint8_ofNat_toNat]

theorem beBytes_beValue_bytes {n : Nat} (bs : Bytes n) :
    beBytes n (beValue bs.toList) = bs.toList ∧ beValue bs.toList < 256 ^ n := by
  have h := beBytes_beValue bs.toList
  have hlt := beValue_lt bs.toList
  rw [bs.length_eq] at h hlt
  exact ⟨h, hlt⟩

theorem decodeU64_canonical : Canonical decodeU64 encodeU64 := by
  intro s a rest h
  obtain ⟨bs, s', hb, hp⟩ := run_bind_ok h
  obtain ⟨rfl, rfl⟩ := run_pure_ok hp
  obtain ⟨hbs, hlt⟩ := beBytes_beValue_bytes bs
  rw [readBytes_canonical 8 s bs s' hb, encodeU64,
    UInt64.toNat_ofNat_of_lt (by unfold UInt64.size; omega), hbs]

theorem decodeU32_canonical : Canonical decodeU32 encodeU32 := by
  intro s a rest h
  obtain ⟨bs, s', hb, hp⟩ := run_bind_ok h
  obtain ⟨rfl, rfl⟩ := run_pure_ok hp
  obtain ⟨hbs, hlt⟩ := beBytes_beValue_bytes bs
  rw [readBytes_canonical 4 s bs s' hb, encodeU32,
    UInt32.toNat_ofNat_of_lt (by unfold UInt32.size; omega), hbs]

theorem decodeOption_canonical {dec : Decoder α} {enc : α → List UInt8}
    (hc : Canonical dec enc) : Canonical (decodeOption dec) (encodeOption enc) := by
  intro s o rest h
  obtain ⟨tag, s', ht, h⟩ := run_bind_ok h
  rw [decodeU8_canonical s tag s' ht]
  split at h
  · obtain ⟨rfl, rfl⟩ := run_pure_ok h
    rfl
  · obtain ⟨a, ha, rfl⟩ := run_map_ok h
    rw [hc s' a rest ha]
    rfl
  · cases h

theorem decodeVector_canonical {dec : Decoder α} {enc : α → List UInt8}
    (hc : Canonical dec enc) (n : Nat) :
    Canonical (decodeVector dec n) fun l => (l.1.map enc).flatten := by
  induction n with
  | zero =>
    intro s l rest h
    obtain ⟨rfl, rfl⟩ := run_pure_ok h
    rfl
  | succ n ih =>
    intro s l rest h
    obtain ⟨a, s₁, ha, h⟩ := run_bind_ok h
    obtain ⟨as, s₂, has, hp⟩ := run_bind_ok h
    obtain ⟨rfl, rfl⟩ := run_pure_ok hp
    rw [hc s a s₁ ha, ih s₁ as s₂ has]
    simp

/-- A decoded `LengthVec` is canonical, and holds as many values as its count says. -/
theorem decodeLengthVec_canonical {dec : Decoder α} {enc : α → List UInt8}
    (hc : Canonical dec enc) {s rest : List UInt8} {v : LengthVec α}
    (h : (decodeLengthVec dec).run s = .ok (v, rest)) :
    s = encodeLengthVec enc v ++ rest ∧ v.len.toNat = v.values.length := by
  obtain ⟨len, s₁, hl, h⟩ := run_bind_ok h
  obtain ⟨vs, s₂, hvs, hp⟩ := run_bind_ok h
  obtain ⟨rfl, rfl⟩ := run_pure_ok hp
  rw [decodeU8_canonical s len s₁ hl, decodeVector_canonical hc _ s₁ vs s₂ hvs]
  exact ⟨by simp [encodeLengthVec], vs.2.symm⟩

/-! ### Keys and records -/

theorem publicKey_decode_canonical : Canonical PublicKey.decode encodePublicKey := by
  intro s pk rest h
  obtain ⟨bs, s', hb, h⟩ := run_bind_ok h
  rw [readBytes_canonical 48 s bs s' hb]
  simp only [PublicKey.fromSszBytes, bs.length_eq, dite_true] at h
  obtain ⟨rfl, rfl⟩ := run_pure_ok h
  rfl

theorem header_decode_canonical : Canonical Header.decode encodeHeader := by
  intro s hd rest h
  obtain ⟨slot, s₁, h₁, h⟩ := run_bind_ok h
  obtain ⟨pi, s₂, h₂, h⟩ := run_bind_ok h
  obtain ⟨pr, s₃, h₃, h⟩ := run_bind_ok h
  obtain ⟨sr, s₄, h₄, h⟩ := run_bind_ok h
  obtain ⟨br, s₅, h₅, hp⟩ := run_bind_ok h
  obtain ⟨rfl, rfl⟩ := run_pure_ok hp
  rw [decodeU64_canonical s slot s₁ h₁, decodeU64_canonical s₁ pi s₂ h₂,
    readBytes_canonical 32 s₂ pr s₃ h₃, readBytes_canonical 32 s₃ sr s₄ h₄,
    readBytes_canonical 32 s₄ br s₅ h₅]
  simp [encodeHeader]

theorem syncCommittee_decode_canonical : Canonical SyncCommittee.decode encodeSyncCommittee := by
  intro s sc rest h
  obtain ⟨ks, s₁, h₁, h⟩ := run_bind_ok h
  obtain ⟨agg, s₂, h₂, hp⟩ := run_bind_ok h
  obtain ⟨rfl, rfl⟩ := run_pure_ok hp
  rw [decodeVector_canonical publicKey_decode_canonical 512 s ks s₁ h₁,
    publicKey_decode_canonical s₁ agg s₂ h₂]
  simp [encodeSyncCommittee]

theorem network_decode_canonical : Canonical Network.decode encodeNetwork := by
  intro s n rest h
  obtain ⟨root, s₁, h₁, h⟩ := run_bind_ok h
  obtain ⟨fork, s₂, h₂, h⟩ := run_bind_ok h
  obtain ⟨time, s₃, h₃, hp⟩ := run_bind_ok h
  obtain ⟨rfl, rfl⟩ := run_pure_ok hp
  rw [readBytes_canonical 32 s root s₁ h₁, decodeU32_canonical s₁ fork s₂ h₂,
    decodeU64_canonical s₂ time s₃ h₃]
  simp [encodeNetwork]

/-- Every byte string `LightClient::decode` accepts is `encode_into` of the state it returns,
followed by the bytes it leaves unread. -/
theorem lightClient_decode_canonical (s rest : List UInt8) (lc : LightClient)
    (h : LightClient.decode.run s = .ok (lc, rest)) : s = encodeLightClient lc ++ rest := by
  obtain ⟨fh, s₁, h₁, h⟩ := run_bind_ok h
  obtain ⟨csc, s₂, h₂, h⟩ := run_bind_ok h
  obtain ⟨nsc, s₃, h₃, h⟩ := run_bind_ok h
  obtain ⟨oh, s₄, h₄, h⟩ := run_bind_ok h
  obtain ⟨prev, s₅, h₅, h⟩ := run_bind_ok h
  obtain ⟨cur, s₆, h₆, h⟩ := run_bind_ok h
  obtain ⟨net, s₇, h₇, hp⟩ := run_bind_ok h
  obtain ⟨rfl, rfl⟩ := run_pure_ok hp
  rw [header_decode_canonical s fh s₁ h₁, syncCommittee_decode_canonical s₁ csc s₂ h₂,
    decodeOption_canonical syncCommittee_decode_canonical s₂ nsc s₃ h₃,
    header_decode_canonical s₃ oh s₄ h₄, decodeU64_canonical s₄ prev s₅ h₅,
    decodeU64_canonical s₅ cur s₆ h₆, network_decode_canonical s₆ net s₇ h₇,
    ← encodeNextSyncCommittee_eq]
  simp only [encodeLightClient, List.append_assoc]

theorem lightClient_decode_canonical_zero :
    LightClient.decode.run (encodeLightClient
        ⟨⟨Header.zero, SyncCommittee.zero, none, Header.zero, 0, 0⟩, ⟨.zero 32, 0, 0⟩⟩ ++ [7]) =
      .ok (⟨⟨Header.zero, SyncCommittee.zero, none, Header.zero, 0, 0⟩, ⟨.zero 32, 0, 0⟩⟩, [7]) ∧
    encodeLightClient ⟨⟨Header.zero, SyncCommittee.zero, none, Header.zero, 0, 0⟩, ⟨.zero 32, 0, 0⟩⟩ ++
      [7] = encodeLightClient
        ⟨⟨Header.zero, SyncCommittee.zero, none, Header.zero, 0, 0⟩, ⟨.zero 32, 0, 0⟩⟩ ++ [7] :=
  have h : ∀ sc, LightClient.decode.run (encodeLightClient
      ⟨⟨Header.zero, sc, none, Header.zero, 0, 0⟩, ⟨.zero 32, 0, 0⟩⟩ ++ [7]) =
      .ok (⟨⟨Header.zero, sc, none, Header.zero, 0, 0⟩, ⟨.zero 32, 0, 0⟩⟩, [7]) := by
    intro sc
    simp [LightClient.decode, encodeLightClient, encodeOption, decodeOption]
  ⟨h _, lightClient_decode_canonical _ _ _ (h _)⟩

/-- Every byte string `Bootstrap::decode` accepts is the encoding of the bootstrap it returns
followed by the rest, and the decoded branch holds as many elements as its count. -/
theorem bootstrap_decode_canonical (s rest : List UInt8) (b : Bootstrap)
    (h : Bootstrap.decode.run s = .ok (b, rest)) :
    s = encodeBootstrap b ++ rest ∧
      b.currentSyncCommitteeBranch.len.toNat = b.currentSyncCommitteeBranch.values.length := by
  obtain ⟨hd, s₁, h₁, h⟩ := run_bind_ok h
  obtain ⟨sc, s₂, h₂, h⟩ := run_bind_ok h
  obtain ⟨br, s₃, h₃, hp⟩ := run_bind_ok h
  obtain ⟨rfl, rfl⟩ := run_pure_ok hp
  obtain ⟨hbr, hlen⟩ := decodeLengthVec_canonical (readBytes_canonical 32) h₃
  refine ⟨?_, hlen⟩
  rw [header_decode_canonical s hd s₁ h₁, syncCommittee_decode_canonical s₁ sc s₂ h₂, hbr]
  simp [encodeBootstrap]

theorem bootstrap_decode_canonical_zero :
    Bootstrap.decode.run (encodeBootstrap ⟨Header.zero, SyncCommittee.zero, ⟨1, [.zero 32]⟩⟩ ++ [7]) =
      .ok (⟨Header.zero, SyncCommittee.zero, ⟨1, [.zero 32]⟩⟩, [7]) ∧
    (encodeBootstrap ⟨Header.zero, SyncCommittee.zero, ⟨1, [.zero 32]⟩⟩ ++ [7] =
      encodeBootstrap ⟨Header.zero, SyncCommittee.zero, ⟨1, [.zero 32]⟩⟩ ++ [7] ∧
      (1 : UInt8).toNat = [Bytes.zero 32].length) :=
  have h : ∀ sc, Bootstrap.decode.run (encodeBootstrap ⟨Header.zero, sc, ⟨1, [.zero 32]⟩⟩ ++ [7]) =
      .ok (⟨Header.zero, sc, ⟨1, [.zero 32]⟩⟩, [7]) := by
    intro sc
    simp [Bootstrap.decode, encodeBootstrap, decodeBytes32,
      decodeLengthVec_run [7] (fun bs rest => readBytes_run rest bs) ⟨1, [.zero 32]⟩ rfl]
  ⟨h _, bootstrap_decode_canonical _ _ _ (h _)⟩

end Nomic.Ethereum
