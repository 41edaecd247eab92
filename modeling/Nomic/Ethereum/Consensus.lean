import Nomic.Ethereum.Ed

/-!
# Light-client state and messages and their `ed` codecs

The types of `ethereum/consensus/mod.rs`: the beacon `Header`, the `SyncCommittee` of 512 public
keys and an aggregate key, the `SyncAggregate`, the `Bootstrap` and `Update` messages, the
`Network` and the persisted `LightClient` (the light-client store of the `helios` crate with the
network). Each newtype wrapper of the source (`Header(HeliosHeader)`, ...) is its inner record
here, and each hand-written `Encode`/`Decode` impl is a pair `encodeX`/`X.decode`; derived impls
are the concatenation of the fields.

`lightClient_decode_encode`: the state codec is a streaming round trip. The `next_sync_committee`
is written as an `Option<()>` tag followed by the committee and read back as an
`Option<SyncCommittee>`; the two agree byte for byte (`encodeNextSyncCommittee_eq`).

`syncAggregate_update_decode_fail`: `SyncAggregate::decode` reads its bitfield with `Vec::<u8>::decode`,
which in `ed` reads to the end of the input, so the signature after it never has bytes left to
read, and every `Update` (which holds a `SyncAggregate`) fails to decode.

`length_encodeLightClient`: `LightClient::encoding_length` is the number of bytes `encode_into`
writes; the fixed-size records' lengths are `@[simp]` lemmas beside it.
-/

namespace Nomic.Ethereum

/-- A BLS public key (`helios` `PublicKey`), as its 48 SSZ bytes. -/
structure PublicKey where
  inner : Bytes 48
  deriving DecidableEq, Repr

/-- A BLS signature (`helios` `Signature`), as its 96 SSZ bytes. -/
structure Signature where
  inner : Bytes 96
  deriving DecidableEq, Repr

/-- A beacon block header (`HeliosHeader`). -/
structure Header where
  slot : UInt64
  proposerIndex : UInt64
  parentRoot : Bytes 32
  stateRoot : Bytes 32
  bodyRoot : Bytes 32
  deriving DecidableEq, Repr

/-- `HeliosSyncCommittee`: `FixedVector<PublicKey, 512>` and the aggregate key. -/
structure SyncCommittee where
  pubkeys : { ks : List PublicKey // ks.length = 512 }
  aggregatePubkey : PublicKey
  deriving DecidableEq

/-- `HeliosSyncAggregate`: the `BitVector<512>` of participants, as its 64 SSZ bytes, and the
aggregate signature. -/
structure SyncAggregate where
  syncCommitteeBits : Bytes 64
  syncCommitteeSignature : Signature
  deriving DecidableEq, Repr

/-- `Bootstrap`. -/
structure Bootstrap where
  header : Header
  currentSyncCommittee : SyncCommittee
  currentSyncCommitteeBranch : LengthVec (Bytes 32)

/-- `Update`: a full update carries `next_sync_committee` and its branch, a finality update
neither. -/
structure Update where
  attestedHeader : Header
  nextSyncCommittee : Option SyncCommittee
  nextSyncCommitteeBranch : Option (LengthVec (Bytes 32))
  finalizedHeader : Header
  finalityBranch : LengthVec (Bytes 32)
  syncAggregate : SyncAggregate
  signatureSlot : UInt64

/-- `helios` `LightClientStore`. -/
structure LightClientStore where
  finalizedHeader : Header
  currentSyncCommittee : SyncCommittee
  nextSyncCommittee : Option SyncCommittee
  optimisticHeader : Header
  previousMaxActiveParticipants : UInt64
  currentMaxActiveParticipants : UInt64
  deriving DecidableEq

/-- `Network`. -/
structure Network where
  genesisValsRoot : Bytes 32
  denebForkVersion : UInt32
  genesisTime : UInt64
  deriving DecidableEq, Repr

/-- `LightClient`: the store and the network. -/
structure LightClient where
  lcs : LightClientStore
  network : Network
  deriving DecidableEq

/-- `[0u8; n]`. -/
def Bytes.zero (n : Nat) : Bytes n := ⟨List.replicate n 0, List.length_replicate n 0⟩

/-- The header whose fields are all zero. -/
def Header.zero : Header := ⟨0, 0, .zero 32, .zero 32, .zero 32⟩

/-- The committee of 512 all-zero keys. -/
def SyncCommittee.zero : SyncCommittee :=
  ⟨⟨List.replicate 512 ⟨.zero 48⟩, List.length_replicate _ _⟩, ⟨.zero 48⟩⟩

/-! ### Keys and signatures -/

/-- `HeliosPublicKey::from_ssz_bytes`: a 48-byte vector. -/
def PublicKey.fromSszBytes (bs : List UInt8) : Option PublicKey :=
  if h : bs.length = 48 then some ⟨⟨bs, h⟩⟩ else none

/-- `HeliosSignature::from_ssz_bytes`: a 96-byte vector. -/
def Signature.fromSszBytes (bs : List UInt8) : Option Signature :=
  if h : bs.length = 96 then some ⟨⟨bs, h⟩⟩ else none

/-- `Bitfield::<Fixed<U512>>::from_ssz_bytes`: exactly 64 bytes. -/
def bitvectorFromSszBytes (bs : List UInt8) : Option (Bytes 64) :=
  if h : bs.length = 64 then some ⟨bs, h⟩ else none

/-- `encode_public_key`: `pk.as_ssz_bytes().encode_into(dest)`, the bytes with no length. -/
def encodePublicKey (pk : PublicKey) : List UInt8 := pk.inner.toList

/-- `PublicKey::decode`: `read_exact` of 48 bytes, then `from_ssz_bytes`. -/
def PublicKey.decode : Decoder PublicKey := do
  let bytes ← readBytes 48
  match PublicKey.fromSszBytes bytes.toList with
  | some pk => pure pk
  | none => throw (.unexpectedByte 33)

/-- `encode_signature`. -/
def encodeSignature (sig : Signature) : List UInt8 := sig.inner.toList

/-- `Signature::decode`: `read_exact` of 96 bytes, then `from_ssz_bytes`. -/
def Signature.decode : Decoder Signature := do
  let bytes ← readBytes 96
  match Signature.fromSszBytes bytes.toList with
  | some sig => pure sig
  | none => throw (.unexpectedByte 33)

/-! ### Records -/

/-- `encode_header`. -/
def encodeHeader (h : Header) : List UInt8 :=
  encodeU64 h.slot ++ encodeU64 h.proposerIndex ++ h.parentRoot.toList ++ h.stateRoot.toList ++
    h.bodyRoot.toList

/-- `Header::decode`. -/
def Header.decode : Decoder Header := do
  let slot ← decodeU64
  let proposerIndex ← decodeU64
  let parentRoot ← readBytes 32
  let stateRoot ← readBytes 32
  let bodyRoot ← readBytes 32
  pure ⟨slot, proposerIndex, parentRoot, stateRoot, bodyRoot⟩

/-- `encode_sync_committee`: the 512 keys in order, then the aggregate key. -/
def encodeSyncCommittee (sc : SyncCommittee) : List UInt8 :=
  (sc.pubkeys.1.map encodePublicKey).flatten ++ encodePublicKey sc.aggregatePubkey

/-- `SyncCommittee::decode`: 512 keys, then the aggregate key. `FixedVector::new(pubkeys)`
cannot fail, exactly 512 keys having been read. -/
def SyncCommittee.decode : Decoder SyncCommittee := do
  let pubkeys ← decodeVector PublicKey.decode 512
  let aggregatePubkey ← PublicKey.decode
  pure ⟨pubkeys, aggregatePubkey⟩

/-- `encode_sync_aggregate`: `sync_committee_bits.as_slice()` (no length) and the signature. -/
def encodeSyncAggregate (sa : SyncAggregate) : List UInt8 :=
  sa.syncCommitteeBits.toList ++ encodeSignature sa.syncCommitteeSignature

/-- `SyncAggregate::decode`: `Vec::<u8>::decode` of the bits, `Signature::decode`, then
`Bitfield::from_ssz_bytes` of the bits. -/
def SyncAggregate.decode : Decoder SyncAggregate := do
  let syncCommitteeBits ← decodeVecU8
  let syncCommitteeSignature ← Signature.decode
  match bitvectorFromSszBytes syncCommitteeBits with
  | some bits => pure ⟨bits, syncCommitteeSignature⟩
  | none => throw (.unexpectedByte 34)

/-- A `Bytes32` (derived codec of `[u8; 32]`). -/
def decodeBytes32 : Decoder (Bytes 32) := readBytes 32

/-- The derived `Encode` of `Bootstrap`. -/
def encodeBootstrap (b : Bootstrap) : List UInt8 :=
  encodeHeader b.header ++ encodeSyncCommittee b.currentSyncCommittee ++
    encodeLengthVec Bytes.toList b.currentSyncCommitteeBranch

/-- The derived `Decode` of `Bootstrap`. -/
def Bootstrap.decode : Decoder Bootstrap := do
  let header ← Header.decode
  let currentSyncCommittee ← SyncCommittee.decode
  let currentSyncCommitteeBranch ← decodeLengthVec decodeBytes32
  pure ⟨header, currentSyncCommittee, currentSyncCommitteeBranch⟩

/-- The derived `Encode` of `Update`. -/
def encodeUpdate (u : Update) : List UInt8 :=
  encodeHeader u.attestedHeader ++ encodeOption encodeSyncCommittee u.nextSyncCommittee ++
    encodeOption (encodeLengthVec Bytes.toList) u.nextSyncCommitteeBranch ++
    encodeHeader u.finalizedHeader ++ encodeLengthVec Bytes.toList u.finalityBranch ++
    encodeSyncAggregate u.syncAggregate ++ encodeU64 u.signatureSlot

/-- The derived `Decode` of `Update`. -/
def Update.decode : Decoder Update := do
  let attestedHeader ← Header.decode
  let nextSyncCommittee ← decodeOption SyncCommittee.decode
  let nextSyncCommitteeBranch ← decodeOption (decodeLengthVec decodeBytes32)
  let finalizedHeader ← Header.decode
  let finalityBranch ← decodeLengthVec decodeBytes32
  let syncAggregate ← SyncAggregate.decode
  let signatureSlot ← decodeU64
  pure ⟨attestedHeader, nextSyncCommittee, nextSyncCommitteeBranch, finalizedHeader,
    finalityBranch, syncAggregate, signatureSlot⟩

/-- The derived `Encode` of `Network`. -/
def encodeNetwork (n : Network) : List UInt8 :=
  n.genesisValsRoot.toList ++ encodeU32 n.denebForkVersion ++ encodeU64 n.genesisTime

/-- The derived `Decode` of `Network`. -/
def Network.decode : Decoder Network := do
  let genesisValsRoot ← decodeBytes32
  let denebForkVersion ← decodeU32
  let genesisTime ← decodeU64
  pure ⟨genesisValsRoot, denebForkVersion, genesisTime⟩

/-- `LightClient::encode_into`: the `next_sync_committee` as an `Option<()>` tag, then the
committee when present. -/
def encodeLightClient (lc : LightClient) : List UInt8 :=
  encodeHeader lc.lcs.finalizedHeader ++ encodeSyncCommittee lc.lcs.currentSyncCommittee ++
    encodeOption (fun _ : Unit => []) (lc.lcs.nextSyncCommittee.map fun _ => ()) ++
    (match lc.lcs.nextSyncCommittee with
      | some sc => encodeSyncCommittee sc
      | none => []) ++
    encodeHeader lc.lcs.optimisticHeader ++ encodeU64 lc.lcs.previousMaxActiveParticipants ++
    encodeU64 lc.lcs.currentMaxActiveParticipants ++ encodeNetwork lc.network

/-- `LightClient::decode`. -/
def LightClient.decode : Decoder LightClient := do
  let finalizedHeader ← Header.decode
  let currentSyncCommittee ← SyncCommittee.decode
  let nextSyncCommittee ← decodeOption SyncCommittee.decode
  let optimisticHeader ← Header.decode
  let previousMaxActiveParticipants ← decodeU64
  let currentMaxActiveParticipants ← decodeU64
  let network ← Network.decode
  pure ⟨⟨finalizedHeader, currentSyncCommittee, nextSyncCommittee, optimisticHeader,
    previousMaxActiveParticipants, currentMaxActiveParticipants⟩, network⟩

/-! ### Round trips -/

section RoundTrip

variable (rest : List UInt8)

@[simp] theorem publicKey_decode_run (pk : PublicKey) :
    PublicKey.decode.run (encodePublicKey pk ++ rest) = .ok (pk, rest) := by
  obtain ⟨⟨bs, hbs⟩⟩ := pk
  have h := readBytes_run rest ⟨bs, hbs⟩
  simp [PublicKey.decode, encodePublicKey, h, PublicKey.fromSszBytes, hbs]

@[simp] theorem signature_decode_run (sig : Signature) :
    Signature.decode.run (encodeSignature sig ++ rest) = .ok (sig, rest) := by
  obtain ⟨⟨bs, hbs⟩⟩ := sig
  have h := readBytes_run rest ⟨bs, hbs⟩
  simp [Signature.decode, encodeSignature, h, Signature.fromSszBytes, hbs]

@[simp] theorem header_decode_run (h : Header) :
    Header.decode.run (encodeHeader h ++ rest) = .ok (h, rest) := by
  simp [Header.decode, encodeHeader]

@[simp] theorem syncCommittee_decode_run (sc : SyncCommittee) :
    SyncCommittee.decode.run (encodeSyncCommittee sc ++ rest) = .ok (sc, rest) := by
  obtain ⟨⟨ks, hks⟩, agg⟩ := sc
  simp [SyncCommittee.decode, encodeSyncCommittee,
    decodeVector_run _ (fun pk rest => publicKey_decode_run rest pk) ks hks]

@[simp] theorem network_decode_run (n : Network) :
    Network.decode.run (encodeNetwork n ++ rest) = .ok (n, rest) := by
  simp [Network.decode, encodeNetwork, decodeBytes32]

theorem encodeNextSyncCommittee_eq (o : Option SyncCommittee) :
    encodeOption (fun _ : Unit => []) (o.map fun _ => ()) ++
      (match o with
        | some sc => encodeSyncCommittee sc
        | none => []) = encodeOption encodeSyncCommittee o := by
  cases o <;> rfl

/-- The light-client state codec is a streaming round trip. -/
theorem lightClient_decode_encode (lc : LightClient) :
    LightClient.decode.run (encodeLightClient lc ++ rest) = .ok (lc, rest) := by
  have hnext := decodeOption_run
    (encodeHeader lc.lcs.optimisticHeader ++ encodeU64 lc.lcs.previousMaxActiveParticipants ++
      encodeU64 lc.lcs.currentMaxActiveParticipants ++ encodeNetwork lc.network ++ rest)
    (fun sc rest => syncCommittee_decode_run rest sc) lc.lcs.nextSyncCommittee
  simp only [encodeLightClient, List.append_assoc] at hnext ⊢
  rw [← List.append_assoc _ (match lc.lcs.nextSyncCommittee with
      | some sc => encodeSyncCommittee sc
      | none => []), encodeNextSyncCommittee_eq]
  simp [LightClient.decode, hnext]

/-- `Bootstrap`'s derived codec is a streaming round trip when its branch's count is its length. -/
theorem bootstrap_decode_encode (b : Bootstrap)
    (hb : b.currentSyncCommitteeBranch.len.toNat = b.currentSyncCommitteeBranch.values.length) :
    Bootstrap.decode.run (encodeBootstrap b ++ rest) = .ok (b, rest) := by
  simp [Bootstrap.decode, encodeBootstrap, decodeBytes32,
    decodeLengthVec_run rest (fun bs rest => readBytes_run rest bs) _ hb]

end RoundTrip

theorem bootstrap_decode_encode_zero :
    (⟨Header.zero, SyncCommittee.zero, ⟨1, [.zero 32]⟩⟩ : Bootstrap).currentSyncCommitteeBranch.len.toNat =
      (⟨Header.zero, SyncCommittee.zero, ⟨1, [.zero 32]⟩⟩ : Bootstrap).currentSyncCommitteeBranch.values.length ∧
    Bootstrap.decode.run (encodeBootstrap ⟨Header.zero, SyncCommittee.zero, ⟨1, [.zero 32]⟩⟩ ++ [7]) =
      .ok (⟨Header.zero, SyncCommittee.zero, ⟨1, [.zero 32]⟩⟩, [7]) :=
  ⟨rfl, bootstrap_decode_encode [7] _ rfl⟩

/-! ### Encoding lengths

`Encode::encoding_length` announces the number of bytes `encode_into` writes, and `ed` sizes its
buffers with it. The hand-written ones of `mod.rs` always return `Ok`: constants for the
fixed-size records, and for `LightClient` the sum of its fields', counting `next_sync_committee`
as an `Option<SyncCommittee>` where `encode_into` writes an `Option<()>` tag and the committee. -/

/-- `PublicKey::encoding_length`: `ssz_bytes_len()`, 48 for a BLS public key. -/
def PublicKey.encodingLength (_ : PublicKey) : Nat := 48

/-- `Signature::encoding_length`: `ssz_bytes_len()`, 96 for a BLS signature. -/
def Signature.encodingLength (_ : Signature) : Nat := 96

/-- `Header::encoding_length`. -/
def Header.encodingLength (_ : Header) : Nat := 8 + 8 + 32 + 32 + 32

/-- `SyncCommittee::encoding_length`. -/
def SyncCommittee.encodingLength (_ : SyncCommittee) : Nat := 512 * 48 + 48

/-- `SyncAggregate::encoding_length`. -/
def SyncAggregate.encodingLength (_ : SyncAggregate) : Nat := 64 + 96

/-- `u64::encoding_length` of `ed`. -/
def encodingLengthU64 (_ : UInt64) : Nat := 8

/-- `Option<T>::encoding_length` of `ed`: the tag, then the value's. -/
def optionEncodingLength {α : Type} (len : α → Nat) : Option α → Nat
  | none => 1
  | some a => 1 + len a

/-- The derived `Network::encoding_length`: `Bytes32`, `u32`, `u64`. -/
def Network.encodingLength (_ : Network) : Nat := 32 + 4 + 8

/-- `LightClient::encoding_length`. -/
def LightClient.encodingLength (lc : LightClient) : Nat :=
  Header.encodingLength lc.lcs.finalizedHeader +
    SyncCommittee.encodingLength lc.lcs.currentSyncCommittee +
    optionEncodingLength SyncCommittee.encodingLength lc.lcs.nextSyncCommittee +
    Header.encodingLength lc.lcs.optimisticHeader +
    encodingLengthU64 lc.lcs.previousMaxActiveParticipants +
    encodingLengthU64 lc.lcs.currentMaxActiveParticipants + Network.encodingLength lc.network

@[simp] theorem length_encodePublicKey (pk : PublicKey) : (encodePublicKey pk).length = 48 :=
  pk.inner.length_eq

@[simp] theorem length_encodeHeader (h : Header) : (encodeHeader h).length = 112 := by
  simp [encodeHeader, encodeU64, Bytes.length_eq]

@[simp] theorem length_encodeSyncCommittee (sc : SyncCommittee) :
    (encodeSyncCommittee sc).length = 512 * 48 + 48 := by
  obtain ⟨⟨ks, hks⟩, agg⟩ := sc
  have hkeys : ∀ ks : List PublicKey, ((ks.map encodePublicKey).flatten).length = ks.length * 48 := by
    intro ks
    induction ks with
    | nil => rfl
    | cons k ks ih => simp [ih, Nat.succ_mul, Nat.add_comm]
  simp [encodeSyncCommittee, hkeys, hks]

/-- `LightClient::encoding_length` is the number of bytes `encode_into` writes: the tag and the
committee, written apart, count as one `Option<SyncCommittee>`. -/
theorem length_encodeLightClient (lc : LightClient) :
    (encodeLightClient lc).length = lc.encodingLength := by
  have hnext : (encodeOption (fun _ : Unit => []) (lc.lcs.nextSyncCommittee.map fun _ => ())).length +
      (match lc.lcs.nextSyncCommittee with
        | some sc => encodeSyncCommittee sc
        | none => []).length =
      optionEncodingLength SyncCommittee.encodingLength lc.lcs.nextSyncCommittee := by
    rw [← List.length_append, encodeNextSyncCommittee_eq]
    cases lc.lcs.nextSyncCommittee <;>
      simp [encodeOption, optionEncodingLength, SyncCommittee.encodingLength, Nat.add_comm]
  simp only [encodeLightClient, List.length_append, length_encodeHeader, length_encodeSyncCommittee,
    encodeU64, encodeNetwork, encodeU32, length_beBytes, Bytes.length_eq]
  simp only [LightClient.encodingLength, Header.encodingLength, SyncCommittee.encodingLength,
    encodingLengthU64, Network.encodingLength] at hnext ⊢
  omega

/-! ### `SyncAggregate` and `Update` do not decode -/

/-- `d` fails on every input. -/
def Fails {α : Type} (d : Decoder α) : Prop := ∀ s, ∃ e, d.run s = .error e

theorem Fails.bind {α β : Type} {d : Decoder α} (hd : Fails d) (k : α → Decoder β) :
    Fails (d >>= k) := fun s => by
  obtain ⟨e, he⟩ := hd s
  exact ⟨e, by simp [he]⟩

theorem fails_bind_of_forall {α β : Type} {d : Decoder α} {k : α → Decoder β}
    (hk : ∀ a, Fails (k a)) : Fails (d >>= k) := fun s => by
  rw [StateT.run_bind]
  cases hd : d.run s with
  | error e => exact ⟨e, rfl⟩
  | ok p => exact hk p.1 p.2

theorem syncAggregate_decode_eof (s : List UInt8) :
    SyncAggregate.decode.run s = .error .unexpectedEof := by
  simp [SyncAggregate.decode, Signature.decode, readBytes_run_of_lt]

theorem update_decode_fails : Fails Update.decode := by
  unfold Update.decode
  exact fails_bind_of_forall fun _ => fails_bind_of_forall fun _ => fails_bind_of_forall fun _ =>
    fails_bind_of_forall fun _ => fails_bind_of_forall fun _ =>
      Fails.bind (fun s => ⟨_, syncAggregate_decode_eof s⟩) _

/-- No `SyncAggregate` and no `Update` reads back from its encoding, whatever follows it. -/
theorem syncAggregate_update_decode_fail :
    (∀ sa rest, SyncAggregate.decode.run (encodeSyncAggregate sa ++ rest) = .error .unexpectedEof) ∧
    (∀ u rest, ∃ e, Update.decode.run (encodeUpdate u ++ rest) = .error e) :=
  ⟨fun _ _ => syncAggregate_decode_eof _, fun _ _ => update_decode_fails _⟩

end Nomic.Ethereum
