import Nomic.Basic
import Nomic.Ethereum.Consensus

/-!
# `LightClient::new` and `LightClient::update`

The light client verifies a bootstrap or an update with the `helios` verifier and then applies
it; the verifier and the transitions are library code, taken as parameters (`HeliosApi`). What
the relayer code does around them is modelled as written: the expected slot
`(now_seconds - genesis_time) / 12`, the fork version from the network, the choice between a full
update (`next_sync_committee` present) and a finality update, and the conversions
`TryFrom<Update> for HeliosUpdate` and `From<Update> for HeliosFinalityUpdate`.

`update` returns the `Result` and the state after the call (it takes `&mut self`). The `u64`
subtraction panics on underflow in a build with overflow checks and wraps in one without
(`overflowChecks`).

`update_panics_of_branch_none`: a full update without its `next_sync_committee_branch` makes
`try_into()` return `Err`, and `update` panics in `unwrap`.
-/

namespace Nomic.Ethereum

/-- `helios` `Update`: the committee and its branch are required. -/
structure HeliosUpdate where
  attestedHeader : Header
  nextSyncCommittee : SyncCommittee
  nextSyncCommitteeBranch : List (Bytes 32)
  finalizedHeader : Header
  finalityBranch : List (Bytes 32)
  syncAggregate : SyncAggregate
  signatureSlot : UInt64

/-- `helios` `FinalityUpdate`. -/
structure HeliosFinalityUpdate where
  attestedHeader : Header
  finalizedHeader : Header
  finalityBranch : List (Bytes 32)
  syncAggregate : SyncAggregate
  signatureSlot : UInt64

/-- `helios` `Bootstrap`. -/
structure HeliosBootstrap where
  header : Header
  currentSyncCommittee : SyncCommittee
  currentSyncCommitteeBranch : List (Bytes 32)

/-- `Forks::default()` with `deneb.fork_version` set; the light client sets no other field. -/
structure Forks where
  denebForkVersion : Bytes 4

/-- The `helios` verifier and transitions the light client calls. -/
structure HeliosApi where
  verifyBootstrap : HeliosBootstrap → Bytes 32 → Except String Unit
  applyBootstrap : LightClientStore → HeliosBootstrap → LightClientStore
  treeHashRoot : Header → Bytes 32
  verifyUpdate : HeliosUpdate → UInt64 → LightClientStore → Bytes 32 → Forks → Except String Unit
  applyUpdate : LightClientStore → HeliosUpdate → LightClientStore
  verifyFinalityUpdate : HeliosFinalityUpdate → UInt64 → LightClientStore → Bytes 32 → Forks →
    Except String Unit
  applyFinalityUpdate : LightClientStore → HeliosFinalityUpdate → LightClientStore

/-- `TryFrom<Update> for HeliosUpdate`. -/
def HeliosUpdate.tryFrom (u : Update) : Except Error HeliosUpdate := do
  let nextSyncCommittee ← match u.nextSyncCommittee with
    | some sc => pure sc
    | none => throw (.app "next_sync_committee is required")
  let nextSyncCommitteeBranch ← match u.nextSyncCommitteeBranch with
    | some branch => pure branch.values
    | none => throw (.app "next_sync_committee_branch is required")
  pure ⟨u.attestedHeader, nextSyncCommittee, nextSyncCommitteeBranch, u.finalizedHeader,
    u.finalityBranch.values, u.syncAggregate, u.signatureSlot⟩

/-- `From<Update> for HeliosFinalityUpdate`. -/
def HeliosFinalityUpdate.ofUpdate (u : Update) : HeliosFinalityUpdate :=
  ⟨u.attestedHeader, u.finalizedHeader, u.finalityBranch.values, u.syncAggregate, u.signatureSlot⟩

/-- `From<Bootstrap> for HeliosBootstrap`. -/
def HeliosBootstrap.ofBootstrap (b : Bootstrap) : HeliosBootstrap :=
  ⟨b.header, b.currentSyncCommittee, b.currentSyncCommitteeBranch.values⟩

/-- `u64` subtraction: a panic on underflow with overflow checks, wrapping without. -/
def subU64 (overflowChecks : Bool) (a b : UInt64) : Except Fault UInt64 :=
  if b ≤ a ∨ !overflowChecks then .ok (a - b) else .error (.panic "attempt to subtract with overflow")

/-- `u32::to_le_bytes`. -/
def leBytes (x : UInt32) : Bytes 4 := ⟨(beBytes 4 x.toNat).reverse, by simp⟩

variable (helios : HeliosApi)

namespace LightClient

/-- `LightClient::new`: verify the bootstrap against its header's root, then apply it to the
default store `store₀` (`LightClientStore::default()`). -/
def new (store₀ : LightClientStore) (bootstrap : Bootstrap) (network : Network) :
    Except Error LightClient :=
  let b := HeliosBootstrap.ofBootstrap bootstrap
  match helios.verifyBootstrap b (helios.treeHashRoot b.header) with
  | .error msg => .error (.app ("Invalid bootstrap: " ++ msg))
  | .ok () => .ok ⟨helios.applyBootstrap store₀ b, network⟩

/-- `slot()`. -/
def slot (lc : LightClient) : UInt64 := lc.lcs.finalizedHeader.slot

/-- `state_root()`. -/
def stateRoot (lc : LightClient) : Bytes 32 := lc.lcs.finalizedHeader.stateRoot

/-- `update(update, now_seconds)`: the result and the state after the call. -/
def update (overflowChecks : Bool) (lc : LightClient) (u : Update) (nowSeconds : UInt64) :
    Except Fault Unit × LightClient :=
  match subU64 overflowChecks nowSeconds lc.network.genesisTime with
  | .error f => (.error f, lc)
  | .ok elapsed =>
    let expectedSlot := elapsed / 12
    let forks : Forks := ⟨leBytes lc.network.denebForkVersion⟩
    let genesisRoot := lc.network.genesisValsRoot
    if u.nextSyncCommittee.isSome then
      match HeliosUpdate.tryFrom u with
      | .error _ => (.error (.panic "called Result::unwrap() on an Err value"), lc)
      | .ok hu =>
        match helios.verifyUpdate hu expectedSlot lc.lcs genesisRoot forks with
        | .error msg => (.error (.err (.app ("Invalid update: " ++ msg))), lc)
        | .ok () => (.ok (), { lc with lcs := helios.applyUpdate lc.lcs hu })
    else
      let hu := HeliosFinalityUpdate.ofUpdate u
      match helios.verifyFinalityUpdate hu expectedSlot lc.lcs genesisRoot forks with
      | .error msg => (.error (.err (.app ("Invalid update: " ++ msg))), lc)
      | .ok () => (.ok (), { lc with lcs := helios.applyFinalityUpdate lc.lcs hu })

variable {helios}

/-- A full update without its committee branch makes `update` panic in `try_into().unwrap()`,
at every state and time, with or without overflow checks. -/
theorem update_panics_of_branch_none (overflowChecks : Bool) (lc : LightClient)
    (attested finalized : Header) (sc : SyncCommittee) (finalityBranch : LengthVec (Bytes 32))
    (aggregate : SyncAggregate) (signatureSlot nowSeconds : UInt64) :
    ∃ msg, (lc.update helios overflowChecks
      ⟨attested, some sc, none, finalized, finalityBranch, aggregate, signatureSlot⟩
        nowSeconds).1 = .error (.panic msg) := by
  have htry : HeliosUpdate.tryFrom
      ⟨attested, some sc, none, finalized, finalityBranch, aggregate, signatureSlot⟩ =
        .error (.app "next_sync_committee_branch is required") := rfl
  unfold update
  split
  · rename_i f hf
    simp only [subU64] at hf
    split at hf
    · cases hf
    · cases hf; exact ⟨_, rfl⟩
  · simp [htry]

end LightClient

end Nomic.Ethereum
