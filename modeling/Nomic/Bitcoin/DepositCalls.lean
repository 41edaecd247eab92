import Nomic.Bitcoin.CheckpointRelay
import Nomic.Bitcoin.DepositScan

/-!
# The deposit calls of a scan

`scan_for_deposits` calls `maybe_relay_deposit(..).await?` for each watched output of its window,
oldest block first, so the first `Err` ends the scan. `maybe_relay_deposit` asks the sidechain
whether the output's outpoint is processed and returns if it is; else it fetches from the full
node the merkle proof of the transaction in its block, and calls `relay_deposit` with the
transaction, the height, the proof, and the output's `vout`, `sigset_index` and destination. A
rejection of the deposit as below the minimum, or as too small to pay its spending fee, counts as
success. The model takes what the sidechain and the node answer as a `DepositWorld`, and returns
with the result the `relay_deposit` call made, if any. The transaction's consensus re-encoding
and the `println!` after the call are left out (`vout_lt_of_mem_blockDeposits`: the output the
`println!` indexes is always one of the transaction's).

* `scanForDeposits_stops_at_error`: a scan of a window within the chain makes the window's calls
  in order up to the first that fails, that one included, and no later one, and returns its
  error; when none fails, it makes them all and returns `Ok(tip)`.
* `scanForDeposits_relays_unprocessed`: when every query is answered and `relay_deposit` rejects
  nothing but dust, a scan returns `Ok(tip)`, and the deposits it relays are exactly the watched
  outputs of its window whose outpoint is not processed, each at its block's height with the proof
  for its block.
-/

namespace Nomic.Bitcoin

/-! ### A loop of `?` -/

section FirstError

variable {α : Type} (relay : α → Except Error Unit)

/-- `made` is what a loop of `relay(c)?` over `cs` calls, and `r` how it ends: every call and
`Ok` when none fails, else the calls up to the first that fails, that one included, and its
error. -/
def StopsAtFirstError (cs made : List α) (r : Except Error Unit) : Prop :=
  ((∀ c ∈ cs, relay c = .ok ()) ∧ made = cs ∧ r = .ok ()) ∨
    ∃ pre c post e, cs = pre ++ c :: post ∧ (∀ x ∈ pre, relay x = .ok ()) ∧ relay c = .error e ∧
      made = pre ++ [c] ∧ r = .error e

variable {relay}

theorem StopsAtFirstError.nil : StopsAtFirstError relay [] [] (.ok ()) :=
  .inl ⟨fun _ h => absurd h (List.not_mem_nil _), rfl, rfl⟩

theorem StopsAtFirstError.head_error {c : α} {e : Error} (hc : relay c = .error e) (cs : List α) :
    StopsAtFirstError relay (c :: cs) [c] (.error e) :=
  .inr ⟨[], c, cs, e, rfl, fun _ h => absurd h (List.not_mem_nil _), hc, rfl, rfl⟩

theorem StopsAtFirstError.append_left {cs₁ cs₂ made : List α} {r : Except Error Unit}
    (h₁ : ∀ c ∈ cs₁, relay c = .ok ()) (h₂ : StopsAtFirstError relay cs₂ made r) :
    StopsAtFirstError relay (cs₁ ++ cs₂) (cs₁ ++ made) r := by
  rcases h₂ with ⟨hall, rfl, rfl⟩ | ⟨pre, c, post, e, rfl, hpre, hc, rfl, rfl⟩
  · exact .inl ⟨fun c hc => (List.mem_append.1 hc).elim (h₁ c) (hall c), rfl, rfl⟩
  · exact .inr ⟨cs₁ ++ pre, c, post, e, by simp, fun x hx => (List.mem_append.1 hx).elim (h₁ x) (hpre x),
      hc, by simp, rfl⟩

theorem StopsAtFirstError.append_of_error {cs made : List α} {e : Error}
    (h : StopsAtFirstError relay cs made (.error e)) (cs₂ : List α) :
    StopsAtFirstError relay (cs ++ cs₂) made (.error e) := by
  rcases h with ⟨-, -, h⟩ | ⟨pre, c, post, e', rfl, hpre, hc, rfl, he⟩
  · cases h
  · exact .inr ⟨pre, c, post ++ cs₂, e', by simp, hpre, hc, rfl, he⟩

theorem StopsAtFirstError.of_ok {cs made : List α} (h : StopsAtFirstError relay cs made (.ok ())) :
    (∀ c ∈ cs, relay c = .ok ()) ∧ made = cs := by
  rcases h with ⟨hall, hm, -⟩ | ⟨_, _, _, _, _, _, _, _, ⟨⟩⟩
  exact ⟨hall, hm⟩

theorem StopsAtFirstError.subset {cs made : List α} {r : Except Error Unit}
    (h : StopsAtFirstError relay cs made r) : ∀ c ∈ made, c ∈ cs := by
  rcases h with ⟨-, rfl, -⟩ | ⟨pre, c, post, e, rfl, -, -, rfl, -⟩
  · exact fun _ => id
  · intro x hx
    simp only [List.mem_append, List.mem_singleton, List.mem_cons] at hx ⊢
    tauto

end FirstError

/-! ### The scan's loops -/

section Loops

variable {Hash Sigset Address Script : Type}
  (relay : DepositCall Hash Address Script → Except Error Unit)

theorem relayEach_stops (cs : List (DepositCall Hash Address Script)) :
    StopsAtFirstError relay cs (relayEach relay cs).1 (relayEach relay cs).2 := by
  induction cs with
  | nil => exact .nil
  | cons c cs ih =>
    rcases hc : relay c with e | ⟨⟩
    · simp only [relayEach, hc]
      exact .head_error hc cs
    · simp only [relayEach, hc]
      exact StopsAtFirstError.append_left (fun x hx => List.mem_singleton.1 hx ▸ hc) ih

theorem BlockTree.length_segment_le (t : BlockTree Hash (Transaction Script)) (k : Nat) :
    ∀ h, (t.segment h k).length ≤ k := by
  induction k with
  | zero => exact fun _ => le_refl _
  | succ k ih =>
    intro h
    unfold BlockTree.segment
    split
    · exact Nat.zero_le _
    · exact Nat.succ_le_succ (ih _)

variable [DecidableEq Script] (index : WatchedScripts Sigset Address Script)

theorem scanBlocks_stops (overflowChecks : Bool) (baseHeight : Nat)
    (bs : List (Nat × Block Hash (Transaction Script))) (hle : ∀ p ∈ bs, p.1 ≤ baseHeight) :
    ∃ r, StopsAtFirstError relay ((bs.map fun p => blockDeposits index p.2 (baseHeight - p.1)).flatten)
        (scanBlocks index relay overflowChecks baseHeight bs).1.calls r ∧
      (scanBlocks index relay overflowChecks baseHeight bs).2 = r.mapError Fault.err := by
  induction bs with
  | nil => exact ⟨.ok (), .nil, rfl⟩
  | cons p bs ih =>
    obtain ⟨i, b⟩ := p
    have hrel := relayEach_stops relay (blockDeposits index b (baseHeight - i))
    obtain ⟨r, hr, hres⟩ := ih fun q hq => hle q (List.mem_cons_of_mem _ hq)
    simp only [scanBlocks, subUsize_of_le (hle _ (List.mem_cons_self _ _)), List.map_cons,
      List.flatten_cons]
    rcases hcalls : relayEach relay (blockDeposits index b (baseHeight - i)) with ⟨made, e | ⟨⟩⟩
    · -- a call of this block fails: the scan ends here
      rw [hcalls] at hrel
      exact ⟨.error e, hrel.append_of_error _, rfl⟩
    · -- every call of this block succeeds: the scan goes on with the next block
      rw [hcalls] at hrel
      obtain ⟨hall, rfl⟩ := hrel.of_ok
      exact ⟨r, hr.append_left hall, hres⟩

/-- The calls a scan of the last `k` blocks of `tip`'s chain asks for, oldest block first: one per
watched output, with its block's height and hash. -/
def windowCalls (t : BlockTree Hash (Transaction Script)) (tip : Hash) (k : Nat) :
    List (DepositCall Hash Address Script) :=
  ((t.segment tip k).reverse.map fun e => blockDeposits index (ChainNode.toBlock e) e.2.height).flatten

variable [DecidableEq Hash] {t : BlockTree Hash (Transaction Script)}

theorem scanForDeposits_window (ht : t.WF) (overflowChecks : Bool) {tip : Hash}
    {n : ChainNode Hash (Transaction Script)} (hn : t.node tip = some n) (k : Nat)
    (hk : k ≤ n.height + 1) :
    ∃ r, StopsAtFirstError relay (windowCalls index t tip k)
        (scanForDeposits index relay overflowChecks t tip k).1.calls r ∧
      (scanForDeposits index relay overflowChecks t tip k).2 = (r.mapError Fault.err).map fun _ => tip := by
  obtain ⟨info, hinfo, -, hheight, -⟩ := BlockTree.headerInfo_of_node hn
  -- the window's blocks, numbered from the tip, each within the tip's height
  have hle : ∀ p ∈ (((t.segment tip k).map ChainNode.toBlock).enum).reverse, p.1 ≤ info.height :=
    fun p hp => by
      have := List.fst_lt_of_mem_enum (List.mem_reverse.1 hp)
      have := BlockTree.length_segment_le t k tip
      rw [List.length_map] at *
      omega
  have hseg : ((((t.segment tip k).map ChainNode.toBlock).enum).reverse.map
      (fun p => blockDeposits index p.2 (info.height - p.1))).flatten = windowCalls index t tip k := by
    rw [hheight, windowCalls]
    congr 1
    simpa [List.enum] using segment_deposits ht k tip n 0 hn hk
  obtain ⟨r, hr, hres⟩ := scanBlocks_stops relay index overflowChecks info.height _ hle
  rw [hseg] at hr
  simp only [scanForDeposits, hinfo, ht.lastNBlocks_eq k tip n hn hk]
  rcases hs : scanBlocks index relay overflowChecks info.height
    (((t.segment tip k).map ChainNode.toBlock).enum).reverse with ⟨trace, res⟩
  rw [hs] at hr hres
  dsimp only at hr hres
  subst hres
  rcases r with e | ⟨⟩
  · exact ⟨.error e, hr, rfl⟩
  · exact ⟨.ok (), hr, rfl⟩

/-- On a well-formed tree, a scan of at most the tip's height plus one blocks makes the window's
calls in order up to the first that fails, that one included, and no later one, and returns that
call's error; when none fails, it makes them all and returns `Ok(tip)`. -/
theorem scanForDeposits_stops_at_error (ht : t.WF) (overflowChecks : Bool) {tip : Hash}
    {n : ChainNode Hash (Transaction Script)} (hn : t.node tip = some n) (k : Nat)
    (hk : k ≤ n.height + 1) :
    ((∀ c ∈ windowCalls index t tip k, relay c = .ok ()) ∧
        (scanForDeposits index relay overflowChecks t tip k).1.calls = windowCalls index t tip k ∧
        (scanForDeposits index relay overflowChecks t tip k).2 = .ok tip) ∨
      ∃ pre c post e, windowCalls index t tip k = pre ++ c :: post ∧
        (∀ x ∈ pre, relay x = .ok ()) ∧ relay c = .error e ∧
        (scanForDeposits index relay overflowChecks t tip k).1.calls = pre ++ [c] ∧
        (scanForDeposits index relay overflowChecks t tip k).2 = .error (.err e) := by
  obtain ⟨r, hr, hres⟩ := scanForDeposits_window relay index ht overflowChecks hn k hk
  rcases hr with ⟨hall, hm, rfl⟩ | ⟨pre, c, post, e, hcs, hpre, hc, hm, rfl⟩
  · exact .inl ⟨hall, hm, hres⟩
  · exact .inr ⟨pre, c, post, e, hcs, hpre, hc, hm, hres⟩

end Loops

/-! ### `maybe_relay_deposit` -/

section MaybeRelay

variable {Hash Sigset Address Script Txid Proof : Type}

/-- The call `relay_deposit(tx, height, proof, vout, sigset_index, dest)` to the sidechain. -/
structure RelayDeposit (Address Script Proof : Type) where
  tx : Transaction Script
  height : UInt32
  proof : Proof
  vout : UInt32
  sigsetIndex : UInt32
  dest : Address

/-- What `maybe_relay_deposit` is answered: `tx.txid()`, `processed_outpoints.contains(outpoint)`
(outer: the transport; inner: the query), `get_tx_out_proof(&[txid], Some(block_hash))` with
`MerkleBlock::consensus_decode` of its bytes, and `relay_deposit`, by the text of its error. -/
structure DepositWorld (Hash Address Script Txid Proof : Type) where
  txid : Transaction Script → Txid
  processed : Txid × UInt32 → Except Error (Except Error Bool)
  txOutProof : Txid → Hash → Except Error Proof
  relayDeposit : RelayDeposit Address Script Proof → Except String Unit

/-- The two rejections of `relay_deposit` that `maybe_relay_deposit` takes as success. -/
def isDustError (err : String) : Bool :=
  strContains err "Deposit amount is below minimum" ||
    strContains err "Deposit amount is too small to pay its spending fee"

/-- `maybe_relay_deposit(tx, height, block_hash, output)`: its result, and the `relay_deposit`
call it made, if any. -/
def maybeRelayDeposit (w : DepositWorld Hash Address Script Txid Proof)
    (c : DepositCall Hash Address Script) :
    Except Error Unit × Option (RelayDeposit Address Script Proof) :=
  match w.processed (w.txid c.tx, c.output.vout) with
  | .error e => (.error e, none)
  | .ok (.error e) => (.error e, none)
  | .ok (.ok true) => (.ok (), none)
  | .ok (.ok false) =>
    match w.txOutProof (w.txid c.tx) c.blockHash with
    | .error e => (.error e, none)
    | .ok proof =>
      let call : RelayDeposit Address Script Proof :=
        ⟨c.tx, c.height, proof, c.output.vout, c.output.sigsetIndex, c.output.dest⟩
      match w.relayDeposit call with
      | .ok () => (.ok (), some call)
      | .error err => (if isDustError err then .ok () else .error (.rpc err), some call)

variable (w : DepositWorld Hash Address Script Txid Proof)

theorem maybeRelayDeposit_eq_some_iff (c : DepositCall Hash Address Script)
    (d : RelayDeposit Address Script Proof) :
    (maybeRelayDeposit w c).2 = some d ↔ w.processed (w.txid c.tx, c.output.vout) = .ok (.ok false) ∧
      ∃ proof, w.txOutProof (w.txid c.tx) c.blockHash = .ok proof ∧
        d = ⟨c.tx, c.height, proof, c.output.vout, c.output.sigsetIndex, c.output.dest⟩ := by
  unfold maybeRelayDeposit
  split <;> rename_i hp
  -- a failed query, or a processed outpoint: no call
  case h_1 | h_2 | h_3 => simp [hp]
  case h_4 =>
    split <;> rename_i hq
    · simp [hq]
    · -- the call is made, whatever `relay_deposit` answers
      simp only [hp, hq, Except.ok.injEq, exists_eq_left', true_and]
      split <;> simp [eq_comm]

theorem maybeRelayDeposit_ok (hproc : ∀ o, ∃ b, w.processed o = .ok (.ok b))
    (hproof : ∀ x h, ∃ p, w.txOutProof x h = .ok p)
    (hdust : ∀ d err, w.relayDeposit d = .error err → isDustError err = true)
    (c : DepositCall Hash Address Script) : (maybeRelayDeposit w c).1 = .ok () := by
  obtain ⟨b, hb⟩ := hproc (w.txid c.tx, c.output.vout)
  obtain ⟨p, hp⟩ := hproof (w.txid c.tx) c.blockHash
  unfold maybeRelayDeposit
  rw [hb]
  cases b
  · dsimp only
    rw [hp]
    dsimp only
    split
    · rfl
    · rename_i err herr
      simp [hdust _ err herr]
  · rfl

variable [DecidableEq Script] {index : WatchedScripts Sigset Address Script}

theorem vout_lt_of_mem_blockDeposits {block : Block Hash (Transaction Script)} {height : Nat}
    {c : DepositCall Hash Address Script} (h : c ∈ blockDeposits index block height) :
    c.output.vout.toNat < c.tx.output.length := by
  obtain ⟨tx, -, vout, script, hs, dest, i, -, rfl⟩ := (mem_blockDeposits index).1 h
  have hlt := (List.getElem?_eq_some_iff.1 hs).1
  have hv : (UInt32.ofNat vout).toNat = vout % 2 ^ 32 := by simp [UInt32.ofNat, UInt32.toNat]
  dsimp only
  rw [hv]
  exact lt_of_le_of_lt (Nat.mod_le _ _) hlt

variable [DecidableEq Hash] {t : BlockTree Hash (Transaction Script)}

/-- On a well-formed tree, when the sidechain answers whether each outpoint is processed, the node
gives each proof, and `relay_deposit` rejects nothing but dust, a scan of at most the tip's height
plus one blocks returns `Ok(tip)`; the deposits it passes to `relay_deposit` are exactly the
watched outputs of its window whose outpoint is not processed, each with its block's height and
the proof for its block. -/
theorem scanForDeposits_relays_unprocessed (ht : t.WF) (overflowChecks : Bool)
    (hproc : ∀ o, ∃ b, w.processed o = .ok (.ok b)) (hproof : ∀ x h, ∃ p, w.txOutProof x h = .ok p)
    (hdust : ∀ d err, w.relayDeposit d = .error err → isDustError err = true) {tip : Hash}
    {n : ChainNode Hash (Transaction Script)} (hn : t.node tip = some n) (k : Nat)
    (hk : k ≤ n.height + 1) :
    (scanForDeposits index (fun c => (maybeRelayDeposit w c).1) overflowChecks t tip k).2 = .ok tip ∧
    ∀ d, d ∈ (scanForDeposits index (fun c => (maybeRelayDeposit w c).1) overflowChecks t tip k).1.calls.filterMap
        (fun c => (maybeRelayDeposit w c).2) ↔
      ∃ c ∈ windowCalls index t tip k, w.processed (w.txid c.tx, c.output.vout) = .ok (.ok false) ∧
        ∃ proof, w.txOutProof (w.txid c.tx) c.blockHash = .ok proof ∧
          d = ⟨c.tx, c.height, proof, c.output.vout, c.output.sigsetIndex, c.output.dest⟩ := by
  rw [scanForDeposits_segment ht overflowChecks (maybeRelayDeposit_ok w hproc hproof hdust) hn k hk]
  refine ⟨rfl, fun d => ?_⟩
  simp only [List.mem_filterMap, maybeRelayDeposit_eq_some_iff]
  rfl

end MaybeRelay

/-! ### A two-block chain -/

theorem scanForDeposits_stops_at_error_twoBlocks :
    twoBlocks.WF ∧ twoBlocks.node 1 = some ⟨0, 1, []⟩ ∧ 2 ≤ 1 + 1 ∧
    (((∀ c ∈ windowCalls index₇₁ twoBlocks 1 2,
          (fun _ => .error (.rpc "connection refused")) c = (.ok () : Except Error Unit)) ∧
        (scanForDeposits index₇₁ (fun _ => .error (.rpc "connection refused")) true twoBlocks 1 2).1.calls =
          windowCalls index₇₁ twoBlocks 1 2 ∧
        (scanForDeposits index₇₁ (fun _ => .error (.rpc "connection refused")) true twoBlocks 1 2).2 =
          .ok 1) ∨
      ∃ pre c post e, windowCalls index₇₁ twoBlocks 1 2 = pre ++ c :: post ∧
        (∀ x ∈ pre, (fun _ => .error (.rpc "connection refused")) x = (.ok () : Except Error Unit)) ∧
        (fun _ => .error (.rpc "connection refused")) c = (.error e : Except Error Unit) ∧
        (scanForDeposits index₇₁ (fun _ => .error (.rpc "connection refused")) true twoBlocks 1 2).1.calls =
          pre ++ [c] ∧
        (scanForDeposits index₇₁ (fun _ => .error (.rpc "connection refused")) true twoBlocks 1 2).2 =
          .error (.err e)) :=
  have hn : twoBlocks.node 1 = some ⟨0, 1, []⟩ := rfl
  ⟨twoBlocks_wf, hn, le_refl 2,
    scanForDeposits_stops_at_error (fun _ => .error (.rpc "connection refused")) index₇₁ twoBlocks_wf
      true hn 2 (le_refl 2)⟩

/-- A sidechain that has processed no outpoint and rejects every deposit as below the minimum, and
a node that gives every proof. -/
def dustWorld : DepositWorld Nat UInt32 (UInt32 × UInt32) Nat Unit :=
  ⟨fun _ => 0, fun _ => .ok (.ok false), fun _ _ => .ok (), fun _ => .error "Deposit amount is below minimum"⟩

theorem scanForDeposits_relays_unprocessed_dustWorld :
    twoBlocks.WF ∧ (∀ o, ∃ b, dustWorld.processed o = .ok (.ok b)) ∧
    (∀ x h, ∃ p, dustWorld.txOutProof x h = .ok p) ∧
    (∀ d err, dustWorld.relayDeposit d = .error err → isDustError err = true) ∧
    twoBlocks.node 1 = some ⟨0, 1, []⟩ ∧ 2 ≤ 1 + 1 ∧
    (scanForDeposits index₇₁ (fun c => (maybeRelayDeposit dustWorld c).1) true twoBlocks 1 2).2 = .ok 1 ∧
    ∀ d, d ∈ (scanForDeposits index₇₁ (fun c => (maybeRelayDeposit dustWorld c).1) true twoBlocks 1 2).1.calls.filterMap
        (fun c => (maybeRelayDeposit dustWorld c).2) ↔
      ∃ c ∈ windowCalls index₇₁ twoBlocks 1 2,
        dustWorld.processed (dustWorld.txid c.tx, c.output.vout) = .ok (.ok false) ∧
        ∃ proof, dustWorld.txOutProof (dustWorld.txid c.tx) c.blockHash = .ok proof ∧
          d = ⟨c.tx, c.height, proof, c.output.vout, c.output.sigsetIndex, c.output.dest⟩ :=
  have hn : twoBlocks.node 1 = some ⟨0, 1, []⟩ := rfl
  have hproc : ∀ o, ∃ b, dustWorld.processed o = .ok (.ok b) := fun _ => ⟨false, rfl⟩
  have hproof : ∀ x h, ∃ p, dustWorld.txOutProof x h = .ok p := fun _ _ => ⟨(), rfl⟩
  have hdust : ∀ d err, dustWorld.relayDeposit d = .error err → isDustError err = true := by
    rintro d err ⟨⟩
    decide
  ⟨twoBlocks_wf, hproc, hproof, hdust, hn, le_refl 2,
    scanForDeposits_relays_unprocessed dustWorld twoBlocks_wf true hproc hproof hdust hn 2 (le_refl 2)⟩

end Nomic.Bitcoin
