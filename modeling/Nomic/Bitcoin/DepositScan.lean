import Nomic.Bitcoin.BlockTree
import Nomic.Bitcoin.WatchedScriptsSpec

/-!
# `scan_for_deposits`

`scan_for_deposits(num_blocks)` reads the sidechain's tip, fetches the last `num_blocks` blocks of
its chain with `last_n_blocks`, and walks them from the oldest, giving each block the height
`base_height - i`; for each output of each transaction whose script the index watches it calls
`maybe_relay_deposit` with the transaction, the height, the block hash and the match. The model
returns the calls made, in order, and the result; `relay` answers each call.

`scanForDeposits_segment`: on a well-formed tree, when `num_blocks` is at most the tip's height
plus one and every call succeeds, the scan returns `Ok` after calling `maybe_relay_deposit` once
per watched output of the last `num_blocks` blocks, oldest block first, each with its block's own
height and hash; `scanForDeposits_calls` says which calls these are in the source's terms.
`scanForDeposits_past_genesis`: when `num_blocks` exceeds the height plus one, the scan fails
before any call, since `last_n_blocks` asks for genesis's parent.
-/

namespace Nomic.Bitcoin

/-- A transaction, as the relayer reads it: the `script_pubkey` of each output. -/
structure Transaction (Script : Type) where
  output : List Script
  deriving DecidableEq

/-- `OutputMatch`. -/
structure OutputMatch (Address : Type) where
  sigsetIndex : UInt32
  vout : UInt32
  dest : Address
  deriving DecidableEq

/-- A call `maybe_relay_deposit(tx, height, block_hash, output)`. -/
structure DepositCall (Hash Address Script : Type) where
  tx : Transaction Script
  height : UInt32
  blockHash : Hash
  output : OutputMatch Address
  deriving DecidableEq

/-- What a scan did: the blocks it passed to `relevant_txs`, in order, and the calls of
`maybe_relay_deposit` it made. -/
structure ScanTrace (Hash Address Script : Type) where
  scanned : List Hash
  calls : List (DepositCall Hash Address Script)

variable {Hash Sigset Address Script : Type} [DecidableEq Script]

section Scan

variable (index : WatchedScripts Sigset Address Script)

/-- `relevant_outputs(tx)`: the outputs whose script the index watches, with their `vout`. -/
def relevantOutputs (tx : Transaction Script) : List (OutputMatch Address) :=
  tx.output.enum.filterMap fun (vout, script) =>
    (index.get script).map fun (dest, sigsetIndex) => ⟨sigsetIndex, UInt32.ofNat vout, dest⟩

/-- `relevant_txs(block)`. -/
def relevantTxs (block : Block Hash (Transaction Script)) :
    List (Transaction Script × List (OutputMatch Address)) :=
  block.txdata.map fun tx => (tx, relevantOutputs index tx)

/-- The calls the scan makes for one block given the height `height`. -/
def blockDeposits (block : Block Hash (Transaction Script)) (height : Nat) :
    List (DepositCall Hash Address Script) :=
  (relevantTxs index block).flatMap fun (tx, outputs) =>
    outputs.map fun output => ⟨tx, UInt32.ofNat height, block.hash, output⟩

theorem mem_relevantOutputs {tx : Transaction Script} {o : OutputMatch Address} :
    o ∈ relevantOutputs index tx ↔ ∃ vout script, tx.output[vout]? = some script ∧
      ∃ dest i, index.get script = some (dest, i) ∧ o = ⟨i, UInt32.ofNat vout, dest⟩ := by
  simp only [relevantOutputs, List.mem_filterMap, Option.map_eq_some', Prod.exists,
    List.mem_enum_iff_getElem?]
  simp only [eq_comm (a := o)]

theorem mem_blockDeposits {block : Block Hash (Transaction Script)} {height : Nat}
    {c : DepositCall Hash Address Script} :
    c ∈ blockDeposits index block height ↔ ∃ tx ∈ block.txdata, ∃ vout script,
      tx.output[vout]? = some script ∧ ∃ dest i, index.get script = some (dest, i) ∧
        c = ⟨tx, UInt32.ofNat height, block.hash, ⟨i, UInt32.ofNat vout, dest⟩⟩ := by
  simp only [blockDeposits, relevantTxs, List.flatMap_map, List.mem_flatMap, List.mem_map,
    mem_relevantOutputs]
  constructor
  · rintro ⟨tx, htx, o, ⟨vout, script, hs, dest, i, hg, rfl⟩, rfl⟩
    exact ⟨tx, htx, vout, script, hs, dest, i, hg, rfl⟩
  · rintro ⟨tx, htx, vout, script, hs, dest, i, hg, rfl⟩
    exact ⟨tx, htx, _, ⟨vout, script, hs, dest, i, hg, rfl⟩, rfl⟩

variable (relay : DepositCall Hash Address Script → Except Error Unit)

/-- The calls made in order until one fails (`maybe_relay_deposit(..).await?`). -/
def relayEach : List (DepositCall Hash Address Script) →
    List (DepositCall Hash Address Script) × Except Error Unit
  | [] => ([], .ok ())
  | c :: cs =>
    match relay c with
    | .error e => ([c], .error e)
    | .ok () => ((relayEach cs).1.cons c, (relayEach cs).2)

/-- The loop over `blocks.into_iter().enumerate().rev()`, each block at `base_height - i`: the
blocks passed to `relevant_txs` and the calls made, and how the loop ends. -/
def scanBlocks (overflowChecks : Bool) (baseHeight : Nat) :
    List (Nat × Block Hash (Transaction Script)) →
      ScanTrace Hash Address Script × Except Fault Unit
  | [] => (⟨[], []⟩, .ok ())
  | (i, block) :: rest =>
    match subUsize overflowChecks baseHeight i with
    | .error f => (⟨[], []⟩, .error f)
    | .ok height =>
      match relayEach relay (blockDeposits index block height) with
      | (calls, .error e) => (⟨[block.hash], calls⟩, .error (.err e))
      | (calls, .ok ()) =>
        (⟨block.hash :: (scanBlocks overflowChecks baseHeight rest).1.scanned,
            calls ++ (scanBlocks overflowChecks baseHeight rest).1.calls⟩,
          (scanBlocks overflowChecks baseHeight rest).2)

variable [DecidableEq Hash]

/-- `scan_for_deposits(num_blocks)`, the sidechain tip read as `tip`: what it did and its
result. -/
def scanForDeposits (overflowChecks : Bool) (t : BlockTree Hash (Transaction Script)) (tip : Hash)
    (numBlocks : Nat) : ScanTrace Hash Address Script × Except Fault Hash :=
  match t.headerInfo tip with
  | .error e => (⟨[], []⟩, .error (.err e))
  | .ok info =>
    match t.lastNBlocks numBlocks tip with
    | .error e => (⟨[], []⟩, .error (.err e))
    | .ok blocks =>
      match scanBlocks index relay overflowChecks info.height blocks.enum.reverse with
      | (trace, .error f) => (trace, .error f)
      | (trace, .ok ()) => (trace, .ok tip)

end Scan

/-! ### The scanned window -/

section Window

variable {index : WatchedScripts Sigset Address Script}
  {relay : DepositCall Hash Address Script → Except Error Unit}

omit [DecidableEq Script] in
theorem relayEach_of_ok (hrelay : ∀ c, relay c = .ok ()) (cs : List (DepositCall Hash Address Script)) :
    relayEach relay cs = (cs, .ok ()) := by
  induction cs with
  | nil => rfl
  | cons c cs ih => simp [relayEach, hrelay c, ih]

theorem scanBlocks_of_ok (hrelay : ∀ c, relay c = .ok ()) (overflowChecks : Bool) (baseHeight : Nat)
    (bs : List (Nat × Block Hash (Transaction Script))) (hle : ∀ p ∈ bs, p.1 ≤ baseHeight) :
    scanBlocks index relay overflowChecks baseHeight bs =
      (⟨bs.map fun p => p.2.hash, (bs.map fun p => blockDeposits index p.2 (baseHeight - p.1)).flatten⟩,
        .ok ()) := by
  induction bs with
  | nil => rfl
  | cons p bs ih =>
    obtain ⟨i, b⟩ := p
    simp only [scanBlocks, subUsize_of_le (hle _ (List.mem_cons_self _ _)), relayEach_of_ok hrelay,
      ih fun q hq => hle q (List.mem_cons_of_mem _ hq), List.map_cons, List.flatten_cons]

variable {t : BlockTree Hash (Transaction Script)}

theorem segment_deposits (ht : t.WF) (k : Nat) :
    ∀ h n s, t.node h = some n → k ≤ n.height + 1 →
      (((t.segment h k).map ChainNode.toBlock).enumFrom s).reverse.map
          (fun p => blockDeposits index p.2 (n.height + s - p.1)) =
        (t.segment h k).reverse.map fun e => blockDeposits index (ChainNode.toBlock e) e.2.height := by
  induction k with
  | zero => exact fun _ _ _ _ _ => rfl
  | succ k ih =>
    intro h n s hn hk
    rw [BlockTree.segment_succ hn]
    simp only [List.map_cons, List.enumFrom_cons, List.reverse_cons, List.map_append,
      List.map_singleton, Nat.add_sub_cancel]
    congr 1
    rcases Nat.eq_zero_or_pos k with rfl | hkpos
    · rfl
    · obtain ⟨p, hp, hph⟩ := ht.parent h n hn (by omega)
      rw [← ih _ p (s + 1) hp (by omega)]
      congr 2
      funext q
      congr 2
      omega

variable [DecidableEq Hash]

/-- On a well-formed tree, a scan of at most the tip's height plus one blocks whose calls all
succeed returns `Ok` after one call per watched output of those blocks, oldest block first, each
with its block's own height and hash. -/
theorem scanForDeposits_segment (ht : t.WF) (overflowChecks : Bool) (hrelay : ∀ c, relay c = .ok ())
    {tip : Hash} {n : ChainNode Hash (Transaction Script)} (hn : t.node tip = some n) (k : Nat)
    (hk : k ≤ n.height + 1) :
    scanForDeposits index relay overflowChecks t tip k =
      (⟨(t.segment tip k).reverse.map Prod.fst, ((t.segment tip k).reverse.map fun e =>
        blockDeposits index (ChainNode.toBlock e) e.2.height).flatten⟩, .ok tip) := by
  obtain ⟨info, hinfo, -, hheight, -⟩ := BlockTree.headerInfo_of_node hn
  have hlen : ((t.segment tip k).map ChainNode.toBlock).length ≤ k := by
    rw [List.length_map]
    clear hinfo hheight hk
    induction k generalizing tip n with
    | zero => exact le_refl _
    | succ k ih =>
      rw [BlockTree.segment_succ hn, List.length_cons, Nat.add_le_add_iff_right]
      cases hp : t.node n.prevBlockhash with
      | none => cases k <;> simp [BlockTree.segment, hp]
      | some p => exact ih hp
  have hle : ∀ p ∈ (((t.segment tip k).map ChainNode.toBlock).enum).reverse, p.1 ≤ info.height :=
    fun p hp => by
      have := List.fst_lt_of_mem_enum (List.mem_reverse.1 hp)
      omega
  have hseg : (((t.segment tip k).map ChainNode.toBlock).enum).reverse.map
      (fun p => blockDeposits index p.2 (n.height - p.1)) =
        (t.segment tip k).reverse.map fun e => blockDeposits index (ChainNode.toBlock e) e.2.height := by
    simpa [List.enum] using segment_deposits ht k tip n 0 hn hk
  simp only [scanForDeposits, hinfo, ht.lastNBlocks_eq k tip n hn hk]
  rw [scanBlocks_of_ok hrelay overflowChecks info.height _ hle, hheight, hseg]
  have hhash : ((t.segment tip k).map ChainNode.toBlock).enum.reverse.map (fun p => p.2.hash) =
      (t.segment tip k).reverse.map Prod.fst := by
    rw [List.map_reverse, List.map_reverse]
    congr 1
    calc ((t.segment tip k).map ChainNode.toBlock).enum.map (fun p => p.2.hash)
        = (((t.segment tip k).map ChainNode.toBlock).enum.map Prod.snd).map Block.hash := by
          rw [List.map_map]; rfl
      _ = (t.segment tip k).map Prod.fst := by rw [List.enum_map_snd, List.map_map]; rfl
  rw [hhash]

/-- Within the tip's chain, a scan whose calls all succeed returns `Ok(tip)` after passing each
of the last `k` blocks to `relevant_txs` once, newest last, and its calls are exactly those for a
watched output `vout` of a transaction of one of those blocks, with the block's height and hash
and the index's `(dest, sigset_index)` for the output's script. -/
theorem scanForDeposits_calls (ht : t.WF) (overflowChecks : Bool) (hrelay : ∀ c, relay c = .ok ())
    {tip : Hash} {n : ChainNode Hash (Transaction Script)} (hn : t.node tip = some n) (k : Nat)
    (hk : k ≤ n.height + 1) :
    ∃ calls, scanForDeposits index relay overflowChecks t tip k =
        (⟨(t.segment tip k).reverse.map Prod.fst, calls⟩, .ok tip) ∧
      ∀ c, c ∈ calls ↔ ∃ e ∈ t.segment tip k, ∃ tx ∈ e.2.txdata, ∃ vout script,
        tx.output[vout]? = some script ∧ ∃ dest i, index.get script = some (dest, i) ∧
          c = ⟨tx, UInt32.ofNat e.2.height, e.1, ⟨i, UInt32.ofNat vout, dest⟩⟩ := by
  refine ⟨_, scanForDeposits_segment ht overflowChecks hrelay hn k hk, fun c => ?_⟩
  simp only [List.mem_flatten, List.mem_map, List.mem_reverse]
  constructor
  · rintro ⟨l, ⟨e, he, rfl⟩, hc⟩
    exact ⟨e, he, (mem_blockDeposits index).1 hc⟩
  · rintro ⟨e, he, hc⟩
    exact ⟨_, ⟨e, he, rfl⟩, (mem_blockDeposits index).2 hc⟩

/-- On a well-formed tree, a scan of more blocks than the tip's chain has fails before any call:
`last_n_blocks` asks the node for genesis's parent. -/
theorem scanForDeposits_past_genesis (ht : t.WF) (overflowChecks : Bool) {tip : Hash}
    {n : ChainNode Hash (Transaction Script)} (hn : t.node tip = some n) (k : Nat)
    (hk : n.height + 1 < k) :
    ∃ e, scanForDeposits index relay overflowChecks t tip k = (⟨[], []⟩, .error (.err e)) := by
  obtain ⟨info, hinfo, -⟩ := BlockTree.headerInfo_of_node hn
  obtain ⟨e, he⟩ := ht.lastNBlocks_error k tip n hn hk
  exact ⟨e, by simp [scanForDeposits, hinfo, he]⟩

end Window

/-! ### A two-block chain -/

/-- Genesis `0`, whose parent hash `5000` is no block, and its child `1`, the active tip; genesis
pays to the script `(7, 1)`. -/
def twoBlocks : BlockTree Nat (Transaction (UInt32 × UInt32)) where
  node h := if h = 0 then some ⟨5000, 0, [⟨[(7, 1)]⟩]⟩ else if h = 1 then some ⟨0, 1, []⟩ else none
  best := 1

theorem twoBlocks_wf : twoBlocks.WF where
  parent h n hn hpos := by
    simp only [twoBlocks] at hn
    split_ifs at hn
    · cases hn
      exact absurd hpos (lt_irrefl 0)
    · cases hn
      exact ⟨_, rfl, rfl⟩
  genesis h n hn h0 := by
    simp only [twoBlocks] at hn ⊢
    split_ifs at hn
    · cases hn
      rfl
    · cases hn
      cases h0
  single_genesis h h' n n' hn hn' h0 h0' := by
    simp only [twoBlocks] at hn hn'
    split_ifs at hn hn' <;> cases hn <;> cases hn' <;> simp_all
  best := rfl

/-- The index watching the script `(7, 1)` for the pair `(7, 1)`. -/
def index₇₁ : WatchedScripts UInt32 UInt32 (UInt32 × UInt32) :=
  (WatchedScripts.new.insert pairApi 7 1).2

/-- A sidechain that accepts every relayed deposit. -/
def acceptDeposits : DepositCall Nat UInt32 (UInt32 × UInt32) → Except Error Unit := fun _ => .ok ()

theorem scanForDeposits_past_genesis_twoBlocks :
    twoBlocks.WF ∧ twoBlocks.node 1 = some ⟨0, 1, []⟩ ∧ 1 + 1 < 3 ∧
    ∃ e, scanForDeposits index₇₁ acceptDeposits true twoBlocks 1 3 = (⟨[], []⟩, .error (.err e)) :=
  have hn : twoBlocks.node 1 = some ⟨0, 1, []⟩ := rfl
  ⟨twoBlocks_wf, hn, by decide, scanForDeposits_past_genesis twoBlocks_wf true hn 3 (by decide)⟩

theorem scanForDeposits_calls_twoBlocks :
    twoBlocks.WF ∧ (∀ c, acceptDeposits c = .ok ()) ∧ twoBlocks.node 1 = some ⟨0, 1, []⟩ ∧
    2 ≤ 1 + 1 ∧
    ∃ calls, scanForDeposits index₇₁ acceptDeposits true twoBlocks 1 2 =
        (⟨(twoBlocks.segment 1 2).reverse.map Prod.fst, calls⟩, .ok 1) ∧
      ∀ c, c ∈ calls ↔ ∃ e ∈ twoBlocks.segment 1 2, ∃ tx ∈ e.2.txdata, ∃ vout script,
        tx.output[vout]? = some script ∧ ∃ dest i, index₇₁.get script = some (dest, i) ∧
          c = ⟨tx, UInt32.ofNat e.2.height, e.1, ⟨i, UInt32.ofNat vout, dest⟩⟩ :=
  have hn : twoBlocks.node 1 = some ⟨0, 1, []⟩ := rfl
  ⟨twoBlocks_wf, fun _ => rfl, hn, le_refl 2,
    scanForDeposits_calls twoBlocks_wf true (fun _ => rfl) hn 2 (le_refl 2)⟩

end Nomic.Bitcoin
