import Nomic.Bitcoin.CommonAncestor

/-!
# The header relay

`relay_header_batch(fullnode_hash, sidechain_hash)` reads both header infos and returns at once
when the full node is behind the sidechain (it is still syncing). Otherwise it takes the common
ancestor of the two with `common_ancestor`, collects a batch from it with `get_header_batch` (up to
`HEADER_BATCH_SIZE` headers, following `next_block_hash`, each wrapped with its height as a `u32`),
indexes `batch[0]` for its log line, and submits the batch with `headers.add`.
`relay_headers` calls it while the full node's tip differs from the sidechain's.

* `WF.getHeaderBatchLoop_spec`: from an active block, the loop pushes the next blocks of the active
  chain (`ActiveRun`), as many as the passes left and the tip allow; such a run is a chain of
  headers (`WF.activeRun_chain`).
* `WF.getHeaderBatch_chain`: from any known block, `get_header_batch` returns at most 25 headers
  forming a chain, none off the active chain.
* `relayHeaderBatch_submits_next_run`: for the full node's tip and any other known block, the
  submitted batch is the next run of the active chain above their most recent common ancestor,
  `min 25 (best height - its height)` headers, never empty. The heights fit the `i32` of
  `confirmations`, which `common_ancestor`'s early return reads.
* `WF.relayHeaderBatch_safe`: for the tip and any other hash, known to the full node or not, the
  function returns without a panic and submits only active headers (`ActiveHeader`).
-/

namespace Nomic.Bitcoin

/-- `HEADER_BATCH_SIZE`. -/
def headerBatchSize : Nat := 25

/-- The fields of a block header the relayer reads: its hash, `block_hash()`, and
`prev_blockhash`. -/
structure BlockHeader (Hash : Type) where
  hash : Hash
  prevBlockhash : Hash
  deriving DecidableEq

/-- `WrappedHeader::from_header(&header, height)`. -/
structure WrappedHeader (Hash : Type) where
  header : BlockHeader Hash
  height : UInt32
  deriving DecidableEq

namespace BlockTree

variable {Hash Tx : Type} (t : BlockTree Hash Tx)

/-- `get_block_header(hash)`. The relayer passes the header through `consensus_encode` and
`consensus_decode`, which give it back unchanged. -/
def getBlockHeader (h : Hash) : Except Error (BlockHeader Hash) :=
  match t.node h with
  | none => .error (.rpc "Block not found")
  | some n => .ok ⟨h, n.prevBlockhash⟩

section Code

variable [DecidableEq Hash]

/-- The `for _ in 0..HEADER_BATCH_SIZE` loop of `get_header_batch`, with `k` passes left, the
cursor's header info and the headers pushed so far. -/
def getHeaderBatchLoop : Nat → HeaderInfo Hash → List (WrappedHeader Hash) →
    Except Error (List (WrappedHeader Hash))
  | 0, _, headers => .ok headers
  | k + 1, cursor, headers =>
    match cursor.nextBlockHash with
    | none => .ok headers
    | some nextHash =>
      match t.headerInfo nextHash with
      | .error e => .error e
      | .ok cursor =>
        match t.getBlockHeader cursor.hash with
        | .error e => .error e
        | .ok header =>
          getHeaderBatchLoop k cursor (headers ++ [⟨header, UInt32.ofNat cursor.height⟩])

/-- `get_header_batch(from_hash)`. -/
def getHeaderBatch (fromHash : Hash) : Except Error (List (WrappedHeader Hash)) :=
  match t.headerInfo fromHash with
  | .error e => .error e
  | .ok cursor => t.getHeaderBatchLoop headerBatchSize cursor []

/-- `relay_header_batch(fullnode_hash, sidechain_hash)`, submitting through `add`
(`app_client.headers.add`): the batch it submits, if any, and how it ends; `none` when
`common_ancestor`'s loop has not ended. -/
def relayHeaderBatch (add : List (WrappedHeader Hash) → Except Error Unit)
    (fullnodeHash sidechainHash : Hash) :
    Option (Option (List (WrappedHeader Hash)) × Except Fault Unit) :=
  match t.headerInfo fullnodeHash with
  | .error e => some (none, .error (.err e))
  | .ok fullnodeInfo =>
    match t.headerInfo sidechainHash with
    | .error e => some (none, .error (.err e))
    | .ok sidechainInfo =>
      if fullnodeInfo.height < sidechainInfo.height then some (none, .ok ())
      else
        match t.commonAncestor fullnodeHash sidechainHash with
        | none => none
        | some (.error f) => some (none, .error f)
        | some (.ok start) =>
          match t.getHeaderBatch start.hash with
          | .error e => some (none, .error (.err e))
          | .ok [] =>
            some (none, .error (.panic "index out of bounds: the len is 0 but the index is 0"))
          | .ok batch => some (some batch, (add batch).mapError .err)

end Code

/-- `run[j]` wraps the header of the active block at height `h + j + 1`, with that height. -/
def ActiveRun (h : Nat) (run : List (WrappedHeader Hash)) : Prop :=
  ∀ j w, run[j]? = some w → ∃ b nb, t.ancestor t.best (t.bestHeight - (h + j + 1)) = some b ∧
    t.node b = some nb ∧ w = ⟨⟨b, nb.prevBlockhash⟩, UInt32.ofNat (h + j + 1)⟩

/-- `w` wraps the header of a block of the full node's active chain, with that block's height. -/
def ActiveHeader (w : WrappedHeader Hash) : Prop :=
  ∃ nb, t.node w.header.hash = some nb ∧ t.IsAncestor w.header.hash t.best ∧
    w.header.prevBlockhash = nb.prevBlockhash ∧ w.height.toNat = nb.height

variable {t} {b c : Hash} {nb nc : ChainNode Hash Tx}

theorem getBlockHeader_of_node (hn : t.node c = some nc) :
    t.getBlockHeader c = .ok ⟨c, nc.prevBlockhash⟩ := by
  simp [getBlockHeader, hn]

/-! ### The active chain -/

theorem WF.active_at (ht : t.WF) (h : Nat) (hh : h ≤ t.bestHeight) :
    ∃ c nc, t.ancestor t.best (t.bestHeight - h) = some c ∧ t.node c = some nc ∧ nc.height = h := by
  obtain ⟨nb, hb⟩ := Option.isSome_iff_exists.1 ht.best
  rw [bestHeight_eq hb] at hh ⊢
  obtain ⟨c, nc, hc, hnc, hh'⟩ := ht.ancestor_spec _ _ nb hb (Nat.sub_le _ h)
  exact ⟨c, nc, hc, hnc, by omega⟩

theorem WF.active_parent (ht : t.WF) {h : Nat} (hh : h < t.bestHeight)
    (hb : t.ancestor t.best (t.bestHeight - (h + 1)) = some b) (hnb : t.node b = some nb) :
    t.ancestor t.best (t.bestHeight - h) = some nb.prevBlockhash := by
  obtain ⟨nbest, hbest⟩ := Option.isSome_iff_exists.1 ht.best
  obtain ⟨n, hn, hh'⟩ := ht.ancestor_height hb hbest
  rw [hnb] at hn; cases hn
  rw [bestHeight_eq hbest] at hh hh' ⊢
  rw [show nbest.height - h = nbest.height - (h + 1) + 1 by omega]
  exact ht.ancestor_succ_of_node (by rwa [bestHeight_eq hbest] at hb) hnb (by omega)

theorem WF.activeRun_chain (ht : t.WF) {h : Nat} {run : List (WrappedHeader Hash)}
    (hrun : t.ActiveRun h run) (hlen : h + run.length ≤ t.bestHeight) :
    (∀ w, run.head? = some w → t.ancestor t.best (t.bestHeight - h) = some w.header.prevBlockhash) ∧
    ∀ k w w', run[k]? = some w → run[k + 1]? = some w' → w'.header.prevBlockhash = w.header.hash := by
  have hin : ∀ {k w}, run[k]? = some w → h + k + 1 ≤ t.bestHeight := fun hk => by
    have := (List.getElem?_eq_some_iff.1 hk).1
    omega
  refine ⟨fun w hw => ?_, fun k w w' hw hw' => ?_⟩
  · cases run with
    | nil => cases hw
    | cons w₀ ws =>
      obtain rfl : w₀ = w := Option.some.inj hw
      have hw₀ : (w₀ :: ws)[0]? = some w₀ := List.getElem?_cons_zero ..
      obtain ⟨b, nb, hb, hnb, rfl⟩ := hrun 0 w₀ hw₀
      exact ht.active_parent (by have := hin hw₀; omega) hb hnb
  · have := hin hw'
    obtain ⟨b, nb, hb, hnb, rfl⟩ := hrun k w hw
    obtain ⟨b', nb', hb', hnb', rfl⟩ := hrun (k + 1) w' hw'
    rw [show h + (k + 1) + 1 = h + k + 1 + 1 by omega] at hb'
    exact Option.some.inj ((ht.active_parent (by omega) hb' hnb').symm.trans hb)

theorem activeRun_nil (h : Nat) : t.ActiveRun h [] := fun _ _ hw => by simp at hw

theorem ActiveRun.append {h : Nat} {r₁ r₂ : List (WrappedHeader Hash)} (h₁ : t.ActiveRun h r₁)
    (h₂ : t.ActiveRun (h + r₁.length) r₂) : t.ActiveRun h (r₁ ++ r₂) := by
  intro j w hw
  by_cases hj : j < r₁.length
  · rw [List.getElem?_append_left hj] at hw
    exact h₁ j w hw
  · rw [List.getElem?_append_right (by omega)] at hw
    obtain ⟨b, nb, hb, hnb, rfl⟩ := h₂ _ w hw
    rw [show h + r₁.length + (j - r₁.length) + 1 = h + j + 1 by omega] at hb ⊢
    exact ⟨b, nb, hb, hnb, rfl⟩

theorem WF.activeRun_getLast (ht : t.WF) {h : Nat} {run : List (WrappedHeader Hash)}
    (hrun : t.ActiveRun h run) (hlen : h + run.length ≤ t.bestHeight) {w : WrappedHeader Hash}
    (hw : run.getLast? = some w) :
    ∃ nc, t.node w.header.hash = some nc ∧ t.IsAncestor w.header.hash t.best ∧
      nc.height = h + run.length := by
  rw [List.getLast?_eq_getElem?] at hw
  have hpos := (List.getElem?_eq_some_iff.1 hw).1
  obtain ⟨b, nb, hb, hnb, rfl⟩ := hrun _ w hw
  obtain ⟨nbest, hbest⟩ := Option.isSome_iff_exists.1 ht.best
  obtain ⟨n, hn, hh⟩ := ht.ancestor_height hb hbest
  rw [hnb] at hn; cases hn
  have := bestHeight_eq hbest
  exact ⟨nb, hnb, ⟨_, hb⟩, by omega⟩

theorem WF.activeHeader_of_activeRun (ht : t.WF) (hbound : t.bestHeight < 2 ^ 32) {h : Nat}
    {run : List (WrappedHeader Hash)} (hrun : t.ActiveRun h run)
    (hlen : h + run.length ≤ t.bestHeight) : ∀ w ∈ run, t.ActiveHeader w := by
  intro w hw
  obtain ⟨j, hj, rfl⟩ := List.getElem_of_mem hw
  obtain ⟨b, nb, hb, hnb, hw'⟩ := hrun j _ (List.getElem?_eq_getElem hj)
  obtain ⟨nbest, hbest⟩ := Option.isSome_iff_exists.1 ht.best
  obtain ⟨n, hn, hh⟩ := ht.ancestor_height hb hbest
  rw [hnb] at hn; cases hn
  have := bestHeight_eq hbest
  rw [hw']
  exact ⟨nb, hnb, ⟨_, hb⟩, rfl, by
    rw [UInt32.toNat_ofNat_of_lt (by unfold UInt32.size; omega)]; omega⟩

theorem WF.eq_best_of_isMrca (ht : t.WF) {s l : Hash} {ns nl : ChainNode Hash Tx}
    (hs : t.node s = some ns) (hle : ns.height ≤ t.bestHeight) (hl : t.IsMrca l t.best s)
    (hnl : t.node l = some nl) (hgap : t.bestHeight ≤ nl.height) : s = t.best := by
  obtain ⟨nb, hb⟩ := Option.isSome_iff_exists.1 ht.best
  have hbh := bestHeight_eq hb
  have hlb : l = t.best := ht.eq_of_isAncestor hl.1 hb hnl (by omega)
  exact (ht.eq_of_isAncestor (hlb ▸ hl.2.1) hs hb (by omega)).symm

section Batch

variable [DecidableEq Hash]

theorem WF.nextBlockHash_of_active (ht : t.WF) {i : HeaderInfo Hash} (hc : t.node c = some nc)
    (hact : t.IsAncestor c t.best) (hi : t.headerInfo c = .ok i) :
    i.nextBlockHash = if nc.height < t.bestHeight then
      t.ancestor t.best (t.bestHeight - (nc.height + 1)) else none := by
  obtain ⟨-, -, -, -, hnext⟩ := headerInfo_fields hc hi
  simp [hnext, (ht.isActive_iff hc).2 hact, Nat.sub_sub]

/-- From the header info of an active block `c`, the loop with `k` passes left pushes the next
`min k (best height - height c)` blocks of the active chain, each with its header and wrapped with
its height. -/
theorem WF.getHeaderBatchLoop_spec (ht : t.WF) (k : Nat) :
    ∀ {c nc i} (headers : List (WrappedHeader Hash)), t.node c = some nc →
      t.IsAncestor c t.best → t.headerInfo c = .ok i →
      ∃ run, t.getHeaderBatchLoop k i headers = .ok (headers ++ run) ∧
        run.length = min k (t.bestHeight - nc.height) ∧ t.ActiveRun nc.height run := by
  induction k with
  | zero => exact fun headers _ _ _ => ⟨[], by simp [getHeaderBatchLoop], by simp,
    fun _ _ hw => by simp at hw⟩
  | succ k ih =>
    intro c nc i headers hc hact hi
    have hnext := ht.nextBlockHash_of_active hc hact hi
    by_cases hlt : nc.height < t.bestHeight
    · -- the cursor moves to the active block one higher, and its header is pushed
      rw [if_pos hlt] at hnext
      obtain ⟨c', nc', hc'a, hc', hh'⟩ := ht.active_at (nc.height + 1) hlt
      obtain ⟨i', hi', hi'hash, hi'h, -⟩ := headerInfo_of_node hc'
      let w : WrappedHeader Hash := ⟨⟨c', nc'.prevBlockhash⟩, UInt32.ofNat (nc.height + 1)⟩
      obtain ⟨run, hrun, hlen, hidx⟩ := ih (headers ++ [w]) hc' ⟨_, hc'a⟩ hi'
      refine ⟨w :: run, ?_, ?_, ?_⟩
      · simp only [getHeaderBatchLoop, hnext, hc'a, hi', hi'hash, getBlockHeader_of_node hc', hi'h,
          hh', hrun, List.append_assoc, List.singleton_append]
      · rw [List.length_cons, hlen, hh', show t.bestHeight - nc.height =
          t.bestHeight - (nc.height + 1) + 1 by omega, Nat.add_min_add_right]
      · rintro (_ | j) w' hw'
        · rw [List.getElem?_cons_zero] at hw'
          exact ⟨c', nc', hc'a, hc', (Option.some.inj hw').symm⟩
        · rw [List.getElem?_cons_succ] at hw'
          obtain ⟨b, nb, hb, hnb, rfl⟩ := hidx j w' hw'
          rw [hh', show nc.height + 1 + j + 1 = nc.height + (j + 1) + 1 by omega] at hb ⊢
          exact ⟨b, nb, hb, hnb, rfl⟩
    · -- at the tip there is no next block
      rw [if_neg hlt] at hnext
      refine ⟨[], by simp [getHeaderBatchLoop, hnext], ?_, fun _ _ hw => by simp at hw⟩
      rw [List.length_nil, Nat.sub_eq_zero_of_le (Nat.le_of_not_lt hlt), Nat.min_zero]

/-- `get_header_batch(c)` for any block `c` the full node knows returns `Ok` with at most
`HEADER_BATCH_SIZE` headers, each a child of the one before. Off the active chain the batch is
empty; on it, the batch holds the next `min 25 (best height - height c)` active blocks, the first a
child of `c`. -/
theorem WF.getHeaderBatch_chain (ht : t.WF) (hc : t.node c = some nc) :
    ∃ batch, t.getHeaderBatch c = .ok batch ∧ batch.length ≤ headerBatchSize ∧
      (∀ k w w', batch[k]? = some w → batch[k + 1]? = some w' →
        w'.header.prevBlockhash = w.header.hash) ∧
      (¬ t.IsAncestor c t.best → batch = []) ∧
      (t.IsAncestor c t.best → batch.length = min headerBatchSize (t.bestHeight - nc.height) ∧
        ∀ w, batch.head? = some w → w.header.prevBlockhash = c) := by
  obtain ⟨i, hi, -⟩ := headerInfo_of_node hc
  by_cases hact : t.IsAncestor c t.best
  · -- on the active chain: the run above `c`
    obtain ⟨run, hrun, hlen, hidx⟩ := ht.getHeaderBatchLoop_spec headerBatchSize [] hc hact hi
    obtain ⟨nb, hb⟩ := Option.isSome_iff_exists.1 ht.best
    obtain ⟨m, hm, hle, hcbest⟩ := ht.isAncestor_height hact hb
    rw [hc] at hm; cases hm
    rw [← bestHeight_eq hb] at hle hcbest
    obtain ⟨hfirst, hchain⟩ := ht.activeRun_chain hidx (by rw [hlen]; omega)
    exact ⟨run, by simp [getHeaderBatch, hi, hrun], by rw [hlen]; exact Nat.min_le_left _ _,
      hchain, fun h => absurd hact h, fun _ => ⟨hlen,
      fun w hw => Option.some.inj ((hfirst w hw).symm.trans hcbest)⟩⟩
  · -- off it: no next block
    have hnext : i.nextBlockHash = none := by
      obtain ⟨-, -, -, -, hnext⟩ := headerInfo_fields hc hi
      rw [hnext, if_neg]
      exact fun h => hact ((ht.isActive_iff hc).1 h.1)
    refine ⟨[], ?_, by simp, fun _ _ _ h => by simp at h, fun _ => rfl, fun h => absurd h hact⟩
    rw [getHeaderBatch, hi, show headerBatchSize = 24 + 1 from rfl]
    simp only [getHeaderBatchLoop, hnext]

theorem getHeaderBatch_chain_staleFork :
    staleFork.WF ∧ ∃ batch, staleFork.getHeaderBatch 0 = .ok batch ∧ batch.length ≤ headerBatchSize ∧
      (∀ k w w', batch[k]? = some w → batch[k + 1]? = some w' →
        w'.header.prevBlockhash = w.header.hash) ∧
      (¬ staleFork.IsAncestor 0 staleFork.best → batch = []) ∧
      (staleFork.IsAncestor 0 staleFork.best →
        batch.length = min headerBatchSize (staleFork.bestHeight - 0) ∧
        ∀ w, batch.head? = some w → w.header.prevBlockhash = 0) :=
  ⟨staleFork_wf, WF.getHeaderBatch_chain staleFork_wf
    (show staleFork.node 0 = some ⟨5000, 0, []⟩ from rfl)⟩

theorem relayHeaderBatch_of_behind {add : List (WrappedHeader Hash) → Except Error Unit}
    {fh sh : Hash} {fi si : HeaderInfo Hash} (hf : t.headerInfo fh = .ok fi)
    (hs : t.headerInfo sh = .ok si) (hlt : fi.height < si.height) :
    t.relayHeaderBatch add fh sh = some (none, .ok ()) := by
  simp [relayHeaderBatch, hf, hs, hlt]

theorem relayHeaderBatch_of_batch {add : List (WrappedHeader Hash) → Except Error Unit}
    {fh sh : Hash} {fi si start : HeaderInfo Hash} {w : WrappedHeader Hash}
    {ws : List (WrappedHeader Hash)} (hf : t.headerInfo fh = .ok fi)
    (hs : t.headerInfo sh = .ok si) (hle : ¬ fi.height < si.height)
    (hca : t.commonAncestor fh sh = some (.ok start))
    (hb : t.getHeaderBatch start.hash = .ok (w :: ws)) :
    t.relayHeaderBatch add fh sh = some (some (w :: ws), (add (w :: ws)).mapError .err) := by
  simp [relayHeaderBatch, hf, hs, hle, hca, hb]

theorem WF.relayHeaderBatch_activeRun (ht : t.WF) (hbound : t.bestHeight + 1 < 2 ^ 31)
    (add : List (WrappedHeader Hash) → Except Error Unit) {s : Hash} {ns : ChainNode Hash Tx}
    (hs : t.node s = some ns) (hne : s ≠ t.best) (hle : ns.height ≤ t.bestHeight) :
    ∃ l nl batch, t.IsMrca l t.best s ∧ t.node l = some nl ∧ nl.height < t.bestHeight ∧
      t.relayHeaderBatch add t.best s = some (some batch, (add batch).mapError .err) ∧
      batch.length = min headerBatchSize (t.bestHeight - nl.height) ∧ 0 < batch.length ∧
      t.ActiveRun nl.height batch := by
  obtain ⟨nb, hb⟩ := Option.isSome_iff_exists.1 ht.best
  have hbh := bestHeight_eq hb
  obtain ⟨ib, hib, -, hibh, -⟩ := headerInfo_of_node hb
  obtain ⟨is, his, -, hish, -⟩ := headerInfo_of_node hs
  -- the common ancestor `l` is on the active chain, below the tip
  obtain ⟨l, r, hmrca, hlr, hca⟩ :=
    ht.commonAncestor_isMrca (by omega) hb hs (isAncestor_self hb) (by omega)
  obtain ⟨nl, hl⟩ := hmrca.1.node
  have hlt : nl.height < t.bestHeight :=
    Nat.lt_of_not_le fun hgap => hne (ht.eq_best_of_isMrca hs hle hmrca hl hgap)
  -- the batch `get_header_batch` collects from `l`
  obtain ⟨run, hrun, hlen, hidx⟩ := ht.getHeaderBatchLoop_spec headerBatchSize [] hl hmrca.1 hlr
  obtain ⟨w, ws, rfl⟩ : ∃ w ws, run = w :: ws :=
    List.exists_cons_of_length_pos (by rw [hlen]; simp only [headerBatchSize]; omega)
  have hbatch : t.getHeaderBatch r.hash = .ok (w :: ws) := by
    rw [(headerInfo_fields hl hlr).1]
    simp [getHeaderBatch, hlr, hrun]
  exact ⟨l, nl, w :: ws, hmrca, hl, hlt, relayHeaderBatch_of_batch hib his (by omega) hca hbatch,
    hlen, by simp, hidx⟩

/-- `relay_header_batch(best, s)`, for the full node's tip `best` and any other known block `s`,
submits nothing when `s` is higher, and otherwise the next run of the active chain above the most
recent common ancestor `l` of the two: `min 25 (best height - height l)` headers, at least one, the
first a child of `l` and each later one a child of the one before, the `k`-th the active block at
height `height l + k + 1` wrapped with that height. -/
theorem relayHeaderBatch_submits_next_run (ht : t.WF) (hbound : t.bestHeight + 1 < 2 ^ 31)
    (add : List (WrappedHeader Hash) → Except Error Unit) {s : Hash} {ns : ChainNode Hash Tx}
    (hs : t.node s = some ns) (hne : s ≠ t.best) :
    (t.bestHeight < ns.height → t.relayHeaderBatch add t.best s = some (none, .ok ())) ∧
    (ns.height ≤ t.bestHeight → ∃ l nl batch, t.IsMrca l t.best s ∧ t.node l = some nl ∧
      t.relayHeaderBatch add t.best s = some (some batch, (add batch).mapError .err) ∧
      batch.length = min 25 (t.bestHeight - nl.height) ∧ 0 < batch.length ∧
      (batch.head?.map fun w => w.header.prevBlockhash) = some l ∧
      (∀ k w w', batch[k]? = some w → batch[k + 1]? = some w' →
        w'.header.prevBlockhash = w.header.hash) ∧
      ∀ k w, batch[k]? = some w →
        t.ancestor t.best (t.bestHeight - (nl.height + k + 1)) = some w.header.hash ∧
        w.height.toNat = nl.height + k + 1) := by
  obtain ⟨nb, hb⟩ := Option.isSome_iff_exists.1 ht.best
  have hbh := bestHeight_eq hb
  obtain ⟨ib, hib, -, hibh, -⟩ := headerInfo_of_node hb
  obtain ⟨is, his, -, hish, -⟩ := headerInfo_of_node hs
  refine ⟨fun hlt => relayHeaderBatch_of_behind hib his (by omega), fun hle => ?_⟩
  obtain ⟨l, nl, batch, hmrca, hl, -, hrel, hlen, hpos, hidx⟩ :=
    ht.relayHeaderBatch_activeRun hbound add hs hne hle
  obtain ⟨m, hm, -, hlbest⟩ := ht.isAncestor_height hmrca.1 hb
  rw [hl] at hm; cases hm
  rw [← hbh] at hlbest
  have hfit : nl.height + batch.length ≤ t.bestHeight := by omega
  obtain ⟨hfirst, hchain⟩ := ht.activeRun_chain hidx hfit
  obtain ⟨w, ws, rfl⟩ := List.exists_cons_of_length_pos hpos
  refine ⟨l, nl, w :: ws, hmrca, hl, hrel, hlen, hpos, ?_, hchain, fun k w' hw => ?_⟩
  · -- the first header's parent is `l`
    exact congrArg some (Option.some.inj ((hfirst w rfl).symm.trans hlbest))
  · -- the `k`-th header is the active block at height `height l + k + 1`
    obtain ⟨hk, -⟩ := List.getElem?_eq_some_iff.1 hw
    obtain ⟨b, nb', hb', hnb', rfl⟩ := hidx k w' hw
    exact ⟨hb', UInt32.toNat_ofNat_of_lt (by unfold UInt32.size; omega)⟩

/-- `relay_header_batch(best, s)`, for the full node's tip and any other hash `s`, known to the
full node or not, returns without a panic, and what it passes to `headers.add` wraps blocks of the
active chain with their heights. -/
theorem WF.relayHeaderBatch_safe (ht : t.WF) (hbound : t.bestHeight + 1 < 2 ^ 31)
    (add : List (WrappedHeader Hash) → Except Error Unit) {s : Hash} (hne : s ≠ t.best) :
    ∃ batch r, t.relayHeaderBatch add t.best s = some (batch, r) ∧
      (∀ msg, r ≠ .error (.panic msg)) ∧ ∀ b ∈ batch, ∀ w ∈ b, t.ActiveHeader w := by
  obtain ⟨nb, hb⟩ := Option.isSome_iff_exists.1 ht.best
  have hbh := bestHeight_eq hb
  obtain ⟨ib, hib, -, hibh, -⟩ := headerInfo_of_node hb
  cases his : t.headerInfo s with
  | error e =>
    -- a hash the full node does not know: `get_block_header_info` fails
    exact ⟨none, .error (.err e), by simp [relayHeaderBatch, hib, his], by simp, by simp⟩
  | ok si =>
    obtain ⟨ns, hs⟩ := node_of_headerInfo his
    have hsh := (headerInfo_fields hs his).2.1
    by_cases hlt : t.bestHeight < ns.height
    · -- the full node is behind
      exact ⟨none, .ok (), relayHeaderBatch_of_behind hib his (by omega), by simp, by simp⟩
    · -- the next active run above the common ancestor
      obtain ⟨l, nl, batch, -, -, hnl, hrel, hlen, -, hrun⟩ :=
        ht.relayHeaderBatch_activeRun hbound add hs hne (by omega)
      refine ⟨some batch, _, hrel, fun msg => by cases add batch <;> simp [Except.mapError], ?_⟩
      rintro b ⟨⟩
      exact ht.activeHeader_of_activeRun (by omega) hrun
        (by rw [hlen]; unfold headerBatchSize; omega)

end Batch

end BlockTree

theorem relayHeaderBatch_submits_next_run_staleFork :
    staleFork.WF ∧ staleFork.bestHeight + 1 < 2 ^ 31 ∧ 12 ≠ staleFork.best ∧
    (staleFork.bestHeight < 2 →
      staleFork.relayHeaderBatch (fun _ => .ok ()) staleFork.best 12 = some (none, .ok ())) ∧
    (2 ≤ staleFork.bestHeight → ∃ l nl batch, staleFork.IsMrca l staleFork.best 12 ∧
      staleFork.node l = some nl ∧
      staleFork.relayHeaderBatch (fun _ => .ok ()) staleFork.best 12 = some (some batch, .ok ()) ∧
      batch.length = min 25 (staleFork.bestHeight - nl.height) ∧ 0 < batch.length ∧
      (batch.head?.map fun w => w.header.prevBlockhash) = some l ∧
      (∀ k w w', batch[k]? = some w → batch[k + 1]? = some w' →
        w'.header.prevBlockhash = w.header.hash) ∧
      ∀ k w, batch[k]? = some w →
        staleFork.ancestor staleFork.best (staleFork.bestHeight - (nl.height + k + 1)) =
          some w.header.hash ∧ w.height.toNat = nl.height + k + 1) :=
  ⟨staleFork_wf, by decide, by decide, BlockTree.relayHeaderBatch_submits_next_run staleFork_wf
    (by decide) (fun _ => .ok ()) (show staleFork.node 12 = some ⟨11, 2, []⟩ from rfl) (by decide)⟩

end Nomic.Bitcoin
