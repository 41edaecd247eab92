import Nomic.Bitcoin.DepositRelay
import Nomic.Bitcoin.HeaderRelay

/-!
# The header relay loop

`start_header_relay` calls `relay_headers` forever, again after each `Err` (after a sleep, with
`last_hash = None`). A pass of the loop of `relay_headers` reads the full node's tip and the
sidechain's. When they differ it runs `relay_header_batch` and loops at once; when they agree it
fetches the tip's block info, once per tip, and waits for a new block. Against a static full node
(`BlockTree`) the tip read is `best`, `get_block_info` fails only on an unknown block, and the wait
returns. The sidechain's header queue is code outside this repository, given by its answers
(`HeaderQueue`): the hash of its tip, the `Result` of `headers.add`, and the queue after an `add`
that returned `Ok`. `runHeaderRelay` runs `n` passes.

What is assumed, and stated as hypotheses rather than proved: the queue accepts every batch the
relayer passes to it, and its tip is then the batch's last header. Under them
(`runHeaderRelay_relays_active_chain`), from a sidechain tip `s` no higher than the full node's,
`n` passes submit the full node's active chain above the most recent common ancestor `l` of `s`
and the tip, in order, in batches of one to 25 headers, `min (25 n) (best height - height l)`
headers in all; once `25 n` covers that gap, the sidechain's tip is the full node's.

Without them, whatever the queue answers (`runHeaderRelay_submits_only_active`), the passes
neither panic nor hang, and every header passed to `headers.add` is one of the full node's active
chain, wrapped with its height.
-/

namespace Nomic.Bitcoin

variable {Hash Tx S : Type}

/-- The sidechain's header queue as the header relay sees it through `app_client.headers`: the
answer of `hash()` (with `sidechain_block_hash`'s conversion), the `Result` of `add(batch)`, and
the queue after an `add` that returned `Ok`. -/
structure HeaderQueue (S Hash : Type) where
  hash : S → Except Error Hash
  add : S → List (WrappedHeader Hash) → Except Error Unit
  push : S → List (WrappedHeader Hash) → S

namespace BlockTree

variable (t : BlockTree Hash Tx)

/-- `get_block_info(hash)` (`getblock`, verbose): the loop prints its hash and height. -/
def getBlockInfo (h : Hash) : Except Error (Hash × Nat) :=
  match t.node h with
  | none => .error (.rpc "Block not found")
  | some n => .ok (h, n.height)

section Code

variable [DecidableEq Hash] (q : HeaderQueue S Hash)

/-- One pass of the loop of `relay_headers`, from the queue `s` and `last_hash`: the queue and
`last_hash` after it (`none` after an `Err`, as `relay_headers` starts again), the batch passed to
`headers.add`, if any, and how the pass ends. -/
def relayHeadersPass (s : S) (lastHash : Option Hash) :
    S × Option Hash × Option (List (WrappedHeader Hash)) × PassEnd :=
  let fullnodeHash := t.best
  match q.hash s with
  | .error _ => (s, none, none, .running)
  | .ok sidechainHash =>
    if fullnodeHash ≠ sidechainHash then
      match t.relayHeaderBatch (q.add s) fullnodeHash sidechainHash with
      | none => (s, lastHash, none, .diverged)
      | some (batch, .error (.panic msg)) => (s, lastHash, batch, .panicked msg)
      | some (batch, .error (.err _)) => (s, none, batch, .running)
      | some (none, .ok ()) => (s, lastHash, none, .running)
      | some (some batch, .ok ()) => (q.push s batch, lastHash, some batch, .running)
    else if lastHash.isNone || lastHash.any (fun h => decide (h ≠ fullnodeHash)) then
      match t.getBlockInfo fullnodeHash with
      | .error _ => (s, none, none, .running)
      | .ok _ => (s, some fullnodeHash, none, .running)
    else (s, lastHash, none, .running)

/-- `n` passes of the loop, `relay_headers` starting again after an `Err`, until one panics or
does not return: the queue after them, the batches passed to `headers.add` in order, and how the
run ends. -/
def runHeaderRelay (s : S) (lastHash : Option Hash) :
    Nat → S × List (List (WrappedHeader Hash)) × PassEnd
  | 0 => (s, [], .running)
  | n + 1 =>
    match t.relayHeadersPass q s lastHash with
    | (s', lastHash', batch, .running) =>
      let r := runHeaderRelay s' lastHash' n
      (r.1, batch.toList ++ r.2.1, r.2.2)
    | (s', _, batch, e) => (s', batch.toList, e)

end Code

variable {t} {q : HeaderQueue S Hash} {s₀ : S} {s l : Hash} {ns nl : ChainNode Hash Tx}

theorem isMrca_of_isAncestor_best (hc : t.node s = some ns) (hact : t.IsAncestor s t.best) :
    t.IsMrca s t.best s :=
  ⟨hact, isAncestor_self hc, fun _ _ h => h⟩

section Passes

variable [DecidableEq Hash]

theorem runHeaderRelay_succ {s' : S} {lastHash lastHash' : Option Hash}
    {batch : Option (List (WrappedHeader Hash))} (n : Nat)
    (h : t.relayHeadersPass q s₀ lastHash = (s', lastHash', batch, .running)) :
    t.runHeaderRelay q s₀ lastHash (n + 1) =
      ((t.runHeaderRelay q s' lastHash' n).1, batch.toList ++ (t.runHeaderRelay q s' lastHash' n).2.1,
        (t.runHeaderRelay q s' lastHash' n).2.2) := by
  simp only [runHeaderRelay, h]

theorem WF.relayHeadersPass_of_best (ht : t.WF) (hs₀ : q.hash s₀ = .ok t.best)
    (lastHash : Option Hash) :
    t.relayHeadersPass q s₀ lastHash = (s₀, some t.best, none, .running) := by
  obtain ⟨nb, hb⟩ := Option.isSome_iff_exists.1 ht.best
  cases lastHash with
  | none => simp [relayHeadersPass, hs₀, getBlockInfo, hb]
  | some h => by_cases hh : h = t.best <;> simp [relayHeadersPass, hs₀, getBlockInfo, hb, hh]

theorem WF.relayHeadersPass_advance (ht : t.WF) (hbound : t.bestHeight + 1 < 2 ^ 31)
    (hadd : ∀ batch, q.add s₀ batch = .ok ())
    (hpush : ∀ batch w, batch.getLast? = some w → q.hash (q.push s₀ batch) = .ok w.header.hash)
    (hs₀ : q.hash s₀ = .ok s) (hs : t.node s = some ns) (hne : s ≠ t.best)
    (hle : ns.height ≤ t.bestHeight) (hl : t.IsMrca l t.best s) (hnl : t.node l = some nl)
    (lastHash : Option Hash) :
    ∃ batch c nc,
      t.relayHeadersPass q s₀ lastHash = (q.push s₀ batch, lastHash, some batch, .running) ∧
      batch.length = min headerBatchSize (t.bestHeight - nl.height) ∧ 0 < batch.length ∧
      t.ActiveRun nl.height batch ∧ q.hash (q.push s₀ batch) = .ok c ∧ t.node c = some nc ∧
      t.IsAncestor c t.best ∧ nc.height = nl.height + batch.length := by
  obtain ⟨l', nl', batch, hl', hnl', hlt, hrel, hlen, hpos, hrun⟩ :=
    ht.relayHeaderBatch_activeRun hbound (q.add s₀) hs hne hle
  obtain rfl := ht.isMrca_unique hl' hl
  rw [hnl] at hnl'; cases hnl'
  rw [hadd] at hrel
  obtain ⟨w, hw⟩ := Option.isSome_iff_exists.1 (List.getLast?_isSome.2 (List.ne_nil_of_length_pos hpos))
  obtain ⟨nc, hnc, hcact, hch⟩ := ht.activeRun_getLast hrun (by omega) hw
  refine ⟨batch, _, nc, ?_, hlen, hpos, hrun, hpush batch w hw, hnc, hcact, hch⟩
  simp only [relayHeadersPass, hs₀, if_pos (Ne.symm hne), hrel, Except.mapError]

theorem relayHeadersPass_of_relayHeaderBatch {batch : Option (List (WrappedHeader Hash))}
    {r : Except Fault Unit} (hs₀ : q.hash s₀ = .ok s) (hne : s ≠ t.best)
    (hrel : t.relayHeaderBatch (q.add s₀) t.best s = some (batch, r))
    (hnp : ∀ msg, r ≠ .error (.panic msg)) (lastHash : Option Hash) :
    ∃ s' lastHash', t.relayHeadersPass q s₀ lastHash = (s', lastHash', batch, .running) := by
  simp only [relayHeadersPass, hs₀, if_pos (Ne.symm hne), hrel]
  rcases r with (e | msg) | ⟨⟩
  · simp
  · exact absurd rfl (hnp msg)
  · cases batch <;> simp

theorem WF.relayHeadersPass_safe (ht : t.WF) (hbound : t.bestHeight + 1 < 2 ^ 31) (s₀ : S)
    (lastHash : Option Hash) :
    ∃ s' lastHash' batch, t.relayHeadersPass q s₀ lastHash = (s', lastHash', batch, .running) ∧
      ∀ b ∈ batch, ∀ w ∈ b, t.ActiveHeader w := by
  cases hs₀ : q.hash s₀ with
  | error e => exact ⟨s₀, none, none, by simp [relayHeadersPass, hs₀], by simp⟩
  | ok s =>
    by_cases hsb : s = t.best
    · subst hsb
      exact ⟨_, _, none, ht.relayHeadersPass_of_best hs₀ lastHash, by simp⟩
    · obtain ⟨batch, r, hrel, hnp, hact⟩ := ht.relayHeaderBatch_safe hbound (q.add s₀) hsb
      obtain ⟨s', lastHash', hpass⟩ := relayHeadersPass_of_relayHeaderBatch hs₀ hsb hrel hnp lastHash
      exact ⟨s', lastHash', batch, hpass, hact⟩

end Passes

/-! ### Runs -/

section Run

variable [DecidableEq Hash]

theorem headerBatch_gap (g n : Nat) :
    min 25 g + min (25 * n) (g - min 25 g) = min (25 * (n + 1)) g ∧
      (g ≤ 25 * (n + 1) → g - min 25 g ≤ 25 * n) := by
  omega

/-- From a queue whose tip `s` is no higher than the full node's, with `l` the most recent common
ancestor of `s` and the tip: `n` passes submit the active run above `l`, in batches of one to 25
headers, `min (25 n) (best height - height l)` headers in all, and once `25 n` covers that gap the
queue's tip is the full node's. -/
theorem WF.runHeaderRelay_gap (ht : t.WF) (hbound : t.bestHeight + 1 < 2 ^ 31)
    (hadd : ∀ s batch, q.add s batch = .ok ())
    (hpush : ∀ s batch w, batch.getLast? = some w → q.hash (q.push s batch) = .ok w.header.hash)
    (n : Nat) : ∀ {s₀ : S} {s l : Hash} {ns nl : ChainNode Hash Tx} (lastHash : Option Hash),
      q.hash s₀ = .ok s → t.node s = some ns → ns.height ≤ t.bestHeight →
      t.IsMrca l t.best s → t.node l = some nl →
      ∃ s' batches, t.runHeaderRelay q s₀ lastHash n = (s', batches, .running) ∧
        (∀ b ∈ batches, 0 < b.length ∧ b.length ≤ headerBatchSize) ∧
        batches.flatten.length = min (headerBatchSize * n) (t.bestHeight - nl.height) ∧
        t.ActiveRun nl.height batches.flatten ∧
        (t.bestHeight - nl.height ≤ headerBatchSize * n → q.hash s' = .ok t.best) := by
  induction n with
  | zero =>
    intro s₀ s l ns nl lastHash hs₀ hs hle hl hnl
    refine ⟨s₀, [], rfl, by simp, by simp, activeRun_nil _, fun hgap => ?_⟩
    rw [hs₀, ht.eq_best_of_isMrca hs hle hl hnl (by omega)]
  | succ n ih =>
    intro s₀ s l ns nl lastHash hs₀ hs hle hl hnl
    by_cases hsb : s = t.best
    · -- the tips agree: the pass waits, and the gap is empty
      subst hsb
      have hlb : l = t.best := ht.isMrca_unique hl (isMrca_of_isAncestor_best hs (isAncestor_self hs))
      subst hlb
      rw [hs] at hnl; cases hnl
      have hgap : t.bestHeight - ns.height = 0 := by rw [bestHeight_eq hs]; omega
      obtain ⟨s', batches, hrun, hsz, hlen, hidx, htip⟩ := ih (some t.best) hs₀ hs hle hl hs
      rw [runHeaderRelay_succ n (ht.relayHeadersPass_of_best hs₀ lastHash), hrun]
      exact ⟨s', batches, rfl, hsz, by rw [hlen, hgap, Nat.min_zero, Nat.min_zero], hidx,
        fun _ => htip (by omega)⟩
    · -- the pass submits the next run and moves the queue to its last header
      obtain ⟨batch, c, nc, hpass, hblen, hpos, hidx, hc₀, hnc, hcact, hch⟩ :=
        ht.relayHeadersPass_advance hbound (hadd s₀) (hpush s₀) hs₀ hs hsb hle hl hnl lastHash
      obtain ⟨s', batches, hrun, hsz, hlen, hidx', htip⟩ :=
        ih lastHash hc₀ hnc (by omega) (isMrca_of_isAncestor_best hnc hcact) hnc
      unfold headerBatchSize at hblen hlen htip ⊢
      rw [hch, hblen, ← Nat.sub_sub] at hlen htip
      obtain ⟨hsum, hleft⟩ := headerBatch_gap (t.bestHeight - nl.height) n
      rw [runHeaderRelay_succ n hpass, hrun]
      refine ⟨s', batch :: batches, rfl,
        List.forall_mem_cons.2 ⟨⟨hpos, hblen ▸ Nat.min_le_left _ _⟩, hsz⟩, ?_, ?_,
        fun hgap => htip (hleft hgap)⟩
      · rw [List.flatten_cons, List.length_append, hlen, hblen, hsum]
      · rw [List.flatten_cons]
        exact hidx.append (hch ▸ hidx')

/-- Against a static full node, with a header queue that accepts every batch and then has the
batch's last header as its tip, and from a sidechain tip `s` no higher than the full node's:
`n` passes of `relay_headers` neither panic nor stall, and submit the full node's active chain above
the most recent common ancestor `l` of `s` and the tip, in order and in batches of one to
`HEADER_BATCH_SIZE` headers, `min (25 n) (best height - height l)` headers in all; once `25 n`
covers that gap, the sidechain's tip is the full node's. -/
theorem WF.runHeaderRelay_relays_active_chain (ht : t.WF) (hbound : t.bestHeight + 1 < 2 ^ 31)
    (hadd : ∀ s batch, q.add s batch = .ok ())
    (hpush : ∀ s batch w, batch.getLast? = some w → q.hash (q.push s batch) = .ok w.header.hash)
    (hs₀ : q.hash s₀ = .ok s) (hs : t.node s = some ns) (hle : ns.height ≤ t.bestHeight)
    (lastHash : Option Hash) (n : Nat) :
    ∃ l nl, t.IsMrca l t.best s ∧ t.node l = some nl ∧
      ∃ s' batches, t.runHeaderRelay q s₀ lastHash n = (s', batches, .running) ∧
        (∀ b ∈ batches, 0 < b.length ∧ b.length ≤ headerBatchSize) ∧
        batches.flatten.length = min (headerBatchSize * n) (t.bestHeight - nl.height) ∧
        t.ActiveRun nl.height batches.flatten ∧
        (t.bestHeight - nl.height ≤ headerBatchSize * n → q.hash s' = .ok t.best) := by
  obtain ⟨nb, hb⟩ := Option.isSome_iff_exists.1 ht.best
  have hbh := bestHeight_eq hb
  obtain ⟨l, -, hl, -, -⟩ :=
    ht.commonAncestor_isMrca (by omega) hb hs (isAncestor_self hb) (by omega)
  obtain ⟨nl, hnl⟩ := hl.1.node
  exact ⟨l, nl, hl, hnl, ht.runHeaderRelay_gap hbound hadd hpush n lastHash hs₀ hs hle hl hnl⟩

/-- Against a static full node and whatever the sidechain's header queue answers (its tip may be
unknown to the full node, stale or ahead, and `headers.add` may fail): `n` passes of
`relay_headers` neither panic nor hang, and every header they pass to `headers.add` wraps a block
of the full node's active chain with that block's height. -/
theorem WF.runHeaderRelay_submits_only_active (ht : t.WF) (hbound : t.bestHeight + 1 < 2 ^ 31)
    (q : HeaderQueue S Hash) (n : Nat) :
    ∀ (s₀ : S) (lastHash : Option Hash), (t.runHeaderRelay q s₀ lastHash n).2.2 = .running ∧
      ∀ b ∈ (t.runHeaderRelay q s₀ lastHash n).2.1, ∀ w ∈ b, t.ActiveHeader w := by
  induction n with
  | zero => exact fun _ _ => ⟨rfl, by simp [runHeaderRelay]⟩
  | succ n ih =>
    intro s₀ lastHash
    obtain ⟨s', lastHash', batch, hpass, hact⟩ := ht.relayHeadersPass_safe (q := q) hbound s₀ lastHash
    obtain ⟨hrun, hrest⟩ := ih s' lastHash'
    rw [runHeaderRelay_succ n hpass]
    refine ⟨hrun, fun b hb => ?_⟩
    rcases List.mem_append.1 hb with hb | hb
    · exact hact b (Option.mem_toList.1 hb)
    · exact hrest b hb

end Run

end BlockTree

/-- A header queue holding only its tip, that accepts every batch and moves to its last
header. -/
def followQueue : HeaderQueue Nat Nat where
  hash := .ok
  add _ _ := .ok ()
  push s batch := (batch.getLast?.map fun w => w.header.hash).getD s

theorem followQueue_hash_push (s : Nat) {batch : List (WrappedHeader Nat)} {w : WrappedHeader Nat}
    (hw : batch.getLast? = some w) : followQueue.hash (followQueue.push s batch) = .ok w.header.hash := by
  simp [followQueue, hw]

theorem runHeaderRelay_relays_active_chain_staleFork :
    staleFork.WF ∧ staleFork.bestHeight + 1 < 2 ^ 31 ∧
    (∀ s batch, followQueue.add s batch = .ok ()) ∧
    (∀ s batch w, batch.getLast? = some w →
      followQueue.hash (followQueue.push s batch) = .ok w.header.hash) ∧
    followQueue.hash 12 = .ok 12 ∧ staleFork.node 12 = some ⟨11, 2, []⟩ ∧ 2 ≤ staleFork.bestHeight ∧
    ∃ l nl, staleFork.IsMrca l staleFork.best 12 ∧ staleFork.node l = some nl ∧
      ∃ s' batches, staleFork.runHeaderRelay followQueue 12 none 1 = (s', batches, .running) ∧
        (∀ b ∈ batches, 0 < b.length ∧ b.length ≤ headerBatchSize) ∧
        batches.flatten.length = min (headerBatchSize * 1) (staleFork.bestHeight - nl.height) ∧
        staleFork.ActiveRun nl.height batches.flatten ∧
        (staleFork.bestHeight - nl.height ≤ headerBatchSize * 1 →
          followQueue.hash s' = .ok staleFork.best) :=
  ⟨staleFork_wf, by decide, fun _ _ => rfl, fun s _ _ hw => followQueue_hash_push s hw, rfl, rfl,
    by decide, BlockTree.WF.runHeaderRelay_relays_active_chain staleFork_wf (by decide)
      (fun _ _ => rfl) (fun s _ _ hw => followQueue_hash_push s hw)
      (show followQueue.hash 12 = .ok 12 from rfl) (show staleFork.node 12 = some ⟨11, 2, []⟩ from rfl)
      (by decide) none 1⟩

/-- A header queue stuck on the stale `12` that rejects every batch. -/
def rejectQueue : HeaderQueue Nat Nat where
  hash _ := .ok 12
  add _ _ := .error (.rpc "rejected")
  push s _ := s

theorem runHeaderRelay_submits_only_active_rejectQueue :
    staleFork.WF ∧ staleFork.bestHeight + 1 < 2 ^ 31 ∧
      (staleFork.runHeaderRelay rejectQueue 12 none 3).2.2 = .running ∧
      ∀ b ∈ (staleFork.runHeaderRelay rejectQueue 12 none 3).2.1, ∀ w ∈ b, staleFork.ActiveHeader w :=
  ⟨staleFork_wf, by decide,
    BlockTree.WF.runHeaderRelay_submits_only_active staleFork_wf (by decide) rejectQueue 3 12 none⟩

end Nomic.Bitcoin
