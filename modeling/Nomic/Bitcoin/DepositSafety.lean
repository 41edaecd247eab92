import Nomic.Bitcoin.DepositCalls
import Nomic.Bitcoin.DepositCoverage

/-!
# The deposit relay never panics

A pass of `relay_deposits` has three places that could panic or fail to return: `common_ancestor`
(its loop, and the `unwrap` of a parent hash), the `usize` subtraction
`end_height - start_height`, and the subtractions `base_height - i` of `scan_for_deposits`.
Against a static full node whose tree is well formed, none of them fires, whatever the world
answers: the pairs announced and the checkpoints, the clock, the tips the sidechain reports
(unknown to the full node, stale or active, equal or not in the two reads), and the answers to
`maybe_relay_deposit`. Between passes the loop keeps one fact: a recorded tip is a block the full
node knows (`KnownTip`), since a pass records only a tip whose header info it read.

* `scanForDeposits_safe`: a scan of any window below any hash ends without a panic, and each call
  it makes is for an output the index watches of a block of the tree, with that block's hash and
  height (`TreeCall`).
* `scanPass_safe`, `relayPass_safe`: a pass from a known tip goes on, and records a known tip or
  none.
* `runRelay_safe`: every run keeps running, and every call of every pass is a `TreeCall` for the
  index the pass scanned with.
-/

namespace Nomic.Bitcoin

variable {Hash Sigset Address Script : Type}

/-- The recorded tip, if any, is a block the full node knows. -/
def KnownTip (t : BlockTree Hash (Transaction Script)) (prevTip : Option Hash) : Prop :=
  ∀ prev, prevTip = some prev → ∃ n, t.node prev = some n

@[simp] theorem knownTip_none (t : BlockTree Hash (Transaction Script)) : KnownTip t none :=
  fun _ h => nomatch h

variable [DecidableEq Script]

/-- `c` is the call for an output that `index` watches, of a block `b` the full node has, with
`b`'s hash and height. -/
def TreeCall (index : WatchedScripts Sigset Address Script) (t : BlockTree Hash (Transaction Script))
    (c : DepositCall Hash Address Script) : Prop :=
  ∃ b nb, t.node b = some nb ∧ c ∈ blockDeposits index (ChainNode.toBlock (b, nb)) nb.height

section Safe

variable {index : WatchedScripts Sigset Address Script} {t : BlockTree Hash (Transaction Script)}

theorem treeCall_of_mem_windowCalls {tip : Hash} {k : Nat} {c : DepositCall Hash Address Script}
    (hc : c ∈ windowCalls index t tip k) : TreeCall index t c := by
  obtain ⟨cs, hcs, hc⟩ := List.mem_flatten.1 hc
  obtain ⟨⟨b, nb⟩, hb, rfl⟩ := List.mem_map.1 hcs
  obtain ⟨-, -, -, hnb⟩ := t.mem_segment k tip (List.mem_reverse.1 hb)
  exact ⟨b, nb, hnb, hc⟩

variable [DecidableEq Hash] (relay : DepositCall Hash Address Script → Except Error Unit)
  (overflowChecks : Bool)

/-- On a well-formed tree, a scan of any number of blocks below any hash ends without a panic,
and each call it makes is for a watched output of a block of the tree, at that block's height. -/
theorem scanForDeposits_safe (ht : t.WF) (tip : Hash) (k : Nat) :
    (∀ msg, (scanForDeposits index relay overflowChecks t tip k).2 ≠ .error (.panic msg)) ∧
      ∀ c ∈ (scanForDeposits index relay overflowChecks t tip k).1.calls, TreeCall index t c := by
  cases hinfo : t.headerInfo tip with
  | error e => simp [scanForDeposits, hinfo]
  | ok info =>
    obtain ⟨n, hn⟩ := BlockTree.node_of_headerInfo hinfo
    by_cases hk : k ≤ n.height + 1
    · -- within the chain: the loop of `?` over the window's calls
      obtain ⟨r, hr, hres⟩ := scanForDeposits_window relay index ht overflowChecks hn k hk
      refine ⟨fun msg => ?_, fun c hc => treeCall_of_mem_windowCalls (hr.subset c hc)⟩
      rw [hres]
      rcases r with e | ⟨⟩ <;> simp [Except.mapError, Except.map]
    · -- past genesis: `last_n_blocks` fails before any call
      obtain ⟨e, he⟩ := ht.lastNBlocks_error k tip n hn (by omega)
      simp [scanForDeposits, hinfo, he]

theorem scanPass_safe (ht : t.WF) {prevTip : Option Hash} (hprev : KnownTip t prevTip)
    (p : Pass Hash Sigset Address) :
    (scanPass relay overflowChecks t index prevTip p).2.2 = .running ∧
      KnownTip t (scanPass relay overflowChecks t index prevTip p).1 ∧
      ∀ c ∈ (scanPass relay overflowChecks t index prevTip p).2.1.calls, TreeCall index t c := by
  unfold scanPass
  rcases htip : p.tip with e | tip
  · exact ⟨rfl, knownTip_none t, by simp⟩
  dsimp only
  split_ifs with hskip
  · exact ⟨rfl, hprev, by simp⟩
  cases hend : t.headerInfo tip with
  | error e =>
    -- a tip the full node does not know: `common_ancestor` fails on its header info
    simp [BlockTree.commonAncestor, hend]
  | ok endInfo =>
    obtain ⟨nt, hnt⟩ := BlockTree.node_of_headerInfo hend
    have hth := (BlockTree.headerInfo_fields hnt hend).2.1
    obtain ⟨nq, hnq⟩ : ∃ nq, t.node (prevTip.getD tip) = some nq := by
      cases prevTip with
      | none => exact ⟨nt, hnt⟩
      | some prev => exact hprev prev rfl
    -- the common ancestor is no higher than the tip, so the window's subtraction does not panic
    obtain ⟨start, hca, hle⟩ := ht.commonAncestor_ok hnt hnq
    simp only [hca, hend, subUsize_of_le (show start.height ≤ endInfo.height by omega)]
    rcases hscan : p.scanTip with e | scanTip
    · exact ⟨rfl, knownTip_none t, by simp⟩
    obtain ⟨hnp, hcalls⟩ := scanForDeposits_safe relay overflowChecks ht scanTip
      (max (endInfo.height - start.height) 1100)
    dsimp only
    rcases hs : scanForDeposits index relay overflowChecks t scanTip
      (max (endInfo.height - start.height) 1100) with ⟨trace, (f | msg) | r⟩
    all_goals rw [hs] at hnp hcalls
    · exact ⟨rfl, knownTip_none t, hcalls⟩
    · exact absurd rfl (hnp msg)
    · exact ⟨rfl, fun _ h => ⟨nt, Option.some.inj h ▸ hnt⟩, hcalls⟩

variable (api : SigsetApi Sigset Address Script) (text : AddressText Address)

/-- On a well-formed tree, a pass from a known recorded tip goes on, records a known tip or none,
and each call it makes is for an output its index watches, of a block of the tree. -/
theorem relayPass_safe (ht : t.WF) {st : RelayState Hash Sigset Address Script}
    (hst : KnownTip t st.prevTip) (p : Pass Hash Sigset Address) :
    (relayPass api text relay overflowChecks t st p).2.2 = .running ∧
      KnownTip t (relayPass api text relay overflowChecks t st p).1.prevTip ∧
      ∀ c ∈ (relayPass api text relay overflowChecks t st p).2.1.calls,
        TreeCall (relayPass api text relay overflowChecks t st p).1.store.scripts t c := by
  rcases hd : insertAnnouncedAddrs api text p.now (st.channel ++ p.sent) st.store with
    ⟨r, channel, store⟩
  rcases r with e | ⟨⟩
  · -- the drain failed: `relay_deposits` returns, and the loop starts again with no tip
    unfold relayPass
    rw [hd]
    exact ⟨rfl, knownTip_none t, by simp⟩
  · rw [relayPass_of_drain_ok api text relay overflowChecks t hd]
    exact scanPass_safe relay overflowChecks ht hst p

end Safe

variable [DecidableEq Hash] (api : SigsetApi Sigset Address Script) (text : AddressText Address)
  (relay : DepositCall Hash Address Script → Except Error Unit) (overflowChecks : Bool)

/-- Against a static full node whose tree is well formed, and whatever the world answers in each
pass (the pairs announced and their checkpoints, the clock, the two reads of the sidechain's tip,
the answers to `maybe_relay_deposit`): every run of `relay_deposits` from a recorded tip the full
node knows, or none, keeps running, so `common_ancestor` always returns and no `usize` subtraction
panics; and every `maybe_relay_deposit` call of a pass is for an output its index watches, of a
block the full node has, with that block's hash and height. -/
theorem runRelay_safe {t : BlockTree Hash (Transaction Script)} (ht : t.WF)
    (ps : List (Pass Hash Sigset Address)) :
    ∀ st : RelayState Hash Sigset Address Script, KnownTip t st.prevTip →
      (runRelay api text relay overflowChecks t st ps).2 = .running ∧
      ∀ s tr, (s, tr) ∈ (runRelay api text relay overflowChecks t st ps).1 →
        ∀ c ∈ tr.calls, TreeCall s.store.scripts t c := by
  induction ps with
  | nil => exact fun _ _ => ⟨rfl, fun _ _ h => absurd h (List.not_mem_nil _)⟩
  | cons p ps ih =>
    intro st hst
    obtain ⟨hrun, hknown, hcalls⟩ := relayPass_safe relay overflowChecks api text ht hst p
    obtain ⟨hrest, hcalls'⟩ := ih _ hknown
    rw [runRelay_cons_of_running api text relay overflowChecks t ps hrun]
    refine ⟨hrest, fun s tr hmem => ?_⟩
    rcases List.mem_cons.1 hmem with heq | hmem
    · obtain ⟨rfl, rfl⟩ := Prod.mk.inj heq
      exact hcalls
    · exact hcalls' s tr hmem

theorem runRelay_safe_forkTree :
    forkTree.WF ∧ KnownTip forkTree relayStart.prevTip ∧
      (runRelay pairApi decimalText (fun _ => .error (.rpc "rejected")) true forkTree relayStart
        [tipPass 2000 2000, tipPass 5000 1099, tipPass 1099 2001]).2 = .running ∧
      ∀ s tr, (s, tr) ∈ (runRelay pairApi decimalText (fun _ => .error (.rpc "rejected")) true
          forkTree relayStart [tipPass 2000 2000, tipPass 5000 1099, tipPass 1099 2001]).1 →
        ∀ c ∈ tr.calls, TreeCall s.store.scripts forkTree c :=
  ⟨forkTree_wf, knownTip_none _,
    runRelay_safe pairApi decimalText _ true forkTree_wf _ relayStart (knownTip_none _)⟩

end Nomic.Bitcoin
