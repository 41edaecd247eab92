import Nomic.Bitcoin.CommonAncestor
import Nomic.Bitcoin.DepositScan
import Nomic.Bitcoin.ScriptStore

/-!
# The deposit relay loop

`start_deposit_relay` calls `relay_deposits` forever, again after each `Err` (with a fresh
`prev_tip = None`). A pass of the loop sleeps, drains the announcement channel into the store
(`insert_announced_addrs`), reads the sidechain's tip, and unless it is the tip the last pass
recorded, computes the window `max(end_height - start_height, 1100)` from the common ancestor of
the tip and the previous tip, scans that many blocks below the tip `scan_for_deposits` reads again,
and records the tip. The model runs the loop over a list of passes (`runRelay`), each with what
the world does in it (`Pass`): the pairs sent on the channel, the clock, the two tip reads.

`drain_spec`: a drain takes a prefix of the channel and changes the index by exactly the inserts
of the pairs in it whose checkpoint exists, then possibly one `remove_expired`. Composed over the
passes (`Drained`), every pair taken with an existing checkpoint whose script derives is in the
index until a drain's clock reaches its sigset's deposit timeout (`relay_keeps_taken_pairs`);
a pair whose `checkpoints.get` fails in transport is taken and never inserted
(`relay_loses_pair_on_transport_error`). `relay_skips_fork_block`: the window is measured from
the first tip read but scanned below the second, so a block of a recorded tip's chain can be
missed. `relayPass_scans_above_ancestor` covers a pass whose two reads agree and whose two tips
are on the full node's active chain: it scans every block of the new tip's chain above the common
ancestor.
-/

namespace Nomic.Bitcoin

variable {Hash Sigset Address Script : Type} [DecidableEq Script]

/-- A pair `(addr, sigset_index)` sent on the announcement channel, with what the relayer meets
when it takes it: the answer of `checkpoints.get(sigset_index)` (outer: the transport; inner: the
sidechain's result, the checkpoint's sigset) and how the append of its line ends. -/
structure Announcement (Sigset Address : Type) where
  addr : Address
  answer : Except Error (Except Error Sigset)
  outcome : WriteOutcome

/-- The inserts a list of taken announcements asks for: one per pair whose checkpoint exists. -/
def announceCalls (as : List (Announcement Sigset Address)) : List (Call Sigset Address) :=
  as.filterMap fun a =>
    match a.answer with
    | .ok (.ok sigset) => some (.insert a.addr sigset)
    | _ => none

@[simp] theorem announceCalls_append (as bs : List (Announcement Sigset Address)) :
    announceCalls (as ++ bs) = announceCalls as ++ announceCalls bs :=
  List.filterMap_append _ _ _

theorem mem_announceCalls {as : List (Announcement Sigset Address)} {c : Call Sigset Address} :
    c ∈ announceCalls as ↔ ∃ a ∈ as, ∃ sigset, a.answer = .ok (.ok sigset) ∧ c = .insert a.addr sigset := by
  simp only [announceCalls, List.mem_filterMap]
  refine exists_congr fun a => and_congr_right fun _ => ?_
  rcases a.answer with _ | _ | sigset <;> simp [eq_comm]

/-- The relayer's state between passes: the pairs still on the channel, the store, `prev_tip`. -/
structure RelayState (Hash Sigset Address Script : Type) [DecidableEq Script] where
  channel : List (Announcement Sigset Address)
  store : WatchedScriptStore Sigset Address Script
  prevTip : Option Hash

/-- What the world does during one pass: the pairs sent on the channel since the last pass, the
clock `remove_expired` reads, and the two reads of the sidechain's tip (`sidechain_block_hash` in
`relay_deposits`, and again in `scan_for_deposits`). -/
structure Pass (Hash Sigset Address : Type) where
  sent : List (Announcement Sigset Address)
  now : Nat
  tip : Except Error Hash
  scanTip : Except Error Hash

/-- How a pass ends. -/
inductive PassEnd where
  /-- The loop goes on: after `continue`, a scan, or an `Err` (`relay_deposits` is called
  again). -/
  | running
  | panicked (msg : String)
  /-- `common_ancestor` does not return. -/
  | diverged
  deriving DecidableEq, Repr

section Drain

variable (api : SigsetApi Sigset Address Script) (text : AddressText Address)

/-- `insert_announced_addrs`: take pairs off the channel until it is empty, inserting each whose
checkpoint exists, then `remove_expired` at clock `now`. Returns the result, the pairs left on the
channel, and the store. -/
def insertAnnouncedAddrs (now : Nat) :
    List (Announcement Sigset Address) → WatchedScriptStore Sigset Address Script →
      Except Error Unit × List (Announcement Sigset Address) × WatchedScriptStore Sigset Address Script
  | [], st =>
    let r := st.scripts.removeExpired api now
    (r.1, [], { st with scripts := r.2 })
  | a :: rest, st =>
    match a.answer with
    | .error e => (.error e, rest, st)
    | .ok (.error _) => insertAnnouncedAddrs now rest st
    | .ok (.ok sigset) =>
      match st.insert api text a.outcome a.addr sigset with
      | (.error e, st) => (.error e, rest, st)
      | (.ok (), st) => insertAnnouncedAddrs now rest st

theorem drain_spec (now : Nat) (ch : List (Announcement Sigset Address))
    (st : WatchedScriptStore Sigset Address Script) :
    ∃ taken tail, ch = taken ++ (insertAnnouncedAddrs api text now ch st).2.1 ∧
      (insertAnnouncedAddrs api text now ch st).2.2.scripts =
        (announceCalls taken ++ tail).foldl (WatchedScripts.apply api) st.scripts ∧
      (tail = [] ∨ tail = [.removeExpired now]) := by
  induction ch generalizing st with
  | nil => exact ⟨[], [.removeExpired now], rfl, rfl, .inr rfl⟩
  | cons a rest ih =>
    simp only [insertAnnouncedAddrs]
    rcases ha : a.answer with e | _ | sigset <;> dsimp only
    · exact ⟨[a], [], rfl, by simp [announceCalls, ha], .inl rfl⟩
    · obtain ⟨taken, tail, hch, hs, ht⟩ := ih st
      exact ⟨a :: taken, tail, congrArg (List.cons a) hch, by simpa [announceCalls, ha] using hs, ht⟩
    · rcases hins : st.insert api text a.outcome a.addr sigset with ⟨r, st'⟩
      have hi := congrArg (fun x => x.2.scripts) hins
      simp only [WatchedScriptStore.insert_scripts] at hi
      rcases r with e | ⟨⟩ <;> dsimp only
      · exact ⟨[a], [], rfl, by simp [announceCalls, ha, WatchedScripts.apply, hi], .inl rfl⟩
      · obtain ⟨taken, tail, hch, hs, ht⟩ := ih st'
        exact ⟨a :: taken, tail, congrArg (List.cons a) hch,
          by simpa [announceCalls, ha, WatchedScripts.apply, hi] using hs, ht⟩

theorem insertAnnouncedAddrs_nil_new (now : Nat) (file : List Char) :
    insertAnnouncedAddrs api text now [] ⟨(.new : WatchedScripts Sigset Address Script), file⟩ =
      (.ok (), [], ⟨.new, file⟩) := rfl

end Drain

/-! ### One pass of the loop, and a run -/

section Loop

variable [DecidableEq Hash] (api : SigsetApi Sigset Address Script) (text : AddressText Address)
  (relay : DepositCall Hash Address Script → Except Error Unit) (overflowChecks : Bool)
  (t : BlockTree Hash (Transaction Script))

/-- A pass after its drain succeeded: read the tip, skip it when the last pass recorded it,
compute the window from the common ancestor with the previous tip, and scan. Returns the new
`prev_tip` (`none` after an `Err`, as `relay_deposits` starts again), the scan's trace, and how the
pass ends. -/
def scanPass (index : WatchedScripts Sigset Address Script) (prevTip : Option Hash)
    (p : Pass Hash Sigset Address) : Option Hash × ScanTrace Hash Address Script × PassEnd :=
  match p.tip with
  | .error _ => (none, ⟨[], []⟩, .running)
  | .ok tip =>
    if prevTip.isSome ∧ prevTip.getD tip = tip then (prevTip, ⟨[], []⟩, .running)
    else
      match t.commonAncestor tip (prevTip.getD tip) with
      | none => (prevTip, ⟨[], []⟩, .diverged)
      | some (.error (.panic msg)) => (prevTip, ⟨[], []⟩, .panicked msg)
      | some (.error (.err _)) => (none, ⟨[], []⟩, .running)
      | some (.ok start) =>
        match t.headerInfo tip with
        | .error _ => (none, ⟨[], []⟩, .running)
        | .ok endInfo =>
          match subUsize overflowChecks endInfo.height start.height with
          | .error (.panic msg) => (prevTip, ⟨[], []⟩, .panicked msg)
          | .error (.err _) => (none, ⟨[], []⟩, .running)
          | .ok d =>
            match p.scanTip with
            | .error _ => (none, ⟨[], []⟩, .running)
            | .ok scanTip =>
              match scanForDeposits index relay overflowChecks t scanTip (max d 1100) with
              | (trace, .error (.panic msg)) => (prevTip, trace, .panicked msg)
              | (trace, .error (.err _)) => (none, trace, .running)
              | (trace, .ok _) => (some tip, trace, .running)

/-- One pass of the `relay_deposits` loop: the pairs sent since the last pass join the channel,
the drain runs (`insert_announced_addrs(recv).await?`), and then the rest of the pass. -/
def relayPass (st : RelayState Hash Sigset Address Script) (p : Pass Hash Sigset Address) :
    RelayState Hash Sigset Address Script × ScanTrace Hash Address Script × PassEnd :=
  let d := insertAnnouncedAddrs api text p.now (st.channel ++ p.sent) st.store
  match d.1 with
  | .error _ => (⟨d.2.1, d.2.2, none⟩, ⟨[], []⟩, .running)
  | .ok () =>
    let r := scanPass relay overflowChecks t d.2.2.scripts st.prevTip p
    (⟨d.2.1, d.2.2, r.1⟩, r.2)

/-- The passes of the loop until one panics or does not return: the state and the scan's trace
after each pass, and how the run ends. -/
def runRelay (st : RelayState Hash Sigset Address Script) :
    List (Pass Hash Sigset Address) →
      List (RelayState Hash Sigset Address Script × ScanTrace Hash Address Script) × PassEnd
  | [] => ([], .running)
  | p :: ps =>
    let r := relayPass api text relay overflowChecks t st p
    if r.2.2 = .running then ((r.1, r.2.1) :: (runRelay r.1 ps).1, (runRelay r.1 ps).2)
    else ([(r.1, r.2.1)], r.2.2)

theorem relayPass_channel_store (st : RelayState Hash Sigset Address Script)
    (p : Pass Hash Sigset Address) :
    (relayPass api text relay overflowChecks t st p).1.channel =
        (insertAnnouncedAddrs api text p.now (st.channel ++ p.sent) st.store).2.1 ∧
      (relayPass api text relay overflowChecks t st p).1.store =
        (insertAnnouncedAddrs api text p.now (st.channel ++ p.sent) st.store).2.2 := by
  unfold relayPass
  dsimp only
  split <;> exact ⟨rfl, rfl⟩

theorem relayPass_of_drain_ok {st : RelayState Hash Sigset Address Script}
    {p : Pass Hash Sigset Address} {channel : List (Announcement Sigset Address)}
    {store : WatchedScriptStore Sigset Address Script}
    (hd : insertAnnouncedAddrs api text p.now (st.channel ++ p.sent) st.store = (.ok (), channel, store)) :
    relayPass api text relay overflowChecks t st p =
      (⟨channel, store, (scanPass relay overflowChecks t store.scripts st.prevTip p).1⟩,
        (scanPass relay overflowChecks t store.scripts st.prevTip p).2) := by
  unfold relayPass
  rw [hd]

theorem scanPass_of_scan {index : WatchedScripts Sigset Address Script} {prevTip : Option Hash}
    {p : Pass Hash Sigset Address} {tip scanTip : Hash} {start endInfo : HeaderInfo Hash}
    {numBlocks : Nat} {trace : ScanTrace Hash Address Script}
    (htip : p.tip = .ok tip) (hprev : prevTip ≠ some tip)
    (hca : t.commonAncestor tip (prevTip.getD tip) = some (.ok start))
    (hend : t.headerInfo tip = .ok endInfo) (hle : start.height ≤ endInfo.height)
    (hnum : max (endInfo.height - start.height) 1100 = numBlocks) (hscanTip : p.scanTip = .ok scanTip)
    (hscan : scanForDeposits index relay overflowChecks t scanTip numBlocks = (trace, .ok scanTip)) :
    scanPass relay overflowChecks t index prevTip p = (some tip, trace, .running) := by
  have hskip : ¬ (prevTip.isSome ∧ prevTip.getD tip = tip) := by
    cases prevTip <;> simp_all
  simp only [scanPass, htip, hskip, if_false, hca, hend, subUsize_of_le hle, hscanTip, hnum, hscan]

theorem relayPass_of_scan (st : RelayState Hash Sigset Address Script) (p : Pass Hash Sigset Address)
    {channel : List (Announcement Sigset Address)} {store : WatchedScriptStore Sigset Address Script}
    {tip scanTip : Hash} {start endInfo : HeaderInfo Hash} {numBlocks : Nat}
    {trace : ScanTrace Hash Address Script}
    (hd : insertAnnouncedAddrs api text p.now (st.channel ++ p.sent) st.store = (.ok (), channel, store))
    (htip : p.tip = .ok tip) (hprev : st.prevTip ≠ some tip)
    (hca : t.commonAncestor tip (st.prevTip.getD tip) = some (.ok start))
    (hend : t.headerInfo tip = .ok endInfo) (hle : start.height ≤ endInfo.height)
    (hnum : max (endInfo.height - start.height) 1100 = numBlocks) (hscanTip : p.scanTip = .ok scanTip)
    (hscan : scanForDeposits store.scripts relay overflowChecks t scanTip numBlocks = (trace, .ok scanTip)) :
    relayPass api text relay overflowChecks t st p = (⟨channel, store, some tip⟩, trace, .running) := by
  rw [relayPass_of_drain_ok api text relay overflowChecks t hd,
    scanPass_of_scan relay overflowChecks t htip hprev hca hend hle hnum hscanTip hscan]

/-! ### What the drains do to the index over a run -/

/-- `st'` follows `st` after drains that took, in order, the pairs on `st`'s channel and then those
in `sent`, up to what is left on `st'`'s channel, at clocks among `nows`: the index received the
inserts of the taken pairs whose checkpoint exists, and `remove_expired` calls at those clocks. -/
def Drained (st st' : RelayState Hash Sigset Address Script)
    (sent : List (Announcement Sigset Address)) (nows : List Nat) : Prop :=
  ∃ (taken : List (Announcement Sigset Address)) (calls : List (Call Sigset Address)),
    st.channel ++ sent = taken ++ st'.channel ∧
    st'.store.scripts = calls.foldl (WatchedScripts.apply api) st.store.scripts ∧
    (∀ c ∈ announceCalls taken, c ∈ calls) ∧
    ∀ c ∈ calls, c ∈ announceCalls taken ∨ ∃ now ∈ nows, c = .removeExpired now

variable {api}

omit [DecidableEq Hash] in
theorem Drained.trans {st₁ st₂ st₃ : RelayState Hash Sigset Address Script}
    {sent₁ sent₂ : List (Announcement Sigset Address)} {nows₁ nows₂ : List Nat}
    (h₁ : Drained api st₁ st₂ sent₁ nows₁) (h₂ : Drained api st₂ st₃ sent₂ nows₂) :
    Drained api st₁ st₃ (sent₁ ++ sent₂) (nows₁ ++ nows₂) := by
  obtain ⟨taken₁, calls₁, hch₁, hs₁, hin₁, hout₁⟩ := h₁
  obtain ⟨taken₂, calls₂, hch₂, hs₂, hin₂, hout₂⟩ := h₂
  refine ⟨taken₁ ++ taken₂, calls₁ ++ calls₂, ?_, by rw [hs₂, hs₁, List.foldl_append], ?_, ?_⟩
  · rw [← List.append_assoc, hch₁, List.append_assoc, hch₂, List.append_assoc]
  · simp only [announceCalls_append, List.mem_append]
    exact fun c hc => hc.imp (hin₁ c) (hin₂ c)
  · simp only [announceCalls_append, List.mem_append]
    rintro c (hc | hc)
    · exact (hout₁ c hc).imp .inl fun ⟨now, hn, he⟩ => ⟨now, .inl hn, he⟩
    · exact (hout₂ c hc).imp .inr fun ⟨now, hn, he⟩ => ⟨now, .inr hn, he⟩

variable (api)

theorem drained_relayPass (st : RelayState Hash Sigset Address Script)
    (p : Pass Hash Sigset Address) :
    Drained api st (relayPass api text relay overflowChecks t st p).1 p.sent [p.now] := by
  obtain ⟨hch, hstore⟩ := relayPass_channel_store api text relay overflowChecks t st p
  obtain ⟨taken, tail, hd, hs, htail⟩ := drain_spec api text p.now (st.channel ++ p.sent) st.store
  refine ⟨taken, announceCalls taken ++ tail, by rw [hch]; exact hd, by rw [hstore]; exact hs,
    fun c hc => List.mem_append_left _ hc, fun c hc => ?_⟩
  rcases List.mem_append.1 hc with hc | hc
  · exact .inl hc
  · rcases htail with rfl | rfl
    · cases hc
    · exact .inr ⟨p.now, List.mem_singleton_self _, List.mem_singleton.1 hc⟩

theorem drained_runRelay (ps : List (Pass Hash Sigset Address)) :
    ∀ (st : RelayState Hash Sigset Address Script) k st' trace,
      (runRelay api text relay overflowChecks t st ps).1[k]? = some (st', trace) →
        Drained api st st' ((ps.take (k + 1)).map Pass.sent).flatten
          ((ps.take (k + 1)).map Pass.now) := by
  induction ps with
  | nil => intro st k st' trace h; simp [runRelay] at h
  | cons p ps ih =>
    intro st k st' trace h
    have hp := drained_relayPass api text relay overflowChecks t st p
    simp only [runRelay] at h
    split_ifs at h <;> rcases k with _ | k <;>
      simp only [List.getElem?_cons_zero, List.getElem?_cons_succ, List.getElem?_nil,
        Option.some.injEq, Prod.mk.injEq, reduceCtorEq] at h
    · obtain ⟨rfl, rfl⟩ := h
      simpa using hp
    · simpa using hp.trans (ih _ k st' trace h)
    · obtain ⟨rfl, rfl⟩ := h
      simpa using hp

/-- A pair taken off the channel by the end of the `k`-th pass, whose `checkpoints.get` returned a
checkpoint whose sigset derives the pair's script, is in the index after that pass when no drain
so far read a clock at or past the sigset's deposit timeout, given the index's preconditions over
its history and all the inserts the announcements ask for. -/
theorem relay_keeps_taken_pairs (h₀ : List (Call Sigset Address))
    (st : RelayState Hash Sigset Address Script) (hst : st.store.scripts = WatchedScripts.run api h₀)
    (ps : List (Pass Hash Sigset Address))
    (hp : Preconditions api (h₀ ++ announceCalls (st.channel ++ (ps.map Pass.sent).flatten)))
    (k : Nat) (st' : RelayState Hash Sigset Address Script) (trace : ScanTrace Hash Address Script)
    (hk : (runRelay api text relay overflowChecks t st ps).1[k]? = some (st', trace))
    (taken : List (Announcement Sigset Address))
    (htaken : st.channel ++ ((ps.take (k + 1)).map Pass.sent).flatten = taken ++ st'.channel)
    (a : Announcement Sigset Address) (ha : a ∈ taken) (sigset : Sigset)
    (hans : a.answer = .ok (.ok sigset)) (script : Script)
    (hs : api.outputScript sigset a.addr = .ok script)
    (hnow : ∀ p ∈ ps.take (k + 1), p.now < api.depositTimeout sigset) :
    st'.store.scripts.get script = some (a.addr, api.index sigset) := by
  obtain ⟨taken', calls, hch, hsc, hin, hout⟩ :=
    drained_runRelay api text relay overflowChecks t ps st k st' trace hk
  obtain rfl : taken' = taken := List.append_cancel_right (hch.symm.trans htaken)
  have hrun : st'.store.scripts = WatchedScripts.run api (h₀ ++ calls) := by
    rw [hsc, hst, WatchedScripts.run, WatchedScripts.run, List.foldl_append]
  have hsent : ∀ b ∈ taken', b ∈ st.channel ++ (ps.map Pass.sent).flatten := fun b hb => by
    have hb' : b ∈ st.channel ++ ((ps.take (k + 1)).map Pass.sent).flatten := by
      rw [htaken]; exact List.mem_append_left _ hb
    simp only [List.mem_append, List.mem_flatten, List.mem_map] at hb' ⊢
    exact hb'.imp_right fun ⟨l, ⟨q, hq, hl⟩, hbl⟩ => ⟨l, ⟨q, List.mem_of_mem_take hq, hl⟩, hbl⟩
  have hpre : Preconditions api (h₀ ++ calls) := hp.mono api fun a' s' hm => by
    rcases List.mem_append.1 hm with hm | hm
    · exact List.mem_append_left _ hm
    · rcases hout _ hm with hm | ⟨_, _, he⟩
      · obtain ⟨b, hb, s, hbs, he⟩ := mem_announceCalls.1 hm
        exact List.mem_append_right _ (mem_announceCalls.2 ⟨b, hsent b hb, s, hbs, he⟩)
      · cases he
  have hmem : Call.insert a.addr sigset ∈ calls := hin _ (mem_announceCalls.2 ⟨a, ha, sigset, hans, rfl⟩)
  obtain ⟨pre, post, hcalls⟩ := List.append_of_mem hmem
  have hlive : LiveWith api (h₀ ++ calls) script a.addr sigset := by
    refine ⟨h₀ ++ pre, post, by rw [hcalls, List.append_assoc], hs, fun now hm => ?_⟩
    rcases hout _ (by rw [hcalls]; exact List.mem_append_right _ (List.mem_cons_of_mem _ hm)) with
      hm' | ⟨now', hn', he⟩
    · obtain ⟨_, _, _, _, he⟩ := mem_announceCalls.1 hm'
      cases he
    · cases he
      obtain ⟨q, hq, rfl⟩ := List.mem_map.1 hn'
      exact hnow q hq
  rw [hrun]
  exact (run_get_iff _ hpre script a.addr (api.index sigset)).2 ⟨sigset, rfl, hlive⟩

/-- A pass whose two tip reads agree (the sidechain's tip does not move between `relay_deposits`
and `scan_for_deposits`), with the recorded tip `prev` and the new tip both on the full node's
active chain and the new tip at height 1099 or more, records the new tip after passing to
`relevant_txs` every block of its chain above the most recent common ancestor of the two. -/
theorem relayPass_scans_above_ancestor (ht : t.WF) (hbound : t.bestHeight + 1 < 2 ^ 31)
    (hrelay : ∀ c, relay c = .ok ()) (st : RelayState Hash Sigset Address Script)
    (p : Pass Hash Sigset Address) {channel : List (Announcement Sigset Address)}
    {store : WatchedScriptStore Sigset Address Script} {prev tip : Hash}
    {ntip : ChainNode Hash (Transaction Script)}
    (hd : insertAnnouncedAddrs api text p.now (st.channel ++ p.sent) st.store =
      (.ok (), channel, store))
    (hprev : st.prevTip = some prev) (htip : p.tip = .ok tip) (hscanTip : p.scanTip = .ok tip)
    (hne : prev ≠ tip) (hnt : t.node tip = some ntip) (h1099 : 1099 ≤ ntip.height)
    (hta : t.IsAncestor tip t.best) (hpa : t.IsAncestor prev t.best) :
    ∃ l nl trace, t.IsMrca l tip prev ∧ t.node l = some nl ∧
      relayPass api text relay overflowChecks t st p = (⟨channel, store, some tip⟩, trace, .running) ∧
      ∀ b nb, t.IsAncestor b tip → t.node b = some nb → nl.height < nb.height →
        b ∈ trace.scanned := by
  obtain ⟨nprev, hnp⟩ := hpa.node
  -- the window runs from the common ancestor, which `common_ancestor` finds on the active chain
  obtain ⟨l, r, hmrca, hlr, hca⟩ :=
    ht.commonAncestor_isMrca_of_active (by omega) hnt hnp hta hpa
  obtain ⟨nl, hl⟩ := hmrca.1.node
  obtain ⟨-, hrh, -⟩ := BlockTree.headerInfo_fields hl hlr
  obtain ⟨m, hm, hle, -⟩ := ht.isAncestor_height hmrca.1 hnt
  rw [hl] at hm; cases hm
  obtain ⟨ei, hei, -, heih, -⟩ := BlockTree.headerInfo_of_node hnt
  have hk : max (ntip.height - nl.height) 1100 ≤ ntip.height + 1 := by omega
  refine ⟨l, nl, _, hmrca, hl, relayPass_of_scan api text relay overflowChecks t st p hd htip
    (by rw [hprev]; exact fun h => hne (Option.some.inj h)) (by rw [hprev]; exact hca) hei
    (by omega) (by rw [hrh, heih]) hscanTip (scanForDeposits_segment ht overflowChecks hrelay hnt _ hk),
    fun b nb hb hnb hgt => ?_⟩
  -- a block of the tip's chain above the ancestor is in the scanned segment
  obtain ⟨m, hm, hble, hdepth⟩ := ht.isAncestor_height hb hnt
  rw [hnb] at hm; cases hm
  exact List.mem_map.2 ⟨(b, nb), List.mem_reverse.2
    (BlockTree.mem_segment_of_ancestor _ _ _ hdepth hnb (by omega)), rfl⟩

end Loop

/-! ### Runs on concrete trees -/

/-- An empty channel, an empty store, and no recorded tip: the state `relay_deposits` starts in
on a fresh store. -/
def relayStart : RelayState Nat UInt32 UInt32 (UInt32 × UInt32) := ⟨[], ⟨.new, []⟩, none⟩

/-- The announcement of the pair `(7, 1)`, whose checkpoint has the sigset `1`. -/
def announce₇₁ : Announcement UInt32 UInt32 := ⟨7, .ok (.ok 1), .ok⟩

/-- A pass that takes `(7, 1)` at clock `0` and reads the tip `1` twice. -/
def insertPass : Pass Nat UInt32 UInt32 := ⟨[announce₇₁], 0, .ok 1, .ok 1⟩

theorem relay_keeps_taken_pairs_twoBlocks :
    ∃ st' trace, relayStart.store.scripts = WatchedScripts.run pairApi [] ∧
      Preconditions pairApi
        ([] ++ announceCalls (relayStart.channel ++ ([insertPass].map Pass.sent).flatten)) ∧
      (runRelay pairApi decimalText acceptDeposits true twoBlocks relayStart [insertPass]).1[0]? =
        some (st', trace) ∧
      relayStart.channel ++ (([insertPass].take (0 + 1)).map Pass.sent).flatten =
        [announce₇₁] ++ st'.channel ∧
      announce₇₁ ∈ [announce₇₁] ∧ announce₇₁.answer = .ok (.ok 1) ∧
      pairApi.outputScript 1 announce₇₁.addr = .ok (7, 1) ∧
      (∀ p ∈ [insertPass].take (0 + 1), p.now < pairApi.depositTimeout 1) ∧
      st'.store.scripts.get (7, 1) = some (announce₇₁.addr, pairApi.index 1) := by
  obtain ⟨st', trace, hk, hch⟩ : ∃ st' trace,
      (runRelay pairApi decimalText acceptDeposits true twoBlocks relayStart [insertPass]).1[0]? =
        some (st', trace) ∧ st'.channel = [] := ⟨_, _, rfl, rfl⟩
  have htaken : relayStart.channel ++ (([insertPass].take (0 + 1)).map Pass.sent).flatten =
      [announce₇₁] ++ st'.channel := by rw [hch]; rfl
  exact ⟨st', trace, rfl, pairApi_preconditions _, hk, htaken, List.mem_singleton_self _, rfl, rfl,
    by decide, relay_keeps_taken_pairs pairApi decimalText acceptDeposits true twoBlocks [] relayStart
      rfl [insertPass] (pairApi_preconditions _) 0 st' trace hk [announce₇₁] htaken announce₇₁
      (List.mem_singleton_self _) 1 rfl (7, 1) rfl (by decide)⟩

/-- A pass in which `checkpoints.get` of the pair `(7, 1)` fails in transport, and a pass with
nothing announced after it; both read the tip `1`. -/
def lostPasses : List (Pass Nat UInt32 UInt32) :=
  [⟨[⟨7, .error (.rpc "connection refused"), .ok⟩], 0, .ok 1, .ok 1⟩, ⟨[], 0, .ok 1, .ok 1⟩]

/-- The pair `(7, 1)`, whose checkpoint exists and derives the script `(7, 1)`, is taken off the
channel by a drain whose `checkpoints.get` fails in transport; after the retry the channel is
empty and the index still does not watch the script. -/
theorem relay_loses_pair_on_transport_error :
    ∃ s₁ tr₁ s₂ tr₂,
      runRelay pairApi decimalText acceptDeposits true twoBlocks relayStart lostPasses =
        ([(s₁, tr₁), (s₂, tr₂)], .running) ∧
      s₁.channel = [] ∧ s₂.channel = [] ∧ pairApi.outputScript 1 7 = .ok (7, 1) ∧
      s₂.store.scripts.get (7, 1) = none :=
  ⟨_, _, _, _, rfl, rfl, rfl, rfl, rfl⟩

/-- A chain of 1100 blocks `0 … 1099` (genesis `0`, whose parent hash `5000` is no block) and two
children of `1099`: `2000`, and `2001`, the active tip. -/
def forkTree : BlockTree Nat (Transaction (UInt32 × UInt32)) where
  node h :=
    if h < 1100 then some ⟨if h = 0 then 5000 else h - 1, h, []⟩
    else if h = 2000 ∨ h = 2001 then some ⟨1099, 1100, []⟩ else none
  best := 2001

theorem forkTree_node_lt {h : Nat} (hh : h < 1100) :
    forkTree.node h = some ⟨if h = 0 then 5000 else h - 1, h, []⟩ := if_pos hh

theorem forkTree_node_ge {h : Nat} (hh : ¬ h < 1100) :
    forkTree.node h = if h = 2000 ∨ h = 2001 then some ⟨1099, 1100, []⟩ else none := if_neg hh

theorem forkTree_wf : forkTree.WF where
  parent h n hn hpos := by
    by_cases hlt : h < 1100
    · rw [forkTree_node_lt hlt] at hn
      cases hn
      have h0 : h ≠ 0 := Nat.pos_iff_ne_zero.1 hpos
      dsimp only
      rw [if_neg h0, forkTree_node_lt (by omega)]
      exact ⟨_, rfl, Nat.sub_add_cancel hpos⟩
    · rw [forkTree_node_ge hlt] at hn
      split_ifs at hn
      cases hn
      exact ⟨_, rfl, rfl⟩
  genesis h n hn h0 := by
    by_cases hlt : h < 1100
    · rw [forkTree_node_lt hlt] at hn
      cases hn
      cases h0
      rfl
    · rw [forkTree_node_ge hlt] at hn
      split_ifs at hn
      cases hn
      cases h0
  single_genesis h h' n n' hn hn' h0 h0' := by
    simp only [forkTree] at hn hn'
    split_ifs at hn hn' <;> cases hn <;> cases hn' <;> simp_all
  best := rfl

theorem forkTree_ancestor_lt (i : Nat) :
    ∀ h a, h < 1100 → forkTree.ancestor h i = some a → a < 1100 := by
  induction i with
  | zero =>
    intro h a hh ha
    rw [BlockTree.ancestor_zero (forkTree_node_lt hh)] at ha
    cases ha
    exact hh
  | succ i ih =>
    intro h a hh ha
    rw [BlockTree.ancestor_succ (forkTree_node_lt hh)] at ha
    dsimp only at ha
    split_ifs at ha with h0
    · rw [BlockTree.ancestor_of_node_none rfl] at ha
      cases ha
    · exact ih _ _ (by omega) ha

theorem forkTree_not_mem_scanned {h : Nat} (hh : h < 1100 ∨ h = 2001) (k : Nat) :
    2000 ∉ (forkTree.segment h k).reverse.map Prod.fst := by
  simp only [List.mem_map, List.mem_reverse, not_exists, not_and]
  rintro ⟨a, m⟩ hm (rfl : a = 2000)
  obtain ⟨i, -, ha, -⟩ := BlockTree.mem_segment k h hm
  rcases hh with hh | rfl
  · exact absurd (forkTree_ancestor_lt i h _ hh ha) (by decide)
  · have hn : forkTree.node 2001 = some ⟨1099, 1100, []⟩ := rfl
    rcases i with _ | i
    · rw [BlockTree.ancestor_zero hn] at ha
      cases ha
    · rw [BlockTree.ancestor_succ hn] at ha
      exact absurd (forkTree_ancestor_lt i 1099 _ (by decide) ha) (by decide)

/-- A pass with nothing announced, at clock `0`, whose two tip reads give `tip` and `scanTip`. -/
def tipPass (tip scanTip : Nat) : Pass Nat UInt32 UInt32 := ⟨[], 0, .ok tip, .ok scanTip⟩

/-- The first pass reads the tip `1099` twice and scans below it. In the second, `relay_deposits`
reads `2000`, whose common ancestor with `1099` is `1099` itself, so the window is 1100 blocks; the
sidechain then moves to `2001`, and `scan_for_deposits` scans below that. Both passes record their
tip, and neither scan passes block `2000` (a child of `1099`) to `relevant_txs`. -/
theorem relay_skips_fork_block :
    forkTree.WF ∧ ∃ s₀ tr₀ s₁ tr₁,
      runRelay pairApi decimalText acceptDeposits true forkTree relayStart
          [tipPass 1099 1099, tipPass 2000 2001] = ([(s₀, tr₀), (s₁, tr₁)], .running) ∧
      s₀.prevTip = some 1099 ∧ s₁.prevTip = some 2000 ∧
      forkTree.node 2000 = some ⟨1099, 1100, []⟩ ∧ 2000 ∉ tr₀.scanned ∧ 2000 ∉ tr₁.scanned := by
  have hi₁₀₉₉ : forkTree.headerInfo 1099 = .ok ⟨1099, 2, 1099, some 1098, some 2001⟩ := rfl
  have hi₂₀₀₀ : forkTree.headerInfo 2000 = .ok ⟨2000, -1, 1100, some 1099, none⟩ := rfl
  have hn₁₀₉₉ : forkTree.node 1099 = some ⟨1098, 1099, []⟩ := rfl
  have hn₂₀₀₁ : forkTree.node 2001 = some ⟨1099, 1100, []⟩ := rfl
  have hca₀ : forkTree.commonAncestor 1099 ((none : Option Nat).getD 1099) =
      some (.ok ⟨1099, 2, 1099, some 1098, some 2001⟩) := rfl
  have hca₁ : forkTree.commonAncestor 2000 ((some 1099 : Option Nat).getD 2000) =
      some (.ok ⟨1099, 2, 1099, some 1098, some 2001⟩) := rfl
  -- the first pass scans the 1100 blocks below `1099`
  obtain ⟨tr₀, h₀, hn₀⟩ : ∃ tr, relayPass pairApi decimalText acceptDeposits true forkTree relayStart
      (tipPass 1099 1099) = (⟨[], ⟨.new, []⟩, some 1099⟩, tr, .running) ∧ 2000 ∉ tr.scanned :=
    ⟨_, relayPass_of_scan _ _ _ _ _ relayStart (tipPass 1099 1099)
      (insertAnnouncedAddrs_nil_new _ _ 0 []) rfl (by simp [relayStart]) hca₀ hi₁₀₉₉ le_rfl rfl rfl
      (scanForDeposits_segment forkTree_wf true (fun _ => rfl) hn₁₀₉₉ 1100 (by decide)),
      by dsimp only; exact forkTree_not_mem_scanned (.inl (by decide)) 1100⟩
  -- the second measures the window at `2000` and scans the 1100 blocks below `2001`
  obtain ⟨tr₁, h₁, hn₁⟩ : ∃ tr, relayPass pairApi decimalText acceptDeposits true forkTree
      ⟨[], ⟨.new, []⟩, some 1099⟩ (tipPass 2000 2001) =
        (⟨[], ⟨.new, []⟩, some 2000⟩, tr, .running) ∧ 2000 ∉ tr.scanned :=
    ⟨_, relayPass_of_scan _ _ _ _ _ _ (tipPass 2000 2001)
      (insertAnnouncedAddrs_nil_new _ _ 0 []) rfl (by simp) hca₁ hi₂₀₀₀ (by decide) rfl rfl
      (scanForDeposits_segment forkTree_wf true (fun _ => rfl) hn₂₀₀₁ 1100 (by decide)),
      by dsimp only; exact forkTree_not_mem_scanned (.inr rfl) 1100⟩
  refine ⟨forkTree_wf, ⟨[], ⟨.new, []⟩, some 1099⟩, tr₀, ⟨[], ⟨.new, []⟩, some 2000⟩, tr₁, ?_, rfl, rfl,
    rfl, hn₀, hn₁⟩
  simp only [runRelay, h₀, h₁, if_true]

theorem relayPass_scans_above_ancestor_forkTree :
    forkTree.WF ∧ forkTree.bestHeight + 1 < 2 ^ 31 ∧ forkTree.IsAncestor 2001 forkTree.best ∧
    forkTree.IsAncestor 1099 forkTree.best ∧
    ∃ l nl trace, forkTree.IsMrca l 2001 1099 ∧ forkTree.node l = some nl ∧
      relayPass pairApi decimalText acceptDeposits true forkTree ⟨[], ⟨.new, []⟩, some 1099⟩
          (tipPass 2001 2001) = (⟨[], ⟨.new, []⟩, some 2001⟩, trace, .running) ∧
      ∀ b nb, forkTree.IsAncestor b 2001 → forkTree.node b = some nb → nl.height < nb.height →
        b ∈ trace.scanned :=
  ⟨forkTree_wf, by decide, ⟨0, rfl⟩, ⟨1, rfl⟩,
    relayPass_scans_above_ancestor pairApi decimalText acceptDeposits true forkTree forkTree_wf
      (by decide) (fun _ => rfl) _ (tipPass 2001 2001) (insertAnnouncedAddrs_nil_new _ _ 0 []) rfl
      rfl rfl (by decide) (show forkTree.node 2001 = some ⟨1099, 1100, []⟩ from rfl) (by decide)
      ⟨0, rfl⟩ ⟨1, rfl⟩⟩

end Nomic.Bitcoin
