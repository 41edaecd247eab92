import Nomic.Bitcoin.DepositRelay

/-!
# What a run of the deposit relay scans

`relay_deposits` measures each pass's window from the common ancestor of the tip it reads and the
tip it recorded, so that a scan reaches down to where the previous one stopped. When the
sidechain's tip does not move between the two reads of a pass and stays on the full node's active
chain (`SteadyTip`), the windows of a run fit together: no block of the active chain between the
first window and the highest tip read is left out.

* `relayPass_records_tip`: a pass with a steady tip whose drain succeeds (`DrainsOk`: the world
  lets `output_script` derive, answers every `checkpoints.get` and appends every line) records the
  tip, and passes to `relevant_txs` every block of the tip's chain less than 1100 below it (unless
  it skips the tip as already recorded) and every one above the recorded tip, calling
  `maybe_relay_deposit` for each output of such a block that the index watches after the drain.
* `runRelay_scans_above_prevTip`: from a recorded tip on the active chain, a run of such passes
  keeps running and scans every block of the active chain above the recorded tip up to the highest
  tip it reads.
* `runRelay_scans_active_chain`: the same from `prev_tip = None`, from 1099 blocks below the first
  tip read.
-/

namespace Nomic.Bitcoin

variable {Hash Sigset Address Script : Type}

/-- A pass reads `tip` twice (the sidechain's tip does not move between `relay_deposits` and
`scan_for_deposits`), and `tip` is a block of the full node's active chain at height 1099 or more,
so that a window of 1100 blocks stays above genesis. -/
structure SteadyTip (t : BlockTree Hash (Transaction Script)) (p : Pass Hash Sigset Address)
    (tip : Hash) (nt : ChainNode Hash (Transaction Script)) : Prop where
  read : p.tip = .ok tip
  scanRead : p.scanTip = .ok tip
  node : t.node tip = some nt
  high : 1099 ≤ nt.height
  active : t.IsAncestor tip t.best

theorem SteadyTip.eq {t : BlockTree Hash (Transaction Script)} {p : Pass Hash Sigset Address}
    {tip tip' : Hash} {nt nt' : ChainNode Hash (Transaction Script)} (h : SteadyTip t p tip nt)
    (h' : SteadyTip t p tip' nt') : tip = tip' ∧ nt = nt' := by
  obtain rfl : tip = tip' := Except.ok.inj (h.read.symm.trans h'.read)
  exact ⟨rfl, Option.some.inj (h.node.symm.trans h'.node)⟩

/-- What the world answers lets every drain succeed: `output_script` derives a script for every
signatory set and address, and every pair that reaches the channel has its `checkpoints.get`
answered by the sidechain and its line appended in full. These are assumptions on the world, as
`SteadyTip` is. -/
structure DrainsOk (api : SigsetApi Sigset Address Script) (ch : List (Announcement Sigset Address)) :
    Prop where
  derive : ∀ sigset addr, ∃ script, api.outputScript sigset addr = .ok script
  answer : ∀ a ∈ ch, ∃ r, a.answer = .ok r
  outcome : ∀ a ∈ ch, a.outcome = .ok

theorem DrainsOk.mono {api : SigsetApi Sigset Address Script} {ch ch' : List (Announcement Sigset Address)}
    (h : DrainsOk api ch) (hsub : ∀ a ∈ ch', a ∈ ch) : DrainsOk api ch' :=
  ⟨h.derive, fun a ha => h.answer a (hsub a ha), fun a ha => h.outcome a (hsub a ha)⟩

theorem DrainsOk.head {api : SigsetApi Sigset Address Script} {ch : List (Announcement Sigset Address)}
    {p : Pass Hash Sigset Address} {ps : List (Pass Hash Sigset Address)}
    (h : DrainsOk api (ch ++ (p :: ps).flatMap Pass.sent)) : DrainsOk api (ch ++ p.sent) :=
  h.mono fun a ha => by simp only [List.flatMap_cons, List.mem_append] at ha ⊢; tauto

theorem DrainsOk.tail {api : SigsetApi Sigset Address Script} {ch : List (Announcement Sigset Address)}
    {p : Pass Hash Sigset Address} {ps : List (Pass Hash Sigset Address)}
    (h : DrainsOk api (ch ++ (p :: ps).flatMap Pass.sent)) : DrainsOk api ([] ++ ps.flatMap Pass.sent) :=
  h.mono fun a ha => by simp only [List.nil_append, List.flatMap_cons, List.mem_append] at ha ⊢; tauto

variable [DecidableEq Script] [DecidableEq Hash] (api : SigsetApi Sigset Address Script) (text : AddressText Address)
  (relay : DepositCall Hash Address Script → Except Error Unit) (overflowChecks : Bool)
  (t : BlockTree Hash (Transaction Script))

theorem insertAnnouncedAddrs_of_drainsOk {ch : List (Announcement Sigset Address)}
    (h : DrainsOk api ch) (now : Nat) :
    ∀ store : WatchedScriptStore Sigset Address Script,
      ∃ store', insertAnnouncedAddrs api text now ch store = (.ok (), [], store') := by
  induction ch with
  | nil =>
    intro store
    have hrem := (WatchedScripts.removeExpiredLoop_spec now store.scripts.sigsets.entries
      store.scripts.scripts fun _ _ _ _ => h.derive _ _).1
    exact ⟨_, by simp only [insertAnnouncedAddrs, WatchedScripts.removeExpired, hrem]; rfl⟩
  | cons a rest ih =>
    intro store
    have hrest := ih (h.mono fun x hx => List.mem_cons_of_mem _ hx)
    obtain ⟨r, hr⟩ := h.answer a (List.mem_cons_self _ _)
    rcases r with _ | sigset
    · simpa only [insertAnnouncedAddrs, hr] using hrest store
    · obtain ⟨script, hs⟩ := h.derive sigset a.addr
      have hins : (store.insert api text a.outcome a.addr sigset).1 = .ok () := by
        rw [h.outcome a (List.mem_cons_self _ _)]
        exact WatchedScriptStore.insert_ok_of_derives hs
      rcases hst : store.insert api text a.outcome a.addr sigset with ⟨res, store'⟩
      rw [hst] at hins
      cases hins
      simpa only [insertAnnouncedAddrs, hr, hst] using hrest store'

/-- A pass with a steady tip whose drain succeeds, after a recorded tip on the active chain if any,
records the tip and goes on. Its scan passes to `relevant_txs` every block of the tip's chain less
than 1100 below the tip, unless the tip is the one recorded, and every block of it above the
recorded tip, with a call of `maybe_relay_deposit` for each output the index watches. -/
theorem relayPass_records_tip (ht : t.WF) (hbound : t.bestHeight + 1 < 2 ^ 31)
    (hrelay : ∀ c, relay c = .ok ()) (st : RelayState Hash Sigset Address Script)
    (p : Pass Hash Sigset Address) {tip : Hash} {nt : ChainNode Hash (Transaction Script)}
    (hp : SteadyTip t p tip nt) (hprev : ∀ prev, st.prevTip = some prev → t.IsAncestor prev t.best)
    (hw : DrainsOk api (st.channel ++ p.sent)) :
    (relayPass api text relay overflowChecks t st p).1.prevTip = some tip ∧
    (relayPass api text relay overflowChecks t st p).1.channel = [] ∧
    (relayPass api text relay overflowChecks t st p).2.2 = .running ∧
    ∀ b nb, t.IsAncestor b tip → t.node b = some nb →
      (st.prevTip ≠ some tip ∧ nt.height < nb.height + 1100 ∨
        ∃ prev np, st.prevTip = some prev ∧ t.node prev = some np ∧ np.height < nb.height) →
      b ∈ (relayPass api text relay overflowChecks t st p).2.1.scanned ∧
        ∀ c ∈ blockDeposits (relayPass api text relay overflowChecks t st p).1.store.scripts
          (ChainNode.toBlock (b, nb)) nb.height, c ∈ (relayPass api text relay overflowChecks t st p).2.1.calls := by
  obtain ⟨store, hd⟩ := insertAnnouncedAddrs_of_drainsOk api text hw p.now st.store
  by_cases hskip : st.prevTip = some tip
  · -- the tip is the recorded one: the pass scans nothing, and no block of its chain is above it
    have hr : relayPass api text relay overflowChecks t st p =
        (⟨[], store, some tip⟩, ⟨[], []⟩, .running) := by
      rw [relayPass_of_drain_ok api text relay overflowChecks t hd]
      simp [scanPass, hp.read, hskip]
    rw [hr]
    refine ⟨rfl, rfl, rfl, fun b nb hb hnb hcov => ?_⟩
    obtain ⟨m, hm, hle, -⟩ := ht.isAncestor_height hb hp.node
    rw [hnb] at hm; cases hm
    rcases hcov with ⟨hne, -⟩ | ⟨prev, np, hprev', hnp, hlt⟩
    · exact absurd hskip hne
    · obtain rfl := Option.some.inj (hskip.symm.trans hprev')
      rw [hp.node] at hnp; cases hnp
      omega
  · -- the window runs from the common ancestor of the tip and the recorded tip, or the tip itself
    set q := st.prevTip.getD tip with hq
    have hqa : t.IsAncestor q t.best := by
      cases h : st.prevTip with
      | none => simpa [hq, h] using hp.active
      | some prev => simpa [hq, h] using hprev prev h
    obtain ⟨nq, hnq⟩ := hqa.node
    obtain ⟨l, r, hmrca, hlr, hca⟩ :=
      ht.commonAncestor_isMrca_of_active (by omega) hp.node hnq hp.active hqa
    obtain ⟨nl, hl⟩ := hmrca.1.node
    obtain ⟨-, hrh, -⟩ := BlockTree.headerInfo_fields hl hlr
    obtain ⟨m, hm, hle, -⟩ := ht.isAncestor_height hmrca.1 hp.node
    rw [hl] at hm; cases hm
    obtain ⟨ei, hei, -, heih, -⟩ := BlockTree.headerInfo_of_node hp.node
    have hk : max (nt.height - nl.height) 1100 ≤ nt.height + 1 := by have := hp.high; omega
    rw [relayPass_of_scan api text relay overflowChecks t st p hd hp.read hskip hca hei (by omega)
      (by rw [hrh, heih]) hp.scanRead (scanForDeposits_segment ht overflowChecks hrelay hp.node _ hk)]
    refine ⟨rfl, rfl, rfl, fun b nb hb hnb hcov => ?_⟩
    obtain ⟨m, hm, hble, hdepth⟩ := ht.isAncestor_height hb hp.node
    rw [hnb] at hm; cases hm
    have hwin : nt.height - nb.height < max (nt.height - nl.height) 1100 := by
      rcases hcov with ⟨-, hlt⟩ | ⟨prev, np, hprev', hnp, hlt⟩
      · omega
      · -- the common ancestor is at or below the recorded tip
        have hqp : q = prev := by rw [hq, hprev', Option.getD_some]
        rw [hqp] at hmrca
        obtain ⟨m', hm', hle', -⟩ := ht.isAncestor_height hmrca.2.1 hnp
        rw [hl] at hm'; cases hm'
        omega
    -- the block is in the scanned segment, so the scan makes its calls
    have hseg := List.mem_reverse.2
      (BlockTree.mem_segment_of_ancestor (max (nt.height - nl.height) 1100) _ _ hdepth hnb hwin)
    exact ⟨List.mem_map.2 ⟨(b, nb), hseg, rfl⟩,
      fun c hc => List.mem_flatten.2 ⟨_, List.mem_map.2 ⟨(b, nb), hseg, rfl⟩, hc⟩⟩

theorem mem_runRelay_cons (st : RelayState Hash Sigset Address Script) (p : Pass Hash Sigset Address)
    (ps : List (Pass Hash Sigset Address)) :
    ((relayPass api text relay overflowChecks t st p).1,
        (relayPass api text relay overflowChecks t st p).2.1) ∈
      (runRelay api text relay overflowChecks t st (p :: ps)).1 := by
  simp only [runRelay]
  split_ifs <;> exact List.mem_cons_self _ _

theorem runRelay_cons_of_running {st : RelayState Hash Sigset Address Script}
    {p : Pass Hash Sigset Address} (ps : List (Pass Hash Sigset Address))
    (h : (relayPass api text relay overflowChecks t st p).2.2 = .running) :
    runRelay api text relay overflowChecks t st (p :: ps) =
      (((relayPass api text relay overflowChecks t st p).1,
          (relayPass api text relay overflowChecks t st p).2.1) ::
        (runRelay api text relay overflowChecks t (relayPass api text relay overflowChecks t st p).1 ps).1,
        (runRelay api text relay overflowChecks t (relayPass api text relay overflowChecks t st p).1 ps).2) := by
  simp only [runRelay, h, if_true]

/-- From a recorded tip on the active chain, a run whose passes have steady tips and whose drains
succeed keeps running, and scans every block of the active chain above the recorded tip and up to
the highest tip a pass reads. -/
theorem runRelay_scans_above_prevTip (ht : t.WF) (hbound : t.bestHeight + 1 < 2 ^ 31)
    (hrelay : ∀ c, relay c = .ok ()) (ps : List (Pass Hash Sigset Address)) :
    ∀ (st : RelayState Hash Sigset Address Script) (prev : Hash) (np : ChainNode Hash (Transaction Script)),
      st.prevTip = some prev → t.node prev = some np → t.IsAncestor prev t.best →
      (∀ p ∈ ps, ∃ tip nt, SteadyTip t p tip nt) → DrainsOk api (st.channel ++ ps.flatMap Pass.sent) →
      (runRelay api text relay overflowChecks t st ps).2 = .running ∧
      ∀ b nb, t.IsAncestor b t.best → t.node b = some nb → np.height < nb.height →
        (∃ p ∈ ps, ∃ tip nt, SteadyTip t p tip nt ∧ nb.height ≤ nt.height) →
        ∃ s tr, (s, tr) ∈ (runRelay api text relay overflowChecks t st ps).1 ∧ b ∈ tr.scanned ∧
          ∀ c ∈ blockDeposits s.store.scripts (ChainNode.toBlock (b, nb)) nb.height, c ∈ tr.calls := by
  induction ps with
  | nil => exact fun _ _ _ _ _ _ _ _ => ⟨rfl, fun _ _ _ _ _ ⟨_, hp, _⟩ => absurd hp (List.not_mem_nil _)⟩
  | cons p ps ih =>
    intro st prev np hst hnp hpa hsteady hw
    obtain ⟨tip, nt, hp⟩ := hsteady p (List.mem_cons_self _ _)
    obtain ⟨htip, hch, hrun, hcov⟩ := relayPass_records_tip api text relay overflowChecks t ht hbound
      hrelay st p hp (fun _ h => by rw [hst, Option.some.injEq] at h; exact h ▸ hpa) hw.head
    rw [runRelay_cons_of_running api text relay overflowChecks t ps hrun]
    -- the rest of the run starts from the tip this pass recorded, with the channel drained
    obtain ⟨hrest, hcov'⟩ := ih _ tip nt htip hp.node hp.active
      (fun q hq => hsteady q (List.mem_cons_of_mem _ hq)) (hch ▸ hw.tail)
    refine ⟨hrest, fun b nb hb hnb hlt hhigh => ?_⟩
    by_cases hle : nb.height ≤ nt.height
    · -- below the new tip: this pass scans it
      exact ⟨_, _, List.mem_cons_self _ _, hcov b nb (ht.isAncestor_of_le hp.active hb hp.node hnb hle)
        hnb (.inr ⟨prev, np, hst, hnp, hlt⟩)⟩
    · -- above the new tip: a later pass reads a higher tip and scans it
      obtain ⟨q, hq, tip', nt', hq', hle'⟩ := hhigh
      rcases List.mem_cons.1 hq with rfl | hq
      · obtain ⟨-, rfl⟩ := hp.eq hq'
        exact absurd hle' hle
      · obtain ⟨s, tr, hmem, hb'⟩ := hcov' b nb hb hnb (by omega) ⟨q, hq, tip', nt', hq', hle'⟩
        exact ⟨s, tr, List.mem_cons_of_mem _ hmem, hb'⟩

/-- Over every run of `relay_deposits` from `prev_tip = None` whose passes read steady tips on the
full node's active chain, whose drains the world lets succeed, and with a `maybe_relay_deposit`
that accepts every call, the loop keeps running, and every block of the active chain from 1099
blocks below the first tip read up to the highest tip any pass reads is passed to `relevant_txs` by
some pass, which calls `maybe_relay_deposit` for each of its outputs that the index watches in
that pass. -/
theorem runRelay_scans_active_chain (ht : t.WF) (hbound : t.bestHeight + 1 < 2 ^ 31)
    (hrelay : ∀ c, relay c = .ok ()) (st : RelayState Hash Sigset Address Script)
    (hst : st.prevTip = none) (p₀ : Pass Hash Sigset Address) (ps : List (Pass Hash Sigset Address))
    {tip₀ : Hash} {nt₀ : ChainNode Hash (Transaction Script)} (h₀ : SteadyTip t p₀ tip₀ nt₀)
    (hsteady : ∀ p ∈ ps, ∃ tip nt, SteadyTip t p tip nt)
    (hw : DrainsOk api (st.channel ++ (p₀ :: ps).flatMap Pass.sent)) :
    (runRelay api text relay overflowChecks t st (p₀ :: ps)).2 = .running ∧
    ∀ b nb, t.IsAncestor b t.best → t.node b = some nb → nt₀.height < nb.height + 1100 →
      (nb.height ≤ nt₀.height ∨ ∃ p ∈ ps, ∃ tip nt, SteadyTip t p tip nt ∧ nb.height ≤ nt.height) →
      ∃ s tr, (s, tr) ∈ (runRelay api text relay overflowChecks t st (p₀ :: ps)).1 ∧
        b ∈ tr.scanned ∧
          ∀ c ∈ blockDeposits s.store.scripts (ChainNode.toBlock (b, nb)) nb.height, c ∈ tr.calls := by
  obtain ⟨htip, hch, hrun, hcov⟩ := relayPass_records_tip api text relay overflowChecks t ht hbound
    hrelay st p₀ h₀ (fun _ h => absurd (hst ▸ h) (Option.noConfusion)) hw.head
  rw [runRelay_cons_of_running api text relay overflowChecks t ps hrun]
  obtain ⟨hrest, hcov'⟩ := runRelay_scans_above_prevTip api text relay overflowChecks t ht hbound
    hrelay ps _ tip₀ nt₀ htip h₀.node h₀.active hsteady (hch ▸ hw.tail)
  refine ⟨hrest, fun b nb hb hnb hlo hhigh => ?_⟩
  by_cases hle : nb.height ≤ nt₀.height
  · -- within the first window
    exact ⟨_, _, List.mem_cons_self _ _, hcov b nb (ht.isAncestor_of_le h₀.active hb h₀.node hnb hle)
      hnb (.inl ⟨by rw [hst]; exact Option.noConfusion, hlo⟩)⟩
  · obtain ⟨s, tr, hmem, hb'⟩ :=
      hcov' b nb hb hnb (by omega) (hhigh.resolve_left hle)
    exact ⟨s, tr, List.mem_cons_of_mem _ hmem, hb'⟩

theorem runRelay_scans_active_chain_forkTree :
    forkTree.WF ∧ forkTree.bestHeight + 1 < 2 ^ 31 ∧ relayStart.prevTip = none ∧
    SteadyTip forkTree (tipPass 1099 1099) 1099 ⟨1098, 1099, []⟩ ∧
    (∀ p ∈ [tipPass 2001 2001], ∃ tip nt, SteadyTip forkTree p tip nt) ∧
    DrainsOk pairApi (relayStart.channel ++ [tipPass 1099 1099, tipPass 2001 2001].flatMap Pass.sent) ∧
    (runRelay pairApi decimalText acceptDeposits true forkTree relayStart
      [tipPass 1099 1099, tipPass 2001 2001]).2 = .running ∧
    ∀ b nb, forkTree.IsAncestor b forkTree.best → forkTree.node b = some nb →
      (⟨1098, 1099, []⟩ : ChainNode Nat (Transaction (UInt32 × UInt32))).height < nb.height + 1100 →
      (nb.height ≤ (⟨1098, 1099, []⟩ : ChainNode Nat (Transaction (UInt32 × UInt32))).height ∨
        ∃ p ∈ [tipPass 2001 2001], ∃ tip nt, SteadyTip forkTree p tip nt ∧ nb.height ≤ nt.height) →
      ∃ s tr, (s, tr) ∈ (runRelay pairApi decimalText acceptDeposits true forkTree relayStart
        [tipPass 1099 1099, tipPass 2001 2001]).1 ∧ b ∈ tr.scanned ∧
          ∀ c ∈ blockDeposits s.store.scripts (ChainNode.toBlock (b, nb)) nb.height, c ∈ tr.calls := by
  have hn₁₀₉₉ : forkTree.node 1099 = some ⟨1098, 1099, []⟩ := rfl
  have hn₂₀₀₁ : forkTree.node 2001 = some ⟨1099, 1100, []⟩ := rfl
  have h₀ : SteadyTip forkTree (tipPass 1099 1099) 1099 ⟨1098, 1099, []⟩ :=
    ⟨rfl, rfl, hn₁₀₉₉, le_rfl, ⟨1, rfl⟩⟩
  have h₁ : SteadyTip forkTree (tipPass 2001 2001) 2001 ⟨1099, 1100, []⟩ :=
    ⟨rfl, rfl, hn₂₀₀₁, by decide, ⟨0, rfl⟩⟩
  have hsteady : ∀ p ∈ [tipPass 2001 2001], ∃ tip nt, SteadyTip forkTree p tip nt := by
    intro p hp
    obtain rfl : p = tipPass 2001 2001 := List.mem_singleton.1 hp
    exact ⟨_, _, h₁⟩
  -- `output_script` always derives, and no pass announces a pair
  have hw : DrainsOk pairApi
      (relayStart.channel ++ [tipPass 1099 1099, tipPass 2001 2001].flatMap Pass.sent) :=
    ⟨fun _ _ => ⟨_, rfl⟩, by simp [relayStart, tipPass], by simp [relayStart, tipPass]⟩
  exact ⟨forkTree_wf, by decide, rfl, h₀, hsteady, hw,
    runRelay_scans_active_chain pairApi decimalText acceptDeposits true forkTree forkTree_wf
      (by decide) (fun _ => rfl) relayStart rfl (tipPass 1099 1099) [tipPass 2001 2001] h₀ hsteady hw⟩

end Nomic.Bitcoin
