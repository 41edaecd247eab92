import Nomic.Bitcoin.ScriptStore

/-!
# The store file replays the index

A history of the relayer's store is a list of sessions: each opens the store at a clock time and
then inserts the announced pairs, every append succeeding. `store_replays_index`: when the
checkpoint map gives each index its own sigset and the inserted pairs meet the preconditions of
`WatchedScripts`, every session's `open` succeeds, builds the index that the in-memory inserts of
all earlier pairs followed by `remove_expired` at its time would give, and leaves one line per
entry of it in the file.

Proof. A file of records opens to the pairs of its lines that are live at the open's time (`Live`,
`get_replay`), so two files whose live pairs agree open to the same index. During a session the
file holds the lines `open` rewrote and those of the new pairs, and every inserted pair that
derives a script has that script in memory (`SessionInv`); by injectivity of the output scripts
the pair it maps to is the inserted one. So the file a session leaves has, at every later time,
the live pairs of the whole history (`session_spec`), and an induction over the sessions
concludes.
-/

namespace Nomic.Bitcoin

open WatchedScripts WatchedScriptStore

variable {Sigset Address Script : Type}
  {api : SigsetApi Sigset Address Script} {text : AddressText Address}
  {sigsets : UInt32 → Option Sigset}

/-- The checkpoint map gives each index a sigset of that index. -/
def IndexedBy (api : SigsetApi Sigset Address Script) (sigsets : UInt32 → Option Sigset) : Prop :=
  ∀ i sigset, sigsets i = some sigset → api.index sigset = i

/-- A pair of a list is live at `now` with `script`: its index is in the map, and that sigset
derives the script and has not timed out. -/
def Live (api : SigsetApi Sigset Address Script) (sigsets : UInt32 → Option Sigset)
    (ps : List (Address × UInt32)) (now : Nat) (script : Script) (addr : Address) (i : UInt32) :
    Prop :=
  ∃ sigset, sigsets i = some sigset ∧ (addr, i) ∈ ps ∧ api.outputScript sigset addr = .ok script ∧
    now < api.depositTimeout sigset

/-! ### The index a file of records opens to -/

section Replay

theorem mem_pairCalls {ps : List (Address × UInt32)} {addr : Address} {sigset : Sigset} :
    Call.insert addr sigset ∈ pairCalls sigsets ps ↔ ∃ i, (addr, i) ∈ ps ∧ sigsets i = some sigset := by
  simp only [pairCalls, List.mem_filterMap, Option.map_eq_some', Call.insert.injEq]
  constructor
  · rintro ⟨p, hp, s, hs, rfl, rfl⟩
    exact ⟨p.2, hp, hs⟩
  · rintro ⟨i, hp, hs⟩
    exact ⟨(addr, i), hp, sigset, hs, rfl, rfl⟩

theorem removeExpired_not_mem_pairCalls (ps : List (Address × UInt32)) (t : Nat) :
    Call.removeExpired t ∉ pairCalls sigsets ps := by
  simp [pairCalls]

theorem Preconditions.of_pairCalls_subset {ps qs : List (Address × UInt32)}
    (hsub : ∀ p ∈ ps, p ∈ qs) (hp : Preconditions api (pairCalls sigsets qs)) :
    Preconditions api (pairCalls sigsets ps) :=
  hp.mono api fun _ _ m => by
    obtain ⟨i, hi, hs⟩ := mem_pairCalls.1 m
    exact mem_pairCalls.2 ⟨i, hsub _ hi, hs⟩

theorem liveWith_replay_iff (hidx : IndexedBy api sigsets) {ps : List (Address × UInt32)}
    {now : Nat} {script : Script} {addr : Address} {sigset : Sigset} :
    LiveWith api (pairCalls sigsets ps ++ [.removeExpired now]) script addr sigset ↔
      sigsets (api.index sigset) = some sigset ∧
        Live api sigsets ps now script addr (api.index sigset) := by
  rw [liveWith_append_removeExpired, liveWith_of_inserts (removeExpired_not_mem_pairCalls ps),
    mem_pairCalls]
  constructor
  · rintro ⟨⟨⟨i, hi, hsig⟩, hsc⟩, hnow⟩
    obtain rfl := hidx i sigset hsig
    exact ⟨hsig, sigset, hsig, hi, hsc, hnow⟩
  · rintro ⟨hsig, sg, hsg, hi, hsc, hnow⟩
    rw [hsig] at hsg
    cases hsg
    exact ⟨⟨⟨_, hi, hsig⟩, hsc⟩, hnow⟩

theorem Preconditions.of_replay_subset {ps qs : List (Address × UInt32)} {now : Nat}
    {f : List (Call Sigset Address)} (hsub : ∀ p ∈ ps, p ∈ qs)
    (hp : Preconditions api (pairCalls sigsets qs ++ [.removeExpired now] ++ f)) :
    Preconditions api (pairCalls sigsets ps ++ [.removeExpired now] ++ f) :=
  hp.mono api fun a s m => by
    simp only [List.mem_append, List.mem_singleton, reduceCtorEq, or_false] at m ⊢
    rcases m with m | m
    · obtain ⟨i, hi, hs⟩ := mem_pairCalls.1 m
      exact .inl (mem_pairCalls.2 ⟨i, hsub _ hi, hs⟩)
    · exact .inr m

variable [DecidableEq Script]

theorem get_replay (hidx : IndexedBy api sigsets) {ps : List (Address × UInt32)}
    (hp : Preconditions api (pairCalls sigsets ps)) (now : Nat) (script : Script) (addr : Address)
    (i : UInt32) :
    (run api (pairCalls sigsets ps ++ [.removeExpired now])).get script = some (addr, i) ↔
      Live api sigsets ps now script addr i := by
  have hp' : Preconditions api (pairCalls sigsets ps ++ [.removeExpired now]) :=
    hp.mono api fun _ _ m => (List.mem_append.1 m).resolve_right (by simp)
  rw [run_get_iff _ hp']
  constructor
  · rintro ⟨sigset, rfl, hl⟩
    exact (liveWith_replay_iff hidx).1 hl |>.2
  · rintro ⟨sigset, hsig, hmem, hsc, hnow⟩
    have hi := hidx i sigset hsig
    refine ⟨sigset, hi, (liveWith_replay_iff hidx).2 ?_⟩
    rw [hi]
    exact ⟨hsig, sigset, hsig, hmem, hsc, hnow⟩

theorem get_replay_append (hidx : IndexedBy api sigsets) {ps qs : List (Address × UInt32)}
    {now : Nat}
    (hlive : ∀ script addr i, Live api sigsets ps now script addr i ↔ Live api sigsets qs now script addr i)
    (f : List (Call Sigset Address))
    (hp : Preconditions api (pairCalls sigsets ps ++ [.removeExpired now] ++ f))
    (hq : Preconditions api (pairCalls sigsets qs ++ [.removeExpired now] ++ f)) (script : Script) :
    (run api (pairCalls sigsets ps ++ [.removeExpired now] ++ f)).get script =
      (run api (pairCalls sigsets qs ++ [.removeExpired now] ++ f)).get script :=
  run_append_get_congr (fun _ _ _ => by
    rw [liveWith_replay_iff hidx, liveWith_replay_iff hidx, hlive]) f hp hq script

theorem live_of_get_replay (hidx : IndexedBy api sigsets) {ps : List (Address × UInt32)}
    (hp : Preconditions api (pairCalls sigsets ps)) {now : Nat} {script : Script} {addr : Address}
    {i : UInt32} (h : (run api (pairCalls sigsets ps ++ [.removeExpired now])).get script = some (addr, i)) :
    Live api sigsets ps now script addr i :=
  (get_replay hidx hp now script addr i).1 h

end Replay

/-! ### Sessions -/

/-- One run of the relayer process on the store: `open` at clock time `now`, the `HashMap`
yielding its values in the order `order`, then `insert(addr, sigsets[i])` for each announced
pair. -/
structure Session (Address : Type) where
  now : Nat
  order : List (Address × UInt32) → List (Address × UInt32)
  inserts : List (Address × UInt32)

/-- The store calls of a session's pairs: an insert for each pair whose index is in the map, its
append succeeding. -/
def sessionOps (sigsets : UInt32 → Option Sigset) (ps : List (Address × UInt32)) :
    List (WriteOutcome × Address × Sigset) :=
  ps.filterMap fun p => (sigsets p.2).map fun sigset => (.ok, p.1, sigset)

/-- The stores the sessions open, each on the file the one before left; or the fault of the
first `open` that fails. -/
def runSessions [DecidableEq Script] (api : SigsetApi Sigset Address Script)
    (text : AddressText Address) (sigsets : UInt32 → Option Sigset) :
    List Char → List (Session Address) → Except Fault (List (WatchedScriptStore Sigset Address Script))
  | _, [] => .ok []
  | file, s :: ss =>
    match openStore api text (some file) sigsets s.now s.order with
    | .error f => .error f
    | .ok st =>
      match runSessions api text sigsets (st.insertAll api text (sessionOps sigsets s.inserts)).file ss with
      | .error f => .error f
      | .ok sts => .ok (st :: sts)

variable [DecidableEq Script]

/-- A store during a session whose `open` rewrote the pairs `vs`, after the inserts of the pairs
`qs`: the file holds the lines of `vs` and of the inserted pairs `js`, each in-memory entry is one
of these pairs and derives its script from the map's sigset, and each inserted pair that derives a
script has that script in memory. -/
structure SessionInv (api : SigsetApi Sigset Address Script) (text : AddressText Address)
    (sigsets : UInt32 → Option Sigset) (vs qs js : List (Address × UInt32))
    (st : WatchedScriptStore Sigset Address Script) : Prop where
  inserted : ∀ p ∈ js, p ∈ qs ∧ ∃ sigset script, sigsets p.2 = some sigset ∧
    api.outputScript sigset p.1 = .ok script
  file : st.file = render ((vs ++ js).map fun p => recordLine text p.1 p.2)
  mem : ∀ script addr i, st.scripts.get script = some (addr, i) → (addr, i) ∈ vs ++ js
  sound : ∀ script addr i, st.scripts.get script = some (addr, i) →
    ∃ sigset, sigsets i = some sigset ∧ api.outputScript sigset addr = .ok script
  covers : ∀ p ∈ qs, ∀ sigset script, sigsets p.2 = some sigset →
    api.outputScript sigset p.1 = .ok script → (st.scripts.get script).isSome

section Session

variable {vs qs js : List (Address × UInt32)} {st : WatchedScriptStore Sigset Address Script}

theorem sessionInv_open (text : AddressText Address)
    {order : List (Address × UInt32) → List (Address × UInt32)}
    (horder : ∀ l, (order l).Perm l) (w : WatchedScripts Sigset Address Script)
    (hsound : ∀ script addr i, w.get script = some (addr, i) →
      ∃ sigset, sigsets i = some sigset ∧ api.outputScript sigset addr = .ok script) :
    SessionInv api text sigsets (order (w.scripts.entries.map Sigma.snd)) [] []
      ⟨w, rewrite text order w⟩ where
  inserted _ h := absurd h (List.not_mem_nil _)
  file := by simp [rewrite]
  mem _ _ _ h := List.mem_append_left _ (mem_rewrite horder h)
  sound := hsound
  covers _ h := absurd h (List.not_mem_nil _)

theorem SessionInv.insert (hidx : IndexedBy api sigsets) (hi : SessionInv api text sigsets vs qs js st)
    (p : Address × UInt32) :
    ∃ js', SessionInv api text sigsets vs (qs ++ [p]) js'
      (st.insertAll api text (sessionOps sigsets [p])) := by
  obtain ⟨addr, i⟩ := p
  have hins : ∀ q ∈ js, q ∈ qs ++ [(addr, i)] ∧ ∃ sigset script, sigsets q.2 = some sigset ∧
      api.outputScript sigset q.1 = .ok script :=
    fun q hq => ⟨List.mem_append_left _ (hi.inserted q hq).1, (hi.inserted q hq).2⟩
  cases hs : sigsets i with
  | none =>
    have hop : st.insertAll api text (sessionOps sigsets [(addr, i)]) = st := by
      simp only [sessionOps, List.filterMap_cons, List.filterMap_nil, hs, Option.map_none',
        WatchedScriptStore.insertAll]
    rw [hop]
    refine ⟨js, hins, hi.file, hi.mem, hi.sound, fun q hq sg sc hq' hsc => ?_⟩
    rcases List.mem_append.1 hq with hq | hq
    · exact hi.covers q hq sg sc hq' hsc
    · cases List.mem_singleton.1 hq
      rw [hs] at hq'
      cases hq'
  | some sigset =>
    have hidx' := hidx i sigset hs
    have hop : st.insertAll api text (sessionOps sigsets [(addr, i)]) =
        (st.insert api text .ok addr sigset).2 := by
      simp only [sessionOps, List.filterMap_cons, List.filterMap_nil, hs, Option.map_some',
        insertAll]
    rw [hop]
    have hsound : ∀ script a j, (st.insert api text .ok addr sigset).2.scripts.get script =
        some (a, j) → ∃ sg, sigsets j = some sg ∧ api.outputScript sg a = .ok script := by
      intro script a j hget
      rw [insert_scripts] at hget
      rcases get_insert hget with hget | ⟨hv, hsc⟩
      · exact hi.sound _ _ _ hget
      · obtain ⟨rfl, rfl⟩ := Prod.mk.inj hv
        exact ⟨sigset, by rw [hidx']; exact hs, hsc⟩
    have hcovers : ∀ q ∈ qs ++ [(addr, i)], ∀ sg script, sigsets q.2 = some sg →
        api.outputScript sg q.1 = .ok script →
          ((st.insert api text .ok addr sigset).2.scripts.get script).isSome := by
      intro q hq sg sc hq' hsc
      rw [insert_scripts]
      rcases List.mem_append.1 hq with hq | hq
      · exact isSome_get_insert (hi.covers q hq sg sc hq' hsc)
      · cases List.mem_singleton.1 hq
        rw [hs] at hq'
        cases hq'
        exact isSome_get_insert_self hsc
    by_cases ht : (st.scripts.insert api addr sigset).1 = .ok true
    · obtain ⟨script, hsc, -⟩ := insert_eq_ok_true.1 ht
      refine ⟨js ++ [(addr, i)], fun q hq => ?_, ?_, fun sc a j hget => ?_, hsound, hcovers⟩
      · rcases List.mem_append.1 hq with hq | hq
        · exact hins q hq
        · cases List.mem_singleton.1 hq
          exact ⟨by simp, sigset, script, hs, hsc⟩
      · simp only [insert_of_eq_true ht, write, hi.file, ← List.append_assoc, List.map_append,
          render_append, List.map_cons, List.map_nil, render_cons, render_nil, hidx']
      · rw [insert_scripts] at hget
        rcases get_insert hget with hget | ⟨hv, -⟩
        · rw [← List.append_assoc]
          exact List.mem_append_left _ (hi.mem _ _ _ hget)
        · simp [hv, hidx']
    · rw [insert_of_ne_true ht]
      exact ⟨js, hins, hi.file, hi.mem, hi.sound, by
        simpa only [insert_of_ne_true ht] using hcovers⟩

theorem SessionInv.insertAll (hidx : IndexedBy api sigsets)
    (hi : SessionInv api text sigsets vs qs js st) (ps : List (Address × UInt32)) :
    ∃ js', SessionInv api text sigsets vs (qs ++ ps) js'
      (st.insertAll api text (sessionOps sigsets ps)) := by
  induction ps generalizing qs js st with
  | nil => exact ⟨js, by simpa [sessionOps, WatchedScriptStore.insertAll] using hi⟩
  | cons p ps ih =>
    obtain ⟨js', hi'⟩ := hi.insert hidx p
    have hsplit : sessionOps sigsets (p :: ps) = sessionOps sigsets [p] ++ sessionOps sigsets ps := by
      simp only [sessionOps, ← List.filterMap_append, List.singleton_append]
    rw [hsplit, insertAll_append, show qs ++ p :: ps = qs ++ [p] ++ ps by simp]
    exact ih hi'

theorem SessionInv.mem_of_derives (hidx : IndexedBy api sigsets)
    (hi : SessionInv api text sigsets vs qs js st) {hs : List (Address × UInt32)}
    (hp : Preconditions api (pairCalls sigsets hs)) (hsub : ∀ p ∈ vs ++ js, p ∈ hs)
    {addr : Address} {i : UInt32} {sigset : Sigset} {script : Script} (hq : (addr, i) ∈ qs)
    (hh : (addr, i) ∈ hs) (hsig : sigsets i = some sigset)
    (hsc : api.outputScript sigset addr = .ok script) : (addr, i) ∈ vs ++ js := by
  obtain ⟨⟨a', i'⟩, hget⟩ := Option.isSome_iff_exists.1 (hi.covers _ hq sigset script hsig hsc)
  have hm := hi.mem _ _ _ hget
  obtain ⟨sg', hsig', hsc'⟩ := hi.sound _ _ _ hget
  obtain ⟨rfl, hidxeq⟩ := hp.injective _ _ _ _ _ (mem_pairCalls.2 ⟨i, hh, hsig⟩)
    (mem_pairCalls.2 ⟨i', hsub _ hm, hsig'⟩) hsc hsc'
  obtain rfl : i = i' := by rw [← hidx i sigset hsig, ← hidx i' sg' hsig', hidxeq]
  exact hm

end Session

/-! ### The replay over sessions -/

theorem session_spec (ht : text.Faithful) (hidx : IndexedBy api sigsets)
    {ps hs : List (Address × UInt32)} {t₀ : Nat} (s : Session Address) (hnow : t₀ ≤ s.now)
    (horder : ∀ l, (s.order l).Perm l) (hsub : ∀ p ∈ ps, p ∈ hs) (hd : Derivable api sigsets ps)
    (hlive : ∀ t, t₀ ≤ t → ∀ script addr i,
      Live api sigsets ps t script addr i ↔ Live api sigsets hs t script addr i)
    (hp : Preconditions api (pairCalls sigsets (hs ++ s.inserts))) :
    ∃ st, openStore api text (some (render (ps.map fun p => recordLine text p.1 p.2))) sigsets
        s.now s.order = .ok st ∧
      (∀ f, Preconditions api (pairCalls sigsets hs ++ [.removeExpired s.now] ++ f) → ∀ script,
        (f.foldl (apply api) st.scripts).get script =
          (run api (pairCalls sigsets hs ++ [.removeExpired s.now] ++ f)).get script) ∧
      (lines st.file).Perm (st.scripts.scripts.entries.map fun e => recordLine text e.2.1 e.2.2) ∧
      ∃ ps', (st.insertAll api text (sessionOps sigsets s.inserts)).file =
          render (ps'.map fun p => recordLine text p.1 p.2) ∧
        (∀ p ∈ ps', p ∈ hs ++ s.inserts) ∧ Derivable api sigsets ps' ∧
        ∀ t, s.now ≤ t → ∀ script addr i,
          Live api sigsets ps' t script addr i ↔ Live api sigsets (hs ++ s.inserts) t script addr i := by
  have hpH : Preconditions api (pairCalls sigsets hs) :=
    Preconditions.of_pairCalls_subset (fun p hp => List.mem_append_left _ hp) hp
  have hpP : Preconditions api (pairCalls sigsets ps) := Preconditions.of_pairCalls_subset hsub hpH
  have hlive_w : ∀ script addr i,
      (run api (pairCalls sigsets ps ++ [.removeExpired s.now])).get script = some (addr, i) →
        Live api sigsets ps s.now script addr i :=
    fun _ _ _ h => live_of_get_replay hidx hpP h
  obtain ⟨js, hi⟩ := (sessionInv_open text horder _ fun script addr i h => by
    obtain ⟨sg, hsg, -, hsc, -⟩ := hlive_w script addr i h
    exact ⟨sg, hsg, hsc⟩).insertAll hidx s.inserts
  rw [List.nil_append] at hi
  -- the pairs of the file the session leaves
  have hsub' : ∀ p ∈ s.order ((run api (pairCalls sigsets ps ++ [.removeExpired s.now])).scripts.entries.map
      Sigma.snd) ++ js, p ∈ hs ++ s.inserts := fun p hp' => by
    rcases List.mem_append.1 hp' with hv | hj
    · obtain ⟨script, hget⟩ := exists_get_of_mem_rewrite horder hv
      obtain ⟨-, -, hm, -⟩ := hlive_w _ _ _ hget
      exact List.mem_append_left _ (hsub _ hm)
    · exact List.mem_append_right _ (hi.inserted p hj).1
  refine ⟨_, openStore_records ht sigsets s.now s.order ps hd hpP, fun f hf script => ?_,
    lines_rewrite (fun a => (ht a).2.1) horder _,
    _, hi.file, hsub', fun p hp' sg hsg => ?_, fun t ht' script addr i => ⟨?_, ?_⟩⟩
  · -- the opened index is the history's, now and after any further calls
    rw [run, ← List.foldl_append, ← run]
    exact get_replay_append hidx (hlive s.now hnow) f (Preconditions.of_replay_subset hsub hf) hf
      script
  · -- every pair of the file derives its script
    rcases List.mem_append.1 hp' with hv | hj
    · obtain ⟨script, hget⟩ := exists_get_of_mem_rewrite horder hv
      obtain ⟨sg', hsg', -, hsc, -⟩ := hlive_w _ _ _ hget
      rw [hsg] at hsg'
      cases hsg'
      exact ⟨script, hsc⟩
    · obtain ⟨-, sg', script, hsg', hsc⟩ := hi.inserted p hj
      rw [hsg] at hsg'
      cases hsg'
      exact ⟨script, hsc⟩
  · rintro ⟨sg, hsg, hm, hsc, hto⟩
    exact ⟨sg, hsg, hsub' _ hm, hsc, hto⟩
  · rintro ⟨sg, hsg, hm, hsc, hto⟩
    refine ⟨sg, hsg, ?_, hsc, hto⟩
    rcases List.mem_append.1 hm with hh | hq
    · -- a pair of the history live at `t` was live at the open, so `open` rewrote it
      have hl : Live api sigsets hs s.now script addr i := ⟨sg, hsg, hh, hsc, by omega⟩
      exact List.mem_append_left _ (mem_rewrite horder
        ((get_replay hidx hpP s.now script addr i).2 ((hlive s.now hnow script addr i).2 hl)))
    · exact hi.mem_of_derives hidx hp hsub' hq (List.mem_append_right _ hq) hsg hsc

theorem runSessions_spec (ht : text.Faithful) (hidx : IndexedBy api sigsets)
    (sessions : List (Session Address)) :
    ∀ (ps hs : List (Address × UInt32)) (t₀ : Nat),
      (∀ s ∈ sessions, ∀ l, (s.order l).Perm l) → (sessions.map Session.now).Chain (· ≤ ·) t₀ →
      (∀ p ∈ ps, p ∈ hs) → Derivable api sigsets ps →
      (∀ t, t₀ ≤ t → ∀ script addr i,
        Live api sigsets ps t script addr i ↔ Live api sigsets hs t script addr i) →
      Preconditions api (pairCalls sigsets (hs ++ (sessions.map Session.inserts).flatten)) →
      ∃ stores, runSessions api text sigsets (render (ps.map fun p => recordLine text p.1 p.2))
          sessions = .ok stores ∧ stores.length = sessions.length ∧
        ∀ k st s, stores[k]? = some st → sessions[k]? = some s →
          (∀ f, Preconditions api (pairCalls sigsets
              (hs ++ ((sessions.take k).map Session.inserts).flatten) ++ [.removeExpired s.now] ++ f) →
            ∀ script, (f.foldl (apply api) st.scripts).get script = (run api (pairCalls sigsets
              (hs ++ ((sessions.take k).map Session.inserts).flatten) ++ [.removeExpired s.now] ++
                f)).get script) ∧
          (lines st.file).Perm (st.scripts.scripts.entries.map fun e => recordLine text e.2.1 e.2.2) := by
  induction sessions with
  | nil => exact fun _ _ _ _ _ _ _ _ _ => ⟨[], rfl, rfl, by simp⟩
  | cons s ss ih =>
    intro ps hs t₀ horder hchain hsub hd hlive hp
    rw [List.map_cons, List.chain_cons] at hchain
    have hp' : Preconditions api (pairCalls sigsets (hs ++ s.inserts ++ (ss.map Session.inserts).flatten)) := by
      simpa using hp
    obtain ⟨st, hopen, hget, hperm, ps', hfile, hsub', hd', hlive'⟩ :=
      session_spec ht hidx s hchain.1 (horder s (List.mem_cons_self _ _)) hsub hd hlive
        (Preconditions.of_pairCalls_subset (fun p hp => List.mem_append_left _ hp) hp')
    obtain ⟨stores, hrun, hlen, hall⟩ := ih ps' (hs ++ s.inserts) s.now
      (fun s' hs' => horder s' (List.mem_cons_of_mem _ hs')) hchain.2 hsub' hd' hlive' hp'
    refine ⟨st :: stores, by simp [runSessions, hopen, hfile, hrun], by simp [hlen], ?_⟩
    rintro (_ | k) st' s' hst hs'
    · simp only [List.getElem?_cons_zero, Option.some.injEq] at hst hs'
      subst hst hs'
      exact ⟨by simpa using hget, hperm⟩
    · simp only [List.getElem?_cons_succ] at hst hs'
      simpa using hall k st' s' hst hs'

/-- The store file is a lossless replay of the index: every session's `open` succeeds, builds the
index of the in-memory inserts of the initial file's pairs and of every earlier session's pairs
followed by `remove_expired` at its time, and rewrites one line per entry of it. -/
theorem store_replays_index (ht : text.Faithful) (hidx : IndexedBy api sigsets)
    (initial : List (Address × UInt32)) (sessions : List (Session Address))
    (horder : ∀ s ∈ sessions, ∀ l, (s.order l).Perm l)
    (htime : (sessions.map Session.now).Chain' (· ≤ ·)) (hinit : Derivable api sigsets initial)
    (hp : Preconditions api (pairCalls sigsets (initial ++ (sessions.map Session.inserts).flatten))) :
    ∃ stores, runSessions api text sigsets (render (initial.map fun p => recordLine text p.1 p.2))
        sessions = .ok stores ∧ stores.length = sessions.length ∧
      ∀ k st s, stores[k]? = some st → sessions[k]? = some s →
        (∀ f, Preconditions api (pairCalls sigsets
            (initial ++ ((sessions.take k).map Session.inserts).flatten) ++ [.removeExpired s.now] ++ f) →
          ∀ script, (f.foldl (apply api) st.scripts).get script = (run api (pairCalls sigsets
            (initial ++ ((sessions.take k).map Session.inserts).flatten) ++ [.removeExpired s.now] ++
              f)).get script) ∧
        (lines st.file).Perm (st.scripts.scripts.entries.map fun e => recordLine text e.2.1 e.2.2) := by
  have hchain : (sessions.map Session.now).Chain (· ≤ ·) 0 := by
    cases sessions with
    | nil => exact List.Chain.nil
    | cons s ss => exact List.Chain.cons (Nat.zero_le _) htime
  exact runSessions_spec ht hidx sessions initial initial 0 horder hchain (fun _ h => h) hinit
    (fun _ _ _ _ _ => Iff.rfl) hp

theorem store_replays_index_pairApi :
    decimalText.Faithful ∧ IndexedBy pairApi some ∧
    (∀ s ∈ ([⟨50, id, [(8, 2)]⟩, ⟨150, id, []⟩] : List (Session UInt32)), ∀ l,
      (Session.order s l).Perm l) ∧
    (([⟨50, id, [(8, 2)]⟩, ⟨150, id, []⟩] : List (Session UInt32)).map Session.now).Chain' (· ≤ ·) ∧
    Derivable pairApi some [(7, 1)] ∧
    Preconditions pairApi (pairCalls some ([(7, 1)] ++
      (([⟨50, id, [(8, 2)]⟩, ⟨150, id, []⟩] : List (Session UInt32)).map Session.inserts).flatten)) ∧
    ∃ stores, runSessions pairApi decimalText some (render ([(7, 1)].map fun p =>
        recordLine decimalText p.1 p.2)) [⟨50, id, [(8, 2)]⟩, ⟨150, id, []⟩] = .ok stores ∧
      stores.length = 2 ∧
      ∀ k st s, stores[k]? = some st →
        ([⟨50, id, [(8, 2)]⟩, ⟨150, id, []⟩] : List (Session UInt32))[k]? = some s →
        (∀ f, Preconditions pairApi (pairCalls some ([(7, 1)] ++
            ((([⟨50, id, [(8, 2)]⟩, ⟨150, id, []⟩] : List (Session UInt32)).take k).map
              Session.inserts).flatten) ++ [.removeExpired s.now] ++ f) →
          ∀ script, (f.foldl (apply pairApi) st.scripts).get script = (run pairApi (pairCalls some
            ([(7, 1)] ++ ((([⟨50, id, [(8, 2)]⟩, ⟨150, id, []⟩] : List (Session UInt32)).take k).map
              Session.inserts).flatten) ++ [.removeExpired s.now] ++ f)).get script) ∧
        (lines st.file).Perm
          (st.scripts.scripts.entries.map fun e => recordLine decimalText e.2.1 e.2.2) :=
  have hidx : IndexedBy pairApi some := fun _ _ h => (Option.some.inj h).symm
  have horder : ∀ s ∈ ([⟨50, id, [(8, 2)]⟩, ⟨150, id, []⟩] : List (Session UInt32)),
      ∀ l, (Session.order s l).Perm l := by
    simp only [List.mem_cons, List.mem_nil_iff, or_false]
    rintro s (rfl | rfl) l <;> exact List.Perm.refl l
  have hinit : Derivable pairApi some [(7, 1)] := fun _ _ _ _ => ⟨_, rfl⟩
  have htime : (([⟨50, id, [(8, 2)]⟩, ⟨150, id, []⟩] : List (Session UInt32)).map
      Session.now).Chain' (· ≤ ·) := .cons (by decide) .nil
  ⟨decimalText_faithful, hidx, horder, htime, hinit, pairApi_preconditions _,
    store_replays_index decimalText_faithful hidx [(7, 1)] _ horder htime hinit
      (pairApi_preconditions _)⟩

/-! ### Crashes -/

/-- The file after a crash `c` characters into an operation that writes `written` onto `before`:
`open` writes onto the empty file `File::create` left, an append onto the file as it was. -/
def crashImage (before written : List Char) (c : Nat) : List Char := before ++ written.take c

theorem openStore_live (ht : text.Faithful) (hidx : IndexedBy api sigsets) (now : Nat)
    (order : List (Address × UInt32) → List (Address × UInt32)) {ps : List (Address × UInt32)}
    (hd : Derivable api sigsets ps) (hp : Preconditions api (pairCalls sigsets ps)) :
    ∃ st, openStore api text (some (render (ps.map fun p => recordLine text p.1 p.2))) sigsets now
        order = .ok st ∧
      ∀ script addr i, st.scripts.get script = some (addr, i) ↔ Live api sigsets ps now script addr i :=
  ⟨_, openStore_records ht sigsets now order ps hd hp, get_replay hidx hp now⟩

/-- A crash between two lines: after an append wrote nothing or its whole line, the next `open`
succeeds and keeps every pair the file held that is live; after `File::create` and the first `j`
rewritten lines, it succeeds and holds exactly the live pairs of those lines. -/
theorem store_recovers_at_line_boundaries (ht : text.Faithful) (hidx : IndexedBy api sigsets)
    (now : Nat) (order : List (Address × UInt32) → List (Address × UInt32)) :
    (∀ (ps : List (Address × UInt32)) addr i c, Derivable api sigsets (ps ++ [(addr, i)]) →
      Preconditions api (pairCalls sigsets (ps ++ [(addr, i)])) →
      (c = 0 ∨ c = (recordLine text addr i).length + 1) →
      ∃ st, openStore api text (some (crashImage (render (ps.map fun p => recordLine text p.1 p.2))
          (recordLine text addr i ++ ['\n']) c)) sigsets now order = .ok st ∧
        ∀ script a j, Live api sigsets ps now script a j → st.scripts.get script = some (a, j)) ∧
    (∀ (vs : List (Address × UInt32)) j, Derivable api sigsets vs →
      Preconditions api (pairCalls sigsets vs) →
      ∃ st, openStore api text (some (crashImage [] (render (vs.map fun p => recordLine text p.1 p.2))
          (render ((vs.take j).map fun p => recordLine text p.1 p.2)).length)) sigsets now order =
            .ok st ∧
        ∀ script addr i, st.scripts.get script = some (addr, i) ↔
          Live api sigsets (vs.take j) now script addr i) := by
  refine ⟨fun ps addr i c hd hp hc => ?_, fun vs j hd hp => ?_⟩
  · have hsub : ∀ p ∈ ps, p ∈ ps ++ [(addr, i)] := fun p h => List.mem_append_left _ h
    have hlive : ∀ script a j, Live api sigsets ps now script a j →
        Live api sigsets (ps ++ [(addr, i)]) now script a j :=
      fun _ _ _ ⟨sg, hsg, hm, hsc, hto⟩ => ⟨sg, hsg, hsub _ hm, hsc, hto⟩
    have hpre : Preconditions api (pairCalls sigsets ps) := Preconditions.of_pairCalls_subset hsub hp
    rcases hc with rfl | rfl
    · -- nothing of the line reached the file
      have himage : crashImage (render (ps.map fun p => recordLine text p.1 p.2))
          (recordLine text addr i ++ ['\n']) 0 = render (ps.map fun p => recordLine text p.1 p.2) := by
        simp [crashImage]
      rw [himage]
      obtain ⟨st, hopen, hget⟩ := openStore_live ht hidx now order (hd.mono hsub) hpre
      exact ⟨st, hopen, fun script a j hl => (hget script a j).2 hl⟩
    · -- the whole line reached the file
      have himage : crashImage (render (ps.map fun p => recordLine text p.1 p.2))
          (recordLine text addr i ++ ['\n']) ((recordLine text addr i).length + 1) =
            render ((ps ++ [(addr, i)]).map fun p => recordLine text p.1 p.2) := by
        simp [crashImage, render_append, List.take_of_length_le]
      rw [himage]
      obtain ⟨st, hopen, hget⟩ := openStore_live ht hidx now order hd hp
      exact ⟨st, hopen, fun script a j hl => (hget script a j).2 (hlive script a j hl)⟩
  · have himage : crashImage [] (render (vs.map fun p => recordLine text p.1 p.2))
        (render ((vs.take j).map fun p => recordLine text p.1 p.2)).length =
          render ((vs.take j).map fun p => recordLine text p.1 p.2) := by
      conv_lhs => rw [← List.take_append_drop j vs, List.map_append, render_append]
      simp [crashImage]
    rw [himage]
    exact openStore_live ht hidx now order (hd.mono fun p h => List.mem_of_mem_take h)
      (Preconditions.of_pairCalls_subset (fun p h => List.mem_of_mem_take h) hp)

theorem store_recovers_at_line_boundaries_pairApi :
    decimalText.Faithful ∧ IndexedBy pairApi some ∧
    (∀ (ps : List (UInt32 × UInt32)) addr i c, Derivable pairApi some (ps ++ [(addr, i)]) →
      Preconditions pairApi (pairCalls some (ps ++ [(addr, i)])) →
      (c = 0 ∨ c = (recordLine decimalText addr i).length + 1) →
      ∃ st, openStore pairApi decimalText (some (crashImage
          (render (ps.map fun p => recordLine decimalText p.1 p.2))
          (recordLine decimalText addr i ++ ['\n']) c)) some 0 id = .ok st ∧
        ∀ script a j, Live pairApi some ps 0 script a j → st.scripts.get script = some (a, j)) ∧
    (∀ (vs : List (UInt32 × UInt32)) j, Derivable pairApi some vs →
      Preconditions pairApi (pairCalls some vs) →
      ∃ st, openStore pairApi decimalText (some (crashImage []
          (render (vs.map fun p => recordLine decimalText p.1 p.2))
          (render ((vs.take j).map fun p => recordLine decimalText p.1 p.2)).length)) some 0 id =
            .ok st ∧
        ∀ script addr i, st.scripts.get script = some (addr, i) ↔
          Live pairApi some (vs.take j) 0 script addr i) :=
  have hidx : IndexedBy pairApi some := fun _ _ h => (Option.some.inj h).symm
  ⟨decimalText_faithful, hidx, store_recovers_at_line_boundaries decimalText_faithful hidx 0 id⟩

/-- From the file `7,1` (live at time `0`): a crash right after `open`'s `File::create` leaves an
empty file, whose `open` drops the entry; a crash one character into the append of `8,2` leaves
the line `8`, on which the next `open` panics at `items[1]`. -/
theorem store_crash_loses_or_panics :
    (∃ st, openStore pairApi decimalText (some (render [recordLine decimalText 7 1])) some 0 id =
      .ok st ∧ st.scripts.get (7, 1) = some (7, 1)) ∧
    (∃ st, openStore pairApi decimalText
      (some (crashImage [] (render [recordLine decimalText 7 1]) 0)) some 0 id = .ok st ∧
        st.scripts.get (7, 1) = none) ∧
    openStore pairApi decimalText (some (crashImage (render [recordLine decimalText 7 1])
      (recordLine decimalText 8 2 ++ ['\n']) 1)) some 0 id =
        .error (.panic "index out of bounds: the len is 1 but the index is 1") :=
  ⟨⟨_, rfl, rfl⟩, ⟨_, rfl, rfl⟩, rfl⟩

end Nomic.Bitcoin
