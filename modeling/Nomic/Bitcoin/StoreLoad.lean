import Nomic.Bitcoin.StoreReplay

/-!
# `maybe_load` on any file

`maybe_load` reads the store file line by line: it splits a line at `,`, parses the second field
as a sigset index, skips the line when the checkpoint map lacks the index, and otherwise parses
the first field as an address and inserts it with the map's sigset; then it runs
`remove_expired`. A line without a comma panics at `items[1]`
(`maybeLoad_panics_at_line_without_comma`). This module covers the files whose every line has a
comma.

* `LineOk` is the well-formed line, and `lineInsert` the insert it asks for. One line loads as
  that insert when it is well formed (`loadLine_of_lineOk`) and returns `Err` when it is not
  (`loadLine_of_not_lineOk`).
* `EntriesFrom`: every sigset entry of the index is the map's sigset at its index and derives
  its addresses. Inserts with the map's sigsets keep it when the map files each sigset under
  its own index (`IndexedBy`), so the closing `remove_expired` succeeds.
* `maybeLoad_of_commas`: on such a file `maybe_load` does not panic. It returns `Err` exactly
  when some line is malformed; otherwise it returns the index after the inserts of the lines,
  in file order, and `remove_expired`.
-/

namespace Nomic.Bitcoin

namespace WatchedScriptStore

open WatchedScripts

variable {Sigset Address Script : Type} (api : SigsetApi Sigset Address Script)
  (text : AddressText Address) (sigsets : UInt32 → Option Sigset)

/-- A line `maybe_load` accepts: its second field parses as an index, and when the map holds the
index, its first field parses as an address from which that sigset derives a script. -/
def LineOk (line : List Char) : Prop :=
  ∃ i, ((splitOn ',' line)[1]?).bind parseU32 = some i ∧ ∀ sigset, sigsets i = some sigset →
    ∃ addr script, text.parse ((splitOn ',' line).headD []) = some addr ∧
      api.outputScript sigset addr = .ok script

/-- The insert a line asks for; none when its index is not in the map. -/
def lineInsert (line : List Char) : Option (Call Sigset Address) := do
  let i ← ((splitOn ',' line)[1]?).bind parseU32
  let sigset ← sigsets i
  let addr ← text.parse ((splitOn ',' line).headD [])
  pure (.insert addr sigset)

variable [DecidableEq Script]

/-- Every sigset entry of the index is the map's sigset at its index and derives each of its
addresses. -/
def EntriesFrom (w : WatchedScripts Sigset Address Script) : Prop :=
  ∀ e ∈ w.sigsets.entries, sigsets e.1 = some e.2.1 ∧
    ∀ a ∈ e.2.2, ∃ script, api.outputScript e.2.1 a = .ok script

variable {api text sigsets}

/-! ### One line -/

section Line

variable {line : List Char} (w : WatchedScripts Sigset Address Script)

theorem loadLine_of_lineOk (hc : ',' ∈ line) (hl : LineOk api text sigsets line) :
    loadLine api text sigsets w line =
      .ok (([line].filterMap (lineInsert text sigsets)).foldl (apply api) w) := by
  obtain ⟨first, second, rest, hsplit⟩ := splitOn_of_mem hc
  obtain ⟨i, hi, hsig⟩ := hl
  simp only [hsplit, List.getElem?_cons_succ, List.getElem?_cons_zero, Option.some_bind] at hi
  unfold loadLine
  simp only [hsplit, List.getElem?_cons_succ, List.getElem?_cons_zero, hi, List.headD_cons]
  cases hs : sigsets i with
  | none => simp [lineInsert, hsplit, hi, hs]
  | some sigset =>
    obtain ⟨addr, script, ha, hsc⟩ := hsig sigset hs
    simp only [hsplit, List.headD_cons] at ha
    obtain ⟨b, hb⟩ := insert_fst_of_derives (w := w) hsc
    simp only [ha]
    rw [hb]
    simp [lineInsert, hsplit, hi, hs, ha, apply]

theorem loadLine_of_not_lineOk (hc : ',' ∈ line) (hl : ¬ LineOk api text sigsets line) :
    ∃ e, loadLine api text sigsets w line = .error (.err e) := by
  obtain ⟨first, second, rest, hsplit⟩ := splitOn_of_mem hc
  unfold loadLine
  simp only [hsplit, List.getElem?_cons_succ, List.getElem?_cons_zero, List.headD_cons]
  cases hi : parseU32 second with
  | none => exact ⟨_, rfl⟩
  | some i =>
    -- the index is in the map, and its address does not parse or derives no script
    obtain ⟨sigset, hs, hbad⟩ : ∃ sigset, sigsets i = some sigset ∧ ∀ addr,
        text.parse first = some addr → ∀ script, api.outputScript sigset addr ≠ .ok script := by
      simpa [LineOk, hsplit, hi] using hl
    simp only [hs]
    cases ha : text.parse first with
    | none => exact ⟨_, rfl⟩
    | some addr =>
      cases hsc : api.outputScript sigset addr with
      | error e => exact ⟨e, by simp only [insert_of_error hsc]⟩
      | ok script => exact absurd hsc (hbad addr ha script)

end Line

/-! ### The lines of a file -/

theorem loadLines_of_lineOk (ls : List (List Char)) (w : WatchedScripts Sigset Address Script)
    (hc : ∀ l ∈ ls, ',' ∈ l) (hl : ∀ l ∈ ls, LineOk api text sigsets l) :
    loadLines api text sigsets ls w =
      .ok ((ls.filterMap (lineInsert text sigsets)).foldl (apply api) w) := by
  induction ls generalizing w with
  | nil => rfl
  | cons l ls ih =>
    have hsplit : (l :: ls).filterMap (lineInsert text sigsets) =
        [l].filterMap (lineInsert text sigsets) ++ ls.filterMap (lineInsert text sigsets) := by
      simp only [← List.filterMap_append, List.singleton_append]
    rw [loadLines, loadLine_of_lineOk w (hc l (List.mem_cons_self _ _))
      (hl l (List.mem_cons_self _ _)), hsplit, List.foldl_append]
    exact ih _ (fun l' h => hc l' (List.mem_cons_of_mem _ h))
      (fun l' h => hl l' (List.mem_cons_of_mem _ h))

/-- The first malformed line ends the load with `Err`. -/
theorem loadLines_of_not_lineOk (ls : List (List Char)) (w : WatchedScripts Sigset Address Script)
    (hc : ∀ l ∈ ls, ',' ∈ l) (hl : ¬ ∀ l ∈ ls, LineOk api text sigsets l) :
    ∃ e, loadLines api text sigsets ls w = .error (.err e) := by
  induction ls generalizing w with
  | nil => exact absurd (fun l h => absurd h (List.not_mem_nil l)) hl
  | cons l ls ih =>
    have hcl := hc l (List.mem_cons_self _ _)
    by_cases hok : LineOk api text sigsets l
    · rw [loadLines, loadLine_of_lineOk w hcl hok]
      exact ih _ (fun l' h => hc l' (List.mem_cons_of_mem _ h))
        fun hall => hl fun l' h => (List.mem_cons.1 h).elim (· ▸ hok) (hall l')
    · obtain ⟨e, he⟩ := loadLine_of_not_lineOk w hcl hok
      exact ⟨e, by rw [loadLines, he]⟩

/-! ### The sigset entries -/

theorem entriesFrom_new : EntriesFrom api sigsets (new : WatchedScripts Sigset Address Script) :=
  fun _ he => absurd he (List.not_mem_nil _)

theorem EntriesFrom.insert (hidx : IndexedBy api sigsets) {w : WatchedScripts Sigset Address Script}
    (hw : EntriesFrom api sigsets w) {i : UInt32} {sigset : Sigset} (hs : sigsets i = some sigset)
    (addr : Address) : EntriesFrom api sigsets (w.insert api addr sigset).2 := by
  have hkey : sigsets (api.index sigset) = some sigset := by rw [hidx i sigset hs]; exact hs
  cases hsc : api.outputScript sigset addr with
  | error e => rw [insert_of_error hsc]; exact hw
  | ok script =>
    by_cases hm : script ∈ w.scripts
    · rw [insert_of_mem hsc hm]; exact hw
    · rw [insert_of_not_mem hsc hm]
      intro e he
      rcases mem_pushAddr he with rfl | he | ⟨s₀, addrs₀, hm₀, rfl⟩
      · exact ⟨hkey, fun a ha => ⟨script, by rw [List.mem_singleton.1 ha]; exact hsc⟩⟩
      · exact hw e he
      · obtain ⟨hs₀, hd₀⟩ := hw _ hm₀
        obtain rfl : s₀ = sigset := Option.some.inj (hs₀.symm.trans hkey)
        refine ⟨hs₀, fun a ha => ?_⟩
        rcases List.mem_append.1 ha with ha | ha
        · exact hd₀ a ha
        · exact ⟨script, by rw [List.mem_singleton.1 ha]; exact hsc⟩

theorem EntriesFrom.lineInserts (hidx : IndexedBy api sigsets) (ls : List (List Char)) :
    ∀ {w : WatchedScripts Sigset Address Script}, EntriesFrom api sigsets w →
      EntriesFrom api sigsets ((ls.filterMap (lineInsert text sigsets)).foldl (apply api) w) := by
  induction ls with
  | nil => exact id
  | cons l ls ih =>
    intro w hw
    cases hc : lineInsert text sigsets l with
    | none => simpa [List.filterMap_cons, hc] using ih hw
    | some c =>
      obtain ⟨i, sigset, addr, hs, rfl⟩ : ∃ i sigset addr, sigsets i = some sigset ∧
          c = .insert addr sigset := by
        simp only [lineInsert, Option.bind_eq_bind, Option.bind_eq_some, Option.pure_def,
          Option.some.injEq] at hc
        obtain ⟨i, -, sigset, hs, addr, -, rfl⟩ := hc
        exact ⟨i, sigset, addr, hs, rfl⟩
      simpa [List.filterMap_cons, hc, apply] using ih (hw.insert hidx hs addr)

theorem EntriesFrom.removeExpired_ok {w : WatchedScripts Sigset Address Script}
    (hw : EntriesFrom api sigsets w) (now : Nat) : (w.removeExpired api now).1 = .ok () :=
  (removeExpiredLoop_spec now _ _ fun e he => (hw e he).2).1

/-! ### `maybe_load` -/

/-- On a store file whose every line has a comma, against a map that files each sigset under its
own index, `maybe_load` does not panic. When every line is well formed it returns the index
after inserting, in file order, every line whose index is in the map, and then
`remove_expired`. Otherwise it returns `Err`. -/
theorem maybeLoad_of_commas (hidx : IndexedBy api sigsets) {content : List Char}
    (hc : ∀ l ∈ lines content, ',' ∈ l) (now : Nat) :
    ((∀ l ∈ lines content, LineOk api text sigsets l) →
      maybeLoad api text (some content) sigsets now new =
        .ok (run api ((lines content).filterMap (lineInsert text sigsets) ++ [.removeExpired now]))) ∧
    ((¬ ∀ l ∈ lines content, LineOk api text sigsets l) →
      ∃ e, maybeLoad api text (some content) sigsets now new = .error (.err e)) := by
  constructor
  · intro hl
    have hw : EntriesFrom api sigsets (run api ((lines content).filterMap (lineInsert text sigsets))) :=
      EntriesFrom.lineInserts hidx (lines content) entriesFrom_new
    have hrm : (run api ((lines content).filterMap (lineInsert text sigsets))).removeExpired api now =
        (.ok (), ((run api ((lines content).filterMap (lineInsert text sigsets))).removeExpired
          api now).2) := Prod.ext (hw.removeExpired_ok now) rfl
    simp only [maybeLoad, loadLines_of_lineOk _ _ hc hl]
    rw [← run, hrm, run_append_singleton]
    rfl
  · intro hl
    obtain ⟨e, he⟩ := loadLines_of_not_lineOk (lines content) new hc hl
    exact ⟨e, by simp only [maybeLoad, he]⟩

theorem maybeLoad_of_commas_pairApi :
    IndexedBy pairApi some ∧ (∀ l ∈ lines "7,1\n8,2\n".toList, ',' ∈ l) ∧
    ((∀ l ∈ lines "7,1\n8,2\n".toList, LineOk pairApi decimalText some l) →
      maybeLoad pairApi decimalText (some "7,1\n8,2\n".toList) some 150 new =
        .ok (run pairApi ((lines "7,1\n8,2\n".toList).filterMap (lineInsert decimalText some) ++
          [.removeExpired 150]))) ∧
    ((¬ ∀ l ∈ lines "7,1\n8,2\n".toList, LineOk pairApi decimalText some l) →
      ∃ e, maybeLoad pairApi decimalText (some "7,1\n8,2\n".toList) some 150 new =
        .error (.err e)) :=
  have hidx : IndexedBy pairApi some := fun _ _ h => (Option.some.inj h).symm
  have hc : ∀ l ∈ lines "7,1\n8,2\n".toList, ',' ∈ l := by decide
  ⟨hidx, hc, maybeLoad_of_commas hidx hc 150⟩

end WatchedScriptStore

end Nomic.Bitcoin
