import Nomic.Bitcoin.WatchedScriptsSpec
import Nomic.Bitcoin.StoreFormat

/-!
# `WatchedScriptStore`

`WatchedScriptStore` persists the index of `WatchedScripts` as a text file of lines
`addr,sigset_index`. `open` loads the file (`maybe_load`: each line whose index the sidechain's
checkpoint map holds is inserted, then `remove_expired` runs), truncates it with `File::create`
and rewrites one line per value of the `scripts` map in the `HashMap`'s iteration order; `insert`
inserts in memory and appends the line when the script was new.

The file is its decoded text; the checkpoint map `client.all()` answers is a function from index
to sigset; the `HashMap`'s order is a function `order` on the list of values (a permutation in
every theorem); and a `writeln!` is given by its outcome (`WriteOutcome`): every byte written, or
an I/O error after a prefix, since the file is unbuffered and `writeln!` writes piece by piece.

`loadLines_records`: the lines of a file of records load as the in-memory inserts of their pairs,
in file order, from which `openStore_records` computes what `open` builds from such a file.
`insert_scripts`: `insert` changes the in-memory index the same way whether its append succeeds
or fails. `store_persists_lines`: while every append succeeds, each in-memory entry has its line in
the file; an insert whose append fails keeps its entry in memory, and inserting the same pair again
then returns `Ok` and writes nothing.
-/

namespace Nomic.Bitcoin

variable {Sigset Address Script : Type} [DecidableEq Script]

/-- `WatchedScriptStore`: the index and the text of its file. -/
structure WatchedScriptStore (Sigset Address Script : Type) [DecidableEq Script] where
  scripts : WatchedScripts Sigset Address Script
  file : List Char

/-- How one `writeln!` on the store file ends. -/
inductive WriteOutcome where
  | ok
  /-- An I/O error `msg` after the first `k` characters reached the file. -/
  | fail (k : Nat) (msg : String)
  deriving DecidableEq, Repr

/-- The calls `maybe_load` makes for the pairs of a file: `insert(addr, sigsets[i])` for each pair
whose index is in the map, in file order. -/
def pairCalls (sigsets : UInt32 → Option Sigset) (ps : List (Address × UInt32)) :
    List (Call Sigset Address) :=
  ps.filterMap fun p => (sigsets p.2).map (Call.insert p.1)

namespace WatchedScriptStore

variable (api : SigsetApi Sigset Address Script) (text : AddressText Address)

/-- `write(file, addr, sigset_index)`: `writeln!(file, "{},{}", addr, sigset_index)`. -/
def write (outcome : WriteOutcome) (file : List Char) (addr : Address) (sigsetIndex : UInt32) :
    Except Error Unit × List Char :=
  let line := recordLine text addr sigsetIndex ++ ['\n']
  match outcome with
  | .ok => (.ok (), file ++ line)
  | .fail k msg => (.error (.io msg), file ++ line.take k)

/-- One pass of the line loop of `maybe_load`. -/
def loadLine (sigsets : UInt32 → Option Sigset) (scripts : WatchedScripts Sigset Address Script)
    (line : List Char) : Except Fault (WatchedScripts Sigset Address Script) :=
  let items := splitOn ',' line
  match items[1]? with
  | none => .error (.panic "index out of bounds: the len is 1 but the index is 1")
  | some field =>
    match parseU32 field with
    | none => .error (.err (.app "Could not parse sigset index"))
    | some sigsetIndex =>
      match sigsets sigsetIndex with
      | none => .ok scripts
      | some sigset =>
        -- `items[0]` always exists: `split` yields at least one piece
        match text.parse (items.headD []) with
        | none => .error (.err (.app "Could not parse address"))
        | some address =>
          match scripts.insert api address sigset with
          | (.error e, _) => .error (.err e)
          | (.ok _, scripts) => .ok scripts

/-- The line loop of `maybe_load`. -/
def loadLines (sigsets : UInt32 → Option Sigset) :
    List (List Char) → WatchedScripts Sigset Address Script →
      Except Fault (WatchedScripts Sigset Address Script)
  | [], scripts => .ok scripts
  | line :: rest, scripts =>
    match loadLine api text sigsets scripts line with
    | .error f => .error f
    | .ok scripts => loadLines sigsets rest scripts

/-- `maybe_load`: without a file (`NotFound`) nothing is loaded; otherwise every line, then
`remove_expired()` at clock time `now`. -/
def maybeLoad (file : Option (List Char)) (sigsets : UInt32 → Option Sigset) (now : Nat)
    (scripts : WatchedScripts Sigset Address Script) :
    Except Fault (WatchedScripts Sigset Address Script) :=
  match file with
  | none => .ok scripts
  | some content =>
    match loadLines api text sigsets (lines content) scripts with
    | .error f => .error f
    | .ok scripts =>
      match scripts.removeExpired api now with
      | (.error e, _) => .error (.err e)
      | (.ok (), scripts) => .ok scripts

/-- What `open` writes after `File::create`: one line per value of `scripts.scripts`, in the
order `order` the `HashMap` yields them. -/
def rewrite (order : List (Address × UInt32) → List (Address × UInt32))
    (scripts : WatchedScripts Sigset Address Script) : List Char :=
  render ((order (scripts.scripts.entries.map Sigma.snd)).map fun v => recordLine text v.1 v.2)

/-- `open(path)` at clock time `now`, against the checkpoint map `sigsets`. -/
def openStore (file : Option (List Char)) (sigsets : UInt32 → Option Sigset) (now : Nat)
    (order : List (Address × UInt32) → List (Address × UInt32)) :
    Except Fault (WatchedScriptStore Sigset Address Script) :=
  match maybeLoad api text file sigsets now WatchedScripts.new with
  | .error f => .error f
  | .ok scripts => .ok ⟨scripts, rewrite text order scripts⟩

/-- `insert(addr, sigset)`: insert in memory, and append the line when the script was new. -/
def insert (outcome : WriteOutcome) (addr : Address) (sigset : Sigset)
    (st : WatchedScriptStore Sigset Address Script) :
    Except Error Unit × WatchedScriptStore Sigset Address Script :=
  match st.scripts.insert api addr sigset with
  | (.error e, scripts) => (.error e, { st with scripts := scripts })
  | (.ok false, scripts) => (.ok (), { st with scripts := scripts })
  | (.ok true, scripts) =>
    let written := write text outcome st.file addr (api.index sigset)
    (written.1, ⟨scripts, written.2⟩)

/-- A run of inserts, each with the outcome of its append. -/
def insertAll (st : WatchedScriptStore Sigset Address Script) :
    List (WriteOutcome × Address × Sigset) → WatchedScriptStore Sigset Address Script
  | [] => st
  | (outcome, addr, sigset) :: ops => insertAll (st.insert api text outcome addr sigset).2 ops

theorem insertAll_append (st : WatchedScriptStore Sigset Address Script)
    (ops ops' : List (WriteOutcome × Address × Sigset)) :
    st.insertAll api text (ops ++ ops') = (st.insertAll api text ops).insertAll api text ops' := by
  induction ops generalizing st with
  | nil => rfl
  | cons op ops ih => exact ih _

/-! ### Loading a file of records -/

/-- Every pair of a list whose index is in the map derives a script. -/
def Derivable (api : SigsetApi Sigset Address Script) (sigsets : UInt32 → Option Sigset)
    (ps : List (Address × UInt32)) : Prop :=
  ∀ p ∈ ps, ∀ sigset, sigsets p.2 = some sigset → ∃ script, api.outputScript sigset p.1 = .ok script

omit [DecidableEq Script] in
theorem Derivable.mono {api : SigsetApi Sigset Address Script} {sigsets : UInt32 → Option Sigset}
    {ps qs : List (Address × UInt32)} (hsub : ∀ p ∈ ps, p ∈ qs) (hd : Derivable api sigsets qs) :
    Derivable api sigsets ps :=
  fun p hp => hd p (hsub p hp)

variable {api text}

theorem insert_fst_of_derives {w : WatchedScripts Sigset Address Script} {addr : Address}
    {sigset : Sigset} {script : Script} (h : api.outputScript sigset addr = .ok script) :
    ∃ b, w.insert api addr sigset = (.ok b, (w.insert api addr sigset).2) := by
  by_cases hs : script ∈ w.scripts
  · exact ⟨false, by rw [WatchedScripts.insert_of_mem h hs]⟩
  · exact ⟨true, by rw [WatchedScripts.insert_of_not_mem h hs]⟩

theorem loadLine_recordLine (ht : text.Faithful) (sigsets : UInt32 → Option Sigset)
    (w : WatchedScripts Sigset Address Script) (addr : Address) (i : UInt32)
    (hd : ∀ sigset, sigsets i = some sigset → ∃ script, api.outputScript sigset addr = .ok script) :
    loadLine api text sigsets w (recordLine text addr i) =
      .ok ((pairCalls sigsets [(addr, i)]).foldl (WatchedScripts.apply api) w) := by
  unfold loadLine
  rw [splitOn_recordLine ht]
  simp only [List.getElem?_cons_succ, List.getElem?_cons_zero, parseU32_toDigits, List.headD_cons,
    (ht addr).2.2]
  cases hs : sigsets i with
  | none => simp [pairCalls, hs]
  | some sigset =>
    obtain ⟨script, hsc⟩ := hd sigset hs
    obtain ⟨b, hb⟩ : ∃ b, w.insert api addr sigset = (.ok b, (w.insert api addr sigset).2) :=
      insert_fst_of_derives hsc
    simp only [pairCalls, List.filterMap_cons, List.filterMap_nil, hs, Option.map_some',
      List.foldl_cons, List.foldl_nil, WatchedScripts.apply]
    rw [hb]

theorem loadLines_records (ht : text.Faithful) (sigsets : UInt32 → Option Sigset)
    (ps : List (Address × UInt32)) (hd : Derivable api sigsets ps)
    (w : WatchedScripts Sigset Address Script) :
    loadLines api text sigsets (ps.map fun p => recordLine text p.1 p.2) w =
      .ok ((pairCalls sigsets ps).foldl (WatchedScripts.apply api) w) := by
  induction ps generalizing w with
  | nil => rfl
  | cons p ps ih =>
    have hcalls : pairCalls sigsets (p :: ps) = pairCalls sigsets [p] ++ pairCalls sigsets ps := by
      simp only [pairCalls, ← List.filterMap_append, List.singleton_append]
    rw [List.map_cons, loadLines, loadLine_recordLine ht sigsets w p.1 p.2 (hd p (by simp)),
      hcalls, List.foldl_append]
    exact ih (fun q hq => hd q (List.mem_cons_of_mem _ hq)) _

/-! ### A line without a comma -/

theorem loadLines_append (sigsets : UInt32 → Option Sigset) (pre post : List (List Char))
    (w : WatchedScripts Sigset Address Script) :
    loadLines api text sigsets (pre ++ post) w =
      (loadLines api text sigsets pre w).bind (loadLines api text sigsets post) := by
  induction pre generalizing w with
  | nil => rfl
  | cons line pre ih =>
    simp only [List.cons_append, loadLines]
    cases loadLine api text sigsets w line with
    | error f => rfl
    | ok w' => exact ih w'

theorem loadLine_of_comma_not_mem (sigsets : UInt32 → Option Sigset)
    (w : WatchedScripts Sigset Address Script) {line : List Char} (h : ',' ∉ line) :
    loadLine api text sigsets w line =
      .error (.panic "index out of bounds: the len is 1 but the index is 1") := by
  simp [loadLine, splitOn, splitOn_go_of_not_mem h]

/-- `maybe_load` panics at the first line without a comma it reaches, such as an empty line or the
tail a crash leaves: `items[1]` is out of bounds. -/
theorem maybeLoad_panics_at_line_without_comma {content line : List Char}
    {pre post : List (List Char)} {sigsets : UInt32 → Option Sigset} {now : Nat}
    {w w' : WatchedScripts Sigset Address Script} (hlines : lines content = pre ++ line :: post)
    (hpre : loadLines api text sigsets pre w = .ok w') (hline : ',' ∉ line) :
    maybeLoad api text (some content) sigsets now w =
      .error (.panic "index out of bounds: the len is 1 but the index is 1") := by
  simp only [maybeLoad, hlines, loadLines_append, hpre, Except.bind, loadLines,
    loadLine_of_comma_not_mem sigsets w' hline]

theorem lines_records (hnl : ∀ a, '\n' ∉ text.toText a) (ps : List (Address × UInt32)) :
    lines (render (ps.map fun p => recordLine text p.1 p.2)) =
      ps.map fun p => recordLine text p.1 p.2 := by
  rw [lines_render _ fun l hl => by
    obtain ⟨p, -, rfl⟩ := List.mem_map.1 hl
    exact newline_not_mem_recordLine (hnl p.1) p.2]
  simp [stripCR_recordLine]

theorem openStore_records (ht : text.Faithful) (sigsets : UInt32 → Option Sigset) (now : Nat)
    (order : List (Address × UInt32) → List (Address × UInt32)) (ps : List (Address × UInt32))
    (hd : Derivable api sigsets ps) (hp : Preconditions api (pairCalls sigsets ps)) :
    openStore api text (some (render (ps.map fun p => recordLine text p.1 p.2))) sigsets now order =
      .ok ⟨WatchedScripts.run api (pairCalls sigsets ps ++ [.removeExpired now]),
        rewrite text order (WatchedScripts.run api (pairCalls sigsets ps ++ [.removeExpired now]))⟩ := by
  have hrm := removeExpired_run_ok _ hp now
  have hpair : (WatchedScripts.run api (pairCalls sigsets ps)).removeExpired api now =
      (.ok (), ((WatchedScripts.run api (pairCalls sigsets ps)).removeExpired api now).2) :=
    Prod.ext hrm rfl
  simp only [openStore, maybeLoad, lines_records (fun a => (ht a).2.1),
    loadLines_records ht sigsets ps hd]
  rw [← WatchedScripts.run, hpair]
  simp [WatchedScripts.apply]

theorem mem_rewrite {order : List (Address × UInt32) → List (Address × UInt32)}
    (horder : ∀ l, (order l).Perm l) {w : WatchedScripts Sigset Address Script} {script : Script}
    {v : Address × UInt32} (h : w.get script = some v) :
    v ∈ order (w.scripts.entries.map Sigma.snd) :=
  (horder _).mem_iff.2 (WatchedScripts.mem_values_of_get h)

theorem exists_get_of_mem_rewrite {order : List (Address × UInt32) → List (Address × UInt32)}
    (horder : ∀ l, (order l).Perm l) {w : WatchedScripts Sigset Address Script}
    {v : Address × UInt32} (h : v ∈ order (w.scripts.entries.map Sigma.snd)) :
    ∃ script, w.get script = some v := by
  obtain ⟨⟨script, v'⟩, he, rfl⟩ := List.mem_map.1 ((horder _).mem_iff.1 h)
  exact ⟨script, AList.mem_lookup_iff.2 he⟩

theorem lines_rewrite (hnl : ∀ a, '\n' ∉ text.toText a)
    {order : List (Address × UInt32) → List (Address × UInt32)} (horder : ∀ l, (order l).Perm l)
    (w : WatchedScripts Sigset Address Script) :
    (lines (rewrite text order w)).Perm
      (w.scripts.entries.map fun e => recordLine text e.2.1 e.2.2) := by
  rw [rewrite, lines_records hnl]
  simpa [List.map_map] using (horder (w.scripts.entries.map Sigma.snd)).map
    (fun p => recordLine text p.1 p.2)

/-! ### What `insert` does -/

section Insert

variable {outcome : WriteOutcome} {addr : Address} {sigset : Sigset}
  {st : WatchedScriptStore Sigset Address Script}

@[simp] theorem insert_scripts :
    (st.insert api text outcome addr sigset).2.scripts = (st.scripts.insert api addr sigset).2 := by
  unfold insert
  split <;> simp_all

theorem insert_of_ne_true (h : (st.scripts.insert api addr sigset).1 ≠ .ok true) :
    st.insert api text outcome addr sigset = (match (st.scripts.insert api addr sigset).1 with
      | .error e => .error e
      | .ok _ => .ok (), st) := by
  have hw := WatchedScripts.insert_snd_of_ne_true h
  unfold insert
  split <;> rename_i hi <;> rw [hi] at hw h ⊢ <;> simp_all

theorem insert_of_eq_true (h : (st.scripts.insert api addr sigset).1 = .ok true) :
    st.insert api text outcome addr sigset =
      ((write text outcome st.file addr (api.index sigset)).1,
        ⟨(st.scripts.insert api addr sigset).2, (write text outcome st.file addr (api.index sigset)).2⟩) := by
  unfold insert
  split <;> rename_i hi <;> rw [hi] at h ⊢ <;> simp_all

theorem insert_ok_of_derives {script : Script} (h : api.outputScript sigset addr = .ok script) :
    (st.insert api text .ok addr sigset).1 = .ok () := by
  obtain ⟨b, hb⟩ := insert_fst_of_derives (w := st.scripts) h
  unfold insert
  rw [hb]
  cases b <;> rfl

end Insert

/-! ### Persistence of the in-memory entries -/

/-- Every in-memory entry has its record among the complete lines of the file. -/
def Persisted (text : AddressText Address) (st : WatchedScriptStore Sigset Address Script) : Prop :=
  ∃ ps : List (Address × UInt32), st.file = render (ps.map fun p => recordLine text p.1 p.2) ∧
    ∀ script addr i, st.scripts.get script = some (addr, i) → (addr, i) ∈ ps

theorem persisted_openStore {file : Option (List Char)} {sigsets : UInt32 → Option Sigset}
    {now : Nat} {order : List (Address × UInt32) → List (Address × UInt32)}
    (horder : ∀ l, (order l).Perm l) {st : WatchedScriptStore Sigset Address Script}
    (h : openStore api text file sigsets now order = .ok st) : Persisted text st := by
  unfold openStore at h
  split at h
  · cases h
  · rename_i scripts _
    cases h
    exact ⟨_, rfl, fun _ _ _ hget => mem_rewrite horder hget⟩

theorem persisted_insert (hp : Persisted text st) (addr : Address) (sigset : Sigset) :
    Persisted text (st.insert api text .ok addr sigset).2 := by
  obtain ⟨ps, hfile, hmem⟩ := hp
  by_cases ht : (st.scripts.insert api addr sigset).1 = .ok true
  · rw [insert_of_eq_true ht]
    refine ⟨ps ++ [(addr, api.index sigset)], by simp [write, hfile, render_append], ?_⟩
    intro script a i hget
    rcases WatchedScripts.get_insert hget with hget | ⟨hv, -⟩
    · exact List.mem_append_left _ (hmem _ _ _ hget)
    · simp [hv]
  · rw [insert_of_ne_true ht]
    exact ⟨ps, hfile, hmem⟩

theorem persisted_insertAll (hp : Persisted text st) (ops : List (WriteOutcome × Address × Sigset))
    (hok : ∀ op ∈ ops, op.1 = .ok) : Persisted text (st.insertAll api text ops) := by
  induction ops generalizing st with
  | nil => exact hp
  | cons op ops ih =>
    obtain ⟨outcome, addr, sigset⟩ := op
    obtain rfl : outcome = .ok := hok _ (List.mem_cons_self _ _)
    exact ih (persisted_insert hp addr sigset) fun op hop => hok op (List.mem_cons_of_mem _ hop)

theorem Persisted.mem_lines (hnl : ∀ a, '\n' ∉ text.toText a) (hp : Persisted text st)
    {script : Script} {addr : Address} {i : UInt32} (hget : st.scripts.get script = some (addr, i)) :
    recordLine text addr i ∈ lines st.file := by
  obtain ⟨ps, hfile, hmem⟩ := hp
  rw [hfile, lines_records hnl]
  exact List.mem_map_of_mem (fun p => recordLine text p.1 p.2) (hmem _ _ _ hget)

theorem insert_fail_new {st : WatchedScriptStore Sigset Address Script} {k : Nat} {msg : String}
    {addr : Address} {sigset : Sigset} {script : Script}
    (hsc : api.outputScript sigset addr = .ok script) (hnew : st.scripts.get script = none)
    (outcome : WriteOutcome) :
    (st.insert api text (.fail k msg) addr sigset).1 = .error (.io msg) ∧
      (st.insert api text (.fail k msg) addr sigset).2.scripts.get script =
        some (addr, api.index sigset) ∧
      (st.insert api text (.fail k msg) addr sigset).2.insert api text outcome addr sigset =
        (.ok (), (st.insert api text (.fail k msg) addr sigset).2) := by
  have hnot : script ∉ st.scripts.scripts := WatchedScripts.get_eq_none.1 hnew
  have htrue : (st.scripts.insert api addr sigset).1 = .ok true :=
    WatchedScripts.insert_eq_ok_true.2 ⟨script, hsc, hnew⟩
  have hmem : script ∈ (st.scripts.insert api addr sigset).2.scripts := by
    rw [WatchedScripts.insert_of_not_mem hsc hnot]
    exact (AList.mem_insert _).2 (.inl rfl)
  rw [insert_of_eq_true htrue]
  refine ⟨rfl, ?_, ?_⟩
  · rw [WatchedScripts.insert_of_not_mem hsc hnot]
    exact AList.lookup_insert _
  · rw [insert_of_ne_true (by rw [WatchedScripts.insert_of_mem hsc hmem]; simp)]
    simp [WatchedScripts.insert_of_mem hsc hmem]

/-- While every append succeeds, each entry of the in-memory index has its line in the file; a
new pair whose append fails gives `Err` with its entry already in memory, and inserting the pair
again then returns `Ok` and writes nothing. -/
theorem store_persists_lines (hnl : ∀ a, '\n' ∉ text.toText a) {file : Option (List Char)}
    {sigsets : UInt32 → Option Sigset} {now : Nat}
    {order : List (Address × UInt32) → List (Address × UInt32)} (horder : ∀ l, (order l).Perm l)
    {st : WatchedScriptStore Sigset Address Script}
    (hopen : openStore api text file sigsets now order = .ok st)
    (ops : List (WriteOutcome × Address × Sigset)) (hok : ∀ op ∈ ops, op.1 = .ok) :
    (∀ script addr i, (st.insertAll api text ops).scripts.get script = some (addr, i) →
      recordLine text addr i ∈ lines (st.insertAll api text ops).file) ∧
    ∀ (st' : WatchedScriptStore Sigset Address Script) k msg addr sigset script outcome,
      api.outputScript sigset addr = .ok script → st'.scripts.get script = none →
      (st'.insert api text (.fail k msg) addr sigset).1 = .error (.io msg) ∧
      (st'.insert api text (.fail k msg) addr sigset).2.scripts.get script =
        some (addr, api.index sigset) ∧
      (st'.insert api text (.fail k msg) addr sigset).2.insert api text outcome addr sigset =
        (.ok (), (st'.insert api text (.fail k msg) addr sigset).2) :=
  ⟨fun _ _ _ hget => (persisted_insertAll (persisted_openStore horder hopen) ops hok).mem_lines hnl hget,
    fun _ _ _ _ _ _ outcome hsc hnew => insert_fail_new hsc hnew outcome⟩

theorem store_persists_lines_pairApi :
    (∀ a, '\n' ∉ decimalText.toText a) ∧ (∀ l : List (UInt32 × UInt32), (id l).Perm l) ∧
    openStore pairApi decimalText none some 0 id = .ok ⟨WatchedScripts.new, []⟩ ∧
    (∀ op ∈ [((.ok : WriteOutcome), (7 : UInt32), (1 : UInt32))], op.1 = .ok) ∧
    (∀ script addr i, ((⟨WatchedScripts.new, []⟩ : WatchedScriptStore UInt32 UInt32 (UInt32 × UInt32)).insertAll
        pairApi decimalText [(.ok, 7, 1)]).scripts.get script = some (addr, i) →
      recordLine decimalText addr i ∈ lines ((⟨WatchedScripts.new, []⟩ :
        WatchedScriptStore UInt32 UInt32 (UInt32 × UInt32)).insertAll pairApi decimalText [(.ok, 7, 1)]).file) ∧
    ∀ (st' : WatchedScriptStore UInt32 UInt32 (UInt32 × UInt32)) k msg addr sigset script outcome,
      pairApi.outputScript sigset addr = .ok script → st'.scripts.get script = none →
      (st'.insert pairApi decimalText (.fail k msg) addr sigset).1 = .error (.io msg) ∧
      (st'.insert pairApi decimalText (.fail k msg) addr sigset).2.scripts.get script =
        some (addr, pairApi.index sigset) ∧
      (st'.insert pairApi decimalText (.fail k msg) addr sigset).2.insert pairApi decimalText outcome addr
          sigset = (.ok (), (st'.insert pairApi decimalText (.fail k msg) addr sigset).2) :=
  have hnl : ∀ a, '\n' ∉ decimalText.toText a := fun a => (decimalText_faithful a).2.1
  have hok : ∀ op ∈ [((.ok : WriteOutcome), (7 : UInt32), (1 : UInt32))], op.1 = .ok := by simp
  have hopen : openStore pairApi decimalText none some 0 id =
      .ok (⟨WatchedScripts.new, []⟩ : WatchedScriptStore UInt32 UInt32 (UInt32 × UInt32)) := rfl
  ⟨hnl, List.Perm.refl, hopen, hok, store_persists_lines hnl List.Perm.refl hopen _ hok⟩

/-- On a store opened without a file, an append that fails before its first byte: `insert`
returns `Err`, yet the entry is in memory while the file holds no line, and inserting the pair
again returns `Ok` and writes nothing. -/
theorem insert_failed_append_keeps_entry :
    openStore pairApi decimalText none (fun _ => none) 0 id = .ok ⟨WatchedScripts.new, []⟩ ∧
    (WatchedScripts.new : WatchedScripts UInt32 UInt32 (UInt32 × UInt32)).get (7, 1) = none ∧
    (insert pairApi decimalText (.fail 0 "No space left on device") 7 1
      ⟨WatchedScripts.new, []⟩).1 = .error (.io "No space left on device") ∧
    (insert pairApi decimalText (.fail 0 "No space left on device") 7 1
      ⟨WatchedScripts.new, []⟩).2.scripts.get (7, 1) = some (7, 1) ∧
    (insert pairApi decimalText (.fail 0 "No space left on device") 7 1
      ⟨WatchedScripts.new, []⟩).2.file = [] ∧
    ((insert pairApi decimalText (.fail 0 "No space left on device") 7 1
      ⟨WatchedScripts.new, []⟩).2.insert pairApi decimalText .ok 7 1).1 = .ok () ∧
    ((insert pairApi decimalText (.fail 0 "No space left on device") 7 1
      ⟨WatchedScripts.new, []⟩).2.insert pairApi decimalText .ok 7 1).2.file = [] :=
  ⟨rfl, rfl, rfl, rfl, rfl, rfl, rfl⟩

theorem maybeLoad_panics_at_line_without_comma_pairApi :
    lines "7,1\n\n8,1\n".toList = [['7', ',', '1']] ++ [] :: [['8', ',', '1']] ∧
    loadLines pairApi decimalText some [['7', ',', '1']] WatchedScripts.new =
      .ok (WatchedScripts.new.insert pairApi 7 1).2 ∧ ',' ∉ ([] : List Char) ∧
    maybeLoad pairApi decimalText (some "7,1\n\n8,1\n".toList) some 0 WatchedScripts.new =
      .error (.panic "index out of bounds: the len is 1 but the index is 1") :=
  have hlines : lines "7,1\n\n8,1\n".toList = [['7', ',', '1']] ++ [] :: [['8', ',', '1']] := rfl
  have hpre : loadLines pairApi decimalText some [['7', ',', '1']] WatchedScripts.new =
      .ok (WatchedScripts.new.insert pairApi 7 1).2 := rfl
  ⟨hlines, hpre, List.not_mem_nil _,
    maybeLoad_panics_at_line_without_comma hlines hpre (List.not_mem_nil _)⟩

end WatchedScriptStore

end Nomic.Bitcoin
