import Nomic.Basic

/-!
# `WatchedScripts`

`WatchedScripts` of `bitcoin/relayer.rs` keeps, for every watched output script, the destination
address and signatory-set index it was derived from (`scripts`, a `HashMap`), and, for every
signatory set, the set as it was first inserted and the addresses inserted under it (`sigsets`, a
`BTreeMap` walked in ascending index order). `remove_expired` walks `sigsets` up to the first set
whose deposit timeout is still ahead and removes the scripts of the addresses of the sets before
it, re-deriving each script from its address.

The signatory set is defined outside the modelled files; the relayer reads only its index, its
deposit timeout and the script it derives for an address, and `SigsetApi` takes these as
parameters. The `HashMap` is an `AList`, whose keys are distinct by construction; the `BTreeMap`
is an entry list that carries its ascending order (`SigsetMap`).

Each operation gets the lemmas that say what it does to `get`, so that the invariant proofs of
`WatchedScriptsSpec` never unfold it.
-/

namespace Nomic.Bitcoin

/-- What the relayer reads of a `SignatorySet`: `index()`, `deposit_timeout()` (UNIX seconds)
and `output_script(addr)`. -/
structure SigsetApi (Sigset Address Script : Type) where
  index : Sigset → UInt32
  depositTimeout : Sigset → Nat
  outputScript : Sigset → Address → Except Error Script

variable {Sigset Address Script : Type}

/-- One entry of `sigsets`: the index, the sigset cloned at its first insert, the addresses. -/
abbrev SigsetEntry (Sigset Address : Type) := UInt32 × Sigset × List Address

/-- `BTreeMap<u32, (SignatorySet, Vec<Address>)>`: its entries in ascending index order. -/
structure SigsetMap (Sigset Address : Type) where
  entries : List (SigsetEntry Sigset Address)
  sorted : (entries.map fun e => e.1.toNat).Sorted (· < ·)

/-- `sigsets.entry(i).or_insert((sigset.clone(), vec![])).1.push(addr)`, as the ordered search
of the `BTreeMap` finds the entry. -/
def pushAddr (i : UInt32) (sigset : Sigset) (addr : Address) :
    List (SigsetEntry Sigset Address) → List (SigsetEntry Sigset Address)
  | [] => [(i, sigset, [addr])]
  | e :: es =>
    if i.toNat < e.1.toNat then (i, sigset, [addr]) :: e :: es
    else if i.toNat = e.1.toNat then (e.1, e.2.1, e.2.2 ++ [addr]) :: es
    else e :: pushAddr i sigset addr es

section PushAddr

variable {i : UInt32} {sigset : Sigset} {addr : Address} {es : List (SigsetEntry Sigset Address)}

theorem mem_pushAddr {e : SigsetEntry Sigset Address} (he : e ∈ pushAddr i sigset addr es) :
    e = (i, sigset, [addr]) ∨ e ∈ es ∨
      ∃ s₀ addrs₀, (i, s₀, addrs₀) ∈ es ∧ e = (i, s₀, addrs₀ ++ [addr]) := by
  induction es with
  | nil => simp_all [pushAddr]
  | cons e' es ih =>
    simp only [pushAddr] at he
    split_ifs at he with hlt heq
    · obtain rfl | he := List.mem_cons.1 he
      · exact .inl rfl
      · exact .inr (.inl he)
    · have hi : e'.1 = i := (uint32_eq_of_toNat_eq heq).symm
      obtain rfl | he := List.mem_cons.1 he
      · exact .inr (.inr ⟨e'.2.1, e'.2.2, by rw [← hi]; exact List.mem_cons_self _ _, by rw [hi]⟩)
      · exact .inr (.inl (List.mem_cons_of_mem _ he))
    · obtain rfl | he := List.mem_cons.1 he
      · exact .inr (.inl (List.mem_cons_self _ _))
      · rcases ih he with h | h | ⟨s₀, addrs₀, hm, rfl⟩
        · exact .inl h
        · exact .inr (.inl (List.mem_cons_of_mem _ h))
        · exact .inr (.inr ⟨s₀, addrs₀, List.mem_cons_of_mem _ hm, rfl⟩)

theorem exists_pushAddr_addr :
    ∃ s₀ addrs, (i, s₀, addrs) ∈ pushAddr i sigset addr es ∧ addr ∈ addrs := by
  induction es with
  | nil => exact ⟨sigset, [addr], by simp [pushAddr]⟩
  | cons e es ih =>
    simp only [pushAddr]
    split_ifs with hlt heq
    · exact ⟨sigset, [addr], by simp⟩
    · exact ⟨e.2.1, e.2.2 ++ [addr], by simp [← uint32_eq_of_toNat_eq heq]⟩
    · obtain ⟨s₀, addrs, hm, ha⟩ := ih
      exact ⟨s₀, addrs, List.mem_cons_of_mem _ hm, ha⟩

theorem exists_pushAddr_of_mem {j : UInt32} {s₀ : Sigset} {addrs : List Address}
    (he : (j, s₀, addrs) ∈ es) :
    ∃ addrs', (j, s₀, addrs') ∈ pushAddr i sigset addr es ∧ addrs ⊆ addrs' := by
  induction es with
  | nil => simp at he
  | cons e es ih =>
    simp only [pushAddr]
    split_ifs with hlt heq
    · exact ⟨addrs, List.mem_cons_of_mem _ he, List.Subset.refl _⟩
    · obtain rfl | he := List.mem_cons.1 he
      · exact ⟨addrs ++ [addr], by simp, List.subset_append_left _ _⟩
      · exact ⟨addrs, List.mem_cons_of_mem _ he, List.Subset.refl _⟩
    · obtain rfl | he := List.mem_cons.1 he
      · exact ⟨addrs, List.mem_cons_self _ _, List.Subset.refl _⟩
      · obtain ⟨addrs', hm, hs⟩ := ih he
        exact ⟨addrs', List.mem_cons_of_mem _ hm, hs⟩

theorem sorted_pushAddr (hs : (es.map fun e => e.1.toNat).Sorted (· < ·)) :
    ((pushAddr i sigset addr es).map fun e => e.1.toNat).Sorted (· < ·) := by
  induction es with
  | nil => simp [pushAddr]
  | cons e es ih =>
    rw [List.map_cons, List.sorted_cons] at hs
    simp only [pushAddr]
    split_ifs with hlt heq
    · refine List.sorted_cons.2 ⟨?_, List.sorted_cons.2 hs⟩
      simp only [List.map_cons, List.mem_cons, forall_eq_or_imp]
      exact ⟨hlt, fun b hb => lt_trans hlt (hs.1 b hb)⟩
    · exact List.sorted_cons.2 hs
    · refine List.sorted_cons.2 ⟨fun b hb => ?_, ih hs.2⟩
      obtain ⟨e', he', rfl⟩ := List.mem_map.1 hb
      rcases mem_pushAddr he' with rfl | h | ⟨s₀, addrs₀, hm, rfl⟩
      · show e.1.toNat < i.toNat; omega
      · exact hs.1 _ (List.mem_map_of_mem _ h)
      · exact hs.1 _ (List.mem_map_of_mem (fun e => e.1.toNat) hm)

end PushAddr

/-- `sigsets.entry(i).or_insert(..).1.push(addr)` on the map. -/
def SigsetMap.push (m : SigsetMap Sigset Address) (i : UInt32) (sigset : Sigset)
    (addr : Address) : SigsetMap Sigset Address :=
  ⟨pushAddr i sigset addr m.entries, sorted_pushAddr m.sorted⟩

/-- The index: `scripts` (`HashMap<Script, (Address, u32)>`) and `sigsets`. -/
structure WatchedScripts (Sigset Address Script : Type) [DecidableEq Script] where
  scripts : AList fun _ : Script => Address × UInt32
  sigsets : SigsetMap Sigset Address

namespace WatchedScripts

variable [DecidableEq Script] (api : SigsetApi Sigset Address Script)

/-- `WatchedScripts::new()`. -/
def new : WatchedScripts Sigset Address Script := ⟨∅, ⟨[], List.sorted_nil⟩⟩

/-- `get(script)`. -/
def get (w : WatchedScripts Sigset Address Script) (script : Script) : Option (Address × UInt32) :=
  w.scripts.lookup script

/-- `has(script)`. -/
def has (w : WatchedScripts Sigset Address Script) (script : Script) : Bool :=
  decide (script ∈ w.scripts)

/-- `len()`. -/
def len (w : WatchedScripts Sigset Address Script) : Nat := w.scripts.entries.length

/-- `insert(addr, sigset)`: `Ok(false)` and no change when the derived script is present,
otherwise the script is mapped to `(addr, sigset.index())` and `addr` pushed under the index. -/
def insert (addr : Address) (sigset : Sigset) (w : WatchedScripts Sigset Address Script) :
    Except Error Bool × WatchedScripts Sigset Address Script :=
  match api.outputScript sigset addr with
  | .error e => (.error e, w)
  | .ok script =>
    if script ∈ w.scripts then (.ok false, w)
    else (.ok true, ⟨w.scripts.insert script (addr, api.index sigset),
      w.sigsets.push (api.index sigset) sigset addr⟩)

/-- The inner loop of `remove_expired`: remove the re-derived script of each address. -/
def removeScripts (sigset : Sigset) :
    List Address → AList (fun _ : Script => Address × UInt32) →
      Except Error Unit × AList (fun _ : Script => Address × UInt32)
  | [], s => (.ok (), s)
  | addr :: addrs, s =>
    match api.outputScript sigset addr with
    | .error e => (.error e, s)
    | .ok script => removeScripts sigset addrs (s.erase script)

/-- The outer loop of `remove_expired`, over `sigsets` in ascending index order: `break` at the
first sigset with `now < deposit_timeout`. -/
def removeExpiredLoop (now : Nat) :
    List (SigsetEntry Sigset Address) → AList (fun _ : Script => Address × UInt32) →
      Except Error Unit × AList (fun _ : Script => Address × UInt32)
  | [], s => (.ok (), s)
  | (_, sigset, addrs) :: rest, s =>
    if now < api.depositTimeout sigset then (.ok (), s)
    else match removeScripts api sigset addrs s with
      | (.error e, s') => (.error e, s')
      | (.ok (), s') => removeExpiredLoop now rest s'

/-- `remove_expired()`, reading the clock value `now` (`time_now()`). -/
def removeExpired (now : Nat) (w : WatchedScripts Sigset Address Script) :
    Except Error Unit × WatchedScripts Sigset Address Script :=
  let r := removeExpiredLoop api now w.sigsets.entries w.scripts
  (r.1, { w with scripts := r.2 })

/-! ### What each operation does to `get` -/

@[simp] theorem get_new (script : Script) :
    (new : WatchedScripts Sigset Address Script).get script = none := rfl

theorem get_eq_none {w : WatchedScripts Sigset Address Script} {script : Script} :
    w.get script = none ↔ script ∉ w.scripts := AList.lookup_eq_none

theorem mem_values_of_get {w : WatchedScripts Sigset Address Script} {script : Script}
    {v : Address × UInt32} (h : w.get script = some v) : v ∈ w.scripts.entries.map Sigma.snd :=
  List.mem_map.2 ⟨⟨script, v⟩, AList.mem_lookup_iff.1 h, rfl⟩

variable {api} {addr : Address} {sigset : Sigset} {w : WatchedScripts Sigset Address Script}

theorem insert_of_error {e : Error} (h : api.outputScript sigset addr = .error e) :
    w.insert api addr sigset = (.error e, w) := by
  simp [insert, h]

theorem insert_of_mem {script : Script} (h : api.outputScript sigset addr = .ok script)
    (hs : script ∈ w.scripts) : w.insert api addr sigset = (.ok false, w) := by
  simp [insert, h, hs]

theorem insert_of_not_mem {script : Script} (h : api.outputScript sigset addr = .ok script)
    (hs : script ∉ w.scripts) :
    w.insert api addr sigset = (.ok true, ⟨w.scripts.insert script (addr, api.index sigset),
      w.sigsets.push (api.index sigset) sigset addr⟩) := by
  simp [insert, h, hs]

theorem insert_snd_of_ne_true (h : (w.insert api addr sigset).1 ≠ .ok true) :
    (w.insert api addr sigset).2 = w := by
  unfold insert at h ⊢
  split
  · rfl
  · split_ifs with hs
    · rfl
    · simp_all

/-- After `insert`, a script maps to what it mapped to before, or it is the pair's script and
maps to the pair. -/
theorem get_insert {script : Script} {v : Address × UInt32}
    (h : (w.insert api addr sigset).2.get script = some v) :
    w.get script = some v ∨
      (v = (addr, api.index sigset) ∧ api.outputScript sigset addr = .ok script) := by
  unfold insert at h
  split at h
  · exact .inl h
  · rename_i sc hsc
    split_ifs at h
    · exact .inl h
    · simp only [get] at h ⊢
      by_cases hs : script = sc
      · subst hs
        rw [AList.lookup_insert] at h
        exact .inr ⟨(Option.some.inj h).symm, hsc⟩
      · rw [AList.lookup_insert_ne hs] at h
        exact .inl h

theorem isSome_get_insert {script : Script} (hs : (w.get script).isSome) :
    ((w.insert api addr sigset).2.get script).isSome := by
  simp only [get, AList.lookup_isSome] at hs ⊢
  unfold insert
  split
  · exact hs
  · split_ifs
    · exact hs
    · exact (AList.mem_insert _).2 (.inr hs)

theorem isSome_get_insert_self {script : Script} (h : api.outputScript sigset addr = .ok script) :
    ((w.insert api addr sigset).2.get script).isSome := by
  simp only [get, AList.lookup_isSome]
  by_cases hm : script ∈ w.scripts
  · rw [insert_of_mem h hm]; exact hm
  · rw [insert_of_not_mem h hm]; exact (AList.mem_insert _).2 (.inl rfl)

theorem insert_eq_ok_true :
    (w.insert api addr sigset).1 = .ok true ↔
      ∃ script, api.outputScript sigset addr = .ok script ∧ w.get script = none := by
  rw [insert]
  split <;> rename_i h
  · simp [h]
  · split_ifs with hs <;> simp [h, get_eq_none, hs]

theorem removeScripts_spec (s : AList fun _ : Script => Address × UInt32) {addrs : List Address}
    (hd : ∀ a ∈ addrs, ∃ script, api.outputScript sigset a = .ok script) :
    (removeScripts api sigset addrs s).1 = .ok () ∧ ∀ script v,
      (removeScripts api sigset addrs s).2.lookup script = some v ↔
        s.lookup script = some v ∧ ∀ a ∈ addrs, api.outputScript sigset a ≠ .ok script := by
  induction addrs generalizing s with
  | nil => simp [removeScripts]
  | cons a addrs ih =>
    obtain ⟨sc, hsc⟩ := hd a (List.mem_cons_self _ _)
    obtain ⟨ih₁, ih₂⟩ := ih (s.erase sc) fun a ha => hd a (List.mem_cons_of_mem _ ha)
    simp only [removeScripts, hsc]
    refine ⟨ih₁, fun script v => ?_⟩
    rw [ih₂]
    by_cases hne : script = sc
    · subst hne; simp [AList.lookup_erase, hsc]
    · simp [AList.lookup_erase_ne hne, hsc, Ne.symm hne]

/-- The sigsets `remove_expired` visits at `now`: those before the first one still open. -/
def visited (api : SigsetApi Sigset Address Script) (now : Nat)
    (es : List (SigsetEntry Sigset Address)) : List (SigsetEntry Sigset Address) :=
  es.takeWhile fun e => !decide (now < api.depositTimeout e.2.1)

/-- With every listed address derivable, `remove_expired` succeeds and removes exactly the
scripts of the addresses of the sigsets it visits. -/
theorem removeExpiredLoop_spec (now : Nat) (es : List (SigsetEntry Sigset Address))
    (s : AList fun _ : Script => Address × UInt32)
    (hd : ∀ e ∈ es, ∀ a ∈ e.2.2, ∃ script, api.outputScript e.2.1 a = .ok script) :
    (removeExpiredLoop api now es s).1 = .ok () ∧ ∀ script v,
      (removeExpiredLoop api now es s).2.lookup script = some v ↔
        s.lookup script = some v ∧
          ∀ e ∈ visited api now es, ∀ a ∈ e.2.2, api.outputScript e.2.1 a ≠ .ok script := by
  induction es generalizing s with
  | nil => simp [removeExpiredLoop, visited]
  | cons e es ih =>
    obtain ⟨i, sg, addrs⟩ := e
    by_cases hnow : now < api.depositTimeout sg
    · simp [removeExpiredLoop, visited, hnow]
    · obtain ⟨hr₁, hr₂⟩ := removeScripts_spec s (hd _ (List.mem_cons_self _ _))
      obtain ⟨ih₁, ih₂⟩ := ih (removeScripts api sg addrs s).2
        fun e he => hd e (List.mem_cons_of_mem _ he)
      have hpair : removeScripts api sg addrs s = (.ok (), (removeScripts api sg addrs s).2) :=
        Prod.ext hr₁ rfl
      simp only [removeExpiredLoop, hnow, if_false]
      rw [hpair]
      refine ⟨ih₁, fun script v => ?_⟩
      have hvis : visited api now ((i, sg, addrs) :: es) = (i, sg, addrs) :: visited api now es := by
        simp [visited, List.takeWhile_cons, hnow]
      rw [ih₂, hr₂, hvis, List.forall_mem_cons, and_assoc]

theorem get_removeExpired {now : Nat} (script : Script) :
    ((w.removeExpired api now).2).get script =
      (removeExpiredLoop api now w.sigsets.entries w.scripts).2.lookup script := rfl

theorem sigsets_removeExpired {now : Nat} : (w.removeExpired api now).2.sigsets = w.sigsets := rfl

end WatchedScripts

end Nomic.Bitcoin
