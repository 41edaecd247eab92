import Nomic.Bitcoin.WatchedScripts

/-!
# `WatchedScripts` is the set of live watched pairs

A history is the list of calls made on one `WatchedScripts` value since `new()`. A pair
`(addr, sigset)` is live with script `s` (`LiveWith`) when some `insert(addr, sigset)` of the
history derived `s` and no later `remove_expired` read a clock value at or past the sigset's
deposit timeout. `run_get_iff` says that `get s` returns `(addr, i)` exactly when such a pair with
index `i` is live, under the three preconditions the callers provide (`Preconditions`): one
sigset per index, deposit timeouts non-decreasing in the index, and output scripts injective on
the inserted pairs.

Proof. `Inv` relates a history to the value it produced: `get` agrees with `LiveWith`, every
stored script's address is listed under its index in `sigsets`, and every listed address was
inserted with the listed sigset and derives its script. `insert` keeps it (a present script is
already the live pair, by injectivity and coherence); `remove_expired` keeps it because the
ascending `BTreeMap` walk stops exactly after the expired sigsets when timeouts grow with the index
(`mem_visited`), and re-deriving the listed addresses hits exactly their own scripts.
-/

namespace Nomic.Bitcoin

variable {Sigset Address Script : Type} (api : SigsetApi Sigset Address Script)

/-- A call on the index. -/
inductive Call (Sigset Address : Type) where
  | insert (addr : Address) (sigset : Sigset)
  | removeExpired (now : Nat)

namespace WatchedScripts

variable [DecidableEq Script]

/-- The index after one call (its result value dropped). -/
def apply (w : WatchedScripts Sigset Address Script) : Call Sigset Address →
    WatchedScripts Sigset Address Script
  | .insert addr sigset => (w.insert api addr sigset).2
  | .removeExpired now => (w.removeExpired api now).2

/-- The index after a history of calls from `new()`. -/
def run (h : List (Call Sigset Address)) : WatchedScripts Sigset Address Script :=
  h.foldl (apply api) new

@[simp] theorem run_nil : run api ([] : List (Call Sigset Address)) = (new : WatchedScripts _ _ Script) :=
  rfl

@[simp] theorem run_append_singleton (h : List (Call Sigset Address)) (c : Call Sigset Address) :
    run api (h ++ [c]) = (run api h).apply api c := by
  simp [run, List.foldl_append]

end WatchedScripts

open WatchedScripts

/-- The preconditions the callers provide over a history: every sigset passed with one index is
the same value, deposit timeouts are non-decreasing in the index, and `output_script` is
injective on the inserted `(addr, index)` pairs. -/
structure Preconditions (h : List (Call Sigset Address)) : Prop where
  coherent : ∀ a s a' s', Call.insert a s ∈ h → Call.insert a' s' ∈ h →
    api.index s = api.index s' → s = s'
  monotone : ∀ a s a' s', Call.insert a s ∈ h → Call.insert a' s' ∈ h →
    (api.index s).toNat ≤ (api.index s').toNat → api.depositTimeout s ≤ api.depositTimeout s'
  injective : ∀ a s a' s' script, Call.insert a s ∈ h → Call.insert a' s' ∈ h →
    api.outputScript s a = .ok script → api.outputScript s' a' = .ok script →
      a = a' ∧ api.index s = api.index s'

theorem Preconditions.mono {h h' : List (Call Sigset Address)}
    (hsub : ∀ a s, Call.insert a s ∈ h' → Call.insert a s ∈ h) (hp : Preconditions api h) :
    Preconditions api h' where
  coherent a s a' s' m m' := hp.coherent a s a' s' (hsub _ _ m) (hsub _ _ m')
  monotone a s a' s' m m' := hp.monotone a s a' s' (hsub _ _ m) (hsub _ _ m')
  injective a s a' s' sc m m' := hp.injective a s a' s' sc (hsub _ _ m) (hsub _ _ m')

theorem Preconditions.of_append {h h' : List (Call Sigset Address)}
    (hp : Preconditions api (h ++ h')) : Preconditions api h :=
  hp.mono api fun _ _ m => List.mem_append_left _ m

/-- `insert(addr, sigset)` happened in `h`, derived `script`, and no later `remove_expired` read a
clock value at or past the sigset's deposit timeout. -/
def LiveWith (h : List (Call Sigset Address)) (script : Script) (addr : Address)
    (sigset : Sigset) : Prop :=
  ∃ pre post, h = pre ++ Call.insert addr sigset :: post ∧
    api.outputScript sigset addr = .ok script ∧
      ∀ now, Call.removeExpired now ∈ post → now < api.depositTimeout sigset

/-! ### `LiveWith` along a history -/

section Live

variable {api} {h : List (Call Sigset Address)} {script : Script} {addr : Address}
  {sigset : Sigset}

theorem not_liveWith_nil : ¬ LiveWith api [] script addr sigset := by
  rintro ⟨pre, post, hh, -⟩
  simp at hh

theorem LiveWith.mem (hl : LiveWith api h script addr sigset) :
    Call.insert addr sigset ∈ h ∧ api.outputScript sigset addr = .ok script := by
  obtain ⟨pre, post, rfl, hs, -⟩ := hl
  exact ⟨by simp, hs⟩

theorem split_append_singleton {pre post : List (Call Sigset Address)} {x c : Call Sigset Address}
    (hh : h ++ [c] = pre ++ x :: post) :
    (post = [] ∧ h = pre ∧ x = c) ∨ ∃ post', post = post' ++ [c] ∧ h = pre ++ x :: post' := by
  rcases List.eq_nil_or_concat post with rfl | ⟨post', y, rfl⟩
  · obtain ⟨h₁, h₂⟩ := List.append_inj' hh rfl
    exact .inl ⟨rfl, h₁, (List.cons.inj h₂).1.symm⟩
  · rw [List.concat_eq_append, show pre ++ x :: (post' ++ [y]) = (pre ++ x :: post') ++ [y] by
      simp] at hh
    obtain ⟨h₁, h₂⟩ := List.append_inj' hh rfl
    obtain rfl := (List.cons.inj h₂).1
    exact .inr ⟨post', List.concat_eq_append _ _, h₁⟩

theorem liveWith_append_insert {a : Address} {s : Sigset} :
    LiveWith api (h ++ [Call.insert a s]) script addr sigset ↔
      LiveWith api h script addr sigset ∨
        (addr = a ∧ sigset = s ∧ api.outputScript sigset addr = .ok script) := by
  constructor
  · rintro ⟨pre, post, hh, hs, hpost⟩
    rcases split_append_singleton hh with ⟨rfl, -, hx⟩ | ⟨post', rfl, rfl⟩
    · cases hx; exact .inr ⟨rfl, rfl, hs⟩
    · exact .inl ⟨pre, post', rfl, hs, fun now hm => hpost now (by simp [hm])⟩
  · rintro (⟨pre, post, rfl, hs, hpost⟩ | ⟨rfl, rfl, hs⟩)
    · refine ⟨pre, post ++ [Call.insert a s], by simp, hs, fun now hm => hpost now ?_⟩
      simpa using hm
    · exact ⟨h, [], rfl, hs, by simp⟩

theorem liveWith_append_removeExpired {t : Nat} :
    LiveWith api (h ++ [Call.removeExpired t]) script addr sigset ↔
      LiveWith api h script addr sigset ∧ t < api.depositTimeout sigset := by
  constructor
  · rintro ⟨pre, post, hh, hs, hpost⟩
    rcases split_append_singleton hh with ⟨-, -, hx⟩ | ⟨post', rfl, rfl⟩
    · cases hx
    · exact ⟨⟨pre, post', rfl, hs, fun now hm => hpost now (by simp [hm])⟩,
        hpost t (by simp)⟩
  · rintro ⟨⟨pre, post, rfl, hs, hpost⟩, ht⟩
    refine ⟨pre, post ++ [Call.removeExpired t], by simp, hs, fun now hm => ?_⟩
    rcases List.mem_append.1 hm with hm | hm
    · exact hpost now hm
    · cases List.mem_singleton.1 hm; exact ht

theorem liveWith_of_inserts (hins : ∀ t, Call.removeExpired t ∉ h) :
    LiveWith api h script addr sigset ↔
      Call.insert addr sigset ∈ h ∧ api.outputScript sigset addr = .ok script := by
  refine ⟨LiveWith.mem, fun ⟨hm, hs⟩ => ?_⟩
  obtain ⟨pre, post, rfl⟩ := List.append_of_mem hm
  exact ⟨pre, post, rfl, hs, fun t ht => absurd (by simp [ht]) (hins t)⟩

theorem liveWith_append_congr {h₁ h₂ : List (Call Sigset Address)}
    (hbase : ∀ script addr sigset, LiveWith api h₁ script addr sigset ↔ LiveWith api h₂ script addr sigset)
    (f : List (Call Sigset Address)) (script : Script) (addr : Address) (sigset : Sigset) :
    LiveWith api (h₁ ++ f) script addr sigset ↔ LiveWith api (h₂ ++ f) script addr sigset := by
  induction f using List.reverseRecOn generalizing script addr sigset with
  | nil => simpa using hbase script addr sigset
  | append_singleton f c ih =>
    cases c with
    | insert a s => simp only [← List.append_assoc, liveWith_append_insert, ih]
    | removeExpired t => simp only [← List.append_assoc, liveWith_append_removeExpired, ih]

end Live

theorem mem_visited {now : Nat} {es : List (SigsetEntry Sigset Address)}
    (hs : (es.map fun e => e.1.toNat).Sorted (· < ·))
    (hmono : ∀ e ∈ es, ∀ e' ∈ es, e.1.toNat ≤ e'.1.toNat →
      api.depositTimeout e.2.1 ≤ api.depositTimeout e'.2.1)
    {e : SigsetEntry Sigset Address} (he : e ∈ es) (hexp : api.depositTimeout e.2.1 ≤ now) :
    e ∈ WatchedScripts.visited api now es := by
  induction es with
  | nil => simp at he
  | cons e' es ih =>
    rw [List.map_cons, List.sorted_cons] at hs
    have hexp' : ¬ now < api.depositTimeout e'.2.1 := by
      rcases List.mem_cons.1 he with rfl | he
      · omega
      · have := hmono e' (List.mem_cons_self _ _) e (List.mem_cons_of_mem _ he)
          (le_of_lt (hs.1 _ (List.mem_map_of_mem _ he)))
        omega
    have hstep : WatchedScripts.visited api now (e' :: es) =
        e' :: WatchedScripts.visited api now es := by
      simp [WatchedScripts.visited, List.takeWhile_cons, hexp']
    rw [hstep]
    rcases List.mem_cons.1 he with rfl | he
    · exact List.mem_cons_self _ _
    · exact List.mem_cons_of_mem _ (ih hs.2 (fun x hx y hy => hmono x (List.mem_cons_of_mem _ hx) y
        (List.mem_cons_of_mem _ hy)) he)

/-! ### The representation invariant -/

variable [DecidableEq Script]

/-- `w` is the index that history `h` produced. -/
structure Inv (h : List (Call Sigset Address)) (w : WatchedScripts Sigset Address Script) :
    Prop where
  get_iff : ∀ script addr i, w.get script = some (addr, i) ↔
    ∃ sigset, api.index sigset = i ∧ LiveWith api h script addr sigset
  listed : ∀ script addr i, w.get script = some (addr, i) →
    ∃ sigset addrs, (i, sigset, addrs) ∈ w.sigsets.entries ∧ addr ∈ addrs
  entry : ∀ i sigset addrs, (i, sigset, addrs) ∈ w.sigsets.entries →
    api.index sigset = i ∧ (∃ a, Call.insert a sigset ∈ h) ∧
      ∀ a ∈ addrs, Call.insert a sigset ∈ h ∧ ∃ script, api.outputScript sigset a = .ok script

variable {api}

theorem inv_nil : Inv api [] (new : WatchedScripts Sigset Address Script) where
  get_iff _ _ _ := by simp [not_liveWith_nil]
  listed _ _ _ h := by simp at h
  entry _ _ _ h := by simp [new] at h

section Step

variable {h : List (Call Sigset Address)} {w : WatchedScripts Sigset Address Script}

theorem Inv.mono_entry (hi : Inv api h w) {c : Call Sigset Address} :
    ∀ i sigset addrs, (i, sigset, addrs) ∈ w.sigsets.entries →
      api.index sigset = i ∧ (∃ a, Call.insert a sigset ∈ h ++ [c]) ∧
        ∀ a ∈ addrs, Call.insert a sigset ∈ h ++ [c] ∧
          ∃ script, api.outputScript sigset a = .ok script := by
  intro i sigset addrs he
  obtain ⟨h₁, ⟨a₀, h₂⟩, h₃⟩ := hi.entry i sigset addrs he
  exact ⟨h₁, ⟨a₀, by simp [h₂]⟩, fun a ha => ⟨by simp [(h₃ a ha).1], (h₃ a ha).2⟩⟩

theorem Inv.live_of_derives {c : Call Sigset Address} (hp : Preconditions api (h ++ [c]))
    (hi : Inv api h w) {script : Script} {addr a : Address} {i : UInt32} {s : Sigset}
    (hget : w.get script = some (addr, i)) (hm : Call.insert a s ∈ h ++ [c])
    (hs : api.outputScript s a = .ok script) :
    addr = a ∧ i = api.index s ∧ LiveWith api h script a s := by
  obtain ⟨s₀, rfl, hl⟩ := (hi.get_iff _ _ _).1 hget
  obtain ⟨hm₀, hs₀⟩ := hl.mem
  have hm₀' : Call.insert addr s₀ ∈ h ++ [c] := List.mem_append_left _ hm₀
  obtain ⟨rfl, hidx⟩ := hp.injective _ _ _ _ _ hm₀' hm hs₀ hs
  obtain rfl := hp.coherent _ _ _ _ hm₀' hm hidx
  exact ⟨rfl, rfl, hl⟩

theorem Inv.insert_same (hi : Inv api h w) {a : Address} {s : Sigset}
    (hlive : ∀ script, api.outputScript s a = .ok script → LiveWith api h script a s) :
    Inv api (h ++ [Call.insert a s]) w := by
  refine ⟨fun script addr i => ?_, hi.listed, hi.mono_entry⟩
  rw [hi.get_iff]
  refine exists_congr fun sg => and_congr_right fun _ => ?_
  rw [liveWith_append_insert]
  refine ⟨.inl, ?_⟩
  rintro (hl | ⟨rfl, rfl, hs⟩)
  · exact hl
  · exact hlive _ hs

theorem inv_insert {a : Address} {s : Sigset} (hp : Preconditions api (h ++ [Call.insert a s]))
    (hi : Inv api h w) : Inv api (h ++ [Call.insert a s]) (w.insert api a s).2 := by
  have hmem : Call.insert a s ∈ h ++ [Call.insert a s] := by simp
  cases hsc : api.outputScript s a with
  | error e =>
    rw [insert_of_error hsc]
    exact hi.insert_same fun _ hs => by rw [hsc] at hs; cases hs
  | ok sc =>
    by_cases hin : sc ∈ w.scripts
    · rw [insert_of_mem hsc hin]
      obtain ⟨⟨addr₀, i₀⟩, hget⟩ := Option.isSome_iff_exists.1 (AList.lookup_isSome.2 hin)
      have hlive := (hi.live_of_derives hp hget hmem hsc).2.2
      exact hi.insert_same fun _ hs => by rw [hsc] at hs; cases hs; exact hlive
    · rw [insert_of_not_mem hsc hin]
      have habsent : ∀ addr sg, ¬ LiveWith api h sc addr sg := fun addr sg hl =>
        hin (AList.lookup_isSome.1 (Option.isSome_iff_exists.2
          ⟨(addr, api.index sg), (hi.get_iff _ _ _).2 ⟨sg, rfl, hl⟩⟩))
      refine ⟨fun script addr i => ?_, fun script addr i hget => ?_, fun i sg addrs he => ?_⟩
      · simp only [WatchedScripts.get, liveWith_append_insert]
        by_cases hs : script = sc
        · subst hs
          rw [AList.lookup_insert]
          simp only [Option.some.injEq, Prod.mk.injEq, habsent, false_or]
          constructor
          · rintro ⟨rfl, rfl⟩; exact ⟨s, rfl, rfl, rfl, hsc⟩
          · rintro ⟨sg, rfl, rfl, rfl, -⟩; exact ⟨rfl, rfl⟩
        · rw [AList.lookup_insert_ne hs, ← WatchedScripts.get, hi.get_iff]
          refine exists_congr fun sg => and_congr_right fun _ => ⟨.inl, ?_⟩
          rintro (hl | ⟨rfl, rfl, hs'⟩)
          · exact hl
          · rw [hsc] at hs'; cases hs'; exact absurd rfl hs
      · simp only [WatchedScripts.get] at hget
        by_cases hs : script = sc
        · subst hs
          rw [AList.lookup_insert] at hget
          obtain ⟨rfl, rfl⟩ := Prod.mk.inj (Option.some.inj hget).symm
          exact exists_pushAddr_addr
        · rw [AList.lookup_insert_ne hs] at hget
          obtain ⟨sg, addrs, he, ha⟩ := hi.listed _ _ _ hget
          obtain ⟨addrs', he', hsub⟩ : ∃ addrs', (i, sg, addrs') ∈
              pushAddr (api.index s) s a w.sigsets.entries ∧ addrs ⊆ addrs' :=
            exists_pushAddr_of_mem he
          exact ⟨sg, addrs', he', hsub ha⟩
      · rcases mem_pushAddr he with he | he | ⟨s₀, addrs₀, he₀, he⟩
        · cases he
          exact ⟨rfl, ⟨a, hmem⟩, fun a' ha' => by
            cases List.mem_singleton.1 ha'; exact ⟨hmem, sc, hsc⟩⟩
        · exact hi.mono_entry i sg addrs he
        · cases he
          obtain ⟨hidx, ⟨a₀, hm₀⟩, hall⟩ := hi.entry _ _ _ he₀
          obtain rfl := hp.coherent _ _ _ _ (List.mem_append_left _ hm₀) hmem hidx
          refine ⟨hidx, ⟨a, hmem⟩, fun a' ha' => ?_⟩
          rcases List.mem_append.1 ha' with ha' | ha'
          · exact ⟨by simp [(hall a' ha').1], (hall a' ha').2⟩
          · cases List.mem_singleton.1 ha'; exact ⟨hmem, sc, hsc⟩

theorem inv_removeExpired {t : Nat} (hp : Preconditions api (h ++ [Call.removeExpired t]))
    (hi : Inv api h w) : Inv api (h ++ [Call.removeExpired t]) (w.removeExpired api t).2 := by
  have hp' := hp.of_append api
  obtain ⟨-, hspec⟩ := removeExpiredLoop_spec t w.sigsets.entries w.scripts
    fun e he a ha => ((hi.entry _ _ _ he).2.2 a ha).2
  have hmono : ∀ e ∈ w.sigsets.entries, ∀ e' ∈ w.sigsets.entries, e.1.toNat ≤ e'.1.toNat →
      api.depositTimeout e.2.1 ≤ api.depositTimeout e'.2.1 := by
    intro e he e' he' hle
    obtain ⟨hidx, ⟨a, hm⟩, -⟩ := hi.entry _ _ _ he
    obtain ⟨hidx', ⟨a', hm'⟩, -⟩ := hi.entry _ _ _ he'
    exact hp'.monotone _ _ _ _ hm hm' (by rw [hidx, hidx']; exact hle)
  refine ⟨fun script addr i => ?_, fun script addr i hget => ?_, ?_⟩
  · rw [get_removeExpired, hspec]
    simp only [liveWith_append_removeExpired]
    constructor
    · rintro ⟨hget, hkeep⟩
      obtain ⟨sg, rfl, hl⟩ := (hi.get_iff _ _ _).1 hget
      refine ⟨sg, rfl, hl, Nat.lt_of_not_le fun hexp => ?_⟩
      obtain ⟨sg₀, addrs, he, ha⟩ := hi.listed _ _ _ hget
      obtain ⟨hidx, -, hall⟩ := hi.entry _ _ _ he
      obtain rfl := hp'.coherent _ _ _ _ (hall addr ha).1 hl.mem.1 hidx
      exact hkeep _ (mem_visited api w.sigsets.sorted hmono he hexp) addr ha hl.mem.2
    · rintro ⟨sg, rfl, hl, ht⟩
      refine ⟨(hi.get_iff _ _ _).2 ⟨sg, rfl, hl⟩, fun e he a ha hsa => ?_⟩
      have hev := List.mem_takeWhile_imp he
      obtain ⟨hidx, -, hall⟩ := hi.entry _ _ _ ((List.takeWhile_sublist _).subset he)
      obtain ⟨-, hidx'⟩ := hp'.injective _ _ _ _ _ (hall a ha).1 hl.mem.1 hsa hl.mem.2
      obtain rfl := hp'.coherent _ _ _ _ (hall a ha).1 hl.mem.1 hidx'
      have hev' : api.depositTimeout e.2.1 ≤ t := by simpa using hev
      exact absurd ht (not_lt.2 hev')
  · rw [get_removeExpired, hspec] at hget
    exact hi.listed _ _ _ hget.1
  · exact hi.mono_entry

end Step

/-- The index after any history satisfying the preconditions is the one the history describes. -/
theorem inv_run (h : List (Call Sigset Address)) (hp : Preconditions api h) :
    Inv api h (run api h) := by
  induction h using List.reverseRecOn with
  | nil => exact inv_nil
  | append_singleton h c ih =>
    rw [run_append_singleton]
    cases c with
    | insert a s => exact inv_insert hp (ih (hp.of_append api))
    | removeExpired t => exact inv_removeExpired hp (ih (hp.of_append api))

/-- `get` after any history is the set of live pairs, by index. -/
theorem run_get_iff (h : List (Call Sigset Address)) (hp : Preconditions api h)
    (script : Script) (addr : Address) (i : UInt32) :
    (run api h).get script = some (addr, i) ↔
      ∃ sigset, api.index sigset = i ∧ LiveWith api h script addr sigset :=
  (inv_run h hp).get_iff script addr i

theorem run_append_get_congr {h₁ h₂ : List (Call Sigset Address)}
    (hbase : ∀ script addr sigset, LiveWith api h₁ script addr sigset ↔ LiveWith api h₂ script addr sigset)
    (f : List (Call Sigset Address)) (hp₁ : Preconditions api (h₁ ++ f))
    (hp₂ : Preconditions api (h₂ ++ f)) (script : Script) :
    (run api (h₁ ++ f)).get script = (run api (h₂ ++ f)).get script :=
  Option.ext fun ⟨addr, i⟩ =>
    ((run_get_iff _ hp₁ script addr i).trans (exists_congr fun sigset => and_congr_right fun _ =>
      liveWith_append_congr hbase f script addr sigset)).trans (run_get_iff _ hp₂ script addr i).symm

theorem removeExpired_run_ok (h : List (Call Sigset Address)) (hp : Preconditions api h)
    (now : Nat) : ((run api h).removeExpired api now).1 = .ok () :=
  (removeExpiredLoop_spec now _ _ fun e he a ha =>
    (((inv_run h hp).entry e.1 e.2.1 e.2.2 he).2.2 a ha).2).1

/-- `WatchedScripts` behaves as the set of live watched pairs, and `insert` returns `true`
exactly when its derived script was absent. -/
theorem watchedScripts_live (h : List (Call Sigset Address)) (hp : Preconditions api h) :
    (∀ script addr i, (run api h).get script = some (addr, i) ↔
      ∃ sigset, api.index sigset = i ∧ LiveWith api h script addr sigset) ∧
    (∀ pre addr sigset post, h = pre ++ Call.insert addr sigset :: post →
      (((run api pre).insert api addr sigset).1 = .ok true ↔
        ∃ script, api.outputScript sigset addr = .ok script ∧
          ∀ a s, ¬ LiveWith api pre script a s)) := by
  refine ⟨run_get_iff h hp, fun pre addr sigset post hh => ?_⟩
  subst hh
  have hpre : Preconditions api pre := hp.of_append api
  rw [insert_eq_ok_true]
  refine exists_congr fun script => and_congr_right fun _ => ⟨fun hn a s hl => ?_, fun hn => ?_⟩
  · simpa [hn] using (run_get_iff pre hpre script a (api.index s)).2 ⟨s, rfl, hl⟩
  · cases hg : (run api pre).get script with
    | none => rfl
    | some v =>
      obtain ⟨_, _, hl⟩ := (run_get_iff pre hpre script v.1 v.2).1 hg
      exact (hn _ _ hl).elim

/-- A signatory-set interface in which a sigset is its own index, its deposits time out at
`100 * index`, and the script of an address is the pair itself; it meets every precondition. -/
def pairApi : SigsetApi UInt32 UInt32 (UInt32 × UInt32) where
  index := id
  depositTimeout s := 100 * s.toNat
  outputScript s a := .ok (a, s)

theorem pairApi_preconditions (h : List (Call UInt32 UInt32)) : Preconditions pairApi h where
  coherent _ _ _ _ _ _ hi := hi
  monotone _ _ _ _ _ _ hle := Nat.mul_le_mul_left 100 hle
  injective _ _ _ _ _ _ _ hs hs' := Prod.mk.inj (Except.ok.inj (hs.trans hs'.symm))

theorem watchedScripts_live_pairApi :
    Preconditions pairApi [.insert 7 1, .insert 8 2, .removeExpired 150] ∧
    (∀ script addr i,
      (run pairApi [.insert 7 1, .insert 8 2, .removeExpired 150]).get script = some (addr, i) ↔
        ∃ sigset, pairApi.index sigset = i ∧
          LiveWith pairApi [.insert 7 1, .insert 8 2, .removeExpired 150] script addr sigset) ∧
    (∀ pre addr sigset post,
      [.insert 7 1, .insert 8 2, .removeExpired 150] = pre ++ Call.insert addr sigset :: post →
        (((run pairApi pre).insert pairApi addr sigset).1 = .ok true ↔
          ∃ script, pairApi.outputScript sigset addr = .ok script ∧
            ∀ a s, ¬ LiveWith pairApi pre script a s)) :=
  ⟨pairApi_preconditions _, watchedScripts_live _ (pairApi_preconditions _)⟩

end Nomic.Bitcoin
