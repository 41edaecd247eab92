import Mathlib.Logic.Relation
import Nomic.Bitcoin.BlockTree

/-!
# `common_ancestor`

`common_ancestor(a, b)` reads the header infos of both blocks and walks them down until they are
equal: the higher one steps to its parent, the lower one when they are level, and it returns early
when the lower block's confirmations say it is the other's ancestor on the active chain. The loop
is modelled with fuel; `commonAncestor` gives it `height a + height b + 1` passes, and `none` means
the loop had not ended by then. The parent hash is `previous_block_hash.unwrap()`, a panic on
genesis.

* `WF.loop_outcome`: every run walks by parent steps (`WalkStep`) and ends in one of three ways
  (`LoopEnd`). A step keeps each block's ancestors among the start's and keeps the common
  ancestors of the pair (`WF.walk_common`).
* `WF.commonAncestor_terminates`: on any two known blocks the loop returns `Ok` within the fuel,
  with a header no higher than either block.
* `WF.loopEnd_isMrca`: where the early returns that fire are sound, the result is the most recent
  common ancestor (`IsMrca`). They are sound when the block returned from is on the active chain
  (`WF.earlyReturn_isAncestor`). That covers an active `a` with `b` no higher
  (`WF.commonAncestor_isMrca`) and two active blocks (`WF.commonAncestor_of_active`).
* `commonAncestor_stale_returns_non_ancestor`: a stale block at the tip's height makes the first
  early return fire for a block that is not its ancestor.
-/

namespace Nomic.Bitcoin

/-- `x as usize` for an `i32` value `x`: sign-extended to 64 bits. -/
def usizeOfI32 (x : Int) : Nat := (x % 2 ^ 64).toNat

theorem usizeOfI32_natCast {k : Nat} (hk : k < 2 ^ 64) : usizeOfI32 k = k := by
  unfold usizeOfI32
  rw [Int.emod_eq_of_lt (Int.ofNat_nonneg k) (by exact_mod_cast hk)]
  rfl

theorem usizeOfI32_stale : usizeOfI32 (-1 - 1) = 2 ^ 64 - 2 := by decide

namespace BlockTree

variable {Hash Tx : Type} (t : BlockTree Hash Tx)

section Code

variable [DecidableEq Hash]

/-- The parent's header info, `get_block_header_info(&info.previous_block_hash.unwrap())`. -/
def parentInfo (info : HeaderInfo Hash) : Except Fault (HeaderInfo Hash) :=
  match info.previousBlockHash with
  | none => .error (.panic "called `Option::unwrap()` on a `None` value")
  | some prev =>
    match t.headerInfo prev with
    | .error e => .error (.err e)
    | .ok info => .ok info

/-- The `while a != b` loop of `common_ancestor`, for at most `fuel` passes. -/
def commonAncestorLoop : Nat → HeaderInfo Hash → HeaderInfo Hash →
    Option (Except Fault (HeaderInfo Hash))
  | 0, _, _ => none
  | fuel + 1, a, b =>
    if a = b then some (.ok a)
    else if a.height > b.height ∧ usizeOfI32 (b.confirmations - 1) = a.height - b.height then
      some (.ok b)
    else if b.height > a.height ∧ usizeOfI32 (a.confirmations - 1) = b.height - a.height then
      some (.ok a)
    else if a.height > b.height then
      match t.parentInfo a with
      | .error f => some (.error f)
      | .ok a => commonAncestorLoop fuel a b
    else
      match t.parentInfo b with
      | .error f => some (.error f)
      | .ok b => commonAncestorLoop fuel a b

/-- `common_ancestor(a, b)`, its loop given `height a + height b + 1` passes. -/
def commonAncestor (a b : Hash) : Option (Except Fault (HeaderInfo Hash)) :=
  match t.headerInfo a with
  | .error e => some (.error (.err e))
  | .ok a =>
    match t.headerInfo b with
    | .error e => some (.error (.err e))
    | .ok b => t.commonAncestorLoop (a.height + b.height + 1) a b

end Code

/-! ### The walk -/

/-- `c` is the most recent common ancestor of `a` and `b`: an ancestor-or-self of both, of which
every other such block is an ancestor. -/
def IsMrca (c a b : Hash) : Prop :=
  t.IsAncestor c a ∧ t.IsAncestor c b ∧
    ∀ c', t.IsAncestor c' a → t.IsAncestor c' b → t.IsAncestor c' c

/-- A pass of the loop that does not return, on the blocks it holds: the higher one moves to its
parent, `b` when they are level; the parent is known, its header info having been fetched. -/
inductive WalkStep : Hash × Hash → Hash × Hash → Prop
  | left {a b : Hash} {na nb pa : ChainNode Hash Tx} : t.node a = some na → t.node b = some nb →
      t.node na.prevBlockhash = some pa → nb.height < na.height →
      WalkStep (a, b) (na.prevBlockhash, b)
  | right {a b : Hash} {na nb pb : ChainNode Hash Tx} : t.node a = some na → t.node b = some nb →
      t.node nb.prevBlockhash = some pb → na.height ≤ nb.height → a ≠ b →
      WalkStep (a, b) (a, nb.prevBlockhash)

section Walk

variable {t} {x y a b c : Hash} {nx ny na nb : ChainNode Hash Tx}

theorem WalkStep.isAncestor {p q : Hash × Hash} (hs : t.WalkStep p q) :
    t.IsAncestor q.1 p.1 ∧ t.IsAncestor q.2 p.2 := by
  cases hs with
  | left ha hb hp _ => exact ⟨(isAncestor_iff ha).2 (.inr (isAncestor_self hp)), isAncestor_self hb⟩
  | right ha hb hp _ _ =>
    exact ⟨isAncestor_self ha, (isAncestor_iff hb).2 (.inr (isAncestor_self hp))⟩

theorem walk_isAncestor {q : Hash × Hash} (hw : Relation.ReflTransGen t.WalkStep (x, y) q)
    (hx : t.node x = some nx) (hy : t.node y = some ny) :
    t.IsAncestor q.1 x ∧ t.IsAncestor q.2 y := by
  induction hw with
  | refl => exact ⟨isAncestor_self hx, isAncestor_self hy⟩
  | tail _ hs ih => exact ⟨hs.isAncestor.1.trans ih.1, hs.isAncestor.2.trans ih.2⟩

theorem WF.walkStep_common (ht : t.WF) {p q : Hash × Hash} (hs : t.WalkStep p q) (c : Hash) :
    t.IsAncestor c q.1 ∧ t.IsAncestor c q.2 ↔ t.IsAncestor c p.1 ∧ t.IsAncestor c p.2 := by
  cases hs with
  | left ha hb _ hlt =>
    refine ⟨fun h => ⟨(isAncestor_iff ha).2 (.inr h.1), h.2⟩, fun ⟨hca, hcb⟩ => ⟨?_, hcb⟩⟩
    refine ((isAncestor_iff ha).1 hca).resolve_left ?_
    rintro rfl
    obtain ⟨m, hm, hle, -⟩ := ht.isAncestor_height hcb hb
    rw [ha] at hm; cases hm
    omega
  | right ha hb _ hle hne =>
    refine ⟨fun h => ⟨h.1, (isAncestor_iff hb).2 (.inr h.2)⟩, fun ⟨hca, hcb⟩ => ⟨hca, ?_⟩⟩
    refine ((isAncestor_iff hb).1 hcb).resolve_left ?_
    rintro rfl
    exact hne (ht.eq_of_isAncestor hca ha hb hle).symm

theorem WF.walk_common (ht : t.WF) {q : Hash × Hash}
    (hw : Relation.ReflTransGen t.WalkStep (x, y) q) (c : Hash) :
    t.IsAncestor c q.1 ∧ t.IsAncestor c q.2 ↔ t.IsAncestor c x ∧ t.IsAncestor c y := by
  induction hw with
  | refl => exact Iff.rfl
  | tail _ hs ih => exact (ht.walkStep_common hs c).trans ih

theorem WF.walk_active (ht : t.WF) {q : Hash × Hash}
    (hw : Relation.ReflTransGen t.WalkStep (x, y) q) (hact : t.IsAncestor x t.best)
    (hle : ∀ nx ny, t.node x = some nx → t.node y = some ny → ny.height ≤ nx.height) :
    t.IsAncestor q.1 t.best ∧
      ∀ n₁ n₂, t.node q.1 = some n₁ → t.node q.2 = some n₂ → n₂.height ≤ n₁.height := by
  induction hw with
  | refl => exact ⟨hact, hle⟩
  | tail _ hs ih =>
    obtain ⟨iha, ihle⟩ := ih
    cases hs with
    | left ha hb hp hlt =>
      refine ⟨(isAncestor_iff ha).2 (.inr (isAncestor_self hp)) |>.trans iha, ?_⟩
      intro n₁ n₂ h₁ h₂
      rw [hp] at h₁; rw [hb] at h₂; cases h₁; cases h₂
      have := ht.parent_height ha hp
      omega
    | right ha hb hp hle' _ =>
      refine ⟨iha, ?_⟩
      intro n₁ n₂ h₁ h₂
      rw [ha] at h₁; rw [hp] at h₂; cases h₁; cases h₂
      have := ihle _ _ ha hb
      have := ht.parent_height hb hp
      omega

theorem WF.isMrca_unique (ht : t.WF) {c' : Hash} (hc : t.IsMrca c a b) (hc' : t.IsMrca c' a b) :
    c = c' := by
  have h₁ : t.IsAncestor c c' := hc'.2.2 c hc.1 hc.2.1
  have h₂ : t.IsAncestor c' c := hc.2.2 c' hc'.1 hc'.2.1
  obtain ⟨n, hn⟩ := h₁.node
  obtain ⟨n', hn'⟩ := h₂.node
  obtain ⟨m, hm, hle, -⟩ := ht.isAncestor_height h₁ hn'
  obtain ⟨m', hm', hle', -⟩ := ht.isAncestor_height h₂ hn
  rw [hn] at hm; cases hm
  rw [hn'] at hm'; cases hm'
  exact ht.eq_of_isAncestor h₁ hn' hn (by omega)

theorem WF.isMrca_of_active (ht : t.WF) (ha : t.node a = some na) (hb : t.node b = some nb)
    (haa : t.IsAncestor a t.best) (hba : t.IsAncestor b t.best) :
    t.IsMrca (if nb.height ≤ na.height then b else a) a b := by
  split_ifs with hle
  · exact ⟨ht.isAncestor_of_le haa hba ha hb hle, isAncestor_self hb, fun _ _ h => h⟩
  · exact ⟨isAncestor_self ha, ht.isAncestor_of_le hba haa hb ha (by omega), fun _ h _ => h⟩

end Walk

/-! ### The loop -/

section Loop

variable [DecidableEq Hash]

/-- The loop returns `r` holding the blocks `x` and `y`: they are equal, or one of the two early
returns fires. -/
def LoopEnd (x y : Hash) (r : HeaderInfo Hash) : Prop :=
  ∃ ix iy, t.headerInfo x = .ok ix ∧ t.headerInfo y = .ok iy ∧
    (ix = iy ∧ r = ix ∨
      (ix.height > iy.height ∧ usizeOfI32 (iy.confirmations - 1) = ix.height - iy.height) ∧
        r = iy ∨
      (iy.height > ix.height ∧ usizeOfI32 (ix.confirmations - 1) = iy.height - ix.height) ∧
        r = ix)

variable {t} {x y a b c : Hash} {nx ny na nb : ChainNode Hash Tx}

theorem commonAncestorLoop_add (k : Nat) :
    ∀ {f ia ib v}, t.commonAncestorLoop f ia ib = some v →
      t.commonAncestorLoop (f + k) ia ib = some v := by
  intro f
  induction f with
  | zero => intro _ _ _ h; cases h
  | succ f ih =>
    intro ia ib v
    rw [Nat.add_right_comm]
    simp only [commonAncestorLoop]
    split_ifs
    · exact id
    · exact id
    · exact id
    · cases t.parentInfo ia with
      | error e => exact id
      | ok ia => exact ih
    · cases t.parentInfo ib with
      | error e => exact id
      | ok ib => exact ih

theorem commonAncestor_eq {ia ib : HeaderInfo Hash} (hia : t.headerInfo a = .ok ia)
    (hib : t.headerInfo b = .ok ib) :
    t.commonAncestor a b = t.commonAncestorLoop (ia.height + ib.height + 1) ia ib := by
  simp only [commonAncestor, hia, hib]

theorem headerInfo_eq_iff {ix iy : HeaderInfo Hash} (hix : t.headerInfo x = .ok ix)
    (hiy : t.headerInfo y = .ok iy) : ix = iy ↔ x = y := by
  obtain ⟨nx, hx⟩ := node_of_headerInfo hix
  obtain ⟨ny, hy⟩ := node_of_headerInfo hiy
  constructor
  · rintro rfl
    exact (headerInfo_fields hx hix).1.symm.trans (headerInfo_fields hy hiy).1
  · rintro rfl
    exact Except.ok.inj (hix.symm.trans hiy)

theorem WF.parentInfo_eq (ht : t.WF) {i : HeaderInfo Hash} (hx : t.node x = some nx)
    (hpos : 0 < nx.height) (hi : t.headerInfo x = .ok i) :
    ∃ p ip, t.node nx.prevBlockhash = some p ∧ t.headerInfo nx.prevBlockhash = .ok ip ∧
      t.parentInfo i = .ok ip := by
  obtain ⟨p, hp, -⟩ := ht.parent x nx hx hpos
  obtain ⟨ip, hip, -⟩ := headerInfo_of_node hp
  obtain ⟨-, -, -, hprev, -⟩ := headerInfo_fields hx hi
  exact ⟨p, ip, hp, hip, by simp [parentInfo, hprev, hpos.ne', hip]⟩

theorem WF.loop_outcome (ht : t.WF) (f : Nat) :
    ∀ {x y nx ny ix iy}, t.node x = some nx → t.node y = some ny → t.headerInfo x = .ok ix →
      t.headerInfo y = .ok iy → nx.height + ny.height < f →
      ∃ x' y' r, Relation.ReflTransGen t.WalkStep (x, y) (x', y') ∧
        t.commonAncestorLoop f ix iy = some (.ok r) ∧ t.LoopEnd x' y' r := by
  induction f with
  | zero => intro _ _ _ _ _ _ _ _ _ _ hf; omega
  | succ f ih =>
    intro x y nx ny ix iy hx hy hix hiy hf
    have hxh := (headerInfo_fields hx hix).2.1
    have hyh := (headerInfo_fields hy hiy).2.1
    rw [commonAncestorLoop]
    split_ifs with heq h₁ h₂ hgt
    · exact ⟨x, y, ix, .refl, rfl, ix, iy, hix, hiy, .inl ⟨heq, rfl⟩⟩
    · exact ⟨x, y, iy, .refl, rfl, ix, iy, hix, hiy, .inr (.inl ⟨h₁, rfl⟩)⟩
    · exact ⟨x, y, ix, .refl, rfl, ix, iy, hix, hiy, .inr (.inr ⟨h₂, rfl⟩)⟩
    · -- the higher block `x` moves to its parent
      obtain ⟨p, ip, hp, hip, hpi⟩ := ht.parentInfo_eq hx (by omega) hix
      have hph := ht.parent_height hx hp
      obtain ⟨x', y', r, hw, hl, he⟩ := ih hp hy hip hiy (by omega)
      rw [hpi]
      exact ⟨x', y', r, .head (.left hx hy hp (by omega)) hw, hl, he⟩
    · -- `y` moves: it is no lower than `x`, so it is not genesis
      have hne : x ≠ y := fun h => heq ((headerInfo_eq_iff hix hiy).2 h)
      have hpos : 0 < ny.height := Nat.pos_of_ne_zero fun h0 =>
        hne (ht.single_genesis x y nx ny hx hy (by omega) h0)
      obtain ⟨p, ip, hp, hip, hpi⟩ := ht.parentInfo_eq hy hpos hiy
      have hph := ht.parent_height hy hp
      obtain ⟨x', y', r, hw, hl, he⟩ := ih hx hp hix hip (by omega)
      rw [hpi]
      exact ⟨x', y', r, .head (.right hx hy hp (by omega) hne) hw, hl, he⟩

theorem WF.headerInfo_height_le (ht : t.WF) {i : HeaderInfo Hash} (hc : t.IsAncestor c x)
    (hx : t.node x = some nx) (hi : t.headerInfo c = .ok i) : i.height ≤ nx.height := by
  obtain ⟨n, hn, hle, -⟩ := ht.isAncestor_height hc hx
  rw [(headerInfo_fields hn hi).2.1]
  exact hle

theorem WF.commonAncestor_height_le (ht : t.WF) (ha : t.node a = some na)
    (hb : t.node b = some nb) {x y : Hash} {r : HeaderInfo Hash}
    (hw : Relation.ReflTransGen t.WalkStep (a, b) (x, y)) (he : t.LoopEnd x y r) :
    r.height ≤ min na.height nb.height := by
  obtain ⟨hxa, hyb⟩ := walk_isAncestor hw ha hb
  obtain ⟨ix, iy, hix, hiy, hend⟩ := he
  have hx := ht.headerInfo_height_le hxa ha hix
  have hy := ht.headerInfo_height_le hyb hb hiy
  rcases hend with ⟨rfl, rfl⟩ | ⟨h, rfl⟩ | ⟨h, rfl⟩ <;> omega

/-! ### The most recent common ancestor -/

theorem WF.earlyReturn_isAncestor (ht : t.WF) (hbound : t.bestHeight + 2 < 2 ^ 64)
    {ix iy : HeaderInfo Hash} (hix : t.headerInfo x = .ok ix) (hiy : t.headerInfo y = .ok iy)
    (hact : t.IsAncestor x t.best) (hgt : ix.height > iy.height)
    (hfire : usizeOfI32 (iy.confirmations - 1) = ix.height - iy.height) : t.IsAncestor y x := by
  obtain ⟨nx, hx⟩ := node_of_headerInfo hix
  obtain ⟨ny, hy⟩ := node_of_headerInfo hiy
  obtain ⟨nb, hb⟩ := Option.isSome_iff_exists.1 ht.best
  obtain ⟨-, hxh, -⟩ := headerInfo_fields hx hix
  obtain ⟨-, hyh, hyc, -⟩ := headerInfo_fields hy hiy
  have hxb := ht.headerInfo_height_le hact hb hix
  have hbh := bestHeight_eq hb
  by_cases hya : t.isActive y ny.height = true
  · rw [if_pos hya] at hyc
    rw [hyc, show ((t.bestHeight - ny.height + 1 : Nat) : Int) - 1 =
      ((t.bestHeight - ny.height : Nat) : Int) by omega, usizeOfI32_natCast (by omega)] at hfire
    have hxbest : x = t.best := ht.eq_of_isAncestor hact hb hx (by omega)
    rw [hxbest]
    exact (ht.isActive_iff hy).1 hya
  · rw [if_neg hya] at hyc
    rw [hyc, usizeOfI32_stale] at hfire
    omega

theorem WF.loopEnd_isMrca (ht : t.WF) (ha : t.node a = some na) (hb : t.node b = some nb)
    {x y : Hash} {r : HeaderInfo Hash} (hw : Relation.ReflTransGen t.WalkStep (a, b) (x, y))
    (he : t.LoopEnd x y r)
    (hsound : ∀ ix iy, t.headerInfo x = .ok ix → t.headerInfo y = .ok iy →
      (ix.height > iy.height ∧ usizeOfI32 (iy.confirmations - 1) = ix.height - iy.height →
        t.IsAncestor y x) ∧
      (iy.height > ix.height ∧ usizeOfI32 (ix.confirmations - 1) = iy.height - ix.height →
        t.IsAncestor x y)) :
    ∃ c, t.IsMrca c a b ∧ t.headerInfo c = .ok r := by
  obtain ⟨hxa, hyb⟩ := walk_isAncestor hw ha hb
  have hcommon := ht.walk_common hw
  obtain ⟨ix, iy, hix, hiy, hend⟩ := he
  obtain ⟨h₁, h₂⟩ := hsound ix iy hix hiy
  rcases hend with ⟨heq, rfl⟩ | ⟨hfire, rfl⟩ | ⟨hfire, rfl⟩
  · -- the walk met at `x`
    obtain rfl := (headerInfo_eq_iff hix hiy).1 heq
    exact ⟨x, ⟨hxa, hyb, fun c hca hcb => ((hcommon c).2 ⟨hca, hcb⟩).1⟩, hix⟩
  · -- the early return on `y`, an ancestor of `x`
    exact ⟨y, ⟨(h₁ hfire).trans hxa, hyb, fun c hca hcb => ((hcommon c).2 ⟨hca, hcb⟩).2⟩, hiy⟩
  · -- the early return on `x`, an ancestor of `y`
    exact ⟨x, ⟨hxa, (h₂ hfire).trans hyb, fun c hca hcb => ((hcommon c).2 ⟨hca, hcb⟩).1⟩, hix⟩

theorem WF.commonAncestor_isMrca (ht : t.WF) (hbound : t.bestHeight + 2 < 2 ^ 64)
    (ha : t.node a = some na) (hb : t.node b = some nb) (hact : t.IsAncestor a t.best)
    (hle : nb.height ≤ na.height) :
    ∃ c r, t.IsMrca c a b ∧ t.headerInfo c = .ok r ∧ t.commonAncestor a b = some (.ok r) := by
  obtain ⟨ia, hia, -, hah, -⟩ := headerInfo_of_node ha
  obtain ⟨ib, hib, -, hbh, -⟩ := headerInfo_of_node hb
  obtain ⟨x, y, r, hw, hl, he⟩ := ht.loop_outcome _ ha hb hia hib (Nat.lt_succ_self _)
  obtain ⟨hxbest, hyx⟩ := ht.walk_active hw hact fun n₁ n₂ h₁ h₂ => by
    rw [ha] at h₁; rw [hb] at h₂; cases h₁; cases h₂; exact hle
  obtain ⟨c, hc, hcr⟩ := ht.loopEnd_isMrca ha hb hw he fun ix iy hix hiy =>
    ⟨fun ⟨hgt, hfire⟩ => ht.earlyReturn_isAncestor hbound hix hiy hxbest hgt hfire,
      fun ⟨hgt, _⟩ => by
        -- the early return on `x` needs `y` higher than `x`
        obtain ⟨nx, hx⟩ := node_of_headerInfo hix
        obtain ⟨ny, hy⟩ := node_of_headerInfo hiy
        have := hyx _ _ hx hy
        rw [(headerInfo_fields hx hix).2.1, (headerInfo_fields hy hiy).2.1] at hgt
        omega⟩
  exact ⟨c, r, hc, hcr, by rw [commonAncestor_eq hia hib, hah, hbh, hl]⟩

theorem WF.commonAncestor_isMrca_of_active (ht : t.WF) (hbound : t.bestHeight + 2 < 2 ^ 64)
    (ha : t.node a = some na) (hb : t.node b = some nb) (haa : t.IsAncestor a t.best)
    (hba : t.IsAncestor b t.best) :
    ∃ c r, t.IsMrca c a b ∧ t.headerInfo c = .ok r ∧ t.commonAncestor a b = some (.ok r) := by
  obtain ⟨ia, hia, -, hah, -⟩ := headerInfo_of_node ha
  obtain ⟨ib, hib, -, hbh, -⟩ := headerInfo_of_node hb
  obtain ⟨x, y, r, hw, hl, he⟩ := ht.loop_outcome _ ha hb hia hib (Nat.lt_succ_self _)
  obtain ⟨hxa, hyb⟩ := walk_isAncestor hw ha hb
  obtain ⟨c, hc, hcr⟩ := ht.loopEnd_isMrca ha hb hw he fun ix iy hix hiy =>
    ⟨fun ⟨hgt, hfire⟩ => ht.earlyReturn_isAncestor hbound hix hiy (hxa.trans haa) hgt hfire,
      fun ⟨hgt, hfire⟩ => ht.earlyReturn_isAncestor hbound hiy hix (hyb.trans hba) hgt hfire⟩
  exact ⟨c, r, hc, hcr, by rw [commonAncestor_eq hia hib, hah, hbh, hl]⟩

/-- For two blocks on the active chain, `common_ancestor(a, b)` returns the header info of the
lower of the two, their most recent common ancestor. -/
theorem WF.commonAncestor_of_active (ht : t.WF) (hbound : t.bestHeight + 1 < 2 ^ 31)
    (ha : t.node a = some na) (hb : t.node b = some nb) (haa : t.IsAncestor a t.best)
    (hba : t.IsAncestor b t.best) :
    ∃ r, t.headerInfo (if nb.height ≤ na.height then b else a) = .ok r ∧
      t.commonAncestor a b = some (.ok r) ∧
      t.IsMrca (if nb.height ≤ na.height then b else a) a b := by
  obtain ⟨c, r, hc, hcr, hca⟩ := ht.commonAncestor_isMrca_of_active (by omega) ha hb haa hba
  have hlow := ht.isMrca_of_active ha hb haa hba
  obtain rfl := ht.isMrca_unique hc hlow
  exact ⟨r, hcr, hca, hlow⟩

theorem WF.commonAncestor_ok (ht : t.WF) (ha : t.node a = some na) (hb : t.node b = some nb) :
    ∃ r, t.commonAncestor a b = some (.ok r) ∧ r.height ≤ min na.height nb.height := by
  obtain ⟨ia, hia, -, hah, -⟩ := headerInfo_of_node ha
  obtain ⟨ib, hib, -, hbh, -⟩ := headerInfo_of_node hb
  obtain ⟨x, y, r, hw, hl, he⟩ := ht.loop_outcome _ ha hb hia hib (Nat.lt_succ_self _)
  exact ⟨r, by rw [commonAncestor_eq hia hib, hah, hbh, hl], ht.commonAncestor_height_le ha hb hw he⟩

/-- `common_ancestor` terminates safely on any two known blocks of a well-formed tree: its loop
returns `Ok` within `height a + height b + 1` passes, so after at most `height a + height b` parent
lookups, and the same with any more fuel; it never unwraps genesis's missing parent; and it returns
a header no higher than either block, so `end_height - start_height` in `relay_deposits` does not
underflow. -/
theorem WF.commonAncestor_terminates (ht : t.WF) (ha : t.node a = some na)
    (hb : t.node b = some nb) :
    ∃ ia ib r, t.headerInfo a = .ok ia ∧ t.headerInfo b = .ok ib ∧
      (∀ f, na.height + nb.height < f → t.commonAncestorLoop f ia ib = some (.ok r)) ∧
      t.commonAncestor a b = some (.ok r) ∧ r.height ≤ min na.height nb.height ∧
      ∀ overflowChecks, subUsize overflowChecks na.height r.height = .ok (na.height - r.height) := by
  obtain ⟨ia, hia, -, hah, -⟩ := headerInfo_of_node ha
  obtain ⟨ib, hib, -, hbh, -⟩ := headerInfo_of_node hb
  obtain ⟨x, y, r, hw, hl, he⟩ := ht.loop_outcome _ ha hb hia hib (Nat.lt_succ_self _)
  have hr := ht.commonAncestor_height_le ha hb hw he
  refine ⟨ia, ib, r, hia, hib, fun f hf => ?_, ?_, hr, fun _ => subUsize_of_le (by omega)⟩
  · obtain ⟨k, rfl⟩ := Nat.exists_eq_add_of_lt hf
    rw [Nat.add_right_comm _ k 1]
    exact commonAncestorLoop_add k hl
  · rw [commonAncestor_eq hia hib, hah, hbh, hl]

end Loop

end BlockTree

/-! ### A stale block at the tip's height -/

/-- Two chains of height 2 from genesis `0` (whose parent hash `5000` is no block): the active
`1 → 2`, with tip `2`, and the stale `11 → 12`. -/
def staleFork : BlockTree Nat Unit where
  node h :=
    if h = 0 then some ⟨5000, 0, []⟩
    else if h = 1 ∨ h = 11 then some ⟨0, 1, []⟩
    else if h = 2 then some ⟨1, 2, []⟩
    else if h = 12 then some ⟨11, 2, []⟩
    else none
  best := 2

theorem staleFork_node {h : Nat} {n : ChainNode Nat Unit} (hn : staleFork.node h = some n) :
    h = 0 ∧ n = ⟨5000, 0, []⟩ ∨ n = ⟨0, 1, []⟩ ∨ n = ⟨1, 2, []⟩ ∨ n = ⟨11, 2, []⟩ := by
  simp only [staleFork] at hn
  split_ifs at hn with h0
  · exact .inl ⟨h0, (Option.some.inj hn).symm⟩
  · exact .inr (.inl (Option.some.inj hn).symm)
  · exact .inr (.inr (.inl (Option.some.inj hn).symm))
  · exact .inr (.inr (.inr (Option.some.inj hn).symm))

theorem staleFork_wf : staleFork.WF where
  parent h n hn hpos := by
    rcases staleFork_node hn with ⟨-, rfl⟩ | rfl | rfl | rfl
    · cases hpos
    all_goals exact ⟨_, rfl, rfl⟩
  genesis h n hn h0 := by
    rcases staleFork_node hn with ⟨-, rfl⟩ | rfl | rfl | rfl
    · rfl
    all_goals cases h0
  single_genesis h h' n n' hn hn' h0 h0' := by
    rcases staleFork_node hn with ⟨rfl, -⟩ | rfl | rfl | rfl <;> try cases h0
    rcases staleFork_node hn' with ⟨rfl, -⟩ | rfl | rfl | rfl <;> try cases h0'
    rfl
  best := rfl

theorem staleFork_not_isAncestor : ¬ staleFork.IsAncestor 1 12 := by
  rintro ⟨k, hk⟩
  obtain ⟨n, hn, hh⟩ := staleFork_wf.ancestor_height hk (rfl : staleFork.node 12 = some ⟨11, 2, []⟩)
  cases (hn.symm.trans rfl : some n = some ⟨0, 1, []⟩)
  obtain rfl : k = 1 := by simp only at hh; omega
  exact absurd hk (by decide)

/-- On `staleFork`, `common_ancestor(12, 1)` returns the header info of `1`, which is not an ancestor
of `12`; their most recent common ancestor is genesis. The stale `12` is one height above the active
`1`, whose two confirmations make the first early return fire. -/
theorem commonAncestor_stale_returns_non_ancestor :
    ∃ i, staleFork.headerInfo 1 = .ok i ∧ staleFork.commonAncestor 12 1 = some (.ok i) ∧
      ¬ staleFork.IsAncestor 1 12 ∧ staleFork.IsMrca 0 12 1 := by
  refine ⟨_, rfl, rfl, staleFork_not_isAncestor, ⟨2, rfl⟩, ⟨1, rfl⟩, fun c h₁ h₂ => ?_⟩
  rcases (BlockTree.isAncestor_iff (rfl : staleFork.node 1 = some ⟨0, 1, []⟩)).1 h₂ with rfl | h
  · exact absurd h₁ staleFork_not_isAncestor
  · exact h

theorem commonAncestor_of_active_staleFork :
    staleFork.WF ∧ staleFork.bestHeight + 1 < 2 ^ 31 ∧ staleFork.IsAncestor 2 staleFork.best ∧
    staleFork.IsAncestor 1 staleFork.best ∧
    ∃ r, staleFork.headerInfo (if 1 ≤ 2 then 1 else 2) = .ok r ∧
      staleFork.commonAncestor 2 1 = some (.ok r) ∧
      staleFork.IsMrca (if 1 ≤ 2 then 1 else 2) 2 1 :=
  ⟨staleFork_wf, by decide, ⟨0, rfl⟩, ⟨1, rfl⟩, BlockTree.WF.commonAncestor_of_active staleFork_wf
    (by decide) (show staleFork.node 2 = some ⟨1, 2, []⟩ from rfl)
    (show staleFork.node 1 = some ⟨0, 1, []⟩ from rfl) ⟨0, rfl⟩ ⟨1, rfl⟩⟩

theorem commonAncestor_terminates_staleFork :
    staleFork.WF ∧ ∃ ia ib r, staleFork.headerInfo 12 = .ok ia ∧ staleFork.headerInfo 1 = .ok ib ∧
      (∀ f, 2 + 1 < f → staleFork.commonAncestorLoop f ia ib = some (.ok r)) ∧
      staleFork.commonAncestor 12 1 = some (.ok r) ∧ r.height ≤ min 2 1 ∧
      ∀ overflowChecks, subUsize overflowChecks 2 r.height = .ok (2 - r.height) :=
  ⟨staleFork_wf, BlockTree.WF.commonAncestor_terminates staleFork_wf
    (show staleFork.node 12 = some ⟨11, 2, []⟩ from rfl)
    (show staleFork.node 1 = some ⟨0, 1, []⟩ from rfl)⟩

end Nomic.Bitcoin
