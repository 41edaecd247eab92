import Nomic.Basic

/-!
# The full node's block tree

The relayer reads the Bitcoin full node through `getblock` and `getblockheader` (verbose, giving
`GetBlockHeaderResult`). The node's state is a static block tree (`BlockTree`): the blocks it
knows by hash, each with its parent hash, height and transactions, and the tip of its active
chain. The RPC answers are computed from it: `getBlock`, and `headerInfo`, with the height, the
confirmations (`best height - height + 1` on the active chain, `-1` off it), the parent hash
(absent for genesis) and the active-chain child.

`WF` is what a full node's tree satisfies: a block's parent is known one height below, genesis's
parent hash is no block, there is one genesis, and the tip is known. In a well-formed tree a block
has an ancestor at every depth up to its height (`WF.ancestor_spec`) and none beyond it
(`WF.ancestor_eq_none`); so `last_n_blocks(n, h)` returns the `n` blocks of `h`'s chain when
`n ≤ height + 1` (`WF.lastNBlocks_eq`) and fails at genesis's parent otherwise
(`WF.lastNBlocks_error`).

`IsAncestor c x` is ancestry-or-self. In a well-formed tree an ancestor sits at the depth its
height difference gives (`WF.isAncestor_height`), so an ancestor at the block's own height is the
block (`WF.eq_of_isAncestor`), and of two ancestors of one block the lower is an ancestor of the
higher (`WF.isAncestor_of_le`). The active chain is the tip's ancestors (`WF.isActive_iff`).
-/

namespace Nomic.Bitcoin

/-- A block as the full node stores it. -/
structure ChainNode (Hash Tx : Type) where
  prevBlockhash : Hash
  height : Nat
  txdata : List Tx

/-- A block as `getblock` returns it: its hash (`block_hash()`), parent hash and transactions. -/
structure Block (Hash Tx : Type) where
  hash : Hash
  prevBlockhash : Hash
  txdata : List Tx

/-- The fields of `GetBlockHeaderResult` the relayer reads. -/
structure HeaderInfo (Hash : Type) where
  hash : Hash
  confirmations : Int
  height : Nat
  previousBlockHash : Option Hash
  nextBlockHash : Option Hash
  deriving DecidableEq

/-- The block `getblock` returns for a stored block. -/
def ChainNode.toBlock {Hash Tx : Type} (e : Hash × ChainNode Hash Tx) : Block Hash Tx :=
  ⟨e.1, e.2.prevBlockhash, e.2.txdata⟩

@[simp] theorem ChainNode.toBlock_hash {Hash Tx : Type} (e : Hash × ChainNode Hash Tx) :
    (ChainNode.toBlock e).hash = e.1 := rfl

@[simp] theorem ChainNode.toBlock_prevBlockhash {Hash Tx : Type} (e : Hash × ChainNode Hash Tx) :
    (ChainNode.toBlock e).prevBlockhash = e.2.prevBlockhash := rfl

/-- The full node's static view: the blocks it knows, and the tip of its active chain. -/
structure BlockTree (Hash Tx : Type) where
  node : Hash → Option (ChainNode Hash Tx)
  best : Hash

namespace BlockTree

variable {Hash Tx : Type} (t : BlockTree Hash Tx)

/-- The block `k` parents back from `h`, following `prev_blockhash`. -/
def ancestor (h : Hash) : Nat → Option Hash
  | 0 => (t.node h).map fun _ => h
  | k + 1 => (t.node h).bind fun n => ancestor n.prevBlockhash k

/-- The height of the active tip. -/
def bestHeight : Nat := ((t.node t.best).map ChainNode.height).getD 0

/-- Whether the block `h` of height `height` is on the active chain. -/
def isActive [DecidableEq Hash] (h : Hash) (height : Nat) : Bool :=
  decide (height ≤ t.bestHeight ∧ t.ancestor t.best (t.bestHeight - height) = some h)

/-- `getblockheader(h)`, verbose. -/
def headerInfo [DecidableEq Hash] (h : Hash) : Except Error (HeaderInfo Hash) :=
  match t.node h with
  | none => .error (.rpc "Block not found")
  | some n => .ok
    { hash := h
      confirmations := if t.isActive h n.height then ((t.bestHeight - n.height + 1 : Nat) : Int) else -1
      height := n.height
      previousBlockHash := if n.height = 0 then none else some n.prevBlockhash
      nextBlockHash :=
        if t.isActive h n.height ∧ n.height < t.bestHeight then
          t.ancestor t.best (t.bestHeight - n.height - 1)
        else none }

/-- `getblock(h)`. -/
def getBlock (h : Hash) : Except Error (Block Hash Tx) :=
  match t.node h with
  | none => .error (.rpc "Block not found")
  | some n => .ok (ChainNode.toBlock (h, n))

/-- `last_n_blocks(n, hash)`: the block at `hash` and its parents, `n` in all, newest first. -/
def lastNBlocks : Nat → Hash → Except Error (List (Block Hash Tx))
  | 0, _ => .ok []
  | n + 1, hash =>
    match t.getBlock hash with
    | .error e => .error e
    | .ok block =>
      match lastNBlocks n block.prevBlockhash with
      | .error e => .error e
      | .ok blocks => .ok (block :: blocks)

/-- The segment of `h`'s chain of length `k`, newest first, with each block's stored data. -/
def segment (h : Hash) : Nat → List (Hash × ChainNode Hash Tx)
  | 0 => []
  | k + 1 =>
    match t.node h with
    | none => []
    | some n => (h, n) :: segment n.prevBlockhash k

/-- `c` is `x` or one of its ancestors. -/
def IsAncestor (c x : Hash) : Prop := ∃ k, t.ancestor x k = some c

/-- A full node's tree: parents are known one height below, genesis's parent hash is no block,
there is one genesis, and the active tip is known. -/
structure WF : Prop where
  parent : ∀ h n, t.node h = some n → 0 < n.height →
    ∃ p, t.node n.prevBlockhash = some p ∧ p.height + 1 = n.height
  genesis : ∀ h n, t.node h = some n → n.height = 0 → t.node n.prevBlockhash = none
  single_genesis : ∀ h h' n n', t.node h = some n → t.node h' = some n' → n.height = 0 →
    n'.height = 0 → h = h'
  best : (t.node t.best).isSome

variable {t}

section Walk

variable {h : Hash} {n : ChainNode Hash Tx}

@[simp] theorem ancestor_zero (hn : t.node h = some n) : t.ancestor h 0 = some h := by
  simp [ancestor, hn]

@[simp] theorem ancestor_succ (hn : t.node h = some n) (k : Nat) :
    t.ancestor h (k + 1) = t.ancestor n.prevBlockhash k := by
  simp [ancestor, hn]

theorem ancestor_of_node_none (hn : t.node h = none) (k : Nat) : t.ancestor h k = none := by
  cases k <;> simp [ancestor, hn]

@[simp] theorem getBlock_of_node (hn : t.node h = some n) :
    t.getBlock h = .ok (ChainNode.toBlock (h, n)) := by
  simp [getBlock, hn]

theorem headerInfo_of_node [DecidableEq Hash] (hn : t.node h = some n) :
    ∃ info, t.headerInfo h = .ok info ∧ info.hash = h ∧ info.height = n.height ∧
      info.previousBlockHash = if n.height = 0 then none else some n.prevBlockhash :=
  ⟨_, by unfold headerInfo; rw [hn], rfl, rfl, rfl⟩

theorem headerInfo_fields [DecidableEq Hash] {i : HeaderInfo Hash} (hn : t.node h = some n)
    (hi : t.headerInfo h = .ok i) :
    i.hash = h ∧ i.height = n.height ∧
      i.confirmations =
        (if t.isActive h n.height then ((t.bestHeight - n.height + 1 : Nat) : Int) else -1) ∧
      i.previousBlockHash = (if n.height = 0 then none else some n.prevBlockhash) ∧
      i.nextBlockHash = if t.isActive h n.height ∧ n.height < t.bestHeight then
        t.ancestor t.best (t.bestHeight - n.height - 1) else none := by
  unfold headerInfo at hi
  rw [hn] at hi
  cases hi
  exact ⟨rfl, rfl, rfl, rfl, rfl⟩

theorem node_of_headerInfo [DecidableEq Hash] {i : HeaderInfo Hash} (hi : t.headerInfo h = .ok i) :
    ∃ n, t.node h = some n := by
  unfold headerInfo at hi
  split at hi
  · cases hi
  · exact ⟨_, ‹_›⟩

@[simp] theorem segment_succ (hn : t.node h = some n) (k : Nat) :
    t.segment h (k + 1) = (h, n) :: t.segment n.prevBlockhash k := by
  simp [segment, hn]

/-- In a well-formed tree, a block has an ancestor at every depth up to its height, that much
lower. -/
theorem WF.ancestor_spec (ht : t.WF) (k : Nat) :
    ∀ h n, t.node h = some n → k ≤ n.height →
      ∃ a m, t.ancestor h k = some a ∧ t.node a = some m ∧ m.height + k = n.height := by
  induction k with
  | zero => exact fun h n hn _ => ⟨h, n, ancestor_zero hn, hn, rfl⟩
  | succ k ih =>
    intro h n hn hk
    obtain ⟨p, hp, hph⟩ := ht.parent h n hn (by omega)
    obtain ⟨a, m, ha, hm, hmh⟩ := ih _ p hp (by omega)
    exact ⟨a, m, by rw [ancestor_succ hn]; exact ha, hm, by omega⟩

theorem WF.ancestor_eq_none (ht : t.WF) (k : Nat) :
    ∀ h n, t.node h = some n → n.height < k → t.ancestor h k = none := by
  induction k with
  | zero => exact fun _ _ _ hk => absurd hk (Nat.not_lt_zero _)
  | succ k ih =>
    intro h n hn hk
    rw [ancestor_succ hn]
    rcases Nat.eq_zero_or_pos n.height with h0 | hpos
    · exact ancestor_of_node_none (ht.genesis h n hn h0) k
    · obtain ⟨p, hp, hph⟩ := ht.parent h n hn hpos
      exact ih _ p hp (by omega)

/-- `last_n_blocks` returns the chain segment when it is no longer than the chain. -/
theorem WF.lastNBlocks_eq (ht : t.WF) (k : Nat) :
    ∀ h n, t.node h = some n → k ≤ n.height + 1 →
      t.lastNBlocks k h = .ok ((t.segment h k).map ChainNode.toBlock) := by
  induction k with
  | zero => exact fun _ _ _ _ => rfl
  | succ k ih =>
    intro h n hn hk
    rw [lastNBlocks, getBlock_of_node hn, segment_succ hn]
    rcases Nat.eq_zero_or_pos k with rfl | hkpos
    · rfl
    · obtain ⟨p, hp, hph⟩ := ht.parent h n hn (by omega)
      simp only [ChainNode.toBlock_prevBlockhash, ih _ p hp (by omega), List.map_cons]

theorem WF.lastNBlocks_error (ht : t.WF) (k : Nat) :
    ∀ h n, t.node h = some n → n.height + 1 < k → ∃ e, t.lastNBlocks k h = .error e := by
  induction k with
  | zero => exact fun _ _ _ hk => absurd hk (Nat.not_lt_zero _)
  | succ k ih =>
    intro h n hn hk
    rw [lastNBlocks, getBlock_of_node hn]
    rcases Nat.eq_zero_or_pos n.height with h0 | hpos
    · obtain ⟨k', rfl⟩ : ∃ k', k = k' + 1 := ⟨k - 1, by omega⟩
      simp [lastNBlocks, getBlock, ht.genesis h n hn h0]
    · obtain ⟨p, hp, hph⟩ := ht.parent h n hn hpos
      obtain ⟨e, he⟩ := ih _ p hp (by omega)
      exact ⟨e, by simp [he]⟩

theorem mem_segment {a : Hash} {m : ChainNode Hash Tx} (k : Nat) :
    ∀ h, (a, m) ∈ t.segment h k → ∃ i < k, t.ancestor h i = some a ∧ t.node a = some m := by
  induction k with
  | zero => exact fun _ he => absurd he (List.not_mem_nil _)
  | succ k ih =>
    intro h he
    cases hn : t.node h with
    | none => simp [segment, hn] at he
    | some n =>
      rw [segment_succ hn, List.mem_cons] at he
      rcases he with he | he
      · obtain ⟨rfl, rfl⟩ := Prod.mk.inj he
        exact ⟨0, Nat.succ_pos _, ancestor_zero hn, hn⟩
      · obtain ⟨i, hi, ha, hm⟩ := ih _ he
        exact ⟨i + 1, by omega, by rw [ancestor_succ hn]; exact ha, hm⟩

theorem mem_segment_of_ancestor {a : Hash} {m : ChainNode Hash Tx} (k : Nat) :
    ∀ h i, t.ancestor h i = some a → t.node a = some m → i < k → (a, m) ∈ t.segment h k := by
  induction k with
  | zero => exact fun _ _ _ _ hi => absurd hi (Nat.not_lt_zero _)
  | succ k ih =>
    intro h i ha hm hi
    cases hn : t.node h with
    | none => rw [ancestor_of_node_none hn] at ha; cases ha
    | some n =>
      rw [segment_succ hn, List.mem_cons]
      rcases i with _ | i
      · rw [ancestor_zero hn] at ha
        cases ha
        rw [hn] at hm
        cases hm
        exact .inl rfl
      · rw [ancestor_succ hn] at ha
        exact .inr (ih _ i ha hm (by omega))

end Walk

/-! ### Ancestry -/

section Ancestry

variable {a c x y : Hash} {n nx nb : ChainNode Hash Tx}

theorem ancestor_add (h : Hash) (i j : Nat) :
    t.ancestor h (i + j) = (t.ancestor h i).bind fun a => t.ancestor a j := by
  induction i generalizing h with
  | zero =>
    cases hn : t.node h with
    | none => simp [ancestor_of_node_none hn]
    | some n => simp [ancestor_zero hn]
  | succ i ih =>
    cases hn : t.node h with
    | none => simp [ancestor_of_node_none hn]
    | some n => rw [Nat.add_right_comm, ancestor_succ hn, ancestor_succ hn, ih]

theorem ancestor_node {k : Nat} : ∀ {h}, t.ancestor h k = some c → ∃ n, t.node c = some n := by
  induction k with
  | zero =>
    intro h hc
    obtain ⟨n, hn, rfl⟩ := Option.map_eq_some'.1 hc
    exact ⟨n, hn⟩
  | succ k ih =>
    intro h hc
    cases hn : t.node h with
    | none => rw [ancestor_of_node_none hn] at hc; cases hc
    | some n => rw [ancestor_succ hn] at hc; exact ih hc

theorem isAncestor_self (hx : t.node x = some n) : t.IsAncestor x x := ⟨0, ancestor_zero hx⟩

theorem IsAncestor.trans (hc : t.IsAncestor c x) (hx : t.IsAncestor x y) : t.IsAncestor c y := by
  obtain ⟨i, hi⟩ := hc
  obtain ⟨j, hj⟩ := hx
  exact ⟨j + i, by rw [ancestor_add, hj]; exact hi⟩

theorem IsAncestor.node (hc : t.IsAncestor c x) : ∃ n, t.node c = some n :=
  ancestor_node hc.choose_spec

theorem IsAncestor.node_right (hc : t.IsAncestor c x) : ∃ n, t.node x = some n := by
  obtain ⟨k, hk⟩ := hc
  cases hx : t.node x with
  | none => rw [ancestor_of_node_none hx] at hk; cases hk
  | some n => exact ⟨n, rfl⟩

theorem isAncestor_iff (hx : t.node x = some n) :
    t.IsAncestor c x ↔ c = x ∨ t.IsAncestor c n.prevBlockhash := by
  constructor
  · rintro ⟨_ | k, hk⟩
    · rw [ancestor_zero hx] at hk
      exact .inl (Option.some.inj hk).symm
    · rw [ancestor_succ hx] at hk
      exact .inr ⟨k, hk⟩
  · rintro (rfl | ⟨k, hk⟩)
    · exact isAncestor_self hx
    · exact ⟨k + 1, by rw [ancestor_succ hx]; exact hk⟩

theorem bestHeight_eq (hb : t.node t.best = some nb) : t.bestHeight = nb.height := by
  simp [bestHeight, hb]

theorem WF.parent_height (ht : t.WF) (hx : t.node x = some nx)
    (hp : t.node nx.prevBlockhash = some n) : n.height + 1 = nx.height := by
  rcases Nat.eq_zero_or_pos nx.height with h0 | hpos
  · rw [ht.genesis x nx hx h0] at hp; cases hp
  · obtain ⟨p, hp', hph⟩ := ht.parent x nx hx hpos
    rw [hp] at hp'; cases hp'
    exact hph

theorem WF.ancestor_succ_of_node (ht : t.WF) {k : Nat} (hc : t.ancestor x k = some c)
    (hn : t.node c = some n) (hpos : 0 < n.height) :
    t.ancestor x (k + 1) = some n.prevBlockhash := by
  obtain ⟨p, hp, -⟩ := ht.parent c n hn hpos
  rw [ancestor_add, hc]
  exact (ancestor_succ hn 0).trans (ancestor_zero hp)

theorem WF.ancestor_height (ht : t.WF) {k : Nat} (hc : t.ancestor x k = some c)
    (hx : t.node x = some nx) : ∃ n, t.node c = some n ∧ n.height + k = nx.height := by
  have hk : k ≤ nx.height := Nat.le_of_not_lt fun hlt => by
    rw [ht.ancestor_eq_none k x nx hx hlt] at hc; cases hc
  obtain ⟨a, m, ha, hm, hmh⟩ := ht.ancestor_spec k x nx hx hk
  rw [ha] at hc; cases hc
  exact ⟨m, hm, hmh⟩

theorem WF.isAncestor_height (ht : t.WF) (hc : t.IsAncestor c x) (hx : t.node x = some nx) :
    ∃ n, t.node c = some n ∧ n.height ≤ nx.height ∧
      t.ancestor x (nx.height - n.height) = some c := by
  obtain ⟨k, hk⟩ := hc
  obtain ⟨n, hn, hh⟩ := ht.ancestor_height hk hx
  exact ⟨n, hn, by omega, by rwa [show nx.height - n.height = k by omega]⟩

theorem WF.eq_of_isAncestor (ht : t.WF) (hc : t.IsAncestor c x) (hx : t.node x = some nx)
    (hn : t.node c = some n) (hh : nx.height ≤ n.height) : c = x := by
  obtain ⟨m, hm, -, hk⟩ := ht.isAncestor_height hc hx
  rw [hn] at hm; cases hm
  rw [Nat.sub_eq_zero_of_le hh, ancestor_zero hx] at hk
  exact (Option.some.inj hk).symm

theorem WF.isAncestor_of_le (ht : t.WF) (ha : t.IsAncestor a x) (hb : t.IsAncestor c x)
    (hna : t.node a = some n) (hnc : t.node c = some nx) (hle : nx.height ≤ n.height) :
    t.IsAncestor c a := by
  obtain ⟨m, hx⟩ := ha.node_right
  obtain ⟨n', hn', hnm, hka⟩ := ht.isAncestor_height ha hx
  obtain ⟨c', hc', -, hkc⟩ := ht.isAncestor_height hb hx
  rw [hna] at hn'; cases hn'
  rw [hnc] at hc'; cases hc'
  refine ⟨n.height - nx.height, ?_⟩
  have hsum := t.ancestor_add x (m.height - n.height) (n.height - nx.height)
  rw [show m.height - n.height + (n.height - nx.height) = m.height - nx.height by omega, hkc,
    hka] at hsum
  exact hsum.symm

/-- A block is on the active chain exactly when it is an ancestor of the tip. -/
theorem WF.isActive_iff [DecidableEq Hash] (ht : t.WF) (hx : t.node x = some nx) :
    t.isActive x nx.height = true ↔ t.IsAncestor x t.best := by
  obtain ⟨nb, hb⟩ := Option.isSome_iff_exists.1 ht.best
  simp only [isActive, decide_eq_true_eq, bestHeight_eq hb]
  refine ⟨fun h => ⟨_, h.2⟩, fun hc => ?_⟩
  obtain ⟨m, hm, hle, hk⟩ := ht.isAncestor_height hc hb
  rw [hx] at hm; cases hm
  exact ⟨hle, hk⟩

end Ancestry

end BlockTree

end Nomic.Bitcoin
