import Mathlib.Data.List.Infix
import Nomic.Basic

/-!
# The checkpoint relay

`start_checkpoint_relay` calls `relay_checkpoints` forever, again after each `Err`. A pass of the
loop of `relay_checkpoints` sleeps, reads the sidechain's completed checkpoint transactions
(`completed_txs`), and broadcasts them in order with `send_raw_transaction`. An error whose text
contains `bad-txns-inputs-missingorspent` or `Transaction already in block chain` counts as
success; any other ends the pass, as `relay_checkpoints` returns it. The loop keeps no state
between passes, so a run is its passes, each with what the world answers in it
(`CheckpointPass`). The consensus encoding of a transaction into a `Vec` is left out: the model
sends the transaction itself.

`sendCompletedTxs_spec`: a pass sends the transactions up to the first whose send fails with an
error it does not ignore, that one included, and no later one. Over a run
(`runCheckpointRelay_blocked`): a transaction that every pass lists only after one whose send
keeps failing so is never sent.
-/

namespace Nomic.Bitcoin

variable {Tx : Type}

/-- `haystack.contains(needle)` for a string pattern. -/
def strContains (haystack needle : String) : Bool :=
  decide (needle.toList <:+: haystack.toList)

/-- The `match` on the answer of `send_raw_transaction` (`Ok`, or an error with its text): the
two errors taken as success, and `Err(err)?` for any other. -/
def sendResult : Except String Unit → Except Error Unit
  | .ok _ => .ok ()
  | .error err =>
    if strContains err "bad-txns-inputs-missingorspent" then .ok ()
    else if strContains err "Transaction already in block chain" then .ok ()
    else .error (.rpc err)

/-- The `for` loop of a pass: `send_raw_transaction` on each completed transaction in turn, until
the `match` on an answer returns `Err`. Returns the transactions sent, in order, and the loop's
result. -/
def sendCompletedTxs (send : Tx → Except String Unit) : List Tx → List Tx × Except Error Unit
  | [] => ([], .ok ())
  | tx :: txs =>
    match sendResult (send tx) with
    | .ok () => (tx :: (sendCompletedTxs send txs).1, (sendCompletedTxs send txs).2)
    | .error e => ([tx], .error e)

/-- What the world answers in one pass: `completed_txs()` (outer: the transport; inner: the
sidechain's result) and `send_raw_transaction` on each transaction. -/
structure CheckpointPass (Tx : Type) where
  completed : Except Error (Except Error (List Tx))
  send : Tx → Except String Unit

/-- One pass of the loop of `relay_checkpoints`: the transactions it sent and how it ends. -/
def relayCheckpointsPass (p : CheckpointPass Tx) : List Tx × Except Error Unit :=
  match p.completed with
  | .error e => ([], .error e)
  | .ok (.error e) => ([], .error e)
  | .ok (.ok txs) => sendCompletedTxs p.send txs

/-- A run of `start_checkpoint_relay`: `relay_checkpoints` keeps no state and is called again after
an `Err`, so the run is its passes; the transactions each pass sent. -/
def runCheckpointRelay (ps : List (CheckpointPass Tx)) : List (List Tx) :=
  ps.map fun p => (relayCheckpointsPass p).1

/-- A pass sends every completed transaction whose send succeeds or fails with an ignored error,
and stops after the first whose does not: then it has sent the transactions before it and it,
and returns that error. -/
theorem sendCompletedTxs_spec (send : Tx → Except String Unit) (txs : List Tx) :
    ((∀ tx ∈ txs, sendResult (send tx) = .ok ()) ∧ sendCompletedTxs send txs = (txs, .ok ())) ∨
    ∃ pre tx post e, txs = pre ++ tx :: post ∧ (∀ x ∈ pre, sendResult (send x) = .ok ()) ∧
      sendResult (send tx) = .error e ∧ sendCompletedTxs send txs = (pre ++ [tx], .error e) := by
  induction txs with
  | nil => exact .inl ⟨fun _ h => absurd h (List.not_mem_nil _), rfl⟩
  | cons tx txs ih =>
    cases hr : sendResult (send tx) with
    | error e => exact .inr ⟨[], tx, txs, e, rfl, fun _ h => absurd h (List.not_mem_nil _), hr,
        by simp only [sendCompletedTxs, hr, List.nil_append]⟩
    | ok u =>
      rcases ih with ⟨hall, heq⟩ | ⟨pre, tx', post, e, rfl, hpre, he, heq⟩
      · exact .inl ⟨List.forall_mem_cons.2 ⟨hr, hall⟩, by simp only [sendCompletedTxs, hr, heq]⟩
      · refine .inr ⟨tx :: pre, tx', post, e, rfl, List.forall_mem_cons.2 ⟨hr, hpre⟩, he, ?_⟩
        simp only [sendCompletedTxs, hr, heq]
        rfl

theorem sendResult_of_fatal {err : String}
    (h₁ : strContains err "bad-txns-inputs-missingorspent" = false)
    (h₂ : strContains err "Transaction already in block chain" = false) :
    sendResult (.error err) = .error (.rpc err) := by
  simp [sendResult, h₁, h₂]

theorem mem_sendCompletedTxs_of_fail {send : Tx → Except String Unit} {bad x : Tx} {e : Error}
    (hbad : sendResult (send bad) = .error e) (pre post : List Tx)
    (hx : x ∈ (sendCompletedTxs send (pre ++ bad :: post)).1) : x ∈ pre ∨ x = bad := by
  induction pre with
  | nil => simpa [sendCompletedTxs, hbad] using hx
  | cons y pre ih =>
    cases hr : sendResult (send y) with
    | error e' =>
      simp only [List.cons_append, sendCompletedTxs, hr, List.mem_singleton] at hx
      exact .inl (hx ▸ List.mem_cons_self _ _)
    | ok u =>
      simp only [List.cons_append, sendCompletedTxs, hr, List.mem_cons] at hx
      rcases hx with rfl | hx
      · exact .inl (List.mem_cons_self _ _)
      · exact (ih hx).imp_left (List.mem_cons_of_mem _)

theorem not_mem_relayCheckpointsPass {p : CheckpointPass Tx} {bad good : Tx} (hne : good ≠ bad)
    (hlist : ∀ txs, p.completed = .ok (.ok txs) → ∃ pre post, txs = pre ++ bad :: post ∧ good ∉ pre)
    {e : Error} (hfail : sendResult (p.send bad) = .error e) : good ∉ (relayCheckpointsPass p).1 := by
  unfold relayCheckpointsPass
  split
  · exact List.not_mem_nil _
  · exact List.not_mem_nil _
  · rename_i txs hc
    obtain ⟨pre, post, rfl, hgood⟩ := hlist txs hc
    exact fun hg => (mem_sendCompletedTxs_of_fail hfail pre post hg).elim hgood hne

/-- Over every run of `start_checkpoint_relay` in which each pass that reads the completed
transactions lists `good` only after `bad`, and each pass's `send_raw_transaction` of `bad` fails
with an error whose text contains neither ignored message, `good` is never sent. -/
theorem runCheckpointRelay_blocked (ps : List (CheckpointPass Tx)) {bad good : Tx}
    (hne : good ≠ bad)
    (hlist : ∀ p ∈ ps, ∀ txs, p.completed = .ok (.ok txs) →
      ∃ pre post, txs = pre ++ bad :: post ∧ good ∉ pre)
    (hfail : ∀ p ∈ ps, ∃ err, p.send bad = .error err ∧
      strContains err "bad-txns-inputs-missingorspent" = false ∧
      strContains err "Transaction already in block chain" = false) :
    ∀ sent ∈ runCheckpointRelay ps, good ∉ sent := by
  intro sent hsent
  obtain ⟨p, hp, rfl⟩ := List.mem_map.1 hsent
  obtain ⟨err, hsend, h₁, h₂⟩ := hfail p hp
  exact not_mem_relayCheckpointsPass hne (hlist p hp) (by rw [hsend, sendResult_of_fatal h₁ h₂])

/-- A pass that reads the completed transactions `1, 2` and whose send of `1` fails on its fee. -/
def feePass : CheckpointPass Nat :=
  ⟨.ok (.ok [1, 2]), fun tx => if tx = 1 then .error "min relay fee not met" else .ok ()⟩

theorem runCheckpointRelay_blocked_feePass :
    (2 : Nat) ≠ 1 ∧
    (∀ p ∈ [feePass, feePass], ∀ txs, p.completed = .ok (.ok txs) →
      ∃ pre post, txs = pre ++ 1 :: post ∧ 2 ∉ pre) ∧
    (∀ p ∈ [feePass, feePass], ∃ err, p.send 1 = .error err ∧
      strContains err "bad-txns-inputs-missingorspent" = false ∧
      strContains err "Transaction already in block chain" = false) ∧
    ∀ sent ∈ runCheckpointRelay [feePass, feePass], 2 ∉ sent := by
  have hlist : ∀ p ∈ [feePass, feePass], ∀ txs, p.completed = .ok (.ok txs) →
      ∃ pre post, txs = pre ++ 1 :: post ∧ 2 ∉ pre := by
    intro p hp txs hc
    obtain rfl : p = feePass := by simpa using hp
    obtain rfl : txs = [1, 2] := by cases hc; rfl
    exact ⟨[], [2], rfl, List.not_mem_nil _⟩
  have hfail : ∀ p ∈ [feePass, feePass], ∃ err, p.send 1 = .error err ∧
      strContains err "bad-txns-inputs-missingorspent" = false ∧
      strContains err "Transaction already in block chain" = false := by
    intro p hp
    obtain rfl : p = feePass := by simpa using hp
    exact ⟨"min relay fee not met", rfl, by decide, by decide⟩
  exact ⟨by decide, hlist, hfail, runCheckpointRelay_blocked _ (by decide) hlist hfail⟩

end Nomic.Bitcoin
