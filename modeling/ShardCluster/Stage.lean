import ShardCluster.Error
/-! The stages of a resharding operation. Each stage has one action that leads on; an abort leads
out of any stage. -/
namespace ShardCluster

inductive Stage where
  | starting | awaitingReadCommit | awaitingWriteCommit | awaitingFinish
  deriving DecidableEq, Repr, Inhabited

namespace Stage

def text : Stage → String
  | starting => "starting"
  | awaitingReadCommit => "awaiting_read_commit"
  | awaitingWriteCommit => "awaiting_write_commit"
  | awaitingFinish => "awaiting_finish"

/-- Whether reads already go by the new ring. -/
def readCommitted : Stage → Bool
  | awaitingWriteCommit | awaitingFinish => true
  | _ => false

end Stage

inductive Action where
  | start | transfersFinished | commitRead | commitWrite | finish
  | abort (forced : Bool)
  deriving DecidableEq, Repr, Inhabited

def Action.text : Action → String
  | start => "start_resharding"
  | transfersFinished => "transfers_finished"
  | commitRead => "commit_read_hash_ring"
  | commitWrite => "commit_write_hash_ring"
  | finish => "finish_resharding"
  | abort false => "abort_resharding"
  | abort true => "forced_abort_resharding"

namespace Stage

/-- The stage after an action; `none` is the idle state. The policy says whether an abort that is
not forced may follow the read commit. -/
def next (allowAbort : Bool) : Option Stage → Action → Except Error (Option Stage)
  | none, .start => .ok (some starting)
  | some starting, .transfersFinished => .ok (some awaitingReadCommit)
  | some awaitingReadCommit, .commitRead => .ok (some awaitingWriteCommit)
  | some awaitingWriteCommit, .commitWrite => .ok (some awaitingFinish)
  | some awaitingFinish, .finish => .ok none
  | some s, .abort forced =>
    if !forced && !allowAbort && s.readCommitted then
      .error (.invalidTransition (Action.abort forced).text s.text)
    else .ok none
  | some s, a => .error (.invalidTransition a.text s.text)
  | none, a => .error (.invalidTransition a.text "idle")

end Stage
end ShardCluster
