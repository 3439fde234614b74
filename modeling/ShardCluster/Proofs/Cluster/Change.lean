import ShardCluster.Proofs.Cluster.Face
/-! All that an entry can do to a collection, said once. A change goes from one face of the
collection to the next and leaves a wake; every invariant is derived from these cases. -/
namespace ShardCluster

namespace Layout

/-- What an operation makes of the replicas that it fills. -/
def claimed (l : Layout) (op : Operation) (transfers : List Transfer) : Layout :=
  match op.direction with
  | .up => l.put op.shard op.peer .resharding
  | .down => l.marked (transfers.map (·.key.destination)) .resharding

/-- The replicas of a peer go, and the incomplete ones that it was filling. -/
def evicted (l : Layout) (peer : PeerId) (transfers : List Transfer) : Layout :=
  fun q p => if p = peer ∨ ∃ t ∈ transfers, t.key.source = peer ∧ t.key.destination = (q, p)
    then .none else l q p

/-- No operation and no transfer needs the replica. -/
structure Unused (l : Layout) (coll : Collection) (op : Option Operation) (q : ShardId) (p : PeerId) :
    Prop where
  operation : ∀ o, op = some o → l q p ≠ some .resharding ∧ o.shard ≠ q
  transfers : ∀ t ∈ coll.transfers,
    ¬(t.key.shard = q ∧ t.key.source = p) ∧ t.key.destination ≠ (q, p)

end Layout

/-- The operation once no transfer of it is left. -/
def Operation.settled (o : Operation) (transfers : List Transfer) : Operation :=
  if transfers.any (·.resharding) = false ∧ o.stage = .starting then
    { o with stage := .awaitingReadCommit } else o

def Placement.Hosted (placement : Placement) : Prop :=
  ∀ q hosts, placement.get? q = some hosts → hosts ≠ []

/-- A rollback, which any entry may come with. -/
inductive RollsBack : Face → Wake → Face → Prop
  | up {coll : Collection} {op : Operation} {l : Layout} {r : Router}
      (hr : coll.router op.key = .ok r) (hd : op.direction = .up) :
      RollsBack ⟨some coll, some op, l⟩
        ⟨fun k => ∃ t ∈ coll.transfers, t.resharding = true ∧ t.key = k,
          fun q p _ => q = op.shard ∧ (l q p).isSome, []⟩
        ⟨some ((coll.take (·.resharding)).1.setRouter op.key r.abort), none, l.without [op.shard]⟩
  | down {coll : Collection} {op : Operation} {l : Layout} {r : Router}
      (hr : coll.router op.key = .ok r) (hd : op.direction = .down) :
      RollsBack ⟨some coll, some op, l⟩
        ⟨fun k => ∃ t ∈ coll.transfers, t.resharding = true ∧ t.key = k,
          fun q p id => l q p = some .resharding ∧ q ∈ r.shards ∧
            (r.slice op.shard).selects id = true, []⟩
        ⟨some ((coll.take (·.resharding)).1.setRouter op.key r.abort), none, l.settled r.shards⟩

/-- A rollback ends every transfer of the operation. -/
theorem RollsBack.ends {F F' : Face} {w : Wake} (h : RollsBack F w F') {coll : Collection}
    (hc : F.collection = some coll) {t : Transfer} (ht : t ∈ coll.transfers)
    (hm : t.resharding = true) : w.ends t.key := by
  cases h with
  | up => exact ⟨t, Option.some.inj hc ▸ ht, hm, rfl⟩
  | down => exact ⟨t, Option.some.inj hc ▸ ht, hm, rfl⟩

/-- A rollback starts no copy. -/
theorem RollsBack.starts_nil {F F' : Face} {w : Wake} (h : RollsBack F w F') : w.starts = [] := by
  cases h with
  | up => rfl
  | down => rfl

theorem RollsBack.collection {F F' : Face} {w : Wake} (h : RollsBack F w F') :
    (∃ coll, F.collection = some coll) ∧ ∃ coll, F'.collection = some coll := by
  cases h with
  | up => exact ⟨⟨_, rfl⟩, ⟨_, rfl⟩⟩
  | down => exact ⟨⟨_, rfl⟩, ⟨_, rfl⟩⟩

theorem RollsBack.operation {F F' : Face} {w : Wake} (h : RollsBack F w F') :
    (∃ op, F.operation = some op) ∧ F'.operation = none := by
  cases h with
  | up => exact ⟨⟨_, rfl⟩, rfl⟩
  | down => exact ⟨⟨_, rfl⟩, rfl⟩

/-- A rollback leaves every group in place. -/
theorem RollsBack.groups {F F' : Face} {w : Wake} (h : RollsBack F w F') {coll coll' : Collection}
    (hc : F.collection = some coll) (hc' : F'.collection = some coll') {key : Option ShardKey}
    (hk : coll.groups.contains key = true) : coll'.groups.contains key = true := by
  have hset : ∀ (groups : SortedMap (Option ShardKey) Router) (k : Option ShardKey) (r : Router),
      groups.contains key = true → (groups.insert k r).contains key = true := by
    intro groups k r hg
    by_cases hkey : key = k
    · simp [SortedMap.contains, hkey]
    · simpa [SortedMap.contains, SortedMap.get?_insert_of_ne hkey] using hg
  cases h with
  | up =>
    obtain rfl := Option.some.inj hc
    obtain rfl := Option.some.inj hc'
    exact hset _ _ _ hk
  | down =>
    obtain rfl := Option.some.inj hc
    obtain rfl := Option.some.inj hc'
    exact hset _ _ _ hk

/-- A rollback makes no replica. -/
theorem RollsBack.look_none {F F' : Face} {w : Wake} (h : RollsBack F w F') {q : ShardId} {p : PeerId}
    (hl : F.look q p = none) : F'.look q p = none := by
  cases h with
  | up =>
    simp only at hl
    simp [Layout.without, hl]
  | down =>
    simp only at hl
    simp [Layout.settled, hl]

/-- `epoch` is what the transfers get that the entry schedules. -/
inductive Change (name : String) (epoch : UInt64) : Entry → Face → Wake → Face → Prop
  | foundAuto {config : CollectionConfig} {placement : Placement} {n : Nat}
      (hm : config.method = .auto) (hp : placement.isEmpty = false) (hh : placement.Hosted) :
      Change name epoch (.createCollection name config placement) ⟨none, none, .none⟩ .still
        ⟨some { config, groups := .insert .empty none (.single (.ofShards n placement.keys)) }, none,
          Layout.none.placed placement⟩
  | foundCustom {config : CollectionConfig} {placement : Placement} (hm : config.method = .custom) :
      Change name epoch (.createCollection name config placement) ⟨none, none, .none⟩ .still
        ⟨some { config }, none, .none⟩
  | deleted {coll : Collection} {l : Layout} :
      Change name epoch (.deleteCollection name) ⟨some coll, none, l⟩
        ⟨fun k => ∃ t ∈ coll.transfers, t.key = k, fun q p _ => (l q p).isSome, []⟩
        ⟨none, none, .none⟩
  | keyAdded {coll : Collection} {op : Option Operation} {l : Layout} {key : ShardKey}
      {placement : Placement} {n : Nat} (hm : coll.config.method = .custom)
      (hk : coll.groups.get? (some key) = none) (hp : placement.isEmpty = false)
      (hn : ∀ q ∈ placement.keys, coll.shardSet.contains q = false) (hh : placement.Hosted) :
      Change name epoch (.createShardKey name key placement) ⟨some coll, op, l⟩ .still
        ⟨some (coll.setRouter (some key) (.single (.ofShards n placement.keys))), op,
          l.placed placement⟩
  | keyDropped {coll : Collection} {op : Option Operation} {l : Layout} {key : ShardKey} {r : Router}
      (hr : coll.groups.get? (some key) = some r) (ho : ∀ o, op = some o → o.key ≠ some key) :
      Change name epoch (.deleteShardKey name key) ⟨some coll, op, l⟩
        ⟨fun k => ∃ t ∈ coll.transfers, (t.key.shard ∈ r.shards ∨ t.key.toShard ∈ r.shards) ∧ t.key = k,
          fun q p _ => q ∈ r.shards ∧ (l q p).isSome, []⟩
        ⟨some { coll with
            groups := coll.groups.erase (some key)
            transfers := coll.transfers.filter
              (fun t => !(r.shards.contains t.key.shard || r.shards.contains t.key.toShard)) },
          op, l.without r.shards⟩
  | started {coll : Collection} {l : Layout} {plan : Plan} {r r' : Router}
      (hn : plan.operation.collection = name) (ht : coll.transfers = [])
      (hr : coll.router plan.operation.key = .ok r) (hr' : r.start plan.operation.change = .ok r')
      (hl : plan.operation.direction = .down →
        ∀ t ∈ plan.transfers, (l t.key.toShard t.key.target).isSome) :
      Change name epoch (.startResharding plan) ⟨some coll, none, l⟩
        ⟨fun _ => False, fun _ _ _ => False,
          ((plan.transfers.map (fun t => { t with epoch })).filter (·.status == .running)).map
            (Cluster.copyOf name r')⟩
        ⟨some { coll.setRouter plan.operation.key r' with
            transfers := plan.transfers.map (fun t => { t with epoch }) },
          some { plan.operation with
            stage := if plan.transfers = [] then .awaitingReadCommit else .starting },
          l.claimed plan.operation plan.transfers⟩
  | readCommitted {coll : Collection} {op : Operation} {l : Layout} {r r' : Router}
      (hs : op.stage = .awaitingReadCommit) (hr : coll.router op.key = .ok r)
      (hr' : r.commitRead = .ok r') :
      Change name epoch (.commitRead name) ⟨some coll, some op, l⟩ .still
        ⟨some (coll.setRouter op.key r'), some { op with stage := .awaitingWriteCommit }, l⟩
  | writeCommitted {coll : Collection} {op : Operation} {l : Layout} {r r' : Router}
      (hs : op.stage = .awaitingWriteCommit) (hr : coll.router op.key = .ok r)
      (hr' : r.commitWrite = .ok r') :
      Change name epoch (.commitWrite name) ⟨some coll, some op, l⟩ .still
        ⟨some (coll.setRouter op.key r'), some { op with stage := .awaitingFinish }, l⟩
  | finishedUp {coll : Collection} {op : Operation} {l : Layout} {r r' : Router}
      (hs : op.stage = .awaitingFinish) (hr : coll.router op.key = .ok r) (hr' : r.finish = .ok r')
      (hd : op.direction = .up) :
      Change name epoch (.finishResharding name) ⟨some coll, some op, l⟩
        ⟨fun _ => False, fun q p id => r.old.ring.contains q = true ∧ (l q p).isSome ∧
          (r.targetSlice op.shard).selects id = true, []⟩
        ⟨some (coll.setRouter op.key r'), none, l.settled r.shards⟩
  | finishedDown {coll : Collection} {op : Operation} {l : Layout} {r r' : Router}
      (hs : op.stage = .awaitingFinish) (hr : coll.router op.key = .ok r) (hr' : r.finish = .ok r')
      (hd : op.direction = .down) :
      Change name epoch (.finishResharding name) ⟨some coll, some op, l⟩
        ⟨fun _ => False, fun q p _ => q = op.shard ∧ (l q p).isSome, []⟩
        ⟨some (coll.setRouter op.key r'), none, (l.settled r.shards).without [op.shard]⟩
  | rolledBack {entry : Entry} {F F' : Face} {w : Wake} (h : RollsBack F w F') :
      Change name epoch entry F w F'
  | replicated {coll : Collection} {l : Layout} {t : Transfer}
      (hm : t.method = .wholeShard) (hq : t.key.shard = t.key.toShard)
      (hs : l t.key.shard t.key.source = some .active) (hd : l t.key.shard t.key.target = none)
      (hk : t.key.checkAgainst coll.transfers = .ok ()) :
      Change name epoch (.startTransfer name t) ⟨some coll, none, l⟩
        ⟨fun _ => False, fun _ _ _ => False, [⟨name, t.key, epoch, none⟩]⟩
        ⟨some { coll with transfers := coll.transfers ++ [{ t with status := .running, epoch }] },
          none, l.put t.key.shard t.key.target .partialCopy⟩
  | copied {coll : Collection} {op : Option Operation} {l : Layout} {t : Transfer}
      (ht : t ∈ coll.transfers) (hs : t.status = .running) (hm : t.resharding = false)
      (hd : (l t.key.toShard t.key.target).isSome) :
      Change name epoch (.finishTransfer name t.key t.epoch) ⟨some coll, op, l⟩
        ⟨(t.key = ·), fun _ _ _ => False, []⟩
        ⟨some { coll with transfers := coll.transfers.eraseP (·.key == t.key) }, op,
          l.put t.key.toShard t.key.target .active⟩
  | sliced {coll : Collection} {op : Option Operation} {l : Layout} {t : Transfer}
      {transfers : List Transfer} {next : Option Transfer} {starts : List CopyRequest}
      (ht : t ∈ coll.transfers) (hs : t.status = .running) (hm : t.resharding = true)
      (hn : Cluster.release t.key.destination (coll.transfers.eraseP (·.key == t.key)) =
        (transfers, next))
      (hw : next = none ∧ starts = [] ∨ ∃ t' r, next = some t' ∧
        coll.router (op.bind (·.key)) = .ok r ∧ starts = [Cluster.copyOf name r t']) :
      Change name epoch (.finishTransfer name t.key t.epoch) ⟨some coll, op, l⟩
        ⟨(t.key = ·), fun _ _ _ => False, starts⟩
        ⟨some { coll with transfers }, op.map (·.settled transfers), l⟩
  | discarded {entry : Entry} {coll : Collection} {op : Option Operation} {l : Layout} {t : Transfer}
      (he : (∃ reason, entry = .failTransfer name t.key t.epoch reason) ∨
        entry = .abortTransfer name t.key)
      (ht : t ∈ coll.transfers) (hm : t.resharding = false) :
      Change name epoch entry ⟨some coll, op, l⟩
        ⟨(t.key = ·), fun q p _ => t.key.destination = (q, p), []⟩
        ⟨some (coll.take (·.key == t.key)).1, op, l.cut t.key.toShard t.key.target⟩
  | unclaimed {coll : Collection} {l : Layout} {t : Transfer} {reason : String}
      (ht : t ∈ coll.transfers) (hm : t.resharding = true) :
      Change name epoch (.failTransfer name t.key t.epoch reason) ⟨some coll, none, l⟩
        ⟨(t.key = ·), fun _ _ _ => False, []⟩ ⟨some coll, none, l⟩
  | replicaDropped {coll : Collection} {op : Option Operation} {l : Layout} {q : ShardId}
      {p other : PeerId} (hu : l.Unused coll op q p) (ho : other ≠ p) (hl : (l q other).isSome) :
      Change name epoch (.dropReplica name q p) ⟨some coll, op, l⟩
        ⟨fun _ => False, fun q' p' _ => q' = q ∧ p' = p, []⟩ ⟨some coll, op, l.cut q p⟩
  | stateSet {coll : Collection} {op : Option Operation} {l : Layout} {q : ShardId} {p : PeerId}
      {old state : ReplicaState} (hu : l.Unused coll op q p) (hl : l q p = some old)
      (ho : old ≠ .resharding) (hs : state ≠ .resharding) :
      Change name epoch (.setReplicaState name q p state) ⟨some coll, op, l⟩ .still
        ⟨some coll, op, l.put q p state⟩
  | evicted {coll : Collection} {op : Option Operation} {l : Layout} {peer : PeerId} {force : Bool}
      (ho : ∀ o, op = some o → o.peer ≠ peer ∧ (∀ q, l q peer ≠ some .resharding) ∧
        ∀ t ∈ coll.transfers, t.resharding = true → t.key.involves peer = false)
      (hf : force = false → ∀ q, l q peer = none) :
      Change name epoch (.removePeer peer force) ⟨some coll, op, l⟩
        ⟨fun k => ∃ t ∈ coll.transfers, t.key.involves peer = true ∧ t.key = k,
          fun q p _ => (p = peer ∧ (l q p).isSome) ∨
            ∃ t ∈ coll.transfers, t.key.source = peer ∧ t.key.target ≠ peer ∧ t.key.destination = (q, p),
          []⟩
        ⟨some (coll.take (·.key.involves peer)).1, op, l.evicted peer coll.transfers⟩

/-- Only a creation begins without the collection. -/
theorem Change.known {name : String} {epoch : UInt64} {entry : Entry} {F F' : Face} {w : Wake}
    (h : Change name epoch entry F w F')
    (hn : ∀ config placement, entry ≠ .createCollection name config placement) :
    ∃ coll, F.collection = some coll := by
  cases h with
  | foundAuto => exact absurd rfl (hn _ _)
  | foundCustom => exact absurd rfl (hn _ _)
  | rolledBack h => exact h.collection.1
  | _ => exact ⟨_, rfl⟩

/-- What an accepted entry comes to: nothing, a change, or a change after a rollback. -/
inductive Changes (name : String) (epoch : UInt64) (entry : Entry) : Face → Wake → Face → Prop
  | none {F : Face} : Changes name epoch entry F .still F
  | one {F F' : Face} {w : Wake} (h : Change name epoch entry F w F') : Changes name epoch entry F w F'
  | two {F F₁ F' : Face} {w w' : Wake} (h : RollsBack F w F₁) (h' : Change name epoch entry F₁ w' F') :
      Changes name epoch entry F (w ++ w') F'

end ShardCluster
