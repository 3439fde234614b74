import ShardCluster.Node.Basic
/-! Reading and writing points through the rings. -/
namespace ShardCluster.Node

/-- The points of a write by the shard they go to, in shard order. -/
def byShard (router : Router) (points : List Point) : SortedMap ShardId (List Point) :=
  points.foldl
    (fun m p => (router.writeTargets p.id).foldl
      (fun m shard => m.insert shard ((m.get? shard).getD [] ++ [p])) m)
    .empty

/-- The writes to replicas that a client's write comes to. -/
def batches (c : Cluster) (name : String) :
    List (ShardId × List Point) → Except Error (List (Location × List Point))
  | [] => .ok []
  | (shard, points) :: rest => do
    let replicas ← c.replicas.shardReplicas name shard
    let here := (replicas.filter (·.state.acceptsWrites)).map (fun r => (r.location name, points))
    return here ++ (← batches c name rest)

/-- Write batch after batch; the first error ends it. -/
def writeAll : FaultyStore → List (Location × List Point) → FaultyStore × Except Error Unit
  | s, [] => (s, .ok ())
  | s, (l, points) :: rest =>
    match s.upsert l points with
    | (s, .ok ()) => writeAll s rest
    | (s, .error e) => (s, .error e)

def setStore (n : Node) (s : FaultyStore) : Node := { n with plane := { n.plane with store := s } }

/-- Write points to every replica that accepts writes, of every shard that the write concerns. -/
def upsert (n : Node) (name : String) (key : Option ShardKey) (points : List Point) :
    Node × Except Error Unit :=
  let planned := do
    let router ← n.cluster.router name key
    batches n.cluster name (byShard router points).entries
  match planned with
  | .error e => (n, .error e)
  | .ok writes =>
    let (s, result) := writeAll n.plane.store writes
    (n.setStore s, result)

/-- The readable replicas of the shard that serves a point, local ones first. -/
def readers (n : Node) (name : String) (key : Option ShardKey) (id : PointId) :
    Except Error (List Replica) := do
  let router ← n.cluster.router name key
  match router.routeRead id with
  | none => throw (.internal .ringEmpty)
  | some shard =>
    let replicas := (← n.cluster.replicas.shardReplicas name shard).filter (·.state.readable)
    let (near, far) := replicas.partition (·.peer == n.config.peer)
    return near ++ far

/-- Ask replica after replica until one answers; the last error is kept. -/
def readFirst (name : String) (id : PointId) :
    FaultyStore → Error → List Replica → FaultyStore × Except Error (Option Point)
  | s, e, [] => (s, .error e)
  | s, _, r :: rest =>
    match s.get (r.location name) id with
    | (s, .ok found) => (s, .ok found)
    | (s, .error e) => readFirst name id s e rest

def get (n : Node) (name : String) (key : Option ShardKey) (id : PointId) :
    Node × Except Error (Option Point) :=
  match n.readers name key id with
  | .error e => (n, .error e)
  | .ok replicas =>
    let (s, result) := readFirst name id n.plane.store (.badRequest .noReadableReplica) replicas
    (n.setStore s, result)

/-- Those of the points that can be read; the first error ends it. -/
def readable (n : Node) (name : String) (key : Option ShardKey) :
    List PointId → Node × Except Error (List PointId)
  | [] => (n, .ok [])
  | id :: rest =>
    match n.get name key id with
    | (n, .error e) => (n, .error e)
    | (n, .ok found) =>
      let (n, more) := readable n name key rest
      (n, more.map (fun ids => if found.isSome then id :: ids else ids))

/-- The points of one replica. -/
def scroll (n : Node) (name : String) (peer : PeerId) (shard : ShardId) (slice : Option Slice) :
    Node × Except Error (List Point) :=
  match n.cluster.replicas.state name shard peer with
  | .error e => (n, .error e)
  | .ok _ =>
    let (s, result) := n.plane.store.scroll ⟨name, peer, shard⟩ slice
    (n.setStore s, result)

def countPoints (n : Node) (name : String) (peer : PeerId) (shard : ShardId)
    (slice : Option Slice) : Node × Except Error Nat :=
  match n.cluster.replicas.state name shard peer with
  | .error e => (n, .error e)
  | .ok _ =>
    let (s, result) := n.plane.store.count ⟨name, peer, shard⟩ slice
    (n.setStore s, result)

/-- The points that a shard of the group gains or loses in the live operation. -/
def slice (n : Node) (name : String) (key : Option ShardKey) (shard : ShardId) :
    Except Error Slice := do
  let router ← n.cluster.router name key
  if router.shardSet.contains shard then return router.slice shard
  else throw (.shardNotFound shard)

end ShardCluster.Node
