import ShardCluster.Ring
/-! The points of every replica, in id order. -/
namespace ShardCluster

structure Store where
  contents : SortedMap Location (SortedMap PointId Bytes) := .empty
  deriving DecidableEq, Inhabited

/-- Points read in id order, and the id to go on after if there are more. -/
structure Page where
  points : List Point
  next : Option PointId
  deriving DecidableEq, Repr, Inhabited

def Page.isFinal (p : Page) : Bool := p.next.isNone

namespace Store

def replica (s : Store) (l : Location) : SortedMap PointId Bytes := (s.contents.get? l).getD .empty

def put (s : Store) (l : Location) (points : SortedMap PointId Bytes) : Store :=
  { s with contents := s.contents.insert l points }

def toPoints (entries : List (PointId × Bytes)) : List Point := entries.map (fun e => ⟨e.1, e.2⟩)

def upsert (s : Store) (l : Location) (points : List Point) : Store :=
  s.put l (points.foldl (fun m p => m.insert p.id p.payload) (s.replica l))

/-- At most `limit` points above `after`. -/
def fetch (s : Store) (l : Location) (after : Option PointId) (limit : Nat) : Page :=
  let rest := (s.replica l).entries.filter (fun e => after.all (fun a => compare a e.1 == .lt))
  let points := toPoints (rest.take limit)
  { points, next := if limit < rest.length then points.getLast?.map (·.id) else none }

def get (s : Store) (l : Location) (id : PointId) : Option Point :=
  ((s.replica l).get? id).map (fun payload => ⟨id, payload⟩)

def scroll (s : Store) (l : Location) (slice : Option Slice) : List Point :=
  toPoints ((s.replica l).entries.filter (fun e => Slice.admits slice e.1))

def count (s : Store) (l : Location) (slice : Option Slice) : Nat := (s.scroll l slice).length

/-- Delete the points of the slice; returns how many there were. -/
def delete (s : Store) (l : Location) (slice : Slice) : Store × Nat :=
  match s.contents.get? l with
  | none => (s, 0)
  | some points => (s.put l (points.filter (fun id _ => !slice.selects id)), s.count l (some slice))

def drop (s : Store) (l : Location) : Store := { s with contents := s.contents.erase l }

/-- Replicas that hold any point. -/
def occupied (s : Store) : List (Location × List PointId) :=
  (s.contents.entries.filter (fun e => !e.2.isEmpty)).map (fun e => (e.1, e.2.keys))

def replicaCount (s : Store) : Nat := s.occupied.length

end Store
end ShardCluster
