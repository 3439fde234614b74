import ShardCluster.Error
import ShardCluster.Store.Basic
/-! A store that is out of order now and then: faults lie in wait for calls at some replicas. -/
namespace ShardCluster

inductive StoreCall where
  | fetch | upsert | get | scroll | count | delete | drop
  deriving DecidableEq, Repr, Inhabited

/-- What a fault makes of a call. -/
inductive Mishap where
  | unavailable | timeout | io | cancelled
  | defect (text : String)
  /-- The call is acknowledged and does nothing. -/
  | lost
  deriving DecidableEq, Repr, Inhabited

/-- The error that the caller sees, if any. -/
def Mishap.error? (peer : PeerId) : Mishap → Option Error
  | unavailable => some (.storage (.unavailable peer))
  | timeout => some (.storage (.timeout peer))
  | io => some (.storage (.io "disk"))
  | cancelled => some .cancelled
  | defect text => some (.internal (.other text))
  | lost => none

structure Fault where
  call : StoreCall
  peer : Option PeerId := none
  shard : Option ShardId := none
  mishap : Mishap
  times : Nat := 1
  deriving DecidableEq, Repr, Inhabited

namespace Fault

def hits (f : Fault) (call : StoreCall) (l : Location) : Bool :=
  f.call == call && f.peer.all (· == l.peer) && f.shard.all (· == l.shard) && f.times != 0

/-- The first fault that hits a call takes it, and is used up by one. -/
def strike (call : StoreCall) (l : Location) : List Fault → List Fault × Option Mishap
  | [] => ([], none)
  | f :: rest =>
    if f.hits call l then ({ f with times := f.times - 1 } :: rest, some f.mishap)
    else
      let (rest', struck) := strike call l rest
      (f :: rest', struck)

end Fault

structure FaultyStore where
  store : Store := {}
  faults : List Fault := []
  deriving DecidableEq, Inhabited

namespace FaultyStore

def inject (s : FaultyStore) (f : Fault) : FaultyStore := { s with faults := s.faults ++ [f] }

/-- Make a call that may be struck; a lost call leaves the store and answers `ack`. -/
def attempt {α : Type} (s : FaultyStore) (call : StoreCall) (l : Location) (run : Store → Store × α)
    (ack : Store → α) : FaultyStore × Except Error α :=
  match Fault.strike call l s.faults with
  | (faults, none) =>
    let (store, a) := run s.store
    (⟨store, faults⟩, .ok a)
  | (faults, some mishap) =>
    match mishap.error? l.peer with
    | some e => (⟨s.store, faults⟩, .error e)
    | none => (⟨s.store, faults⟩, .ok (ack s.store))

def read {α : Type} (s : FaultyStore) (call : StoreCall) (l : Location) (look : Store → α) :
    FaultyStore × Except Error α :=
  s.attempt call l (fun store => (store, look store)) look

def upsert (s : FaultyStore) (l : Location) (points : List Point) : FaultyStore × Except Error Unit :=
  s.attempt .upsert l (fun store => (store.upsert l points, ())) (fun _ => ())

def fetch (s : FaultyStore) (l : Location) (after : Option PointId) (limit : Nat) :
    FaultyStore × Except Error Page :=
  s.read .fetch l (·.fetch l after limit)

def get (s : FaultyStore) (l : Location) (id : PointId) : FaultyStore × Except Error (Option Point) :=
  s.read .get l (·.get l id)

def scroll (s : FaultyStore) (l : Location) (slice : Option Slice) :
    FaultyStore × Except Error (List Point) :=
  s.read .scroll l (·.scroll l slice)

def count (s : FaultyStore) (l : Location) (slice : Option Slice) : FaultyStore × Except Error Nat :=
  s.read .count l (·.count l slice)

def delete (s : FaultyStore) (l : Location) (slice : Slice) : FaultyStore × Except Error Nat :=
  s.attempt .delete l (·.delete l slice) (fun _ => 0)

def drop (s : FaultyStore) (l : Location) : FaultyStore × Except Error Unit :=
  s.attempt .drop l (fun store => (store.drop l, ())) (fun _ => ())

end FaultyStore

/-- What a copy asks of the store that it runs over. -/
class PointStore (σ : Type) where
  fetch : σ → Location → Option PointId → Nat → σ × Except Error Page
  upsert : σ → Location → List Point → σ × Except Error Unit
  scroll : σ → Location → Option Slice → σ × Except Error (List Point)

instance : PointStore FaultyStore where
  fetch := FaultyStore.fetch
  upsert := FaultyStore.upsert
  scroll := FaultyStore.scroll

namespace FaultyStore
variable (s : FaultyStore) (l : Location)

@[simp] theorem pointStore_fetch (after : Option PointId) (limit : Nat) :
    PointStore.fetch s l after limit = s.fetch l after limit := rfl

@[simp] theorem pointStore_upsert (points : List Point) :
    PointStore.upsert s l points = s.upsert l points := rfl

@[simp] theorem pointStore_scroll (slice : Option Slice) :
    PointStore.scroll s l slice = s.scroll l slice := rfl

end FaultyStore
end ShardCluster
