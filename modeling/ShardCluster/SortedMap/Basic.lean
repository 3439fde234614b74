/-! Finite maps as lists in strictly ascending key order. Equal content is equal data. -/
namespace ShardCluster
open Std

universe u v w

structure SortedMap (κ : Type u) (α : Type v) [Ord κ] where
  entries : List (κ × α)
  ascending : entries.Pairwise (fun a b => compare a.1 b.1 = .lt)

namespace SortedMap
variable {κ : Type u} {α : Type v} {β : Type w} [Ord κ]

def empty : SortedMap κ α := ⟨[], .nil⟩

instance : EmptyCollection (SortedMap κ α) := ⟨empty⟩
instance : Inhabited (SortedMap κ α) := ⟨empty⟩

instance [DecidableEq κ] [DecidableEq α] : DecidableEq (SortedMap κ α) := fun m n =>
  decidable_of_iff (m.entries = n.entries)
    ⟨fun h => by cases m; cases n; simp_all, fun h => h ▸ rfl⟩

def isEmpty (m : SortedMap κ α) : Bool := m.entries.isEmpty
def size (m : SortedMap κ α) : Nat := m.entries.length
def keys (m : SortedMap κ α) : List κ := m.entries.map (·.1)
def values (m : SortedMap κ α) : List α := m.entries.map (·.2)

/-- Look a key up in a list of entries. -/
def find (k : κ) : List (κ × α) → Option α
  | [] => none
  | (x, a) :: rest => if compare k x = .eq then some a else find k rest

def get? (m : SortedMap κ α) (k : κ) : Option α := find k m.entries
def contains (m : SortedMap κ α) (k : κ) : Bool := (m.get? k).isSome

/-- Put an entry into an ascending list, in place of one with the same key. -/
def place (k : κ) (a : α) : List (κ × α) → List (κ × α)
  | [] => [(k, a)]
  | (x, b) :: rest =>
    match compare k x with
    | .lt => (k, a) :: (x, b) :: rest
    | .eq => (k, a) :: rest
    | .gt => (x, b) :: place k a rest

theorem mem_place {k : κ} {a : α} {l : List (κ × α)} {e : κ × α} (h : e ∈ place k a l) :
    e = (k, a) ∨ e ∈ l := by
  induction l with
  | nil => simpa [place] using h
  | cons y rest ih =>
    obtain ⟨x, b⟩ := y
    simp only [place] at h
    split at h
    · simpa using h
    · rcases List.mem_cons.1 h with h | h
      · exact .inl h
      · exact .inr (List.mem_cons_of_mem _ h)
    · rcases List.mem_cons.1 h with h | h
      · exact .inr (h ▸ List.mem_cons_self)
      · exact (ih h).imp_right (List.mem_cons_of_mem _)

theorem place_ascending [TransOrd κ] (k : κ) (a : α) {l : List (κ × α)}
    (h : l.Pairwise (fun a b => compare a.1 b.1 = .lt)) :
    (place k a l).Pairwise (fun a b => compare a.1 b.1 = .lt) := by
  induction l with
  | nil => simp [place]
  | cons y rest ih =>
    obtain ⟨x, b⟩ := y
    obtain ⟨hx, hr⟩ := List.pairwise_cons.1 h
    simp only [place]
    split
    · rename_i hk
      refine List.pairwise_cons.2 ⟨fun e he => ?_, h⟩
      rcases List.mem_cons.1 he with rfl | he
      · exact hk
      · exact TransCmp.lt_trans hk (hx e he)
    · rename_i hk
      exact List.pairwise_cons.2 ⟨fun e he => TransCmp.lt_of_eq_of_lt hk (hx e he), hr⟩
    · rename_i hk
      refine List.pairwise_cons.2 ⟨fun e he => ?_, ih hr⟩
      rcases mem_place he with rfl | he
      · exact OrientedCmp.gt_iff_lt.1 hk
      · exact hx e he

def insert [TransOrd κ] (m : SortedMap κ α) (k : κ) (a : α) : SortedMap κ α :=
  ⟨place k a m.entries, place_ascending k a m.ascending⟩

/-- Keep the entries that satisfy `p`. -/
def filter (p : κ → α → Bool) (m : SortedMap κ α) : SortedMap κ α :=
  ⟨m.entries.filter (fun e => p e.1 e.2), m.ascending.filter _⟩

def erase (m : SortedMap κ α) (k : κ) : SortedMap κ α :=
  m.filter (fun x _ => compare k x != .eq)

def map (f : κ → α → β) (m : SortedMap κ α) : SortedMap κ β :=
  ⟨m.entries.map (fun e => (e.1, f e.1 e.2)), List.pairwise_map.2 m.ascending⟩

/-- Change the value of one key, if it is present. -/
def update (m : SortedMap κ α) (k : κ) (f : α → α) : SortedMap κ α :=
  m.map (fun x a => if compare k x = .eq then f a else a)

/-- Later entries replace earlier ones with the same key. -/
def ofList [TransOrd κ] (l : List (κ × α)) : SortedMap κ α :=
  l.foldl (fun m e => m.insert e.1 e.2) empty

/-- The first entry whose key is not below `k`. -/
def firstFrom? (m : SortedMap κ α) (k : κ) : Option (κ × α) :=
  m.entries.find? (fun e => (compare k e.1).isLE)

def first? (m : SortedMap κ α) : Option (κ × α) := m.entries.head?
def last? (m : SortedMap κ α) : Option (κ × α) := m.entries.getLast?

end SortedMap

/-- Finite sets in ascending order. -/
abbrev SortedSet (κ : Type u) [Ord κ] := SortedMap κ Unit

namespace SortedSet
variable {κ : Type u} [Ord κ]

def toList (s : SortedSet κ) : List κ := SortedMap.keys s
def add [TransOrd κ] (s : SortedSet κ) (k : κ) : SortedSet κ := SortedMap.insert s k ()
def ofList [TransOrd κ] (l : List κ) : SortedSet κ := l.foldl add SortedMap.empty
def union [TransOrd κ] (s t : SortedSet κ) : SortedSet κ := (toList t).foldl add s

end SortedSet
end ShardCluster
