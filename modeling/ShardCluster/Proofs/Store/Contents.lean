import ShardCluster.Proofs.SortedMap.Lookup
import ShardCluster.Store.Faults
/-! What every replica holds, point by point, after each call of the store. -/
namespace ShardCluster
open Std SortedMap

/-- The last payload that a list of points gives to an id. -/
def Point.latest (id : PointId) : List Point → Option Bytes
  | [] => none
  | p :: rest => (latest id rest).or (if p.id = id then some p.payload else none)

namespace Point
variable {id : PointId} {points more : List Point} {x : Bytes}

theorem latest_append : latest id (points ++ more) = (latest id more).or (latest id points) := by
  induction points with
  | nil => simp [latest]
  | cons p rest ih => rw [List.cons_append, latest, ih, latest, Option.or_assoc]

theorem mem_of_latest (h : latest id points = some x) : ⟨id, x⟩ ∈ points := by
  induction points with
  | nil => cases h
  | cons p rest ih =>
    obtain h | ⟨-, h⟩ := Option.or_eq_some_iff.1 h
    · exact List.mem_cons_of_mem _ (ih h)
    · obtain ⟨i, y⟩ := p
      obtain ⟨rfl, hy⟩ := Option.ite_none_right_eq_some.1 h
      obtain rfl := Option.some.inj hy
      exact List.mem_cons_self

theorem latest_isSome (h : ⟨id, x⟩ ∈ points) : ∃ y, latest id points = some y := by
  induction points with
  | nil => cases h
  | cons p rest ih =>
    cases hl : latest id rest with
    | some y => exact ⟨y, by simp [latest, hl]⟩
    | none =>
      obtain rfl | h := List.mem_cons.1 h
      · exact ⟨x, by simp [latest, hl]⟩
      · obtain ⟨y, hy⟩ := ih h
        cases hl.symm.trans hy

theorem get?_foldl_insert (points : List Point) (m : SortedMap PointId Bytes) (id : PointId) :
    (points.foldl (fun m p => m.insert p.id p.payload) m).get? id =
      (latest id points).or (m.get? id) := by
  induction points generalizing m with
  | nil => simp [latest]
  | cons p rest ih =>
    rw [List.foldl_cons, ih, latest, Option.or_assoc, get?_insert]
    by_cases hp : p.id = id
    · simp [hp]
    · have hp' : id ≠ p.id := fun he => hp he.symm
      simp [hp, hp']

end Point

namespace Store
variable (s : Store) (l l' : Location) (id : PointId)

theorem replica_put (m : SortedMap PointId Bytes) :
    (s.put l m).replica l' = if l' = l then m else s.replica l' := by
  simp only [replica, put, get?_insert]
  split <;> rfl

theorem get?_upsert (points : List Point) : ((s.upsert l points).replica l').get? id =
    if l' = l then (Point.latest id points).or ((s.replica l').get? id)
    else (s.replica l').get? id := by
  rw [upsert, replica_put]
  by_cases hl : l' = l
  · rw [if_pos hl, if_pos hl, Point.get?_foldl_insert, hl]
  · rw [if_neg hl, if_neg hl]

theorem get?_drop : ((s.drop l).replica l').get? id =
    if l' = l then none else (s.replica l').get? id := by
  simp only [replica, drop, get?_erase]
  split <;> simp

theorem get?_delete (slice : Slice) : ((s.delete l slice).1.replica l').get? id =
    if l' = l ∧ slice.selects id = true then none else (s.replica l').get? id := by
  cases hc : s.contents.get? l with
  | none =>
    have hd : (s.delete l slice).1 = s := by simp [delete, hc]
    rw [hd]
    by_cases hl : l' = l
    · subst hl
      simp [replica, hc]
    · simp [hl]
  | some points =>
    have hd : (s.delete l slice).1 = s.put l (points.filter (fun id _ => !slice.selects id)) := by
      simp [delete, hc]
    rw [hd, replica_put]
    by_cases hl : l' = l
    · subst hl
      have hr : s.replica l' = points := by simp [replica, hc]
      rw [if_pos rfl, get?_filter, hr]
      cases hs : slice.selects id with
      | true => simp
      | false =>
        simp only [Bool.false_eq_true, and_false, if_false]
        cases points.get? id <;> rfl
    · simp [hl]

/-- A write leaves the other replicas alone. -/
theorem contents_upsert (h : l' ≠ l) (points : List Point) :
    (s.upsert l points).contents.get? l' = s.contents.get? l' :=
  get?_insert_of_ne h _ _

section
variable {s l id} {after : Option PointId} {limit : Nat}

/-- The page that goes on after the first `n` points. -/
theorem fetch_beyond (hpos : 0 < limit) (n : Nat)
    (ha : after = ((s.replica l).entries.take n).getLast?.map (·.1)) :
    (s.fetch l after limit).points = toPoints (((s.replica l).entries.drop n).take limit) ∧
      ((s.fetch l after limit).isFinal = true ↔ (s.replica l).entries.length ≤ n + limit) := by
  have hrest : (s.replica l).entries.filter (fun e => after.all (fun a => compare a e.1 == .lt)) =
      (s.replica l).entries.drop n := by
    rw [ha]
    exact filter_beyond _ n
  simp only [fetch, Page.isFinal, hrest, List.length_drop, true_and]
  split
  · rename_i hlong
    have hne : toPoints (((s.replica l).entries.drop n).take limit) ≠ [] := by
      intro hnil
      have hlen := congrArg List.length hnil
      simp only [toPoints, List.length_map, List.length_take, List.length_drop,
        List.length_nil] at hlen
      omega
    obtain ⟨p, hp⟩ := Option.isSome_iff_exists.1 (List.getLast?_isSome.2 hne)
    rw [hp]
    simp only [Option.map_some, Option.isNone_some, Bool.false_eq_true, false_iff]
    omega
  · simp only [Option.isNone_none, true_iff]
    omega

/-- A page tells what the replica holds. -/
theorem mem_fetch {p : Point} (h : p ∈ (s.fetch l after limit).points) :
    (s.replica l).get? p.id = some p.payload := by
  obtain ⟨e, he, rfl⟩ := List.mem_map.1 h
  exact mem_entries.1 (List.mem_filter.1 (List.mem_of_mem_take he)).1

/-- A page has every point after the given one, up to its own last one. -/
theorem fetch_covers (hpos : 0 < limit) {x : Bytes} (hx : (s.replica l).get? id = some x)
    (ha : ∀ a, after = some a → compare a id = .lt) :
    ⟨id, x⟩ ∈ (s.fetch l after limit).points ∨
      ∃ p, (s.fetch l after limit).points.getLast? = some p ∧
        (s.fetch l after limit).isFinal = false ∧ compare p.id id = .lt := by
  let rest := (s.replica l).entries.filter (fun e => after.all (fun a => compare a e.1 == .lt))
  have hin : (id, x) ∈ rest := by
    refine List.mem_filter.2 ⟨mem_entries.2 hx, ?_⟩
    cases after with
    | none => rfl
    | some a => simpa using ha a rfl
  have hsorted : rest.Pairwise (fun a b => compare a.1 b.1 = .lt) :=
    (s.replica l).ascending.filter _
  have hsplit : (id, x) ∈ rest.take limit ++ rest.drop limit := by
    rw [List.take_append_drop]
    exact hin
  obtain hin | hin := List.mem_append.1 hsplit
  · exact .inl (List.mem_map.2 ⟨(id, x), hin, rfl⟩)
  · -- what is left out comes after the last point of the page
    have hlong : limit < rest.length := by
      have hd := List.length_pos_of_mem hin
      rw [List.length_drop] at hd
      omega
    have hne : rest.take limit ≠ [] := by
      intro he
      have hlen := congrArg List.length he
      rw [List.length_take, List.length_nil] at hlen
      omega
    obtain ⟨e, he⟩ := Option.isSome_iff_exists.1 (List.getLast?_isSome.2 hne)
    have hlt := take_lt_drop hsorted (List.mem_of_getLast? he) hin
    have hlast : (s.fetch l after limit).points.getLast? = some ⟨e.1, e.2⟩ := by
      have hmap : (toPoints (rest.take limit)).getLast? = some ⟨e.1, e.2⟩ := by
        rw [toPoints, List.getLast?_map, he]
        rfl
      exact hmap
    refine .inr ⟨⟨e.1, e.2⟩, hlast, ?_, hlt⟩
    have hnext : (s.fetch l after limit).next = some e.1 := by
      have hdef : (s.fetch l after limit).next =
          if limit < rest.length then (s.fetch l after limit).points.getLast?.map (·.id) else none :=
        rfl
      rw [hdef, if_pos hlong, hlast]
      rfl
    rw [Page.isFinal, hnext]
    rfl

end

end Store
end ShardCluster
