import ShardCluster.Proofs.Store.Contents
/-! A replica that is read page by page while clients write to it. Each call goes on after the last point
of the page before it; no point is read twice, and none is passed over that is there at the time. -/
namespace ShardCluster
open Std SortedMap

namespace PointId
variable {after : Option PointId} {a b : PointId}

/-- The id lies above the given one, if one is given. -/
def Above (after : Option PointId) (id : PointId) : Prop := ∀ a, after = some a → compare a id = .lt

theorem Above.trans (h : Above after a) (hab : compare a b = .lt) : Above after b :=
  fun x hx => TransCmp.lt_trans (h x hx) hab

theorem above_some : Above (some a) b ↔ compare a b = .lt :=
  ⟨fun h => h a rfl, fun h _ hx => Option.some.inj hx ▸ h⟩

end PointId

open PointId

/-- One page of a replica: what there was to read, after which id, and what was read. -/
structure Reading where
  content : SortedMap PointId Bytes
  after : Option PointId
  page : Page
  deriving DecidableEq, Inhabited

namespace Reading

/-- Where the next page goes on. An empty page leaves the place as it is. -/
def cursor (R : Reading) : Option PointId := (R.page.points.getLast?.map (·.id)).or R.after

/-- The place of the id is behind the cursor once the page is read, and was not before. -/
def Passes (R : Reading) (id : PointId) : Prop :=
  Above R.after id ∧ (R.page.isFinal = true ∨ ¬Above R.cursor id)

end Reading

namespace Store
variable {s : Store} {l : Location} {after : Option PointId} {limit n : Nat} {id : PointId} {x : Bytes}
  {rounds : List (List (Location × List Point))}

/-- Clients write to replicas, to this one or to others. -/
def writes (s : Store) (ws : List (Location × List Point)) : Store :=
  ws.foldl (fun s w => s.upsert w.1 w.2) s

def reading (s : Store) (l : Location) (limit : Nat) (after : Option PointId) : Reading :=
  ⟨s.replica l, after, s.fetch l after limit⟩

/-- Page after page of a replica; before each of them clients write. -/
def readings (l : Location) (limit : Nat) :
    Store → Option PointId → List (List (Location × List Point)) → List Reading
  | _, _, [] => []
  | s, after, ws :: rest =>
    let R := (s.writes ws).reading l limit after
    R :: readings l limit (s.writes ws) R.cursor rest

/-- What lies above the place where a page begins. -/
def beyond (s : Store) (l : Location) (after : Option PointId) : List (PointId × Bytes) :=
  (s.replica l).entries.filter (fun e => after.all (fun a => compare a e.1 == .lt))

theorem mem_beyond : (id, x) ∈ s.beyond l after ↔
    (s.replica l).get? id = some x ∧ Above after id := by
  rw [beyond, List.mem_filter, mem_entries, Above]
  cases after <;> simp

theorem fetch_points : (s.fetch l after limit).points = toPoints ((s.beyond l after).take limit) := rfl

theorem beyond_ascending :
    (s.beyond l after).Pairwise (fun a b => compare a.1 b.1 = .lt) :=
  (s.replica l).ascending.filter _

theorem fetch_ascending :
    (s.fetch l after limit).points.Pairwise (fun p q => compare p.id q.id = .lt) :=
  List.pairwise_map.2 beyond_ascending.take

theorem above_of_mem_fetch {p : Point} (h : p ∈ (s.fetch l after limit).points) : Above after p.id := by
  rw [fetch_points] at h
  obtain ⟨e, he, rfl⟩ := List.mem_map.1 h
  exact (mem_beyond.1 (List.mem_of_mem_take he)).2

/-- The last point of a page is where the next one goes on. -/
theorem cursor_of_getLast? {p : Point} (h : (s.fetch l after limit).points.getLast? = some p) :
    (s.reading l limit after).cursor = some p.id := by
  simp [Reading.cursor, reading, h]

theorem cursor_of_nil (h : (s.fetch l after limit).points = []) :
    (s.reading l limit after).cursor = after := by
  simp [Reading.cursor, reading, h]

/-- What is above the cursor was above the place before the page. -/
theorem above_of_cursor (h : Above (s.reading l limit after).cursor id) : Above after id := by
  cases hlast : (s.fetch l after limit).points.getLast? with
  | none => rwa [cursor_of_nil (List.getLast?_eq_none_iff.1 hlast)] at h
  | some p =>
    rw [cursor_of_getLast? hlast, above_some] at h
    exact (above_of_mem_fetch (List.mem_of_getLast? hlast)).trans h

/-- The points of a page are not above the cursor. -/
theorem not_above_cursor {p : Point} (h : p ∈ (s.fetch l after limit).points) :
    ¬Above (s.reading l limit after).cursor p.id := by
  obtain ⟨q, hlast⟩ := Option.isSome_iff_exists.1 (List.getLast?_isSome.2 (List.ne_nil_of_mem h))
  rw [cursor_of_getLast? hlast, above_some]
  obtain ⟨rest, hrest⟩ := List.getLast?_eq_some_iff.1 hlast
  have hsorted : (s.fetch l after limit).points.Pairwise (fun p q => compare p.id q.id = .lt) :=
    fetch_ascending
  rw [hrest] at h hsorted
  obtain h | h := List.mem_append.1 h
  · have hlt := (List.pairwise_append.1 hsorted).2.2 p h q (List.mem_singleton.2 rfl)
    exact OrientedCmp.not_lt_of_isLE (by simp [hlt])
  · simp [List.mem_singleton.1 h, ReflOrd.compare_self]

/-- A page has what is stored at the call under the ids that it passes. -/
theorem mem_fetch_iff (hpos : 0 < limit) : ⟨id, x⟩ ∈ (s.fetch l after limit).points ↔
    (s.replica l).get? id = some x ∧ (s.reading l limit after).Passes id := by
  constructor
  · intro h
    exact ⟨mem_fetch h, above_of_mem_fetch h, .inr (not_above_cursor h)⟩
  · intro h
    obtain ⟨hx, habove, hpassed⟩ := h
    have habove : Above after id := habove
    obtain hin | ⟨p, hlast, hmore, hlt⟩ := fetch_covers hpos hx habove
    · exact hin
    · obtain hfinal | hpassed := hpassed
      · cases hmore.symm.trans hfinal
      · rw [cursor_of_getLast? hlast, above_some] at hpassed
        exact absurd hlt hpassed

/-- A page is the last one just where nothing is left above the cursor. -/
theorem fetch_final_iff (hpos : 0 < limit) : (s.fetch l after limit).isFinal = true ↔
    ∀ id x, (s.replica l).get? id = some x → ¬Above (s.reading l limit after).cursor id := by
  constructor
  · intro h id x hx habove
    have hin := (mem_fetch_iff hpos).2 ⟨hx, above_of_cursor habove, .inl h⟩
    exact not_above_cursor hin habove
  · intro h
    refine Bool.of_not_eq_false fun hmore => ?_
    have hlong : limit < (s.beyond l after).length := by
      refine Nat.lt_of_not_le fun hle => ?_
      have hnext : (s.fetch l after limit).next = none := if_neg (Nat.not_lt_of_le hle)
      simp [Page.isFinal, hnext] at hmore
    -- the first entry that does not fit on the page
    obtain ⟨e, he⟩ : ∃ e, e ∈ (s.beyond l after).drop limit :=
      List.exists_mem_of_length_pos (by rw [List.length_drop]; omega)
    obtain ⟨hx, habove⟩ := mem_beyond.1 (List.mem_of_mem_drop he)
    refine h e.1 e.2 hx ?_
    cases hlast : (s.fetch l after limit).points.getLast? with
    | none => rwa [cursor_of_nil (List.getLast?_eq_none_iff.1 hlast)]
    | some p =>
      rw [cursor_of_getLast? hlast, above_some]
      have hp := List.mem_of_getLast? hlast
      rw [fetch_points] at hp
      obtain ⟨d, hd, rfl⟩ := List.mem_map.1 hp
      exact take_lt_drop beyond_ascending hd he

theorem length_readings : (readings l limit s after rounds).length = rounds.length := by
  induction rounds generalizing s after with
  | nil => rfl
  | cons ws rest ih => rw [readings, List.length_cons, ih, List.length_cons]

theorem reading_of_mem {R : Reading} (h : R ∈ readings l limit s after rounds) :
    ∃ s' after', R = reading s' l limit after' := by
  induction rounds generalizing s after with
  | nil => cases h
  | cons ws rest ih =>
    obtain rfl | h := List.mem_cons.1 h
    · exact ⟨_, _, rfl⟩
    · exact ih h

theorem readings_above {R : Reading} (h : R ∈ readings l limit s after rounds) {p : Point}
    (hp : p ∈ R.page.points) : Above after p.id := by
  induction rounds generalizing s after with
  | nil => cases h
  | cons ws rest ih =>
    obtain rfl | h := List.mem_cons.1 h
    · exact above_of_mem_fetch hp
    · exact above_of_cursor (ih h)

/-- No id comes twice, and each page comes after those before it. -/
theorem readings_ascending : ((readings l limit s after rounds).flatMap (·.page.points)).Pairwise
    (fun p q => compare p.id q.id = .lt) := by
  induction rounds generalizing s after with
  | nil => exact .nil
  | cons ws rest ih =>
    rw [readings, List.flatMap_cons]
    refine List.pairwise_append.2 ⟨fetch_ascending, ih, fun p hp q hq => ?_⟩
    obtain ⟨R, hR, hq⟩ := List.mem_flatMap.1 hq
    have habove := readings_above hR hq
    have hnot := not_above_cursor hp
    cases hc : ((s.writes ws).reading l limit after).cursor with
    | none =>
      rw [hc] at hnot
      exact absurd nofun hnot
    | some a =>
      rw [hc, above_some] at hnot habove
      have hle : (compare p.id a).isLE = true :=
        Decidable.by_contra fun hle => hnot (OrientedCmp.lt_of_not_isLE hle)
      exact TransCmp.lt_of_isLE_of_lt hle habove

/-- An id is passed by some page, or still lies ahead. -/
theorem readings_pass (h : Above after id) :
    (∃ R ∈ readings l limit s after rounds, R.Passes id) ∨
      ∀ R ∈ readings l limit s after rounds, R.page.isFinal = false ∧ Above R.cursor id := by
  induction rounds generalizing s after with
  | nil => exact .inr nofun
  | cons ws rest ih =>
    by_cases hpass : ((s.writes ws).reading l limit after).Passes id
    · exact .inl ⟨_, List.mem_cons_self, hpass⟩
    · have hahead := not_or.1 (not_and.1 hpass h)
      have hcursor := Classical.not_not.1 hahead.2
      obtain ⟨R, hR, hp⟩ | hall := ih (s := s.writes ws) hcursor
      · exact .inl ⟨R, List.mem_cons_of_mem _ hR, hp⟩
      · refine .inr (List.forall_mem_cons.2 ⟨⟨?_, hcursor⟩, hall⟩)
        exact Bool.eq_false_iff.2 hahead.1

/-- What comes before the end of a page was passed by that page or by one before it. -/
theorem readings_passed {R : Reading} (h : Above after id) (hR : R ∈ readings l limit s after rounds)
    (hend : R.page.isFinal = true ∨ ¬Above R.cursor id) :
    ∃ R' ∈ readings l limit s after rounds, R'.Passes id := by
  obtain hpass | hahead := readings_pass h
  · exact hpass
  · obtain ⟨hmore, habove⟩ := hahead R hR
    obtain hfinal | hbehind := hend
    · cases hmore.symm.trans hfinal
    · exact absurd habove hbehind

/-- Clients never delete: what is stored stays stored, maybe with another payload. -/
theorem stored_writes {ws : List (Location × List Point)} (h : ∃ x, (s.replica l).get? id = some x) :
    ∃ x, ((s.writes ws).replica l).get? id = some x := by
  induction ws generalizing s with
  | nil => exact h
  | cons w rest ih =>
    refine ih ?_
    obtain ⟨x, hx⟩ := h
    rw [get?_upsert]
    split
    · cases hw : Point.latest id w.2 with
      | none => exact ⟨x, hx⟩
      | some y => exact ⟨y, rfl⟩
    · exact ⟨x, hx⟩

theorem stored_readings {R : Reading} (h : ∃ x, (s.replica l).get? id = some x)
    (hR : R ∈ readings l limit s after rounds) : ∃ x, R.content.get? id = some x := by
  induction rounds generalizing s after with
  | nil => cases hR
  | cons ws rest ih =>
    obtain rfl | hR := List.mem_cons.1 hR
    · exact stored_writes h
    · exact ih (stored_writes h) hR

/-- No client writes to the replica. -/
def Elsewhere (l : Location) (rounds : List (List (Location × List Point))) : Prop :=
  ∀ ws ∈ rounds, ∀ w ∈ ws, w.1 ≠ l

theorem replica_writes {ws : List (Location × List Point)} (h : ∀ w ∈ ws, w.1 ≠ l) :
    (s.writes ws).replica l = s.replica l := by
  induction ws generalizing s with
  | nil => rfl
  | cons w rest ih =>
    obtain ⟨hw, hrest⟩ := List.forall_mem_cons.1 h
    have hstep := ih (s := s.upsert w.1 w.2) hrest
    rw [upsert, replica_put, if_neg hw.symm] at hstep
    exact hstep

/-- The place after the first `n` points of a replica. -/
def placeAfter (s : Store) (l : Location) (n : Nat) : Option PointId :=
  ((s.replica l).entries.take n).getLast?.map (·.1)

/-- A page moves the place on by as many points as it may have. -/
theorem cursor_placeAfter (hpos : 0 < limit) :
    (s.reading l limit (s.placeAfter l n)).cursor = s.placeAfter l (n + limit) := by
  have hpoints := (fetch_beyond (s := s) (l := l) hpos n rfl).1
  change (((s.fetch l (s.placeAfter l n) limit).points.getLast?).map (·.id)).or (s.placeAfter l n) = _
  rw [placeAfter, hpoints, placeAfter, List.take_add, List.getLast?_append, toPoints, List.getLast?_map]
  cases (((s.replica l).entries.drop n).take limit).getLast? <;> rfl

/-- Undisturbed pages from a place on return what follows it, and the last page is the one
that gets to the end. -/
theorem readings_undisturbed (hpos : 0 < limit) (h : Elsewhere l rounds) :
    (readings l limit s (s.placeAfter l n) rounds).flatMap (·.page.points) =
        toPoints (((s.replica l).entries.drop n).take (rounds.length * limit)) ∧
      ∀ i R, (readings l limit s (s.placeAfter l n) rounds)[i]? = some R →
        (R.page.isFinal = true ↔ (s.replica l).size ≤ n + (i + 1) * limit) := by
  induction rounds generalizing s n with
  | nil => exact ⟨by simp [readings, toPoints], nofun⟩
  | cons ws rest ih =>
    obtain ⟨hws, hrest⟩ := List.forall_mem_cons.1 h
    have hsame := replica_writes (s := s) hws
    have hplace : ∀ m, (s.writes ws).placeAfter l m = s.placeAfter l m := fun m => by
      rw [placeAfter, hsame, placeAfter]
    obtain ⟨hpoints, hfinal⟩ := fetch_beyond (s := s.writes ws) (l := l) hpos n rfl
    change (fetch _ l (placeAfter _ l n) limit).points = _ at hpoints
    change (fetch _ l (placeAfter _ l n) limit).isFinal = true ↔ _ at hfinal
    obtain ⟨hmore, hends⟩ := ih (s := s.writes ws) (n := n + limit) hrest
    rw [← cursor_placeAfter hpos] at hmore hends
    rw [hsame] at hpoints hfinal hmore hends
    rw [hplace] at hpoints hfinal hmore hends
    constructor
    · rw [readings, List.flatMap_cons, hmore]
      change (fetch _ l (placeAfter s l n) limit).points ++ _ = _
      rw [hpoints, toPoints, toPoints, toPoints, ← List.map_append, ← List.drop_drop,
        ← List.take_add, List.length_cons, Nat.succ_mul, Nat.add_comm]
    · intro i R hR
      cases i with
      | zero =>
        obtain rfl := Option.some.inj hR
        rw [Nat.zero_add, Nat.one_mul]
        exact hfinal
      | succ i =>
        rw [hends i R hR, Nat.succ_mul (i + 1), ← Nat.add_assoc, Nat.add_right_comm]

/-- How many pages a replica of that size has. An empty one has a page too. -/
def pages (size limit : Nat) : Nat := max 1 ((size + limit - 1) / limit)

/-- The first page that gets to the end is the last of these. -/
theorem reach_iff (hpos : 0 < limit) {size i : Nat} (hi : i < pages size limit) :
    size ≤ (i + 1) * limit ↔ i + 1 = pages size limit := by
  have hdiv := Nat.div_le_iff_le_mul_add_pred hpos (a := size + limit - 1) (c := i + 1)
  rw [Nat.mul_comm] at hdiv
  simp only [pages] at hi ⊢
  omega

theorem length_le_pages (hpos : 0 < limit) {size : Nat} : size ≤ pages size limit * limit := by
  have hmod := Nat.div_add_mod (size + limit - 1) limit
  have hlt := Nat.mod_lt (size + limit - 1) hpos
  have hle := Nat.mul_le_mul_right limit (Nat.le_max_right 1 ((size + limit - 1) / limit))
  rw [Nat.mul_comm] at hmod
  rw [pages]
  omega

/-- What page after page of a replica returns while clients write. -/
structure Paged (s : Store) (l : Location) (limit : Nat)
    (rounds : List (List (Location × List Point))) : Prop where
  ascending : ((readings l limit s none rounds).flatMap (·.page.points)).Pairwise
    (fun p q => compare p.id q.id = .lt)
  /-- A page has what is stored at its call under the ids that it passes, and nothing else. -/
  returned : ∀ R ∈ readings l limit s none rounds, ∀ id x,
    ⟨id, x⟩ ∈ R.page.points ↔ R.content.get? id = some x ∧ R.Passes id
  /-- What lies behind the cursor of a page, or comes before the end, was passed. -/
  passed : ∀ R ∈ readings l limit s none rounds, ∀ id,
    (R.page.isFinal = true ∨ ¬Above R.cursor id) → ∃ R' ∈ readings l limit s none rounds, R'.Passes id
  /-- The last page is the one with nothing stored above its cursor. -/
  final : ∀ R ∈ readings l limit s none rounds, R.page.isFinal = true ↔
    ∀ id x, R.content.get? id = some x → ¬Above R.cursor id
  /-- What is there from the start has been returned when the last page has. -/
  found : ∀ R ∈ readings l limit s none rounds, R.page.isFinal = true →
    ∀ id x, (s.replica l).get? id = some x →
      ∃ p ∈ (readings l limit s none rounds).flatMap (·.page.points), p.id = id
  /-- Undisturbed, the pages are the content, and the last of them is the only last page. -/
  whole : Elsewhere l rounds → rounds.length = pages (s.replica l).size limit →
    (readings l limit s none rounds).flatMap (·.page.points) = toPoints (s.replica l).entries ∧
      ∀ i R, (readings l limit s none rounds)[i]? = some R →
        (R.page.isFinal = true ↔ i + 1 = pages (s.replica l).size limit)

theorem readings_paged (hpos : 0 < limit) (s : Store) (l : Location)
    (rounds : List (List (Location × List Point))) : Paged s l limit rounds where
  ascending := readings_ascending
  returned R hR id x := by
    obtain ⟨s', after', rfl⟩ := reading_of_mem hR
    exact mem_fetch_iff hpos
  passed R hR id h := readings_passed nofun hR h
  final R hR := by
    obtain ⟨s', after', rfl⟩ := reading_of_mem hR
    exact fetch_final_iff hpos
  found R hR hfinal id x hx := by
    have hstart : Above none id := nofun
    obtain ⟨R', hR', hpass⟩ := readings_passed hstart hR (.inl hfinal)
    obtain ⟨y, hy⟩ := stored_readings ⟨x, hx⟩ hR'
    refine ⟨⟨id, y⟩, List.mem_flatMap.2 ⟨R', hR', ?_⟩, rfl⟩
    obtain ⟨s', after', rfl⟩ := reading_of_mem hR'
    exact (mem_fetch_iff hpos).2 ⟨hy, hpass⟩
  whole hquiet hlen := by
    obtain ⟨hall, hends⟩ := readings_undisturbed (s := s) (n := 0) hpos hquiet
    have hstart : s.placeAfter l 0 = none := rfl
    rw [hstart] at hall hends
    constructor
    · rw [hall, hlen, List.drop_zero, List.take_of_length_le]
      exact length_le_pages hpos
    · intro i R hR
      have hi : i < pages (s.replica l).size limit := by
        obtain ⟨hi, -⟩ := List.getElem?_eq_some_iff.1 hR
        rwa [length_readings, hlen] at hi
      rw [hends i R hR, Nat.zero_add]
      exact reach_iff hpos hi

def counter : Location := ⟨"orders", 1, 0⟩

/-- Two pages' worth of points, of both kinds of id. -/
def stocked : Store := Store.upsert {} counter
  [⟨.uuid 0 9, [4]⟩, ⟨.num 6, [3]⟩, ⟨.num 2, [1]⟩, ⟨.num 4, [2]⟩]

/-- Points come behind and before the cursor, and one is written again; the last page is full. -/
def restocked : List (List (Location × List Point)) :=
  [[], [(counter, [⟨.num 1, [5]⟩, ⟨.num 5, [6]⟩, ⟨.num 6, [7]⟩])], [(counter, [⟨.uuid 0 8, [8]⟩])],
    [(counter, [⟨.num 3, [9]⟩])]]

theorem readings_paged_restocked : Paged stocked counter 2 restocked ∧
    (readings counter 2 stocked none restocked).map (·.page.points) =
      [[⟨.num 2, [1]⟩, ⟨.num 4, [2]⟩], [⟨.num 5, [6]⟩, ⟨.num 6, [7]⟩],
        [⟨.uuid 0 8, [8]⟩, ⟨.uuid 0 9, [4]⟩], []] ∧
    (readings counter 2 stocked none [[], []]).flatMap (·.page.points) =
      toPoints (stocked.replica counter).entries :=
  ⟨readings_paged (by decide) stocked counter restocked, by decide +kernel,
    ((readings_paged (by decide) stocked counter [[], []]).whole (by simp [Elsewhere])
      (by decide +kernel)).1⟩

end Store
end ShardCluster
