import ShardCluster.Proofs.Node.Commits
/-! A copy goes on by a page while clients write. What it brings is as it was last written, and what
it is past its destination has. -/
namespace ShardCluster
open SortedMap

/-- One copy of a collection takes its turn and writes a batch to its destination. -/
structure Holdings.Turned (D D' : Holdings) (T T' : Task) (batch : List Point) : Prop where
  request : T'.request = T.request
  rests : T'.Rests
  held : ∀ q p id, D'.held q p id = if (q, p) = T.request.key.destination
    then (Point.latest id batch).or (D.held q p id) else D.held q p id
  copies : ∀ X, D'.copies X → X = T' ∨ D.copies X
  written : D'.written = D.written
  /-- The batch is of what the source holds. -/
  read : ∀ id x, Point.latest id batch = some x →
    D.held T.request.key.shard T.request.key.source id = some x ∧
      Slice.admits T.request.slice id = true
  /-- What the copy gets past is in the batch. -/
  passes : ∀ id x, D.held T.request.key.shard T.request.key.source id = some x →
    Slice.admits T.request.slice id = true → T.Ahead id → ¬T'.Ahead id →
      (Point.latest id batch).isSome

namespace Face
variable {F : Face} {D D' : Holdings} {c : CopyRequest} {key : Option ShardKey} {r : Router}
  {T T' : Task} {batch : List Point} {id : PointId}

/-- Between which replicas a copy goes, and what it is to bring. -/
structure Brings (F : Face) (c : CopyRequest) : Prop where
  source : F.look c.key.shard c.key.source = some .active
  target : (F.look c.key.toShard c.key.target).isSome
  /-- The two shards are of one group. -/
  shard : ∀ key r, F.Group key r → c.key.toShard ∈ r.shards → c.key.shard ∈ r.shards
  serves : ∀ key r id, F.Group key r → c.key.toShard ∈ r.shards → Slice.admits c.slice id = true →
    r.Serves id c.key.shard → r.Serves id c.key.toShard
  admits : ∀ key r id, F.Group key r → r.Serves id c.key.toShard →
    r.routeOld id = some c.key.shard → Slice.admits c.slice id = true

section
variable {coll : Collection} {l : Layout} {t : Transfer} (hkey : t.key = c.key)
include hkey

/-- A copy of a whole shard has all that is in the shard to bring. -/
theorem Brings.whole {op : Option Operation} (ht : t.Copies l) (hslice : c.slice = none) :
    Brings ⟨some coll, op, l⟩ c := by
  have hsame := ht.shard
  obtain ⟨name, _, epoch, slice⟩ := c
  obtain rfl : t.key = _ := hkey
  obtain rfl : slice = none := hslice
  refine ⟨ht.source, Option.isSome_iff_exists.2 ⟨_, ht.target⟩, fun _ _ _ hq => ?_,
    fun _ _ _ _ _ _ hs => ?_, fun _ _ _ _ _ _ => rfl⟩
  · exact hsame ▸ hq
  · exact hsame ▸ hs

/-- A copy of an operation has to bring what the new ring gives to its destination. -/
theorem Brings.slice {o : Operation} (htended : Tended ⟨some coll, some o, l⟩)
    (hf : Fits ⟨some coll, some o, l⟩) (ht : t ∈ coll.transfers)
    (hg : Group ⟨some coll, some o, l⟩ o.key r)
    (hslice : c.slice = some (r.targetSlice t.key.toShard)) : Brings ⟨some coll, some o, l⟩ c := by
  obtain ⟨r', -, hr', hfollows, -, hfeeds, -⟩ := hf.live
  obtain rfl := hg.unique (group_some.2 hr')
  have hfeed := hfeeds t ht
  have hsame : ∀ {key r'}, Group ⟨some coll, some o, l⟩ key r' → t.key.toShard ∈ r'.shards →
      r' = r := by
    intro key r' hg' hq
    obtain rfl := hf.apart hg' hg hq (hfeed.toShard_mem hfollows)
    exact hg'.unique hg
  have hadmits : ∀ id, Slice.admits c.slice id = true ↔ r.routeNew id = some t.key.toShard := by
    intro id
    simp [hslice, Slice.admits, Slice.selects, Router.targetSlice, Router.routeNew]
  obtain ⟨name, _, epoch, slice⟩ := c
  obtain rfl : t.key = _ := hkey
  refine ⟨hfeed.source, Option.isSome_iff_exists.2 ⟨_, hfeed.target⟩, fun key r' hg' hq => ?_,
    fun key r' id hg' hq ha _ => ?_, fun key r' id hg' hs ho => ?_⟩
  · rw [hsame hg' hq]
    exact hfeed.shard_mem hfollows
  · rw [hsame hg' hq]
    exact .inr ((hadmits id).1 ha)
  · obtain rfl := hsame hg' ((htended.even key r' hg').mem_shards hs)
    refine (hadmits id).2 (hs.resolve_left fun hold => ?_)
    -- the ends of the transfer are two shards
    have hq : t.key.shard = t.key.toShard := Option.some.inj (ho.symm.trans hold)
    cases hd : o.direction with
    | up =>
      obtain ⟨hdest, hin⟩ := hfeed.up hd
      rw [hq, (Prod.mk.inj hdest).1, (hfollows.up hd).1] at hin
      cases hin
    | down =>
      obtain ⟨hshard, -, hne, -⟩ := hfeed.down hd
      exact hne (hq.symm.trans hshard)

end

theorem Backs.brings (hb : F.Backs c) (htended : F.Tended) (hf : F.Fits) : F.Brings c := by
  obtain ⟨t, ht, hkey, -, -, hkind⟩ := hb
  obtain ⟨coll, op, l⟩ := F
  cases coll with
  | none => cases ht
  | some coll =>
    have ht : t ∈ coll.transfers := ht
    obtain ⟨hwhole, hslice⟩ | ⟨-, o, r, ho, hg, hslice⟩ := hkind
    · obtain rfl := (hf.fit coll rfl).operation_none hf.agrees ht hwhole
      exact .whole hkey (hf.idle.2 t ht) hslice
    · obtain rfl : op = some o := ho
      exact .slice hkey htended hf ht hg hslice

/-- A transfer does not go into a replica that is active. -/
theorem Fits.target_ne (hf : F.Fits) {t : Transfer} (ht : t ∈ F.transfers) {q : ShardId} {p : PeerId}
    (hl : F.look q p = some .active) : t.key.destination ≠ (q, p) := by
  obtain ⟨coll, op, l⟩ := F
  cases coll with
  | none => cases ht
  | some coll =>
    intro hd
    obtain ⟨rfl, rfl⟩ := Prod.mk.inj hd
    have hl : l t.key.toShard t.key.target = some .active := hl
    cases op with
    | none =>
      have ht := (hf.idle.2 t ht).target
      cases ht.symm.trans hl
    | some o =>
      obtain ⟨_, -, -, -, -, hfeeds, -⟩ := hf.live
      have ht := (hfeeds t ht).target
      cases ht.symm.trans hl

section
variable {q : ShardId} {p : PeerId} {x : Bytes} (h : F.Keeps D) (hbrings : F.Brings T.request)
  (ht : D.Turned D' T T' batch)
include h hbrings ht

/-- What the batch gives to a point of the group is what was written. -/
theorem Keeps.batch_written (hg : F.Group key r) (hq : q ∈ r.shards)
    (hd : (q, p) = T.request.key.destination) (hx : Point.latest id batch = some x) :
    D.written key id = some x ∧ r.Serves id q := by
  obtain ⟨rfl, rfl⟩ := Prod.mk.inj hd
  obtain ⟨hheld, ha⟩ := ht.read id x hx
  obtain ⟨hw, hs⟩ := h.current key r _ _ id x hg (hbrings.shard key r hg hq) hheld
  exact ⟨hw, hbrings.serves key r id hg hq ha hs⟩

/-- A point that the copy gets past in the turn has come to the destination. -/
theorem Keeps.arrived (hf : F.Fits) (hg : F.Group key r) (hq : q ∈ r.shards) (hs : r.Serves id q)
    (hd : T.request.key.destination = (q, p)) (ho : r.routeOld id = some T.request.key.shard)
    (hx : D.written key id = some x) (hahead : T.Ahead id) (hpast : ¬T'.Ahead id) :
    D'.held q p id = some x := by
  obtain ⟨rfl, rfl⟩ := Prod.mk.inj hd
  have hadmits := hbrings.admits key r id hg hs ho
  obtain hsource | ⟨t, htrans, hinto, -⟩ := h.complete key r _ _ id x hg (.inl ho)
    (Option.isSome_iff_exists.2 ⟨_, hbrings.source⟩) hx
  · obtain ⟨y, hy⟩ := Option.isSome_iff_exists.1 (ht.passes id x hsource hadmits hahead hpast)
    obtain ⟨hw, -⟩ := h.batch_written hbrings ht hg hq rfl hy
    rw [ht.held, if_pos hd.symm, hy]
    exact hw.symm.trans hx
  · exact absurd hinto (hf.target_ne htrans hbrings.source)

end

/-- A turn of a copy leaves the replicas as they were written. -/
theorem Keeps.turned (h : F.Keeps D) (htended : F.Tended) (hf : F.Fits) (hT : D.copies T)
    (ht : D.Turned D' T T' batch) : F.Keeps D' := by
  obtain ⟨-, hbacks⟩ := h.copies T hT
  have hbrings := hbacks.brings htended hf
  refine ⟨fun key id x hx => ?_, fun q p id hl => ?_, fun key r q p id x hg hq hx => ?_,
    fun key r q p id x hg hs hl hx => ?_, fun X hX => ?_⟩
  · rw [ht.written] at hx
    exact h.known key id x hx
  · rw [ht.held, if_neg, h.placed q p id hl]
    intro hd
    obtain ⟨rfl, rfl⟩ := Prod.mk.inj hd
    have htarget := hbrings.target
    rw [hl] at htarget
    cases htarget
  · rw [ht.written]
    rw [ht.held] at hx
    split at hx
    · rename_i hd
      obtain hx | ⟨-, hx⟩ := Option.or_eq_some_iff.1 hx
      · exact h.batch_written hbrings ht hg hq hd hx
      · exact h.current key r q p id x hg hq hx
    · exact h.current key r q p id x hg hq hx
  · rw [ht.written] at hx
    have hq := (htended.even key r hg).mem_shards hs
    obtain hheld | ⟨t, htrans, hd, ho, hp⟩ := h.complete key r q p id x hg hs hl hx
    · refine .inl ?_
      rw [ht.held]
      split
      · rename_i hd
        cases hy : Point.latest id batch with
        | none => exact hheld
        | some y =>
          obtain ⟨hw, -⟩ := h.batch_written hbrings ht hg hq hd hy
          exact hw.symm.trans hx
      · exact hheld
    · by_cases hp' : D'.Passed t.key id
      · -- only this copy can have come past the point
        obtain ⟨X, hX, hk, ha⟩ := hp'
        obtain rfl | hX := ht.copies X hX
        · rw [ht.request] at hk
          have hahead : T.Ahead id := Classical.byContradiction fun hn => hp ⟨T, hT, hk, hn⟩
          rw [← hk] at hd ho
          exact .inl (h.arrived hbrings ht hf hg hq hs hd ho hx hahead ha)
        · exact absurd ⟨X, hX, hk, ha⟩ hp
      · exact .inr ⟨t, htrans, hd, ho, hp'⟩
  · obtain rfl | hX := ht.copies X hX
    · exact ⟨ht.rests, ht.request ▸ hbacks⟩
    · exact h.copies X hX

end Face

namespace Node
variable {n : Node} {L : Ledger} {T T' : Task} {s' : Store} {d' : DataPlane}

/-- What a turn of a copy does to the holdings of its collection. -/
theorem holdings_turned (hfetch : T.phase = .fetch 0) (hpos : 0 < T.config.batchSize)
    (hs : n.plane.store.faults = []) (hturn : T.turn n.plane.store = (T', ⟨s', []⟩))
    (hstore : d'.store = ⟨s', []⟩) (htasks : ∀ X ∈ d'.tasks, X = T' ∨ X ∈ n.plane.tasks) :
    (n.holdings L T.request.collection).Turned
      (({ n with plane := d' } : Node).holdings L T.request.collection) T T'
      (T.selected (T.page n.plane.store.store)) := by
  obtain ⟨T₁, s₁, hturn₁, hrequest, -, hrests, hheld, hpast⟩ := T.turn_ok hfetch hs
  obtain ⟨rfl, hstores⟩ := Prod.mk.inj (hturn.symm.trans hturn₁)
  obtain rfl : s' = s₁ := congrArg FaultyStore.store hstores
  have htarget : ∀ q p, (⟨T.request.collection, p, q⟩ : Location) = T.target ↔
      (q, p) = T.request.key.destination := fun q p => by
    simp [Task.target, TransferKey.targetLocation, TransferKey.destination, and_comm]
  refine ⟨hrequest, hrests, fun q p id => ?_, fun X hX => ?_, rfl, fun id x hx => ?_,
    fun id x hx ha hahead hpassed => ?_⟩
  · have hid := hheld ⟨T.request.collection, p, q⟩ id
    rw [← show d'.store.store = s' from congrArg FaultyStore.store hstore] at hid
    exact hid.trans (if_congr (htarget q p) rfl rfl)
  · obtain ⟨hX, hname⟩ := hX
    exact (htasks X hX).imp id fun hX => ⟨hX, hname⟩
  · obtain ⟨hin, ha⟩ := List.mem_filter.1 (Point.mem_of_latest hx)
    exact ⟨Store.mem_fetch hin, ha⟩
  · obtain hin | ⟨p, hlast, hmore, hlt⟩ :=
      Store.fetch_covers hpos hx hahead.offset
    · have hin : ⟨id, x⟩ ∈ T.selected (T.page n.plane.store.store) := List.mem_filter.2 ⟨hin, ha⟩
      exact Option.isSome_iff_exists.2 (Point.latest_isSome hin)
    · exact absurd (hpast id p hlast hmore hlt) hpassed

/-- A copy takes its turn. -/
theorem Stocked.copied (h : n.Stocked L) (hpos : ∀ T ∈ n.plane.tasks, 0 < T.config.batchSize)
    (id : TaskId) : ({ n with plane := (n.plane.advance id).1 } : Node).Stocked L := by
  cases htask : n.plane.task? id with
  | none =>
    have hadvance : (n.plane.advance id).1 = n.plane := by simp only [DataPlane.advance, htask]
    rw [hadvance]
    exact h
  | some T =>
    obtain ⟨hT, rfl⟩ := DataPlane.task?_eq_some htask
    obtain ⟨hrests, -⟩ := (h.keeps T.request.collection).copies T ⟨hT, rfl⟩
    obtain ⟨hstore, -⟩ := DataPlane.advance_spec htask
    have hmem := fun X hX => DataPlane.mem_advance htask (X := X) hX
    obtain hfetch | ⟨o, hended⟩ := hrests
    · obtain ⟨T', s', hturn, hrequest, -, hrests', hheld, -⟩ := T.turn_ok hfetch h.faultless
      rw [hturn] at hstore hmem
      have hdistinct : (n.plane.advance T.request.id).1.Distinct :=
        h.distinct.advance htask (by rw [hturn]; exact hrequest)
      refine ⟨h.reached, congrArg FaultyStore.faults hstore, hdistinct, h.tended, fun name => ?_⟩
      by_cases hn : name = T.request.collection
      · subst hn
        exact (h.keeps _).turned (h.tended _) (h.reached.fits _) ⟨hT, rfl⟩
          (holdings_turned hfetch (hpos T hT) h.faultless hturn hstore hmem)
      · -- the destination is of another collection
        have hk := h.keeps name
        refine hk.carried .still ⟨fun _ _ _ hw => hw.elim, fun q p id _ => ?_, fun X hX => ?_, fun key id x => ?_⟩
        · have hid := hheld ⟨name, p, q⟩ id
          rw [← show (n.plane.advance T.request.id).1.store.store = s' from
            congrArg FaultyStore.store hstore] at hid
          exact hid.trans (if_neg fun hl => hn (congrArg Location.collection hl))
        · obtain ⟨hX, hname⟩ := hX
          obtain rfl | hX := hmem X hX
          · exact absurd (hname.symm.trans (congrArg CopyRequest.collection hrequest)) hn
          · exact .inl ⟨⟨hX, hname⟩, fun hx => hx⟩
        · exact ⟨fun hx => ⟨hx, hk.known key id x hx⟩, And.left⟩
    · have hturn := Task.turn_ended hended n.plane.store
      rw [hturn] at hstore hmem
      refine h.unchanged rfl hstore (h.distinct.advance htask (by rw [hturn])) fun X hX => ?_
      obtain rfl | hX := hmem X hX
      · exact hT
      · exact hX

end Node
end ShardCluster
