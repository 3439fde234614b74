import ShardCluster.Proofs.Node.Commits
/-! A write that is accepted reaches every replica of the shards that either ring gives its points
to. -/
namespace ShardCluster
open SortedMap

namespace Node
variable {n : Node} {r : Router} {id : PointId} {q : ShardId} {p : PeerId}

/-- One point goes to the bucket of each of its shards. -/
theorem latest_insertAll (targets : List ShardId) (x : Point) (m : SortedMap ShardId (List Point)) :
    Point.latest id (((targets.foldl
      (fun m shard => m.insert shard ((m.get? shard).getD [] ++ [x])) m).get? q).getD []) =
    (if q ∈ targets ∧ x.id = id then some x.payload else none).or
      (Point.latest id ((m.get? q).getD [])) := by
  induction targets generalizing m with
  | nil => simp
  | cons shard rest ih =>
    have hone : Point.latest id (((m.insert shard ((m.get? shard).getD [] ++ [x])).get? q).getD []) =
        (if q = shard ∧ x.id = id then some x.payload else none).or
          (Point.latest id ((m.get? q).getD [])) := by
      rw [get?_insert]
      by_cases hq : q = shard
      · subst hq
        simp [Point.latest_append, Point.latest]
      · simp [hq]
    rw [List.foldl_cons, ih, hone]
    by_cases hq : q = shard
    · subst hq
      by_cases hr : q ∈ rest <;> by_cases hid : x.id = id <;> simp [hr, hid]
    · simp [hq]

/-- The bucket of a shard has the points that the shard is to get. -/
theorem latest_byShard (r : Router) (points : List Point) (id : PointId) (q : ShardId) :
    Point.latest id (((byShard r points).get? q).getD []) =
      if q ∈ r.writeTargets id then Point.latest id points else none := by
  have hfold : ∀ m : SortedMap ShardId (List Point), Point.latest id (((points.foldl
      (fun m p => (r.writeTargets p.id).foldl
        (fun m shard => m.insert shard ((m.get? shard).getD [] ++ [p])) m) m).get? q).getD []) =
      (if q ∈ r.writeTargets id then Point.latest id points else none).or
        (Point.latest id ((m.get? q).getD [])) := by
    induction points with
    | nil => simp [Point.latest]
    | cons x rest ih =>
      intro m
      rw [List.foldl_cons, ih, latest_insertAll, ← Option.or_assoc]
      congr 1
      by_cases hid : x.id = id
      · by_cases hq : q ∈ r.writeTargets id <;> simp [hid, hq, Point.latest]
      · simp [hid, Point.latest]
  rw [byShard, hfold]
  simp [Point.latest]

/-- A client's write comes to one batch for each replica that accepts writes. -/
theorem mem_batches {c : Cluster} {name : String} {buckets : List (ShardId × List Point)}
    {writes : List (Location × List Point)} (h : batches c name buckets = .ok writes)
    {w : Location × List Point} : w ∈ writes ↔ ∃ b ∈ buckets, ∃ p s,
      c.replicas.look name b.1 p = some s ∧ s.acceptsWrites = true ∧ w = (⟨name, p, b.1⟩, b.2) := by
  induction buckets generalizing writes with
  | nil =>
    obtain rfl := Except.ok.inj h
    simp
  | cons b rest ih =>
    simp only [batches, bind_eq_ok, pure_eq_ok] at h
    obtain ⟨replicas, hreplicas, more, hmore, rfl⟩ := h
    simp only [List.mem_append, ih hmore, List.mem_map, List.mem_filter, List.mem_cons,
      exists_eq_or_imp]
    refine or_congr_left ⟨fun hw => ?_, fun hw => ?_⟩
    · obtain ⟨x, ⟨hx, ha⟩, rfl⟩ := hw
      obtain ⟨hshard, hlook⟩ := (ReplicaTable.shardReplicas_ok hreplicas).1 hx
      exact ⟨x.peer, x.state, hlook, ha, by rw [Replica.location, hshard]⟩
    · obtain ⟨p, s, hlook, ha, rfl⟩ := hw
      exact ⟨⟨b.1, p, s⟩, ⟨(ReplicaTable.shardReplicas_ok hreplicas).2 ⟨rfl, hlook⟩, ha⟩, rfl⟩

/-- Without faults all batches are written. What matters of them is which replica gets which points. -/
theorem writeAll_ok {s : FaultyStore} (hs : s.faults = []) {writes : List (Location × List Point)}
    {f : Location → List Point} (hf : ∀ w ∈ writes, w.2 = f w.1) : ∃ s',
    writeAll s writes = (⟨s', []⟩, .ok ()) ∧ ∀ l id, (s'.replica l).get? id =
      if ∃ w ∈ writes, w.1 = l then (Point.latest id (f l)).or ((s.store.replica l).get? id)
      else (s.store.replica l).get? id := by
  induction writes generalizing s with
  | nil =>
    obtain ⟨store, faults⟩ := s
    obtain rfl : faults = [] := hs
    exact ⟨store, rfl, fun l id => by simp⟩
  | cons w rest ih =>
    obtain ⟨s', hwrite, hheld⟩ := ih (s := ⟨s.store.upsert w.1 w.2, []⟩) rfl fun x hx =>
      hf x (List.mem_cons_of_mem _ hx)
    refine ⟨s', by rw [writeAll, FaultyStore.upsert_ok hs]; exact hwrite, fun l id => ?_⟩
    have hw := hf w List.mem_cons_self
    have hcons : (∃ x ∈ w :: rest, x.1 = l) ↔ w.1 = l ∨ ∃ x ∈ rest, x.1 = l := by simp
    rw [hheld, Store.get?_upsert, hw]
    by_cases hl : l = w.1
    · rw [if_pos hl, ← hl, if_pos (hcons.2 (.inl hl.symm))]
      split
      · rw [← Option.or_assoc, Option.or_self]
      · rfl
    · rw [if_neg hl]
      exact if_congr ((or_iff_right fun he => hl he.symm).symm.trans hcons.symm) rfl rfl

/-- A write changes nothing but the store. -/
theorem upsert_eq (n : Node) (name : String) (key : Option ShardKey) (points : List Point) :
    ∃ s, (n.upsert name key points).1 = n.setStore s := by
  simp only [upsert]
  split
  · exact ⟨n.plane.store, rfl⟩
  · exact ⟨_, rfl⟩

theorem upsert_cluster (n : Node) (name : String) (key : Option ShardKey) (points : List Point) :
    (n.upsert name key points).1.cluster = n.cluster := by
  obtain ⟨s, hs⟩ := n.upsert_eq name key points
  rw [hs, setStore]

theorem uniform_upsert {c : CopyConfig} (h : n.plane.Uniform c) (name : String)
    (key : Option ShardKey) (points : List Point) : (n.upsert name key points).1.plane.Uniform c := by
  obtain ⟨s, hs⟩ := n.upsert_eq name key points
  rw [hs]
  exact h.congr rfl rfl

section
variable {c : Cluster} {name : String} {points : List Point} {writes : List (Location × List Point)}

/-- A batch holds the bucket of its shard. -/
theorem bucket_of_batches (h : batches c name (byShard r points).entries = .ok writes) :
    ∀ w ∈ writes, w.2 = ((byShard r points).get? w.1.shard).getD [] := by
  intro w hw
  obtain ⟨b, hin, _, _, -, -, rfl⟩ := (mem_batches h).1 hw
  have hget : (byShard r points).get? b.1 = some b.2 := mem_entries.1 hin
  rw [hget]
  rfl

/-- There are batches for the replicas that accept writes, of the shards that have a bucket. -/
theorem location_of_batches (h : batches c name (byShard r points).entries = .ok writes)
    {name' : String} : (∃ w ∈ writes, w.1 = ⟨name', p, q⟩) ↔
      name' = name ∧ (∃ bucket, (byShard r points).get? q = some bucket) ∧
        ∃ s, c.replicas.look name q p = some s ∧ s.acceptsWrites = true := by
  constructor
  · intro hw
    obtain ⟨w, hw, hl⟩ := hw
    obtain ⟨b, hin, p', s, hlook, ha, rfl⟩ := (mem_batches h).1 hw
    obtain ⟨rfl, rfl, rfl⟩ := Location.mk.inj hl
    exact ⟨rfl, ⟨b.2, mem_entries.1 hin⟩, s, hlook, ha⟩
  · intro hw
    obtain ⟨rfl, ⟨bucket, hget⟩, s, hlook, ha⟩ := hw
    exact ⟨_, (mem_batches h).2 ⟨(q, bucket), mem_entries.2 hget, p, s, hlook, ha, rfl⟩, rfl⟩

/-- The batches give a replica the points that are for its shard. -/
theorem held_of_batches (h : batches c name (byShard r points).entries = .ok writes) (name' : String)
    (q : ShardId) (p : PeerId) (id : PointId) (old : Option Bytes) :
    (if ∃ w ∈ writes, w.1 = ⟨name', p, q⟩
      then (Point.latest id (((byShard r points).get? q).getD [])).or old else old) =
    if name' = name ∧ q ∈ r.writeTargets id ∧
        ∃ s, c.replicas.look name q p = some s ∧ s.acceptsWrites = true
      then (Point.latest id points).or old else old := by
  have hlatest := latest_byShard r points id q
  by_cases ht : q ∈ r.writeTargets id
  · rw [if_pos ht] at hlatest
    rw [hlatest]
    cases hget : (byShard r points).get? q with
    | some bucket => exact if_congr (by simp [location_of_batches h, hget, ht]) rfl rfl
    | none =>
      -- no point of the write goes to the shard
      have hnone : Point.latest id points = none := by rw [← hlatest, hget]; rfl
      simp [hnone]
  · rw [if_neg ht] at hlatest
    simp [hlatest, ht]

end

/-- A write is refused, or the replicas that it concerns get its points. -/
theorem upsert_cases (hs : n.plane.store.faults = []) (name : String) (key : Option ShardKey)
    (points : List Point) : (∃ e, n.upsert name key points = (n, .error e)) ∨
    ∃ r s', n.cluster.router name key = .ok r ∧
      n.upsert name key points = (n.setStore ⟨s', []⟩, .ok ()) ∧
      ∀ name' q p id, (s'.replica ⟨name', p, q⟩).get? id =
        if name' = name ∧ q ∈ r.writeTargets id ∧
          ∃ s, n.cluster.replicas.look name q p = some s ∧ s.acceptsWrites = true
        then (Point.latest id points).or ((n.plane.store.store.replica ⟨name', p, q⟩).get? id)
        else (n.plane.store.store.replica ⟨name', p, q⟩).get? id := by
  cases hr : n.cluster.router name key with
  | error e => exact .inl ⟨e, by simp [upsert, hr, bind, Except.bind]⟩
  | ok r =>
    cases hb : batches n.cluster name (byShard r points).entries with
    | error e => exact .inl ⟨e, by simp [upsert, hr, hb, bind, Except.bind]⟩
    | ok writes =>
      obtain ⟨s', hwrite, hheld⟩ := writeAll_ok hs
        (f := fun l => ((byShard r points).get? l.shard).getD []) (bucket_of_batches hb)
      refine .inr ⟨r, s', rfl, by simp [upsert, hr, hb, bind, Except.bind, hwrite], ?_⟩
      exact fun name' q p id => (hheld _ id).trans (held_of_batches hb name' q p id _)

end Node

namespace Face
variable {F : Face} {D D' : Holdings} {key : Option ShardKey} {r : Router}

/-- The replicas of the shards that serve a point have what the write gives it. -/
theorem Keeps.wrote (h : F.Keeps D) (htended : F.Tended) (hf : F.Fits) (hk : F.Knows key)
    (hg : F.Group key r) (points : List Point)
    (hto : ∀ q p id, r.Serves id q → (F.look q p).isSome →
      D'.held q p id = (Point.latest id points).or (D.held q p id))
    (hrest : ∀ q p id, (r.Serves id q → F.look q p = none) → D'.held q p id = D.held q p id)
    (hcopies : ∀ T, D'.copies T ↔ D.copies T)
    (hwritten : ∀ k id, D'.written k id =
      if k = key then (Point.latest id points).or (D.written k id) else D.written k id) :
    F.Keeps D' := by
  have hmem := fun {k : Option ShardKey} {r' : Router} {id : PointId} {q : ShardId}
    (hr' : F.Group k r') (hs : r'.Serves id q) => (htended.even k r' hr').mem_shards hs
  have hsame : ∀ {k r' q}, F.Group k r' → q ∈ r.shards → q ∈ r'.shards → k = key :=
    fun hr' hq hq' => hf.apart hr' hg hq' hq
  have hpassed : ∀ {k id}, D'.Passed k id → D.Passed k id := fun hp => by
    obtain ⟨T, hT, hx⟩ := hp
    exact ⟨T, (hcopies T).1 hT, hx⟩
  refine ⟨fun k id x hx => ?_, fun q p id hl => ?_, fun k r' q p id x hr' hq hx => ?_,
    fun k r' q p id x hr' hs hl hx => ?_, fun T hT => h.copies T ((hcopies T).1 hT)⟩
  · rw [hwritten] at hx
    split at hx
    · rename_i hkey
      exact hkey ▸ hk
    · exact h.known k id x hx
  · rw [hrest q p id fun _ => hl]
    exact h.placed q p id hl
  · by_cases hin : r.Serves id q ∧ (F.look q p).isSome
    · obtain ⟨hs, hl⟩ := hin
      obtain rfl := hsame hr' (hmem hg hs) hq
      obtain rfl := hr'.unique hg
      rw [hto q p id hs hl] at hx
      rw [hwritten, if_pos rfl]
      obtain hx | ⟨hnone, hx⟩ := Option.or_eq_some_iff.1 hx
      · exact ⟨by rw [hx]; rfl, hs⟩
      · rw [hnone, Option.none_or]
        exact h.current k r' q p id x hr' hq hx
    · rw [hrest q p id fun hs => by simpa using fun hl => hin ⟨hs, hl⟩] at hx
      obtain ⟨hw, hs⟩ := h.current k r' q p id x hr' hq hx
      refine ⟨?_, hs⟩
      rw [hwritten, if_neg, hw]
      intro hkey
      subst hkey
      obtain rfl := hr'.unique hg
      refine hin ⟨hs, Option.isSome_iff_ne_none.2 fun hl => ?_⟩
      rw [h.placed q p id hl] at hx
      cases hx
  · rw [hwritten] at hx
    by_cases hkey : k = key
    · subst hkey
      obtain rfl := hr'.unique hg
      rw [if_pos rfl] at hx
      rw [hto q p id hs hl]
      obtain hx | ⟨hnone, hx⟩ := Option.or_eq_some_iff.1 hx
      · exact .inl (by rw [hx]; rfl)
      · rw [hnone, Option.none_or]
        obtain hx | ⟨t, ht, hd, ho, hp⟩ := h.complete k r' q p id x hr' hs hl hx
        · exact .inl hx
        · exact .inr ⟨t, ht, hd, ho, fun hp' => hp (hpassed hp')⟩
    · rw [if_neg hkey] at hx
      obtain hx | ⟨t, ht, hd, ho, hp⟩ := h.complete k r' q p id x hr' hs hl hx
      · refine .inl ((hrest q p id fun hs' => ?_).trans hx)
        exact absurd (hsame hr' (hmem hg hs') (hmem hr' hs)) hkey
      · exact .inr ⟨t, ht, hd, ho, fun hp' => hp (hpassed hp')⟩

/-- No replica is dead, so all accept writes. -/
theorem Tended.accepts (h : F.Tended) {q : ShardId} {p : PeerId} :
    (∃ s, F.look q p = some s ∧ s.acceptsWrites = true) ↔ (F.look q p).isSome := by
  constructor
  · intro hl
    obtain ⟨s, hl, -⟩ := hl
    exact Option.isSome_iff_exists.2 ⟨s, hl⟩
  · intro hl
    obtain ⟨s, hl⟩ := Option.isSome_iff_exists.1 hl
    refine ⟨s, hl, ?_⟩
    cases s with
    | dead => exact absurd hl (h.alive q p)
    | _ => rfl

end Face

namespace Node
variable {n : Node} {L : Ledger}

/-- An accepted write is noted in the ledger, and the replicas have it. -/
theorem Stocked.wrote (h : n.Stocked L) {name : String} {key : Option ShardKey} {points : List Point}
    (hok : (n.upsert name key points).2 = .ok ()) :
    (n.upsert name key points).1.Stocked (L.write name key points) := by
  obtain ⟨e, he⟩ | ⟨r, s', hr, hupsert, hheld⟩ := upsert_cases h.faultless name key points
  · rw [he] at hok
    cases hok
  · rw [hupsert]
    refine ⟨h.reached, rfl, h.distinct, h.tended, fun name' => ?_⟩
    obtain ⟨coll, hcoll, hrouter⟩ := Cluster.router_eq_ok.1 hr
    have hf := h.reached.fits name
    have htended := h.tended name
    have hg : (n.cluster.face name).Group key r := ⟨coll, hcoll, (Collection.router_eq_ok.1 hrouter).2⟩
    have htargets : ∀ id q, q ∈ r.writeTargets id ↔ r.Serves id q := fun id q =>
      Router.mem_writeTargets_iff ((hf.phase hg).imp And.left fun ⟨o, _, _, ho⟩ => ⟨o, ho⟩)
    by_cases hn : name' = name
    · subst hn
      refine (h.keeps name').wrote htended hf ⟨coll, r, hcoll, hrouter⟩ hg points
        (fun q p id hs hl => ?_) (fun q p id hnot => ?_) (fun T => Iff.rfl) fun k id => ?_
      · exact (hheld name' q p id).trans
          (if_pos ⟨rfl, (htargets id q).2 hs, htended.accepts.2 hl⟩)
      · refine (hheld name' q p id).trans (if_neg fun hx => ?_)
        have hnone : (n.cluster.face name').look q p = none := hnot ((htargets id q).1 hx.2.1)
        have hl := htended.accepts.1 hx.2.2
        rw [hnone] at hl
        cases hl
      · simp [holdings, Ledger.write]
    · have hsame : (n.setStore ⟨s', []⟩).holdings (L.write name key points) name' =
          n.holdings L name' := by
        have hstore : ∀ q p id, (s'.replica ⟨name', p, q⟩).get? id =
            (n.plane.store.store.replica ⟨name', p, q⟩).get? id := fun q p id =>
          (hheld name' q p id).trans (if_neg fun hx => hn hx.1)
        have hledger : L.write name key points name' = L name' := by
          funext k id
          simp [Ledger.write, hn]
        simp only [holdings, setStore, hstore, hledger]
      rw [hsame]
      exact h.keeps name'

/-- A write that is refused changes nothing. -/
theorem upsert_refused (hs : n.plane.store.faults = []) {name : String} {key : Option ShardKey}
    {points : List Point} {e : Error} (he : (n.upsert name key points).2 = .error e) :
    (n.upsert name key points).1 = n := by
  obtain ⟨e', he'⟩ | ⟨r, s', -, hupsert, -⟩ := upsert_cases hs name key points
  · rw [he']
  · rw [hupsert] at he
    cases he

end Node
end ShardCluster
