import ShardCluster.Proofs.Node.Holdings
/-! Every change conveys what the replicas hold. What it wipes is no longer theirs, and what it gives
to a replica that lacks it is left to a transfer that has still to read it. -/
namespace ShardCluster
open SortedMap

namespace Face
variable {F F' : Face} {D : Holdings} {w : Wake} {coll coll' : Collection} {op : Option Operation}
  {o : Operation} {l l' : Layout} {key : Option ShardKey} {r r' : Router} {t : Transfer}

/-- The transfer goes on, for the same rings. -/
theorem Backs.mono {c : CopyRequest} (h : F.Backs c)
    (ht : ∀ t ∈ F.transfers, t.key = c.key → t.status = .running → ∃ t' ∈ F'.transfers,
      t'.key = t.key ∧ t'.epoch = t.epoch ∧ t'.status = .running ∧ t'.resharding = t.resharding)
    (ho : ∀ o r, F.operation = some o → F.Group o.key r →
      ∃ o', F'.operation = some o' ∧ F'.Group o'.key r) : F'.Backs c := by
  obtain ⟨t, hin, hk, hepoch, hrun, hslice⟩ := h
  obtain ⟨t', hin', hk', hepoch', hrun', hm⟩ := ht t hin hk hrun
  refine ⟨t', hin', hk'.trans hk, hepoch'.trans hepoch, hrun', ?_⟩
  obtain ⟨hw, hs⟩ | ⟨hw, o, r, hop, hr, hs⟩ := hslice
  · exact .inl ⟨hm.trans hw, hs⟩
  · obtain ⟨o', hop', hr'⟩ := ho o r hop hr
    exact .inr ⟨hm.trans hw, o', r, hop', hr', by rw [hk']; exact hs⟩

theorem Backs.exists_transfer {c : CopyRequest} (h : F.Backs c) : ∃ t ∈ F.transfers, t.key = c.key := by
  obtain ⟨t, ht, hk, -⟩ := h
  exact ⟨t, ht, hk⟩

theorem not_backs (ht : coll.transfers = []) (c : CopyRequest) : ¬Backs ⟨some coll, op, l⟩ c := by
  intro h
  obtain ⟨t, hin, -⟩ := h.exists_transfer
  have hin : t ∈ coll.transfers := hin
  simp [ht] at hin

/-- No copy is past a point where no transfer runs. -/
theorem Keeps.not_passed (h : Keeps ⟨some coll, op, l⟩ D) (ht : coll.transfers = []) (k : TransferKey)
    (id : PointId) : ¬D.Passed k id := by
  intro hp
  obtain ⟨T, hT, -⟩ := hp
  exact not_backs ht _ (h.copies T hT).2

namespace Conveys

theorem found : Conveys ⟨none, none, .none⟩ D .still F' where
  config _ _ h := by cases h
  placed _ _ _ := .inl rfl
  current _ _ _ _ _ := .inl fun _ => rfl
  complete _ _ _ _ _ _ h := absurd h group_none
  backs _ h := by
    obtain ⟨t, ht, -⟩ := h
    cases ht
  starts := List.forall_mem_nil _

theorem deleted : Conveys ⟨some coll, none, l⟩ D
    ⟨fun k => ∃ t ∈ coll.transfers, t.key = k, fun q p _ => (l q p).isSome, []⟩
    ⟨none, none, .none⟩ where
  config _ _ _ h := by cases h
  placed q p _ := by
    cases hl : l q p with
    | none => exact .inl hl
    | some s => exact .inr fun _ => by simp [hl]
  current _ _ _ h := absurd h group_none
  complete _ _ _ _ _ _ _ h := absurd h group_none
  backs _ h hend := absurd h.exists_transfer hend
  starts := List.forall_mem_nil _

theorem keyAdded (htended : Tended ⟨some coll, op, l⟩) (hf : Fits ⟨some coll, op, l⟩) {k : ShardKey}
    {placement : Placement} {n : Nat} (hk : coll.groups.get? (some k) = none)
    (hn : ∀ q ∈ placement.keys, coll.shardSet.contains q = false) :
    Conveys ⟨some coll, op, l⟩ D .still
      ⟨some (coll.setRouter (some k) (.single (.ofShards n placement.keys))), op,
        l.placed placement⟩ where
  config _ _ h h' := by
    obtain rfl := Option.some.inj h
    obtain rfl := Option.some.inj h'
    rfl
  placed q p hl := by
    by_cases hin : p ∈ (placement.get? q).getD []
    · simp [Layout.placed, hin] at hl
    · exact .inl (by simpa [Layout.placed, hin] using hl)
  current key x q hx hq := by
    have hx : (coll.groups.insert _ _).get? key = some x := group_some.1 hx
    rw [get?_insert] at hx
    split at hx
    · obtain rfl := Option.some.inj hx
      have hfresh := hn q (Ring.contains_ofShards.1 ((Router.Idle.single _).mem_shards.1 hq))
      exact .inl ((hf.fit coll rfl).unhoused hfresh)
    · exact .inr ⟨x, group_some.2 hx, hq, fun _ _ _ _ hs => hs⟩
  complete key y x q p id hy hx hs hl := by
    have hy := group_some.1 hy
    have hx : (coll.groups.insert _ _).get? key = some x := group_some.1 hx
    rw [get?_insert] at hx
    split at hx
    · rename_i hkey
      rw [hkey, hk] at hy
      cases hy
    · obtain rfl := Option.some.inj (hy.symm.trans hx)
      have hq := (htended.even key y (group_some.2 hy)).mem_shards hs
      have hsame : l.placed placement q p = l q p :=
        Layout.placed_of_old hn (Fit.shardSet_of_group hy hq) p
      have hl : (l.placed placement q p).isSome := hl
      rw [hsame] at hl
      exact .inr ⟨hs, hl, fun hw => hw, fun t ht _ ho _ => ⟨ho, t, ht, rfl⟩⟩
  backs _ h _ := by
    refine h.mono (fun t ht _ hrun => ⟨t, ht, rfl, rfl, hrun, rfl⟩) fun o x ho hx => ⟨o, ho, ?_⟩
    have hx := group_some.1 hx
    have hne : o.key ≠ some k := fun he => by
      rw [he, hk] at hx
      cases hx
    exact group_some.2 ((get?_insert_of_ne hne _ _).trans hx)
  starts := List.forall_mem_nil _

theorem keyDropped (htended : Tended ⟨some coll, op, l⟩) (hf : Fits ⟨some coll, op, l⟩)
    (hr : coll.groups.get? key = some r) (ho : ∀ o, op = some o → o.key ≠ key) :
    Conveys ⟨some coll, op, l⟩ D
      ⟨fun k => ∃ t ∈ coll.transfers, (t.key.shard ∈ r.shards ∨ t.key.toShard ∈ r.shards) ∧ t.key = k,
        fun q p _ => q ∈ r.shards ∧ (l q p).isSome, []⟩
      ⟨some { coll with
          groups := coll.groups.erase key
          transfers := coll.transfers.filter
            (fun t => !(r.shards.contains t.key.shard || r.shards.contains t.key.toShard)) },
        op, l.without r.shards⟩ where
  config _ _ h h' := by
    obtain rfl := Option.some.inj h
    obtain rfl := Option.some.inj h'
    rfl
  placed q p hl := by
    by_cases hq : q ∈ r.shards
    · cases hlq : l q p with
      | none => exact .inl hlq
      | some s => exact .inr fun _ => ⟨hq, by simp [hlq]⟩
    · exact .inl (by simpa [Layout.without, hq] using hl)
  current key' x q hx hq := by
    obtain ⟨-, hx⟩ := get?_erase_eq_some.1 (group_some.1 hx)
    exact .inr ⟨x, group_some.2 hx, hq, fun _ _ _ _ hs => hs⟩
  complete key' y x q p id hy hx hs hl := by
    have hy := group_some.1 hy
    obtain ⟨hne, hx⟩ := get?_erase_eq_some.1 (group_some.1 hx)
    obtain rfl := Option.some.inj (hy.symm.trans hx)
    have heven := htended.even key' y (group_some.2 hy)
    have hout : ∀ q, q ∈ y.shards → q ∉ r.shards := fun q hq hin =>
      hne ((hf.fit coll rfl).parted.apart hy hr hq hin)
    have hq := hout q (heven.mem_shards hs)
    obtain ⟨s, hl⟩ := Option.isSome_iff_exists.1 hl
    have hl := (Layout.without_eq_some.1 hl).2
    refine .inr ⟨hs, by simp [hl], fun hw => hq hw.1, fun t ht hd hold _ => ⟨hold, t, ?_, rfl⟩⟩
    have hto : t.key.toShard = q := (Prod.mk.inj hd).1
    have hfrom := hout _ (Router.mem_shards.2 (.inl (heven.old_contains hold)))
    exact List.mem_filter.2 ⟨ht, by simpa [hto] using ⟨hfrom, hq⟩⟩
  backs c h hend := by
    refine h.mono (fun t ht hk hrun => ⟨t, List.mem_filter.2 ⟨ht, ?_⟩, rfl, rfl, hrun, rfl⟩)
      fun o x hop hx => ⟨o, hop, ?_⟩
    · have hnot : ¬(t.key.shard ∈ r.shards ∨ t.key.toShard ∈ r.shards) := fun hin =>
        hend ⟨t, ht, hin, hk⟩
      simpa using hnot
    · exact group_some.2 ((get?_erase_of_ne (ho o hop) _).trans (group_some.1 hx))
  starts := List.forall_mem_nil _

section
variable {plan : Plan} (hp : plan.Fits coll l r)
include hp

/-- Only the replica that comes is new to an operation. -/
theorem claimed_old {q : ShardId} {p : PeerId}
    (hs : (l.claimed plan.operation plan.transfers q p).isSome) : (l q p).isSome ∨
      plan.operation.direction = .up ∧ q = plan.operation.shard ∧ p = plan.operation.peer := by
  cases hd : plan.operation.direction with
  | up =>
    simp only [Layout.claimed, hd, Layout.put] at hs
    split at hs
    · rename_i hq
      exact .inr ⟨rfl, hq⟩
    · exact .inl hs
  | down =>
    simp only [Layout.claimed, hd, Layout.marked] at hs
    split at hs
    · rename_i hm
      obtain ⟨t, hin, hdest⟩ := List.mem_map.1 hm
      obtain ⟨rfl, rfl⟩ := Prod.mk.inj hdest
      obtain ⟨-, -, -, -, hl⟩ := (hp.down hd).2.1 t hin
      exact .inl (by simp [hl])
    · exact .inl hs

/-- The replicas of other groups stay as they are. -/
theorem claimed_others {q : ShardId} {p : PeerId} (hin : coll.shardSet.contains q = true)
    (hq : q ∉ r.shards) : l.claimed plan.operation plan.transfers q p = l q p := by
  cases hd : plan.operation.direction with
  | up =>
    have hne : q ≠ plan.operation.shard := fun he => by
      rw [he, (hp.up hd).1] at hin
      cases hin
    simp [Layout.claimed, hd, Layout.put, hne]
  | down =>
    have hnot : (q, p) ∉ plan.transfers.map (·.key.destination) := fun hm => by
      obtain ⟨t, hin', hdest⟩ := List.mem_map.1 hm
      obtain ⟨rfl, rfl⟩ := Prod.mk.inj hdest
      exact hq ((hp.down hd).2.1 t hin').2.2.1
    simp only [Layout.claimed, hd, Layout.marked, if_neg hnot]

variable (htended : Tended ⟨some coll, none, l⟩) (hf : Fits ⟨some coll, none, l⟩)
  (hr : coll.groups.get? plan.operation.key = some r)
  (hr' : r.start plan.operation.change = .ok r')
include htended hf hr hr'

/-- In a group that grows, a replica that is to serve a point anew waits for a transfer from the shard
that served it. -/
theorem started_up (hd : plan.operation.direction = .up) {q : ShardId} {p : PeerId} {id : PointId}
    (hnew : r'.routeNew id = some q) (hq : r.routeOld id ≠ some q)
    (hl : (l.claimed plan.operation plan.transfers q p).isSome) :
    ∃ t ∈ plan.transfers, t.key.destination = (q, p) ∧ r.routeOld id = some t.key.shard := by
  have hfollows : r'.Follows { plan.operation with stage := .starting } :=
    (hf.agrees.rests hr : r.Idle).start hr' rfl
  have hfit : Fit coll none l := hf.fit coll rfl
  have heven : r.Even := htended.even _ r (group_some.2 hr)
  have hroute : r'.routeOld id = r.routeOld id := by
    rw [Router.routeOld, Router.start_old hr', Router.routeOld]
  obtain rfl : q = plan.operation.shard := by
    obtain hx | hx := hfollows.routeNew_up hd id
    · exact Option.some.inj (hnew.symm.trans hx)
    · exact absurd ((hroute.symm.trans hx.symm).trans hnew) hq
  obtain rfl : p = plan.operation.peer := by
    obtain hl | ⟨-, -, hp⟩ := claimed_old hp hl
    · rw [hfit.unhoused (hp.up hd).1 p] at hl
      cases hl
    · exact hp
  obtain ⟨s, hcont⟩ := hfit.parted.filled hr
  obtain ⟨s, hs⟩ := heven.routeOld hcont id
  obtain ⟨-, hends, hall⟩ := hp.up hd
  obtain ⟨t, hin, rfl⟩ := hall s (heven.mem_shards (.inl hs))
  exact ⟨t, hin, (hends t hin).1, hs⟩

/-- In a group that shrinks, it waits for a transfer from the shard that goes. -/
theorem started_down (he : r'.Even) (ht : coll.transfers = [])
    (hd : plan.operation.direction = .down) {q : ShardId} {p : PeerId} {id : PointId}
    (hnew : r'.routeNew id = some q) (hq : r.routeOld id ≠ some q)
    (hl : (l.claimed plan.operation plan.transfers q p).isSome) :
    ∃ t ∈ plan.transfers, t.key.destination = (q, p) ∧ r.routeOld id = some t.key.shard := by
  have hi : r.Idle := hf.agrees.rests hr
  have hfollows : r'.Follows { plan.operation with stage := .starting } := hi.start hr' rfl
  have hroute : r'.routeOld id = r.routeOld id := by
    rw [Router.routeOld, Router.start_old hr', Router.routeOld]
  have hfrom : r.routeOld id = some plan.operation.shard := by
    obtain hx | hx := hfollows.routeOld_down hd id
    · exact hroute.symm.trans hx
    · exact absurd ((hroute.symm.trans hx).trans hnew) hq
  have hmem : q ∈ r.shards := by
    obtain hin | ⟨hup, -⟩ := Fit.mem_started hi hr' (he.mem_shards (.inr hnew))
    · exact hin
    · cases hd.symm.trans hup
  have hactive : l q p = some .active := by
    obtain hl | ⟨hup, -⟩ := claimed_old hp hl
    · obtain ⟨s, hs⟩ := Option.isSome_iff_exists.1 hl
      rw [hs, htended.active hf ht hs]
    · cases hd.symm.trans hup
  obtain ⟨-, hends, -, hall, -⟩ := hp.down hd
  obtain ⟨t, hin, hdest⟩ := hall q hmem (hfollows.routeNew_ne he hd hnew) p hactive
  exact ⟨t, hin, hdest, (hends t hin).1 ▸ hfrom⟩

end

theorem started {plan : Plan} (htended : Tended ⟨some coll, none, l⟩)
    (hf : Fits ⟨some coll, none, l⟩) (hk : Keeps ⟨some coll, none, l⟩ D) (ht : coll.transfers = [])
    (hr : coll.groups.get? plan.operation.key = some r)
    (hr' : r.start plan.operation.change = .ok r') (hp : plan.Fits coll l r) (he : r'.Even)
    (epoch : UInt64) (name : String) :
    Conveys ⟨some coll, none, l⟩ D ⟨fun _ => False, fun _ _ _ => False,
        ((plan.transfers.map (fun t => { t with epoch })).filter (·.status == .running)).map
          (Cluster.copyOf name r')⟩
      ⟨some { coll.setRouter plan.operation.key r' with
          transfers := plan.transfers.map (fun t => { t with epoch }) },
        some { plan.operation with
          stage := if plan.transfers = [] then .awaitingReadCommit else .starting },
        l.claimed plan.operation plan.transfers⟩ := by
  have hfit := hf.fit coll rfl
  have hi : r.Idle := hf.agrees.rests hr
  have hfollows : r'.Follows { plan.operation with stage := .starting } := hi.start hr' rfl
  have hroute : ∀ id, r'.routeOld id = r.routeOld id := fun id => by
    rw [Router.routeOld, Router.start_old hr', Router.routeOld]
  refine of_insert htended hfit.parted hr rfl rfl (fun q p hl => ?_)
    (fun q p hin hq => ⟨claimed_others hp hin hq, fun _ hw => hw⟩) (fun t hin => ?_) (fun q hq => ?_)
    (fun q p id hs hl => ?_) (fun c hb _ => absurd hb (not_backs ht c)) fun c hc => ?_
  · cases hx : l q p with
    | none => exact .inl rfl
    | some s =>
      have hreads : l.Readable q p := ⟨s, hx, by rw [htended.active hf ht hx]; rfl⟩
      have hsome := (hreads.claimed plan.operation plan.transfers).isSome
      have hl : l.claimed plan.operation plan.transfers q p = none := hl
      rw [hl] at hsome
      cases hsome
  · simp [ht] at hin
  · obtain hq | ⟨hd, rfl⟩ := Fit.mem_started hi hr' hq
    · refine .inr ⟨hq, fun _ id _ _ hs => .inl ?_⟩
      rw [hroute]
      exact hi.serves.1 hs
    · exact .inl (hfit.unhoused (hp.up hd).1)
  · by_cases hq : r.routeOld id = some q
    · refine .inr ⟨.inl hq, ?_, fun hw => hw, fun t hin => by simp [ht] at hin⟩
      obtain hl | ⟨hd, hq', -⟩ := claimed_old hp hl
      · exact hl
      · exact absurd hq' (hfollows.routeOld_ne he hd ((hroute id).trans hq))
    · have hnew : r'.routeNew id = some q := hs.resolve_left (fun ho => hq ((hroute id).symm.trans ho))
      obtain ⟨t, hin, hdest, hfrom⟩ : ∃ t ∈ plan.transfers, t.key.destination = (q, p) ∧
          r.routeOld id = some t.key.shard := by
        cases hd : plan.operation.direction with
        | up => exact started_up hp htended hf hr hr' hd hnew hq hl
        | down => exact started_down hp htended hf hr hr' he ht hd hnew hq hl
      exact .inl ⟨{ t with epoch }, List.mem_map_of_mem hin, hdest, (hroute id).trans hfrom,
        hk.not_passed ht _ id⟩
  · obtain ⟨t', hin, rfl⟩ := List.mem_map.1 hc
    obtain ⟨hin, hrun⟩ := List.mem_filter.1 hin
    obtain ⟨t, hin', rfl⟩ := List.mem_map.1 hin
    have hrun : t.status = .running := by simpa using hrun
    have hget : (coll.groups.insert plan.operation.key r').get? plan.operation.key = some r' :=
      get?_insert_self _ _ _
    exact ⟨_, hin, rfl, rfl, hrun, .inr ⟨hp.slices t hin', _, r', rfl, group_some.2 hget, rfl⟩⟩

section
variable (htended : Tended ⟨some coll, some o, l⟩) (hf : Fits ⟨some coll, some o, l⟩)
  (hr : coll.router o.key = .ok r)
include htended hf hr

theorem committed (hs : o.stage ≠ .starting) (hold : r'.old = r.old) (hnew : r'.new = r.new)
    (stage : Stage) : Conveys ⟨some coll, some o, l⟩ D .still
      ⟨some (coll.setRouter o.key r'), some { o with stage }, l⟩ := by
  have hget := (Collection.router_eq_ok.1 hr).2
  have hnil : coll.transfers = [] := (hf.fit coll rfl).transfers_nil hr hs
  have hmem : ∀ q, q ∈ r'.shards ↔ q ∈ r.shards := fun q => by
    rw [Router.mem_shards, Router.mem_shards, Router.target, Router.target, hold, hnew]
  refine of_insert htended (hf.fit coll rfl).parted hget rfl rfl (fun q p hl => .inl hl)
    (fun q p _ _ => ⟨rfl, fun _ hw => hw⟩) (fun t ht => by simp [hnil] at ht)
    (fun q hq => .inr ⟨(hmem q).1 hq, fun _ id _ _ hx => (Router.serves_congr hold hnew).2 hx⟩)
    (fun q p id hx hl => .inr ⟨(Router.serves_congr hold hnew).1 hx, hl, fun hw => hw,
      fun t ht => by simp [hnil] at ht⟩) (fun c hb _ => absurd hb (not_backs hnil c))
    (List.forall_mem_nil _)

theorem finishedUp (hs : o.stage = .awaitingFinish) (hr' : r.finish = .ok r')
    (hd : o.direction = .up) : Conveys ⟨some coll, some o, l⟩ D
      ⟨fun _ => False, fun q p id => r.old.ring.contains q = true ∧ (l q p).isSome ∧
        (r.targetSlice o.shard).selects id = true, []⟩
      ⟨some (coll.setRouter o.key r'), none, l.settled r.shards⟩ := by
  have hget := (Collection.router_eq_ok.1 hr).2
  have hfollows := hf.agrees.follows hr
  have heven := htended.even _ r (group_some.2 hget)
  have hnil : coll.transfers = [] := (hf.fit coll rfl).transfers_nil hr (by simp [hs])
  have hslice : ∀ id, (r.targetSlice o.shard).selects id = true ↔ r.routeNew id = some o.shard :=
    fun id => by simp [Slice.selects, Router.targetSlice, Router.routeNew]
  refine of_insert htended (hf.fit coll rfl).parted hget rfl rfl (fun q p hl => ?_)
    (fun q p _ hq => ⟨?_, fun id hw => hq (Router.mem_shards.2 (.inl hw.1))⟩)
    (fun t ht => by simp [hnil] at ht) (fun q hq => .inr ⟨?_, fun p id hl hw hx => ?_⟩)
    (fun q p id hx hl => ?_) (fun c hb _ => absurd hb (not_backs hnil c)) (List.forall_mem_nil _)
  · exact .inl (Cluster.settled_eq_none.1 hl)
  · simp [Layout.settled, hq]
  · exact Router.mem_shards.2 (.inr ((Router.mem_shards_finish hr').1 hq))
  · rw [Router.serves_finish hr']
    obtain hx | hx := hx
    · obtain hnew | hnew := hfollows.routeNew_up hd id
      · exact absurd ⟨heven.old_contains hx, hl, (hslice id).2 hnew⟩ hw
      · exact hnew.trans hx
    · exact hx
  · have hx := (Router.serves_finish hr').1 hx
    have hl : (l.settled r.shards q p).isSome := hl
    rw [Cluster.settled_isSome] at hl
    refine .inr ⟨.inr hx, hl, fun hw => ?_, fun t ht => by simp [hnil] at ht⟩
    obtain ⟨hin, -, hsel⟩ := hw
    obtain rfl : q = o.shard := Option.some.inj (hx.symm.trans ((hslice id).1 hsel))
    rw [(hfollows.up hd).1] at hin
    cases hin

theorem finishedDown (hs : o.stage = .awaitingFinish) (hr' : r.finish = .ok r')
    (hd : o.direction = .down) : Conveys ⟨some coll, some o, l⟩ D
      ⟨fun _ => False, fun q p _ => q = o.shard ∧ (l q p).isSome, []⟩
      ⟨some (coll.setRouter o.key r'), none, (l.settled r.shards).without [o.shard]⟩ := by
  have hget := (Collection.router_eq_ok.1 hr).2
  have hfollows := hf.agrees.follows hr
  have heven := htended.even _ r (group_some.2 hget)
  have hnil : coll.transfers = [] := (hf.fit coll rfl).transfers_nil hr (by simp [hs])
  refine of_insert htended (hf.fit coll rfl).parted hget rfl rfl (fun q p hl => ?_)
    (fun q p _ hq => ?_) (fun t ht => by simp [hnil] at ht)
    (fun q hq => .inr ⟨?_, fun p id hl hw hx => ?_⟩) (fun q p id hx hl => ?_)
    (fun c hb _ => absurd hb (not_backs hnil c)) (List.forall_mem_nil _)
  · cases hx : l q p with
    | none => exact .inl rfl
    | some s =>
      refine .inr fun _ => ⟨?_, by simp [hx]⟩
      have hsome : (l.settled r.shards q p).isSome := by rw [Cluster.settled_isSome, hx]; rfl
      obtain ⟨s', hs'⟩ := Option.isSome_iff_exists.1 hsome
      by_cases hq : q = o.shard
      · exact hq
      · have hne : q ∉ [o.shard] := by simpa using hq
        have hl : (l.settled r.shards).without [o.shard] q p = none := hl
        rw [Layout.without_eq_some.2 ⟨hne, hs'⟩] at hl
        cases hl
  · have hne : q ≠ o.shard := fun he => hq (he ▸ hfollows.shard_mem)
    refine ⟨?_, fun _ hw => hne hw.1⟩
    simp [Layout.without, Layout.settled, hne, hq]
  · exact Router.mem_shards.2 (.inr ((Router.mem_shards_finish hr').1 hq))
  · rw [Router.serves_finish hr']
    obtain hx | hx := hx
    · obtain hold | hold := hfollows.routeOld_down hd id
      · exact absurd ⟨Option.some.inj (hx.symm.trans hold), hl⟩ hw
      · exact hold.symm.trans hx
    · exact hx
  · have hx := (Router.serves_finish hr').1 hx
    obtain ⟨s, hl⟩ := Option.isSome_iff_exists.1 hl
    have hl : (l.settled r.shards q p).isSome := by simp [(Layout.without_eq_some.1 hl).2]
    rw [Cluster.settled_isSome] at hl
    refine .inr ⟨.inr hx, hl, fun hw => ?_, fun t ht => by simp [hnil] at ht⟩
    exact hfollows.routeNew_ne heven hd hx hw.1

/-- A growing group takes nothing from its old shards when it is rolled back: the points that were to
move are served where they were. -/
theorem rolledBackUp (hd : o.direction = .up) : Conveys ⟨some coll, some o, l⟩ D
      ⟨fun k => ∃ t ∈ coll.transfers, t.resharding = true ∧ t.key = k,
        fun q p _ => q = o.shard ∧ (l q p).isSome, []⟩
      ⟨some ((coll.take (·.resharding)).1.setRouter o.key r.abort), none, l.without [o.shard]⟩ := by
  have hget := (Collection.router_eq_ok.1 hr).2
  have hfollows := hf.agrees.follows hr
  obtain ⟨-, hfeeds, -⟩ := (hf.fit coll rfl).live o r rfl hr
  refine of_insert htended (hf.fit coll rfl).parted hget rfl rfl (fun q p hl => ?_)
    (fun q p _ hq => ?_) (fun t ht => (hfeeds t ht).toShard_mem hfollows)
    (fun q hq => ?_) (fun q p id hx hl => ?_) (fun c hb hend => ?_)
    (List.forall_mem_nil _)
  · by_cases hq : q = o.shard
    · cases hx : l q p with
      | none => exact .inl rfl
      | some s => exact .inr fun _ => ⟨hq, by simp [hx]⟩
    · exact .inl (by simpa [Layout.without, hq] using hl)
  · have hne : q ≠ o.shard := fun he => hq (he ▸ hfollows.shard_mem)
    exact ⟨by simp [Layout.without, hne], fun _ hw => hne hw.1⟩
  · have hold : r.old.ring.contains q = true := (Router.Idle.abort r).mem_shards.1 hq
    refine .inr ⟨(hfollows.mem_shards_up hd).2 (.inr hold), fun p id _ _ hx => ?_⟩
    rw [Router.serves_abort]
    obtain hx | hx := hx
    · exact hx
    · obtain hnew | hnew := hfollows.routeNew_up hd id
      · obtain rfl := Option.some.inj (hx.symm.trans hnew)
        rw [(hfollows.up hd).1] at hold
        cases hold
      · exact hnew.symm.trans hx
  · have hx := Router.serves_abort.1 hx
    have hne := hfollows.routeOld_ne (htended.even _ r (group_some.2 hget)) hd hx
    obtain ⟨s, hl⟩ := Option.isSome_iff_exists.1 hl
    have hl := (Layout.without_eq_some.1 hl).2
    refine .inr ⟨.inl hx, by simp [hl], fun hw => hne hw.1, fun t ht hdest => ?_⟩
    have hto := ((hfeeds t ht).up hd).1
    exact absurd (congrArg Prod.fst (hdest.symm.trans hto)) hne
  · obtain ⟨t, ht, hk⟩ := hb.exists_transfer
    exact absurd ⟨t, ht, (hfeeds t ht).slice, hk⟩ hend

/-- A shrinking group keeps its replicas; those that took over lose what the operation has brought. -/
theorem rolledBackDown (hd : o.direction = .down) : Conveys ⟨some coll, some o, l⟩ D
      ⟨fun k => ∃ t ∈ coll.transfers, t.resharding = true ∧ t.key = k,
        fun q p id => l q p = some .resharding ∧ q ∈ r.shards ∧
          (r.slice o.shard).selects id = true, []⟩
      ⟨some ((coll.take (·.resharding)).1.setRouter o.key r.abort), none, l.settled r.shards⟩ := by
  have hget := (Collection.router_eq_ok.1 hr).2
  have hfollows := hf.agrees.follows hr
  obtain ⟨hfill, hfeeds, -⟩ := (hf.fit coll rfl).live o r rfl hr
  have hslice := hfollows.slice_down hd
  refine of_insert htended (hf.fit coll rfl).parted hget rfl rfl
    (fun q p hl => .inl (Cluster.settled_eq_none.1 hl))
    (fun q p _ hq => ⟨?_, fun id hw => hq hw.2.1⟩)
    (fun t ht => (hfeeds t ht).toShard_mem hfollows)
    (fun q hq => ?_) (fun q p id hx hl => ?_) (fun c hb hend => ?_)
    (List.forall_mem_nil _)
  · simp [Layout.settled, hq]
  · have hold : r.old.ring.contains q = true := (Router.Idle.abort r).mem_shards.1 hq
    have hmem := (hfollows.mem_shards_down hd).2 hold
    refine .inr ⟨hmem, fun p id hl hw hx => ?_⟩
    rw [Router.serves_abort]
    obtain hx | hx := hx
    · exact hx
    · obtain hfrom | hfrom := hfollows.routeOld_down hd id
      · -- what the operation has brought is wiped
        have hne := hfollows.routeNew_ne (htended.even _ r (group_some.2 hget)) hd hx
        have hstay : l q p = some .resharding :=
          htended.staying o r rfl (group_some.2 hget) hd q p hold hne hl
        exact absurd ⟨hstay, hmem, (hslice id).2 hfrom⟩ hw
      · exact hfrom.trans hx
  · have hx := Router.serves_abort.1 hx
    have hl : (l.settled r.shards q p).isSome := hl
    rw [Cluster.settled_isSome] at hl
    refine .inr ⟨.inl hx, hl, fun hw => ?_, fun t ht hdest hfrom => ?_⟩
    · obtain rfl := Option.some.inj (hx.symm.trans ((hslice id).1 hw.2.2))
      exact ((hfill.down hd).2 _ p hw.1).2 rfl
    · obtain ⟨hshard, -, hne, -⟩ := (hfeeds t ht).down hd
      have hto : t.key.toShard = q := congrArg Prod.fst hdest
      rw [hshard] at hfrom
      exact absurd (hto.trans (Option.some.inj (hx.symm.trans hfrom))) hne
  · obtain ⟨t, ht, hk⟩ := hb.exists_transfer
    exact absurd ⟨t, ht, (hfeeds t ht).slice, hk⟩ hend

end

theorem rollsBack (htended : F.Tended) (hf : F.Fits) (hb : RollsBack F w F') : F.Conveys D w F' := by
  cases hb with
  | up hr hd => exact rolledBackUp htended hf hr hd
  | down hr hd => exact rolledBackDown htended hf hr hd

theorem replicated (hf : Fits ⟨some coll, none, l⟩) (hk : Keeps ⟨some coll, none, l⟩ D)
    (hm : t.method = .wholeShard) (hq : t.key.shard = t.key.toShard)
    (hnew : ∀ t' ∈ coll.transfers, t'.key ≠ t.key) (epoch : UInt64) (name : String) :
    Conveys ⟨some coll, none, l⟩ D
      ⟨fun _ => False, fun _ _ _ => False, [⟨name, t.key, epoch, none⟩]⟩
      ⟨some { coll with transfers := coll.transfers ++ [{ t with status := .running, epoch }] }, none,
        l.put t.key.shard t.key.target .partialCopy⟩ := by
  refine of_groups rfl rfl (fun q p hl => ?_) (fun key r q p id hr hs hl => ?_) (fun c hb _ => ?_)
    fun c hc => ?_
  · by_cases he : q = t.key.shard ∧ p = t.key.target
    · simp [Layout.put, he] at hl
    · exact .inl (by simpa [Layout.put, he] using hl)
  · obtain ⟨s, hl⟩ := Option.isSome_iff_exists.1 hl
    obtain ⟨rfl, rfl, -⟩ | ⟨-, hl⟩ := Layout.put_cases hl
    · have hi : r.Idle := hf.agrees.rests hr
      refine .inl ⟨_, List.mem_append_right _ List.mem_cons_self, Prod.ext hq.symm rfl,
        hi.serves.1 hs, fun hp => ?_⟩
      obtain ⟨T, hT, hkey, -⟩ := hp
      obtain ⟨t', ht', hk'⟩ := (hk.copies T hT).2.exists_transfer
      exact hnew t' ht' (hk'.trans hkey)
    · exact .inr ⟨by simp [hl], fun hw => hw, fun t' ht' _ _ =>
        ⟨t', List.mem_append_left _ ht', rfl⟩⟩
  · exact hb.mono (fun t' ht' _ hrun => ⟨t', List.mem_append_left _ ht', rfl, rfl, hrun, rfl⟩)
      fun _ _ ho => by cases ho
  · obtain rfl := List.mem_singleton.1 hc
    have hw : t.resharding = false := by simp [Transfer.resharding, hm]
    exact ⟨_, List.mem_append_right _ List.mem_cons_self, rfl, rfl, rfl, .inl ⟨hw, rfl⟩⟩

/-- What is left of the table once a transfer has gone. -/
theorem mem_others {k : TransferKey} (ht : t ∈ coll.transfers) (hk : t.key ≠ k) :
    t ∈ coll.transfers.filter (fun t' => !(t'.key == k)) :=
  List.mem_filter.2 ⟨ht, by simpa using hk⟩

theorem copied (hp : ∀ id, D.Passed t.key id) (hd : (l t.key.toShard t.key.target).isSome) :
    Conveys ⟨some coll, none, l⟩ D ⟨(t.key = ·), fun _ _ _ => False, []⟩
      ⟨some { coll with transfers := coll.transfers.filter (fun t' => !(t'.key == t.key)) }, none,
        l.put t.key.toShard t.key.target .active⟩ := by
  refine of_groups rfl rfl (fun q p hl => ?_) (fun key r q p id hr hs hl => ?_) (fun c hb hend => ?_)
    (List.forall_mem_nil _)
  · by_cases he : q = t.key.toShard ∧ p = t.key.target
    · simp [Layout.put, he] at hl
    · exact .inl (by simpa [Layout.put, he] using hl)
  · refine .inr ⟨?_, fun hw => hw, fun t' ht' _ hnot => ?_⟩
    · obtain ⟨s, hl⟩ := Option.isSome_iff_exists.1 hl
      obtain ⟨rfl, rfl, -⟩ | ⟨-, hl⟩ := Layout.put_cases hl
      · exact hd
      · simp [hl]
    · exact ⟨t', mem_others ht' fun he => hnot (he ▸ hp id), rfl⟩
  · refine hb.mono (fun t' ht' hk hrun => ⟨t', mem_others ht' fun he => ?_, rfl, rfl, hrun, rfl⟩)
      fun _ _ ho => by cases ho
    exact hend (he.symm.trans hk)

theorem sliced {name : String} {next : Option Transfer} {transfers : List Transfer}
    {starts : List CopyRequest} (hf : Fits ⟨some coll, some o, l⟩)
    (hp : ∀ id, D.Passed t.key id)
    (hn : Cluster.release t.key.destination
      (coll.transfers.filter (fun t' => !(t'.key == t.key))) = (transfers, next))
    (hw : next = none ∧ starts = [] ∨ ∃ t' r, next = some t' ∧ coll.router o.key = .ok r ∧
      starts = [Cluster.copyOf name r t']) :
    Conveys ⟨some coll, some o, l⟩ D ⟨(t.key = ·), fun _ _ _ => False, starts⟩
      ⟨some { coll with transfers }, some (o.settled transfers), l⟩ := by
  obtain ⟨rfl, rfl⟩ := Prod.mk.inj hn
  obtain ⟨_, -, -, -, -, hfeeds, -⟩ := hf.live
  refine of_groups rfl rfl (fun q p hl => .inl hl) (fun key r q p id hr hs hl => ?_)
    (fun c hb hend => ?_) fun c hc => ?_
  · refine .inr ⟨hl, fun hw => hw, fun t' ht' _ hnot => ?_⟩
    have hin := mem_others ht' fun he => hnot (he ▸ hp id)
    have hkeys := List.mem_map_of_mem (f := (·.key)) hin
    rw [← Cluster.keys_release (d := t.key.destination)] at hkeys
    exact List.mem_map.1 hkeys
  · refine hb.mono (fun t' ht' hk hrun => ⟨t', Cluster.running_mem_release
      (mem_others ht' fun he => ?_) hrun, rfl, rfl, hrun, rfl⟩) fun o' r ho hr => ?_
    · exact hend (he.symm.trans hk)
    · obtain rfl := Option.some.inj ho
      have hr : coll.groups.get? o.key = some r := group_some.1 hr
      refine ⟨_, rfl, ?_⟩
      rw [Operation.settled_eq]
      exact group_some.2 hr
  · obtain ⟨-, rfl⟩ | ⟨t', r, hnext, hr, rfl⟩ := hw
    · cases hc
    · obtain rfl := List.mem_singleton.1 hc
      obtain ⟨hin, hrun⟩ := Cluster.released_mem hnext
      obtain ⟨t'', ht'', -, hm, -⟩ := Cluster.mem_release hin
      have hslice : t'.resharding = true := by
        have hold := (hfeeds t'' (List.mem_filter.1 ht'').1).slice
        simpa [Transfer.resharding, hm] using hold
      refine ⟨t', hin, rfl, rfl, hrun, .inr ⟨hslice, _, r, rfl, ?_, rfl⟩⟩
      rw [Operation.settled_eq]
      exact group_some.2 (Collection.router_eq_ok.1 hr).2

theorem discarded : Conveys ⟨some coll, none, l⟩ D
    ⟨(t.key = ·), fun q p _ => t.key.destination = (q, p), []⟩
    ⟨some (coll.take (·.key == t.key)).1, none, l.cut t.key.toShard t.key.target⟩ := by
  refine of_groups rfl rfl (fun q p hl => ?_) (fun key r q p id hr hs hl => ?_) (fun c hb hend => ?_)
    (List.forall_mem_nil _)
  · by_cases he : q = t.key.toShard ∧ p = t.key.target
    · exact .inr fun _ => Prod.ext he.1.symm he.2.symm
    · exact .inl (by simpa [Layout.cut, he] using hl)
  · obtain ⟨s, hl⟩ := Option.isSome_iff_exists.1 hl
    obtain ⟨hne, hl⟩ := Layout.cut_eq_some.1 hl
    have hout : t.key.destination ≠ (q, p) := fun hd =>
      hne ⟨(Prod.mk.inj hd).1.symm, (Prod.mk.inj hd).2.symm⟩
    refine .inr ⟨by simp [hl], hout, fun t' ht' hd _ => ⟨t', mem_others ht' fun he => ?_, rfl⟩⟩
    exact hout (he ▸ hd)
  · refine hb.mono (fun t' ht' hk hrun => ⟨t', mem_others ht' fun he => ?_, rfl, rfl, hrun, rfl⟩)
      fun _ _ ho => by cases ho
    exact hend (he.symm.trans hk)

theorem replicaDropped (q : ShardId) (p : PeerId) : Conveys ⟨some coll, op, l⟩ D
    ⟨fun _ => False, fun q' p' _ => q' = q ∧ p' = p, []⟩ ⟨some coll, op, l.cut q p⟩ := by
  refine of_groups rfl rfl (fun q' p' hl => ?_) (fun key r q' p' id hr hs hl => ?_)
    (fun c hb _ => hb) (List.forall_mem_nil _)
  · by_cases he : q' = q ∧ p' = p
    · exact .inr fun _ => he
    · exact .inl (by simpa [Layout.cut, he] using hl)
  · obtain ⟨s, hl⟩ := Option.isSome_iff_exists.1 hl
    obtain ⟨hne, hl⟩ := Layout.cut_eq_some.1 hl
    exact .inr ⟨by simp [hl], hne, fun t ht _ _ => ⟨t, ht, rfl⟩⟩

theorem evicted (peer : PeerId) : Conveys ⟨some coll, op, l⟩ D
    ⟨fun k => ∃ t ∈ coll.transfers, t.key.involves peer = true ∧ t.key = k,
      fun q p _ => (p = peer ∧ (l q p).isSome) ∨
        ∃ t ∈ coll.transfers, t.key.source = peer ∧ t.key.target ≠ peer ∧ t.key.destination = (q, p),
      []⟩
    ⟨some (coll.take (·.key.involves peer)).1, op, l.evicted peer coll.transfers⟩ := by
  refine of_groups rfl rfl (fun q p hl => ?_) (fun key r q p id hr hs hl => ?_) (fun c hb hend => ?_)
    (List.forall_mem_nil _)
  · cases hx : l q p with
    | none => exact .inl rfl
    | some s =>
      refine .inr fun _ => ?_
      by_cases hp : p = peer
      · exact .inl ⟨hp, by simp [hx]⟩
      · by_cases hc : p = peer ∨ ∃ t ∈ coll.transfers, t.key.source = peer ∧ t.key.destination = (q, p)
        · obtain ⟨t, ht, hsource, hd⟩ := hc.resolve_left hp
          exact .inr ⟨t, ht, hsource, fun he => hp ((Prod.mk.inj hd).2.symm.trans he), hd⟩
        · rw [Layout.evicted_eq_some.2 ⟨hc, hx⟩] at hl
          cases hl
  · obtain ⟨s, hl⟩ := Option.isSome_iff_exists.1 hl
    obtain ⟨hstay, hl⟩ := Layout.evicted_eq_some.1 hl
    refine .inr ⟨by simp [hl], fun hw => ?_, fun t ht hd _ => ⟨t, List.mem_filter.2 ⟨ht, ?_⟩, rfl⟩⟩
    · obtain ⟨hp, -⟩ | ⟨t, ht, hsource, -, hd⟩ := hw
      · exact hstay (.inl hp)
      · exact hstay (.inr ⟨t, ht, hsource, hd⟩)
    · have hsource : t.key.source ≠ peer := fun he => hstay (.inr ⟨t, ht, he, hd⟩)
      have htarget : t.key.target ≠ peer := fun he =>
        hstay (.inl ((Prod.mk.inj hd).2.symm.trans he))
      simpa [TransferKey.involves] using ⟨hsource, htarget⟩
  · refine hb.mono (fun t ht hk hrun => ⟨t, List.mem_filter.2 ⟨ht, ?_⟩, rfl, rfl, hrun, rfl⟩)
      fun o r ho hr => ⟨o, ho, ?_⟩
    · cases hi : t.key.involves peer with
      | false => simp [hi]
      | true => exact absurd ⟨t, ht, hi, hk⟩ hend
    · have hr : coll.groups.get? o.key = some r := group_some.1 hr
      exact group_some.2 hr

end Conveys

/-- A transfer that an entry reports as done has been copied. -/
def Reports (F : Face) (D : Holdings) (name : String) (entry : Entry) : Prop :=
  ∀ t ∈ F.transfers, entry = .finishTransfer name t.key t.epoch → ∀ id, D.Passed t.key id

theorem Conveys.change {name : String} {epoch : UInt64} {entry : Entry} (hk : F.Keeps D) (htended : F.Tended)
    (hf : F.Fits) (hg : F.Orderly name entry) (hrep : F.Reports D name entry)
    (hc : Change name epoch entry F w F') (ha : F'.Apart) : F.Conveys D w F' := by
  cases hc with
  | foundAuto hm hp hh => exact found
  | foundCustom hm => exact found
  | deleted => exact deleted
  | keyAdded hm hkey hp hn hh => exact keyAdded htended hf hkey hn
  | keyDropped hr ho => exact keyDropped htended hf hr ho
  | @started coll l plan r r' hn ht hr hr' hl =>
    have hget := (Collection.router_eq_ok.1 hr).2
    obtain ⟨-, coll', x, hcoll', hx, hfits⟩ := hg.planned plan rfl hn
    obtain rfl := Option.some.inj hcoll'
    obtain rfl := Except.ok.inj (hr.symm.trans hx)
    have hi : r.Idle := hf.agrees.rests hget
    have ha' := ha plan.operation.key r' (group_some.2 (get?_insert_self _ _ _))
    exact started htended hf hk ht hget hr' hfits
      ((htended.even _ r (group_some.2 hget)).start hi hr' ha') epoch name
  | readCommitted hs hr hr' =>
    obtain ⟨hold, hnew⟩ := Router.commitRead_rings hr'
    exact committed htended hf hr (by simp [hs]) hold hnew _
  | writeCommitted hs hr hr' =>
    obtain ⟨hold, hnew⟩ := Router.commitWrite_rings hr'
    exact committed htended hf hr (by simp [hs]) hold hnew _
  | finishedUp hs hr hr' hd => exact finishedUp htended hf hr hs hr' hd
  | finishedDown hs hr hr' hd => exact finishedDown htended hf hr hs hr' hd
  | rolledBack hb => exact rollsBack htended hf hb
  | @replicated coll l t hm hq hs hd hkey =>
    exact replicated hf hk hm hq (TransferKey.checkAgainst_ok hkey) epoch name
  | @copied coll op l t ht hs hm hd =>
    obtain rfl := (hf.fit coll rfl).operation_none hf.agrees ht hm
    rw [Transfer.eraseP_key (hf.fit coll rfl).keys]
    exact copied (hrep t ht rfl) hd
  | @sliced coll op l t transfers next starts ht hs hm hn hw =>
    cases op with
    | none =>
      rw [(hf.idle.2 t ht).whole] at hm
      cases hm
    | some o =>
      rw [Transfer.eraseP_key (hf.fit coll rfl).keys] at hn
      exact sliced hf (hrep t ht rfl) hn hw
  | @discarded entry coll op l t he ht hm =>
    obtain rfl := (hf.fit coll rfl).operation_none hf.agrees ht hm
    exact discarded
  | @unclaimed coll l t reason ht hm =>
    rw [(hf.idle.2 t ht).whole] at hm
    cases hm
  | replicaDropped hu ho hl => exact replicaDropped _ _
  | stateSet hu hl ho hs => exact absurd rfl (hg.states _ _ _)
  | evicted ho hfree => exact evicted _

end Face
end ShardCluster
