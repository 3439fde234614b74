import ShardCluster.Proofs.ReplicaTable.Layout
/-! Changes of many replicas at once, as changes of the layout. -/
namespace ShardCluster
open ReplicaTable
variable {t t' : ReplicaTable} {name : String}

namespace Layout

@[simp] theorem marked_nil (l : Layout) (s : ReplicaState) : l.marked [] s = l := rfl

theorem marked_cons (l : Layout) (x : ShardId × PeerId) (rest : List (ShardId × PeerId))
    (s : ReplicaState) : (l.put x.1 x.2 s).marked rest s = l.marked (x :: rest) s := by
  funext q p
  obtain ⟨a, b⟩ := x
  by_cases h : (q, p) ∈ rest <;> by_cases hq : q = a ∧ p = b <;>
    simp [marked, put, h, hq]

end Layout

namespace ReplicaTable

/-- Give each of some replicas the same state. -/
def mark (t : ReplicaTable) (name : String) (s : ReplicaState) (l : List (ShardId × PeerId)) :
    Except Error ReplicaTable :=
  l.foldlM (fun t x => do
    let (t', _) ← t.setState name x.1 x.2 s
    return t') t

theorem mark_redrawn {s : ReplicaState} {l : List (ShardId × PeerId)} (h : t.mark name s l = .ok t') :
    Redrawn t t' name ((t.look name).marked l s) ∧ ∀ x ∈ l, ∃ old, t.look name x.1 x.2 = some old := by
  induction l generalizing t with
  | nil =>
    simp only [mark, List.foldlM_nil, pure_eq_ok] at h
    subst h
    exact ⟨Redrawn.refl t name, by simp⟩
  | cons x rest ih =>
    simp only [mark, List.foldlM_cons, bind_eq_ok, pure_eq_ok] at h
    obtain ⟨t₁, ⟨⟨t₂, old⟩, hset, rfl⟩, hrest⟩ := h
    obtain ⟨hold, hd⟩ := setState_redrawn hset
    obtain ⟨hd', hex⟩ := ih hrest
    rw [hd.look_eq, Layout.marked_cons] at hd'
    refine ⟨hd.trans hd', fun y hy => ?_⟩
    rcases List.mem_cons.1 hy with rfl | hy
    · exact ⟨old, hold⟩
    · obtain ⟨o, ho⟩ := hex y hy
      rw [hd.look_eq, Layout.put] at ho
      by_cases hyx : y.1 = x.1 ∧ y.2 = x.2
      · exact ⟨old, by rw [hyx.1, hyx.2]; exact hold⟩
      · exact ⟨o, by simpa [hyx] using ho⟩

theorem mark_ok (s : ReplicaState) {l : List (ShardId × PeerId)}
    (h : ∀ x ∈ l, ∃ old, t.look name x.1 x.2 = some old) : ∃ t', t.mark name s l = .ok t' := by
  have hstep := foldlM_ok (f := fun (t : ReplicaTable) (x : ShardId × PeerId) => do
      let (t', _) ← t.setState name x.1 x.2 s
      return t')
    (fun t' => ∀ x ∈ l, ∃ old, t'.look name x.1 x.2 = some old) h fun t₁ h₁ x hx => by
      obtain ⟨old, ho⟩ := h₁ x hx
      obtain ⟨t₂, h₂⟩ := setState_ok s ho
      refine ⟨t₂, by simp only [bind_eq_ok, pure_eq_ok]; exact ⟨_, h₂, rfl⟩, fun y hy => ?_⟩
      rw [(setState_redrawn h₂).2.look_eq, Layout.put]
      by_cases hyx : y.1 = x.1 ∧ y.2 = x.2
      · exact ⟨s, by simp [hyx]⟩
      · obtain ⟨o, ho⟩ := h₁ y hy
        exact ⟨o, by simpa [hyx] using ho⟩
  obtain ⟨t', h', -⟩ := hstep
  exact ⟨t', h'⟩

end ReplicaTable

namespace Cluster

theorem claimReplicas_down {op : Operation} (hd : op.direction = .down) (transfers : List Transfer) :
    claimReplicas t op transfers = t.mark op.collection .resharding (transfers.map (·.key.destination)) := by
  simp only [claimReplicas, hd, mark, List.foldlM_map, TransferKey.destination]

/-- The replicas that are being filled, among those of some shards. -/
theorem settleReplicas_eq_ok {shards : List ShardId} {l : List Replica} :
    settleReplicas t name shards = .ok (t', l) ↔
      ∃ all, t.replicas name = .ok all ∧
        l = all.filter (fun r => r.state == .resharding && shards.contains r.shard) ∧
        t.mark name .active (l.map (fun r => (r.shard, r.peer))) = .ok t' := by
  simp only [settleReplicas, bind_eq_ok, pure_eq_ok, Prod.mk.injEq, mark, List.foldlM_map]
  constructor
  · rintro ⟨all, ha, t₁, ht, rfl, rfl⟩
    exact ⟨all, ha, rfl, ht⟩
  · rintro ⟨all, ha, rfl, ht⟩
    exact ⟨all, ha, t', ht, rfl, rfl⟩

theorem settleReplicas_redrawn {shards : List ShardId} {l : List Replica}
    (h : settleReplicas t name shards = .ok (t', l)) :
    Redrawn t t' name ((t.look name).settled shards) ∧
      ∀ r, r ∈ l ↔ t.look name r.shard r.peer = some .resharding ∧ r.shard ∈ shards ∧
        r.state = .resharding := by
  obtain ⟨all, ha, rfl, ht⟩ := settleReplicas_eq_ok.1 h
  have hmem : ∀ r, r ∈ all.filter (fun r => r.state == .resharding && shards.contains r.shard) ↔
      t.look name r.shard r.peer = some .resharding ∧ r.shard ∈ shards ∧ r.state = .resharding := by
    intro r
    simp only [List.mem_filter, replicas_ok ha, Bool.and_eq_true, beq_iff_eq, List.contains_iff_mem]
    constructor
    · rintro ⟨hl, hs, hq⟩
      exact ⟨hs ▸ hl, hq, hs⟩
    · rintro ⟨hl, hq, hs⟩
      exact ⟨hs ▸ hl, hs, hq⟩
  refine ⟨(mark_redrawn ht).1.congr fun q p => ?_, hmem⟩
  have hiff : (q, p) ∈ (all.filter (fun r => r.state == .resharding && shards.contains r.shard)).map
      (fun r => (r.shard, r.peer)) ↔ t.look name q p = some .resharding ∧ q ∈ shards := by
    simp only [List.mem_map, Prod.mk.injEq, hmem]
    constructor
    · rintro ⟨r, ⟨hl, hq, -⟩, rfl, rfl⟩
      exact ⟨hl, hq⟩
    · rintro ⟨hl, hq⟩
      exact ⟨⟨q, p, .resharding⟩, ⟨hl, hq, rfl⟩, rfl, rfl⟩
  by_cases hc : t.look name q p = some .resharding ∧ q ∈ shards
  · rw [Layout.marked, if_pos (hiff.2 hc), Layout.settled, if_pos hc]
  · rw [Layout.marked, if_neg (fun hm => hc (hiff.1 hm)), Layout.settled, if_neg hc]

theorem settleReplicas_apart {shards : List ShardId} {l : List Replica}
    (h : settleReplicas t name shards = .ok (t', l)) :
    l.Pairwise (fun a b => ¬(a.shard = b.shard ∧ a.peer = b.peer)) := by
  obtain ⟨all, hall, rfl, -⟩ := settleReplicas_eq_ok.1 h
  simp only [ReplicaTable.replicas, bind_eq_ok, pure_eq_ok] at hall
  obtain ⟨m, -, rfl⟩ := hall
  exact (flatten_apart m).filter _

theorem settleReplicas_ok (h : t.collections.contains name = true) (shards : List ShardId) :
    ∃ t' l, settleReplicas t name shards = .ok (t', l) := by
  obtain ⟨all, ha⟩ : ∃ all, t.replicas name = .ok all := by
    obtain ⟨m, hm⟩ := SortedMap.contains_iff.1 h
    refine ⟨flatten m, ?_⟩
    simp only [ReplicaTable.replicas, bind_eq_ok, shardsOf_eq_ok, pure_eq_ok]
    exact ⟨m, hm, rfl⟩
  let filled := all.filter (fun r => r.state == .resharding && shards.contains r.shard)
  obtain ⟨t', ht⟩ : ∃ t', t.mark name .active (filled.map (fun r => (r.shard, r.peer))) = .ok t' := by
    apply mark_ok
    intro x hx
    obtain ⟨r, hr, rfl⟩ := List.mem_map.1 hx
    exact ⟨r.state, (replicas_ok ha).1 (List.mem_filter.1 hr).1⟩
  exact ⟨t', filled, settleReplicas_eq_ok.2 ⟨all, ha, rfl, ht⟩⟩

/-- The replicas of several shards, if each has one. -/
theorem replicasOf_ok {shards : List ShardId} {l : List Replica}
    (h : replicasOf t name shards = .ok l) :
    (∀ q ∈ shards, ∃ here, t.shardReplicas name q = .ok here) ∧
      ∀ r, r ∈ l ↔ r.shard ∈ shards ∧ t.look name r.shard r.peer = some r.state := by
  induction shards generalizing l with
  | nil =>
    obtain rfl : [] = l := by simpa [replicasOf] using h
    simp
  | cons q rest ih =>
    simp only [replicasOf, bind_eq_ok, pure_eq_ok] at h
    obtain ⟨here, hq, more, hm, rfl⟩ := h
    obtain ⟨hex, hmem⟩ := ih hm
    refine ⟨fun q' hq' => ?_, fun r => ?_⟩
    · rcases List.mem_cons.1 hq' with rfl | hq'
      · exact ⟨here, hq⟩
      · exact hex q' hq'
    · rw [List.mem_append, shardReplicas_ok hq, hmem, List.mem_cons]
      constructor
      · rintro (⟨rfl, hl⟩ | ⟨hr, hl⟩)
        · exact ⟨.inl rfl, hl⟩
        · exact ⟨.inr hr, hl⟩
      · rintro ⟨rfl | hr, hl⟩
        · exact .inl ⟨rfl, hl⟩
        · exact .inr ⟨hr, hl⟩

/-- They are listed once, as the shards are. -/
theorem replicasOf_apart {shards : List ShardId} {l : List Replica} (hn : shards.Nodup)
    (h : replicasOf t name shards = .ok l) :
    l.Pairwise (fun a b => ¬(a.shard = b.shard ∧ a.peer = b.peer)) := by
  induction shards generalizing l with
  | nil =>
    obtain rfl : [] = l := by simpa [replicasOf] using h
    exact .nil
  | cons q rest ih =>
    simp only [replicasOf, bind_eq_ok, pure_eq_ok] at h
    obtain ⟨here, hq, more, hm, rfl⟩ := h
    obtain ⟨hout, hrest⟩ := List.nodup_cons.1 hn
    refine List.pairwise_append.2 ⟨shardReplicas_apart hq, ih hrest hm, fun a ha b hb hab => hout ?_⟩
    rw [← ((shardReplicas_ok hq).1 ha).1, hab.1]
    exact (((replicasOf_ok hm).2 b).1 hb).1

theorem removeShards_redrawn {shards : List ShardId} {l : List Replica}
    (h : removeShards t name shards = .ok (t', l)) :
    Redrawn t t' name ((t.look name).without shards) ∧
      ∀ r, r ∈ l ↔ r.shard ∈ shards ∧ t.look name r.shard r.peer = some r.state := by
  induction shards generalizing t l with
  | nil =>
    obtain ⟨rfl, rfl⟩ : t = t' ∧ [] = l := by simpa [removeShards] using h
    exact ⟨(Redrawn.refl t name).congr fun q p => by simp [Layout.without], by simp⟩
  | cons q rest ih =>
    simp only [removeShards, bind_eq_ok, pure_eq_ok, Prod.mk.injEq] at h
    obtain ⟨⟨t₁, removed⟩, hr, ⟨t₂, more⟩, hm, rfl, rfl⟩ := h
    obtain ⟨hd, hmem⟩ := removeShard_redrawn hr
    obtain ⟨hd', hmem'⟩ := ih hm
    rw [hd.look_eq] at hd' hmem'
    refine ⟨(hd.trans hd').congr fun q' p => ?_, fun r => ?_⟩
    · by_cases hq : q' = q <;> by_cases hq' : q' ∈ rest <;> simp [Layout.without, hq, hq']
    · rw [List.mem_append, hmem, hmem', List.mem_cons]
      simp only [Layout.without, List.mem_singleton]
      constructor
      · rintro (⟨rfl, hl⟩ | ⟨hr, hl⟩)
        · exact ⟨.inl rfl, hl⟩
        · by_cases hq : r.shard = q
          · simp [hq] at hl
          · exact ⟨.inr hr, by simpa [hq] using hl⟩
      · rintro ⟨hr, hl⟩
        by_cases hq : r.shard = q
        · exact .inl ⟨hq, hl⟩
        · exact .inr ⟨hr.resolve_left hq, by simpa [hq] using hl⟩

/-- Removing replicas one by one, in whatever collections they are. -/
theorem removeReplicas_spec {l : List (String × ShardId × PeerId)}
    (h : removeReplicas t l = .ok t') :
    t'.home = t.home ∧ (t.Tidy → t'.Tidy) ∧
    (∀ n, t'.collections.contains n = t.collections.contains n) ∧
    ∀ n q p, t'.look n q p = if (n, q, p) ∈ l then none else t.look n q p := by
  induction l generalizing t with
  | nil =>
    obtain rfl : t = t' := by simpa [removeReplicas] using h
    simp
  | cons x rest ih =>
    obtain ⟨n₀, q₀, p₀⟩ := x
    simp only [removeReplicas, bind_eq_ok] at h
    obtain ⟨⟨t₁, old⟩, hr, h⟩ := h
    have hd := (remove_redrawn hr).2
    obtain ⟨hh, ht, hk, hl⟩ := ih h
    refine ⟨hh.trans hd.home, ht ∘ hd.tidy, fun n => (hk n).trans (hd.known n), fun n q p => ?_⟩
    rw [hl]
    by_cases hn : n = n₀
    · subst hn
      rw [hd.look_eq]
      by_cases hx : q = q₀ ∧ p = p₀ <;> by_cases hm : (n, q, p) ∈ rest <;>
        simp [Layout.cut, hx, hm]
    · rw [hd.look_of_ne hn]
      simp [hn]

/-- Distinct replicas that exist can be removed. -/
theorem removeReplicas_ok {l : List (String × ShardId × PeerId)} (hn : l.Nodup)
    (h : ∀ x ∈ l, (t.look x.1 x.2.1 x.2.2).isSome) : ∃ t', removeReplicas t l = .ok t' := by
  induction l generalizing t with
  | nil => exact ⟨t, rfl⟩
  | cons x rest ih =>
    obtain ⟨n, q, p⟩ := x
    obtain ⟨hfresh, hnodup⟩ := List.nodup_cons.1 hn
    obtain ⟨hhere, hlater⟩ := List.forall_mem_cons.1 h
    obtain ⟨old, hold⟩ := Option.isSome_iff_exists.1 hhere
    obtain ⟨t₁, hremove⟩ := remove_ok hold
    have hd := (remove_redrawn hremove).2
    obtain ⟨t', hrest⟩ := ih (t := t₁) hnodup fun y hy => by
      by_cases hname : y.1 = n
      · have hother : ¬(y.2.1 = q ∧ y.2.2 = p) := fun he =>
          hfresh (by rw [← hname, ← he.1, ← he.2]; exact hy)
        rw [hname, hd.look_eq, Layout.cut, if_neg hother, ← hname]
        exact hlater y hy
      · rw [hd.look_of_ne hname]
        exact hlater y hy
    refine ⟨t', ?_⟩
    simp only [removeReplicas, bind_eq_ok]
    exact ⟨_, hremove, hrest⟩

theorem removeShards_ok (h : t.collections.contains name = true) (shards : List ShardId) :
    ∃ t' l, removeShards t name shards = .ok (t', l) := by
  induction shards generalizing t with
  | nil => exact ⟨t, [], rfl⟩
  | cons q rest ih =>
    obtain ⟨t₁, removed, hremove⟩ := removeShard_ok h q
    obtain ⟨t', more, hrest⟩ := ih (t := t₁) (((removeShard_redrawn hremove).1.known name).trans h)
    refine ⟨t', removed ++ more, ?_⟩
    simp only [removeShards, bind_eq_ok, pure_eq_ok, Prod.mk.injEq]
    exact ⟨_, hremove, _, hrest, rfl, rfl⟩

/-- Active replicas on each of some peers. -/
theorem insertHosts_redrawn {q : ShardId} {hosts : List PeerId}
    (h : hosts.foldlM (fun t peer => t.insert name q peer .active) t = .ok t') :
    Redrawn t t' name (fun q' p => if q' = q ∧ p ∈ hosts then some .active else t.look name q' p) := by
  induction hosts generalizing t with
  | nil =>
    simp only [List.foldlM_nil, pure_eq_ok] at h
    subst h
    exact (Redrawn.refl t name).congr fun q p => by simp
  | cons p rest ih =>
    simp only [List.foldlM_cons, bind_eq_ok] at h
    obtain ⟨t₁, hi, h⟩ := h
    have hd := insert_redrawn hi
    refine (hd.trans (ih h)).congr fun q' p' => ?_
    rw [hd.look_eq]
    by_cases hq : q' = q <;> by_cases hp : p' = p <;> by_cases hr : p' ∈ rest <;>
      simp [Layout.put, hq, hp, hr]

/-- A collection that is known takes any placement. -/
theorem insertPlacement_ok (h : t.collections.contains name = true) (placement : Placement) :
    ∃ t', insertPlacement t name placement = .ok t' := by
  have hinsert : ∀ (q : ShardId) (hosts : List PeerId) (t : ReplicaTable),
      t.collections.contains name = true →
      ∃ t', hosts.foldlM (fun t peer => t.insert name q peer .active) t = .ok t' ∧
        t'.collections.contains name = true := by
    intro q hosts t ht
    refine foldlM_ok (fun t : ReplicaTable => t.collections.contains name = true) ht fun t₁ h₁ p _ => ?_
    obtain ⟨t₂, h₂⟩ := insert_ok h₁ q p .active
    exact ⟨t₂, h₂, ((insert_redrawn h₂).known name).trans h₁⟩
  obtain ⟨t', ht', -⟩ := foldlM_ok (l := placement.entries)
    (f := fun t e => e.2.foldlM (fun t peer => t.insert name e.1 peer .active) t)
    (fun t : ReplicaTable => t.collections.contains name = true) h fun t₁ h₁ e _ => hinsert e.1 e.2 t₁ h₁
  exact ⟨t', ht'⟩

theorem insertPlacement_redrawn {placement : Placement}
    (h : insertPlacement t name placement = .ok t') :
    Redrawn t t' name ((t.look name).placed placement) := by
  have hfold : ∀ (l : List (ShardId × List PeerId)) (t t' : ReplicaTable),
      l.foldlM (fun t e => e.2.foldlM (fun t peer => t.insert name e.1 peer .active) t) t = .ok t' →
      Redrawn t t' name (fun q p => if ∃ e ∈ l, e.1 = q ∧ p ∈ e.2 then some .active
        else t.look name q p) := by
    intro l
    induction l with
    | nil =>
      intro t t' h
      simp only [List.foldlM_nil, pure_eq_ok] at h
      subst h
      exact (Redrawn.refl t name).congr fun q p => by simp
    | cons e rest ih =>
      intro t t' h
      simp only [List.foldlM_cons, bind_eq_ok] at h
      obtain ⟨t₁, hi, h⟩ := h
      have hd := insertHosts_redrawn hi
      refine (hd.trans (ih t₁ t' h)).congr fun q p => ?_
      rw [hd.look_eq]
      have hcons : (∃ d ∈ e :: rest, d.1 = q ∧ p ∈ d.2) ↔
          (q = e.1 ∧ p ∈ e.2) ∨ ∃ d ∈ rest, d.1 = q ∧ p ∈ d.2 := by
        simp [eq_comm]
      simp only [hcons]
      by_cases he : q = e.1 ∧ p ∈ e.2 <;> by_cases hr : ∃ d ∈ rest, d.1 = q ∧ p ∈ d.2 <;>
        simp only [he, hr, and_self, or_self, true_or, or_true, if_true, if_false, ite_self]
  refine (hfold placement.entries t t' h).congr fun q p => ?_
  have hiff : (∃ e ∈ placement.entries, e.1 = q ∧ p ∈ e.2) ↔ p ∈ (placement.get? q).getD [] := by
    constructor
    · rintro ⟨⟨q', hosts⟩, hm, rfl, hp⟩
      simpa [SortedMap.mem_entries.1 hm] using hp
    · intro hp
      cases hg : placement.get? q with
      | none => simp [hg] at hp
      | some hosts => exact ⟨(q, hosts), SortedMap.mem_entries.2 hg, rfl, by simpa [hg] using hp⟩
  rw [Layout.placed]
  by_cases hc : p ∈ (placement.get? q).getD []
  · rw [if_pos hc, if_pos (hiff.2 hc)]
  · rw [if_neg hc, if_neg fun hx => hc (hiff.1 hx)]

end Cluster
end ShardCluster
