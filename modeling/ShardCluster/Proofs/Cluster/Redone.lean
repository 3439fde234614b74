import ShardCluster.Proofs.Cluster.Change
import ShardCluster.Proofs.ReplicaTable.Batch
/-! Entries that touch one collection: the rest of the cluster is as it was. -/
namespace ShardCluster.Cluster
open SortedMap
variable {c c' : Cluster} {name : String} {coll : Collection} {op : Option Operation} {l : Layout}

def face (c : Cluster) (name : String) : Face :=
  ⟨c.collections.get? name, c.operations.get? name, c.replicas.look name⟩

/-- The three tables of a cluster agree on which collections there are. -/
structure Sound (c : Cluster) : Prop where
  registered : ∀ n, c.replicas.collections.contains n = c.collections.contains n
  named : ∀ n op, c.operations.get? n = some op → op.collection = n ∧ c.collections.contains n = true
  tidy : c.replicas.Tidy

/-- Nothing is kept under the name of a collection that does not exist. -/
theorem Sound.face_none (h : c.Sound) (hn : c.collections.get? name = none) :
    c.face name = ⟨none, none, .none⟩ := by
  have hreg := h.registered name
  simp only [SortedMap.contains, hn, Option.isSome_none, Option.isSome_eq_false_iff,
    Option.isNone_iff_eq_none] at hreg
  have hop : c.operations.get? name = none := by
    cases ho : c.operations.get? name with
    | none => rfl
    | some op => simpa [SortedMap.contains, hn] using (h.named name op ho).2
  simp only [face, hn, hop, Face.mk.injEq, true_and]
  funext q p
  simp [ReplicaTable.look, hreg, Layout.none]

/-- A replica belongs to a collection. -/
theorem Sound.collection_of_look (h : c.Sound) {q : ShardId} {p : PeerId} {s : ReplicaState}
    (hl : c.replicas.look name q p = some s) : ∃ coll, c.collections.get? name = some coll := by
  cases hn : c.collections.get? name with
  | some coll => exact ⟨coll, rfl⟩
  | none =>
    have hlook := congrArg (fun F : Face => F.look q p) (h.face_none hn)
    simp [face, hl, Layout.none] at hlook

/-- `c'` differs from `c` in one collection alone, of which it has what is given. -/
structure Redone (c c' : Cluster) (name : String) (coll : Collection) (op : Option Operation)
    (l : Layout) : Prop where
  peers : c'.peers = c.peers
  ringPositions : c'.ringPositions = c.ringPositions
  replicas : ReplicaTable.Redrawn c.replicas c'.replicas name l
  collection : ∀ n, c'.collections.get? n = if n = name then some coll else c.collections.get? n
  operation : ∀ n, c'.operations.get? n = if n = name then op else c.operations.get? n

theorem get?_same {α : Type} {m : SortedMap String α} {x : Option α} (h : m.get? name = x) (n : String) :
    m.get? n = if n = name then x else m.get? n := by
  by_cases hn : n = name <;> simp [hn, h]

theorem Redone.edit {replicas : ReplicaTable} {operations : SortedMap String Operation}
    (epoch : UInt64) (coll : Collection) (hr : ReplicaTable.Redrawn c.replicas replicas name l)
    (ho : ∀ n, operations.get? n = if n = name then op else c.operations.get? n) :
    Redone c { c with
      collections := c.collections.insert name coll, replicas, operations, epoch } name coll op l :=
  ⟨rfl, rfl, hr, fun n => get?_insert _ _ n _, ho⟩

namespace Redone
variable (h : Redone c c' name coll op l)
include h

theorem face : c'.face name = ⟨some coll, op, l⟩ := by
  simp [Cluster.face, h.collection, h.operation, h.replicas.look_eq]

theorem face_of_ne {n : String} (hn : n ≠ name) : c'.face n = c.face n := by
  simp [Cluster.face, h.collection, h.operation, h.replicas.look_of_ne hn, hn]

theorem sound (hs : c.Sound) (hk : c.collections.contains name = true)
    (ho : ∀ o, op = some o → o.collection = name) : c'.Sound where
  registered n := by
    rw [h.replicas.known, hs.registered]
    by_cases hn : n = name
    · subst hn
      simp [SortedMap.contains, h.collection, ← hk]
    · simp [SortedMap.contains, h.collection, hn]
  named n o hop := by
    rw [h.operation] at hop
    by_cases hn : n = name
    · subst hn
      rw [if_pos rfl] at hop
      exact ⟨ho o hop, by simp [SortedMap.contains, h.collection]⟩
    · rw [if_neg hn] at hop
      have hc := (hs.named n o hop).2
      exact ⟨(hs.named n o hop).1, by simpa [SortedMap.contains, h.collection, hn] using hc⟩
  tidy := h.replicas.tidy hs.tidy

end Redone

/-- The change `R` of one collection makes `c'` of `c`. The effects stay within the collection. -/
structure Touched (R : Face → Wake → Face → Prop) (raise : UInt64) (name : String) (c : Cluster)
    (e : Effects) (c' : Cluster) : Prop where
  redone : ∃ coll op l, Redone c c' name coll op l ∧ ∀ o, op = some o → o.collection = name
  epoch : c'.epoch = c.epoch + raise
  change : R (c.face name) (e.wake name) (c'.face name)
  within : ∀ n, n ≠ name → e.wake n = .still

theorem Redone.touched {R : Face → Wake → Face → Prop} {raise : UInt64} {e : Effects}
    (h : Redone c c' name coll op l) (hn : ∀ o, op = some o → o.collection = name)
    (he : c'.epoch = c.epoch + raise) (hw : ∀ n, n ≠ name → e.wake n = .still)
    (hr : R (c.face name) (e.wake name) ⟨some coll, op, l⟩) : Touched R raise name c e c' :=
  ⟨⟨coll, op, l, h, hn⟩, he, h.face ▸ hr, hw⟩

theorem collection_eq_ok : c.collection name = .ok coll ↔ c.collections.get? name = some coll := by
  unfold Cluster.collection
  cases c.collections.get? name <;> simp

theorem requireIdle_eq_ok {u : Unit} : c.requireIdle name = .ok u ↔ c.operations.get? name = none := by
  unfold Cluster.requireIdle Cluster.operation?
  cases c.operations.get? name <;> simp

theorem requireNoTransfer_eq_ok {u : Unit} :
    requireNoTransfer name coll = .ok u ↔ coll.transfers = [] := by
  unfold requireNoTransfer
  cases coll.transfers <;> simp

theorem router_eq_ok {key : Option ShardKey} {r : Router} : c.router name key = .ok r ↔
    ∃ coll, c.collections.get? name = some coll ∧ coll.router key = .ok r := by
  simp only [Cluster.router, bind_eq_ok, collection_eq_ok]

theorem setRouter_eq_ok {key : Option ShardKey} {r : Router} : c.setRouter name key r = .ok c' ↔
    ∃ coll, c.collections.get? name = some coll ∧ c.setCollection name (coll.setRouter key r) = c' := by
  simp only [Cluster.setRouter, bind_eq_ok, collection_eq_ok, pure_eq_ok]

theorem advance_eq_ok {a : Action} {key : Option ShardKey} : c.advance name a = .ok (c', key) ↔
    ∃ coll op next, c.collections.get? name = some coll ∧ c.operations.get? name = some op ∧
      Stage.next true (some op.stage) a = .ok next ∧
      { c with operations := c.operations.insert name { op with stage := next.getD op.stage } } = c' ∧
      op.key = key := by
  simp only [advance, bind_eq_ok, collection_eq_ok, stage?, operation?]
  constructor
  · intro h
    obtain ⟨coll, hc, next, hn, h⟩ := h
    cases ho : c.operations.get? name with
    | none => simp [ho, throw_eq_ok] at h
    | some op =>
      simp only [ho, pure_eq_ok, Prod.mk.injEq] at h
      obtain ⟨rfl, rfl⟩ := h
      refine ⟨coll, op, next, hc, rfl, by simpa [ho] using hn, ?_, rfl⟩
      cases next <;> rfl
  · intro h
    obtain ⟨coll, op, next, hc, ho, hn, rfl, rfl⟩ := h
    refine ⟨coll, hc, next, by simpa [ho] using hn, ?_⟩
    cases next <;> simp [ho, pure_eq_ok]

end Cluster

namespace Collection
variable {coll : Collection}

theorem router_eq_ok {key : Option ShardKey} {r : Router} : coll.router key = .ok r ↔
    coll.checkKey key = .ok () ∧ coll.groups.get? key = some r := by
  simp only [router, bind_eq_ok]
  constructor
  · intro h
    obtain ⟨_, hk, h⟩ := h
    refine ⟨hk, ?_⟩
    cases hg : coll.groups.get? key with
    | some r' => simpa [hg, pure_eq_ok] using h
    | none => cases key <;> simp [hg, throw_eq_ok] at h
  · intro h
    obtain ⟨hk, hg⟩ := h
    exact ⟨(), hk, by simp [hg, pure_eq_ok]⟩

theorem find_eq_ok {key : TransferKey} {t : Transfer} (h : coll.find key = .ok t) :
    t ∈ coll.transfers ∧ t.key = key := by
  unfold Collection.find at h
  cases hf : coll.transfers.find? (·.key == key) with
  | none => simp [hf] at h
  | some t' =>
    obtain rfl : t' = t := by simpa [hf] using h
    exact ⟨List.mem_of_find?_eq_some hf, by simpa using List.find?_some hf⟩

end Collection
end ShardCluster
