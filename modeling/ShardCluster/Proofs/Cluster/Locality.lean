import ShardCluster.Proofs.Cluster.Confined
import ShardCluster.Proofs.Cluster.Stamps
import ShardCluster.Proofs.Cluster.Within
/-! Entries stay within their collection. What an entry comes to depends on the collection alone, it
changes nothing else, and so entries about different collections may change places. -/
namespace ShardCluster
open SortedMap

section
variable (keys : List TransferKey) (m n : UInt64)

theorem Transfer.restamped_restamped (t : Transfer) :
    (t.restamped keys m).restamped keys n = t.restamped keys n := by
  by_cases h : t.key ∈ keys <;> simp [Transfer.restamped, h]

theorem CopyRequest.restamped_restamped (x : CopyRequest) :
    (x.restamped keys m).restamped keys n = x.restamped keys n := by
  by_cases h : x.key ∈ keys <;> simp [CopyRequest.restamped, h]

theorem Collection.restamped_restamped (coll : Collection) :
    (coll.restamped keys m).restamped keys n = coll.restamped keys n := by
  simp [Collection.restamped, Transfer.restamped_restamped]

theorem Effects.restamped_restamped (e : Effects) :
    (e.restamped keys m).restamped keys n = e.restamped keys n := by
  simp [Effects.restamped, CopyRequest.restamped_restamped]

end

namespace Cluster
variable {c c' d d' c₁ c₂ : Cluster} {name name' : String} {entry entry' : Entry} {e e₁ e₂ : Effects}

/-- Clusters that have the peers, the positions on a ring and one collection in common. -/
structure Alike (name : String) (c d : Cluster) : Prop where
  peers : d.peers = c.peers
  ringPositions : d.ringPositions = c.ringPositions
  collection : d.collections.get? name = c.collections.get? name
  replicas : d.replicas.collections.get? name = c.replicas.collections.get? name
  operation : d.operations.get? name = c.operations.get? name

theorem Alike.refl (name : String) (c : Cluster) : Alike name c c := ⟨rfl, rfl, rfl, rfl, rfl⟩

theorem Alike.grafted (h : Alike name c d) : c.grafted d name d.epoch = d := by
  obtain ⟨peers, collections, ⟨home, replicas⟩, operations, epoch, ringPositions⟩ := d
  obtain ⟨hpeers, hpositions, hcoll, hreplicas, hop⟩ := h
  simp only at hpeers hpositions hcoll hreplicas hop
  simp [Cluster.grafted, ReplicaTable.grafted, put_get? _ _ hcoll.symm, put_get? _ _ hreplicas.symm,
    put_get? _ _ hop.symm, hpeers, hpositions]

/-- What an entry about the collection comes to in the one tells what it comes to in the other. -/
theorem Alike.apply (h : Alike name c d) (hs : c.Sound) (he : entry.collection? = some name) :
    d.apply entry = (fun x => ((x.1.restamped name entry.scheduled (d.epoch + entry.raise)).grafted d name
      (d.epoch + entry.raise), x.2.restamped entry.scheduled (d.epoch + entry.raise))) <$> c.apply entry := by
  have hgraft := apply_grafted c d name d.epoch hs he
  rwa [h.grafted] at hgraft

theorem snd_apply_of_alike (h : Alike name c d) (hs : c.Sound) (he : entry.collection? = some name)
    (hepoch : d.epoch = c.epoch) : Prod.snd <$> d.apply entry = Prod.snd <$> c.apply entry := by
  have hd := congrArg (Prod.snd <$> ·) (h.apply hs he)
  have hc := congrArg (Prod.snd <$> ·) ((Alike.refl name c).apply hs he)
  simp only [Functor.map_map, hepoch] at hd hc
  exact hd.trans hc.symm

/-- Outside of one collection everything stays. -/
structure Elsewhere (name : String) (c c' : Cluster) : Prop where
  peers : c'.peers = c.peers
  ringPositions : c'.ringPositions = c.ringPositions
  home : c'.replicas.home = c.replicas.home
  collection : ∀ n, n ≠ name → c'.collections.get? n = c.collections.get? n
  replicas : ∀ n, n ≠ name → c'.replicas.collections.get? n = c.replicas.collections.get? n
  operation : ∀ n, n ≠ name → c'.operations.get? n = c.operations.get? n

theorem Elsewhere.alike (h : Elsewhere name c c') (hn : name' ≠ name) : Alike name' c c' :=
  ⟨h.peers, h.ringPositions, h.collection _ hn, h.replicas _ hn, h.operation _ hn⟩

theorem elsewhere_of_apply (hc : Reached Planned c) (he : entry.collection? = some name)
    (h : c.apply entry = .ok (c', e)) : Elsewhere name c c' ∧ c'.epoch = c.epoch + entry.raise := by
  have hlocal := (Alike.refl name c).apply hc.sound he
  rw [h] at hlocal
  have hgraft := (Prod.mk.inj (Except.ok.inj hlocal)).1
  obtain ⟨hpeers, hpositions⟩ := apply_shared hc h he
  refine ⟨⟨hpeers, hpositions, congrArg (·.replicas.home) hgraft, fun n hn => ?_, fun n hn => ?_,
    fun n hn => ?_⟩, congrArg (·.epoch) hgraft⟩
  · exact (congrArg (·.collections.get? n) hgraft).trans (get?_put_of_ne _ _ _ hn)
  · exact (congrArg (·.replicas.collections.get? n) hgraft).trans (get?_put_of_ne _ _ _ hn)
  · exact (congrArg (·.operations.get? n) hgraft).trans (get?_put_of_ne _ _ _ hn)

/-- Entries about different collections change places, and only the epochs of what they schedule tell
which came first. -/
theorem swapped (hc : Reached Planned c) (he : entry.collection? = some name)
    (he' : entry'.collection? = some name') (hn : name' ≠ name)
    (h₁ : c.apply entry = .ok (c₁, e₁)) (h₂ : c.apply entry' = .ok (c₂, e₂)) :
    ∃ c₁₂ e₂' c₂₁ e₁', c₁.apply entry' = .ok (c₁₂, e₂') ∧ c₂.apply entry = .ok (c₂₁, e₁') ∧
      ∀ n, (c₁₂.restamped name entry.scheduled n).restamped name' entry'.scheduled n =
          (c₂₁.restamped name entry.scheduled n).restamped name' entry'.scheduled n ∧
        e₁'.restamped entry.scheduled n = e₁.restamped entry.scheduled n ∧
        e₂'.restamped entry'.scheduled n = e₂.restamped entry'.scheduled n := by
  obtain ⟨hout, hepoch⟩ := elsewhere_of_apply hc he h₁
  obtain ⟨hout', hepoch'⟩ := elsewhere_of_apply hc he' h₂
  have hlater := (hout.alike hn).apply hc.sound he'
  have hlater' := (hout'.alike hn.symm).apply hc.sound he
  rw [h₂] at hlater
  rw [h₁] at hlater'
  refine ⟨_, _, _, _, hlater, hlater', fun n => ⟨?_, Effects.restamped_restamped _ _ _ _,
    Effects.restamped_restamped _ _ _ _⟩⟩
  have hreplicas := put_comm _ _ hn hout.replicas hout'.replicas
  have hoperations := put_comm _ _ hn hout.operation hout'.operation
  have hepochs : c₁.epoch + entry'.raise = c₂.epoch + entry.raise := by
    rw [hepoch, hepoch', UInt64.add_assoc, UInt64.add_assoc, UInt64.add_comm entry.raise]
  simp only [restamped, grafted, ReplicaTable.grafted, Cluster.mk.injEq, ReplicaTable.mk.injEq]
  refine ⟨hout'.peers.trans hout.peers.symm, ext_get? fun k => ?_,
    ⟨hout.home.trans hout'.home.symm, hreplicas⟩, hoperations, hepochs,
    hout'.ringPositions.trans hout.ringPositions.symm⟩
  by_cases hk : k = name
  · subst hk
    simp [get?_update, get?_put, hn.symm, Collection.restamped_restamped, Function.comp_def]
  · by_cases hk' : k = name'
    · subst hk'
      simp [get?_update, get?_put, hn, Collection.restamped_restamped, Function.comp_def]
    · simp [get?_update, get?_put, hk, hk', hout.collection k hk, hout'.collection k hk']

/-- An entry keeps to the collection `name`, and one that concerns an operation to its group. -/
structure Local (c : Cluster) (name : String) (entry : Entry) : Prop where
  /-- Nothing but the collection and what all collections share decides on the answer. -/
  reads : ∀ d, Alike name c d → d.epoch = c.epoch → Prod.snd <$> d.apply entry = Prod.snd <$> c.apply entry
  writes : ∀ c' e, c.apply entry = .ok (c', e) → Elsewhere name c c' ∧ e.Within name
  group : ∀ key c' e, (c.face name).Concerns name key entry → c.apply entry = .ok (c', e) →
    (c.face name).Confined (c'.face name) key
  /-- Plans that are made for the cluster start as `group` needs it. -/
  plans : ∀ request policy now plan, c.plan name request policy now = .ok plan →
    (c.face name).Concerns name plan.operation.key (.startResharding plan)
  keeps : ∀ name' entry' c₁ e₁, name' ≠ name → entry'.collection? = some name' →
    c.apply entry = .ok (c₁, e₁) → ((∃ x, c₁.apply entry' = .ok x) ↔ ∃ x, c.apply entry' = .ok x)
  swaps : ∀ name' entry' c₁ e₁ c₂ e₂, name' ≠ name → entry'.collection? = some name' →
    c.apply entry = .ok (c₁, e₁) → c.apply entry' = .ok (c₂, e₂) →
    ∃ c₁₂ e₂' c₂₁ e₁', c₁.apply entry' = .ok (c₁₂, e₂') ∧ c₂.apply entry = .ok (c₂₁, e₁') ∧
      ∀ n, (c₁₂.restamped name entry.scheduled n).restamped name' entry'.scheduled n =
          (c₂₁.restamped name entry.scheduled n).restamped name' entry'.scheduled n ∧
        e₁'.restamped entry.scheduled n = e₁.restamped entry.scheduled n ∧
        e₂'.restamped entry'.scheduled n = e₂.restamped entry'.scheduled n

/-- In every state all entries about a collection keep to it. -/
theorem local_of_reached (hc : Reached Planned c) (he : entry.collection? = some name) :
    c.Local name entry where
  reads _ h hepoch := snd_apply_of_alike h hc.sound he hepoch
  writes _ _ h := ⟨(elsewhere_of_apply hc he h).1, apply_stays hc.sound he _ _ h⟩
  group _ _ _ hm h := confined_of_apply hc hm h
  plans _ _ _ _ hp := .start (plan_fits hp).1 (encloses_of_plan hc hp)
  keeps name' entry' c₁ e₁ hn he' h := by
    rw [((elsewhere_of_apply hc he h).1.alike hn).apply hc.sound he']
    cases c.apply entry' with
    | error err => simp
    | ok x => exact ⟨fun _ => ⟨_, rfl⟩, fun _ => ⟨_, rfl⟩⟩
  swaps _ _ _ _ _ _ hn he' h₁ h₂ := swapped hc he he' hn h₁ h₂

/-- Two groups of a collection, one of which is to grow, beside another collection. -/
def adjoining : Except Error (Cluster × Plan) := do
  let c ← replay 1 1 [.addPeer 1, .addPeer 2, .createCollection "lines" {} (.ofList [(0, [1])]),
    .createCollection "points" { method := .custom } .empty,
    .createShardKey "points" (.keyword "a") (.ofList [(0, [1])]),
    .createShardKey "points" (.keyword "b") (.ofList [(1, [1])])]
  return (c, ← c.plan "points" { direction := .up, key := some (.keyword "b") } .last .epoch)

/-- The entry that is about the other collection. -/
def replicating : Entry := .startTransfer "lines" { key := ⟨0, 0, 1, 2⟩, method := .wholeShard }

theorem local_adjoining : ∃ c plan c₁ e₁ c₁₂ e₂' c₂ e₂ c₂₁ e₁', adjoining = .ok (c, plan) ∧
    c.Local "points" (.startResharding plan) ∧
    c.apply (.startResharding plan) = .ok (c₁, e₁) ∧ c₁.apply replicating = .ok (c₁₂, e₂') ∧
    c.apply replicating = .ok (c₂, e₂) ∧ c₂.apply (.startResharding plan) = .ok (c₂₁, e₁') ∧
    (c.face "points").Confined (c₁.face "points") (some (.keyword "b")) ∧
    (c₁₂.restamped "points" (plan.transfers.map (·.key)) 0).restamped "lines" [⟨0, 0, 1, 2⟩] 0 =
      (c₂₁.restamped "points" (plan.transfers.map (·.key)) 0).restamped "lines" [⟨0, 0, 1, 2⟩] 0 := by
  have hlive : adjoining.toOption.map (fun x => (x.2.operation.key,
      (x.1.apply (.startResharding x.2)).toOption.map (fun _ => ()),
      (x.1.apply replicating).toOption.map (fun _ => ()))) =
      some (some (.keyword "b"), some (), some ()) := by decide +kernel
  obtain ⟨⟨_, _⟩, h, hlive⟩ := toOption_map_eq_some.1 hlive
  simp only [Prod.mk.injEq] at hlive
  obtain ⟨hkey, hstart, hother⟩ := hlive
  have hsteps := h
  simp only [adjoining, bind_eq_ok, pure_eq_ok, Prod.mk.injEq] at hsteps
  obtain ⟨c, hfound, plan, hplan, rfl, rfl⟩ := hsteps
  have hnew : Reached Planned (.new 1 1) := .new 1 1
  have hplain : Reached Planned c := hnew.applyAll (by simp [Planned]) hfound
  have hlocal : c.Local "points" (.startResharding plan) :=
    local_of_reached hplain (congrArg some (plan_fits hplan).1)
  obtain ⟨⟨c₁, e₁⟩, h₁, -⟩ := toOption_map_eq_some.1 hstart
  obtain ⟨⟨c₂, e₂⟩, h₂, -⟩ := toOption_map_eq_some.1 hother
  obtain ⟨c₁₂, e₂', c₂₁, e₁', h₁₂, h₂₁, hsame⟩ :=
    hlocal.swaps "lines" replicating _ _ _ _ (by decide) rfl h₁ h₂
  exact ⟨c, plan, c₁, e₁, c₁₂, e₂', c₂, e₂, c₂₁, e₁', h, hlocal, h₁, h₁₂, h₂, h₂₁,
    hkey ▸ hlocal.group _ _ _ (hlocal.plans _ _ _ _ hplan) h₁, (hsame 0).1⟩

/-- A plan that nobody made: it is about one group, and fills a shard of the other. -/
def straying : Plan where
  operation :=
    { collection := "points", direction := .down, peer := 1, shard := 2, key := some (.keyword "b") }
  transfers := [{ key := ⟨2, 0, 1, 1⟩, method := .slice }]

def strayed : Except Error (Cluster × Router × Cluster) := do
  let c ← replay 1 1 [.addPeer 1, .createCollection "points" { method := .custom } .empty,
    .createShardKey "points" (.keyword "a") (.ofList [(0, [1])]),
    .createShardKey "points" (.keyword "b") (.ofList [(1, [1]), (2, [1])])]
  let r ← c.router "points" (some (.keyword "a"))
  let (c', _) ← c.apply (.startResharding straying)
  return (c, r, c')

theorem straying_not_confined : ∃ c r c' e, strayed = .ok (c, r, c') ∧ Reached Planned c ∧
    c.apply (.startResharding straying) = .ok (c', e) ∧
    c.router "points" (some (.keyword "a")) = .ok r ∧ 0 ∈ r.shards ∧
    c.replicas.look "points" 0 1 = some .active ∧ c'.replicas.look "points" 0 1 = some .resharding ∧
    ¬ (c.face "points").Confined (c'.face "points") straying.operation.key := by
  have hlive : strayed.toOption.map (fun x => (x.2.1.shards.contains 0, x.1.replicas.look "points" 0 1,
      x.2.2.replicas.look "points" 0 1)) = some (true, some .active, some .resharding) := by decide +kernel
  obtain ⟨⟨_, _, _⟩, h, hlive⟩ := toOption_map_eq_some.1 hlive
  simp only [Prod.mk.injEq] at hlive
  obtain ⟨hin, hbefore, hafter⟩ := hlive
  have hsteps := h
  simp only [strayed, bind_eq_ok, pure_eq_ok, Prod.mk.injEq] at hsteps
  obtain ⟨c, hfound, r, hr, ⟨c', e⟩, happly, rfl, rfl, rfl⟩ := hsteps
  have hnew : Reached Planned (.new 1 1) := .new 1 1
  have hq : (0 : ShardId) ∈ r.shards := List.contains_iff_mem.1 hin
  refine ⟨c, r, c', e, h, hnew.applyAll (by simp [Planned]) hfound, happly, hr, hq, hbefore, hafter,
    fun hconf => ?_⟩
  obtain ⟨coll, hc, hr⟩ := router_eq_ok.1 hr
  have hsame : c'.replicas.look "points" 0 1 = c.replicas.look "points" 0 1 :=
    hconf.others (some (.keyword "a")) r (by decide) ⟨coll, hc, (Collection.router_eq_ok.1 hr).2⟩ 0 hq 1
  rw [hbefore, hafter] at hsame
  cases hsame

end Cluster
end ShardCluster
