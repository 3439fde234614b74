import ShardCluster.Proofs.Cluster.Removals
/-! Nothing in a cluster refers to what does not exist, and no shard belongs to two groups. -/
namespace ShardCluster
open SortedMap

/-- The peers on which an entry puts replicas. -/
def Entry.Brings (entry : Entry) (p : PeerId) : Prop :=
  match entry with
  | .createCollection _ _ placement | .createShardKey _ _ placement =>
    ∃ q hosts, placement.get? q = some hosts ∧ p ∈ hosts
  | .startResharding plan => p = plan.operation.peer
  | .startTransfer _ t => p = t.key.target
  | _ => False

namespace Face

/-- The replicas and the operation of a collection are on such peers alone. -/
structure Peopled (P : PeerId → Prop) (F : Face) : Prop where
  look : ∀ q p, (F.look q p).isSome → P p
  operation : ∀ o, F.operation = some o → P o.peer

namespace Peopled
variable {P P' : PeerId → Prop} {F F' : Face} {w : Wake} {name : String} {epoch : UInt64} {entry : Entry}

theorem mono (h : F.Peopled P) (hP : ∀ p, P p → P' p) : F.Peopled P' :=
  ⟨fun q p hl => hP p (h.look q p hl), fun o ho => hP _ (h.operation o ho)⟩

theorem of_none {coll : Option Collection} : Peopled P ⟨coll, none, .none⟩ where
  look _ _ h := by cases h
  operation _ h := by cases h

theorem rollsBack (h : F.Peopled P) (hb : RollsBack F w F') : F'.Peopled P := by
  refine ⟨fun q p hl => h.look q p ?_, fun o ho => ?_⟩
  · by_contra hnone
    rw [hb.look_none (by simpa using hnone)] at hl
    cases hl
  · rw [hb.operation.2] at ho
    cases ho

/-- No replica is added. -/
theorem shrink {coll : Option Collection} {op op' : Option Operation} {l l' : Layout}
    (h : Peopled P ⟨some coll', op, l⟩) (hl : ∀ q p, (l' q p).isSome → (l q p).isSome)
    (ho : ∀ o', op' = some o' → ∃ o, op = some o ∧ o'.peer = o.peer) : Peopled P ⟨coll, op', l'⟩ where
  look q p hp := h.look q p (hl q p hp)
  operation o' ho' := by
    obtain ⟨o, hop, hpeer⟩ := ho o' ho'
    exact hpeer ▸ h.operation o hop

theorem placed {coll coll' : Option Collection} {op : Option Operation} {l : Layout}
    {placement : Placement} (h : Peopled P ⟨coll, op, l⟩)
    (hb : ∀ p q hosts, placement.get? q = some hosts → p ∈ hosts → P p) :
    Peopled P ⟨coll', op, l.placed placement⟩ where
  look q p hp := by
    by_cases hin : p ∈ (placement.get? q).getD []
    · cases hq : placement.get? q with
      | none => simp [hq] at hin
      | some hosts => exact hb p q hosts hq (by simpa [hq] using hin)
    · exact h.look q p (by simpa [Layout.placed, hin] using hp)
  operation := h.operation

theorem change (h : F.Peopled P) (hb : ∀ p, entry.Brings p → P p)
    (hc : Change name epoch entry F w F') : F'.Peopled P := by
  have hsame : ∀ {op : Option Operation}, ∀ o', op = some o' → ∃ o, op = some o ∧ o'.peer = o.peer :=
    fun o' ho' => ⟨o', ho', rfl⟩
  have hcut : ∀ {x : Option ReplicaState} {gone : Prop} [Decidable gone],
      (if gone then none else x).isSome → x.isSome := by
    intro x gone _ hx
    split at hx
    · cases hx
    · exact hx
  cases hc with
  | foundAuto => exact h.placed fun p q hosts hq hp => hb p ⟨q, hosts, hq, hp⟩
  | foundCustom => exact .of_none
  | deleted => exact .of_none
  | keyAdded => exact h.placed fun p q hosts hq hp => hb p ⟨q, hosts, hq, hp⟩
  | keyDropped => exact h.shrink (fun _ _ => hcut) hsame
  | @started coll l plan r r' hn ht hr hr' hl =>
    refine ⟨fun q p hp => ?_, fun o ho => ?_⟩
    · cases hd : plan.operation.direction with
      | up =>
        simp only [Layout.claimed, hd, Layout.put] at hp
        split at hp
        · rename_i he
          exact he.2 ▸ hb _ rfl
        · exact h.look q p hp
      | down =>
        simp only [Layout.claimed, hd, Layout.marked] at hp
        split at hp
        · rename_i hm
          obtain ⟨t, hin, hdest⟩ := List.mem_map.1 hm
          obtain ⟨rfl, rfl⟩ : t.key.toShard = q ∧ t.key.target = p := Prod.mk.inj hdest
          exact h.look _ _ (hl hd t hin)
        · exact h.look q p hp
    · obtain rfl := Option.some.inj ho
      exact hb _ rfl
  | readCommitted =>
    exact h.shrink (fun _ _ hp => hp) fun o' ho' => ⟨_, rfl, Option.some.inj ho' ▸ rfl⟩
  | writeCommitted =>
    exact h.shrink (fun _ _ hp => hp) fun o' ho' => ⟨_, rfl, Option.some.inj ho' ▸ rfl⟩
  | finishedUp =>
    exact h.shrink (fun q p hp => by rwa [Cluster.settled_isSome] at hp) fun _ ho => by cases ho
  | finishedDown =>
    refine h.shrink (fun q p hp => ?_) fun _ ho => by cases ho
    rw [← Cluster.settled_isSome]
    exact hcut hp
  | rolledBack hback => exact h.rollsBack hback
  | @replicated coll l t hm hq hs hd hk =>
    refine ⟨fun q p hp => ?_, fun _ ho => by cases ho⟩
    simp only [Layout.put] at hp
    split at hp
    · rename_i he
      exact he.2 ▸ hb _ rfl
    · exact h.look q p hp
  | @copied coll op l t ht hs hm hd =>
    refine h.shrink (fun q p hp => ?_) hsame
    simp only [Layout.put] at hp
    split at hp
    · rename_i he
      exact he.1 ▸ he.2 ▸ hd
    · exact hp
  | @sliced coll op l t transfers next starts ht hs hm hn hw =>
    refine h.shrink (fun _ _ hp => hp) fun o' ho' => ?_
    obtain ⟨o, ho, rfl⟩ := Option.map_eq_some_iff.1 ho'
    exact ⟨o, ho, by rw [Operation.settled_eq]⟩
  | discarded => exact h.shrink (fun _ _ => hcut) hsame
  | unclaimed => exact h
  | replicaDropped => exact h.shrink (fun _ _ => hcut) hsame
  | stateSet hu hl =>
    refine h.shrink (fun q p hp => ?_) hsame
    simp only [Layout.put] at hp
    split at hp
    · rename_i he
      rw [he.1, he.2, hl]
      rfl
    · exact hp
  | evicted => exact h.shrink (fun _ _ => hcut) hsame

theorem changes (h : F.Peopled P) (hb : ∀ p, entry.Brings p → P p)
    (hc : Changes name epoch entry F w F') : F'.Peopled P := by
  cases hc with
  | none => exact h
  | one hc => exact h.change hb hc
  | two hback hc => exact (h.rollsBack hback).change hb hc

end Peopled

end Face

namespace Cluster
open SortedMap
variable {c c' : Cluster} {name : String} {e : Effects} {entry : Entry} {p : PeerId}

/-- Replicas are placed on known peers. -/
theorem checkPlacement_known {l : List (ShardId × List PeerId)} {u : Unit}
    (h : c.checkPlacement l = .ok u) : ∀ x ∈ l, ∀ p ∈ x.2, c.peers.contains p = true := by
  induction l with
  | nil => simp
  | cons x rest ih =>
    obtain ⟨q, hosts⟩ := x
    simp only [checkPlacement, ite_eq_ok, error_eq_ok, and_false, false_or] at h
    obtain ⟨-, h⟩ := h
    cases hf : hosts.find? (fun p => !c.peers.contains p) with
    | some p => simp [hf] at h
    | none =>
      simp only [hf] at h
      refine List.forall_mem_cons.2 ⟨fun p hp => ?_, ih h⟩
      simpa using List.find?_eq_none.1 hf p hp

/-- An accepted entry puts replicas on known peers alone. -/
theorem apply_brings (h : c.apply entry = .ok (c', e)) (hb : entry.Brings p) :
    c.peers.contains p = true := by
  have hplaced : ∀ {placement : Placement} {u : Unit}, c.checkPlacement placement.entries = .ok u →
      (∃ q hosts, placement.get? q = some hosts ∧ p ∈ hosts) → c.peers.contains p = true := by
    intro placement u hcheck hx
    obtain ⟨q, hosts, hq, hp⟩ := hx
    exact checkPlacement_known hcheck (q, hosts) (mem_entries.2 hq) p hp
  cases entry with
  | createCollection name config placement =>
    obtain ⟨-, -, hcheck, -⟩ := createCollection_eq_ok.1 h
    exact hplaced hcheck hb
  | createShardKey name key placement =>
    obtain ⟨_, _, -, -, -, -, -, hcheck, -⟩ := createShardKey_eq_ok.1 h
    exact hplaced hcheck hb
  | startResharding plan =>
    obtain ⟨-, hp, -⟩ := startResharding_eq_ok.1 h
    exact (show p = plan.operation.peer from hb) ▸ hp
  | startTransfer name t =>
    obtain ⟨_, _, -, -, -, -, -, -, hp, -⟩ := startTransfer_eq_ok.1 h
    exact (show p = t.key.target from hb) ▸ hp
  | _ => exact hb.elim

/-- An entry about a collection leaves alone what the collections share. -/
theorem apply_shared (hc : Reached Planned c) (h : c.apply entry = .ok (c', e))
    (he : entry.collection? = some name) : c'.peers = c.peers ∧ c'.ringPositions = c.ringPositions := by
  have hs := hc.sound
  have hremoved : ∀ {event : TopologyEvent}, Removed c event e c' →
      (∀ p force, event ≠ .peerRemoved p force) →
      c'.peers = c.peers ∧ c'.ringPositions = c.ringPositions := fun hr hn =>
    ⟨SortedSet.ext_contains fun p => (hr.peers p).trans (and_iff_left fun force => hn p force),
      hr.ringPositions⟩
  have hkept : ∀ {n}, Kept n c c' → c'.peers = c.peers ∧ c'.ringPositions = c.ringPositions :=
    fun k => ⟨k.peers, k.ringPositions⟩
  cases entry with
  | addPeer => cases he
  | removePeer => cases he
  | createCollection =>
    obtain ⟨-, -, -, _, _, -, -, rfl, -⟩ := createCollection_eq_ok.1 h
    exact ⟨rfl, rfl⟩
  | deleteCollection => exact hremoved (deleteCollection_removed hc h) nofun
  | createShardKey => exact hkept (createShardKey_touched hs h).kept
  | deleteShardKey => exact hremoved (deleteShardKey_removed hc h) nofun
  | startResharding => exact hkept (startResharding_touched h).kept
  | commitRead => exact hkept (commitRead_touched hs h).kept
  | commitWrite => exact hkept (commitWrite_touched hs h).kept
  | finishResharding => exact hkept (finishResharding_touched h).kept
  | abortResharding => exact hkept (abortResharding_touched h).kept
  | startTransfer => exact hkept (startTransfer_touched h).kept
  | finishTransfer => exact hkept (finishTransfer_touched hs h).kept
  | failTransfer => exact hkept (failTransfer_touched hs h).kept
  | abortTransfer => exact hkept (abortTransfer_touched hs h).kept
  | dropReplica => exact hkept (dropReplica_touched hs h).kept
  | setReplicaState => exact hkept (setReplicaState_touched hs h).kept

/-- Only a removal takes a peer away. -/
theorem apply_peers (hc : Reached Planned c) (h : c.apply entry = .ok (c', e))
    (hn : ∀ force, entry ≠ .removePeer p force) (hp : c.peers.contains p = true) :
    c'.peers.contains p = true := by
  cases entry with
  | addPeer peer =>
    obtain ⟨-, rfl, -⟩ := addPeer_eq_ok.1 h
    exact SortedSet.contains_add.2 (.inr hp)
  | removePeer peer force =>
    refine ((removePeer_removed hc h).peers p).2 ⟨hp, fun force' he => ?_⟩
    obtain ⟨rfl, rfl⟩ := TopologyEvent.peerRemoved.inj he
    exact hn force rfl
  | _ => rwa [(apply_shared hc h rfl).1]

/-- Replicas and operations are on known peers. -/
theorem Reached.peopled (h : Reached Planned c) (n : String) :
    (c.face n).Peopled (c.peers.contains · = true) := by
  induction h generalizing n with
  | new home positions => exact .of_none
  | @step c c' entry e hc ha h ih =>
    have hc' := hc.step ha h
    have hafter := (ih n).changes (fun p hb => apply_brings h hb) ((apply_step hc.sound h).changes n)
    by_cases hr : ∃ peer force, entry = .removePeer peer force
    · obtain ⟨peer, force, rfl⟩ := hr
      have hgone := removePeer_removed hc h
      have hstays : ∀ p, c.peers.contains p = true → p ≠ peer → c'.peers.contains p = true := by
        intro p hp hne
        refine (hgone.peers p).2 ⟨hp, fun force he => hne ?_⟩
        exact (TopologyEvent.peerRemoved.inj he).1.symm
      refine ⟨fun q p hl => hstays p (hafter.look q p hl) fun he => ?_,
        fun o ho => hstays _ (hafter.operation o ho) fun he => ?_⟩
      · have hl : (c'.replicas.look n q p).isSome := hl
        have hnone := hgone.gone n q p (.inl he)
        rw [ReplicaTable.contains_eq, hl] at hnone
        cases hnone
      · exact ((hgone.operations n o).1 ho).2 (.inl he)
    · exact hafter.mono fun p hp => apply_peers hc h (fun force he => hr ⟨p, force, he⟩) hp

/-- All that parts of a cluster refer to is there, and every shard belongs to one group. -/
structure Linked (c : Cluster) : Prop where
  registered : ∀ n, c.replicas.collections.contains n = c.collections.contains n
  auto : ∀ n coll, c.collections.get? n = some coll → coll.config.method = .auto →
    ∀ key, coll.groups.contains key = true ↔ key = none
  custom : ∀ n coll, c.collections.get? n = some coll → coll.config.method = .custom →
    coll.groups.contains none = false
  filled : ∀ n key r, (c.face n).Group key r → (∃ q, r.old.ring.contains q = true) ∧
    ∀ new, r.new = some new → ∃ q, new.ring.contains q = true
  apart : ∀ n key r key' r', (c.face n).Group key r → (c.face n).Group key' r' → key ≠ key' →
    ∀ q ∈ r.shards, q ∉ r'.shards
  replicas : ∀ n q p, c.replicas.contains n q p = true → c.peers.contains p = true ∧
    ∃ key r, (c.face n).Group key r ∧ q ∈ r.shards
  operations : ∀ n op, c.operation? n = some op → op.collection = n ∧
    c.peers.contains op.peer = true ∧ ∃ r, (c.face n).Group op.key r
  transfers : ∀ n, ∀ t ∈ c.transfers n, c.peers.contains t.key.source = true ∧
    c.peers.contains t.key.target = true ∧ ∃ key r, (c.face n).Group key r ∧
      t.key.shard ∈ r.shards ∧ t.key.toShard ∈ r.shards ∧
      (t.resharding = true → ∃ op, c.operation? n = some op ∧ op.key = key)

/-- In every state nothing refers to what does not exist, and every shard belongs to one group. -/
theorem linked_of_reached (h : Reached Planned c) : c.Linked where
  registered := h.sound.registered
  auto n := (h.keyed n).auto
  custom n := (h.keyed n).custom
  filled n key r hg := (h.fits n).filled hg
  apart n key r key' r' hg hg' hne q hq hq' := hne ((h.fits n).apart hg hg' hq hq')
  replicas n q p hp := by
    rw [ReplicaTable.contains_eq] at hp
    obtain ⟨s, hs⟩ := Option.isSome_iff_exists.1 hp
    obtain ⟨coll, hcoll⟩ := h.sound.collection_of_look hs
    have hfits := h.fits n
    have hpeer := (h.peopled n).look q p hp
    rw [face, hcoll] at hfits ⊢
    exact ⟨hpeer, hfits.housed hp⟩
  operations n op ho := by
    obtain ⟨coll, r, hcoll, hr, -⟩ := (h.fits n).agrees.live op ho
    exact ⟨(h.sound.named n op ho).1, (h.peopled n).operation op ho, r, coll, hcoll,
      (Collection.router_eq_ok.1 hr).2⟩
  transfers n t ht := by
    obtain ⟨hsource, htarget, hgroup⟩ := (h.fits n).transfer (transfers_face c n ▸ ht)
    exact ⟨(h.peopled n).look _ _ hsource, (h.peopled n).look _ _ htarget, hgroup⟩

/-- Two groups with keys, of which one is given a new shard. -/
def shared : Except Error Cluster := do
  let c ← replay 1 1 [.addPeer 1, .addPeer 2,
    .createCollection "points" { method := .custom } .empty,
    .createShardKey "points" (.number 1) (.ofList [(0, [1])]),
    .createShardKey "points" (.number 2) (.ofList [(1, [2])])]
  let plan ← c.plan "points" { direction := .up, peer := some 2, key := some (.number 1) } .last .epoch
  c.applyAll [.startResharding plan]

theorem linked_shared : ∃ c, shared = .ok c ∧
    (c.transfers "points").map (·.key) = [⟨0, 2, 1, 2⟩] ∧ c.Linked := by
  have hrun : shared.toOption.map (fun c => (c.transfers "points").map (·.key)) =
      some [⟨0, 2, 1, 2⟩] := by decide +kernel
  cases h : shared with
  | error err =>
    rw [h] at hrun
    cases hrun
  | ok c =>
    rw [h] at hrun
    simp only [shared, bind_eq_ok] at h
    obtain ⟨c₀, hfound, plan, hplan, hstarted⟩ := h
    have hnew : Reached Planned (.new 1 1) := .new 1 1
    have hplain : Reached Planned c₀ := hnew.applyAll (by simp [Planned]) hfound
    exact ⟨c, rfl, Option.some.inj hrun, linked_of_reached (hplain.applyPlan hplan (by simp) hstarted)⟩

end Cluster
end ShardCluster
