import ShardCluster.Proofs.Cluster.Resharding
/-! What the entries on transfers and on single replicas do to a collection. -/
namespace ShardCluster.Cluster
open SortedMap ReplicaTable
variable {c c' : Cluster} {name : String} {e : Effects}

theorem startTransfer_touched {t : Transfer} (h : c.startTransfer name t = .ok (c', e)) :
    Touched (Change name (c.epoch + 1) (.startTransfer name t)) 1 name c e c' := by
  obtain ⟨coll, table, hc, hidle, hm, hq, -, -, -, hs, hd, hk, hins, rfl, rfl⟩ := startTransfer_eq_ok.1 h
  have hdone := Redone.edit (c.epoch + 1) { coll with
      transfers := coll.transfers ++ [{ t with status := .running, epoch := c.epoch + 1 }] }
    (insert_redrawn hins) (get?_same hidle)
  have hspawned := Effects.wake_spawning name
    (e := { spawn := [⟨name, t.key, c.epoch + 1, none⟩] }) rfl rfl rfl (by simp)
  refine hdone.touched (fun o h => by cases h) rfl hspawned.2 ?_
  rw [hspawned.1, face, hc, hidle]
  exact .replicated hm hq hs (by simpa [contains_eq] using hd) hk

/-- After the last transfer of an operation its stage moves on. -/
theorem finishSlice_stage (coll : Collection) {starts : List CopyRequest}
    (h : (if (!coll.transfers.any (·.resharding) &&
        (c.setCollection name coll).stage? name == some .starting) = true then do
          let c₁ ← Prod.fst <$> (c.setCollection name coll).advance name .transfersFinished
          pure (c₁, ({ spawn := starts } : Effects))
        else pure (c.setCollection name coll, { spawn := starts })) = .ok (c', e)) :
    e = { spawn := starts } ∧ c'.epoch = c.epoch ∧
      Redone c c' name coll ((c.operations.get? name).map (·.settled coll.transfers))
        (c.replicas.look name) := by
  have hstage : (c.setCollection name coll).stage? name = (c.operations.get? name).map (·.stage) := rfl
  rw [hstage] at h
  by_cases hlast : ∃ op, c.operations.get? name = some op ∧
      coll.transfers.any (·.resharding) = false ∧ op.stage = .starting
  · obtain ⟨op, ho, hw, hs⟩ := hlast
    simp only [ho, hw, hs, Option.map_some, Bool.not_false, beq_self_eq_true, Bool.and_self, if_true,
      bind_eq_ok, map_eq_ok, pure_eq_ok, Prod.mk.injEq] at h
    obtain ⟨_, ⟨⟨c₂, key⟩, hadv, rfl⟩, rfl, rfl⟩ := h
    obtain ⟨_, op', next, -, ho', hn, rfl, -⟩ := advance_eq_ok.1 hadv
    obtain rfl := Option.some.inj (ho.symm.trans ho')
    obtain rfl : some .awaitingReadCommit = next := by simpa [Stage.next, hs] using hn
    have hset : op.settled coll.transfers = { op with stage := .awaitingReadCommit } := by
      rw [Operation.settled, if_pos ⟨hw, hs⟩]
    rw [ho, Option.map_some, hset]
    exact ⟨rfl, rfl, Redone.edit c.epoch coll (Redrawn.refl c.replicas name)
      fun n => get?_insert c.operations name n _⟩
  · have hcond : (!coll.transfers.any (·.resharding) &&
        (c.operations.get? name).map (·.stage) == some .starting) = false := by
      cases ho : c.operations.get? name with
      | none => simp
      | some op =>
        cases hw : coll.transfers.any (·.resharding) with
        | true => simp
        | false =>
          have hs : op.stage ≠ .starting := fun hs => hlast ⟨op, ho, hw, hs⟩
          simpa using hs
    have hset : (c.operations.get? name).map (·.settled coll.transfers) = c.operations.get? name := by
      cases ho : c.operations.get? name with
      | none => rfl
      | some op =>
        rw [Option.map_some, Operation.settled, if_neg fun hx => hlast ⟨op, ho, hx⟩]
    simp only [hcond, Bool.false_eq_true, if_false, pure_eq_ok, Prod.mk.injEq] at h
    obtain ⟨rfl, rfl⟩ := h
    rw [hset]
    exact ⟨rfl, rfl, Redone.edit c.epoch coll (Redrawn.refl c.replicas name) (get?_same rfl)⟩

/-- The end of a transfer that is part of an operation. -/
theorem finishSlice_redone {coll : Collection} {key : TransferKey}
    (h : c.finishSlice name coll key = .ok (c', e)) :
    ∃ starts, e = { spawn := starts } ∧ c'.epoch = c.epoch ∧
      ((release key.destination coll.transfers).2 = none ∧ starts = [] ∨
        ∃ t r, (release key.destination coll.transfers).2 = some t ∧
        coll.router ((c.operations.get? name).bind (·.key)) = .ok r ∧ starts = [copyOf name r t]) ∧
      Redone c c' name { coll with transfers := (release key.destination coll.transfers).1 }
        ((c.operations.get? name).map (·.settled (release key.destination coll.transfers).1))
        (c.replicas.look name) := by
  unfold finishSlice at h
  cases hn : (release key.destination coll.transfers).2 with
  | none =>
    simp only [hn, pure_bind] at h
    obtain ⟨he, hep, hd⟩ := finishSlice_stage { coll with transfers := (release key.destination coll.transfers).1 } h
    exact ⟨[], he, hep, .inl ⟨rfl, rfl⟩, hd⟩
  | some t =>
    simp only [hn, pure_bind] at h
    obtain ⟨r, hr, h⟩ := bind_eq_ok.1 h
    obtain ⟨he, hep, hd⟩ := finishSlice_stage { coll with transfers := (release key.destination coll.transfers).1 } h
    exact ⟨_, he, hep, .inr ⟨t, r, rfl, hr, rfl⟩, hd⟩

theorem finishTransfer_touched (hs : c.Sound) {key : TransferKey} {epoch : UInt64}
    (h : c.finishTransfer name key epoch = .ok (c', e)) :
    Touched (Change name (c.epoch + 1) (.finishTransfer name key epoch)) 0 name c e c' := by
  obtain ⟨coll, t, hc, hfind, rfl, hrun, hcase⟩ := finishTransfer_eq_ok.1 h
  obtain ⟨ht, rfl⟩ := Collection.find_eq_ok hfind
  obtain ⟨hdone, hother⟩ := Effects.wake_completed name { t with status := .finished }
  obtain ⟨hm, e₁, hslice, rfl⟩ | ⟨hm, table, old, hset, rfl, rfl⟩ := hcase
  · obtain ⟨starts, rfl, hep, hnext, hd⟩ := finishSlice_redone hslice
    have hstarts : ∀ x ∈ starts, x.collection = name := by
      obtain ⟨-, rfl⟩ | ⟨t', r, -, -, rfl⟩ := hnext <;> simp [copyOf]
    have hspawned := Effects.wake_spawning name (e := { spawn := starts }) rfl rfl rfl hstarts
    refine hd.touched ?_ (by simpa using hep) (fun n hn => ?_) ?_
    · intro o ho
      obtain ⟨o', ho', rfl⟩ := Option.map_eq_some_iff.1 ho
      have hcoll := (hs.named name o' ho').1
      unfold Operation.settled
      split <;> exact hcoll
    · rw [Effects.wake_append, hspawned.2 n hn, hother n hn, Wake.append_still]
    · have hw : (⟨fun _ => False, fun _ _ _ => False, starts⟩ : Wake) ++
          ⟨(t.key = ·), fun _ _ _ => False, []⟩ = ⟨(t.key = ·), fun _ _ _ => False, starts⟩ := by
        rw [Wake.append_def]
        exact Wake.congr (fun k => by simp) (fun q p id => by simp) (List.append_nil starts)
      rw [Effects.wake_append, hspawned.1, hdone, hw, face, hc]
      exact .sliced ht hrun hm rfl hnext
  · obtain ⟨hold, hdraw⟩ := setState_redrawn hset
    have hd := Redone.edit (c := c) c.epoch
      { coll with transfers := coll.transfers.eraseP (·.key == t.key) } hdraw (get?_same rfl)
    refine hd.touched (fun o ho => (hs.named name o ho).1) (UInt64.add_zero c.epoch).symm
      (fun n hn => hother n hn) ?_
    rw [hdone, face, hc]
    exact .copied ht hrun hm (Option.isSome_iff_exists.2 ⟨old, hold⟩)

/-- A whole-shard transfer goes, and the incomplete replica with it. -/
theorem discardTransfer_redone {coll : Collection} {key : TransferKey}
    (h : c.discardTransfer name coll key = .ok (c', e)) :
    e = { cleanup := [.drop (key.targetLocation name)] } ∧ c'.epoch = c.epoch ∧
      Redone c c' name (coll.take (·.key == key)).1 (c.operations.get? name)
        ((c.replicas.look name).cut key.toShard key.target) := by
  obtain ⟨table, old, hrem, rfl, rfl⟩ := discardTransfer_eq_ok.1 h
  exact ⟨rfl, rfl, Redone.edit c.epoch _ (remove_redrawn hrem).2 (get?_same rfl)⟩

theorem wake_discarding (name : String) (key : TransferKey) :
    (⟨[], [.drop (key.targetLocation name)], [], [], [], [], [], []⟩ : Effects).wake name =
      ⟨fun _ => False, fun q p _ => key.destination = (q, p), []⟩ ∧
    ∀ n, n ≠ name → (⟨[], [.drop (key.targetLocation name)], [], [], [], [], [], []⟩ :
      Effects).wake n = .still := by
  constructor
  · refine Wake.congr (fun k => by simp) (fun q p id => ?_) rfl
    simp only [TransferKey.targetLocation, TransferKey.destination, List.mem_singleton,
      Cleanup.drop.injEq, Location.mk.injEq, true_and, reduceCtorEq, false_and, exists_false, or_false,
      Prod.mk.injEq]
    constructor
    · intro h
      exact ⟨h.2.symm, h.1.symm⟩
    · intro h
      exact ⟨h.2.symm, h.1.symm⟩
  · intro n hn
    exact Wake.congr (fun k => by simp) (fun q p id => by simp [TransferKey.targetLocation, hn]) rfl

theorem failTransfer_touched (hs : c.Sound) {key : TransferKey} {epoch : UInt64} {reason : String}
    (h : c.failTransfer name key epoch reason = .ok (c', e)) :
    Touched (Change name (c.epoch + 1) (.failTransfer name key epoch reason)) 0 name c e c' := by
  obtain ⟨coll, t, e₁, hc, hfind, rfl, hcase⟩ := failTransfer_eq_ok.1 h
  obtain ⟨ht, rfl⟩ := Collection.find_eq_ok hfind
  obtain ⟨hdone, hother⟩ := Effects.wake_completed name { t with status := .failed }
  obtain ⟨hm, hroll, rfl⟩ | ⟨hm, hdisc, rfl⟩ := hcase
  · cases ho : c.operations.get? name with
    | none =>
      obtain ⟨rfl, rfl⟩ : c = c' ∧ {} = e₁ := by
        simpa using (rollBack_none ho _ _).symm.trans hroll
      have hd : Redone c c name coll none (c.replicas.look name) :=
        ⟨rfl, rfl, Redrawn.refl c.replicas name, get?_same hc, get?_same ho⟩
      refine hd.touched (fun o h => by cases h) (UInt64.add_zero c.epoch).symm (fun n hn => ?_) ?_
      · rw [Effects.wake_append, hother n hn, Effects.wake_still n rfl rfl rfl rfl, Wake.append_still]
      · rw [Effects.wake_append, hdone, Effects.wake_still name rfl rfl rfl rfl, Wake.still_append, face,
          hc, ho]
        exact .unclaimed ht hm
    | some op =>
      obtain ⟨⟨coll', op', l, hd, hop⟩, hep, hroll, hwithin⟩ := rollBack_touched ho hroll
      have hends : (e₁.wake name).ends t.key := hroll.ends hc ht hm
      refine ⟨⟨coll', op', l, hd, hop⟩, hep, ?_, fun n hn => ?_⟩
      · have hw : (({ e₁ with cancel := e₁.cancel.filter (· != (name, t.key)) } : Effects) ++
            ⟨[], [], [], [], [], [], [], [(name, { t with status := .failed })]⟩).wake name =
              e₁.wake name := by
          rw [Effects.wake_append, hdone, Wake.append_def]
          refine Wake.congr (fun k => ?_) (fun q p id => by simp [Effects.wake]) (List.append_nil _)
          by_cases hk : t.key = k
          · exact ⟨fun _ => hk ▸ hends, fun _ => .inr hk⟩
          · have hk' : ¬k = t.key := fun h => hk h.symm
            simp [Effects.wake, hk, hk']
        rw [hw]
        exact .rolledBack hroll
      · rw [Effects.wake_append, hother n hn, Wake.append_still, ← hwithin n hn]
        exact Wake.congr (fun k => by simp [hn]) (fun q p id => Iff.rfl) rfl
  · obtain ⟨rfl, hep, hd⟩ := discardTransfer_redone hdisc
    obtain ⟨hw, hwother⟩ := wake_discarding name t.key
    refine hd.touched (fun o ho => (hs.named name o ho).1) (by simpa using hep) (fun n hn => ?_) ?_
    · rw [Effects.wake_append, hwother n hn, hother n hn, Wake.append_still]
    · have hsum : (⟨fun _ => False, fun q p _ => t.key.destination = (q, p), []⟩ : Wake) ++
          ⟨(t.key = ·), fun _ _ _ => False, []⟩ =
            ⟨(t.key = ·), fun q p _ => t.key.destination = (q, p), []⟩ := by
        rw [Wake.append_def]
        exact Wake.congr (fun k => by simp) (fun q p id => by simp) rfl
      rw [Effects.wake_append, hw, hdone, hsum, face, hc]
      exact .discarded (.inl ⟨reason, rfl⟩) ht hm

theorem abortTransfer_touched (hs : c.Sound) {key : TransferKey}
    (h : c.abortTransfer name key = .ok (c', e)) :
    Touched (Change name (c.epoch + 1) (.abortTransfer name key)) 0 name c e c' := by
  obtain ⟨coll, t, e₁, hc, hfind, hm, hdisc, rfl⟩ := abortTransfer_eq_ok.1 h
  obtain ⟨ht, rfl⟩ := Collection.find_eq_ok hfind
  obtain ⟨rfl, hep, hd⟩ := discardTransfer_redone hdisc
  obtain ⟨hw, hwother⟩ := wake_discarding name t.key
  have hcancel : ∀ n, (⟨[(name, t.key)], [], [], [], [], [], [], []⟩ : Effects).wake n =
      if n = name then ⟨(t.key = ·), fun _ _ _ => False, []⟩ else .still := by
    intro n
    by_cases hn : n = name
    · rw [if_pos hn]
      exact Wake.congr (fun k => by simp [hn, eq_comm]) (fun q p id => by simp) rfl
    · rw [if_neg hn]
      exact Wake.congr (fun k => by simp [hn]) (fun q p id => by simp) rfl
  refine hd.touched (fun o ho => (hs.named name o ho).1) (by simpa using hep) (fun n hn => ?_) ?_
  · rw [Effects.wake_append, hwother n hn, hcancel n, if_neg hn, Wake.append_still]
  · have hsum : (⟨(t.key = ·), fun _ _ _ => False, []⟩ : Wake) ++
        ⟨fun _ => False, fun q p _ => t.key.destination = (q, p), []⟩ =
          ⟨(t.key = ·), fun q p _ => t.key.destination = (q, p), []⟩ := by
      rw [Wake.append_def]
      exact Wake.congr (fun k => by simp) (fun q p id => by simp) rfl
    rw [Effects.wake_append, hw, hcancel name, if_pos rfl, hsum, face, hc]
    exact .discarded (.inr rfl) ht hm

theorem transfers_eq {coll : Collection} (hc : c.collections.get? name = some coll) :
    c.transfers name = coll.transfers := by
  rw [Cluster.transfers, hc]

theorem requireUnused_ok {coll : Collection} (hc : c.collections.get? name = some coll) {q : ShardId}
    {p : PeerId} {u : Unit} (h : c.requireUnused name q p = .ok u) :
    (c.replicas.look name).Unused coll (c.operations.get? name) q p := by
  simp only [requireUnused, bind_eq_ok, state_eq_ok, operation?, transfers_eq hc] at h
  obtain ⟨state, hl, h⟩ := h
  have hfree : (coll.transfers.find? (fun t => (t.key.shard == q && t.key.source == p) ||
      t.key.destination == (q, p))) = none := by
    cases hf : coll.transfers.find? (fun t => (t.key.shard == q && t.key.source == p) ||
        t.key.destination == (q, p)) with
    | none => rfl
    | some t =>
      cases ho : c.operations.get? name <;>
        simp [ho, hf, throw_eq_ok, ite_eq_ok, bind_eq_ok] at h
  refine ⟨fun o ho => ?_, fun t ht => ?_⟩
  · rw [ho] at h
    by_cases hbusy : state = .resharding ∨ o.shard = q
    · simp [hbusy, throw_eq_ok, bind_eq_ok] at h
    · refine ⟨fun hr => hbusy (.inl ?_), fun hq => hbusy (.inr hq)⟩
      exact Option.some.inj (hl.symm.trans hr)
  · have hx := List.find?_eq_none.1 hfree t ht
    simpa using hx

theorem dropReplica_touched (hs : c.Sound) {q : ShardId} {p : PeerId}
    (h : c.dropReplica name q p = .ok (c', e)) :
    Touched (Change name (c.epoch + 1) (.dropReplica name q p)) 0 name c e c' := by
  obtain ⟨hu, l, table, old, hl, hlen, hrem, rfl, rfl⟩ := dropReplica_eq_ok.1 h
  obtain ⟨hold, hdraw⟩ := remove_redrawn hrem
  obtain ⟨coll, hc⟩ := hs.collection_of_look hold
  obtain ⟨other, hne, hother⟩ := exists_other hl (Option.isSome_iff_exists.2 ⟨_, hold⟩) hlen
  have hd : Redone c { c with replicas := table } name coll (c.operations.get? name)
      ((c.replicas.look name).cut q p) := ⟨rfl, rfl, hdraw, get?_same hc, get?_same rfl⟩
  refine hd.touched (fun o ho => (hs.named name o ho).1) (UInt64.add_zero c.epoch).symm
    (fun n hn => ?_) ?_
  · exact Wake.congr (fun k => by simp) (fun q p id => by simp [hn]) rfl
  · have hw : (⟨[], [.drop ⟨name, p, q⟩], [], [], [], [], [], []⟩ : Effects).wake name =
        ⟨fun _ => False, fun q' p' _ => q' = q ∧ p' = p, []⟩ :=
      Wake.congr (fun k => by simp) (fun q p id => by simp [and_comm]) rfl
    rw [hw, face, hc]
    exact .replicaDropped (requireUnused_ok hc hu) hne hother

theorem setReplicaState_touched (hs : c.Sound) {q : ShardId} {p : PeerId} {state : ReplicaState}
    (h : c.setReplicaState name q p state = .ok (c', e)) :
    Touched (Change name (c.epoch + 1) (.setReplicaState name q p state)) 0 name c e c' := by
  obtain ⟨hstate, hu, old, table, _, hold, hne, hset, rfl, rfl⟩ := setReplicaState_eq_ok.1 h
  obtain ⟨coll, hc⟩ := hs.collection_of_look hold
  have hd : Redone c { c with replicas := table } name coll (c.operations.get? name)
      ((c.replicas.look name).put q p state) :=
    ⟨rfl, rfl, (setState_redrawn hset).2, get?_same hc, get?_same rfl⟩
  refine hd.touched (fun o ho => (hs.named name o ho).1) (UInt64.add_zero c.epoch).symm
    (fun n _ => Effects.wake_still n rfl rfl rfl rfl) ?_
  rw [Effects.wake_still name rfl rfl rfl rfl, face, hc]
  exact .stateSet (requireUnused_ok hc hu) hold hne hstate

end ShardCluster.Cluster
