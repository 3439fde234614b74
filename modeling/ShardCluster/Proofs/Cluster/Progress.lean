import ShardCluster.Proofs.Cluster.Forward
import ShardCluster.Proofs.Cluster.PlanStart
import ShardCluster.Proofs.Cluster.Queue
/-! An operation can always go on. One of its transfers runs until the last one is done, and then the
commits and the end follow, so that a plan can be carried through from its start. -/
namespace ShardCluster
open SortedMap

/-- How many steps an operation has ahead of it once no transfer is left, counting the last one of
those as a step. -/
def Stage.left : Stage → Nat
  | starting => 3
  | awaitingReadCommit => 2
  | awaitingWriteCommit => 1
  | awaitingFinish => 0

/-- An operation takes no replica away at its start. -/
theorem Layout.claimed_isSome {l : Layout} {op : Operation} {transfers : List Transfer} {q : ShardId}
    {p : PeerId} (h : (l q p).isSome) : (l.claimed op transfers q p).isSome := by
  unfold claimed
  cases op.direction with
  | up =>
    dsimp only [put]
    split
    · rfl
    · exact h
  | down =>
    dsimp only [marked]
    split
    · rfl
    · exact h

theorem Collection.find_mem {coll : Collection} (hk : (coll.transfers.map (·.key)).Nodup) {t : Transfer}
    (ht : t ∈ coll.transfers) : coll.find t.key = .ok t := by
  unfold Collection.find
  cases hx : coll.transfers.find? (·.key == t.key) with
  | none =>
    have hnone := List.find?_eq_none.1 hx t ht
    simp at hnone
  | some t' =>
    have hkey : t'.key = t.key := by simpa using List.find?_some hx
    rw [List.inj_on_of_nodup_map hk (List.mem_of_find?_eq_some hx) ht hkey]

namespace Cluster
open Transfer
variable {c c' c'' : Cluster} {name : String} {coll : Collection} {op : Operation} {e : Effects}
  {request : ReshardingRequest} {policy : RemovalPolicy} {now : Timestamp} {plan : Plan}

/-- The cluster where an operation has these transfers left. -/
def carrying (c : Cluster) (name : String) (coll : Collection) (op : Operation) (l : List Transfer) :
    Cluster :=
  { c with
    collections := c.collections.insert name { coll with transfers := l }
    operations := c.operations.insert name (op.settled l) }

/-- The end of a transfer of an operation cannot fail. The next one into its replica is asked for, and
after the last one the stage moves on. -/
theorem finishSlice_eq (ho : c.operations.get? name = some op) {r : Router}
    (hr : coll.router op.key = .ok r) (key : TransferKey) :
    c.finishSlice name coll key =
      .ok (c.carrying name coll op (release key.destination coll.transfers).1,
        { spawn := (release key.destination coll.transfers).2.toList.map (copyOf name r) }) := by
  have hkey : (c.operation? name).bind (·.key) = op.key := by rw [operation?, ho, Option.bind_some]
  have hstage : ∀ (l : List Transfer) (spawn : List CopyRequest),
      (if (!l.any (·.resharding) &&
          (c.setCollection name { coll with transfers := l }).stage? name == some .starting) = true then do
        let c₁ ← Prod.fst <$> (c.setCollection name { coll with transfers := l }).advance name
          .transfersFinished
        pure (c₁, ({ spawn } : Effects))
      else pure (c.setCollection name { coll with transfers := l }, { spawn })) =
        .ok (c.carrying name coll op l, { spawn }) := by
    intro l spawn
    have hop : (c.setCollection name { coll with transfers := l }).stage? name = some op.stage := by
      simp [stage?, operation?, setCollection, ho]
    by_cases hlast : l.any (·.resharding) = false ∧ op.stage = .starting
    · have hadv : (c.setCollection name { coll with transfers := l }).advance name
          .transfersFinished = .ok (c.carrying name coll op l, op.key) := by
        refine advance_eq_ok.2 ⟨{ coll with transfers := l }, op, some .awaitingReadCommit,
          get?_insert_self _ _ _, ho, by rw [hlast.2]; rfl, ?_, rfl⟩
        rw [carrying, Operation.settled, if_pos hlast]
        rfl
      rw [if_pos (by simp [hop, hlast.1, hlast.2]), hadv]
      rfl
    · have hsame : c.operations.insert name (op.settled l) = c.operations := by
        rw [Operation.settled, if_neg hlast, insert_of_get? ho]
      rw [if_neg (by simpa [hop] using hlast), carrying, hsame]
      rfl
  unfold finishSlice
  obtain ⟨l, next⟩ := release key.destination coll.transfers
  cases next with
  | none => exact hstage l []
  | some t =>
    have hr' : Collection.router { coll with transfers := l } op.key = .ok r := hr
    simp only [hkey, hr']
    exact hstage l [copyOf name r t]

/-- A report of a running transfer of a live operation is accepted, and lets the next one in. -/
theorem finishTransfer_eq (hf : (c.face name).Fits) (hc : c.collections.get? name = some coll)
    (ho : c.operations.get? name = some op) {r : Router} (hr : coll.router op.key = .ok r)
    {t : Transfer} (ht : t ∈ coll.transfers) (hrun : t.status = .running) :
    c.apply (.finishTransfer name t.key t.epoch) =
      .ok (c.carrying name coll op (release t.key.destination
          (coll.transfers.filter (fun t' => !(t'.key == t.key)))).1,
        { spawn := (release t.key.destination
            (coll.transfers.filter (fun t' => !(t'.key == t.key)))).2.toList.map (copyOf name r),
          completed := [(name, { t with status := .finished })] }) := by
  rw [face, hc, ho] at hf
  have hfit := hf.fit coll rfl
  have hm : t.resharding = true := hfit.slices hr t ht
  rw [← Transfer.eraseP_key hfit.keys t.key]
  have hr' : Collection.router { coll with transfers := coll.transfers.eraseP (·.key == t.key) } op.key =
      .ok r := hr
  have hslice := finishSlice_eq ho hr' t.key
  refine finishTransfer_eq_ok.2 ⟨coll, t, hc, Collection.find_mem hfit.keys ht, rfl, hrun,
    .inl ⟨hm, _, hslice, ?_⟩⟩
  simp only [Effects.append_def, Effects.append, List.append_nil, List.nil_append]

/-- Either commit leaves an operation with one step less to go. -/
theorem commit_left (ho : c.operations.get? name = some op) {a : Action} {s : Stage}
    {f : Router → Except Error Router} (hn : Stage.next true (some op.stage) a = .ok (some s))
    (hless : s.left < op.stage.left)
    (h : c.commit name a f = .ok (c', e)) :
    ∃ op', c'.operations.get? name = some op' ∧ c'.replicas.look name = c.replicas.look name ∧
      (c'.transfers name).length + op'.stage.left < (c.transfers name).length + op.stage.left := by
  obtain ⟨coll, op', next, r, r', hface, hn', -, -, -, -, hd⟩ := commit_redone h
  obtain rfl := Option.some.inj (ho.symm.trans (congrArg Face.operation hface))
  obtain rfl : some s = next := Except.ok.inj (hn.symm.trans hn')
  have hc : c.collections.get? name = some coll := congrArg Face.collection hface
  have hc' : c'.collections.get? name = some (coll.setRouter op.key r') := congrArg Face.collection hd.face
  refine ⟨_, congrArg Face.operation hd.face, congrArg Face.look hd.face, ?_⟩
  rw [transfers_eq hc, transfers_eq hc']
  exact Nat.add_lt_add_left hless _

/-- An operation that is not yet at its end goes a step towards it, and no replica changes by that. -/
theorem advance_exists (h : Reached Planned c) (ho : c.operations.get? name = some op)
    (hstage : op.stage ≠ .awaitingFinish) : ∃ entry c' e op', entry.Advances name ∧
      c.apply entry = .ok (c', e) ∧ c'.operations.get? name = some op' ∧
      c'.replicas.look name = c.replicas.look name ∧
      (c'.transfers name).length + op'.stage.left < (c.transfers name).length + op.stage.left := by
  have hf := h.fits name
  cases hs : op.stage with
  | starting =>
    obtain ⟨coll, -, hc, -⟩ := hf.agrees.live op ho
    have hc : c.collections.get? name = some coll := hc
    have hlive := hf
    have hqueued := h.queued name
    rw [face, hc, ho] at hlive hqueued
    obtain ⟨r, hr, -, -, -, -, hany⟩ := hlive.live
    obtain ⟨t₀, hin⟩ := List.exists_mem_of_ne_nil _ (hany.2 hs)
    obtain ⟨t, ht, -, hrun⟩ := hqueued.running t₀ hin
    have hx := finishTransfer_eq hf hc ho hr ht hrun
    refine ⟨_, _, _, _, .finished t.key t.epoch, hx, get?_insert_self _ _ _, rfl, ?_⟩
    have hc' := get?_insert_self c.collections name { coll with
      transfers := (release t.key.destination (coll.transfers.filter (fun t' => !(t'.key == t.key)))).1 }
    have hfewer : (coll.transfers.filter (fun t' => !(t'.key == t.key))).length <
        coll.transfers.length := by
      refine List.length_filter_lt_length_iff_exists.2 ⟨t, ht, by simp⟩
    have hleft : ∀ l, (op.settled l).stage.left ≤ op.stage.left := by
      intro l
      unfold Operation.settled
      split
      · rw [hs]
        exact (by decide : Stage.awaitingReadCommit.left ≤ Stage.starting.left)
      · exact Nat.le_refl _
    have hlength := congrArg List.length (keys_release (d := t.key.destination)
      (l := coll.transfers.filter (fun t' => !(t'.key == t.key))))
    simp only [List.length_map] at hlength
    rw [transfers_eq hc, transfers_eq (c := c.carrying name coll op _) hc', hlength, ← hs]
    exact Nat.add_lt_add_of_lt_of_le hfewer (hleft _)
  | awaitingReadCommit =>
    obtain ⟨c', e, hx⟩ := commitRead_ok hf.agrees ho hs
    obtain ⟨op', hleft⟩ := commit_left ho (a := .commitRead)
      (s := .awaitingWriteCommit) (by rw [hs]; rfl) (by rw [hs]; decide) hx
    exact ⟨_, c', e, op', .read, hx, hs ▸ hleft⟩
  | awaitingWriteCommit =>
    obtain ⟨c', e, hx⟩ := commitWrite_ok hf.agrees ho hs
    obtain ⟨op', hleft⟩ := commit_left ho (a := .commitWrite)
      (s := .awaitingFinish) (by rw [hs]; rfl) (by rw [hs]; decide) hx
    exact ⟨_, c', e, op', .write, hx, hs ▸ hleft⟩
  | awaitingFinish => exact absurd hs hstage

theorem Runs.trans {allowed : Entry → Prop} (h : Runs name allowed c c') (h' : Runs name allowed c' c'') :
    Runs name allowed c c'' := by
  induction h' with
  | refl => exact h
  | step _ ha hx ho ih => exact ih.step ha hx ho

theorem planned_of_advances {entry : Entry} (h : entry.Advances name) : c.Planned entry := by
  intro plan he
  subst he
  cases h

/-- From where its old shards have replicas, an operation can be carried through to its end. -/
theorem end_exists (h : Reached Planned c) (ho : c.operations.get? name = some op)
    {key : Option ShardKey} {old : VersionedRing} (hh : (c.face name).Holds key old)
    (hsrc : ∀ q, old.ring.contains q = true → ∃ p, (c.replicas.look name q p).isSome) :
    ∃ c' c'' e, Runs name (Entry.Advances name) c c' ∧
      c'.apply (.finishResharding name) = .ok (c'', e) := by
  induction hn : (c.transfers name).length + op.stage.left using Nat.strongRecOn
    generalizing c op with
  | ind n ih =>
    by_cases hstage : op.stage = .awaitingFinish
    · obtain ⟨⟨c', e, hx⟩, -⟩ | ⟨-, r, q, hr, hq, hbare, -⟩ :=
        finishResharding_cases h.sound (h.fits name).agrees ho hstage
      · exact ⟨c, c', e, .refl, hx⟩
      · obtain ⟨rfl, coll, x, hc, hx, rfl⟩ := hh op ho
        obtain ⟨_, hc', hr⟩ := router_eq_ok.1 hr
        obtain rfl := Option.some.inj (hc.symm.trans hc')
        obtain rfl := Except.ok.inj (hx.symm.trans hr)
        obtain ⟨p, hp⟩ := hsrc q hq
        simp [hbare p] at hp
    · obtain ⟨entry, c₁, e, op₁, ha, hx, ho₁, hl, hless⟩ := advance_exists h ho hstage
      have htouched := advances_touched h.sound ha hx
      have hno := not_started (Option.isSome_iff_exists.2 ⟨op, ho⟩) hx
      obtain ⟨c', c'', e', hruns, hend⟩ := ih _ (hn ▸ hless) (h.step (planned_of_advances ha) hx) ho₁
        (hh.change hno htouched.change) (by rwa [hl]) rfl
      have hfirst : Runs name (Entry.Advances name) c c₁ :=
        Runs.refl.step ha hx (Option.isSome_iff_exists.2 ⟨op₁, ho₁⟩)
      exact ⟨c', c'', e', hfirst.trans hruns, hend⟩

/-- An operation is started by its plan and goes on to its end, and nothing else is done. -/
def Completes (name : String) (plan : Plan) (c c' : Cluster) : Prop :=
  ∃ c₁ e₁ c₂ e₂, c.apply (.startResharding plan) = .ok (c₁, e₁) ∧
    Runs name (Entry.Advances name) c₁ c₂ ∧ c₂.apply (.finishResharding name) = .ok (c', e₂)

/-- Every plan can be carried through. -/
theorem completes_of_planned (h : Reached Planned c) (hp : c.plan name request policy now = .ok plan) :
    ∃ c', Completes name plan c c' := by
  obtain ⟨coll, r, r', c₁, e₁, b, ha, hr', ho⟩ := opened_of_plan h hp
  have h₁ : Reached Planned c₁ := h.step (planned_of_plan hp) ho.accepted
  have hop : c₁.operations.get? name = some { plan.operation with stage := .starting } :=
    congrArg Face.operation ho.face
  have hlook : c₁.replicas.look name = (c.replicas.look name).claimed plan.operation plan.transfers :=
    congrArg Face.look ho.face
  have hh : (c₁.face name).Holds plan.operation.key r.old := by
    rw [ho.face]
    intro o hop
    obtain rfl := Option.some.inj hop
    exact ⟨rfl, _, r', rfl, Face.Agrees.router_setRouter b.router r', Router.start_old hr'⟩
  have hsrc : ∀ q, r.old.ring.contains q = true → ∃ p, (c₁.replicas.look name q p).isSome := by
    intro q hq
    obtain ⟨p, hp⟩ := b.hosted (b.rest.mem_shards.2 hq)
    exact ⟨p, by rw [hlook, Layout.claimed_isSome (by simp [hp])]⟩
  obtain ⟨c₂, c', e₂, hruns, hend⟩ := end_exists h₁ hop hh hsrc
  exact ⟨c', c₁, e₁, c₂, e₂, ho.accepted, hruns, hend⟩

end Cluster
end ShardCluster
