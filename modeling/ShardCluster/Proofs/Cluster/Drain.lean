import ShardCluster.Proofs.Cluster.Progress
/-! How the transfers of an operation come to their end. Reports of the running ones may come in any
order. The queue is empty after as many of them as there are transfers, and the same cluster is left. -/
namespace ShardCluster
open SortedMap

namespace Cluster
open Transfer
variable {c c' c'' : Cluster} {name : String} {coll : Collection} {op : Operation} {r : Router}
  {l : List Transfer} {t : Transfer} {done : List Transfer} {es : List Effects} {e : Effects}

/-- The copies of the transfers that wait. -/
def waiting (name : String) (r : Router) (l : List Transfer) : List CopyRequest :=
  (l.filter (·.status == .pending)).map (copyOf name r)

theorem waiting_cons (t : Transfer) (l : List Transfer) : waiting name r (t :: l) =
    if t.status = .pending then copyOf name r t :: waiting name r l else waiting name r l := by
  split <;> simp_all [waiting]

/-- What is let in is one of those that waited. -/
theorem release_waiting (name : String) (r : Router) (d : ShardId × PeerId) (l : List Transfer) :
    ((release d l).2.toList.map (copyOf name r) ++ waiting name r (release d l).1).Perm
      (waiting name r l) := by
  induction l with
  | nil => exact .nil
  | cons t rest ih =>
    rw [release]
    split
    · rename_i h
      obtain ⟨hpending, -⟩ := h
      simp [waiting_cons, hpending, copyOf]
    · rw [waiting_cons, waiting_cons]
      by_cases hp : t.status = .pending
      · rw [if_pos hp, if_pos hp]
        exact List.perm_middle.trans (ih.cons _)
      · rw [if_neg hp, if_neg hp]
        exact ih

/-- A transfer that runs is none of them. -/
theorem waiting_others (hk : (l.map (·.key)).Nodup) (ht : t ∈ l) (hrun : t.status = .running) :
    waiting name r (l.filter (fun t' => !(t'.key == t.key))) = waiting name r l := by
  unfold waiting
  rw [List.filter_filter]
  congr 1
  refine List.filter_congr fun t' ht' => ?_
  cases hp : t'.status == .pending with
  | false => rfl
  | true =>
    have hne : t'.key ≠ t.key := by
      intro he
      rw [List.inj_on_of_nodup_map hk ht' ht he, hrun] at hp
      cases hp
    simpa using hne

theorem settled_of_mem (ht : t ∈ l) (hm : t.resharding = true) (op : Operation) : op.settled l = op := by
  refine if_neg fun hx => ?_
  exact List.any_eq_false.1 hx.1 t ht hm

theorem transfers_carrying : (c.carrying name coll op l).transfers name = l := by
  have hc : (c.carrying name coll op l).collections.get? name = some { coll with transfers := l } :=
    get?_insert_self _ _ _
  exact transfers_eq hc

theorem carrying_carrying {l' : List Transfer} :
    (c.carrying name coll op l).carrying name { coll with transfers := l } op l' =
      c.carrying name coll op l' := by
  simp only [carrying, insert_insert]

/-- Reports of transfers that run when they are reported, with what each of them asks for. -/
inductive Drained (name : String) (c : Cluster) : List Transfer → List Effects → Cluster → Prop
  | none : Drained name c [] [] c
  | report {done : List Transfer} {es : List Effects} {c' c'' : Cluster} {t : Transfer} {e : Effects}
      (h : Drained name c done es c') (ht : t ∈ c'.transfers name) (hrun : t.status = .running)
      (hx : c'.apply (.finishTransfer name t.key t.epoch) = .ok (c'', e)) :
      Drained name c (done ++ [t]) (es ++ [e]) c''

/-- How far the reports have come: `coll`, `op` and `r` are what the operation started with. -/
structure Draining (name : String) (c : Cluster) (coll : Collection) (op : Operation) (r : Router)
    (done : List Transfer) (es : List Effects) (c' : Cluster) : Prop where
  reached : Reached Planned c'
  left : c' = c.carrying name coll op (c'.transfers name)
  ended : (done.map (·.key) ++ (c'.transfers name).map (·.key)).Perm (coll.transfers.map (·.key))
  spawned : (es.flatMap (·.spawn) ++ waiting name r (c'.transfers name)).Perm
    (waiting name r coll.transfers)

namespace Draining
variable (h : Draining name c coll op r done es c')
include h

theorem collection : c'.collections.get? name = some { coll with transfers := c'.transfers name } := by
  have hc := congrArg (·.collections.get? name) h.left
  exact hc.trans (get?_insert_self _ _ _)

theorem operation : c'.operations.get? name = some (op.settled (c'.transfers name)) := by
  have ho := congrArg (·.operations.get? name) h.left
  exact ho.trans (get?_insert_self _ _ _)

theorem length : done.length + (c'.transfers name).length = coll.transfers.length := by
  simpa using h.ended.length_eq

theorem fit : Fit { coll with transfers := c'.transfers name } (some (op.settled (c'.transfers name)))
    (c'.replicas.look name) := by
  have hfit := (h.reached.fits name).fit _ h.collection
  rwa [face, h.operation] at hfit

theorem queued : Queued (c'.transfers name) := by
  have hq := h.reached.queued name
  rwa [face, h.collection] at hq

/-- While transfers are left, one of them runs. -/
theorem exists_running (hne : c'.transfers name ≠ []) : ∃ t ∈ c'.transfers name, t.status = .running := by
  obtain ⟨t₀, ht₀⟩ := List.exists_mem_of_ne_nil _ hne
  obtain ⟨t, ht, -, hrun⟩ := h.queued.running t₀ ht₀
  exact ⟨t, ht, hrun⟩

section
variable (hr : coll.router op.key = .ok r)
include hr

theorem slices : ∀ t ∈ c'.transfers name, t.resharding = true := by
  refine h.fit.slices (r := r) ?_
  rw [Operation.settled_eq]
  exact hr

/-- A report of a transfer that runs is accepted. -/
theorem report_eq (ht : t ∈ c'.transfers name) (hrun : t.status = .running) :
    c'.apply (.finishTransfer name t.key t.epoch) =
      .ok (c.carrying name coll op (release t.key.destination
          ((c'.transfers name).filter (fun t' => !(t'.key == t.key)))).1,
        { spawn := (release t.key.destination
            ((c'.transfers name).filter (fun t' => !(t'.key == t.key)))).2.toList.map (copyOf name r),
          completed := [(name, { t with status := .finished })] }) := by
  have ho := h.operation
  rw [settled_of_mem ht (h.slices hr t ht) op] at ho
  rw [finishTransfer_eq (h.reached.fits name) h.collection ho (r := r) hr ht hrun]
  have hleft := congrArg (·.carrying name { coll with transfers := c'.transfers name } op
    (release t.key.destination ((c'.transfers name).filter (fun t' => !(t'.key == t.key)))).1) h.left
  exact congrArg (fun x => Except.ok (x, _)) (hleft.trans carrying_carrying)

theorem report (ht : t ∈ c'.transfers name) (hrun : t.status = .running)
    (hx : c'.apply (.finishTransfer name t.key t.epoch) = .ok (c'', e)) :
    Draining name c coll op r (done ++ [t]) (es ++ [e]) c'' := by
  have hreached : Reached Planned c'' :=
    h.reached.step (planned_of_advances (.finished t.key t.epoch)) hx
  rw [h.report_eq hr ht hrun, Except.ok.injEq, Prod.mk.injEq] at hx
  obtain ⟨rfl, rfl⟩ := hx
  have hkeys : ((c'.transfers name).map (·.key)).Nodup := h.fit.keys
  generalize hl : (c'.transfers name).filter (fun t' => !(t'.key == t.key)) = others at hreached ⊢
  refine ⟨hreached, by rw [transfers_carrying], ?_, ?_⟩
  · have hothers : ((t :: others).map (·.key)).Perm ((c'.transfers name).map (·.key)) :=
      (hl ▸ perm_others hkeys ht).map _
    rw [transfers_carrying, keys_release, List.map_append, List.append_assoc]
    exact (hothers.append_left _).trans h.ended
  · have hwaiting : waiting name r others = waiting name r (c'.transfers name) :=
      hl ▸ waiting_others hkeys ht hrun
    have hrelease := release_waiting name r t.key.destination others
    rw [hwaiting] at hrelease
    rw [transfers_carrying, List.flatMap_append, List.append_assoc]
    simp only [List.flatMap_cons, List.flatMap_nil, List.append_nil]
    exact (hrelease.append_left _).trans h.spawned

end
end Draining

theorem Drained.draining (hd : Drained name c done es c') (h : Draining name c coll op r [] [] c)
    (hr : coll.router op.key = .ok r) : Draining name c coll op r done es c' := by
  induction hd with
  | none => exact h
  | report _ ht hrun hx ih => exact ih.report hr ht hrun hx

/-- The reports can go on until every transfer is done. -/
theorem Drained.goes_on (hd : Drained name c done es c') (h : Draining name c coll op r done es c')
    (hr : coll.router op.key = .ok r) : ∃ later fx c'', Drained name c (done ++ later) (es ++ fx) c'' ∧
      (done ++ later).length = coll.transfers.length := by
  induction hn : (c'.transfers name).length generalizing done es c' with
  | zero =>
    refine ⟨[], [], c', by simpa using hd, ?_⟩
    have hlength := h.length
    rw [hn] at hlength
    simpa using hlength
  | succ n ih =>
    obtain ⟨t, ht, hrun⟩ := h.exists_running (List.ne_nil_of_length_eq_add_one hn)
    obtain ⟨⟨c₁, e₁⟩, hx⟩ : ∃ x, c'.apply (.finishTransfer name t.key t.epoch) = .ok x :=
      ⟨_, h.report_eq hr ht hrun⟩
    have h₁ := h.report hr ht hrun hx
    have hleft : (c₁.transfers name).length = n := by
      have hlength := h.length
      have hlength₁ := h₁.length
      rw [List.length_append, List.length_singleton] at hlength₁
      omega
    obtain ⟨later, fx, c'', hd'', hall⟩ := ih (hd.report ht hrun hx) h₁ hleft
    exact ⟨t :: later, e₁ :: fx, c'', by simpa using hd'', by simpa using hall⟩

/-- What holds of an operation after the reports of `done`, the effects of which are `es`. The
collection, the operation and its rings in `c` are `coll`, `op` and `r`. -/
structure Empties (name : String) (c : Cluster) (coll : Collection) (op : Operation) (r : Router)
    (done : List Transfer) (es : List Effects) (c' : Cluster) : Prop where
  count : done.length + (c'.transfers name).length = coll.transfers.length
  /-- Each transfer is reported once. -/
  ended : (done.map (·.key) ++ (c'.transfers name).map (·.key)).Perm (coll.transfers.map (·.key))
  /-- Each one that waited has been let in once, or still waits. -/
  spawned : (es.flatMap (·.spawn) ++ waiting name r (c'.transfers name)).Perm
    (waiting name r coll.transfers)
  accepted : ∀ t ∈ c'.transfers name, t.status = .running →
    ∃ x, c'.apply (.finishTransfer name t.key t.epoch) = .ok x
  /-- Into each replica that transfers are for, one of them runs. -/
  single : ∀ t ∈ c'.transfers name, ((c'.transfers name).filter fun t' =>
    t'.status == .running && t'.key.destination == t.key.destination).length = 1
  rest : ∀ t ∈ c'.transfers name, t.status ≠ .running → t.status = .pending
  stage : c'.stage? name =
    some (if done.length < coll.transfers.length then .starting else .awaitingReadCommit)
  continues : ∃ later fx c'', Drained name c (done ++ later) (es ++ fx) c'' ∧
    (done ++ later).length = coll.transfers.length
  refused : done.length = coll.transfers.length →
    ∀ key epoch, ∃ err, c'.apply (.finishTransfer name key epoch) = .error err
  /-- In the end all is as it was, but for the transfers and the stage. -/
  last : done.length = coll.transfers.length → c' =
    { c with
      collections := c.collections.insert name { coll with transfers := [] }
      operations := c.operations.insert name { op with stage := .awaitingReadCommit } }

namespace Draining
variable (h : Draining name c coll op r done es c') (hr : coll.router op.key = .ok r)
include h

theorem single (ht : t ∈ c'.transfers name) : ((c'.transfers name).filter fun t' =>
    t'.status == .running && t'.key.destination == t.key.destination).length = 1 := by
  obtain ⟨t', ht', hd, hrun⟩ := h.queued.running t ht
  have hmem : t' ∈ (c'.transfers name).filter fun t' =>
      t'.status == .running && t'.key.destination == t.key.destination :=
    List.mem_filter.2 ⟨ht', by simp [hrun, hd]⟩
  exact Nat.le_antisymm (h.fit.paced.length_le_one t.key.destination) (List.length_pos_of_mem hmem)

theorem nil_iff : c'.transfers name = [] ↔ done.length = coll.transfers.length := by
  have hlength := h.length
  rw [← List.length_eq_zero_iff]
  omega

theorem refused (hnil : c'.transfers name = []) (key : TransferKey) (epoch : UInt64) :
    ∃ err, c'.apply (.finishTransfer name key epoch) = .error err := by
  have hfind : Collection.find { coll with transfers := c'.transfers name } key =
      .error (.transferNotFound key.text) := by
    rw [hnil]
    rfl
  refine ⟨.transferNotFound key.text, ?_⟩
  simp only [apply, finishTransfer, Cluster.collection, h.collection, bind, Except.bind, hfind]

include hr

theorem stage (hs : op.stage = .starting) : c'.stage? name =
    some (if done.length < coll.transfers.length then .starting else .awaitingReadCommit) := by
  have hlength := h.length
  rw [stage?, operation?, h.operation, Option.map_some]
  cases hl : c'.transfers name with
  | nil =>
    rw [hl, List.length_nil] at hlength
    rw [if_neg (by omega), Operation.settled, if_pos ⟨rfl, hs⟩]
  | cons t rest =>
    rw [hl, List.length_cons] at hlength
    have hm := h.slices hr t (hl ▸ List.mem_cons_self)
    rw [if_pos (by omega), settled_of_mem List.mem_cons_self hm, hs]

theorem empties (hs : op.stage = .starting) (hd : Drained name c done es c') :
    Empties name c coll op r done es c' where
  count := h.length
  ended := h.ended
  spawned := h.spawned
  accepted t ht hrun := ⟨_, h.report_eq hr ht hrun⟩
  single t ht := h.single ht
  rest t ht hne := (h.queued.status t ht).resolve_left hne
  stage := h.stage hr hs
  continues := hd.goes_on h hr
  refused hall := h.refused (h.nil_iff.2 hall)
  last hall := by
    have hleft := h.left
    rw [h.nil_iff.2 hall] at hleft
    rw [hleft, carrying, Operation.settled, if_pos ⟨rfl, hs⟩]

end Draining

/-- Before the first report. -/
theorem Reached.draining (h : Reached Planned c) (hc : c.collections.get? name = some coll)
    (ho : c.operations.get? name = some op) (hr : coll.router op.key = .ok r)
    (hne : coll.transfers ≠ []) : Draining name c coll op r [] [] c := by
  have hf := h.fits name
  rw [face, hc, ho] at hf
  obtain ⟨t, ht⟩ := List.exists_mem_of_ne_nil _ hne
  have hsettled := settled_of_mem ht ((hf.fit coll rfl).slices hr t ht) op
  refine ⟨h, ?_, ?_, ?_⟩ <;> rw [transfers_eq hc]
  · rw [carrying, hsettled, insert_of_get? ho, insert_of_get? hc]
  · rfl
  · rfl

/-- The transfers of an operation come to their end in any order in which they are reported. -/
theorem empties_of_reached (h : Reached Planned c) (hs : c.stage? name = some .starting) :
    ∃ coll op r, c.collections.get? name = some coll ∧ c.operations.get? name = some op ∧
      coll.router op.key = .ok r ∧ 0 < coll.transfers.length ∧
      ∀ done es c', Drained name c done es c' → Empties name c coll op r done es c' := by
  obtain ⟨op, ho, hstage⟩ := Option.map_eq_some_iff.1 hs
  have ho : c.operations.get? name = some op := ho
  have hf := h.fits name
  obtain ⟨coll, -, hc, -⟩ := hf.agrees.live op ho
  have hc : c.collections.get? name = some coll := hc
  rw [face, hc, ho] at hf
  obtain ⟨r, hr, -, -, -, -, hany⟩ := hf.live
  have hne := hany.2 hstage
  have hstart := h.draining hc ho hr hne
  exact ⟨coll, op, r, hc, ho, hr, List.length_pos_iff.2 hne, fun done es c' hd =>
    (hd.draining hstart hr).empties hr hstage hd⟩

/-- A shard goes, and leaves its points to two others. -/
def dispersing : Except Error Cluster := do
  let c ← replay 1 1 [.addPeer 1, .addPeer 2,
    .createCollection "points" {} (.ofList [(0, [1]), (1, [2]), (2, [1])])]
  let plan ← c.plan "points" { direction := .down, shard := some 2 } .last .epoch
  c.applyAll [.startResharding plan]

/-- Either transfer may be the first to be reported, and the cluster is the same in the end. -/
theorem empties_dispersing : ∃ c t u c' es fx, dispersing = .ok c ∧ c.transfers "points" = [t, u] ∧
    t.key ≠ u.key ∧ Drained "points" c [t, u] es c' ∧ Drained "points" c [u, t] fx c' ∧
      c'.stage? "points" = some .awaitingReadCommit := by
  let t : Transfer := ⟨⟨2, 0, 1, 1⟩, .slice, .running, 1⟩
  let u : Transfer := ⟨⟨2, 1, 1, 2⟩, .slice, .running, 1⟩
  let after (t : Transfer) (c : Cluster) : Option (List Transfer) :=
    (c.apply (.finishTransfer "points" t.key t.epoch)).toOption.map (·.1.transfers "points")
  have hlive : dispersing.toOption.map (fun c =>
      (c.stage? "points", c.transfers "points", after t c, after u c)) =
      some (some .starting, [t, u], some [u], some [t]) := by decide +kernel
  obtain ⟨c, h, hlive⟩ := toOption_map_eq_some.1 hlive
  simp only [Prod.mk.injEq] at hlive
  obtain ⟨hstage, htransfers, hafter, hafter'⟩ := hlive
  have hsteps := h
  simp only [dispersing, bind_eq_ok] at hsteps
  obtain ⟨c₀, hfound, plan, hplan, hstarted⟩ := hsteps
  have hnew : Reached Planned (.new 1 1) := .new 1 1
  have hplain : Reached Planned c₀ := hnew.applyAll (by simp [Planned]) hfound
  have hreached : Reached Planned c := hplain.applyPlan hplan (by simp) hstarted
  obtain ⟨coll, op, r, hc, -, -, -, hall⟩ := empties_of_reached hreached hstage
  have hlength : [t, u].length = coll.transfers.length := by rw [← transfers_eq hc, htransfers]
  have hboth : ∀ a b, a ∈ [t, u] → a.status = .running → b.status = .running → after a c = some [b] →
      ∃ es c', Drained "points" c [a, b] es c' := by
    intro a b ha hrun hrun' hleft
    obtain ⟨⟨c₁, e₁⟩, hx, hleft⟩ := toOption_map_eq_some.1 hleft
    have h₁ := Drained.none.report (htransfers ▸ ha) hrun hx
    have hb : b ∈ c₁.transfers "points" := hleft ▸ List.mem_singleton_self b
    obtain ⟨⟨c₂, e₂⟩, hx₂⟩ := (hall _ _ _ h₁).accepted b hb hrun'
    exact ⟨_, _, h₁.report hb hrun' hx₂⟩
  obtain ⟨es, c', hd⟩ := hboth t u (by simp) rfl rfl hafter
  obtain ⟨fx, c'', hd'⟩ := hboth u t (by simp) rfl rfl hafter'
  obtain rfl : c' = c'' := ((hall _ _ _ hd).last hlength).trans ((hall _ _ _ hd').last hlength).symm
  have hend := (hall _ _ _ hd).stage
  rw [if_neg (Nat.not_lt_of_le (Nat.le_of_eq hlength.symm))] at hend
  exact ⟨c, t, u, c', es, fx, h, htransfers, by decide, hd, hd', hend⟩

end Cluster
end ShardCluster
