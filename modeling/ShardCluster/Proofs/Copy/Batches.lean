import ShardCluster.Proofs.Copy.Lapses
import ShardCluster.Proofs.Copy.Turn
/-! A copy batch by batch, over a store whose calls fail now and then. The counts of a copy are those
of the batches that it has acknowledged, and the checkpoint is at their last point. The points of
these batches are on the destination; of the one that is being written any part may be there. -/
namespace ShardCluster
open Std SortedMap

namespace Store
variable {s s' : Store} {l : Location} {points : List Point}

/-- Points are written to a replica, and nothing else changes. -/
structure Wrote (l : Location) (points : List Point) (s s' : Store) : Prop where
  elsewhere : ∀ l', l' ≠ l → s'.contents.get? l' = s.contents.get? l'
  there : ∀ id, (s'.replica l).get? id = (Point.latest id points).or ((s.replica l).get? id)

theorem wrote_nil (l : Location) (s : Store) : Wrote l [] s s :=
  ⟨fun _ _ => rfl, fun _ => by simp [Point.latest]⟩

theorem wrote_upsert (s : Store) (l : Location) (points : List Point) :
    Wrote l points s (s.upsert l points) :=
  ⟨fun l' h => s.contents_upsert l l' h points, fun id => by rw [get?_upsert, if_pos rfl]⟩

/-- A write that fails has written some of its points. -/
theorem wrote_lapse (s : Store) (l : Location) (points : List Point) (lapse : Lapse) :
    ∃ part, part ⊆ points ∧ Wrote l part s (Lapse.upsert s l points (some lapse)) := by
  rw [Lapse.upsert]
  split
  · exact ⟨[], List.nil_subset _, wrote_nil l s⟩
  · exact ⟨_, List.filter_subset_self _, wrote_upsert s l _⟩

end Store

namespace Task
variable {S s s' : Store} {t : Task}

/-- The points of the source that the acknowledged batches have gone through. -/
def covered (t : Task) (S : Store) : List (PointId × Bytes) :=
  (S.replica t.source).entries.take (t.checkpoint.batches * t.config.batchSize)

/-- The points of the next batch. -/
def upcoming (t : Task) (S : Store) : List (PointId × Bytes) :=
  ((S.replica t.source).entries.drop (t.checkpoint.batches * t.config.batchSize)).take
    t.config.batchSize

/-- The acknowledged batches are all that there are. -/
def AllRead (t : Task) (S : Store) : Prop :=
  (S.replica t.source).size ≤ t.checkpoint.batches * t.config.batchSize

/-- What a step goes by is as it is in `S`. -/
def Due (t : Task) (S : Store) : Prop :=
  match t.phase with
  | .fetch _ | .ended (.failed _) => True
  | .apply page _ => page = t.page S
  | .surveySource _ | .ended .finished => t.AllRead S
  | .surveyTarget expected _ => t.AllRead S ∧ expected = S.scroll t.source t.request.slice

/-- The counts are those of the batches that are acknowledged. -/
structure Counts (t : Task) (S : Store) : Prop where
  paged : 0 < t.config.batchSize
  offset : t.checkpoint.offset = (t.covered S).getLast?.map (·.1)
  points : t.checkpoint.points =
    ((t.covered S).filter (fun e => Slice.admits t.request.slice e.1)).length
  copied : t.copied = t.checkpoint.points
  batches : t.checkpoint.batches * t.config.batchSize <
    (S.replica t.source).size + t.config.batchSize

/-- What a store has become of `S` by the copy: the destination has more of the points of the
source, and all of the acknowledged ones. -/
structure Holds (t : Task) (S s : Store) : Prop where
  elsewhere : ∀ l, l ≠ t.target → s.contents.get? l = S.contents.get? l
  mixed : ∀ id, (s.replica t.target).get? id = (S.replica t.target).get? id ∨
    Slice.admits t.request.slice id = true ∧ ∃ x, (S.replica t.source).get? id = some x ∧
      (s.replica t.target).get? id = some x
  landed : ∀ e ∈ t.covered S, Slice.admits t.request.slice e.1 = true →
    (s.replica t.target).get? e.1 = some e.2

/-- A copy that has begun with the store `S` and goes on with `s`. -/
structure Underway (t : Task) (S s : Store) : Prop where
  due : t.Due S
  counts : t.Counts S
  holds : t.Holds S s

theorem covered_of_allRead (h : t.AllRead S) : t.covered S = (S.replica t.source).entries :=
  List.take_of_length_le h

/-- The page of a fetch has the upcoming points. -/
theorem Counts.page (h : t.Counts S) : (t.page S).points = Store.toPoints (t.upcoming S) ∧
    ((t.page S).isFinal = true ↔ (S.replica t.source).size ≤
      t.checkpoint.batches * t.config.batchSize + t.config.batchSize) :=
  Store.fetch_beyond h.paged _ h.offset

section
variable {page : Page}

theorem acknowledge_request : (t.acknowledge page).request = t.request := rfl

theorem acknowledge_config : (t.acknowledge page).config = t.config := rfl

theorem acknowledge_source : (t.acknowledge page).source = t.source := rfl

theorem acknowledge_target : (t.acknowledge page).target = t.target := rfl

theorem acknowledge_copied : (t.acknowledge page).copied = t.copied + (t.selected page).length := rfl

theorem acknowledge_empty (h : page.points = []) :
    (t.acknowledge page).checkpoint = t.checkpoint := by
  simp [acknowledge, h]

theorem acknowledge_last {p : Point} (h : page.points.getLast? = some p) :
    (t.acknowledge page).checkpoint =
      { offset := some p.id, batches := t.checkpoint.batches + 1
        points := t.checkpoint.points + (t.selected page).length } := by
  simp [acknowledge, h]

end

/-- What the copy selects of the upcoming points. -/
theorem Counts.selected (h : t.Counts S) : t.selected (t.page S) =
    Store.toPoints ((t.upcoming S).filter (fun e => Slice.admits t.request.slice e.1)) := by
  rw [Task.selected, h.page.1, Store.toPoints, List.filter_map]
  rfl

/-- A copy of an empty source acknowledges no batch. -/
theorem Counts.acknowledge_none (h : t.Counts S) (hnil : t.upcoming S = []) :
    (t.acknowledge (t.page S)).checkpoint = t.checkpoint ∧
      (t.acknowledge (t.page S)).copied = t.copied ∧ t.AllRead S := by
  refine ⟨acknowledge_empty ?_, ?_, ?_⟩
  · rw [h.page.1, hnil]
    rfl
  · rw [acknowledge_copied, h.selected, hnil]
    rfl
  · have hlen := congrArg List.length hnil
    have hpos := h.paged
    simp only [upcoming, List.length_take, List.length_drop, List.length_nil] at hlen
    simp only [AllRead, SortedMap.size]
    omega

/-- A batch is acknowledged up to its last point. -/
theorem Counts.acknowledge_some (h : t.Counts S) {e : PointId × Bytes}
    (hlast : (t.upcoming S).getLast? = some e) :
    (t.acknowledge (t.page S)).checkpoint =
      { offset := some e.1, batches := t.checkpoint.batches + 1
        points := t.checkpoint.points +
          ((t.upcoming S).filter (fun e => Slice.admits t.request.slice e.1)).length } ∧
      t.checkpoint.batches * t.config.batchSize < (S.replica t.source).size := by
  have hlastp : (t.page S).points.getLast? = some ⟨e.1, e.2⟩ := by
    rw [h.page.1, Store.toPoints, List.getLast?_map, hlast]
    rfl
  refine ⟨?_, ?_⟩
  · rw [acknowledge_last hlastp, h.selected, Store.toPoints, List.length_map]
  · have hlen := List.length_pos_of_mem (List.mem_of_getLast? hlast)
    simp only [upcoming, List.length_take, List.length_drop] at hlen
    simp only [SortedMap.size]
    omega

/-- Once a batch is acknowledged the counts are those of one more. -/
theorem Counts.acknowledge (h : t.Counts S) :
    (t.acknowledge (t.page S)).Counts S ∧
      (t.acknowledge (t.page S)).covered S = t.covered S ++ t.upcoming S := by
  cases hlast : (t.upcoming S).getLast? with
  | none =>
    have hnil : t.upcoming S = [] := List.getLast?_eq_none_iff.1 hlast
    obtain ⟨hcheckpoint, hcopied, -⟩ := h.acknowledge_none hnil
    have hcovered : (t.acknowledge (t.page S)).covered S = t.covered S := by
      simp only [covered, hcheckpoint, acknowledge_source, acknowledge_config]
    refine ⟨⟨h.paged, ?_, ?_, ?_, ?_⟩, ?_⟩
    · rw [hcheckpoint, hcovered, h.offset]
    · rw [hcheckpoint, hcovered, h.points, acknowledge_request]
    · rw [hcheckpoint, hcopied, h.copied]
    · rw [hcheckpoint, acknowledge_config, acknowledge_source]
      exact h.batches
    · rw [hcovered, hnil, List.append_nil]
  | some e =>
    obtain ⟨hcheckpoint, hlong⟩ := h.acknowledge_some hlast
    have hcovered : (t.acknowledge (t.page S)).covered S = t.covered S ++ t.upcoming S := by
      simp only [covered, upcoming, hcheckpoint, acknowledge_source, acknowledge_config,
        Nat.succ_mul, List.take_add]
    refine ⟨⟨h.paged, ?_, ?_, ?_, ?_⟩, hcovered⟩
    · rw [hcheckpoint, hcovered, List.getLast?_append, hlast]
      rfl
    · rw [hcheckpoint, hcovered, acknowledge_request, List.filter_append, List.length_append,
        ← h.points]
    · rw [hcheckpoint, acknowledge_copied, h.copied, h.selected, Store.toPoints, List.length_map]
    · simp only [hcheckpoint, acknowledge_config, acknowledge_source, Nat.succ_mul]
      omega

/-- The last batch ends the reading. -/
theorem Counts.final (h : t.Counts S) (hf : (t.page S).isFinal = true) :
    (t.acknowledge (t.page S)).AllRead S := by
  cases hlast : (t.upcoming S).getLast? with
  | none =>
    obtain ⟨hcheckpoint, -, hread⟩ := h.acknowledge_none (List.getLast?_eq_none_iff.1 hlast)
    rw [AllRead, hcheckpoint]
    exact hread
  | some e =>
    simp only [AllRead, (h.acknowledge_some hlast).1, acknowledge_config, acknowledge_source,
      Nat.succ_mul]
    exact h.page.2.1 hf

/-- After any other batch there is more to read. -/
theorem Counts.more (h : t.Counts S) (hf : (t.page S).isFinal = false) :
    (t.acknowledge (t.page S)).checkpoint.batches = t.checkpoint.batches + 1 ∧
      t.checkpoint.batches * t.config.batchSize + t.config.batchSize <
        (S.replica t.source).size := by
  have hlong : t.checkpoint.batches * t.config.batchSize + t.config.batchSize <
      (S.replica t.source).size := by
    by_contra hle
    rw [h.page.2.2 (Nat.le_of_not_lt hle)] at hf
    cases hf
  refine ⟨?_, hlong⟩
  cases hlast : (t.upcoming S).getLast? with
  | none =>
    obtain ⟨-, -, hread⟩ := h.acknowledge_none (List.getLast?_eq_none_iff.1 hlast)
    rw [AllRead] at hread
    omega
  | some e => rw [(h.acknowledge_some hlast).1]

/-- What the copy selects of a batch is at the source. -/
theorem mem_selected {p : Point} (hp : p ∈ t.selected (t.page S)) :
    Slice.admits t.request.slice p.id = true ∧
      (S.replica t.source).get? p.id = some p.payload :=
  ⟨(List.mem_filter.1 hp).2, Store.mem_fetch (List.mem_filter.1 hp).1⟩

/-- Points of the batch come through, whichever. -/
theorem Holds.part (h : t.Holds S s) {part : List Point}
    (hpart : part ⊆ t.selected (t.page S)) (hw : Store.Wrote t.target part s s') :
    t.Holds S s' where
  elsewhere l hl := (hw.elsewhere l hl).trans (h.elsewhere l hl)
  mixed id := by
    rw [hw.there]
    cases hx : Point.latest id part with
    | none => exact h.mixed id
    | some x =>
      obtain ⟨hadmits, hsource⟩ := mem_selected (hpart (Point.mem_of_latest hx))
      exact .inr ⟨hadmits, x, hsource, rfl⟩
  landed e he hadmits := by
    rw [hw.there]
    cases hx : Point.latest e.1 part with
    | none => exact h.landed e he hadmits
    | some x =>
      have hsource : (S.replica t.source).get? e.1 = some x :=
        (mem_selected (hpart (Point.mem_of_latest hx))).2
      have he' : (S.replica t.source).get? e.1 = some e.2 := mem_entries.1 (List.mem_of_mem_take he)
      exact hsource.symm.trans he'

/-- The whole batch is there, and is acknowledged. -/
theorem Holds.batch (h : t.Holds S s) (hc : t.Counts S)
    (hw : Store.Wrote t.target (t.selected (t.page S)) s s') :
    (t.acknowledge (t.page S)).Holds S s' where
  elsewhere := (h.part (List.Subset.refl _) hw).elsewhere
  mixed := (h.part (List.Subset.refl _) hw).mixed
  landed e he hadmits := by
    rw [hc.acknowledge.2] at he
    obtain he | he := List.mem_append.1 he
    · exact (h.part (List.Subset.refl _) hw).landed e he hadmits
    · have hselected : ⟨e.1, e.2⟩ ∈ t.selected (t.page S) := by
        rw [hc.selected]
        exact List.mem_map.2 ⟨e, List.mem_filter.2 ⟨he, hadmits⟩, rfl⟩
      obtain ⟨x, hx⟩ := Point.latest_isSome hselected
      have hsource := (mem_selected (Point.mem_of_latest hx)).2
      have he' := (mem_selected hselected).2
      rw [acknowledge_target, hw.there, hx]
      exact hsource.symm.trans he'

theorem Holds.source (h : t.Holds S s) (hne : t.source ≠ t.target) :
    s.replica t.source = S.replica t.source := by
  rw [Store.replica, h.elsewhere _ hne, Store.replica]

theorem Holds.page (h : t.Holds S s) (hne : t.source ≠ t.target) : t.page s = t.page S := by
  simp only [Task.page, Store.fetch, h.source hne]

theorem Holds.scroll (h : t.Holds S s) (hne : t.source ≠ t.target) (slice : Option Slice) :
    s.scroll t.source slice = S.scroll t.source slice := by
  rw [Store.scroll, h.source hne, Store.scroll]

/-- The last check finds every point. -/
theorem Holds.compared (h : t.Holds S s) (hread : t.AllRead S) (a : Nat) :
    t.compared (S.scroll t.source t.request.slice) a (.ok (s.scroll t.target t.request.slice)) =
      { t with phase := .ended .finished } := by
  have hsub : S.scroll t.source t.request.slice ⊆ s.scroll t.target t.request.slice := by
    intro p hp
    obtain ⟨e, he, rfl⟩ := List.mem_map.1 hp
    obtain ⟨he, hadmits⟩ := List.mem_filter.1 he
    have hthere := h.landed e (by rwa [covered_of_allRead hread]) hadmits
    exact List.mem_map.2 ⟨e, List.mem_filter.2 ⟨mem_entries.2 hthere, hadmits⟩, rfl⟩
  have hnodup : (S.scroll t.source t.request.slice).Nodup := by
    refine List.pairwise_map.2 (((S.replica t.source).entries_apart.filter _).imp fun hne heq => ?_)
    exact hne (congrArg Point.id heq)
  have hmissing : (S.scroll t.source t.request.slice).filter
      (fun p => !(s.scroll t.target t.request.slice).any (·.id == p.id)) = [] := by
    refine List.filter_eq_nil_iff.2 fun p hp => ?_
    simpa using ⟨p, hsub hp, rfl⟩
  have hlength := (List.subperm_of_subset hnodup hsub).length_le
  simp only [Task.compared, hmissing, List.isEmpty_nil, Bool.true_and, decide_eq_true_eq,
    if_pos hlength]

/-- A batch that is on the destination takes the copy on. -/
theorem Underway.acknowledge (h : t.Underway S s)
    (hw : Store.Wrote t.target (t.selected (t.page S)) s s') :
    (t.acknowledge (t.page S)).Underway S s' := by
  refine ⟨?_, h.counts.acknowledge.1, h.holds.batch h.counts hw⟩
  obtain ⟨-, hphase⟩ | ⟨hf, hphase | hphase⟩ := t.acknowledge_phase (t.page S)
  · simp only [Due, hphase]
  · simp only [Due, hphase]
    exact h.counts.final hf
  · simp only [Due, hphase]
    exact h.counts.final hf

/-- The rest of a task, apart from what it does next, stays. -/
theorem Underway.turn (h : t.Underway S s) (hs : t.Holds S s') {phase : Phase} {retries : Nat}
    (hdue : ({ t with phase, retries } : Task).Due S) :
    ({ t with phase, retries } : Task).Underway S s' :=
  ⟨hdue, ⟨h.counts.paged, h.counts.offset, h.counts.points, h.counts.copied, h.counts.batches⟩,
    hs.elsewhere, hs.mixed, hs.landed⟩

theorem Due.apply (h : t.Due S) {page : Page} {a : Nat} (hj : t.phase = .apply page a) :
    page = t.page S := by
  simpa only [Due, hj] using h

theorem Due.surveySource (h : t.Due S) {a : Nat} (hj : t.phase = .surveySource a) :
    t.AllRead S := by
  simpa only [Due, hj] using h

theorem Due.surveyTarget (h : t.Due S) {expected : List Point} {a : Nat}
    (hj : t.phase = .surveyTarget expected a) :
    t.AllRead S ∧ expected = S.scroll t.source t.request.slice := by
  simpa only [Due, hj] using h

theorem Due.finished (h : t.Due S) (hj : t.phase = .ended .finished) : t.AllRead S := by
  simpa only [Due, hj] using h

theorem Due.retried (h : t.Due S) {j : Job} {a : Nat} (hj : t.phase = j.phase a) (b m : Nat) :
    ({ t with phase := j.phase b, retries := m } : Task).Due S := by
  rw [Due, hj] at h
  cases j <;> exact h

section
variable {σ : Lapsing} {j : Job} {a : Nat}

/-- A step that has failed leaves the copy under way, whatever came through. -/
theorem Underway.lapse (h : t.Underway S σ.store) (hj : t.phase = j.phase a) {lapse : Lapse}
    (hl : σ.lapses 0 = some lapse) : (t.step σ).1.Underway S (t.step σ).2.store := by
  obtain ⟨htask, hstore⟩ := step_some hj hl
  have hholds : t.Holds S (t.step σ).2.store := by
    obtain hstore | ⟨page, rfl, hstore⟩ := hstore
    · rw [hstore]
      exact h.holds
    · obtain rfl := h.due.apply hj
      obtain ⟨part, hpart, hw⟩ := Store.wrote_lapse σ.store t.target (t.selected (t.page S)) lapse
      rw [hstore]
      exact h.holds.part hpart hw
  rw [htask]
  obtain hlt | hle := Nat.lt_or_ge a t.config.maxRetries
  · rw [retry_again lapse.fault hlt]
    exact h.turn hholds (h.due.retried hj _ _)
  · rw [retry_spent lapse.fault hle]
    exact h.turn hholds trivial

/-- A step that succeeds leaves the copy under way. -/
theorem Underway.success (h : t.Underway S σ.store) (hne : t.source ≠ t.target)
    (hj : t.phase = j.phase a) (hl : σ.lapses 0 = none) :
    (t.step σ).1.Underway S (t.step σ).2.store := by
  cases j with
  | fetch =>
    have hpage : σ.store.fetch t.source t.checkpoint.offset t.config.batchSize = t.page S :=
      h.holds.page hne
    rw [step_fetch hj, Lapsing.pointStore_fetch, hl, Lapse.reply, hpage]
    obtain ⟨hnil, hfetched⟩ | hfetched := t.fetched_ok a (t.page S)
    · rw [hfetched]
      exact h.acknowledge (hnil ▸ Store.wrote_nil t.target σ.store)
    · rw [hfetched]
      exact h.turn h.holds rfl
  | apply page =>
    obtain rfl := h.due.apply hj
    rw [step_apply hj, Lapsing.pointStore_upsert, hl]
    exact h.acknowledge (Store.wrote_upsert σ.store t.target _)
  | surveySource =>
    rw [step_surveySource hj, Lapsing.pointStore_scroll, hl, Lapse.reply, h.holds.scroll hne]
    exact h.turn h.holds ⟨h.due.surveySource hj, rfl⟩
  | surveyTarget expected =>
    obtain ⟨hread, rfl⟩ := h.due.surveyTarget hj
    rw [step_surveyTarget hj, Lapsing.pointStore_scroll, hl, Lapse.reply, h.holds.compared hread]
    exact h.turn h.holds hread

/-- Every step leaves the copy under way. -/
theorem Underway.step (h : t.Underway S σ.store) (hne : t.source ≠ t.target) :
    (t.step σ).1.Underway S (t.step σ).2.store := by
  cases ho : t.outcome? with
  | some o =>
    rw [step_ended (outcome?_ended.1 ho)]
    exact h
  | none =>
    obtain ⟨j, a, hj⟩ := exists_job ho
    cases hl : σ.lapses 0 with
    | none => exact h.success hne hj hl
    | some lapse => exact h.lapse hj hl

/-- A copy that ends by a call that succeeds has found every point. -/
theorem Underway.finished (h : t.Underway S σ.store) (ho : t.outcome? = none)
    (hl : σ.lapses 0 = none) {o : Outcome} (hend : (t.step σ).1.outcome? = some o) :
    o = .finished := by
  obtain ⟨j, a, hj⟩ := exists_job ho
  obtain ⟨⟨j', hj'⟩ | ⟨o', ho', hlast⟩, -⟩ := step_none hj hl
  · rw [outcome?_job hj'] at hend
    cases hend
  · rw [outcome?_ended.2 ho'] at hend
    obtain rfl := Option.some.inj hend
    obtain rfl | ⟨expected, rfl⟩ := hlast
    · rfl
    · obtain ⟨hread, rfl⟩ := h.due.surveyTarget hj
      rw [step_surveyTarget hj, Lapsing.pointStore_scroll, hl, Lapse.reply,
        h.holds.compared hread] at ho'
      exact (Phase.ended.inj ho').symm

/-- So does a run of them. -/
theorem Underway.run (h : t.Underway S σ.store) (hne : t.source ≠ t.target) (n : Nat) :
    (t.steps σ n).1.Underway S (t.steps σ n).2.store := by
  induction n with
  | zero => exact h
  | succ n ih =>
    refine ih.step ?_
    rwa [(t.steps_ends σ n).1, (t.steps_ends σ n).2]

end
end Task
end ShardCluster
