import Mathlib.Data.List.Perm.Subperm
import ShardCluster.Proofs.Cluster.Rollback
/-! Where operations come from and how they end. Each entry records, for every operation that it
starts or ends, what it has done to the table, and an entry ends operations in one way only. -/
namespace ShardCluster
open SortedMap

namespace SortedMap
universe u v
variable {κ : Type u} {α : Type v} [Ord κ] [Std.TransOrd κ] [Std.LawfulEqOrd κ]
  {m n : SortedMap κ α} {k : κ}

theorem keys_perm (h : ∀ x, n.contains x = true ↔ m.contains x = true) : m.keys.Perm n.keys := by
  refine (List.perm_ext_iff_of_nodup (keys_nodup m) (keys_nodup n)).2 fun x => ?_
  rw [mem_keys, mem_keys, ← contains_iff, ← contains_iff, h]

/-- One key has gone. -/
theorem keys_perm_append (hk : n.contains k = false)
    (h : ∀ x, m.contains x = true ↔ n.contains x = true ∨ x = k) : m.keys.Perm (n.keys ++ [k]) := by
  have hnew : k ∉ n.keys := by
    rw [mem_keys, ← contains_iff, hk]
    exact Bool.false_ne_true
  have hnodup : (n.keys ++ [k]).Nodup :=
    List.nodup_append.2 ⟨keys_nodup n, by simp, fun x hx y hy he =>
      hnew (List.mem_singleton.1 hy ▸ he ▸ hx)⟩
  refine (List.perm_ext_iff_of_nodup (keys_nodup m) hnodup).2 fun x => ?_
  rw [mem_keys, ← contains_iff, h, List.mem_append, mem_keys, ← contains_iff, List.mem_singleton]

end SortedMap

/-- How an operation ends: all its points are moved, or it is given up because someone asks for that
or because something that it needs goes. -/
inductive Ending where
  | finished | asked | forced
  deriving DecidableEq, Repr, Inhabited

def Aborted.ending (a : Aborted) : Ending := if a.forced then .forced else .asked

/-- How the operations end that an entry ends. Most entries end none. -/
def Entry.ending : Entry → Option Ending
  | .finishResharding _ => some .finished
  | .abortResharding _ forced _ => some (if forced then .forced else .asked)
  | .removePeer .. | .deleteCollection _ | .deleteShardKey .. | .failTransfer .. => some .forced
  | _ => none

namespace Effects
variable {e e' : Effects}

/-- What is recorded of operations. -/
def records (e : Effects) : List Operation × List Operation × List Aborted :=
  (e.started, e.finished, e.aborted)

/-- The collections whose operations are recorded to start. -/
def openings (e : Effects) : List String := e.started.map (·.collection)

/-- The collections whose operations are recorded to end. -/
def endings (e : Effects) : List (Ending × String) :=
  e.finished.map (fun op => (.finished, op.collection)) ++
    e.aborted.map (fun a => (a.ending, a.operation.collection))

theorem records_append (h : e'.records = ([], [], [])) : (e ++ e').records = e.records := by
  simp only [records, Prod.mk.injEq] at h
  obtain ⟨hs, hf, ha⟩ := h
  have hall : (e ++ e').records =
      (e.started ++ e'.started, e.finished ++ e'.finished, e.aborted ++ e'.aborted) := rfl
  rw [hall, hs, hf, ha, List.append_nil, List.append_nil, List.append_nil, records]

theorem openings_congr (h : e'.records = e.records) : e'.openings = e.openings :=
  congrArg (fun r => r.1.map (·.collection)) h

theorem endings_congr (h : e'.records = e.records) : e'.endings = e.endings :=
  congrArg (fun r => r.2.1.map (fun op => (Ending.finished, op.collection)) ++
    r.2.2.map (fun a => (a.ending, a.operation.collection))) h

theorem openings_append (e e' : Effects) : (e ++ e').openings = e.openings ++ e'.openings :=
  List.map_append

theorem endings_append (e e' : Effects) : (e ++ e').endings.Perm (e.endings ++ e'.endings) := by
  have hall : (e ++ e').endings =
      (e.finished ++ e'.finished).map (fun op => (Ending.finished, op.collection)) ++
        (e.aborted ++ e'.aborted).map (fun a => (a.ending, a.operation.collection)) := rfl
  rw [hall, endings, endings, List.perm_iff_count]
  intro x
  simp only [List.map_append, List.count_append]
  omega

end Effects

/-- The table of operations and the records of an entry agree, and every operation that ends does so
in the given way. -/
structure Accounted (k : Option Ending) (c : Cluster) (e : Effects) (c' : Cluster) : Prop where
  balance : (c.operations.keys ++ e.openings).Perm (c'.operations.keys ++ e.endings.map (·.2))
  ending : ∀ x ∈ e.endings, k = some x.1
  apart : e.openings = [] ∨ e.endings = []

namespace Accounted
variable {k : Option Ending} {c c₁ c' : Cluster} {e e' : Effects}

theorem kept (h : ∀ n, c'.operations.contains n = true ↔ c.operations.contains n = true)
    (he : e.records = ([], [], [])) : Accounted k c e c' := by
  have ho : e.openings = [] := Effects.openings_congr (e := {}) he
  have hx : e.endings = [] := Effects.endings_congr (e := {}) he
  refine ⟨?_, fun x h => ?_, .inl ho⟩
  · rw [ho, hx, List.map_nil, List.append_nil, List.append_nil]
    exact keys_perm h
  · rw [hx] at h
    cases h

theorem same (h : c'.operations = c.operations) (he : e.records = ([], [], [])) :
    Accounted k c e c' :=
  .kept (fun n => by rw [h]) he

theorem congr (h : Accounted k c e c₁) (hc : c'.operations = c₁.operations)
    (he : e'.records = e.records) : Accounted k c e' c' where
  balance := by
    rw [hc, Effects.openings_congr he, Effects.endings_congr he]
    exact h.balance
  ending := Effects.endings_congr he ▸ h.ending
  apart := by
    rw [Effects.openings_congr he, Effects.endings_congr he]
    exact h.apart

/-- One after the other, where none starts an operation. -/
theorem trans (h : Accounted k c e c₁) (h' : Accounted k c₁ e' c') (ho : e.openings = [])
    (ho' : e'.openings = []) : Accounted k c (e ++ e') c' where
  balance := by
    refine List.perm_iff_count.2 fun n => ?_
    have hends := ((Effects.endings_append e e').map (·.2)).count_eq n
    have hb := h.balance.count_eq n
    have hb' := h'.balance.count_eq n
    simp only [Effects.openings_append, ho, ho', List.map_append, List.count_append, List.append_nil]
      at hends hb hb' ⊢
    omega
  ending x hx := by
    obtain hx | hx := List.mem_append.1 ((Effects.endings_append e e').mem_iff.1 hx)
    · exact h.ending x hx
    · exact h'.ending x hx
  apart := .inl (by rw [Effects.openings_append, ho, ho', List.append_nil])

end Accounted

namespace Cluster
variable {c c' : Cluster} {name : String} {e : Effects} {coll : Collection} {op : Option Operation}
  {l : Layout} {k : Option Ending}

theorem Redone.accounted (h : Redone c c' name coll op l)
    (ho : op.isSome = (c.operations.get? name).isSome) (he : e.records = ([], [], [])) :
    Accounted k c e c' := by
  refine .kept (fun n => ?_) he
  rw [SortedMap.contains, SortedMap.contains, h.operation]
  by_cases hn : n = name
  · rw [if_pos hn, hn, ho]
  · rw [if_neg hn]

/-- The operation of a collection ends, and that is recorded. -/
theorem accounted_ended {o : Operation} {x : Ending} (hs : c.Sound)
    (ho : c.operations.get? name = some o)
    (hops : ∀ n, c'.operations.get? n = if n = name then none else c.operations.get? n)
    (hopen : e.openings = []) (hend : e.endings = [(x, o.collection)]) :
    Accounted (some x) c e c' where
  balance := by
    rw [hopen, hend, List.append_nil, List.map_singleton, (hs.named name o ho).1]
    refine keys_perm_append (by simp [SortedMap.contains, hops]) fun n => ?_
    rw [SortedMap.contains, SortedMap.contains, hops]
    by_cases hn : n = name
    · simp [hn, ho]
    · simp [hn]
  ending y hy := by
    rw [hend] at hy
    rw [List.mem_singleton.1 hy]
  apart := .inl hopen

theorem rollBack_sound {forced : Bool} {reason : String} (hs : c.Sound)
    (h : c.rollBack name forced reason = .ok (c', e)) : c'.Sound := by
  cases ho : c.operations.get? name with
  | none =>
    obtain ⟨rfl, -⟩ : c = c' ∧ {} = e := by simpa using (rollBack_none ho forced reason).symm.trans h
    exact hs
  | some o =>
    have ht := rollBack_touched ho h
    exact ht.sound hs ht.change.collection.1

theorem rollBack_accounted {forced : Bool} {reason : String} (hs : c.Sound)
    (h : c.rollBack name forced reason = .ok (c', e)) :
    Accounted (some (if forced then .forced else .asked)) c e c' ∧ e.openings = [] := by
  cases ho : c.operations.get? name with
  | none =>
    obtain ⟨rfl, rfl⟩ : c = c' ∧ {} = e := by simpa using (rollBack_none ho forced reason).symm.trans h
    exact ⟨.same rfl rfl, rfl⟩
  | some o =>
    obtain ⟨coll, r, table, cleanup, -, -, rfl, rfl, hcase⟩ := rollBack_cases ho h
    have hrecords : (Effects.cancelling name (coll.take (·.resharding)).2 ++ cleanup ++
        { aborted := [⟨o, forced, reason⟩] }).records = ([], [], [⟨o, forced, reason⟩]) := by
      obtain ⟨-, removed, -, rfl⟩ | ⟨-, restored, -, rfl⟩ := hcase
      · rfl
      · rfl
    have hopen := Effects.openings_congr (e := { aborted := [⟨o, forced, reason⟩] }) hrecords
    have hend := Effects.endings_congr (e := { aborted := [⟨o, forced, reason⟩] }) hrecords
    exact ⟨accounted_ended hs ho (fun n => get?_erase c.operations name n) hopen hend, hopen⟩

theorem rollBackAll_accounted {reason : String} {names : List String} (hs : c.Sound)
    (h : c.rollBackAll reason names = .ok (c', e)) :
    Accounted (some .forced) c e c' ∧ e.openings = [] := by
  induction names generalizing c e with
  | nil =>
    obtain ⟨rfl, rfl⟩ : c = c' ∧ {} = e := by simpa [rollBackAll] using h
    exact ⟨.same rfl rfl, rfl⟩
  | cons name rest ih =>
    simp only [rollBackAll, bind_eq_ok, pure_eq_ok, Prod.mk.injEq] at h
    obtain ⟨⟨c₁, first⟩, hfirst, ⟨c₂, more⟩, hmore, rfl, rfl⟩ := h
    obtain ⟨ha, ho⟩ := rollBack_accounted hs hfirst
    obtain ⟨ha', ho'⟩ := ih (rollBack_sound hs hfirst) hmore
    refine ⟨ha.trans ha' ho ho', ?_⟩
    rw [Effects.openings_append, ho, ho', List.append_nil]

theorem forceAborts_accounted {event : TopologyEvent} (hs : c.Sound)
    (h : c.forceAborts event = .ok (c', e)) : Accounted (some .forced) c e c' :=
  (rollBackAll_accounted hs h).1

theorem removePeer_accounted {peer : PeerId} {force : Bool} (hs : c.Sound)
    (h : c.removePeer peer force = .ok (c', e)) : Accounted (some .forced) c e c' := by
  obtain ⟨-, -, c₁, e₁, _, _, haborts, -, -, rfl, rfl⟩ := removePeer_eq_ok.1 h
  exact (forceAborts_accounted hs haborts).congr rfl (Effects.records_append rfl)

theorem createCollection_accounted {config : CollectionConfig} {placement : Placement}
    (h : c.createCollection name config placement = .ok (c', e)) : Accounted k c e c' := by
  obtain ⟨-, -, -, _, _, -, -, rfl, rfl⟩ := createCollection_eq_ok.1 h
  exact .same rfl rfl

theorem deleteCollection_accounted (hs : c.Sound) (h : c.deleteCollection name = .ok (c', e)) :
    Accounted (some .forced) c e c' := by
  obtain ⟨_, c₁, e₁, -, haborts, rfl, rfl⟩ := deleteCollection_eq_ok.1 h
  refine (forceAborts_accounted hs haborts).congr rfl ?_
  rw [Effects.records_append rfl, Effects.records_append rfl, Effects.records_append rfl]

theorem createShardKey_accounted {key : ShardKey} {placement : Placement}
    (h : c.createShardKey name key placement = .ok (c', e)) : Accounted k c e c' := by
  obtain ⟨_, _, -, -, -, -, -, -, -, rfl, rfl⟩ := createShardKey_eq_ok.1 h
  exact .same rfl rfl

theorem deleteShardKey_accounted {key : ShardKey} (hs : c.Sound)
    (h : c.deleteShardKey name key = .ok (c', e)) : Accounted (some .forced) c e c' := by
  obtain ⟨_, c₁, e₁, _, _, _, -, -, -, haborts, -, -, rfl, rfl⟩ := deleteShardKey_eq_ok.1 h
  refine (forceAborts_accounted hs haborts).congr rfl ?_
  rw [Effects.records_append rfl, Effects.records_append rfl, Effects.records_append rfl]

/-- An operation starts where there is none, and that is recorded. -/
theorem accounted_started {o : Operation} (ho : c.operations.get? o.collection = none)
    (hops : ∀ n, c'.operations.contains n = true ↔ c.operations.contains n = true ∨ n = o.collection)
    (he : e.records = ([o], [], [])) : Accounted k c e c' := by
  have hopen : e.openings = [o.collection] := Effects.openings_congr (e := { started := [o] }) he
  have hend : e.endings = [] := Effects.endings_congr (e := { started := [o] }) he
  refine ⟨?_, fun x hx => ?_, .inr hend⟩
  · rw [hopen, hend, List.map_nil, List.append_nil]
    exact (keys_perm_append (by simp [SortedMap.contains, ho]) hops).symm
  · rw [hend] at hx
    cases hx

theorem startResharding_accounted {plan : Plan} (h : c.startResharding plan = .ok (c', e)) :
    Accounted k c e c' := by
  obtain ⟨hidle, -, _, r, _, _, -, -, -, -, -, rfl, rfl⟩ := startResharding_eq_ok.1 h
  refine accounted_started (o := { plan.operation with stage := .starting }) hidle (fun n => ?_) rfl
  rw [SortedMap.contains, get?_insert, SortedMap.contains]
  by_cases hn : n = plan.operation.collection <;> simp [hn]

theorem commit_accounted {a : Action} {f : Router → Except Error Router}
    (h : c.commit name a f = .ok (c', e)) : Accounted k c e c' := by
  obtain ⟨coll, op, next, r, r', hface, -, -, -, rfl, -, hd⟩ := commit_redone h
  have ho : c.operations.get? name = some op := congrArg Face.operation hface
  exact hd.accounted (by rw [ho]; rfl) rfl

theorem finishResharding_accounted (hs : c.Sound) (h : c.finishResharding name = .ok (c', e)) :
    Accounted (some .finished) c e c' := by
  obtain ⟨coll, op, r, r', hface, -, -, -, -, hcase⟩ := finishResharding_redone h
  have ho : c.operations.get? name = some op := congrArg Face.operation hface
  obtain ⟨-, hd, _, -, -, rfl⟩ | ⟨-, hd, _, -, -, rfl⟩ := hcase
  · exact accounted_ended hs ho hd.operation rfl rfl
  · exact accounted_ended hs ho hd.operation rfl rfl

theorem startTransfer_accounted {t : Transfer} (h : c.startTransfer name t = .ok (c', e)) :
    Accounted k c e c' := by
  obtain ⟨_, _, -, -, -, -, -, -, -, -, -, -, -, rfl, rfl⟩ := startTransfer_eq_ok.1 h
  exact .same rfl rfl

theorem finishTransfer_accounted {key : TransferKey} {epoch : UInt64}
    (h : c.finishTransfer name key epoch = .ok (c', e)) : Accounted k c e c' := by
  obtain ⟨coll, t, -, -, -, -, ⟨-, e₁, hslice, rfl⟩ | ⟨-, _, _, -, rfl, rfl⟩⟩ := finishTransfer_eq_ok.1 h
  · obtain ⟨starts, rfl, -, -, hd⟩ := finishSlice_redone hslice
    exact hd.accounted Option.isSome_map rfl
  · exact .same rfl rfl

theorem discardTransfer_accounted {coll : Collection} {key : TransferKey}
    (h : c.discardTransfer name coll key = .ok (c', e)) : Accounted k c e c' := by
  obtain ⟨rfl, -, hd⟩ := discardTransfer_redone h
  exact hd.accounted rfl rfl

theorem failTransfer_accounted {key : TransferKey} {epoch : UInt64} {reason : String} (hs : c.Sound)
    (h : c.failTransfer name key epoch reason = .ok (c', e)) : Accounted (some .forced) c e c' := by
  obtain ⟨coll, t, e₁, -, -, -, ⟨-, hroll, rfl⟩ | ⟨-, hdiscard, rfl⟩⟩ := failTransfer_eq_ok.1 h
  · exact (rollBack_accounted hs hroll).1.congr rfl (Effects.records_append rfl)
  · exact (discardTransfer_accounted hdiscard).congr rfl (Effects.records_append rfl)

theorem abortTransfer_accounted {key : TransferKey} (h : c.abortTransfer name key = .ok (c', e)) :
    Accounted k c e c' := by
  obtain ⟨coll, t, e₁, -, -, -, hdiscard, rfl⟩ := abortTransfer_eq_ok.1 h
  have h₁ : Accounted k c e₁ c' := discardTransfer_accounted hdiscard
  exact h₁.congr rfl rfl

/-- The table of operations changes as an entry records it. -/
theorem apply_accounted {entry : Entry} (hs : c.Sound) (h : c.apply entry = .ok (c', e)) :
    Accounted entry.ending c e c' := by
  cases entry with
  | addPeer peer =>
    obtain ⟨-, rfl, rfl⟩ := addPeer_eq_ok.1 h
    exact .same rfl rfl
  | removePeer peer force => exact removePeer_accounted hs h
  | createCollection name config placement => exact createCollection_accounted h
  | deleteCollection name => exact deleteCollection_accounted hs h
  | createShardKey name key placement => exact createShardKey_accounted h
  | deleteShardKey name key => exact deleteShardKey_accounted hs h
  | startResharding plan => exact startResharding_accounted h
  | commitRead name => exact commit_accounted h
  | commitWrite name => exact commit_accounted h
  | finishResharding name => exact finishResharding_accounted hs h
  | abortResharding name forced reason =>
    obtain ⟨_, _, -, -, h⟩ := abortResharding_eq_ok.1 h
    exact (rollBack_accounted hs h).1
  | startTransfer name t => exact startTransfer_accounted h
  | finishTransfer name key epoch => exact finishTransfer_accounted h
  | failTransfer name key epoch reason => exact failTransfer_accounted hs h
  | abortTransfer name key => exact abortTransfer_accounted h
  | dropReplica name q p =>
    obtain ⟨-, _, _, _, -, -, -, rfl, rfl⟩ := dropReplica_eq_ok.1 h
    exact .same rfl rfl
  | setReplicaState name q p state =>
    obtain ⟨-, -, _, _, _, -, -, -, rfl, rfl⟩ := setReplicaState_eq_ok.1 h
    exact .same rfl rfl

/-- The collections that have an operation and had none. -/
def opened (c c' : Cluster) : List String :=
  c'.operations.keys.filter (fun n => !c.operations.contains n)

theorem opened_eq (c c' : Cluster) :
    c.opened c' = c'.operations.keys.filter (fun n => decide (n ∉ c.operations.keys)) := by
  refine List.filter_congr fun n _ => ?_
  cases hn : c.operations.contains n with
  | true => simp [mem_keys.2 (contains_iff.1 hn)]
  | false =>
    have hnot : n ∉ c.operations.keys := fun hin => by
      rw [contains_iff.2 (mem_keys.1 hin)] at hn
      cases hn
    simp [hnot]

end Cluster

/-- What a list has more than a part of it. -/
theorem filter_of_perm {l m x : List String} (h : l.Perm (m ++ x)) (hl : l.Nodup) :
    (l.filter (fun n => decide (n ∉ m))).Perm x ∧ m.filter (fun n => decide (n ∉ l)) = [] := by
  obtain ⟨-, -, hapart⟩ := List.nodup_append.1 (h.nodup_iff.1 hl)
  constructor
  · have hm : m.filter (fun n => decide (n ∉ m)) = [] :=
      List.filter_eq_nil_iff.2 fun n hn => by simpa using hn
    have hx : x.filter (fun n => decide (n ∉ m)) = x :=
      List.filter_eq_self.2 fun n hn => by simpa using fun hin => hapart n hin n hn rfl
    have hall := h.filter (fun n => decide (n ∉ m))
    rwa [List.filter_append, hm, hx, List.nil_append] at hall
  · exact List.filter_eq_nil_iff.2 fun n hn => by simpa using h.mem_iff.2 (List.mem_append_left x hn)

namespace Accounted
variable {k : Option Ending} {c c' : Cluster} {e : Effects}

/-- The records name the operations that have come and those that have gone. -/
theorem opened (h : Accounted k c e c') :
    (c.opened c').Perm e.openings ∧ (c'.opened c).Perm (e.endings.map (·.2)) := by
  have hb := h.balance
  rw [Cluster.opened_eq, Cluster.opened_eq]
  obtain ho | hx := h.apart
  · rw [ho, List.append_nil] at hb
    obtain ⟨hgone, hcome⟩ := filter_of_perm hb (keys_nodup _)
    rw [ho, hcome]
    exact ⟨.nil, hgone⟩
  · rw [hx, List.map_nil, List.append_nil] at hb
    obtain ⟨hcome, hgone⟩ := filter_of_perm hb.symm (keys_nodup _)
    rw [hx, hgone]
    exact ⟨hcome, .nil⟩

end Accounted

/-- All that has become of operations: the collections of those that have started, and of those that
have ended, with how. -/
structure Turnover where
  started : List String := []
  ended : List (Option Ending × String) := []
  deriving DecidableEq, Inhabited

namespace Turnover
variable {T : Turnover} {k : Option Ending} {c c' : Cluster} {e : Effects}

/-- What is to be added when the table of operations changes, and those that go end in a given way. -/
def after (T : Turnover) (k : Option Ending) (c c' : Cluster) : Turnover :=
  ⟨T.started ++ c.opened c', T.ended ++ (c'.opened c).map (k, ·)⟩

/-- How many operations have ended in that way. -/
def count (T : Turnover) (x : Ending) : Nat := T.ended.countP (·.1 == some x)

/-- Where all ends are explained, each is of one of the three kinds. -/
theorem length_ended (h : ∀ x ∈ T.ended, x.1 ≠ none) :
    T.count .finished + (T.count .asked + T.count .forced) = T.ended.length := by
  have hall : ∀ l : List (Option Ending × String), (∀ x ∈ l, x.1 ≠ none) →
      l.countP (·.1 == some .finished) + (l.countP (·.1 == some .asked) +
        l.countP (·.1 == some .forced)) = l.length := by
    intro l hl
    induction l with
    | nil => rfl
    | cons x rest ih =>
      obtain ⟨hx, hrest⟩ := List.forall_mem_cons.1 hl
      have hone := ih hrest
      obtain ⟨k, hk⟩ := Option.ne_none_iff_exists'.1 hx
      simp only [List.countP_cons, List.length_cons, hk]
      cases k <;> simp <;> omega
  exact hall T.ended h

theorem after_same (h : c'.operations = c.operations) : T.after k c c' = T := by
  have hopened : ∀ a b : Cluster, b.operations = a.operations → a.opened b = [] := by
    intro a b hab
    rw [Cluster.opened_eq, hab]
    exact List.filter_eq_nil_iff.2 fun n hn => by simpa using hn
  rw [after, hopened c c' h, hopened c' c h.symm, List.map_nil, List.append_nil, List.append_nil]

variable (h : Accounted k c e c')
include h

theorem started_after : (T.after k c c').started.length = T.started.length + e.started.length := by
  rw [after, List.length_append, h.opened.1.length_eq, Effects.openings, List.length_map]

theorem ended_after :
    (T.after k c c').ended.Perm (T.ended ++ e.endings.map (fun x => (some x.1, x.2))) := by
  have hgone := h.opened.2.map (fun n => (k, n))
  have hways : (e.endings.map (·.2)).map (fun n => (k, n)) =
      e.endings.map (fun x => (some x.1, x.2)) := by
    rw [List.map_map]
    exact List.map_congr_left fun x hx => by rw [Function.comp_apply, h.ending x hx]
  rw [hways] at hgone
  exact hgone.append_left T.ended

theorem count_after (x : Ending) :
    (T.after k c c').count x = T.count x + e.endings.countP (·.1 == x) := by
  rw [count, (ended_after h).countP_eq, List.countP_append, List.countP_map, count]
  rfl

theorem live_after (hT : T.started.Perm (T.ended.map (·.2) ++ c.operations.keys)) :
    (T.after k c c').started.Perm ((T.after k c c').ended.map (·.2) ++ c'.operations.keys) := by
  refine List.perm_iff_count.2 fun n => ?_
  obtain ⟨hcome, hgone⟩ := h.opened
  have hcome := hcome.count_eq n
  have hgone := hgone.count_eq n
  have hb := h.balance.count_eq n
  have hT := hT.count_eq n
  have hends : ((c'.opened c).map (k, ·)).map (·.2) = c'.opened c := by
    rw [List.map_map]
    exact List.map_id _
  simp only [after, List.map_append, List.count_append, hends] at hb hT ⊢
  omega

end Turnover

namespace Effects
variable (e : Effects)

theorem length_endings : e.endings.length = e.finished.length + e.aborted.length := by
  rw [endings, List.length_append, List.length_map, List.length_map]

theorem countP_endings (x : Ending) : e.endings.countP (·.1 == x) =
    (if x = .finished then e.finished.length else 0) + e.aborted.countP (·.ending == x) := by
  rw [endings, List.countP_append, List.countP_map, List.countP_map]
  congr 1
  cases x <;> simp [Function.comp_def]

theorem countP_finished : e.endings.countP (·.1 == .finished) = e.finished.length := by
  have haborted : e.aborted.countP (·.ending == .finished) = 0 := by
    refine List.countP_eq_zero.2 fun a _ => ?_
    rw [Aborted.ending]
    cases a.forced <;> decide
  rw [countP_endings, haborted, if_pos rfl, Nat.add_zero]

theorem countP_forced : e.endings.countP (·.1 == .forced) = e.aborted.countP (·.forced) := by
  rw [countP_endings, if_neg nofun, Nat.zero_add]
  refine List.countP_congr fun a _ => ?_
  rw [Aborted.ending]
  cases a.forced <;> decide

/-- An abort is asked for or forced. -/
theorem countP_aborted : e.endings.countP (·.1 == .asked) + e.endings.countP (·.1 == .forced) =
    e.aborted.length := by
  have hasked : e.aborted.countP (·.ending == .asked) = e.aborted.countP (fun a => ¬a.forced) := by
    refine List.countP_congr fun a _ => ?_
    rw [Aborted.ending]
    cases a.forced <;> decide
  rw [countP_forced, countP_endings, hasked, if_neg nofun, Nat.zero_add, Nat.add_comm]
  exact (List.length_eq_countP_add_countP _).symm

end Effects

/-- As many operations are live after an entry as its records make it. -/
theorem Accounted.size {k : Option Ending} {c c' : Cluster} {e : Effects} (h : Accounted k c e c') :
    c'.operations.size + e.finished.length + e.aborted.length =
      c.operations.size + e.started.length := by
  have hlen := h.balance.length_eq
  simp only [List.length_append, List.length_map, Effects.openings, Effects.length_endings,
    SortedMap.keys] at hlen
  simp only [SortedMap.size]
  omega

end ShardCluster
