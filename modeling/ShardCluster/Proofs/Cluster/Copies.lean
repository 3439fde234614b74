import ShardCluster.Proofs.Cluster.Ready
import ShardCluster.Proofs.Cluster.Rollback
/-! The copies that a cluster should be making. Every accepted entry ends and starts copies, and what
is left under way is one copy for each running transfer. -/
namespace ShardCluster
open SortedMap

namespace Face

/-- The copies of one collection. -/
def copies (F : Face) (name : String) : Except Error (List CopyRequest) :=
  match F.collection with
  | none => .ok []
  | some coll => (coll.transfers.filter (·.status == .running)).mapM fun t =>
    if t.resharding then
      do return Cluster.copyOf name (← coll.router (F.operation.bind (·.key))) t
    else return ⟨name, t.key, t.epoch, none⟩

/-- Ask for the copy of a whole shard. -/
def wholeOf (name : String) (t : Transfer) : CopyRequest := ⟨name, t.key, t.epoch, none⟩

end Face

open scoped Classical in
/-- The copies under way after a change: some have ended, and others start. -/
noncomputable def Wake.after (w : Wake) (copies : List CopyRequest) : List CopyRequest :=
  copies.filter (fun c => ¬w.ends c.key) ++ w.starts

theorem Wake.after_perm {w : Wake} {copies copies' : List CopyRequest} (h : copies.Perm copies') :
    (w.after copies).Perm (w.after copies') :=
  (h.filter _).append_right _

theorem Wake.after_still (copies : List CopyRequest) : still.after copies = copies := by
  simp [after, still]

theorem Wake.after_append {w w' : Wake} (h : w.starts = []) (copies : List CopyRequest) :
    (w ++ w').after copies = w'.after (w.after copies) := by
  have hends : ∀ k, (w ++ w').ends k ↔ w.ends k ∨ w'.ends k := fun _ => Iff.rfl
  have hstarts : (w ++ w').starts = w'.starts := by rw [append_def, h, List.nil_append]
  rw [after, after, after, hstarts, h, List.append_nil, List.filter_filter]
  congr 1
  refine List.filter_congr fun c _ => ?_
  rw [Bool.eq_iff_iff]
  simp [hends, and_comm]

/-- The running transfers after one of those that wait has been let in. -/
theorem Cluster.release_running (d : ShardId × PeerId) (l : List Transfer) :
    ((release d l).1.filter (·.status == .running)).Perm
      (l.filter (·.status == .running) ++ (release d l).2.toList) := by
  induction l with
  | nil => exact .nil
  | cons t rest ih =>
    rw [release]
    split
    · rename_i h
      obtain ⟨hpending, -⟩ := h
      simpa [hpending] using (List.perm_append_singleton _ _).symm
    · by_cases hr : t.status = .running
      · simpa [hr] using ih.cons t
      · simpa [hr] using ih

namespace Face
variable {F F' : Face} {w : Wake} {name : String} {coll coll' : Collection} {op : Option Operation}
  {o : Operation} {l l' : Layout} {r r' : Router} {copies copies' : List CopyRequest}

theorem copies_nil (h : F.transfers = []) : F.copies name = .ok [] := by
  obtain ⟨coll, op, l⟩ := F
  cases coll with
  | none => rfl
  | some coll =>
    have h : coll.transfers = [] := h
    simp [Face.copies, h, pure, Except.pure]

/-- Without an operation whole shards are copied. -/
theorem copies_idle (hf : Fits ⟨some coll, none, l⟩) : Face.copies ⟨some coll, none, l⟩ name =
    .ok ((coll.transfers.filter (·.status == .running)).map (wholeOf name)) := by
  refine mapM_ok fun t ht => ?_
  have hwhole := (hf.idle.2 t (List.mem_filter.1 ht).1).whole
  simp [hwhole, wholeOf, pure, Except.pure]

/-- With an operation slices are, as its rings have it. -/
theorem copies_live (hf : Fits ⟨some coll, some o, l⟩) (hr : coll.router o.key = .ok r) :
    Face.copies ⟨some coll, some o, l⟩ name =
      .ok ((coll.transfers.filter (·.status == .running)).map (Cluster.copyOf name r)) := by
  refine mapM_ok fun t ht => ?_
  have hslice := (hf.fit coll rfl).slices hr t (List.mem_filter.1 ht).1
  simp [hslice, hr, pure, Except.pure, bind, Except.bind]

/-- Each running transfer has one copy. -/
theorem copies_eq (hf : F.Fits) (name : String) : ∃ copy : Transfer → CopyRequest,
    (∀ t, (copy t).key = t.key ∧ (copy t).collection = name) ∧
      F.copies name = .ok ((F.transfers.filter (·.status == .running)).map copy) := by
  obtain ⟨coll, op, l⟩ := F
  cases coll with
  | none => exact ⟨wholeOf name, fun _ => ⟨rfl, rfl⟩, rfl⟩
  | some coll =>
    cases op with
    | none => exact ⟨wholeOf name, fun _ => ⟨rfl, rfl⟩, copies_idle hf⟩
    | some o =>
      obtain ⟨r, hr, -⟩ := hf.live
      exact ⟨Cluster.copyOf name r, fun _ => ⟨rfl, rfl⟩, copies_live hf hr⟩

/-- Nothing is left where every transfer has ended. -/
theorem after_ended (hf : F.Fits) (hc : F.copies name = .ok copies)
    (he : ∀ t ∈ F.transfers, w.ends t.key) : w.after copies = w.starts := by
  obtain ⟨copy, hcopy, hall⟩ := copies_eq hf name
  obtain rfl := Except.ok.inj (hall.symm.trans hc)
  have hnone : ∀ c ∈ (F.transfers.filter (·.status == .running)).map copy, w.ends c.key := by
    intro c hin
    obtain ⟨t, ht, rfl⟩ := List.mem_map.1 hin
    exact (hcopy t).1 ▸ he t (List.mem_filter.1 ht).1
  rw [Wake.after, List.filter_eq_nil_iff.2 fun c hin => by simpa using hnone c hin, List.nil_append]

/-- Those that are left run as they did. -/
theorem after_filter {transfers : List Transfer} {copy : Transfer → CopyRequest}
    (hkey : ∀ t, (copy t).key = t.key) {p : Transfer → Bool}
    (he : ∀ t ∈ transfers, w.ends t.key ↔ p t = false) :
    w.after ((transfers.filter (·.status == .running)).map copy) =
      (((transfers.filter p).filter (·.status == .running)).map copy) ++ w.starts := by
  rw [Wake.after, List.filter_map]
  congr 2
  rw [List.filter_filter, List.filter_filter]
  refine List.filter_congr fun t ht => ?_
  rw [Bool.eq_iff_iff]
  simp [hkey, he t ht, and_comm]

/-- Some transfers leave the table, and no copy starts. -/
theorem copies_kept {p : Transfer → Bool} (hf : Fits ⟨some coll, op, l⟩)
    (hf' : Fits ⟨some coll', op, l'⟩)
    (hr : ∀ o, op = some o → coll'.router o.key = coll.router o.key)
    (ht : coll'.transfers = coll.transfers.filter p)
    (he : ∀ t ∈ coll.transfers, w.ends t.key ↔ p t = false) (hs : w.starts = [])
    (hc : Face.copies ⟨some coll, op, l⟩ name = .ok copies) :
    Face.copies ⟨some coll', op, l'⟩ name = .ok (w.after copies) := by
  cases op with
  | none =>
    obtain rfl := Except.ok.inj ((copies_idle hf).symm.trans hc)
    rw [copies_idle hf', ht, after_filter (fun _ => rfl) he, hs, List.append_nil]
  | some o =>
    obtain ⟨r, hrouter, -⟩ := hf.live
    obtain rfl := Except.ok.inj ((copies_live hf hrouter).symm.trans hc)
    rw [copies_live hf' ((hr o rfl).trans hrouter), ht, after_filter (fun _ => rfl) he, hs,
      List.append_nil]

/-- No transfer is left, and no copy starts. -/
theorem copies_ended (hf : F.Fits) (hc : F.copies name = .ok copies) (ht : F'.transfers = [])
    (he : ∀ t ∈ F.transfers, w.ends t.key) (hs : w.starts = []) :
    F'.copies name = .ok (w.after copies) := by
  rw [copies_nil ht, after_ended hf hc he, hs]

/-- After the first stage of an operation there is no copy. -/
theorem copies_later {op' : Option Operation} (hf : Fits ⟨some coll, some o, l⟩)
    (hc : Face.copies ⟨some coll, some o, l⟩ name = .ok copies) (hstage : o.stage ≠ .starting)
    (hs : w.starts = []) :
    Face.copies ⟨some (coll.setRouter o.key r'), op', l'⟩ name = .ok (w.after copies) := by
  obtain ⟨r, hr, -⟩ := hf.live
  have ht : coll.transfers = [] := (hf.fit coll rfl).transfers_nil hr hstage
  exact copies_ended hf hc ht (fun t hin => by simp [ht] at hin) hs

end Face

namespace RollsBack
variable {F F' : Face} {w : Wake} {name : String} {asked : List CopyRequest}

theorem copies (h : RollsBack F w F') (hf : F.Fits) (hc : F.copies name = .ok asked) :
    F'.copies name = .ok (w.after asked) := by
  have hends : ∀ t ∈ F.transfers, w.ends t.key := by
    cases h with
    | @up coll o l r hr hd => exact fun t ht => ⟨t, ht, (hf.fit coll rfl).slices hr t ht, rfl⟩
    | @down coll o l r hr hd => exact fun t ht => ⟨t, ht, (hf.fit coll rfl).slices hr t ht, rfl⟩
  exact Face.copies_ended hf hc (hf.transfers_nil h) hends h.starts_nil

end RollsBack

namespace Face
variable {F F' : Face} {w : Wake} {name : String} {coll : Collection} {o : Operation} {l : Layout}
  {t : Transfer} {epoch : UInt64} {entry : Entry} {copies : List CopyRequest}

theorem key_eq_iff {t' : Transfer} : t.key = t'.key ↔ (!(t'.key == t.key)) = false := by
  rw [Bool.not_eq_false', beq_iff_eq]
  exact eq_comm

/-- One copy ends, and the next one into the replica starts. -/
theorem copies_sliced {transfers : List Transfer} {next : Option Transfer}
    {starts : List CopyRequest} {wipes : ShardId → PeerId → PointId → Prop}
    (hf : Fits ⟨some coll, some o, l⟩)
    (hf' : Fits ⟨some { coll with transfers }, some (o.settled transfers), l⟩)
    (hn : Cluster.release t.key.destination (coll.transfers.eraseP (·.key == t.key)) =
      (transfers, next))
    (hw : next = none ∧ starts = [] ∨ ∃ t' r, next = some t' ∧ coll.router o.key = .ok r ∧
      starts = [Cluster.copyOf name r t'])
    (hc : Face.copies ⟨some coll, some o, l⟩ name = .ok copies) :
    ∃ copies', Face.copies ⟨some { coll with transfers }, some (o.settled transfers), l⟩ name =
      .ok copies' ∧ copies'.Perm (Wake.after ⟨(t.key = ·), wipes, starts⟩ copies) := by
  obtain ⟨r, hr, -⟩ := hf.live
  have hr' : Collection.router { coll with transfers } (o.settled transfers).key = .ok r := by
    rw [Operation.settled_eq]
    exact hr
  have hstarts : starts = next.toList.map (Cluster.copyOf name r) := by
    obtain ⟨rfl, rfl⟩ | ⟨t', r', rfl, hrouter, rfl⟩ := hw
    · rfl
    · obtain rfl := Except.ok.inj (hr.symm.trans hrouter)
      rfl
  obtain rfl := Except.ok.inj ((copies_live hf hr).symm.trans hc)
  refine ⟨_, copies_live hf' hr', ?_⟩
  have hperm := Cluster.release_running t.key.destination (coll.transfers.eraseP (·.key == t.key))
  rw [hn, Transfer.eraseP_key (hf.fit coll rfl).keys] at hperm
  rw [after_filter (fun _ => rfl) (fun t' _ => key_eq_iff), hstarts, ← List.map_append]
  exact hperm.map _

/-- The copies that a change leaves under way are those that there should be after it. -/
theorem Fits.copies_change (hf : F.Fits) (hf' : F'.Fits) (hc : Change name epoch entry F w F')
    (hcopies : F.copies name = .ok copies) :
    ∃ copies', F'.copies name = .ok copies' ∧ copies'.Perm (w.after copies) := by
  cases hc with
  | foundAuto => exact ⟨_, copies_ended hf hcopies rfl nofun rfl, .refl _⟩
  | foundCustom => exact ⟨_, copies_ended hf hcopies rfl nofun rfl, .refl _⟩
  | deleted =>
    refine ⟨_, copies_ended hf hcopies rfl (fun t ht => ?_) rfl, .refl _⟩
    exact ⟨t, ht, rfl⟩
  | @keyAdded coll op l k placement n hm hk hp hn hh =>
    refine ⟨_, copies_kept hf hf' (fun o ho => ?_) (List.filter_true _).symm
      (fun _ _ => by simp [Wake.still]) rfl hcopies, .refl _⟩
    subst ho
    obtain ⟨r, -, hr, -⟩ := hf.live
    refine Collection.router_congr rfl (get?_insert_of_ne (fun he => ?_) _ _)
    rw [he, hk] at hr
    cases hr
  | @keyDropped coll op l k r hr ho =>
    refine ⟨_, copies_kept hf hf' (fun o hop => ?_) rfl (fun t ht => ?_) rfl hcopies, .refl _⟩
    · exact Collection.router_congr rfl (get?_erase_of_ne (ho o hop) _)
    · simp only [Bool.not_eq_false', Bool.or_eq_true, List.contains_iff_mem]
      constructor
      · intro hx
        obtain ⟨t', -, hin, hk⟩ := hx
        rwa [hk] at hin
      · exact fun hin => ⟨t, ht, hin, rfl⟩
  | @started coll l plan r r' hn ht hr hr' hl =>
    refine ⟨_, copies_live hf' (Face.Agrees.router_setRouter hr r'), ?_⟩
    rw [after_ended hf hcopies]
    intro t hin
    have hin : t ∈ coll.transfers := hin
    simp [ht] at hin
  | readCommitted hs => exact ⟨_, copies_later hf hcopies (by simp [hs]) rfl, .refl _⟩
  | writeCommitted hs => exact ⟨_, copies_later hf hcopies (by simp [hs]) rfl, .refl _⟩
  | finishedUp hs => exact ⟨_, copies_later hf hcopies (by simp [hs]) rfl, .refl _⟩
  | finishedDown hs => exact ⟨_, copies_later hf hcopies (by simp [hs]) rfl, .refl _⟩
  | rolledBack hb => exact ⟨_, hb.copies hf hcopies, .refl _⟩
  | @replicated coll l t hm hq hs hd hk =>
    obtain rfl := Except.ok.inj ((copies_idle hf).symm.trans hcopies)
    refine ⟨_, copies_idle hf', ?_⟩
    simp [Wake.after, wholeOf]
  | @copied coll op l t ht hs hm hd =>
    exact ⟨_, copies_kept hf hf' (fun _ _ => rfl) (Transfer.eraseP_key (hf.fit coll rfl).keys _)
      (fun t' _ => key_eq_iff) rfl hcopies, .refl _⟩
  | @sliced coll op l t transfers next starts ht hs hm hn hw =>
    cases op with
    | none =>
      rw [(hf.idle.2 t ht).whole] at hm
      cases hm
    | some o => exact copies_sliced hf hf' hn hw hcopies
  | @discarded entry coll op l t he ht hm =>
    exact ⟨_, copies_kept hf hf' (fun _ _ => rfl) rfl (fun t' _ => key_eq_iff) rfl hcopies,
      .refl _⟩
  | @unclaimed coll l t reason ht hm =>
    rw [(hf.idle.2 t ht).whole] at hm
    cases hm
  | replicaDropped =>
    exact ⟨_, copies_kept hf hf' (fun _ _ => rfl) (List.filter_true _).symm (by simp) rfl hcopies,
      .refl _⟩
  | stateSet =>
    exact ⟨_, copies_kept hf hf' (fun _ _ => rfl) (List.filter_true _).symm
      (by simp [Wake.still]) rfl hcopies, .refl _⟩
  | @evicted coll op l peer force ho hfree =>
    refine ⟨_, copies_kept hf hf' (fun _ _ => rfl) rfl (fun t ht => ?_) rfl hcopies, .refl _⟩
    simp only [Bool.not_eq_false']
    constructor
    · intro hx
      obtain ⟨t', -, hin, hk⟩ := hx
      rwa [hk] at hin
    · exact fun hin => ⟨t, ht, hin, rfl⟩

theorem Fits.copies_changes (hf : F.Fits) (hf' : F'.Fits) (hc : Changes name epoch entry F w F')
    (hcopies : F.copies name = .ok copies) :
    ∃ copies', F'.copies name = .ok copies' ∧ copies'.Perm (w.after copies) := by
  cases hc with
  | none => exact ⟨copies, hcopies, by rw [Wake.after_still]⟩
  | one hc => exact hf.copies_change hf' hc hcopies
  | two hb hc =>
    rw [Wake.after_append hb.starts_nil]
    exact (hf.rollsBack hb).copies_change hf' hc (hb.copies hf hcopies)

end Face

namespace Effects

/-- Whether the transfer of a copy is named, as cancelled or as completed. -/
def ends (e : Effects) (c : CopyRequest) : Bool :=
  e.cancel.contains (c.collection, c.key) ||
    e.completed.any (fun x => x.1 == c.collection && x.2.key == c.key)

/-- The copies that were asked for and whose transfers no later effects name. -/
def outstanding : List Effects → List CopyRequest
  | [] => []
  | e :: later => e.spawn.filter (fun c => !later.any (·.ends c)) ++ outstanding later

theorem outstanding_snoc (es : List Effects) (e : Effects) :
    outstanding (es ++ [e]) = (outstanding es).filter (fun c => !e.ends c) ++ e.spawn := by
  induction es with
  | nil => simp [outstanding]
  | cons x rest ih =>
    have hfirst : x.spawn.filter (fun c => !(rest ++ [e]).any (·.ends c)) =
        (x.spawn.filter (fun c => !rest.any (·.ends c))).filter (fun c => !e.ends c) := by
      rw [List.filter_filter]
      refine List.filter_congr fun c _ => ?_
      simp [Bool.and_comm]
    rw [List.cons_append, outstanding, outstanding, ih, hfirst, List.filter_append,
      List.append_assoc]

theorem ends_iff {e : Effects} {c : CopyRequest} :
    e.ends c = true ↔ (e.wake c.collection).ends c.key := by
  simp only [ends, wake, Bool.or_eq_true, List.contains_iff_mem, List.any_eq_true, Bool.and_eq_true,
    beq_iff_eq]
  constructor
  · intro h
    obtain h | ⟨⟨name, t⟩, hx, rfl, hk⟩ := h
    · exact .inl h
    · exact .inr ⟨t, hx, hk⟩
  · intro h
    obtain h | ⟨t, hx, hk⟩ := h
    · exact .inl h
    · exact .inr ⟨_, hx, rfl, hk⟩

/-- The copies of one collection. -/
theorem after_wake (e : Effects) (name : String) (asked : List CopyRequest) :
    (e.wake name).after (asked.filter (·.collection == name)) =
      (asked.filter (fun c => !e.ends c) ++ e.spawn).filter (·.collection == name) := by
  rw [Wake.after, List.filter_append, List.filter_filter, List.filter_filter]
  congr 1
  refine List.filter_congr fun c _ => ?_
  rw [Bool.eq_iff_iff]
  simp only [Bool.and_eq_true, decide_eq_true_eq, beq_iff_eq, Bool.not_eq_true', ← Bool.not_eq_true,
    ends_iff]
  constructor
  · intro h
    obtain ⟨hends, rfl⟩ := h
    exact ⟨rfl, hends⟩
  · intro h
    obtain ⟨rfl, hends⟩ := h
    exact ⟨hends, rfl⟩

end Effects

namespace Cluster
variable {c c' : Cluster} {entry : Entry} {e : Effects} {asked : List CopyRequest}

/-- The copies that were asked for are those that there should be. -/
def UnderWay (c : Cluster) (asked : List CopyRequest) : Prop :=
  ∀ name, ∃ copies, (c.face name).copies name = .ok copies ∧
    copies.Perm (asked.filter (·.collection == name))

theorem UnderWay.step (h : c.UnderWay asked) (hc : Reached Planned c) (hp : c.Planned entry)
    (happly : c.apply entry = .ok (c', e)) :
    c'.UnderWay (asked.filter (fun c => !e.ends c) ++ e.spawn) := by
  intro name
  obtain ⟨copies, hcopies, hperm⟩ := h name
  have hchanges := (apply_step hc.sound happly).changes name
  obtain ⟨copies', hcopies', hafter⟩ :=
    (hc.fits name).copies_changes ((hc.step hp happly).fits name) hchanges hcopies
  refine ⟨copies', hcopies', hafter.trans ?_⟩
  rw [← Effects.after_wake]
  exact Wake.after_perm hperm

/-- What is gathered from some collections, if all that is asked for is in one of them. -/
theorem gathered {copies : String × Collection → Except Error (List CopyRequest)}
    {l : List (String × Collection)} (hl : (l.map (·.1)).Nodup)
    (hin : ∀ r ∈ asked, r.collection ∈ l.map (·.1))
    (h : ∀ x ∈ l, ∃ here, copies x = .ok here ∧ here.Perm (asked.filter (·.collection == x.1)))
    (start : List CopyRequest) : ∃ all, l.foldlM (fun done x => do return done ++ (← copies x)) start =
      .ok (start ++ all) ∧ all.Perm asked := by
  induction l generalizing start asked with
  | nil =>
    obtain rfl := List.eq_nil_iff_forall_not_mem.2 fun r hr => nomatch hin r hr
    exact ⟨[], by simp [pure, Except.pure], .nil⟩
  | cons x rest ih =>
    obtain ⟨hnew, hl⟩ := List.nodup_cons.1 hl
    obtain ⟨⟨first, hfirst, hperm⟩, h⟩ := List.forall_mem_cons.1 h
    -- what is asked for in the other collections
    let others := asked.filter (fun r => !(r.collection == x.1))
    have hothers : ∀ r ∈ others, r.collection ∈ rest.map (·.1) := fun r hr => by
      obtain ⟨hr, hne⟩ := List.mem_filter.1 hr
      exact (List.mem_cons.1 (hin r hr)).resolve_left (by simpa using hne)
    have hrest : ∀ y ∈ rest, ∃ here, copies y = .ok here ∧
        here.Perm (others.filter (·.collection == y.1)) := fun y hy => by
      obtain ⟨here, hok, hperm⟩ := h y hy
      have hne : y.1 ≠ x.1 := fun he => hnew (List.mem_map.2 ⟨y, hy, he⟩)
      have hsame : others.filter (·.collection == y.1) = asked.filter (·.collection == y.1) := by
        rw [List.filter_filter]
        refine List.filter_congr fun r _ => ?_
        rw [Bool.eq_iff_iff]
        simp only [Bool.and_eq_true, beq_iff_eq, Bool.not_eq_true', beq_eq_false_iff_ne]
        exact ⟨And.left, fun hr => ⟨hr, hr ▸ hne⟩⟩
      exact ⟨here, hok, hsame ▸ hperm⟩
    obtain ⟨more, hmore, hperms⟩ := ih hl hothers hrest (start ++ first)
    refine ⟨first ++ more, ?_, (hperm.append hperms).trans (List.filter_append_perm _ _)⟩
    rw [List.foldlM_cons, hfirst, ← List.append_assoc]
    exact hmore

/-- The copies of all collections. -/
theorem UnderWay.runningCopies (h : c.UnderWay asked) :
    ∃ copies, c.runningCopies = .ok copies ∧ copies.Perm asked := by
  have hgathered : c.runningCopies = c.collections.entries.foldlM (fun done x => do
      return done ++ (← Face.copies ⟨some x.2, c.operation? x.1, c.replicas.look x.1⟩ x.1)) [] := rfl
  rw [hgathered]
  refine gathered c.collections.keys_nodup (fun r hr => ?_) (fun x hx => ?_) []
  · -- a collection that is not there has no copies
    obtain ⟨copies, hcopies, hperm⟩ := h r.collection
    have hin : r ∈ copies := hperm.mem_iff.2 (List.mem_filter.2 ⟨hr, by simp⟩)
    cases hget : c.collections.get? r.collection with
    | none =>
      have hnone : (c.face r.collection).transfers = [] := by rw [face, hget]; rfl
      obtain rfl := Except.ok.inj ((Face.copies_nil hnone).symm.trans hcopies)
      cases hin
    | some coll => exact mem_keys.2 ⟨coll, hget⟩
  · have hget := mem_entries.1 hx
    have hcopies := h x.1
    rwa [face, hget] at hcopies

end Cluster
end ShardCluster
