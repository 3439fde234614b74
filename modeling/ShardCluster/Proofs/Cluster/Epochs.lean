import ShardCluster.Proofs.Cluster.Ready
/-! Reports and epochs. Every transfer gets the epoch of the entry that schedules it, and epochs only
grow: what has left the table never comes back, and a report of it is refused for good. -/
namespace ShardCluster

/-- What a report names: a transfer of a collection, and the entry that scheduled it. -/
structure Ticket where
  collection : String
  key : TransferKey
  epoch : UInt64
  deriving DecidableEq

def CopyRequest.ticket (x : CopyRequest) : Ticket := ⟨x.collection, x.key, x.epoch⟩

/-- The transfer that an entry reports as finished or failed. -/
def Entry.ticket : Entry → Option Ticket
  | .finishTransfer name key epoch | .failTransfer name key epoch _ => some ⟨name, key, epoch⟩
  | _ => none

namespace Face
variable {F F' : Face} {w : Wake} {name : String} {epoch : UInt64} {entry : Entry}

/-- Where the transfers after a change come from, and the copies that it starts. -/
structure Moves (F : Face) (name : String) (fresh : UInt64 → Prop) (starts : List CopyRequest)
    (F' : Face) : Prop where
  /-- A transfer is new, or it was there and goes on if it ran. -/
  kept : ∀ t' ∈ F'.transfers, fresh t'.epoch ∨
    ∃ t ∈ F.transfers, t.key = t'.key ∧ t.epoch = t'.epoch ∧ (t.status = .running → t'.status = .running)
  /-- A copy starts with a transfer that is new or waited until then. -/
  started : ∀ x ∈ starts, x.collection = name ∧
    (∃ t' ∈ F'.transfers, t'.key = x.key ∧ t'.epoch = x.epoch ∧ t'.status = .running) ∧
    (fresh x.epoch ∨
      ∃ t ∈ F.transfers, t.key = x.key ∧ t.epoch = x.epoch ∧ t.status ≠ .running)
  once : (starts.map (·.key)).Nodup

namespace Moves
variable {fresh : UInt64 → Prop}

/-- No transfer is added, and no copy starts. -/
theorem subset (h : ∀ t ∈ F'.transfers, t ∈ F.transfers) : F.Moves name fresh [] F' where
  kept t ht := .inr ⟨t, h t ht, rfl, rfl, id⟩
  started := nofun
  once := .nil

theorem of_nil (h : F'.transfers = []) : F.Moves name fresh [] F' :=
  subset fun t ht => by simp [h] at ht

end Moves

theorem Moves.change (hf : F.Fits) (hf' : F'.Fits) (hc : Change name epoch entry F w F') :
    F.Moves name (fun e => e = epoch ∧ entry.raise = 1) w.starts F' := by
  cases hc with
  | foundAuto => exact .of_nil rfl
  | foundCustom => exact .of_nil rfl
  | deleted => exact .of_nil rfl
  | keyAdded => exact .subset fun t ht => ht
  | keyDropped => exact .subset fun t ht => (List.mem_filter.1 ht).1
  | @started coll l plan r r' hn ht hr hr' hl =>
    have hnew : ∀ t ∈ plan.transfers.map (fun t => { t with epoch }),
        t.epoch = epoch ∧ (Entry.startResharding plan).raise = 1 := by
      intro t hin
      obtain ⟨_, -, rfl⟩ := List.mem_map.1 hin
      exact ⟨rfl, rfl⟩
    refine ⟨fun t hin => .inl (hnew t hin), fun x hx => ?_, ?_⟩
    · obtain ⟨t, hin, rfl⟩ := List.mem_map.1 hx
      obtain ⟨hin, hrun⟩ := List.mem_filter.1 hin
      exact ⟨rfl, ⟨t, hin, rfl, rfl, by simpa using hrun⟩, .inl (hnew t hin)⟩
    · rw [List.map_map]
      exact hf'.keys.sublist (List.filter_sublist.map _)
  | readCommitted => exact .subset fun t ht => ht
  | writeCommitted => exact .subset fun t ht => ht
  | finishedUp => exact .subset fun t ht => ht
  | finishedDown => exact .subset fun t ht => ht
  | rolledBack hb =>
    rw [hb.starts_nil]
    exact .of_nil (hf.transfers_nil hb)
  | @replicated coll l t hm hq hs hd hk =>
    refine ⟨fun t' ht' => ?_, fun x hx => ?_, by simp⟩
    · obtain ht' | ht' := List.mem_append.1 ht'
      · exact .inr ⟨t', ht', rfl, rfl, id⟩
      · obtain rfl := List.mem_singleton.1 ht'
        exact .inl ⟨rfl, rfl⟩
    · obtain rfl := List.mem_singleton.1 hx
      exact ⟨rfl, ⟨_, List.mem_append_right _ List.mem_cons_self, rfl, rfl, rfl⟩, .inl ⟨rfl, rfl⟩⟩
  | copied => exact .subset fun t ht => List.mem_of_mem_eraseP ht
  | @sliced coll op l t transfers next starts ht hs hm hn hw =>
    obtain rfl : (Cluster.release t.key.destination (coll.transfers.eraseP (·.key == t.key))).1 =
      transfers := congrArg Prod.fst hn
    obtain rfl : (Cluster.release t.key.destination (coll.transfers.eraseP (·.key == t.key))).2 =
      next := congrArg Prod.snd hn
    refine ⟨fun t' ht' => ?_, fun x hx => ?_, ?_⟩
    · obtain ⟨t₀, hin, hk, -, he, hstatus⟩ := Cluster.mem_release ht'
      refine .inr ⟨t₀, List.mem_of_mem_eraseP hin, hk.symm, he.symm, fun hrun => ?_⟩
      obtain hsame | ⟨hrun', -⟩ := hstatus
      · exact hsame.trans hrun
      · exact hrun'
    · obtain ⟨-, rfl⟩ | ⟨t', r, hnext, -, rfl⟩ := hw
      · cases hx
      · obtain rfl := List.mem_singleton.1 hx
        obtain ⟨hin, hrun⟩ := Cluster.released_mem hnext
        obtain ⟨t₀, hin₀, rfl, hpending⟩ := Cluster.released_pending hnext
        refine ⟨rfl, ⟨_, hin, rfl, rfl, hrun⟩, .inr ⟨t₀, List.mem_of_mem_eraseP hin₀, rfl, rfl, ?_⟩⟩
        simp [hpending]
    · obtain ⟨-, rfl⟩ | ⟨t', r, -, -, rfl⟩ := hw
      · simp
      · simp
  | discarded => exact .subset fun t ht => (List.mem_filter.1 ht).1
  | unclaimed => exact .subset fun t ht => ht
  | replicaDropped => exact .subset fun t ht => ht
  | stateSet => exact .subset fun t ht => ht
  | evicted => exact .subset fun t ht => (List.mem_filter.1 ht).1

theorem Moves.changes (hf : F.Fits) (hf' : F'.Fits) (hc : Changes name epoch entry F w F') :
    F.Moves name (fun e => e = epoch ∧ entry.raise = 1) w.starts F' := by
  cases hc with
  | none => exact .subset fun t ht => ht
  | one h => exact .change hf hf' h
  | @two F₁ _ w w' h h' =>
    have hnil := hf.transfers_nil h
    obtain ⟨hkept, hstarted, honce⟩ := Moves.change (hf.rollsBack h) hf' h'
    have hstarts : (w ++ w').starts = w'.starts := by
      rw [Wake.append_def, h.starts_nil, List.nil_append]
    rw [hstarts]
    refine ⟨fun t' ht' => ?_, fun x hx => ?_, honce⟩
    · obtain hfresh | ⟨t, ht, -⟩ := hkept t' ht'
      · exact .inl hfresh
      · simp [hnil] at ht
    · obtain ⟨hname, htable, hfresh | ⟨t, ht, -⟩⟩ := hstarted x hx
      · exact ⟨hname, htable, .inl hfresh⟩
      · simp [hnil] at ht

/-- An accepted report takes its transfer out of the table. -/
theorem Fits.reported_gone (hf : F.Fits) (hc : Change name epoch entry F w F') {x : Ticket}
    (hx : entry.ticket = some x) : ∀ t ∈ F'.transfers, t.key ≠ x.key := by
  cases hc with
  | foundAuto => cases hx
  | foundCustom => cases hx
  | deleted => cases hx
  | keyAdded => cases hx
  | keyDropped => cases hx
  | started => cases hx
  | readCommitted => cases hx
  | writeCommitted => cases hx
  | finishedUp => cases hx
  | finishedDown => cases hx
  | rolledBack hb => simp [hf.transfers_nil hb]
  | replicated => cases hx
  | @copied coll op l t ht hs hm hd =>
    obtain rfl := Option.some.inj hx
    intro t' ht'
    rw [transfers_some, Transfer.eraseP_key (hf.fit coll rfl).keys] at ht'
    simpa using (List.mem_filter.1 ht').2
  | @sliced coll op l t transfers next starts ht hs hm hn hw =>
    obtain rfl := Option.some.inj hx
    intro t' ht'
    rw [Transfer.eraseP_key (hf.fit coll rfl).keys] at hn
    obtain rfl : (Cluster.release t.key.destination _).1 = transfers := congrArg Prod.fst hn
    obtain ⟨t₀, hin, hk, -⟩ := Cluster.mem_release ht'
    rw [hk]
    simpa using (List.mem_filter.1 hin).2
  | @discarded _ coll op l t he ht hm =>
    obtain ⟨reason, rfl⟩ | rfl := he
    · obtain rfl := Option.some.inj hx
      intro t' ht'
      simpa using (List.mem_filter.1 ht').2
    · cases hx
  | @unclaimed coll l t reason ht hm =>
    rw [(hf.idle.2 t ht).whole] at hm
    cases hm
  | replicaDropped => cases hx
  | stateSet => cases hx
  | evicted => cases hx

end Face

namespace Cluster
variable {c c' c₀ : Cluster} {entry : Entry} {e : Effects} {x : Ticket} {past more : List (Entry × Effects)}

/-- The transfer is in the table. -/
def Holds (c : Cluster) (x : Ticket) : Prop :=
  ∃ t ∈ c.transfers x.collection, t.key = x.key ∧ t.epoch = x.epoch

/-- The transfer has left the table. -/
def Spent (c : Cluster) (x : Ticket) : Prop := x.epoch ≤ c.epoch ∧ ¬c.Holds x

/-- A report is accepted of a transfer in the table alone. -/
theorem holds_of_report (h : c.apply entry = .ok (c', e)) (hx : entry.ticket = some x) : c.Holds x := by
  have hfound : ∀ {name : String} {coll : Collection} {t : Transfer} {key : TransferKey} {epoch : UInt64},
      c.collections.get? name = some coll → coll.find key = .ok t → t.epoch = epoch →
        c.Holds ⟨name, key, epoch⟩ := by
    intro name coll t key epoch hc hfind hepoch
    obtain ⟨ht, hk⟩ := Collection.find_eq_ok hfind
    exact ⟨t, by rw [transfers_eq hc]; exact ht, hk, hepoch⟩
  cases entry with
  | finishTransfer name key epoch =>
    obtain rfl := Option.some.inj hx
    obtain ⟨coll, t, hc, hfind, hepoch, -⟩ := finishTransfer_eq_ok.1 h
    exact hfound hc hfind hepoch
  | failTransfer name key epoch reason =>
    obtain rfl := Option.some.inj hx
    obtain ⟨coll, t, _, hc, hfind, hepoch, -⟩ := failTransfer_eq_ok.1 h
    exact hfound hc hfind hepoch
  | _ => cases hx

theorem refused_of_spent (h : c.Spent x) (hx : entry.ticket = some x) :
    ∃ err, c.apply entry = .error err := by
  cases happly : c.apply entry with
  | error err => exact ⟨err, rfl⟩
  | ok y => exact absurd (holds_of_report happly hx) h.2

/-- The report leaves nothing of its transfer behind. -/
theorem not_holds_of_report (hc : Reached Planned c) (h : c.apply entry = .ok (c', e))
    (hx : entry.ticket = some x) : ¬c'.Holds x := by
  have hgone : Touched (Change x.collection (c.epoch + 1) entry) 0 x.collection c e c' := by
    cases entry with
    | finishTransfer name key epoch =>
      obtain rfl := Option.some.inj hx
      exact finishTransfer_touched hc.sound h
    | failTransfer name key epoch reason =>
      obtain rfl := Option.some.inj hx
      exact failTransfer_touched hc.sound h
    | _ => cases hx
  intro hheld
  obtain ⟨t, ht, hk, -⟩ := hheld
  rw [transfers_face] at ht
  exact (hc.fits x.collection).reported_gone hgone.change hx t ht hk

/-- There is an epoch left for what the entry schedules. -/
def Room (c : Cluster) (entry : Entry) : Prop :=
  entry.raise = 1 → c.epoch.toNat + 1 < UInt64.size

/-- Epochs grow, and what an entry schedules is newer than all there was. -/
theorem epoch_grows (hc : Reached Planned c) (h : c.apply entry = .ok (c', e)) (hr : c.Room entry) :
    c.epoch ≤ c'.epoch ∧ c'.epoch.toNat = c.epoch.toNat + entry.raise.toNat ∧
      (entry.raise = 1 → c.epoch < c.epoch + 1) := by
  have hepoch := (apply_step_epoch hc.sound h).2
  have hraise : entry.raise = 0 ∨ entry.raise = 1 := by
    cases entry <;> simp [Entry.raise]
  obtain hzero | hone := hraise
  · have hsame : c'.epoch = c.epoch := by simpa [hzero] using hepoch
    exact ⟨hsame ▸ UInt64.le_refl _, by simp [hsame, hzero], fun h => by simp [hzero] at h⟩
  · have hlt := hr hone
    have hnat : (c.epoch + 1).toNat = c.epoch.toNat + 1 := by
      rw [UInt64.toNat_add]
      exact Nat.mod_eq_of_lt hlt
    rw [hone] at hepoch
    refine ⟨?_, by rw [hepoch, hnat, hone]; rfl, fun _ => ?_⟩
    · rw [hepoch, UInt64.le_iff_toNat_le]
      omega
    · rw [UInt64.lt_iff_toNat_lt]
      omega

/-- What one entry does to the transfers of a collection. -/
theorem moves_of_apply (hc : Reached Planned c) (ha : c.Planned entry) (h : c.apply entry = .ok (c', e))
    (name : String) : (c.face name).Moves name (fun k => k = c.epoch + 1 ∧ entry.raise = 1)
      (e.spawn.filter (·.collection == name)) (c'.face name) :=
  .changes (hc.fits name) ((hc.step ha h).fits name) ((apply_step hc.sound h).changes name)

/-- Each copy that starts is of a transfer that runs from now on. -/
theorem running_of_spawn (hc : Reached Planned c) (ha : c.Planned entry)
    (h : c.apply entry = .ok (c', e)) {y : CopyRequest} (hy : y ∈ e.spawn) :
    ∃ t ∈ c'.transfers y.collection, t.key = y.key ∧ t.epoch = y.epoch ∧ t.status = .running := by
  have hin : y ∈ e.spawn.filter (·.collection == y.collection) := List.mem_filter.2 ⟨hy, by simp⟩
  obtain ⟨-, htable, -⟩ := (moves_of_apply hc ha h y.collection).started y hin
  rwa [← transfers_face] at htable

theorem Spent.step (hx : c.Spent x) (hc : Reached Planned c) (ha : c.Planned entry)
    (h : c.apply entry = .ok (c', e)) (hr : c.Room entry) : c'.Spent x := by
  obtain ⟨hle, -, hlt⟩ := epoch_grows hc h hr
  refine ⟨UInt64.le_trans hx.1 hle, fun hheld => ?_⟩
  obtain ⟨t, ht, hk, hepoch⟩ := hheld
  rw [transfers_face] at ht
  obtain ⟨hfresh, hraise⟩ | ⟨t₀, ht₀, hk₀, hepoch₀, -⟩ := (moves_of_apply hc ha h x.collection).kept t ht
  · have hnew := hlt hraise
    rw [← hfresh, hepoch] at hnew
    exact UInt64.lt_irrefl _ (UInt64.lt_of_le_of_lt hx.1 hnew)
  · exact hx.2 ⟨t₀, by rw [transfers_face]; exact ht₀, hk₀.trans hk, hepoch₀.trans hepoch⟩

/-- How many entries of a run schedule transfers. -/
def scheduled (past : List (Entry × Effects)) : Nat := past.countP (·.1.raise == 1)

/-- The copies that a run has asked for. -/
def asked (past : List (Entry × Effects)) : List Ticket := past.flatMap (·.2.spawn.map (·.ticket))

/-- How often a transfer has been reported. -/
def reports (past : List (Entry × Effects)) (x : Ticket) : Nat :=
  past.countP (·.1.ticket == some x)

theorem scheduled_concat : scheduled (past ++ [(entry, e)]) = scheduled past + entry.raise.toNat := by
  cases entry <;> simp [scheduled, Entry.raise]

theorem asked_concat : asked (past ++ [(entry, e)]) = asked past ++ e.spawn.map (·.ticket) := by
  simp [asked]

theorem reports_concat : reports (past ++ [(entry, e)]) x =
    reports past x + if entry.ticket = some x then 1 else 0 := by
  by_cases h : entry.ticket = some x <;> simp [reports, h]

theorem room_of_epoch {n : Nat} (he : c.epoch.toNat = n) (hn : n + entry.raise.toNat < UInt64.size) :
    c.Room entry := fun hone => by
  have h1 : (1 : UInt64).toNat = 1 := rfl
  rw [hone, h1] at hn
  omega

/-- The epoch counts the entries that schedule transfers. -/
theorem Trace.epoch (h : Trace Planned c past c') (hc : Reached Planned c)
    (hn : c.epoch.toNat + scheduled past < UInt64.size) :
    c'.epoch.toNat = c.epoch.toNat + scheduled past := by
  induction h with
  | start => rfl
  | step h ha hx ih =>
    rw [scheduled_concat] at hn ⊢
    have hbefore := ih (by omega)
    have hgrown := (epoch_grows (h.reached hc) hx (room_of_epoch hbefore (by omega))).2.1
    omega

theorem Trace.epoch_new {home : PeerId} {ringPositions : Nat}
    (h : Trace Planned (.new home ringPositions) past c) (hn : scheduled past < UInt64.size) :
    c.epoch.toNat = scheduled past := by
  have hzero : (Cluster.new home ringPositions).epoch.toNat = 0 := rfl
  have hepoch := h.epoch (.new home ringPositions) (by omega)
  omega

/-- What has left the table never comes back. -/
theorem Spent.trace (hx : c.Spent x) (h : Trace Planned c past c') (hc : Reached Planned c)
    (hn : c.epoch.toNat + scheduled past < UInt64.size) : c'.Spent x := by
  induction h with
  | start => exact hx
  | step h ha happly ih =>
    rw [scheduled_concat] at hn
    have hbefore := h.epoch hc (by omega)
    exact (ih (by omega)).step (h.reached hc) ha happly (room_of_epoch hbefore (by omega))

/-- Copies of distinct transfers, collection by collection. -/
theorem nodup_tickets {spawn : List CopyRequest}
    (h : ∀ name, ((spawn.filter (·.collection == name)).map (·.key)).Nodup) :
    (spawn.map (·.ticket)).Nodup := by
  rw [List.nodup_iff_pairwise_ne, List.pairwise_map, List.pairwise_iff_forall_sublist]
  intro a b hab he
  obtain ⟨hname, hkey, -⟩ := Ticket.mk.inj he
  have hsub := hab.filter (·.collection == a.collection)
  have hboth : [a, b].filter (·.collection == a.collection) = [a, b] := by simp [hname]
  rw [hboth] at hsub
  have hne := (h a.collection).sublist (hsub.map (·.key))
  simp [hkey] at hne

/-- What a run has asked for and what has been reported of it. -/
structure Ledger (past : List (Entry × Effects)) (c : Cluster) : Prop where
  nodup : (asked past).Nodup
  table : ∀ name, ∀ t ∈ c.transfers name, t.epoch ≤ c.epoch
  known : ∀ x ∈ asked past, x.epoch ≤ c.epoch
  /-- No copy is asked for again while its transfer is in the table. -/
  running : ∀ x ∈ asked past, ∀ t ∈ c.transfers x.collection, t.key = x.key → t.epoch = x.epoch →
    t.status = .running
  once : ∀ x, reports past x ≤ 1
  spent : ∀ x, 0 < reports past x → c.Spent x

namespace Ledger

theorem new (home : PeerId) (ringPositions : Nat) : Ledger [] (.new home ringPositions) :=
  ⟨.nil, nofun, nofun, nofun, fun _ => Nat.zero_le _, nofun⟩

/-- A copy that starts was not asked for before. -/
theorem fresh (hl : Ledger past c) (hc : Reached Planned c) (ha : c.Planned entry)
    (h : c.apply entry = .ok (c', e)) (hr : c.Room entry) {y : CopyRequest} (hy : y ∈ e.spawn) :
    y.ticket ∉ asked past := by
  intro hasked
  obtain ⟨-, -, hlt⟩ := epoch_grows hc h hr
  have hin : y ∈ e.spawn.filter (·.collection == y.collection) := List.mem_filter.2 ⟨hy, by simp⟩
  obtain ⟨-, -, ⟨hnew, hraise⟩ | ⟨t, ht, hk, hepoch, hwaits⟩⟩ :=
    (moves_of_apply hc ha h y.collection).started y hin
  · have hknown : y.epoch ≤ c.epoch := hl.known _ hasked
    rw [hnew] at hknown
    exact UInt64.lt_irrefl _ (UInt64.lt_of_lt_of_le (hlt hraise) hknown)
  · rw [← transfers_face] at ht
    exact hwaits (hl.running _ hasked t ht hk hepoch)

theorem table_step (hl : Ledger past c) (hc : Reached Planned c) (ha : c.Planned entry)
    (h : c.apply entry = .ok (c', e)) (hr : c.Room entry) (name : String) :
    ∀ t ∈ c'.transfers name, t.epoch ≤ c'.epoch := by
  intro t ht
  rw [transfers_face] at ht
  obtain ⟨hnew, hraise⟩ | ⟨t₀, ht₀, -, hsame, -⟩ := (moves_of_apply hc ha h name).kept t ht
  · rw [hnew, (apply_step_epoch hc.sound h).2, hraise]
    exact UInt64.le_refl _
  · rw [← transfers_face] at ht₀
    exact hsame ▸ UInt64.le_trans (hl.table name t₀ ht₀) (epoch_grows hc h hr).1

theorem step (hl : Ledger past c) (hc : Reached Planned c) (ha : c.Planned entry)
    (h : c.apply entry = .ok (c', e)) (hr : c.Room entry) : Ledger (past ++ [(entry, e)]) c' := by
  obtain ⟨hle, -, hlt⟩ := epoch_grows hc h hr
  have hmoves := moves_of_apply hc ha h
  have htable := hl.table_step hc ha h hr
  refine ⟨?_, htable, fun x hx => ?_, fun x hx t ht hk hepoch => ?_, fun x => ?_, fun x hx => ?_⟩
  · rw [asked_concat]
    refine List.nodup_append.2 ⟨hl.nodup, nodup_tickets fun name => (hmoves name).once, ?_⟩
    intro a hasked b hb hab
    obtain ⟨y, hy, rfl⟩ := List.mem_map.1 hb
    exact hl.fresh hc ha h hr hy (hab ▸ hasked)
  · rw [asked_concat] at hx
    obtain hx | hx := List.mem_append.1 hx
    · exact UInt64.le_trans (hl.known x hx) hle
    · obtain ⟨y, hy, rfl⟩ := List.mem_map.1 hx
      obtain ⟨t, ht, -, hsame, -⟩ := running_of_spawn hc ha h hy
      have hknown := htable _ t ht
      rwa [hsame] at hknown
  · rw [asked_concat] at hx
    obtain hx | hx := List.mem_append.1 hx
    · rw [transfers_face] at ht
      obtain ⟨hnew, hraise⟩ | ⟨t₀, ht₀, hk₀, hepoch₀, hgoes⟩ := (hmoves x.collection).kept t ht
      · have hknown := hl.known x hx
        rw [← hepoch, hnew] at hknown
        exact absurd (UInt64.lt_of_lt_of_le (hlt hraise) hknown) (UInt64.lt_irrefl _)
      · rw [← transfers_face] at ht₀
        exact hgoes (hl.running x hx t₀ ht₀ (hk₀.trans hk) (hepoch₀.trans hepoch))
    · obtain ⟨y, hy, rfl⟩ := List.mem_map.1 hx
      obtain ⟨t', ht', hk', -, hrun⟩ := running_of_spawn hc ha h hy
      have hkeys := ((hc.step ha h).fits y.collection).keys
      rw [transfers_face] at ht ht'
      obtain rfl := List.inj_on_of_nodup_map hkeys ht ht' (hk.trans hk'.symm)
      exact hrun
  · rw [reports_concat]
    by_cases hreport : entry.ticket = some x
    · -- what has been reported is no longer there to be reported
      have hnone : reports past x = 0 := by
        by_contra hpos
        exact (hl.spent x (Nat.pos_of_ne_zero hpos)).2 (holds_of_report h hreport)
      simp [hreport, hnone]
    · simpa [hreport] using hl.once x
  · rw [reports_concat] at hx
    by_cases hreport : entry.ticket = some x
    · obtain ⟨t, ht, -, hepoch⟩ := holds_of_report h hreport
      exact ⟨UInt64.le_trans (hepoch ▸ hl.table _ t ht) hle, not_holds_of_report hc h hreport⟩
    · exact (hl.spent x (by simpa [hreport] using hx)).step hc ha h hr

theorem of_trace {home : PeerId} {ringPositions : Nat}
    (h : Trace Planned (.new home ringPositions) past c) (hn : scheduled past < UInt64.size) :
    Ledger past c := by
  have hnew : Reached Planned (.new home ringPositions) := .new home ringPositions
  induction h with
  | start => exact .new home ringPositions
  | step h ha happly ih =>
    rw [scheduled_concat] at hn
    have hepoch := h.epoch_new (by omega)
    exact (ih (by omega)).step (h.reached hnew) ha happly (room_of_epoch hepoch hn)

end Ledger

/-- Over a whole run no copy is asked for twice and no transfer is reported twice; what has left the
table, for whatever reason, is never reported again. -/
theorem reported_once {home : PeerId} {ringPositions : Nat}
    (h : Trace Planned (.new home ringPositions) past c) (hn : scheduled past < UInt64.size) :
    (asked past).Nodup ∧ (∀ x ∈ asked past, reports past x ≤ 1) ∧
    ∀ x ∈ asked past, ¬c.Holds x → ∀ more c', Trace Planned c more c' →
      scheduled (past ++ more) < UInt64.size → ∀ entry : Entry, entry.ticket = some x →
        ∃ err, c'.apply entry = .error err := by
  have hnew : Reached Planned (.new home ringPositions) := .new home ringPositions
  have hl := Ledger.of_trace h hn
  refine ⟨hl.nodup, fun x _ => hl.once x, fun x hx hgone more c' hmore hroom entry hreport => ?_⟩
  have hepoch := h.epoch_new hn
  have hspent : c.Spent x := ⟨hl.known x hx, hgone⟩
  rw [scheduled, List.countP_append] at hroom
  exact refused_of_spent (hspent.trace hmore (h.reached hnew) (by rw [hepoch]; exact hroom)) hreport

/-- One copy, given up and made again: the log, and the clusters after each of the two starts. -/
def retried : Except Error (List (Entry × Effects) × Cluster) := do
  let t : Transfer := { key := ⟨0, 0, 1, 2⟩, method := .wholeShard }
  let (c₁, e₁) ← (Cluster.new 1 1).apply (.addPeer 1)
  let (c₂, e₂) ← c₁.apply (.addPeer 2)
  let (c₃, e₃) ← c₂.apply (.createCollection "points" {} (.ofList [(0, [1])]))
  let (c₄, e₄) ← c₃.apply (.startTransfer "points" t)
  let (c₅, e₅) ← c₄.apply (.abortTransfer "points" t.key)
  let (c₆, e₆) ← c₅.apply (.startTransfer "points" t)
  return ([(.addPeer 1, e₁), (.addPeer 2, e₂),
    (.createCollection "points" {} (.ofList [(0, [1])]), e₃), (.startTransfer "points" t, e₄),
    (.abortTransfer "points" t.key, e₅), (.startTransfer "points" t, e₆)], c₆)

/-- The first copy cannot be reported while the second one runs under the same key. -/
theorem reported_once_retried : ∃ past c, retried = .ok (past, c) ∧
    asked past = [⟨"points", ⟨0, 0, 1, 2⟩, 1⟩, ⟨"points", ⟨0, 0, 1, 2⟩, 2⟩] ∧ (asked past).Nodup ∧
    (c.transfers "points").map (·.epoch) = [2] ∧
    ∃ err, c.apply (.finishTransfer "points" ⟨0, 0, 1, 2⟩ 1) = .error err := by
  have hrun : retried.toOption.map (fun x =>
      (scheduled x.1, asked x.1, (x.2.transfers "points").map (·.epoch))) =
      some (2, [⟨"points", ⟨0, 0, 1, 2⟩, 1⟩, ⟨"points", ⟨0, 0, 1, 2⟩, 2⟩], [2]) := by decide +kernel
  cases h : retried with
  | error err =>
    rw [h] at hrun
    cases hrun
  | ok x =>
    obtain ⟨past, c⟩ := x
    rw [h] at hrun
    obtain ⟨hscheduled, hrun⟩ := Prod.mk.inj (Option.some.inj hrun)
    obtain ⟨hasked, htable⟩ := Prod.mk.inj hrun
    have hroom : scheduled past < UInt64.size := by
      rw [show scheduled past = 2 from hscheduled]
      decide
    have htrace : Trace Planned (.new 1 1) past c := by
      simp only [retried, bind_eq_ok, pure_eq_ok, Prod.mk.injEq] at h
      obtain ⟨⟨c₁, e₁⟩, h₁, ⟨c₂, e₂⟩, h₂, ⟨c₃, e₃⟩, h₃, ⟨c₄, e₄⟩, h₄, ⟨c₅, e₅⟩, h₅, ⟨c₆, e₆⟩, h₆, rfl,
        rfl⟩ := h
      refine .step (.step (.step (.step (.step (.step .start ?_ h₁) ?_ h₂) ?_ h₃) ?_ h₄) ?_ h₅) ?_ h₆ <;>
        simp [Planned]
    obtain ⟨hnodup, -, hrefused⟩ := reported_once htrace hroom
    refine ⟨past, c, rfl, hasked, hnodup, htable, ?_⟩
    have hgone : ¬c.Holds ⟨"points", ⟨0, 0, 1, 2⟩, 1⟩ := fun hheld => by
      obtain ⟨t, ht, -, hepoch⟩ := hheld
      have hin := List.mem_map_of_mem (f := (·.epoch)) ht
      rw [show (c.transfers "points").map (·.epoch) = [2] from htable] at hin
      rw [List.mem_singleton.1 hin] at hepoch
      cases hepoch
    have hfirst : (⟨"points", ⟨0, 0, 1, 2⟩, 1⟩ : Ticket) ∈ asked past := by
      rw [show asked past = _ from hasked]
      exact List.mem_cons_self
    exact hrefused _ hfirst hgone [] c .start (by rwa [List.append_nil]) _ rfl

end Cluster
end ShardCluster
