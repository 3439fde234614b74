import ShardCluster.Proofs.Wire.Format
import ShardCluster.Wire.Entry
/-! A log entry is read back from its bytes as it was written, and from no part of them. -/
namespace ShardCluster

def ShardKey.lengths : ShardKey → List Nat
  | keyword w => [Wire.textLength w]
  | number _ => []

def Placement.lengths (p : Placement) : List Nat := p.size :: p.values.map List.length

def Plan.lengths (p : Plan) : List Nat :=
  Wire.textLength p.operation.collection :: p.transfers.length ::
    (p.operation.key.map ShardKey.lengths).getD []

/-- The lengths that stand before the texts, lists and maps of an entry. -/
def Entry.lengths : Entry → List Nat
  | addPeer _ | removePeer .. => []
  | createCollection name _ placement => Wire.textLength name :: placement.lengths
  | createShardKey name key placement => Wire.textLength name :: (key.lengths ++ placement.lengths)
  | deleteShardKey name key => Wire.textLength name :: key.lengths
  | startResharding plan => plan.lengths
  | abortResharding name _ reason | failTransfer name _ _ reason =>
    [Wire.textLength name, Wire.textLength reason]
  | deleteCollection name | commitRead name | commitWrite name | finishResharding name
  | startTransfer name _ | finishTransfer name .. | abortTransfer name _ | dropReplica name ..
  | setReplicaState name .. => [Wire.textLength name]

/-- Every length fits in a word. -/
def Entry.Sized (e : Entry) : Prop := ∀ n ∈ e.lengths, n < UInt64.size

instance (e : Entry) : Decidable e.Sized := inferInstanceAs (Decidable (∀ n ∈ e.lengths, n < UInt64.size))

namespace Wire
variable {written : Bytes}

theorem spells_key {k : ShardKey} (h : ∀ n ∈ k.lengths, n < UInt64.size) :
    Spells readKey (writeKey k) k := by
  cases k with
  | keyword w => exact (spells_word32 0).bind ((spells_text (h _ List.mem_cons_self)).last rfl)
  | number n => exact (spells_word32 1).bind ((spells_word64 n).last rfl)

theorem spells_config (c : CollectionConfig) : Spells readConfig (writeConfig c) c := by
  have hmethod : c.method ∈ shardings := by cases c.method <;> decide
  rw [writeConfig, List.append_assoc]
  exact (spells_word32 _).bind ((spells_word32 _).bind ((spells_case hmethod (by decide)).last rfl))

theorem spells_placement {p : Placement} (h : ∀ n ∈ p.lengths, n < UInt64.size) :
    Spells readPlacement (writePlacement p) p := by
  obtain ⟨hsize, hhosts⟩ := List.forall_mem_cons.1 h
  refine spells_map hsize spells_word32 fun hosts hin => ?_
  exact spells_list (hhosts _ (List.mem_map_of_mem hin)) fun peer _ => spells_word64 peer

theorem spells_transferKey (k : TransferKey) : Spells readTransferKey (writeTransferKey k) k := by
  simp only [writeTransferKey, List.append_assoc]
  exact (spells_word32 _).bind ((spells_word32 _).bind ((spells_word64 _).bind
    ((spells_word64 _).last rfl)))

theorem spells_transfer (t : Transfer) : Spells readTransfer (writeTransfer t) t := by
  have hmethod : t.method ∈ methods := by cases t.method <;> decide
  have hstatus : t.status ∈ statuses := by cases t.status <;> decide
  simp only [writeTransfer, List.append_assoc]
  exact (spells_transferKey _).bind ((spells_case hmethod (by decide)).bind
    ((spells_case hstatus (by decide)).bind ((spells_word64 _).last rfl)))

theorem spells_operation {o : Operation} (hname : textLength o.collection < UInt64.size)
    (hkey : ∀ k, o.key = some k → ∀ n ∈ k.lengths, n < UInt64.size)
    (h : writeOperation o = .ok written) : Spells readOperation written o := by
  have hdirection : o.direction ∈ directions := by cases o.direction <;> decide
  have hstage : o.stage ∈ stages := by cases o.stage <;> decide
  simp only [writeOperation, bind_eq_ok, pure_eq_ok] at h
  obtain ⟨instant, hinstant, rfl⟩ := h
  simp only [List.append_assoc]
  exact (spells_text hname).bind ((spells_case hdirection (by decide)).bind
    ((spells_word64 _).bind ((spells_word32 _).bind
      ((spells_option fun k hk => spells_key (hkey k hk)).bind
        ((spells_case hstage (by decide)).bind ((spells_instant hinstant).last rfl))))))

theorem spells_plan {p : Plan} (hs : ∀ n ∈ p.lengths, n < UInt64.size)
    (h : writePlan p = .ok written) : Spells readPlan written p := by
  obtain ⟨hname, hrest⟩ := List.forall_mem_cons.1 hs
  obtain ⟨htransfers, hkey⟩ := List.forall_mem_cons.1 hrest
  simp only [writePlan, bind_eq_ok, pure_eq_ok] at h
  obtain ⟨operation, hoperation, rfl⟩ := h
  have hkey : ∀ k, p.operation.key = some k → ∀ n ∈ k.lengths, n < UInt64.size :=
    fun k hk n hn => hkey n (by rw [hk]; exact hn)
  exact (spells_operation hname hkey hoperation).bind
    ((spells_list htransfers fun t _ => spells_transfer t).last rfl)

/-- The content of an entry, after the number of its kind. -/
theorem spells_content {e : Entry} (hs : e.Sized) (h : writeContent e = .ok written) :
    Spells (readContent (kind e)) written e := by
  cases e with
  | startResharding plan => exact (spells_plan hs h).last rfl
  | addPeer peer =>
    obtain rfl := Except.ok.inj h
    exact (spells_word64 _).last rfl
  | removePeer peer force =>
    obtain rfl := Except.ok.inj h
    exact (spells_word64 _).bind ((spells_flag _).last rfl)
  | createCollection name config placement =>
    obtain ⟨hname, hplacement⟩ := List.forall_mem_cons.1 hs
    obtain rfl := Except.ok.inj h
    rw [List.append_assoc]
    exact (spells_text hname).bind ((spells_config _).bind ((spells_placement hplacement).last rfl))
  | createShardKey name key placement =>
    obtain ⟨hname, hrest⟩ := List.forall_mem_cons.1 hs
    obtain ⟨hkey, hplacement⟩ := List.forall_mem_append.1 hrest
    obtain rfl := Except.ok.inj h
    rw [List.append_assoc]
    exact (spells_text hname).bind ((spells_key hkey).bind ((spells_placement hplacement).last rfl))
  | deleteShardKey name key =>
    obtain ⟨hname, hkey⟩ := List.forall_mem_cons.1 hs
    obtain rfl := Except.ok.inj h
    exact (spells_text hname).bind ((spells_key hkey).last rfl)
  | abortResharding name forced reason =>
    obtain ⟨hname, hrest⟩ := List.forall_mem_cons.1 hs
    obtain rfl := Except.ok.inj h
    rw [List.append_assoc]
    exact (spells_text hname).bind ((spells_flag _).bind
      ((spells_text (hrest _ List.mem_cons_self)).last rfl))
  | startTransfer name t =>
    obtain rfl := Except.ok.inj h
    exact (spells_text (hs _ List.mem_cons_self)).bind ((spells_transfer _).last rfl)
  | finishTransfer name key epoch =>
    obtain rfl := Except.ok.inj h
    rw [List.append_assoc]
    exact (spells_text (hs _ List.mem_cons_self)).bind ((spells_transferKey _).bind
      ((spells_word64 _).last rfl))
  | failTransfer name key epoch reason =>
    obtain ⟨hname, hrest⟩ := List.forall_mem_cons.1 hs
    obtain rfl := Except.ok.inj h
    simp only [List.append_assoc]
    exact (spells_text hname).bind ((spells_transferKey _).bind ((spells_word64 _).bind
      ((spells_text (hrest _ List.mem_cons_self)).last rfl)))
  | abortTransfer name key =>
    obtain rfl := Except.ok.inj h
    exact (spells_text (hs _ List.mem_cons_self)).bind ((spells_transferKey _).last rfl)
  | dropReplica name shard peer =>
    obtain rfl := Except.ok.inj h
    rw [List.append_assoc]
    exact (spells_text (hs _ List.mem_cons_self)).bind ((spells_word32 _).bind
      ((spells_word64 _).last rfl))
  | setReplicaState name shard peer state =>
    have hstate : state ∈ states := by cases state <;> decide
    obtain rfl := Except.ok.inj h
    simp only [List.append_assoc]
    exact (spells_text (hs _ List.mem_cons_self)).bind ((spells_word32 _).bind
      ((spells_word64 _).bind ((spells_case hstate (by decide)).last rfl)))
  | deleteCollection name =>
    obtain rfl := Except.ok.inj h
    exact (spells_text (hs _ List.mem_cons_self)).last rfl
  | commitRead name =>
    obtain rfl := Except.ok.inj h
    exact (spells_text (hs _ List.mem_cons_self)).last rfl
  | commitWrite name =>
    obtain rfl := Except.ok.inj h
    exact (spells_text (hs _ List.mem_cons_self)).last rfl
  | finishResharding name =>
    obtain rfl := Except.ok.inj h
    exact (spells_text (hs _ List.mem_cons_self)).last rfl

theorem spells_entry {e : Entry} (hs : e.Sized) (h : writeEntry e = .ok written) :
    Spells readEntry written e := by
  simp only [writeEntry, bind_eq_ok, pure_eq_ok] at h
  obtain ⟨content, hcontent, rfl⟩ := h
  exact (spells_word32 _).bind (spells_content hs hcontent)

end Wire

theorem Entry.ofBytes_toBytes {e : Entry} {written : Bytes} (hs : e.Sized)
    (h : e.toBytes = .ok written) : ofBytes written = .ok e := by
  unfold toBytes at h
  cases hw : Wire.writeEntry e with
  | error fault => simp [hw] at h
  | ok bytes =>
    obtain rfl : bytes = written := by simpa [hw] using h
    have hread := (Wire.spells_entry hs hw).whole []
    rw [List.append_nil] at hread
    simp only [ofBytes, hread]

namespace Entry
variable {e e' : Entry} {written written' : Bytes}

theorem toBytes_eq_ok : e.toBytes = .ok written ↔ Wire.writeEntry e = .ok written := by
  unfold toBytes
  cases Wire.writeEntry e <;> simp

theorem ofBytes_of_read {input rest : Bytes} (h : Wire.readEntry input = .ok (e, rest)) :
    ofBytes input = .ok e := by
  simp only [ofBytes, h]

theorem ofBytes_of_fault {input : Bytes} {fault : Wire.Fault}
    (h : Wire.readEntry input = .error fault) :
    ofBytes input = .error (.serialization fault.message) := by
  simp only [ofBytes, h]

/-- An operation that the entry starts is not from before 1970. -/
def Dated (e : Entry) : Prop :=
  ∀ plan, e = startResharding plan → ¬plan.operation.createdAt.seconds < 0

theorem toBytes_of_dated (h : e.Dated) : ∃ written, e.toBytes = .ok written := by
  have hcontent : ∃ content, Wire.writeContent e = .ok content := by
    cases e with
    | startResharding plan =>
      simp only [Wire.writeContent, Wire.writePlan, Wire.writeOperation, Wire.writeInstant,
        if_neg (h plan rfl)]
      exact ⟨_, rfl⟩
    | _ => exact ⟨_, rfl⟩
  obtain ⟨content, hcontent⟩ := hcontent
  exact ⟨_, toBytes_eq_ok.2 (bind_eq_ok.2 ⟨content, hcontent, rfl⟩)⟩

theorem toBytes_of_early {plan : Plan} (h : plan.operation.createdAt.seconds < 0) :
    (startResharding plan).toBytes = .error (.serialization Wire.Fault.instantTooEarly.message) := by
  simp only [toBytes, Wire.writeEntry, Wire.writeContent, Wire.writePlan, Wire.writeOperation,
    Wire.writeInstant, if_pos h]
  rfl

/-- The bytes tell the entry from every other one, and from a part of it. -/
structure Legible (e : Entry) (written : Bytes) : Prop where
  bytes : e.toBytes = .ok written
  /-- Whatever follows is left alone. -/
  whole : ∀ rest, ofBytes (written ++ rest) = .ok e
  cut : ∀ front tail, written = front ++ tail → tail ≠ [] →
    ∃ text, ofBytes front = .error (.serialization text)
  apart : ∀ e' written', e'.Sized → e'.toBytes = .ok written' →
    written' <+: written ∨ written <+: written' → e' = e

theorem legible_of_toBytes (hs : e.Sized) (h : e.toBytes = .ok written) : e.Legible written := by
  have hspells : ∀ {e : Entry} {written}, e.Sized → e.toBytes = .ok written →
      Wire.Spells Wire.readEntry written e := fun hs h => Wire.spells_entry hs (toBytes_eq_ok.1 h)
  -- bytes that go on in two ways are read as one entry
  have hfront : ∀ {e e' : Entry} {written written' : Bytes}, e.Sized → e'.Sized →
      e.toBytes = .ok written → e'.toBytes = .ok written' → written' <+: written → e' = e := by
    intro e e' written written' hs hs' h h' hx
    obtain ⟨rest, rfl⟩ := hx
    have hread := ofBytes_of_read ((hspells hs' h').whole rest)
    exact Except.ok.inj (hread.symm.trans (ofBytes_toBytes hs h))
  refine ⟨h, fun rest => ofBytes_of_read ((hspells hs h).whole rest), fun front tail hcut hne => ?_,
    fun e' written' hs' h' hx => ?_⟩
  · obtain ⟨fault, hfault⟩ := (hspells hs h).cut front tail hcut hne
    exact ⟨_, ofBytes_of_fault hfault⟩
  · obtain hx | hx := hx
    · exact hfront hs hs' h h' hx
    · exact (hfront hs' hs h' h hx).symm

/-- Only an operation from before 1970 has no bytes. Those of any other entry are read back as it,
whatever follows them, and nothing is read before their end. -/
theorem legible_of_sized (e : Entry) : (e.Sized → e.Dated → ∃ written, e.Legible written) ∧
    ((∃ err, e.toBytes = .error err) ↔
      ∃ plan, e = startResharding plan ∧ plan.operation.createdAt.seconds < 0) := by
  refine ⟨fun hs hd => ?_, fun h => ?_, fun h => ?_⟩
  · obtain ⟨written, h⟩ := toBytes_of_dated hd
    exact ⟨written, legible_of_toBytes hs h⟩
  · by_contra hnone
    have hd : e.Dated := fun plan he hearly => hnone ⟨plan, he, hearly⟩
    obtain ⟨err, herr⟩ := h
    obtain ⟨written, hw⟩ := toBytes_of_dated hd
    cases herr.symm.trans hw
  · obtain ⟨plan, rfl, hearly⟩ := h
    exact ⟨_, toBytes_of_early hearly⟩

/-- A group with a key of two letters in four bytes, a nanosecond before a full second. -/
def dated : Entry :=
  .startResharding ⟨{ collection := "pts", direction := .up, peer := 2, shard := 3
                      key := some (.keyword "éé"), createdAt := ⟨5, 999999999, by decide⟩ },
    [{ key := ⟨0, 3, 1, 2⟩, method := .slice, status := .running },
      { key := ⟨1, 3, 1, 2⟩, method := .slice }]⟩

theorem legible_dated : dated.Sized ∧ dated.Dated ∧ ∃ written, dated.Legible written := by
  have hsized : dated.Sized := by decide +kernel
  have hdated : dated.Dated := by
    intro plan he
    obtain rfl := startResharding.inj he
    decide
  exact ⟨hsized, hdated, (legible_of_sized dated).1 hsized hdated⟩

end Entry
end ShardCluster
