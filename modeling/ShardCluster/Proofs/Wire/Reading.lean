import ShardCluster.Proofs.Wire.Entry
/-! What is read stands in the input as it is written. No value has a second spelling, so bytes that
are read say more than the value only where a map or an instant is put in order. -/
namespace ShardCluster

namespace Bytes

theorem toNat_littleWord32 {a b c d : UInt8} : (littleWord32 [a, b, c, d]).toNat =
    a.toNat + 256 * (b.toNat + 256 * (c.toNat + 256 * d.toNat)) := by
  have ha := a.toNat_lt
  have hb := b.toNat_lt
  have hc := c.toNat_lt
  have hd := d.toNat_lt
  simp only [littleWord32, littleNat, UInt32.toNat_ofNat']
  omega

theorem little32_littleWord32 {content : Bytes} (h : content.length = 4) :
    little32 (littleWord32 content) = content := by
  match content with
  | [a, b, c, d] =>
    have ha := a.toNat_lt
    have hb := b.toNat_lt
    have hc := c.toNat_lt
    have hd := d.toNat_lt
    simp only [little32, List.cons.injEq, ← UInt8.toNat_inj, UInt32.toNat_toUInt8,
      UInt32.toNat_shiftRight, UInt32.reduceToNat, Nat.shiftRight_eq_div_pow, Nat.reduceMod,
      Nat.reducePow, toNat_littleWord32, and_true]
    omega

theorem little64_littleWord64 {content : Bytes} (h : content.length = 8) :
    little64 (littleWord64 content) = content := by
  match content with
  | [a, b, c, d, e, f, g, i] =>
    have ha := a.toNat_lt
    have hb := b.toNat_lt
    have hc := c.toNat_lt
    have hd := d.toNat_lt
    have he := e.toNat_lt
    have hf := f.toNat_lt
    have hg := g.toNat_lt
    have hi := i.toNat_lt
    simp only [little64, littleWord64, littleNat, List.cons.injEq, ← UInt8.toNat_inj,
      UInt64.toNat_toUInt8, UInt64.toNat_shiftRight, UInt64.toNat_ofNat', UInt64.reduceToNat,
      Nat.shiftRight_eq_div_pow, Nat.reduceMod, Nat.reducePow, and_true]
    omega

theorem length_little64 (n : UInt64) : (little64 n).length = 8 := rfl

end Bytes

namespace Wire
open Std
variable {α β κ : Type} {input rest : Bytes} {a : α} {b : β}

theorem read_bind_eq_ok {read : Reader α} {f : α → Reader β} : (read >>= f) input = .ok (b, rest) ↔
    ∃ a mid, read input = .ok (a, mid) ∧ f a mid = .ok (b, rest) := by
  rw [bind_apply, bind_eq_ok]
  exact ⟨fun ⟨x, h⟩ => ⟨x.1, x.2, h⟩, fun ⟨a, mid, h⟩ => ⟨(a, mid), h⟩⟩

theorem read_pure_eq_ok {x : α} : (pure x : Reader α) input = .ok (a, rest) ↔ x = a ∧ input = rest := by
  rw [show (pure x : Reader α) input = .ok (x, input) from rfl, Except.ok.injEq, Prod.mk.injEq]

theorem read_map_eq_ok {read : Reader α} {f : α → β} :
    (f <$> read) input = .ok (b, rest) ↔ ∃ a, read input = .ok (a, rest) ∧ f a = b := by
  rw [show (f <$> read) = (read >>= fun x => pure (f x)) from rfl, read_bind_eq_ok]
  simp only [read_pure_eq_ok]
  exact ⟨fun ⟨a, mid, h, hf, hmid⟩ => ⟨a, hmid ▸ h, hf⟩, fun ⟨a, h, hf⟩ => ⟨a, rest, h, hf, rfl⟩⟩

theorem read_throw_eq_ok {fault : Fault} : (throw fault : Reader α) input = .ok (a, rest) ↔ False := by
  rw [show (throw fault : Reader α) input = .error fault from rfl, error_eq_ok]

/-- What is read is written with the bytes that were taken, and its lengths are in range. -/
def Exact (read : Reader α) (write : α → Bytes) (fits : α → Prop) : Prop :=
  ∀ {input a rest}, read input = .ok (a, rest) → input = write a ++ rest ∧ fits a

theorem bytes_eq_ok {n : Nat} {short : Fault} {content : Bytes}
    (h : bytes n short input = .ok (content, rest)) : input = content ++ rest ∧ content.length = n := by
  rw [bytes] at h
  split at h
  · cases h
  · obtain ⟨rfl, rfl⟩ := Prod.mk.inj (Except.ok.inj h)
    exact ⟨(List.take_append_drop n input).symm, List.length_take_of_le (by omega)⟩

theorem byte_eq_ok {x : UInt8} (h : byte input = .ok (x, rest)) : input = x :: rest := by
  cases input with
  | nil => cases h
  | cons y tail =>
    obtain ⟨rfl, rfl⟩ := Prod.mk.inj (Except.ok.inj h)
    rfl

theorem exact_word32 : Exact readWord32 Bytes.little32 fun _ => True := by
  intro input n rest h
  rw [readWord32, read_map_eq_ok] at h
  obtain ⟨content, h, rfl⟩ := h
  obtain ⟨rfl, hlen⟩ := bytes_eq_ok h
  rw [Bytes.little32_littleWord32 hlen]
  exact ⟨rfl, trivial⟩

theorem exact_word64 : Exact readWord64 Bytes.little64 fun _ => True := by
  intro input n rest h
  rw [readWord64, read_map_eq_ok] at h
  obtain ⟨content, h, rfl⟩ := h
  obtain ⟨rfl, hlen⟩ := bytes_eq_ok h
  rw [Bytes.little64_littleWord64 hlen]
  exact ⟨rfl, trivial⟩

theorem exact_size : Exact readSize writeSize (· < UInt64.size) := by
  intro input n rest h
  rw [readSize, read_map_eq_ok] at h
  obtain ⟨word, h, rfl⟩ := h
  obtain ⟨rfl, -⟩ := exact_word64 h
  rw [writeSize, UInt64.ofNat_toNat]
  exact ⟨rfl, word.toNat_lt⟩

theorem exact_flag : Exact readFlag writeFlag fun _ => True := by
  intro input x rest h
  rw [readFlag, read_bind_eq_ok] at h
  obtain ⟨found, mid, hfound, h⟩ := h
  obtain rfl := byte_eq_ok hfound
  split at h
  · obtain ⟨rfl, rfl⟩ := read_pure_eq_ok.1 h
    exact ⟨rfl, trivial⟩
  · obtain ⟨rfl, rfl⟩ := read_pure_eq_ok.1 h
    exact ⟨rfl, trivial⟩
  · exact (read_throw_eq_ok.1 h).elim

theorem exact_text : Exact readText writeText (textLength · < UInt64.size) := by
  intro input s rest h
  simp only [readText, read_bind_eq_ok] at h
  obtain ⟨size, _, hsize, content, mid, hcontent, h⟩ := h
  obtain ⟨rfl, hlt⟩ := exact_size hsize
  obtain ⟨rfl, rfl⟩ := bytes_eq_ok hcontent
  cases hdecoded : Utf8.decode content with
  | error why =>
    rw [hdecoded] at h
    exact (read_throw_eq_ok.1 h).elim
  | ok s' =>
    rw [hdecoded] at h
    obtain ⟨rfl, rfl⟩ := read_pure_eq_ok.1 h
    simp only [writeText, textLength, Utf8.encode_decode hdecoded, List.append_assoc]
    exact ⟨trivial, hlt⟩

variable {read : Reader α} {write : α → Bytes} {fits : α → Prop}

theorem exact_option (hread : Exact read write fits) :
    Exact (readOption read) (writeOption write) fun o => ∀ x, o = some x → fits x := by
  intro input o rest h
  rw [readOption, read_bind_eq_ok] at h
  obtain ⟨found, mid, hfound, h⟩ := h
  obtain rfl := byte_eq_ok hfound
  split at h
  · obtain ⟨rfl, rfl⟩ := read_pure_eq_ok.1 h
    exact ⟨rfl, nofun⟩
  · simp only [read_bind_eq_ok, read_pure_eq_ok] at h
    obtain ⟨x, _, hx, rfl, rfl⟩ := h
    obtain ⟨rfl, hfits⟩ := hread hx
    exact ⟨rfl, fun y hy => Option.some.inj hy ▸ hfits⟩
  · exact (read_throw_eq_ok.1 h).elim

theorem exact_many (hread : Exact read write fits) (n : Nat) :
    Exact (readMany read n) (List.flatMap write) fun l => l.length = n ∧ ∀ x ∈ l, fits x := by
  induction n with
  | zero =>
    intro input l rest h
    obtain ⟨rfl, rfl⟩ := read_pure_eq_ok.1 h
    exact ⟨rfl, rfl, nofun⟩
  | succ n ih =>
    intro input l rest h
    simp only [readMany, read_bind_eq_ok, read_pure_eq_ok] at h
    obtain ⟨x, _, hx, more, _, hmore, rfl, rfl⟩ := h
    obtain ⟨rfl, hfits⟩ := hread hx
    obtain ⟨rfl, hlen, hall⟩ := ih hmore
    exact ⟨by rw [List.flatMap_cons, List.append_assoc], congrArg (· + 1) hlen,
      List.forall_mem_cons.2 ⟨hfits, hall⟩⟩

theorem exact_list (hread : Exact read write fits) : Exact (readList read) (writeList write)
    fun l => l.length < UInt64.size ∧ ∀ x ∈ l, fits x := by
  intro input l rest h
  rw [readList, read_bind_eq_ok] at h
  obtain ⟨size, _, hsize, h⟩ := h
  obtain ⟨rfl, hlt⟩ := exact_size hsize
  obtain ⟨rfl, hlen, hall⟩ := exact_many hread size h
  rw [← hlen] at hlt
  exact ⟨by rw [writeList, hlen, List.append_assoc], hlt, hall⟩

theorem exact_pair {readSnd : Reader β} {writeSnd : β → Bytes} {fitsSnd : β → Prop}
    (hfst : Exact read write fits) (hsnd : Exact readSnd writeSnd fitsSnd) :
    Exact (readPair read readSnd) (writePair write writeSnd) fun p => fits p.1 ∧ fitsSnd p.2 := by
  intro input p rest h
  simp only [readPair, read_bind_eq_ok, read_pure_eq_ok] at h
  obtain ⟨x, _, hx, y, _, hy, rfl, rfl⟩ := h
  obtain ⟨rfl, hfits⟩ := hfst hx
  obtain ⟨rfl, hfits'⟩ := hsnd hy
  exact ⟨by rw [writePair, List.append_assoc], hfits, hfits'⟩

/-- The number that was found is the place of the alternative. -/
theorem exact_case [DecidableEq α] {cases : List α} (hd : cases.Nodup) :
    Exact (readCase cases) (writeCase cases) fun _ => True := by
  intro input x rest h
  rw [readCase, read_bind_eq_ok] at h
  obtain ⟨found, mid, hfound, h⟩ := h
  obtain ⟨rfl, -⟩ := exact_word32 hfound
  cases hy : cases[found.toNat]? with
  | none =>
    rw [hy] at h
    exact (read_throw_eq_ok.1 h).elim
  | some y =>
    rw [hy] at h
    obtain ⟨rfl, rfl⟩ := read_pure_eq_ok.1 h
    obtain ⟨hlt, rfl⟩ := List.getElem?_eq_some_iff.1 hy
    rw [writeCase, hd.idxOf_getElem _ hlt, UInt32.ofNat_toNat]
    exact ⟨rfl, trivial⟩

theorem exact_key : Exact readKey writeKey fun k => ∀ n ∈ k.lengths, n < UInt64.size := by
  intro input k rest h
  rw [readKey, read_bind_eq_ok] at h
  obtain ⟨found, mid, hfound, h⟩ := h
  obtain ⟨rfl, -⟩ := exact_word32 hfound
  split at h
  · simp only [read_bind_eq_ok, read_pure_eq_ok] at h
    obtain ⟨w, _, hw, rfl, rfl⟩ := h
    obtain ⟨rfl, hlt⟩ := exact_text hw
    exact ⟨by rw [writeKey, List.append_assoc], List.forall_mem_singleton.2 hlt⟩
  · simp only [read_bind_eq_ok, read_pure_eq_ok] at h
    obtain ⟨n, _, hn, rfl, rfl⟩ := h
    obtain ⟨rfl, -⟩ := exact_word64 hn
    exact ⟨by rw [writeKey, List.append_assoc], nofun⟩
  · exact (read_throw_eq_ok.1 h).elim

theorem exact_config : Exact readConfig writeConfig fun _ => True := by
  intro input c rest h
  simp only [readConfig, read_bind_eq_ok, read_pure_eq_ok] at h
  obtain ⟨shardNumber, _, hnumber, replicationFactor, _, hfactor, method, _, hmethod, rfl, rfl⟩ := h
  obtain ⟨rfl, -⟩ := exact_word32 hnumber
  obtain ⟨rfl, -⟩ := exact_word32 hfactor
  obtain ⟨rfl, -⟩ := exact_case (by decide) hmethod
  exact ⟨by simp only [writeConfig, List.append_assoc], trivial⟩

theorem exact_transferKey : Exact readTransferKey writeTransferKey fun _ => True := by
  intro input k rest h
  simp only [readTransferKey, read_bind_eq_ok, read_pure_eq_ok] at h
  obtain ⟨shard, _, hshard, toShard, _, htoShard, source, _, hsource, target, _, htarget, rfl, rfl⟩ := h
  obtain ⟨rfl, -⟩ := exact_word32 hshard
  obtain ⟨rfl, -⟩ := exact_word32 htoShard
  obtain ⟨rfl, -⟩ := exact_word64 hsource
  obtain ⟨rfl, -⟩ := exact_word64 htarget
  exact ⟨by simp only [writeTransferKey, List.append_assoc], trivial⟩

theorem exact_transfer : Exact readTransfer writeTransfer fun _ => True := by
  intro input t rest h
  simp only [readTransfer, read_bind_eq_ok, read_pure_eq_ok] at h
  obtain ⟨key, _, hkey, method, _, hmethod, status, _, hstatus, epoch, _, hepoch, rfl, rfl⟩ := h
  obtain ⟨rfl, -⟩ := exact_transferKey hkey
  obtain ⟨rfl, -⟩ := exact_case (by decide) hmethod
  obtain ⟨rfl, -⟩ := exact_case (by decide) hstatus
  obtain ⟨rfl, -⟩ := exact_word64 hepoch
  exact ⟨by simp only [writeTransfer, List.append_assoc], trivial⟩

/-- The pairs of a placement as they stand in the bytes, in any order and with keys repeated. -/
def readPairs : Reader (List (ShardId × List PeerId)) :=
  readList (readPair readWord32 (readList readWord64))

def writePairs : List (ShardId × List PeerId) → Bytes :=
  writeList (writePair Bytes.little32 (writeList Bytes.little64))

theorem exact_pairs : Exact readPairs writePairs fun l =>
    l.length < UInt64.size ∧ ∀ p ∈ l, p.2.length < UInt64.size := by
  intro input l rest h
  obtain ⟨hin, hlt, hall⟩ := exact_list (exact_pair exact_word32 (exact_list exact_word64)) h
  exact ⟨hin, hlt, fun p hp => (hall p hp).2.1⟩

end Wire
end ShardCluster
