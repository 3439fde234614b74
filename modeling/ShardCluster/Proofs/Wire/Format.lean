import Mathlib.Data.List.Basic
import ShardCluster.Proofs.Result
import ShardCluster.Proofs.SortedMap.Lookup
import ShardCluster.Proofs.Text.Utf8
import ShardCluster.Wire.Format
/-! What is written is read back. A reader takes from the front of its input just the bytes of the
value, and fails on a part of them, so the readers of the parts make the reader of the whole. -/
namespace ShardCluster

namespace Bytes

theorem littleWord32_little32 (n : UInt32) : littleWord32 (little32 n) = n := by
  have hn := n.toNat_lt
  apply UInt32.toNat_inj.1
  simp only [littleWord32, little32, littleNat, UInt32.toNat_ofNat', UInt32.toNat_toUInt8,
    UInt32.toNat_shiftRight, UInt32.reduceToNat, Nat.shiftRight_eq_div_pow, Nat.reduceMod, Nat.reducePow]
  omega

theorem littleWord64_little64 (n : UInt64) : littleWord64 (little64 n) = n := by
  have hn := n.toNat_lt
  apply UInt64.toNat_inj.1
  simp only [littleWord64, little64, littleNat, UInt64.toNat_ofNat', UInt64.toNat_toUInt8,
    UInt64.toNat_shiftRight, UInt64.reduceToNat, Nat.shiftRight_eq_div_pow, Nat.reduceMod, Nat.reducePow]
  omega

end Bytes

namespace Wire
open Std
variable {α β κ : Type} {read : Reader α} {written written' : Bytes} {a : α} {b : β}

/-- The bytes are those of the value. -/
structure Spells (read : Reader α) (written : Bytes) (a : α) : Prop where
  whole : ∀ rest, read (written ++ rest) = .ok (a, rest)
  /-- Nothing is read from a part of the bytes. -/
  cut : ∀ front tail, written = front ++ tail → tail ≠ [] → ∃ fault, read front = .error fault

theorem bind_apply (read : Reader α) (f : α → Reader β) (input : Bytes) :
    (read >>= f) input = read input >>= fun x => f x.1 x.2 := rfl

theorem Spells.pure : Spells (pure a) [] a where
  whole _ := rfl
  cut _ _ h hne := absurd (List.append_eq_nil_iff.1 h.symm).2 hne

theorem Spells.bind {f : α → Reader β} (h : Spells read written a) (h' : Spells (f a) written' b) :
    Spells (read >>= f) (written ++ written') b where
  whole rest := by
    rw [bind_apply, List.append_assoc, h.whole]
    exact h'.whole rest
  cut front tail hcut hne := by
    obtain ⟨x, rfl, rfl⟩ | ⟨x, rfl, rfl⟩ := List.append_eq_append_iff.1 hcut
    · -- the cut is in the second part
      obtain ⟨fault, hfault⟩ := h'.cut x tail rfl hne
      exact ⟨fault, by rw [bind_apply, h.whole]; exact hfault⟩
    · by_cases hx : x = []
      · subst hx
        obtain ⟨fault, hfault⟩ := h'.cut [] written' rfl hne
        rw [List.append_nil] at h
        exact ⟨fault, by rw [bind_apply, ← List.append_nil front, h.whole]; exact hfault⟩
      · obtain ⟨fault, hfault⟩ := h.cut front x rfl hx
        exact ⟨fault, by rw [bind_apply, hfault]; rfl⟩

/-- What comes after the last part reads no more. -/
theorem Spells.last {f : α → Reader β} (h : Spells read written a) (hf : f a = Pure.pure b) :
    Spells (read >>= f) written b := by
  have hrest : Spells (f a) [] b := hf ▸ .pure
  rw [← List.append_nil written]
  exact h.bind hrest

theorem Spells.map {f : α → β} (h : Spells read written a) : Spells (f <$> read) written (f a) :=
  h.last (f := fun x => Pure.pure (f x)) rfl

/-- Bytes that go on in two ways start with one value. -/
theorem Spells.same {a' : α} {rest rest' : Bytes} (h : Spells read written a)
    (h' : Spells read written' a') (heq : written ++ rest = written' ++ rest') : a = a' ∧ rest = rest' := by
  have hread := h.whole rest
  rw [heq, h'.whole rest'] at hread
  exact (Prod.mk.inj (Except.ok.inj hread)).imp Eq.symm Eq.symm

theorem spells_bytes (content : Bytes) (short : Fault) :
    Spells (bytes content.length short) content content where
  whole rest := by simp [bytes]
  cut front tail hcut hne := by
    have htail := List.length_pos_iff.2 hne
    have hlen := congrArg List.length hcut
    rw [List.length_append] at hlen
    exact ⟨short, if_pos (by omega)⟩

theorem spells_byte (x : UInt8) : Spells byte [x] x where
  whole _ := rfl
  cut front tail hcut hne := by
    cases front with
    | nil => exact ⟨_, rfl⟩
    | cons y front =>
      obtain ⟨-, hnil⟩ := List.cons.inj hcut
      exact absurd (List.append_eq_nil_iff.1 hnil.symm).2 hne

theorem spells_word32 (n : UInt32) : Spells readWord32 (Bytes.little32 n) n := by
  have h := (spells_bytes (Bytes.little32 n) .wordCutShort).map (f := Bytes.littleWord32)
  rwa [Bytes.littleWord32_little32] at h

theorem spells_word64 (n : UInt64) : Spells readWord64 (Bytes.little64 n) n := by
  have h := (spells_bytes (Bytes.little64 n) .wordCutShort).map (f := Bytes.littleWord64)
  rwa [Bytes.littleWord64_little64] at h

theorem spells_size {n : Nat} (h : n < UInt64.size) : Spells readSize (writeSize n) n := by
  have hsize := (spells_word64 (.ofNat n)).map (f := UInt64.toNat)
  rwa [UInt64.toNat_ofNat', Nat.mod_eq_of_lt h] at hsize

theorem spells_flag (x : Bool) : Spells readFlag (writeFlag x) x := by
  cases x with
  | false => exact (spells_byte 0).last rfl
  | true => exact (spells_byte 1).last rfl

/-- How many bytes a text takes. -/
def textLength (s : String) : Nat := (Utf8.encode s).length

theorem spells_text {s : String} (h : textLength s < UInt64.size) :
    Spells readText (writeText s) s := by
  refine (spells_size h).bind ((spells_bytes (Utf8.encode s) .textCutShort).last ?_)
  rw [Utf8.decode_encode]

theorem spells_option {write : α → Bytes} {o : Option α}
    (h : ∀ x, o = some x → Spells read (write x) x) :
    Spells (readOption read) (writeOption write o) o := by
  cases o with
  | none => exact (spells_byte 0).last rfl
  | some x => exact (spells_byte 1).bind ((h x rfl).last rfl)

theorem spells_many {write : α → Bytes} {l : List α} (h : ∀ x ∈ l, Spells read (write x) x) :
    Spells (readMany read l.length) (l.flatMap write) l := by
  induction l with
  | nil => exact .pure
  | cons x rest ih =>
    obtain ⟨hx, hrest⟩ := List.forall_mem_cons.1 h
    exact hx.bind ((ih hrest).last rfl)

theorem spells_list {write : α → Bytes} {l : List α} (hl : l.length < UInt64.size)
    (h : ∀ x ∈ l, Spells read (write x) x) : Spells (readList read) (writeList write l) l :=
  (spells_size hl).bind (spells_many h)

theorem spells_pair {readSnd : Reader β} {writeFst : α → Bytes} {writeSnd : β → Bytes} {p : α × β}
    (h : Spells read (writeFst p.1) p.1) (h' : Spells readSnd (writeSnd p.2) p.2) :
    Spells (readPair read readSnd) (writePair writeFst writeSnd p) p :=
  h.bind (h'.last rfl)

theorem spells_map [Ord κ] [TransOrd κ] {readKey : Reader κ} {writeKey : κ → Bytes}
    {write : α → Bytes} {m : SortedMap κ α} (hm : m.size < UInt64.size)
    (hkey : ∀ k, Spells readKey (writeKey k) k) (h : ∀ x ∈ m.values, Spells read (write x) x) :
    Spells (readMap readKey read) (writeMap writeKey write m) m := by
  have hentries := spells_list hm fun e he =>
    spells_pair (hkey e.1) (h e.2 (List.mem_map_of_mem he))
  have hmap := hentries.map (f := SortedMap.ofList)
  rwa [SortedMap.ofList_entries] at hmap

theorem spells_case [DecidableEq α] {cases : List α} (ha : a ∈ cases)
    (hsize : cases.length < UInt32.size) : Spells (readCase cases) (writeCase cases a) a := by
  have hlt := List.idxOf_lt_length_of_mem ha
  have hfound : cases[(UInt32.ofNat (cases.idxOf a)).toNat]? = some a := by
    rw [UInt32.toNat_ofNat', Nat.mod_eq_of_lt (by simpa using Nat.lt_trans hlt hsize)]
    simp [hlt]
  refine (spells_word32 _).last ?_
  rw [hfound]

theorem toNat_seconds {x : Int64} (h : ¬x < 0) : (x.toUInt64.toNat : Int) = x.toInt := by
  have hle : 0 ≤ x.toInt := by simpa [Int64.lt_iff_toInt_lt] using h
  have hbits : x.toInt = x.toUInt64.toBitVec.toInt := rfl
  have hlt := x.toUInt64.toBitVec.isLt
  rw [hbits, BitVec.toInt_eq_toNat_cond] at hle ⊢
  split
  · rfl
  · rename_i hhigh
    rw [if_neg hhigh] at hle
    omega

theorem ofParts_seconds {t : Timestamp} (h : ¬t.seconds < 0) :
    Timestamp.ofParts t.seconds.toUInt64.toNat t.nanos = t := by
  obtain ⟨seconds, nanos, hlt⟩ := t
  have hcarry : (nanos : Int) / Duration.perSecond = 0 :=
    Int.ediv_eq_zero_of_lt (Int.natCast_nonneg _) (Int.ofNat_lt.2 hlt)
  simp only [Timestamp.ofParts, toNat_seconds h, hcarry, Int.add_zero, Int64.ofInt_toInt,
    Nat.mod_eq_of_lt hlt]

theorem spells_instant {t : Timestamp} (h : writeInstant t = .ok written) :
    Spells readInstant written t := by
  rw [writeInstant] at h
  split at h
  · cases h
  · rename_i hpast
    obtain rfl := Except.ok.inj h
    have hnanos : (UInt32.ofNat t.nanos).toNat = t.nanos := by
      rw [UInt32.toNat_ofNat', Nat.mod_eq_of_lt (Nat.lt_trans t.nanos_lt (by decide))]
    have hcarry : t.nanos / Duration.perSecond = 0 := Nat.div_eq_of_lt t.nanos_lt
    have hseconds : t.seconds.toUInt64.toNat < UInt64.size / 2 := by
      have hlt := t.seconds.toInt_lt
      have hnat := toNat_seconds hpast
      have hhalf : UInt64.size / 2 = 2 ^ 63 := rfl
      omega
    refine (spells_word64 _).bind ((spells_word32 _).last ?_)
    rw [hnanos, hcarry, ofParts_seconds hpast]
    dsimp only
    rw [if_neg (by omega), if_neg (by omega)]

end Wire
end ShardCluster
