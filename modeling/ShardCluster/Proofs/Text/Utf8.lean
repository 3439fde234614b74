import Mathlib.Data.List.Basic
import ShardCluster.Proofs.Result
import ShardCluster.Text.Utf8
/-! Text that is written as bytes is read back as it was, and no other bytes are read as it. -/
namespace ShardCluster.Utf8
variable {n m : Nat}

/-- Bytes that go on follow one that lies in the interval. -/
theorem checkRest_ok {low high b : UInt8} (hb : low ≤ b ∧ b ≤ high) (more : Bytes)
    (hmore : ∀ x ∈ more, continues x = true) (good : Nat) (rest : Bytes) :
    checkRest low high (more.length + 1) good (b :: (more ++ rest)) = .ok () := by
  induction more generalizing low high b good with
  | nil => simp [checkRest, hb]
  | cons x more ih =>
    obtain ⟨hx, hmore⟩ := List.forall_mem_cons.1 hmore
    have hx : 0x80 ≤ x ∧ x ≤ 0xBF := by simpa [continues] using hx
    have hnext := ih hx hmore (good + 1)
    simpa [checkRest, hb] using hnext

theorem toNat_ofNat (h : n < 256) : (UInt8.ofNat n).toNat = n := by
  rw [UInt8.toNat_ofNat', Nat.mod_eq_of_lt h]

theorem continues_ofNat (hm : 0x80 ≤ m ∧ m ≤ 0xBF) : continues (.ofNat m) = true := by
  simpa [continues, UInt8.le_iff_toNat_le, toNat_ofNat (show m < 256 by omega)] using hm

theorem width?_ofNat (h : n < 256) : width? (.ofNat n) =
    if n < 0x80 then some 1 else if n < 0xC2 then none else if n < 0xE0 then some 2
    else if n < 0xF0 then some 3 else if n < 0xF5 then some 4 else none := by
  simp [width?, UInt8.lt_iff_toNat_lt, Nat.mod_eq_of_lt h]

/-- The second bytes that no overlong form, no surrogate and no number too large has. -/
theorem secondRange_ofNat (hn : n < 256) (hm : 0x80 ≤ m ∧ m ≤ 0xBF) (hE0 : n = 0xE0 → 0xA0 ≤ m)
    (hED : n = 0xED → m ≤ 0x9F) (hF0 : n = 0xF0 → 0x90 ≤ m) (hF4 : n = 0xF4 → m ≤ 0x8F) :
    (secondRange (.ofNat n)).1 ≤ .ofNat m ∧ .ofNat m ≤ (secondRange (.ofNat n)).2 := by
  have heq : ∀ k : UInt8, UInt8.ofNat n = k ↔ n = k.toNat := fun k => by
    rw [← UInt8.toNat_inj, toNat_ofNat hn]
  simp only [secondRange, heq, UInt8.le_iff_toNat_le, toNat_ofNat (show m < 256 by omega),
    UInt8.reduceToNat]
  split
  · exact ⟨hE0 ‹_›, hm.2⟩
  split
  · exact ⟨hm.1, hED ‹_›⟩
  split
  · exact ⟨hF0 ‹_›, hm.2⟩
  split
  · exact ⟨hm.1, hF4 ‹_›⟩
  · exact hm

theorem payload_ofNat {bound : Nat} (h : n < 256) : payload (.ofNat n) bound = n % bound := by
  rw [payload, toNat_ofNat h]

/-- The bytes of a character: the first one gives their number, the others may follow it, and they
spell the character. -/
theorem encodeChar_spells (c : Char) : ∃ first more, String.utf8EncodeChar c = first :: more ∧
    width? first = some (more.length + 1) ∧
    (∀ rest, checkRest (secondRange first).1 (secondRange first).2 more.length 1 (more ++ rest) =
      .ok ()) ∧
    charOf first more = c := by
  have hvalid : c.toNat < 0xD800 ∨ 0xDFFF < c.toNat ∧ c.toNat < 0x110000 := c.valid
  have hchar : ∀ n, n = c.toNat → Char.ofNat n = c := fun n hn => hn ▸ Char.ofNat_toNat c
  generalize hv : c.toNat = v at hvalid hchar
  have hval : c.val.toNat = v := hv
  simp only [String.utf8EncodeChar, hval]
  split
  · rename_i h
    refine ⟨_, _, rfl, ?_, fun _ => rfl, hchar _ (toNat_ofNat (by omega))⟩
    rw [width?_ofNat (by omega), if_pos (by omega)]
    rfl
  split
  · refine ⟨_, _, rfl, ?_, fun rest => ?_, hchar _ ?_⟩
    · rw [width?_ofNat (by omega), if_neg (by omega), if_neg (by omega), if_pos (by omega)]
      rfl
    · refine checkRest_ok (secondRange_ofNat ?_ ?_ ?_ ?_ ?_ ?_) [] nofun 1 rest <;> omega
    · simp only [List.foldl_cons, List.foldl_nil, List.length_cons, List.length_nil]
      rw [payload_ofNat (by omega), payload_ofNat (by omega)]
      omega
  split
  · refine ⟨_, _, rfl, ?_, fun rest => ?_, hchar _ ?_⟩
    · rw [width?_ofNat (by omega), if_neg (by omega), if_neg (by omega), if_neg (by omega),
        if_pos (by omega)]
      rfl
    · refine checkRest_ok (secondRange_ofNat ?_ ?_ ?_ ?_ ?_ ?_) [_]
        (List.forall_mem_singleton.2 (continues_ofNat ?_)) 1 rest <;> omega
    · simp only [List.foldl_cons, List.foldl_nil, List.length_cons, List.length_nil]
      rw [payload_ofNat (by omega), payload_ofNat (by omega), payload_ofNat (by omega)]
      omega
  · refine ⟨_, _, rfl, ?_, fun rest => ?_, hchar _ ?_⟩
    · rw [width?_ofNat (by omega), if_neg (by omega), if_neg (by omega), if_neg (by omega),
        if_neg (by omega), if_pos (by omega)]
      rfl
    · refine checkRest_ok (secondRange_ofNat ?_ ?_ ?_ ?_ ?_ ?_) [_, _]
        (List.forall_mem_cons.2 ⟨continues_ofNat ?_, List.forall_mem_singleton.2 (continues_ofNat ?_)⟩)
        1 rest <;> omega
    · simp only [List.foldl_cons, List.foldl_nil, List.length_cons, List.length_nil]
      rw [payload_ofNat (by omega), payload_ofNat (by omega), payload_ofNat (by omega),
        payload_ofNat (by omega)]
      omega

/-- Each character has a byte at least, so the fuel lasts. -/
theorem decodeChars_encode (chars : List Char) {fuel : Nat} (index : Nat)
    (hf : (chars.flatMap String.utf8EncodeChar).length ≤ fuel) :
    decodeChars fuel index (chars.flatMap String.utf8EncodeChar) = .ok chars := by
  induction chars generalizing fuel index with
  | nil => cases fuel <;> rfl
  | cons c chars ih =>
    obtain ⟨first, more, hbytes, hwidth, hcheck, hchar⟩ := encodeChar_spells c
    rw [List.flatMap_cons, hbytes] at hf ⊢
    cases fuel with
    | zero => simp at hf
    | succ fuel =>
      have hlen : (chars.flatMap String.utf8EncodeChar).length ≤ fuel := by
        simp only [List.cons_append, List.length_cons, List.length_append] at hf
        omega
      simp only [List.cons_append, decodeChars, hwidth, Nat.add_sub_cancel, hcheck,
        List.drop_left, List.take_left, hchar, ih _ hlen]
      rfl

theorem decode_encode (s : String) : decode (encode s) = .ok s := by
  simp only [decode, encode, Bytes.ofText, decodeChars_encode s.toList 0 (Nat.le_refl _)]
  exact congrArg Except.ok (String.ofList_toList)

theorem ofNat_eq_iff {b : UInt8} : UInt8.ofNat n = b ↔ n % 256 = b.toNat := by
  rw [← UInt8.toNat_inj, UInt8.toNat_ofNat']

theorem toNat_charOfNat (h : n < 0xD800 ∨ 0xDFFF < n ∧ n < 0x110000) : (Char.ofNat n).val.toNat = n := by
  rw [Char.ofNat, dif_pos h]
  rfl

/-- What was checked is there: a byte in the interval, and bytes that go on. -/
theorem checkRest_eq_ok {low high : UInt8} {missing good : Nat} {bytes : Bytes}
    (h : checkRest low high (missing + 1) good bytes = .ok ()) : ∃ b more rest,
      bytes = b :: (more ++ rest) ∧ more.length = missing ∧ (low ≤ b ∧ b ≤ high) ∧
        ∀ x ∈ more, 0x80 ≤ x ∧ x ≤ 0xBF := by
  induction missing generalizing low high good bytes with
  | zero =>
    cases bytes with
    | nil => simp [checkRest] at h
    | cons b rest =>
      have hb : low ≤ b ∧ b ≤ high := by
        by_contra hb
        simp [checkRest, hb] at h
      exact ⟨b, [], rest, rfl, rfl, hb, nofun⟩
  | succ missing ih =>
    cases bytes with
    | nil => simp [checkRest] at h
    | cons b rest =>
      have hb : low ≤ b ∧ b ≤ high := by
        by_contra hb
        simp [checkRest, hb] at h
      rw [checkRest, if_pos (by simpa using hb)] at h
      obtain ⟨x, more, rest, rfl, rfl, hx, hmore⟩ := ih h
      exact ⟨b, x :: more, rest, rfl, rfl, hb, List.forall_mem_cons.2 ⟨hx, hmore⟩⟩

theorem width?_eq_some {first : UInt8} {width : Nat} (h : width? first = some width) :
    width = 1 ∧ first.toNat < 0x80 ∨ width = 2 ∧ 0xC2 ≤ first.toNat ∧ first.toNat < 0xE0 ∨
      width = 3 ∧ 0xE0 ≤ first.toNat ∧ first.toNat < 0xF0 ∨
      width = 4 ∧ 0xF0 ≤ first.toNat ∧ first.toNat < 0xF5 := by
  simp only [width?, UInt8.lt_iff_toNat_lt, UInt8.reduceToNat] at h
  split at h
  · exact .inl ⟨(Option.some.inj h).symm, ‹_›⟩
  split at h
  · cases h
  split at h
  · exact .inr (.inl ⟨(Option.some.inj h).symm, by omega, ‹_›⟩)
  split at h
  · exact .inr (.inr (.inl ⟨(Option.some.inj h).symm, by omega, ‹_›⟩))
  split at h
  · exact .inr (.inr (.inr ⟨(Option.some.inj h).symm, by omega, ‹_›⟩))
  · cases h

theorem secondRange_bounds {first b : UInt8}
    (h : (secondRange first).1 ≤ b ∧ b ≤ (secondRange first).2) :
    (0x80 ≤ b.toNat ∧ b.toNat ≤ 0xBF) ∧ (first.toNat = 0xE0 → 0xA0 ≤ b.toNat) ∧
      (first.toNat = 0xED → b.toNat ≤ 0x9F) ∧ (first.toNat = 0xF0 → 0x90 ≤ b.toNat) ∧
      (first.toNat = 0xF4 → b.toNat ≤ 0x8F) := by
  have heq : ∀ k : UInt8, first = k ↔ first.toNat = k.toNat := fun k => UInt8.toNat_inj.symm
  simp only [secondRange, heq, UInt8.le_iff_toNat_le, UInt8.reduceToNat] at h
  split_ifs at h <;> simp only [UInt8.reduceToNat] at h <;> omega

/-- A checked sequence is how its character is spelled: no other number of bytes, and no other
bytes, spell it. -/
theorem encodeChar_of_check {first : UInt8} {width : Nat} {bytes : Bytes}
    (hw : width? first = some width)
    (hc : checkRest (secondRange first).1 (secondRange first).2 (width - 1) 1 bytes = .ok ()) :
    String.utf8EncodeChar (charOf first (bytes.take (width - 1))) =
      first :: bytes.take (width - 1) := by
  obtain ⟨rfl, h⟩ | ⟨rfl, h⟩ | ⟨rfl, h⟩ | ⟨rfl, h⟩ := width?_eq_some hw
  · have hval := toNat_charOfNat (n := first.toNat) (by omega)
    simp only [Nat.sub_self, List.take_zero, charOf, List.length_nil, List.foldl_nil,
      String.utf8EncodeChar, hval]
    rw [if_pos (by omega), UInt8.ofNat_toNat]
  · obtain ⟨b, more, rest, rfl, hlen, hb, -⟩ := checkRest_eq_ok hc
    obtain rfl := List.length_eq_zero_iff.1 hlen
    have hbound := secondRange_bounds hb
    have hval := toNat_charOfNat (n := first.toNat % 32 * 64 + b.toNat % 64) (by omega)
    simp only [Nat.reduceSub, List.nil_append, List.take_succ_cons, List.take_zero, charOf, payload,
      List.length_cons, List.length_nil, List.foldl_cons, List.foldl_nil, String.utf8EncodeChar, hval]
    rw [if_neg (by omega), if_pos (by omega)]
    simp only [List.cons.injEq, ofNat_eq_iff, and_true]
    omega
  · obtain ⟨b, more, rest, rfl, hlen, hb, hmore⟩ := checkRest_eq_ok hc
    obtain ⟨x, rfl⟩ := List.length_eq_one_iff.1 hlen
    have hbound := secondRange_bounds hb
    have hx := List.forall_mem_singleton.1 hmore
    simp only [UInt8.le_iff_toNat_le, UInt8.reduceToNat] at hx
    have hval := toNat_charOfNat
      (n := (first.toNat % 16 * 64 + b.toNat % 64) * 64 + x.toNat % 64) (by omega)
    simp only [Nat.reduceSub, List.cons_append, List.nil_append, List.take_succ_cons, List.take_zero,
      charOf, payload, List.length_cons, List.length_nil, List.foldl_cons, List.foldl_nil,
      String.utf8EncodeChar, hval]
    rw [if_neg (by omega), if_neg (by omega), if_pos (by omega)]
    simp only [List.cons.injEq, ofNat_eq_iff, and_true]
    omega
  · obtain ⟨b, more, rest, rfl, hlen, hb, hmore⟩ := checkRest_eq_ok hc
    obtain ⟨x, y, rfl⟩ := List.length_eq_two.1 hlen
    have hbound := secondRange_bounds hb
    obtain ⟨hx, hy⟩ := List.forall_mem_cons.1 hmore
    have hy := List.forall_mem_singleton.1 hy
    simp only [UInt8.le_iff_toNat_le, UInt8.reduceToNat] at hx hy
    have hval := toNat_charOfNat
      (n := ((first.toNat % 8 * 64 + b.toNat % 64) * 64 + x.toNat % 64) * 64 + y.toNat % 64) (by omega)
    simp only [Nat.reduceSub, List.cons_append, List.nil_append, List.take_succ_cons, List.take_zero,
      charOf, payload, List.length_cons, List.length_nil, List.foldl_cons, List.foldl_nil,
      String.utf8EncodeChar, hval]
    rw [if_neg (by omega), if_neg (by omega), if_neg (by omega)]
    simp only [List.cons.injEq, ofNat_eq_iff, and_true]
    omega

theorem encode_decodeChars {fuel index : Nat} {bytes : Bytes} {chars : List Char}
    (hf : bytes.length ≤ fuel) (h : decodeChars fuel index bytes = .ok chars) :
    chars.flatMap String.utf8EncodeChar = bytes := by
  induction fuel generalizing index bytes chars with
  | zero =>
    obtain rfl := List.length_eq_zero_iff.1 (Nat.le_zero.1 hf)
    obtain rfl := Except.ok.inj h
    rfl
  | succ fuel ih =>
    cases bytes with
    | nil =>
      obtain rfl := Except.ok.inj h
      rfl
    | cons first rest =>
      cases hw : width? first with
      | none => simp [decodeChars, hw] at h
      | some width =>
        cases hc : checkRest (secondRange first).1 (secondRange first).2 (width - 1) 1 rest with
        | error length => simp [decodeChars, hw, hc] at h
        | ok u =>
          simp only [decodeChars, hw, hc, bind_eq_ok, pure_eq_ok] at h
          obtain ⟨more, hmore, rfl⟩ := h
          have hlen : (rest.drop (width - 1)).length ≤ fuel := by
            rw [List.length_drop]
            rw [List.length_cons] at hf
            omega
          rw [List.flatMap_cons, encodeChar_of_check hw hc, ih hlen hmore, List.cons_append,
            List.take_append_drop]

/-- Text has no other bytes than those it is written as. -/
theorem encode_decode {bytes : Bytes} {s : String} (h : decode bytes = .ok s) : encode s = bytes := by
  simp only [decode, bind_eq_ok, pure_eq_ok] at h
  obtain ⟨chars, hchars, rfl⟩ := h
  rw [encode, Bytes.ofText, String.toList_ofList]
  exact encode_decodeChars (Nat.le_refl _) hchars

end ShardCluster.Utf8
