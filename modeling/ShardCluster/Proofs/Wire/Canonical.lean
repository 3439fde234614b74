import ShardCluster.Proofs.Wire.Reading
/-! Whatever is read can be written, with no more bytes than were read. They are the same bytes but
for a placement that was out of order and an instant whose nanoseconds were a second or more. -/
namespace ShardCluster
open Std

namespace Wire
variable {input rest front written : Bytes} {l : List (ShardId × List PeerId)}

/-- The pairs in the bytes of an entry that has a placement. -/
def pairsIn : Reader (List (ShardId × List PeerId)) := do
  match ← readWord32 with
  | 2 =>
    let _ ← readText
    let _ ← readConfig
    readPairs
  | 4 =>
    let _ ← readText
    let _ ← readKey
    readPairs
  | found => throw (.alternative found 17)

def readParts : Reader (UInt64 × UInt32) := readPair readWord64 readWord32

def writeParts : UInt64 × UInt32 → Bytes := writePair Bytes.little64 Bytes.little32

def partsOf (t : Timestamp) : UInt64 × UInt32 := (t.seconds.toUInt64, UInt32.ofNat t.nanos)

/-- The seconds and nanoseconds in the bytes of an entry that has an instant. -/
def partsIn : Reader (UInt64 × UInt32) := do
  match ← readWord32 with
  | 6 =>
    let _ ← readText
    let _ ← readCase directions
    let _ ← readWord64
    let _ ← readWord32
    let _ ← readOption readKey
    let _ ← readCase stages
    readParts
  | found => throw (.alternative found 17)

/-- The keys of the placement are not in strictly ascending order. -/
def Disordered (input : Bytes) : Prop :=
  ∃ l rest, pairsIn input = .ok (l, rest) ∧ ¬(l.map (·.1)).Pairwise (· < ·)

/-- The nanoseconds of the instant make up a second. -/
def Carries (input : Bytes) : Prop :=
  ∃ parts rest, partsIn input = .ok (parts, rest) ∧ Duration.perSecond ≤ parts.2.toNat

theorem ascending_iff :
    (l.map (·.1)).Pairwise (· < ·) ↔ l.Pairwise (fun a b => compare a.1 b.1 = .lt) := by
  simp only [List.pairwise_map, compare_eq_lt]

theorem writePlacement_eq (p : Placement) : writePlacement p = writePairs p.entries := rfl

theorem spells_pairs (hl : l.length < UInt64.size) (h : ∀ p ∈ l, p.2.length < UInt64.size) :
    Spells readPairs (writePairs l) l :=
  spells_list hl fun p hp => spells_pair (spells_word32 _) (spells_list (h p hp) fun _ _ => spells_word64 _)

/-- The bytes of a placement go on as those of its pairs just when these were in order. -/
theorem prefix_pairs_iff (hl : l.length < UInt64.size) (h : ∀ p ∈ l, p.2.length < UInt64.size) :
    writePairs (SortedMap.ofList l).entries <+: writePairs l ++ rest ↔
      (l.map (·.1)).Pairwise (· < ·) := by
  rw [ascending_iff]
  constructor
  · rintro ⟨rest', heq⟩
    have hlen := Nat.lt_of_le_of_lt (SortedMap.length_ofList l) hl
    have hm := spells_pairs hlen fun p hp => h p (SortedMap.mem_ofList hp)
    rw [← (hm.same (spells_pairs hl h) heq).1]
    exact (SortedMap.ofList l).ascending
  · intro hasc
    rw [SortedMap.entries_ofList hasc]
    exact List.prefix_append _ _

theorem exact_parts : Exact readParts writeParts fun _ => True := by
  intro input parts rest h
  obtain ⟨hin, -⟩ := exact_pair exact_word64 exact_word32 h
  exact ⟨hin, trivial⟩

theorem seconds_ofParts {seconds nanos : Nat}
    (h : seconds + nanos / Duration.perSecond < UInt64.size / 2) :
    (Timestamp.ofParts seconds nanos).seconds.toInt = (seconds + nanos / Duration.perSecond : Nat) := by
  have hhalf : UInt64.size / 2 = 2 ^ 63 := rfl
  have hlow := Int.natCast_nonneg (seconds + nanos / Duration.perSecond)
  exact Int64.toInt_ofInt_of_le (Int.le_trans (by decide) hlow) (Int.ofNat_lt.2 (hhalf ▸ h))

theorem spells_parts (parts : UInt64 × UInt32) : Spells readParts (writeParts parts) parts :=
  spells_pair (spells_word64 _) (spells_word32 _)

/-- An instant that was read is from after 1970. It has the parts that were read, unless there was
a second among the nanoseconds. -/
theorem read_instant {t : Timestamp} (h : readInstant input = .ok (t, rest)) :
    ∃ parts, readParts input = .ok (parts, rest) ∧ ¬t.seconds < 0 ∧
      (partsOf t = parts ↔ parts.2.toNat < Duration.perSecond) := by
  simp only [readInstant, read_bind_eq_ok] at h
  obtain ⟨seconds, _, hseconds, nanos, _, hnanos, h⟩ := h
  have htotal : seconds.toNat + nanos.toNat / Duration.perSecond < UInt64.size / 2 := by
    by_contra hlate
    simp only [if_pos (Nat.le_of_not_lt hlate)] at h
    split at h <;> simp only [read_bind_eq_ok, read_throw_eq_ok, false_and, exists_false] at h
  rw [if_neg (by omega), if_neg (by omega)] at h
  obtain ⟨rfl, rfl⟩ := read_pure_eq_ok.1 h
  have hparts : readParts input = .ok ((seconds, nanos), _) :=
    read_bind_eq_ok.2 ⟨_, _, hseconds, read_bind_eq_ok.2 ⟨_, _, hnanos, rfl⟩⟩
  have hsum := seconds_ofParts htotal
  have hpast : ¬(Timestamp.ofParts seconds.toNat nanos.toNat).seconds < 0 := by
    rw [Int64.lt_iff_toInt_lt, hsum]
    exact Int.not_lt.2 (Int.natCast_nonneg _)
  have hword := Int.ofNat_inj.1 ((toNat_seconds hpast).trans hsum)
  have hrest : (Timestamp.ofParts seconds.toNat nanos.toNat).nanos = nanos.toNat % Duration.perSecond := rfl
  refine ⟨_, hparts, hpast, ?_⟩
  rw [partsOf, Prod.mk.injEq, ← UInt64.toNat_inj, ← UInt32.toNat_inj, hword, hrest, UInt32.toNat_ofNat']
  have hnanos := nanos.toNat_lt
  simp only [Duration.perSecond]
  omega

/-- Two seconds among the nanoseconds. -/
example : readInstant (writeParts (1, 2000000000)) = .ok (⟨3, 0, by decide⟩, []) := by decide +kernel

theorem writeInstant_eq {t : Timestamp} (h : ¬t.seconds < 0) :
    writeInstant t = .ok (writeParts (partsOf t)) := if_neg h

theorem length_writeParts (parts : UInt64 × UInt32) : (writeParts parts).length = 12 := rfl

theorem prefix_parts_iff {parts parts' : UInt64 × UInt32} {content content' : Bytes} :
    writeParts parts' ++ content' <+: writeParts parts ++ content ↔
      parts' = parts ∧ content' <+: content := by
  constructor
  · rintro ⟨rest, heq⟩
    rw [List.append_assoc] at heq
    obtain ⟨hparts, rfl⟩ := (spells_parts parts').same (spells_parts parts) heq
    exact ⟨hparts, List.prefix_append _ _⟩
  · rintro ⟨rfl, h⟩
    exact (List.prefix_append_right_inj _).2 h

variable {e : Entry} {found : UInt32} {content : Bytes}

/-- What the bytes of an entry say about it. -/
structure Renders (input : Bytes) (e : Entry) (written : Bytes) : Prop where
  sized : e.Sized
  bytes : writeEntry e = .ok written
  short : written.length ≤ input.length
  front : written <+: input ↔ ¬(Disordered input ∨ Carries input)

theorem pairsIn_eq_ok (h : pairsIn (Bytes.little32 found ++ input) = .ok (l, rest)) :
    found = 2 ∨ found = 4 := by
  rw [pairsIn, read_bind_eq_ok] at h
  obtain ⟨x, _, hx, h⟩ := h
  obtain ⟨rfl, rfl⟩ := Prod.mk.inj (Except.ok.inj (((spells_word32 found).whole input).symm.trans hx))
  split at h
  · exact .inl rfl
  · exact .inr rfl
  · exact (read_throw_eq_ok.1 h).elim

theorem partsIn_eq_ok {parts : UInt64 × UInt32}
    (h : partsIn (Bytes.little32 found ++ input) = .ok (parts, rest)) : found = 6 := by
  rw [partsIn, read_bind_eq_ok] at h
  obtain ⟨x, _, hx, h⟩ := h
  obtain ⟨rfl, rfl⟩ := Prod.mk.inj (Except.ok.inj (((spells_word32 found).whole input).symm.trans hx))
  split at h
  · rfl
  · exact (read_throw_eq_ok.1 h).elim

theorem disordered_iff (h : pairsIn input = .ok (l, rest)) :
    Disordered input ↔ ¬(l.map (·.1)).Pairwise (· < ·) := by
  constructor
  · rintro ⟨l', rest', h', hl'⟩
    obtain ⟨rfl, rfl⟩ := Prod.mk.inj (Except.ok.inj (h.symm.trans h'))
    exact hl'
  · exact fun hl => ⟨l, rest, h, hl⟩

/-- Two keys in descending order. -/
example : Disordered (Bytes.little32 4 ++ writeText "" ++ writeKey (.number 0) ++
    writePairs [(1, []), (0, [])]) :=
  ⟨[(1, []), (0, [])], [], by decide +kernel, by decide⟩

theorem carries_iff {parts : UInt64 × UInt32} (h : partsIn input = .ok (parts, rest)) :
    Carries input ↔ Duration.perSecond ≤ parts.2.toNat := by
  constructor
  · rintro ⟨parts', rest', h', hparts'⟩
    obtain ⟨rfl, rfl⟩ := Prod.mk.inj (Except.ok.inj (h.symm.trans h'))
    exact hparts'
  · exact fun hparts => ⟨parts, rest, h, hparts⟩

/-- An entry with neither placement nor instant is read as it is written. -/
theorem exact_content (h2 : found ≠ 2) (h4 : found ≠ 4) (h6 : found ≠ 6)
    (h : readContent found input = .ok (e, rest)) : kind e = found ∧ e.Sized ∧
      ∃ content, writeContent e = .ok content ∧ input = content ++ rest := by
  unfold readContent at h
  split at h <;> simp only [read_bind_eq_ok, read_pure_eq_ok, read_throw_eq_ok] at h
  case h_1 =>
    obtain ⟨peer, _, hpeer, rfl, rfl⟩ := h
    exact ⟨rfl, nofun, _, rfl, (exact_word64 hpeer).1⟩
  case h_2 =>
    obtain ⟨peer, _, hpeer, force, _, hforce, rfl, rfl⟩ := h
    obtain ⟨rfl, -⟩ := exact_word64 hpeer
    obtain ⟨rfl, -⟩ := exact_flag hforce
    exact ⟨rfl, nofun, _, rfl, by rw [List.append_assoc]⟩
  case h_3 => exact absurd rfl h2
  case h_4 | h_8 | h_9 | h_10 =>
    obtain ⟨name, _, hname, rfl, rfl⟩ := h
    obtain ⟨rfl, hlt⟩ := exact_text hname
    exact ⟨rfl, List.forall_mem_singleton.2 hlt, _, rfl, rfl⟩
  case h_5 => exact absurd rfl h4
  case h_6 =>
    obtain ⟨name, _, hname, key, _, hkey, rfl, rfl⟩ := h
    obtain ⟨rfl, hlt⟩ := exact_text hname
    obtain ⟨rfl, hfits⟩ := exact_key hkey
    exact ⟨rfl, List.forall_mem_cons.2 ⟨hlt, hfits⟩, _, rfl, by rw [List.append_assoc]⟩
  case h_7 => exact absurd rfl h6
  case h_11 =>
    obtain ⟨name, _, hname, forced, _, hforced, reason, _, hreason, rfl, rfl⟩ := h
    obtain ⟨rfl, hlt⟩ := exact_text hname
    obtain ⟨rfl, -⟩ := exact_flag hforced
    obtain ⟨rfl, hfits⟩ := exact_text hreason
    exact ⟨rfl, List.forall_mem_cons.2 ⟨hlt, List.forall_mem_singleton.2 hfits⟩, _, rfl,
      by simp only [List.append_assoc]⟩
  case h_12 =>
    obtain ⟨name, _, hname, t, _, ht, rfl, rfl⟩ := h
    obtain ⟨rfl, hlt⟩ := exact_text hname
    obtain ⟨rfl, -⟩ := exact_transfer ht
    exact ⟨rfl, List.forall_mem_singleton.2 hlt, _, rfl, by rw [List.append_assoc]⟩
  case h_13 =>
    obtain ⟨name, _, hname, key, _, hkey, epoch, _, hepoch, rfl, rfl⟩ := h
    obtain ⟨rfl, hlt⟩ := exact_text hname
    obtain ⟨rfl, -⟩ := exact_transferKey hkey
    obtain ⟨rfl, -⟩ := exact_word64 hepoch
    exact ⟨rfl, List.forall_mem_singleton.2 hlt, _, rfl, by simp only [List.append_assoc]⟩
  case h_14 =>
    obtain ⟨name, _, hname, key, _, hkey, epoch, _, hepoch, reason, _, hreason, rfl, rfl⟩ := h
    obtain ⟨rfl, hlt⟩ := exact_text hname
    obtain ⟨rfl, -⟩ := exact_transferKey hkey
    obtain ⟨rfl, -⟩ := exact_word64 hepoch
    obtain ⟨rfl, hfits⟩ := exact_text hreason
    exact ⟨rfl, List.forall_mem_cons.2 ⟨hlt, List.forall_mem_singleton.2 hfits⟩, _, rfl,
      by simp only [List.append_assoc]⟩
  case h_15 =>
    obtain ⟨name, _, hname, key, _, hkey, rfl, rfl⟩ := h
    obtain ⟨rfl, hlt⟩ := exact_text hname
    obtain ⟨rfl, -⟩ := exact_transferKey hkey
    exact ⟨rfl, List.forall_mem_singleton.2 hlt, _, rfl, by rw [List.append_assoc]⟩
  case h_16 =>
    obtain ⟨name, _, hname, shard, _, hshard, peer, _, hpeer, rfl, rfl⟩ := h
    obtain ⟨rfl, hlt⟩ := exact_text hname
    obtain ⟨rfl, -⟩ := exact_word32 hshard
    obtain ⟨rfl, -⟩ := exact_word64 hpeer
    exact ⟨rfl, List.forall_mem_singleton.2 hlt, _, rfl, by simp only [List.append_assoc]⟩
  case h_17 =>
    obtain ⟨name, _, hname, shard, _, hshard, peer, _, hpeer, state, _, hstate, rfl, rfl⟩ := h
    obtain ⟨rfl, hlt⟩ := exact_text hname
    obtain ⟨rfl, -⟩ := exact_word32 hshard
    obtain ⟨rfl, -⟩ := exact_word64 hpeer
    obtain ⟨rfl, -⟩ := exact_case (by decide) hstate
    exact ⟨rfl, List.forall_mem_singleton.2 hlt, _, rfl, by simp only [List.append_assoc]⟩

theorem renders_content (h2 : found ≠ 2) (h4 : found ≠ 4) (h6 : found ≠ 6)
    (h : readContent found input = .ok (e, rest)) :
    ∃ written, Renders (Bytes.little32 found ++ input) e written := by
  obtain ⟨rfl, hs, content, hw, rfl⟩ := exact_content h2 h4 h6 h
  refine ⟨_, hs, bind_eq_ok.2 ⟨_, hw, rfl⟩, ?_, iff_of_true ?_ ?_⟩
  · simp only [List.length_append]
    omega
  · exact (List.prefix_append_right_inj _).2 (List.prefix_append _ _)
  · rintro (⟨l, rest', hpairs, -⟩ | ⟨parts, rest', hparts, -⟩)
    · exact (pairsIn_eq_ok hpairs).elim h2 h4
    · exact h6 (partsIn_eq_ok hparts)

theorem length_writePlacement : (writePlacement (SortedMap.ofList l)).length ≤ (writePairs l).length := by
  have hlen := SortedMap.length_ofList_flatMap (writePair Bytes.little32 (writeList Bytes.little64)) l
  simp only [writePlacement_eq, writePairs, writeList, List.length_append, writeSize, Bytes.length_little64]
  omega

theorem sized_placement (hl : l.length < UInt64.size) (h : ∀ p ∈ l, p.2.length < UInt64.size) :
    ∀ n ∈ Placement.lengths (SortedMap.ofList l), n < UInt64.size := by
  refine List.forall_mem_cons.2 ⟨Nat.lt_of_le_of_lt (SortedMap.length_ofList l) hl, fun n hn => ?_⟩
  obtain ⟨hosts, hhosts, rfl⟩ := List.mem_map.1 hn
  obtain ⟨p, hp, rfl⟩ := List.mem_map.1 hhosts
  exact h p (SortedMap.mem_ofList hp)

/-- An entry that ends with a placement, after `front`. -/
theorem renders_placement (h6 : found ≠ 6) (hkind : kind e = found) (hs : e.Sized)
    (hw : writeContent e = .ok (front ++ writePlacement (SortedMap.ofList l)))
    (hin : pairsIn (Bytes.little32 found ++ (front ++ (writePairs l ++ rest))) = .ok (l, rest))
    (hl : l.length < UInt64.size) (hhosts : ∀ p ∈ l, p.2.length < UInt64.size) :
    ∃ written, Renders (Bytes.little32 found ++ (front ++ (writePairs l ++ rest))) e written := by
  subst hkind
  refine ⟨_, hs, bind_eq_ok.2 ⟨_, hw, rfl⟩, ?_, ?_⟩
  · have hlen := length_writePlacement (l := l)
    simp only [List.length_append]
    omega
  · have hcarries : ¬Carries (Bytes.little32 (kind e) ++ (front ++ (writePairs l ++ rest))) := by
      rintro ⟨parts, rest', hparts, -⟩
      exact h6 (partsIn_eq_ok hparts)
    rw [List.prefix_append_right_inj, List.prefix_append_right_inj, writePlacement_eq,
      prefix_pairs_iff hl hhosts, or_iff_left hcarries, disordered_iff hin, not_not]

theorem renders_collection (h : readContent 2 input = .ok (e, rest)) :
    ∃ written, Renders (Bytes.little32 2 ++ input) e written := by
  simp only [readContent, read_bind_eq_ok, read_pure_eq_ok] at h
  obtain ⟨name, _, hname, config, _, hconfig, p, _, hplacement, rfl, rfl⟩ := h
  obtain ⟨l, hpairs, rfl⟩ := read_map_eq_ok.1 hplacement
  have hin : pairsIn (Bytes.little32 2 ++ input) = .ok (l, _) :=
    read_bind_eq_ok.2 ⟨_, _, (spells_word32 2).whole input, read_bind_eq_ok.2
      ⟨_, _, hname, read_bind_eq_ok.2 ⟨_, _, hconfig, hpairs⟩⟩⟩
  obtain ⟨rfl, hlt⟩ := exact_text hname
  obtain ⟨rfl, -⟩ := exact_config hconfig
  obtain ⟨rfl, hl, hhosts⟩ := exact_pairs hpairs
  rw [← List.append_assoc (writeText name)] at hin ⊢
  exact renders_placement (by decide) rfl (List.forall_mem_cons.2 ⟨hlt, sized_placement hl hhosts⟩) rfl
    hin hl hhosts

theorem renders_shardKey (h : readContent 4 input = .ok (e, rest)) :
    ∃ written, Renders (Bytes.little32 4 ++ input) e written := by
  simp only [readContent, read_bind_eq_ok, read_pure_eq_ok] at h
  obtain ⟨name, _, hname, key, _, hkey, p, _, hplacement, rfl, rfl⟩ := h
  obtain ⟨l, hpairs, rfl⟩ := read_map_eq_ok.1 hplacement
  have hin : pairsIn (Bytes.little32 4 ++ input) = .ok (l, _) :=
    read_bind_eq_ok.2 ⟨_, _, (spells_word32 4).whole input, read_bind_eq_ok.2
      ⟨_, _, hname, read_bind_eq_ok.2 ⟨_, _, hkey, hpairs⟩⟩⟩
  obtain ⟨rfl, hlt⟩ := exact_text hname
  obtain ⟨rfl, hfits⟩ := exact_key hkey
  obtain ⟨rfl, hl, hhosts⟩ := exact_pairs hpairs
  rw [← List.append_assoc (writeText name)] at hin ⊢
  exact renders_placement (by decide) rfl
    (List.forall_mem_cons.2 ⟨hlt, List.forall_mem_append.2 ⟨hfits, sized_placement hl hhosts⟩⟩) rfl
    hin hl hhosts

/-- The bytes of an operation before its instant. -/
def writeFront (o : Operation) : Bytes :=
  writeText o.collection ++ writeCase directions o.direction ++ Bytes.little64 o.peer ++
    Bytes.little32 o.shard ++ writeOption writeKey o.key ++ writeCase stages o.stage

/-- An entry with an instant, after `front` and before `content`. -/
theorem renders_instant {t : Timestamp} {parts : UInt64 × UInt32} (hkind : kind e = 6) (hs : e.Sized)
    (hw : writeContent e = .ok (front ++ (writeParts (partsOf t) ++ content)))
    (hin : partsIn (Bytes.little32 6 ++ (front ++ (writeParts parts ++ (content ++ rest)))) =
      .ok (parts, content ++ rest))
    (hcarry : partsOf t = parts ↔ parts.2.toNat < Duration.perSecond) :
    ∃ written,
      Renders (Bytes.little32 6 ++ (front ++ (writeParts parts ++ (content ++ rest)))) e written := by
  refine ⟨_, hs, bind_eq_ok.2 ⟨_, hw, rfl⟩, ?_, ?_⟩
  · simp only [hkind, List.length_append, length_writeParts]
    omega
  · have hordered :
        ¬Disordered (Bytes.little32 6 ++ (front ++ (writeParts parts ++ (content ++ rest)))) := by
      rintro ⟨l, rest', hpairs, -⟩
      exact absurd (pairsIn_eq_ok hpairs) (by decide)
    rw [hkind, List.prefix_append_right_inj, List.prefix_append_right_inj, prefix_parts_iff,
      and_iff_left (List.prefix_append _ _), hcarry, or_iff_right hordered, carries_iff hin, Nat.not_le]

theorem read_operation {o : Operation} (h : readOperation input = .ok (o, rest)) :
    ∃ parts, input = writeFront o ++ (writeParts parts ++ rest) ∧
      partsIn (Bytes.little32 6 ++ input) = .ok (parts, rest) ∧
      (partsOf o.createdAt = parts ↔ parts.2.toNat < Duration.perSecond) ∧
      writeOperation o = .ok (writeFront o ++ writeParts (partsOf o.createdAt)) ∧
      textLength o.collection < UInt64.size ∧
      ∀ k, o.key = some k → ∀ n ∈ k.lengths, n < UInt64.size := by
  simp only [readOperation, read_bind_eq_ok, read_pure_eq_ok] at h
  obtain ⟨name, _, hname, direction, _, hdirection, peer, _, hpeer, shard, _, hshard, key, _, hkey,
    stage, _, hstage, instant, after, hinstant, rfl, rfl⟩ := h
  obtain ⟨parts, hparts, hpast, hcarry⟩ := read_instant hinstant
  have hin : partsIn (Bytes.little32 6 ++ input) = .ok (parts, after) := by
    rw [partsIn, read_bind_eq_ok]
    refine ⟨_, _, (spells_word32 6).whole input, ?_⟩
    simp only [read_bind_eq_ok]
    exact ⟨name, _, hname, direction, _, hdirection, peer, _, hpeer, shard, _, hshard, key, _, hkey,
      stage, _, hstage, hparts⟩
  obtain ⟨rfl, hlt⟩ := exact_text hname
  obtain ⟨rfl, -⟩ := exact_case (by decide) hdirection
  obtain ⟨rfl, -⟩ := exact_word64 hpeer
  obtain ⟨rfl, -⟩ := exact_word32 hshard
  obtain ⟨rfl, hfits⟩ := exact_option exact_key hkey
  obtain ⟨rfl, -⟩ := exact_case (by decide) hstage
  obtain ⟨rfl, -⟩ := exact_parts hparts
  refine ⟨parts, by simp only [writeFront, List.append_assoc], hin, hcarry, ?_, hlt, hfits⟩
  rw [writeOperation, writeInstant_eq hpast]
  rfl

theorem renders_resharding (h : readContent 6 input = .ok (e, rest)) :
    ∃ written, Renders (Bytes.little32 6 ++ input) e written := by
  simp only [readContent, readPlan, bind_assoc, pure_bind, read_bind_eq_ok, read_pure_eq_ok] at h
  obtain ⟨o, _, hoperation, transfers, _, htransfers, rfl, rfl⟩ := h
  obtain ⟨parts, rfl, hin, hcarry, hw, hlt, hfits⟩ := read_operation hoperation
  obtain ⟨rfl, hcount, -⟩ := exact_list exact_transfer htransfers
  refine renders_instant rfl ?_ ?_ hin hcarry
  · refine List.forall_mem_cons.2 ⟨hlt, List.forall_mem_cons.2 ⟨hcount, fun n hn => ?_⟩⟩
    cases hkey : o.key with
    | none => simp [hkey] at hn
    | some k => exact hfits k hkey n (by simpa [hkey] using hn)
  · refine bind_eq_ok.2 ⟨_, hw, ?_⟩
    rw [List.append_assoc]
    rfl

end Wire

namespace Entry
variable {e : Entry} {input rest : Bytes}

theorem renders_of_read (h : Wire.readEntry input = .ok (e, rest)) :
    ∃ written, Wire.Renders input e written := by
  rw [Wire.readEntry, Wire.read_bind_eq_ok] at h
  obtain ⟨found, _, hfound, h⟩ := h
  obtain ⟨rfl, -⟩ := Wire.exact_word32 hfound
  by_cases h2 : found = 2
  · subst h2
    exact Wire.renders_collection h
  by_cases h4 : found = 4
  · subst h4
    exact Wire.renders_shardKey h
  by_cases h6 : found = 6
  · subst h6
    exact Wire.renders_resharding h
  exact Wire.renders_content h2 h4 h6 h

/-- The bytes that an entry has, after it was read from `input`. -/
structure Canonical (input : Bytes) (e : Entry) (written : Bytes) : Prop where
  bytes : e.toBytes = .ok written
  short : written.length ≤ input.length
  back : ofBytes written = .ok e
  /-- They are the front of what was read if that was in order. -/
  front : written <+: input ↔ ¬(Wire.Disordered input ∨ Wire.Carries input)

/-- Bytes are read as an entry or not at all. An entry that was read has bytes, no more than were
read, and is read back from them. -/
theorem canonical_of_ofBytes (input : Bytes) :
    (∃ e written, ofBytes input = .ok e ∧ Canonical input e written) ∨
      ∃ text, ofBytes input = .error (.serialization text) := by
  cases hread : Wire.readEntry input with
  | error fault => exact .inr ⟨_, ofBytes_of_fault hread⟩
  | ok found =>
    obtain ⟨written, h⟩ := renders_of_read hread
    have hbytes := toBytes_eq_ok.2 h.bytes
    exact .inl ⟨found.1, written, ofBytes_of_read hread, hbytes, h.short, ofBytes_toBytes h.sized hbytes,
      h.front⟩

end Entry
end ShardCluster
