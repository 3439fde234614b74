import Mathlib.Data.List.GetD
import Mathlib.Data.Nat.Count
import Mathlib.Data.Nat.Periodic
import Mathlib.Order.Interval.Finset.Nat
import ShardCluster.Placement
import ShardCluster.Proofs.SortedMap.Lookup
/-! Round-robin placement. Every shard gets as many hosts as it is to have, and no peer has more shards
than it must: over a full turn of shards each peer is a host equally often, so that only the part of a turn
at the end makes a difference. -/
namespace ShardCluster.Placement

section Turn
variable {n k k' r s : Nat}

/-- How many hosts of shard `s` come before the peer at index `k`, going round the list of peers. -/
def lag (n k s : Nat) : Nat := (k + n - s % n) % n

theorem lag_lt (hk : k < n) (s : Nat) : lag n k s < n := Nat.mod_lt _ (Nat.zero_lt_of_lt hk)

theorem lag_periodic (n k : Nat) : Function.Periodic (lag n k) n := fun s => by
  simp [lag]

theorem add_mod_eq_iff (hk : k < n) {j : Nat} (hj : j < n) : (s + j) % n = k ↔ j = lag n k s := by
  have hs := Nat.mod_lt s (Nat.zero_lt_of_lt hk)
  rw [lag, Nat.add_mod, Nat.mod_eq_of_lt hj]
  generalize s % n = i at hs
  have hsum : (i + j) % n = if i + j < n then i + j else i + j - n := by
    split
    · exact Nat.mod_eq_of_lt ‹_›
    · rw [Nat.mod_eq_sub_mod (by omega), Nat.mod_eq_of_lt (by omega)]
  have hlag : (k + n - i) % n = if i ≤ k then k - i else k + n - i := by
    split
    · rw [show k + n - i = k - i + n by omega, Nat.add_mod_right, Nat.mod_eq_of_lt (by omega)]
    · exact Nat.mod_eq_of_lt (by omega)
  rw [hsum, hlag]
  split <;> split <;> omega

/-- Going on by the lag of the lag leads back. -/
theorem lag_lag (hk : k < n) (hs : s < n) : lag n k (lag n k s) = s := by
  have hreach : (s + lag n k s) % n = k := (add_mod_eq_iff hk (lag_lt hk s)).2 rfl
  rw [Nat.add_comm] at hreach
  exact ((add_mod_eq_iff hk hs).1 hreach).symm

/-- Over one turn of shards a peer is a host as often as a shard has hosts. -/
theorem countP_turn (hk : k < n) (hr : r ≤ n) (first : Nat) :
    (List.range' first n).countP (lag n k · < r) = r := by
  have hcount : Nat.count (lag n k · < r) n = r := by
    rw [Nat.count_eq_card_filter_range]
    -- the lag pairs the shards below `n` that the peer hosts with the places below `r`
    refine (Finset.card_nbij' (t := Finset.range r) (lag n k) (lag n k) ?_ ?_ ?_ ?_).trans
      (Finset.card_range r)
    · intro s hs
      simpa using (Finset.mem_filter.1 hs).2
    · intro j hj
      have hj := Finset.mem_range.1 hj
      simp [lag_lt hk, lag_lag hk (Nat.lt_of_lt_of_le hj hr), hj]
    · intro s hs
      exact lag_lag hk (by simpa using (Finset.mem_filter.1 hs).1)
    · intro j hj
      exact lag_lag hk (Nat.lt_of_lt_of_le (Finset.mem_range.1 hj) hr)
  have hlist : (List.range' first (first + n - first)).countP (lag n k · < r) =
      ((Finset.Ico first (first + n)).filter (lag n k · < r)).card := by
    rw [List.countP_eq_length_filter]
    rfl
  rw [Nat.add_sub_cancel_left] at hlist
  rw [hlist, Nat.filter_Ico_card_eq_of_periodic first n _ fun s => by simp only [lag_periodic n k s],
    hcount]

theorem countP_turns (hk : k < n) (hr : r ≤ n) (first q m : Nat) :
    (List.range' first (q * n + m)).countP (lag n k · < r) =
      q * r + (List.range' (first + q * n) m).countP (lag n k · < r) := by
  induction q generalizing first with
  | zero => simp
  | succ q ih =>
    rw [Nat.succ_mul, Nat.add_comm (q * n), Nat.add_assoc, ← List.range'_append_1, List.countP_append,
      countP_turn hk hr, ih, Nat.succ_mul, Nat.add_assoc]
    omega

/-- What a part of a turn can add: some shards of a whole turn are missing. -/
theorem countP_part (hk : k < n) (hr : r ≤ n) (first : Nat) {m : Nat} (hm : m ≤ n) :
    (List.range' first m).countP (lag n k · < r) ≤ min r m ∧
      r ≤ (List.range' first m).countP (lag n k · < r) + (n - m) := by
  have hsplit : List.range' first n = List.range' first m ++ List.range' (first + m) (n - m) := by
    rw [List.range'_append_1, Nat.add_sub_cancel' hm]
  have hturn := countP_turn hk hr first
  rw [hsplit, List.countP_append] at hturn
  have hpart := List.countP_le_length (p := (lag n k · < r)) (l := List.range' first m)
  have hrest := List.countP_le_length (p := (lag n k · < r)) (l := List.range' (first + m) (n - m))
  rw [List.length_range'] at hpart hrest
  omega

theorem countP_near (hk : k < n) (hk' : k' < n) (hr : r ≤ n) (first m : Nat) :
    (List.range' first m).countP (lag n k · < r) ≤
      (List.range' first m).countP (lag n k' · < r) + min r (n - r) := by
  have hm := Nat.le_of_lt (Nat.mod_lt m (Nat.zero_lt_of_lt hk))
  obtain ⟨hupper, -⟩ := countP_part hk hr (first + m / n * n) hm
  obtain ⟨-, hlower⟩ := countP_part hk' hr (first + m / n * n) hm
  rw [← Nat.div_add_mod' m n, countP_turns hk hr, countP_turns hk' hr]
  omega

theorem countP_level (hk : k < n) (hr : r ≤ n) (first : Nat) {m : Nat} (hm : n ∣ m) :
    (List.range' first m).countP (lag n k · < r) = m / n * r := by
  have hturns := countP_turns hk hr first (m / n) 0
  rw [Nat.add_zero, Nat.div_mul_cancel hm] at hturns
  simpa using hturns

end Turn

/-- Shards whose ids follow one another. -/
def Consecutive (shards : List ShardId) : Prop :=
  ∃ first, shards.map UInt32.toNat = List.range' first shards.length

/-- How many replicas the peer hosts. -/
def load (placement : Placement) (peer : PeerId) : Nat := placement.values.flatten.count peer

/-- Each of the shards has `factor` hosts among the peers, and the peers share them evenly. -/
structure Balanced (peers : List PeerId) (factor : Nat) (shards : List ShardId)
    (placement : Placement) : Prop where
  keys : placement.keys = shards
  hosts : ∀ s hosts, placement.get? s = some hosts →
    hosts.length = factor ∧ hosts.Nodup ∧ ∀ p ∈ hosts, p ∈ peers
  near : ∀ p ∈ peers, ∀ q ∈ peers,
    placement.load p ≤ placement.load q + min factor (peers.length - factor)
  level : peers.length ∣ shards.length → ∀ p ∈ peers, ∀ q ∈ peers, placement.load p = placement.load q

section Hosts
open SortedMap
variable {peers : List PeerId} {factor : Nat} {shards : List ShardId} {s : ShardId} {p : PeerId}

theorem length_hosts (peers : List PeerId) (factor : Nat) (s : ShardId) :
    (hosts peers factor s).length = factor := by
  simp [hosts]

theorem getD_eq_iff (hn : peers.Nodup) {i k : Nat} (hi : i < peers.length) (hk : k < peers.length) :
    peers.getD i 0 = peers[k] ↔ i = k := by
  rw [List.getD_eq_getElem _ _ hi]
  exact hn.getElem_inj_iff

/-- The peer at index `k` is a host of those shards that its lag behind is less than the number of hosts. -/
theorem mem_hosts (hn : peers.Nodup) (hf : factor ≤ peers.length) {k : Nat} (hk : k < peers.length) :
    peers[k] ∈ hosts peers factor s ↔ lag peers.length k s.toNat < factor := by
  have hlen := Nat.zero_lt_of_lt hk
  simp only [hosts, List.mem_map, List.mem_range, getD_eq_iff hn (Nat.mod_lt _ hlen) hk]
  constructor
  · rintro ⟨j, hj, hreach⟩
    exact (add_mod_eq_iff hk (Nat.lt_of_lt_of_le hj hf)).1 hreach ▸ hj
  · intro h
    exact ⟨_, h, (add_mod_eq_iff hk (lag_lt hk _)).2 rfl⟩

theorem hosts_nodup (hn : peers.Nodup) (hf : factor ≤ peers.length) (s : ShardId) :
    (hosts peers factor s).Nodup := by
  refine List.nodup_range.map_on fun i hi j hj h => ?_
  have hi := Nat.lt_of_lt_of_le (List.mem_range.1 hi) hf
  have hj := Nat.lt_of_lt_of_le (List.mem_range.1 hj) hf
  have hk := Nat.mod_lt (s.toNat + j) (Nat.zero_lt_of_lt hj)
  rw [List.getD_eq_getElem _ _ hk, getD_eq_iff hn (Nat.mod_lt _ (Nat.zero_lt_of_lt hj)) hk] at h
  exact ((add_mod_eq_iff hk hi).1 h).trans ((add_mod_eq_iff hk hj).1 rfl).symm

theorem mem_of_hosts (hp : p ∈ hosts peers factor s) (hf : factor ≤ peers.length) : p ∈ peers := by
  obtain ⟨j, hj, rfl⟩ := List.mem_map.1 hp
  have hlen : 0 < peers.length := Nat.lt_of_lt_of_le (Nat.zero_lt_of_lt (List.mem_range.1 hj)) hf
  rw [List.getD_eq_getElem _ _ (Nat.mod_lt _ hlen)]
  exact List.getElem_mem _

theorem Consecutive.ascending (h : Consecutive shards) :
    shards.Pairwise (fun a b => compare a b = .lt) := by
  obtain ⟨first, h⟩ := h
  have hlt : (shards.map UInt32.toNat).Pairwise (· < ·) := h ▸ List.pairwise_lt_range'
  exact (List.pairwise_map.1 hlt).imp fun hab => compareOfLessAndEq_eq_lt.2 (UInt32.lt_iff_toNat_lt.2 hab)

/-- The shards that are numbered from a first one on, if there are numbers enough. -/
theorem consecutive_numbered {first : ShardId} {count : UInt32}
    (h : first.toNat + count.toNat ≤ UInt32.size) : Consecutive (consecutive first count) := by
  refine ⟨first.toNat, ?_⟩
  rw [consecutive, List.map_map, List.length_map, List.length_range, List.range'_eq_map_range]
  refine List.map_congr_left fun i hi => ?_
  have hi := List.mem_range.1 hi
  rw [UInt32.size] at h
  simp only [Function.comp_apply, UInt32.toNat_add, UInt32.toNat_ofNat']
  omega

/-- The shards with their hosts. -/
def dealt (shards : List ShardId) (peers : List PeerId) (factor : Nat) : Placement :=
  .ofList (shards.map (fun s => (s, hosts peers factor s)))

theorem entries_dealt (hs : Consecutive shards) (peers : List PeerId) (factor : Nat) :
    (dealt shards peers factor).entries = shards.map (fun s => (s, hosts peers factor s)) :=
  entries_ofList (List.pairwise_map.2 hs.ascending)

theorem keys_dealt (hs : Consecutive shards) (peers : List PeerId) (factor : Nat) :
    (dealt shards peers factor).keys = shards := by
  rw [SortedMap.keys, entries_dealt hs, List.map_map]
  exact List.map_id _

theorem hosts_of_dealt (hs : Consecutive shards) {l : List PeerId}
    (h : (dealt shards peers factor).get? s = some l) : l = hosts peers factor s := by
  have hmem := mem_entries.2 h
  rw [entries_dealt hs] at hmem
  obtain ⟨s, -, he⟩ := List.mem_map.1 hmem
  obtain ⟨rfl, rfl⟩ := Prod.mk.inj he
  rfl

theorem load_dealt (hn : peers.Nodup) (hf : factor ≤ peers.length) {first : Nat}
    (hs : shards.map UInt32.toNat = List.range' first shards.length) {k : Nat} (hk : k < peers.length) :
    (dealt shards peers factor).load peers[k] =
      (List.range' first shards.length).countP (lag peers.length k · < factor) := by
  have hsum : ∀ l : List ShardId, (l.map (hosts peers factor)).flatten.count peers[k] =
      l.countP (fun s => lag peers.length k s.toNat < factor) := by
    intro l
    induction l with
    | nil => rfl
    | cons s rest ih =>
      rw [List.map_cons, List.flatten_cons, List.count_append, ih, List.countP_cons,
        (hosts_nodup hn hf s).count]
      simp only [mem_hosts hn hf hk, decide_eq_true_eq, Nat.add_comm]
  have hvalues : (dealt shards peers factor).values = shards.map (hosts peers factor) := by
    rw [SortedMap.values, entries_dealt ⟨first, hs⟩, List.map_map]
    rfl
  rw [load, hvalues, hsum, ← hs, List.countP_map]
  rfl

theorem balanced_dealt (hn : peers.Nodup) (hf : factor ≤ peers.length) (hs : Consecutive shards) :
    Balanced peers factor shards (dealt shards peers factor) where
  keys := keys_dealt hs peers factor
  hosts s l h := by
    rw [hosts_of_dealt hs h]
    exact ⟨length_hosts peers factor s, hosts_nodup hn hf s, fun p hp => mem_of_hosts hp hf⟩
  near p hp q hq := by
    obtain ⟨first, hs⟩ := hs
    obtain ⟨k, hk, rfl⟩ := List.getElem_of_mem hp
    obtain ⟨k', hk', rfl⟩ := List.getElem_of_mem hq
    rw [load_dealt hn hf hs hk, load_dealt hn hf hs hk']
    exact countP_near hk hk' hf first shards.length
  level hturns p hp q hq := by
    obtain ⟨first, hs⟩ := hs
    obtain ⟨k, hk, rfl⟩ := List.getElem_of_mem hp
    obtain ⟨k', hk', rfl⟩ := List.getElem_of_mem hq
    rw [load_dealt hn hf hs hk, load_dealt hn hf hs hk', countP_level hk hf first hturns,
      countP_level hk' hf first hturns]

theorem roundRobin_eq_error {factor : UInt32} : (∃ e, roundRobin shards peers factor = .error e) ↔
    peers.length = 0 ∨ factor.toNat = 0 ∨ peers.length < factor.toNat := by
  have hzero : factor = 0 ↔ factor.toNat = 0 := UInt32.toNat_inj.symm
  simp only [roundRobin, List.isEmpty_iff_length_eq_zero]
  by_cases hp : peers.length = 0
  · simp [hp]
  by_cases hf : factor = 0 ∨ peers.length < factor.toNat
  · simp [hp, hf, ← hzero]
  · simp [hp, hf, ← hzero]

theorem roundRobin_eq_ok {factor : UInt32} {placement : Placement}
    (h : roundRobin shards peers factor = .ok placement) :
    0 < factor.toNat ∧ factor.toNat ≤ peers.length ∧ placement = dealt shards peers factor.toNat := by
  have hgood : ¬∃ e, roundRobin shards peers factor = .error e := by simp [h]
  rw [roundRobin_eq_error] at hgood
  refine ⟨by omega, by omega, ?_⟩
  rw [roundRobin] at h
  split at h
  · cases h
  · split at h
    · cases h
    · exact (Except.ok.inj h).symm

end Hosts
end ShardCluster.Placement
