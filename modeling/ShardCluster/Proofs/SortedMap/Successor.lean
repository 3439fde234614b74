import ShardCluster.Proofs.SortedMap.Lookup
/-! The successor of a key: the first entry from it on, going round past the last one. -/
namespace ShardCluster.SortedMap
open Std

universe u v
variable {κ : Type u} {α : Type v} [Ord κ] [TransOrd κ] [LawfulEqOrd κ]

theorem find?_from {k x : κ} {a : α} {l : List (κ × α)}
    (hl : l.Pairwise (fun a b => compare a.1 b.1 = .lt)) :
    l.find? (fun e => (compare k e.1).isLE) = some (x, a) ↔
      (x, a) ∈ l ∧ (compare k x).isLE = true ∧
        ∀ e ∈ l, (compare k e.1).isLE = true → (compare x e.1).isLE = true := by
  induction l with
  | nil => simp
  | cons d rest ih =>
    obtain ⟨hd, hr⟩ := List.pairwise_cons.1 hl
    cases hk : (compare k d.1).isLE with
    | true =>
      simp only [List.find?, hk]
      constructor
      · intro h
        obtain rfl : d = (x, a) := Option.some.inj h
        refine ⟨List.mem_cons_self, hk, fun e he _ => ?_⟩
        rcases List.mem_cons.1 he with rfl | he
        · simp [ReflOrd.compare_self]
        · simp [hd e he]
      · rintro ⟨hm, -, hmin⟩
        rcases List.mem_cons.1 hm with rfl | hm
        · rfl
        · have hle := hmin d List.mem_cons_self hk
          exact absurd (hd _ hm) (OrientedCmp.not_lt_of_isLE hle)
    | false =>
      simp only [List.find?, hk]
      rw [ih hr]
      constructor
      · rintro ⟨hm, hx, hmin⟩
        refine ⟨List.mem_cons_of_mem _ hm, hx, fun e he hle => ?_⟩
        rcases List.mem_cons.1 he with rfl | he
        · exact absurd hle (by simp [hk])
        · exact hmin e he hle
      · rintro ⟨hm, hx, hmin⟩
        rcases List.mem_cons.1 hm with rfl | hm
        · exact absurd hx (by simp [hk])
        · exact ⟨hm, hx, fun e he => hmin e (List.mem_cons_of_mem _ he)⟩

/-- The first entry from `k` on, or else the first of all. -/
def next? (m : SortedMap κ α) (k : κ) : Option (κ × α) := (m.firstFrom? k).or m.first?

/-- `x` is the key reached from `k`: no key lies between, where the round begins at `k`. -/
structure Reaches (m : SortedMap κ α) (k x : κ) : Prop where
  ahead : (compare k x).isLE = true →
    ∀ y b, m.get? y = some b → (compare k y).isLE = true → (compare x y).isLE = true
  around : (compare k x).isLE = false →
    ∀ y b, m.get? y = some b → (compare k y).isLE = false ∧ (compare x y).isLE = true

theorem firstFrom?_eq_some {m : SortedMap κ α} {k x : κ} {a : α} :
    m.firstFrom? k = some (x, a) ↔ m.get? x = some a ∧ (compare k x).isLE = true ∧
      ∀ y b, m.get? y = some b → (compare k y).isLE = true → (compare x y).isLE = true := by
  rw [firstFrom?, find?_from m.ascending, mem_entries]
  constructor
  · rintro ⟨hx, hk, hmin⟩
    exact ⟨hx, hk, fun y b hy => hmin (y, b) (mem_entries.2 hy)⟩
  · rintro ⟨hx, hk, hmin⟩
    exact ⟨hx, hk, fun e he => hmin e.1 e.2 (mem_entries.1 he)⟩

theorem firstFrom?_eq_none {m : SortedMap κ α} {k : κ} (h : m.firstFrom? k = none) {y : κ} {b : α}
    (hy : m.get? y = some b) : (compare k y).isLE = false := by
  have hnone := List.find?_eq_none.1 h (y, b) (mem_entries.2 hy)
  simpa using hnone

theorem first?_le {m : SortedMap κ α} {x : κ} {a : α} (h : m.first? = some (x, a)) :
    m.get? x = some a ∧ ∀ y b, m.get? y = some b → (compare x y).isLE = true := by
  obtain ⟨l, hl⟩ := m
  cases l with
  | nil => cases h
  | cons d rest =>
    obtain rfl : d = (x, a) := Option.some.inj h
    refine ⟨mem_entries.1 List.mem_cons_self, fun y b hy => ?_⟩
    rcases List.mem_cons.1 (mem_entries.2 hy) with heq | hy
    · obtain ⟨rfl, rfl⟩ := Prod.mk.inj heq
      simp [ReflOrd.compare_self]
    · have hlt : compare x y = .lt := (List.pairwise_cons.1 hl).1 (y, b) hy
      simp [hlt]

theorem next?_spec {m : SortedMap κ α} {k x : κ} {a : α} (h : m.next? k = some (x, a)) :
    m.get? x = some a ∧ m.Reaches k x := by
  unfold next? at h
  cases hf : m.firstFrom? k with
  | some e =>
    obtain rfl : e = (x, a) := by simpa [hf] using h
    obtain ⟨hx, hk, hmin⟩ := firstFrom?_eq_some.1 hf
    exact ⟨hx, fun _ => hmin, fun hn => absurd hk (by simp [hn])⟩
  | none =>
    obtain ⟨hx, hmin⟩ := first?_le (by simpa [hf] using h)
    have hk := firstFrom?_eq_none hf hx
    refine ⟨hx, fun hn => absurd hn (by simp [hk]), fun _ y b hy => ⟨firstFrom?_eq_none hf hy, hmin y b hy⟩⟩

omit [TransOrd κ] [LawfulEqOrd κ] in
theorem next?_ne_none {m : SortedMap κ α} {y : κ} {b : α} (h : m.get? y = some b) (k : κ) :
    m.next? k ≠ none := by
  obtain ⟨l, hl⟩ := m
  cases l with
  | nil => cases h
  | cons d rest => simp [next?, first?]

theorem Reaches.unique {m : SortedMap κ α} {k x y : κ} {a b : α} (hx : m.get? x = some a)
    (hy : m.get? y = some b) (h : m.Reaches k x) (h' : m.Reaches k y) : x = y := by
  have hle : (compare x y).isLE = true ∧ (compare y x).isLE = true := by
    cases hkx : (compare k x).isLE with
    | true =>
      cases hky : (compare k y).isLE with
      | true => exact ⟨h.ahead hkx y b hy hky, h'.ahead hky x a hx hkx⟩
      | false => exact absurd hkx (by simp [(h'.around hky x a hx).1])
    | false =>
      have hky := (h.around hkx y b hy).1
      exact ⟨(h.around hkx y b hy).2, (h'.around hky x a hx).2⟩
  exact LawfulEqOrd.eq_of_compare (OrientedCmp.isLE_antisymm hle.1 hle.2)

/-- Entries with the value `s` may come, also in the place of others: the successor of a key is
then one of them, or it is the one that it was. -/
theorem next?_of_added {m n : SortedMap κ α} {s : α}
    (hsub : ∀ x a, m.get? x = some a → ∃ b, n.get? x = some b)
    (hnew : ∀ x a, n.get? x = some a → a = s ∨ m.get? x = some a) (k : κ) :
    (n.next? k).map (·.2) = some s ∨ (n.next? k).map (·.2) = (m.next? k).map (·.2) := by
  cases hn : n.next? k with
  | none =>
    cases hm : m.next? k with
    | none => exact .inr rfl
    | some e =>
      obtain ⟨b, hb⟩ := hsub e.1 e.2 (next?_spec hm).1
      exact absurd hn (next?_ne_none hb k)
  | some e =>
    obtain ⟨x, a⟩ := e
    obtain ⟨hx, hr⟩ := next?_spec hn
    rcases hnew x a hx with rfl | hmx
    · exact .inl rfl
    · right
      have hr' : m.Reaches k x := by
        refine ⟨fun hk y b hy => ?_, fun hk y b hy => ?_⟩
        · obtain ⟨b', hb'⟩ := hsub y b hy
          exact hr.ahead hk y b' hb'
        · obtain ⟨b', hb'⟩ := hsub y b hy
          exact hr.around hk y b' hb'
      cases hm : m.next? k with
      | none => exact absurd hm (next?_ne_none hmx k)
      | some e' =>
        obtain ⟨hx', hr''⟩ := next?_spec hm
        obtain rfl := Reaches.unique hmx hx' hr' hr''
        simpa using hmx.symm.trans hx'

end ShardCluster.SortedMap
