import ShardCluster.SortedMap.Basic
/-! Sorted maps seen through look-up. A map is known by what it holds under each key, and every
operation changes that key by key. -/
namespace ShardCluster.SortedMap
open Std

universe u v w
variable {κ : Type u} {α : Type v} {β : Type w} [Ord κ]

theorem find_eq_none {k : κ} {l : List (κ × α)} (h : ∀ e ∈ l, compare k e.1 ≠ .eq) :
    find k l = none := by
  induction l with
  | nil => rfl
  | cons e rest ih =>
    obtain ⟨hk, hr⟩ := List.forall_mem_cons.1 h
    simpa [find, hk] using ih hr

theorem find_filter {k : κ} {l : List (κ × α)} {p : κ × α → Bool}
    (h : l.Pairwise (fun a b => compare a.1 b.1 = .lt)) [TransOrd κ] [LawfulEqOrd κ] :
    find k (l.filter p) = (find k l).filter (fun a => p (k, a)) := by
  induction l with
  | nil => rfl
  | cons e rest ih =>
    obtain ⟨x, a⟩ := e
    obtain ⟨hx, hr⟩ := List.pairwise_cons.1 h
    by_cases hk : compare k x = .eq
    · obtain rfl := LawfulEqOrd.eq_of_compare hk
      have hnone : find k (rest.filter p) = none := by
        apply find_eq_none
        intro e he hc
        have hlt := hx e (List.mem_filter.1 he).1
        rw [hc] at hlt
        cases hlt
      cases hp : p (k, a) <;> simp [find, List.filter, hp, hnone, Option.filter]
    · cases hp : p (x, a) <;> simp [find, List.filter, hp, hk, ih hr]

theorem find_map (k : κ) (l : List (κ × α)) (f : κ → α → β) [LawfulEqOrd κ] :
    find k (l.map (fun e => (e.1, f e.1 e.2))) = (find k l).map (f k) := by
  induction l with
  | nil => rfl
  | cons e rest ih =>
    by_cases hk : compare k e.1 = .eq
    · obtain rfl := LawfulEqOrd.eq_of_compare hk
      simp [find]
    · simp [find, hk, ih]

theorem find_mem {k : κ} {a : α} {l : List (κ × α)} [LawfulEqOrd κ] (h : find k l = some a) :
    (k, a) ∈ l := by
  induction l with
  | nil => cases h
  | cons e rest ih =>
    by_cases hk : compare k e.1 = .eq
    · obtain rfl := LawfulEqOrd.eq_of_compare hk
      obtain rfl : e.2 = a := by simpa [find] using h
      exact List.mem_cons_self
    · exact List.mem_cons_of_mem _ (ih (by simpa [find, hk] using h))

theorem find_of_mem {k : κ} {a : α} {l : List (κ × α)} [TransOrd κ] [LawfulEqOrd κ]
    (hl : l.Pairwise (fun a b => compare a.1 b.1 = .lt)) (h : (k, a) ∈ l) : find k l = some a := by
  induction l with
  | nil => cases h
  | cons e rest ih =>
    obtain ⟨hx, hr⟩ := List.pairwise_cons.1 hl
    rcases List.mem_cons.1 h with rfl | h
    · simp [find, ReflOrd.compare_self]
    · have hgt : compare k e.1 = .gt := OrientedCmp.gt_of_lt (hx _ h)
      simpa [find, hgt] using ih hr h

theorem mem_entries {m : SortedMap κ α} {k : κ} {a : α} [TransOrd κ] [LawfulEqOrd κ] :
    (k, a) ∈ m.entries ↔ m.get? k = some a :=
  ⟨find_of_mem m.ascending, find_mem⟩

@[simp] theorem get?_empty (k : κ) : (empty : SortedMap κ α).get? k = none := rfl

theorem get?_filter (m : SortedMap κ α) (p : κ → α → Bool) (k : κ) [TransOrd κ] [LawfulEqOrd κ] :
    (m.filter p).get? k = (m.get? k).filter (p k) :=
  find_filter m.ascending

@[simp] theorem get?_map (m : SortedMap κ α) (f : κ → α → β) (k : κ) [LawfulEqOrd κ] :
    (m.map f).get? k = (m.get? k).map (f k) :=
  find_map k m.entries f

theorem contains_iff {m : SortedMap κ α} {k : κ} : m.contains k = true ↔ ∃ a, m.get? k = some a := by
  simp [contains, Option.isSome_iff_exists]

theorem keys_ascending (m : SortedMap κ α) : m.keys.Pairwise (fun a b => compare a b = .lt) :=
  List.pairwise_map.2 m.ascending

theorem get?_update [DecidableEq κ] [LawfulEqOrd κ] (m : SortedMap κ α) (k x : κ) (f : α → α) :
    (m.update k f).get? x = if x = k then (m.get? x).map f else m.get? x := by
  by_cases h : x = k
  · subst h
    simp [update]
  · have hx : ¬k = x := fun hc => h hc.symm
    simp [update, h, hx]

theorem keys_nodup [LawfulEqOrd κ] (m : SortedMap κ α) : m.keys.Nodup := by
  refine m.keys_ascending.imp fun {a b} h he => ?_
  rw [he, ReflOrd.compare_self] at h
  cases h

theorem entries_apart [LawfulEqOrd κ] (m : SortedMap κ α) :
    m.entries.Pairwise (fun a b => a.1 ≠ b.1) :=
  List.pairwise_map.1 m.keys_nodup

/-- What is listed key by key, where each item tells its key. -/
theorem pairwise_flatMap [LawfulEqOrd κ] {m : SortedMap κ α} {f : κ × α → List β} {R : β → β → Prop}
    (hf : ∀ e ∈ m.entries, (f e).Pairwise R) (key : β → κ)
    (hk : ∀ e ∈ m.entries, ∀ b ∈ f e, key b = e.1) (hR : ∀ a b, key a ≠ key b → R a b) :
    (m.entries.flatMap f).Pairwise R := by
  refine List.pairwise_flatMap.2 ⟨hf, m.entries_apart.imp_of_mem fun {x y} hx hy hne a ha b hb => ?_⟩
  exact hR a b (by rwa [hk x hx a ha, hk y hy b hb])

/-- What is listed under one key, where each item tells its key. -/
theorem filter_flatMap [LawfulEqOrd κ] [DecidableEq κ] (m : SortedMap κ α) {f : κ × α → List β}
    (key : β → κ) (hk : ∀ e ∈ m.entries, ∀ b ∈ f e, key b = e.1) (k : κ) :
    (m.entries.flatMap f).filter (key · == k) = (m.get? k).toList.flatMap (fun a => f (k, a)) := by
  obtain ⟨l, hl⟩ := m
  simp only [get?]
  induction l with
  | nil => rfl
  | cons e rest ih =>
    obtain ⟨he, hrest⟩ := List.pairwise_cons.1 hl
    obtain ⟨hhead, htail⟩ := List.forall_mem_cons.1 hk
    rw [List.flatMap_cons, List.filter_append, ih hrest htail]
    by_cases h : k = e.1
    · subst h
      have hall : (f e).filter (key · == e.1) = f e :=
        List.filter_eq_self.2 fun b hb => by simpa using hhead b hb
      have hnone : find e.1 rest = none := find_eq_none fun d hd => by simp [he d hd]
      simp [find, hall, hnone]
    · have hnil : (f e).filter (key · == k) = [] :=
        List.filter_eq_nil_iff.2 fun b hb => by simpa [hhead b hb] using fun hc => h hc.symm
      have hne : compare k e.1 ≠ .eq := fun hc => h (LawfulEqOrd.eq_of_compare hc)
      simp [find, hne, hnil]

theorem find_place_self [LawfulEqOrd κ] (k : κ) (a : α) (l : List (κ × α)) :
    find k (place k a l) = some a := by
  induction l with
  | nil => simp [place, find, ReflOrd.compare_self]
  | cons e rest ih =>
    cases hk : compare k e.1 with
    | lt => simp [place, hk, find, ReflOrd.compare_self]
    | eq => simp [place, hk, find, ReflOrd.compare_self]
    | gt => simp [place, hk, find, ih]

theorem find_place_of_ne [LawfulEqOrd κ] {k x : κ} (h : x ≠ k) (a : α) (l : List (κ × α)) :
    find x (place k a l) = find x l := by
  have hx : compare x k ≠ .eq := fun hc => h (LawfulEqOrd.eq_of_compare hc)
  induction l with
  | nil => simp [place, find, hx]
  | cons e rest ih =>
    cases hk : compare k e.1 with
    | lt => simp [place, hk, find, hx]
    | eq =>
      have he : compare x e.1 ≠ .eq := (LawfulEqOrd.eq_of_compare hk) ▸ hx
      simp [place, hk, find, hx, he]
    | gt => simp [place, hk, find, ih]

theorem length_place_of_none {k : κ} {l : List (κ × α)} (h : find k l = none) (a : α) :
    (place k a l).length = l.length + 1 := by
  induction l with
  | nil => rfl
  | cons e rest ih =>
    obtain ⟨x, b⟩ := e
    rw [find] at h
    split at h
    · cases h
    · rename_i hk
      rw [place]
      cases hc : compare k x with
      | lt => rfl
      | eq => exact absurd hc hk
      | gt => simp only [List.length_cons, ih h]

/-- A new key counts. -/
theorem size_insert_of_none [TransOrd κ] {m : SortedMap κ α} {k : κ} (h : m.get? k = none) (a : α) :
    (m.insert k a).size = m.size + 1 :=
  length_place_of_none h a

theorem ext_entries {m n : SortedMap κ α} (h : m.entries = n.entries) : m = n := by
  cases m
  cases n
  subst h
  rfl

theorem place_last {k : κ} {l : List (κ × α)} (h : ∀ e ∈ l, compare k e.1 = .gt) (a : α) :
    place k a l = l ++ [(k, a)] := by
  induction l with
  | nil => rfl
  | cons e rest ih =>
    obtain ⟨he, hrest⟩ := List.forall_mem_cons.1 h
    simp [place, he, ih hrest]

/-- A map that is built anew from its entries is the same. -/
theorem ofList_entries [TransOrd κ] (m : SortedMap κ α) : ofList m.entries = m := by
  have hall : ∀ (l : List (κ × α)) (n : SortedMap κ α),
      (n.entries ++ l).Pairwise (fun a b => compare a.1 b.1 = .lt) →
      (l.foldl (fun n e => n.insert e.1 e.2) n).entries = n.entries ++ l := by
    intro l
    induction l with
    | nil => simp
    | cons e rest ih =>
      intro n h
      obtain ⟨-, -, hbefore⟩ := List.pairwise_append.1 h
      have hplace : (n.insert e.1 e.2).entries = n.entries ++ [e] :=
        place_last (fun x hx => OrientedCmp.gt_iff_lt.2 (hbefore x hx e List.mem_cons_self)) e.2
      rw [List.foldl_cons, ih _ (by rwa [hplace, List.append_assoc]), hplace, List.append_assoc]
      rfl
  exact ext_entries (hall m.entries empty m.ascending)

theorem entries_ofList [TransOrd κ] {l : List (κ × α)}
    (h : l.Pairwise (fun a b => compare a.1 b.1 = .lt)) : (ofList l).entries = l :=
  congrArg entries (ofList_entries ⟨l, h⟩)

theorem mem_ofList [TransOrd κ] {l : List (κ × α)} {e : κ × α} (h : e ∈ (ofList l).entries) : e ∈ l := by
  have hall : ∀ (l : List (κ × α)) (m : SortedMap κ α),
      e ∈ (l.foldl (fun m e => m.insert e.1 e.2) m).entries → e ∈ m.entries ∨ e ∈ l := by
    intro l
    induction l with
    | nil => exact fun m h => .inl h
    | cons x rest ih =>
      intro m h
      obtain h | h := ih _ h
      · exact (mem_place h).elim (fun he => .inr (he ▸ List.mem_cons_self)) .inl
      · exact .inr (List.mem_cons_of_mem _ h)
  exact (hall l empty h).resolve_left List.not_mem_nil

theorem length_place_flatMap (f : κ × α → List β) (k : κ) (a : α) (l : List (κ × α)) :
    ((place k a l).flatMap f).length ≤ (f (k, a)).length + (l.flatMap f).length := by
  induction l with
  | nil => exact Nat.le_of_eq (List.length_append ..)
  | cons y rest ih =>
    obtain ⟨x, b⟩ := y
    rw [place]
    split <;> simp only [List.flatMap_cons, List.length_append] <;> omega

/-- Putting a list in order adds nothing to it. -/
theorem length_ofList_flatMap [TransOrd κ] (f : κ × α → List β) (l : List (κ × α)) :
    ((ofList l).entries.flatMap f).length ≤ (l.flatMap f).length := by
  have hall : ∀ (l : List (κ × α)) (m : SortedMap κ α),
      ((l.foldl (fun m e => m.insert e.1 e.2) m).entries.flatMap f).length ≤
        (m.entries.flatMap f).length + (l.flatMap f).length := by
    intro l
    induction l with
    | nil => exact fun m => Nat.le_refl _
    | cons x rest ih =>
      intro m
      have hplace : ((m.insert x.1 x.2).entries.flatMap f).length ≤
          (f x).length + (m.entries.flatMap f).length := length_place_flatMap f x.1 x.2 m.entries
      have hrest := ih (m.insert x.1 x.2)
      rw [List.foldl_cons, List.flatMap_cons, List.length_append]
      omega
  exact Nat.le_trans (hall l empty) (Nat.le_of_eq (Nat.zero_add _))

theorem length_ofList [TransOrd κ] (l : List (κ × α)) : (ofList l).entries.length ≤ l.length := by
  simpa using length_ofList_flatMap (fun e => [e]) l

section
variable [TransOrd κ] [LawfulEqOrd κ]

@[simp] theorem get?_insert_self (m : SortedMap κ α) (k : κ) (a : α) :
    (m.insert k a).get? k = some a :=
  find_place_self k a m.entries

theorem get?_insert_of_ne {k x : κ} (h : x ≠ k) (m : SortedMap κ α) (a : α) :
    (m.insert k a).get? x = m.get? x :=
  find_place_of_ne h a m.entries

theorem get?_insert [DecidableEq κ] (m : SortedMap κ α) (k x : κ) (a : α) :
    (m.insert k a).get? x = if x = k then some a else m.get? x := by
  by_cases h : x = k
  · subst h
    simp
  · simp [h, get?_insert_of_ne h]

@[simp] theorem get?_erase_self (m : SortedMap κ α) (k : κ) : (m.erase k).get? k = none := by
  simp [erase, get?_filter, ReflOrd.compare_self]

theorem get?_erase_of_ne {k x : κ} (h : x ≠ k) (m : SortedMap κ α) :
    (m.erase k).get? x = m.get? x := by
  have hx : compare k x ≠ .eq := fun hc => h (LawfulEqOrd.eq_of_compare hc).symm
  have hp : (compare k x != .eq) = true := by simpa using hx
  cases hm : m.get? x <;> simp [erase, get?_filter, hm, Option.filter, hp]

theorem get?_erase [DecidableEq κ] (m : SortedMap κ α) (k x : κ) :
    (m.erase k).get? x = if x = k then none else m.get? x := by
  by_cases h : x = k
  · subst h
    simp
  · simp [h, get?_erase_of_ne h]

theorem get?_erase_eq_some [DecidableEq κ] {m : SortedMap κ α} {k x : κ} {a : α} :
    (m.erase k).get? x = some a ↔ x ≠ k ∧ m.get? x = some a := by
  rw [get?_erase]
  split <;> simp_all

omit [TransOrd κ] in
theorem last?_ge {m : SortedMap κ α} {e x : κ × α} (h : m.last? = some e) (hx : x ∈ m.entries) :
    (compare x.1 e.1).isLE = true := by
  obtain ⟨l, hl⟩ := m
  simp only [last?] at h
  obtain ⟨rest, rfl⟩ := List.getLast?_eq_some_iff.1 h
  obtain hx | hx := List.mem_append.1 hx
  · have hlt := (List.pairwise_append.1 hl).2.2 x hx e (List.mem_singleton.2 rfl)
    simp [hlt]
  · rw [List.mem_singleton.1 hx]
    simp [ReflOrd.compare_self]

omit [TransOrd κ] [LawfulEqOrd κ] in
/-- In an ascending list the first entries lie below the others. -/
theorem take_lt_drop {l : List (κ × α)} (h : l.Pairwise (fun a b => compare a.1 b.1 = .lt))
    {n : Nat} {d e : κ × α} (hd : d ∈ l.take n) (he : e ∈ l.drop n) : compare d.1 e.1 = .lt := by
  rw [← List.take_append_drop n l] at h
  exact (List.pairwise_append.1 h).2.2 d hd e he

/-- What lies beyond the last of the first `n` entries is the rest. -/
theorem filter_beyond (m : SortedMap κ α) (n : Nat) :
    m.entries.filter (fun e =>
      ((m.entries.take n).getLast?.map (·.1)).all (fun a => compare a e.1 == .lt)) =
      m.entries.drop n := by
  cases hlast : (m.entries.take n).getLast? with
  | none =>
    have hall : m.entries.drop n = m.entries := by
      rw [← List.nil_append (m.entries.drop n), ← List.getLast?_eq_none_iff.1 hlast,
        List.take_append_drop]
    rw [hall]
    exact List.filter_eq_self.2 fun _ _ => rfl
  | some e =>
    have hbefore : (m.entries.take n).filter (fun x => compare e.1 x.1 == .lt) = [] := by
      refine List.filter_eq_nil_iff.2 fun x hx => ?_
      have hle : (compare x.1 e.1).isLE = true :=
        last?_ge (m := ⟨m.entries.take n, m.ascending.take⟩) hlast hx
      have hswap : compare e.1 x.1 = (compare x.1 e.1).swap := OrientedCmp.eq_swap
      rw [hswap]
      cases hc : compare x.1 e.1 <;> simp_all
    have hafter : (m.entries.drop n).filter (fun x => compare e.1 x.1 == .lt) = m.entries.drop n :=
      List.filter_eq_self.2 fun x hx => by
        simpa using take_lt_drop m.ascending (List.mem_of_getLast? hlast) hx
    conv => lhs; rw [← List.take_append_drop n m.entries]
    simp only [List.filter_append, Option.map_some, Option.all_some]
    rw [hbefore, hafter, List.nil_append]

/-- Ascending lists that find the same under every key are the same. -/
theorem eq_of_find_eq {l n : List (κ × α)} (hl : l.Pairwise (fun a b => compare a.1 b.1 = .lt))
    (hn : n.Pairwise (fun a b => compare a.1 b.1 = .lt)) (h : ∀ k, find k l = find k n) : l = n := by
  induction l generalizing n with
  | nil =>
    cases n with
    | nil => rfl
    | cons e n => simpa [find, ReflOrd.compare_self] using h e.1
  | cons d l ih =>
    cases n with
    | nil => simpa [find, ReflOrd.compare_self] using h d.1
    | cons e n =>
      obtain ⟨hd, hl'⟩ := List.pairwise_cons.1 hl
      obtain ⟨he, hn'⟩ := List.pairwise_cons.1 hn
      have hhead : (d.1, d.2) ∈ e :: n :=
        find_mem ((h d.1).symm.trans (by simp [find, ReflOrd.compare_self]))
      have hhead' : (e.1, e.2) ∈ d :: l :=
        find_mem ((h e.1).trans (by simp [find, ReflOrd.compare_self]))
      have hde : d = e := by
        rcases List.mem_cons.1 hhead with hh | hh
        · exact hh
        · rcases List.mem_cons.1 hhead' with hh' | hh'
          · exact hh'.symm
          · exact absurd (hd _ hh') (OrientedCmp.not_lt_of_lt (he _ hh))
      subst hde
      refine congrArg (d :: ·) (ih hl' hn' fun k => ?_)
      by_cases hk : compare k d.1 = .eq
      · obtain rfl := LawfulEqOrd.eq_of_compare hk
        have hnone : ∀ r : List (κ × α), (∀ e ∈ r, compare d.1 e.1 = .lt) → find d.1 r = none :=
          fun r hr => find_eq_none fun e he => by simp [hr e he]
        rw [hnone l hd, hnone n he]
      · simpa [find, hk] using h k

theorem ext_get? {m n : SortedMap κ α} (h : ∀ k, m.get? k = n.get? k) : m = n :=
  ext_entries (eq_of_find_eq m.ascending n.ascending h)

/-- Putting in what is there changes nothing. -/
theorem insert_of_get? {m : SortedMap κ α} {k : κ} {a : α} (h : m.get? k = some a) : m.insert k a = m := by
  refine ext_get? fun x => ?_
  by_cases hx : x = k
  · rw [hx, get?_insert_self, h]
  · exact get?_insert_of_ne hx m a

theorem insert_insert (m : SortedMap κ α) (k : κ) (a b : α) : (m.insert k a).insert k b = m.insert k b := by
  refine ext_get? fun x => ?_
  by_cases hx : x = k
  · rw [hx, get?_insert_self, get?_insert_self]
  · simp only [get?_insert_of_ne hx]

theorem isEmpty_iff {m : SortedMap κ α} : m.isEmpty = true ↔ ∀ k, m.get? k = none := by
  constructor
  · intro h k
    have hm : m.entries = [] := by simpa [isEmpty] using h
    simp [get?, hm, find]
  · intro h
    obtain rfl : m = empty := ext_get? h
    rfl

theorem mem_keys {m : SortedMap κ α} {k : κ} : k ∈ m.keys ↔ ∃ a, m.get? k = some a := by
  simp only [keys, List.mem_map, Prod.exists]
  constructor
  · rintro ⟨x, a, hm, rfl⟩
    exact ⟨a, mem_entries.1 hm⟩
  · rintro ⟨a, h⟩
    exact ⟨k, a, mem_entries.2 h, rfl⟩

omit [TransOrd κ] [LawfulEqOrd κ] in
theorem exists_key {m : SortedMap κ α} (h : m.isEmpty = false) : ∃ k, k ∈ m.keys := by
  refine List.exists_mem_of_ne_nil _ ?_
  simpa [isEmpty, keys] using h

omit [TransOrd κ] in
/-- A map with more than one entry has another key than a given one. -/
theorem exists_other_key {m : SortedMap κ α} {k : κ} (hk : k ∈ m.keys) (hs : m.size ≠ 1) :
    ∃ x ∈ m.keys, x ≠ k := by
  have hlen : m.keys.length ≠ 1 := by simpa [keys, size] using hs
  have hnodup := keys_nodup m
  match hm : m.keys, hk, hlen, hnodup with
  | x :: y :: rest, _, _, hnodup =>
    have hxy : x ≠ y := by
      have hx := (List.nodup_cons.1 hnodup).1
      exact fun he => hx (he ▸ List.mem_cons_self)
    by_cases hx : x = k
    · exact ⟨y, by simp, fun hy => hxy (hx.trans hy.symm)⟩
    · exact ⟨x, by simp, hx⟩

theorem mem_values {m : SortedMap κ α} {a : α} : a ∈ m.values ↔ ∃ k, m.get? k = some a := by
  simp only [values, List.mem_map, Prod.exists]
  constructor
  · rintro ⟨x, a, hm, rfl⟩
    exact ⟨x, mem_entries.1 hm⟩
  · rintro ⟨k, h⟩
    exact ⟨k, a, mem_entries.2 h, rfl⟩

end
end SortedMap

namespace SortedSet
open Std SortedMap

universe u
variable {κ : Type u} [Ord κ] [TransOrd κ] [LawfulEqOrd κ]

theorem mem_toList {s : SortedSet κ} {k : κ} : k ∈ toList s ↔ s.contains k = true :=
  mem_keys.trans contains_iff.symm

theorem ext_contains {s t : SortedSet κ} (h : ∀ k, s.contains k = true ↔ t.contains k = true) : s = t := by
  refine SortedMap.ext_get? fun k => ?_
  have hk := h k
  simp only [SortedMap.contains, Option.isSome_iff_exists] at hk
  cases hs : s.get? k <;> cases ht : t.get? k <;> simp_all

theorem contains_add {s : SortedSet κ} {k x : κ} :
    (add s k).contains x = true ↔ x = k ∨ s.contains x = true := by
  by_cases h : x = k
  · subst h
    simp [add, SortedMap.contains]
  · simp [add, SortedMap.contains, get?_insert_of_ne h, h]

theorem contains_erase {s : SortedSet κ} {k x : κ} :
    SortedMap.contains (s.erase k) x = true ↔ x ≠ k ∧ s.contains x = true := by
  by_cases h : x = k
  · subst h
    simp [SortedMap.contains]
  · simp [SortedMap.contains, get?_erase_of_ne h, h]

theorem contains_foldl_add {l : List κ} {s : SortedSet κ} {x : κ} :
    SortedMap.contains (l.foldl add s) x = true ↔ x ∈ l ∨ s.contains x = true := by
  induction l generalizing s with
  | nil => simp
  | cons k rest ih =>
    simp only [List.foldl_cons, ih, contains_add, List.mem_cons]
    constructor
    · rintro (h | h | h)
      · exact .inl (.inr h)
      · exact .inl (.inl h)
      · exact .inr h
    · rintro ((h | h) | h)
      · exact .inr (.inl h)
      · exact .inl h
      · exact .inr (.inr h)

theorem contains_union {s t : SortedSet κ} {x : κ} :
    SortedMap.contains (union s t) x = true ↔ s.contains x = true ∨ t.contains x = true := by
  simp only [union, contains_foldl_add, mem_toList]
  exact or_comm

end SortedSet
end ShardCluster
