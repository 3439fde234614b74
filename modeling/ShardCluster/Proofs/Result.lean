/-! When a computation that may fail succeeds: each of its steps does. -/
namespace ShardCluster

universe u v
variable {ε : Type u} {α β : Type v}

theorem bind_eq_ok {x : Except ε α} {f : α → Except ε β} {b : β} :
    (x >>= f) = .ok b ↔ ∃ a, x = .ok a ∧ f a = .ok b := by
  cases x <;> simp [bind, Except.bind]

theorem map_eq_ok {x : Except ε α} {f : α → β} {b : β} :
    (f <$> x) = .ok b ↔ ∃ a, x = .ok a ∧ f a = b := by
  cases x <;> simp [Functor.map, Except.map]

theorem pure_eq_ok {a b : α} : (pure a : Except ε α) = .ok b ↔ a = b := by
  simp [pure, Except.pure]

theorem throw_eq_ok {e : ε} {b : α} : (throw e : Except ε α) = .ok b ↔ False := by
  simp [throw, throwThe, MonadExceptOf.throw]

theorem error_eq_ok {e : ε} {b : α} : (Except.error e : Except ε α) = .ok b ↔ False := by
  simp

theorem ite_eq_ok {p : Prop} [Decidable p] {x y : Except ε α} {b : α} :
    (if p then x else y) = .ok b ↔ p ∧ x = .ok b ∨ ¬p ∧ y = .ok b := by
  by_cases h : p <;> simp [h]

theorem toOption_eq_some {x : Except ε α} {a : α} : x.toOption = some a ↔ x = .ok a := by
  cases x <;> simp [Except.toOption]

/-- What is read off a result shows that there is one. -/
theorem toOption_map_eq_some {x : Except ε α} {f : α → β} {b : β} :
    x.toOption.map f = some b ↔ ∃ a, x = .ok a ∧ f a = b := by
  cases x <;> simp [Except.toOption]

/-- A fold succeeds where each of its steps does and keeps what the next one needs. -/
theorem foldlM_ok {f : β → α → Except ε β} (P : β → Prop) {l : List α} {b : β} (hb : P b)
    (hf : ∀ b, P b → ∀ a ∈ l, ∃ b', f b a = .ok b' ∧ P b') : ∃ b', l.foldlM f b = .ok b' ∧ P b' := by
  induction l generalizing b with
  | nil => exact ⟨b, rfl, hb⟩
  | cons a rest ih =>
    obtain ⟨b', h', hb'⟩ := hf b hb a List.mem_cons_self
    obtain ⟨b'', h'', hb''⟩ := ih hb' fun c hc x hx => hf c hc x (List.mem_cons_of_mem _ hx)
    exact ⟨b'', by simp [List.foldlM_cons, h', bind_eq_ok, h''], hb''⟩

theorem mapM_ok {f : α → Except ε β} {g : α → β} {l : List α} (h : ∀ a ∈ l, f a = .ok (g a)) :
    l.mapM f = .ok (l.map g) := by
  induction l with
  | nil => rfl
  | cons a rest ih =>
    obtain ⟨ha, hrest⟩ := List.forall_mem_cons.1 h
    simp [List.mapM_cons, ha, ih hrest, bind, Except.bind, pure, Except.pure]

end ShardCluster
