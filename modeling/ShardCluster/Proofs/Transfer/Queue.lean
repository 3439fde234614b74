import ShardCluster.Proofs.Transfer.Table
/-! Transfers that wait. A transfer waits for its replica only while another one runs into it, and the
end of that one lets it in. -/
namespace ShardCluster

namespace Transfer

/-- What waits for a replica waits for a transfer that runs into it. -/
structure Queued (transfers : List Transfer) : Prop where
  status : ∀ t ∈ transfers, t.status = .running ∨ t.status = .pending
  running : ∀ t ∈ transfers,
    ∃ t' ∈ transfers, t'.key.destination = t.key.destination ∧ t'.status = .running

namespace Queued
variable {l : List Transfer}

theorem nil : Queued [] := ⟨nofun, nofun⟩

theorem of_running (h : ∀ t ∈ l, t.status = .running) : Queued l :=
  ⟨fun t ht => .inl (h t ht), fun t ht => ⟨t, ht, rfl, h t ht⟩⟩

theorem stamp (h : Queued l) (epoch : UInt64) : Queued (l.map fun t => { t with epoch }) where
  status t ht := by
    obtain ⟨t₀, hin, rfl⟩ := List.mem_map.1 ht
    exact h.status t₀ hin
  running t ht := by
    obtain ⟨t₀, hin, rfl⟩ := List.mem_map.1 ht
    obtain ⟨t₁, hin₁, hd, hr⟩ := h.running t₀ hin
    exact ⟨_, List.mem_map.2 ⟨t₁, hin₁, rfl⟩, hd, hr⟩

end Queued
end Transfer

namespace Cluster
open Transfer
variable {d : ShardId × PeerId} {l : List Transfer}

/-- If a transfer waits for the replica, one is let in. -/
theorem release_running_mem
    (h : ∃ t ∈ l, t.key.destination = d ∧ (t.status = .running ∨ t.status = .pending)) :
    ∃ t ∈ (release d l).1, t.key.destination = d ∧ t.status = .running := by
  induction l with
  | nil =>
    obtain ⟨t, ht, -⟩ := h
    cases ht
  | cons x rest ih =>
    obtain ⟨t, ht, hd, hs⟩ := h
    simp only [release]
    split
    · rename_i hx
      exact ⟨_, List.mem_cons_self, hx.2, rfl⟩
    · rename_i hx
      obtain rfl | hin := List.mem_cons.1 ht
      · have hrun : t.status = .running := hs.resolve_right fun hp => hx ⟨hp, hd⟩
        exact ⟨t, List.mem_cons_self, hd, hrun⟩
      · obtain ⟨t', hin', ht'⟩ := ih ⟨t, hin, hd, hs⟩
        exact ⟨t', List.mem_cons_of_mem _ hin', ht'⟩

/-- The end of a running transfer lets the next one in. -/
theorem release_queued (h : Queued l) (t : Transfer) :
    Queued (release t.key.destination (l.filter (fun t' => !(t'.key == t.key)))).1 := by
  refine ⟨fun t' ht' => ?_, fun t' ht' => ?_⟩
  · obtain ⟨t₀, hin, -, -, -, hs | ⟨hs, -⟩⟩ := mem_release ht'
    · exact hs ▸ h.status t₀ (List.mem_filter.1 hin).1
    · exact .inl hs
  · obtain ⟨t₀, hin, hk, -⟩ := mem_release ht'
    by_cases hd : t₀.key.destination = t.key.destination
    · obtain ⟨t₁, hin₁, hd₁, hr₁⟩ :=
        release_running_mem ⟨t₀, hin, hd, h.status t₀ (List.mem_filter.1 hin).1⟩
      exact ⟨t₁, hin₁, by rw [hd₁, hk, hd], hr₁⟩
    · -- another replica is not touched
      obtain ⟨t₁, hin₁, hd₁, hr₁⟩ := h.running t₀ (List.mem_filter.1 hin).1
      have hne : t₁.key ≠ t.key := fun he => hd (by rw [← hd₁, he])
      have hstays : t₁ ∈ l.filter (fun t' => !(t'.key == t.key)) :=
        List.mem_filter.2 ⟨hin₁, by simpa using hne⟩
      exact ⟨t₁, running_mem_release hstays hr₁, by rw [hd₁, hk], hr₁⟩

end Cluster
end ShardCluster
