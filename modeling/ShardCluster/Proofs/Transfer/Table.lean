import Mathlib.Data.List.Nodup
import ShardCluster.Cluster.Transfers
/-! The transfer table of a collection: no key twice, and no two transfers run into one replica. -/
namespace ShardCluster

/-- Just one of a list's members, all of them different, is as asked. -/
theorem filter_singleton {α : Type} {l : List α} {p : α → Bool} {a : α} (h : l.Nodup) (ha : a ∈ l)
    (hp : p a = true) (hone : ∀ b ∈ l, p b = true → b = a) : l.filter p = [a] := by
  have hall : ∀ b ∈ l.filter p, b = a := fun b hb =>
    hone b (List.mem_filter.1 hb).1 (List.mem_filter.1 hb).2
  have hrep := List.eq_replicate_of_mem hall
  have hle : (l.filter p).length ≤ 1 := List.nodup_replicate.1 (hrep ▸ h.filter p)
  have hpos : 0 < (l.filter p).length := List.length_pos_of_mem (List.mem_filter.2 ⟨ha, hp⟩)
  have hlen : (l.filter p).length = 1 := by omega
  rw [hrep, hlen]
  rfl

namespace Transfer

/-- No two transfers run into one replica. -/
def Paced (transfers : List Transfer) : Prop :=
  transfers.Pairwise fun a b =>
    a.status = .running → b.status = .running → a.key.destination ≠ b.key.destination

variable {transfers : List Transfer} {t t' : Transfer}

theorem Paced.distinct (h : Paced transfers) (ht : t ∈ transfers) (ht' : t' ∈ transfers)
    (hne : t ≠ t') (hr : t.status = .running) (hr' : t'.status = .running) :
    t.key.destination ≠ t'.key.destination := by
  induction transfers with
  | nil => cases ht
  | cons x rest ih =>
    obtain ⟨hx, hrest⟩ := List.pairwise_cons.1 h
    obtain rfl | hin := List.mem_cons.1 ht
    · obtain rfl | hin' := List.mem_cons.1 ht'
      · exact absurd rfl hne
      · exact hx t' hin' hr hr'
    · obtain rfl | hin' := List.mem_cons.1 ht'
      · exact fun he => hx t hin hr' hr he.symm
      · exact ih hrest hin hin'

theorem Paced.filter (h : Paced transfers) (p : Transfer → Bool) : Paced (transfers.filter p) :=
  h.sublist List.filter_sublist

/-- At most one transfer runs into a replica. -/
theorem Paced.length_le_one (h : Paced transfers) (d : ShardId × PeerId) :
    (transfers.filter (fun t => t.status == .running && t.key.destination == d)).length ≤ 1 := by
  have hone : ∀ l : List Transfer, Paced l →
      (∀ t ∈ l, t.status = .running ∧ t.key.destination = d) → l.length ≤ 1 := by
    intro l hp hall
    match l, hp, hall with
    | [], _, _ => simp
    | [x], _, _ => simp
    | x :: y :: rest, hp, hall =>
      obtain ⟨hx, hdx⟩ := hall x (by simp)
      obtain ⟨hy, hdy⟩ := hall y (by simp)
      have hne := (List.pairwise_cons.1 hp).1 y (by simp) hx hy
      exact absurd (hdx.trans hdy.symm) hne
  refine hone _ (h.filter _) fun t ht => ?_
  simpa using (List.mem_filter.1 ht).2

theorem keys_filter (h : (transfers.map (·.key)).Nodup) (p : Transfer → Bool) :
    ((transfers.filter p).map (·.key)).Nodup :=
  h.sublist (List.filter_sublist.map _)

/-- Where no key is there twice, taking the first transfer with a key takes all of them. -/
theorem eraseP_key (h : (transfers.map (·.key)).Nodup) (key : TransferKey) :
    transfers.eraseP (·.key == key) = transfers.filter (fun t => !(t.key == key)) := by
  induction transfers with
  | nil => rfl
  | cons x rest ih =>
    obtain ⟨hx, hrest⟩ := List.nodup_cons.1 h
    by_cases hk : x.key = key
    · have hall : rest.filter (fun t => !(t.key == key)) = rest := by
        refine List.filter_eq_self.2 fun t ht => ?_
        have hne : t.key ≠ key := fun he => hx (List.mem_map.2 ⟨t, ht, he.trans hk.symm⟩)
        simpa using hne
      simp [hk, hall]
    · simp [hk, ih hrest]

/-- A transfer and those with other keys are all of them. -/
theorem perm_others (h : (transfers.map (·.key)).Nodup) (ht : t ∈ transfers) :
    (t :: transfers.filter (fun t' => !(t'.key == t.key))).Perm transfers := by
  have hone : transfers.filter (·.key == t.key) = [t] :=
    filter_singleton h.of_map ht (beq_self_eq_true _) fun t' ht' he =>
      List.inj_on_of_nodup_map h ht' ht (beq_iff_eq.1 he)
  have hboth := List.filter_append_perm (·.key == t.key) transfers
  rwa [hone] at hboth

end Transfer

namespace Cluster
open Transfer
variable {d : ShardId × PeerId} {l : List Transfer}

/-- Releasing touches nothing but the status of one waiting transfer. -/
theorem mem_release {t : Transfer} (h : t ∈ (release d l).1) :
    ∃ t' ∈ l, t.key = t'.key ∧ t.method = t'.method ∧ t.epoch = t'.epoch ∧
      (t.status = t'.status ∨ t.status = .running ∧ t'.status = .pending ∧ t.key.destination = d) := by
  induction l with
  | nil => cases h
  | cons x rest ih =>
    simp only [release] at h
    split at h
    · rename_i hx
      obtain rfl | h := List.mem_cons.1 h
      · exact ⟨x, List.mem_cons_self, rfl, rfl, rfl, .inr ⟨rfl, hx.1, hx.2⟩⟩
      · exact ⟨t, List.mem_cons_of_mem _ h, rfl, rfl, rfl, .inl rfl⟩
    · obtain rfl | h := List.mem_cons.1 h
      · exact ⟨t, List.mem_cons_self, rfl, rfl, rfl, .inl rfl⟩
      · obtain ⟨t', ht', hr⟩ := ih h
        exact ⟨t', List.mem_cons_of_mem _ ht', hr⟩

/-- Releasing takes nothing away that runs. -/
theorem running_mem_release {t : Transfer} (h : t ∈ l) (hr : t.status = .running) :
    t ∈ (release d l).1 := by
  induction l with
  | nil => cases h
  | cons x rest ih =>
    simp only [release]
    split
    · rename_i hx
      obtain rfl | h := List.mem_cons.1 h
      · rw [hr] at hx
        cases hx.1
      · exact List.mem_cons_of_mem _ h
    · obtain rfl | h := List.mem_cons.1 h
      · exact List.mem_cons_self
      · exact List.mem_cons_of_mem _ (ih h)

/-- What is released is in the table and runs. -/
theorem released_mem {t : Transfer} (h : (release d l).2 = some t) :
    t ∈ (release d l).1 ∧ t.status = .running := by
  induction l with
  | nil => cases h
  | cons x rest ih =>
    simp only [release] at h ⊢
    split
    · rename_i hx
      rw [if_pos hx] at h
      obtain rfl := Option.some.inj h
      exact ⟨List.mem_cons_self, rfl⟩
    · rename_i hx
      rw [if_neg hx] at h
      obtain ⟨hin, hr⟩ := ih h
      exact ⟨List.mem_cons_of_mem _ hin, hr⟩

/-- What is released was waiting. -/
theorem released_pending {t : Transfer} (h : (release d l).2 = some t) :
    ∃ t' ∈ l, t = { t' with status := .running } ∧ t'.status = .pending := by
  induction l with
  | nil => cases h
  | cons x rest ih =>
    simp only [release] at h
    split at h
    · rename_i hx
      obtain rfl := Option.some.inj h
      exact ⟨x, List.mem_cons_self, rfl, hx.1⟩
    · obtain ⟨t', ht', hr⟩ := ih h
      exact ⟨t', List.mem_cons_of_mem _ ht', hr⟩

theorem keys_release : (release d l).1.map (·.key) = l.map (·.key) := by
  induction l with
  | nil => rfl
  | cons x rest ih =>
    simp only [release]
    split
    · rfl
    · simp [ih]

theorem release_paced (h : Paced l) (hd : ∀ t ∈ l, t.status = .running → t.key.destination ≠ d) :
    Paced (release d l).1 := by
  induction l with
  | nil => exact .nil
  | cons x rest ih =>
    obtain ⟨hx, hrest⟩ := List.pairwise_cons.1 h
    obtain ⟨hdx, hdrest⟩ := List.forall_mem_cons.1 hd
    simp only [release]
    split
    · rename_i hrun
      refine List.pairwise_cons.2 ⟨fun t ht _ ht' he => ?_, hrest⟩
      exact hdrest t ht ht' (he.symm.trans hrun.2)
    · refine List.pairwise_cons.2 ⟨fun t ht hr hr' he => ?_, ih hrest hdrest⟩
      obtain ⟨t', ht', hk, -, -, hs | ⟨-, -, hdest⟩⟩ := mem_release ht
      · exact hx t' ht' hr (hs ▸ hr') (by rw [← hk]; exact he)
      · exact hdx hr (he.trans hdest)

end Cluster
end ShardCluster
