import Mathlib.Data.List.Perm.Subperm
import ShardCluster.Proofs.Router.Moves
/-! Where a write goes while rings change. Reads and writes always go by the old or the new ring of
the group, and during a change a write reaches the owners under both. Whatever commits and ends come
after it, the shard that is then asked for the point has it. -/
namespace ShardCluster

/-- The call is for a new change. -/
def RouterCall.Starts (call : RouterCall) : Prop := ∃ change, call = .start change

namespace Router
variable {r : Router} {v w : VersionedRing} {calls : List RouterCall} {call : RouterCall}
  {id : PointId} {s : ShardId}

/-- A refused call leaves the rings as they are. -/
def tried (r : Router) (call : RouterCall) : Router := (r.answer call).toOption.getD r

def after (r : Router) (calls : List RouterCall) : Router := calls.foldl tried r

/-- All that a call can do to the rings. -/
theorem tried_cases (r : Router) (call : RouterCall) : r.tried call = r ∨
    (r.new = none ∧ ∃ ring, r.tried call = { r with new := some ring } ∧ call.Starts) ∨
    r.tried call = { r with read := r.target } ∨ r.tried call = { r with write := r.target } ∨
    r.tried call = ⟨r.target, none, r.target, r.target⟩ ∨ r.tried call = r.abort := by
  unfold tried
  cases hr : r.answer call with
  | error e => exact .inl rfl
  | ok r' =>
    refine .inr ?_
    simp only [Except.toOption, Option.getD_some]
    cases call with
    | start change =>
      obtain ⟨hidle, ring, -, rfl⟩ := start_eq_ok.1 hr
      exact .inl ⟨by simpa [resharding] using hidle, _, rfl, change, rfl⟩
    | commitRead =>
      obtain ⟨ring, hn, rfl⟩ := commitRead_eq_ok.1 hr
      exact .inr (.inl (by rw [target, hn, Option.getD_some]))
    | commitWrite =>
      obtain ⟨ring, hn, rfl⟩ := commitWrite_eq_ok.1 hr
      exact .inr (.inr (.inl (by rw [target, hn, Option.getD_some])))
    | finish =>
      obtain ⟨ring, hn, rfl⟩ := finish_eq_ok.1 hr
      exact .inr (.inr (.inr (.inl (by rw [target, hn, Option.getD_some]))))
    | abort =>
      obtain rfl := Except.ok.inj hr
      exact .inr (.inr (.inr (.inr rfl)))

/-- Every ring of the group is one of two. -/
structure Within (r : Router) (v w : VersionedRing) : Prop where
  old : r.old = v ∨ r.old = w
  target : r.target = v ∨ r.target = w
  read : r.read = v ∨ r.read = w
  write : r.write = v ∨ r.write = w

/-- Reads and writes go by the old or the new ring. -/
def Sound (r : Router) : Prop := r.Within r.old r.target

theorem Sound.single (ring : Ring) : (Router.single ring).Sound := ⟨.inl rfl, .inr rfl, .inl rfl, .inl rfl⟩

theorem Sound.tried (h : r.Sound) (call : RouterCall) : (r.tried call).Sound := by
  obtain ⟨-, -, hread, hwrite⟩ := h
  obtain he | ⟨hidle, ring, he, -⟩ | he | he | he | he := r.tried_cases call <;> rw [he]
  · exact ⟨.inl rfl, .inr rfl, hread, hwrite⟩
  · -- before the change there was one ring only
    have ht : r.target = r.old := by rw [target, hidle, Option.getD_none]
    rw [ht, or_self] at hread hwrite
    exact ⟨.inl rfl, .inr rfl, .inl hread, .inl hwrite⟩
  · exact ⟨.inl rfl, .inr rfl, .inr rfl, hwrite⟩
  · exact ⟨.inl rfl, .inr rfl, hread, .inr rfl⟩
  · exact ⟨.inl rfl, .inr rfl, .inl rfl, .inl rfl⟩
  · exact ⟨.inl rfl, .inr rfl, .inl rfl, .inl rfl⟩

theorem Sound.after (h : r.Sound) (calls : List RouterCall) : (r.after calls).Sound := by
  induction calls generalizing r with
  | nil => exact h
  | cons call rest ih => exact ih (h.tried call)

/-- Only the start of a change brings a ring that was not there. -/
theorem Within.tried (h : r.Within v w) (hc : ¬call.Starts) : (r.tried call).Within v w := by
  obtain ⟨hold, htarget, hread, hwrite⟩ := h
  obtain he | ⟨-, ring, -, hstarts⟩ | he | he | he | he := r.tried_cases call
  · rw [he]
    exact ⟨hold, htarget, hread, hwrite⟩
  · exact absurd hstarts hc
  · rw [he]
    exact ⟨hold, htarget, htarget, hwrite⟩
  · rw [he]
    exact ⟨hold, htarget, hread, htarget⟩
  · rw [he]
    exact ⟨htarget, htarget, htarget, htarget⟩
  · rw [he]
    exact ⟨hold, hold, hold, hold⟩

theorem Within.after (h : r.Within v w) (hc : ∀ call ∈ calls, ¬call.Starts) :
    (r.after calls).Within v w := by
  induction calls generalizing r with
  | nil => exact h
  | cons call rest ih =>
    obtain ⟨hcall, hrest⟩ := List.forall_mem_cons.1 hc
    exact ih (h.tried hcall) hrest

/-- Put a shard behind the others, unless it is among them. -/
theorem foldl_push (l targets : List ShardId) (hn : targets.Nodup) :
    (l.foldl (fun targets shard => if shard ∈ targets then targets else targets ++ [shard])
        targets).Nodup ∧
      targets <+: l.foldl (fun targets shard => if shard ∈ targets then targets else targets ++ [shard])
        targets := by
  induction l generalizing targets with
  | nil => exact ⟨hn, List.prefix_rfl⟩
  | cons shard rest ih =>
    rw [List.foldl_cons]
    split
    · exact ih targets hn
    · rename_i hfresh
      have hmore : (targets ++ [shard]).Nodup := by
        rw [List.nodup_append]
        refine ⟨hn, by simp, fun a ha b hb he => ?_⟩
        rw [List.mem_singleton] at hb
        exact hfresh (hb ▸ he ▸ ha)
      obtain ⟨hnodup, hprefix⟩ := ih _ hmore
      exact ⟨hnodup, (List.prefix_append _ _).trans hprefix⟩

theorem toList_nodup {α : Type} (o : Option α) : o.toList.Nodup := by cases o <;> simp

theorem writeTargets_spec (r : Router) (id : PointId) :
    (r.writeTargets id).Nodup ∧ (r.routeWrite id).toList <+: r.writeTargets id := by
  unfold writeTargets
  split
  · exact foldl_push _ _ (toList_nodup _)
  · exact ⟨toList_nodup _, List.prefix_rfl⟩

/-- A route by one of two rings leads to the owner under one of them. -/
theorem route_of_or {u : VersionedRing} (h : u = v ∨ u = w) :
    u.ring.route id = v.ring.route id ∨ u.ring.route id = w.ring.route id := by
  obtain rfl | rfl := h
  · exact .inl rfl
  · exact .inr rfl

/-- The owner for writes is one of the two owners and adds no third target. -/
theorem Sound.length_writeTargets (h : r.Sound) (id : PointId) : (r.writeTargets id).length ≤ 2 := by
  have hlone : ∀ o : Option ShardId, o.toList.length ≤ 1 := fun o => by cases o <;> simp
  have hsub : r.writeTargets id ⊆ (r.routeOld id).toList ++ (r.routeNew id).toList := by
    intro q hq
    rw [List.mem_append, Option.mem_toList, Option.mem_toList]
    obtain hw | ⟨-, hboth⟩ := mem_writeTargets.1 hq
    · exact (route_of_or h.write).imp (fun he => he.symm.trans hw) fun he => he.symm.trans hw
    · exact hboth
  have hle := (List.Nodup.subperm (r.writeTargets_spec id).1 hsub).length_le
  rw [List.length_append] at hle
  have hold := hlone (r.routeOld id)
  have hnew := hlone (r.routeNew id)
  omega

/-- Where a write goes, and who is asked for the point later. -/
structure Covers (r : Router) (id : PointId) : Prop where
  nodup : (r.writeTargets id).Nodup
  size : (r.writeTargets id).length ≤ 2
  first : ∀ s, r.routeWrite id = some s → (r.writeTargets id).head? = some s
  later : r.resharding = true → ∀ calls : List RouterCall, (∀ call ∈ calls, ¬call.Starts) → ∀ s,
    (r.after calls).routeRead id = some s ∨ (r.after calls).routeWrite id = some s →
      s ∈ r.writeTargets id

theorem Sound.covers (h : r.Sound) (id : PointId) : r.Covers id where
  nodup := (r.writeTargets_spec id).1
  size := h.length_writeTargets id
  first s hs := by
    obtain ⟨rest, hrest⟩ := (r.writeTargets_spec id).2
    rw [← hrest, hs]
    rfl
  later hr calls hc s hs := by
    have hw := Within.after h hc
    refine mem_writeTargets.2 (.inr ⟨hr, ?_⟩)
    obtain hs | hs := hs
    · exact (route_of_or hw.read).imp (fun he => he.symm.trans hs) fun he => he.symm.trans hs
    · exact (route_of_or hw.write).imp (fun he => he.symm.trans hs) fun he => he.symm.trans hs

/-- Whatever calls a group's rings have seen, a write goes to the owner for writes first and to two
shards at most; and those are all that can be asked for the point until another change starts. -/
theorem writes_cover (ring : Ring) (calls : List RouterCall) (id : PointId) :
    ((Router.single ring).after calls).Covers id :=
  ((Sound.single ring).after calls).covers id

/-- A third shard comes, and writes go by the new ring before reads do. -/
def hastened : Router := (Router.single (.ofShards 2 [0, 1])).after [.finish, .start (.add 2), .commitWrite]

/-- A point of a shard that is split is written to both, and both the end that keeps the new ring and the
one that goes back find it. -/
theorem writes_cover_hastened : hastened.resharding = true ∧ hastened.writeTargets (.num 8) = [2, 1] ∧
    hastened.routeWrite (.num 8) = some 2 ∧
    (hastened.after [.commitRead, .abort]).routeRead (.num 8) = some 1 ∧
    (hastened.after [.finish, .commitWrite]).routeRead (.num 8) = some 2 ∧
    1 ∈ hastened.writeTargets (.num 8) ∧ 2 ∈ hastened.writeTargets (.num 8) := by
  have hcovers : hastened.Covers (.num 8) :=
    writes_cover (.ofShards 2 [0, 1]) [.finish, .start (.add 2), .commitWrite] (.num 8)
  have hr : hastened.resharding = true := by decide +kernel
  have hback : (hastened.after [.commitRead, .abort]).routeRead (.num 8) = some 1 := by decide +kernel
  have hon : (hastened.after [.finish, .commitWrite]).routeRead (.num 8) = some 2 := by decide +kernel
  exact ⟨hr, by decide +kernel, by decide +kernel, hback, hon,
    hcovers.later hr [.commitRead, .abort] (by simp [RouterCall.Starts]) 1 (.inl hback),
    hcovers.later hr [.finish, .commitWrite] (by simp [RouterCall.Starts]) 2 (.inl hon)⟩

end Router
end ShardCluster
