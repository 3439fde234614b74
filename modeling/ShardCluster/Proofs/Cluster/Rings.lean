import ShardCluster.Proofs.Cluster.RingAgreement
import ShardCluster.Proofs.Ring.Sited
/-! The rings of a cluster are made one shard at a time, whatever the entries. -/
namespace ShardCluster
open SortedMap

namespace Router
variable {r r' : Router}

/-- Both rings of a group are made one shard at a time. -/
structure Sited (r : Router) : Prop where
  old : r.old.ring.Sited
  target : r.target.ring.Sited

theorem Idle.sited (hi : r.Idle) (h : r.old.ring.Sited) : r.Sited := ⟨h, by rwa [hi.target]⟩

/-- The rings for reads and writes do not matter. -/
theorem Sited.congr (h : r.Sited) (ho : r'.old = r.old) (hn : r'.new = r.new) : r'.Sited :=
  ⟨ho ▸ h.old, by rw [Router.target, hn, ho]; exact h.target⟩

theorem Sited.start (h : r.Sited) {change : RingChange} (hr : r.start change = .ok r') : r'.Sited := by
  obtain ⟨-, ring, hc, rfl⟩ := start_eq_ok.1 hr
  exact ⟨h.old, h.old.changed hc⟩

theorem Sited.commitRead (h : r.Sited) (hr : r.commitRead = .ok r') : r'.Sited := by
  obtain ⟨new, -, rfl⟩ := commitRead_eq_ok.1 hr
  exact h.congr rfl rfl

theorem Sited.commitWrite (h : r.Sited) (hr : r.commitWrite = .ok r') : r'.Sited := by
  obtain ⟨new, -, rfl⟩ := commitWrite_eq_ok.1 hr
  exact h.congr rfl rfl

theorem Sited.finish (h : r.Sited) (hr : r.finish = .ok r') : r'.Sited := by
  obtain ⟨new, hn, rfl⟩ := finish_eq_ok.1 hr
  have ht : new.ring.Sited := by
    have hall := h.target
    rwa [Router.target, hn, Option.getD_some] at hall
  exact ⟨ht, ht⟩

theorem Sited.abort (h : r.Sited) : r.abort.Sited := ⟨h.old, h.old⟩

end Router

/-- All rings of a collection are made one shard at a time. -/
def Collection.Sited (coll : Collection) : Prop := ∀ key r, coll.groups.get? key = some r → r.Sited

theorem Collection.Sited.setRouter {coll : Collection} (h : coll.Sited) {key : Option ShardKey}
    {r : Router} (hr : r.Sited) : (coll.setRouter key r).Sited := by
  intro key' r' hr'
  simp only [Collection.setRouter, get?_insert] at hr'
  split at hr'
  · exact Option.some.inj hr' ▸ hr
  · exact h key' r' hr'

namespace Face

def Sited (F : Face) : Prop := ∀ coll, F.collection = some coll → coll.Sited

namespace Sited
variable {F F' : Face} {w : Wake} {coll : Collection} {op op' : Option Operation} {l l' : Layout}
  {key : Option ShardKey} {r r' : Router}

theorem congr {coll' : Collection} (h : Sited ⟨some coll, op, l⟩) (hg : coll'.groups = coll.groups) :
    Sited ⟨some coll', op', l'⟩ := by
  intro x hx key r hr
  obtain rfl := Option.some.inj hx
  exact h coll rfl key r (hg ▸ hr)

theorem router (h : Sited ⟨some coll, op, l⟩) (hr : coll.router key = .ok r) : r.Sited :=
  h coll rfl key r (Collection.router_eq_ok.1 hr).2

theorem setRouter (h : Sited ⟨some coll, op, l⟩) (hr : r.Sited) :
    Sited ⟨some (coll.setRouter key r), op', l'⟩ := by
  intro x hx
  obtain rfl := Option.some.inj hx
  exact (h coll rfl).setRouter hr

theorem rollsBack (h : F.Sited) (hb : RollsBack F w F') : F'.Sited := by
  cases hb with
  | @up coll op l r hr hd =>
    have htaken : Sited ⟨some (coll.take (·.resharding)).1, some op, l⟩ := h.congr rfl
    exact htaken.setRouter (h.router hr).abort
  | @down coll op l r hr hd =>
    have htaken : Sited ⟨some (coll.take (·.resharding)).1, some op, l⟩ := h.congr rfl
    exact htaken.setRouter (h.router hr).abort

theorem change {name : String} {epoch : UInt64} {entry : Entry} (h : F.Sited)
    (hc : Change name epoch entry F w F') : F'.Sited := by
  have hsingle : ∀ (n : Nat) (keys : List ShardId), (Router.single (.ofShards n keys)).Sited :=
    fun n keys => (Router.Idle.single _).sited (.ofShards n keys)
  cases hc with
  | @foundAuto config placement n hm hp hh =>
    intro x hx
    obtain rfl := Option.some.inj hx
    have hempty : Collection.Sited { config } := nofun
    exact hempty.setRouter (hsingle n placement.keys)
  | foundCustom hm =>
    intro x hx
    obtain rfl := Option.some.inj hx
    exact nofun
  | deleted => exact nofun
  | keyAdded => exact h.setRouter (hsingle _ _)
  | @keyDropped coll op l key r hr ho =>
    intro x hx key' r' hr'
    obtain rfl := Option.some.inj hx
    exact h coll rfl key' r' (get?_erase_eq_some.1 hr').2
  | @started coll l plan r r' hn ht hr hr' hl =>
    have hset : Sited ⟨some (coll.setRouter plan.operation.key r'), none, l⟩ :=
      h.setRouter ((h.router hr).start hr')
    exact hset.congr rfl
  | readCommitted hs hr hr' => exact h.setRouter ((h.router hr).commitRead hr')
  | writeCommitted hs hr hr' => exact h.setRouter ((h.router hr).commitWrite hr')
  | finishedUp hs hr hr' => exact h.setRouter ((h.router hr).finish hr')
  | finishedDown hs hr hr' => exact h.setRouter ((h.router hr).finish hr')
  | rolledBack hb => exact h.rollsBack hb
  | replicated => exact h.congr rfl
  | copied => exact h.congr rfl
  | sliced => exact h.congr rfl
  | discarded => exact h.congr rfl
  | unclaimed => exact h.congr rfl
  | replicaDropped => exact h.congr rfl
  | stateSet => exact h.congr rfl
  | evicted => exact h.congr rfl

end Sited
end Face

theorem Cluster.Reached.sited {allowed : Cluster → Entry → Prop} {c : Cluster} (h : Reached allowed c)
    (name : String) : (c.face name).Sited :=
  h.invariant (Q := fun _ _ _ => True) nofun (fun h hb => h.rollsBack hb) (fun h _ hc => h.change hc)
    (fun _ _ _ _ => ⟨trivial, fun _ _ _ => trivial⟩) name

end ShardCluster
