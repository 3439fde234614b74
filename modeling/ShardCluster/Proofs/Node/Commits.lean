import ShardCluster.Node.Points
import ShardCluster.Node.Request
import ShardCluster.Proofs.Cluster.Reports
import ShardCluster.Proofs.Copy.Plane
import ShardCluster.Proofs.Node.HoldingsChange
/-! A node that carries out an accepted entry keeps what was written. -/
namespace ShardCluster
open SortedMap

namespace Face
variable {F F' : Face} {D D' : Holdings} {w : Wake} {name : String} {entry : Entry}

theorem Conveys.still : F.Conveys D .still F where
  config _ _ h h' := by
    obtain rfl := Option.some.inj (h.symm.trans h')
    rfl
  placed _ _ h := .inl h
  current _ r _ h hq := .inr ⟨r, h, hq, fun _ _ _ _ hs => hs⟩
  complete key r r' q p id h h' hs hl := by
    obtain ⟨coll, hc, hr⟩ := h
    obtain ⟨_, hc', hr'⟩ := h'
    obtain rfl := Option.some.inj (hc.symm.trans hc')
    obtain rfl := Option.some.inj (hr.symm.trans hr')
    exact .inr ⟨hs, hl, fun hw => hw, fun t ht _ ho _ => ⟨ho, t, ht, rfl⟩⟩
  backs _ h _ := h
  starts := nofun

end Face

namespace RollsBack
variable {F F' : Face} {w : Wake}

theorem knows (h : RollsBack F w F') {key : Option ShardKey} (hk : F.Knows key) :
    F'.Knows key := by
  have hset : ∀ (coll coll' : Collection) (k : Option ShardKey) (r : Router),
      coll'.config = coll.config → coll'.groups = coll.groups.insert k r →
      (∃ x, coll.router key = .ok x) → ∃ x, coll'.router key = .ok x := by
    intro coll coll' k r hc hg hx
    obtain ⟨x, hx⟩ := hx
    obtain ⟨hcheck, hget⟩ := Collection.router_eq_ok.1 hx
    have hcheck' : coll'.checkKey key = .ok () := by simpa [Collection.checkKey, hc] using hcheck
    by_cases hkey : key = k
    · exact ⟨r, Collection.router_eq_ok.2 ⟨hcheck', by rw [hg, hkey, get?_insert_self]⟩⟩
    · exact ⟨x, Collection.router_eq_ok.2 ⟨hcheck', by rw [hg, get?_insert_of_ne hkey, hget]⟩⟩
  obtain ⟨coll, x, hcoll, hx⟩ := hk
  cases h with
  | @up coll o l r hr hd =>
    obtain rfl := Option.some.inj hcoll
    obtain ⟨y, hy⟩ := hset coll ((coll.take (·.resharding)).1.setRouter o.key r.abort) o.key r.abort
      rfl rfl ⟨x, hx⟩
    exact ⟨_, y, rfl, hy⟩
  | @down coll o l r hr hd =>
    obtain rfl := Option.some.inj hcoll
    obtain ⟨y, hy⟩ := hset coll ((coll.take (·.resharding)).1.setRouter o.key r.abort) o.key r.abort
      rfl rfl ⟨x, hx⟩
    exact ⟨_, y, rfl, hy⟩

end RollsBack

open Classical in
/-- The holdings between a rollback and the change that comes after it. -/
noncomputable def Holdings.without (D : Holdings) (w : Wake) : Holdings where
  held q p id := if w.wipes q p id then none else D.held q p id
  copies T := D.copies T ∧ ¬w.ends T.request.key
  written := D.written

namespace Face
variable {F F₁ F' : Face} {D D' : Holdings} {w w' : Wake} {name : String} {epoch : UInt64}
  {entry : Entry}

theorem Keeps.carries_without (h : F.Keeps D) (hb : RollsBack F w F₁) :
    w.Carries F₁ D (D.without w) where
  wiped _ _ _ hw := if_pos hw
  kept _ _ _ hw := if_neg hw
  copies _ hT := .inl hT
  written key id x := ⟨fun hx => ⟨hx, hb.knows (h.known key id x hx)⟩, And.left⟩

theorem carries_rest (hb : RollsBack F w F₁) (hw : (w ++ w').Carries F' D D') :
    w'.Carries F' (D.without w) D' where
  wiped q p id hx := hw.wiped q p id (.inr hx)
  kept q p id hx := by
    by_cases hfirst : w.wipes q p id
    · rw [hw.wiped q p id (.inl hfirst)]
      exact (if_pos hfirst).symm
    · rw [hw.kept q p id fun h => h.elim hfirst hx]
      exact (if_neg hfirst).symm
  copies T hT := by
    obtain ⟨hT, hend⟩ | ⟨c, hc, hx⟩ := hw.copies T hT
    · exact .inl ⟨⟨hT, fun h => hend (.inl h)⟩, fun h => hend (.inr h)⟩
    · have hc : c ∈ w.starts ++ w'.starts := hc
      rw [hb.starts_nil, List.nil_append] at hc
      exact .inr ⟨c, hc, hx⟩
  written := hw.written

theorem Reports.of_nil (h : F.transfers = []) : F.Reports D name entry := fun t ht => by
  rw [h] at ht
  cases ht

/-- What an accepted entry does to a collection keeps what was written there. -/
theorem Keeps.changes (h : F.Keeps D) (htended : F.Tended) (hf : F.Fits)
    (hg : F.Orderly name entry) (hrep : F.Reports D name entry)
    (hc : Changes name epoch entry F w F') (ha : F'.Apart) (hw : w.Carries F' D D') :
    F'.Tended ∧ F'.Keeps D' := by
  cases hc with
  | none => exact ⟨htended, h.carried .still hw⟩
  | one hc => exact ⟨htended.change hf hg hc ha, h.carried (.change h htended hf hg hrep hc ha) hw⟩
  | two hb hc =>
    have htended₁ := htended.rollsBack hf hb
    have hf₁ := hf.rollsBack hb
    have hg₁ := hg.rollsBack hb
    have hk₁ := h.carried (.rollsBack htended hf hb) (h.carries_without hb)
    have hnil := hf.transfers_nil hb
    have hconveys := Conveys.change hk₁ htended₁ hf₁ hg₁ (.of_nil hnil) hc ha
    exact ⟨htended₁.change hf₁ hg₁ hc ha, hk₁.carried hconveys (carries_rest hb hw)⟩

end Face

/-- The payloads of the accepted writes, by collection, shard key and point. -/
abbrev Ledger := String → Option ShardKey → PointId → Option Bytes

namespace Ledger

def empty : Ledger := fun _ _ _ => none

/-- Note an accepted write. -/
def write (L : Ledger) (name : String) (key : Option ShardKey) (points : List Point) : Ledger :=
  fun n k id => if n = name ∧ k = key then (Point.latest id points).or (L n k id) else L n k id

/-- Strike out the groups that are gone. -/
def within (L : Ledger) (c : Cluster) : Ledger := fun n k id =>
  match c.router n k with
  | .ok _ => L n k id
  | .error _ => none

theorem within_eq_some {L : Ledger} {c : Cluster} {n : String} {k : Option ShardKey} {id : PointId}
    {x : Bytes} : L.within c n k id = some x ↔ L n k id = some x ∧ (c.face n).Knows k := by
  unfold within
  have hk : (c.face n).Knows k ↔ ∃ r, c.router n k = .ok r := by
    constructor
    · intro h
      obtain ⟨coll, r, hc, hr⟩ := h
      exact ⟨r, Cluster.router_eq_ok.2 ⟨coll, hc, hr⟩⟩
    · intro h
      obtain ⟨r, hr⟩ := h
      obtain ⟨coll, hc, hr⟩ := Cluster.router_eq_ok.1 hr
      exact ⟨coll, r, hc, hr⟩
  rw [hk]
  cases c.router n k with
  | ok r => simp
  | error e => simp

/-- Nothing is struck out of a group that is there. -/
theorem within_of_isOk {L : Ledger} {c : Cluster} {n : String} {k : Option ShardKey}
    (h : (c.router n k).isOk = true) : L.within c n k = L n k := by
  funext id
  unfold within
  cases hr : c.router n k with
  | ok r => rfl
  | error e =>
    rw [hr] at h
    cases h

end Ledger

namespace Node
variable {n n' : Node} {L : Ledger}

def holdings (n : Node) (L : Ledger) (name : String) : Holdings where
  held q p id := (n.plane.store.store.replica ⟨name, p, q⟩).get? id
  copies T := T ∈ n.plane.tasks ∧ T.request.collection = name
  written := L name

/-- The replicas of the node have what was written. -/
structure Stocked (n : Node) (L : Ledger) : Prop where
  reached : Cluster.Reached Cluster.Planned n.cluster
  faultless : n.plane.store.faults = []
  distinct : n.plane.Distinct
  tended : ∀ name, (n.cluster.face name).Tended
  keeps : ∀ name, (n.cluster.face name).Keeps (n.holdings L name)

/-- Reads reach what was written. -/
structure Holds (n : Node) (L : Ledger) : Prop extends n.Stocked L where
  served : ∀ name, (n.cluster.face name).Served

theorem Holds.ready (h : n.Holds L) (name : String) : (n.cluster.face name).Ready :=
  ⟨h.tended name, h.served name⟩

/-- What effects wipe is cleaned up. -/
theorem wipes_iff {e : Effects} {name : String} {q : ShardId} {p : PeerId} {id : PointId} :
    (e.wake name).wipes q p id ↔ ∃ x ∈ e.cleanup, x.Hits ⟨name, p, q⟩ id := by
  constructor
  · intro h
    obtain h | ⟨s, h, hs⟩ := h
    · exact ⟨_, h, rfl⟩
    · exact ⟨_, h, rfl, hs⟩
  · intro h
    obtain ⟨x, hx, hhit⟩ := h
    cases x with
    | drop l =>
      obtain rfl : _ = l := hhit
      exact .inl hx
    | delete l s =>
      obtain ⟨rfl, hs⟩ := hhit
      exact .inr ⟨s, hx, hs⟩

theorem Executed.carries {e : Effects} {d' : DataPlane} (h : Executed n.plane e d')
    (hstore : n'.plane.store = d'.store)
    (htasks : ∀ T ∈ n'.plane.tasks, T ∈ d'.tasks ∧
      ∀ x ∈ e.completed, T.request.id ≠ (x.1, x.2.key)) (name : String) :
    (e.wake name).Carries (n'.cluster.face name) (n.holdings L name)
      (n'.holdings (L.within n'.cluster) name) where
  wiped q p id hw := by
    have hgone := h.wiped _ _ (wipes_iff.1 hw)
    rw [← hstore] at hgone
    exact hgone
  kept q p id hw := by
    have hkept := h.kept _ _ (fun hx => hw (wipes_iff.2 hx))
    rw [← hstore] at hkept
    exact hkept
  copies T hT := by
    obtain ⟨hin, hname⟩ := hT
    obtain ⟨hin, hreported⟩ := htasks T hin
    obtain ⟨hold, hcancel⟩ | ⟨c, hc, rfl⟩ := h.tasks T hin
    · refine .inl ⟨⟨hold, hname⟩, fun hend => ?_⟩
      have hid : ∀ k, T.request.key = k → T.request.id = (name, k) := fun k hk => by
        rw [CopyRequest.id, hname, hk]
      obtain hend | ⟨t, hend, hk⟩ := hend
      · exact hcancel (hid _ rfl ▸ hend)
      · exact hreported _ hend (hid _ hk.symm)
    · refine .inr ⟨c, List.mem_filter.2 ⟨hc, by simpa using hname⟩, _, rfl⟩
  written key id x := Ledger.within_eq_some

/-- An accepted entry is carried out. -/
theorem Stocked.applied (h : n.Stocked L) {entry : Entry} {e : Effects} {d' : DataPlane}
    (happly : n.cluster.apply entry = .ok (n'.cluster, e)) (hp : n.cluster.Planned entry)
    (hg : ∀ name, (n.cluster.face name).Orderly name entry)
    (hrep : ∀ name, (n.cluster.face name).Reports (n.holdings L name) name entry)
    (hx : Executed n.plane e d') (hstore : n'.plane.store = d'.store) (hd : n'.plane.Distinct)
    (htasks : ∀ T ∈ n'.plane.tasks, T ∈ d'.tasks ∧
      ∀ x, entry.reported = some x → T.request.id ≠ x)
    (ha : ∀ name, (n'.cluster.face name).Apart) : n'.Stocked (L.within n'.cluster) := by
  have hstep := Cluster.apply_step h.reached.sound happly
  have hcarries : ∀ name, (e.wake name).Carries (n'.cluster.face name) (n.holdings L name)
      (n'.holdings (L.within n'.cluster) name) := hx.carries hstore fun T hT =>
    ⟨(htasks T hT).1, fun x hin => (htasks T hT).2 _ (Cluster.apply_completed happly x hin)⟩
  have hboth : ∀ name, (n'.cluster.face name).Tended ∧
      (n'.cluster.face name).Keeps (n'.holdings (L.within n'.cluster) name) := fun name =>
    (h.keeps name).changes (h.tended name) (h.reached.fits name) (hg name) (hrep name)
      (hstep.changes name) (ha name) (hcarries name)
  exact ⟨h.reached.step hp happly, hstore ▸ hx.faultless, hd, fun name => (hboth name).1,
    fun name => (hboth name).2⟩

/-- What was written to groups that are gone has been struck out. -/
theorem Stocked.within (h : n.Stocked L) : L.within n.cluster = L := by
  funext name key id
  refine Option.ext fun x => Ledger.within_eq_some.trans ⟨And.left, fun hx => ⟨hx, ?_⟩⟩
  exact (h.keeps name).known key id x hx

/-- Nothing happens but that copies go. -/
theorem Stocked.unchanged (h : n.Stocked L) (hc : n'.cluster = n.cluster)
    (hs : n'.plane.store = n.plane.store) (hd : n'.plane.Distinct)
    (ht : ∀ T ∈ n'.plane.tasks, T ∈ n.plane.tasks) : n'.Stocked L where
  reached := hc ▸ h.reached
  faultless := hs ▸ h.faultless
  distinct := hd
  tended := hc ▸ h.tended
  keeps name := by
    rw [hc]
    have hk := h.keeps name
    refine hk.carried .still ⟨nofun, fun q p id _ => ?_, fun T hT => ?_, fun key id x => ?_⟩
    · simp only [holdings, hs]
    · exact .inl ⟨⟨ht T hT.1, hT.2⟩, fun hx => hx⟩
    · exact ⟨fun hx => ⟨hx, hk.known key id x hx⟩, And.left⟩

theorem Stocked.refused (h : n.Stocked L) (hc : n'.cluster = n.cluster)
    (hs : n'.plane.store = n.plane.store) (hd : n'.plane.Distinct)
    (ht : ∀ T ∈ n'.plane.tasks, T ∈ n.plane.tasks) : n'.Stocked (L.within n'.cluster) := by
  have h' := h.unchanged hc hs hd ht
  rw [h'.within]
  exact h'

end Node
end ShardCluster
