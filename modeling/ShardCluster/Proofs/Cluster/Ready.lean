import ShardCluster.Proofs.Cluster.TransfersFit
import ShardCluster.Proofs.Router.Serving
/-! The replicas that reads rely on. An incomplete replica is being filled, the rings give every point
to a shard, and every shard of a group has a readable replica. -/
namespace ShardCluster
open SortedMap

/-- Reads may go to the replica. -/
def Layout.Readable (l : Layout) (q : ShardId) (p : PeerId) : Prop :=
  ∃ s, l q p = some s ∧ s.readable = true

namespace Face

def Group (F : Face) (key : Option ShardKey) (r : Router) : Prop :=
  ∃ coll, F.collection = some coll ∧ coll.groups.get? key = some r

theorem Group.unique {F : Face} {key : Option ShardKey} {r r' : Router} (h : F.Group key r)
    (h' : F.Group key r') : r = r' := by
  obtain ⟨coll, hc, hr⟩ := h
  obtain ⟨_, hc', hr'⟩ := h'
  obtain rfl := Option.some.inj (hc.symm.trans hc')
  exact Option.some.inj (hr.symm.trans hr')

def transfers (F : Face) : List Transfer :=
  match F.collection with
  | some coll => coll.transfers
  | none => []

/-- No two shards of a group claim a common position. -/
def Apart (F : Face) : Prop :=
  ∀ key r, F.Group key r → Ring.Apart r.old.ring.perShard r.shards

/-- No shard of an old ring has its last readable replica on the peer. -/
def Spares (F : Face) (peer : PeerId) : Prop :=
  ∀ key r, F.Group key r → ∀ q, r.old.ring.contains q = true → F.look.Readable q peer →
    ∃ p, p ≠ peer ∧ F.look.Readable q p

/-- No replica is given up, and the rings are whole. -/
structure Tended (F : Face) : Prop where
  alive : ∀ q p, F.look q p ≠ some .dead
  fed : ∀ q p, F.look q p = some .partialCopy → ∃ t ∈ F.transfers, t.key.destination = (q, p)
  /-- While a shard goes, all replicas of the others are being filled. -/
  staying : ∀ o r, F.operation = some o → F.Group o.key r → o.direction = .down →
    ∀ q p, r.old.ring.contains q = true → q ≠ o.shard → (F.look q p).isSome →
      F.look q p = some .resharding
  even : ∀ key r, F.Group key r → r.Even

/-- Every shard of an old ring has a readable replica. -/
def Served (F : Face) : Prop :=
  ∀ key r, F.Group key r → ∀ q, r.old.ring.contains q = true → ∃ p, F.look.Readable q p

structure Ready (F : Face) : Prop extends F.Tended where
  served : F.Served

section
variable {coll : Collection} {op : Option Operation} {o : Operation} {l : Layout}
  {key : Option ShardKey} {r : Router} {q : ShardId} {p : PeerId}

@[simp] theorem group_some : Group ⟨some coll, op, l⟩ key r ↔ coll.groups.get? key = some r := by
  simp [Group]

@[simp] theorem group_none : ¬Group ⟨none, op, l⟩ key r := by
  simp [Group]

@[simp] theorem transfers_some : transfers ⟨some coll, op, l⟩ = coll.transfers := rfl

/-- What a live operation has. -/
theorem Fits.live (h : Fits ⟨some coll, some o, l⟩) : ∃ r, coll.router o.key = .ok r ∧
    coll.groups.get? o.key = some r ∧ r.Follows o ∧ l.Filled o r ∧
      (∀ t ∈ coll.transfers, t.Feeds l o r) ∧ (coll.transfers ≠ [] ↔ o.stage = .starting) := by
  obtain ⟨r, hr, hf⟩ := h.agrees.exists_router
  obtain ⟨hfill, hfeeds, hstage⟩ := (h.fit coll rfl).live o r rfl hr
  exact ⟨r, hr, (Collection.router_eq_ok.1 hr).2, hf, hfill, hfeeds, hstage⟩

theorem Fits.idle (h : Fits ⟨some coll, none, l⟩) :
    (∀ q p, l q p ≠ some .resharding) ∧ ∀ t ∈ coll.transfers, t.Copies l :=
  (h.fit coll rfl).idle rfl

theorem Fits.keys {F : Face} (h : F.Fits) : (F.transfers.map (·.key)).Nodup := by
  obtain ⟨coll, op, l⟩ := F
  cases coll with
  | none => exact .nil
  | some coll => exact (h.fit coll rfl).keys

/-- Every group has a shard. -/
theorem Fits.exists_old {F : Face} (h : F.Fits) (hg : F.Group key r) :
    ∃ q, r.old.ring.contains q = true := by
  obtain ⟨coll, hcoll, hr⟩ := hg
  exact (h.fit coll hcoll).parted.filled hr

/-- No shard is in two groups. -/
theorem Fits.apart {F : Face} {key' : Option ShardKey} {r' : Router} (h : F.Fits)
    (hg : F.Group key r) (hg' : F.Group key' r') (hq : q ∈ r.shards) (hq' : q ∈ r'.shards) :
    key = key' := by
  obtain ⟨coll, hcoll, hr⟩ := hg
  obtain ⟨_, hsame, hr'⟩ := hg'
  obtain rfl := Option.some.inj (hcoll.symm.trans hsame)
  exact (h.fit coll hcoll).parted.apart hr hr' hq hq'

/-- A group is at rest, or the live operation is about it. -/
theorem Fits.phase {F : Face} (h : F.Fits) (hg : F.Group key r) :
    r.Idle ∧ (∀ o, F.operation = some o → o.key ≠ key) ∨
      ∃ o, F.operation = some o ∧ o.key = key ∧ r.Follows o := by
  obtain ⟨coll, hc, hr⟩ := hg
  cases ho : F.operation with
  | none =>
    exact .inl ⟨h.agrees.idle coll key r hc hr fun o hop => by simp [ho] at hop, nofun⟩
  | some o =>
    by_cases hk : o.key = key
    · subst hk
      obtain ⟨_, r', hc', hr', hf⟩ := h.agrees.live o ho
      obtain rfl := Option.some.inj (hc.symm.trans hc')
      obtain rfl := Option.some.inj (hr.symm.trans (Collection.router_eq_ok.1 hr').2)
      exact .inr ⟨o, rfl, rfl, hf⟩
    · have hother : ∀ o', some o = some o' → o'.key ≠ key := fun o' he => Option.some.inj he ▸ hk
      refine .inl ⟨h.agrees.idle coll key r hc hr fun o' hop => hother o' (ho.symm.trans hop), hother⟩

/-- A rollback leaves no transfer. -/
theorem Fits.transfers_nil {F F' : Face} {w : Wake} (h : F.Fits) (hb : RollsBack F w F') :
    F'.transfers = [] := by
  cases hb with
  | @up coll o l r hr hd => exact (h.fit coll rfl).take_slices hr
  | @down coll o l r hr hd => exact (h.fit coll rfl).take_slices hr

/-- While an operation is live no replica is incomplete but those that it fills. -/
theorem Tended.partial_of_live (h : Tended ⟨some coll, some o, l⟩) (hf : Fits ⟨some coll, some o, l⟩) :
    l q p ≠ some .partialCopy := by
  intro hp
  obtain ⟨t, ht, hd⟩ := h.fed q p hp
  obtain ⟨r, -, -, -, -, hfeeds, -⟩ := hf.live
  have hl := (hfeeds t ht).target
  obtain ⟨hq, hp'⟩ : t.key.toShard = q ∧ t.key.target = p := Prod.mk.inj hd
  rw [hq, hp', hp] at hl
  cases hl

/-- Only a transfer fills a replica that cannot be read. -/
theorem Tended.readable_or (h : Tended ⟨some coll, op, l⟩) (hs : (l q p).isSome) :
    l.Readable q p ∨ l q p = some .partialCopy := by
  obtain ⟨s, hs⟩ := Option.isSome_iff_exists.1 hs
  cases s with
  | active => exact .inl ⟨_, hs, rfl⟩
  | dead => exact absurd hs (h.alive q p)
  | partialCopy => exact .inr hs
  | resharding => exact .inl ⟨_, hs, rfl⟩

end

section
variable {coll coll' : Collection} {op op' : Option Operation} {o : Operation} {l l' : Layout}
  {key : Option ShardKey} {r r' : Router} {t : Transfer}

/-- The groups stay as they are, and every replica keeps the state that an operation needs. -/
theorem Tended.relook (h : Tended ⟨some coll, op, l⟩) (hg : coll'.groups = coll.groups)
    (ho : ∀ o', op' = some o' → ∃ o, op = some o ∧ o'.key = o.key ∧ o'.direction = o.direction ∧
      o'.shard = o.shard)
    (hs : ∀ q p s, l' q p = some s → l q p = some s ∨ s = .active ∧ op = none ∨
      s = .partialCopy ∧ op = none)
    (hfed : ∀ q p, l' q p = some .partialCopy →
      ∃ t ∈ coll'.transfers, t.key.destination = (q, p)) : Tended ⟨some coll', op', l'⟩ where
  alive q p hd := by
    obtain hl | ⟨hs, -⟩ | ⟨hs, -⟩ := hs q p _ hd
    · exact h.alive q p hl
    · cases hs
    · cases hs
  fed := hfed
  staying o' r hop hr hd q p hq hne hsome := by
    obtain ⟨o, ho, hk, hdir, hshard⟩ := ho o' hop
    have hr : coll.groups.get? o.key = some r := hk ▸ hg ▸ group_some.1 hr
    obtain ⟨s, hx⟩ := Option.isSome_iff_exists.1 hsome
    have hx : l' q p = some s := hx
    obtain hl | ⟨-, hn⟩ | ⟨-, hn⟩ := hs q p s hx
    · have hstay : l q p = some .resharding :=
        h.staying o r ho (group_some.2 hr) (hdir ▸ hd) q p hq (hshard ▸ hne) (by simp [hl])
      obtain rfl := Option.some.inj (hl.symm.trans hstay)
      exact hx
    · cases ho.symm.trans hn
    · cases ho.symm.trans hn
  even key r hr := by
    have hr : coll.groups.get? key = some r := hg ▸ group_some.1 hr
    exact h.even key r (group_some.2 hr)

theorem Served.relook (h : Served ⟨some coll, op, l⟩) (hg : coll'.groups = coll.groups)
    (hserved : ∀ key r, coll.groups.get? key = some r → ∀ q, r.old.ring.contains q = true →
      ∀ p, l.Readable q p → ∃ p', l'.Readable q p') : Served ⟨some coll', op', l'⟩ := by
  intro key r hr q hq
  have hr : coll.groups.get? key = some r := hg ▸ group_some.1 hr
  obtain ⟨p, hp⟩ := h key r (group_some.2 hr) q hq
  exact hserved key r hr q hq p hp

/-- One group gets new rings, and the replicas that it needs. -/
theorem Tended.regroup (h : Tended ⟨some coll, op, l⟩)
    (hg : coll'.groups = coll.groups.insert key r') (he : r'.Even)
    (hs : ∀ q p s, l' q p = some s → l q p = some s ∨ s = .active ∨ s = .resharding)
    (hfree : ∀ q p, l q p ≠ some .partialCopy)
    (hstay : ∀ o, op' = some o → o.key = key ∧ (o.direction = .down → ∀ q p,
      r'.old.ring.contains q = true → q ≠ o.shard → (l' q p).isSome → l' q p = some .resharding)) :
    Tended ⟨some coll', op', l'⟩ where
  alive q p hd := by
    obtain hl | hs | hs := hs q p _ hd
    · exact h.alive q p hl
    · cases hs
    · cases hs
  fed q p hx := by
    obtain hl | hs | hs := hs q p _ hx
    · exact absurd hl (hfree q p)
    · cases hs
    · cases hs
  staying o x ho hx hd q p hq hne hsome := by
    obtain ⟨hk, hstay⟩ := hstay o ho
    have hx : coll'.groups.get? o.key = some x := group_some.1 hx
    rw [hg, hk, get?_insert_self] at hx
    obtain rfl := Option.some.inj hx
    exact hstay hd q p hq hne hsome
  even key' x hx := by
    have hx : coll'.groups.get? key' = some x := group_some.1 hx
    rw [hg, get?_insert] at hx
    split at hx
    · exact Option.some.inj hx ▸ he
    · exact h.even key' x (group_some.2 hx)

theorem Served.regroup (h : Served ⟨some coll, op, l⟩) (hp : Parted coll.groups)
    (hr : coll.groups.get? key = some r) (hg : coll'.groups = coll.groups.insert key r')
    (hown : ∀ q, r'.old.ring.contains q = true → ∃ p, l'.Readable q p)
    (hother : ∀ q p, q ∉ r.shards → l.Readable q p → l'.Readable q p) :
    Served ⟨some coll', op', l'⟩ := by
  intro key' x hx q hq
  have hx : coll'.groups.get? key' = some x := group_some.1 hx
  rw [hg, get?_insert] at hx
  split at hx
  · obtain rfl := Option.some.inj hx
    exact hown q hq
  · rename_i hk
    obtain ⟨p, hl⟩ := h key' x (group_some.2 hx) q hq
    refine ⟨p, hother q p (fun hin => hk ?_) hl⟩
    exact hp.apart hx hr (Router.mem_shards.2 (.inl hq)) hin

end
end Face

theorem Cluster.transfers_face (c : Cluster) (name : String) :
    c.transfers name = (c.face name).transfers := rfl

end ShardCluster
