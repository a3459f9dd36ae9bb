import Mantle.Base.Copies
import Mantle.Shard.Node

/-!
# Mantle.Shard.Cache — what a leaf signs as its own (`shard/cache.py`)

A write of the cache signs the whole region again, from an index that imports and adoptions fill too: `put` attests
every item, `revise` only the new version.
-/

namespace Mantle

namespace Shard

open Run

variable {a ch r region x : String} {adding : Payload} {v : ℤ}

/-- What the cache takes from outside: the cell a vector routes to, and the origin that stands for the authority
itself. -/
structure Leaf (V : Type) where
  route : V → String
  selfOrigin : String
  self_ne : selfOrigin ≠ ""

/-- One version of an artifact. -/
structure Item where
  id : String
  content : Bytes
  region : String
  rootId : String

/-- Without a root, the first version is its own. -/
def Item.make (id : String) (content : Bytes) (region root : String) : Item :=
  ⟨id, content, region, if root = "" then id else root⟩

/-- `LocalCache`: the node, and per region the items as they are read. -/
structure LocalCache where
  node : MeshNode
  index : Table String (Table String Item)

namespace LocalCache

variable (C : LocalCache)

def itemsOf (region : String) : Table String Item := (C.index.lookup region).getD ∅

/-- `self._index.setdefault(region, {})[item.id] = item`. -/
def note (item : Item) : LocalCache :=
  { C with index := C.index.insert item.region ((C.itemsOf item.region).insert item.id item) }

def regionPayload (region : String) (adding : Payload) : Payload :=
  adding.toPairs.foldl (fun p e => p.insert e.1 e.2)
    ((C.itemsOf region).toPairs.foldl (fun p e => p.insert e.2.id e.2.content) ∅)

/-- `_versions_of` is not empty. -/
def hasVersion (root : String) : Bool :=
  C.index.toPairs.any fun region => region.2.toPairs.any fun e => e.2.rootId = root

/-- `adopt`: the root of an item that is known stays. -/
def adopt (region : String) (items : Payload) : LocalCache :=
  items.toPairs.foldl (fun C e =>
    C.note (Item.make e.1 e.2 region (((C.itemsOf region).lookup e.1).elim e.1 Item.rootId))) C

/-- `hydrate`, with the roots of the sidecar. -/
def hydrate (roots : Table String String) : LocalCache :=
  C.node.shards.toPairs.foldl (fun C s => s.2.items.toPairs.foldl (fun C e =>
    C.note (Item.make e.1 e.2 s.1 ((roots.lookup e.1).getD e.1))) C) C

end LocalCache

/-- An item a caller puts. -/
structure Entry (V : Type) where
  id : String
  content : Bytes
  vec : V

structure Authored where
  region : String
  id : String
  content : Bytes

/-- The cache, what was authored by it, and the manifests it signed. -/
structure LeafState where
  cache : LocalCache
  authored : List Authored
  signed : List Manifest

def attestAll (ids : List String) (a : Attested) : Table String Attested := ids.foldl (fun t id => t.insert id a) ∅

namespace LeafState

variable {V : Type} (K : Signing) (leaf : Leaf V) (s : LeafState)

/-- The region is signed again, with what is added; none raised. -/
def publish (region : String) (adding : Payload) (version : ℤ) (authority : String) (attest : Table String Attested) :
    Option LeafState :=
  match s.cache.node.putShard K region (s.cache.regionPayload region adding) version authority attest with
  | .error _ => none
  | .ok node => some
      { cache := { s.cache with node := node }
        authored := s.authored ++ adding.toPairs.map fun e => ⟨region, e.1, e.2⟩
        signed := s.signed ++ (node.shards.lookup region).toList.map Held.manifest }

def regionsOf (entries : List (Entry V)) : List String := (entries.map fun e => leaf.route e.vec).eraseDups

/-- What is put into a region. -/
def grouped (entries : List (Entry V)) (region : String) : Payload :=
  (entries.filter fun e => leaf.route e.vec = region).foldl (fun p e => p.insert e.id e.content) ∅

def putRegion (entries : List (Entry V)) (version : ℤ) (authority channel : String) (region : String) :
    Option LeafState :=
  s.publish K region (grouped leaf entries region) version authority
    (attestAll (s.cache.regionPayload region (grouped leaf entries region)).keys ⟨leaf.selfOrigin, channel⟩)

/-- The regions one after the other; what raises ends the call. -/
def putRegions (entries : List (Entry V)) (version : ℤ) (authority channel : String) : List String → LeafState → LeafState
  | [], s => s
  | region :: rest, s =>
    match s.putRegion K leaf entries version authority channel region with
    | some s' => putRegions entries version authority channel rest s'
    | none => s

/-- The entries are in the index before a region is signed. -/
def noted (entries : List (Entry V)) : LeafState :=
  { s with cache := entries.foldl (fun C e => C.note (Item.make e.id e.content (leaf.route e.vec) e.id)) s.cache }

def put (entries : List (Entry V)) (version : ℤ) (authority channel : String) : LeafState :=
  putRegions K leaf entries version authority channel (regionsOf leaf entries) (s.noted leaf entries)

def revisionId (root : String) (content : Bytes) : String :=
  root ++ "~" ++ String.ofList ((itemHash K content).toList.take 16)

def revising (root : String) (content : Bytes) (vec : V) : LeafState :=
  { s with cache := s.cache.note (Item.make (revisionId K root content) content (leaf.route vec) root) }

/-- `revise`: only the new version is attested; a root without versions is a `KeyError`. -/
def revise (root : String) (content : Bytes) (vec : V) (version : ℤ) (authority channel : String) : LeafState :=
  if s.cache.hasVersion root then
    ((s.revising K leaf root content vec).publish K (leaf.route vec)
      ((∅ : Payload).insert (revisionId K root content) content) version authority
      ((∅ : Table String Attested).insert (revisionId K root content) ⟨leaf.selfOrigin, channel⟩)).getD
        (s.revising K leaf root content vec)
  else s

def importShard (m : Manifest) (items : Option Payload) : LeafState :=
  match s.cache.node.importShard K m items with
  | .ok node => { s with cache := { s.cache with node := node } }
  | .error _ => s

end LeafState

inductive LeafEvent (V : Type)
  | put (entries : List (Entry V)) (version : ℤ) (authority channel : String)
  | revise (root : String) (content : Bytes) (vec : V) (version : ℤ) (authority channel : String)
  | importShard (m : Manifest) (items : Option Payload)
  | adopt (region : String) (items : Payload)
  | hydrate (roots : Table String String)

def LeafState.step {V : Type} (K : Signing) (leaf : Leaf V) (s : LeafState) : LeafEvent V → LeafState
  | .put entries version authority channel => s.put K leaf entries version authority channel
  | .revise root content vec version authority channel => s.revise K leaf root content vec version authority channel
  | .importShard m items => s.importShard K m items
  | .adopt region items => { s with cache := s.cache.adopt region items }
  | .hydrate roots => { s with cache := s.cache.hydrate roots }

/-! ### Folds of writes to a table -/

section Folds

variable {ι ρ : Type} {key : ι → String} {val : ι → ρ}

theorem foldl_insert_cases : ∀ (es : List ι) (t : Table String ρ) {x : String} {r : ρ},
    (es.foldl (fun t e => t.insert (key e) (val e)) t).lookup x = some r →
      (∃ e ∈ es, key e = x ∧ val e = r) ∨ (∀ e ∈ es, key e ≠ x) ∧ t.lookup x = some r := by
  intro es
  induction es with
  | nil => exact fun t x r h => .inr ⟨fun e he => absurd he List.not_mem_nil, h⟩
  | cons e es ih =>
    intro t x r h
    rcases ih _ h with ⟨e', he', hkey, hval⟩ | ⟨hnone, hl⟩
    · exact .inl ⟨e', List.mem_cons_of_mem _ he', hkey, hval⟩
    · rw [Table.lookup_insert_of] at hl
      split_ifs at hl with hx
      · exact .inl ⟨e, List.mem_cons_self .., hx.symm, Option.some.inj hl⟩
      · refine .inr ⟨fun e' he' => ?_, hl⟩
        rcases List.mem_cons.mp he' with rfl | hmem
        · exact fun he => hx he.symm
        · exact hnone e' hmem

theorem foldl_insert_isSome : ∀ (es : List ι) (t : Table String ρ) {x : String},
    ((∃ e ∈ es, key e = x) ∨ (t.lookup x).isSome = true) →
      ((es.foldl (fun t e => t.insert (key e) (val e)) t).lookup x).isSome = true := by
  intro es
  induction es with
  | nil => exact fun t x h => h.resolve_left fun ⟨e, he, _⟩ => absurd he List.not_mem_nil
  | cons e es ih =>
    intro t x h
    refine ih _ ?_
    rw [Table.lookup_insert_of]
    rcases h with ⟨e', he', hkey⟩ | hsome
    · rcases List.mem_cons.mp he' with rfl | hmem
      · exact .inr (by simp [hkey])
      · exact .inl ⟨e', hmem, hkey⟩
    · refine .inr ?_
      split_ifs
      · rfl
      · exact hsome

end Folds

theorem attestAll_some {ids : List String} {a a' : Attested} (h : (attestAll ids a).lookup x = some a') :
    a' = a := by
  rcases foldl_insert_cases ids ∅ h with ⟨e, -, -, rfl⟩ | ⟨-, hnone⟩
  · rfl
  · cases hnone

theorem attestAll_isSome {ids : List String} {a : Attested} (h : x ∈ ids) :
    ((attestAll ids a).lookup x).isSome = true := foldl_insert_isSome ids ∅ (.inl ⟨x, h, rfl⟩)

/-! ### The index -/

/-- The index knows every item by its own id. -/
def LocalCache.Keyed (C : LocalCache) : Prop := ∀ r x item, (C.itemsOf r).lookup x = some item → item.id = x

section Index

variable {C : LocalCache}

theorem itemsOf_note (item : Item) (r : String) :
    (C.note item).itemsOf r = if r = item.region then (C.itemsOf r).insert item.id item else C.itemsOf r := by
  unfold LocalCache.note
  conv_lhs => unfold LocalCache.itemsOf
  dsimp only
  rw [Table.lookup_insert_of]
  split_ifs with hr
  · rw [hr]
    rfl
  · rfl

theorem LocalCache.Keyed.note (h : C.Keyed) (item : Item) : (C.note item).Keyed := by
  intro r x i hi
  rw [itemsOf_note] at hi
  split_ifs at hi with hr
  · rw [Table.lookup_insert_of] at hi
    split_ifs at hi with hx
    · rw [← Option.some.inj hi, hx]
    · exact h r x i hi
  · exact h r x i hi

theorem note_isSome (item : Item) (h : ((C.itemsOf r).lookup x).isSome = true) :
    (((C.note item).itemsOf r).lookup x).isSome = true := by
  rw [itemsOf_note]
  split_ifs
  · rw [Table.lookup_insert_of]
    split_ifs
    · rfl
    · exact h
  · exact h

theorem note_make (C : LocalCache) (id : String) (content : Bytes) (region root : String) :
    (((C.note (Item.make id content region root)).itemsOf region).lookup id).isSome = true := by
  rw [itemsOf_note, if_pos (show region = (Item.make id content region root).region from rfl), Table.lookup_insert_of,
    if_pos (show id = (Item.make id content region root).id from rfl)]
  rfl

/-- What noting items, one after the other, leaves. -/
structure LocalCache.Grows (C C' : LocalCache) : Prop where
  node : C'.node = C.node
  keyed : C.Keyed → C'.Keyed
  kept : ∀ {r x}, ((C.itemsOf r).lookup x).isSome = true → ((C'.itemsOf r).lookup x).isSome = true

theorem LocalCache.Grows.refl (C : LocalCache) : C.Grows C := ⟨rfl, id, id⟩

theorem LocalCache.Grows.trans {C₁ C₂ : LocalCache} (h : C.Grows C₁) (h' : C₁.Grows C₂) : C.Grows C₂ :=
  ⟨h'.node.trans h.node, fun hk => h'.keyed (h.keyed hk), fun hx => h'.kept (h.kept hx)⟩

theorem grows_note (item : Item) : C.Grows (C.note item) := ⟨rfl, fun h => h.note item, note_isSome item⟩

theorem grows_foldl {ι : Type} {f : LocalCache → ι → LocalCache} (hf : ∀ C e, LocalCache.Grows C (f C e)) :
    ∀ (es : List ι) (C : LocalCache), C.Grows (es.foldl f C) := by
  intro es
  induction es with
  | nil => exact LocalCache.Grows.refl
  | cons e es ih => exact fun C => (hf C e).trans (ih _)

theorem adopt_grows (region : String) (items : Payload) : C.Grows (C.adopt region items) :=
  grows_foldl (fun _ _ => grows_note _) _ C

theorem hydrate_grows (roots : Table String String) : C.Grows (C.hydrate roots) :=
  grows_foldl (fun _ _ => grows_foldl (fun _ _ => grows_note _) _ _) _ C

theorem regionPayload_isSome {r x : String} {adding : Payload} (hk : C.Keyed)
    (h : ((C.itemsOf r).lookup x).isSome = true) : ((C.regionPayload r adding).lookup x).isSome = true := by
  obtain ⟨item, hitem⟩ := Option.isSome_iff_exists.mp h
  refine foldl_insert_isSome _ _ (.inr (foldl_insert_isSome _ _ (.inl ⟨(x, item), Table.mem_toPairs.mpr hitem, ?_⟩)))
  exact hk r x item hitem

theorem regionPayload_cases {c : Bytes} (h : (C.regionPayload r adding).lookup x = some c) : adding.lookup x = some c ∨
      adding.lookup x = none ∧ ∃ y item, (C.itemsOf r).lookup y = some item ∧ item.id = x ∧ item.content = c := by
  rcases foldl_insert_cases _ _ h with ⟨e, he, rfl, rfl⟩ | ⟨hnone, hbase⟩
  · exact .inl (Table.mem_toPairs.mp he)
  · refine .inr ⟨?_, ?_⟩
    · rw [Option.eq_none_iff_forall_not_mem]
      exact fun c' hc' => hnone (x, c') (Table.mem_toPairs.mpr hc') rfl
    · rcases foldl_insert_cases _ _ hbase with ⟨e, he, hid, hcontent⟩ | ⟨-, hempty⟩
      · exact ⟨e.1, e.2, Table.mem_toPairs.mp he, hid, hcontent⟩
      · cases hempty

end Index

/-! ### What is asked of a leaf -/

section Sound

variable {V : Type} (K : Signing) (leaf : Leaf V)

/-- A manifest this node signed attests as its own only what was authored here, with these bytes. -/
def LeafState.SignsOwn (s : LeafState) : Prop :=
  ∀ m ∈ s.signed, ∀ row ∈ m.items, row.origin = leaf.selfOrigin →
    ∃ c, ⟨m.regionId, row.id, c⟩ ∈ s.authored ∧ itemHash K c = row.hash

/-- A manifest lists an item as its authority's own. -/
def Attests (m : Manifest) (id : String) : Prop := ∃ row ∈ m.items, row.id = id ∧ row.origin = leaf.selfOrigin

/-- What was authored here is attested by the current manifest of its region. -/
def LeafState.KeepsOwn (s : LeafState) : Prop :=
  ∀ a ∈ s.authored, ∃ sh, s.cache.node.shards.lookup a.region = some sh ∧ Attests leaf sh.manifest a.id

/-- Nothing that is held of a region is dropped from it. -/
def MeshNode.KeepsItems (N N' : MeshNode) : Prop :=
  ∀ r sh x, N.shards.lookup r = some sh → (sh.items.lookup x).isSome = true →
    ∃ sh', N'.shards.lookup r = some sh' ∧ (sh'.items.lookup x).isSome = true

structure LeafState.Sound (s : LeafState) : Prop where
  signed : s.SignsOwn K leaf
  attested : s.KeepsOwn leaf
  indexed : ∀ a ∈ s.authored, ((s.cache.itemsOf a.region).lookup a.id).isSome = true
  keyed : s.cache.Keyed

/-- Every item the node holds of the region is in the index. -/
def LeafState.Adopted (s : LeafState) (region : String) : Prop :=
  ∀ sh x, s.cache.node.shards.lookup region = some sh → (sh.items.lookup x).isSome = true →
    ((s.cache.itemsOf region).lookup x).isSome = true

/-- What the index has of a region, beside what is put, was authored here, with these bytes. -/
def LeafState.AllOwn (s : LeafState) (region : String) (adding : Payload) : Prop :=
  ∀ x item, (s.cache.itemsOf region).lookup x = some item → adding.lookup item.id = none →
    ⟨region, item.id, item.content⟩ ∈ s.authored

namespace LeafState

/-- What is asked of a `put`, region after region. -/
def PutClear (entries : List (Entry V)) (version : ℤ) (authority channel : String) : List String → LeafState → Prop
  | [], _ => True
  | region :: rest, s => s.AllOwn region (grouped leaf entries region) ∧ s.Adopted region ∧
      ∀ s', s.putRegion K leaf entries version authority channel region = some s' →
        PutClear entries version authority channel rest s'

/-- A `put` signs regions of which the index has nothing but this node's own, a `revise` a region in which nothing else
was authored; and an import leaves what was authored here attested. -/
def Clear (s : LeafState) : LeafEvent V → Prop
  | .put entries version authority channel =>
    PutClear K leaf entries version authority channel (regionsOf leaf entries) (s.noted leaf entries)
  | .revise root content vec _ _ _ =>
    s.cache.hasVersion root = true →
      (∀ a ∈ s.authored, a.region = leaf.route vec → a.id = revisionId K root content) ∧
        (s.revising K leaf root content vec).Adopted (leaf.route vec)
  | .importShard m items =>
    (∃ N', s.cache.node.importShard K m items = .ok N') →
      ∀ a ∈ s.authored, a.region = m.regionId → Attests leaf m a.id
  | .adopt _ _ => True
  | .hydrate _ => True

end LeafState

end Sound

variable {entries : List (Entry V)}

section Steps

variable {V : Type} {K : Signing} {leaf : Leaf V} {s s' : LeafState}

theorem MeshNode.KeepsItems.refl (N : MeshNode) : N.KeepsItems N := fun _ sh _ hsh hx => ⟨sh, hsh, hx⟩

theorem MeshNode.KeepsItems.trans {N N₁ N₂ : MeshNode} (h : N.KeepsItems N₁) (h' : N₁.KeepsItems N₂) :
    N.KeepsItems N₂ := by
  intro r sh x hsh hx
  obtain ⟨sh₁, hsh₁, hx₁⟩ := h r sh x hsh hx
  exact h' r sh₁ x hsh₁ hx₁

theorem LeafState.Sound.grows (hs : s.Sound K leaf) {C : LocalCache} (h : s.cache.Grows C) :
    LeafState.Sound K leaf { s with cache := C } where
  signed := hs.signed
  attested := by
    intro a ha
    obtain ⟨sh, hsh, hrow⟩ := hs.attested a ha
    exact ⟨sh, by rw [h.node]; exact hsh, hrow⟩
  indexed := fun a ha => h.kept (hs.indexed a ha)
  keyed := h.keyed hs.keyed

theorem publish_some {attest : Table String Attested} (h : s.publish K region adding v a attest = some s') : ∃ m,
      m.regionId = region ∧ m.items = (s.cache.regionPayload region adding).toPairs.map (shardItem K attest) ∧
      s' = { cache := { s.cache with node := s.cache.node.hold region ⟨m, s.cache.regionPayload region adding⟩ }
             authored := s.authored ++ adding.toPairs.map fun e => ⟨region, e.1, e.2⟩
             signed := s.signed ++ [m] } := by
  unfold LeafState.publish at h
  cases hp : s.cache.node.putShard K region (s.cache.regionPayload region adding) v a attest with
  | error e =>
    rw [hp] at h
    cases h
  | ok node =>
    rw [hp] at h
    obtain ⟨m, hr, -, hitems, -, rfl⟩ := putShard_ok hp
    refine ⟨m, hr, hitems, ?_⟩
    rw [← Option.some.inj h]
    unfold MeshNode.hold
    rw [Table.lookup_insert_of, if_pos rfl]
    rfl

/-- **One region that is signed again**: what is attested is what was authored, and everything held is signed again. -/
theorem publish_sound (hs : s.Sound K leaf) {attest : Table String Attested}
    (h : s.publish K region adding v a attest = some s')
    (hself : ∀ x t, attest.lookup x = some t → t.origin = leaf.selfOrigin)
    (hown : ∀ x c, (s.cache.regionPayload region adding).lookup x = some c → (attest.lookup x).isSome = true →
      adding.lookup x = some c ∨ ⟨region, x, c⟩ ∈ s.authored)
    (hall : ∀ a ∈ s.authored, a.region = region → (attest.lookup a.id).isSome = true)
    (hadd : ∀ x, (adding.lookup x).isSome = true →
      (attest.lookup x).isSome = true ∧ ((s.cache.itemsOf region).lookup x).isSome = true) (hkept : s.Adopted region) :
    s'.Sound K leaf ∧ s.cache.node.KeepsItems s'.cache.node := by
  obtain ⟨m, hr, hitems, rfl⟩ := publish_some h
  -- the row of an item that is attested
  have hrow : ∀ x, ((s.cache.itemsOf region).lookup x).isSome = true → (attest.lookup x).isSome = true →
      Attests leaf m x := by
    intro x hx hat
    obtain ⟨c, hc⟩ := Option.isSome_iff_exists.mp (@regionPayload_isSome s.cache region x adding hs.keyed hx)
    obtain ⟨t, ht⟩ := Option.isSome_iff_exists.mp hat
    refine ⟨shardItem K attest (x, c), ?_, rfl, ?_⟩
    · rw [hitems]
      exact List.mem_map_of_mem (Table.mem_toPairs.mpr hc)
    · unfold shardItem
      dsimp only
      rw [ht]
      exact hself x t ht
  have hadded : ∀ e ∈ adding.toPairs, (adding.lookup e.1).isSome = true := fun e he => by
    rw [Table.mem_toPairs.mp he]
    rfl
  refine ⟨⟨?_, ?_, ?_, hs.keyed⟩, ?_⟩
  · intro m' hm' row hrow' horigin
    rcases List.mem_append.mp hm' with hold | hnew
    · obtain ⟨c, hc, hhash⟩ := hs.signed m' hold row hrow' horigin
      exact ⟨c, List.mem_append_left _ hc, hhash⟩
    · obtain rfl := List.mem_singleton.mp hnew
      rw [hitems] at hrow'
      obtain ⟨e, he, rfl⟩ := List.mem_map.mp hrow'
      have hat : (attest.lookup e.1).isSome = true := by
        rw [Option.isSome_iff_ne_none]
        intro hnone
        unfold shardItem at horigin
        rw [hnone] at horigin
        exact leaf.self_ne horigin.symm
      refine ⟨e.2, ?_, rfl⟩
      rw [hr]
      rcases hown e.1 e.2 (Table.mem_toPairs.mp he) hat with hnew | hold
      · exact List.mem_append_right _ (List.mem_map_of_mem (f := fun e => Authored.mk region e.1 e.2)
          (Table.mem_toPairs.mpr hnew))
      · exact List.mem_append_left _ hold
  · intro a ha
    have hcase : (a.region = region → Attests leaf m a.id) ∧ (a.region ≠ region → a ∈ s.authored) := by
      rcases List.mem_append.mp ha with hold | hnew
      · exact ⟨fun he => hrow a.id (he ▸ hs.indexed a hold) (hall a hold he), fun _ => hold⟩
      · obtain ⟨e, he, rfl⟩ := List.mem_map.mp hnew
        exact ⟨fun _ => hrow e.1 (hadd e.1 (hadded e he)).2 (hadd e.1 (hadded e he)).1, fun hne => absurd rfl hne⟩
    dsimp only
    unfold MeshNode.hold
    rw [Table.lookup_insert_of]
    split_ifs with he
    · exact ⟨_, rfl, hcase.1 he⟩
    · exact hs.attested a (hcase.2 he)
  · intro a ha
    rcases List.mem_append.mp ha with hold | hnew
    · exact hs.indexed a hold
    · obtain ⟨e, he, rfl⟩ := List.mem_map.mp hnew
      exact (hadd e.1 (hadded e he)).2
  · intro r sh x hsh hx
    dsimp only
    unfold MeshNode.hold
    rw [Table.lookup_insert_of]
    split_ifs with he
    · subst he
      exact ⟨_, rfl, regionPayload_isSome hs.keyed (hkept sh x hsh hx)⟩
    · exact ⟨sh, hsh, hx⟩

theorem grouped_isSome {entries : List (Entry V)} {region x : String}
    (h : ((LeafState.grouped leaf entries region).lookup x).isSome = true) :
    ∃ e ∈ entries, leaf.route e.vec = region ∧ e.id = x := by
  obtain ⟨c, hc⟩ := Option.isSome_iff_exists.mp h
  rcases foldl_insert_cases _ _ hc with ⟨e, he, hid, -⟩ | ⟨-, hnone⟩
  · exact ⟨e, List.mem_of_mem_filter he, by simpa using List.of_mem_filter he, hid⟩
  · cases hnone

def LeafState.Indexed (leaf : Leaf V) (entries : List (Entry V)) (C : LocalCache) : Prop :=
  ∀ e ∈ entries, ((C.itemsOf (leaf.route e.vec)).lookup e.id).isSome = true

theorem noted_indexed (leaf : Leaf V) : ∀ (entries : List (Entry V)) (C : LocalCache),
    LeafState.Indexed leaf entries
      (entries.foldl (fun C e => C.note (Item.make e.id e.content (leaf.route e.vec) e.id)) C) := by
  intro entries
  induction entries with
  | nil => exact fun C e he => absurd he List.not_mem_nil
  | cons e entries ih =>
    intro C e' he'
    rcases List.mem_cons.mp he' with rfl | hmem
    · refine (grows_foldl (fun _ _ => grows_note _) entries _).kept ?_
      exact note_make C e'.id e'.content (leaf.route e'.vec) e'.id
    · exact ih _ e' hmem

theorem putRegion_sound (hs : s.Sound K leaf) {entries : List (Entry V)} {v : ℤ} {a ch region : String}
    (hindexed : LeafState.Indexed leaf entries s.cache) (hown : s.AllOwn region (LeafState.grouped leaf entries region))
    (hkept : s.Adopted region) (h : s.putRegion K leaf entries v a ch region = some s') :
    s'.Sound K leaf ∧ s.cache.node.KeepsItems s'.cache.node := by
  have hattest : ∀ x, ((s.cache.itemsOf region).lookup x).isSome = true →
      ((attestAll (s.cache.regionPayload region (LeafState.grouped leaf entries region)).keys
        ⟨leaf.selfOrigin, ch⟩).lookup x).isSome = true := fun x hx =>
    attestAll_isSome (AList.lookup_isSome.mp (regionPayload_isSome hs.keyed hx))
  refine publish_sound hs h (fun x t ht => by rw [attestAll_some ht]) (fun x c hc _ => ?_) (fun a ha he => ?_)
    (fun x hx => ?_) hkept
  · rcases regionPayload_cases hc with hadd | ⟨hnone, y, item, hitem, rfl, rfl⟩
    · exact .inl hadd
    · exact .inr (hown y item hitem hnone)
  · exact hattest a.id (he ▸ hs.indexed a ha)
  · obtain ⟨e, he, rfl, rfl⟩ := grouped_isSome hx
    exact ⟨hattest e.id (hindexed e he), hindexed e he⟩

theorem putRegions_sound {entries : List (Entry V)} {v : ℤ} {a ch : String} : ∀ (regions : List String) (s : LeafState),
    s.Sound K leaf → LeafState.Indexed leaf entries s.cache → LeafState.PutClear K leaf entries v a ch regions s →
      (LeafState.putRegions K leaf entries v a ch regions s).Sound K leaf ∧
        s.cache.node.KeepsItems (LeafState.putRegions K leaf entries v a ch regions s).cache.node := by
  intro regions
  induction regions with
  | nil => exact fun s hs _ _ => ⟨hs, MeshNode.KeepsItems.refl _⟩
  | cons region rest ih =>
    intro s hs hindexed hclear
    obtain ⟨hown, hkept, hrest⟩ := hclear
    unfold LeafState.putRegions
    cases hp : s.putRegion K leaf entries v a ch region with
    | none => exact ⟨hs, MeshNode.KeepsItems.refl _⟩
    | some s₁ =>
      obtain ⟨hs₁, hkeep₁⟩ := putRegion_sound hs hindexed hown hkept hp
      -- signing a region leaves the index
      have hindexed₁ : LeafState.Indexed leaf entries s₁.cache := by
        obtain ⟨m, -, -, rfl⟩ := publish_some hp
        exact hindexed
      obtain ⟨hs₂, hkeep₂⟩ := ih s₁ hs₁ hindexed₁ (hrest s₁ hp)
      exact ⟨hs₂, hkeep₁.trans hkeep₂⟩

theorem put_sound (hs : s.Sound K leaf) {entries : List (Entry V)} {v : ℤ} {a ch : String}
    (hclear : s.Clear K leaf (.put entries v a ch)) :
    (s.put K leaf entries v a ch).Sound K leaf ∧ s.cache.node.KeepsItems (s.put K leaf entries v a ch).cache.node := by
  have hgrows : s.cache.Grows (s.noted leaf entries).cache := grows_foldl (fun _ _ => grows_note _) entries _
  have hput := putRegions_sound (LeafState.regionsOf leaf entries) (s.noted leaf entries) (hs.grows hgrows)
    (noted_indexed leaf entries s.cache) hclear
  rw [hgrows.node] at hput
  exact hput

theorem revise_sound (hs : s.Sound K leaf) {root : String} {content : Bytes} {vec : V}
    (hclear : s.Clear K leaf (.revise root content vec v a ch)) :
    (s.revise K leaf root content vec v a ch).Sound K leaf ∧
      s.cache.node.KeepsItems (s.revise K leaf root content vec v a ch).cache.node := by
  unfold LeafState.revise
  split_ifs with hroot
  swap
  · exact ⟨hs, MeshNode.KeepsItems.refl _⟩
  obtain ⟨honly, hkept⟩ := hclear hroot
  have hnoted : (s.revising K leaf root content vec).Sound K leaf := hs.grows (grows_note _)
  cases hp : (s.revising K leaf root content vec).publish K (leaf.route vec)
      ((∅ : Payload).insert (LeafState.revisionId K root content) content) v a
      ((∅ : Table String Attested).insert (LeafState.revisionId K root content) ⟨leaf.selfOrigin, ch⟩) with
  | none => exact ⟨hnoted, MeshNode.KeepsItems.refl _⟩
  | some s₁ =>
    have hpublished : s₁.Sound K leaf ∧ (s.revising K leaf root content vec).cache.node.KeepsItems s₁.cache.node := by
      refine publish_sound hnoted hp (fun x t ht => ?_) (fun x c hc hx => ?_) (fun b hb he => ?_) (fun x hx => ?_) hkept
      · rw [Table.lookup_insert_of] at ht
        split_ifs at ht
        · rw [← Option.some.inj ht]
        · cases ht
      · -- only the new version is attested
        rcases regionPayload_cases hc with hadd | ⟨hnone, -⟩
        · exact .inl hadd
        · rw [Table.lookup_insert_of] at hx hnone
          split_ifs at hx hnone
          cases hx
      · rw [honly b hb he, Table.lookup_insert_of, if_pos rfl]
        rfl
      · have hx' : x = LeafState.revisionId K root content := by
          rw [Table.lookup_insert_of] at hx
          split_ifs at hx with hx'
          · exact hx'
          · cases hx
        rw [Table.lookup_insert_of, if_pos hx', hx']
        exact ⟨rfl, note_make s.cache _ content (leaf.route vec) root⟩
    exact hpublished

theorem importShard_sound (hs : s.Sound K leaf) {m : Manifest} {items : Option Payload}
    (hclear : s.Clear K leaf (.importShard m items)) : (s.importShard K m items).Sound K leaf := by
  unfold LeafState.importShard
  cases hi : s.cache.node.importShard K m items with
  | error e => exact hs
  | ok N' =>
    refine ⟨hs.signed, fun a ha => ?_, hs.indexed, hs.keyed⟩
    obtain ⟨p, -, -, -, rfl⟩ := importShard_ok hi
    dsimp only
    unfold MeshNode.hold
    rw [Table.lookup_insert_of]
    split_ifs with hr
    · exact ⟨_, rfl, hclear ⟨_, hi⟩ a ha hr⟩
    · exact hs.attested a ha

theorem leafStep_sound (hs : s.Sound K leaf) (e : LeafEvent V) (hclear : s.Clear K leaf e) :
    (s.step K leaf e).Sound K leaf := by
  cases e with
  | put entries v a ch => exact (put_sound hs hclear).1
  | revise root content vec v a ch => exact (revise_sound hs hclear).1
  | importShard m items => exact importShard_sound hs hclear
  | adopt region items => exact hs.grows (adopt_grows region items)
  | hydrate roots => exact hs.grows (hydrate_grows roots)

end Steps

/-! ### Runs -/

section Runs

variable {V : Type}

/-- A cache that holds nothing. -/
def LeafState.fresh : LeafState := ⟨⟨⟨∅⟩, ∅⟩, [], []⟩

def LeafState.run (K : Signing) (leaf : Leaf V) (events : List (LeafEvent V)) : LeafState :=
  events.foldl (LeafState.step K leaf) .fresh

/-- A put or a revision. -/
def LeafEvent.Writes : LeafEvent V → Prop
  | .put .. => True
  | .revise .. => True
  | _ => False

/-- In every state that is reached: what is signed as this node's own is what was authored here, and the next put or
revision drops nothing that is held. -/
def LeafAttests (K : Signing) (leaf : Leaf V) (events : List (LeafEvent V)) : Prop :=
  ∀ before after, events = before ++ after →
    (LeafState.run K leaf before).SignsOwn K leaf ∧ (LeafState.run K leaf before).KeepsOwn leaf ∧
      ∀ e rest, after = e :: rest → e.Writes →
        (LeafState.run K leaf before).cache.node.KeepsItems ((LeafState.run K leaf before).step K leaf e).cache.node

/-- **A leaf attests as its own what it authored, and drops nothing**, in every run whose events are clear. -/
theorem leaf_attests (K : Signing) (leaf : Leaf V) (events : List (LeafEvent V))
    (hclear : Along (LeafState.step K leaf) (LeafState.Clear K leaf) .fresh events) : LeafAttests K leaf events := by
  intro before after hsplit
  subst hsplit
  obtain ⟨hbefore, hafter⟩ := along_append before after _ hclear
  have hfresh : LeafState.fresh.Sound K leaf :=
    ⟨fun m hm => absurd hm List.not_mem_nil, fun a ha => absurd ha List.not_mem_nil,
      fun a ha => absurd ha List.not_mem_nil, fun r x item hitem => nomatch hitem⟩
  have hmid : (LeafState.run K leaf before).Sound K leaf :=
    along_inv (fun (s : LeafState) e (hs : s.Sound K leaf) hc => leafStep_sound hs e hc) before _ hfresh hbefore
  refine ⟨hmid.signed, hmid.attested, fun e rest he hw => ?_⟩
  subst he
  cases e with
  | put entries v a ch => exact (put_sound hmid hafter.1).2
  | revise root content vec v a ch => exact (revise_sound hmid hafter.1).2
  | importShard m items => exact hw.elim
  | adopt region items => exact hw.elim
  | hydrate roots => exact hw.elim

end Runs

def cellLeaf : Leaf String := ⟨id, "self", by decide⟩

def putNote : LeafEvent String := .put [⟨"x", [1], "r"⟩] 1 "a" "typed"

theorem revision_disowns : ¬ ∀ (K : Signing) (V : Type) (leaf : Leaf V) (events : List (LeafEvent V)),
    LeafAttests K leaf events := by
  intro h
  obtain ⟨-, hkeeps, -⟩ := h (plainSigning []) String cellLeaf [putNote, .revise "x" [2] "r" 2 "a" "typed"] _ []
    (List.append_nil _).symm
  have hauthored : (LeafState.run (plainSigning []) cellLeaf [putNote, .revise "x" [2] "r" 2 "a" "typed"]).authored.map
      (fun a => (a.region, a.id)) = [("r", "x"), ("r", "x~02")] := by decide +kernel
  have hrows : ((LeafState.run (plainSigning []) cellLeaf [putNote, .revise "x" [2] "r" 2 "a" "typed"]).cache.node.shards.lookup
      "r").map (fun s => s.manifest.items.any fun row => row.id = "x" ∧ row.origin = "self") = some false := by
    decide +kernel
  obtain ⟨a, ha, hpair⟩ := List.mem_map.mp (hauthored ▸ List.mem_cons_self .. :
    ("r", "x") ∈ (LeafState.run (plainSigning []) cellLeaf [putNote, .revise "x" [2] "r" 2 "a" "typed"]).authored.map
      fun a => (a.region, a.id))
  obtain ⟨sh, hsh, row, hrow, hid, horigin⟩ := hkeeps a ha
  rw [show a.region = "r" from congrArg Prod.fst hpair] at hsh
  rw [show a.id = "x" from congrArg Prod.snd hpair] at hid
  rw [hsh] at hrows
  have := List.any_eq_false.mp (Option.some.inj hrows) row hrow
  exact this (by simp [hid, show row.origin = "self" from horigin])

theorem leaf_attests_putNote : LeafAttests (plainSigning []) cellLeaf [putNote] := by
  refine leaf_attests (plainSigning []) cellLeaf [putNote] ⟨?_, trivial⟩
  have hregions : LeafState.regionsOf cellLeaf [⟨"x", [1], "r"⟩] = ["r"] := by decide
  unfold putNote LeafState.Clear
  dsimp only
  rw [hregions]
  refine ⟨fun x item hitem hnone => ?_, fun sh x hsh => (nomatch hsh), fun _ _ => trivial⟩
  change ((LeafState.fresh.cache.note (Item.make "x" [1] "r" "x")).itemsOf "r").lookup x = some item at hitem
  rw [itemsOf_note, if_pos (show "r" = (Item.make "x" [1] "r" "x").region from rfl), Table.lookup_insert_of] at hitem
  split_ifs at hitem
  · -- the only item of the region is the one that is put
    rw [← Option.some.inj hitem] at hnone
    exact absurd hnone (by decide)
  · cases hitem

end Shard

end Mantle
