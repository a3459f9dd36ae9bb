import Mathlib.Data.String.Basic
import Mantle.Base.Paging
import Mantle.Db.Held
import Mantle.Mesh.Consume
import Mantle.Mesh.Segment

/-!
# Mantle.Mesh.Demand — the demand cache of a limited node (`mesh/demand.py`)

A row that is reached gets an entry with a mass, and a sweep evicts the rows with the coldest entries.  Of masses and
clock readings nothing is asked but an order, a one and a sum.
-/

namespace Mantle

open Paging Tx

variable {db : Store} {edges items : List Doc} {ids : List String} {me : String} {n' : Node}

variable {a : Act} {id x : String}

/-- A node with its demand cache. -/
structure Ember (M T : Type) where
  node : Node
  demand : Table String (M × T)

/-- A reading of the clock, with what a mass taken at an earlier reading has decayed to by now (`_now`,
`_tau`, `_cool`). -/
structure Reading (M T : Type) where
  now : T
  cooled : M → T → M

section Code

variable {M T : Type} [LinearOrder M] [One M] [Add M]

namespace Ember

/-- `get_artifact(id) is not None`. -/
def holds (s : Ember M T) (id : String) : Bool := (s.node.db.vertex.lookup id).isSome

/-- `touch`: the mass decays to now and gains one. -/
def touch (c : Reading M T) (s : Ember M T) (id : String) : Ember M T :=
  if s.holds id then
    let mass := match s.demand.lookup id with
      | some d => c.cooled d.1 d.2 + 1
      | none => 1
    { s with demand := s.demand.insert id (mass, c.now) }
  else s

/-- `_PAGE`, and `DEMAND_PAGE` of the store. -/
def demandPage : ℕ := 5000

/-- The ids of the demand cache, read in keyset pages (`demand_page` from `after=""`). -/
def demandIds (s : Ember M T) : List String :=
  walk s.demand.sortedKeys demandPage (s.demand.sortedKeys.length + 1) (some "")

def demandCount (s : Ember M T) : ℕ := s.demandIds.length

/-- Coldest first. -/
def colder (a b : M × String) : Prop := a.1 < b.1 ∨ a.1 = b.1 ∧ a.2 ≤ b.2

instance : DecidableRel (colder : M × String → M × String → Prop) :=
  fun a b => inferInstanceAs (Decidable (a.1 < b.1 ∨ a.1 = b.1 ∧ a.2 ≤ b.2))

/-- Every entry with its mass decayed to now. -/
def scored (c : Reading M T) (s : Ember M T) : List (M × String) :=
  s.demandIds.filterMap fun id => (s.demand.lookup id).map fun d => (c.cooled d.1 d.2, id)

/-- The ids a sweep takes: `scored[:max(0, len(scored) - budget)]`. -/
def victims (c : Reading M T) (s : Ember M T) (budget : ℤ) : List String :=
  (((s.scored c).insertionSort colder).take ((s.scored c).length - budget).toNat).map Prod.snd

/-- A statement against the store: what it deletes loses its entry in the same transaction. -/
def does (s : Ember M T) (a : Act) : Ember M T :=
  match exec a s.node with
  | .ok _ n' => ⟨n', s.demand.eraseIf fun id => id ∈ a.deletes⟩
  | .error _ n' => ⟨n', s.demand⟩

def evictAll : List String → Ember M T → Ember M T
  | [], s => s
  | id :: ids, s =>
    match exec (.evictArtifact id) s.node with
    | .ok .. => evictAll ids (s.does (.evictArtifact id))
    | .error .. => s.does (.evictArtifact id)

def evict (c : Reading M T) (s : Ember M T) (budget : ℤ) : Ember M T :=
  if (s.demandCount : ℤ) ≤ budget then s else evictAll (s.victims c budget) s

/-! ### Reaching -/

/-- What a candidate's leaf gave: nothing that could be read, or its records. -/
structure Try where
  node : String
  leaf : Option (List Doc)

/-- The touches of a successful reach, in order: the replicated records of the leaf, the id itself, the
candidate's own artifact. -/
def reached (id : String) (t : String) (items : List Doc) : List String :=
  ((items.filter fun d => (d.get "id").truthy && isReplicated (d.get "content_type")).map
    fun d => (d.get "id").pyStr) ++ [id, t]

def touchAll (c : ℕ → Reading M T) (s : Ember M T) (ids : List String) : Ember M T :=
  ids.zipIdx.foldl (fun s e => s.touch (c e.2) e.1) s

/-- The candidates, one after the other; `tried` counts the leaves that could be read. -/
def reachTries (float : String → Flt) (c : ℕ → Reading M T) (id : String) (maxPublishers : ℤ) :
    ℕ → List Try → Ember M T → Ember M T
  | _, [], s => s
  | tried, ⟨_, none⟩ :: tries, s => reachTries float c id maxPublishers tried tries s
  | tried, ⟨peer, some items⟩ :: tries, s =>
    match applySegment float items items s.node with
    | .error _ n' => { s with node := n' }
    | .ok _ n' =>
      let s' : Ember M T := { s with node := n' }
      if s'.holds id then s'.touchAll c (reached id peer items)
      else if (tried + 1 : ℤ) ≥ maxPublishers then s'
      else reachTries float c id maxPublishers (tried + 1) tries s'

/-- `reach_index`; the candidates and what their leaves hold come from outside. -/
def reachIndex (float : String → Flt) (c : ℕ → Reading M T) (s : Ember M T) (id : String) (maxPublishers : ℤ)
    (tries : List Try) : Ember M T :=
  if s.holds id then s.touch (c 0) id else reachTries float c id maxPublishers 0 tries s

def resolve (float : String → Flt) (c : ℕ → Reading M T) (s : Ember M T) (id : String) (reach : Bool)
    (tries : List Try) : Ember M T :=
  if s.holds id then s.touch (c 0) id
  else if reach then s.reachIndex float c id 4 tries
  else s

/-- Whatever happens to a limited node: a local statement, a segment of a peer, a read that reaches, a
sweep. -/
inductive Deed (M T : Type)
  | act (a : Act)
  | consume (items edges : List Doc)
  | reachIndex (c : ℕ → Reading M T) (id : String) (maxPublishers : ℤ) (tries : List Try)
  | resolve (c : ℕ → Reading M T) (id : String) (reach : Bool) (tries : List Try)
  | evict (c : Reading M T) (budget : ℤ)

def deed (float : String → Flt) (s : Ember M T) : Deed M T → Ember M T
  | .act a => s.does a
  | .consume items edges => { s with node := s.node.applied float items edges }
  | .reachIndex c id maxPublishers tries => s.reachIndex float c id maxPublishers tries
  | .resolve c id reach tries => s.resolve float c id reach tries
  | .evict c budget => s.evict c budget

def run (float : String → Flt) (s : Ember M T) (deeds : List (Deed M T)) : Ember M T :=
  deeds.foldl (Ember.deed float) s

def fresh (origin : Origin) (leaves : ℕ+) : Ember M T := ⟨Node.fresh origin leaves, ∅⟩

end Ember

end Code

/-! ### When no own row gets an entry -/

section Clear

variable {M T : Type} (me : String) (s : Ember M T)

def Ember.Entry (id : String) : Prop := (s.demand.lookup id).isSome

/-- No row of this origin lies under the id. -/
def Ember.Foreign (id : String) : Prop := ∀ r, s.node.db.vertex.lookup id = some r → r.origin ≠ me

/-- A statement writes nothing under this origin where there is an entry, unless it deletes the row as
well. -/
def Ember.ActClear (a : Act) : Prop :=
  ∀ id, id ∈ a.stamps ∨ (id, me) ∈ a.carries → s.Entry id → id ∈ a.deletes

/-- The rows an apply writes for itself are under names of their own. -/
def Ember.ApplyClear : Prop := ∀ id ∈ opIds, opOrigin id = me → ¬s.Entry id

variable [LinearOrder M] [One M] [Add M]

def Ember.TriesClear (float : String → Flt) (id : String) (maxPublishers : ℤ) :
    ℕ → List Ember.Try → Ember M T → Prop
  | _, [], _ => True
  | tried, ⟨_, none⟩ :: tries, s => Ember.TriesClear float id maxPublishers tried tries s
  | tried, ⟨peer, some items⟩ :: tries, s =>
    s.ApplyClear me ∧
      match applySegment float items items s.node with
      | .error .. => True
      | .ok _ n' =>
        let s' : Ember M T := { s with node := n' }
        if s'.holds id then ∀ x ∈ Ember.reached id peer items, s'.Foreign me x
        else (tried + 1 : ℤ) ≥ maxPublishers ∨
          Ember.TriesClear float id maxPublishers (tried + 1) tries s'

/-- No read touches a row of this origin, and no write brings one under an entry that is there. -/
def Ember.Clear (float : String → Flt) : Ember.Deed M T → Prop
  | .act a => s.ActClear me a
  | .consume .. => s.ApplyClear me
  | .reachIndex _ id maxPublishers tries =>
    s.Foreign me id ∧ (s.holds id = false → Ember.TriesClear me float id maxPublishers 0 tries s)
  | .resolve _ id reach tries =>
    s.Foreign me id ∧ (s.holds id = false → reach = true → Ember.TriesClear me float id 4 0 tries s)
  | .evict .. => True

def Ember.RunClear (float : String → Flt) : Ember M T → List (Ember.Deed M T) → Prop
  | _, [] => True
  | s, d :: deeds => s.Clear me float d ∧ Ember.RunClear float (s.deed float d) deeds

end Clear

/-! ### Entries and the rows they name -/

section Says

variable {M T : Type} {s : Ember M T} {Q : Option String → Prop}

/-- Something is true of the origin of every row that has an entry. -/
def Ember.Says (s : Ember M T) (Q : Option String → Prop) : Prop :=
  ∀ id, s.Entry id → s.node.db.OriginAt Q id

def SomeRow (o : Option String) : Prop := o.isSome = true

def OtherRow (me : String) (o : Option String) : Prop := ∃ x, o = some x ∧ x ≠ me

theorem originAt_someRow :
    db.OriginAt SomeRow id ↔ (db.vertex.lookup id).isSome = true := by
  simp [Store.OriginAt, SomeRow]

theorem originAt_otherRow (h : db.OriginAt (OtherRow me) id) {r : VRow} (hr : db.vertex.lookup id = some r) :
    r.origin ≠ me := by
  obtain ⟨x, hx, hne⟩ := h
  rw [hr] at hx
  cases hx
  exact hne

theorem Ember.entry_does (h : (s.does a).Entry id) : s.Entry id := by
  unfold Ember.Entry Ember.does at *
  split at h
  · rw [Table.lookup_eraseIf] at h
    split_ifs at h
    · cases h
    · exact h
  · exact h

theorem Ember.Says.does (h : s.Says Q) (hnone : ¬Q none) (hi : s.node.inTxn = false)
    (hallows : ∀ id, s.Entry id → id ∉ a.deletes → a.Allows Q id) : (s.does a).Says Q := by
  intro id hentry
  have hbefore := Ember.entry_does hentry
  have hkeeps := fun hd => originAt_exec (fun hq => absurd hq hnone) a s.node (hallows id hbefore hd)
  unfold Ember.Entry Ember.does at hentry
  unfold Ember.does
  cases hr : exec a s.node with
  | ok u n' =>
    rw [hr] at hentry
    dsimp only at hentry ⊢
    rw [Table.lookup_eraseIf] at hentry
    by_cases hd : id ∈ a.deletes
    · rw [if_pos (decide_eq_true hd)] at hentry
      cases hentry
    · exact ((hkeeps hd).ended (.inl ⟨u, hr⟩) (h id hbefore) hi).1
  | error e n' =>
    dsimp only
    by_cases hd : id ∈ a.deletes
    · rw [Act.deletes_rolledBack (List.ne_nil_of_mem hd) hi hr]
      exact h id hbefore
    · exact ((hkeeps hd).ended (.inr ⟨e, hr⟩) (h id hbefore) hi).1

theorem originAt_segment (id : String) (hnone : Q none → id = "")
    (hop : ∀ op ∈ opIds, id = op → Q (some (opOrigin op))) (float : String → Flt) (items : List Doc) :
    SegmentKept (Store.OriginAt Q id) float items := by
  have hput : ∀ (op : String) (doc : Doc), op ∈ opIds → doc.get "id" = .str op → ∀ n,
      Keeps (Store.OriginAt Q id) (putOp doc) n := by
    intro op doc hmem hid n
    refine keeps_ite (fun _ => keeps_throw _ n) fun _ => ?_
    refine keeps_bind (originAt_putConsumed false ?_) fun _ n' _ _ => keeps_pure _ n'
    intro _ o ho
    obtain ⟨hid', ho'⟩ := mem_docOrigins.mp ho
    have hid₀ : (opDoc doc).get "id" = .str op := by
      unfold opDoc
      rw [Doc.get_set_of_ne _ _ (by decide), Doc.get_set_of_ne _ _ (by decide), hid]
    have ho₀ : (opDoc doc).get "_origin" = .str (opOrigin op) := by
      unfold opDoc
      rw [Doc.get_set_of_ne _ _ (by decide), Doc.get_set_self, hid]
      rfl
    rw [hid₀] at hid'
    rw [ho₀] at ho'
    cases ho'
    exact hop op hmem (Val.str.inj hid').symm
  exact {
    rows := fun docs n _ => keeps_bulk (originAt_rowRules Q id).seq fun doc _ m _ hi =>
      originAt_putOne hnone hi fun h => nomatch h
    declined := fun db newly => hput declinedId _ (by decide) rfl
    consumed := fun db ids => hput consumedId _ (by decide) rfl
    links := fun stamped n => keeps_addEdges (originAt_rowRules Q id).toEdgeRules stamped 500 false n }

theorem Ember.touch_node [LinearOrder M] [One M] [Add M] (c : Reading M T) (s : Ember M T) (x : String) :
    (s.touch c x).node = s.node := by
  unfold Ember.touch
  split_ifs <;> rfl

theorem Ember.entry_touch [LinearOrder M] [One M] [Add M] {c : Reading M T} (h : (s.touch c x).Entry id) :
    s.Entry id ∨ id = x ∧ s.holds x = true := by
  unfold Ember.Entry Ember.touch at *
  split_ifs at h with hx
  · rw [Table.lookup_insert_of] at h
    split_ifs at h with he
    · exact .inr ⟨he, hx⟩
    · exact .inl h
  · exact .inl h

theorem Ember.touchAll_node [LinearOrder M] [One M] [Add M] (c : ℕ → Reading M T) (s : Ember M T)
    (ids : List String) : (s.touchAll c ids).node = s.node := by
  unfold Ember.touchAll
  induction ids.zipIdx generalizing s with
  | nil => rfl
  | cons e es ih => rw [List.foldl_cons, ih, Ember.touch_node]

theorem Ember.entry_touchAll [LinearOrder M] [One M] [Add M] {c : ℕ → Reading M T}
    (h : (s.touchAll c ids).Entry id) : s.Entry id ∨ id ∈ ids ∧ s.holds id = true := by
  have hfold : ∀ (es : List (String × ℕ)) (s : Ember M T),
      (es.foldl (fun s e => s.touch (c e.2) e.1) s).Entry id →
      s.Entry id ∨ id ∈ es.map Prod.fst ∧ s.holds id = true := by
    intro es
    induction es with
    | nil => exact fun s h => .inl h
    | cons e es ih =>
      intro s h
      rcases ih _ h with h | ⟨hmem, hholds⟩
      · rcases Ember.entry_touch h with h | ⟨rfl, hx⟩
        · exact .inl h
        · exact .inr ⟨by simp, hx⟩
      · unfold Ember.holds at hholds ⊢
        rw [Ember.touch_node] at hholds
        exact .inr ⟨List.mem_cons_of_mem _ hmem, hholds⟩
  have := hfold ids.zipIdx s h
  rwa [List.zipIdx_map_fst] at this

end Says

/-! ### A sweep -/

section Sweep

variable {M T : Type} {s : Ember M T}

theorem Ember.evictOne (id : String) (hi : s.node.inTxn = false) :
    ∃ n', exec (.evictArtifact id) s.node = .ok ⟨⟩ n' ∧
      s.does (.evictArtifact id) = ⟨n', s.demand.eraseIf fun x => x ∈ [id]⟩ ∧
      n'.db.vertex = s.node.db.vertex.erase id ∧ n'.inTxn = false := by
  have h := evictArtifact_runs id hi
  unfold Runs at h
  unfold Ember.does
  have hexec : exec (.evictArtifact id) s.node = evictArtifact id s.node := rfl
  rw [hexec]
  cases hr : evictArtifact id s.node with
  | ok u n' =>
    rw [hr] at h
    exact ⟨n', rfl, rfl, h⟩
  | error e n' =>
    rw [hr] at h
    exact h.elim

/-- **The evictions of a sweep.** -/
theorem Ember.evictAll_spec : ∀ (ids : List String) (s : Ember M T), s.node.inTxn = false →
    (Ember.evictAll ids s).node.inTxn = false ∧
    (∀ x, (Ember.evictAll ids s).node.db.vertex.lookup x =
      if x ∈ ids then none else s.node.db.vertex.lookup x) ∧
    ∀ x, (Ember.evictAll ids s).demand.lookup x = if x ∈ ids then none else s.demand.lookup x
  | [], s, hi => ⟨hi, fun x => by simp [Ember.evictAll], fun x => by simp [Ember.evictAll]⟩
  | id :: ids, s, hi => by
    obtain ⟨n', hexec, hdoes, hv, hi'⟩ := Ember.evictOne (s := s) id hi
    obtain ⟨hidle, hrow, hentry⟩ := Ember.evictAll_spec ids ⟨n', s.demand.eraseIf fun x => x ∈ [id]⟩ hi'
    rw [Ember.evictAll, hexec, hdoes]
    refine ⟨hidle, fun x => ?_, fun x => ?_⟩
    · rw [hrow x, hv, Table.lookup_erase_of]
      by_cases hx : x ∈ ids
      · simp [hx]
      · by_cases he : x = id <;> simp [hx, he]
    · rw [hentry x, Table.lookup_eraseIf]
      by_cases hx : x ∈ ids
      · simp [hx]
      · by_cases he : x = id <;> simp [hx, he]

/-- What every reached state has: no open transaction, no row without a name, and a row for every entry. -/
structure Ember.Sound (s : Ember M T) : Prop where
  idle : s.node.inTxn = false
  named : s.node.db.OriginAt (· = none) ""
  held : s.Says SomeRow

theorem Ember.Sound.entry_ne (h : s.Sound) (hid : s.Entry id) : id ≠ "" := by
  rintro rfl
  have hrow := h.held "" hid
  have hnone := h.named
  unfold Store.OriginAt at hrow hnone
  rw [hnone] at hrow
  cases hrow

theorem empty_lt (h : id ≠ "") : "" < id := by
  rw [String.lt_iff_toList_lt]
  cases hl : id.toList with
  | nil => exact absurd (String.toList_eq_nil_iff.mp hl) h
  | cons c cs => exact List.nil_lt_cons c cs

theorem Ember.Sound.demandIds (h : s.Sound) : s.demandIds = s.demand.sortedKeys := by
  have hbeyond : beyond s.demand.sortedKeys (some "") = s.demand.sortedKeys := by
    unfold beyond
    rw [List.filter_eq_self]
    intro id hid
    exact decide_eq_true (empty_lt (h.entry_ne (Table.mem_sortedKeys.mp hid)))
  have hsorted : s.demand.sortedKeys.Pairwise (· < ·) := Table.sorted_keys s.demand
  unfold Ember.demandIds
  rw [walk_eq hsorted (by decide) _ _ (by rw [hbeyond]; exact Nat.lt_succ_self _), hbeyond]

theorem Table.length_sortedKeys {ρ : Type} (t : Table String ρ) : t.sortedKeys.length = t.keys.length := by
  unfold Table.sortedKeys
  rw [List.length_map, List.length_insertionSort]
  simp [Table.toPairs, AList.keys, List.keys]

theorem Ember.scored_ids (h : s.Sound) (c : Reading M T) :
    (s.scored c).map Prod.snd = s.demand.sortedKeys := by
  have hmap : ∀ ids : List String, (∀ id ∈ ids, s.Entry id) →
      (ids.filterMap fun id => (s.demand.lookup id).map fun d => (c.cooled d.1 d.2, id)).map Prod.snd = ids := by
    intro ids
    induction ids with
    | nil => exact fun _ => rfl
    | cons id ids ih =>
      intro hids
      obtain ⟨d, hd⟩ := Option.isSome_iff_exists.mp (hids id (by simp))
      rw [List.filterMap_cons, hd]
      simp only [Option.map_some, List.map_cons, ih fun x hx => hids x (by simp [hx])]
  unfold Ember.scored
  rw [h.demandIds]
  exact hmap _ fun id hid => Table.mem_sortedKeys.mp hid

theorem Ember.scored_length (h : s.Sound) (c : Reading M T) :
    (s.scored c).length = s.demand.keys.length := by
  rw [← List.length_map (f := Prod.snd), Ember.scored_ids h c, Table.length_sortedKeys]

variable [LinearOrder M]

theorem Ember.victims_spec (h : s.Sound) (c : Reading M T) (budget : ℤ) :
    (s.victims c budget).Nodup ∧ (∀ id ∈ s.victims c budget, s.Entry id) ∧
      (s.victims c budget).length = min (s.demand.keys.length - budget).toNat s.demand.keys.length := by
  have hperm : (((s.scored c).insertionSort Ember.colder).map Prod.snd).Perm s.demand.sortedKeys := by
    rw [← Ember.scored_ids h c]
    exact (List.perm_insertionSort _ _).map _
  have hsub : (s.victims c budget).Sublist (((s.scored c).insertionSort Ember.colder).map Prod.snd) :=
    (List.take_sublist _ _).map _
  refine ⟨?_, ?_, ?_⟩
  · refine hsub.nodup (hperm.nodup_iff.mpr ?_)
    exact (Table.sorted_keys s.demand).imp fun hlt => ne_of_lt hlt
  · exact fun id hid => Table.mem_sortedKeys.mp (hperm.subset (hsub.subset hid))
  · unfold Ember.victims
    rw [List.length_map, List.length_take, List.length_insertionSort, Ember.scored_length h c]

/-- **What a sweep leaves.** -/
theorem Ember.Sound.evict (h : s.Sound) (c : Reading M T) (budget : ℤ) :
    ∃ gone : List String, (∀ id ∈ gone, s.Entry id) ∧ gone.Nodup ∧
      s.demand.keys.length ≤ gone.length + (max budget 0).toNat ∧
      (s.evict c budget).node.inTxn = false ∧
      (∀ x, (s.evict c budget).node.db.vertex.lookup x =
        if x ∈ gone then none else s.node.db.vertex.lookup x) ∧
      ∀ x, (s.evict c budget).demand.lookup x = if x ∈ gone then none else s.demand.lookup x := by
  have hcount : s.demandCount = s.demand.keys.length := by
    unfold Ember.demandCount
    rw [h.demandIds, Table.length_sortedKeys]
  unfold Ember.evict
  split_ifs with hfits
  · refine ⟨[], by simp, List.nodup_nil, ?_, h.idle, by simp, by simp⟩
    rw [List.length_nil]
    omega
  · obtain ⟨hnodup, hentry, hlen⟩ := Ember.victims_spec h c budget
    obtain ⟨hidle, hrow, hent⟩ := Ember.evictAll_spec (s.victims c budget) s h.idle
    refine ⟨s.victims c budget, hentry, hnodup, ?_, hidle, hrow, hent⟩
    rw [hlen]
    omega

theorem Ember.Sound.evict_bounded (h : s.Sound) (c : Reading M T) (budget : ℤ) :
    ((s.evict c budget).demand.keys.length : ℤ) ≤ max budget 0 := by
  obtain ⟨gone, hgone, hnodup, hlen, -, -, hent⟩ := h.evict c budget
  have hleft : ∀ id, id ∈ (s.evict c budget).demand.keys → id ∉ gone ∧ s.Entry id := by
    intro id hid
    have hsome := AList.lookup_isSome.mpr (AList.mem_keys.mpr hid)
    rw [hent id] at hsome
    split_ifs at hsome with hg
    · cases hsome
    · exact ⟨hg, hsome⟩
  -- what is left and what is gone are different entries of the cache
  have hapart : ((s.evict c budget).demand.keys ++ gone).Nodup := by
    refine List.nodup_append.mpr ⟨(s.evict c budget).demand.keys_nodup, hnodup, ?_⟩
    rintro a ha b hb rfl
    exact (hleft a ha).1 hb
  have hsub : ((s.evict c budget).demand.keys ++ gone) ⊆ s.demand.keys := by
    intro id hid
    have hentry : s.Entry id := by
      rcases List.mem_append.mp hid with hid | hid
      · exact (hleft id hid).2
      · exact hgone id hid
    exact AList.mem_keys.mp (AList.lookup_isSome.mp hentry)
  have hle := (List.subperm_of_subset hapart hsub).length_le
  rw [List.length_append] at hle
  omega

end Sweep

/-! ### Every deed -/

section Deeds

variable {M T : Type} {s : Ember M T} {Q : Option String → Prop} {me : String}

theorem Ember.Says.applied (h : s.Says Q) (hnone : ¬Q none) (hi : s.node.inTxn = false)
    (hop : ∀ op ∈ opIds, s.Entry op → Q (some (opOrigin op))) {float : String → Flt}
    (hend : Ends (applySegment float items edges) s.node n') :
    ({ s with node := n' } : Ember M T).Says Q := by
  intro id hentry
  have hseg := originAt_segment id (fun hq => absurd hq hnone)
    (fun op hmem he => hop op hmem (he ▸ hentry)) float items
  exact ((hseg.applySegment edges s.node).ended hend (h id hentry) hi).1

theorem Ember.Sound.applied (h : s.Sound) {float : String → Flt}
    (hend : Ends (applySegment float items edges) s.node n') :
    ({ s with node := n' } : Ember M T).Sound := by
  have hseg := originAt_segment (Q := (· = none)) "" (fun _ => rfl)
    (fun op hmem he => absurd he (by rintro rfl; revert hmem; decide)) float items
  obtain ⟨hnamed, hidle⟩ := (hseg.applySegment edges s.node).ended hend h.named h.idle
  exact ⟨hidle, hnamed, h.held.applied (by simp [SomeRow]) h.idle (fun _ _ _ => rfl) hend⟩

theorem Ember.Sound.does (h : s.Sound) (a : Act) : (s.does a).Sound := by
  have hallows : a.Allows (· = none) "" :=
    ⟨fun _ => rfl, fun hne => absurd rfl hne, fun hne => absurd rfl hne⟩
  have hkeeps := originAt_exec (fun _ => rfl) a s.node hallows
  have hheld : (s.does a).Says SomeRow := by
    refine h.held.does (by simp [SomeRow]) h.idle fun id _ hd => ?_
    exact ⟨fun hmem => absurd hmem hd, fun _ _ _ => rfl, fun _ _ _ => rfl⟩
  have hnode : Ends (exec a) s.node (s.does a).node := by
    unfold Ember.does
    cases hr : exec a s.node with
    | ok u n' => exact .inl ⟨u, hr⟩
    | error e n' => exact .inr ⟨e, hr⟩
  obtain ⟨hnamed, hidle⟩ := hkeeps.ended hnode h.named h.idle
  exact ⟨hidle, hnamed, hheld⟩

theorem Ember.Says.does_clear (h : s.Says (OtherRow me)) (hi : s.node.inTxn = false) (hc : s.ActClear me a) :
    (s.does a).Says (OtherRow me) := by
  refine h.does (fun ⟨x, hx, _⟩ => nomatch hx) hi fun id hentry hd => ?_
  refine ⟨fun hmem => absurd hmem hd, fun _ hmem => ?_, fun _ o hmem => ⟨o, rfl, ?_⟩⟩
  · exact absurd (hc id (.inl hmem) hentry) hd
  · rintro rfl
    exact hd (hc id (.inr hmem) hentry)

variable [LinearOrder M]

theorem Ember.Says.evict (h : s.Says Q) (hs : s.Sound) (c : Reading M T) (budget : ℤ) :
    (s.evict c budget).Says Q := by
  obtain ⟨gone, -, -, -, -, hrow, hent⟩ := hs.evict c budget
  intro id hentry
  unfold Ember.Entry at hentry
  rw [hent id] at hentry
  split_ifs at hentry with hg
  · cases hentry
  · refine (h id hentry).congr ?_
    rw [hrow id, if_neg hg]

theorem Ember.Sound.evicted (h : s.Sound) (c : Reading M T) (budget : ℤ) : (s.evict c budget).Sound := by
  obtain ⟨gone, -, -, -, hidle, hrow, -⟩ := h.evict c budget
  refine ⟨hidle, ?_, h.held.evict h c budget⟩
  unfold Store.OriginAt
  rw [hrow ""]
  split_ifs
  · rfl
  · exact h.named

variable [One M] [Add M]

theorem Ember.Says.touchAll (h : s.Says Q) (c : ℕ → Reading M T)
    (hx : ∀ x ∈ ids, s.holds x = true → s.node.db.OriginAt Q x) : (s.touchAll c ids).Says Q := by
  intro id hentry
  rw [Ember.touchAll_node]
  rcases Ember.entry_touchAll hentry with hbefore | ⟨hmem, hholds⟩
  · exact h id hbefore
  · exact hx id hmem hholds

theorem Ember.Says.touch (h : s.Says Q) (c : Reading M T) (hx : s.holds x = true → s.node.db.OriginAt Q x) :
    (s.touch c x).Says Q := by
  intro id hentry
  rw [Ember.touch_node]
  rcases Ember.entry_touch hentry with hbefore | ⟨rfl, hholds⟩
  · exact h id hbefore
  · exact hx hholds

theorem Ember.Sound.touch (h : s.Sound) (c : Reading M T) (x : String) : (s.touch c x).Sound := by
  refine ⟨?_, ?_, h.held.touch c fun hholds => originAt_someRow.mpr hholds⟩
  · rw [Ember.touch_node]
    exact h.idle
  · rw [Ember.touch_node]
    exact h.named

theorem Ember.Sound.touchAll (h : s.Sound) (c : ℕ → Reading M T) (ids : List String) :
    (s.touchAll c ids).Sound := by
  refine ⟨?_, ?_, h.held.touchAll c fun x _ hholds => originAt_someRow.mpr hholds⟩
  · rw [Ember.touchAll_node]
    exact h.idle
  · rw [Ember.touchAll_node]
    exact h.named

omit [LinearOrder M] [One M] [Add M] in
theorem Ember.Foreign.originAt (h : s.Foreign me x) (hholds : s.holds x = true) :
    s.node.db.OriginAt (OtherRow me) x := by
  obtain ⟨r, hr⟩ := Option.isSome_iff_exists.mp hholds
  refine ⟨r.origin, ?_, h r hr⟩
  rw [hr]
  rfl

variable {float : String → Flt} {c : ℕ → Reading M T} {id : String} {maxPublishers : ℤ}

theorem Ember.Sound.reachTries : ∀ (tries : List Ember.Try) (tried : ℕ) (s : Ember M T), s.Sound →
    (Ember.reachTries float c id maxPublishers tried tries s).Sound
  | [], _, _, h => h
  | ⟨_, none⟩ :: tries, tried, s, h => Ember.Sound.reachTries tries tried s h
  | ⟨peer, some items⟩ :: tries, tried, s, h => by
    rw [Ember.reachTries]
    cases hr : applySegment float items items s.node with
    | error e n' => exact h.applied (.inr ⟨e, hr⟩)
    | ok u n' =>
      have hs' := h.applied (.inl ⟨u, hr⟩)
      dsimp only
      split_ifs
      · exact hs'.touchAll c _
      · exact hs'
      · exact Ember.Sound.reachTries tries (tried + 1) _ hs'

theorem Ember.Says.reachTries : ∀ (tries : List Ember.Try) (tried : ℕ) (s : Ember M T), s.Sound →
    s.Says (OtherRow me) → Ember.TriesClear me float id maxPublishers tried tries s →
    (Ember.reachTries float c id maxPublishers tried tries s).Says (OtherRow me)
  | [], _, _, _, h, _ => h
  | ⟨_, none⟩ :: tries, tried, s, hs, h, hc => Ember.Says.reachTries tries tried s hs h hc
  | ⟨peer, some items⟩ :: tries, tried, s, hs, h, hc => by
    rw [Ember.TriesClear] at hc
    obtain ⟨hclear, hc⟩ := hc
    have hsays : ∀ {n'}, Ends (applySegment float items items) s.node n' →
        ({ s with node := n' } : Ember M T).Says (OtherRow me) := by
      intro n' hend
      refine h.applied (fun ⟨x, hx, _⟩ => nomatch hx) hs.idle (fun op hmem hentry => ?_) hend
      exact ⟨opOrigin op, rfl, fun he => hclear op hmem he hentry⟩
    rw [Ember.reachTries]
    cases hr : applySegment float items items s.node with
    | error e n' => exact hsays (.inr ⟨e, hr⟩)
    | ok u n' =>
      have hs' := hs.applied (.inl ⟨u, hr⟩)
      have hsays' := hsays (.inl ⟨u, hr⟩)
      rw [hr] at hc
      dsimp only at hc ⊢
      split_ifs at hc ⊢ with hholds hmax
      · exact hsays'.touchAll c fun x hx => (hc x hx).originAt
      · exact hsays'
      · exact Ember.Says.reachTries tries (tried + 1) _ hs' hsays' (hc.resolve_left hmax)

theorem Ember.Sound.deed (h : s.Sound) (float : String → Flt) (d : Ember.Deed M T) :
    (s.deed float d).Sound := by
  cases d with
  | act a => exact h.does a
  | consume items edges => exact h.applied (s.node.applied_ends float items edges)
  | reachIndex c id maxPublishers tries =>
    change Ember.Sound (if s.holds id then _ else _)
    split_ifs
    · exact h.touch _ id
    · exact Ember.Sound.reachTries tries 0 s h
  | resolve c id reach tries =>
    change Ember.Sound (if s.holds id then _ else _)
    split_ifs with hholds hreach
    · exact h.touch _ id
    · unfold Ember.reachIndex
      rw [if_neg hholds]
      exact Ember.Sound.reachTries tries 0 s h
    · exact h
  | evict c budget => exact h.evicted c budget

theorem Ember.Says.deed (h : s.Says (OtherRow me)) (hs : s.Sound) {d : Ember.Deed M T}
    (hc : s.Clear me float d) : (s.deed float d).Says (OtherRow me) := by
  cases d with
  | act a => exact h.does_clear hs.idle hc
  | consume items edges =>
    refine h.applied (fun ⟨x, hx, _⟩ => nomatch hx) hs.idle (fun op hmem hentry => ?_)
      (s.node.applied_ends float items edges)
    exact ⟨opOrigin op, rfl, fun he => hc op hmem he hentry⟩
  | reachIndex c id maxPublishers tries =>
    obtain ⟨hforeign, hc⟩ := hc
    change Ember.Says (if s.holds id then _ else _) _
    split_ifs with hholds
    · exact h.touch _ hforeign.originAt
    · exact Ember.Says.reachTries tries 0 s hs h (hc (by simpa using hholds))
  | resolve c id reach tries =>
    obtain ⟨hforeign, hc⟩ := hc
    change Ember.Says (if s.holds id then _ else _) _
    split_ifs with hholds hreach
    · exact h.touch _ hforeign.originAt
    · unfold Ember.reachIndex
      rw [if_neg hholds]
      exact Ember.Says.reachTries tries 0 s hs h (hc (by simpa using hholds) hreach)
    · exact h
  | evict c budget => exact h.evict hs c budget

end Deeds

/-! ### Runs -/

section Runs

variable {M T : Type} [LinearOrder M] [One M] [Add M] (float : String → Flt)

omit [LinearOrder M] [One M] [Add M] in
theorem Ember.sound_fresh (origin : Origin) (leaves : ℕ+) : (Ember.fresh origin leaves : Ember M T).Sound :=
  ⟨rfl, rfl, fun _ h => nomatch h⟩

theorem Ember.sound_run : ∀ (deeds : List (Ember.Deed M T)) (s : Ember M T), s.Sound →
    (s.run float deeds).Sound
  | [], _, h => h
  | d :: deeds, s, h => Ember.sound_run deeds (s.deed float d) (h.deed float d)

theorem Ember.says_run : ∀ (deeds : List (Ember.Deed M T)) (s : Ember M T), s.Sound →
    s.Says (OtherRow me) → Ember.RunClear me float s deeds → (s.run float deeds).Says (OtherRow me)
  | [], _, _, h, _ => h
  | d :: deeds, s, hs, h, hc =>
    Ember.says_run deeds (s.deed float d) (hs.deed float d) (h.deed hs hc.1) hc.2

omit [One M] [Add M] in
theorem Ember.Sound.evict_entry {s : Ember M T} (h : s.Sound) (c : Reading M T) (hentry : s.Entry id) :
    (s.evict c 0).holds id = false := by
  have hbound := h.evict_bounded c 0
  have hnil : (s.evict c 0).demand.keys = [] := by
    refine List.length_eq_zero_iff.mp ?_
    omega
  obtain ⟨gone, -, -, -, -, hrow, hent⟩ := h.evict c 0
  have hgone : id ∈ gone := by
    by_contra hg
    have hsome := hent id
    rw [if_neg hg] at hsome
    unfold Ember.Entry at hentry
    rw [← hsome] at hentry
    have hmem := AList.mem_keys.mp (AList.lookup_isSome.mp hentry)
    rw [hnil] at hmem
    cases hmem
  unfold Ember.holds
  rw [hrow id, if_pos hgone]
  rfl

omit [One M] [Add M] in
/-- **No sweep takes a row of an origin** exactly when none of its rows has an entry. -/
theorem Ember.Sound.spares_iff {s : Ember M T} (h : s.Sound) (c : Reading M T) (me : String) :
    (∀ budget id r, s.node.db.vertex.lookup id = some r → r.origin = me →
      (s.evict c budget).node.db.vertex.lookup id = some r) ↔ ∀ id, s.Entry id → s.Foreign me id := by
  constructor
  · intro hspares id hentry r hr ho
    have hgone := h.evict_entry c hentry
    unfold Ember.holds at hgone
    rw [hspares 0 id r hr ho] at hgone
    cases hgone
  · intro hforeign budget id r hr ho
    obtain ⟨gone, hgone, -, -, -, hrow, -⟩ := h.evict c budget
    rw [hrow id, if_neg, hr]
    exact fun hg => hforeign id (hgone id hg) r hr ho

/-- **A limited node** sheds rows it reached, and keeps within its budget. -/
theorem sheds_only_reached (origin : Origin) (leaves : ℕ+) (deeds : List (Ember.Deed M T)) :
    (∀ c budget,
      ((((Ember.fresh origin leaves).run float deeds).evict c budget).demand.keys.length : ℤ) ≤ max budget 0 ∧
      ∀ id, (((Ember.fresh origin leaves).run float deeds).evict c budget).Entry id →
        (((Ember.fresh origin leaves).run float deeds).evict c budget).holds id = true) ∧
    (Ember.RunClear origin float (Ember.fresh origin leaves) deeds →
      ∀ c budget id r, ((Ember.fresh origin leaves).run float deeds).node.db.vertex.lookup id = some r →
        r.origin = origin →
        (((Ember.fresh origin leaves).run float deeds).evict c budget).node.db.vertex.lookup id = some r) := by
  have hsound := Ember.sound_run float deeds (Ember.fresh origin leaves) (Ember.sound_fresh origin leaves)
  refine ⟨fun c budget => ⟨hsound.evict_bounded c budget, fun id hentry => ?_⟩, fun hclear c => ?_⟩
  · exact originAt_someRow.mp ((hsound.evicted c budget).held id hentry)
  · refine (hsound.spares_iff c origin).mpr fun id hentry r hr => ?_
    exact originAt_otherRow (Ember.says_run float deeds _ (Ember.sound_fresh origin leaves)
      (fun _ h => nomatch h) hclear id hentry) hr

end Runs

def still : Reading ℕ ℕ := ⟨0, fun mass _ => mass⟩

def askedFor : List (Ember.Deed ℕ ℕ) :=
  [.act (.putArtifact [("id", .str "x"), ("content_type", .str "text/plain")] true false),
   .resolve (fun _ => still) "x" true []]

theorem own_row_shed :
    ¬ ∀ (float : String → Flt) (origin : Origin) (leaves : ℕ+) (deeds : List (Ember.Deed ℕ ℕ))
      (c : Reading ℕ ℕ) (budget : ℤ) (id : String) (r : VRow),
      ((Ember.fresh origin leaves).run float deeds).node.db.vertex.lookup id = some r → r.origin = origin →
      (((Ember.fresh origin leaves).run float deeds).evict c budget).node.db.vertex.lookup id = some r := by
  intro h
  have hown : (((Ember.fresh ⟨"here", by decide⟩ 4096).run litFloat askedFor).node.db.vertex.lookup "x").any
      (fun r => r.origin = "here") = true := by decide +kernel
  obtain ⟨r, hr, ho⟩ := (Option.any_eq_true _ _).mp hown
  have hkept := h litFloat ⟨"here", by decide⟩ 4096 askedFor still 0 "x" r hr (by simpa using ho)
  have hgone : ((((Ember.fresh ⟨"here", by decide⟩ 4096).run litFloat askedFor).evict still 0).node.db.vertex.lookup
      "x").isSome = false := by decide +kernel
  rw [hkept] at hgone
  cases hgone

def askedOfPeer : List (Ember.Deed ℕ ℕ) :=
  [.act (.putArtifact [("id", .str "y"), ("content_type", .str "text/plain")] true false),
   .consume [[("id", .str "x"), ("content_type", .str "text/plain"), ("_origin", .str "peer"),
     ("_seq", .int 1)]] [],
   .resolve (fun _ => still) "x" true []]

theorem sheds_only_reached_askedOfPeer :
    Ember.RunClear "here" litFloat (Ember.fresh ⟨"here", by decide⟩ 4096) askedOfPeer ∧
    (((Ember.fresh ⟨"here", by decide⟩ 4096).run litFloat askedOfPeer).evict still 0).holds "x" = false ∧
    ∀ budget id r,
      ((Ember.fresh ⟨"here", by decide⟩ 4096).run litFloat askedOfPeer).node.db.vertex.lookup id = some r →
      r.origin = "here" →
      (((Ember.fresh ⟨"here", by decide⟩ 4096).run litFloat askedOfPeer).evict still budget).node.db.vertex.lookup
        id = some r := by
  have hclear : Ember.RunClear "here" litFloat (Ember.fresh ⟨"here", by decide⟩ 4096) askedOfPeer := by
    refine ⟨(fun _ _ h => nomatch h), (fun _ _ _ h => nomatch h), ⟨?_, fun _ _ => trivial⟩, trivial⟩
    intro r hr
    have hall : ((((Ember.fresh : Origin → ℕ+ → Ember ℕ ℕ) ⟨"here", by decide⟩ 4096).run litFloat
        (askedOfPeer.take 2)).node.db.vertex.lookup "x").all (fun r => r.origin ≠ "here") = true := by
      decide +kernel
    have := (Option.all_eq_true _ _).mp hall r hr
    simpa using this
  refine ⟨hclear, by decide +kernel, fun budget id r => ?_⟩
  exact (sheds_only_reached litFloat ⟨"here", by decide⟩ 4096 askedOfPeer).2 hclear still budget id r

end Mantle
