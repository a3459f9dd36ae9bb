import Mantle.Db.Atomic
import Mantle.Db.Merkle
import Mantle.Py.JsonRead

/-!
# Mantle.Db.Rewrite — an edge write that goes through

A write of one edge raises where the sequence counter is exhausted, where a value has no column or no JSON text, and
nowhere else.
-/

namespace Mantle

open Tx

variable {content : Doc} {k : ℕ} {st : JsonStyle}

/-! ### Documents that have a JSON text -/

theorem insertItem_texts {α : Type} {e : Key × α} (he : ∃ s, e.1 = .str s) : ∀ {es : List (Key × α)},
    (∀ x ∈ es, ∃ s, x.1 = .str s) → ∃ es', insertItem e es = .ok es' ∧ ∀ x ∈ es', ∃ s, x.1 = .str s
  | [], _ => ⟨[e], rfl, fun x hx => List.mem_singleton.mp hx ▸ he⟩
  | y :: ys, h => by
    obtain ⟨s, hs⟩ := he
    obtain ⟨s', hs'⟩ := h y List.mem_cons_self
    have hle : Key.le? e.1 y.1 = some (decide (s ≤ s')) := by rw [hs, hs']; rfl
    unfold insertItem
    rw [hle]
    cases decide (s ≤ s') with
    | true =>
      refine ⟨_, rfl, fun x hx => ?_⟩
      rcases List.mem_cons.mp hx with rfl | hx
      · exact ⟨s, hs⟩
      · exact h x hx
    | false =>
      obtain ⟨zs, hz, hall⟩ := insertItem_texts ⟨s, hs⟩ fun x hx => h x (List.mem_cons_of_mem y hx)
      refine ⟨y :: zs, ?_, fun x hx => ?_⟩
      · dsimp only
        rw [hz]
        rfl
      · rcases List.mem_cons.mp hx with rfl | hx
        · exact ⟨s', hs'⟩
        · exact hall x hx

theorem sortItems_texts {α : Type} : ∀ {es : List (Key × α)}, (∀ x ∈ es, ∃ s, x.1 = .str s) →
    ∃ es', sortItems es = .ok es' ∧ ∀ x ∈ es', ∃ s, x.1 = .str s
  | [], h => ⟨[], rfl, h⟩
  | e :: es, h => by
    obtain ⟨ys, hys, hall⟩ := sortItems_texts fun x hx => h x (List.mem_cons_of_mem e hx)
    obtain ⟨zs, hz, hall'⟩ := insertItem_texts (h e List.mem_cons_self) hall
    refine ⟨zs, ?_, hall'⟩
    unfold sortItems
    rw [hys]
    exact hz

theorem dumps_writes {d : Doc} (h : ∀ e ∈ d, ∃ t, e.2.dumps st = .ok t) : ∃ t, d.dumps st = .ok t := by
  have hitems : ∀ e ∈ d.toItems, ∃ t, e.2.dumps st = .ok t := by
    intro e he
    obtain ⟨x, hx, rfl⟩ := List.mem_map.mp he
    exact h x hx
  obtain ⟨es, hes, hkeys⟩ := Json.dumpsItems_writes hitems
  have htexts : ∀ x ∈ es, ∃ s, x.1 = .str s := by
    intro x hx
    have hk : x.1 ∈ d.toItems.map Prod.fst := hkeys ▸ List.mem_map_of_mem hx
    obtain ⟨y, hy, hyx⟩ := List.mem_map.mp hk
    obtain ⟨z, -, rfl⟩ := List.mem_map.mp hy
    exact ⟨z.1, hyx.symm⟩
  unfold Doc.dumps
  rw [Val.dumps, hes]
  dsimp only [Except.bind]
  cases st.sortKeys with
  | false => exact ⟨_, rfl⟩
  | true =>
    obtain ⟨ys, hys, -⟩ := sortItems_texts htexts
    exact ⟨_, by rw [if_pos rfl, hys]; rfl⟩

theorem dumpsItems_each : ∀ {items : List (Key × Val)} {es : List (Key × String)},
    Val.dumpsItems st items = .ok es → ∀ e ∈ items, ∃ t, e.2.dumps st = .ok t
  | [], _, _, _, he => nomatch he
  | (k, v) :: rest, es, h, e, he => by
    rw [Val.dumpsItems] at h
    obtain ⟨t, ht, h⟩ := Json.bind_ok h
    obtain ⟨ys, hys, -⟩ := Json.map_ok h
    rcases List.mem_cons.mp he with rfl | he
    · exact ⟨t, ht⟩
    · exact dumpsItems_each hys e he

theorem dumps_each {d : Doc} {t : String} (h : d.dumps st = .ok t) : ∀ e ∈ d, ∃ t, e.2.dumps st = .ok t := by
  unfold Doc.dumps at h
  rw [Val.dumps] at h
  obtain ⟨es, hes, -⟩ := Json.bind_ok h
  exact fun e he => dumpsItems_each hes (.str e.1, e.2) (List.mem_map_of_mem he)

/-! ### What an edge is hashed on -/

/-- The content has a canonical text. -/
def Hashable (content : Doc) : Prop := ∃ t, canonContent content = .ok t

def Texted (v : Val) : Prop := v.isNone = true ∨ ∃ t, v.dumps .canonical = .ok t

theorem texted_str (s : String) : Texted (.str s) := .inr ⟨_, rfl⟩

theorem texted_isOrigin : ∀ o : Option ℤ, Texted (isOriginVal o)
  | none => .inl rfl
  | some _ => .inr ⟨_, rfl⟩

theorem hashable_iff : Hashable content ↔ ∀ e ∈ content, e.1 ∉ edgeIdentityKeys → Texted e.2 := by
  unfold Hashable canonContent
  constructor
  · rintro ⟨t, ht⟩ e he hk
    by_cases hn : e.2.isNone = true
    · exact .inl hn
    · exact .inr (dumps_each ht e (List.mem_filter.mpr ⟨he, by simp [hn, hk]⟩))
  · refine fun h => dumps_writes fun e he => ?_
    obtain ⟨he, htest⟩ := List.mem_filter.mp he
    simp only [Bool.and_eq_true, Bool.not_eq_true', decide_eq_false_iff_not] at htest
    exact (h e he htest.2).resolve_left (by simp [htest.1])

theorem Hashable.hash (h : Hashable content) (key : EdgeKey) : ∃ v, edgeHash key content = .ok v := by
  obtain ⟨t, ht⟩ := h
  unfold edgeHash
  exact ⟨_, by rw [ht]; rfl⟩

def EntryBeside (x y : String × Val) : Prop := x.1 = y.1 ∧ (Texted x.2 → Texted y.2)

theorem Hashable.beside {a b : Doc} (h : Hashable a) (hab : List.Forall₂ EntryBeside a b) : Hashable b := by
  rw [hashable_iff] at h ⊢
  induction hab with
  | nil => exact h
  | @cons x y xs ys hxy _ ih =>
    rw [List.forall_mem_cons] at h ⊢
    exact ⟨fun hk => hxy.2 (h.1 (hxy.1 ▸ hk)), ih h.2⟩

/-! ### One edge -/

structure EdgeSpec.Storable (e : EdgeSpec) : Prop where
  blob : ∃ t, (blobOf e.props).dumps .plain = .ok t
  columns : ∀ k ∈ textColumns, ∃ v, bindText (e.props.get k) = .ok v
  content : Hashable (edgePropsContent e.props)

theorem EdgeSpec.Storable.row {e : EdgeSpec} (h : e.Storable) {seq : ℤ} (hseq : bindInt seq = .ok seq) (origin : String)
    (leaf : ℕ) : ∃ row, edgeRow e origin seq leaf = .ok row := by
  obtain ⟨t, ht⟩ := h.blob
  obtain ⟨f, hf⟩ := h.columns "force" (by decide)
  obtain ⟨g, hg⟩ := h.columns "propagate" (by decide)
  obtain ⟨o, ho⟩ := h.columns "order_key" (by decide)
  unfold edgeRow Doc.toCol
  rw [ht, hf, hg, ho, hseq]
  exact ⟨_, rfl⟩

def HashesOut (db : Store) (key : EdgeKey) : Prop := ∀ o, db.edge.lookup key = some o → Hashable (edgeRowContent o)

section Succeeds

variable {α β : Type} {n : Node}

def Returns (m : DbM α) (n : Node) (Q : α → Node → Prop) : Prop := ∃ a n', m n = .ok a n' ∧ Q a n'

theorem returns_bind {m : DbM α} {f : α → DbM β} {Q : β → Node → Prop}
    (h : Returns m n fun a n' => Returns (f a) n' Q) : Returns (m >>= f) n Q := by
  obtain ⟨a, n', hm, b, n'', hf, hQ⟩ := h
  exact ⟨b, n'', (bind_of_ok hm).trans hf, hQ⟩

theorem returns_ofExcept {x : Except PyErr α} {a : α} {Q : α → Node → Prop} (hx : x = .ok a) (h : Q a n) :
    Returns (Tx.ofExcept x) n Q := ⟨a, n, by rw [hx]; rfl, h⟩

theorem returns_onDb {f : Store → Store} {Q : PUnit → Node → Prop} (h : Q ⟨⟩ { n with db := f n.db }) :
    Returns (onDb f) n Q := ⟨⟨⟩, _, rfl, h⟩

theorem returns_xorEdge (key : EdgeKey) (leaf : ℕ) (n : Node) (h : Hashable content) :
    Returns (xorEdge key leaf content) n fun _ _ => True := by
  obtain ⟨v, hv⟩ := h.hash key
  exact returns_bind (returns_ofExcept hv (returns_onDb trivial))

theorem Returns.and {m : DbM α} {Q P : α → Node → Prop} {E : Node → Prop} (h : Returns m n Q) (hr : Runs m n P E) :
    Returns m n fun a n' => Q a n' ∧ P a n' := by
  obtain ⟨a, n', hm, hQ⟩ := h
  exact ⟨a, n', hm, hQ, hr.ok hm⟩

theorem returns_writeEdge (key : EdgeKey) (leaf : ℕ) (origin : String) (n : Node) {e : EdgeSpec} {old : Option ERow}
    {seq : ℤ} (he : e.Storable) (hseq : bindInt seq = .ok seq) (hold : ∀ o, old = some o → Hashable (edgeRowContent o)) :
    Returns (writeEdge key leaf e old origin seq) n fun _ _ => True := by
  obtain ⟨row, hrow⟩ := he.row hseq origin leaf
  unfold writeEdge
  refine returns_bind (returns_ofExcept hrow (returns_bind (returns_onDb ?_)))
  cases old with
  | none =>
    refine returns_bind ?_
    obtain ⟨_, m, hm, -⟩ := returns_xorEdge key leaf _ he.content
    exact ⟨_, m, hm, returns_bind (returns_onDb (returns_onDb trivial))⟩
  | some o =>
    refine returns_bind ?_
    obtain ⟨_, m, hm, -⟩ := returns_xorEdge key leaf _ (hold o rfl)
    refine ⟨_, m, hm, returns_bind ?_⟩
    obtain ⟨_, m', hm', -⟩ := returns_xorEdge key leaf m he.content
    exact ⟨_, m', hm', returns_bind (returns_onDb (returns_onDb trivial))⟩

end Succeeds

/-- What `add_edge` of one edge leaves when it goes through. -/
structure EdgeAdded (e : EdgeSpec) (n n' : Node) : Prop where
  idle : n'.inTxn = false
  origin : n'.origin = n.origin
  counter : n'.db.load n'.origin = n.db.load n.origin + 1
  written : ∃ seq leaf row, edgeRow e n.origin seq leaf = .ok row ∧
    EdgeWritten (edgeKey e.src e.dst e.label) row n.db n'.db

/-- `k` more sequence numbers fit their column. -/
def Node.HasRoom (n : Node) (k : ℕ) : Prop := intMin ≤ n.db.load n.origin ∧ n.db.load n.origin + k ≤ intMax

theorem Node.HasRoom.next {n : Node} (h : n.HasRoom (k + 1)) :
    bindInt (n.db.load n.origin + 1) = .ok (n.db.load n.origin + 1) := by
  obtain ⟨hlo, hhi⟩ := h
  unfold bindInt
  rw [if_pos]
  constructor <;> omega

theorem EdgeAdded.room {e : EdgeSpec} {n n' : Node} (h : EdgeAdded e n n') (hr : n.HasRoom (k + 1)) :
    n'.HasRoom k := by
  obtain ⟨hlo, hhi⟩ := hr
  unfold Node.HasRoom
  rw [h.counter]
  constructor
  · omega
  · push_cast at hhi ⊢
    omega

theorem addOne_returns (leaves : ℕ+) {arg : EdgeArg} {e : EdgeSpec} {n : Node} (hu : unpack arg = .ok e)
    (he : e.Storable) (hseq : bindInt (n.issued + 1) = .ok (n.issued + 1))
    (hold : HashesOut n.db (edgeKey e.src e.dst e.label)) :
    Returns (addOne leaves arg true) n fun k m => k = 1 ∧ m.cache = some (n.issued + 1) ∧ m.dirty = true ∧
      m.origin = n.origin ∧ m.db.seqCounter = n.db.seqCounter ∧
      ∃ seq leaf row, edgeRow e n.origin seq leaf = .ok row ∧ EdgeWritten (edgeKey e.src e.dst e.label) row n.db m.db := by
  unfold addOne
  refine returns_bind (returns_ofExcept hu ?_)
  refine returns_bind ⟨_, n, rfl, ?_⟩
  refine returns_bind ⟨n, n, rfl, ?_⟩
  refine returns_bind ⟨n.issued + 1, { n with cache := some (n.issued + 1), dirty := true }, rfl, ?_⟩
  obtain ⟨_, m, hm, -, row, h, hrow, -, rfl⟩ := (returns_writeEdge (edgeKey e.src e.dst e.label)
    (leafOf (keyHex (edgeKey e.src e.dst e.label)) leaves) n.origin
    { n with cache := some (n.issued + 1), dirty := true } he hseq hold).and (writeEdge_runs rfl)
  refine returns_bind ⟨_, _, hm, 1, _, rfl, rfl, rfl, rfl, rfl,
    (Store.acceptEdge_frame _ _ _ _ _).1, _, _, row, hrow, edgeWritten_acceptEdge⟩

theorem load_persist {db db₀ : Store} {o : String} (hc : db.seqCounter = db₀.seqCounter) :
    (db.persist o (db₀.load o + 1)).load o = db₀.load o + 1 := by
  unfold Store.persist Store.load
  dsimp only
  rw [hc, AList.lookup_insert]
  cases db₀.seqCounter.lookup o with
  | none => rfl
  | some r => exact max_eq_right (by simp)

/-- **One edge goes through** when it is storable, its key can be hashed out and the counter has a number left. -/
theorem addEdge_goes {arg : EdgeArg} {e : EdgeSpec} {n : Node} (hn : n.inTxn = false) (hu : unpack arg = .ok e)
    (he : e.Storable) (hold : HashesOut n.db (edgeKey e.src e.dst e.label)) (hroom : n.HasRoom (k + 1)) :
    ∃ j n', addEdges [arg] 500 true n = .ok j n' ∧ EdgeAdded e n n' := by
  obtain ⟨j, s, hs, rfl, hcache, hdirty, horigin, hseq, hwritten⟩ :=
    addOne_returns n.graphLeaves (n := n.begin) hu he hroom.next hold
  have hbody : (do let j ← savepoint (addOne n.graphLeaves arg true); pure (0 + j) : DbM ℕ) n.begin = .ok 1 s := by
    have hsave : savepoint (addOne n.graphLeaves arg true) n.begin = .ok 1 s := by
      unfold savepoint Tx.attempt
      simp only [bind, EStateM.bind, hs]
      rfl
    exact bind_of_ok hsave
  have hbound : CacheBound s := by
    intro c hc
    rw [hcache] at hc
    cases hc
    exact hroom.next
  have hwrite : write (do let j ← savepoint (addOne n.graphLeaves arg true); pure (0 + j) : DbM ℕ) n =
      .ok 1 s.flushed.end := by
    rw [write_of_ok hn hbody, flush_bound hbound fun _ => by rw [hcache]; rfl]
  refine ⟨1, s.flushed.end, ?_, ?_⟩
  · have hcall : addEdges [arg] 500 true n =
        (do let k ← write (do let j ← savepoint (addOne n.graphLeaves arg true); pure (0 + j)); pure (0 + k)) n := by
      unfold addEdges bulk
      rw [show chunked 500 [] [arg] = [[arg]] by simp [chunked]]
      simp only [List.foldlM_cons, List.foldlM_nil, bind_pure]
      rfl
    rw [hcall, bind_of_ok hwrite]
    rfl
  · have hflushed : s.flushed = { s with db := s.db.persist s.origin (n.begin.issued + 1), dirty := false } := by
      unfold Node.flushed
      rw [hdirty, hcache]
    have hload : n.begin.issued = n.db.load n.origin := rfl
    rw [hflushed, hload]
    obtain ⟨seq, leaf, row, hrow, hw⟩ := hwritten
    refine ⟨rfl, horigin, ?_, seq, leaf, row, hrow, ⟨hw.vertex, hw.edge⟩⟩
    change (s.db.persist s.origin (n.db.load n.origin + 1)).load s.origin = _
    rw [horigin]
    exact load_persist hseq

end Mantle
