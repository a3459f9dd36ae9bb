import Mantle.Db.Logic

/-!
# Mantle.Db.RefineEdge — the edge operations refine the ledger

`_add_one` accepts one row or declines it, `_retire_edge_row` retires one; `EdgeAdm` and `EdgeObserved` are the only
hypotheses.
-/

namespace Mantle

open Tx Relation

variable {arg : EdgeArg} {e : EdgeSpec} {leaf : ℕ} {leaves : ℕ+} {n : Node} {origin : String}
  {row : ERow} {seq : ℤ}

variable {A : Adm} {α β : Type}

/-! ### Edges -/

theorem edgeRow_stored (h : edgeRow e origin seq leaf = .ok row) : ∃ props force propagate orderKey,
    (blobOf e.props).toCol = .ok props ∧ bindText (e.props.get "force") = .ok force ∧
      bindText (e.props.get "propagate") = .ok propagate ∧ bindText (e.props.get "order_key") = .ok orderKey ∧
      bindInt seq = .ok seq ∧
      row = ⟨e.src, e.dst, e.label, force, propagate, normIsOrigin (e.props.get "is_origin"), orderKey, origin, seq,
        leaf, props⟩ := by
  obtain ⟨props, hp, h⟩ := bind_ok h
  obtain ⟨force, hf, h⟩ := bind_ok h
  obtain ⟨propagate, hg, h⟩ := bind_ok h
  obtain ⟨orderKey, ho, h⟩ := bind_ok h
  obtain ⟨s, hs, h⟩ := bind_ok h
  cases h
  obtain rfl := bindInt_ok hs
  exact ⟨props, force, propagate, orderKey, hp, hf, hg, ho, hs, rfl⟩

theorem edgeRow_ok (h : edgeRow e origin seq leaf = .ok row) :
    row.origin = origin ∧ row.seq = seq ∧ row.leaf = leaf := by
  obtain ⟨_, _, _, _, -, -, -, -, -, rfl⟩ := edgeRow_stored h
  exact ⟨rfl, rfl, rfl⟩

theorem edgeRow_endpoints (h : edgeRow e origin seq leaf = .ok row) :
    row.label = e.label ∧ row.dst = e.dst := by
  obtain ⟨_, _, _, _, -, -, -, -, -, rfl⟩ := edgeRow_stored h
  exact ⟨rfl, rfl⟩

theorem edgeRow_content (h : edgeRow e origin seq leaf = .ok row) :
    bindText (e.props.get "force") = .ok row.force ∧
      bindText (e.props.get "propagate") = .ok row.propagate ∧
      bindText (e.props.get "order_key") = .ok row.orderKey ∧
      row.isOrigin = normIsOrigin (e.props.get "is_origin") ∧
      row.props.val = (blobOf e.props).norm := by
  obtain ⟨_, _, _, _, hp, hf, hg, ho, -, rfl⟩ := edgeRow_stored h
  exact ⟨hf, hg, ho, rfl, Doc.toCol_ok hp⟩

theorem upsertEdge_fields (old : Option ERow) (row : ERow) :
    (upsertEdge old row).origin = row.origin ∧ (upsertEdge old row).seq = row.seq ∧
      (upsertEdge old row).leaf = row.leaf := by
  cases old <;> exact ⟨rfl, rfl, rfl⟩

theorem allocate_runs (n : Node) (E : Node → Prop) :
    Runs allocate n (fun s n' => s = n.issued + 1 ∧
      n' = { n with cache := some (n.issued + 1), dirty := true }) E := ⟨rfl, rfl⟩

theorem xorEdge_runs (key : EdgeKey) (leaf : ℕ) (content : Doc) (n : Node) :
    Runs (xorEdge key leaf content) n (fun _ n' => ∃ h, edgeHash key content = .ok h ∧
      n' = { n with db := n.db.xorLeaf leaf h }) (SameEnv n) := by
  refine runs_bind (runs_ofExcept ?_ (SameEnv.refl n))
  intro h hh
  exact ⟨h, hh, rfl⟩

theorem writeEdge_runs {key : EdgeKey} {old : Option ERow} {m : Node} (hold : m.db.edge.lookup key = old) :
    Runs (writeEdge key leaf e old origin seq) m
      (fun _ m' => ∃ row h, edgeRow e origin seq leaf = .ok row ∧
        edgeHash key (edgePropsContent e.props) = .ok h ∧
        m' = { m with db := m.db.acceptEdge key e.label (upsertEdge old row) h }) (SameEnv m) := by
  unfold writeEdge
  refine runs_bind (runs_ofExcept ?_ (SameEnv.refl m))
  intro row hrow
  obtain ⟨ho, -, hl⟩ := edgeRow_ok hrow
  obtain ⟨hu, -, hu'⟩ := upsertEdge_fields old row
  refine runs_bind (runs_modify ?_)
  cases old with
  | none =>
    refine runs_bind ((xorEdge_runs key leaf _ _).mono ?_ fun n' he => (SameEnv.db m _).trans he)
    rintro - n' ⟨h, hh, rfl⟩
    refine runs_bind (runs_modify (runs_modify ⟨row, h, hrow, hh, ?_⟩))
    simp only [Store.acceptEdge, hold, hu, hu', ho, hl]
  | some o =>
    refine runs_bind ((xorEdge_runs key leaf _ _).mono ?_ fun n' he => (SameEnv.db m _).trans he)
    rintro - n' ⟨h₀, hh₀, rfl⟩
    refine runs_bind ((xorEdge_runs key leaf _ _).mono ?_ fun n' he => (SameEnv.db m _).trans he)
    rintro - n' ⟨h, hh, rfl⟩
    refine runs_bind (runs_modify (runs_modify ⟨row, h, hrow, hh, ?_⟩))
    simp only [Store.acceptEdge, hold, hu, hu', ho, hl, contentHash_of_ok hh₀]

theorem observe_lookup (db : Store) (origin : String) (seq : ℤ) :
    ∃ r, (db.observe origin seq).seqCounter.lookup origin = some r ∧ seq ≤ r.lastSeq := by
  unfold Store.observe
  simp only [AList.lookup_insert]
  refine ⟨_, rfl, ?_⟩
  cases db.seqCounter.lookup origin with
  | none => exact le_refl _
  | some r => exact le_max_right _ _

/-- What an edge handed to `add_edges` must bring, so that the row it becomes is admitted. -/
def EdgeAdm (A : Adm) (stampRev : Bool) (arg : EdgeArg) : Prop :=
  ∀ e, unpack arg = .ok e → ∀ h, edgeHash (edgeKey e.src e.dst e.label) (edgePropsContent e.props) = .ok h →
    (stampRev = true → ∀ origin seq leaf row old, edgeRow e origin seq leaf = .ok row →
      A.authoredEdge (edgeKey e.src e.dst e.label) (upsertEdge old row) h) ∧
    (stampRev = false → ∀ origin seq leaf row old, edgeRow e origin seq leaf = .ok row →
      incomingVersion (e.props.get "_origin") (e.props.get "_seq") = some (origin, seq) →
      A.consumedEdge (edgeKey e.src e.dst e.label) (upsertEdge old row) h)

def EdgeObserved (A : Adm) (arg : EdgeArg) : Prop :=
  ∀ e, unpack arg = .ok e → ∀ origin seq,
    incomingVersion (e.props.get "_origin") (e.props.get "_seq") = some (origin, seq) →
    A.observed origin seq

theorem inner_observeSeq {f : PUnit → DbM β} (hA : A.observed origin seq)
    (h : Inner A (f ⟨⟩) { n with db := n.db.observe origin seq }) :
    Inner A (observeSeq origin seq >>= f) n := by
  refine runs_bind (runs_bind (runs_ofExcept ?_ (SameEnv.refl n)))
  intro s hs
  rw [bindInt_ok hs]
  refine runs_modify (h.mono ?_ ?_)
  · intro b n' hm
    exact ReflTransGen.head (Micro.observe hA) hm
  · intro n' he
    exact (SameEnv.db n _).trans he

theorem inner_authorEdge (ha : EdgeAdm A true arg) (he : unpack arg = .ok e) (hL : n.EdgeLeaves leaves) :
    Inner A (do
      let seq ← allocate
      writeEdge (edgeKey e.src e.dst e.label)
        (leafOf (keyHex (edgeKey e.src e.dst e.label)) leaves) e
        (n.db.edge.lookup (edgeKey e.src e.dst e.label)) n.origin seq
      pure 1 : DbM ℕ) n := by
  refine runs_bind ((allocate_runs n (SameEnv n)).imp ?_)
  rintro seq n₁ ⟨rfl, rfl⟩
  refine runs_bind ((writeEdge_runs rfl).mono ?_ ?_)
  · rintro - m ⟨row, h, hrow, hh, rfl⟩
    obtain ⟨ho, hs, hl⟩ := edgeRow_ok hrow
    obtain ⟨hu, hus, hul⟩ := upsertEdge_fields
      (n.db.edge.lookup (edgeKey e.src e.dst e.label)) row
    have hm := @Micro.authorEdge A n _ e.label _ _ _
      ((ha e he h hh).1 rfl _ _ _ _ (n.db.edge.lookup (edgeKey e.src e.dst e.label)) hrow)
      (hu.trans ho) (hus.trans hs) (hul.trans hl) hL
    rw [hus, hs] at hm
    exact ReflTransGen.single hm
  · intro m hm
    exact (SameEnv.alloc n _).trans hm

theorem inner_consumeEdge {old : Option ERow} (ha : EdgeAdm A false arg) (he : unpack arg = .ok e)
    (hv : incomingVersion (e.props.get "_origin") (e.props.get "_seq") = some (origin, seq))
    (hL : n.EdgeLeaves leaves) (hold : n.db.edge.lookup (edgeKey e.src e.dst e.label) = old)
    (hseq : ∃ r, n.db.seqCounter.lookup origin = some r ∧ seq ≤ r.lastSeq) :
    Inner A (do
      writeEdge (edgeKey e.src e.dst e.label)
        (leafOf (keyHex (edgeKey e.src e.dst e.label)) leaves) e old origin seq
      pure 1 : DbM ℕ) n := by
  refine runs_bind ((writeEdge_runs hold).imp ?_)
  rintro - m ⟨row, h, hrow, hh, rfl⟩
  obtain ⟨ho, hs, hl⟩ := edgeRow_ok hrow
  obtain ⟨hu, hus, hul⟩ := upsertEdge_fields old row
  refine ReflTransGen.single (Micro.consumeEdge ((ha e he h hh).2 rfl _ _ _ _ old hrow hv) ?_
    (hul.trans hl) hL)
  rw [hu, ho, hus, hs]
  exact hseq

theorem inner_addOne {stampRev : Bool} (ha : EdgeAdm A stampRev arg)
    (hobs : stampRev = false → EdgeObserved A arg) (hL : n.EdgeLeaves leaves) :
    Inner A (addOne leaves arg stampRev) n := by
  unfold addOne
  refine inner_ofExcept ?_
  intro e he
  refine inner_read ?_
  cases stampRev with
  | true => exact inner_get (inner_authorEdge ha he hL)
  | false =>
    simp only [Bool.false_eq_true, if_false]
    cases hv : incomingVersion (e.props.get "_origin") (e.props.get "_seq") with
    | none => exact inner_throw _ n
    | some v =>
      obtain ⟨origin, seq⟩ := v
      refine inner_observeSeq (hobs rfl e he origin seq hv) ?_
      have hseq := observe_lookup n.db origin seq
      cases hold : n.db.edge.lookup (edgeKey e.src e.dst e.label) with
      | none => exact inner_consumeEdge ha he hv hL hold hseq
      | some o =>
        cases hc : compareVersion (.str origin) (.int seq) o.origin o.seq with
        | newer =>
          simp only [hc]
          exact inner_consumeEdge ha he hv hL hold hseq
        | unordered =>
          simp only [hc]
          exact inner_bind (inner_onDb (.retire (.bump offLedger_unorderedEdge)))
            fun _ m _ => inner_pure 1 m
        | older =>
          simp only [hc]
          exact inner_pure 1 _
        | same =>
          simp only [hc]
          exact inner_pure 1 _

/-! ### Retiring edges -/

theorem retireEdgeRow_runs {key : EdgeKey} {label : String} {r : ERow} (hL : n.EdgeLeaves leaves)
    (hr : ∀ r', n.db.edge.lookup key = some r' → r' = r) :
    Runs (retireEdgeRow leaves key label r) n (fun _ n' => ReflTransGen Retire n n' ∧
        ∀ k, k ≠ key → n'.db.edge.lookup k = n.db.edge.lookup k) (SameEnv n) := by
  unfold retireEdgeRow
  refine runs_read ?_
  cases hk : n.db.edge.lookup key with
  | none => exact runs_pure ⟨ReflTransGen.refl, fun _ _ => rfl⟩
  | some r' =>
    obtain rfl := hr r' hk
    refine runs_bind (runs_modify ?_)
    refine runs_bind ((xorEdge_runs key _ _ _).mono ?_ fun n' he => (SameEnv.db n _).trans he)
    rintro - n' ⟨h, hh, rfl⟩
    refine runs_bind (runs_modify (runs_bind (runs_modify (runs_pure ⟨?_, ?_⟩))))
    · have := @Retire.edge n _ label _ _ hk hL
      rw [Store.retireEdge, contentHash_of_ok hh] at this
      exact ReflTransGen.single this
    · intro k hne
      exact AList.lookup_erase_ne hne

theorem retireRows_runs :
    ∀ (rows : List (EdgeKey × ERow)) (gone : ℕ) (n : Node), n.EdgeLeaves leaves →
      (rows.map Prod.fst).Nodup → (∀ e ∈ rows, n.db.edge.lookup e.1 = some e.2) →
      Runs (rows.foldlM (fun gone r => do
        let b ← retireEdgeRow leaves r.1 r.2.label r.2
        pure (if b then gone + 1 else gone)) gone : DbM ℕ) n
        (fun _ n' => ReflTransGen Retire n n') (SameEnv n)
  | [], _, n, _, _, _ => runs_pure ReflTransGen.refl
  | e :: rows, gone, n, hL, hnd, hrows => by
    rw [List.foldlM_cons]
    rw [List.map_cons, List.nodup_cons] at hnd
    have hhead := hrows e (by simp)
    refine runs_bind (runs_bind ((retireEdgeRow_runs hL ?_).imp ?_))
    · intro r' hr'
      rw [hhead] at hr'
      exact (Option.some.inj hr').symm
    · rintro b n₁ ⟨hret, hframe⟩
      refine runs_pure ?_
      have henv := retires_sameEnv hret
      have hrest : ∀ e' ∈ rows, n₁.db.edge.lookup e'.1 = some e'.2 := by
        intro e' he'
        rw [hframe e'.1 ?_]
        · exact hrows e' (by simp [he'])
        · intro heq
          exact hnd.1 (heq ▸ List.mem_map_of_mem he')
      refine (retireRows_runs rows _ n₁ (hL.of_sameEnv henv) hnd.2 hrest).mono ?_ ?_
      · intro _ n₂ h₂
        exact hret.trans h₂
      · intro n₂ h₂
        exact henv.trans h₂

theorem retireEdgesTouching_runs {node : String} (hL : n.EdgeLeaves leaves) :
    Runs (retireEdgesTouching leaves node) n (fun _ n' => ReflTransGen Retire n n')
      (SameEnv n) := by
  refine retireRows_runs _ 0 n hL ?_ ?_
  · exact n.db.edge.filter_keys _
  · intro e he
    exact Table.mem_toPairs.mp (List.mem_of_mem_filter he)

theorem micros_of_retires {n' : Node} (h : ReflTransGen Retire n n') : Micros A n n' := by
  induction h with
  | refl => exact ReflTransGen.refl
  | tail _ hr ih => exact ih.tail (Micro.retire hr)

end Mantle
