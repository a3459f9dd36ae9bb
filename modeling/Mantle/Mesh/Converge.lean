import Mantle.Mesh.Consume
import Mantle.Mesh.Publish
import Mantle.Mesh.Segment

/-!
# Mantle.Mesh.Converge — when the edges of a puller agree with the publisher's

A leaf object carries edges without a version, so the puller keeps whatever it holds under the key: the edge it
consumed first, or the containment edge `_place` wrote.
-/

namespace Mantle

open Tx

variable {arg : EdgeArg} {float : String → Flt}

structure ERow.Agrees (r r' : ERow) : Prop where
  propagate : r'.propagate = r.propagate
  isOrigin : r'.isOrigin = r.isOrigin
  orderKey : r'.orderKey = r.orderKey
  props : r'.props.val = r.props.val

def ERow.AgreesWith (r : ERow) (e : EdgeSpec) : Prop :=
  ∀ origin seq leaf row, edgeRow e origin seq leaf = .ok row → r.Agrees row

def ERow.AgreesAt (r : ERow) (key : EdgeKey) (db : Store) : Prop :=
  ∀ r', db.edge.lookup key = some r' → r.Agrees r'

def LeafObject.lines (o : LeafObject) : List Doc := o.docs ++ o.edges

/-! ### A shipped edge on the other side -/

section Record

variable {db : Store} {key : EdgeKey} {r : ERow}

def recordSpec (r : ERow) : EdgeSpec where
  src := r.src
  dst := r.dst
  label := r.label
  props := ((recordProps r).set "_origin" (.str (consumedEdgeOrigin r.src r.dst r.label))).set "_seq"
    (.int 1)

theorem recordSpec_agrees (hs : EdgesSound db) (hr : db.edge.lookup key = some r) :
    r.AgreesWith (recordSpec r) := by
  intro origin seq leaf row hrow
  obtain ⟨-, hprop, hord, hflag, hprops⟩ := edgeRow_content hrow
  obtain ⟨-, hgp, hgi, hgo, -⟩ := recordProps_get (hs.plain key r hr)
  have hget : ∀ k, k ≠ "_origin" → k ≠ "_seq" → (recordSpec r).props.get k = (recordProps r).get k := by
    intro k h1 h2
    unfold recordSpec
    rw [Doc.get_set_of_ne _ _ h2, Doc.get_set_of_ne _ _ h1]
  rw [hget _ (by decide) (by decide), hgp, (hs.bound key r hr).1] at hprop
  rw [hget _ (by decide) (by decide), hgo, (hs.bound key r hr).2] at hord
  rw [hget _ (by decide) (by decide), hgi, normIsOrigin_isOriginVal (hs.flagged key r hr)] at hflag
  have hblob : blobOf (recordSpec r).props = r.props.val := by
    unfold recordSpec blobOf
    rw [Doc.without_set _ _ (by decide), Doc.without_set _ _ (by decide)]
    exact recordProps_blob (hs.plain key r hr)
  refine ⟨(Except.ok.inj hprop).symm, hflag, (Except.ok.inj hord).symm, ?_⟩
  rw [hprops, hblob, hs.settled key r hr]

structure ERow.Named (r : ERow) : Prop where
  src : r.src ≠ ""
  dst : r.dst ≠ ""
  label : r.label ≠ ""

theorem stampEdge_record (hs : EdgesSound db) (hr : db.edge.lookup key = some r) (hn : r.Named)
    (me : String) : ∃ arg, stampEdge me (edgeRecord r) = .ok arg ∧ unpack arg = .ok (recordSpec r) := by
  have hprops : dictOf ((Val.dict (recordProps r).toItems).orElse (.dict [])) = .ok (recordProps r) := by
    cases hp : recordProps r with
    | nil => rfl
    | cons e d =>
      change Except.ok (docOfItems (Doc.toItems (e :: d))) = _
      rw [docOfItems_toItems]
  have hlabel : (Val.str r.label).orElse (.str "link") = .str r.label := by
    unfold Val.orElse
    rw [if_pos (by simp [hn.label])]
  have horigin : (recordProps r).get "_origin" = .none := by
    rw [(recordProps_get (hs.plain key r hr)).2.2.2.2 _ (by decide)]
    exact get_of_plain (hs.plain key r hr) (by decide)
  refine ⟨.tuple (.str r.src) (.str r.dst) (.str r.label) (recordSpec r).props, ?_, ?_⟩
  · have hf : (edgeRecord r).get "f" = .str r.src := rfl
    have ht : (edgeRecord r).get "t" = .str r.dst := rfl
    have hl : (edgeRecord r).get "label" = .str r.label := rfl
    have hd : (edgeRecord r).get "props" = .dict (recordProps r).toItems := rfl
    unfold stampEdge
    rw [hf, ht, hl, hd, hlabel, hprops]
    simp only [bind, Except.bind, horigin]
    rfl
  · unfold unpack unpackFields
    simp [hn.src, hn.dst, hn.label, recordSpec]

end Record

/-! ### One pull -/

/-- The edge is what `_place` writes for a member. -/
structure ERow.IsPlacement (r : ERow) (aid : String) : Prop where
  propagate : r.propagate = .none
  isOrigin : r.isOrigin = some 1
  orderKey : r.orderKey = .none
  props : r.props.val = [("root_id", .str aid)]

theorem ERow.IsPlacement.agreesWith {r : ERow} {aid : String} (h : r.IsPlacement aid) (cid : String) :
    r.AgreesWith (placeSpec cid aid) := by
  intro origin seq leaf row hrow
  obtain ⟨-, hprop, hord, hflag, hprops⟩ := edgeRow_content hrow
  refine ⟨?_, ?_, ?_, ?_⟩
  · rw [h.propagate]
    exact (Except.ok.inj hprop).symm
  · rw [h.isOrigin]
    exact hflag
  · rw [h.orderKey]
    exact (Except.ok.inj hord).symm
  · have hroot : (decide ("root_id" ∈ promoted) || isPrivate "root_id") = false := by decide
    have hflag : (decide ("is_origin" ∈ promoted) || isPrivate "is_origin") = true := by decide
    have hblob : blobOf (placeSpec cid aid).props = [("root_id", .str aid)] := by
      unfold placeSpec placeProps blobOf Doc.without
      simp only [List.filter_cons, hroot, hflag]
      rfl
    rw [hprops, hblob, h.props]
    rfl

/-- The puller holds nothing else under the edge's key, and nothing else it takes brings it anything else. -/
structure Lands (n : Node) (o : LeafObject) (key : EdgeKey) (r : ERow) : Prop where
  named : r.Named
  held : r.AgreesAt key n.db
  placed : ∀ d ∈ keptItems o.docs, (∃ x ∈ opIds, d.get "id" = .str x) ∨ verdictOf n.db d = .newer →
    ∀ cid aid, placement d = some (cid, aid) → n.db.Has cid ∨ Brought o.docs cid →
    edgeKey cid aid "contains" = key → r.IsPlacement aid
  read : ∀ d ∈ edgeItems o.docs, ∀ arg e, stampEdge n.origin d = .ok arg → unpack arg = .ok e →
    edgeKey e.src e.dst e.label = key → r.AgreesWith e

section Pull

variable {key : EdgeKey} {r : ERow} {a b : Store}

theorem agreesAt_ofTables : OfTables (r.AgreesAt key) := by
  intro x y hs h
  unfold ERow.AgreesAt
  rw [hs.edge]
  exact h

theorem EdgeWritten.agreesAt {key' : EdgeKey} {row : ERow} (hw : EdgeWritten key' row a b)
    (h : r.AgreesAt key a) (hrow : key' = key → r.Agrees row) : r.AgreesAt key b := by
  intro r' hr'
  rw [hw.edge, Table.lookup_insert_of] at hr'
  split_ifs at hr' with hk
  · cases hr'
    have := hrow hk.symm
    cases a.edge.lookup key' <;> exact ⟨this.propagate, this.isOrigin, this.orderKey, this.props⟩
  · exact h r' hr'

theorem RowWritten.agreesAt {me origin : String} {doc : Doc} {seq : Val}
    (hw : RowWritten me doc origin seq a b) (h : r.AgreesAt key a)
    (hplace : ∀ cid aid, placement doc = some (cid, aid) → b.Has cid →
      edgeKey cid aid "contains" = key → r.AgreesWith (placeSpec cid aid)) : r.AgreesAt key b := by
  obtain ⟨x, s, leaf, row, m, -, -, -, -, hme, hpl⟩ := hw.row
  have hm : r.AgreesAt key m := by
    unfold ERow.AgreesAt
    rw [hme]
    exact h
  rcases hpl with ⟨hs, -⟩ | ⟨cid, aid, seq', leaf', row', hp, hc, hrow, hw'⟩
  · exact agreesAt_ofTables _ _ hs hm
  · have hb : b.Has cid := by
      unfold Store.Has
      rw [hw'.vertex]
      exact hc
    exact hw'.agreesAt hm fun hk => hplace cid aid hp hb hk _ _ _ _ hrow

theorem OpApplied.agreesAt {me id : String} (hw : OpApplied me id a b) (h : r.AgreesAt key a) :
    r.AgreesAt key b := by
  rcases hw with hs | ⟨d, origin, seq, hd, hw⟩
  · exact agreesAt_ofTables _ _ hs h
  · refine hw.agreesAt h ?_
    intro cid aid hp
    rw [hd.placement] at hp
    cases hp

theorem EdgeHandled.agreesAt (hw : EdgeHandled arg a b) (h : r.AgreesAt key a)
    (hspec : ∀ e, unpack arg = .ok e → edgeKey e.src e.dst e.label = key → r.AgreesWith e) :
    r.AgreesAt key b := by
  obtain ⟨e, origin, seq, he, -, ⟨-, hs⟩ | ⟨-, leaf, row, hrow, hw⟩⟩ := hw
  · exact agreesAt_ofTables _ _ hs h
  · exact hw.agreesAt h fun hk => hspec e he hk _ _ _ _ hrow

theorem EdgeHandled.present {e : EdgeSpec} (hw : EdgeHandled arg a b) (he : unpack arg = .ok e) :
    (b.edge.lookup (edgeKey e.src e.dst e.label)).isSome := by
  obtain ⟨e', origin, seq, he', -, ⟨hno, hs⟩ | ⟨-, leaf, row, -, hw⟩⟩ := hw
  · rw [he] at he'
    cases he'
    rw [hs.edge]
    by_contra hnone
    rw [Option.not_isSome_iff_eq_none] at hnone
    refine hno fun o ho => ?_
    rw [hnone] at ho
    cases ho
  · rw [he] at he'
    cases he'
    rw [hw.edge, AList.lookup_insert]
    rfl

theorem EdgeHandled.stays (hw : EdgeHandled arg a b) (h : (a.edge.lookup key).isSome) :
    (b.edge.lookup key).isSome := by
  obtain ⟨e, origin, seq, -, -, ⟨-, hs⟩ | ⟨-, leaf, row, -, hw⟩⟩ := hw
  · rw [hs.edge]
    exact h
  · rw [hw.edge, Table.lookup_insert_of]
    split_ifs
    · rfl
    · exact h

theorem Chain.present : ∀ {args : List EdgeArg} {a b : Store}, Chain EdgeHandled args a b →
    ∀ {arg : EdgeArg} {e : EdgeSpec}, arg ∈ args → unpack arg = .ok e →
      (b.edge.lookup (edgeKey e.src e.dst e.label)).isSome
  | x :: xs, _, b, ⟨a', m, _, hx, h⟩, arg, e, hmem, he => by
    rcases List.mem_cons.mp hmem with rfl | hmem
    · have hofs : OfTables fun db => (db.edge.lookup (edgeKey e.src e.dst e.label)).isSome := by
        intro x y hs hx
        rw [hs.edge]
        exact hx
      exact h.keeps hofs (fun _ _ _ _ hw hp => hw.stays hp) (hx.present he)
    · exact h.present hmem he

variable {pub : Store} {priv : List String} {i : ℕ} {o : LeafObject}

theorem mem_edges_object (ho : leafObject pub priv i = .ok (some o)) {er : Doc} (h : er ∈ o.edges) :
    ∃ key r, pub.edge.lookup key = some r ∧ er = edgeRecord r := by
  obtain ⟨-, -, -, hedges⟩ := leafObject_some ho
  rw [hedges] at h
  have h' := List.mem_of_mem_take (List.mem_of_mem_filter h)
  obtain ⟨e, he, rfl⟩ := List.mem_map.mp h'
  have he' := (List.perm_insertionSort (fun a b : EdgeKey × ERow => a.1 ≤ b.1) _).mem_iff.mp
    (List.mem_of_mem_filter he)
  exact ⟨e.1, e.2, Table.mem_toPairs.mp he', rfl⟩

theorem mem_keptItems_lines (ho : leafObject pub priv i = .ok (some o)) {d : Doc}
    (h : d ∈ keptItems o.lines) : d ∈ keptItems o.docs := by
  obtain ⟨hrep, hauth⟩ := List.mem_filter.mp h
  obtain ⟨hmem, hcond⟩ := List.mem_filter.mp hrep
  rcases List.mem_append.mp hmem with hd | he
  · exact List.mem_filter.mpr ⟨List.mem_filter.mpr ⟨hd, hcond⟩, hauth⟩
  · obtain ⟨key, r, -, rfl⟩ := mem_edges_object ho he
    cases hcond

/-- **One pull.**  Where nothing stands in its way, a shipped edge is at the puller what it is at the
publisher. -/
theorem pull_agrees (hs : EdgesSound pub) (ho : leafObject pub priv i = .ok (some o)) {n n' : Node}
    (hi : n.inTxn = false) (happ : applySegment float o.lines o.lines n = .ok ⟨⟩ n')
    (hall : ∀ key r, pub.edge.lookup key = some r → edgeRecord r ∈ o.edges → Lands n o key r)
    (hr : pub.edge.lookup key = some r) (hship : edgeRecord r ∈ o.edges) :
    ∃ r', n'.db.edge.lookup key = some r' ∧ r.Agrees r' := by
  obtain ⟨⟨docs, stamped, a, b, c, h⟩, -, -⟩ := applySegment_applied hi happ
  have hland := hall key r hr hship
  -- the documents
  have hdocs : ∀ d' ∈ docs, ∃ d ∈ keptItems o.docs, storedForm float d = .ok d' := by
    intro d' hd'
    obtain ⟨d, hd, hform⟩ := (mapM_ok h.formed d').mp hd'
    exact ⟨d, mem_keptItems_lines ho (List.mem_of_mem_filter hd), hform⟩
  have hJ : OfTables fun db => Aged n.db o.docs db ∧ r.AgreesAt key db := by
    intro x y hxy hx
    exact ⟨aged_ofTables x y hxy hx.1, agreesAt_ofTables x y hxy hx.2⟩
  have ha : Aged n.db o.docs a ∧ r.AgreesAt key a :=
    ⟨(aged_refl n.db o.docs).opApplied (by decide) h.declined, h.declined.agreesAt hland.held⟩
  have hb : Aged n.db o.docs b ∧ r.AgreesAt key b := by
    refine h.rows.keeps hJ ?_ ha
    intro d' hd' x y hxy hx
    obtain ⟨d, hd, hform⟩ := hdocs d' hd'
    have hage := hx.1.docHandled hd hform hxy
    refine ⟨hage, ?_⟩
    rcases hxy with ⟨-, -, hs⟩ | ⟨hnew, origin, s, hv, hw⟩
    · exact agreesAt_ofTables x y hs hx.2
    · refine hw.agreesAt hx.2 ?_
      intro cid aid hp hc hk
      have hp' : placement d = some (cid, aid) := by
        rw [← hp]
        unfold placement
        rw [storedForm_get hform (k := "collection_id") (by decide) (by decide),
          storedForm_get hform (k := "root_id") (by decide) (by decide),
          storedForm_get hform (k := "id") (by decide) (by decide)]
      refine (hland.placed d hd ?_ cid aid hp' (hage.has cid hc) hk).agreesWith cid
      obtain ⟨x', -, -, -, -, haid, -⟩ := hw.row
      have hid : d.get "id" = .str x' := by
        rw [← storedForm_get hform (by decide) (by decide)]
        exact docId_ok haid
      by_cases hop : x' ∈ opIds
      · exact .inl ⟨x', hop, hid⟩
      · refine .inr (hx.1.newer hop hid ?_).1
        rw [← hnew]
        unfold verdictOf
        rw [storedForm_get hform (k := "id") (by decide) (by decide),
          storedForm_get hform (k := "_origin") (by decide) (by decide),
          storedForm_get hform (k := "_seq") (by decide) (by decide)]
  have hc : r.AgreesAt key c := h.queued.agreesAt hb.2
  -- the edges
  have hend : r.AgreesAt key n'.db := by
    refine h.links.keeps agreesAt_ofTables ?_ hc
    intro arg harg x y hxy hx
    refine hxy.agreesAt hx ?_
    intro e he hk
    obtain ⟨it, hit, hst⟩ := (mapM_ok h.linked arg).mp harg
    obtain ⟨hmem, hcond⟩ := List.mem_filter.mp hit
    rcases List.mem_append.mp hmem with hd | her
    · exact hland.read it (List.mem_filter.mpr ⟨hd, hcond⟩) arg e hst he hk
    · obtain ⟨key', r', hr', rfl⟩ := mem_edges_object ho her
      obtain ⟨arg', hst', he'⟩ := stampEdge_record hs hr' (hall key' r' hr' her).named n.origin
      rw [hst] at hst'
      cases hst'
      rw [he] at he'
      cases he'
      have hkey : key' = key := (hs.keyed key' r' hr').trans hk
      subst hkey
      rw [hr] at hr'
      cases hr'
      exact recordSpec_agrees hs hr
  obtain ⟨arg, hst, he⟩ := stampEdge_record hs hr hland.named n.origin
  have hin : arg ∈ stamped := by
    refine (mapM_ok h.linked arg).mpr ⟨edgeRecord r, ?_, hst⟩
    refine List.mem_filter.mpr ⟨List.mem_append_right _ hship, ?_⟩
    change ((Val.str r.src).truthy && (Val.str r.dst).truthy) = true
    simp [hland.named.src, hland.named.dst]
  have hsome := h.links.present hin he
  have hkey : edgeKey (recordSpec r).src (recordSpec r).dst (recordSpec r).label = key :=
    (hs.keyed key r hr).symm
  rw [hkey] at hsome
  obtain ⟨r', hr'⟩ := Option.isSome_iff_exists.mp hsome
  exact ⟨r', hr', hend r' hr'⟩

end Pull

/-! ### Runs -/

/-- A publisher and a puller. -/
structure Pair where
  pub : Node
  puller : Node

/-- What happens to the two: an event at either, or a pull of one leaf as the publisher builds it. -/
inductive PairOp
  | publisher (e : Event)
  | puller (e : Event)
  | pull (now : Val → Bool) (leaf : ℕ)

def Pair.object (p : Pair) (now : Val → Bool) (leaf : ℕ) : Option LeafObject :=
  match leafObject p.pub.db (privateSet now p.pub.db).1 leaf with
  | .ok o => o
  | .error _ => none

theorem Pair.object_ok {p : Pair} {now : Val → Bool} {leaf : ℕ} {o : LeafObject}
    (h : p.object now leaf = some o) :
    leafObject p.pub.db (privateSet now p.pub.db).1 leaf = .ok (some o) := by
  unfold Pair.object at h
  cases hleaf : leafObject p.pub.db (privateSet now p.pub.db).1 leaf with
  | error e =>
    rw [hleaf] at h
    cases h
  | ok o' =>
    rw [hleaf] at h
    exact congrArg Except.ok h

def Pair.step (float : String → Flt) (p : Pair) : PairOp → Pair
  | .publisher e => { p with pub := p.pub.event float e }
  | .puller e => { p with puller := p.puller.event float e }
  | .pull now leaf =>
    match p.object now leaf with
    | none => p
    | some o => { p with puller := p.puller.applied float o.lines o.lines }

def Pair.fresh (pub puller : Origin) (leaves leaves' : ℕ+) : Pair :=
  ⟨Node.fresh pub leaves, Node.fresh puller leaves'⟩

def Pair.Ships (p : Pair) (o : LeafObject) (key : EdgeKey) (r : ERow) : Prop :=
  p.pub.db.edge.lookup key = some r ∧ edgeRecord r ∈ o.edges

def PairOp.Lands (p : Pair) : PairOp → Prop
  | .pull now leaf => ∀ o, p.object now leaf = some o → ∀ key r, p.Ships o key r →
    Mantle.Lands p.puller o key r
  | _ => True

/-- When the apply of the pulled object returns, every edge it ships is at the puller what it is at the
publisher. -/
def PairOp.Converges (float : String → Flt) (p : Pair) : PairOp → Prop
  | .pull now leaf => ∀ o n', p.object now leaf = some o →
    applySegment float o.lines o.lines p.puller = .ok ⟨⟩ n' → ∀ key r, p.Ships o key r →
    ∃ r', n'.db.edge.lookup key = some r' ∧ r.Agrees r'
  | _ => True

/-- Every step of a run has a property, in the state it finds. -/
def Pair.Along (float : String → Flt) (P : Pair → PairOp → Prop) : Pair → List PairOp → Prop
  | _, [] => True
  | p, op :: ops => P p op ∧ (p.step float op).Along float P ops

/-- Between steps. -/
structure Pair.Inv (p : Pair) : Prop where
  pub : EdgesSound p.pub.db
  pubIdle : p.pub.inTxn = false
  puller : EdgesSound p.puller.db
  pullerIdle : p.puller.inTxn = false

theorem edgesSound_segment (float : String → Flt) (items edges : List Doc) (n : Node) :
    Keeps EdgesSound (applySegment float items edges) n :=
  keeps_applySegment edgesSound_rowRules ⟨fun _ _ _ _ => trivial, fun _ _ => trivial, fun _ _ => trivial⟩
    edges n

theorem edgesSound_event (float : String → Flt) (n : Node) (e : Event) (h : EdgesSound n.db)
    (hi : n.inTxn = false) : EdgesSound (n.event float e).db ∧ (n.event float e).inTxn = false := by
  cases e with
  | act a => exact (edgesSound_exec a n).ended (n.after_ends a) h hi
  | consume items edges =>
    exact (edgesSound_segment float items edges n).ended (n.applied_ends float items edges) h hi

theorem Pair.Inv.step {p : Pair} (h : p.Inv) (op : PairOp) :
    (p.step float op).Inv := by
  cases op with
  | publisher e =>
    obtain ⟨hs, hi⟩ := edgesSound_event float p.pub e h.pub h.pubIdle
    exact ⟨hs, hi, h.puller, h.pullerIdle⟩
  | puller e =>
    obtain ⟨hs, hi⟩ := edgesSound_event float p.puller e h.puller h.pullerIdle
    exact ⟨h.pub, h.pubIdle, hs, hi⟩
  | pull now leaf =>
    have hstep : p.step float (.pull now leaf) = match p.object now leaf with
        | none => p
        | some o => { p with puller := p.puller.applied float o.lines o.lines } := rfl
    rw [hstep]
    cases p.object now leaf with
    | none => exact h
    | some o =>
      obtain ⟨hs, hi⟩ := edgesSound_event float p.puller (.consume o.lines o.lines) h.puller h.pullerIdle
      exact ⟨h.pub, h.pubIdle, hs, hi⟩

theorem Pair.Inv.converges {p : Pair} (h : p.Inv) {op : PairOp} (hl : op.Lands p) : op.Converges float p := by
  cases op with
  | publisher e => trivial
  | puller e => trivial
  | pull now leaf =>
    intro o n' hob happ key r hship
    exact pull_agrees h.pub (Pair.object_ok hob) h.pullerIdle happ (fun key r hr hs => hl o hob key r ⟨hr, hs⟩) hship.1
      hship.2

theorem Pair.Inv.along : ∀ (ops : List PairOp) {p : Pair}, p.Inv →
    p.Along float (fun p op => op.Lands p) ops → p.Along float (PairOp.Converges float) ops
  | [], _, _, _ => trivial
  | op :: ops, _, h, hl => ⟨h.converges hl.1, (h.step op).along ops hl.2⟩

theorem pairInv_fresh (pub puller : Origin) (leaves leaves' : ℕ+) :
    (Pair.fresh pub puller leaves leaves').Inv where
  pub := edgesSound_empty
  pubIdle := rfl
  puller := edgesSound_empty
  pullerIdle := rfl

/-- **Edges converge** in every run whose pulls land: after each pull the puller's row of every shipped edge agrees with
the publisher's. -/
theorem edges_converge (float : String → Flt) (pub puller : Origin) (leaves leaves' : ℕ+)
    (ops : List PairOp)
    (h : (Pair.fresh pub puller leaves leaves').Along float (fun p op => op.Lands p) ops) :
    (Pair.fresh pub puller leaves leaves').Along float (PairOp.Converges float) ops :=
  (pairInv_fresh pub puller leaves leaves').along ops h

def linkedPull : List PairOp :=
  [.publisher (.act (.putArtifact [("id", .str "a"), ("content_type", .str "text/plain")] true false)),
   .publisher (.act (.putArtifact [("id", .str "b"), ("content_type", .str "text/plain")] true false)),
   .publisher (.act (.addEdges [.tuple (.str "a") (.str "b") (.str "link") [("w", .int 1)]] 500 true)),
   .pull (fun _ => false) 0]

def relinkedPull : List PairOp :=
  linkedPull ++
    [.publisher (.act (.addEdges [.tuple (.str "a") (.str "b") (.str "link") [("w", .int 2)]] 500 true)),
     .pull (fun _ => false) 0]

def pairHere : Pair := Pair.fresh ⟨"there", by decide⟩ .here 1 1

def Pair.pulls (float : String → Flt) (p : Pair) (leaf : ℕ) (look : LeafObject → Node → Bool) : Bool :=
  match p.object (fun _ => false) leaf with
  | none => false
  | some o =>
    match applySegment float o.lines o.lines p.puller with
    | .ok _ n' => look o n'
    | .error _ _ => false

theorem Pair.pulls_spec {p : Pair} {leaf : ℕ} {look : LeafObject → Node → Bool} (h : p.pulls float leaf look = true) :
    ∃ o n', p.object (fun _ => false) leaf = some o ∧
      applySegment float o.lines o.lines p.puller = .ok ⟨⟩ n' ∧ look o n' = true := by
  unfold Pair.pulls at h
  cases ho : p.object (fun _ => false) leaf with
  | none =>
    rw [ho] at h
    cases h
  | some o =>
    rw [ho] at h
    dsimp only at h
    cases ha : applySegment float o.lines o.lines p.puller with
    | error e n' =>
      rw [ha] at h
      cases h
    | ok u n' =>
      rw [ha] at h
      exact ⟨o, n', rfl, ha, h⟩

theorem edges_converge_linkedPull :
    pairHere.Along litFloat (fun p op => op.Lands p) linkedPull ∧
    pairHere.Along litFloat (PairOp.Converges litFloat) linkedPull ∧
    ∃ o n', (linkedPull.dropLast.foldl (Pair.step litFloat) pairHere).object (fun _ => false) 0 = some o ∧
      applySegment litFloat o.lines o.lines
        (linkedPull.dropLast.foldl (Pair.step litFloat) pairHere).puller = .ok ⟨⟩ n' ∧
      o.edges.length = 1 := by
  generalize hq : linkedPull.dropLast.foldl (Pair.step litFloat) pairHere = q
  obtain ⟨hpulls, hpub, hpull⟩ : q.pulls litFloat 0 (fun o _ => decide (o.edges.length = 1 ∧
      (∀ d ∈ keptItems o.docs, (placement d).isNone = true) ∧ (edgeItems o.docs).isEmpty = true)) = true ∧
      (∀ e ∈ q.pub.db.edge.toPairs, e.2.src ≠ "" ∧ e.2.dst ≠ "" ∧ e.2.label ≠ "") ∧
        q.puller.db.edge.toPairs.isEmpty = true := by
    subst hq
    decide +kernel
  obtain ⟨o, n', ho, happ, hlook⟩ := Pair.pulls_spec hpulls
  obtain ⟨hlen, hplain, hread⟩ := of_decide_eq_true hlook
  have hlands : (PairOp.pull (fun _ => false) 0).Lands q := by
    intro o' ho' key r hship
    rw [ho] at ho'
    cases ho'
    obtain ⟨hsrc, hdst, hlabel⟩ := hpub _ (Table.mem_toPairs.mpr hship.1)
    refine ⟨⟨hsrc, hdst, hlabel⟩, ?_, ?_, ?_⟩
    · intro r' hr'
      have := Table.mem_toPairs.mpr hr'
      rw [List.isEmpty_iff.mp hpull] at this
      cases this
    · intro d hd _ cid aid hp
      have := hplain d hd
      rw [hp] at this
      cases this
    · intro d hd
      rw [List.isEmpty_iff.mp hread] at hd
      cases hd
  have hrun : pairHere.Along litFloat (fun p op => op.Lands p) linkedPull := by
    refine ⟨trivial, trivial, trivial, ?_, trivial⟩
    rw [← hq] at hlands
    exact hlands
  exact ⟨hrun, edges_converge litFloat _ _ 1 1 linkedPull hrun, o, n', ho, happ, hlen⟩

theorem relinkedPull_diverges :
    ¬ ∀ (float : String → Flt) (pub puller : Origin) (leaves leaves' : ℕ+) (ops : List PairOp),
      (Pair.fresh pub puller leaves leaves').Along float (PairOp.Converges float) ops := by
  intro h
  have hrun := h litFloat ⟨"there", by decide⟩ ⟨"here", by decide⟩ 1 1 relinkedPull
  generalize hq : relinkedPull.dropLast.foldl (Pair.step litFloat) pairHere = q
  have hlast : (PairOp.pull (fun _ => false) 0).Converges litFloat q := by
    rw [← hq]
    exact hrun.2.2.2.2.2.1
  obtain ⟨hpulls, hpub⟩ : q.pulls litFloat 0 (fun o n' => !o.edges.isEmpty && n'.db.edge.toPairs.all fun e =>
      decide ((e.2.props.val.get "w").asInt = some 1)) = true ∧
      ∀ e ∈ q.pub.db.edge.toPairs, (e.2.props.val.get "w").asInt = some 2 := by
    subst hq
    decide +kernel
  obtain ⟨o, n', ho, happ, hlook⟩ := Pair.pulls_spec hpulls
  rw [Bool.and_eq_true, List.all_eq_true] at hlook
  obtain ⟨hne, hold⟩ := hlook
  obtain ⟨er, her⟩ : ∃ er, er ∈ o.edges := by
    cases hedges : o.edges with
    | nil =>
      rw [hedges] at hne
      cases hne
    | cons er ers => exact ⟨er, by simp⟩
  obtain ⟨key, r, hr, rfl⟩ := mem_edges_object (Pair.object_ok ho) her
  obtain ⟨r', hr', hagree⟩ := hlast o n' ho happ key r ⟨hr, her⟩
  have hold' := of_decide_eq_true (hold _ (Table.mem_toPairs.mpr hr'))
  dsimp only at hold'
  rw [hagree.props, hpub _ (Table.mem_toPairs.mpr hr)] at hold'
  cases hold'

end Mantle
