import Mantle.Base.Sim
import Mantle.Db.Tables

/-!
# Mantle.Db.Atomic — an item of a bulk write that raises leaves nothing behind

The bulk paths put each item under a savepoint and put the cached counter back when it raises, but not the allocator's
dirty flag.
-/

namespace Mantle

open Tx

variable {b : Bool} {leaf : ℕ} {m s' u : Node} {origin : String} {seq : ℤ}

variable {n n' s t : Node} {β : Type}

/-! ### What an item can see of its node -/

/-- Nodes that an operation cannot tell apart: the same store, counter and leaf counts. -/
structure Blind (R : Node → Node → Prop) : Prop where
  origin : ∀ s t, R s t → t.origin = s.origin
  store : ∀ s t, R s t → t.db = s.db
  cache : ∀ s t, R s t → t.cache = s.cache
  leaves : ∀ s t, R s t → t.leaves = s.leaves
  face : ∀ s t, R s t → t.face.getD t.leaves = s.face.getD s.leaves
  onDb : ∀ s t db, R s t → R { s with db := db } { t with db := db }
  allocate : ∀ s t c, R s t → R { s with cache := some c, dirty := true } { t with cache := some c, dirty := true }
  onFace : ∀ s t, R s t → R { s with face := some (s.face.getD s.leaves) } { t with face := some (s.face.getD s.leaves) }
  unplace : ∀ s t j k, R s t → R { s with unplaced := j } { t with unplaced := k }

section Sims

variable {R : Node → Node → Prop} (hR : Blind R) {s t : Node}
include hR

theorem sim_onDb (f : Store → Store) (h : R s t) : Sim R (Mantle.onDb f) (Mantle.onDb f) s t := by
  refine sim_modify ?_
  rw [hR.store s t h]
  exact hR.onDb s t _ h

theorem sim_readDb {α : Type} {f : Store → α} {g g' : α → DbM β} (h : R s t)
    (hg : Sim R (g (f s.db)) (g' (f s.db)) s t) : Sim R (readDb f >>= g) (readDb f >>= g') s t := by
  change Sim R (g (f s.db)) (g' (f t.db)) s t
  rw [hR.store s t h]
  exact hg

theorem sim_observeSeq (origin : String) (seq : ℤ) (h : R s t) :
    Sim R (observeSeq origin seq) (observeSeq origin seq) s t :=
  sim_bind (sim_ofExcept h) fun _ _ _ h => sim_onDb hR _ h

theorem sim_allocate (h : R s t) : Sim R Mantle.allocate Mantle.allocate s t := by
  unfold Mantle.allocate
  refine sim_get ?_
  rw [hR.cache s t h, hR.store s t h, hR.origin s t h]
  exact sim_bind (sim_modify (hR.allocate s t _ h)) fun _ _ _ h => sim_pure h

theorem sim_xorEdge (key : EdgeKey) (leaf : ℕ) (content : Doc) (h : R s t) :
    Sim R (xorEdge key leaf content) (xorEdge key leaf content) s t :=
  sim_bind (sim_ofExcept h) fun _ _ _ h => sim_onDb hR _ h

theorem sim_writeEdge (key : EdgeKey) (leaf : ℕ) (e : EdgeSpec) (old : Option ERow) (origin : String) (seq : ℤ)
    (h : R s t) : Sim R (writeEdge key leaf e old origin seq) (writeEdge key leaf e old origin seq) s t := by
  unfold writeEdge
  refine sim_bind (sim_ofExcept h) fun row s t h => ?_
  refine sim_bind (sim_onDb hR _ h) fun _ s t h => ?_
  cases old with
  | none =>
    refine sim_bind (sim_xorEdge hR _ _ _ h) fun _ s t h => ?_
    exact sim_bind (sim_onDb hR _ h) fun _ s t h => sim_onDb hR _ h
  | some o =>
    refine sim_bind (sim_xorEdge hR _ _ _ h) fun _ s t h => ?_
    refine sim_bind (sim_xorEdge hR _ _ _ h) fun _ s t h => ?_
    exact sim_bind (sim_onDb hR _ h) fun _ s t h => sim_onDb hR _ h

theorem sim_addOne (leaves : ℕ+) (arg : EdgeArg) (stampRev : Bool) (h : R s t) :
    Sim R (addOne leaves arg stampRev) (addOne leaves arg stampRev) s t := by
  have hwritten : ∀ {s t : Node} (key : EdgeKey) (leaf : ℕ) (e : EdgeSpec) (old : Option ERow) (origin : String)
      (seq : ℤ), R s t → Sim R (do writeEdge key leaf e old origin seq; pure 1)
        (do writeEdge key leaf e old origin seq; pure 1) s t :=
    fun key leaf e old origin seq h => sim_bind (sim_writeEdge hR key leaf e old origin seq h) fun _ _ _ h =>
      sim_pure h
  unfold addOne
  refine sim_bind (sim_ofExcept h) fun e s t h => ?_
  refine sim_readDb hR h ?_
  refine sim_ite (fun _ => sim_get ?_) fun _ => ?_
  · rw [hR.origin s t h]
    exact sim_bind (sim_allocate hR h) fun seq s t h => hwritten _ _ _ _ _ _ h
  · cases incomingVersion (e.props.get "_origin") (e.props.get "_seq") with
    | none => exact sim_throw h
    | some v =>
      refine sim_bind (sim_observeSeq hR _ _ h) fun _ s' t' h => ?_
      cases s.db.edge.lookup (edgeKey e.src e.dst e.label) with
      | none => exact hwritten _ _ _ _ _ _ h
      | some o =>
        dsimp only
        cases compareVersion (.str v.1) (.int v.2) o.origin o.seq with
        | newer => exact hwritten _ _ _ _ _ _ h
        | unordered => exact sim_bind (sim_onDb hR _ h) fun _ _ _ h => sim_pure h
        | older => exact sim_pure h
        | same => exact sim_pure h

theorem sim_place (doc : Doc) (h : R s t) : Sim R (place doc) (place doc) s t := by
  unfold place
  cases placement doc with
  | none => exact sim_pure h
  | some p =>
    refine sim_get ?_
    rw [hR.store s t h]
    cases s.db.vertex.lookup p.1 with
    | none => exact sim_modify (hR.unplace s t _ _ h)
    | some r =>
      dsimp only
      rw [hR.face s t h]
      refine sim_bind (sim_modify (hR.onFace s t h)) fun _ s t h => ?_
      exact sim_bind (sim_addOne hR _ _ _ h) fun _ _ _ h => sim_pure h

theorem sim_syncTask (aid : String) (old new : Option Doc) (ct : Val) (h : R s t) :
    Sim R (syncTask aid old new ct) (syncTask aid old new ct) s t := by
  unfold syncTask uncountTask storeTask
  refine sim_bind ?_ fun _ s t h => ?_
  · cases fieldText old "status" with
    | none => exact sim_pure h
    | some status =>
      cases fieldText old "content_type" with
      | none => exact sim_pure h
      | some oldCt => exact sim_onDb hR _ h
  · cases new with
    | none => exact sim_onDb hR _ h
    | some d =>
      cases fieldText (some d) "status" with
      | none => exact sim_onDb hR _ h
      | some status =>
        refine sim_ite (fun _ => ?_) fun _ => sim_onDb hR _ h
        refine sim_bind (sim_onDb hR _ h) fun _ s t h => ?_
        exact sim_bind (sim_ofExcept h) fun _ _ _ h => sim_onDb hR _ h

theorem sim_followRow (aid : String) (prev : Option VRow) (d : Doc) (h : R s t) :
    Sim R (followRow aid prev d) (followRow aid prev d) s t := by
  unfold followRow recount countNew bumpAll
  refine sim_bind (sim_bind ?_ fun _ s t h => sim_onDb hR _ h) fun _ s t h => ?_
  · exact sim_ite (fun _ => sim_onDb hR _ h) fun _ => sim_pure h
  · refine sim_bind (sim_syncTask hR _ _ _ _ h) fun _ s t h => ?_
    exact sim_bind (sim_place hR _ h) fun _ _ _ h => sim_pure h

theorem sim_writeVertex (aid : String) (leaf : ℕ) (d : Doc) (prev : Option VRow) (origin : String) (seq : Val)
    (h : R s t) : Sim R (writeVertex aid leaf d prev origin seq) (writeVertex aid leaf d prev origin seq) s t := by
  unfold writeVertex
  refine sim_bind (sim_ofExcept h) fun n s t h => ?_
  refine sim_bind (sim_ofExcept h) fun row s t h => ?_
  refine sim_bind (sim_onDb hR _ h) fun _ s t h => ?_
  cases prev with
  | none => exact sim_bind (sim_onDb hR _ h) fun _ _ _ h => sim_onDb hR _ h
  | some p =>
    refine sim_bind (sim_onDb hR _ h) fun _ s t h => ?_
    refine sim_bind (sim_onDb hR _ h) fun _ s t h => ?_
    exact sim_bind (sim_onDb hR _ h) fun _ _ _ h => sim_onDb hR _ h

theorem sim_writeRow (doc : Doc) (origin : String) (seq : Val) (h : R s t) :
    Sim R (writeRow doc origin seq) (writeRow doc origin seq) s t := by
  unfold writeRow
  refine sim_bind (sim_ofExcept h) fun aid s t h => ?_
  refine sim_get ?_
  rw [hR.store s t h, hR.leaves s t h]
  exact sim_bind (sim_writeVertex hR _ _ _ _ _ _ h) fun _ _ _ h => sim_followRow hR _ _ _ h

theorem sim_putOne (stampRev : Bool) (onUnordered : OnUnordered) (doc : Doc) (h : R s t) :
    Sim R (putOne stampRev onUnordered doc) (putOne stampRev onUnordered doc) s t := by
  have hwritten : ∀ {s t : Node} (v : String × Val), R s t → Sim R (putWritten doc v) (putWritten doc v) s t :=
    fun v h => sim_bind (sim_writeRow hR doc v.1 v.2 h) fun _ _ _ h => sim_pure h
  unfold putOne
  refine sim_ite (fun _ => sim_throw h) fun _ => sim_bind ?_ fun v s t h => ?_
  · unfold versionFor
    refine sim_ite (fun _ => sim_get ?_) fun _ => ?_
    · rw [hR.origin s t h]
      exact sim_bind (sim_allocate hR h) fun _ _ _ h => sim_pure h
    · cases incomingVersion (doc.get "_origin") (doc.get "_seq") with
      | none => exact sim_throw h
      | some v => exact sim_pure h
  · refine sim_ite (fun _ => hwritten v h) fun _ => ?_
    refine sim_bind ?_ fun _ s t h => ?_
    · unfold observeIncoming
      cases v.2.asInt with
      | none => exact sim_pure h
      | some n => exact sim_observeSeq hR _ _ h
    · refine sim_bind ?_ fun verdict s t h => ?_
      · unfold lww rowById
        refine sim_bind (sim_bind (sim_ofExcept h) fun c s t h => ?_) fun row s t h => ?_
        · cases c with
          | str x => exact ⟨congrArg (fun db : Store => db.vertex.lookup x) (hR.store s t h).symm, h⟩
          | _ => exact sim_pure h
        · cases row with
          | none => exact sim_pure h
          | some r => exact sim_pure h
      · cases verdict with
        | newer => exact hwritten v h
        | unordered =>
          cases onUnordered with
          | keepLocal => exact sim_bind (sim_onDb hR _ h) fun _ _ _ h => sim_pure h
          | takeRemote => exact hwritten v h
          | error => exact sim_throw h
        | older => exact sim_pure h
        | same => exact sim_pure h

end Sims

/-! ### Turns -/

/-- What happened at an item's turn: whether it raised, and whether it had taken a sequence number. -/
structure Turn where
  raised : Bool
  took : Bool
deriving DecidableEq, Repr

section Items

variable {α : Type} (one : α → DbM ℕ)

/-- The turn of an item; its flag starts clean, so that the flag it ends with says whether a number was taken. -/
def turn (n : Node) (x : α) : Turn :=
  match one x { n with dirty := false } with
  | .ok _ n' => ⟨false, n'.dirty⟩
  | .error _ n' => ⟨true, n'.dirty⟩

def afterItem (n : Node) (x : α) : Node :=
  match one x n with
  | .ok _ n' => n'
  | .error _ n' => rollbackTo n n'

def turns : Node → List α → List Turn
  | _, [] => []
  | n, x :: xs => turn one n x :: turns (afterItem one n x) xs

/-- The items that did not raise at their turn. -/
def kept : Node → List α → List α
  | _, [] => []
  | n, x :: xs =>
    if (turn one n x).raised then kept (afterItem one n x) xs else x :: kept (afterItem one n x) xs

def countItem (k : ℕ) (x : α) : DbM ℕ := do
  let j ← one x
  pure (k + j)

def applyItems (xs : List α) : DbM ℕ := xs.foldlM (countItem one) 0

/-- Sequence numbers were taken, and only by items that raised. -/
def Stranded (ts : List Turn) : Prop := (∃ t ∈ ts, t.took = true) ∧ ∀ t ∈ ts, t.took = true → t.raised = true

instance (ts : List Turn) : Decidable (Stranded ts) := inferInstanceAs (Decidable (_ ∧ _))

/-- The node after a transaction of the items that do not raise in it. -/
def afterChunk (n : Node) (c : List α) : Node :=
  match write (applyItems one (kept one n.begin c)) n with
  | .ok _ n' => n'
  | .error _ n' => n'

end Items

/-! ### Nodes alike -/

/-- What no item changes. -/
structure Fixed (s t : Node) : Prop where
  origin : t.origin = s.origin
  leaves : t.leaves = s.leaves
  graphLeaves : t.graphLeaves = s.graphLeaves
  inTxn : t.inTxn = s.inTxn
  face : t.face.getD t.leaves = s.face.getD s.leaves

theorem Fixed.refl (s : Node) : Fixed s s := ⟨rfl, rfl, rfl, rfl, rfl⟩

theorem Fixed.trans (h : Fixed s t) (h' : Fixed t u) : Fixed s u :=
  ⟨h'.origin.trans h.origin, h'.leaves.trans h.leaves, h'.graphLeaves.trans h.graphLeaves, h'.inTxn.trans h.inTxn,
    h'.face.trans h.face⟩

theorem Fixed.symm (h : Fixed s t) : Fixed t s :=
  ⟨h.origin.symm, h.leaves.symm, h.graphLeaves.symm, h.inTxn.symm, h.face.symm⟩

/-- Two nodes that differ in the dirty flag, the tally of the unplaced, and whether the face is built. -/
structure Alike (s t : Node) : Prop extends Fixed s t where
  db : t.db = s.db
  cache : t.cache = s.cache

theorem Alike.refl (s : Node) : Alike s s := ⟨Fixed.refl s, rfl, rfl⟩

theorem Alike.trans (h : Alike s t) (h' : Alike t u) : Alike s u :=
  ⟨h.toFixed.trans h'.toFixed, h'.db.trans h.db, h'.cache.trans h.cache⟩

theorem Alike.symm (h : Alike s t) : Alike t s := ⟨h.toFixed.symm, h.db.symm, h.cache.symm⟩

/-- A sequence number was taken, or the counter and its flag are as they were. -/
def Moved (s s' : Node) : Bool → Prop
  | true => s'.dirty = true ∧ s'.cache.isSome = true
  | false => s'.cache = s.cache ∧ s'.dirty = s.dirty

/-- Two runs of one item, from `s₀` and `t₀`. -/
def SideBySide (s₀ t₀ s t : Node) : Prop := Alike s t ∧ Fixed s₀ s ∧ ∃ b, Moved s₀ s b ∧ Moved t₀ t b

theorem sideBySide_blind (s₀ t₀ : Node) : Blind (SideBySide s₀ t₀) where
  origin := fun _ _ h => h.1.origin
  store := fun _ _ h => h.1.db
  cache := fun _ _ h => h.1.cache
  leaves := fun _ _ h => h.1.leaves
  face := fun _ _ h => h.1.face
  onDb := by
    rintro s t db ⟨ha, hf, b, hs, ht⟩
    refine ⟨⟨⟨ha.origin, ha.leaves, ha.graphLeaves, ha.inTxn, ha.face⟩, rfl, ha.cache⟩,
      ⟨hf.origin, hf.leaves, hf.graphLeaves, hf.inTxn, hf.face⟩, b, ?_⟩
    cases b <;> exact ⟨hs, ht⟩
  allocate := by
    rintro s t c ⟨ha, hf, -⟩
    exact ⟨⟨⟨ha.origin, ha.leaves, ha.graphLeaves, ha.inTxn, ha.face⟩, ha.db, rfl⟩,
      ⟨hf.origin, hf.leaves, hf.graphLeaves, hf.inTxn, hf.face⟩, true, ⟨rfl, rfl⟩, rfl, rfl⟩
  onFace := by
    rintro s t ⟨ha, hf, b, hs, ht⟩
    refine ⟨⟨⟨ha.origin, ha.leaves, ha.graphLeaves, ha.inTxn, rfl⟩, ha.db, ha.cache⟩,
      ⟨hf.origin, hf.leaves, hf.graphLeaves, hf.inTxn, hf.face⟩, b, ?_⟩
    cases b <;> exact ⟨hs, ht⟩
  unplace := by
    rintro s t j k ⟨ha, hf, b, hs, ht⟩
    refine ⟨⟨⟨ha.origin, ha.leaves, ha.graphLeaves, ha.inTxn, ha.face⟩, ha.db, ha.cache⟩,
      ⟨hf.origin, hf.leaves, hf.graphLeaves, hf.inTxn, hf.face⟩, b, ?_⟩
    cases b <;> exact ⟨hs, ht⟩

theorem sideBySide_start (h : Alike s t) : SideBySide s t s t :=
  ⟨h, Fixed.refl s, false, ⟨rfl, rfl⟩, rfl, rfl⟩

def CacheBound (n : Node) : Prop := ∀ c, n.cache = some c → bindInt c = .ok c

/-- The item sees nothing of its node that a savepoint does not restore, counts for one, and leaves a counter that can
be written. -/
structure Itemwise {α : Type} (one : α → DbM ℕ) : Prop where
  sim : ∀ R, Blind R → ∀ s t x, R s t → Sim R (one x) (one x) s t
  counts : ∀ x n, Runs (one x) n (fun k _ => k = 1) fun _ => True
  bound : ∀ x n, CacheBound n → Runs (one x) n (fun _ => CacheBound) fun _ => True

/-! ### One transaction -/

section Chunk

variable {α : Type} {one : α → DbM ℕ}

/-- The number was taken by an item that stayed. -/
def Turn.lasts (t : Turn) : Bool := t.took && !t.raised

theorem Moved.dirty (h : Moved s s' b) : s'.dirty = (s.dirty || b) := by
  cases b with
  | true => simp [h.1]
  | false => simp [h.2]

theorem Moved.cache (h : Moved s s' b) : s'.cache.isSome = (s.cache.isSome || b) := by
  cases b with
  | true => simp [h.2]
  | false => simp [h.1]

theorem turn_spec (hone : Itemwise one) (h : Alike n t) (x : α) :
    match one x t with
    | .ok k t' => k = 1 ∧ (turn one n x).raised = false ∧ Moved t t' (turn one n x).took
    | .error _ t' => (turn one n x).raised = true ∧ Moved t t' (turn one n x).took ∧ Fixed t t' := by
  have hclean : Alike { n with dirty := false } t :=
    ⟨⟨h.origin, h.leaves, h.graphLeaves, h.inTxn, h.face⟩, h.db, h.cache⟩
  have hsim := hone.sim _ (sideBySide_blind { n with dirty := false } t) _ _ x (sideBySide_start hclean)
  -- from a clean flag, the flag at the end is the turn's
  have hflag : ∀ {m t' : Node}, SideBySide { n with dirty := false } t m t' → Moved t t' m.dirty ∧ Fixed t t' := by
    rintro m t' ⟨ha, hf, b, hm, ht⟩
    have hb : m.dirty = b := hm.dirty.trans (Bool.false_or b)
    exact ⟨hb ▸ ht, hclean.symm.toFixed.trans (hf.trans ha.toFixed)⟩
  unfold turn
  cases hm : one x { n with dirty := false } with
  | ok k m =>
    obtain ⟨t', ht, hb⟩ := hsim.ok hm
    rw [ht]
    exact ⟨(hone.counts x t).ok ht, rfl, (hflag hb).1⟩
  | error e m =>
    obtain ⟨t', ht, hb⟩ := hsim.error hm
    rw [ht]
    exact ⟨rfl, hflag hb⟩

theorem rollbackTo_alike (h : Fixed n n') : Alike n (rollbackTo n n') :=
  ⟨⟨h.origin, h.leaves, h.graphLeaves, h.inTxn, h.face⟩, rfl, rfl⟩

/-- **A transaction**, with savepoints from `s` and with only the items that stay from `t`. -/
theorem chunk_runs (hone : Itemwise one) : ∀ (xs : List α) (n s t : Node) (j k : ℕ), Alike n s → Alike n t →
    CacheBound n → ∃ s' t',
      xs.foldlM (countItem fun x => savepoint (one x)) j s = .ok (j + (kept one n xs).length) s' ∧
      (kept one n xs).foldlM (countItem one) k t = .ok (k + (kept one n xs).length) t' ∧
      Alike s' t' ∧ Fixed n s' ∧ CacheBound s' ∧ s'.dirty = (s.dirty || (turns one n xs).any Turn.took) ∧
      s'.cache.isSome = (s.cache.isSome || (turns one n xs).any Turn.lasts) ∧
      t'.dirty = (t.dirty || (turns one n xs).any Turn.lasts)
  | [], n, s, t, j, k, hs, ht, hb => by
    refine ⟨s, t, rfl, rfl, hs.symm.trans ht, hs.toFixed, ?_, ?_, ?_, ?_⟩
    · intro c hc
      exact hb c (hs.cache ▸ hc)
    · simp [turns]
    · simp [turns]
    · simp [turns]
  | x :: xs, n, s, t, j, k, hs, ht, hb => by
    have hturnN := turn_spec hone (Alike.refl n) x
    have hturnS := turn_spec hone hs x
    have hturnT := turn_spec hone ht x
    have hsim := fun {t : Node} (h : Alike n t) => hone.sim _ (sideBySide_blind n t) _ _ x (sideBySide_start h)
    rw [List.foldlM_cons, kept, turns, List.any_cons, List.any_cons]
    cases hn : one x n with
    | ok i n' =>
      obtain ⟨s', hs', hns⟩ := (hsim hs).ok hn
      obtain ⟨t', ht', hnt⟩ := (hsim ht).ok hn
      rw [hn] at hturnN
      rw [hs'] at hturnS
      rw [ht'] at hturnT
      obtain ⟨rfl, hraised, -⟩ := hturnN
      have hafter : afterItem one n x = n' := by
        unfold afterItem
        rw [hn]
      have hlasts : (turn one n x).lasts = (turn one n x).took := by
        unfold Turn.lasts
        rw [hraised]
        simp
      obtain ⟨s₂, t₂, hrunS, hrunT, halike, hfixed, hbound, hds, hcs, hdt⟩ :=
        chunk_runs hone xs n' s' t' (j + 1) (k + 1) hns.1 hnt.1 ((hone.bound x n hb).ok hn)
      refine ⟨s₂, t₂, ?_, ?_, halike, hns.2.1.trans hfixed, hbound, ?_, ?_, ?_⟩
      · rw [hraised, hafter, if_neg Bool.false_ne_true, List.length_cons, ← Nat.add_assoc, Nat.add_right_comm]
        have hsave : countItem (fun x => savepoint (one x)) j x s = .ok (j + 1) s' := by
          simp only [countItem, savepoint, bind, EStateM.bind, attempt, hs', pure, EStateM.pure, Option.getD_some]
        rw [bind_of_ok hsave, hrunS]
      · rw [hraised, hafter, if_neg Bool.false_ne_true, List.length_cons, List.foldlM_cons, ← Nat.add_assoc,
          Nat.add_right_comm]
        have hplain : countItem one k x t = .ok (k + 1) t' := by
          simp only [countItem, bind, EStateM.bind, ht', pure, EStateM.pure]
        rw [bind_of_ok hplain, hrunT]
      · rw [hds, hturnS.2.2.dirty, hafter, Bool.or_assoc]
      · rw [hcs, hturnS.2.2.cache, hafter, hlasts, Bool.or_assoc]
      · rw [hdt, hturnT.2.2.dirty, hafter, hlasts, Bool.or_assoc]
    | error e n' =>
      obtain ⟨s', hs', hns⟩ := (hsim hs).error hn
      rw [hn] at hturnN
      rw [hs'] at hturnS
      obtain ⟨hraised, -, hfixN⟩ := hturnN
      obtain ⟨-, hmoved, hfixS⟩ := hturnS
      have hafter : afterItem one n x = rollbackTo n n' := by
        unfold afterItem
        rw [hn]
      have hback := rollbackTo_alike hfixN
      have hlasts : (turn one n x).lasts = false := by
        unfold Turn.lasts
        rw [hraised]
        simp
      obtain ⟨s₂, t₂, hrunS, hrunT, halike, hfixed, hbound, hds, hcs, hdt⟩ :=
        chunk_runs hone xs (rollbackTo n n') (rollbackTo s s') t j k
          (hback.symm.trans (hs.trans (rollbackTo_alike hfixS))) (hback.symm.trans ht) hb
      refine ⟨s₂, t₂, ?_, ?_, halike, hback.toFixed.trans hfixed, hbound, ?_, ?_, ?_⟩
      · rw [hraised, hafter, if_pos rfl]
        have hsave : countItem (fun x => savepoint (one x)) j x s = .ok j (rollbackTo s s') := by
          simp only [countItem, savepoint, bind, EStateM.bind, attempt, hs', pure, EStateM.pure, Option.getD_none,
            Nat.add_zero]
        rw [bind_of_ok hsave, hrunS]
      · rw [hraised, hafter, if_pos rfl, hrunT]
      · rw [hds, hafter, ← Bool.or_assoc, ← hmoved.dirty]
        rfl
      · rw [hcs, hafter, hlasts, Bool.false_or]
        rfl
      · rw [hdt, hafter, hlasts, Bool.false_or]

theorem stranded_iff {ts : List Turn} :
    Stranded ts ↔ ts.any Turn.took = true ∧ ts.any Turn.lasts = false := by
  unfold Stranded Turn.lasts
  simp only [List.any_eq_true, List.any_eq_false, Bool.and_eq_true, Bool.not_eq_true', not_and,
    Bool.not_eq_false]

theorem lasts_took {ts : List Turn} (h : ts.any Turn.lasts = true) : ts.any Turn.took = true := by
  simp only [List.any_eq_true, Turn.lasts, Bool.and_eq_true] at h ⊢
  obtain ⟨t, ht, htook, -⟩ := h
  exact ⟨t, ht, htook⟩

theorem flush_bound (hb : CacheBound s) (h : s.dirty = true → s.cache.isSome = true) :
    flush s = .ok ⟨⟩ s.flushed := by
  have hget : (get : DbM Node) s = .ok s s := rfl
  unfold flush Node.flushed
  rw [bind_of_ok hget]
  cases hd : s.dirty with
  | false => rfl
  | true =>
    obtain ⟨c, hc⟩ := Option.isSome_iff_exists.mp (h hd)
    simp only [if_true, hc, hb c hc]
    rw [← hc]
    rfl

theorem flush_stranded (hd : s.dirty = true) (hc : s.cache = none) : ∃ e, flush s = .error e s := by
  have hget : (get : DbM Node) s = .ok s s := rfl
  unfold flush
  rw [bind_of_ok hget]
  simp only [hd, if_true, hc]
  exact ⟨_, rfl⟩

theorem write_of_ok {body : DbM β} {b : β} (hi : n.inTxn = false) (hbody : body n.begin = .ok b s) :
    write body n = match flush s with
      | .ok _ s' => .ok b s'.end
      | .error e s' => .error e { s' with db := n.db }.end := by
  rw [write_own hi, bind_of_ok hbody]
  simp only [bind, EStateM.bind, pure, EStateM.pure]
  cases flush s <;> rfl

theorem flushed_alike (h : Alike s t) (hd : t.dirty = s.dirty) : Alike s.flushed.end t.flushed.end := by
  obtain ⟨⟨ho, hl, hg, hi, hf⟩, hdb, hc⟩ := h
  unfold Node.flushed Node.end
  rw [hd, hc]
  cases s.dirty with
  | false => exact ⟨⟨ho, hl, hg, rfl, hf⟩, hdb, rfl⟩
  | true =>
    cases s.cache with
    | none => exact ⟨⟨ho, hl, hg, rfl, hf⟩, hdb, rfl⟩
    | some c =>
      refine ⟨⟨ho, hl, hg, rfl, hf⟩, ?_, rfl⟩
      dsimp only
      rw [hdb, ho]

theorem begin_alike (h : Alike n m) : Alike n.begin m.begin :=
  ⟨⟨h.origin, h.leaves, h.graphLeaves, rfl, h.face⟩, h.db, rfl⟩

/-- **One chunk**: it raises when it is stranded, and else it is committed as the items that stay would be. -/
theorem chunk_write (hone : Itemwise one) (h : Alike n m) (hi : n.inTxn = false) (c : List α) :
    (Stranded (turns one n.begin c) →
      ∃ e m', write (c.foldlM (countItem fun x => savepoint (one x)) 0) m = .error e m') ∧
    (¬Stranded (turns one n.begin c) → ∃ m',
      write (c.foldlM (countItem fun x => savepoint (one x)) 0) m = .ok (kept one n.begin c).length m' ∧
        write (applyItems one (kept one n.begin c)) n = .ok (kept one n.begin c).length (afterChunk one n c) ∧
        Alike (afterChunk one n c) m' ∧ (afterChunk one n c).inTxn = false) := by
  have hbound : CacheBound n.begin := fun c hc => nomatch hc
  obtain ⟨s, t, hs, ht, halike, -, hbs, hds, hcs, hdt⟩ :=
    chunk_runs hone c n.begin m.begin n.begin 0 0 (begin_alike h) (Alike.refl _) hbound
  rw [Nat.zero_add] at hs ht
  rw [show m.begin.dirty = false from rfl, Bool.false_or] at hds
  rw [show m.begin.cache = none from rfl, Option.isSome_none, Bool.false_or] at hcs
  rw [show n.begin.dirty = false from rfl, Bool.false_or] at hdt
  rw [stranded_iff]
  constructor
  · rintro ⟨htook, hlasts⟩
    rw [hlasts, Option.isSome_eq_false_iff, Option.isNone_iff_eq_none] at hcs
    obtain ⟨e, he⟩ := flush_stranded (hds.trans htook) hcs
    exact ⟨e, _, by rw [write_of_ok (h.inTxn.trans hi) hs, he]⟩
  · intro hnot
    -- a number was taken exactly when one was taken to stay
    have hsame : (turns one n.begin c).any Turn.took = (turns one n.begin c).any Turn.lasts := by
      cases hl : (turns one n.begin c).any Turn.lasts with
      | true => exact lasts_took hl
      | false =>
        by_contra htook
        exact hnot ⟨by simpa using htook, hl⟩
    have hflushS := flush_bound hbs fun hd => by rw [hcs, ← hsame, ← hds, hd]
    have hbt : CacheBound t := fun c hc => hbs c (halike.cache ▸ hc)
    have hflushT := flush_bound hbt fun hd => by rw [halike.cache, hcs, ← hdt, hd]
    have hwriteT : write (applyItems one (kept one n.begin c)) n =
        .ok (kept one n.begin c).length t.flushed.end := by
      have hbody : applyItems one (kept one n.begin c) n.begin = .ok (kept one n.begin c).length t := ht
      rw [write_of_ok hi hbody, hflushT]
    have hafter : afterChunk one n c = t.flushed.end := by
      unfold afterChunk
      rw [hwriteT]
    rw [hafter]
    refine ⟨s.flushed.end, ?_, hwriteT, (flushed_alike halike (by rw [hdt, hds, hsame])).symm, rfl⟩
    rw [write_of_ok (h.inTxn.trans hi) hs, hflushS]

end Chunk

/-! ### The items of the store -/

/-- What is asked of a run: the sequence numbers it authors can be written to their column. -/
def Adm.bindable : Adm where
  consumedVertex := fun _ _ _ => True
  authoredVertex := fun _ row => bindInt row.seq = .ok row.seq
  consumedEdge := fun _ _ _ => True
  authoredEdge := fun _ row _ => bindInt row.seq = .ok row.seq
  observed := fun _ _ => True
  evict := True
  patch := True

theorem retires_cache (h : Relation.ReflTransGen Retire n n') : n'.cache = n.cache := by
  induction h with
  | refl => rfl
  | tail _ hs ih =>
    rw [← ih]
    cases hs <;> rfl

theorem micro_bound (hb : CacheBound n) (h : Micro .bindable n n') : CacheBound n' := by
  cases h with
  | retire h =>
    cases h <;> exact hb
  | authorVertex ha _ hs _ =>
    intro c hc
    cases hc
    exact ha
  | authorEdge ha _ hs _ _ =>
    intro c hc
    cases hc
    exact ha
  | @drop n₁ aid r hr h =>
    intro c hc
    exact hb c ((retires_cache h).symm.trans hc)
  | _ => exact hb

theorem inner_bound {m : DbM β} (h : Inner .bindable m n) (hb : CacheBound n) :
    Runs m n (fun _ => CacheBound) fun _ => True :=
  h.mono (fun _ _ hm => micros_induct (fun _ _ => micro_bound) hm hb) fun _ _ => trivial

theorem edgeRow_bound {e : EdgeSpec} {row : ERow} (h : edgeRow e origin seq leaf = .ok row) :
    bindInt seq = .ok seq := by
  obtain ⟨_, _, _, _, -, -, -, -, hs, -⟩ := edgeRow_stored h
  exact hs

theorem vertexRow_bound {d : Doc} {row : VRow} (h : vertexRow d origin seq leaf = .ok row) : bindInt seq = .ok seq :=
  (vertexRow_binds h).2.2.2.2.1

theorem edgeAdm_bindable (stampRev : Bool) (arg : EdgeArg) : EdgeAdm .bindable stampRev arg := by
  intro e _ h _
  refine ⟨?_, fun _ _ _ _ _ _ _ _ => trivial⟩
  intro _ origin seq leaf row old hrow
  show bindInt (upsertEdge old row).seq = .ok (upsertEdge old row).seq
  rw [(upsertEdge_fields old row).2.1, (edgeRow_ok hrow).2.1]
  exact edgeRow_bound hrow

theorem docAdm_bindable (stampRev : Bool) (doc : Doc) : DocAdm .bindable stampRev doc := by
  intro aid _ origin seq s leaf prev row hrow
  refine ⟨fun _ _ => ?_, fun _ _ _ => trivial⟩
  show bindInt (upsertVertex prev row).seq = .ok (upsertVertex prev row).seq
  rw [(upsertVertex_fields prev row).2.1, (vertexRow_ok hrow).2.1]
  exact vertexRow_bound hrow

theorem runs_any (m : DbM β) (n : Node) : Runs m n (fun _ _ => True) fun _ => True := by
  unfold Runs
  split <;> trivial

theorem putOne_counts (stampRev : Bool) (onUnordered : OnUnordered) (doc : Doc) (n : Node) :
    Runs (putOne stampRev onUnordered doc) n (fun k _ => k = 1) fun _ => True := by
  have hwritten : ∀ v n, Runs (putWritten doc v) n (fun k _ => k = 1) fun _ => True :=
    fun v n => runs_bind ((runs_any _ n).mono (fun _ _ _ => runs_pure rfl) fun _ _ => trivial)
  unfold putOne
  refine runs_ite (fun _ => runs_throw trivial) fun _ => runs_bind ((runs_any _ n).mono ?_ fun _ _ => trivial)
  rintro v n₁ -
  refine runs_ite (fun _ => hwritten v n₁) fun _ => runs_bind ((runs_any _ n₁).mono ?_ fun _ _ => trivial)
  rintro - n₂ -
  refine runs_bind ((runs_any _ n₂).mono ?_ fun _ _ => trivial)
  rintro verdict n₃ -
  cases verdict with
  | newer => exact hwritten v n₃
  | unordered =>
    cases onUnordered with
    | keepLocal => exact runs_bind ((runs_any _ n₃).mono (fun _ _ _ => runs_pure rfl) fun _ _ => trivial)
    | takeRemote => exact hwritten v n₃
    | error => exact runs_throw trivial
  | older => exact runs_pure rfl
  | same => exact runs_pure rfl

theorem putOne_itemwise (stampRev : Bool) (onUnordered : OnUnordered) :
    Itemwise (putOne stampRev onUnordered) where
  sim := fun _ hR _ _ doc h => sim_putOne hR stampRev onUnordered doc h
  counts := putOne_counts stampRev onUnordered
  bound := fun _ n hb => inner_bound (inner_putOne (fun _ _ => edgeAdm_bindable _ _)
    ⟨docAdm_bindable _ _, fun _ _ _ _ => trivial⟩ onUnordered n) hb

end Mantle
