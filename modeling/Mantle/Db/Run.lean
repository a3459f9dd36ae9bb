import Mantle.Db.RefineVertex

/-!
# Mantle.Db.Run — runs of store operations

An `Act` is one call of the store's interface, or a caller's own transaction.  A call that raises leaves whatever its
transactions left.
-/

namespace Mantle

open Tx Relation

inductive Act
  | putArtifact (doc : Doc) (stampRev newVersion : Bool)
  | putMany (docs : List Doc) (batch : ℕ) (stampRev : Bool) (onUnordered : OnUnordered)
  | addEdges (edges : List EdgeArg) (batch : ℕ) (stampRev : Bool)
  | deleteEdge (src dst label : String)
  | deleteEdgesTouching (node : String)
  | deleteArtifact (id : String)
  | evictArtifact (id : String)
  | relabelState (old new : String) (batch : ℕ) (limit : Option ℕ) (exclude : Option String)
  | tryClaim (id workerId nowIso : String)
  | renewLease (id nowIso : String)
  | release (id toStatus : String) (nextRetryAt : Option String)
  | settle (id workerId toStatus : String) (nextRetryAt completedAt : Option String) (fields : Doc)
  /-- `with db.write():` around several calls; `raises` is a caller's exception at its end. -/
  | transaction (acts : List Act) (raises : Bool)

/-- Run and forget the result. -/
def discard {α : Type} (m : DbM α) : DbM PUnit := do
  let _ ← m
  pure ⟨⟩

mutual

def exec : Act → DbM PUnit
  | .putArtifact doc stampRev newVersion => discard (putArtifact doc stampRev newVersion)
  | .putMany docs batch stampRev onUnordered => discard (putMany docs batch stampRev onUnordered)
  | .addEdges edges batch stampRev => discard (addEdges edges batch stampRev)
  | .deleteEdge src dst label => discard (deleteEdge src dst label)
  | .deleteEdgesTouching node => discard (deleteEdgesTouching node)
  | .deleteArtifact id => deleteArtifact id true
  | .evictArtifact id => evictArtifact id
  | .relabelState old new batch limit exclude => discard (relabelState old new batch limit exclude)
  | .tryClaim id workerId nowIso => discard (tryClaim id workerId nowIso)
  | .renewLease id nowIso => discard (renewLease id nowIso)
  | .release id toStatus nextRetryAt => discard (release id toStatus nextRetryAt)
  | .settle id workerId toStatus nextRetryAt completedAt fields =>
    discard (settle id workerId toStatus nextRetryAt completedAt fields)
  | .transaction acts raises =>
    write do
      execAll acts
      if raises then throw (.runtimeError "rolled back by the caller") else pure ⟨⟩

def execAll : List Act → DbM PUnit
  | [] => pure ⟨⟩
  | a :: acts => do
    exec a
    execAll acts

end

def Node.after (n : Node) (a : Act) : Node :=
  match exec a n with
  | .ok _ n' => n'
  | .error _ n' => n'

def Node.run (n : Node) (acts : List Act) : Node := acts.foldl Node.after n

theorem run_append (n : Node) (as bs : List Act) : n.run (as ++ bs) = (n.run as).run bs :=
  List.foldl_append

def Node.fresh (origin : Origin) (leaves : ℕ+) : Node where
  origin := origin
  db := Store.empty
  cache := none
  dirty := false
  inTxn := false
  leaves := leaves
  graphLeaves := leaves
  face := none
  unplaced := 0

def hereNode : Node := .fresh .here 4096

/-! ### Admitted acts -/

mutual

def Act.Admits (A : Adm) : Act → Prop
  | .putArtifact doc stampRev _ => PutAdm A stampRev doc
  | .putMany docs _ stampRev _ => ∀ doc ∈ docs, PutManyAdm A stampRev doc
  | .addEdges edges _ stampRev => ∀ e ∈ edges, AddAdm A stampRev e
  | .evictArtifact _ => A.evict
  | .relabelState .. | .tryClaim .. | .renewLease .. | .release .. | .settle .. => A.patch
  | .transaction acts _ => Act.AllAdmit A acts
  | _ => True

def Act.AllAdmit (A : Adm) : List Act → Prop
  | [] => True
  | a :: acts => a.Admits A ∧ Act.AllAdmit A acts

end

mutual

/-- Every document and edge the act brings satisfies a condition (the flag says whether it is locally
authored), and it evicts only if that is allowed. -/
def Act.Forall (doc : Bool → Doc → Prop) (edge : Bool → EdgeSpec → Prop) (evict : Prop) : Act → Prop
  | .putArtifact d stampRev _ => doc stampRev d
  | .putMany docs _ stampRev _ => ∀ d ∈ docs, doc stampRev d
  | .addEdges edges _ stampRev => ∀ a ∈ edges, ∀ e, unpack a = .ok e → edge stampRev e
  | .evictArtifact _ => evict
  | .transaction acts _ => Act.ForallAll doc edge evict acts
  | _ => True

def Act.ForallAll (doc : Bool → Doc → Prop) (edge : Bool → EdgeSpec → Prop) (evict : Prop) :
    List Act → Prop
  | [] => True
  | a :: acts => a.Forall doc edge evict ∧ Act.ForallAll doc edge evict acts

end

variable {A : Adm}

/-- Conditions on documents, edges and eviction that are enough for admission. -/
structure Admission (A : Adm) (doc : Bool → Doc → Prop) (edge : Bool → EdgeSpec → Prop)
    (evict : Prop) : Prop where
  put : ∀ b d, doc b d → PutAdm A b d
  add : ∀ b a, (∀ e, unpack a = .ok e → edge b e) → AddAdm A b a
  evict : evict → A.evict
  patch : A.patch

variable {doc : Bool → Doc → Prop} {edge : Bool → EdgeSpec → Prop} {evict : Prop}

mutual

theorem admits_of_forall (hA : Admission A doc edge evict) :
    ∀ (a : Act), a.Forall doc edge evict → a.Admits A
  | .putArtifact d stampRev _, h => by
    rw [Act.Forall] at h
    exact hA.put _ _ h
  | .putMany docs _ stampRev _, h => by
    rw [Act.Forall] at h
    rw [Act.Admits]
    intro d hm
    have := hA.put _ _ (h d hm)
    exact ⟨this.1 d (.inl rfl), this.2⟩
  | .addEdges edges _ stampRev, h => by
    rw [Act.Forall] at h
    rw [Act.Admits]
    exact fun a ha => hA.add _ a (h a ha)
  | .evictArtifact _, h => by
    rw [Act.Forall] at h
    exact hA.evict h
  | .transaction acts _, h => by
    rw [Act.Forall] at h
    rw [Act.Admits]
    exact allAdmit_of_forallAll hA acts h
  | .deleteEdge .., _ => trivial
  | .deleteEdgesTouching .., _ => trivial
  | .deleteArtifact .., _ => trivial
  | .relabelState .., _ => hA.patch
  | .tryClaim .., _ => hA.patch
  | .renewLease .., _ => hA.patch
  | .release .., _ => hA.patch
  | .settle .., _ => hA.patch

theorem allAdmit_of_forallAll (hA : Admission A doc edge evict) :
    ∀ (acts : List Act), Act.ForallAll doc edge evict acts → Act.AllAdmit A acts
  | [], _ => trivial
  | a :: acts, h => by
    rw [Act.ForallAll] at h
    exact ⟨admits_of_forall hA a h.1, allAdmit_of_forallAll hA acts h.2⟩

end

theorem safe_discard {α : Type} {m : DbM α} {n : Node} (h : Safe A m n) : Safe A (discard m) n :=
  safe_bind h fun _ n' _ => safe_pure _ n'

mutual

/-- **Refinement.**  An admitted act is a run of steps of the ledger. -/
theorem safe_exec (hP : A.Places) (hS : A.Snapshots) :
    ∀ (a : Act), a.Admits A → ∀ n, Safe A (exec a) n
  | .putArtifact doc stampRev newVersion, h, n => by
    rw [Act.Admits] at h
    exact safe_discard (safe_putArtifact hP hS h newVersion n)
  | .putMany docs batch stampRev onUnordered, h, n => by
    rw [Act.Admits] at h
    exact safe_discard (safe_putMany hP h batch onUnordered n)
  | .addEdges edges batch stampRev, h, n => by
    rw [Act.Admits] at h
    exact safe_discard (safe_addEdges h batch n)
  | .deleteEdge src dst label, _, n => safe_discard (safe_deleteEdge src dst label n)
  | .deleteEdgesTouching node, _, n => safe_discard (safe_deleteEdgesTouching node n)
  | .deleteArtifact id, _, n => safe_deleteArtifact (by intro h; cases h) id n
  | .evictArtifact id, h, n => by
    rw [Act.Admits] at h
    exact safe_deleteArtifact (fun _ => h) id n
  | .relabelState old new batch limit exclude, h, n =>
    safe_discard (safe_relabelState h old new batch limit exclude n)
  | .tryClaim id workerId nowIso, h, n => safe_discard (safe_tryClaim h id workerId nowIso n)
  | .renewLease id nowIso, h, n => safe_discard (safe_renewLease h id nowIso n)
  | .release id toStatus nextRetryAt, h, n =>
    safe_discard (safe_release h id toStatus nextRetryAt n)
  | .settle id workerId toStatus nextRetryAt completedAt fields, h, n =>
    safe_discard (safe_settle h id workerId toStatus nextRetryAt completedAt fields n)
  | .transaction acts raises, h, n => by
    rw [Act.Admits] at h
    rw [exec]
    refine safe_write ?_
    intro m _ hm
    refine inner_bind ((safe_execAll hP hS acts h m).1 hm) ?_
    intro _ m' _
    exact inner_ite (fun _ => inner_throw _ m') fun _ => inner_pure _ m'

theorem safe_execAll (hP : A.Places) (hS : A.Snapshots) :
    ∀ (acts : List Act), Act.AllAdmit A acts → ∀ n, Safe A (execAll acts) n
  | [], _, n => safe_pure _ n
  | a :: acts, h, n => by
    rw [Act.AllAdmit] at h
    rw [execAll]
    exact safe_bind (safe_exec hP hS a h.1 n) fun _ n' _ => safe_execAll hP hS acts h.2 n'

end

theorem after_steps (hP : A.Places) (hS : A.Snapshots) {a : Act} (ha : a.Admits A) {n : Node}
    (hn : n.inTxn = false) : Steps A n (n.after a) := by
  have h := (safe_exec hP hS a ha n).2 hn
  unfold Runs at h
  unfold Node.after
  cases hr : exec a n with
  | ok u n' =>
    rw [hr] at h
    exact h
  | error e n' =>
    rw [hr] at h
    exact h

theorem run_steps (hP : A.Places) (hS : A.Snapshots) :
    ∀ (acts : List Act) (n : Node), (∀ a ∈ acts, a.Admits A) → n.inTxn = false →
      Steps A n (n.run acts)
  | [], n, _, _ => ReflTransGen.refl
  | a :: acts, n, h, hn => by
    have h1 := after_steps hP hS (h a (by simp)) hn
    exact h1.trans (run_steps hP hS acts (n.after a) (fun b hb => h b (by simp [hb]))
      (steps_inTxn h1 hn))

end Mantle
