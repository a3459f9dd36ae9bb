import Mathlib.Algebra.GroupWithZero.Nat
import Mathlib.Algebra.Ring.Int.Defs
import Mathlib.Data.List.Sort
import Mathlib.Data.Prod.Lex
import Mathlib.Data.Set.Insert

/-!
# Mantle.Mesh.Directory — who holds which region, by gossip (`mesh/directory.py`)

A merge lets the entry of the other side win when it is not older.  Two directories that met the same observations
agree as long as a version says one thing.
-/

namespace Mantle.Gossip

abbrev Dict (β : Type) := List (String × β)

namespace Dict

variable {β : Type} {k k' : String} {v w : β} {d : Dict β}

def get (k : String) : Dict β → Option β
  | [] => none
  | e :: d => if e.1 = k then some e.2 else get k d

def set (k : String) (v : β) : Dict β → Dict β
  | [] => [(k, v)]
  | e :: d => if e.1 = k then (k, v) :: d else e :: set k v d

attribute [local grind =] get set

theorem get_set (d : Dict β) : get k' (set k v d) = if k' = k then some v else get k' d := by
  induction d with grind

theorem set_set (d : Dict β) : set k w (set k v d) = set k w d := by
  induction d with grind

theorem mem_set {e : String × β} (h : e ∈ set k v d) : e = (k, v) ∨ e ∈ d := by
  induction d with grind

theorem mem_keys_set (d : Dict β) : k' ∈ (set k v d).map Prod.fst ↔ k' = k ∨ k' ∈ d.map Prod.fst := by
  induction d with grind

theorem nodup_set (h : (d.map Prod.fst).Nodup) : ((set k v d).map Prod.fst).Nodup := by
  induction d with grind [mem_keys_set]

theorem mem_iff_get (h : (d.map Prod.fst).Nodup) : (k, v) ∈ d ↔ get k d = some v := by
  induction d with grind

end Dict

open Dict

variable {A : Type}

structure ProviderInfo (A : Type) where
  version : ℤ
  density : ℤ
  attribution : A

/-- Best first: the freshest, then the best attributed, then the densest. -/
def ProviderInfo.rank [LinearOrder A] (i : ProviderInfo A) : ℤ ×ₗ A ×ₗ ℤ := toLex (i.version, toLex (i.attribution, i.density))

/-- The fields of a manifest that are read; of an item, whether it names an origin. -/
structure Manifest where
  regionId : String
  version : ℤ
  density : ℤ
  items : List Bool

/-- `ratio` is the division of two integers into a float. -/
def attributionOf [Zero A] (ratio : ℕ → ℕ → A) (items : List Bool) : A :=
  if items.isEmpty then 0 else ratio (items.count true) items.length

def Manifest.info [Zero A] (ratio : ℕ → ℕ → A) (m : Manifest) : ProviderInfo A :=
  ⟨m.version, m.density, attributionOf ratio m.items⟩

abbrev Directory (A : Type) := Dict (Dict (ProviderInfo A))

/-- An entry that is not older than the one held replaces it. -/
def note (peers : Dict (ProviderInfo A)) (peer : String) (info : ProviderInfo A) : Dict (ProviderInfo A) :=
  match get peer peers with
  | none => set peer info peers
  | some cur => if cur.version ≤ info.version then set peer info peers else peers

def foldRegion (region : String) (entries : Dict (ProviderInfo A)) (d : Directory A) : Directory A :=
  set region (entries.foldl (fun mine e => note mine e.1 e.2) ((get region d).getD [])) d

def observe [Zero A] (ratio : ℕ → ℕ → A) (peer : String) (manifests : List Manifest) (d : Directory A) : Directory A :=
  manifests.foldl (fun d m => foldRegion m.regionId [(peer, m.info ratio)] d) d

def merge (d other : Directory A) : Directory A := other.foldl (fun d e => foldRegion e.1 e.2 d) d

def providers [LinearOrder A] (d : Directory A) (region : String) : Dict (ProviderInfo A) :=
  ((get region d).getD []).insertionSort fun a b => b.2.rank ≤ a.2.rank

def plan [LinearOrder A] (d : Directory A) (regions : List String) : Dict (List String) :=
  regions.foldl (fun p r => set r ((providers d r).map Prod.fst) p) []

def toDict (d : Directory A) : Dict (Dict (ℤ × ℤ × A)) :=
  d.map fun e => (e.1, e.2.map fun p => (p.1, p.2.version, p.2.density, p.2.attribution))

def fromDict (d : Dict (Dict (ℤ × ℤ × A))) : Directory A :=
  d.map fun e => (e.1, e.2.map fun p => (p.1, ⟨p.2.1, p.2.2.1, p.2.2.2⟩))

def known (d : Directory A) (region peer : String) : Option (ProviderInfo A) :=
  get peer ((get region d).getD [])

/-! ### What a directory knows -/

/-- A region, a peer, and what the peer said of it. -/
abbrev Observation (A : Type) := String × String × ProviderInfo A

/-- What a directory knows was observed, and of each peer's observations it knows one that is not older. -/
structure Knows (d : Directory A) (O : Set (Observation A)) : Prop where
  sound {r p : String} {i : ProviderInfo A} : known d r p = some i → (r, p, i) ∈ O
  newest {r p : String} {i : ProviderInfo A} : (r, p, i) ∈ O → ∃ j, known d r p = some j ∧ i.version ≤ j.version

/-- No key stands twice. -/
structure WF (d : Directory A) : Prop where
  outer : (d.map Prod.fst).Nodup
  inner : ∀ e ∈ d, (e.2.map Prod.fst).Nodup

variable {d e : Directory A} {O P : Set (Observation A)} {q : String}

theorem get_note (peers : Dict (ProviderInfo A)) (peer : String) (info : ProviderInfo A) :
    (∀ p ≠ peer, get p (note peers peer info) = get p peers) ∧ ∃ j, get peer (note peers peer info) = some j ∧
      info.version ≤ j.version ∧ (j = info ∨ get peer peers = some j) ∧
      ∀ i, get peer peers = some i → i.version ≤ j.version := by
  unfold note
  grind [get_set]

theorem known_foldRegion (entries : Dict (ProviderInfo A)) (r p : String) : known (foldRegion q entries d) r p =
    if r = q then Dict.get p (entries.foldl (fun mine e => note mine e.1 e.2) ((Dict.get q d).getD []))
    else known d r p := by
  unfold known foldRegion
  rw [get_set]
  split <;> rfl

theorem foldRegion_cons (x : String × ProviderInfo A) (entries : Dict (ProviderInfo A)) :
    foldRegion q (x :: entries) d = foldRegion q entries (foldRegion q [x] d) := by
  unfold foldRegion
  rw [get_set, if_pos rfl, set_set]
  rfl

theorem Knows.one (h : Knows d O) (x : String × ProviderInfo A) : Knows (foldRegion q [x] d) (insert (q, x) O) := by
  obtain ⟨peer, info⟩ := x
  obtain ⟨hother, j, hj, hxj, hfrom, hkeep⟩ := get_note ((Dict.get q d).getD []) peer info
  have hknown : ∀ r p, known (foldRegion q [(peer, info)] d) r p =
      if r = q ∧ p = peer then some j else known d r p := fun r p => by
    rw [known_foldRegion]
    grind [known]
  constructor
  · intro r p i hi
    rw [hknown] at hi
    split at hi
    · next hr =>
      obtain ⟨rfl, rfl⟩ := hr
      obtain rfl := Option.some.inj hi
      rcases hfrom with rfl | hold
      · exact .inl rfl
      · exact .inr (h.sound hold)
    · exact .inr (h.sound hi)
  · intro r p i ho
    rw [hknown]
    split
    · next hr =>
      obtain ⟨rfl, rfl⟩ := hr
      refine ⟨j, rfl, ho.elim (fun h => (Prod.mk.inj (Prod.mk.inj h).2).2 ▸ hxj) fun ho => ?_⟩
      obtain ⟨i', hi', hle⟩ := h.newest ho
      exact hle.trans (hkeep i' hi')
    · next hr => exact h.newest (ho.resolve_left fun h => hr (by simp_all))

theorem Knows.region (entries : Dict (ProviderInfo A)) (h : Knows d O) :
    Knows (foldRegion q entries d) (O ∪ {o | o.1 = q ∧ o.2 ∈ entries}) := by
  induction entries generalizing d O with
  | nil =>
    have hsame : ∀ r p, known (foldRegion q [] d) r p = known d r p := fun r p => by
      rw [known_foldRegion]
      split
      · next hr => exact hr ▸ rfl
      · rfl
    refine ⟨fun hk => .inl (h.sound (hsame .. ▸ hk)), ?_⟩
    rintro r p i (ho | ⟨-, ⟨⟩⟩)
    exact hsame r p ▸ h.newest ho
  | cons x entries ih =>
    rw [foldRegion_cons]
    refine cast (congrArg _ (Set.ext fun o => ?_)) (ih (h.one x))
    obtain ⟨r, o⟩ := o
    simp only [Set.mem_union, Set.mem_insert_iff, Set.mem_ofPred_eq, Prod.mk.injEq, List.mem_cons]
    tauto

theorem Knows.merge_entries (other : Directory A) (h : Knows d O) :
    Knows (merge d other) (O ∪ {o | ∃ e ∈ other, e.1 = o.1 ∧ o.2 ∈ e.2}) := by
  induction other generalizing d O with
  | nil => exact cast (congrArg _ (Set.ext fun o => by simp)) h
  | cons e other ih =>
    refine cast (congrArg _ (Set.ext fun o => ?_)) (ih (h.region (q := e.1) e.2))
    simp only [Set.mem_union, Set.mem_ofPred_eq, List.mem_cons, exists_eq_or_imp, eq_comm (a := e.1)]
    tauto

theorem WF.mem_iff (h : WF e) {r p : String} {i : ProviderInfo A} :
    (∃ x ∈ e, x.1 = r ∧ (p, i) ∈ x.2) ↔ known e r p = some i := by
  constructor
  · rintro ⟨⟨r, peers⟩, hx, rfl, hi⟩
    rw [known, (mem_iff_get h.outer).mp hx]
    exact (mem_iff_get (h.inner _ hx)).mp hi
  · intro hk
    unfold known at hk
    cases hr : Dict.get r e with
    | none =>
      rw [hr] at hk
      cases hk
    | some peers =>
      rw [hr] at hk
      have hx := (mem_iff_get h.outer).mpr hr
      exact ⟨_, hx, rfl, (mem_iff_get (h.inner _ hx)).mpr hk⟩

theorem Knows.merge (h : Knows d O) (h' : Knows e P) (hw : WF e) : Knows (merge d e) (O ∪ P) := by
  have hm := h.merge_entries e
  refine ⟨fun {r p i} hk => ?_, fun {r p i} ho => ?_⟩
  · exact (hm.sound hk).imp_right fun hx => h'.sound (hw.mem_iff.mp hx)
  · rcases ho with ho | ho
    · exact hm.newest (.inl ho)
    · obtain ⟨j, hj, hle⟩ := h'.newest ho
      obtain ⟨k, hk, hle'⟩ := hm.newest (.inr (hw.mem_iff.mpr hj))
      exact ⟨k, hk, hle.trans hle'⟩

theorem nodup_foldl_note (entries : Dict (ProviderInfo A)) {peers : Dict (ProviderInfo A)}
    (h : (peers.map Prod.fst).Nodup) : ((entries.foldl (fun mine e => note mine e.1 e.2) peers).map Prod.fst).Nodup := by
  induction entries generalizing peers with
  | nil => exact h
  | cons x entries ih =>
    refine ih ?_
    change ((note peers x.1 x.2).map Prod.fst).Nodup
    unfold note
    split
    · exact nodup_set h
    · split
      · exact nodup_set h
      · exact h

theorem WF.peers (h : WF d) (r : String) : (((Dict.get r d).getD []).map Prod.fst).Nodup := by
  cases hr : Dict.get r d with
  | none => exact .nil
  | some peers => exact h.inner _ ((mem_iff_get h.outer).mpr hr)

theorem WF.foldRegion (h : WF d) (entries : Dict (ProviderInfo A)) : WF (foldRegion q entries d) := by
  refine ⟨nodup_set h.outer, fun e he => ?_⟩
  rcases mem_set he with rfl | he
  · exact nodup_foldl_note entries (h.peers q)
  · exact h.inner e he

theorem WF.merge (h : WF d) (other : Directory A) : WF (merge d other) := by
  induction other generalizing d with
  | nil => exact h
  | cons e other ih => exact ih (h.foldRegion e.2)

/-! ### Histories -/

section

variable [Zero A] {ratio : ℕ → ℕ → A}

/-- How a directory was built. -/
inductive History
  | new
  | observe (h : History) (peer : String) (manifests : List Manifest)
  | merge (h other : History)

variable (ratio) in
def History.dir : History → Directory A
  | new => []
  | observe h peer manifests => Gossip.observe ratio peer manifests h.dir
  | merge h other => Gossip.merge h.dir other.dir

variable (ratio) in
def History.observations : History → Set (Observation A)
  | new => ∅
  | observe h peer manifests => h.observations ∪ {o | ∃ m ∈ manifests, o = (m.regionId, peer, m.info ratio)}
  | merge h other => h.observations ∪ other.observations

theorem Knows.observe (peer : String) (manifests : List Manifest) (h : Knows d O) (hw : WF d) :
    Knows (observe ratio peer manifests d) (O ∪ {o | ∃ m ∈ manifests, o = (m.regionId, peer, m.info ratio)}) ∧
      WF (observe ratio peer manifests d) := by
  induction manifests generalizing d O with
  | nil => exact ⟨cast (congrArg _ (Set.ext fun o => by simp)) h, hw⟩
  | cons m manifests ih =>
    obtain ⟨hk, hw'⟩ := ih (h.one (q := m.regionId) (peer, m.info ratio)) (hw.foldRegion _)
    refine ⟨cast (congrArg _ (Set.ext fun o => ?_)) hk, hw'⟩
    simp only [Set.mem_union, Set.mem_insert_iff, Set.mem_ofPred_eq, List.mem_cons, exists_eq_or_imp]
    tauto

theorem History.knows : ∀ h : History, Knows (h.dir ratio) (h.observations ratio) ∧ WF (h.dir ratio)
  | new => ⟨⟨nofun, nofun⟩, .nil, nofun⟩
  | observe h peer manifests => h.knows.1.observe peer manifests h.knows.2
  | merge h other => ⟨h.knows.1.merge other.knows.1 other.knows.2, h.knows.2.merge _⟩

end

/-- Of a peer's copy of a region, a version says one thing. -/
def Consistent (O : Set (Observation A)) : Prop :=
  ∀ r p i j, (r, p, i) ∈ O → (r, p, j) ∈ O → i.version = j.version → i = j

/-- Of a region, no two peers' newest copies have one rank. -/
def Ranked [LinearOrder A] (O : Set (Observation A)) : Prop :=
  ∀ r p p' i i', (r, p, i) ∈ O → (r, p', i') ∈ O → (∀ j, (r, p, j) ∈ O → j.version ≤ i.version) →
    (∀ j, (r, p', j) ∈ O → j.version ≤ i'.version) → i.rank = i'.rank → p = p'

theorem Knows.same (h : Knows d O) (h' : Knows e O) (hc : Consistent O) (r p : String) : known d r p = known e r p := by
  have hle : ∀ {d e : Directory A}, Knows d O → Knows e O → ∀ i, known d r p = some i → known e r p = some i :=
    fun h h' i hi => by
      obtain ⟨j, hj, hij⟩ := h'.newest (h.sound hi)
      obtain ⟨k, hk, hjk⟩ := h.newest (h'.sound hj)
      obtain rfl := Option.some.inj (hk.symm.trans hi)
      rw [hj, hc r p _ j (h.sound hi) (h'.sound hj) (le_antisymm hij hjk)]
  exact Option.ext fun i => ⟨hle h h' i, hle h' h i⟩

theorem Knows.plan [LinearOrder A] (h : Knows d O) (h' : Knows e O) (hw : WF d) (hw' : WF e) (hc : Consistent O)
    (hr : Ranked O) (regions : List String) : plan d regions = plan e regions := by
  have hproviders : ∀ r, providers d r = providers e r := fun r => by
    unfold providers
    have hmem : ∀ x, x ∈ (Dict.get r d).getD [] ↔ known d r x.1 = some x.2 := fun x => mem_iff_get (hw.peers r)
    have hperm : ((Dict.get r d).getD []).Perm ((Dict.get r e).getD []) := by
      refine (List.perm_ext_iff_of_nodup (hw.peers r).of_map (hw'.peers r).of_map).mpr fun x => ?_
      rw [hmem, h.same h' hc]
      exact (mem_iff_get (hw'.peers r)).symm
    have hnewest : ∀ {p i}, known d r p = some i → ∀ j, (r, p, j) ∈ O → j.version ≤ i.version := fun hi j hj => by
      obtain ⟨k, hk, hle⟩ := h.newest hj
      exact hle.trans_eq (congrArg _ (Option.some.inj (hk.symm.trans hi)))
    let le : String × ProviderInfo A → String × ProviderInfo A → Prop := fun a b => b.2.rank ≤ a.2.rank
    have : Std.Total le := ⟨fun a b => le_total b.2.rank a.2.rank⟩
    have : IsTrans _ le := ⟨fun a b c hab hbc => hbc.trans hab⟩
    have hsort := List.perm_insertionSort le
    refine ((hsort _).trans (hperm.trans (hsort _).symm)).eq_of_pairwise (fun x y hx hy hxy hyx => ?_)
      (List.pairwise_insertionSort le _) (List.pairwise_insertionSort le _)
    -- two entries of one rank are of one peer, and a peer has one entry
    have hx := (hmem x).mp ((hsort _).mem_iff.mp hx)
    have hy := (hmem y).mp (hperm.mem_iff.mpr ((hsort _).mem_iff.mp hy))
    have hp := hr r _ _ _ _ (h.sound hx) (h.sound hy) (hnewest hx) (hnewest hy) (le_antisymm hyx hxy)
    rw [hp] at hx
    exact Prod.ext hp (Option.some.inj (hx.symm.trans hy))
  unfold Gossip.plan
  simp only [hproviders]

/-- Merging is idempotent, commutative and associative, and loses no version; and two nodes that met the same
observations have one map and one plan, as long as a version says one thing and no two peers tie. -/
theorem gossip_converges [LinearOrder A] [Zero A] (ratio : ℕ → ℕ → A) :
    (∀ d : Directory A, fromDict (toDict d) = d) ∧
    (∀ a b : History, ∀ r p i, known (a.dir ratio) r p = some i →
      ∃ j, known (merge (a.dir ratio) (b.dir ratio)) r p = some j ∧ i.version ≤ j.version) ∧
    (∀ a b c : History, Consistent ((a.merge b).merge c |>.observations ratio) → ∀ r p,
      known (merge (a.dir ratio) (a.dir ratio)) r p = known (a.dir ratio) r p ∧
      known (merge (a.dir ratio) (b.dir ratio)) r p = known (merge (b.dir ratio) (a.dir ratio)) r p ∧
      known (merge (merge (a.dir ratio) (b.dir ratio)) (c.dir ratio)) r p =
        known (merge (a.dir ratio) (merge (b.dir ratio) (c.dir ratio))) r p) ∧
    ∀ h h' : History, h.observations ratio = h'.observations ratio → Consistent (h.observations ratio) →
      (∀ r p, known (h.dir ratio) r p = known (h'.dir ratio) r p) ∧
      (Ranked (h.observations ratio) → ∀ regions, plan (h.dir ratio) regions = plan (h'.dir ratio) regions) := by
  have hsame : ∀ h h' : History, h.observations ratio = h'.observations ratio → Consistent (h.observations ratio) →
      ∀ r p, known (h.dir ratio) r p = known (h'.dir ratio) r p := fun h h' heq hc =>
    h.knows.1.same (heq ▸ h'.knows.1) hc
  refine ⟨fun d => ?_, fun a b r p i hi => ?_, fun a b c hc r p => ⟨?_, ?_, ?_⟩, fun h h' heq hc =>
    ⟨hsame h h' heq hc, fun hr => h.knows.1.plan (heq ▸ h'.knows.1) h.knows.2 h'.knows.2 hc hr⟩⟩
  · simp [fromDict, toDict, Function.comp_def]
  · have hknows : Knows (a.dir ratio) {o | known (a.dir ratio) o.1 o.2.1 = some o.2.2} :=
      ⟨id, fun hi => ⟨_, hi, le_rfl⟩⟩
    exact (hknows.merge b.knows.1 b.knows.2).newest (.inl hi)
  · exact hsame (.merge a a) a (Set.union_self _)
      (fun r p i j hi hj => hc r p i j (.inl (.inl (hi.elim id id))) (.inl (.inl (hj.elim id id)))) r p
  · exact hsame (.merge a b) (.merge b a) (Set.union_comm ..)
      (fun r p i j hi hj => hc r p i j (.inl hi) (.inl hj)) r p
  · exact hsame (.merge (.merge a b) c) (.merge a (.merge b c)) (Set.union_assoc ..) hc r p

def advertised (peer : String) (version density : ℤ) : History :=
  .observe .new peer [⟨"region", version, density, []⟩]

theorem gossip_converges_two : plan ((History.merge (advertised "a" 1 1) (advertised "b" 2 1)).dir fun _ _ => (0 : ℤ))
    ["region"] = plan ((History.merge (advertised "b" 2 1) (advertised "a" 1 1)).dir fun _ _ => 0) ["region"] := by
  refine ((gossip_converges fun _ _ => (0 : ℤ)).2.2.2 (.merge (advertised "a" 1 1) (advertised "b" 2 1))
    (.merge (advertised "b" 2 1) (advertised "a" 1 1)) (Set.union_comm ..) fun r p i j hi hj _ => ?_).2
    (fun r p p' i i' hi hi' _ _ hr => ?_) _
  · simp [History.observations, advertised, Manifest.info, attributionOf] at hi hj
    grind
  · simp [History.observations, advertised, Manifest.info, attributionOf] at hi hi'
    simp [ProviderInfo.rank] at hr
    grind

theorem merge_is_ordered :
    known (merge ((advertised "a" 1 1).dir fun _ _ => (0 : ℤ)) ((advertised "a" 1 2).dir fun _ _ => 0)) "region" "a" =
      some ⟨1, 2, 0⟩ ∧
    known (merge ((advertised "a" 1 2).dir fun _ _ => (0 : ℤ)) ((advertised "a" 1 1).dir fun _ _ => 0)) "region" "a" =
      some ⟨1, 1, 0⟩ := ⟨rfl, rfl⟩

end Mantle.Gossip
