import Mantle.Base.Tally
import Mantle.Search.Lexical
import Mantle.Search.Recall
import Mathlib.Data.List.Dedup
import Mathlib.Data.Nat.SuccPred

/-!
# Mantle.Search.Narrowing — which artifacts carry a query's stems (`search/mantle/sse/narrowing.py`)

A narrowing opens the slots of the query's stems under each principal whose key custody issues, and counts the stems it
finds an artifact under.
-/

namespace Mantle

namespace Lexical

open Recall (Coverage)

variable {found' : Table String Coverage} {k : EntryKey} {old : List String}
  {pairs : List (String × String)} {term : String}

variable {A : Analysis} {e : Posting} {stems : List String}

/-- What key custody raises for a principal's key; a missing key was never minted (`custody.py`). -/
inductive KeyErr
  | masterKeyMissing
  | masterKeyUnavailable
  | grantDenied
deriving DecidableEq, Repr

/-! ### The entries of a slot -/

/-- `get_entries`: the rows of a slot. -/
def PostingStore.getEntries (st : PostingStore) (p t : String) : List Posting :=
  (st.entry.toPairs.filter fun row => row.1.principal = p && row.1.token = t).map Prod.snd

/-- `_entries`: the rows, or the blob's entries where the slot has no row; a blob that does not open has none. -/
def entriesOf (st : PostingStore) (p t : String) : List Posting :=
  let out := st.getEntries p t
  if out ≠ [] then out
  else
    match st.posting.lookup (p, t) with
    | some (some legacy) => legacy
    | _ => []

def defaultFields : List String := ["title", "description", "tags", "content"]

/-- `TokenNarrower`, and what custody answers under the request it narrows for. -/
structure Narrower where
  analysis : Analysis
  derive : String → Except KeyErr Unit
  store : PostingStore
  /-- The fields it was built with, in the long form. -/
  given : Option (List String)
  requireAllStems : Bool

/-- `phrase_stems`: a query in double quotes is a phrase. -/
def phraseStems (A : Analysis) (queryText : String) : List String × Bool :=
  let text := queryText.toList
  let isPhrase := decide (2 < text.length) && decide (text.head? = some '"') && decide (text.getLast? = some '"')
  (A.tokenize (if isPhrase then String.ofList text.tail.dropLast else queryText), isPhrase)

namespace Narrower

variable (N : Narrower)

def fields : List String := (N.given.getD defaultFields).filterMap fun field => longToShort.lookup field

def idsForTerm (p : String) (authorized : List String) (term : String) : List String :=
  (N.fields.flatMap fun field =>
    (entriesOf N.store p (blindToken N.analysis p field term)).filterMap fun e =>
      if e.collectionId ∈ authorized ∧ e.artifactId ≠ "" then some e.artifactId else none).dedup

/-- The bigram gate, and how many bigrams each artifact was found under; `none` rules the phrase out. -/
def bigramGate (p : String) (authorized : List String) :
    List String → Option (List String) → Table String ℕ → Option (Option (List String) × Table String ℕ)
  | [], gate, bigramHits => some (gate, bigramHits)
  | bigram :: rest, gate, bigramHits =>
    let bigramIds := N.idsForTerm p authorized bigram
    if bigramIds = [] then none
    else
      let gate := Tally.meet gate bigramIds
      if gate = [] then none else bigramGate p authorized rest (some gate) (Tally.count bigramIds bigramHits)

structure Pass where
  ownerIds : Option (List String)
  stemHits : Table String ℕ
  matched : Table String (List String)

/-- The pass over the stems: their union, or with `require_all_stems` the conjunction. -/
def unigrams (p : String) (authorized : List String) : List String → Pass → Option Pass
  | [], acc => some acc
  | stem :: rest, acc =>
    let stemIds := N.idsForTerm p authorized stem
    let stemHits := Tally.count stemIds acc.stemHits
    let matched := Tally.collect stem stemIds acc.matched
    if N.requireAllStems then
      if stemIds = [] then none
      else
        let ownerIds := Tally.meet acc.ownerIds stemIds
        if ownerIds = [] then none else unigrams p authorized rest ⟨some ownerIds, stemHits, matched⟩
    else unigrams p authorized rest ⟨some (Tally.join acc.ownerIds stemIds), stemHits, matched⟩

/-- `_owner_ids`, from the key on. -/
def ownerCoverage (p : String) (authorized stems : List String) (isPhrase : Bool) : Table String Coverage :=
  match if isPhrase && decide (2 ≤ stems.length) then N.bigramGate p authorized (bigrams stems) none ∅
      else some (none, ∅) with
  | none => ∅
  | some (gate, bigramHits) =>
    match N.unigrams p authorized stems ⟨none, ∅, ∅⟩ with
    | none => ∅
    | some ⟨none, _, _⟩ => ∅
    | some ⟨some ownerIds, stemHits, matched⟩ =>
      Tally.fromKeys (fun a => ⟨(stemHits.lookup a).getD 0, (bigramHits.lookup a).getD 0, (matched.lookup a).getD []⟩)
        (Tally.meet gate ownerIds) ∅

/-- `_owner_ids`: a principal that was never written to has no key and no index. -/
def ownerIds (p : String) (authorized stems : List String) (isPhrase : Bool) : Except KeyErr (Table String Coverage) :=
  match N.derive p with
  | .error .masterKeyMissing => .ok ∅
  | .error e => .error e
  | .ok () => .ok (N.ownerCoverage p authorized stems isPhrase)

end Narrower

/-- The query's stems. -/
def asked (stems : List String) : List String := stems.filter (· ≠ "")

def named (pairs : List (String × String)) : List (String × String) :=
  pairs.filter fun pr => decide (pr.1 ≠ "") && decide (pr.2 ≠ "")

def principals (pairs : List (String × String)) : List String := ((named pairs).map Prod.fst).eraseDups

def collectionsOf (pairs : List (String × String)) (p : String) : List String :=
  ((named pairs).filter fun pr => pr.1 = p).map Prod.snd

/-- The larger counts, and the stems of either. -/
def widest (held : Option Coverage) (cover : Coverage) : Coverage :=
  match held with
  | none => cover
  | some held => ⟨max held.stems cover.stems, max held.bigrams cover.bigrams, (held.matched ++ cover.matched).eraseDups⟩

namespace Narrower

variable (N : Narrower)

/-- The loop of `ids_for_stems` over the principals. -/
def overOwners (pairs : List (String × String)) (stems : List String) (isPhrase : Bool) :
    List String → Table String Coverage → Except KeyErr (Table String Coverage)
  | [], found => .ok found
  | p :: ps, found =>
    match N.ownerIds p (collectionsOf pairs p) stems isPhrase with
    | .error e => .error e
    | .ok owned => overOwners pairs stems isPhrase ps (Tally.merge widest owned.toPairs found)

def idsForStems (stems : List String) (pairs : List (String × String)) (isPhrase : Bool) :
    Except KeyErr (Table String Coverage) :=
  if asked stems = [] then .ok ∅ else N.overOwners pairs (asked stems) isPhrase (principals pairs) ∅

/-- `lookup_for`: the callback a query compiles into; `salient` is the caller's measure, `none` where it raises. -/
def lookupFor (queryText : String) (salient : Option (List String → Option (List String))) :
    Option (List (String × String) → Except KeyErr (Table String Coverage)) :=
  let (stems, isPhrase) := phraseStems N.analysis queryText
  if stems = [] || N.fields = [] then none
  else
    let kept := if isPhrase then [] else ((salient.bind fun measure => measure stems).getD [])
    some fun pairs => N.idsForStems (if kept = [] then stems else kept) pairs isPhrase

end Narrower

/-! ### Stores the indexer wrote -/

/-- **What the indexer writes**: a row is its entry's, a slot has no row beside a blob, and the principals have keys. -/
structure Written (hasKey : String → Prop) (st : PostingStore) : Prop where
  row : ∀ {k e}, st.entry.lookup k = some e → e.artifactId = k.artifact ∧ e.collectionId = k.collection ∧ k.artifact ≠ ""
  rowKey : ∀ {k e}, st.entry.lookup k = some e → hasKey k.principal
  one : ∀ {p t blob}, st.posting.lookup (p, t) = some blob → ∀ a c, st.entry.lookup ⟨p, t, a, c⟩ = none
  blobKey : ∀ {p t blob}, st.posting.lookup (p, t) = some blob → hasKey p

section Written

variable {hasKey : String → Prop} {st st' : PostingStore} {p t a c : String}

theorem mem_getEntries :
    e ∈ st.getEntries p t ↔ ∃ a c, st.entry.lookup ⟨p, t, a, c⟩ = some e := by
  unfold PostingStore.getEntries
  simp only [List.mem_map, List.mem_filter, Bool.and_eq_true, decide_eq_true_eq]
  constructor
  · rintro ⟨⟨⟨p', t', a, c⟩, e⟩, ⟨hrow, rfl, rfl⟩, rfl⟩
    exact ⟨a, c, Table.mem_toPairs.mp hrow⟩
  · rintro ⟨a, c, h⟩
    exact ⟨⟨⟨p, t, a, c⟩, e⟩, ⟨Table.mem_toPairs.mpr h, rfl, rfl⟩, rfl⟩

theorem mem_entriesOf_blob (h : st.getEntries p t = []) :
    e ∈ entriesOf st p t ↔ ∃ legacy, st.posting.lookup (p, t) = some (some legacy) ∧ e ∈ legacy := by
  unfold entriesOf
  dsimp only
  rw [if_neg (not_not.mpr h)]
  cases hp : st.posting.lookup (p, t) with
  | none => simp
  | some blob =>
    cases blob with
    | none => simp
    | some legacy => simp

theorem Written.holds_iff (h : Written hasKey st) :
    (∃ e ∈ entriesOf st p t, e.artifactId ≠ "" ∧ e.artifactId = a ∧ e.collectionId = c) ↔ Holds st p t a c := by
  unfold Holds
  by_cases hrows : st.getEntries p t = []
  · have hnone : ∀ a c, st.entry.lookup ⟨p, t, a, c⟩ = none := by
      intro a c
      by_contra hsome
      obtain ⟨e, he⟩ := Option.ne_none_iff_exists'.mp hsome
      have hmem := mem_getEntries.mpr ⟨a, c, he⟩
      rw [hrows] at hmem
      cases hmem
    simp only [mem_entriesOf_blob hrows, hnone, Option.isSome_none, Bool.false_eq_true, false_or]
    constructor
    · rintro ⟨e, ⟨legacy, hp, he⟩, hname⟩
      exact ⟨legacy, hp, e, he, hname⟩
    · rintro ⟨legacy, hp, e, he, hname⟩
      exact ⟨e, ⟨legacy, hp, he⟩, hname⟩
  · obtain ⟨e₀, he₀⟩ := List.exists_mem_of_ne_nil _ hrows
    obtain ⟨a₀, c₀, hrow₀⟩ := mem_getEntries.mp he₀
    have hentries : entriesOf st p t = st.getEntries p t := if_pos hrows
    rw [hentries]
    constructor
    · rintro ⟨e, he, -, rfl, rfl⟩
      obtain ⟨a', c', hrow⟩ := mem_getEntries.mp he
      obtain ⟨ha, hc, -⟩ := h.row hrow
      dsimp only at ha hc
      rw [ha, hc, hrow]
      exact .inl rfl
    · rintro (hsome | ⟨legacy, hp, -⟩)
      · obtain ⟨e, hrow⟩ := Option.isSome_iff_exists.mp hsome
        obtain ⟨ha, hc, hne⟩ := h.row hrow
        exact ⟨e, mem_getEntries.mpr ⟨a, c, hrow⟩, ha.symm ▸ hne, ha, hc⟩
      · -- a slot with a row has no blob
        rw [h.one hp] at hrow₀
        cases hrow₀

theorem Written.holds_key (h : Written hasKey st) (ha : Holds st p t a c) : hasKey p := by
  rcases ha with ha | ⟨legacy, hp, -⟩
  · obtain ⟨e, he⟩ := Option.isSome_iff_exists.mp ha
    exact h.rowKey he
  · exact h.blobKey hp

/-! ### The indexer keeps what it writes -/

theorem lookup_addEach : ∀ (legacy : List Posting) (st : PostingStore),
    (legacy.foldl (fun st old => if old.artifactId = "" then st
      else st.addEntry p t old.artifactId old.collectionId old) st).entry.lookup k = some e →
    st.entry.lookup k = some e ∨ k = ⟨p, t, e.artifactId, e.collectionId⟩ ∧ e.artifactId ≠ ""
  | [], _, h => .inl h
  | old :: legacy, st, h => by
    rw [List.foldl_cons] at h
    rcases lookup_addEach legacy _ h with h' | h'
    · by_cases hold : old.artifactId = ""
      · rw [if_pos hold] at h'
        exact .inl h'
      · rw [if_neg hold] at h'
        unfold PostingStore.addEntry at h'
        dsimp only at h'
        rw [Table.lookup_insert_of] at h'
        split_ifs at h' with hk
        · cases h'
          exact .inr ⟨hk, hold⟩
        · exact .inl h'
    · exact .inr h'

theorem lookup_absorb (h : (absorbLegacySlot p t st).entry.lookup k = some e) :
    st.entry.lookup k = some e ∨
      (st.posting.lookup (p, t)).isSome = true ∧ k = ⟨p, t, e.artifactId, e.collectionId⟩ ∧ e.artifactId ≠ "" := by
  unfold absorbLegacySlot at h
  cases hp : st.posting.lookup (p, t) with
  | none =>
    rw [hp] at h
    exact .inl h
  | some blob =>
    rw [hp] at h
    cases blob with
    | none => exact .inl h
    | some legacy =>
      rcases lookup_addEach legacy st h with h | h
      · exact .inl h
      · exact .inr ⟨rfl, h⟩

theorem Written.absorb (h : Written hasKey st) (p t : String) : Written hasKey (absorbLegacySlot p t st) := by
  refine ⟨?_, ?_, ?_, ?_⟩
  · intro k e he
    rcases lookup_absorb he with he | ⟨-, rfl, hne⟩
    · exact h.row he
    · exact ⟨rfl, rfl, hne⟩
  · intro k e he
    rcases lookup_absorb he with he | ⟨hp, rfl, -⟩
    · exact h.rowKey he
    · obtain ⟨blob, hp⟩ := Option.isSome_iff_exists.mp hp
      exact h.blobKey hp
  · intro p' t' blob hp a c
    rw [posting_absorb] at hp
    split_ifs at hp with hslot
    by_contra hsome
    obtain ⟨e, he⟩ := Option.ne_none_iff_exists'.mp hsome
    rcases lookup_absorb he with he | ⟨-, hk, -⟩
    · rw [h.one hp] at he
      cases he
    · cases hk
      exact hslot rfl
  · intro p' t' blob hp
    rw [posting_absorb] at hp
    split_ifs at hp
    exact h.blobKey hp

theorem Written.of_fewer (h : Written hasKey st)
    (hrow : ∀ {k e}, st'.entry.lookup k = some e → st.entry.lookup k = some e) (hblob : st'.posting = st.posting) :
    Written hasKey st' := by
  refine ⟨fun he => h.row (hrow he), fun he => h.rowKey (hrow he), ?_, ?_⟩
  · intro p t blob hp a c
    by_contra hsome
    obtain ⟨e, he⟩ := Option.ne_none_iff_exists'.mp hsome
    have hgone := hrow he
    rw [h.one (hblob ▸ hp)] at hgone
    cases hgone
  · intro p t blob hp
    exact h.blobKey (hblob ▸ hp)

theorem Written.upsert (h : Written hasKey st) (hp : hasKey p) (he : e.artifactId ≠ "") :
    Written hasKey (upsertIntoPosting p t e st) := by
  have habs := h.absorb p t
  have hrow : ∀ {k e'}, (upsertIntoPosting p t e st).entry.lookup k = some e' →
      (k = ⟨p, t, e.artifactId, e.collectionId⟩ ∧ e' = e) ∨ (absorbLegacySlot p t st).entry.lookup k = some e' := by
    intro k e' hk
    unfold upsertIntoPosting PostingStore.addEntry at hk
    dsimp only at hk
    rw [Table.lookup_insert_of] at hk
    split_ifs at hk with hkey
    · exact .inl ⟨hkey, (Option.some.inj hk).symm⟩
    · exact .inr hk
  refine ⟨?_, ?_, ?_, habs.blobKey⟩
  · intro k e' hk
    rcases hrow hk with ⟨rfl, rfl⟩ | hk
    · exact ⟨rfl, rfl, he⟩
    · exact habs.row hk
  · intro k e' hk
    rcases hrow hk with ⟨rfl, rfl⟩ | hk
    · exact hp
    · exact habs.rowKey hk
  · intro p' t' blob hblob a c
    by_contra hsome
    obtain ⟨e', hk⟩ := Option.ne_none_iff_exists'.mp hsome
    have hblob' : (absorbLegacySlot p t st).posting.lookup (p', t') = some blob := hblob
    rcases hrow hk with ⟨hkey, -⟩ | hk
    · -- the slot written to was absorbed
      cases hkey
      rw [posting_absorb, if_pos rfl] at hblob'
      cases hblob'
    · rw [habs.one hblob'] at hk
      cases hk

theorem Written.stripEntry (h : Written hasKey st) : Written hasKey (stripEntry p t a c st) := by
  refine (h.absorb p t).of_fewer ?_ rfl
  intro k e hk
  unfold Lexical.stripEntry PostingStore.deleteEntry at hk
  dsimp only at hk
  rw [Table.lookup_erase_of] at hk
  split_ifs at hk
  exact hk

theorem Written.stripArtifact (h : Written hasKey st) : Written hasKey (stripArtifactFromPosting p t a st).1 := by
  refine (h.absorb p t).of_fewer ?_ rfl
  intro k e hk
  unfold stripArtifactFromPosting PostingStore.deleteEntriesForArtifact at hk
  dsimp only at hk
  rw [Table.lookup_eraseIf] at hk
  split_ifs at hk
  exact hk

theorem Written.putManifest (h : Written hasKey st) {toks : List String} : Written hasKey (putManifest p a st toks) :=
  h.of_fewer id rfl

theorem Written.reindex (h : Written hasKey st) (hp : hasKey p) (ha : a ≠ "") {fields : List (String × String)} :
    Written hasKey (reindex A p c a fields st old) := by
  unfold Lexical.reindex
  dsimp only
  refine Written.putManifest (List.foldlRecOn (motive := Written hasKey) _ _ ?_ ?_)
  · exact List.foldlRecOn (motive := Written hasKey) _ _ h fun _ hst _ _ => hst.stripEntry
  · intro st hst e he
    exact hst.upsert hp ((newEntries_names e he).1.symm ▸ ha)

theorem Written.strip (h : Written hasKey st) : Written hasKey (strip p a st old).1 := by
  unfold Lexical.strip
  dsimp only
  refine Written.putManifest ?_
  exact List.foldlRecOn (motive := fun s : PostingStore × ℕ => Written hasKey s.1) _ _ h
    fun _ hst _ _ => hst.stripArtifact

/-- Custody issues a key to the indexer only of a principal that has one. -/
def Call.Keyed (hasKey : String → Prop) : Call → Prop
  | .index p _ _ _ issued => issued = true → hasKey p
  | .remove _ _ _ => True

theorem Written.run (h : Written hasKey st) {A : Analysis} {k : Call} (hk : k.Keyed hasKey) :
    Written hasKey (k.run A st) := by
  by_cases hr : k.Returns st
  · cases k with
    | index p c a fields issued =>
      rw [run_index hr]
      exact h.reindex (hk hr.2.2.2.1) hr.2.2.1
    | remove p a issued =>
      rw [run_remove hr]
      split_ifs
      · exact h
      · exact h.strip
  · rw [run_of_not_returns hr]
    exact h

theorem Written.runAll : ∀ {calls : List Call} {st : PostingStore}, Written hasKey st →
    (∀ k ∈ calls, k.Keyed hasKey) → Written hasKey (runAll A st calls)
  | [], _, h, _ => h
  | k :: _, _, h, hkeys => (h.run (hkeys k List.mem_cons_self)).runAll fun k' hk' => hkeys k' (List.mem_cons_of_mem _ hk')

/-- A store from before entries had rows. -/
structure Legacy (hasKey : String → Prop) (st : PostingStore) : Prop where
  rows : st.entry = ∅
  blobKey : ∀ {p t blob}, st.posting.lookup (p, t) = some blob → hasKey p

theorem Legacy.written (h : Legacy hasKey st) : Written hasKey st := by
  have hnone : ∀ k, st.entry.lookup k = none := by
    intro k
    rw [h.rows]
    exact AList.lookup_empty k
  refine ⟨?_, ?_, fun _ _ _ => hnone _, h.blobKey⟩
  · intro k e he
    rw [hnone] at he
    cases he
  · intro k e he
    rw [hnone] at he
    cases he

end Written

/-! ### What a narrowing is -/

namespace Narrower

variable (N : Narrower)

/-- The principal was written to. -/
def HasKey (p : String) : Prop := N.derive p ≠ .error .masterKeyMissing

/-- The store is the indexer's: its calls from a store from before entries had rows, under keys custody has. -/
def WrittenByIndexer : Prop :=
  ∃ legacy calls, Legacy N.HasKey legacy ∧ (∀ k ∈ calls, k.Keyed N.HasKey) ∧ N.store = runAll N.analysis legacy calls

/-- An entry for the term in a searched field, in one of the collections. -/
def Carries (p : String) (authorized : List String) (term a : String) : Prop :=
  ∃ field ∈ N.fields, ∃ c ∈ authorized, Holds N.store p (blindToken N.analysis p field term) a c

variable (pairs : List (String × String)) (stems : List String) (isPhrase : Bool)

/-- The artifact has an entry for some stem, for each where all are required, and of a phrase for every bigram. -/
structure Reaches (p a : String) : Prop where
  given : p ∈ principals pairs
  stem : ∃ s ∈ asked stems, N.Carries p (collectionsOf pairs p) s a
  every : N.requireAllStems = true → ∀ s ∈ asked stems, N.Carries p (collectionsOf pairs p) s a
  phrase : isPhrase = true → 2 ≤ (asked stems).length →
    ∀ b ∈ bigrams (asked stems), N.Carries p (collectionsOf pairs p) b a

open Classical in
/-- The stems the artifact is found under, as often as the query has them. -/
noncomputable def foundUnder (p a : String) : List String :=
  (asked stems).filter fun s => N.Carries p (collectionsOf pairs p) s a

/-- **What narrowing means**: the artifacts reached, and the number of distinct stems, the largest over the principals. -/
structure Narrows (found : Table String Coverage) : Prop where
  members : ∀ a, (found.lookup a).isSome = true ↔ ∃ p, N.Reaches pairs stems isPhrase p a
  largest : ∀ a cover, found.lookup a = some cover →
    IsGreatest {n | ∃ p, N.Reaches pairs stems isPhrase p a ∧ n = (N.foundUnder pairs stems p a).dedup.length} cover.stems
  bounded : ∀ a cover, found.lookup a = some cover → cover.stems ≤ stems.dedup.length

/-- The call narrows, or raises what custody raises for one of the principals. -/
def Answers : Except KeyErr (Table String Coverage) → Prop
  | .ok found => N.Narrows pairs stems isPhrase found
  | .error e => ∃ p ∈ principals pairs, N.derive p = .error e ∧ e ≠ .masterKeyMissing

/-- Custody raises for one of the principals, and not because it was never written to. -/
def Refused : Prop := ∃ p ∈ principals pairs, ∃ e, N.derive p = .error e ∧ e ≠ .masterKeyMissing

/-- For each artifact, a principal that finds it under the most stems, repeats counted, finds no stem repeated. -/
def MostFoundOnce : Prop :=
  ∀ a, (∃ p, N.Reaches pairs stems isPhrase p a) → ∃ q, N.Reaches pairs stems isPhrase q a ∧
    (N.foundUnder pairs stems q a).Nodup ∧
      ∀ p, N.Reaches pairs stems isPhrase p a →
        (N.foundUnder pairs stems p a).length ≤ (N.foundUnder pairs stems q a).length

end Narrower

/-! ### One principal -/

section Owner

variable {N : Narrower} {p a : String} {authorized : List String}

theorem nodup_idsForTerm : (N.idsForTerm p authorized term).Nodup := List.nodup_dedup _

theorem mem_idsForTerm (h : Written N.HasKey N.store) :
    a ∈ N.idsForTerm p authorized term ↔ N.Carries p authorized term a := by
  unfold Narrower.idsForTerm Narrower.Carries
  simp only [List.mem_dedup, List.mem_flatMap, List.mem_filterMap, ← h.holds_iff]
  constructor
  · rintro ⟨field, hfield, e, he, hkept⟩
    split_ifs at hkept with hc
    cases hkept
    exact ⟨field, hfield, e.collectionId, hc.1, e, he, hc.2, rfl, rfl⟩
  · rintro ⟨field, hfield, c, hc, e, he, hne, rfl, rfl⟩
    exact ⟨field, hfield, e, he, if_pos ⟨hc, hne⟩⟩

theorem meet_empty {gate : Option (List String)} {ids : List String} (h : Tally.meet gate ids = []) :
    ¬((∀ g ∈ gate, a ∈ g) ∧ a ∈ ids) := by
  intro hmem
  have := Tally.mem_meet.mpr hmem
  rw [h] at this
  cases this

theorem bigramGate_some {gate' : Option (List String)} {hits' : Table String ℕ} :
    ∀ {bs : List String} {gate : Option (List String)} {hits : Table String ℕ},
      N.bigramGate p authorized bs gate hits = some (gate', hits') →
        ((∀ g ∈ gate', a ∈ g) ↔ (∀ g ∈ gate, a ∈ g) ∧ ∀ b ∈ bs, a ∈ N.idsForTerm p authorized b)
  | [], gate, hits, h => by
    cases h
    simp
  | b :: bs, gate, hits, h => by
    unfold Narrower.bigramGate at h
    dsimp only at h
    split_ifs at h
    rw [bigramGate_some h, List.forall_mem_cons]
    simp only [Option.mem_some_iff, forall_eq', Tally.mem_meet, and_assoc]

theorem bigramGate_none : ∀ {bs : List String} {gate : Option (List String)} {hits : Table String ℕ},
    N.bigramGate p authorized bs gate hits = none →
      ¬((∀ g ∈ gate, a ∈ g) ∧ ∀ b ∈ bs, a ∈ N.idsForTerm p authorized b)
  | [], _, _, h => by cases h
  | b :: bs, gate, hits, h => by
    unfold Narrower.bigramGate at h
    dsimp only at h
    rw [List.forall_mem_cons]
    rintro ⟨hgate, hb, hbs⟩
    split_ifs at h with hids hmeet
    · rw [hids] at hb
      cases hb
    · exact meet_empty hmeet ⟨hgate, hb⟩
    · refine bigramGate_none h ⟨?_, hbs⟩
      rintro g ⟨⟩
      exact Tally.mem_meet.mpr ⟨hgate, hb⟩

/-- What a pass over the stems leaves of an artifact. -/
structure Passed (N : Narrower) (p : String) (authorized : List String) (a : String) (acc : Narrower.Pass)
    (stems : List String) (r : Narrower.Pass) : Prop where
  every : N.requireAllStems = true →
    ((∀ o ∈ r.ownerIds, a ∈ o) ↔ (∀ o ∈ acc.ownerIds, a ∈ o) ∧ ∀ s ∈ stems, a ∈ N.idsForTerm p authorized s)
  union : N.requireAllStems = false →
    ((∃ o ∈ r.ownerIds, a ∈ o) ↔ (∃ o ∈ acc.ownerIds, a ∈ o) ∨ ∃ s ∈ stems, a ∈ N.idsForTerm p authorized s)
  ran : stems ≠ [] ∨ acc.ownerIds.isSome = true → r.ownerIds.isSome = true
  hits : (r.stemHits.lookup a).getD 0 =
    (acc.stemHits.lookup a).getD 0 + (stems.filter fun s => a ∈ N.idsForTerm p authorized s).length

theorem passed_cons {stem : String} {rest : List String} {acc r : Narrower.Pass} {owner : List String}
    {matched : Table String (List String)}
    (hevery : N.requireAllStems = true → (a ∈ owner ↔ (∀ o ∈ acc.ownerIds, a ∈ o) ∧ a ∈ N.idsForTerm p authorized stem))
    (hunion : N.requireAllStems = false → (a ∈ owner ↔ (∃ o ∈ acc.ownerIds, a ∈ o) ∨ a ∈ N.idsForTerm p authorized stem))
    (h : Passed N p authorized a ⟨some owner, Tally.count (N.idsForTerm p authorized stem) acc.stemHits, matched⟩ rest r) :
    Passed N p authorized a acc (stem :: rest) r := by
  refine ⟨?_, ?_, fun _ => h.ran (.inr rfl), ?_⟩
  · intro hall
    rw [h.every hall, List.forall_mem_cons]
    simp only [Option.mem_some_iff, forall_eq', hevery hall, and_assoc]
  · intro hall
    rw [h.union hall]
    simp only [Option.mem_some_iff, exists_eq_left', hunion hall, or_assoc, List.mem_cons, exists_eq_or_imp]
  · rw [h.hits, Tally.count_lookup nodup_idsForTerm, List.filter_cons]
    by_cases hmem : a ∈ N.idsForTerm p authorized stem
    · simp only [hmem, if_true, decide_true, List.length_cons]
      omega
    · simp [hmem]

theorem unigrams_some {r : Narrower.Pass} : ∀ {stems : List String} {acc : Narrower.Pass},
    N.unigrams p authorized stems acc = some r → Passed N p authorized a acc stems r
  | [], acc, h => by
    cases h
    exact ⟨by simp, by simp, by simp, by simp⟩
  | stem :: rest, acc, h => by
    unfold Narrower.unigrams at h
    dsimp only at h
    cases hall : N.requireAllStems with
    | true =>
      simp only [hall, if_true] at h
      split_ifs at h
      refine passed_cons (fun _ => Tally.mem_meet) (fun hno => ?_) (unigrams_some h)
      rw [hall] at hno
      cases hno
    | false =>
      simp only [hall, Bool.false_eq_true, if_false] at h
      refine passed_cons (fun hyes => ?_) (fun _ => Tally.mem_join) (unigrams_some h)
      rw [hall] at hyes
      cases hyes

theorem unigrams_none : ∀ {stems : List String} {acc : Narrower.Pass}, N.unigrams p authorized stems acc = none →
    N.requireAllStems = true ∧
      ¬((∀ o ∈ acc.ownerIds, a ∈ o) ∧ ∀ s ∈ stems, a ∈ N.idsForTerm p authorized s)
  | [], _, h => by cases h
  | stem :: rest, acc, h => by
    unfold Narrower.unigrams at h
    dsimp only at h
    cases hall : N.requireAllStems with
    | false =>
      simp only [hall, Bool.false_eq_true, if_false] at h
      obtain ⟨hyes, -⟩ := unigrams_none h
      rw [hall] at hyes
      cases hyes
    | true =>
      refine ⟨rfl, ?_⟩
      simp only [hall, if_true] at h
      rw [List.forall_mem_cons]
      rintro ⟨hacc, hstem, hrest⟩
      split_ifs at h with hids hmeet
      · rw [hids] at hstem
        cases hstem
      · exact meet_empty hmeet ⟨hacc, hstem⟩
      · refine (unigrams_none h).2 ⟨?_, hrest⟩
        rintro o ⟨⟩
        exact Tally.mem_meet.mpr ⟨hacc, hstem⟩

end Owner

section Owners

variable {N : Narrower} {p a : String} {pairs : List (String × String)} {stems : List String} {isPhrase : Bool}

theorem Narrower.Reaches.hasKey (h : Written N.HasKey N.store) (hr : N.Reaches pairs stems isPhrase p a) :
    N.HasKey p := by
  obtain ⟨s, -, field, -, c, -, hholds⟩ := hr.stem
  exact h.holds_key hholds

theorem length_foundUnder (h : Written N.HasKey N.store) :
    ((asked stems).filter fun s => a ∈ N.idsForTerm p (collectionsOf pairs p) s).length =
      (N.foundUnder pairs stems p a).length := by
  unfold Narrower.foundUnder
  congr 1
  refine List.filter_congr fun s _ => ?_
  exact decide_eq_decide.mpr (mem_idsForTerm h)

theorem reaches_iff (h : Written N.HasKey N.store) (hgiven : p ∈ principals pairs) :
    N.Reaches pairs stems isPhrase p a ↔
      (∃ s ∈ asked stems, a ∈ N.idsForTerm p (collectionsOf pairs p) s) ∧
      (N.requireAllStems = true → ∀ s ∈ asked stems, a ∈ N.idsForTerm p (collectionsOf pairs p) s) ∧
      (isPhrase = true → 2 ≤ (asked stems).length →
        ∀ b ∈ bigrams (asked stems), a ∈ N.idsForTerm p (collectionsOf pairs p) b) := by
  simp only [mem_idsForTerm h]
  exact ⟨fun hr => ⟨hr.stem, hr.every, hr.phrase⟩, fun hr => ⟨hgiven, hr.1, hr.2.1, hr.2.2⟩⟩

/-- **One principal's index.** -/
theorem ownerCoverage_tops (h : Written N.HasKey N.store) (hgiven : p ∈ principals pairs) (hne : asked stems ≠ []) :
    Tally.Tops {n | N.Reaches pairs stems isPhrase p a ∧ n = (N.foundUnder pairs stems p a).length}
      ((N.ownerCoverage p (collectionsOf pairs p) (asked stems) isPhrase).lookup a) Coverage.stems := by
  have hnot : ¬N.Reaches pairs stems isPhrase p a →
      Tally.Tops {n | N.Reaches pairs stems isPhrase p a ∧ n = (N.foundUnder pairs stems p a).length}
        (none : Option Coverage) Coverage.stems := by
    intro hr
    rw [show {n | N.Reaches pairs stems isPhrase p a ∧ n = (N.foundUnder pairs stems p a).length} = ∅ from
      Set.eq_empty_of_forall_notMem fun n hn => hr hn.1]
    exact Tally.Tops.empty
  -- the gate, as a question of the artifact
  have hgate : ∀ gate hits, (if (isPhrase && decide (2 ≤ (asked stems).length)) = true then
        N.bigramGate p (collectionsOf pairs p) (bigrams (asked stems)) none ∅ else some (none, ∅)) = some (gate, hits) →
      ((∀ g ∈ gate, a ∈ g) ↔ (isPhrase = true → 2 ≤ (asked stems).length →
        ∀ b ∈ bigrams (asked stems), a ∈ N.idsForTerm p (collectionsOf pairs p) b)) := by
    intro gate hits hg
    by_cases hph : isPhrase = true ∧ 2 ≤ (asked stems).length
    · rw [if_pos (by simp [hph])] at hg
      rw [bigramGate_some hg]
      simp [hph]
    · rw [if_neg (by simpa using hph)] at hg
      cases hg
      simpa using fun h1 h2 => absurd ⟨h1, h2⟩ hph
  unfold Narrower.ownerCoverage
  cases hg : (if (isPhrase && decide (2 ≤ (asked stems).length)) = true then
      N.bigramGate p (collectionsOf pairs p) (bigrams (asked stems)) none ∅ else some (none, ∅)) with
  | none =>
    refine hnot fun hr => ?_
    split_ifs at hg with hph
    rw [Bool.and_eq_true, decide_eq_true_eq] at hph
    refine bigramGate_none (a := a) hg ⟨by simp, ?_⟩
    exact ((reaches_iff h hgiven).mp hr).2.2 hph.1 hph.2
  | some gated =>
    obtain ⟨gate, hits⟩ := gated
    dsimp only
    cases hu : N.unigrams p (collectionsOf pairs p) (asked stems) ⟨none, ∅, ∅⟩ with
    | none =>
      obtain ⟨hall, hnone⟩ := unigrams_none (a := a) hu
      exact hnot fun hr => hnone ⟨by simp, ((reaches_iff h hgiven).mp hr).2.1 hall⟩
    | some r =>
      have hpass := unigrams_some (a := a) hu
      obtain ⟨owner, stemHits, matched⟩ := r
      cases owner with
      | none => exact absurd (hpass.ran (.inl hne)) (by simp)
      | some owner =>
        dsimp only
        have hmem : a ∈ Tally.meet gate owner ↔ N.Reaches pairs stems isPhrase p a := by
          rw [Tally.mem_meet, hgate gate hits hg, reaches_iff h hgiven, and_comm, ← and_assoc]
          refine and_congr_left fun _ => ?_
          cases hall : N.requireAllStems with
          | true =>
            obtain ⟨s, hs⟩ := List.exists_mem_of_ne_nil _ hne
            have hevery : a ∈ owner ↔ ∀ s ∈ asked stems, a ∈ N.idsForTerm p (collectionsOf pairs p) s := by
              simpa using hpass.every hall
            rw [hevery]
            exact ⟨fun hmem => ⟨⟨s, hs, hmem s hs⟩, fun _ => hmem⟩, fun hmem => hmem.2 rfl⟩
          | false => simpa using hpass.union hall
        rw [Tally.fromKeys_lookup]
        by_cases hr : N.Reaches pairs stems isPhrase p a
        · rw [if_pos (hmem.mpr hr)]
          have hcount := hpass.hits
          rw [length_foundUnder h] at hcount
          simp only [AList.lookup_empty, Option.getD_none, Nat.zero_add] at hcount
          refine ⟨by simp [hr, Set.Nonempty], ?_⟩
          rintro cover ⟨⟩
          refine ⟨⟨hr, hcount⟩, ?_⟩
          rintro n ⟨-, rfl⟩
          exact hcount.ge
        · rw [if_neg fun hin => hr (hmem.mp hin), AList.lookup_empty]
          exact hnot hr

/-- **The principals so far.** -/
theorem overOwners_tops (h : Written N.HasKey N.store) (hne : asked stems ≠ []) :
    ∀ {ps : List String} {found : Table String Coverage} {S : Set ℕ}, ps ⊆ principals pairs →
      N.overOwners pairs (asked stems) isPhrase ps found = .ok found' →
      Tally.Tops S (found.lookup a) Coverage.stems →
      Tally.Tops (S ∪ {n | ∃ p ∈ ps, N.Reaches pairs stems isPhrase p a ∧ n = (N.foundUnder pairs stems p a).length})
        (found'.lookup a) Coverage.stems
  | [], found, S, _, hok, hS => by
    cases hok
    simpa using hS
  | p :: ps, found, S, hps, hok, hS => by
    obtain ⟨hp, hps⟩ := List.cons_subset.mp hps
    have hsplit : S ∪ {n | ∃ q ∈ p :: ps, N.Reaches pairs stems isPhrase q a ∧
          n = (N.foundUnder pairs stems q a).length} =
        (S ∪ {n | N.Reaches pairs stems isPhrase p a ∧ n = (N.foundUnder pairs stems p a).length}) ∪
          {n | ∃ q ∈ ps, N.Reaches pairs stems isPhrase q a ∧ n = (N.foundUnder pairs stems q a).length} := by
      ext n
      simp only [Set.mem_union, Set.mem_ofPred_eq, List.mem_cons, exists_eq_or_imp, or_assoc]
    rw [hsplit]
    unfold Narrower.overOwners at hok
    have howned : ∀ owned, N.ownerIds p (collectionsOf pairs p) (asked stems) isPhrase = .ok owned →
        Tally.Tops {n | N.Reaches pairs stems isPhrase p a ∧ n = (N.foundUnder pairs stems p a).length}
          (owned.lookup a) Coverage.stems := by
      intro owned ho
      unfold Narrower.ownerIds at ho
      cases hd : N.derive p with
      | ok u =>
        rw [hd] at ho
        cases ho
        exact ownerCoverage_tops h hp hne
      | error e =>
        rw [hd] at ho
        cases e with
        | masterKeyMissing =>
          cases ho
          rw [show {n | N.Reaches pairs stems isPhrase p a ∧ n = (N.foundUnder pairs stems p a).length} = ∅ from
            Set.eq_empty_of_forall_notMem fun n hn => hn.1.hasKey h hd]
          exact Tally.Tops.empty
        | masterKeyUnavailable => cases ho
        | grantDenied => cases ho
    cases ho : N.ownerIds p (collectionsOf pairs p) (asked stems) isPhrase with
    | error e =>
      rw [ho] at hok
      cases hok
    | ok owned =>
      rw [ho] at hok
      refine overOwners_tops h hne hps hok ?_
      have hT := howned owned ho
      cases hrow : owned.lookup a with
      | none =>
        rw [Tally.merge_none _ hrow]
        rw [hrow] at hT
        exact hS.union_none hT
      | some cover =>
        rw [Tally.merge_some _ hrow]
        rw [hrow] at hT
        refine hS.union_some hT ?_ ?_
        · intro hnone
          rw [hnone]
          rfl
        · intro r hr
          rw [Option.mem_def.mp hr]
          rfl

theorem overOwners_error {e : KeyErr} : ∀ {ps : List String} {found : Table String Coverage},
    N.overOwners pairs stems isPhrase ps found = .error e → ∃ p ∈ ps, N.derive p = .error e ∧ e ≠ .masterKeyMissing
  | [], _, h => by cases h
  | p :: ps, found, h => by
    unfold Narrower.overOwners at h
    cases ho : N.ownerIds p (collectionsOf pairs p) stems isPhrase with
    | ok owned =>
      rw [ho] at h
      obtain ⟨q, hq, hd⟩ := overOwners_error h
      exact ⟨q, List.mem_cons_of_mem _ hq, hd⟩
    | error e' =>
      rw [ho] at h
      cases h
      refine ⟨p, List.mem_cons_self, ?_⟩
      unfold Narrower.ownerIds at ho
      cases hd : N.derive p with
      | ok u =>
        rw [hd] at ho
        cases ho
      | error e' =>
        rw [hd] at ho
        cases e' with
        | masterKeyMissing => cases ho
        | masterKeyUnavailable =>
          cases ho
          exact ⟨rfl, by decide⟩
        | grantDenied =>
          cases ho
          exact ⟨rfl, by decide⟩

theorem overOwners_ok : ∀ {ps : List String} {found : Table String Coverage},
    N.overOwners pairs stems isPhrase ps found = .ok found' → ∀ p ∈ ps, ∀ e, N.derive p = .error e → e = .masterKeyMissing
  | [], _, _ => by simp
  | p :: ps, found, h => by
    unfold Narrower.overOwners at h
    cases ho : N.ownerIds p (collectionsOf pairs p) stems isPhrase with
    | error e' =>
      rw [ho] at h
      cases h
    | ok owned =>
      rw [ho] at h
      rw [List.forall_mem_cons]
      refine ⟨?_, overOwners_ok h⟩
      intro e hd
      unfold Narrower.ownerIds at ho
      rw [hd] at ho
      cases e with
      | masterKeyMissing => rfl
      | masterKeyUnavailable => cases ho
      | grantDenied => cases ho

end Owners

/-! ### The whole narrowing -/

theorem Narrower.WrittenByIndexer.written {N : Narrower} (h : N.WrittenByIndexer) : Written N.HasKey N.store := by
  obtain ⟨legacy, calls, hlegacy, hkeys, hstore⟩ := h
  rw [hstore]
  exact hlegacy.written.runAll hkeys

/-- **What `ids_for_stems` answers.** -/
theorem idsForStems_tops {N : Narrower} (h : Written N.HasKey N.store) {isPhrase : Bool} {found : Table String Coverage}
    (hok : N.idsForStems stems pairs isPhrase = .ok found) (hphrase : asked stems ≠ []) (a : String) :
    Tally.Tops {n | ∃ p, N.Reaches pairs stems isPhrase p a ∧ n = (N.foundUnder pairs stems p a).length}
      (found.lookup a) Coverage.stems := by
  unfold Narrower.idsForStems at hok
  rw [if_neg hphrase] at hok
  have htops := overOwners_tops (a := a) (S := ∅) h hphrase (List.Subset.refl _) hok (by
    rw [AList.lookup_empty]
    exact Tally.Tops.empty)
  rw [Set.empty_union] at htops
  convert htops using 3
  constructor
  · rintro ⟨p, hr, hn⟩
    exact ⟨p, hr.given, hr, hn⟩
  · rintro ⟨p, -, hr, hn⟩
    exact ⟨p, hr, hn⟩

theorem distinct_le {N : Narrower} {p a : String} :
    (N.foundUnder pairs stems p a).dedup.length ≤ stems.dedup.length := by
  have hsub : N.foundUnder pairs stems p a ⊆ stems := by
    intro s hs
    unfold Narrower.foundUnder asked at hs
    exact List.mem_of_mem_filter (List.mem_of_mem_filter hs)
  exact (List.subperm_of_subset (List.nodup_dedup _) fun s hs => List.mem_dedup.mpr (hsub (List.mem_dedup.mp hs))).length_le

theorem length_dedup_eq_iff {l : List String} : l.dedup.length = l.length ↔ l.Nodup := by
  constructor
  · intro h
    rw [← List.dedup_eq_self]
    exact (List.dedup_sublist l).eq_of_length h
  · intro h
    rw [List.dedup_eq_self.mpr h]

/-- **Narrowing is its definition exactly when no repeated stem is found under the principal that finds the most.** -/
theorem narrowing_counts_iff {N : Narrower} (h : N.WrittenByIndexer) (stems : List String)
    (pairs : List (String × String)) (isPhrase : Bool) :
    N.Answers pairs stems isPhrase (N.idsForStems stems pairs isPhrase) ↔
      N.Refused pairs ∨ N.MostFoundOnce pairs stems isPhrase := by
  have hw := h.written
  by_cases hne : asked stems = []
  · -- nothing is asked, and nothing is reached
    have hnone : ∀ p a, ¬N.Reaches pairs stems isPhrase p a := by
      rintro p a ⟨-, ⟨s, hs, -⟩, -, -⟩
      rw [hne] at hs
      cases hs
    refine iff_of_true ?_ (.inr fun a ⟨p, hr⟩ => absurd hr (hnone p a))
    unfold Narrower.idsForStems
    rw [if_pos hne]
    refine ⟨fun a => ?_, ?_, ?_⟩
    · simp [hnone]
    · rintro a cover ⟨⟩
    · rintro a cover ⟨⟩
  · cases hres : N.idsForStems stems pairs isPhrase with
    | error e =>
      have hrefused := hres
      unfold Narrower.idsForStems at hrefused
      rw [if_neg hne] at hrefused
      obtain ⟨p, hp, hd⟩ := overOwners_error hrefused
      exact iff_of_true ⟨p, hp, hd⟩ (.inl ⟨p, hp, e, hd⟩)
    | ok found =>
      have htops := idsForStems_tops hw hres hne
      have hkeys := hres
      unfold Narrower.idsForStems at hkeys
      rw [if_neg hne] at hkeys
      have hnot : ¬N.Refused pairs := by
        rintro ⟨p, hp, e, hd, hmissing⟩
        exact hmissing (overOwners_ok hkeys p hp e hd)
      have hmembers : ∀ a, (found.lookup a).isSome = true ↔ ∃ p, N.Reaches pairs stems isPhrase p a := by
        intro a
        rw [(htops a).isSome]
        exact ⟨fun ⟨n, p, hr, _⟩ => ⟨p, hr⟩, fun ⟨p, hr⟩ => ⟨_, p, hr, rfl⟩⟩
      have hagree := fun a cover hc =>
        Tally.greatest_agree_iff (fun p => (List.dedup_sublist (N.foundUnder pairs stems p a)).length_le)
          ((htops a).greatest cover hc)
      simp only [length_dedup_eq_iff] at hagree
      rw [or_iff_right hnot]
      constructor
      · intro hn a hreached
        obtain ⟨cover, hc⟩ := Option.isSome_iff_exists.mp ((hmembers a).mpr hreached)
        exact (hagree a cover hc).mp (hn.largest a cover hc)
      · intro hmost
        have hlargest : ∀ a cover, found.lookup a = some cover →
            IsGreatest {n | ∃ p, N.Reaches pairs stems isPhrase p a ∧
              n = (N.foundUnder pairs stems p a).dedup.length} cover.stems := by
          intro a cover hc
          refine (hagree a cover hc).mpr (hmost a ((hmembers a).mp ?_))
          rw [hc]
          rfl
        refine ⟨hmembers, hlargest, ?_⟩
        intro a cover hc
        obtain ⟨⟨p, -, heq⟩, -⟩ := hlargest a cover hc
        rw [heq]
        exact distinct_le

def budgetIndex : Narrower where
  analysis := plainAnalysis
  derive _ := .ok ()
  store := runAll plainAnalysis .empty [.index "p" "c" "a" [("title", "budget")] true]
  given := none
  requireAllStems := false

theorem budgetIndex_written : budgetIndex.WrittenByIndexer := by
  refine ⟨.empty, [.index "p" "c" "a" [("title", "budget")] true], ⟨rfl, ?_⟩, ?_, rfl⟩
  · rintro p t blob ⟨⟩
  · intro k hk
    rw [List.mem_singleton.mp hk]
    rintro -
    exact nofun

theorem narrowing_counts_iff_budget :
    budgetIndex.Answers [("p", "c")] ["budget"] false (budgetIndex.idsForStems ["budget"] [("p", "c")] false) ↔
      budgetIndex.Refused [("p", "c")] ∨ budgetIndex.MostFoundOnce [("p", "c")] ["budget"] false :=
  narrowing_counts_iff budgetIndex_written _ _ _

theorem repeated_stem_counts_twice :
    ¬ ∀ (N : Narrower) (stems : List String) (pairs : List (String × String)) (isPhrase : Bool),
        N.WrittenByIndexer → N.Answers pairs stems isPhrase (N.idsForStems stems pairs isPhrase) := by
  intro h
  have hans := h budgetIndex ["budget", "budget"] [("p", "c")] false budgetIndex_written
  have hcount : ((budgetIndex.idsForStems ["budget", "budget"] [("p", "c")] false).toOption.bind
      (·.lookup "a")).map (·.stems) = some 2 := by
    decide +kernel
  cases hres : budgetIndex.idsForStems ["budget", "budget"] [("p", "c")] false with
  | error e =>
    rw [hres] at hcount
    cases hcount
  | ok found =>
    rw [hres] at hans hcount
    obtain ⟨cover, hc, htwo⟩ := Option.map_eq_some_iff.mp hcount
    have hle := hans.bounded "a" cover hc
    rw [htwo] at hle
    exact absurd hle (by decide)

end Lexical

end Mantle
