import Mantle.Content.Cache

/-!
# Mantle.Content.Tier — the local and the remote content tier (`db/content_tier.py`)

Writes stay local until they are promoted; a local object is evicted once the remote is seen to hold it.
-/

namespace Mantle

namespace Content

variable {κ β γ : Type}

/-- `TieredContentStore`; at least one of its tiers is there. -/
structure Tier (κ β γ : Type) where
  cache : Option (Cache κ β)
  remote : Option (String → Option γ)
  /-- The cipher that a write to the remote needs is given. -/
  encrypts : Bool

namespace Tier

variable (K : Crypto κ β γ) (E : Env) (t : Tier κ β γ)

/-- `self.remote.exists`; none when it raises. -/
def remoteExists (ref : String) : Option Bool :=
  match t.remote with
  | none => none
  | some r => if E.asks ref then some (r ref).isSome else none

/-- `_remote_has`, which the cache is wired to when there is a remote. -/
def durable : Option (String → Bool) :=
  t.remote.map fun _ ref => (t.remoteExists E ref).getD false

def withCache (c : Cache κ β) : Tier κ β γ := { t with cache := some c }

/-- `remote.put` of the sealed bytes. -/
def upload (ref : String) (plain : Bytes) : Tier κ β γ :=
  { t with remote := t.remote.map fun r => Function.update r ref (some (K.encrypt E.nonce plain)) }

/-- The error that a read reports when the remote has no answer. -/
def missed : Option ContentErr → ContentErr
  | none | some .miss => .remoteMiss
  | some e => e

/-- The remote half of `get`, after what the cache raised. -/
def fetch (localErr : Option ContentErr) (ref collection : String) : Except ContentErr Bytes × Tier κ β γ :=
  match t.remote with
  | none => (.error (localErr.getD .miss), t)
  | some r =>
    match if E.fetches then r ref else none with
    | none => (.error (missed localErr), t)
    | some blob =>
      if E.keyed = false then (.error .keyMissing, t)
      else
        match K.decrypt blob with
        | none => (.error .remoteCorrupt, t)
        | some plain =>
          match hashOf ref with
          | none => (.error .valueError, t)
          | some h =>
            if K.sha256 plain ≠ h then (.error .remoteCorrupt, t)
            else
              (.ok plain,
                { t with cache := t.cache.map fun c => (c.put K E (t.durable E) ref plain collection).2 })

def get (ref collection : String) : Except ContentErr Bytes × Tier κ β γ :=
  match t.cache with
  | none => t.fetch K E none ref collection
  | some c =>
    match c.get K E ref collection with
    | (.ok plain, c') => (.ok plain, t.withCache c')
    | (.error e, c') =>
      if e = .miss ∨ e = .corrupt ∨ e = .keyMismatch then (t.withCache c').fetch K E (some e) ref collection
      else (.error e, t.withCache c')

def put (ref : String) (plain : Bytes) (collection : String) : Except ContentErr Bool × Tier κ β γ :=
  match t.cache with
  | some c =>
    let r := c.put K E (t.durable E) ref plain collection
    (r.1, t.withCache r.2)
  | none =>
    match hashOf ref with
    | none => (.error .valueError, t)
    | some h =>
      if K.sha256 plain ≠ h then (.error .corrupt, t)
      else if t.encrypts = false then (.error .valueError, t)
      else
        match t.remoteExists E ref with
        | none => (.error .remoteError, t)
        | some true => (.ok false, t)
        | some false => if E.keyed ∧ E.accepts then (.ok true, t.upload K E ref plain) else (.error .remoteError, t)

/-- `promote_one`; true when it has put the object. -/
def promoteOne (ref collection : String) : Except ContentErr Bool × Tier κ β γ :=
  if t.remote.isNone ∨ t.encrypts = false then (.error .valueError, t)
  else
    match t.remoteExists E ref, t.cache with
    | none, _ => (.error .remoteError, t)
    | some true, _ => (.ok false, t)
    | some false, none => (.error .valueError, t)
    | some false, some c =>
      match c.get K E ref collection with
      | (.error e, c') => (.error e, t.withCache c')
      | (.ok plain, c') =>
        if E.keyed ∧ E.accepts then (.ok true, (t.withCache c').upload K E ref plain)
        else (.error .remoteError, t.withCache c')

/-- The object is in the remote, and its file can be deleted. -/
def evictOne (name : String) : Tier κ β γ :=
  match t.cache, t.remoteExists E (casPrefix ++ name) with
  | some c, some true => if E.unlinks name then t.withCache (c.remove name) else t
  | _, _ => t

def evictLocal (ref : String) : Tier κ β γ :=
  match hashOf ref with
  | none => t
  | some h => t.evictOne E h

/-- The loop of `evict_for_space`, after so many evictions and errors. -/
def evictForSpaceLoop (limit : ℕ) : ℕ → ℕ → List String → Tier κ β γ → Tier κ β γ
  | _, _, [], t => t
  | evicted, errors, name :: names, t =>
    if name.length ≠ 64 then evictForSpaceLoop limit evicted errors names t
    else if limit ≤ evicted + errors then t
    else
      match t.remoteExists E (casPrefix ++ name) with
      | none => evictForSpaceLoop limit evicted (errors + 1) names t
      | some false => evictForSpaceLoop limit evicted errors names t
      | some true =>
        if E.unlinks name = false then evictForSpaceLoop limit evicted (errors + 1) names t
        else if (evicted + 1) % 128 = 0 ∧ E.free (evicted + 1) ≠ some false then t.evictOne E name
        else evictForSpaceLoop limit (evicted + 1) errors names (t.evictOne E name)

def evictForSpace (limit : ℕ) : Tier κ β γ :=
  if t.cache.isSome ∧ t.remote.isSome ∧ E.free 0 = some false then evictForSpaceLoop E limit 0 0 E.listing t else t

/-- `_ensure_free` on the cache. -/
def ensureFree : Tier κ β γ := { t with cache := t.cache.map fun c => c.ensureFree E (t.durable E) }

/-- The cache is opened again under another key, which lists every key before it. -/
def reopen [DecidableEq κ] (key : κ) (previous : List κ) (rekeyPrevious : Bool) : Tier κ β γ :=
  { t with cache := t.cache.map fun c =>
      if (c.key :: c.previous).all (fun k => k = key ∨ k ∈ previous) then
        { c with key := key, previous := previous, rekeyPrevious := rekeyPrevious }
      else c }

/-- Another node promotes an object that the remote lacks. -/
def peerPut (nonce : ℕ) (ref : String) (plain : Bytes) : Tier κ β γ :=
  if hashOf ref = some (K.sha256 plain) then
    { t with remote := t.remote.map fun r =>
        if (r ref).isSome then r else Function.update r ref (some (K.encrypt nonce plain)) }
  else t

inductive Op (κ : Type)
  | put (E : Env) (ref : String) (plain : Bytes) (collection : String)
  | get (E : Env) (ref collection : String)
  | promoteOne (E : Env) (ref collection : String)
  | evictLocal (E : Env) (ref : String)
  | evictForSpace (E : Env) (limit : ℕ)
  | ensureFree (E : Env)
  | reopen (key : κ) (previous : List κ) (rekeyPrevious : Bool)
  | peerPut (nonce : ℕ) (ref : String) (plain : Bytes)

def step [DecidableEq κ] : Op κ → Tier κ β γ
  | .put E ref plain collection => (t.put K E ref plain collection).2
  | .get E ref collection => (t.get K E ref collection).2
  | .promoteOne E ref collection => (t.promoteOne K E ref collection).2
  | .evictLocal E ref => t.evictLocal E ref
  | .evictForSpace E limit => t.evictForSpace E limit
  | .ensureFree E => t.ensureFree E
  | .reopen key previous rekeyPrevious => t.reopen key previous rekeyPrevious
  | .peerPut nonce ref plain => t.peerPut K nonce ref plain

def run [DecidableEq κ] (ops : List (Op κ)) : Tier κ β γ := ops.foldl (fun t op => t.step K op) t

/-! ### What the tiers hold -/

def RemoteGood : Prop :=
  ∀ r ref o, t.remote = some r → r ref = some o → ∃ p, K.decrypt o = some p ∧ hashOf ref = some (K.sha256 p)

def InRemote (ref : String) : Prop := ∃ r o, t.remote = some r ∧ r ref = some o

def Seen (ref : String) : Prop := E.asks ref = true ∧ t.InRemote ref

def Holds (ref collection : String) : Prop :=
  ∃ h, hashOf ref = some h ∧
    ((∃ c blob, t.cache = some c ∧ c.files h = some blob ∧ c.Opens K collection h blob) ∨ t.InRemote ref)

variable {K E t}

theorem remoteExists_true {ref : String} : t.remoteExists E ref = some true ↔ t.Seen E ref := by
  unfold remoteExists Seen InRemote
  cases ht : t.remote with
  | none => simp
  | some r =>
    dsimp only
    split_ifs with ha
    · simp [ha, Option.isSome_iff_exists]
    · simp [ha]

theorem durable_any {ref : String} : (t.durable E).any (fun d => d ref) = true ↔ t.Seen E ref := by
  rw [← remoteExists_true]
  unfold durable
  cases ht : t.remote with
  | none => simp [remoteExists, ht]
  | some r =>
    rw [Option.map_some, Option.any_some]
    cases hx : t.remoteExists E ref with
    | none => simp [hx]
    | some b => simp [hx]

theorem get_addressed {ref collection : String} {p : Bytes} (h : (t.get K E ref collection).1 = .ok p) :
    hashOf ref = some (K.sha256 p) := by
  have hfetch : ∀ {t : Tier κ β γ} {e}, (t.fetch K E e ref collection).1 = .ok p → hashOf ref = some (K.sha256 p) := by
    intro t e h
    unfold fetch at h
    split at h
    · cases h
    · split at h
      · cases h
      · split_ifs at h
        split at h
        · cases h
        · split at h
          · cases h
          · next hh =>
            split_ifs at h with hsha
            · obtain rfl := Except.ok.inj h
              rw [hh, not_not.mp hsha]
  unfold get at h
  split at h
  · exact hfetch h
  · split at h
    · next c p' c' hget =>
      obtain ⟨x, blob, hx, hsha, -⟩ := Cache.get_opens hget
      obtain rfl := Except.ok.inj h
      rw [hx, hsha]
    · split_ifs at h
      exact hfetch h

theorem Holds.get {ref collection : String} (h : t.Holds K ref collection) (hgood : t.RemoteGood K)
    (hreads : E.reads = true) (hfetches : E.fetches = true) (hkeyed : E.keyed = true) :
    ∃ p, (t.get K E ref collection).1 = .ok p ∧ hashOf ref = some (K.sha256 p) := by
  obtain ⟨x, hx, h⟩ := h
  -- what the remote answers
  have hremote : ∀ {t' : Tier κ β γ} {e}, t'.remote = t.remote → t.InRemote ref →
      ∃ p, (t'.fetch K E e ref collection).1 = .ok p ∧ hashOf ref = some (K.sha256 p) := by
    rintro t' e ht' ⟨r, o, hr, ho⟩
    obtain ⟨p, hp, hsha⟩ := hgood r ref o hr ho
    refine ⟨p, ?_, hsha⟩
    simp only [fetch, ht', hr, hfetches, if_true, ho, hkeyed, Bool.true_eq_false, if_false, hp, hsha, ne_eq,
      not_true_eq_false]
  unfold Tier.get
  cases hc : t.cache with
  | none =>
    rcases h with ⟨c, blob, hcache, -⟩ | hrem
    · rw [hc] at hcache
      cases hcache
    · exact hremote rfl hrem
  | some c =>
    dsimp only
    rcases Cache.get_spec K c E ref collection with
      ⟨x', blob, p, b, hx', -, -, hsha, hget⟩ | ⟨e, c', hget, -, hkind⟩
    · rw [hget]
      exact ⟨p, rfl, by rw [hx', hsha]⟩
    · rw [hget]
      dsimp only
      have hcaught : e = .miss ∨ e = .corrupt ∨ e = .keyMismatch := by
        rcases hkind with ⟨-, hn⟩ | ⟨-, hr⟩ | rfl | ⟨h, -⟩
        · rw [hx] at hn
          cases hn
        · rw [hreads] at hr
          cases hr
        · exact .inr (.inr rfl)
        · exact h.imp id .inl
      rw [if_pos hcaught]
      rcases h with ⟨c₀, blob, hcache, hb, ho⟩ | hrem
      · -- an object that opens is read from the cache
        rw [hc] at hcache
        obtain rfl := Option.some.inj hcache
        rcases hkind with ⟨-, hn⟩ | ⟨-, hr⟩ | rfl | ⟨-, hcor⟩
        · rw [hx] at hn
          cases hn
        · rw [hreads] at hr
          cases hr
        · exfalso
          obtain ⟨p, b, hp, hsha⟩ := ho
          rw [← hashOf_eq_some hx] at hp
          unfold Cache.get at hget
          simp only [hx, hb, hreads, Bool.true_eq_false, if_false, hp, hsha, ne_eq, not_true_eq_false] at hget
          cases (Prod.mk.inj hget).1
        · exact absurd (hcor x blob hx hb) ho.not_corrupt
      · exact hremote rfl hrem

/-! ### What an operation does to the tiers -/

def Op.collection : Op κ → Option String
  | .put _ _ _ collection | .get _ _ collection | .promoteOne _ _ collection => some collection
  | .evictLocal _ _ | .evictForSpace _ _ | .ensureFree _ | .reopen _ _ _ | .peerPut _ _ _ => none

/-- What the disk and the remote do in an operation. -/
def Op.env : Op κ → Option Env
  | .put E _ _ _ | .get E _ _ | .promoteOne E _ _ | .evictLocal E _ | .evictForSpace E _ | .ensureFree E => some E
  | .reopen _ _ _ | .peerPut _ _ _ => none

/-- Why a file may go: the operation's own read proved it corrupt, or the remote was seen to hold its object. -/
def Takes (K : Crypto κ β γ) (t : Tier κ β γ) (E : Env) (collection : Option String) (c : Cache κ β) (h : String)
    (blob : β) : Prop :=
  (∃ x, collection = some x ∧ c.Corrupt K x h blob) ∨ t.Seen E (casPrefix ++ h)

structure RemoteKeeps (K : Crypto κ β γ) (t t' : Tier κ β γ) : Prop where
  keeps : ∀ ref, t.InRemote ref → t'.InRemote ref
  good : t.RemoteGood K → t'.RemoteGood K

def CacheMoves (P : Cache κ β → Cache κ β → Prop) (t t' : Tier κ β γ) : Prop :=
  match t.cache with
  | none => t'.cache = none
  | some c => ∃ c', t'.cache = some c' ∧ P c c'

/-- The cache has become another, and the remote has kept its objects. -/
structure Moves (K : Crypto κ β γ) (E : Env) (collection : Option String) (t t' : Tier κ β γ) : Prop where
  remote : RemoteKeeps K t t'
  cache : CacheMoves (fun c c' => c.Becomes K (collection.getD "") (Takes K t E collection c) c') t t'

theorem CacheMoves.none {P : Cache κ β → Cache κ β → Prop} {t' : Tier κ β γ} (hc : t.cache = none)
    (hc' : t'.cache = none) : CacheMoves P t t' := by
  unfold CacheMoves
  rw [hc]
  exact hc'

theorem CacheMoves.some {P : Cache κ β → Cache κ β → Prop} {t' : Tier κ β γ} {c c' : Cache κ β}
    (hc : t.cache = some c) (hc' : t'.cache = some c') (h : P c c') : CacheMoves P t t' := by
  unfold CacheMoves
  rw [hc]
  exact ⟨c', hc', h⟩

theorem CacheMoves.of_some {P : Cache κ β → Cache κ β → Prop} {t' : Tier κ β γ} {c : Cache κ β}
    (h : CacheMoves P t t') (hc : t.cache = Option.some c) : ∃ c', t'.cache = Option.some c' ∧ P c c' := by
  unfold CacheMoves at h
  rwa [hc] at h

theorem CacheMoves.refl {P : Cache κ β → Cache κ β → Prop} (hP : ∀ c, P c c) : CacheMoves P t t := by
  cases hc : t.cache with
  | none => exact .none hc hc
  | some c => exact .some hc hc (hP c)

theorem RemoteKeeps.of_eq {t' : Tier κ β γ} (h : t'.remote = t.remote) : RemoteKeeps K t t' where
  keeps := by
    rintro ref ⟨r, o, hr, ho⟩
    exact ⟨r, o, h.trans hr, ho⟩
  good := fun hgood r ref o hr ho => hgood r ref o (h ▸ hr) ho

theorem RemoteKeeps.trans {t₁ t₂ : Tier κ β γ} (h₁ : RemoteKeeps K t t₁) (h₂ : RemoteKeeps K t₁ t₂) :
    RemoteKeeps K t t₂ :=
  ⟨fun ref h => h₂.keeps ref (h₁.keeps ref h), fun h => h₂.good (h₁.good h)⟩

theorem RemoteKeeps.upload {t' : Tier κ β γ} {ref : String} {p : Bytes} (hsha : hashOf ref = some (K.sha256 p))
    {nonce : ℕ} (h : t'.remote = t.remote.map fun r => Function.update r ref (some (K.encrypt nonce p))) :
    RemoteKeeps K t t' where
  keeps := by
    rintro ref' ⟨r, o, hr, ho⟩
    rw [hr, Option.map_some] at h
    by_cases he : ref' = ref
    · exact ⟨_, _, h, by rw [he, Function.update_self]⟩
    · exact ⟨_, o, h, by rwa [Function.update_of_ne he]⟩
  good := by
    intro hgood r ref' o hr ho
    rw [h, Option.map_eq_some_iff] at hr
    obtain ⟨r₀, hr₀, rfl⟩ := hr
    by_cases he : ref' = ref
    · subst he
      rw [Function.update_self] at ho
      exact ⟨p, Option.some.inj ho ▸ K.decrypt_encrypt nonce p, hsha⟩
    · rw [Function.update_of_ne he] at ho
      exact hgood r₀ ref' o hr₀ ho

theorem Moves.refl (collection : Option String) : Moves K E collection t t :=
  ⟨.of_eq rfl, .refl fun c => (Cache.Drops.refl c).becomes⟩

theorem Moves.withCache {collection : Option String} {c c' : Cache κ β} (hc : t.cache = some c)
    (hb : c.Becomes K (collection.getD "") (Takes K t E collection c) c') : Moves K E collection t (t.withCache c') :=
  ⟨.of_eq rfl, .some hc rfl hb⟩

theorem get_becomes {c : Cache κ β} (ref collection : String) :
    c.Becomes K collection (Takes K t E (some collection) c) (c.get K E ref collection).2 :=
  (Cache.get_becomes K c E ref collection).mono fun _ _ _ h => .inl ⟨collection, rfl, h⟩

theorem put_becomes {c : Cache κ β} (ref : String) (plain : Bytes) (collection : String) :
    c.Becomes K collection (Takes K t E (some collection) c)
      (c.put K E (t.durable E) ref plain collection).2 := by
  refine (Cache.put_becomes K c E (t.durable E) ref plain collection).mono fun x _ _ h => ?_
  exact h.imp (fun h => ⟨collection, rfl, h⟩) durable_any.mp

theorem fetch_moves (e : Option ContentErr) (ref collection : String) :
    Moves K E (some collection) t (t.fetch K E e ref collection).2 := by
  unfold fetch
  split
  · exact .refl _
  · split
    · exact .refl _
    · split_ifs
      · exact .refl _
      · split
        · exact .refl _
        · split
          · exact .refl _
          · split_ifs
            · exact .refl _
            · refine ⟨.of_eq rfl, ?_⟩
              cases hc : t.cache with
              | none => exact .none hc rfl
              | some c => exact .some hc rfl (put_becomes ref _ collection)

theorem get_moves (ref collection : String) : Moves K E (some collection) t (t.get K E ref collection).2 := by
  unfold Tier.get
  cases hc : t.cache with
  | none => exact fetch_moves none ref collection
  | some c =>
    dsimp only
    have hbec := get_becomes (K := K) (E := E) (t := t) (c := c) ref collection
    rcases Cache.get_spec K c E ref collection with ⟨_, _, p, _, -, -, -, -, hget⟩ | ⟨e, c', hget, hdrop, -⟩
    · rw [hget] at hbec ⊢
      exact .withCache hc hbec
    · rw [hget] at hbec ⊢
      dsimp only
      split_ifs
      · -- the read of the cache took what it took, and then the remote's answer was cached
        obtain ⟨hrem, hcache⟩ := fetch_moves (K := K) (E := E) (t := t.withCache c') (some e) ref collection
        obtain ⟨c'', hc'', hb⟩ := hcache.of_some rfl
        have hsame : RemoteKeeps K t (t.withCache c') := .of_eq rfl
        refine ⟨hsame.trans hrem, .some hc hc'' ?_⟩
        have hwhy : Takes K (t.withCache c') E (some collection) c' = Takes K t E (some collection) c := by
          unfold Takes Cache.Corrupt
          rw [hdrop.decrypt K]
          rfl
        rw [hwhy] at hb
        exact (hdrop.mono fun _ _ _ h => .inl ⟨collection, rfl, h⟩).trans_becomes hb
      · exact .withCache hc hbec

theorem put_moves (ref : String) (plain : Bytes) (collection : String) :
    Moves K E (some collection) t (t.put K E ref plain collection).2 := by
  unfold Tier.put
  cases hc : t.cache with
  | some c => exact .withCache hc (put_becomes ref plain collection)
  | none =>
    dsimp only
    split
    · exact .refl _
    · next h hh =>
      by_cases hsha : K.sha256 plain = h
      · rw [if_neg (not_not.mpr hsha)]
        by_cases henc : t.encrypts = false
        · rw [if_pos henc]
          exact .refl _
        · rw [if_neg henc]
          split
          · exact .refl _
          · exact .refl _
          · split_ifs
            · exact ⟨.upload (by rw [hh, hsha]) rfl, .none hc hc⟩
            · exact .refl _
      · rw [if_pos hsha]
        exact .refl _

theorem promoteOne_moves (ref collection : String) :
    Moves K E (some collection) t (t.promoteOne K E ref collection).2 := by
  unfold promoteOne
  by_cases hcfg : t.remote.isNone = true ∨ t.encrypts = false
  · rw [if_pos hcfg]
    exact .refl _
  rw [if_neg hcfg]
  split
  · exact .refl _
  · exact .refl _
  · exact .refl _
  · next c _ hc =>
    have hbec := get_becomes (K := K) (E := E) (t := t) (c := c) ref collection
    split
    · next e c' hget =>
      rw [hget] at hbec
      exact .withCache hc hbec
    · next p c' hget =>
      obtain ⟨x, blob, hx, hsha, -⟩ := Cache.get_opens hget
      rw [hget] at hbec
      split_ifs
      · exact ⟨.upload (t := t) (by rw [hx, hsha]) rfl, .some hc rfl hbec⟩
      · exact .withCache hc hbec

/-- Files have gone that the remote was seen to hold. -/
structure Sweeps (E : Env) (t t' : Tier κ β γ) : Prop where
  remote : t'.remote = t.remote
  cache : CacheMoves (Cache.Drops fun h _ => t.Seen E (casPrefix ++ h)) t t'

theorem Sweeps.refl : Sweeps E t t := ⟨rfl, .refl Cache.Drops.refl⟩

theorem Sweeps.trans {t₁ t₂ : Tier κ β γ} (h₁ : Sweeps E t t₁) (h₂ : Sweeps E t₁ t₂) : Sweeps E t t₂ where
  remote := h₂.remote.trans h₁.remote
  cache := by
    have hseen : ∀ ref, t₁.Seen E ref = t.Seen E ref := by
      intro ref
      unfold Seen InRemote
      rw [h₁.remote]
    obtain ⟨-, hc₁⟩ := h₁
    obtain ⟨-, hc₂⟩ := h₂
    simp only [hseen] at hc₂
    cases hc : t.cache with
    | none =>
      unfold CacheMoves at hc₁
      rw [hc] at hc₁
      unfold CacheMoves at hc₂
      rw [hc₁] at hc₂
      exact .none hc hc₂
    | some c =>
      obtain ⟨c₁, he₁, hd₁⟩ := hc₁.of_some hc
      obtain ⟨c₂, he₂, hd₂⟩ := hc₂.of_some he₁
      exact .some hc he₂ (hd₁.trans hd₂)

theorem Sweeps.moves {t' : Tier κ β γ} (h : Sweeps E t t') (collection : Option String) : Moves K E collection t t' where
  remote := .of_eq h.remote
  cache := by
    obtain ⟨-, hcache⟩ := h
    cases hc : t.cache with
    | none =>
      unfold CacheMoves at hcache
      rw [hc] at hcache
      exact .none hc hcache
    | some c =>
      obtain ⟨c', hc', hd⟩ := hcache.of_some hc
      exact .some hc hc' (hd.mono fun _ _ _ h => .inr h).becomes

theorem evictOne_sweeps (name : String) : Sweeps E t (t.evictOne E name) := by
  unfold evictOne
  split
  · next c hc hex =>
    split_ifs
    · exact ⟨rfl, .some hc rfl (.remove fun _ _ => remoteExists_true.mp hex)⟩
    · exact .refl
  · exact .refl

theorem evictForSpaceLoop_sweeps (E : Env) (limit : ℕ) : ∀ (names : List String) (evicted errors : ℕ)
    (t : Tier κ β γ), Sweeps E t (evictForSpaceLoop E limit evicted errors names t)
  | [], _, _, _ => .refl
  | name :: names, evicted, errors, t => by
    have hnext := evictForSpaceLoop_sweeps E limit names
    unfold evictForSpaceLoop
    by_cases hlen : name.length ≠ 64
    · rw [if_pos hlen]
      exact hnext _ _ t
    rw [if_neg hlen]
    by_cases hlim : limit ≤ evicted + errors
    · rw [if_pos hlim]
      exact .refl
    rw [if_neg hlim]
    split
    · exact hnext _ _ t
    · exact hnext _ _ t
    · split_ifs
      · exact hnext _ _ t
      · exact evictOne_sweeps name
      · exact (evictOne_sweeps name).trans (hnext _ _ _)

theorem ensureFree_sweeps : Sweeps E t (t.ensureFree E) := by
  refine ⟨rfl, ?_⟩
  cases hc : t.cache with
  | none => exact .none hc (by unfold ensureFree; rw [hc]; rfl)
  | some c =>
    refine .some hc (by unfold ensureFree; rw [hc]; rfl) ?_
    exact (Cache.drops_ensureFree c E (t.durable E)).mono fun _ _ _ h => durable_any.mp h

/-- **What an operation does.** -/
theorem step_moves [DecidableEq κ] {op : Op κ} (h : op.env = some E) : Moves K E op.collection t (t.step K op) := by
  cases op with
  | put E' ref plain collection =>
    cases h
    exact put_moves ref plain collection
  | get E' ref collection =>
    cases h
    exact get_moves ref collection
  | promoteOne E' ref collection =>
    cases h
    exact promoteOne_moves ref collection
  | evictLocal E' ref =>
    cases h
    show Moves K E none t (t.evictLocal E ref)
    unfold evictLocal
    split
    · exact .refl _
    · exact (evictOne_sweeps _).moves _
  | evictForSpace E' limit =>
    cases h
    show Moves K E none t (t.evictForSpace E limit)
    unfold evictForSpace
    split_ifs
    · exact (evictForSpaceLoop_sweeps E limit E.listing 0 0 t).moves _
    · exact .refl _
  | ensureFree E' =>
    cases h
    exact ensureFree_sweeps.moves _
  | reopen key previous rekey => cases h
  | peerPut nonce ref plain => cases h

/-! ### What every run keeps -/

theorem Moves.holds {collection : Option String} {t' : Tier κ β γ} (h : Moves K E collection t t') {ref x : String}
    (hh : t.Holds K ref x) : t'.Holds K ref x := by
  obtain ⟨y, hy, ⟨c, blob, hc, hb, ho⟩ | hrem⟩ := hh
  · obtain ⟨c', hc', hbec⟩ := h.cache.of_some hc
    rcases hbec.opens hb ho with ⟨blob', hb', ho'⟩ | ⟨z, -, hcor⟩ | hseen
    · exact ⟨y, hy, .inl ⟨c', blob', hc', hb', ho'⟩⟩
    · exact absurd hcor ho.not_corrupt
    · exact ⟨y, hy, .inr (h.remote.keeps ref (hashOf_eq_some hy ▸ hseen.2))⟩
  · exact ⟨y, hy, .inr (h.remote.keeps ref hrem)⟩

theorem Holds.reopen [DecidableEq κ] {ref x : String} (h : t.Holds K ref x) (key : κ) (previous : List κ)
    (rekeyPrevious : Bool) : (t.reopen key previous rekeyPrevious).Holds K ref x := by
  obtain ⟨y, hy, ⟨c, blob, hc, hb, ho⟩ | hrem⟩ := h
  · refine ⟨y, hy, .inl ?_⟩
    unfold Tier.reopen
    rw [hc]
    refine ⟨_, blob, rfl, ?_⟩
    dsimp only
    split_ifs with hkeys
    · refine ⟨hb, ?_⟩
      obtain ⟨p, b, hp, hsha⟩ := ho
      obtain ⟨hlong, k, hk, hkp⟩ := Cache.decrypt_ok hp
      have hkeys' : ∀ k ∈ c.key :: c.previous, k = key ∨ k ∈ previous := by
        intro k hk
        simpa using List.all_eq_true.mp hkeys k hk
      have hmem : k ∈ key :: ((c.legacy x).toList ++ previous) := by
        rcases List.mem_cons.mp hk with rfl | hk
        · exact (hkeys' _ List.mem_cons_self).elim (fun h => h ▸ List.mem_cons_self)
            fun h => List.mem_cons_of_mem _ (List.mem_append_right _ h)
        rcases List.mem_append.mp hk with hk | hk
        · exact List.mem_cons_of_mem _ (List.mem_append_left _ hk)
        · exact (hkeys' k (List.mem_cons_of_mem _ hk)).elim (fun h => h ▸ List.mem_cons_self)
            fun h => List.mem_cons_of_mem _ (List.mem_append_right _ h)
      obtain ⟨b', hb'⟩ := Cache.decrypt_of_opens
        (c := { c with key := key, previous := previous, rekeyPrevious := rekeyPrevious }) hlong hmem hkp
      exact ⟨p, b', hb', hsha⟩
    · exact ⟨hb, ho⟩
  · exact ⟨y, hy, .inr hrem⟩

theorem peerPut_keeps (nonce : ℕ) (ref : String) (plain : Bytes) : RemoteKeeps K t (t.peerPut K nonce ref plain) := by
  unfold peerPut
  split_ifs with hsha
  · refine ⟨?_, ?_⟩
    · rintro ref' ⟨r, o, hr, ho⟩
      refine ⟨_, o, congrArg (Option.map _) hr, ?_⟩
      dsimp only
      split_ifs with hsome
      · exact ho
      · have hne : ref' ≠ ref := by
          rintro rfl
          rw [ho] at hsome
          exact hsome rfl
        rwa [Function.update_of_ne hne]
    · intro hgood r ref' o hr ho
      obtain ⟨r₀, hr₀, rfl⟩ := Option.map_eq_some_iff.mp hr
      split_ifs at ho
      · exact hgood r₀ ref' o hr₀ ho
      · by_cases he : ref' = ref
        · subst he
          rw [Function.update_self] at ho
          exact ⟨plain, Option.some.inj ho ▸ K.decrypt_encrypt nonce plain, hsha⟩
        · rw [Function.update_of_ne he] at ho
          exact hgood r₀ ref' o hr₀ ho
  · exact .of_eq rfl

theorem step_remote [DecidableEq κ] (op : Op κ) : RemoteKeeps K t (t.step K op) := by
  cases hE : op.env with
  | some E => exact (step_moves hE).remote
  | none =>
    cases op with
    | reopen key previous rekey => exact .of_eq rfl
    | peerPut nonce ref plain => exact peerPut_keeps nonce ref plain
    | put | get | promoteOne | evictLocal | evictForSpace | ensureFree => cases hE

theorem step_holds [DecidableEq κ] (op : Op κ) {ref x : String} (h : t.Holds K ref x) : (t.step K op).Holds K ref x := by
  cases hE : op.env with
  | some E => exact (step_moves hE).holds h
  | none =>
    cases op with
    | reopen key previous rekey => exact h.reopen key previous rekey
    | peerPut nonce ref' plain =>
      obtain ⟨y, hy, ⟨c, blob, hc, hb, ho⟩ | hrem⟩ := h
      · refine ⟨y, hy, .inl ⟨c, blob, ?_, hb, ho⟩⟩
        show (t.peerPut K nonce ref' plain).cache = some c
        unfold peerPut
        split_ifs <;> exact hc
      · exact ⟨y, hy, .inr ((peerPut_keeps nonce ref' plain).keeps ref hrem)⟩
    | put | get | promoteOne | evictLocal | evictForSpace | ensureFree => cases hE

theorem run_good [DecidableEq κ] : ∀ (ops : List (Op κ)) (t : Tier κ β γ), t.RemoteGood K → (t.run K ops).RemoteGood K
  | [], _, h => h
  | op :: ops, t, h => run_good ops (t.step K op) ((step_remote op).good h)

theorem run_holds [DecidableEq κ] {ref x : String} : ∀ (ops : List (Op κ)) (t : Tier κ β γ), t.Holds K ref x →
    (t.run K ops).Holds K ref x
  | [], _, h => h
  | op :: ops, t, h => run_holds ops (t.step K op) (step_holds op h)

theorem put_holds {ref : String} {plain : Bytes} {collection : String} {b : Bool}
    (h : (t.put K E ref plain collection).1 = .ok b) :
    hashOf ref = some (K.sha256 plain) ∧ (t.put K E ref plain collection).2.Holds K ref collection := by
  unfold Tier.put at h ⊢
  cases hc : t.cache with
  | some c =>
    rw [hc] at h
    obtain ⟨x, blob, hx, hsha, hb, ho⟩ := Cache.put_opens (Prod.ext h rfl)
    exact ⟨by rw [hx, hsha], x, hx, .inl ⟨_, blob, rfl, hb, ho⟩⟩
  | none =>
    rw [hc] at h
    dsimp only at h ⊢
    split at h
    · cases h
    · next x hx =>
      by_cases hsha : K.sha256 plain = x
      · rw [if_neg (not_not.mpr hsha)] at h ⊢
        refine ⟨by rw [hx, hsha], x, hx, .inr ?_⟩
        by_cases henc : t.encrypts = false
        · rw [if_pos henc] at h
          cases h
        · rw [if_neg henc] at h ⊢
          split at h
          · cases h
          · next hex => exact (remoteExists_true.mp hex).2
          · next hex =>
            split_ifs at h ⊢
            unfold remoteExists at hex
            split at hex
            · cases hex
            · next r hr =>
              refine ⟨_, _, by unfold upload; rw [hr]; rfl, Function.update_self ..⟩
      · rw [if_pos hsha] at h
        cases h

theorem step_file [DecidableEq κ] (op : Op κ) {c : Cache κ β} (hc : t.cache = some c) {h : String} {blob : β}
    (hb : c.files h = some blob) :
    ∃ c', (t.step K op).cache = some c' ∧ (c'.files h = some blob ∨
      (∃ E, op.env = some E ∧ Takes K t E op.collection c h blob) ∨
      ∃ nonce p b, c.decrypt K blob (casPrefix ++ h) (op.collection.getD "") = .ok (p, b) ∧ K.sha256 p = h ∧
        c'.files h = some (K.aesEncrypt nonce c.key (casPrefix ++ h) p)) := by
  cases hE : op.env with
  | some E =>
    obtain ⟨c', hc', hbec⟩ := (step_moves hE).cache.of_some hc
    refine ⟨c', hc', ?_⟩
    by_cases hne : c'.files h = some blob
    · exact .inl hne
    · exact .inr ((hbec.changed hb hne).imp (fun h => ⟨E, rfl, h⟩) id)
  | none =>
    cases op with
    | reopen key previous rekey =>
      refine ⟨_, by show (t.reopen key previous rekey).cache = _; unfold Tier.reopen; rw [hc]; rfl, .inl ?_⟩
      dsimp only
      split_ifs <;> exact hb
    | peerPut nonce ref plain =>
      refine ⟨c, ?_, .inl hb⟩
      show (t.peerPut K nonce ref plain).cache = some c
      unfold peerPut
      split_ifs <;> exact hc
    | put | get | promoteOne | evictLocal | evictForSpace | ensureFree => cases hE

theorem not_corrupt_of_keyMismatch {c : Cache κ β} {x h : String} {blob : β}
    (hm : c.decrypt K blob (casPrefix ++ h) x = .error .keyMismatch) : ¬c.Corrupt K x h blob := by
  rintro (hs | ⟨p, b, hp, -⟩)
  · unfold Cache.decrypt at hm
    rw [if_pos hs] at hm
    cases hm
  · rw [hm] at hp
    cases hp

end Tier

/-- **Tiered content.**  Reads are addressed, what was put is answered, and files go only for a reason. -/
theorem content_kept [DecidableEq κ] (K : Crypto κ β γ) (t : Tier κ β γ) (hgood : t.RemoteGood K) :
    (∀ ops E ref x p, ((t.run K ops).get K E ref x).1 = .ok p → hashOf ref = some (K.sha256 p)) ∧
    (∀ before E ref plain x b after, ((t.run K before).put K E ref plain x).1 = .ok b →
      ∀ E' : Env, E'.reads = true → E'.fetches = true → E'.keyed = true →
        ∃ p, ((t.run K (before ++ .put E ref plain x :: after)).get K E' ref x).1 = .ok p ∧
          (p ≠ plain → K.sha256 p = K.sha256 plain)) ∧
    (∀ ops op c h blob, (t.run K ops).cache = some c → c.files h = some blob →
      ∃ c', ((t.run K ops).step K op).cache = some c' ∧
        (c'.files h = some blob ∨
          (∃ E, op.env = some E ∧ Tier.Takes K (t.run K ops) E op.collection c h blob) ∨
          ∃ nonce p b, c.decrypt K blob (casPrefix ++ h) (op.collection.getD "") = .ok (p, b) ∧ K.sha256 p = h ∧
            c'.files h = some (K.aesEncrypt nonce c.key (casPrefix ++ h) p)) ∧
        ∀ x, op.collection = some x → c.decrypt K blob (casPrefix ++ h) x = .error .keyMismatch →
          c'.files h = some blob ∨ ∃ E, op.env = some E ∧ (t.run K ops).Seen E (casPrefix ++ h)) := by
  refine ⟨fun ops E ref x p h => Tier.get_addressed h, ?_, ?_⟩
  · intro before E ref plain x b after hput E' hreads hfetches hkeyed
    obtain ⟨hplain, hholds⟩ := Tier.put_holds hput
    have hrun : t.run K (before ++ .put E ref plain x :: after) =
        ((t.run K before).put K E ref plain x).2.run K after := by
      unfold Tier.run
      rw [List.foldl_append]
      rfl
    have hlater := Tier.run_holds after _ hholds
    rw [← hrun] at hlater
    obtain ⟨p, hp, hsha⟩ := hlater.get (Tier.run_good _ t hgood) hreads hfetches hkeyed
    refine ⟨p, hp, fun _ => ?_⟩
    rw [hplain] at hsha
    exact (Option.some.inj hsha).symm
  · intro ops op c h blob hc hb
    obtain ⟨c', hc', hfile⟩ := Tier.step_file (K := K) op hc hb
    refine ⟨c', hc', hfile, fun x hx hm => ?_⟩
    rcases hfile with hsame | ⟨E, hE, ⟨y, hy, hcor⟩ | hseen⟩ | ⟨nonce, p, b, hp, -⟩
    · exact .inl hsame
    · rw [hx] at hy
      obtain rfl := Option.some.inj hy
      exact absurd hcor (Tier.not_corrupt_of_keyMismatch hm)
    · exact .inr ⟨E, hE, hseen⟩
    · rw [hx, Option.getD_some, hm] at hp
      cases hp

/-! ### A put, a rotation and a sweep -/

def openCrypto : Crypto ℕ (ℕ × String × Bytes) Bytes where
  sha256 p := if p = [] then "e3b0c44298fc1c149afbf4c8996fb92427ae41e4649b934ca495991b7852b855" else ""
  aesEncrypt _ key ref p := (key, ref, p)
  aesDecrypt key ref b := if b.1 = key ∧ b.2.1 = ref then some b.2.2 else none
  tooShort _ := false
  encrypt _ p := p
  decrypt := some
  opens_sealed _ _ _ _ := if_pos ⟨rfl, rfl⟩
  opens_only := by
    intro key key' ref ref' b p p' h h'
    split_ifs at h h' with h₁ h₂
    exact ⟨h₁.1.symm.trans h₂.1, h₁.2.symm.trans h₂.2⟩
  sealed_long _ _ _ _ := rfl
  decrypt_encrypt _ _ := rfl

def fullDisk : Env where
  reads := true
  rewrites := true
  writes := true
  unlinks _ := true
  floor := true
  free _ := some false
  listing := ["e3b0c44298fc1c149afbf4c8996fb92427ae41e4649b934ca495991b7852b855"]
  asks _ := true
  fetches := true
  accepts := true
  keyed := true
  nonce := 0

def emptyRef : String := "cas/e3b0c44298fc1c149afbf4c8996fb92427ae41e4649b934ca495991b7852b855"

def emptyTier : Tier ℕ (ℕ × String × Bytes) Bytes :=
  ⟨some ⟨fun _ => none, 0, fun _ => none, [], false⟩, some fun _ => none, true⟩

theorem content_kept_emptyTier :
    ∃ p, ((emptyTier.run openCrypto ([] ++ .put fullDisk emptyRef [] "c" ::
      [.reopen 1 [0] true, .promoteOne fullDisk emptyRef "c", .evictForSpace fullDisk 10])).get openCrypto fullDisk
        emptyRef "c").1 = .ok p ∧ (p ≠ [] → openCrypto.sha256 p = openCrypto.sha256 []) := by
  have hgood : emptyTier.RemoteGood openCrypto := by
    rintro r ref o hr ho
    obtain rfl := Option.some.inj hr
    cases ho
  have hput : (((emptyTier.run openCrypto []).put openCrypto fullDisk emptyRef [] "c").1.toOption).isSome = true := by
    decide +kernel
  obtain ⟨b, hb⟩ := Option.isSome_iff_exists.mp hput
  refine (content_kept openCrypto emptyTier hgood).2.1 [] fullDisk emptyRef [] "c" b _ ?_ fullDisk rfl rfl rfl
  revert hb
  cases ((emptyTier.run openCrypto []).put openCrypto fullDisk emptyRef [] "c").1 with
  | ok b' => exact fun hb => congrArg Except.ok (Option.some.inj hb)
  | error e => exact fun hb => nomatch hb

end Content

end Mantle
