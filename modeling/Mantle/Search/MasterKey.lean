import Mantle.Search.Custody

/-!
# Mantle.Search.MasterKey — one key per principal (`OracleService.get_or_create_master_key`)

A call looks into the cache, takes the lock of its process, looks again, reads the store and, where that holds no key,
makes one.  The lock is the process's own, and the store is shared.
-/

namespace Mantle

open Tx

def masterKeyBytes : ℕ := 32

structure KeyCall where
  proc : ℕ
  mayCreate : Bool

/-- Where a call is. -/
inductive KeyPhase
  | idle
  /-- The fast path missed. -/
  | missed
  /-- It holds the lock. -/
  | locked
  /-- The cache was empty under the lock. -/
  | rechecked
  /-- The store has no key, and the call may create one. -/
  | absent
  | generated (key : Bytes)
  /-- The store holds the key, found there or put there. -/
  | settled (key : Bytes)
  | ended

/-- The node with the store, each process's cache and lock, the calls, and the keys returned so far. -/
structure Keys where
  node : Node
  cache : ℕ → Option Bytes
  lock : ℕ → Option ℕ
  phase : ℕ → KeyPhase
  returned : List Bytes

inductive KeyEvent
  | readCache (i : ℕ)
  | acquire (i : ℕ)
  | recheck (i : ℕ)
  | readStore (i : ℕ)
  | generate (i : ℕ) (key : Bytes) (h : key.length = masterKeyBytes)
  | put (i : ℕ) (nonce : ℕ)
  | cache (i : ℕ)
  /-- The call raises, or its process is gone. -/
  | fail (i : ℕ)

section Step

variable (K : KeyProvider) (p : String) (calls : ℕ → KeyCall)

def Keys.moved (s : Keys) (i : ℕ) (ph : KeyPhase) : Keys := { s with phase := Function.update s.phase i ph }

/-- The call is over, and its lock free. -/
def Keys.close (s : Keys) (i : ℕ) : Keys :=
  { s with
    phase := Function.update s.phase i .ended
    lock := fun q => if s.lock q = some i then none else s.lock q }

def Keys.answer (s : Keys) (i : ℕ) (key : Bytes) : Keys := { s.close i with returned := s.returned ++ [key] }

def Keys.step (s : Keys) : KeyEvent → Keys
  | .readCache i =>
    match s.phase i with
    | .idle =>
      match s.cache (calls i).proc with
      | some key => s.answer i key
      | none => s.moved i .missed
    | _ => s
  | .acquire i =>
    match s.phase i, s.lock (calls i).proc with
    | .missed, none => { s.moved i .locked with lock := Function.update s.lock (calls i).proc (some i) }
    | _, _ => s
  | .recheck i =>
    match s.phase i with
    | .locked =>
      match s.cache (calls i).proc with
      | some key => s.answer i key
      | none => s.moved i .rechecked
    | _ => s
  | .readStore i =>
    match s.phase i with
    | .rechecked =>
      match K.getKey s.node.db p with
      | .error _ => s.close i
      | .ok (some key) => if key.length = masterKeyBytes then s.moved i (.settled key) else s.close i
      | .ok none => if (calls i).mayCreate then s.moved i .absent else s.close i
    | _ => s
  | .generate i key _ =>
    match s.phase i with
    | .absent => s.moved i (.generated key)
    | _ => s
  | .put i nonce =>
    match s.phase i with
    | .generated key =>
      match K.putKey nonce s.node p key with
      | (true, n) => { s.moved i (.settled key) with node := n }
      | (false, n) => { s.close i with node := n }
    | _ => s
  | .cache i =>
    match s.phase i with
    | .settled key => { s.answer i key with cache := Function.update s.cache (calls i).proc (some key) }
    | _ => s
  | .fail i => s.close i

def Keys.run (s : Keys) (events : List KeyEvent) : Keys := events.foldl (Keys.step K p calls) s

/-- The condition on one step: a call puts its key while the store holds none. -/
def Keys.Meets (s : Keys) : KeyEvent → Prop
  | .put i _ => ∀ key, s.phase i = .generated key → K.getKey s.node.db p = .ok none
  | _ => True

def Keys.RunMeets : Keys → List KeyEvent → Prop
  | _, [] => True
  | s, e :: events => s.Meets K p e ∧ (s.step K p calls e).RunMeets events

structure Keys.Sound (s : Keys) : Prop where
  outside : s.node.inTxn = false
  cached : ∀ q key, s.cache q = some key → K.getKey s.node.db p = .ok (some key)
  settled : ∀ i key, s.phase i = .settled key → K.getKey s.node.db p = .ok (some key)
  returned : ∀ key ∈ s.returned, K.getKey s.node.db p = .ok (some key)

end Step

variable {K : KeyProvider} {p : String} {calls : ℕ → KeyCall} {s : Keys}

theorem Keys.Sound.moved (h : s.Sound K p) {i : ℕ} {ph : KeyPhase}
    (hph : ∀ key, ph = .settled key → K.getKey s.node.db p = .ok (some key)) : (s.moved i ph).Sound K p where
  outside := h.outside
  cached := h.cached
  returned := h.returned
  settled := by
    intro j key hj
    simp only [Keys.moved, Function.update_apply] at hj
    split_ifs at hj
    · exact hph key hj
    · exact h.settled j key hj

theorem Keys.Sound.close (h : s.Sound K p) (i : ℕ) : (s.close i).Sound K p where
  outside := h.outside
  cached := h.cached
  returned := h.returned
  settled := by
    intro j key hj
    simp only [Keys.close, Function.update_apply] at hj
    split_ifs at hj
    exact h.settled j key hj

theorem Keys.Sound.answer (h : s.Sound K p) (i : ℕ) {key : Bytes} (hk : K.getKey s.node.db p = .ok (some key)) :
    (s.answer i key).Sound K p where
  outside := h.outside
  cached := h.cached
  settled := (h.close i).settled
  returned := by
    intro key' hkey'
    rcases List.mem_append.mp hkey' with hin | hin
    · exact h.returned key' hin
    · rw [List.mem_singleton.mp hin]
      exact hk

theorem Keys.Sound.of_node (h : s.Sound K p) {n : Node} (hi : n.inTxn = false)
    (hsame : K.getKey n.db p = K.getKey s.node.db p) : ({ s with node := n } : Keys).Sound K p where
  outside := hi
  cached := fun q key hk => hsame.trans (h.cached q key hk)
  settled := fun i key hk => hsame.trans (h.settled i key hk)
  returned := fun key hk => hsame.trans (h.returned key hk)

theorem Keys.Sound.put (h : s.Sound K p) {i nonce : ℕ} (hm : s.Meets K p (.put i nonce)) :
    (s.step K p calls (.put i nonce)).Sound K p := by
  unfold Keys.step
  dsimp only
  split
  · rename_i key hgen
    have hnone := hm key hgen
    obtain ⟨hi, hspec⟩ := putKey_spec K nonce h.outside p key
    split
    · rename_i n hput
      rw [hput] at hi hspec
      rcases hspec with ⟨-, hget⟩ | ⟨hf, -⟩
      · -- nobody has a key yet
        refine ⟨hi, ?_, ?_, ?_⟩
        · intro q key' hk
          have := h.cached q key' hk
          rw [hnone] at this
          cases this
        · intro j key' hj
          simp only [Keys.moved, Function.update_apply] at hj
          split_ifs at hj
          · cases hj
            exact hget
          · have := h.settled j key' hj
            rw [hnone] at this
            cases this
        · intro key' hk
          have := h.returned key' hk
          rw [hnone] at this
          cases this
      · cases hf
    · rename_i n hput
      rw [hput] at hi hspec
      rcases hspec with ⟨ht, -⟩ | ⟨-, hsame⟩
      · cases ht
      · exact (h.close i).of_node hi (getKey_sameTables K hsame p)
  · exact h

theorem Keys.Sound.step (h : s.Sound K p) {e : KeyEvent} (hm : s.Meets K p e) :
    (s.step K p calls e).Sound K p := by
  cases e with
  | put i nonce => exact h.put hm
  | fail i => exact h.close i
  | readCache i =>
    simp only [Keys.step]
    split
    · split
      · exact h.answer i (h.cached _ _ ‹_›)
      · exact h.moved fun _ hk => (nomatch hk)
    · exact h
  | acquire i =>
    simp only [Keys.step]
    split
    · have hmoved : (s.moved i .locked).Sound K p := h.moved fun _ hk => (nomatch hk)
      exact ⟨hmoved.outside, hmoved.cached, hmoved.settled, hmoved.returned⟩
    · exact h
  | recheck i =>
    simp only [Keys.step]
    split
    · split
      · exact h.answer i (h.cached _ _ ‹_›)
      · exact h.moved fun _ hk => (nomatch hk)
    · exact h
  | readStore i =>
    simp only [Keys.step]
    split
    · split
      · exact h.close i
      · split_ifs
        · exact h.moved fun key' hk => by
            cases hk
            assumption
        · exact h.close i
      · split_ifs
        · exact h.moved fun _ hk => (nomatch hk)
        · exact h.close i
    · exact h
  | generate i key hlen =>
    simp only [Keys.step]
    split
    · exact h.moved fun _ hk => (nomatch hk)
    · exact h
  | cache i =>
    simp only [Keys.step]
    split
    · rename_i key hset
      have hget := h.settled i key hset
      have hans := h.answer i hget
      refine ⟨hans.outside, ?_, hans.settled, hans.returned⟩
      intro q key' hq
      simp only [Function.update_apply] at hq
      split_ifs at hq
      · cases hq
        exact hget
      · exact h.cached q key' hq
    · exact h

theorem Keys.Sound.run : ∀ {events : List KeyEvent} {s : Keys}, s.Sound K p → s.RunMeets K p calls events →
    (s.run K p calls events).Sound K p
  | [], _, h, _ => h
  | _ :: _, _, h, hm => (h.step hm.1).run hm.2

/-- Fresh processes over a store. -/
def Keys.start (n : Node) : Keys := ⟨n, fun _ => none, fun _ => none, fun _ => .idle, []⟩

/-- **One master key per principal**, where a call puts its key while the store holds none: every key that was returned
is the key the store holds. -/
theorem one_master_key (K : KeyProvider) (p : String) (calls : ℕ → KeyCall) (n : Node) (hi : n.inTxn = false)
    (events : List KeyEvent) (hm : (Keys.start n).RunMeets K p calls events) :
    ∀ key ∈ ((Keys.start n).run K p calls events).returned,
      K.getKey ((Keys.start n).run K p calls events).node.db p = .ok (some key) := by
  have hstart : (Keys.start n).Sound K p :=
    ⟨hi, fun _ _ h => (nomatch h), fun _ _ h => (nomatch h), fun _ h => (nomatch h)⟩
  exact (hstart.run hm).returned

def someKey (b : UInt8) : Bytes := List.replicate masterKeyBytes b

def oneCall : List KeyEvent :=
  [.readCache 0, .acquire 0, .recheck 0, .readStore 0, .generate 0 (someKey 1) rfl, .put 0 0, .cache 0]

def twoProcesses : List KeyEvent :=
  [.readCache 0, .acquire 0, .recheck 0, .readStore 0, .readCache 1, .acquire 1, .recheck 1, .readStore 1,
   .generate 0 (someKey 1) rfl, .generate 1 (someKey 2) rfl, .put 0 0, .cache 0, .put 1 0, .cache 1]

def callers (i : ℕ) : KeyCall := ⟨i, true⟩

theorem one_master_key_first_use : plainProvider.getKey
    ((Keys.start keyNode).run plainProvider "p" callers oneCall).node.db "p" = .ok (some (someKey 1)) := by
  have hnone : plainProvider.getKey keyNode.db "p" = .ok none := rfl
  refine one_master_key plainProvider "p" callers keyNode rfl oneCall
    ⟨trivial, trivial, trivial, trivial, trivial, ?_, trivial, trivial⟩ (someKey 1) ?_
  · intro _ _
    exact hnone
  · decide +kernel

theorem two_master_keys :
    ¬ ∀ (K : KeyProvider) (p : String) (calls : ℕ → KeyCall) (n : Node) (events : List KeyEvent), n.inTxn = false →
      ∀ key ∈ ((Keys.start n).run K p calls events).returned,
        K.getKey ((Keys.start n).run K p calls events).node.db p = .ok (some key) := by
  intro h
  have hkey := h plainProvider "p" callers keyNode twoProcesses rfl (someKey 1) (by decide +kernel)
  have hother : plainProvider.getKey ((Keys.start keyNode).run plainProvider "p" callers twoProcesses).node.db "p"
      = .ok (some (someKey 2)) := by
    decide +kernel
  rw [hother] at hkey
  cases hkey

end Mantle
