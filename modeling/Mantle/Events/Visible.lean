import Mathlib.Data.Rat.Defs
import Mathlib.Algebra.Order.Ring.Rat
import Mantle.Access.Gate
import Mantle.Events.Bus

/-!
# Mantle.Events.Visible — which events a socket is shown (`routers/events_router.py`)

An event is shown where the gate lets the principal read its artifact, or the container where the store holds no such
artifact.  A question of one event is taken in steps.
-/

namespace Mantle

namespace Visible

variable {t : Table String (Bool × ℚ)}

/-! ### One moment -/

/-- What a read of the store sees. -/
structure Moment where
  db : Store
  now : Val → Bool
  time : ℚ

section Reads

variable (p : String) (m : Moment)

def artifactKnown (id : String) : Bool := decide (id ≠ "") && (m.db.vertex.lookup id).isSome

/-- `_read_authorized`, for a user. -/
def readAuthorized (id : String) : Bool :=
  decide (id ≠ "" ∧ p ≠ "") && acceptsB m.now m.db p id Action.read.name

/-- `_read_denied`, for a user; an exception is no deny. -/
def readDenied (id : String) : Bool :=
  if id = "" ∨ p = "" then false
  else
    match getActiveGrantsForPrincipalResource m.now m.db p id with
    | .ok grants => grants.any fun g => g.isDeny && g.flag .read
    | .error _ => false

end Reads

/-! ### A socket (`_Access`) -/

/-- Where the question of an event stands; `asked` is when it was begun. -/
inductive Phase
  | idle
  | subject (e : Bus.EventBody) (asked : ℚ)
  | read (e : Bus.EventBody) (asked : ℚ)
  | deny (e : Bus.EventBody) (asked : ℚ)
  | container (e : Bus.EventBody) (asked : ℚ)
  | answered (e : Bus.EventBody) (asked : ℚ) (shown : Bool)
deriving DecidableEq

/-- The store, the clock, and a socket's verdicts, each with the time it expires.  `past` is history: every
moment of the run. -/
structure Feed where
  node : Node
  now : Val → Bool
  time : ℚ
  verdicts : Table String (Bool × ℚ)
  denials : Table String (Bool × ℚ)
  phase : Phase
  past : List Moment

inductive FeedOp
  /-- A write of the store. -/
  | act (a : Act)
  | pass (now : Val → Bool) (time : ℚ)
  /-- `invalidate`. -/
  | invalidate (id : String)
  | ask (e : Bus.EventBody)
  /-- The next read of the question. -/
  | advance

namespace Feed

variable (ttl : ℚ) (p : String) (f : Feed)

def moment : Moment := ⟨f.node.db, f.now, f.time⟩

def cached (t : Table String (Bool × ℚ)) (id : String) : Option Bool :=
  (t.lookup id).bind fun e => if f.time < e.2 then some e.1 else none

/-- `_verdict`: whether the id may be read and whether it is known.  Nothing is kept of an unknown one. -/
def verdict (id : String) : (Bool × Bool) × Feed :=
  match f.cached f.verdicts id with
  | some b => ((b, true), f)
  | none =>
    if artifactKnown f.moment id then
      let b := readAuthorized p f.moment id
      ((b, true), { f with verdicts := f.verdicts.insert id (b, f.time + ttl) })
    else ((false, false), { f with verdicts := f.verdicts.erase id })

def denies (id : String) : Bool × Feed :=
  match f.cached f.denials id with
  | some b => (b, f)
  | none =>
    let b := readDenied p f.moment id
    (b, { f with denials := f.denials.insert id (b, f.time + ttl) })

def subjectOf (e : Bus.EventBody) : String := e.artifactId.getD ""
def containerOf (e : Bus.EventBody) : String := e.containerId.getD ""

/-- `_event_visible_to`, one read of it: the artifact where it is known, else an explicit deny, else the
container. -/
def advance : Feed :=
  match f.phase with
  | .subject e asked =>
    let r := f.verdict ttl p (subjectOf e)
    { r.2 with phase := if r.1.2 then .read e asked else .deny e asked }
  | .read e asked =>
    let r := f.verdict ttl p (subjectOf e)
    { r.2 with phase := .answered e asked r.1.1 }
  | .deny e asked =>
    let r := f.denies ttl p (subjectOf e)
    { r.2 with phase := if r.1 then .answered e asked false else .container e asked }
  | .container e asked =>
    if containerOf e = "" then { f with phase := .answered e asked false }
    else
      let r := f.verdict ttl p (containerOf e)
      { r.2 with phase := .answered e asked r.1.1 }
  | _ => f

/-- What an operation does, but for the history. -/
def move : FeedOp → Feed
  | .act a => { f with node := f.node.after a }
  | .pass now time => { f with now := now, time := max f.time time }
  | .invalidate id => { f with verdicts := f.verdicts.erase id, denials := f.denials.erase id }
  | .ask e => { f with phase := if subjectOf e = "" then .container e f.time else .subject e f.time }
  | .advance => f.advance ttl p

def step (op : FeedOp) : Feed := { f.move ttl p op with past := (f.move ttl p op).moment :: f.past }

def run (ops : List FeedOp) : Feed := ops.foldl (step ttl p) f

/-- A socket that has just been opened. -/
def start (n : Node) (now : Val → Bool) (time : ℚ) : Feed :=
  ⟨n, now, time, ∅, ∅, .idle, [⟨n.db, now, time⟩]⟩

end Feed

/-! ### What a verdict rests on -/

variable {holds : Moment → String → Bool → Prop} {past' : List Moment}

section Sound

variable (ttl : ℚ) (p : String)

/-- The moment lies after the question was asked, or less than a verdict's lifetime before. -/
def Recent (asked : ℚ) (m : Moment) : Prop := asked ≤ m.time ∨ asked < m.time + ttl

/-- The verdicts of a table were read in the run, and expire a lifetime later. -/
def Kept (holds : Moment → String → Bool → Prop) (past : List Moment) (t : Table String (Bool × ℚ)) : Prop :=
  ∀ id b expires, t.lookup id = some (b, expires) → ∃ m ∈ past, expires = m.time + ttl ∧ holds m id b

def Gone (past : List Moment) (asked : ℚ) (x : String) : Prop :=
  ∃ m ∈ past, asked ≤ m.time ∧ artifactKnown m x = false

def NotDenied (past : List Moment) (asked : ℚ) (x : String) : Prop :=
  ∃ m ∈ past, Recent ttl asked m ∧ readDenied p m x = false

def MayRead (past : List Moment) (asked : ℚ) (x : String) : Prop :=
  ∃ m ∈ past, Recent ttl asked m ∧ readAuthorized p m x = true

/-- What is known where a question stands. -/
def Phase.Sound (past : List Moment) (time : ℚ) : Phase → Prop
  | .idle => True
  | .subject _ asked => asked ≤ time
  | .read _ asked => asked ≤ time
  | .deny e asked => asked ≤ time ∧ Gone past asked (Feed.subjectOf e)
  | .container e asked => asked ≤ time ∧
      (Feed.subjectOf e ≠ "" → Gone past asked (Feed.subjectOf e) ∧ NotDenied ttl p past asked (Feed.subjectOf e))
  | .answered e asked shown => shown = true → Feed.subjectOf e ≠ "" →
      MayRead ttl p past asked (Feed.subjectOf e) ∨
      Gone past asked (Feed.subjectOf e) ∧ NotDenied ttl p past asked (Feed.subjectOf e) ∧
        MayRead ttl p past asked (Feed.containerOf e)

structure Feed.Sound (f : Feed) : Prop where
  present : f.moment ∈ f.past
  verdicts : Kept ttl (fun m id b => b = true → readAuthorized p m id = true) f.past f.verdicts
  denials : Kept ttl (fun m id b => b = readDenied p m id) f.past f.denials
  phase : f.phase.Sound ttl p f.past f.time

variable {ttl p} {past : List Moment} {asked : ℚ} {x : String} {f : Feed}

theorem Kept.mono (h : Kept ttl holds past t) (hp : past ⊆ past') : Kept ttl holds past' t := by
  intro id b expires hb
  obtain ⟨m, hm, hrest⟩ := h id b expires hb
  exact ⟨m, hp hm, hrest⟩

theorem Kept.insert (h : Kept ttl holds past t) {m : Moment} (hm : m ∈ past) {b : Bool} (hb : holds m x b) :
    Kept ttl holds past (t.insert x (b, m.time + ttl)) := by
  intro id b' expires hid
  rw [Table.lookup_insert_of] at hid
  split_ifs at hid with heq
  · cases hid
    exact ⟨m, hm, rfl, heq ▸ hb⟩
  · exact h id b' expires hid

theorem Kept.erase (h : Kept ttl holds past t) (y : String) : Kept ttl holds past (t.erase y) := by
  intro id b expires hid
  rw [Table.lookup_erase_of] at hid
  split_ifs at hid
  exact h id b expires hid

theorem Gone.mono (h : Gone past asked x) (hp : past ⊆ past') : Gone past' asked x := by
  obtain ⟨m, hm, hrest⟩ := h
  exact ⟨m, hp hm, hrest⟩

theorem NotDenied.mono (h : NotDenied ttl p past asked x) (hp : past ⊆ past') :
    NotDenied ttl p past' asked x := by
  obtain ⟨m, hm, hrest⟩ := h
  exact ⟨m, hp hm, hrest⟩

theorem MayRead.mono (h : MayRead ttl p past asked x) (hp : past ⊆ past') :
    MayRead ttl p past' asked x := by
  obtain ⟨m, hm, hrest⟩ := h
  exact ⟨m, hp hm, hrest⟩

theorem Phase.Sound.mono {time time' : ℚ} {ph : Phase} (h : ph.Sound ttl p past time) (hp : past ⊆ past')
    (ht : time ≤ time') : ph.Sound ttl p past' time' := by
  cases ph with
  | idle => trivial
  | subject e asked => exact le_trans (h : asked ≤ time) ht
  | read e asked => exact le_trans (h : asked ≤ time) ht
  | deny e asked => exact ⟨h.1.trans ht, h.2.mono hp⟩
  | container e asked => exact ⟨h.1.trans ht, fun hx => ⟨(h.2 hx).1.mono hp, (h.2 hx).2.mono hp⟩⟩
  | answered e asked shown =>
    intro hs hx
    rcases h hs hx with hread | ⟨hgone, hdeny, hread⟩
    · exact .inl (hread.mono hp)
    · exact .inr ⟨hgone.mono hp, hdeny.mono hp, hread.mono hp⟩

theorem Kept.cached (h : Kept ttl holds f.past t) {b : Bool} (hb : f.cached t x = some b) :
    ∃ m ∈ f.past, f.time < m.time + ttl ∧ holds m x b := by
  obtain ⟨⟨b', expires⟩, hrow, hlive⟩ := Option.bind_eq_some_iff.mp hb
  dsimp only at hlive
  split_ifs at hlive with hlt
  cases hlive
  obtain ⟨m, hm, rfl, hholds⟩ := h x b expires hrow
  exact ⟨m, hm, hlt, hholds⟩

theorem verdict_spec (h : f.Sound ttl p) (x : String) :
    ((f.verdict ttl p x).1.1 = true → ∀ {asked : ℚ}, asked ≤ f.time → MayRead ttl p f.past asked x) ∧
    ((f.verdict ttl p x).1.2 = false → artifactKnown f.moment x = false) ∧
    ∃ verdicts, (f.verdict ttl p x).2 = { f with verdicts := verdicts } ∧
      Kept ttl (fun m id b => b = true → readAuthorized p m id = true) f.past verdicts := by
  unfold Feed.verdict
  cases hc : f.cached f.verdicts x with
  | some b =>
    obtain ⟨m, hm, hlt, hread⟩ := h.verdicts.cached hc
    exact ⟨fun hb _ ha => ⟨m, hm, .inr (lt_of_le_of_lt ha hlt), hread hb⟩, fun hk => (nomatch hk),
      f.verdicts, rfl, h.verdicts⟩
  | none =>
    dsimp only
    by_cases hk : artifactKnown f.moment x = true
    · rw [if_pos hk]
      exact ⟨fun hb _ ha => ⟨f.moment, h.present, .inl ha, hb⟩, fun hk' => (nomatch hk'), _, rfl,
        h.verdicts.insert h.present fun hb => hb⟩
    · rw [if_neg hk]
      exact ⟨fun hb => (nomatch hb), fun _ => Bool.not_eq_true _ ▸ hk, _, rfl, h.verdicts.erase x⟩

theorem denies_spec (h : f.Sound ttl p) (x : String) :
    ((f.denies ttl p x).1 = false → ∀ {asked : ℚ}, asked ≤ f.time → NotDenied ttl p f.past asked x) ∧
    ∃ denials, (f.denies ttl p x).2 = { f with denials := denials } ∧
      Kept ttl (fun m id b => b = readDenied p m id) f.past denials := by
  unfold Feed.denies
  cases hc : f.cached f.denials x with
  | some b =>
    obtain ⟨m, hm, hlt, hdenied⟩ := h.denials.cached hc
    exact ⟨fun hb _ ha => ⟨m, hm, .inr (lt_of_le_of_lt ha hlt), hdenied ▸ hb⟩, f.denials, rfl, h.denials⟩
  | none => exact ⟨fun hb _ ha => ⟨f.moment, h.present, .inl ha, hb⟩, _, rfl, h.denials.insert h.present rfl⟩

theorem sound_step {op : FeedOp}
    (hv : Kept ttl (fun m id b => b = true → readAuthorized p m id = true) f.past (f.move ttl p op).verdicts)
    (hd : Kept ttl (fun m id b => b = readDenied p m id) f.past (f.move ttl p op).denials)
    (hph : (f.move ttl p op).phase.Sound ttl p f.past (f.move ttl p op).time) : (f.step ttl p op).Sound ttl p where
  present := List.mem_cons_self
  verdicts := hv.mono (List.subset_cons_self _ _)
  denials := hd.mono (List.subset_cons_self _ _)
  phase := hph.mono (List.subset_cons_self _ _) le_rfl

theorem Feed.Sound.advance (h : f.Sound ttl p) : (f.step ttl p .advance).Sound ttl p := by
  have hph := h.phase
  cases hphase : f.phase with
  | idle =>
    have hmove : f.move ttl p .advance = f := by simp [Feed.move, Feed.advance, hphase]
    refine sound_step ?_ ?_ ?_ <;> rw [hmove]
    exacts [h.verdicts, h.denials, h.phase]
  | answered e asked shown =>
    have hmove : f.move ttl p .advance = f := by simp [Feed.move, Feed.advance, hphase]
    refine sound_step ?_ ?_ ?_ <;> rw [hmove]
    exacts [h.verdicts, h.denials, h.phase]
  | subject e asked =>
    rw [hphase] at hph
    obtain ⟨-, hknown, verdicts, hleft, hkept⟩ := verdict_spec h (subjectOf e)
    have hmove : f.move ttl p .advance = { f with
        verdicts := verdicts
        phase := if (f.verdict ttl p (subjectOf e)).1.2 then .read e asked else .deny e asked } := by
      simp [Feed.move, Feed.advance, hphase, hleft]
    refine sound_step ?_ ?_ ?_ <;> rw [hmove]
    · exact hkept
    · exact h.denials
    · dsimp only
      split_ifs with hk
      · exact hph
      · exact ⟨hph, f.moment, h.present, hph, hknown (Bool.not_eq_true _ ▸ hk)⟩
  | read e asked =>
    rw [hphase] at hph
    obtain ⟨hread, -, verdicts, hleft, hkept⟩ := verdict_spec h (subjectOf e)
    have hmove : f.move ttl p .advance = { f with
        verdicts := verdicts
        phase := .answered e asked (f.verdict ttl p (subjectOf e)).1.1 } := by
      simp [Feed.move, Feed.advance, hphase, hleft]
    refine sound_step ?_ ?_ ?_ <;> rw [hmove]
    · exact hkept
    · exact h.denials
    · exact fun hs _ => .inl (hread hs hph)
  | deny e asked =>
    rw [hphase] at hph
    obtain ⟨hdeny, denials, hleft, hkept⟩ := denies_spec h (subjectOf e)
    have hmove : f.move ttl p .advance = { f with
        denials := denials
        phase := if (f.denies ttl p (subjectOf e)).1 then .answered e asked false else .container e asked } := by
      simp [Feed.move, Feed.advance, hphase, hleft]
    refine sound_step ?_ ?_ ?_ <;> rw [hmove]
    · exact h.verdicts
    · exact hkept
    · dsimp only
      split_ifs with hd
      · exact fun hs => nomatch hs
      · exact ⟨hph.1, fun _ => ⟨hph.2, hdeny (Bool.not_eq_true _ ▸ hd) hph.1⟩⟩
  | container e asked =>
    rw [hphase] at hph
    by_cases hc : containerOf e = ""
    · have hmove : f.move ttl p .advance = { f with phase := .answered e asked false } := by
        simp [Feed.move, Feed.advance, hphase, hc]
      refine sound_step ?_ ?_ ?_ <;> rw [hmove]
      · exact h.verdicts
      · exact h.denials
      · exact fun hs => nomatch hs
    · obtain ⟨hread, -, verdicts, hleft, hkept⟩ := verdict_spec h (containerOf e)
      have hmove : f.move ttl p .advance = { f with
          verdicts := verdicts
          phase := .answered e asked (f.verdict ttl p (containerOf e)).1.1 } := by
        simp [Feed.move, Feed.advance, hphase, hc, hleft]
      refine sound_step ?_ ?_ ?_ <;> rw [hmove]
      · exact hkept
      · exact h.denials
      · exact fun hs hx => .inr ⟨(hph.2 hx).1, (hph.2 hx).2, hread hs hph.1⟩

theorem Feed.Sound.step (h : f.Sound ttl p) (op : FeedOp) : (f.step ttl p op).Sound ttl p := by
  cases op with
  | act a => exact sound_step h.verdicts h.denials h.phase
  | pass now time => exact sound_step h.verdicts h.denials (h.phase.mono (List.Subset.refl _) (le_max_left _ _))
  | invalidate id => exact sound_step (h.verdicts.erase id) (h.denials.erase id) h.phase
  | ask e =>
    refine sound_step h.verdicts h.denials ?_
    show (if subjectOf e = "" then Phase.container e f.time else Phase.subject e f.time).Sound ttl p f.past f.time
    split_ifs with hx
    · exact ⟨le_rfl, fun hne => absurd hx hne⟩
    · exact le_refl f.time
  | advance => exact h.advance

theorem Feed.Sound.run : ∀ (ops : List FeedOp) (f : Feed), f.Sound ttl p → (f.run ttl p ops).Sound ttl p
  | [], _, h => h
  | op :: ops, f, h => Feed.Sound.run ops (f.step ttl p op) (h.step op)

theorem start_sound (n : Node) (now : Val → Bool) (time : ℚ) : (Feed.start n now time).Sound ttl p where
  present := List.mem_cons_self
  verdicts := fun _ _ _ h => nomatch h
  denials := fun _ _ _ h => nomatch h
  phase := trivial

end Sound

theorem known_of_readAuthorized {p : String} {m : Moment} {x : String} (h : readAuthorized p m x = true) :
    artifactKnown m x = true ∧ Accepts m.now m.db p x Action.read.name := by
  obtain ⟨hne, hacc⟩ := Bool.and_eq_true_iff.mp h
  have hacc := accepts_iff_acceptsB.mpr hacc
  refine ⟨Bool.and_eq_true_iff.mpr ⟨decide_eq_true (of_decide_eq_true hne).1, ?_⟩, hacc⟩
  obtain ⟨held, hheld⟩ := hacc
  unfold checkAccess at hheld
  rw [Action.ofName_name] at hheld
  cases hd : docOf m.db x with
  | none => simp [hd] at hheld
  | some doc =>
    unfold docOf at hd
    obtain ⟨r, hr, -⟩ := Option.bind_eq_some_iff.mp hd
    rw [hr]
    rfl

/-- **What the feed shows of an artifact one may not read**: nothing, while it is stored. -/
theorem unreadable_shown_when_gone (ttl : ℚ) (p : String) (n : Node) (now : Val → Bool) (time : ℚ)
    (ops : List FeedOp) (x : String) (hx : x ≠ "")
    (hrefused : ∀ m ∈ ((Feed.start n now time).run ttl p ops).past, artifactKnown m x = true →
      ¬Accepts m.now m.db p x Action.read.name)
    (e : Bus.EventBody) (he : e.artifactId = some x) (asked : ℚ)
    (hshown : ((Feed.start n now time).run ttl p ops).phase = .answered e asked true) :
    (∃ m ∈ ((Feed.start n now time).run ttl p ops).past, asked ≤ m.time ∧ artifactKnown m x = false) ∧
    (∃ m ∈ ((Feed.start n now time).run ttl p ops).past, Recent ttl asked m ∧ readDenied p m x = false) ∧
    ∃ c, e.containerId = some c ∧ ∃ m ∈ ((Feed.start n now time).run ttl p ops).past, Recent ttl asked m ∧
      Accepts m.now m.db p c Action.read.name := by
  have hsound := (@Feed.Sound.run ttl p ops _ (start_sound n now time)).phase
  rw [hshown] at hsound
  have hsub : Feed.subjectOf e = x := by
    unfold Feed.subjectOf
    rw [he]
    rfl
  rcases hsound rfl (hsub ▸ hx) with hread | ⟨hgone, hdeny, hread⟩
  · obtain ⟨m, hm, -, hread⟩ := hread
    rw [hsub] at hread
    obtain ⟨hknown, hacc⟩ := known_of_readAuthorized hread
    exact absurd hacc (hrefused m hm hknown)
  · rw [hsub] at hgone hdeny
    obtain ⟨m, hm, hrecent, hread⟩ := hread
    refine ⟨hgone, hdeny, ?_⟩
    have hacc := (known_of_readAuthorized hread).2
    have hne : Feed.containerOf e ≠ "" := (of_decide_eq_true (Bool.and_eq_true_iff.mp hread).1).1
    unfold Feed.containerOf at hacc hne
    cases hc : e.containerId with
    | none =>
      rw [hc] at hne
      exact absurd rfl hne
    | some c =>
      rw [hc] at hacc
      exact ⟨c, rfl, m, hm, hrecent, hacc⟩

def prunedNode : Node :=
  hereNode.run
    [.putArtifact [("id", .str "c")] true false,
     .putArtifact [("id", .str "x")] true false,
     .addEdges [.tuple (.str "c") (.str "x") (.str containsLabel)
       [("is_origin", .int 1), ("propagate", .str "update")]] 500 true,
     .putArtifact (grantDoc "g" "u" "c" "allow") true false]

def deletedEvent : Bus.EventBody := ⟨"artifact.deleted", some "c", some "x", none, none, ["c"], "e"⟩

def deletedThenAsked : List FeedOp :=
  [.act (.deleteArtifact "x"), .ask deletedEvent, .advance, .advance, .advance]

def prunedFeed : Feed := (Feed.start prunedNode (fun _ => true) 0).run 30 "u" deletedThenAsked

theorem prunedFeed_refused : ∀ m ∈ prunedFeed.past, artifactKnown m "x" = true →
    ¬Accepts m.now m.db "u" "x" Action.read.name := by
  intro m hm hknown hacc
  have hall : prunedFeed.past.all (fun m =>
      !(artifactKnown m "x" && acceptsB m.now m.db "u" "x" Action.read.name)) = true := by decide +kernel
  have hno := List.all_eq_true.mp hall m hm
  rw [hknown, accepts_iff_acceptsB.mp hacc] at hno
  cases hno

theorem unreadable_shown_when_gone_deleted :
    (∃ m ∈ prunedFeed.past, 0 ≤ m.time ∧ artifactKnown m "x" = false) ∧
    (∃ m ∈ prunedFeed.past, Recent 30 0 m ∧ readDenied "u" m "x" = false) ∧
    ∃ c, deletedEvent.containerId = some c ∧ ∃ m ∈ prunedFeed.past, Recent 30 0 m ∧
      Accepts m.now m.db "u" c Action.read.name :=
  unreadable_shown_when_gone 30 "u" prunedNode (fun _ => true) 0 deletedThenAsked "x" (by decide)
    prunedFeed_refused deletedEvent rfl 0 (by decide +kernel)

theorem deletion_shown :
    ¬∀ (ttl : ℚ) (p : String) (n : Node) (now : Val → Bool) (time : ℚ) (ops : List FeedOp) (x : String), x ≠ "" →
      (∀ m ∈ ((Feed.start n now time).run ttl p ops).past, artifactKnown m x = true →
        ¬Accepts m.now m.db p x Action.read.name) →
      ∀ (e : Bus.EventBody), e.artifactId = some x → ∀ asked shown,
        ((Feed.start n now time).run ttl p ops).phase = .answered e asked shown → shown = false := by
  intro h
  have hshown := h 30 "u" prunedNode (fun _ => true) 0 deletedThenAsked "x" (by decide) prunedFeed_refused
    deletedEvent rfl 0 true (by decide +kernel)
  cases hshown

end Visible

end Mantle
