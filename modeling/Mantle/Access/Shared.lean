import Mathlib.Data.List.TakeWhile
import Mantle.Access.Scope

/-!
# Mantle.Access.Shared — the memoised walk of a narrowed search

`_authorized` hands over at the first ancestor, whose verdict it keeps in `_above`.  The kept verdict comes of a walk
of the ancestor's own, with the whole ceiling before it.
-/

namespace Mantle

open Walk

/-- `_above`: the verdicts kept on first ancestors. -/
abbrev Above := List (String × Bool)

section Walks

variable (db : Store) (a : Action) (allow deny : List String)

/-- The loop of `_authorized` over what the walk yields; a walk that ends or raises answers no. -/
def authorizedLoop (id root : String) (above : Above) : List String → Bool × Above
  | [] => (false, above)
  | r :: rest =>
    if r ∈ deny then (false, above)
    else if r ∈ allow then (true, above)
    else if r ≠ id ∧ r ≠ root then
      match above.lookup r with
      | some b => (b, above)
      | none => (reaches db a allow deny r (some r), (r, reaches db a allow deny r (some r)) :: above)
    else authorizedLoop id root above rest

/-- `_authorized`, with the verdicts kept so far. -/
def authorizedAbove (above : Above) (id root : String) : Bool × Above :=
  authorizedLoop db a allow deny id root above (originChain db id a (some root)).items

def answers : Above → List (String × String) → List Bool
  | _, [] => []
  | above, c :: cs =>
    let out := authorizedAbove db a allow deny above c.1 c.2
    out.1 :: answers out.2 cs

/-- What is kept on an ancestor is the verdict of the ancestor's own walk. -/
def Above.Sound (above : Above) : Prop :=
  ∀ r b, above.lookup r = some b → b = reaches db a allow deny r (some r)

/-- The way from the candidate's first ancestor `p` up to the first grant is one the candidate's own walk goes. -/
def LineShared (id root : String) : Prop :=
  ∀ near p rest pre r post,
    (originChain db id a (some root)).items = near ++ p :: rest → (∀ q ∈ near, q = id ∨ q = root) →
    p ≠ id → p ≠ root → (originChain db p a (some p)).items = p :: (pre ++ r :: post) →
    (∀ q ∈ near ++ p :: pre, decideAt allow deny q = none) → decideAt allow deny r = some true →
    (∀ q ∈ pre, q ∉ near) ∧ near.length + pre.length < originWalkCeiling

end Walks

variable {db : Store} {a : Action} {allow deny : List String}

/-! ### The kept verdicts do not matter -/

section Memo

variable {above : Above} {id root : String}

theorem authorizedLoop_sound (hs : above.Sound db a allow deny) : ∀ items : List String,
    (authorizedLoop db a allow deny id root above items).1 =
        (items.findSome? (decideCandidate db a allow deny id root)).getD false ∧
      (authorizedLoop db a allow deny id root above items).2.Sound db a allow deny
  | [] => ⟨rfl, hs⟩
  | r :: rest => by
    rw [authorizedLoop, List.findSome?_cons]
    unfold decideCandidate
    by_cases hdeny : r ∈ deny
    · simp [hdeny, hs]
    · by_cases hallow : r ∈ allow
      · simp [hdeny, hallow, hs]
      · by_cases hfar : r ≠ id ∧ r ≠ root
        · rw [if_neg hdeny, if_neg hallow, if_pos hfar, if_neg hdeny, if_neg hallow, if_pos hfar]
          cases hl : above.lookup r with
          | some b => exact ⟨hs r b hl, hs⟩
          | none =>
            refine ⟨rfl, ?_⟩
            intro q b hq
            by_cases hqr : q = r
            · subst hqr
              rw [List.lookup_cons_self] at hq
              exact (Option.some.inj hq).symm
            · have hne : (q == r) = false := by simpa using hqr
              rw [List.lookup_cons, hne] at hq
              exact hs q b hq
        · rw [if_neg hdeny, if_neg hallow, if_neg hfar, if_neg hdeny, if_neg hallow, if_neg hfar]
          exact authorizedLoop_sound hs rest

theorem verdict_find {f : String → Option Bool} {t : Trail AccessErr String} :
    verdict (t.find fun r => .ok (f r)) = (t.items.findSome? f).getD false := by
  have htrue := @verdict_find_iff f t
  cases hv : verdict (t.find fun r => .ok (f r)) with
  | true => rw [htrue.mp hv, Option.getD_some]
  | false =>
    cases hf : t.items.findSome? f with
    | none => rfl
    | some b =>
      cases b with
      | false => rfl
      | true => exact absurd (htrue.mpr hf) (by simp [hv])

theorem answers_eq : ∀ (cs : List (String × String)) (above : Above), above.Sound db a allow deny →
    answers db a allow deny above cs = cs.map fun c => authorized db a allow deny c.1 c.2
  | [], _, _ => rfl
  | c :: cs, above, hs => by
    unfold answers authorizedAbove
    dsimp only
    obtain ⟨hanswer, hkept⟩ := @authorizedLoop_sound db a allow deny above c.1 c.2 hs
      (originChain db c.1 a (some c.2)).items
    rw [List.map_cons, hanswer, answers_eq cs _ hkept]
    unfold authorized
    rw [verdict_find]

end Memo

/-! ### The two walks above the first ancestor -/

section Lines

variable {id root p : String} {near rest : List String}

theorem far_ne_empty (h : (originChain db id a (some root)).items = near ++ p :: rest) (hid : p ≠ id)
    (hroot : p ≠ root) : p ≠ "" := by
  by_cases hempty : root = ""
  · exact hempty ▸ hroot
  · have hmem : p ∈ (originChain db id a (some root)).items := by
      rw [h]
      simp
    have hparent : ∃ x, conductingParent db a x = .ok (some p) := by
      have hcursor : chainRoot db id (some root) = root := if_neg hempty
      unfold originChain at hmem
      dsimp only at hmem
      rw [hcursor] at hmem
      split_ifs at hmem
      · exact climb_parent _ _ _ p ((List.mem_cons.mp hmem).resolve_left hid)
      · exact climb_parent _ _ _ p
          ((List.mem_cons.mp ((List.mem_cons.mp hmem).resolve_left hid)).resolve_left hroot)
    obtain ⟨x, hx⟩ := hparent
    unfold conductingParent at hx
    obtain ⟨o, -, ho⟩ := map_ok hx
    obtain ⟨r, -, hr⟩ := Option.bind_eq_some_iff.mp ho
    split_ifs at hr with hc
    cases hr
    simp only [Bool.and_eq_true, decide_eq_true_eq] at hc
    exact hc.1

theorem originChain_split (h : (originChain db id a (some root)).items = near ++ p :: rest) (hnear : near ≠ []) :
    rest = (climb (conductingParent db a) .chainUnterminated (originWalkCeiling - near.length)
      (p :: near.reverse) p).items := by
  obtain ⟨q, near, rfl⟩ := List.exists_cons_of_ne_nil hnear
  unfold originChain at h
  dsimp only at h
  split_ifs at h with hown
  · obtain ⟨rfl, htail⟩ := List.cons.inj h
    rw [climb_split htail]
    simp
  · obtain ⟨rfl, htail⟩ := List.cons.inj h
    cases near with
    | nil =>
      obtain ⟨rfl, hrest⟩ := List.cons.inj htail
      exact hrest.symm
    | cons c near =>
      obtain ⟨rfl, hrest⟩ := List.cons.inj htail
      rw [climb_split hrest]
      have hsteps : originWalkCeiling - 1 - (near.length + 1) =
          originWalkCeiling - (id :: chainRoot db id (some root) :: near).length := by
        simp only [List.length_cons]
        omega
      rw [hsteps]
      simp

theorem originChain_far (hp : p ≠ "") : (originChain db p a (some p)).items =
    p :: (climb (conductingParent db a) .chainUnterminated originWalkCeiling [p] p).items := by
  have hroot : chainRoot db p (some p) = p := if_neg hp
  unfold originChain
  dsimp only
  rw [hroot, if_pos rfl]
  rfl

theorem far_prefix_iff (h : (originChain db id a (some root)).items = near ++ p :: rest) (hnear : near ≠ [])
    {pre tail : List String} {r : String} (hp : p ≠ "")
    (hfar : (originChain db p a (some p)).items = p :: (pre ++ r :: tail)) :
    pre ++ [r] <+: rest ↔ (∀ q ∈ pre ++ [r], q ∉ near) ∧ near.length + pre.length < originWalkCeiling := by
  have hrest := originChain_split h hnear
  rw [originChain_far hp, List.cons.injEq] at hfar
  have hclimb : pre ++ [r] <+: (climb (conductingParent db a) .chainUnterminated originWalkCeiling [p] p).items := by
    rw [hfar.2]
    exact ⟨tail, by simp⟩
  constructor
  · intro hpre
    obtain ⟨hlen, hfresh⟩ := @climb_fresh AccessErr String _ (conductingParent db a) .chainUnterminated
      (originWalkCeiling - near.length) (p :: near.reverse) p
    rw [← hrest] at hlen hfresh
    have hle := hpre.length_le
    rw [List.length_append, List.length_singleton] at hle
    refine ⟨fun q hq hmem => hfresh q (hpre.subset hq) ?_, by omega⟩
    exact List.mem_cons_of_mem p (List.mem_reverse.mpr hmem)
  · rintro ⟨hfresh, hlen⟩
    rw [hrest]
    refine prefix_climb hclimb (by simp only [List.length_append, List.length_singleton]; omega) ?_
    intro q hq hmem
    rcases List.mem_cons.mp hmem with rfl | hmem
    · exact (climb_fresh originWalkCeiling [q] q).2 q (hclimb.subset hq) (List.mem_singleton.mpr rfl)
    · exact hfresh q hq (List.mem_reverse.mp hmem)

theorem rest_begins (h : (originChain db id a (some root)).items = near ++ p :: rest) (hnear : near ≠ []) :
    rest <+: (climb (conductingParent db a) .chainUnterminated originWalkCeiling [p] p).items := by
  rw [originChain_split h hnear]
  refine climb_prefix p (Nat.sub_le _ _) ?_
  intro y hy
  exact List.mem_cons.mpr (.inl (List.mem_singleton.mp hy))

end Lines

/-! ### First decisions -/

section Decisions

variable {f : String → Option Bool}

theorem findSome_prefix {xs ys : List String} {b : Bool} (h : xs <+: ys) (hx : xs.findSome? f = some b) :
    ys.findSome? f = some b := by
  obtain ⟨zs, rfl⟩ := h
  rw [List.findSome?_append, hx, Option.some_or]

theorem findSome_cut_iff {head cut line : List String} (h : cut <+: line) :
    ((head ++ line).findSome? f = some true ↔ (head ++ cut).findSome? f = some true) ↔
      ∀ pre r post, line = pre ++ r :: post → (∀ q ∈ head ++ pre, f q = none) → f r = some true →
        pre ++ [r] <+: cut := by
  have hmono : (head ++ cut).findSome? f = some true → (head ++ line).findSome? f = some true :=
    findSome_prefix ((List.prefix_append_right_inj head).mpr h)
  constructor
  · intro hiff pre r post hline hpass hr
    have hwhole : (head ++ line).findSome? f = some true := by
      rw [hline, ← List.append_assoc, List.findSome?_append,
        List.findSome?_eq_none_iff.mpr hpass, List.findSome?_cons, hr]
      rfl
    obtain ⟨pre', r', post', hcut, hr', -⟩ := List.findSome?_eq_some_iff.mp (hiff.mp hwhole)
    -- the yes of the cut line is not among what passes, so the cut reaches past it
    have hlong : head.length + pre.length < (head ++ cut).length := by
      by_contra hshort
      have hsub : head ++ cut <+: head ++ pre := by
        obtain ⟨zs, hzs⟩ := h
        refine (List.prefix_append_right_inj head).mpr ?_
        refine @List.prefix_of_prefix_length_le _ _ _ line ⟨zs, hzs⟩ ⟨r :: post, hline.symm⟩ ?_
        rw [List.length_append] at hshort
        omega
      have hmem : r' ∈ head ++ pre := hsub.subset (by rw [hcut]; simp)
      rw [hpass r' hmem] at hr'
      cases hr'
    refine @List.prefix_of_prefix_length_le _ _ _ line ⟨post, by simp [hline]⟩ h ?_
    rw [List.length_append] at hlong
    rw [List.length_append, List.length_singleton]
    omega
  · intro hall
    refine ⟨fun hwhole => ?_, hmono⟩
    rw [List.findSome?_append] at hwhole ⊢
    cases hhead : head.findSome? f with
    | some b =>
      rw [hhead, Option.some_or] at hwhole
      rw [Option.some_or, hwhole]
    | none =>
      rw [hhead, Option.none_or] at hwhole
      rw [Option.none_or]
      obtain ⟨pre, r, post, hline, hr, hpre⟩ := List.findSome?_eq_some_iff.mp hwhole
      refine findSome_prefix (hall pre r post hline ?_ hr) ?_
      · intro q hq
        rcases List.mem_append.mp hq with hq | hq
        · exact List.findSome?_eq_none_iff.mp hhead q hq
        · exact hpre q hq
      · rw [List.findSome?_append, List.findSome?_eq_none_iff.mpr hpre]
        simp [hr]

end Decisions

/-! ### The answers -/

section Answers

variable {id root p : String} {near rest : List String}

theorem candidateLine_split (h : (originChain db id a (some root)).items = near ++ p :: rest)
    (hnear : ∀ q ∈ near, q = id ∨ q = root) (hid : p ≠ id) (hroot : p ≠ root) :
    candidateLine db a id root = near ++ (originChain db p a (some p)).items := by
  have hpos : ∀ q ∈ near, decide (q = id ∨ q = root) = true := fun q hq => decide_eq_true (hnear q hq)
  unfold candidateLine
  dsimp only
  rw [h, List.takeWhile_append_of_pos hpos, List.dropWhile_append_of_pos hpos]
  simp [hid, hroot]

theorem authorized_eq_reaches_iff_line : authorized db a allow deny id root = reaches db a allow deny id (some root) ↔
    ((candidateLine db a id root).findSome? (decideAt allow deny) = some true ↔
      (originChain db id a (some root)).items.findSome? (decideAt allow deny) = some true) := by
  rw [findSome_decideAt_iff, findSome_decideAt_iff, ← authorized_iff, ← reaches_iff]
  exact Bool.eq_iff_iff

theorem candidateLine_agrees_iff (h : (originChain db id a (some root)).items = near ++ p :: rest)
    (hnear : ∀ q ∈ near, q = id ∨ q = root) (hid : p ≠ id) (hroot : p ≠ root) :
    ((candidateLine db a id root).findSome? (decideAt allow deny) = some true ↔
      (originChain db id a (some root)).items.findSome? (decideAt allow deny) = some true) ↔
      ∀ pre r post, (originChain db p a (some p)).items = p :: (pre ++ r :: post) →
        (∀ q ∈ near ++ p :: pre, decideAt allow deny q = none) → decideAt allow deny r = some true →
        (∀ q ∈ pre, q ∉ near) ∧ near.length + pre.length < originWalkCeiling := by
  have hp := far_ne_empty h hid hroot
  have hne : near ≠ [] := by
    rintro rfl
    obtain ⟨tail, htail⟩ := @originChain_head db a id (some root)
    rw [htail] at h
    exact hid (List.cons.inj h).1.symm
  rw [candidateLine_split h hnear hid hroot, originChain_far hp, h, List.append_cons near p rest,
    List.append_cons near p, findSome_cut_iff (rest_begins h hne)]
  constructor
  · intro hall pre r post hfar hpass hr
    have hprefix := hall pre r post (List.cons.inj hfar).2 (by simpa using hpass) hr
    rw [far_prefix_iff h hne hp ((originChain_far hp).trans hfar)] at hprefix
    exact ⟨fun q hq => hprefix.1 q (List.mem_append_left _ hq), hprefix.2⟩
  · intro hall pre r post hline hpass hr
    have hfar : (originChain db p a (some p)).items = p :: (pre ++ r :: post) := by
      rw [originChain_far hp, hline]
    obtain ⟨hfresh, hlen⟩ := hall pre r post (by rw [hline]) (by simpa using hpass) hr
    refine (far_prefix_iff h hne hp hfar).mpr ⟨?_, hlen⟩
    intro q hq
    rcases List.mem_append.mp hq with hq | hq
    · exact hfresh q hq
    · -- the grant itself is none of what passed
      obtain rfl := List.mem_singleton.mp hq
      intro hmem
      rw [hpass q (by simp [hmem])] at hr
      cases hr

theorem authorized_eq_reaches_iff : authorized db a allow deny id root = reaches db a allow deny id (some root) ↔
    LineShared db a allow deny id root := by
  rw [authorized_eq_reaches_iff_line]
  constructor
  · intro heq near p rest pre r post h hnear hid hroot
    exact (candidateLine_agrees_iff h hnear hid hroot).mp heq pre r post
  · intro hshared
    by_cases hfar : ∃ p ∈ (originChain db id a (some root)).items, p ≠ id ∧ p ≠ root
    · obtain ⟨near, p, rest, h, ⟨hid, hroot⟩, hpre⟩ := exists_first hfar
      have hnear : ∀ q ∈ near, q = id ∨ q = root := by
        intro q hq
        have := hpre q hq
        tauto
      refine (candidateLine_agrees_iff h hnear hid hroot).mpr ?_
      intro pre r post
      exact hshared near p rest pre r post h hnear hid hroot
    · -- nothing past the candidate and its root: its line is its walk
      have hall : ∀ q ∈ (originChain db id a (some root)).items, decide (q = id ∨ q = root) = true := by
        intro q hq
        rw [decide_eq_true_iff]
        by_contra hq'
        exact hfar ⟨q, hq, by tauto⟩
      unfold candidateLine
      dsimp only
      rw [List.takeWhile_eq_self_iff.mpr hall, List.dropWhile_eq_nil_iff.mpr hall, List.append_nil]

end Answers

/-- **When the memo answers as the plain walk**: exactly when every candidate shares its line. -/
theorem answers_eq_reaches_iff (db : Store) (a : Action) (allow deny : List String) (cs : List (String × String)) :
    answers db a allow deny [] cs = cs.map (fun c => reaches db a allow deny c.1 (some c.2)) ↔
      ∀ c ∈ cs, LineShared db a allow deny c.1 c.2 := by
  have hfresh : Above.Sound db a allow deny [] := fun r b h => nomatch h
  rw [answers_eq cs [] hfresh, List.map_inj_left]
  exact forall₂_congr fun c _ => authorized_eq_reaches_iff

def loopedNode : Node :=
  hereNode.run
    [.addEdges [.tuple (.str "p") (.str "r") (.str containsLabel) [("is_origin", .bool true)],
      .tuple (.str "x") (.str "p") (.str containsLabel) [("is_origin", .bool true)],
      .tuple (.str "q") (.str "x") (.str containsLabel) [("is_origin", .bool true)]] 500 true]

theorem answers_looped : ¬ ∀ (db : Store) (a : Action) (allow deny : List String) (cs : List (String × String)),
    answers db a allow deny [] cs = cs.map fun c => reaches db a allow deny c.1 (some c.2) := by
  intro h
  obtain ⟨hyes, hno⟩ : (answers loopedNode.db .read ["q"] [] [] [("x", "r")]).head? = some true ∧
      reaches loopedNode.db .read ["q"] [] "x" (some "r") = false := by decide +kernel
  rw [h, List.map_cons, List.head?_cons, hno] at hyes
  cases hyes

end Mantle
