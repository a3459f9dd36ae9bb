import Mathlib.Data.String.Basic
import Mantle.Db.Reorder

/-!
# Mantle.Db.OrderKeys — the keys a rewrite gives out put the members in its order

`after_key` gives a greater key at every length, so a rewrite over all the members leaves them in the order it names.
-/

namespace Mantle

variable {children : List ChildEdge} {p : List String}

/-! ### Sorting what has one order -/

theorem insertionSort_eq_of_strict {α : Type} {le : α → α → Prop} [DecidableRel le] [Std.Total le] [IsTrans α le]
    {xs ys : List α} (hp : ys.Perm xs) (hs : ys.Pairwise fun a b => le a b ∧ ¬le b a) : xs.insertionSort le = ys := by
  have hsame : ∀ ⦃a⦄, a ∈ ys → ∀ ⦃b⦄, b ∈ ys → le a b → le b a → a = b :=
    List.Pairwise.forall_of_forall_of_flip (fun _ _ _ _ => rfl) (hs.imp fun hab _ hba => absurd hba hab.2)
      (hs.imp fun hab hba _ => absurd hba hab.2)
  have hperm : (xs.insertionSort le).Perm ys := (List.perm_insertionSort le xs).trans hp.symm
  exact hperm.eq_of_pairwise (fun _ _ ha hb => hsame (hperm.mem_iff.mp ha) hb)
    (List.pairwise_insertionSort le xs) (hs.imp fun h => h.1)

theorem exists_perm_map {α β : Type} {f : α → β} : ∀ {ys : List β} {xs : List α}, ys.Perm (xs.map f) →
    ∃ zs : List α, zs.Perm xs ∧ zs.map f = ys
  | [], xs, h => by
    obtain rfl : xs = [] := by simpa using h.symm.eq_nil
    exact ⟨[], .refl _, rfl⟩
  | y :: ys, xs, h => by
    obtain ⟨x, hx, rfl⟩ := List.mem_map.mp (h.subset (List.mem_cons_self ..))
    obtain ⟨before, after, rfl⟩ := List.append_of_mem hx
    have hmid : (before ++ x :: after).Perm (x :: (before ++ after)) := List.perm_middle
    obtain ⟨zs, hz, hmap⟩ := exists_perm_map ((h.trans (hmid.map f)).cons_inv)
    exact ⟨x :: zs, (hz.cons x).trans hmid.symm, by rw [List.map_cons, hmap]⟩

/-! ### The keys -/

theorem orderAlphabet_increasing : orderAlphabet.Pairwise (· < ·) := by decide

theorem lt_afterKey (k : String) : k < afterKey (some k) := by
  rw [String.lt_iff_toList_lt]
  unfold afterKey
  dsimp only
  cases hlast : k.toList.getLast? with
  | none =>
    rw [List.getLast?_eq_none_iff] at hlast
    rw [hlast]
    dsimp only
    decide
  | some c =>
    obtain ⟨init, hk⟩ := List.getLast?_eq_some_iff.mp hlast
    dsimp only
    cases hnext : orderAlphabet[orderAlphabet.idxOf c + 1]? with
    | none =>
      -- the alphabet ends here, or does not hold the character: the key grows
      have hlonger : k.toList ++ [] < k.toList ++ ['U'] := List.append_left_lt (List.nil_lt_cons 'U' [])
      rw [List.append_nil] at hlonger
      rwa [String.toList_append]
    | some d =>
      obtain ⟨hlen, hd⟩ := List.getElem?_eq_some_iff.mp hnext
      have hc : orderAlphabet.idxOf c < orderAlphabet.length := by omega
      have hcd : c < d := by
        have hlt := List.pairwise_iff_getElem.mp orderAlphabet_increasing _ _ hc hlen (by omega)
        rwa [List.getElem_idxOf, hd] at hlt
      dsimp only
      rw [String.toList_ofList, hk, List.dropLast_concat]
      exact List.append_left_lt (List.Lex.rel hcd)

theorem afterKey_ne_empty : ∀ a : Option String, afterKey a ≠ ""
  | none => by decide
  | some k => fun h => by
    have hlt := lt_afterKey k
    rw [h, String.lt_iff_toList_lt] at hlt
    exact List.not_lt_nil _ hlt

/-- The keys given out one after the other from `prev` on. -/
def keysAlong : Option String → ℕ → List String
  | _, 0 => []
  | prev, n + 1 => afterKey prev :: keysAlong (some (afterKey prev)) n

theorem lt_of_mem_keysAlong : ∀ (n : ℕ) (a : String), ∀ k ∈ keysAlong (some a) n, a < k
  | 0, _, _, hk => nomatch hk
  | n + 1, a, k, hk => by
    rcases List.mem_cons.mp hk with rfl | hk
    · exact lt_afterKey a
    · exact (lt_afterKey a).trans (lt_of_mem_keysAlong n _ k hk)

theorem keysAlong_increasing : ∀ (prev : Option String) (n : ℕ), (keysAlong prev n).Pairwise (· < ·)
  | _, 0 => .nil
  | _, n + 1 => List.pairwise_cons.mpr ⟨lt_of_mem_keysAlong n _, keysAlong_increasing _ n⟩

theorem ne_empty_of_mem_keysAlong : ∀ (n : ℕ) (prev : Option String), ∀ k ∈ keysAlong prev n, k ≠ ""
  | 0, _, _, hk => nomatch hk
  | n + 1, prev, k, hk => by
    rcases List.mem_cons.mp hk with rfl | hk
    · exact afterKey_ne_empty prev
    · exact ne_empty_of_mem_keysAlong n _ k hk

theorem lt_afterKey_max {keys : List String} {k : String} (hk : k ∈ keys) : k < afterKey keys.max? := by
  cases hm : keys.max? with
  | none =>
    rw [List.max?_eq_none_iff] at hm
    rw [hm] at hk
    cases hk
  | some m => exact ((List.max?_eq_some_iff.mp hm).2 k hk).trans_lt (lt_afterKey m)

/-! ### Members in an order -/

instance : Std.Total childLe where
  total a b := by
    unfold childLe
    rcases lt_trichotomy a.1 b.1 with h | h | h
    · exact .inl (.inl h)
    · rcases le_total a.2 b.2 with h' | h'
      · exact .inl (.inr ⟨h, h'⟩)
      · exact .inr (.inr ⟨h.symm, h'⟩)
    · exact .inr (.inl h)

instance : IsTrans (String × String) childLe where
  trans a b c := by
    rintro (hab | ⟨hab, hab'⟩) (hbc | ⟨hbc, hbc'⟩)
    · exact .inl (hab.trans hbc)
    · exact .inl (hbc ▸ hab)
    · exact .inl (hab ▸ hbc)
    · exact .inr ⟨hab.trans hbc, hab'.trans hbc'⟩

/-- The members stand in the order `p`: their keys, none of them empty, increase along it. -/
def Arranged (children : List ChildEdge) (p : List String) : Prop :=
  ∃ (cs : List ChildEdge) (keys : List String), cs.Perm children ∧ cs.map ChildEdge.root = p ∧
    cs.map ChildEdge.orderKey = keys.map some ∧ keys.Pairwise (· < ·) ∧ ∀ k ∈ keys, k ≠ ""

theorem Arranged.of_perm {children' : List ChildEdge} (h : Arranged children p) (hp : children.Perm children') :
    Arranged children' p := by
  obtain ⟨cs, keys, hcs, hrest⟩ := h
  exact ⟨cs, keys, hcs.trans hp, hrest⟩

theorem Arranged.length_eq (h : Arranged children p) :
    children.length = p.length := by
  obtain ⟨cs, keys, hcs, rfl, -⟩ := h
  rw [List.length_map, hcs.length_eq]

theorem Arranged.orderedRoots (h : Arranged children p) :
    orderedRoots children = p := by
  obtain ⟨cs, keys, hcs, rfl, hkeys, hinc, -⟩ := h
  have hsorted : (cs.map fun c => (c.orderKey.getD "", c.root)).Pairwise fun a b => childLe a b ∧ ¬childLe b a := by
    have hlt : (cs.map ChildEdge.orderKey).Pairwise fun a b => a.getD "" < b.getD "" := by
      rw [hkeys]
      exact hinc.map some fun _ _ h => h
    rw [List.pairwise_map] at hlt ⊢
    refine hlt.imp fun hab => ⟨.inl hab, ?_⟩
    rintro (hba | ⟨hba, -⟩)
    · exact lt_asymm hab hba
    · exact hab.ne' hba
  unfold Mantle.orderedRoots
  rw [insertionSort_eq_of_strict (hcs.map _) hsorted, List.map_map]
  rfl

theorem Arranged.place {keys : List String} (h : Arranged children p) {c : ChildEdge}
    (hkeys : keys = (children.filterMap ChildEdge.orderKey).filter (· ≠ ""))
    (hc : c.orderKey = some (afterKey keys.max?)) :
    Arranged (c :: children) (p ++ [c.root]) := by
  obtain ⟨cs, ks, hcs, rfl, hks, hinc, hne⟩ := h
  have hmem : ∀ k ∈ ks, k ∈ keys := by
    intro k hk
    have hk' : some k ∈ cs.map ChildEdge.orderKey := hks ▸ List.mem_map_of_mem hk
    obtain ⟨d, hd, hdk⟩ := List.mem_map.mp hk'
    rw [hkeys, List.mem_filter]
    exact ⟨List.mem_filterMap.mpr ⟨d, hcs.subset hd, hdk⟩, decide_eq_true (hne k hk)⟩
  refine ⟨cs ++ [c], ks ++ [afterKey keys.max?], (List.perm_append_singleton c cs).trans (hcs.cons c), ?_, ?_, ?_, ?_⟩
  · rw [List.map_append]
    rfl
  · rw [List.map_append, List.map_append, hks, List.map_singleton, List.map_singleton, hc]
  · refine List.pairwise_append.mpr ⟨hinc, List.pairwise_singleton _ _, fun k hk k' hk' => ?_⟩
    rw [List.mem_singleton.mp hk']
    exact lt_afterKey_max (hmem k hk)
  · intro k hk
    rcases List.mem_append.mp hk with hk | hk
    · exact hne k hk
    · rw [List.mem_singleton.mp hk]
      exact afterKey_ne_empty _

/-! ### A rewrite over all the members -/

theorem setEdgeOrderKey_perm (key : String) {c : ChildEdge} :
    ∀ {children others : List ChildEdge}, children.Perm (c :: others) → (children.map ChildEdge.root).Nodup →
      ∃ children', setEdgeOrderKey c.root key children = some children' ∧
        children'.Perm ({ c with orderKey := some key } :: others)
  | [], _, hp, _ => by simpa using hp.length_eq
  | d :: rest, others, hp, hn => by
    rw [List.map_cons, List.nodup_cons] at hn
    unfold setEdgeOrderKey
    have hc : c ∈ d :: rest := hp.symm.subset (List.mem_cons_self ..)
    by_cases hd : d.root = c.root
    · obtain rfl : c = d := by
        rcases List.mem_cons.mp hc with rfl | hc
        · rfl
        · exact absurd (hd ▸ List.mem_map_of_mem hc) hn.1
      exact ⟨_, if_pos rfl, hp.cons_inv.cons _⟩
    · rw [if_neg hd]
      have hdo : d ∈ others := by
        rcases List.mem_cons.mp (hp.subset (List.mem_cons_self ..)) with rfl | h
        · exact absurd rfl hd
        · exact h
      have ho : others.Perm (d :: others.erase d) := List.perm_cons_erase hdo
      have hrest : rest.Perm (c :: others.erase d) :=
        (hp.trans ((ho.cons c).trans (.swap d c _))).cons_inv
      obtain ⟨rest', hset, hperm⟩ := setEdgeOrderKey_perm key hrest hn.2
      refine ⟨d :: rest', by rw [hset]; rfl, ?_⟩
      exact (hperm.cons d).trans ((List.Perm.swap _ _ _).trans (ho.symm.cons _))

/-- The edges under the keys given out along them. -/
def rekeyed (prev : Option String) (cs : List ChildEdge) : List ChildEdge :=
  List.zipWith (fun c k => { c with orderKey := some k }) cs (keysAlong prev cs.length)

theorem rekeyed_cons (prev : Option String) (c : ChildEdge) (cs : List ChildEdge) : rekeyed prev (c :: cs) =
    { c with orderKey := some (afterKey prev) } :: rekeyed (some (afterKey prev)) cs := rfl

theorem rekeyed_roots : ∀ (prev : Option String) (cs : List ChildEdge),
    (rekeyed prev cs).map ChildEdge.root = cs.map ChildEdge.root
  | _, [] => rfl
  | prev, c :: cs => by rw [rekeyed_cons, List.map_cons, List.map_cons, rekeyed_roots _ cs]

theorem rekeyed_keys : ∀ (prev : Option String) (cs : List ChildEdge),
    (rekeyed prev cs).map ChildEdge.orderKey = (keysAlong prev cs.length).map some
  | _, [] => rfl
  | prev, c :: cs => by rw [rekeyed_cons, List.map_cons, rekeyed_keys _ cs]; rfl

theorem reorderFrom_perm : ∀ (cs : List ChildEdge) (prev : Option String) {children others : List ChildEdge},
    children.Perm (cs ++ others) → (children.map ChildEdge.root).Nodup →
      (reorderFrom prev (cs.map ChildEdge.root) children).2 = cs.length ∧
        (reorderFrom prev (cs.map ChildEdge.root) children).1.Perm (rekeyed prev cs ++ others)
  | [], _, _, _, hp, _ => ⟨rfl, hp⟩
  | c :: cs, prev, children, others, hp, hn => by
    obtain ⟨children', hset, hperm⟩ := setEdgeOrderKey_perm (afterKey prev) hp hn
    have hp' : children'.Perm (cs ++ ({ c with orderKey := some (afterKey prev) } :: others)) :=
      hperm.trans List.perm_middle.symm
    have hn' : (children'.map ChildEdge.root).Nodup := by
      have hroots : (children'.map ChildEdge.root).Perm (children.map ChildEdge.root) :=
        (hperm.map ChildEdge.root).trans (hp.map ChildEdge.root).symm
      exact hroots.nodup_iff.mpr hn
    obtain ⟨hcount, hleft⟩ := reorderFrom_perm cs (some (afterKey prev)) hp' hn'
    rw [List.map_cons]
    unfold reorderFrom
    rw [hset]
    refine ⟨congrArg (· + 1) hcount, ?_⟩
    rw [rekeyed_cons]
    exact hleft.trans List.perm_middle

/-- **A rewrite over all the members** updates every edge and leaves them in its order. -/
theorem reorder_arranged (hn : (children.map ChildEdge.root).Nodup) (hp : p.Perm (children.map ChildEdge.root)) :
    (reorderCollectionArtifacts p children).2 = p.length ∧
      Arranged (reorderCollectionArtifacts p children).1 p := by
  obtain ⟨cs, hcs, rfl⟩ := exists_perm_map hp
  have hall : children.Perm (cs ++ []) := by
    rw [List.append_nil]
    exact hcs.symm
  obtain ⟨hcount, hleft⟩ := reorderFrom_perm cs none hall hn
  rw [List.append_nil] at hleft
  refine ⟨hcount.trans (List.length_map ..).symm, rekeyed none cs, keysAlong none cs.length, hleft.symm,
    rekeyed_roots none cs, rekeyed_keys none cs, keysAlong_increasing none cs.length, ?_⟩
  exact ne_empty_of_mem_keysAlong cs.length none

end Mantle
