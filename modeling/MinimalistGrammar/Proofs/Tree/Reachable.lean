import MinimalistGrammar.Tree.Reachable

/-!
# What a search through a store finds

A search goes from link to link and finds an object when it comes to it for the first time. What it
has found in the end is exactly what can be reached, and nothing else has to be kept.

## Main definitions

* `Store.linked?` — what a link leads to.
* `Store.Reaches` — a link leads to an object that can be reached from some links.
* `Store.entrances` — the links from which a search begins.

## Main results

* `Store.has_reachable_iff` — a search finds exactly what can be reached.
* `Store.linked?_retain` — what is kept is as it was, and all else is dropped.
* `Store.reaches_retain_iff` — what can be reached can still be reached when all else is dropped.
-/

namespace MinimalistGrammar

namespace Reachable

/-- Whether a link leads to something that has been found. -/
def has (found : Reachable) : Link → Bool
  | .constituent id => found.constituents.contains id
  | .feature id => found.features.contains id

/-- What has been found, with one more object. -/
def add (found : Reachable) : Link → Reachable
  | .constituent id => { found with constituents := found.constituents.insert id }
  | .feature id => { found with features := found.features.insert id }

theorem has_add_iff {found : Reachable} {l l' : Link} :
    (found.add l).has l' = true ↔ l' = l ∨ found.has l' = true := by
  cases l with
  | constituent id =>
    cases l' with
    | constituent id' => simp [has, add, Std.LawfulEqCmp.compare_eq_iff_eq, eq_comm (a := id)]
    | feature id' => simp [has, add]
  | feature id =>
    cases l' with
    | constituent id' => simp [has, add]
    | feature id' => simp [has, add, Std.LawfulEqCmp.compare_eq_iff_eq, eq_comm (a := id)]

end Reachable

namespace Store

variable {s s' : Store} {start : List Link} {l l' : Link} {found : Reachable} {links : List Link}

/-! ### Links -/

/-- What a link leads to. -/
def linked? (s : Store) : Link → Option (Constituent ⊕ FeatureOccurrence)
  | .constituent id => (s.constituent? id).map .inl
  | .feature id => (s.feature? id).map .inr

/-- The links of what a link leads to. -/
def linksOf (s : Store) (l : Link) : List Link :=
  (s.linked? l).elim [] (Sum.elim Constituent.links FeatureOccurrence.links)

theorem linksOf_congr (h : s'.linked? l = s.linked? l) : s'.linksOf l = s.linksOf l := by
  rw [linksOf, h, linksOf]

theorem linksOf_constituent {id : ConstituentId} {c : Constituent}
    (h : s.constituent? id = some c) : s.linksOf (.constituent id) = c.links := by
  rw [linksOf, linked?, h]
  rfl

theorem linksOf_feature {id : FeatureId} {f : FeatureOccurrence} (h : s.feature? id = some f) :
    s.linksOf (.feature id) = f.links := by
  rw [linksOf, linked?, h]
  rfl

theorem constituent?_of_linked? {id : ConstituentId}
    (h : s'.linked? (.constituent id) = s.linked? (.constituent id)) :
    s'.constituent? id = s.constituent? id :=
  Option.map_injective (fun _ _ => Sum.inl.inj) h

theorem feature?_of_linked? {id : FeatureId}
    (h : s'.linked? (.feature id) = s.linked? (.feature id)) : s'.feature? id = s.feature? id :=
  Option.map_injective (fun _ _ => Sum.inr.inj) h

/-- A link leads to an object that can be reached from some links. -/
inductive Reaches (s : Store) (start : List Link) : Link → Prop
  | start {l : Link} (hl : l ∈ start) (h : s.linked? l ≠ none) : Reaches s start l
  | step {l l' : Link} (hl : Reaches s start l) (hl' : l' ∈ s.linksOf l) (h : s.linked? l' ≠ none) :
      Reaches s start l'

theorem Reaches.linked?_ne_none (h : s.Reaches start l) : s.linked? l ≠ none := by
  cases h with
  | start _ h => exact h
  | step _ _ h => exact h

/-- What can be reached from objects that can be reached can be reached. -/
theorem Reaches.trans {between : List Link} (h : s.Reaches between l)
    (hbetween : ∀ l ∈ between, s.linked? l ≠ none → s.Reaches start l) : s.Reaches start l := by
  induction h with
  | start hl h => exact hbetween _ hl h
  | step _ hl' h ih => exact ih.step hl' h

/-- From more links more can be reached. -/
theorem Reaches.mono {more : List Link} (h : s.Reaches start l) (hsub : ∀ l ∈ start, l ∈ more) :
    s.Reaches more l :=
  h.trans fun l hl hstored => .start (hsub l hl) hstored

/-- What can be reached can be reached in another store as well, if all on the way is the same. -/
theorem Reaches.congr (h : s.Reaches start l)
    (heq : ∀ l, s.Reaches start l → s'.linked? l = s.linked? l) : s'.Reaches start l := by
  induction h with
  | start hl h => exact .start hl (by rwa [heq _ (.start hl h)])
  | step hl hl' h ih =>
    refine ih.step ?_ ?_
    · rwa [linksOf_congr (heq _ hl)]
    · rwa [heq _ (hl.step hl' h)]

/-! ### The search -/

/-- What holds while links are followed: what was found can be reached, and what can be reached from
it was found or waits. -/
structure IsUnderway (s : Store) (start : List Link) (found : Reachable)
    (links : List Link) : Prop where
  found_reaches {l : Link} (h : found.has l = true) : s.Reaches start l
  links_reaches {l : Link} (h : l ∈ links) (hl : s.linked? l ≠ none) : s.Reaches start l
  entered {l : Link} (h : l ∈ start) (hl : s.linked? l ≠ none) : found.has l = true ∨ l ∈ links
  closed {l l' : Link} (h : found.has l = true) (hl' : l' ∈ s.linksOf l)
    (h' : s.linked? l' ≠ none) :
    found.has l' = true ∨ l' ∈ links

/-- A search begins with nothing found, and with everything waiting from which it begins. -/
theorem isUnderway_start (hnone : ∀ l, ¬found.has l = true) : s.IsUnderway start found start :=
  ⟨fun h => absurd h (hnone _), fun hmem hl => .start hmem hl, fun hmem _ => Or.inr hmem,
    fun h => absurd h (hnone _)⟩

/-- When nothing waits, exactly what can be reached has been found. -/
theorem IsUnderway.has_iff (h : s.IsUnderway start found []) :
    found.has l = true ↔ s.Reaches start l := by
  constructor
  · exact h.found_reaches
  · intro hreaches
    induction hreaches with
    | start hl hstored => exact (h.entered hl hstored).resolve_right List.not_mem_nil
    | step _ hl' hstored ih => exact (h.closed ih hl' hstored).resolve_right List.not_mem_nil

/-- A link that leads to nothing, or to what was found, is passed over. -/
theorem IsUnderway.skip (h : s.IsUnderway start found (l :: links))
    (hl : s.linked? l = none ∨ found.has l = true) : s.IsUnderway start found links := by
  have hskip {l' : Link} (hl' : s.linked? l' ≠ none)
      (hmem : found.has l' = true ∨ l' ∈ l :: links) :
      found.has l' = true ∨ l' ∈ links := by
    rcases hmem with hmem | hmem
    · exact Or.inl hmem
    · rcases List.mem_cons.mp hmem with rfl | hmem
      · exact Or.inl (hl.resolve_left hl')
      · exact Or.inr hmem
  exact ⟨h.found_reaches, fun hmem => h.links_reaches (List.mem_cons_of_mem _ hmem),
    fun hmem hl' => hskip hl' (h.entered hmem hl'),
    fun hfound hl' h' => hskip h' (h.closed hfound hl' h')⟩

/-- When a new object is found, its links wait. -/
theorem IsUnderway.visit (h : s.IsUnderway start found (l :: links)) (hl : s.linked? l ≠ none) :
    s.IsUnderway start (found.add l) (s.linksOf l ++ links) := by
  have hreaches := h.links_reaches (List.mem_cons_self ..) hl
  have hwaits {l' : Link} (hmem : found.has l' = true ∨ l' ∈ l :: links) :
      (found.add l).has l' = true ∨ l' ∈ s.linksOf l ++ links := by
    rw [Reachable.has_add_iff]
    rcases hmem with hmem | hmem
    · exact Or.inl (Or.inr hmem)
    · rcases List.mem_cons.mp hmem with rfl | hmem
      · exact Or.inl (Or.inl rfl)
      · exact Or.inr (List.mem_append_right _ hmem)
  refine ⟨fun hfound => ?_, fun hmem hl' => ?_, fun hmem hl' => hwaits (h.entered hmem hl'),
    fun hfound hl' h' => ?_⟩
  · rcases Reachable.has_add_iff.mp hfound with rfl | hfound
    · exact hreaches
    · exact h.found_reaches hfound
  · rcases List.mem_append.mp hmem with hmem | hmem
    · exact hreaches.step hmem hl'
    · exact h.links_reaches (List.mem_cons_of_mem _ hmem) hl'
  · rcases Reachable.has_add_iff.mp hfound with rfl | hfound
    · exact Or.inr (List.mem_append_left _ hl')
    · exact hwaits (h.closed hfound hl' h')

theorem IsUnderway.follow (h : s.IsUnderway start found links) :
    s.IsUnderway start (s.follow found links) [] := by
  fun_induction s.follow found links with
  | case1 => exact h
  | case2 found id rest hnone ih =>
    refine ih (h.skip (Or.inl ?_))
    rw [linked?, constituent?, hnone]
    rfl
  | case3 found id rest c _ hfound ih => exact ih (h.skip (Or.inr hfound))
  | case4 found id rest c hc _ ih =>
    have hvisit := h.visit (by rw [linked?, constituent?, hc]; simp)
    rw [linksOf_constituent hc] at hvisit
    exact ih hvisit
  | case5 found id rest hnone ih =>
    refine ih (h.skip (Or.inl ?_))
    rw [linked?, feature?, hnone]
    rfl
  | case6 found id rest f _ hfound ih => exact ih (h.skip (Or.inr hfound))
  | case7 found id rest f hf _ ih =>
    have hvisit := h.visit (by rw [linked?, feature?, hf]; simp)
    rw [linksOf_feature hf] at hvisit
    exact ih hvisit

/-- Following links finds no groups. -/
theorem groups_follow (s : Store) (found : Reachable) (links : List Link) :
    (s.follow found links).groups = found.groups := by
  fun_induction s.follow found links with
  | case1 => rfl
  | case2 _ _ _ _ ih | case5 _ _ _ _ ih => exact ih
  | case3 _ _ _ _ _ _ ih | case4 _ _ _ _ _ _ ih | case6 _ _ _ _ _ _ ih | case7 _ _ _ _ _ _ ih =>
    exact ih

/-- The links from which a search begins: the roots, and the members of the groups that there
are. -/
def entrances (s : Store) (roots : List ConstituentId) (groups : List GroupId) : List Link :=
  (roots ++ ((groups.filter s.groups.contains).filterMap s.group?).flatMap (·.members)).map
    .constituent

/-- One enters at the roots, and at the members of the groups. -/
theorem mem_entrances_iff {roots : List ConstituentId} {groups : List GroupId} :
    l ∈ s.entrances roots groups ↔ ∃ id, l = .constituent id ∧
      (id ∈ roots ∨ ∃ g ∈ groups, ∃ group, s.group? g = some group ∧ id ∈ group.members) := by
  simp only [entrances, List.mem_map, List.mem_append, List.mem_flatMap, List.mem_filterMap,
    List.mem_filter]
  constructor
  · rintro ⟨id, hid | ⟨group, ⟨g, ⟨hg, -⟩, hgroup⟩, hid⟩, rfl⟩
    · exact ⟨id, rfl, Or.inl hid⟩
    · exact ⟨id, rfl, Or.inr ⟨g, hg, group, hgroup, hid⟩⟩
  · rintro ⟨id, rfl, hid | ⟨g, hg, group, hgroup, hid⟩⟩
    · exact ⟨id, Or.inl hid, rfl⟩
    · refine ⟨id, Or.inr ⟨group, ⟨g, ⟨hg, ?_⟩, hgroup⟩, hid⟩, rfl⟩
      rw [Std.TreeMap.contains_eq_isSome_getElem?]
      exact Option.isSome_iff_exists.mpr ⟨group, hgroup⟩

section search

variable {roots : List ConstituentId} {groups : List GroupId}

/-- A search finds exactly what can be reached. -/
theorem has_reachable_iff :
    (s.reachable roots groups).has l = true ↔ s.Reaches (s.entrances roots groups) l := by
  have hnone (l : Link) :
      ¬({ groups := Std.TreeSet.ofList (groups.filter s.groups.contains) } :
        Reachable).has l = true := by
    cases l <;> simp [Reachable.has]
  exact (isUnderway_start hnone).follow.has_iff

/-- A search finds the groups that there are. -/
theorem contains_groups_reachable_iff {g : GroupId} :
    (s.reachable roots groups).groups.contains g = true ↔
      g ∈ groups ∧ ∃ group, s.group? g = some group := by
  rw [reachable, groups_follow, Std.TreeSet.contains_ofList, List.contains_iff_mem, List.mem_filter,
    Std.TreeMap.contains_eq_isSome_getElem?, Option.isSome_iff_exists]
  rfl

end search

/-! ### Dropping the rest -/

theorem linked?_retain (s : Store) (keep : Reachable) (l : Link) :
    (s.retain keep).linked? l = if keep.has l then s.linked? l else none := by
  cases l with
  | constituent id =>
    have hget : (s.retain keep).constituent? id =
        if keep.constituents.contains id then s.constituent? id else none := by
      refine Std.TreeMap.getElem?_filter'.trans ?_
      rw [constituent?]
      cases keep.constituents.contains id <;> cases s.constituents[id]? <;> rfl
    rw [linked?, hget, Reachable.has]
    split <;> rfl
  | feature id =>
    have hget : (s.retain keep).feature? id =
        if keep.features.contains id then s.feature? id else none := by
      refine Std.TreeMap.getElem?_filter'.trans ?_
      rw [feature?]
      cases keep.features.contains id <;> cases s.features[id]? <;> rfl
    rw [linked?, hget, Reachable.has]
    split <;> rfl

theorem group?_retain (s : Store) (keep : Reachable) (g : GroupId) :
    (s.retain keep).group? g = if keep.groups.contains g then s.group? g else none := by
  refine Std.TreeMap.getElem?_filter'.trans ?_
  rw [group?]
  cases keep.groups.contains g <;> cases s.groups[g]? <;> rfl

/-- What can be reached from links of which all is kept can be reached as before. -/
theorem reaches_retain_iff {keep : Reachable} (hkeep : ∀ l, s.Reaches start l → keep.has l = true) :
    (s.retain keep).Reaches start l ↔ s.Reaches start l := by
  constructor
  · intro h
    have hsub {l : Link} (hl : (s.retain keep).linked? l ≠ none) :
        (s.retain keep).linked? l = s.linked? l := by
      rw [linked?_retain] at hl ⊢
      split
      · rfl
      · next hdrop => exact absurd (if_neg hdrop) hl
    induction h with
    | start hl h => exact .start hl (hsub h ▸ h)
    | step hl hl' h ih =>
      rw [linksOf_congr (hsub hl.linked?_ne_none)] at hl'
      exact ih.step hl' (hsub h ▸ h)
  · intro h
    refine h.congr fun l hl => ?_
    rw [linked?_retain, if_pos (hkeep l hl)]

end Store
end MinimalistGrammar
