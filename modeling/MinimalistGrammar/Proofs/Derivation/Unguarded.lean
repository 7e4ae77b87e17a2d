import MinimalistGrammar.Proofs.Beam.Logged
import MinimalistGrammar.Proofs.Beam.Success
import MinimalistGrammar.Proofs.Monorail.Discipline
import MinimalistGrammar.Proofs.Tree.Stacking

/-!
# Recursion without a guard

The parsers only ever put new nodes on top of nodes that they have made before. Beam parsers build a
tree for every state, and monorail parsers merge words and the nodes of one tree on top of it, and
say where a node has landed. No matter what else is in the store, and where nodes land or are said
to land, no node that a parser has made is below itself. So the shape of a tree that one of their
states shows can be read off by the plain recursion.

## Main definitions

* `DerivationTree.GrowsOn` — new states show trees of new nodes on top of older ones.
* `DerivationTree.Works` — parsers have worked on a tree.

## Main results

* `MonorailParser.growsOn_parse`, `BeamParser.growsOn_step` — what the parsers do to a tree.
* `DerivationTree.isPart_lt_and_shapes_of_works` — **all new nodes are on top of older ones, and the
  plain recursion ends at all roots that parsers show**.
-/

namespace MinimalistGrammar

open Store

namespace DerivationTree

variable {t u v : DerivationTree}

/-! ### New states -/

/-- The nodes that were added since the tree was `t` are on top of older ones, and the states that
were added have such nodes as their roots. -/
structure GrowsOn (t u : DerivationTree) : Prop where
  store : t.store.StacksOn u.store
  roots {id : StateId} {x : SyntaxState} : u.state? id = some x →
    t.state? id = some x ∨ ∀ root ∈ x.roots, t.store.Added u.store (.constituent root)

theorem GrowsOn.refl (t : DerivationTree) : t.GrowsOn t := ⟨.refl _, Or.inl⟩

theorem GrowsOn.trans (h : t.GrowsOn u) (h' : u.GrowsOn v)
    (hold : ∀ id : ConstituentId, id.index < u.store.nextConstituent →
      v.store.body? id = u.store.body? id) : t.GrowsOn v where
  store := h.store.trans h'.store hold
  roots {id x} hx := by
    rcases h'.roots hx with hx | hroots
    · refine (h.roots hx).imp_right fun hroots root hroot => ⟨(hroots root hroot).1, ?_⟩
      exact Nat.lt_of_lt_of_le (hroots root hroot).2 h'.store.nextConstituent
    · refine Or.inr fun root hroot => ⟨fun hlt => (hroots root hroot).1 ?_, (hroots root hroot).2⟩
      exact Nat.lt_of_lt_of_le hlt h.store.nextConstituent

/-- Nothing is added where nodes keep the parts that they had, and states stay what they were. -/
theorem GrowsOn.of_isPart (h : t.GrowsOn u)
    (hnext : v.store.nextConstituent = u.store.nextConstituent)
    (hpart : ∀ {part id}, v.store.IsPart part id → u.store.IsPart part id)
    (hstate : ∀ {id x}, v.state? id = some x → u.state? id = some x) : t.GrowsOn v where
  store := h.store.of_isPart hnext hpart
  roots hx := by
    refine (h.roots (hstate hx)).imp_right fun hroots root hroot => ⟨(hroots root hroot).1, ?_⟩
    show root.index < v.store.nextConstituent
    rw [hnext]
    exact (hroots root hroot).2

theorem GrowsOn.removeStates (h : t.GrowsOn u) (ids : List StateId) :
    t.GrowsOn (u.removeStates ids).1 := by
  refine h.of_isPart (next_removeStates u ids).1 ?_ of_state?_removeStates
  rintro part id ⟨c, hc, hpart⟩
  have hstored : (u.removeStates ids).1.store.linked? (.constituent id) ≠ none := by
    rw [linked?, hc]
    simp
  exact ⟨c, (constituent?_of_linked? (linked?_removeStates_eq hstored)).symm.trans hc, hpart⟩

end DerivationTree

/-! ### Monorail parsers -/

namespace Store

variable {start s : Store}

theorem Confines.stacksOn (h : start.Confines s) : start.StacksOn s where
  nextConstituent := h.nextConstituent
  part {id part} hid hpart := by
    obtain ⟨c, hc, hpart⟩ := hpart
    exact h.parts hid ((s.parts?_eq id).trans (by rw [hc]; rfl)) hpart

end Store

namespace Sentence

variable {start : Store} {s s' : Sentence} {raising : Option ConstituentId} {es : List Shown}
  {node root top : ConstituentId}

theorem retains_settle (s : Sentence) (top : ConstituentId) (message : String) (type : StateType) :
    s.store.Retains (s.settle top message type).1.store :=
  (s.store.coincides_raisingGroup (s.store.nextEdge s.edges top).1).toRetains

theorem IsTracked.retains_mergeWord (h : s.IsTracked start raising es) {word : String}
    {features : List Feature} (hmerge : s.mergeWord word features = (s', top)) :
    s.store.Retains s'.store := by
  obtain ⟨store, below, hstore, heq, -⟩ := h.exists_mergeWord hmerge
  have hleaf := s.store.retains_addLeaf word features
  have hleaves : s.store.Retains store := by
    rcases hstore with rfl | rfl
    · exact hleaf
    · exact hleaf.trans (retains_addLeaf ..)
  rw [heq]
  exact hleaves.trans (retains_mergeOnTop ..)

theorem retains_mergeAgain (hmerge : s.mergeAgain node root = (s', top)) :
    s.store.Retains s'.store := by
  rw [(store_of_mergeAgain hmerge).1]
  exact (retains_mergeOnTop ..).trans (retains_land ..)

end Sentence

namespace MonorailParser

variable {p : MonorailParser} {t : DerivationTree} {read : List String} {s : Sentence}
  {raising : Option ConstituentId} {es : List Shown}

/-- Every stage retains the nodes that there were. -/
theorem Reaches.retains (h : p.Reaches t read s raising es) : t.store.Retains s.store := by
  induction h with
  | start => exact .refl _
  | said _ _ _ ih => exact ih
  | word h _ _ hmerge ih =>
    exact (ih.trans (h.isTracked.retains_mergeWord hmerge)).trans (Sentence.retains_settle ..)
  | raise _ _ _ hmerge ih =>
    exact (ih.trans (Sentence.retains_mergeAgain hmerge)).trans (Sentence.retains_settle ..)

/-- Roots are new nodes later on as well. -/
theorem added_roots_concat {start s s' : Store} {es : List Shown} {e : Shown} (hs : s.Retains s')
    (h : ∀ e ∈ es, ∀ root ∈ e.state.roots, start.Added s (.constituent root))
    (hlast : ∀ root ∈ e.state.roots, start.Added s' (.constituent root)) :
    ∀ e' ∈ es ++ [e], ∀ root ∈ e'.state.roots, start.Added s' (.constituent root) := by
  intro e' he' root hroot
  rcases List.mem_append.mp he' with he' | he'
  · exact (h e' he' root hroot).mono hs.nextConstituent hs.nextFeature
  · rw [List.mem_singleton.mp he'] at hroot
    exact hlast root hroot

/-- The roots that have been shown are new nodes. -/
theorem Reaches.added_roots (h : p.Reaches t read s raising es) :
    ∀ e ∈ es, ∀ root ∈ e.state.roots, t.store.Added s.store (.constituent root) := by
  induction h with
  | start => exact fun e he => absurd he List.not_mem_nil
  | said _ _ _ ih => exact ih
  | word h hrest word hmerge ih =>
    have hnext := h.word hrest word hmerge
    refine added_roots_concat ((h.isTracked.retains_mergeWord hmerge).trans
      (Sentence.retains_settle ..)) ih fun root hroot => ?_
    exact hnext.isTracked.root (congrArg some (List.mem_singleton.mp hroot).symm)
  | raise h hbelow hpair hmerge ih =>
    have hnext := h.raise hbelow hpair hmerge
    refine added_roots_concat ((Sentence.retains_mergeAgain hmerge).trans
      (Sentence.retains_settle ..)) ih fun root hroot => ?_
    exact hnext.isTracked.root (congrArg some (List.mem_singleton.mp hroot).symm)

/-- A sentence retains the nodes that there were, and puts new ones on top of new ones. -/
theorem growsOn_parse (p : MonorailParser) (words : List String) (t : DerivationTree) :
    t.store.Retains (p.parse words t).2.1.store ∧ t.GrowsOn (p.parse words t).2.1 := by
  obtain ⟨k, -, s, raising, hend, -, heq⟩ := p.exists_reaches_parse words t
  rw [heq]
  refine ⟨hend.retains, hend.isTracked.confines.stacksOn, fun hx => ?_⟩
  refine (hend.states hx).imp_right ?_
  rintro ⟨e, he, rfl⟩ root hroot
  exact hend.added_roots e he root hroot

end MonorailParser

/-! ### Beam parsers -/

namespace BeamParser

variable {π : Type} {s s' : Store} {q : Parse π} {surface : SurfaceTree} {t u : DerivationTree}

@[simp] theorem nextConstituent_groupOf (s : Store) (groups : Dict String GroupId) (name : String)
    (members : List ConstituentId) (color : Color) :
    (groupOf s groups name members color).1.nextConstituent = s.nextConstituent := by
  rw [groupOf]
  split <;> rfl

/-- Groups are no nodes. -/
theorem nextConstituent_stepOf (h : SurfaceTree.build s q.records = some (s', surface)) :
    (stepOf s q).1.nextConstituent = s'.nextConstituent := by
  rw [stepOf, h]
  simp

/-- What a state shows of a parse is a tree of new nodes on top of each other, if anything. -/
theorem stacksOn_stepOf (s : Store) (q : Parse π) :
    s.StacksOn (stepOf s q).1 ∧
      (∀ id : ConstituentId, id.index < s.nextConstituent →
        (stepOf s q).1.body? id = s.body? id) ∧
      ∀ root ∈ (stepOf s q).2.roots, s.Added (stepOf s q).1 (.constituent root) := by
  cases htree : RecordTree.ofRecords q.records with
  | none =>
    have hbuild : SurfaceTree.build s q.records = none := by rw [SurfaceTree.build, htree]; rfl
    rw [stepOf, hbuild]
    exact ⟨.refl s, fun _ _ => rfl, fun _ hroot => absurd hroot List.not_mem_nil⟩
  | some tree =>
    have hbuild := surfaceTree_build_eq htree s
    obtain ⟨hroots, houtline⟩ := stepOf_eq hbuild
    have hnext := nextConstituent_stepOf hbuild
    obtain ⟨hstacks, -⟩ := s.stacksOn_build .root tree
    refine ⟨hstacks.of_isPart hnext (isPart_congr (body?_congr _ (houtline _))).mp,
      fun id hid => ?_, ?_⟩
    · exact (body?_congr id (houtline id)).trans ((s.retains_build .root tree).body? hid)
    · intro root hroot
      rw [hroots] at hroot
      obtain rfl := List.mem_singleton.mp hroot
      rw [Added, Issued, Issued, hnext]
      exact s.added_build .root tree

theorem growsOn_logParse (h : t.GrowsOn u) (p : BeamParser π) (q : Parse π) :
    t.GrowsOn (p.logParse q u).2.1 := by
  obtain ⟨hstacks, hold, hroots⟩ := stacksOn_stepOf u.store q
  refine h.trans ⟨hstacks, fun {id x} hx => ?_⟩ hold
  have hstate := DerivationTree.state?_addStep { u with store := (stepOf u.store q).1 }
    (stepOf u.store q).2 q.previous id
  rw [logParse] at hx
  rw [hx] at hstate
  split at hstate
  · obtain rfl := Option.some.inj hstate
    exact Or.inr hroots
  · exact Or.inl hstate.symm

/-- A step puts new nodes on top of new ones, or removes states. -/
theorem growsOn_step [Probability π] (h : t.GrowsOn u) (p : BeamParser π) :
    t.GrowsOn (p.step u).2.1 := by
  rcases p.step_cases u with ⟨status, -, heq⟩ | ⟨-, report, -, ⟨status, heq, -⟩ | ⟨q, beam, -, heq⟩⟩
  · rw [heq]
    exact h
  · rw [heq]
    rcases (({ p with report } : BeamParser π).finish_cases status u).2 with hend | ⟨ids, hend⟩
    · rwa [hend]
    · rw [hend]
      exact h.removeStates ids
  · rw [heq, tree_advance]
    exact growsOn_logParse h { p with report, beam, steps := p.steps + 1 } q

end BeamParser

/-! ### Whatever parsers do -/

namespace DerivationTree

variable {t u : DerivationTree}

/-- Parsers have worked on a tree. In between the cursor was moved, states were removed, and nodes
were said to have landed anywhere. -/
inductive Works (t : DerivationTree) : DerivationTree → Prop
  | refl : Works t t
  | beamStep {u : DerivationTree} {π : Type} [Probability π] (h : Works t u) (p : BeamParser π) :
      Works t (p.step u).2.1
  | monorail {u : DerivationTree} (h : Works t u) (p : MonorailParser) (words : List String) :
      Works t (p.parse words u).2.1
  | land {u : DerivationTree} (h : Works t u) (id : ConstituentId)
      (landing : Option ConstituentId) :
      Works t { u with store := u.store.modifyConstituent id fun c => { c with landing } }
  | move {u u' : DerivationTree} (h : Works t u) (hmove : u.Moves u') : Works t u'
  | removeStates {u : DerivationTree} (h : Works t u) (ids : List StateId) :
      Works t (u.removeStates ids).1

namespace Works

/-- All of it puts new nodes on top of new ones. -/
theorem growsOn (h : t.Works u) : t.GrowsOn u := by
  induction h with
  | refl => exact .refl t
  | beamStep _ p ih => exact BeamParser.growsOn_step ih p
  | @monorail u _ p words ih =>
    obtain ⟨hretains, hgrows⟩ := p.growsOn_parse words u
    exact ih.trans hgrows fun id hid => hretains.body? hid
  | @land u _ id landing ih =>
    -- only the landing changes, and a landing is no part
    refine ih.of_isPart rfl ?_ fun hx => hx
    rintro part id' ⟨c, hc, hpart⟩
    rw [constituent?_modifyConstituent] at hc
    split at hc
    · obtain ⟨old, hold, rfl⟩ := Option.map_eq_some_iff.mp hc
      exact ⟨old, hold, hpart⟩
    · exact ⟨c, hc, hpart⟩
  | move _ hmove ih =>
    obtain ⟨hstore, hstates⟩ := hmove.sameStates
    refine ih.of_isPart (by rw [hstore]) (by rw [hstore]; exact id) fun hx => ?_
    rwa [state?, hstates] at hx
  | removeStates _ ids ih => exact ih.removeStates ids

theorem stepTimes {π : Type} [Probability π] (h : t.Works u) (p : BeamParser π) (n : Nat) :
    t.Works (p.stepTimes u n).2.1 := by
  induction n generalizing p u with
  | zero => exact h
  | succ n ih => exact ih (h.beamStep p) (p.step u).1

/-- The plain recursion ends at every root that is shown by a new state, with one result. -/
theorem shapes_iff (h : t.Works u) {id : StateId} {x : SyntaxState} (hx : u.state? id = some x)
    (hnew : t.state? id ≠ some x) {root : ConstituentId} (hroot : root ∈ x.roots)
    (shapes : List Shape) :
    u.store.Shapes [root] shapes ↔ shapes = (u.store.shape root).toList := by
  have hadded := (h.growsOn.roots hx).resolve_left hnew root hroot
  have hends := h.growsOn.store.shapes (List.forall_mem_singleton.mpr hadded)
  rw [List.flatMap_singleton] at hends
  exact ⟨fun h => hends.unique h, fun h => h ▸ hends⟩

end Works

/-- All nodes of a tree that is built from records, whatever records, have only parts that are new
and older, and so have all nodes that a monorail parser makes. Wherever nodes are said to have
landed, the plain recursion, which does not know where it has been, ends at all roots that the
parsers show. Its result is the shape of the root. -/
theorem isPart_lt_and_shapes_of_works :
    (∀ (s s' : Store) (records : List NodeRecord) (tree : SurfaceTree),
        SurfaceTree.build s records = some (s', tree) → s.StacksOn s') ∧
      (∀ (p : MonorailParser) (words : List String) (t : DerivationTree),
        t.store.StacksOn (p.parse words t).2.1.store) ∧
      ∀ t u : DerivationTree, t.Works u → ∀ id x, u.state? id = some x → t.state? id ≠ some x →
        ∀ root ∈ x.roots, ∀ shapes,
          u.store.Shapes [root] shapes ↔ shapes = (u.store.shape root).toList := by
  refine ⟨fun s s' records tree hbuild => ?_, fun p words t => ?_,
    fun t u h id x hx hnew root hroot => ?_⟩
  · have hsome : RecordTree.ofRecords records ≠ none := fun hnone => by
      rw [SurfaceTree.build, hnone] at hbuild
      exact absurd hbuild (by simp)
    obtain ⟨built, htree⟩ := Option.ne_none_iff_exists'.mp hsome
    rw [BeamParser.surfaceTree_build_eq htree] at hbuild
    obtain ⟨rfl, -⟩ := Prod.mk.inj (Option.some.inj hbuild)
    exact (s.stacksOn_build .root built).1
  · exact (p.growsOn_parse words t).2.store
  · exact h.shapes_iff hx hnew hroot

/-- After a run over a question, the object is said to have landed at itself. It is a part of two
nodes then, of which none pronounces it. -/
theorem isPart_lt_and_shapes_question :
    let t := BeamParser.questionRun.2.1
    let u : DerivationTree :=
      { t with store := t.store.modifyConstituent ⟨12⟩ fun c => { c with landing := some ⟨12⟩ } }
    u.store.IsPart ⟨12⟩ ⟨14⟩ ∧ u.store.IsPart ⟨12⟩ ⟨13⟩ ∧
      ∀ shapes, u.store.Shapes [⟨14⟩] shapes ↔ shapes = [.word "saw"] := by
  intro t u
  have hworks : Works {} u := (Works.stepTimes .refl _ 6).land ⟨12⟩ (some ⟨12⟩)
  have hroots : (u.state? ⟨4⟩).map (·.roots) = some [⟨14⟩] := by decide +kernel
  obtain ⟨x, hx, hroots⟩ := Option.map_eq_some_iff.mp hroots
  have hshape : u.store.shape ⟨14⟩ = some (.word "saw") := by decide +kernel
  have hpart {part id : ConstituentId} (parts : List ConstituentId)
      (hparts : (u.store.constituent? id).map (·.parts) = some parts) (hmem : part ∈ parts) :
      u.store.IsPart part id := by
    obtain ⟨c, hc, rfl⟩ := Option.map_eq_some_iff.mp hparts
    exact ⟨c, hc, hmem⟩
  have hends := isPart_lt_and_shapes_of_works.2.2 {} u hworks ⟨4⟩ x hx
    (fun h => Option.some_ne_none x (h.symm.trans rfl)) ⟨14⟩ (hroots ▸ List.mem_singleton_self _)
  rw [hshape] at hends
  exact ⟨hpart [⟨12⟩, ⟨13⟩] (by decide +kernel) (by decide),
    hpart [⟨11⟩, ⟨12⟩] (by decide +kernel) (by decide), hends⟩

end DerivationTree
end MinimalistGrammar
