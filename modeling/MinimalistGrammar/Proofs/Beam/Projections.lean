import MinimalistGrammar.Proofs.Beam.History

/-!
# Features in the records of a parse

A rule predicts a head with one feature more than the phrase that it heads. So in the records of a
parse, complete or not, every node has the features of its left part but for the first one, and
where there is a right part as well, the first one selects it or adjoins to it.

## Main definitions

* `RecordTree.Projects` — a tree in which every node has what its left part leaves of its features.
* `HandsOn` — records of which this tree can be made.

## Main results

* `RecordTree.projects_of_ofPlaced` — the tree of such records.
* `Parse.ComesAbout.projects` — the tree of any parse of a run.
-/

namespace MinimalistGrammar

/-- A feature takes a phrase with some features: it selects the first of them, or it adjoins, and
then none of them is predicted, since the category stays open. -/
def Feature.Takes (f : Feature) (features : List Feature) : Prop :=
  (f.sign = .selector ∧ features.head? = some (.categorial f.name)) ∨
    (f.sign = .adjunct ∧ features = [])

/-- Every node has the features of its left part but for the first one, which takes the right part
if there is one. -/
inductive RecordTree.Projects : RecordTree → Prop
  | leaf (r : NodeRecord) : Projects (.leaf r)
  | unary {r : NodeRecord} {side : Branch} {part : RecordTree} {f : Feature} (hpart : Projects part)
      (hfeatures : part.record.features = f :: r.features) : Projects (.unary r side part)
  | binary {r : NodeRecord} {left right : RecordTree} {f : Feature} (hleft : Projects left)
      (hright : Projects right) (hfeatures : left.record.features = f :: r.features)
      (htakes : f.Takes right.record.features) : Projects (.binary r left right)

theorem RecordTree.Projects.part {r : NodeRecord} {side : Branch} {part : RecordTree}
    (h : (RecordTree.unary r side part).Projects) : part.Projects := by
  cases h with
  | unary hpart _ => exact hpart

theorem RecordTree.Projects.parts {r : NodeRecord} {left right : RecordTree}
    (h : (RecordTree.binary r left right).Projects) : left.Projects ∧ right.Projects := by
  cases h with
  | binary hleft hright _ _ => exact ⟨hleft, hright⟩

/-- No place is right below itself. -/
theorem Address.ne_child (a : Address) (side : Branch) : ¬a = a.child side := fun h => by
  have hlength := congrArg (·.branches.length) h
  simp [Address.child] at hlength

/-! ### Placed records -/

/-- The records of one place have the same features, the place on the left below it has one more,
and if there is a place on the right as well, the one more takes the phrase there. -/
structure HandsOn (rs : List Placed) : Prop where
  same {way : List Branch} {r r' : NodeRecord} : (way, r) ∈ rs → (way, r') ∈ rs →
    r.features = r'.features
  left {way : List Branch} {r part : NodeRecord} : (way, r) ∈ rs → (way ++ [.left], part) ∈ rs →
    ∃ f, part.features = f :: r.features
  right {way : List Branch} {r part : NodeRecord} : (way, r) ∈ rs → (way ++ [.right], part) ∈ rs →
    ∃ head f, (way ++ [.left], head) ∈ rs ∧ head.features = f :: r.features ∧ f.Takes part.features

section placed

variable {rs : List Placed} {r : NodeRecord} {side : Branch} {tree : RecordTree}

theorem HandsOn.belowOn (h : HandsOn rs) (side : Branch) : HandsOn (belowOn side rs) where
  same hr hr' := h.same (mem_belowOn.mp hr) (mem_belowOn.mp hr')
  left hr hpart := h.left (mem_belowOn.mp hr) (mem_belowOn.mp hpart)
  right hr hpart := by
    obtain ⟨head, f, hhead, hfeatures, htakes⟩ := h.right (mem_belowOn.mp hr) (mem_belowOn.mp hpart)
    exact ⟨head, f, mem_belowOn.mpr hhead, hfeatures, htakes⟩

namespace RecordTree

/-- Where there is a record of the node itself, there is a tree. -/
theorem ofPlaced_ne_none (hr : ([], r) ∈ rs) : ofPlaced rs ≠ none := by
  obtain ⟨r', -, hpreferred⟩ := exists_preferred (mem_atNode.mpr hr)
  rw [ofPlaced_eq hpreferred]
  simp

/-- The root of a tree has a record of the node itself, and its parts are the trees below. -/
theorem ofPlaced_cases (h : ofPlaced rs = some tree) : ([], tree.record) ∈ rs ∧
    match tree with
    | leaf _ => True
    | unary _ side part => ofPlaced (belowOn side rs) = some part ∧
        (side = .right → ofPlaced (belowOn .left rs) = none)
    | binary _ left right =>
        ofPlaced (belowOn .left rs) = some left ∧ ofPlaced (belowOn .right rs) = some right := by
  cases hpreferred : preferred (atNode rs) with
  | none =>
    rw [ofPlaced] at h
    split at h
    · exact absurd h (by simp)
    · next r hr => exact absurd (hr.symm.trans hpreferred) (by simp)
  | some r =>
    have hr : ([], r) ∈ rs := by
      -- whichever record is preferred, it is one of the node itself
      refine mem_atNode.mp ?_
      rw [preferred] at hpreferred
      rcases Option.or_eq_some_iff.mp hpreferred with hfind | ⟨-, hlast⟩
      · exact List.mem_reverse.mp (List.mem_of_find?_eq_some hfind)
      · exact List.mem_of_getLast? hlast
    rw [ofPlaced_eq hpreferred, Option.some.injEq] at h
    split at h
    · subst h
      exact ⟨hr, trivial⟩
    · next part hleft _ =>
      subst h
      exact ⟨hr, hleft, fun hside => absurd hside (by decide)⟩
    · next part hleft hright =>
      subst h
      exact ⟨hr, hright, fun _ => hleft⟩
    · next left right hleft hright =>
      subst h
      exact ⟨hr, hleft, hright⟩

/-- The tree of records that hand on their features. -/
theorem projects_of_ofPlaced (hrs : HandsOn rs) (h : ofPlaced rs = some tree) : tree.Projects := by
  induction tree generalizing rs with
  | leaf r => exact .leaf r
  | unary r side part ih =>
    obtain ⟨hr, hpart, hside⟩ := ofPlaced_cases h
    have hrecord := mem_belowOn.mp (ofPlaced_cases hpart).1
    cases side with
    | left =>
      obtain ⟨f, hfeatures⟩ := hrs.left hr hrecord
      exact .unary (ih (hrs.belowOn .left) hpart) hfeatures
    | right =>
      -- there is no place on the right without one on the left
      obtain ⟨head, f, hhead, -⟩ := hrs.right hr hrecord
      exact absurd (hside rfl) (ofPlaced_ne_none (mem_belowOn.mpr hhead))
  | binary r left right ih₁ ih₂ =>
    obtain ⟨hr, hleft, hright⟩ := ofPlaced_cases h
    obtain ⟨head, f, hhead, hfeatures, htakes⟩ :=
      hrs.right hr (mem_belowOn.mp (ofPlaced_cases hright).1)
    rw [hrs.same hhead (mem_belowOn.mp (ofPlaced_cases hleft).1)] at hfeatures
    exact .binary (ih₁ (hrs.belowOn .left) hleft) (ih₂ (hrs.belowOn .right) hright) hfeatures htakes

end RecordTree

end placed

/-! ### Expansions -/

/-- Records under the way down to them. -/
def placed (records : List NodeRecord) : List Placed := records.map fun r => (r.path.branches, r)

theorem mem_placed {records : List NodeRecord} {way : List Branch} {r : NodeRecord} :
    (way, r) ∈ placed records ↔ r ∈ records ∧ r.path.branches = way := by
  rw [placed, List.mem_map]
  constructor
  · rintro ⟨r', hr', heq⟩
    obtain ⟨rfl, rfl⟩ := Prod.mk.inj heq
    exact ⟨hr', rfl⟩
  · rintro ⟨hr, rfl⟩
    exact ⟨r, hr, rfl⟩

section expansion

variable {lex : Lexicon} {c : Category} {input : List String} {e : Expansion} {r r' : NodeRecord}

/-- Of the new records, that of a word has the features of the prediction, that of a head has one
feature more, and what is on the right is taken by this feature. -/
theorem Category.ByRule.record_cases (h : c.ByRule lex input e) (hr : r ∈ e.records lex) :
    (r.path = c.path ∧ r.features = c.features ∧ e.records lex = [r]) ∨
      (r.path = c.path.left ∧ ∃ f, r.features = f :: c.features) ∨
      (r.path = c.path.right ∧ ∃ head ∈ e.records lex, ∃ f, head.path = c.path.left ∧
        head.features = f :: c.features ∧ f.Takes r.features) := by
  have hpair {head other : Category} {f : Feature} (hhead : head.path = c.path.left)
      (hother : other.path = c.path.right) (hfeatures : head.features = f :: c.features)
      (htakes : f.Takes other.features) {rule : Rule}
      (hr : r ∈ (Expansion.predict rule [head, other]).records lex) :
      (r.path = c.path.left ∧ ∃ f, r.features = f :: c.features) ∨
      (r.path = c.path.right ∧ ∃ head' ∈ (Expansion.predict rule [head, other]).records lex, ∃ f,
        head'.path = c.path.left ∧ head'.features = f :: c.features ∧ f.Takes r.features) := by
    rcases List.mem_pair.mp hr with rfl | rfl
    · exact Or.inl ⟨hhead, f, hfeatures⟩
    · exact Or.inr ⟨hother, _, List.mem_cons_self .., f, hhead, hfeatures, htakes⟩
  cases h with
  | merge1 | merge2 =>
    exact Or.inr (hpair rfl rfl (features_projecting ..) (Or.inl ⟨rfl, rfl⟩) hr)
  | merge1b => exact Or.inr (hpair rfl rfl (features_projecting ..) (Or.inr ⟨rfl, rfl⟩) hr)
  | merge3 | merge4 =>
    refine Or.inr (hpair rfl rfl (features_projecting ..) (Or.inl ⟨rfl, ?_⟩) hr)
    rw [features_selected, List.reverse_append]
    rfl
  | move1 | move2 =>
    obtain rfl := List.mem_singleton.mp hr
    exact Or.inr (Or.inl ⟨rfl, _, features_projecting ..⟩)
  | scan =>
    obtain rfl := List.mem_singleton.mp hr
    exact Or.inl ⟨rfl, rfl, rfl⟩

/-- No two new records are at one place. -/
theorem Category.Unfolds.eq_of_path_eq (h : c.Unfolds e) (hr : r ∈ e.records lex)
    (hr' : r' ∈ e.records lex) (hpath : r.path = r'.path) : r = r' := by
  have hne : c.path.left ≠ c.path.right := fun heq =>
    absurd (Address.child_inj.mp heq).2 (by decide)
  cases h with
  | scan | move => rw [List.mem_singleton.mp hr, List.mem_singleton.mp hr']
  | merge _ hhead hother =>
    rcases List.mem_pair.mp hr with rfl | rfl <;> rcases List.mem_pair.mp hr' with rfl | rfl
    · rfl
    · exact absurd (hhead.symm.trans (hpath.trans hother)) hne
    · exact absurd (hhead.symm.trans (hpath.symm.trans hother)) hne
    · rfl

theorem Category.ByRule.length_path (h : c.ByRule lex input e) (hr : r ∈ e.records lex) :
    (r.path = c.path ∧ e.records lex = [r]) ∨ ∃ side, r.path = c.path.child side := by
  rcases h.record_cases hr with ⟨hpath, -, hrecords⟩ | ⟨hpath, -⟩ | ⟨hpath, -⟩
  · exact Or.inl ⟨hpath, hrecords⟩
  · exact Or.inr ⟨.left, hpath⟩
  · exact Or.inr ⟨.right, hpath⟩

end expansion

/-! ### Open predictions -/

/-- The records hand on their features, and those of an open prediction have its features. -/
structure Recorded (records : List NodeRecord) (predicted : List Category) : Prop where
  handsOn : HandsOn (placed records)
  features {c : Category} {r : NodeRecord} : c ∈ predicted → (c.path.branches, r) ∈ placed records →
    r.features = c.features

namespace Recorded

variable {lex : Lexicon} {records : List NodeRecord} {predicted rest : List Category} {c : Category}
  {input : List String} {e : Expansion} {r r' : NodeRecord} {way : List Branch} {side : Branch}

theorem of_perm {predicted' : List Category} (h : Recorded records predicted)
    (hperm : predicted.Perm predicted') : Recorded records predicted' :=
  ⟨h.handsOn, fun hc => h.features (hperm.mem_iff.mpr hc)⟩

theorem mem_placed_append {new : List NodeRecord} : (way, r) ∈ placed (records ++ new) ↔
    (way, r) ∈ placed records ∨ (way, r) ∈ placed new := by
  rw [placed, List.map_append, List.mem_append, placed, placed]

section expand

variable (hcoherent : IsCoherent lex records (c :: rest)) (hrule : c.ByRule lex input e)

include hcoherent hrule

omit hrule in
/-- There was no record below the prediction that is expanded. -/
theorem eq_path_of_begins (hr : (way, r) ∈ placed records) (hbegins : c.path.branches <+: way) :
    way = c.path.branches := by
  obtain ⟨hmem, rfl⟩ := mem_placed.mp hr
  exact congrArg Address.branches (hcoherent.last (List.mem_cons_self ..) hmem hbegins)

/-- Nothing is below a new record. -/
theorem notMem_below (hr : (way, r) ∈ placed (e.records lex)) :
    (way ++ [side], r') ∉ placed (records ++ e.records lex) := by
  obtain ⟨hmem, rfl⟩ := mem_placed.mp hr
  intro hr'
  rcases mem_placed_append.mp hr' with hold | hnew
  · -- an older record below the new one would be below the prediction
    have hbegins : c.path.branches <+: r.path.branches := by
      rcases hrule.length_path hmem with ⟨hpath, -⟩ | ⟨side', hpath⟩
      · exact hpath ▸ List.prefix_refl _
      · rw [hpath]
        exact List.prefix_append ..
    have hlength := hbegins.length_le
    have heq := congrArg List.length
      (eq_path_of_begins hcoherent hold (hbegins.trans (List.prefix_append ..)))
    rw [List.length_append, List.length_singleton] at heq
    omega
  · -- new records are at the prediction or right below it, and never at both places
    obtain ⟨hr', hpath'⟩ := mem_placed.mp hnew
    have hlength := congrArg List.length hpath'
    rw [List.length_append, List.length_singleton] at hlength
    rcases hrule.length_path hmem with ⟨-, hrecords⟩ | ⟨side', hpath⟩
    · rw [hrecords, List.mem_singleton] at hr'
      rw [hr'] at hlength
      omega
    · rw [hpath, Address.child, List.length_append, List.length_singleton] at hlength
      rcases hrule.length_path hr' with ⟨hpath', -⟩ | ⟨side'', hpath'⟩
      · rw [hpath'] at hlength
        omega
      · rw [hpath', Address.child, List.length_append, List.length_singleton] at hlength
        omega

variable (h : Recorded records (c :: rest))

include h

/-- An older record at the place of a new one is that of the prediction, and the new one that of its
word. -/
theorem features_eq_of_new (hr : (way, r) ∈ placed records)
    (hr' : (way, r') ∈ placed (e.records lex)) : r.features = r'.features := by
  obtain ⟨hmem, rfl⟩ := mem_placed.mp hr'
  have hlength (side : Branch) : r'.path ≠ c.path.child side := by
    intro hpath
    rw [hpath] at hr
    have heq := congrArg List.length (eq_path_of_begins hcoherent hr (List.prefix_append ..))
    rw [Address.child, List.length_append, List.length_singleton] at heq
    omega
  rcases hrule.record_cases hmem with ⟨hpath, hfeatures, -⟩ | ⟨hpath, -⟩ | ⟨hpath, -⟩
  · rw [hpath] at hr
    rw [hfeatures, h.features (List.mem_cons_self ..) hr]
  · exact absurd hpath (hlength .left)
  · exact absurd hpath (hlength .right)

/-- A new record below an older one is that of a part, or of the word at a place where there was a
record already. -/
theorem below_cases {part : NodeRecord} (hr : (way, r) ∈ placed records)
    (hpart : (way ++ [side], part) ∈ placed (e.records lex)) :
    (∃ old, (way ++ [side], old) ∈ placed records ∧ old.features = part.features) ∨
      (way = c.path.branches ∧ r.features = c.features ∧ part.path = c.path.child side) := by
  obtain ⟨hpart', hway⟩ := mem_placed.mp hpart
  rcases hrule.length_path hpart' with ⟨hpath, -⟩ | ⟨side', hpath⟩
  · -- a word is recorded where its prediction was recorded before
    obtain ⟨old, hold, hpathOld⟩ := hcoherent.recorded (List.mem_cons_self ..)
    have hold' : (way ++ [side], old) ∈ placed records :=
      mem_placed.mpr ⟨hold, by rw [hpathOld, ← hpath, hway]⟩
    exact Or.inl ⟨old, hold', features_eq_of_new hcoherent hrule h hold' hpart⟩
  · rw [hpath, Address.child] at hway
    obtain ⟨rfl, hside⟩ := List.append_inj' hway rfl
    obtain rfl : side' = side := by simpa using hside
    exact Or.inr ⟨rfl, h.features (List.mem_cons_self ..) hr, hpath⟩

/-- An expansion hands on the features of the prediction. -/
theorem handsOn_expand (hunfolds : c.Unfolds e) : HandsOn (placed (records ++ e.records lex)) where
  same {way r r'} hr hr' := by
    rcases mem_placed_append.mp hr with hr | hr <;> rcases mem_placed_append.mp hr' with hr' | hr'
    · exact h.handsOn.same hr hr'
    · exact features_eq_of_new hcoherent hrule h hr hr'
    · exact (features_eq_of_new hcoherent hrule h hr' hr).symm
    · obtain ⟨hr, hpath⟩ := mem_placed.mp hr
      obtain ⟨hr', hpath'⟩ := mem_placed.mp hr'
      rw [hunfolds.eq_of_path_eq hr hr' (congrArg Address.mk (hpath.trans hpath'.symm))]
  left {way r part} hr hpart := by
    rcases mem_placed_append.mp hr with hr | hr
    · rcases mem_placed_append.mp hpart with hpart | hpart
      · exact h.handsOn.left hr hpart
      · rcases below_cases hcoherent hrule h hr hpart with ⟨old, hold, hfeatures⟩ |
          ⟨-, hfeatures, hpath⟩
        · rw [← hfeatures]
          exact h.handsOn.left hr hold
        -- on the left there is a record for the head, which has the features after the first
        · rcases hrule.record_cases (mem_placed.mp hpart).1 with ⟨hpath', -⟩ | ⟨-, hhead⟩ |
            ⟨hpath', -⟩
          · exact absurd (hpath.symm.trans hpath').symm (Address.ne_child _ _)
          · rw [hfeatures]
            exact hhead
          · exact absurd (Address.child_inj.mp (hpath.symm.trans hpath')).2 (by decide)
    · exact absurd hpart (notMem_below hcoherent hrule hr)
  right {way r part} hr hpart := by
    rcases mem_placed_append.mp hr with hr | hr
    · have hstays {head : NodeRecord} {f : Feature}
        (hhead : (way ++ [.left], head) ∈ placed records)
          (hf : head.features = f :: r.features ∧ f.Takes part.features) :
          ∃ head f, (way ++ [.left], head) ∈ placed (records ++ e.records lex) ∧
            head.features = f :: r.features ∧ f.Takes part.features :=
        ⟨head, f, mem_placed_append.mpr (Or.inl hhead), hf⟩
      rcases mem_placed_append.mp hpart with hpart | hpart
      · obtain ⟨head, f, hhead, hf⟩ := h.handsOn.right hr hpart
        exact hstays hhead hf
      · rcases below_cases hcoherent hrule h hr hpart with ⟨old, hold, hfeatures⟩ |
          ⟨rfl, hfeatures, hpath⟩
        · obtain ⟨head, f, hhead, hf⟩ := h.handsOn.right hr hold
          exact hstays hhead (hfeatures ▸ hf)
        · rcases hrule.record_cases (mem_placed.mp hpart).1 with ⟨hpath', -⟩ | ⟨hpath', -⟩ |
            ⟨-, head, hhead, f, hpath', hf⟩
          · exact absurd (hpath.symm.trans hpath').symm (Address.ne_child _ _)
          · exact absurd (Address.child_inj.mp (hpath.symm.trans hpath')).2 (by decide)
          · refine ⟨head, f, mem_placed_append.mpr (Or.inr (mem_placed.mpr ⟨hhead, ?_⟩)),
              hfeatures ▸ hf⟩
            rw [hpath', Address.left, Address.child]
    · exact absurd hpart (notMem_below hcoherent hrule hr)

/-- An expansion keeps features recorded. -/
theorem expand (hunfolds : c.Unfolds e) :
    Recorded (records ++ e.records lex) (e.parts ++ rest) where
  handsOn := handsOn_expand hcoherent hrule h hunfolds
  features {b r} hb hr := by
    rcases List.mem_append.mp hb with hpart | hb
    · have hnew : .predicted b ∈ e.records lex := hunfolds.predicted_mem_records hpart
      obtain ⟨hr, hpath⟩ := mem_placed.mp hr
      have hpath : r.path = b.path := congrArg Address.mk hpath
      rcases List.mem_append.mp hr with hold | hr
      · -- nothing was below the prediction
        obtain ⟨side, hside⟩ := hunfolds.exists_path_eq hpart
        have heq := hcoherent.last (List.mem_cons_self ..) hold (by
          rw [hpath, hside]
          exact List.prefix_append ..)
        exact absurd (heq.symm.trans (hpath.trans hside)) (Address.ne_child _ _)
      · rw [hunfolds.eq_of_path_eq hr hnew hpath]
        rfl
    · rcases mem_placed_append.mp hr with hold | hr
      · exact h.features (List.mem_cons_of_mem _ hb) hold
      · -- what is new is below another prediction
        obtain ⟨hr, hpath⟩ := mem_placed.mp hr
        have hapart := (List.pairwise_cons.mp hcoherent.paths).1 b hb
        exact absurd (hpath ▸ hunfolds.prefix_of_mem_records hr) hapart.not_begins

end expand
end Recorded

/-! ### Whole runs -/

namespace Parse

variable {π : Type} [Probability π] {lex : Lexicon} {root : Nat} {start : String}
  {words : List String} {es : List Expansion} {q : Parse π} {tree : RecordTree}

/-- The features of what comes from the prediction of a start category are recorded. -/
theorem ComesAbout.recorded (hlex : lex.WellFormed) (hroot : lex.category? start = some root)
    (h : (initial words (BeamParser.startCategory root start)).ComesAbout lex es q) :
    Recorded q.records q.queue.toList := by
  induction h with
  | start =>
    have hrecord {way : List Branch} {r : NodeRecord}
        (hr : (way, r) ∈ placed [.predicted (BeamParser.startCategory root start)]) :
        way = [] ∧ r = .predicted (BeamParser.startCategory root start) := by
      obtain ⟨hmem, rfl⟩ := mem_placed.mp hr
      rw [List.mem_singleton.mp hmem]
      exact ⟨rfl, rfl⟩
    refine ⟨⟨fun hr hr' => ?_, fun hr hpart => ?_, fun hr hpart => ?_⟩, fun hc hr => ?_⟩
    · rw [(hrecord hr).2, (hrecord hr').2]
    · exact absurd (hrecord hpart).1 (by simp)
    · exact absurd (hrecord hpart).1 (by simp)
    · rw [(hrecord hr).2, List.mem_singleton.mp hc]
      rfl
  | log _ state ih => exact ih
  | @expand es q c queue e h hpop he share message ih =>
    have hcoherent := (h.isCoherent hlex (isCoherent_initial hlex hroot words)).coherent
    rw [StableQueue.toList_eq_of_pop? hpop] at hcoherent ih
    obtain ⟨target, hexpands⟩ :=
      Category.exists_expands_of_mem hlex (hcoherent.anchored (List.mem_cons_self ..)) he
    rw [records_extend, queue_extend]
    exact (Recorded.expand hcoherent (Category.byRule_of_mem hlex he) ih hexpands.unfolds).of_perm
      (toList_foldl_enqueue_perm e.parts queue).symm

/-- The prediction of the start category is recorded. -/
theorem ComesAbout.mem_placed_initial
    (h : (initial words (BeamParser.startCategory root start)).ComesAbout lex es q) :
    ([], .predicted (BeamParser.startCategory root start)) ∈ placed q.records := by
  refine mem_placed.mpr ⟨?_, rfl⟩
  rw [h.records_eq]
  exact List.mem_append_left _ (List.mem_singleton_self _)

/-- The tree of a parse that comes from the prediction of a start category, and its features. -/
theorem ComesAbout.projects (hlex : lex.WellFormed) (hroot : lex.category? start = some root)
    (h : (initial words (BeamParser.startCategory root start)).ComesAbout lex es q)
    (htree : RecordTree.ofRecords q.records = some tree) :
    tree.Projects ∧ tree.record.features = [.categorial start] := by
  have hrecorded := h.recorded hlex hroot
  exact ⟨RecordTree.projects_of_ofPlaced hrecorded.handsOn htree,
    hrecorded.handsOn.same (RecordTree.ofPlaced_cases htree).1 h.mem_placed_initial⟩

end Parse
end MinimalistGrammar
