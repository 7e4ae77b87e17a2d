import MinimalistGrammar.Proofs.Beam.History

/-!
# What a parse knows of its entries

A prediction says which features of an entry are known already, and a node of the lexicon from which
the others are found. Both are kept by every rule on its own, as the node goes down in the lexicon
and the features are put together from their end. They say the same: the known features are those
from the node up to its root. Only the category of a phrase that an adjunct joins is not among them,
as it stays open.

The nodes of the movers and their known features are in two dictionaries, and a rule that adds a
mover or takes one out changes each of them. They have the same names throughout.

## Main definitions

* `IsAdjoined` — an adjunct joins the phrase that projects from a place in the derivation.
* `AgreesAt` — known features are those of a node of the lexicon.
* `Parse.KnowsEntries` — what a parse that has come about in some way knows of its entries.

## Main results

* `Category.ByRule.agreesAt_of_mem_parts` — every rule keeps features and nodes in step.
* `BeamParser.exists_knowsEntries` — what the parses of a run know of their entries.
-/

namespace MinimalistGrammar

/-- What is at the end of a path projects, along heads only, up to a phrase that an adjunct
joins. -/
def IsAdjoined (es : List Expansion) (path : Address) : Prop :=
  ∃ head phrase k, .predict .merge1b [head, phrase] ∈ es ∧
    path.branches = phrase.path.branches ++ List.replicate k .left

/-- The known features are those of a node of the lexicon, but the last one is missing if an adjunct
joins the phrase. -/
structure AgreesAt (lex : Lexicon) (es : List Expansion) (path : Address) (node : Nat)
    (features : List Feature) : Prop where
  whole : ¬IsAdjoined es path → features.map Feature.plain = (lex.featuresOf node).map Feature.plain
  adjoined : IsAdjoined es path →
    features.map Feature.plain = (lex.featuresOf node).dropLast.map Feature.plain

variable {π : Type} {lex : Lexicon} {es es' : List Expansion} {path path' : Address}
  {node target : Nat} {f : Feature} {features : List Feature}

namespace AgreesAt

theorem congr (h : AgreesAt lex es path node features)
    (hpath : IsAdjoined es' path' ↔ IsAdjoined es path)
    (hnode : (lex.featuresOf target).map Feature.plain = (lex.featuresOf node).map Feature.plain) :
    AgreesAt lex es' path' target features where
  whole hnot := (h.whole fun hjoined => hnot (hpath.mpr hjoined)).trans hnode.symm
  adjoined hjoined := by
    rw [h.adjoined (hpath.mp hjoined), List.map_dropLast, List.map_dropLast, hnode]

/-- One more feature is known one node further down. -/
theorem cons (hlex : lex.WellFormed) (h : AgreesAt lex es path node features)
    (hpath : IsAdjoined es' path' ↔ IsAdjoined es path) (hnode : (lex.feature? node).isSome)
    (htarget : lex.Bears (some node) f target) (hf : f.plain = f) :
    AgreesAt lex es' path' target (f :: features) where
  whole hnot := by
    rw [List.map_cons, hf, h.whole fun hjoined => hnot (hpath.mpr hjoined),
      htarget.map_plain_featuresOf hlex]
    rfl
  adjoined hjoined := by
    obtain ⟨g, hg⟩ := Option.isSome_iff_exists.mp hnode
    rw [List.map_cons, hf, h.adjoined (hpath.mp hjoined), List.map_dropLast, List.map_dropLast,
      htarget.map_plain_featuresOf hlex, List.dropLast_cons_of_ne_nil]
    · rfl
    · show (lex.featuresOf node).map Feature.plain ≠ []
      rw [hlex.featuresOf_of_feature? hg]
      exact List.cons_ne_nil _ _

end AgreesAt

/-! ### Adjuncts -/

theorem isAdjoined_append :
    IsAdjoined (es ++ es') path ↔ IsAdjoined es path ∨ IsAdjoined es' path := by
  constructor
  · rintro ⟨head, phrase, k, hmem, hpath⟩
    exact (List.mem_append.mp hmem).imp (⟨head, phrase, k, ·, hpath⟩) (⟨head, phrase, k, ·, hpath⟩)
  · rintro (⟨head, phrase, k, hmem, hpath⟩ | ⟨head, phrase, k, hmem, hpath⟩)
    · exact ⟨head, phrase, k, List.mem_append_left _ hmem, hpath⟩
    · exact ⟨head, phrase, k, List.mem_append_right _ hmem, hpath⟩

/-- A phrase at the right end of a path is joined itself, any other one as far as the phrase above
it. -/
theorem isAdjoined_child {side : Branch} : IsAdjoined es (path.child side) ↔
    (∃ head phrase, .predict .merge1b [head, phrase] ∈ es ∧ phrase.path = path.child side) ∨
      side = .left ∧ IsAdjoined es path := by
  constructor
  · rintro ⟨head, phrase, k, hmem, hpath⟩
    cases k with
    | zero =>
      exact Or.inl ⟨head, phrase, hmem, congrArg Address.mk (hpath.trans (List.append_nil _)).symm⟩
    | succ k =>
      rw [Address.child, List.replicate_succ', ← List.append_assoc] at hpath
      obtain ⟨habove, hside⟩ := List.append_inj' hpath rfl
      exact Or.inr ⟨(List.cons.inj hside).1, head, phrase, k, hmem, habove⟩
  · rintro (⟨head, phrase, hmem, hpath⟩ | ⟨rfl, head, phrase, k, hmem, hpath⟩)
    · exact ⟨head, phrase, 0, hmem, by rw [hpath]; exact (List.append_nil _).symm⟩
    · refine ⟨head, phrase, k + 1, hmem, ?_⟩
      rw [Address.child, hpath, List.append_assoc, List.replicate_succ']

namespace Category

variable {c : Category} {e : Expansion} {input : List String} {r : NodeRecord}

/-- The phrase that an adjunct joins is on the right below the prediction. -/
theorem ByRule.path_of_merge1b {head phrase : Category}
    (h : c.ByRule lex input (.predict .merge1b [head, phrase])) : phrase.path = c.path.right := by
  cases h
  rfl

/-- An expansion joins no adjunct to what was there before. -/
theorem ByRule.not_isAdjoined (h : c.ByRule lex input e)
    (hlast : c.path.branches <+: path.branches → path = c.path) : ¬IsAdjoined [e] path := by
  rintro ⟨head, phrase, k, hmem, hpath⟩
  rw [← List.mem_singleton.mp hmem] at h
  rw [h.path_of_merge1b, Address.right, Address.child, List.append_assoc] at hpath
  rw [hlast ⟨_, hpath.symm⟩] at hpath
  simpa using congrArg List.length hpath

section recorded

variable {records : List NodeRecord} {predicted : List Category}
  (hcoherent : IsCoherent lex records predicted) (hc : c ∈ predicted) (h : c.ByRule lex input e)

include hcoherent hc h in
/-- What has been recorded is joined by an adjunct after an expansion if it was before. -/
theorem isAdjoined_of_mem_records (hr : r ∈ records) :
    IsAdjoined (es ++ [e]) r.path ↔ IsAdjoined es r.path := by
  rw [isAdjoined_append]
  exact or_iff_left (h.not_isAdjoined (hcoherent.last hc hr))

variable (hrecorded : ∀ rule parts, .predict rule parts ∈ es → ∀ part ∈ parts,
  .predicted part ∈ records)

include hcoherent hc hrecorded

/-- Nothing has been predicted below an open prediction. -/
theorem path_ne_child {rule : Rule} {parts : List Category} {part : Category}
    (hmem : .predict rule parts ∈ es) (hpart : part ∈ parts) (side : Branch) :
    part.path ≠ c.path.child side := by
  intro hpath
  have hlast := hcoherent.last hc (hrecorded _ _ hmem part hpart)
  rw [NodeRecord.predicted, hpath] at hlast
  have hbranches := congrArg (·.branches.length) (hlast (List.prefix_append ..))
  simp [Address.child] at hbranches

include h

/-- The part on the left is joined by an adjunct if the prediction is. -/
theorem isAdjoined_left : IsAdjoined (es ++ [e]) c.path.left ↔ IsAdjoined es c.path := by
  rw [Address.left, isAdjoined_child, isAdjoined_append,
    or_iff_left (h.not_isAdjoined fun _ => rfl), or_iff_right, and_iff_right rfl]
  rintro ⟨head, phrase, hmem, hpath⟩
  rcases List.mem_append.mp hmem with hmem | hmem
  · exact path_ne_child hcoherent hc hrecorded hmem
      (List.mem_cons_of_mem _ (List.mem_singleton_self _)) _ hpath
  · rw [← List.mem_singleton.mp hmem] at h
    exact absurd (Address.child_inj.mp (hpath.symm.trans h.path_of_merge1b)).2 (by decide)

/-- The part on the right is joined by an adjunct if the expansion says so. -/
theorem isAdjoined_right :
    IsAdjoined (es ++ [e]) c.path.right ↔ ∃ head phrase, e = .predict .merge1b [head, phrase] := by
  rw [Address.right, isAdjoined_child, or_iff_left (fun hleft => absurd hleft.1 (by decide))]
  constructor
  · rintro ⟨head, phrase, hmem, hpath⟩
    rcases List.mem_append.mp hmem with hmem | hmem
    · exact absurd hpath
        (path_ne_child hcoherent hc hrecorded hmem
          (List.mem_cons_of_mem _ (List.mem_singleton_self _)) _)
    · exact ⟨head, phrase, (List.mem_singleton.mp hmem).symm⟩
  · rintro ⟨head, phrase, rfl⟩
    exact ⟨head, phrase, List.mem_append_right _ (List.mem_singleton_self _), h.path_of_merge1b⟩

/-! ### Features and nodes -/

/-- The parts of an expansion agree with the lexicon. -/
theorem ByRule.agreesAt_of_mem_parts (hlex : lex.WellFormed)
    (hagrees : AgreesAt lex es c.path c.node c.features) {part : Category}
    (hpart : part ∈ e.parts) : AgreesAt lex (es ++ [e]) part.path part.node part.features := by
  have hanchored := hcoherent.anchored hc
  -- one more feature is known of the part that projects
  have hleft {frontier : Frontier} {i : Address} {movers : Dict String Mover}
      {moving : Dict String (List Feature)} {f : Feature} {target : Nat}
      (ht : lex.Bears (some c.node) f target) (hf : f.plain = f) :
      AgreesAt lex (es ++ [e]) c.path.left target
        (c.projecting target frontier i f movers moving).features := by
    rw [features_projecting]
    exact hagrees.cons hlex (isAdjoined_left hcoherent hc h hrecorded) hanchored.node ht hf
  have hright := isAdjoined_right hcoherent hc h hrecorded
  -- where no adjunct joins the part on the right, all features of its entry are known
  have hwhole {s : Nat} {features : List Feature}
      (hnot : ¬∃ head phrase, e = .predict .merge1b [head, phrase])
      (hfeatures : features.map Feature.plain = (lex.featuresOf s).map Feature.plain) :
      AgreesAt lex (es ++ [e]) c.path.right s features :=
    ⟨fun _ => hfeatures, fun hjoined => absurd (hright.mp hjoined) hnot⟩
  cases h with
  | merge1 ht hs | merge2 ht hs =>
    rcases List.mem_pair.mp hpart with rfl | rfl
    · exact hleft ht rfl
    · exact hwhole (by simp) (hs.map_plain_featuresOf hlex).symm
  | merge1b ht hs =>
    rcases List.mem_pair.mp hpart with rfl | rfl
    · exact hleft ht rfl
    · refine ⟨fun hnot => absurd (hright.mpr ⟨_, _, rfl⟩) hnot, ?_⟩
      intro _
      rw [selected, List.map_dropLast, hs.map_plain_featuresOf hlex]
      rfl
  | merge3 ht hm hs | merge4 ht hm hs =>
    rcases List.mem_pair.mp hpart with rfl | rfl
    · exact hleft ht rfl
    · obtain ⟨hparent, g, hg, hplain⟩ := hs
      exact hwhole (by simp) (hanchored.map_plain_mover hlex hm hparent hg hplain)
  | move1 ht | move2 ht =>
    obtain rfl := List.mem_singleton.mp hpart
    exact hleft ht rfl
  | scan => exact absurd hpart List.not_mem_nil

end recorded

end Category

/-! ### The course of a parse -/

namespace Parse

variable {q : Parse π} {words : List String}

/-- What the parts of a prediction are is recorded. -/
theorem ComesAbout.predicted_mem_records {first : Parse π} (h : first.ComesAbout lex es q)
    (rule : Rule) (parts : List Category) (hmem : .predict rule parts ∈ es) (part : Category)
    (hpart : part ∈ parts) : .predicted part ∈ q.records := by
  rw [h.records_eq]
  exact List.mem_append_right _ (List.mem_flatMap.mpr ⟨_, hmem, List.mem_map_of_mem hpart⟩)

/-- What a parse that has come about by some expansions knows of its entries. -/
structure KnowsEntries (lex : Lexicon) (es : List Expansion) (q : Parse π) : Prop where
  /-- Every prediction has a node of the lexicon. -/
  node {c : Category} : c ∈ q.queue.toList → c.node < lex.size
  /-- Its known features are those of the node. -/
  features {c : Category} : c ∈ q.queue.toList → AgreesAt lex es c.path c.node c.features
  /-- There are known features of the movers, and of nothing else. -/
  keys {c : Category} : c ∈ q.queue.toList → c.movers.keys = c.moving.keys
  /-- A mover has a node of the lexicon with the licensee for which it moves. -/
  licensee {c : Category} {z : String} {m : Mover} : c ∈ q.queue.toList → c.movers.get? z = some m →
    m.node < lex.size ∧ ∃ f, lex.feature? m.node = some f ∧ f.plain = .licensee z
  /-- Its known features are those of the node, the last one first. -/
  movers {c : Category} {z : String} {m : Mover} : c ∈ q.queue.toList → c.movers.get? z = some m →
    ∃ checked, c.moving.get? z = some checked ∧
      checked.reverse.map Feature.plain = (lex.featuresOf m.node).map Feature.plain
  /-- A record has the key of a node of the lexicon, and the known features are those of this node.
  If the record has a word, this is the word at the node. -/
  recorded {r : NodeRecord} : r ∈ q.records →
    ∃ node, r.lexKey = Lexicon.key node ∧ node < lex.size ∧
      (∀ w, r.label = some w → lex.word? node = some w) ∧ AgreesAt lex es r.path node r.features

theorem knowsEntries_initial [Probability π] (hlex : lex.WellFormed) {root : Nat} {start : String}
    (hroot : lex.category? start = some root) (words : List String) :
    KnowsEntries lex [] (initial words (BeamParser.startCategory root start) : Parse π) := by
  obtain ⟨hparent, g, hg, hplain⟩ := (Category.category?_eq_some_iff hlex).mp hroot
  have hbears : lex.Bears none (.categorial start) root := ⟨hparent, g, hg, hplain⟩
  have hlt := Lexicon.lt_size_of_feature? hbears.isSome
  have hagrees : AgreesAt lex [] .root root [.categorial start] := by
    refine ⟨fun _ => (hbears.map_plain_featuresOf hlex).symm, ?_⟩
    rintro ⟨_, _, _, hmem, _⟩
    exact absurd hmem List.not_mem_nil
  have hmovers {c : Category} {z : String} {m : Mover}
      (hc : c ∈ [BeamParser.startCategory root start]) :
      c.movers.get? z ≠ some m := by
    rw [List.mem_singleton.mp hc]
    simp [BeamParser.startCategory]
  refine ⟨?_, ?_, ?_, fun hc hm => absurd hm (hmovers hc), fun hc hm => absurd hm (hmovers hc), ?_⟩
  · intro c hc
    rwa [List.mem_singleton.mp hc]
  · intro c hc
    rwa [List.mem_singleton.mp hc]
  · intro c hc
    rw [List.mem_singleton.mp hc]
    rfl
  · intro r hr
    rw [List.mem_singleton.mp hr]
    exact ⟨root, rfl, hlt, fun w hw => absurd hw (by simp [NodeRecord.predicted]), hagrees⟩

section expand

variable {c : Category} {queue : StableQueue Address Category} {e : Expansion} {share : π}
  {message : String}

theorem mem_queue_extend (hpop : q.queue.pop? = some (c, queue)) {b : Category}
    (hb : b ∈ ({ q with queue }.extend lex e share message).queue.toList) :
    b ∈ e.parts ∨ b ∈ q.queue.toList := by
  rw [queue_extend, (toList_foldl_enqueue_perm e.parts queue).mem_iff, List.mem_append] at hb
  rw [StableQueue.toList_eq_of_pop? hpop]
  exact hb.imp_right (List.mem_cons_of_mem _)

variable (hlex : lex.WellFormed) (hq : q.IsCoherent lex)
  (hrecorded : ∀ rule parts, .predict rule parts ∈ es → ∀ part ∈ parts, .predicted part ∈ q.records)
  (h : KnowsEntries lex es q) (hpop : q.queue.pop? = some (c, queue)) (hc : c ∈ q.queue.toList)
  (he : e ∈ c.expansions lex q.input)

include hlex hq h hc

/-- What was recorded agrees with the lexicon still. -/
theorem KnowsEntries.recorded_append (he : e ∈ c.expansions lex q.input) {r : NodeRecord}
    (hr : r ∈ q.records) :
    ∃ node, r.lexKey = Lexicon.key node ∧ node < lex.size ∧
      (∀ w, r.label = some w → lex.word? node = some w) ∧
      AgreesAt lex (es ++ [e]) r.path node r.features := by
  obtain ⟨node, hkey, hlt, hword, hagrees⟩ := h.recorded hr
  have hrule := Category.byRule_of_mem hlex he
  exact ⟨node, hkey, hlt, hword,
    hagrees.congr (Category.isAdjoined_of_mem_records hq.coherent hc hrule hr) rfl⟩

omit hq in
/-- The record of a word agrees with its leaf. -/
theorem KnowsEntries.recorded_scan {leaf : Nat} {w : String}
    (hparent : lex.parent? leaf = some c.node) (hword : lex.word? leaf = some w)
    (hmovers : c.movers = ∅) (hinput : tokens w <+: q.input) :
    ∃ node, (NodeRecord.scanned lex leaf c).lexKey = Lexicon.key node ∧ node < lex.size ∧
      (∀ w, (NodeRecord.scanned lex leaf c).label = some w → lex.word? node = some w) ∧
      AgreesAt lex (es ++ [.scan leaf c (tokens w)]) c.path node c.features := by
  refine ⟨leaf, rfl, Lexicon.lt_size_of_word? hword, ?_, (h.features hc).congr ?_ ?_⟩
  · intro w' hw'
    rw [NodeRecord.scanned, hword, Option.getD_some] at hw'
    exact hword.trans hw'
  · have hrule := Category.ByRule.scan hparent hword hmovers hinput
    exact isAdjoined_append.trans (or_iff_left (hrule.not_isAdjoined fun _ => rfl))
  · rw [hlex.featuresOf_of_word? hword, hparent]
    rfl

include hrecorded he

/-- The parts of an expansion agree with the lexicon. -/
theorem KnowsEntries.features_part {part : Category} (hpart : part ∈ e.parts) :
    AgreesAt lex (es ++ [e]) part.path part.node part.features :=
  Category.ByRule.agreesAt_of_mem_parts hq.coherent hc (Category.byRule_of_mem hlex he)
    hrecorded hlex (h.features hc) hpart

include hpop

omit hc in
theorem KnowsEntries.expand (share : π) (message : String) :
    KnowsEntries lex (es ++ [e]) ({ q with queue }.extend lex e share message) := by
  have hrule := Category.byRule_of_mem hlex he
  have hc := StableQueue.mem_toList_of_pop? hpop
  have hanchored {b : Category} := (hq.extend hlex hpop he share message).coherent.anchored (c := b)
  refine ⟨fun hb => Lexicon.lt_size_of_feature? (hanchored hb).node, ?_,
    fun hb => (hanchored hb).moving.keys, ?_, fun hb => (hanchored hb).moving.features, ?_⟩
  · intro b hb
    rcases mem_queue_extend hpop hb with hnew | hold
    · exact h.features_part hlex hq hrecorded hc he hnew
    · -- an open prediction is on record, so no adjunct joins it now
      obtain ⟨r, hr, hpath⟩ := hq.coherent.recorded hold
      have hsame : IsAdjoined (es ++ [e]) r.path ↔ IsAdjoined es r.path :=
        Category.isAdjoined_of_mem_records hq.coherent hc hrule hr
      rw [hpath] at hsame
      exact (h.features hold).congr hsame rfl
  · intro b z m hb hm
    obtain ⟨f, hf, hplain⟩ := (hanchored hb).movers hm
    exact ⟨Lexicon.lt_size_of_feature? (by rw [hf]; rfl), f, hf, hplain⟩
  · intro r hr
    rw [records_extend, List.mem_append] at hr
    rcases hr with hold | hnew
    · exact h.recorded_append hlex hq hc he hold
    · cases e with
      | predict rule parts =>
        obtain ⟨part, hpart, rfl⟩ := List.mem_map.mp hnew
        have hqueued :
            part ∈
              ({ q with queue }.extend lex (.predict rule parts) share message).queue.toList := by
          rw [queue_extend, (toList_foldl_enqueue_perm _ queue).mem_iff]
          exact List.mem_append_left _ hpart
        refine ⟨part.node, rfl, Lexicon.lt_size_of_feature? (hanchored hqueued).node, ?_,
          h.features_part hlex hq hrecorded hc he hpart⟩
        intro w hw
        exact absurd hw (by simp [NodeRecord.predicted])
      | scan leaf c' tokens =>
        obtain rfl := List.mem_singleton.mp hnew
        cases hrule with
        | scan hparent hword hmovers hinput =>
          exact h.recorded_scan hlex hc hparent hword hmovers hinput

end expand

/-- What every expansion keeps holds of whatever comes from the prediction of a start category. -/
theorem ComesAbout.knowsEntries [Probability π] (hlex : lex.WellFormed) {root : Nat}
    {start : String} (hroot : lex.category? start = some root)
    (h : (initial words (BeamParser.startCategory root start)).ComesAbout lex es q) :
    KnowsEntries lex es q := by
  induction h with
  | start => exact knowsEntries_initial hlex hroot words
  | log _ state ih => exact ⟨ih.node, ih.features, ih.keys, ih.licensee, ih.movers, ih.recorded⟩
  | expand h hpop he share message ih =>
    exact ih.expand hlex (h.isCoherent hlex (isCoherent_initial hlex hroot words))
      h.predicted_mem_records hpop he share message

end Parse

namespace BeamParser

variable [Probability π]

/-- Every parse that is on the beam or among the results after some steps has come about by
expansions of the prediction of the start category, and what is known of the features in its
predictions and records is what the lexicon says. -/
theorem exists_knowsEntries (entries : List (String × List Feature)) (p : BeamParser π)
    (hp : p.lexicon = .ofEntries entries) (words : List String) (start : String)
    (ts : Nat → DerivationTree) (n : Nat) {q : Parse π}
    (hq : q ∈ ((p.start words start).1.after ts n).held) :
    ∃ root, p.lexicon.category? start = some root ∧
      (∃ es, (Parse.initial words (startCategory root start)).ComesAbout p.lexicon es q) ∧
      ∀ es, (Parse.initial words (startCategory root start)).ComesAbout p.lexicon es q →
        q.KnowsEntries p.lexicon es := by
  have hlex : p.lexicon.WellFormed := hp ▸ Lexicon.wellFormed_ofEntries entries
  obtain ⟨root, es, hroot, hes⟩ := exists_comesAbout_of_mem_held p words start ts n hq
  exact ⟨root, hroot, ⟨es, hes⟩, fun es' hes' => hes'.knowsEntries hlex hroot⟩

/-- A noun and an adjunct that joins it. -/
def adjunctEntries : List (String × List Feature) :=
  [("dog", [.categorial "N"]), ("old", [.adjunct "N", .categorial "N"])]

theorem exists_knowsEntries_adjunct :
    ∃ q ∈ ((({ lexicon := .ofEntries adjunctEntries, settings := { minProbability := 0 } } :
      BeamParser Rat).start ["old", "dog"] "N").1.after (fun _ => {}) 4).results, ∃ root es,
        (Parse.initial ["old", "dog"] (startCategory root "N")).ComesAbout
          (.ofEntries adjunctEntries) es q ∧
          q.KnowsEntries (.ofEntries adjunctEntries) es := by
  obtain ⟨q, hq⟩ := List.exists_mem_of_length_pos
    (show 0 < ((({ lexicon := .ofEntries adjunctEntries, settings := { minProbability := 0 } } :
      BeamParser Rat).start ["old", "dog"] "N").1.after (fun _ => {}) 4).results.length
      by decide +kernel)
  obtain ⟨root, -, ⟨es, hes⟩, hknows⟩ := exists_knowsEntries adjunctEntries _ rfl ["old", "dog"] "N"
    (fun _ => {}) 4 (List.mem_append_right _ hq)
  exact ⟨q, hq, root, es, hes, hknows es hes⟩

end BeamParser
end MinimalistGrammar
