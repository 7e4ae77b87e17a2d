import MinimalistGrammar.Proofs.Beam.Reading
import MinimalistGrammar.Proofs.Beam.Run

/-!
# The results of a run

The results of a run are derivations of the input, and when a run has come to its end and nothing
was discarded on the way, they are all of them, each once.

## Main definitions

* `Parse.derivation?` — the derivation that the records of a parse stand for.
* `Derivation.SameEntries` — two derivations are alike, with the same entries at their leaves.

## Main results

* `BeamParser.exists_derives_of_mem_results` — every result is a derivation of the input.
* `BeamParser.exists_derivations_eq_results` — the results are all derivations of the input.
-/

namespace MinimalistGrammar

/-- The derivation that the records of a parse stand for. -/
def Parse.derivation? {π : Type} (lex : Lexicon) (q : Parse π) : Option Derivation :=
  (RecordTree.ofRecords q.records).bind (·.derivation? lex)

/-! ### The start of a run -/

section start

variable {lex : Lexicon} {words : List String} {start : String} {root : Nat} {d : Derivation}

/-- A phrase of a category is one that the root of this category predicts. -/
theorem predicts_startCategory_iff (hlex : lex.WellFormed) (hroot : lex.category? start = some root)
    {p : Phrase} (hp : d.phrase? lex = some p) :
    (BeamParser.startCategory root start).Predicts lex p ↔
      p.features.map Feature.plain = [.categorial start] ∧ p.movers = ∅ := by
  obtain ⟨hparent, g, hg, hplain⟩ := (Category.category?_eq_some_iff hlex).mp hroot
  have hfeatures : lex.featuresOf root = [g] := by
    rw [hlex.featuresOf_of_feature? hg, hparent]
    rfl
  constructor
  · intro h
    refine ⟨?_, Category.eq_empty_of_map_eq h.movers rfl⟩
    rw [h.features]
    show (lex.featuresOf root).map Feature.plain = _
    rw [hfeatures, List.map_singleton, hplain]
  · rintro ⟨hstart, hmovers⟩
    obtain ⟨place, hplace, hup⟩ := (Derivation.isGrounded_of_phrase? hlex hp).features
    cases place with
    | none => exact absurd hstart (by rw [hup]; simp [Lexicon.featuresUp])
    | some i =>
      have hup : p.features = lex.featuresOf i := hup
      -- the features of a node tell which node it is
      have hi : i = root := by
        refine hlex.eq_of_map_plain_featuresOf (hplace i rfl) (by simp [hg]) ?_
        rw [← hup, hstart, hfeatures, List.map_singleton, hplain]
      exact ⟨trivial, hup.trans (congrArg lex.featuresOf hi), by rw [hmovers]; rfl⟩

/-- What derives some words as a phrase of a category needs a root for this category. -/
theorem Derivation.Derives.exists_category? (hlex : lex.WellFormed)
    (h : d.Derives lex words start) : ∃ root, lex.category? start = some root := by
  obtain ⟨p, hp, -, hfeatures, -⟩ := h
  have hway := (Derivation.isGrounded_of_phrase? hlex hp).features
  obtain ⟨f, hf, hplain⟩ : ∃ f, p.features = [f] ∧ f.plain = .categorial start := by
    obtain ⟨f, hf, hplain⟩ := List.map_eq_singleton_iff.mp hfeatures
    exact ⟨f, hf, hplain⟩
  rw [hf] at hway
  obtain ⟨i, hi, hnil⟩ := hway.exists_of_cons hlex
  exact ⟨i, (Category.category?_eq_some_iff hlex).mpr
    ⟨hlex.featuresUp_parent?_eq_nil_iff.mp hnil.symm, f, hi, hplain⟩⟩

/-- A prediction without movers is pronounced as the whole input. -/
theorem arranges_piecesOf_startCategory_iff (root : Nat) (start : String) {p : Phrase}
    (hp : d.phrase? lex = some p) :
    Arranges ([BeamParser.startCategory root start].flatMap fun c => c.piecesOf lex d) words ↔
      p.words = words := by
  have hpieces : ([BeamParser.startCategory root start].flatMap fun c => c.piecesOf lex d) =
      [(Address.root, p.words)] := by
    rw [List.flatMap_singleton, Category.piecesOf, hp]
    rfl
  rw [hpieces, arranges_cons_iff (by simp)]
  constructor
  · rintro ⟨others, rfl, hnil⟩
    rw [arranges_nil.mp hnil, List.append_nil]
  · rintro rfl
    exact ⟨[], (List.append_nil _).symm, arranges_nil.mpr rfl⟩

/-- The first parse of a run is completed by the derivations of the input. -/
theorem completes_initial_iff (hlex : lex.WellFormed) (hroot : lex.category? start = some root) :
    Completes lex [.predicted (BeamParser.startCategory root start)]
      [BeamParser.startCategory root start] words d ↔ d.Derives lex words start := by
  have hpieces : Category.piecesIn lex d (BeamParser.startCategory root start) =
      (BeamParser.startCategory root start).piecesOf lex d := by
    show (d.at? []).elim [] _ = _
    rw [d.at?_nil]
    rfl
  -- the only prediction is the whole tree, so what completes the parse is what fits it
  constructor
  · intro h
    obtain ⟨d', hd', p, hp, hpredicts⟩ := h.fits (List.mem_singleton_self _)
    obtain rfl : d = d' := by simpa [BeamParser.startCategory, Address.root] using hd'
    obtain ⟨hfeatures, hmovers⟩ := (predicts_startCategory_iff hlex hroot hp).mp hpredicts
    have harranged := h.arranged
    rw [List.flatMap_singleton, hpieces] at harranged
    exact ⟨p, hp, (arranges_piecesOf_startCategory_iff root start hp).mp
      (by rwa [List.flatMap_singleton]), hfeatures, hmovers⟩
  · rintro ⟨p, hp, hwords, hfeatures, hmovers⟩
    have hpredicts := (predicts_startCategory_iff hlex hroot hp).mpr ⟨hfeatures, hmovers⟩
    refine ⟨fun hr => ?_, fun _ => Or.inr ⟨_, List.mem_singleton_self _, List.nil_prefix⟩,
      fun hc => ?_, ?_⟩
    · obtain rfl := List.mem_singleton.mp hr
      exact ⟨d, d.at?_nil,
        fun hlexical => absurd hlexical (show ¬(Frontier.all == .leaves) = true by decide),
        fun hlabel => absurd hlabel (by simp [NodeRecord.predicted])⟩
    · obtain rfl := List.mem_singleton.mp hc
      exact ⟨d, d.at?_nil, p, hp, hpredicts⟩
    · have harranged := (arranges_piecesOf_startCategory_iff root start hp).mpr
        hwords
      rw [List.flatMap_singleton] at harranged
      rwa [List.flatMap_singleton, hpieces]

/-- The first parse of a run is coherent. -/
theorem isCoherent_initial {π : Type} [Probability π] (hlex : lex.WellFormed)
    (hroot : lex.category? start = some root) (words : List String) :
    (Parse.initial words (BeamParser.startCategory root start) : Parse π).IsCoherent lex where
  order := ⟨List.pairwise_singleton .., fun hx => by rw [List.mem_singleton.mp hx]⟩
  coherent := by
    obtain ⟨hparent, g, hg, hplain⟩ := (Category.category?_eq_some_iff hlex).mp hroot
    refine ⟨fun hc => ?_, List.pairwise_singleton .., List.pairwise_singleton .., fun hc => ?_,
      fun hc hr _ => ?_, fun hr hlabel => ?_⟩
    · rw [List.mem_singleton.mp hc]
      exact ⟨by simp [BeamParser.startCategory, hg],
        fun hm => absurd hm (by simp [BeamParser.startCategory]),
        .of_map_plain_eq (Category.map_plain_root hlex hparent hg hplain), .empty⟩
    · rw [List.mem_singleton.mp hc]
      exact ⟨_, List.mem_singleton_self _, rfl⟩
    · rw [List.mem_singleton.mp hc, List.mem_singleton.mp hr]
      rfl
    · rw [List.mem_singleton.mp hr] at hlabel
      exact absurd hlabel (by simp [NodeRecord.predicted])
  fillable := by
    intro fill hfits harranged
    have hfit := hfits _ (List.mem_singleton_self _)
    obtain ⟨p, hp, hpredicts⟩ := hfit
    obtain ⟨hfeatures, hmovers⟩ := (predicts_startCategory_iff hlex hroot hp).mp hpredicts
    refine ⟨_, (completes_initial_iff hlex hroot).mpr
      ⟨p, hp, (arranges_piecesOf_startCategory_iff root start hp).mp harranged, hfeatures,
        hmovers⟩, fun c hc => ?_⟩
    rw [List.mem_singleton.mp hc]
    exact Derivation.at?_nil _

/-- A run starts with what is completed by the derivations of the input. -/
theorem BeamParser.isRunning_start {π : Type} [Probability π] {p : BeamParser π}
    (hlex : p.lexicon.WellFormed) (words : List String) (start : String) :
    IsRunning p.lexicon words start (p.start words start).1 ∧
      ∀ d, d.Derives p.lexicon words start →
        ∃ q ∈ (p.start words start).1.held, q.IsCompletedBy p.lexicon d := by
  rw [BeamParser.start]
  simp only
  split
  · next hnone =>
    refine ⟨⟨rfl, ?coherent, ?sound, List.Pairwise.nil, ?isComplete, fun _ => rfl, fun _ => rfl⟩,
      ?derives⟩
    case coherent => exact fun hq => absurd hq (by simp [held, log, reset, StableQueue.toList])
    case sound => exact fun hq => absurd hq (by simp [held, log, reset, StableQueue.toList])
    case isComplete => exact fun hq => absurd hq (by simp [log, reset])
    case derives =>
      intro d hd
      obtain ⟨root, hroot⟩ := hd.exists_category? hlex
      exact absurd (hnone.symm.trans hroot) (by simp)
  · next root hroot =>
    have hroot : p.lexicon.category? start = some root := hroot
    -- the first parse is all that is held
    have hheld {q : Parse π} (hq : q ∈ [Parse.initial words (startCategory root start)]) :
        q = Parse.initial words (startCategory root start) := List.mem_singleton.mp hq
    refine ⟨⟨rfl, ?coherent, ?sound, List.pairwise_singleton .., ?isComplete, ?found, ?noParse⟩,
      ?derives⟩
    case coherent =>
      intro q hq
      rw [hheld hq]
      exact isCoherent_initial hlex hroot words
    case sound =>
      intro q d hq hd
      rw [hheld hq] at hd
      exact (completes_initial_iff hlex hroot).mp hd
    case isComplete => exact fun hq => absurd hq (by simp [push, log, reset])
    case found => exact fun hstatus => absurd hstatus (by simp [push, log, reset])
    case noParse => exact fun hstatus => absurd hstatus (by simp [push, log, reset])
    case derives =>
      exact fun d hd => ⟨_, List.mem_singleton_self _, (completes_initial_iff hlex hroot).mpr hd⟩

end start

/-! ### Reading the results -/

/-- A complete parse has no predictions and no input left. -/
theorem Parse.eq_nil_of_isComplete {π : Type} {q : Parse π} (hq : q.isComplete = true) :
    q.queue.toList = [] ∧ q.input = [] := by
  rw [isComplete, Bool.and_eq_true, StableQueue.isEmpty, List.isEmpty_iff, List.isEmpty_iff] at hq
  exact ⟨by rw [StableQueue.toList, hq.1, List.map_nil], hq.2⟩

/-- The records of a complete parse are a tree, that of the derivation that completes it. -/
theorem Parse.IsCoherent.exists_encodes {π : Type} {lex : Lexicon} {q : Parse π} {d : Derivation}
    (h : q.IsCoherent lex) (hq : q.isComplete = true) (hd : q.IsCompletedBy lex d) :
    ∃ tree, RecordTree.ofRecords q.records = some tree ∧ tree.Encodes lex d := by
  have hnil := (eq_nil_of_isComplete hq).1
  have hcoherent := h.coherent
  rw [IsCompletedBy] at hd
  rw [hnil] at hcoherent hd
  exact RecordTree.exists_encodes_of_completes hcoherent hd

namespace BeamParser
namespace IsRunning

variable {π : Type} {p : BeamParser π} {lex : Lexicon} {words : List String} {start : String}
  {q : Parse π} {d : Derivation}

/-- A result is completed by a derivation, and it stands for no other one. -/
theorem exists_isCompletedBy (h : IsRunning lex words start p) (hq : q ∈ p.results) :
    ∃ d, q.IsCompletedBy lex d := by
  obtain ⟨hqueue, hinput⟩ := Parse.eq_nil_of_isComplete (h.isComplete hq)
  obtain ⟨d, hd, -⟩ := (h.coherent (List.mem_append_right _ hq)).fillable (fun _ => .word 0)
    (by rw [hqueue]; simp) (by rw [hqueue, hinput]; exact arranges_nil.mpr rfl)
  exact ⟨d, hd⟩

/-- A result stands for the derivation that completes it. -/
theorem derivation?_eq_some_iff (h : IsRunning lex words start p) (hq : q ∈ p.results) :
    q.derivation? lex = some d ↔ q.IsCompletedBy lex d := by
  have hread {d : Derivation} (hd : q.IsCompletedBy lex d) : q.derivation? lex = some d := by
    obtain ⟨tree, htree, hencodes⟩ := (h.coherent (List.mem_append_right _ hq)).exists_encodes
      (h.isComplete hq) hd
    rw [Parse.derivation?, htree, Option.bind_some, hencodes.derivation?_eq]
  refine ⟨fun hderivation => ?_, hread⟩
  obtain ⟨d', hd'⟩ := h.exists_isCompletedBy hq
  obtain rfl := Option.some.inj ((hread hd').symm.trans hderivation)
  exact hd'

/-- A result is a derivation of the input. -/
theorem exists_derives (h : IsRunning lex words start p) (hq : q ∈ p.results) :
    ∃ d, q.derivation? lex = some d ∧ d.Derives lex words start := by
  obtain ⟨d, hd⟩ := h.exists_isCompletedBy hq
  exact ⟨d, (h.derivation?_eq_some_iff hq).mpr hd, h.sound (List.mem_append_right _ hq) hd⟩

/-- No derivation is found twice. -/
theorem nodup_filterMap_derivation? (h : IsRunning lex words start p) :
    (p.results.filterMap (Parse.derivation? lex)).Nodup := by
  have hdistinct := (List.pairwise_append.mp h.distinct).2.1
  refine List.pairwise_filterMap.mpr (List.Pairwise.imp_of_mem ?_ hdistinct)
  rintro q₁ q₂ hq₁ hq₂ hne d hd₁ _ hd₂ rfl
  exact hne d ((h.derivation?_eq_some_iff hq₁).mp hd₁) ((h.derivation?_eq_some_iff hq₂).mp hd₂)

end IsRunning
end BeamParser

/-! ### Derivations over entries -/

/-- Two derivations are alike, and the leaves are the same entries: the same word with the same
features. -/
def Derivation.SameEntries (lex : Lexicon) : Derivation → Derivation → Prop
  | word i, word j => lex.word? i = lex.word? j ∧ lex.featuresOf i = lex.featuresOf j
  | move part, move part' => part.SameEntries lex part'
  | merge selector selected, merge selector' selected' =>
    selector.SameEntries lex selector' ∧ selected.SameEntries lex selected'
  | _, _ => False

/-- A leaf is known by its entry, if this has features. -/
theorem Lexicon.WellFormed.eq_of_entry {lex : Lexicon} (h : lex.WellFormed) {i j : Nat} {w : String}
    (hi : lex.word? i = some w) (hj : lex.word? j = some w)
    (heq : lex.featuresOf i = lex.featuresOf j) (hne : lex.featuresOf i ≠ []) : i = j := by
  rw [h.featuresOf_of_word? hi, h.featuresOf_of_word? hj] at heq
  rw [h.featuresOf_of_word? hi] at hne
  cases hp : lex.parent? i with
  | none => exact absurd (h.featuresUp_parent?_eq_nil_iff.mpr hp) hne
  | some p =>
    have hup : lex.featuresUp (lex.parent? j) = lex.featuresOf p := by
      rw [← heq, hp]
      rfl
    exact h.eq_of_word? hi hj hp
      (h.parent?_eq_some_of_featuresUp (h.isSome_feature?_of_parent? hp) hup)

/-- Derivations of phrases with features left are known by their entries. -/
theorem Derivation.SameEntries.eq {lex : Lexicon} (hlex : lex.WellFormed) {d d' : Derivation}
    {p p' : Phrase} (h : d.SameEntries lex d') (hp : d.phrase? lex = some p)
    (hp' : d'.phrase? lex = some p') (hne : p.features ≠ []) : d = d' := by
  -- the shapes are the same, and the parts of a phrase have features
  induction d generalizing d' p p' with
  | word i =>
    cases d' with
    | word j =>
      obtain ⟨w, hw, rfl⟩ := Option.map_eq_some_iff.mp hp
      exact congrArg _ (hlex.eq_of_entry hw (h.1.symm.trans hw) h.2 hne)
    | move part => exact h.elim
    | merge selector selected => exact h.elim
  | move part ih =>
    cases d' with
    | word j => exact h.elim
    | move part' =>
      obtain ⟨q, hq, hmove⟩ := Option.bind_eq_some_iff.mp hp
      obtain ⟨q', hq', -⟩ := Option.bind_eq_some_iff.mp hp'
      obtain ⟨f, features, m, hqf, -⟩ := Phrase.move?_eq_some_iff.mp hmove
      exact congrArg _ (ih h hq hq' (by simp [hqf]))
    | merge selector selected => exact h.elim
  | merge selector selected ih₁ ih₂ =>
    cases d' with
    | word j => exact h.elim
    | move part => exact h.elim
    | merge selector' selected' =>
      obtain ⟨q₁, hq₁, hbind⟩ := Option.bind_eq_some_iff.mp hp
      obtain ⟨q₂, hq₂, hmerge⟩ := Option.bind_eq_some_iff.mp hbind
      obtain ⟨q₁', hq₁', hbind'⟩ := Option.bind_eq_some_iff.mp hp'
      obtain ⟨q₂', hq₂', -⟩ := Option.bind_eq_some_iff.mp hbind'
      obtain ⟨f, features, g, rest, hf, hg, -⟩ := Phrase.merge?_eq_some_iff.mp hmerge
      rw [ih₁ h.1 hq₁ hq₁' (by simp [hf]), ih₂ h.2 hq₂ hq₂' (by simp [hg])]

/-- Derivations of some words are known by their entries. -/
theorem Derivation.Derives.eq_of_sameEntries {lex : Lexicon} (hlex : lex.WellFormed)
    {d d' : Derivation} {words : List String} {start : String} (hd : d.Derives lex words start)
    (hd' : d'.Derives lex words start) (h : d.SameEntries lex d') : d = d' := by
  obtain ⟨p, hp, -, hfeatures, -⟩ := hd
  obtain ⟨p', hp', -⟩ := hd'
  refine h.eq hlex hp hp' fun hnil => ?_
  rw [hnil] at hfeatures
  exact absurd hfeatures (by simp)

/-! ### Main results -/

namespace BeamParser

/-- A verb that attracts its object, and an object that moves. -/
def questionEntries : List (String × List Feature) :=
  [("saw", [.selector "D", .licensor "wh", .categorial "C"]),
    ("what", [.categorial "D", .licensee "wh"])]

/-- The run of a new parser over a question of two words, which takes six steps to its end. -/
def questionRun : BeamParser Rat × DerivationTree × List StepResult :=
  (({ lexicon := .ofEntries questionEntries, settings := { minProbability := 0 } } :
    BeamParser Rat).start ["what", "saw"] "C").1.stepTimes {} 6

variable {π : Type} [Probability π]

/-- After any number of steps every result is a derivation of the input: its records are a tree, the
leaves of the tree name entries of the lexicon, and evaluated by the rules of the grammar the tree
derives the words as a phrase of the start category. -/
theorem exists_derives_of_mem_results (entries : List (String × List Feature)) (p : BeamParser π)
    (hp : p.lexicon = .ofEntries entries) (words : List String) (start : String)
    (t : DerivationTree) (n : Nat) {q : Parse π}
    (hq : q ∈ ((p.start words start).1.stepTimes t n).1.results) :
    ∃ tree d, RecordTree.ofRecords q.records = some tree ∧
      tree.derivation? p.lexicon = some d ∧ d.Derives p.lexicon words start := by
  have hlex : p.lexicon.WellFormed := hp ▸ Lexicon.wellFormed_ofEntries entries
  have hrunning := ((isRunning_start hlex words start).1.stepTimes hlex t n).1
  obtain ⟨d, hread, hderives⟩ := hrunning.exists_derives hq
  obtain ⟨tree, htree, hd⟩ := Option.bind_eq_some_iff.mp hread
  exact ⟨tree, d, htree, hd, hderives⟩

theorem exists_derives_question : ∃ q ∈ questionRun.1.results, ∃ tree d,
    RecordTree.ofRecords q.records = some tree ∧
      tree.derivation? (.ofEntries questionEntries) = some d ∧
      d.Derives (.ofEntries questionEntries) ["what", "saw"] "C" := by
  obtain ⟨q, hq⟩ := List.exists_mem_of_length_pos
    (show 0 < questionRun.1.results.length by decide +kernel)
  exact ⟨q, hq, exists_derives_of_mem_results questionEntries _ rfl _ _ {} 6 hq⟩

/-- If a run ends with nothing left on the beam and has discarded nothing, its results are all
derivations of the input, each of them once. If it has found nothing, there are none. -/
theorem exists_derivations_eq_results (entries : List (String × List Feature)) (p : BeamParser π)
    (hp : p.lexicon = .ofEntries entries) (words : List String) (start : String)
    (t : DerivationTree) (n : Nat)
    (hend : ((p.start words start).1.stepTimes t n).1.status = some .found ∨
      ((p.start words start).1.stepTimes t n).1.status = some .noParse)
    (hkeep : ∀ id, .discarded id ∉ ((p.start words start).1.stepTimes t n).2.2) :
    ∃ ds : List Derivation,
      ((p.start words start).1.stepTimes t n).1.results.map (Parse.derivation? p.lexicon) =
        ds.map some ∧
      ds.Pairwise (fun d d' => ¬d.SameEntries p.lexicon d') ∧
      (∀ d, d ∈ ds ↔ d.Derives p.lexicon words start) ∧
      (((p.start words start).1.stepTimes t n).1.status = some .noParse →
        ∀ d : Derivation, ¬d.Derives p.lexicon words start) := by
  have hlex : p.lexicon.WellFormed := hp ▸ Lexicon.wellFormed_ofEntries entries
  obtain ⟨hstart, hinitial⟩ := isRunning_start hlex words start
  obtain ⟨hrunning, hall⟩ := hstart.stepTimes hlex t n
  generalize hrun : (p.start words start).1.stepTimes t n = run at *
  -- nothing is on the beam, so what is held is a result
  have hheld : run.1.held = run.1.results := by
    rw [held, hrunning.found hend, List.nil_append]
  have hmem (d : Derivation) : d ∈ run.1.results.filterMap (Parse.derivation? p.lexicon) ↔
      d.Derives p.lexicon words start := by
    rw [List.mem_filterMap]
    constructor
    · rintro ⟨q, hq, hd⟩
      exact hrunning.sound (List.mem_append_right _ hq)
        ((hrunning.derivation?_eq_some_iff hq).mp hd)
    · intro hd
      obtain ⟨q, hq, hcompleted⟩ := hall hkeep d (hinitial d hd)
      rw [hheld] at hq
      exact ⟨q, hq, (hrunning.derivation?_eq_some_iff hq).mpr hcompleted⟩
  refine ⟨run.1.results.filterMap (Parse.derivation? p.lexicon), ?_, ?_, hmem, fun hnone d hd => ?_⟩
  · rw [List.map_filterMap_some_eq_filter_map_isSome, List.filter_eq_self.mpr]
    intro o ho
    obtain ⟨q, hq, rfl⟩ := List.mem_map.mp ho
    obtain ⟨d, hd, -⟩ := hrunning.exists_derives hq
    rw [hd]
    rfl
  · refine List.Pairwise.imp_of_mem ?_ hrunning.nodup_filterMap_derivation?
    intro d d' hd hd' hne hsame
    exact hne (((hmem d).mp hd).eq_of_sameEntries hlex ((hmem d').mp hd') hsame)
  · have hd := (hmem d).mpr hd
    rw [hrunning.noParse hnone] at hd
    exact absurd hd (by simp)

theorem exists_derivations_question :
    questionRun.1.status = some .found ∧ ∃ ds : List Derivation,
      questionRun.1.results.map (Parse.derivation? (.ofEntries questionEntries)) = ds.map some ∧
      ds.Pairwise (fun d d' => ¬d.SameEntries (.ofEntries questionEntries) d') ∧
      ∀ d, d ∈ ds ↔ d.Derives (.ofEntries questionEntries) ["what", "saw"] "C" := by
  have hfound : questionRun.1.status = some .found := by decide +kernel
  have hkeep : (questionRun.2.2.all fun | .discarded _ => false | _ => true) = true := by
    decide +kernel
  obtain ⟨ds, hresults, hdistinct, hall, -⟩ :=
    exists_derivations_eq_results questionEntries _ rfl ["what", "saw"] "C" {} 6 (Or.inl hfound)
      fun _ hmem => absurd (List.all_eq_true.mp hkeep _ hmem) (by simp)
  exact ⟨hfound, ds, hresults, hdistinct, hall⟩

end BeamParser
end MinimalistGrammar
