import MinimalistGrammar.Proofs.Grammar.Prediction

/-!
# Where the movers of a derivation are

The nodes of a derivation are numbered from the words up, those of a selector before those of what
it selects. So a mover is known by the number of its node. The grammar files a mover under its first
licensee, when it is taken and again when it moves on. A rebuilt tree files every node under all the
licensees that are left of its features, and the last one that is filed under a name counts. The
tree of a derivation is rebuilt as it was derived if the two agree wherever a licensor attracts a
mover.

## Main definitions

* `Derivation.size` — how many nodes there are.
* `Derivation.waiting` — the nodes of the movers, as the grammar files them.
* `Derivation.filed` — the nodes of the movers, as a rebuilt tree files them.
* `Derivation.isFaithful` — every licensor finds in the files what waits for it.

## Main results

* `Derivation.contains_waiting` — the files of the grammar are those of the phrase.
* `Derivation.lt_of_waiting`, `Derivation.waiting_injective` — every mover is a node below the root,
  and is filed once.
-/

namespace MinimalistGrammar

/-- The names of the licensees among some features. -/
def licenseeNames (features : List Feature) : List String :=
  (features.filter (·.sign == .licensee)).map (·.name)

theorem licenseeNames_congr {features features' : List Feature}
    (h : features.map Feature.plain = features'.map Feature.plain) :
    licenseeNames features = licenseeNames features' := by
  have hplain (fs : List Feature) : licenseeNames fs = licenseeNames (fs.map Feature.plain) := by
    rw [licenseeNames, licenseeNames, List.filter_map, List.map_map]
    rfl
  rw [hplain features, h, ← hplain features']

/-- What is known of some features has all their licensees. -/
theorem IsKnownOf.licenseeNames_eq {known features : List Feature} (h : IsKnownOf known features) :
    licenseeNames known = licenseeNames features := by
  obtain ⟨rest, hrest, heq⟩ := h
  have hnone : rest.filter (·.sign == .licensee) = [] :=
    List.filter_eq_nil_iff.mpr fun f hf => by simp [hrest f hf]
  rw [← licenseeNames_congr heq, licenseeNames, licenseeNames, List.filter_append, hnone,
    List.append_nil]

/-- The mover that the active feature of a phrase attracts, with the name under which it waits. -/
def Phrase.attracted? (p : Phrase) : Option (String × Moved) :=
  p.features.head?.bind fun f => (p.movers.get? f.name).map fun m => (f.name, m)

/-- Files the node of a phrase under the next one of its features, if one is left. -/
def fileNext (features : List Feature) (node : Nat) (movers : Dict String Nat) : Dict String Nat :=
  match features with
  | [] => movers
  | f :: _ => movers.insert f.name node

@[simp] theorem fileNext_nil (node : Nat) (movers : Dict String Nat) :
    fileNext [] node movers = movers := rfl

@[simp] theorem fileNext_cons (f : Feature) (features : List Feature) (node : Nat)
    (movers : Dict String Nat) :
    fileNext (f :: features) node movers = movers.insert f.name node := rfl

/-- What is filed was filed before, or is the new node. -/
theorem get?_fileNext_cases {features : List Feature} {node n : Nat} {movers : Dict String Nat}
    {z : String} (h : (fileNext features node movers).get? z = some n) :
    movers.get? z = some n ∨ n = node := by
  cases features with
  | nil => exact Or.inl h
  | cons f features =>
    rw [fileNext_cons, Dict.get?_insert] at h
    split at h
    · exact Or.inr (Option.some.inj h).symm
    · exact Or.inl h

/-- Filing a new node keeps it so that every node is filed once. -/
theorem fileNext_injective {features : List Feature} {node : Nat} {movers : Dict String Nat}
    (hmovers : ∀ {y z n}, movers.get? y = some n → movers.get? z = some n → y = z)
    (hnew : ∀ z, movers.get? z ≠ some node) {y z : String} {n : Nat}
    (hy : (fileNext features node movers).get? y = some n)
    (hz : (fileNext features node movers).get? z = some n) : y = z := by
  cases features with
  | nil => exact hmovers hy hz
  | cons f features =>
    rw [fileNext_cons, Dict.get?_insert] at hy hz
    split at hy <;> split at hz
    · next hy' hz' => rw [hy', hz']
    · exact absurd (hz.trans hy.symm) (hnew z)
    · exact absurd (hy.trans hz.symm) (hnew y)
    · exact hmovers hy hz

namespace Derivation

/-- How many nodes a derivation has. -/
def size : Derivation → Nat
  | word _ => 1
  | move part => part.size + 1
  | merge selector selected => selector.size + selected.size + 1

theorem size_pos (d : Derivation) : 0 < d.size := by
  cases d <;> exact Nat.succ_pos _

/-- The mover that a derived phrase attracts, with the name under which it waits. -/
def attracted? (lex : Lexicon) (d : Derivation) : Option (String × Moved) :=
  (d.phrase? lex).bind Phrase.attracted?

/-- The nodes of the phrases that wait to move, by the name under which they wait. -/
def waiting (lex : Lexicon) : Derivation → Dict String Nat
  | word _ => ∅
  | move part =>
    (part.attracted? lex).elim ∅ fun (x, m) =>
      ((part.waiting lex).get? x).elim ∅ fun node =>
        fileNext m.features.tail node ((part.waiting lex).erase x)
  | merge selector selected =>
    let movers := (selector.waiting lex).unite ((selected.waiting lex).map (selector.size + ·))
    (selected.phrase? lex).elim movers fun q =>
      fileNext q.features.tail (selector.size + selected.size - 1) movers

/-- The names of the licensees that are left of the features of a derived phrase. -/
def licensees (lex : Lexicon) (d : Derivation) : List String :=
  (d.phrase? lex).elim [] fun p => licenseeNames p.features

/-- The nodes that a rebuilt tree files, by name: of its parts what they have left, that of the
selector first, and before all others the node itself under all the licensees that it has left. -/
def filed (lex : Lexicon) : Derivation → Dict String Nat
  | word leaf => (∅ : Dict String Nat).insertAll ((word leaf).licensees lex) 0
  | move part =>
    ((part.attracted? lex).elim (part.filed lex) fun (x, _) => (part.filed lex).erase x).insertAll
      ((move part).licensees lex) part.size
  | merge selector selected =>
    ((selector.filed lex).unite ((selected.filed lex).map (selector.size + ·))).insertAll
      ((merge selector selected).licensees lex) (selector.size + selected.size)

/-- Whether every licensor finds the mover that waits for it where a rebuilt tree files it. -/
def isFaithful (lex : Lexicon) : Derivation → Bool
  | word _ => true
  | move part => part.isFaithful lex &&
    (part.attracted? lex).all fun (x, _) => (part.filed lex).get? x == (part.waiting lex).get? x
  | merge selector selected => selector.isFaithful lex && selected.isFaithful lex

/-! ### The files of the grammar -/

section waiting

variable {lex : Lexicon} {d part selector selected : Derivation} {p q r : Phrase} {z : String}
  {n : Nat}

theorem attracted?_eq (hp : d.phrase? lex = some p) : d.attracted? lex = p.attracted? := by
  rw [attracted?, hp, Option.bind_some]

theorem isFaithful_move_iff {x : String} {m : Moved} (hx : part.attracted? lex = some (x, m)) :
    (move part).isFaithful lex = true ↔
      part.isFaithful lex = true ∧ (part.filed lex).get? x = (part.waiting lex).get? x := by
  rw [isFaithful, hx, Option.all_some, Bool.and_eq_true, beq_iff_eq]

theorem isFaithful_merge_iff : (merge selector selected).isFaithful lex = true ↔
    selector.isFaithful lex = true ∧ selected.isFaithful lex = true := by
  rw [isFaithful, Bool.and_eq_true]

theorem licensees_eq (hp : d.phrase? lex = some p) :
    d.licensees lex = licenseeNames p.features := by
  rw [licensees, hp, Option.elim_some]

theorem waiting_merge (hq : selected.phrase? lex = some q) :
    (merge selector selected).waiting lex =
      fileNext q.features.tail (selector.size + selected.size - 1)
        ((selector.waiting lex).unite ((selected.waiting lex).map (selector.size + ·))) := by
  rw [waiting, hq]
  rfl

theorem waiting_move {x : String} {m : Moved} {node : Nat} (hx : part.attracted? lex = some (x, m))
    (hnode : (part.waiting lex).get? x = some node) :
    (move part).waiting lex =
      fileNext m.features.tail node ((part.waiting lex).erase x) := by
  rw [waiting, hx]
  simp only [Option.elim_some, hnode]

/-- A phrase that finds its place is filed as a mover if and only if it becomes one. -/
theorem contains_fileNext {side : Branch} {head words : List String} {features rest : List Feature}
    {movers : Dict String Moved} {files : Dict String Nat}
    (h : Phrase.place? side head features movers ⟨words, rest⟩ = some r)
    (hfiles : ∀ z, files.contains z = movers.contains z) (node : Nat) (z : String) :
    (fileNext rest node files).contains z = r.movers.contains z := by
  rcases Phrase.place?_eq_some_iff.mp h with ⟨hnil, rfl⟩ | ⟨f, rest', heq, -, -, rfl⟩
  · simp only at hnil
    rw [hnil]
    exact hfiles z
  · simp only at heq
    rw [heq, fileNext, Dict.contains, Dict.contains, Dict.get?_insert, Dict.get?_insert]
    split
    · rfl
    · exact hfiles z

/-- What was filed stays filed when a phrase finds its place: a new mover has a name of its own. -/
theorem get?_fileNext_of_get? {side : Branch} {head words : List String}
    {features rest : List Feature} {movers : Dict String Moved} {files : Dict String Nat}
    (h : Phrase.place? side head features movers ⟨words, rest⟩ = some r)
    (hfiles : ∀ z, files.contains z = movers.contains z) {node : Nat} (hn : files.get? z = some n) :
    (fileNext rest node files).get? z = some n := by
  rcases Phrase.place?_eq_some_iff.mp h with ⟨hnil, -⟩ | ⟨f, rest', heq, -, hnew, -⟩
  · simp only at hnil
    rw [hnil]
    exact hn
  · simp only at heq
    rw [heq, fileNext_cons, Dict.get?_insert_of_ne, hn]
    rintro rfl
    have hz := hfiles f.name
    rw [Dict.contains, Dict.contains, hn, hnew] at hz
    exact absurd hz (by simp)

/-- A mover of a phrase that has found its place is the new one or was a mover before, and it is
filed as such. -/
theorem get?_fileNext_of_place? {side : Branch} {head words : List String}
    {features rest : List Feature} {movers : Dict String Moved} {files : Dict String Nat}
    (h : Phrase.place? side head features movers ⟨words, rest⟩ = some r) {node : Nat} {m : Moved}
    (hn : (fileNext rest node files).get? z = some n) (hm : r.movers.get? z = some m) :
    (n = node ∧ m = ⟨words, rest⟩) ∨ files.get? z = some n ∧ movers.get? z = some m := by
  rcases Phrase.place?_eq_some_iff.mp h with ⟨hnil, rfl⟩ | ⟨f, rest', heq, -, -, rfl⟩
  · simp only at hnil
    rw [hnil] at hn
    exact Or.inr ⟨hn, hm⟩
  · simp only at heq
    rw [heq, fileNext_cons, Dict.get?_insert] at hn
    simp only [Dict.get?_insert] at hm
    split at hn
    · next hz =>
      rw [if_pos hz] at hm
      exact Or.inl ⟨(Option.some.inj hn).symm, (Option.some.inj hm).symm⟩
    · next hz =>
      rw [if_neg hz] at hm
      exact Or.inr ⟨hn, hm⟩

/-- What the phrase of a movement attracts, and what is left of it finds its place. -/
theorem exists_of_phrase?_move (h : (move part).phrase? lex = some r) :
    ∃ p f features m, part.phrase? lex = some p ∧ p.features = f :: features ∧ f.sign = .licensor ∧
      p.movers.get? f.name = some m ∧ part.attracted? lex = some (f.name, m) ∧
      Phrase.place? .left p.words features (p.movers.erase f.name) ⟨m.words, m.features.tail⟩ =
        some r := by
  obtain ⟨p, hp, hmove⟩ := Option.bind_eq_some_iff.mp h
  obtain ⟨f, features, m, hpf, hsign, hm, hplace⟩ := Phrase.move?_eq_some_iff.mp hmove
  refine ⟨p, f, features, m, hp, hpf, hsign, hm, ?_, hplace⟩
  rw [attracted?_eq hp, Phrase.attracted?, hpf, List.head?_cons, Option.bind_some, hm,
    Option.map_some]

/-- What the phrase of a merge selects finds its place. -/
theorem exists_of_phrase?_merge (h : (merge selector selected).phrase? lex = some r) :
    ∃ p q f features g rest movers, selector.phrase? lex = some p ∧ selected.phrase? lex = some q ∧
      p.features = f :: features ∧ q.features = g :: rest ∧
      (f.sign = .selector ∨ f.sign = .adjunct ∧ p.isLexical = true) ∧
      Phrase.place? (if p.isLexical then .right else .left) p.words features movers
        ⟨q.words, rest⟩ = some r ∧
      (p.movers = ∅ ∧ movers = q.movers ∨ q.movers = ∅ ∧ movers = p.movers) := by
  obtain ⟨p, hp, hbind⟩ := Option.bind_eq_some_iff.mp h
  obtain ⟨q, hq, hmerge⟩ := Option.bind_eq_some_iff.mp hbind
  obtain ⟨f, features, g, rest, movers, hcases⟩ :=
    Phrase.exists_place?_of_merge? hmerge (movers_eq_empty_of_isLexical hp)
  exact ⟨p, q, f, features, g, rest, movers, hp, hq, hcases⟩

/-- The files without the mover that is attracted are those of the other movers. -/
theorem contains_erase {files : Dict String Nat} {movers : Dict String Moved}
    (hfiles : ∀ z, files.contains z = movers.contains z) (x z : String) :
    (files.erase x).contains z = (movers.erase x).contains z := by
  by_cases hz : z = x
  · rw [hz, Dict.contains, Dict.contains, Dict.get?_erase_self, Dict.get?_erase_self]
    rfl
  · have h := hfiles z
    rw [Dict.contains, Dict.contains] at h ⊢
    rw [Dict.get?_erase_of_ne hz, Dict.get?_erase_of_ne hz, h]

/-- The files of the two parts of a merge together are those of the movers that are kept. -/
theorem contains_unite {files files' : Dict String Nat} {movers movers' kept : Dict String Moved}
    (hkept : movers = ∅ ∧ kept = movers' ∨ movers' = ∅ ∧ kept = movers)
    (hfiles : ∀ z, files.contains z = movers.contains z)
    (hfiles' : ∀ z, files'.contains z = movers'.contains z) (k : Nat) (z : String) :
    (files.unite (files'.map (k + ·))).contains z = kept.contains z := by
  have h := hfiles z
  have h' := hfiles' z
  rw [Dict.contains, Dict.contains] at h h' ⊢
  rw [Dict.get?_unite, Dict.get?_map, Option.isSome_or, Option.isSome_map, h, h']
  rcases hkept with ⟨hempty, rfl⟩ | ⟨hempty, rfl⟩
  · rw [hempty, Dict.get?_empty]
    exact Bool.false_or _
  · rw [hempty, Dict.get?_empty]
    exact Bool.or_false _

/-- The files of the grammar are those of the phrase. -/
theorem contains_waiting (h : d.phrase? lex = some p) (z : String) :
    (d.waiting lex).contains z = p.movers.contains z := by
  induction d generalizing p z with
  | word leaf =>
    obtain ⟨w, -, rfl⟩ := Option.map_eq_some_iff.mp h
    rfl
  | move part ih =>
    obtain ⟨q, f, features, m, hq, hqf, -, hm, hx, hplace⟩ := exists_of_phrase?_move h
    have hnode := ih hq f.name
    rw [Dict.contains, Dict.contains, hm] at hnode
    obtain ⟨node, hnode⟩ := Option.isSome_iff_exists.mp hnode
    rw [waiting_move hx hnode]
    exact contains_fileNext hplace (contains_erase (ih hq) f.name) node z
  | merge selector selected ih₁ ih₂ =>
    obtain ⟨p₁, p₂, f, features, g, rest, movers, hp₁, hp₂, -, hqf, -, hplace, hmovers⟩ :=
      exists_of_phrase?_merge h
    rw [waiting_merge hp₂, hqf]
    exact contains_fileNext hplace (contains_unite hmovers (ih₁ hp₁) (ih₂ hp₂) _) _ z

theorem exists_waiting (h : d.phrase? lex = some p) {m : Moved} (hm : p.movers.get? z = some m) :
    ∃ n, (d.waiting lex).get? z = some n := by
  have hz := contains_waiting h z
  rw [Dict.contains, Dict.contains, hm] at hz
  exact Option.isSome_iff_exists.mp hz

/-- A mover in a merge comes from one of the two parts. -/
theorem waiting_unite_cases
    (h : ((selector.waiting lex).unite ((selected.waiting lex).map (selector.size + ·))).get? z =
      some n) :
    (selector.waiting lex).get? z = some n ∨
      ∃ k, (selected.waiting lex).get? z = some k ∧ n = selector.size + k := by
  rw [Dict.get?_unite, Dict.get?_map] at h
  rcases Option.or_eq_some_iff.mp h with h | ⟨-, h⟩
  · exact Or.inl h
  · obtain ⟨k, hk, rfl⟩ := Option.map_eq_some_iff.mp h
    exact Or.inr ⟨k, hk, rfl⟩

/-- Every mover is a node below the root. -/
theorem lt_of_waiting (h : d.phrase? lex = some p) (hn : (d.waiting lex).get? z = some n) :
    n + 1 < d.size := by
  induction d generalizing p z n with
  | word leaf => exact absurd hn (by simp [waiting])
  | move part ih =>
    obtain ⟨q, f, features, m, hq, -, -, hm, hx, -⟩ := exists_of_phrase?_move h
    obtain ⟨node, hnode⟩ := exists_waiting hq hm
    rw [waiting_move hx hnode] at hn
    rw [size]
    rcases get?_fileNext_cases hn with hn | rfl
    · exact Nat.lt_succ_of_lt (ih hq (Dict.get?_erase_eq_some_iff.mp hn).2)
    · exact Nat.lt_succ_of_lt (ih hq hnode)
  | merge selector selected ih₁ ih₂ =>
    obtain ⟨p₁, p₂, -, -, -, -, -, hp₁, hp₂, -⟩ := exists_of_phrase?_merge h
    have hpos := selected.size_pos
    rw [waiting_merge hp₂] at hn
    rw [size]
    rcases get?_fileNext_cases hn with hn | rfl
    · rcases waiting_unite_cases hn with hn | ⟨k, hk, rfl⟩
      · have hlt := ih₁ hp₁ hn
        omega
      · have hlt := ih₂ hp₂ hk
        omega
    · omega

/-- Every mover is filed once. -/
theorem waiting_injective (h : d.phrase? lex = some p) {y : String}
    (hy : (d.waiting lex).get? y = some n) (hz : (d.waiting lex).get? z = some n) : y = z := by
  induction d generalizing p y z n with
  | word leaf => exact absurd hy (by simp [waiting])
  | move part ih =>
    obtain ⟨q, f, features, m, hq, -, -, hm, hx, -⟩ := exists_of_phrase?_move h
    obtain ⟨node, hnode⟩ := exists_waiting hq hm
    rw [waiting_move hx hnode] at hy hz
    refine fileNext_injective (fun hy hz => ?_) (fun z hz => ?_) hy hz
    · exact ih hq (Dict.get?_erase_eq_some_iff.mp hy).2 (Dict.get?_erase_eq_some_iff.mp hz).2
    · obtain ⟨hne, hz⟩ := Dict.get?_erase_eq_some_iff.mp hz
      exact hne (ih hq hz hnode)
  | merge selector selected ih₁ ih₂ =>
    obtain ⟨p₁, p₂, -, -, -, -, -, hp₁, hp₂, -⟩ := exists_of_phrase?_merge h
    rw [waiting_merge hp₂] at hy hz
    refine fileNext_injective (fun hy hz => ?_) (fun z hz => ?_) hy hz
    -- numbers from the second part are moved past all numbers from the first one
    · rcases waiting_unite_cases hy with hy | ⟨k, hk, rfl⟩ <;>
        rcases waiting_unite_cases hz with hz | ⟨k', hk', heq⟩
      · exact ih₁ hp₁ hy hz
      · have hlt := lt_of_waiting hp₁ hy
        omega
      · have hlt := lt_of_waiting hp₁ hz
        omega
      · obtain rfl : k = k' := by omega
        exact ih₂ hp₂ hk hk'
    -- the new mover is the selected part itself, and what waits inside has smaller numbers
    · have hpos := selected.size_pos
      rcases waiting_unite_cases hz with hz | ⟨k, hk, heq⟩
      · have hlt := lt_of_waiting hp₁ hz
        omega
      · have hlt := lt_of_waiting hp₂ hk
        omega

/-- Nothing waits to move when the phrase has no movers. -/
theorem waiting_eq_empty (h : d.phrase? lex = some p) (hp : p.movers = ∅) : d.waiting lex = ∅ := by
  refine Dict.ext_get? fun z => ?_
  have hz := contains_waiting h z
  rw [hp, Dict.contains, Dict.contains, Dict.get?_empty, Option.isSome_none,
    Option.isSome_eq_false_iff, Option.isNone_iff_eq_none] at hz
  rw [hz, Dict.get?_empty]

/-! ### Where a mover comes from -/

section merge

variable (hr : (merge selector selected).phrase? lex = some r)

include hr

/-- A mover of the selector is a mover of the merge. -/
theorem waiting_merge_of_selector (hn : (selector.waiting lex).get? z = some n) :
    ((merge selector selected).waiting lex).get? z = some n := by
  obtain ⟨p, q, f, features, g, rest, movers, hp, hq, -, hqf, -, hplace, hmovers⟩ :=
    exists_of_phrase?_merge hr
  rw [waiting_merge hq, hqf, List.tail_cons]
  refine get?_fileNext_of_get? hplace
    (contains_unite hmovers (contains_waiting hp) (contains_waiting hq) _) ?_
  rw [Dict.get?_unite, hn, Option.some_or]

/-- A mover of what is selected is a mover of the merge. -/
theorem waiting_merge_of_selected (hn : (selected.waiting lex).get? z = some n) :
    ((merge selector selected).waiting lex).get? z = some (selector.size + n) := by
  obtain ⟨p, q, f, features, g, rest, movers, hp, hq, -, hqf, -, hplace, hmovers⟩ :=
    exists_of_phrase?_merge hr
  have hnone : (selector.waiting lex).get? z = none := by
    rcases hmovers with ⟨hempty, -⟩ | ⟨hempty, -⟩
    · rw [waiting_eq_empty hp hempty, Dict.get?_empty]
    · rw [waiting_eq_empty hq hempty] at hn
      exact absurd hn (by simp)
  rw [waiting_merge hq, hqf, List.tail_cons]
  refine get?_fileNext_of_get? hplace
    (contains_unite hmovers (contains_waiting hp) (contains_waiting hq) _) ?_
  rw [Dict.get?_unite, hnone, Option.none_or, Dict.get?_map, hn, Option.map_some]

/-- Movers of a merge are movers of its parts, but for what is selected. -/
theorem waiting_merge_cases (hn : ((merge selector selected).waiting lex).get? z = some n) :
    n = selector.size + selected.size - 1 ∨ (selector.waiting lex).get? z = some n ∨
      ∃ k, (selected.waiting lex).get? z = some k ∧ n = selector.size + k := by
  obtain ⟨p, q, -, -, -, -, -, -, hq, -⟩ := exists_of_phrase?_merge hr
  rw [waiting_merge hq] at hn
  rcases get?_fileNext_cases hn with hn | hn
  · exact Or.inr (waiting_unite_cases hn)
  · exact Or.inl hn

/-- A mover of a merge is what is selected, or a mover of one of the parts under the same name. -/
theorem mover_merge_cases (hp : selector.phrase? lex = some p) (hq : selected.phrase? lex = some q)
    {m : Moved} (hn : ((merge selector selected).waiting lex).get? z = some n)
    (hm : r.movers.get? z = some m) :
    (n = selector.size + selected.size - 1 ∧ m = ⟨q.words, q.features.tail⟩) ∨
      ((selector.waiting lex).get? z = some n ∧ p.movers.get? z = some m) ∨
      ∃ k, (selected.waiting lex).get? z = some k ∧ q.movers.get? z = some m ∧
        n = selector.size + k := by
  obtain ⟨p', q', f, features, g, rest, movers, hp', hq', -, hqf, -, hplace, hmovers⟩ :=
    exists_of_phrase?_merge hr
  obtain rfl := Option.some.inj (hp.symm.trans hp')
  obtain rfl := Option.some.inj (hq.symm.trans hq')
  rw [waiting_merge hq, hqf, List.tail_cons] at hn
  rw [hqf, List.tail_cons]
  rcases get?_fileNext_of_place? hplace hn hm with ⟨rfl, rfl⟩ | ⟨hn, hm⟩
  · exact Or.inl ⟨rfl, rfl⟩
  · -- the movers that are kept are all of one of the two parts
    rcases waiting_unite_cases hn with hn | ⟨k, hk, rfl⟩ <;>
      rcases hmovers with ⟨hempty, rfl⟩ | ⟨hempty, rfl⟩
    · rw [waiting_eq_empty hp hempty] at hn
      exact absurd hn (by simp)
    · exact Or.inr (Or.inl ⟨hn, hm⟩)
    · exact Or.inr (Or.inr ⟨k, hk, hm, rfl⟩)
    · rw [waiting_eq_empty hq hempty] at hk
      exact absurd hk (by simp)

/-- What is selected is pronounced beside the selector, or it waits to move. -/
theorem words_merge_cases (hp : selector.phrase? lex = some p)
    (hq : selected.phrase? lex = some q) :
    (r.words = Phrase.beside (if p.isLexical then .right else .left) p.words q.words ∧
      ∀ z, ((merge selector selected).waiting lex).get? z ≠
        some (selector.size + selected.size - 1)) ∨
    (r.words = p.words ∧
      ∃ z, ((merge selector selected).waiting lex).get? z =
        some (selector.size + selected.size - 1)) := by
  obtain ⟨p', q', f, features, g, rest, movers, hp', hq', -, hqf, -, hplace, -⟩ :=
    exists_of_phrase?_merge hr
  obtain rfl := Option.some.inj (hp.symm.trans hp')
  obtain rfl := Option.some.inj (hq.symm.trans hq')
  rw [waiting_merge hq, hqf, List.tail_cons]
  have hpos := selected.size_pos
  rcases Phrase.place?_eq_some_iff.mp hplace with ⟨hnil, rfl⟩ | ⟨f', rest', heq, -, -, rfl⟩
  · refine Or.inl ⟨rfl, fun z hz => ?_⟩
    simp only at hnil
    rw [hnil, fileNext_nil] at hz
    rcases waiting_unite_cases hz with hz | ⟨k, hk, heq⟩
    · have hlt := lt_of_waiting hp hz
      omega
    · have hlt := lt_of_waiting hq hk
      omega
  · refine Or.inr ⟨rfl, f'.name, ?_⟩
    simp only at heq
    rw [heq, fileNext_cons, Dict.get?_insert_self]

end merge

section move

variable {f : Feature} {m : Moved} {node : Nat} (hr : (move part).phrase? lex = some r)
  (hx : part.attracted? lex = some (f.name, m))
  (hnode : (part.waiting lex).get? f.name = some node)

include hr hx hnode

omit hr in
/-- What is attracted moves on under its next licensee, if there is one. -/
theorem waiting_move_cases (hn : ((move part).waiting lex).get? z = some n) :
    n = node ∧ m.features.tail ≠ [] ∨ z ≠ f.name ∧ (part.waiting lex).get? z = some n := by
  rw [waiting_move hx hnode] at hn
  cases htail : m.features.tail with
  | nil =>
    rw [htail, fileNext_nil] at hn
    exact Or.inr (Dict.get?_erase_eq_some_iff.mp hn)
  | cons g rest =>
    rw [htail] at hn
    rcases get?_fileNext_cases hn with hn | hn
    · exact Or.inr (Dict.get?_erase_eq_some_iff.mp hn)
    · exact Or.inl ⟨hn, by simp⟩

/-- All other movers stay where they are. -/
theorem waiting_move_of_ne (hz : z ≠ f.name) (hn : (part.waiting lex).get? z = some n) :
    ((move part).waiting lex).get? z = some n := by
  obtain ⟨q, f', features, m', hq, -, -, -, hx', hplace⟩ := exists_of_phrase?_move hr
  obtain ⟨hf, rfl⟩ := Prod.mk.inj (Option.some.inj (hx.symm.trans hx'))
  rw [waiting_move hx hnode]
  rw [← hf] at hplace
  refine get?_fileNext_of_get? hplace (contains_erase (contains_waiting hq) f.name) ?_
  rw [Dict.get?_erase_of_ne hz, hn]

/-- A mover of a movement is what is attracted, with one licensee less, or another mover of the
part. -/
theorem mover_move_cases {q : Phrase} (hq : part.phrase? lex = some q) {m' : Moved}
    (hn : ((move part).waiting lex).get? z = some n) (hm' : r.movers.get? z = some m') :
    (n = node ∧ m' = ⟨m.words, m.features.tail⟩) ∨
      z ≠ f.name ∧ (part.waiting lex).get? z = some n ∧ q.movers.get? z = some m' := by
  obtain ⟨q', f', features, m'', hq', -, -, -, hx', hplace⟩ := exists_of_phrase?_move hr
  obtain ⟨hf, rfl⟩ := Prod.mk.inj (Option.some.inj (hx.symm.trans hx'))
  obtain rfl := Option.some.inj (hq.symm.trans hq')
  rw [waiting_move hx hnode] at hn
  rw [← hf] at hplace
  rcases get?_fileNext_of_place? hplace hn hm' with ⟨rfl, rfl⟩ | ⟨hn, hm'⟩
  · exact Or.inl ⟨rfl, rfl⟩
  · obtain ⟨hz, hn⟩ := Dict.get?_erase_eq_some_iff.mp hn
    exact Or.inr ⟨hz, hn, (Dict.get?_erase_eq_some_iff.mp hm').2⟩

/-- What is attracted is pronounced on the left, or it waits to move on. -/
theorem words_move_cases {q : Phrase} (hq : part.phrase? lex = some q) :
    (r.words = m.words ++ q.words ∧ ∀ z, ((move part).waiting lex).get? z ≠ some node) ∨
      (r.words = q.words ∧ ∃ z, ((move part).waiting lex).get? z = some node) := by
  obtain ⟨q', f', features, m'', hq', -, -, -, hx', hplace⟩ := exists_of_phrase?_move hr
  obtain ⟨-, rfl⟩ := Prod.mk.inj (Option.some.inj (hx.symm.trans hx'))
  obtain rfl := Option.some.inj (hq.symm.trans hq')
  rcases Phrase.place?_eq_some_iff.mp hplace with ⟨hnil, rfl⟩ | ⟨g, rest, heq, -, -, rfl⟩
  · refine Or.inl ⟨rfl, fun z hz => ?_⟩
    rcases waiting_move_cases hx hnode hz with ⟨-, hne⟩ | ⟨hz', hn⟩
    · exact hne hnil
    · exact hz' (waiting_injective hq hn hnode)
  · refine Or.inr ⟨rfl, g.name, ?_⟩
    simp only at heq
    rw [waiting_move hx hnode, heq, fileNext_cons, Dict.get?_insert_self]

end move

end waiting

end Derivation
end MinimalistGrammar
