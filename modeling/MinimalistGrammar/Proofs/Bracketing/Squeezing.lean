import Mathlib.Logic.Relation
import MinimalistGrammar.Proofs.Bracketing.Reading
import MinimalistGrammar.Proofs.Text.Fields

/-!
# What the shape of a bracketing leaves out

Silent words, empty nodes, labels and brackets around a single part can be put into a bracketing or
taken away anywhere, and its shape stays the same. Nothing else can: two legible bracketings with
one shape come from each other by such changes, since both can be brought into the form that the
shape itself has as a bracketing.

## Main definitions

* `Bracketing.Edit` — one silent word, empty node, label or needless bracket is put in.
* `Bracketing.Alike` — any number of edits, forth and back.
* `Shape.words` — the words of a shape.
* `Shape.bracketing` — a shape as a bracketing.

## Main results

* `Bracketing.words_shape` — the words of a legible bracketing are those of its shape.
* `Bracketing.shape_eq_iff_alike` — legible bracketings have one shape exactly if they are alike.
-/

namespace MinimalistGrammar

/-! ### Words of a shape -/

namespace Shape

mutual

/-- The words of a shape, left to right. -/
def words : Shape → List String
  | word w => [w]
  | node parts => wordsOfParts parts

/-- The words of some shapes, side by side. -/
def wordsOfParts : List Shape → List String
  | [] => []
  | p :: ps => p.words ++ wordsOfParts ps

end

theorem wordsOfParts_eq (ps : List Shape) : wordsOfParts ps = ps.flatMap words := by
  induction ps with
  | nil => rfl
  | cons p ps ih => rw [wordsOfParts, ih, List.flatMap_cons]

/-- The words of what may be a shape; where there is none, there are no words. -/
def wordsOf? (p : Option Shape) : List String := p.elim [] words

/-- Brackets add no words, and none are left out. -/
theorem wordsOf?_around (ps : List Shape) : wordsOf? (around ps) = ps.flatMap words := by
  match ps with
  | [] => rfl
  | [p] => simp [around, wordsOf?]
  | p :: q :: ps => exact wordsOfParts_eq (p :: q :: ps)

theorem flatMap_words_toList (p : Option Shape) : p.toList.flatMap words = wordsOf? p := by
  cases p with
  | none => rfl
  | some p => exact List.append_nil _

/-- The words of the shape of a word are its tokens. -/
theorem wordsOf?_ofWord (w : String) : wordsOf? (ofWord w) = tokens w := by
  have hwords : ∀ ws : List String, (ws.map word).flatMap words = ws := by
    intro ws
    induction ws with
    | nil => rfl
    | cons w ws ih => rw [List.map_cons, List.flatMap_cons, ih]; rfl
  rw [ofWord, wordsOf?_around, hwords]

theorem ofWord_of_isSilent {w : String} (h : isSilent w = true) : ofWord w = none := by
  rw [ofWord, tokens_of_isSilent h]
  rfl

/-- A shape as a bracketing. -/
def bracketing : Shape → Bracketing
  | word w => .word w
  | node parts => .node none (parts.map bracketing)

end Shape

theorem IsRunWord.isToken {w : String} (h : IsRunWord w) : Text.IsToken w.toList :=
  ⟨h.1, fun c hc => (isWordPiece_iff.mp (h.2 c hc)).1⟩

/-- A word without blanks has itself as its shape, unless it is silent. -/
theorem IsRunWord.ofWord_eq {w : String} (h : IsRunWord w) :
    Shape.ofWord w = if isSilent w then none else some (.word w) := by
  rw [Shape.ofWord, tokens_of_isToken h.isToken]
  split <;> rfl

namespace Bracketing

theorem shapes_append (ps qs : List Bracketing) : shapes (ps ++ qs) = shapes ps ++ shapes qs := by
  induction ps with
  | nil => rfl
  | cons p ps ih => rw [List.cons_append, shapes, ih, shapes, List.append_assoc]

mutual

/-- The words of a legible bracketing are those of its shape. -/
theorem words_shape (b : Bracketing) (h : b.IsLegible) : Shape.wordsOf? b.shape = b.yield := by
  cases b with
  | word w =>
    have hw : IsRunWord w := h
    rw [shape, Shape.wordsOf?_ofWord, tokens_of_isToken hw.isToken, yield]
  | node label parts => rw [shape, Shape.wordsOf?_around, words_shapes parts h.2, yield]

theorem words_shapes (ps : List Bracketing) (h : AreLegible ps) :
    (shapes ps).flatMap Shape.words = yieldParts ps := by
  cases ps with
  | nil => rfl
  | cons p ps =>
    rw [shapes, List.flatMap_append, Shape.flatMap_words_toList, words_shape p h.1,
      words_shapes ps h.2, yieldParts]

end

/-! ### Edits -/

/-- One silent word, empty node or needless bracket is put in, or a label is changed. -/
inductive Edit : Bracketing → Bracketing → Prop
  | silentWord (label : Option String) (before after : List Bracketing) {w : String}
      (hw : isSilent w = true) :
      Edit (node label (before ++ after)) (node label (before ++ word w :: after))
  | emptyNode (label inner : Option String) (before after : List Bracketing) :
      Edit (node label (before ++ after)) (node label (before ++ node inner [] :: after))
  | label (old new : Option String) (parts : List Bracketing) :
      Edit (node old parts) (node new parts)
  | bracket (label : Option String) (b : Bracketing) : Edit b (node label [b])
  | within (label : Option String) (before after : List Bracketing) {b b' : Bracketing}
      (h : Edit b b') :
      Edit (node label (before ++ b :: after)) (node label (before ++ b' :: after))

/-- Any number of edits, forth and back. -/
def Alike : Bracketing → Bracketing → Prop := Relation.EqvGen Edit

namespace Alike

variable {b b' b'' : Bracketing}

theorem refl (b : Bracketing) : Alike b b := Relation.EqvGen.refl b

theorem of_edit (h : Edit b b') : Alike b b' := Relation.EqvGen.rel b b' h

theorem symm (h : Alike b b') : Alike b' b := Relation.EqvGen.symm b b' h

theorem trans (h : Alike b b') (h' : Alike b' b'') : Alike b b'' :=
  Relation.EqvGen.trans b b' b'' h h'

/-- What is alike may replace each other as a part. -/
theorem within (label : Option String) (before after : List Bracketing) (h : Alike b b') :
    Alike (node label (before ++ b :: after)) (node label (before ++ b' :: after)) := by
  induction h with
  | rel b b' hedit => exact of_edit (.within label before after hedit)
  | refl b => exact refl _
  | symm b b' _ ih => exact ih.symm
  | trans b b' b'' _ _ ih ih' => exact ih.trans ih'

end Alike

/-- An edit leaves the shape as it is. -/
theorem Edit.shape_eq {b b' : Bracketing} (h : Edit b b') : b'.shape = b.shape := by
  induction h with
  | silentWord label before after hw =>
    have hword : (word _).shape = none := Shape.ofWord_of_isSilent hw
    rw [shape, shape, shapes_append, shapes_append, shapes, hword]
    rfl
  | emptyNode label inner before after =>
    have hnode : (node inner []).shape = none := rfl
    rw [shape, shape, shapes_append, shapes_append, shapes, hnode]
    rfl
  | label old new parts => rfl
  | bracket label b =>
    rw [shape, shapes, shapes, List.append_nil]
    cases b.shape <;> rfl
  | within label before after _ ih =>
    rw [shape, shape, shapes_append, shapes_append, shapes, shapes, ih]

theorem Alike.shape_eq {b b' : Bracketing} (h : Alike b b') : b'.shape = b.shape := by
  induction h with
  | rel b b' hedit => exact hedit.shape_eq
  | refl b => rfl
  | symm b b' _ ih => exact ih.symm
  | trans b b' b'' _ _ ih ih' => exact ih'.trans ih

/-! ### The bracketing of a shape -/

/-- The bracketing that the shape of a bracketing is; an empty node where there is none. -/
def squeezed (b : Bracketing) : Bracketing := b.shape.elim (node none []) Shape.bracketing

/-- A node around the parts that are left is the bracketing of the shape around them. -/
theorem alike_around (ps : List Shape) :
    Alike (node none (ps.map Shape.bracketing))
      ((Shape.around ps).elim (node none []) Shape.bracketing) := by
  match ps with
  | [] => exact .refl _
  | [p] => exact (Alike.of_edit (.bracket none p.bracketing)).symm
  | p :: q :: ps =>
    rw [Shape.around, Option.elim_some, Shape.bracketing]
    exact .refl _

mutual

/-- A legible bracketing is alike to the one that its shape is. -/
theorem alike_squeezed (b : Bracketing) (h : b.IsLegible) : Alike b b.squeezed := by
  cases b with
  | word w =>
    have hw : IsRunWord w := h
    rw [squeezed, shape, hw.ofWord_eq]
    split
    · next hsilent =>
      exact (Alike.of_edit (.bracket none (word w))).trans
        (Alike.of_edit (.silentWord none [] [] hsilent)).symm
    · rw [Option.elim_some, Shape.bracketing]
      exact .refl _
  | node label parts =>
    have hlabel : Alike (node label parts) (node none parts) := .of_edit (.label label none parts)
    have hparts := alike_squeezedParts [] parts h.2
    rw [squeezed, shape]
    exact (hlabel.trans hparts).trans (alike_around (shapes parts))

/-- The parts that have no shape can be taken away, and the others squeezed. -/
theorem alike_squeezedParts (before ps : List Bracketing) (h : AreLegible ps) :
    Alike (node none (before ++ ps)) (node none (before ++ (shapes ps).map Shape.bracketing)) := by
  cases ps with
  | nil => exact .refl _
  | cons p ps =>
    have hp := (alike_squeezed p h.1).within none before ps
    rw [squeezed] at hp
    rw [shapes]
    cases hshape : p.shape with
    | none =>
      rw [hshape] at hp
      have hempty := Alike.of_edit (.emptyNode none none before ps)
      exact (hp.trans hempty.symm).trans (alike_squeezedParts before ps h.2)
    | some q =>
      rw [hshape] at hp
      have hps := alike_squeezedParts (before ++ [q.bracketing]) ps h.2
      simp only [List.append_assoc, List.singleton_append] at hps
      exact hp.trans hps

end

/-- Legible bracketings have one shape exactly if they are alike. -/
theorem shape_eq_iff_alike {b b' : Bracketing} (h : b.IsLegible) (h' : b'.IsLegible) :
    b'.shape = b.shape ↔ Alike b b' := by
  refine ⟨fun hshape => ?_, Alike.shape_eq⟩
  have hsqueezed : b'.squeezed = b.squeezed := by rw [squeezed, squeezed, hshape]
  exact (hsqueezed ▸ alike_squeezed b h).trans (alike_squeezed b' h').symm

end Bracketing
end MinimalistGrammar
