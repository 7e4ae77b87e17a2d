import Mathlib.Data.List.Chain
import MinimalistGrammar.Proofs.Derivation.Closed
import MinimalistGrammar.Proofs.Tree.Landing
import MinimalistGrammar.Report

/-!
# What a parser logs

A parser adds states one after the other. From one of them to the next the trees grow and some nodes
land, and nothing else is seen to change. Everything that was in the store before the parser began
stays as it was.

## Main definitions

* `Report.since` — what has been shown since an earlier report.
* `Shown.raising?`, `raisings` — the nodes that states show to be raised.
* `DerivationTree.Logs` — a parser has added states to a tree.

## Main results

* `DerivationTree.Logs.addStep` — one more state.
* `DerivationTree.Logs.lands` — what is seen of a state at a later one.
-/

namespace MinimalistGrammar

/-- The states that have been shown since an earlier report. -/
def Report.since (now earlier : Report) : List Shown := now.shown.toList.drop earlier.shown.size

theorem Report.since_eq {now earlier : Report} {es : List Shown}
    (h : now.shown.toList = earlier.shown.toList ++ es) : now.since earlier = es := by
  rw [since, h, ← Array.length_toList, List.drop_left]

/-- The node that a state shows to be raised, with the node below which it lands: an internal merge
puts the raised node on the left below a new root. -/
def Shown.raising? (e : Shown) : Option (ConstituentId × ConstituentId) :=
  if e.state.type = .internalMerge then
    e.state.roots.head?.bind fun top =>
      ((e.store.outline? top).bind (·.parts.head?)).map fun node => (node, top)
  else none

/-- The nodes that some states show to be raised, in order, with the nodes below which they land. -/
def raisings (es : List Shown) : List (ConstituentId × ConstituentId) := es.filterMap Shown.raising?

theorem raisings_append (es es' : List Shown) :
    raisings (es ++ es') = raisings es ++ raisings es' :=
  List.filterMap_append ..

theorem raisings_singleton (e : Shown) : raisings [e] = e.raising?.toList := by
  rw [raisings, List.filterMap_cons]
  cases e.raising? <;> rfl

namespace DerivationTree

variable {t t' : DerivationTree} {es : List Shown} {e : Shown} {s : Store} {step : Step}
  {parent : Option StateId}

/-- A parser that began with the tree `t` has added some states to it. -/
structure Logs (t t' : DerivationTree) (es : List Shown) : Prop where
  separate : t.store.Separate t'.store
  nextId : t.nextId ≤ t'.nextId
  old {id : StateId} : id.index < t.nextId → t'.state? id = t.state? id
  new {id : StateId} {x : SyntaxState} : t'.state? id = some x → t.nextId ≤ id.index →
    id.index < t'.nextId ∧ ∃ e ∈ es, e.state.id = id
  entry {e : Shown} : e ∈ es → t'.state? e.state.id = some e.state ∧ t.nextId ≤ e.state.id.index ∧
    e.state.id.index < t'.nextId
  entryStore {e : Shown} : e ∈ es → t.store.Separate e.store ∧
    ∀ root ∈ e.state.roots, e.store.Issued (.constituent root)
  /-- From one state to the next only the node lands that the next one shows to be raised. -/
  chain : es.IsChain fun e e' => e.store.Lands e'.store (raisings [e'])
  /-- Since the last state nothing has landed. -/
  last {e : Shown} : e ∈ es.getLast? → e.store.Lands t'.store []

theorem Logs.refl (ht : t.IsClosed) : t.Logs t [] where
  separate := .refl ht.store.toIsNumbered
  nextId := Nat.le_refl _
  old _ := rfl
  new hx hle := absurd (ht.id_lt hx) (Nat.not_lt.mpr hle)
  entry he := absurd he List.not_mem_nil
  entryStore he := absurd he List.not_mem_nil
  chain := .nil
  last he := absurd he (by simp)

/-- The entry of a new state. -/
def newEntry (t : DerivationTree) (s : Store) (step : Step) (parent : Option StateId) : Shown where
  state := { step with id := ⟨t.nextId⟩, parent := parent.filter t.contains }
  store := s

theorem state?_newEntry (t : DerivationTree) (s : Store) (step : Step) (parent : Option StateId) :
    ({ t with store := s }.addStep step parent).1.state? ⟨t.nextId⟩ =
      some (t.newEntry s step parent).state :=
  (state?_addStep { t with store := s } step parent ⟨t.nextId⟩).trans (if_pos rfl)

/-- What the entry of a new state shows to be raised. -/
theorem raising?_newEntry {top : ConstituentId} (hroots : step.roots = [top]) :
    (t.newEntry s step parent).raising? = if step.type = .internalMerge then
      ((s.outline? top).bind (·.parts.head?)).map fun node => (node, top) else none := by
  rw [Shown.raising?, newEntry, hroots]
  rfl

/-- The new state is shown. -/
theorem shown_present_addStep (r : Report) (t : DerivationTree) (s : Store) (step : Step)
    (parent : Option StateId) :
    (r.present ({ t with store := s }.addStep step parent).1).shown =
      r.shown.push (t.newEntry s step parent) := by
  have hcurrent : ({ t with store := s }.addStep step parent).1.currentState? =
      some (t.newEntry s step parent).state := t.state?_newEntry s step parent
  rw [Report.present, hcurrent]
  rfl

/-- One more state is added, and the node that it shows to be raised is the only one that lands. -/
theorem Logs.addStep (h : t.Logs t' es) (hseparate : t.store.Separate s)
    (hroots : ∀ root ∈ step.roots, s.Issued (.constituent root))
    (hlands : ∀ e ∈ es.getLast?, e.store.Lands s (raisings [t'.newEntry s step parent])) :
    t.Logs ({ t' with store := s }.addStep step parent).1 (es ++ [t'.newEntry s step parent]) := by
  have hstate := state?_addStep { t' with store := s } step parent
  -- the new state has a number of its own, so no other state changes
  have hother {id : StateId} (hid : id.index < t'.nextId) :
      ({ t' with store := s }.addStep step parent).1.state? id = t'.state? id := by
    refine state?_addStep_of_ne ?_
    rintro rfl
    exact Nat.lt_irrefl _ hid
  have hmem {e : Shown} (he : e ∈ es ++ [t'.newEntry s step parent]) :
      e ∈ es ∨ e = t'.newEntry s step parent := by simpa using he
  refine ⟨hseparate, Nat.le_succ_of_le h.nextId, ?old, ?new, ?entry, ?entryStore, ?chain, ?last⟩
  case old =>
    intro id hid
    rw [hother (Nat.lt_of_lt_of_le hid h.nextId), h.old hid]
  case new =>
    intro id x hx hle
    rw [hstate] at hx
    split at hx
    · next heq =>
      subst heq
      exact ⟨Nat.lt_succ_self _, _, List.mem_append_right _ (List.mem_singleton_self _), rfl⟩
    · obtain ⟨hlt, e, he, hid⟩ := h.new hx hle
      exact ⟨Nat.lt_succ_of_lt hlt, e, List.mem_append_left _ he, hid⟩
  case entry =>
    intro e he
    rcases hmem he with he | rfl
    · obtain ⟨hentry, hle, hlt⟩ := h.entry he
      exact ⟨(hother hlt).trans hentry, hle, Nat.lt_succ_of_lt hlt⟩
    · exact ⟨t'.state?_newEntry s step parent, h.nextId, Nat.lt_succ_self _⟩
  case entryStore =>
    intro e he
    rcases hmem he with he | rfl
    · exact h.entryStore he
    · exact ⟨hseparate, hroots⟩
  case chain =>
    refine List.isChain_append.mpr ⟨h.chain, .singleton _, fun e he e' he' => ?_⟩
    obtain rfl := Option.some.inj he'
    exact hlands e he
  case last =>
    intro e he
    rw [List.getLast?_concat] at he
    obtain rfl := Option.some.inj he
    exact .refl s

/-- What is seen of a state at a later one: what was raised in between has landed. -/
theorem lands_of_isChain {xs ys zs : List Shown} {e e' : Shown}
    (h : (xs ++ e :: (ys ++ e' :: zs)).IsChain fun e e' => e.store.Lands e'.store (raisings [e'])) :
    e.store.Lands e'.store (raisings (ys ++ [e'])) := by
  have hchain := (List.isChain_split.mp h).2
  clear h
  induction ys generalizing e with
  | nil => exact (List.isChain_cons_cons.mp hchain).1
  | cons y ys ih =>
    obtain ⟨hfirst, hrest⟩ := List.isChain_cons_cons.mp hchain
    have hlands := hfirst.trans (ih hrest)
    rwa [← raisings_append] at hlands

/-- What is seen of a state in the end: what was raised since has landed. -/
theorem Logs.lands {xs ys : List Shown} (h : t.Logs t' (xs ++ e :: ys)) :
    e.store.Lands t'.store (raisings ys) := by
  rcases List.eq_nil_or_concat' ys with rfl | ⟨ys, e', rfl⟩
  · refine h.last ?_
    rw [List.getLast?_concat]
    rfl
  · have hlast : e'.store.Lands t'.store [] := by
      refine h.last ?_
      rw [← List.cons_append, ← List.append_assoc, List.getLast?_concat]
      rfl
    have hchain : (xs ++ e :: (ys ++ e' :: [])).IsChain
        fun e e' => e.store.Lands e'.store (raisings [e']) := h.chain
    have hlands := (lands_of_isChain hchain).trans hlast
    rwa [List.append_nil] at hlands

/-- Everything has a number still. -/
theorem Logs.isClosed (h : t.Logs t' es) (ht : t.IsClosed) : t'.IsClosed := by
  refine ⟨h.separate.isClosed ht.store, fun {id x} hx => ?_, fun {id x c} hx hc => ?_⟩
  · by_cases hid : id.index < t.nextId
    · rw [h.old hid] at hx
      exact Nat.lt_of_lt_of_le (ht.id_lt hx) h.nextId
    · exact (h.new hx (Nat.not_lt.mp hid)).1
  · by_cases hid : id.index < t.nextId
    · rw [h.old hid] at hx
      exact h.separate.issued_of_issued (ht.root hx hc)
    · obtain ⟨-, e, he, rfl⟩ := h.new hx (Nat.not_lt.mp hid)
      obtain rfl := Option.some.inj ((h.entry he).1.symm.trans hx)
      obtain ⟨xs, ys, rfl⟩ := List.append_of_mem he
      exact Nat.lt_of_lt_of_le ((h.entryStore he).2 c hc) h.lands.nextConstituent

end DerivationTree
end MinimalistGrammar
