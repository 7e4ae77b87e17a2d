import MinimalistGrammar.Proofs.Beam.Logged
import MinimalistGrammar.Proofs.Monorail.Run

/-!
# How long logged states last

Parsers of both kinds may work on one derivation tree, one after the other, and states may be
removed in between. Whatever they do, a state that stays is the state that was logged. Its trees
change in one way only: a node that the same monorail parse raises later lands in them, too, since
the states of a sentence share their nodes. Everything else leaves them as they were.

## Main definitions

* `DerivationTree.Watched` — parsers have worked on a new tree, and what each call has shown is
  known.
* `Shown.LooksAfter` — the trees of a state look as they did first, but for some landings.

## Main results

* `DerivationTree.looks_of_watched` — what a state looks like at any time after it was logged.
-/

namespace MinimalistGrammar

/-! ### What is seen of a state later -/

namespace Shown

variable {e : Shown} {s s' : Store} {root id : ConstituentId}
  {raised : List (ConstituentId × ConstituentId)}

/-- The trees of a state look as they did when it was shown, but for some landings. -/
def LooksAfter (e : Shown) (raised : List (ConstituentId × ConstituentId)) (s : Store) : Prop :=
  ∀ root ∈ e.state.roots, s.linearize root = (e.store.landAll raised).linearize root ∧
    s.display root = (e.store.landAll raised).display root

/-- Of the trees of a state the same is seen as when it was shown, but for some landings. -/
def Sees (e : Shown) (raised : List (ConstituentId × ConstituentId)) (s : Store) : Prop :=
  ∀ root ∈ e.state.roots, ∀ id, e.store.Hangs root (.constituent id) →
    s.face? id = (e.store.landAll raised).face? id

theorem Sees.looksAfter (h : e.Sees raised s) : e.LooksAfter raised s := by
  intro root hroot
  exact ⟨Store.linearize_eq_of_face? (h root hroot), Store.display_eq_of_face? (h root hroot)⟩

/-- What hung below a root hangs below it still. -/
theorem Sees.hangs (h : e.Sees raised s) (hroot : root ∈ e.state.roots)
    (hid : e.store.Hangs root (.constituent id)) : s.Hangs root (.constituent id) := by
  have hlanded := hid.mono (e.store.keeps_landAll raised)
  refine hlanded.of_face? fun a ha => ?_
  exact h root hroot a (Store.hangs_of_hangs_landAll ha)

/-- What is seen stays if nothing below the roots is seen to change. -/
theorem Sees.congr (h : e.Sees raised s) (hsame : ∀ root ∈ e.state.roots, ∀ id,
    s.Hangs root (.constituent id) → s'.face? id = s.face? id) : e.Sees raised s' := by
  intro root hroot id hid
  rw [hsame root hroot id (h.hangs hroot hid)]
  exact h root hroot id hid

/-- Additions that are kept apart are not seen. -/
theorem Sees.of_separate (h : e.Sees raised s) (hs : s.IsClosed)
    (hroots : ∀ root ∈ e.state.roots, s.Issued (.constituent root)) (hseparate : s.Separate s') :
    e.Sees raised s' := by
  refine h.congr fun root hroot id hid => ?_
  have hissued := hs.issued_of_hangs (hroots root hroot) hid
  exact (hseparate.lands hs).face? hissued

theorem sees_of_lands (h : e.store.Lands s raised) (he : e.store.IsClosed)
    (hroots : ∀ root ∈ e.state.roots, e.store.Issued (.constituent root)) : e.Sees raised s := by
  intro root hroot id hid
  exact h.face? (he.issued_of_hangs (hroots root hroot) hid)

/-- Where no node has landed below a root, its tree looks as it did first. -/
theorem LooksAfter.unchanged (h : e.LooksAfter raised s) (hroot : root ∈ e.state.roots)
    (hnone : ∀ r ∈ raised, ¬e.store.Hangs root (.constituent r.1)) :
    s.linearize root = e.store.linearize root ∧ s.display root = e.store.display root := by
  have hface (id : ConstituentId) (hid : e.store.Hangs root (.constituent id)) :
      (e.store.landAll raised).face? id = e.store.face? id := by
    refine Store.face?_landAll_of_forall_ne ?_
    rintro r hr rfl
    exact hnone r hr hid
  obtain ⟨hwords, htext⟩ := h root hroot
  rw [hwords, htext]
  exact ⟨Store.linearize_congr hface, Store.display_congr hface⟩

end Shown

namespace DerivationTree

variable {t t' : DerivationTree} {calls : List (List Shown)} {es : List Shown}

/-! ### What each call has shown -/

/-- Parsers of any kind have worked on a new tree, in any order, and states have been removed and
the cursor has been moved in between. What each call of a parser has shown is known. -/
inductive Watched : DerivationTree → List (List Shown) → Prop
  | new : Watched {} []
  | beamStep {t : DerivationTree} {calls : List (List Shown)} {π : Type} [Probability π]
      (h : Watched t calls) (p : BeamParser π) :
      Watched (p.step t).2.1 (calls ++ [(p.step t).1.report.since p.report])
  | monorail {t : DerivationTree} {calls : List (List Shown)} (h : Watched t calls)
      (p : MonorailParser) (words : List String) :
      Watched (p.parse words t).2.1 (calls ++ [(p.parse words t).1.report.since p.report])
  | move {t t' : DerivationTree} {calls : List (List Shown)} (h : Watched t calls)
      (hmove : t.Moves t') :
      Watched t' calls
  | removeStates {t : DerivationTree} {calls : List (List Shown)} (h : Watched t calls)
      (ids : List StateId) : Watched (t.removeStates ids).1 calls

/-- What is known of the states that calls have shown, in the order of the calls. -/
structure Recalls (t : DerivationTree) (calls : List (List Shown)) : Prop extends t.IsClosed where
  listed {id : StateId} {x : SyntaxState} : t.state? id = some x →
    ∃ es ∈ calls, ∃ e ∈ es, e.state.id = id
  given {es : List Shown} {e : Shown} : es ∈ calls → e ∈ es → e.state.id.index < t.nextId
  state {es : List Shown} {e : Shown} : es ∈ calls → e ∈ es → t.contains e.state.id = true →
    t.state? e.state.id = some e.state
  /-- What is seen of a state at the later ones of the same call. -/
  within {es xs ys zs : List Shown} {e e' : Shown} : es ∈ calls → es = xs ++ e :: (ys ++ e' :: zs) →
    e.Sees (raisings (ys ++ [e'])) e'.store
  /-- What is seen of a state at those of later calls. -/
  later {before after : List (List Shown)} {xs ys es : List Shown} {e e' : Shown} :
    calls = before ++ (xs ++ e :: ys) :: after → t.contains e.state.id = true →
    es ∈ after → e' ∈ es → e.Sees (raisings ys) e'.store
  /-- What is seen of a state now. -/
  now {xs ys : List Shown} {e : Shown} : xs ++ e :: ys ∈ calls → t.contains e.state.id = true →
    e.Sees (raisings ys) t.store

theorem recalls_empty : Recalls {} [] where
  toIsClosed := isClosed_empty
  listed {id x} hx := by
    have hnone : state? {} id = none := Std.TreeMap.getElem?_emptyc
    rw [hnone] at hx
    exact absurd hx (by simp)
  given hes := absurd hes List.not_mem_nil
  state hes := absurd hes List.not_mem_nil
  within hes := absurd hes List.not_mem_nil
  later heq := absurd heq (by simp)
  now hes := absurd hes List.not_mem_nil

namespace Recalls

variable (h : t.Recalls calls)

include h

/-- Of a state the same is seen when a tree has been added apart. -/
theorem sees_of_separate {xs ys : List Shown} {e : Shown} (hes : xs ++ e :: ys ∈ calls)
    (hstays : t.contains e.state.id = true) {s : Store} (hseparate : t.store.Separate s) :
    e.Sees (raisings ys) s := by
  have hx : t.state? e.state.id = some e.state := h.state hes (by simp) hstays
  exact (h.now hes hstays).of_separate h.store (fun root hroot => h.root hx hroot) hseparate

/-- One more call has shown some states. -/
theorem logs (hlogs : t.Logs t' es) : t'.Recalls (calls ++ [es]) := by
  have hcall {es' : List Shown} (hes' : es' ∈ calls ++ [es]) : es' ∈ calls ∨ es' = es := by
    simpa using hes'
  -- a state of an earlier call that is still there was there before
  have hstill {es' : List Shown} {e : Shown} (hes' : es' ∈ calls) (he : e ∈ es') :
      t'.state? e.state.id = t.state? e.state.id := hlogs.old (h.given hes' he)
  have hcontains {es' : List Shown} {e : Shown} (hes' : es' ∈ calls) (he : e ∈ es')
      (hstays : t'.contains e.state.id = true) : t.contains e.state.id = true := by
    rw [contains_iff, ← hstill hes' he, ← contains_iff]
    exact hstays
  have hstore {e : Shown} (he : e ∈ es) :
      e.store.IsClosed := (hlogs.entryStore he).1.isClosed h.store
  refine ⟨hlogs.isClosed h.toIsClosed, ?listed, ?given, ?state, ?within, ?later, ?now⟩
  case listed =>
    intro id x hx
    by_cases hid : id.index < t.nextId
    · obtain ⟨es', hes', hentry⟩ := h.listed ((hlogs.old hid).symm.trans hx)
      exact ⟨es', List.mem_append_left _ hes', hentry⟩
    · exact ⟨es, by simp, (hlogs.new hx (Nat.not_lt.mp hid)).2⟩
  case given =>
    intro es' e hes' he
    rcases hcall hes' with hes' | rfl
    · exact Nat.lt_of_lt_of_le (h.given hes' he) hlogs.nextId
    · exact (hlogs.entry he).2.2
  case state =>
    intro es' e hes' he hstays
    rcases hcall hes' with hes' | rfl
    · rw [hstill hes' he]
      exact h.state hes' he (hcontains hes' he hstays)
    · exact (hlogs.entry he).1
  case within =>
    intro es' xs ys zs e e' hes' heq
    rcases hcall hes' with hes' | rfl
    · exact h.within hes' heq
    · subst heq
      have he : e ∈ xs ++ e :: (ys ++ e' :: zs) := by simp
      exact Shown.sees_of_lands (lands_of_isChain hlogs.chain) (hstore he) (hlogs.entryStore he).2
  case later =>
    intro before after xs ys es' e e' heq hstays hes' he'
    rcases List.eq_nil_or_concat' after with rfl | ⟨after, last, rfl⟩
    · exact absurd hes' List.not_mem_nil
    · rw [← List.cons_append, ← List.append_assoc] at heq
      obtain ⟨rfl, hlast⟩ := List.append_inj' heq rfl
      obtain rfl := List.singleton_inj.mp hlast
      have hearlier : xs ++ e :: ys ∈ before ++ (xs ++ e :: ys) :: after := by simp
      have hstays' := hcontains hearlier (by simp) hstays
      rcases List.mem_append.mp hes' with hes' | hes'
      · exact h.later rfl hstays' hes' he'
      · obtain rfl := List.mem_singleton.mp hes'
        exact h.sees_of_separate hearlier hstays' (hlogs.entryStore he').1
  case now =>
    intro xs ys e hes' hstays
    rcases hcall hes' with hes' | rfl
    · exact h.sees_of_separate hes' (hcontains hes' (by simp) hstays) hlogs.separate
    · have he : e ∈ xs ++ e :: ys := by simp
      exact Shown.sees_of_lands hlogs.lands (hstore he) (hlogs.entryStore he).2

/-- States have been removed. -/
theorem removeStates (ids : List StateId) : (t.removeStates ids).1.Recalls calls := by
  have hcontains {id : StateId} (hstays : (t.removeStates ids).1.contains id = true) :
      t.contains id = true := by
    obtain ⟨x, hx⟩ := contains_iff.mp hstays
    exact contains_iff.mpr ⟨x, of_state?_removeStates hx⟩
  have hstate {es : List Shown} {e : Shown} (hes : es ∈ calls) (he : e ∈ es)
      (hstays : (t.removeStates ids).1.contains e.state.id = true) :
      (t.removeStates ids).1.state? e.state.id = some e.state := by
    obtain ⟨x, hx⟩ := contains_iff.mp hstays
    have hsame := h.state hes he (hcontains hstays)
    rw [of_state?_removeStates hx] at hsame
    rw [hx, hsame]
  refine ⟨h.toIsClosed.removeStates ids, fun hx => h.listed (of_state?_removeStates hx),
    fun hes he => ?_, hstate, h.within, fun heq hstays => h.later heq (hcontains hstays),
    fun {xs ys e} hes hstays => ?_⟩
  · rw [nextId_removeStates]
    exact h.given hes he
  · have hx := hstate hes (by simp) hstays
    refine (h.now hes (hcontains hstays)).congr fun root hroot id hid => ?_
    exact face?_removeStates hx hroot hid

/-- The cursor has been moved. -/
theorem congr (hsame : t.SameStates t') : t'.Recalls calls := by
  have hclosed := h.toIsClosed.congr hsame
  obtain ⟨hstore, hstates, hnextId⟩ := hsame
  have hstate (id : StateId) : t'.state? id = t.state? id := by rw [state?, hstates, state?]
  have hcontains (id : StateId) : t'.contains id = t.contains id := by
    rw [contains, hstates, contains]
  refine ⟨hclosed, fun hx => h.listed (hstate _ ▸ hx), fun hes he => hnextId ▸ h.given hes he,
    fun {es e} hes he hstays => ?_, h.within, fun heq hstays => h.later heq (hcontains _ ▸ hstays),
    fun hes hstays => hstore ▸ h.now hes (hcontains _ ▸ hstays)⟩
  rw [hstate]
  exact h.state hes he (hcontains _ ▸ hstays)

end Recalls

theorem Watched.recalls (h : Watched t calls) : t.Recalls calls := by
  induction h with
  | new => exact recalls_empty
  | beamStep _ p ih =>
    rcases p.step_logs ih.toIsClosed with ⟨es, hlogs, hsince, -⟩ | ⟨ids, htree, hsince⟩
    · rw [hsince]
      exact ih.logs hlogs
    · have hrest := ih.removeStates ids
      rw [hsince, htree]
      exact hrest.logs (.refl hrest.toIsClosed)
  | monorail _ p words ih =>
    obtain ⟨es, hlogs, hsince⟩ := p.exists_logs_parse words ih.toIsClosed
    rw [hsince]
    exact ih.logs hlogs
  | move _ hmove ih => exact ih.congr hmove.sameStates
  | removeStates _ ids ih => exact ih.removeStates ids

/-- Whatever parsers have done on a new tree, every state of the tree was shown by one of their
calls, and as long as it stays it is the state that was shown. Its trees look as they did then, but
for the nodes that states of the same call show to be raised later: these nodes have landed, whether
they are seen at a later state of the call, at a state of a later call, or now. So a tree in which
no node is raised later looks as it did first. A step of the beam parser shows one state at most. -/
theorem looks_of_watched (h : Watched t calls) :
    (∀ id x, t.state? id = some x → ∃ es ∈ calls, ∃ e ∈ es, e.state.id = id) ∧
      (∀ before xs e ys after, calls = before ++ (xs ++ e :: ys) :: after →
        t.contains e.state.id = true → t.state? e.state.id = some e.state ∧
          (∀ ys₁ e' ys₂, ys = ys₁ ++ e' :: ys₂ → e.LooksAfter (raisings (ys₁ ++ [e'])) e'.store) ∧
          (∀ es ∈ after, ∀ e' ∈ es, e.LooksAfter (raisings ys) e'.store) ∧
          e.LooksAfter (raisings ys) t.store ∧
          ∀ root ∈ e.state.roots, (∀ r ∈ raisings ys, ¬e.store.Hangs root (.constituent r.1)) →
            t.store.linearize root = e.store.linearize root ∧
              t.store.display root = e.store.display root) ∧
      ∀ (π : Type) [Probability π] (p : BeamParser π),
      ((p.step t).1.report.since p.report).length ≤ 1 := by
  have hrecalls := h.recalls
  refine ⟨fun id x hx => hrecalls.listed hx, fun before xs e ys after heq hstays => ?_,
    fun π _ p => ?_⟩
  · have hes : xs ++ e :: ys ∈ calls := by simp [heq]
    have hlooks := (hrecalls.now hes hstays).looksAfter
    refine ⟨hrecalls.state hes (by simp) hstays, ?_, ?_, hlooks,
      fun root hroot => hlooks.unchanged hroot⟩
    · rintro ys₁ e' ys₂ rfl
      exact (hrecalls.within hes rfl).looksAfter
    · intro es hes' e' he'
      exact (hrecalls.later heq hstays hes' he').looksAfter
  · rcases p.step_logs hrecalls.toIsClosed with ⟨es, -, hsince, hlength⟩ | ⟨ids, -, hsince⟩
    · rw [hsince]
      exact hlength
    · rw [hsince]
      exact Nat.zero_le _

/-- A parser whose second word attracts the first one. -/
def attraction : MonorailParser where
  words :=
    Dict.ofList [("a", [.categorial "e", .licensee "b"]), ("c", [.selector "e", .categorial "b"])]

/-- The state of the second word shows the first one below it. Then the first word is raised, and
from then on the same state shows it no more. -/
theorem looks_of_watched_attraction :
    let t := (attraction.parse ["a", "c"] {}).2.1
    let es := (attraction.parse ["a", "c"] {}).1.report.since attraction.report
    ∃ e ∈ es, t.state? e.state.id = some e.state ∧ ⟨4⟩ ∈ e.state.roots ∧
      e.store.linearize ⟨4⟩ = ["c", "a"] ∧ t.store.linearize ⟨4⟩ = ["c"] := by
  intro t es
  let e := es.get ⟨1, by decide +kernel⟩
  have hes : es = es.take 1 ++ e :: es.drop 2 := by
    have hdrop : es.drop 1 = e :: es.drop 2 := List.drop_eq_getElem_cons _
    rw [← hdrop, List.take_append_drop]
  have hroot : ⟨4⟩ ∈ e.state.roots := by decide +kernel
  have hwatched : Watched t ([] ++ [es]) := Watched.new.monorail attraction ["a", "c"]
  obtain ⟨-, hlooks, -⟩ := looks_of_watched hwatched
  obtain ⟨hstate, -, -, hnow, -⟩ := hlooks [] (es.take 1) e (es.drop 2) [] (by rw [← hes])
    (by decide +kernel)
  refine ⟨e, List.get_mem .., hstate, hroot, by decide +kernel, ?_⟩
  rw [(hnow ⟨4⟩ hroot).1]
  decide +kernel

end DerivationTree
end MinimalistGrammar
