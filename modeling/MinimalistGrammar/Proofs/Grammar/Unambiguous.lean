import MinimalistGrammar.Proofs.Grammar.Rules

/-!
# One expansion for a derivation

A derivation that fits a prediction says which expansion it matches: its active word or feature is
the target, its first part tells whether the head is a word, and the phrase that is taken or
attracted is known by what is left of its features. No two expansions in the list agree in all of
this.

## Main definitions

* `Expansion.signature` — the target, the kind of head, and the active node of the other phrase.

## Main results

* `Category.pairwise_expansions` — no derivation matches two expansions of a prediction.
-/

namespace MinimalistGrammar

/-- The target of an expansion, the frontier of its head, and the active node of the phrase that is
taken or attracted. -/
def Expansion.signature (lex : Lexicon) : Expansion → Nat × Frontier × Option Nat
  | .scan leaf _ _ => (leaf, .leaves, none)
  | .predict _ [part] =>
    (part.node, part.frontier,
      (lex.feature? part.node).bind fun f => (part.movers.get? f.name).map Mover.node)
  | .predict _ (head :: other :: _) => (head.node, head.frontier, some other.node)
  | .predict _ [] => (0, .all, none)

namespace Category

section unambiguous

variable {lex : Lexicon} {c : Category} {input : List String} {e e' : Expansion} {d : Derivation}
  {target target' : Nat}

/-! ### A derivation tells the signature -/

theorem fst_signature (he : c.Expands lex input target e) : (e.signature lex).1 = target := by
  cases he <;> rfl

/-- The kind of phrase that is the head tells the frontier. -/
theorem Takes.frontier_eq {s s' : Nat} {others others' : Dict String Mover} {sign : Sign}
    {side side' : Branch} {frontier frontier' : Frontier}
    {mHead mOther mHead' mOther' : Dict String Mover}
    (h : Takes lex s others sign side frontier mHead mOther)
    (h' : Takes lex s' others' sign side' frontier' mHead' mOther') {isLexical : Bool}
    (ha : frontier.Admits isLexical) (ha' : frontier'.Admits isLexical) : frontier = frontier' := by
  cases h <;> cases h' <;> simp_all [Frontier.Admits]

theorem signature_move {rule : Rule} {s : Nat} {f f' : Feature} {iHead iOther : Address}
    {others : Dict String Mover} {moving : Dict String (List Feature)}
    (hf : lex.feature? target = some f) :
    Expansion.signature lex (.predict rule
      [c.projecting target .all iHead f' (others.insert f.name ⟨s, iOther⟩) moving]) =
      (target, .all, some s) := by
  have hs : (lex.feature? target).bind (fun f₁ => ((others.insert f.name
      ⟨s, iOther⟩).get? f₁.name).map Mover.node) = some s := by
    rw [hf, Option.bind_some, Dict.get?_insert_self, Option.map_some]
  exact congrArg (fun x => (target, Frontier.all, x)) hs

/-- Expansions that a derivation matches have one signature. -/
theorem signature_eq (hlex : lex.WellFormed) (he : c.Expands lex input target e)
    (he' : c.Expands lex input target' e') (hd : e.Matches lex d) (hd' : e'.Matches lex d) :
    e.signature lex = e'.signature lex := by
  -- a node is known by what is left of the phrase that it stands for
  have hnode {p : Phrase} {i j : Nat} {f g : Feature} (hi : lex.feature? i = some f)
      (hj : lex.feature? j = some g) (hpi : p.features = lex.featuresOf i)
      (hpj : p.features = lex.featuresOf j) : i = j :=
    hlex.eq_of_featuresOf (by simp [hi]) (by simp [hj]) (hpi.symm.trans hpj)
  cases d with
  | word leaf =>
    cases he with
    | scan hparent hadmits hword hmovers hinput =>
      cases he' with
      | scan =>
        obtain rfl : leaf = target := hd
        obtain rfl : leaf = target' := hd'
        rfl
      | move => exact hd'.elim
      | merge => exact hd'.elim
    | move => exact hd.elim
    | merge => exact hd.elim
  | move part =>
    cases he with
    | scan => exact hd.elim
    | @move _ s f _ _ _ _ _ _ _ _ hf _ hs _ _ _ =>
      cases he' with
      | scan => exact hd'.elim
      | @move _ s' _ _ _ _ _ _ _ _ _ hf' _ hs' _ _ _ =>
        obtain ⟨p, hp, hpredicts⟩ := hd
        obtain ⟨p', hp', hpredicts'⟩ := hd'
        obtain rfl : p = p' := Option.some.inj (hp.symm.trans hp')
        obtain rfl : target = target' := hnode hf hf' hpredicts.features hpredicts'.features
        obtain rfl := Option.some.inj (hf.symm.trans hf')
        -- the movers under the name of the licensor have the same features
        have hget := congrArg (Dict.get? · f.name) (hpredicts.movers.symm.trans hpredicts'.movers)
        simp only [projecting, Dict.get?_map, Dict.get?_insert_self, Option.map_some,
          Option.some.injEq, Mover.remaining] at hget
        have hs'' : s = s' := hlex.eq_of_featuresOf (by simp [hs]) (by simp [hs']) hget
        rw [signature_move hf, signature_move hf, hs'']
      | merge => exact hd'.elim
    | merge => exact hd.elim
  | merge selector selected =>
    cases he with
    | scan => exact hd.elim
    | move => exact hd.elim
    | @merge _ s _ _ _ _ _ _ _ _ _ _ _ _ _ _ _ _ hf hsign hs _ htakes _ =>
      cases he' with
      | scan => exact hd'.elim
      | move => exact hd'.elim
      | @merge _ s' _ _ _ _ _ _ _ _ _ _ _ _ _ _ _ _ hf' hsign' hs' _ htakes' _ =>
        obtain ⟨⟨p, hp, hpredicts⟩, q, hq, hqpredicts⟩ := hd
        obtain ⟨⟨p', hp', hpredicts'⟩, q', hq', hqpredicts'⟩ := hd'
        obtain rfl : p = p' := Option.some.inj (hp.symm.trans hp')
        obtain rfl : q = q' := Option.some.inj (hq.symm.trans hq')
        obtain rfl : target = target' := hnode hf hf' hpredicts.features hpredicts'.features
        obtain rfl : s = s' := hnode hs hs' hqpredicts.features hqpredicts'.features
        obtain rfl := Option.some.inj (hf.symm.trans hf')
        obtain rfl := hsign.symm.trans hsign'
        obtain rfl := htakes.frontier_eq htakes' hpredicts.frontier hpredicts'.frontier
        rfl

/-! ### No two expansions have the same signature -/

section signatures

variable {x : String}

theorem pairwise_toList_map {α β : Type} {R : β → β → Prop} (o : Option α) (f : α → β) :
    (o.toList.map f).Pairwise R := by
  cases o <;> simp

/-- The items for different movers come from different nodes. -/
theorem pairwise_flatMap_movers (hlex : lex.WellFormed) (hc : c.IsAnchored lex) (f : Feature)
    {entries : List (String × Mover)} (hentries : entries.Sublist c.movers.entries)
    {make : String → Mover → Nat → Expansion} {items : String × Mover → List Expansion}
    (hitems : ∀ z m, items (z, m) = (lex.childWith? m.node f).toList.map (make z m))
    (hmake : ∀ z m s, ((make z m s).signature lex).2.2 = some s) :
    (entries.flatMap items).Pairwise fun e e' => e.signature lex ≠ e'.signature lex := by
  refine List.pairwise_flatMap.mpr ⟨fun y _ => ?_, ?_⟩
  · rw [show y = (y.1, y.2) from rfl, hitems]
    exact pairwise_toList_map ..
  · refine List.Pairwise.imp_of_mem ?_ (c.movers.increasing.sublist hentries)
    rintro ⟨z, m⟩ ⟨z', m'⟩ hm hm' hlt e he e' he' heq
    rw [hitems] at he he'
    obtain ⟨s, hs, rfl⟩ := List.mem_map.mp he
    obtain ⟨s', hs', rfl⟩ := List.mem_map.mp he'
    have hss' := congrArg (·.2.2) heq
    simp only [hmake, Option.some.injEq] at hss'
    subst hss'
    -- one node has one parent, and the movers are filed under its feature
    obtain ⟨hparent, -⟩ := hlex.childWith?_eq_some_iff.mp (Option.mem_toList.mp hs)
    obtain ⟨hparent', -⟩ := hlex.childWith?_eq_some_iff.mp (Option.mem_toList.mp hs')
    obtain ⟨g, hg, hplain⟩ := hc.movers (Dict.get?_eq_some_iff.mpr (hentries.subset hm))
    obtain ⟨g', hg', hplain'⟩ := hc.movers (Dict.get?_eq_some_iff.mpr (hentries.subset hm'))
    have hnode := Option.some.inj (hparent.symm.trans hparent')
    rw [hnode, hg'] at hg
    obtain rfl := Option.some.inj hg
    have hz : z = z' := congrArg Feature.name (hplain.symm.trans hplain')
    exact ne_of_compare_lt hlt hz

/-- What stays comes from a root, and what moves on does not. -/
theorem pairwise_stay_append_go (target : Nat) (frontier : Frontier) {stay go : List Expansion}
    (hstay : stay.Pairwise fun e e' => e.signature lex ≠ e'.signature lex)
    (hgo : go.Pairwise fun e e' => e.signature lex ≠ e'.signature lex)
    (hroot : ∀ e ∈ stay, ∃ s, e.signature lex = (target, frontier, some s) ∧ lex.parent? s = none)
    (hparent : ∀ e ∈ go, ∃ s p, e.signature lex = (target, frontier, some s) ∧
      lex.parent? s = some p) :
    (stay ++ go).Pairwise fun e e' => e.signature lex ≠ e'.signature lex := by
  refine List.pairwise_append.mpr ⟨hstay, hgo, fun e he e' he' heq => ?_⟩
  obtain ⟨s, hs, hroot⟩ := hroot e he
  obtain ⟨s', p, hs', hparent⟩ := hparent e' he'
  rw [hs, hs', Prod.mk.injEq, Prod.mk.injEq, Option.some.injEq] at heq
  rw [heq.2.2, hparent] at hroot
  exact absurd hroot (by simp)

theorem pairwise_complements (hlex : lex.WellFormed) (hc : c.IsAnchored lex) :
    (c.merge1 lex target x ++ c.merge3 lex target x).Pairwise fun e e' =>
      e.signature lex ≠ e'.signature lex := by
  refine pairwise_stay_append_go target .leaves (pairwise_toList_map ..) ?_ ?_ ?_
  · exact pairwise_flatMap_movers hlex hc (.categorial x) (List.Sublist.refl _) (fun _ _ => rfl)
      fun _ _ _ => rfl
  · intro e he
    obtain ⟨s, g, hroot, -, -, rfl⟩ := (mem_map_category?_iff hlex).mp he
    exact ⟨s, rfl, hroot⟩
  · intro e he
    obtain ⟨z, m, s, g, -, hparent, -, -, rfl⟩ := (mem_merge3_iff hlex).mp he
    exact ⟨s, _, rfl, hparent⟩

theorem pairwise_specifiers (hlex : lex.WellFormed) (hc : c.IsAnchored lex) :
    (c.merge2 lex target x ++ c.merge4 lex target x).Pairwise fun e e' =>
      e.signature lex ≠ e'.signature lex := by
  refine pairwise_stay_append_go target .branches (pairwise_toList_map ..) ?_ ?_ ?_
  · exact pairwise_flatMap_movers hlex hc (.categorial x) (List.Sublist.refl _) (fun _ _ => rfl)
      fun _ _ _ => rfl
  · intro e he
    obtain ⟨s, g, hroot, -, -, rfl⟩ := (mem_map_category?_iff hlex).mp he
    exact ⟨s, rfl, hroot⟩
  · intro e he
    obtain ⟨z, m, s, g, -, hparent, -, -, rfl⟩ := (mem_merge4_iff hlex).mp he
    exact ⟨s, _, rfl, hparent⟩

/-- The head of a selection is a word, with a complement, or a phrase, with a specifier. -/
theorem pairwise_selections (hlex : lex.WellFormed) (hc : c.IsAnchored lex) :
    (c.selections lex target x).Pairwise fun e e' => e.signature lex ≠ e'.signature lex := by
  refine List.pairwise_append.mpr ⟨?_, ?_, fun e he e' he' heq => ?_⟩
  · split
    · exact pairwise_complements hlex hc
    · exact List.Pairwise.nil
  · split
    · exact pairwise_specifiers hlex hc
    · exact List.Pairwise.nil
  · have hleaves : (e.signature lex).2.1 = .leaves := by
      rcases List.mem_append.mp (List.mem_ite_nil_right.mp he).2 with he | he
      · obtain ⟨s, g, -, -, -, rfl⟩ := (mem_map_category?_iff hlex).mp he
        rfl
      · obtain ⟨z, m, s, g, -, -, -, -, rfl⟩ := (mem_merge3_iff hlex).mp he
        rfl
    have hbranches : (e'.signature lex).2.1 = .branches := by
      rcases List.mem_append.mp (List.mem_ite_nil_right.mp he').2 with he' | he'
      · obtain ⟨s, g, -, -, -, rfl⟩ := (mem_map_category?_iff hlex).mp he'
        rfl
      · obtain ⟨z, m, s, g, -, -, -, -, rfl⟩ := (mem_merge4_iff hlex).mp he'
        rfl
    rw [← heq, hleaves] at hbranches
    exact absurd hbranches (by decide)

theorem pairwise_movements (hlex : lex.WellFormed) (hc : c.IsAnchored lex) {f : Feature}
    (hf : lex.feature? target = some f) :
    (c.movements lex target f.name).Pairwise fun e e' => e.signature lex ≠ e'.signature lex := by
  refine pairwise_stay_append_go target .all ?_ ?_ ?_ ?_
  · split
    · exact List.Pairwise.nil
    · exact pairwise_toList_map ..
  · exact pairwise_flatMap_movers hlex hc (.licensee f.name) List.filter_sublist
      (fun _ _ => rfl) fun _ _ _ => congrArg (·.2.2) (signature_move hf)
  · intro e he
    split at he
    · exact absurd he (by simp)
    · obtain ⟨s, hs, rfl⟩ := List.mem_map.mp he
      exact ⟨s, signature_move hf, (hlex.root?_eq_some_iff.mp (Option.mem_toList.mp hs)).1⟩
  · intro e he
    obtain ⟨z, m, s, g, -, -, hparent, -, -, rfl⟩ := (mem_move2_iff hlex).mp he
    exact ⟨s, _, signature_move hf, hparent⟩

theorem pairwise_expansionsAt (hlex : lex.WellFormed) (hc : c.IsAnchored lex) :
    (c.expansionsAt lex target input).Pairwise fun e e' => e.signature lex ≠ e'.signature lex := by
  rw [expansionsAt]
  split
  · rw [scan]
    split
    · exact List.pairwise_singleton ..
    · exact List.Pairwise.nil
  · next f hf =>
    split
    · exact pairwise_selections hlex hc
    · rw [adjunctions]
      split
      · exact pairwise_toList_map ..
      · exact List.Pairwise.nil
    · exact pairwise_movements hlex hc hf
    all_goals exact List.Pairwise.nil

end signatures

/-- No derivation matches two expansions of a prediction. -/
theorem pairwise_expansions (hlex : lex.WellFormed) (hc : c.IsAnchored lex) :
    (c.expansions lex input).Pairwise fun e e' =>
      ∀ d, e.Matches lex d → ¬e'.Matches lex d := by
  have hsignatures : (c.expansions lex input).Pairwise fun e e' =>
      e.signature lex ≠ e'.signature lex := by
    refine List.pairwise_flatMap.mpr ⟨fun _ _ => pairwise_expansionsAt hlex hc, ?_⟩
    have hnodup : (c.targets lex).Nodup := (hlex.nodup_parts c.node).filter _
    refine List.Pairwise.imp_of_mem ?_ hnodup
    intro target target' htarget htarget' hne e he e' he' heq
    have hfst := fst_signature (expands_of_mem_expansionsAt hlex hc htarget he)
    have hfst' := fst_signature (expands_of_mem_expansionsAt hlex hc htarget' he')
    rw [← hfst, ← hfst', heq] at hne
    exact hne rfl
  refine List.Pairwise.imp_of_mem ?_ hsignatures
  intro e e' he he' hne d hd hd'
  obtain ⟨target, hexpands⟩ := exists_expands_of_mem hlex hc he
  obtain ⟨target', hexpands'⟩ := exists_expands_of_mem hlex hc he'
  exact hne (signature_eq hlex hexpands hexpands' hd hd')

end unambiguous

end Category
end MinimalistGrammar
