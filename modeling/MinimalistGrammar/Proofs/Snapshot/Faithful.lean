import Mathlib.Data.List.Forall2
import MinimalistGrammar.Snapshot.Codec

/-!
# Codecs that read what they have written

A codec is faithful if it never reads other data than were written. It may still fail to read them,
as numbers are read of 32 bits only.

## Main definitions

* `Codec.IsFaithful` — data that are read back are those that were written.

## Main results

* `Codec.IsFaithful.option`, `Codec.IsFaithful.list`, `Codec.IsFaithful.map` — containers of data
  whose codecs are faithful.
-/

namespace MinimalistGrammar

/-! ### What may fail -/

section except

variable {ε α β : Type} {x : Except ε α}

theorem bind_eq_ok_iff {f : α → Except ε β} {b : β} :
    (x >>= f) = .ok b ↔ ∃ a, x = .ok a ∧ f a = .ok b := by
  cases x with
  | error e => exact ⟨fun h => by simp [bind, Except.bind] at h, fun ⟨_, h, _⟩ => by simp at h⟩
  | ok a => exact ⟨fun h => ⟨a, rfl, h⟩, fun ⟨_, h, hf⟩ => by rwa [Except.ok.inj h]⟩

theorem map_eq_ok_iff {f : α → β} {b : β} : x.map f = .ok b ↔ ∃ a, x = .ok a ∧ f a = b := by
  cases x with
  | error e => simp [Except.map]
  | ok a => simp [Except.map]

theorem toOption_eq_some_iff {a : α} : x.toOption = some a ↔ x = .ok a := by
  cases x with
  | error e => simp [Except.toOption]
  | ok b => simp [Except.toOption]

/-- What succeeds for all items of a list succeeds for each of them. -/
theorem mapM_eq_ok_iff {f : α → Except ε β} {l : List α} {bs : List β} :
    l.mapM f = .ok bs ↔ List.Forall₂ (fun a b => f a = .ok b) l bs := by
  induction l generalizing bs with
  | nil =>
    rw [List.mapM_nil, List.forall₂_nil_left_iff]
    exact ⟨fun h => (Except.ok.inj h).symm, fun h => congrArg Except.ok h.symm⟩
  | cons a l ih =>
    rw [List.mapM_cons, bind_eq_ok_iff, List.forall₂_cons_left_iff]
    refine exists_congr fun b => ?_
    rw [bind_eq_ok_iff]
    constructor
    · rintro ⟨hb, bs', hbs', h⟩
      exact ⟨bs', hb, ih.mp hbs', (Except.ok.inj h).symm⟩
    · rintro ⟨bs', hb, hbs', rfl⟩
      exact ⟨hb, bs', ih.mpr hbs', rfl⟩

/-- What comes out comes from the items, and something comes of each of them. -/
theorem mem_of_mapM {f : α → Except ε β} {l : List α} {bs : List β} (h : l.mapM f = .ok bs) :
    (∀ b ∈ bs, ∃ a ∈ l, f a = .ok b) ∧ ∀ a ∈ l, ∃ b ∈ bs, f a = .ok b := by
  induction mapM_eq_ok_iff.mp h with
  | nil => simp
  | @cons a b l bs hb hbs ih =>
    obtain ⟨hfrom, hof⟩ := ih (mapM_eq_ok_iff.mpr hbs)
    refine ⟨List.forall_mem_cons.mpr ⟨⟨a, List.mem_cons_self .., hb⟩, fun b' hb' => ?_⟩,
      List.forall_mem_cons.mpr ⟨⟨b, List.mem_cons_self .., hb⟩, fun a' ha' => ?_⟩⟩
    · obtain ⟨a', ha', hb'⟩ := hfrom b' hb'
      exact ⟨a', List.mem_cons_of_mem _ ha', hb'⟩
    · obtain ⟨b', hb', ha'⟩ := hof a' ha'
      exact ⟨b', List.mem_cons_of_mem _ hb', ha'⟩

theorem exists_mapM_iff {f : α → Except ε β} {l : List α} :
    (∃ bs, l.mapM f = .ok bs) ↔ ∀ a ∈ l, ∃ b, f a = .ok b := by
  simp only [mapM_eq_ok_iff]
  induction l with
  | nil => exact ⟨fun _ a ha => absurd ha List.not_mem_nil, fun _ => ⟨[], .nil⟩⟩
  | cons a l ih =>
    rw [List.forall_mem_cons, ← ih]
    constructor
    · rintro ⟨_, hb | ⟨hb, hbs⟩⟩
      exact ⟨⟨_, hb⟩, _, hbs⟩
    · rintro ⟨⟨b, hb⟩, bs, hbs⟩
      exact ⟨b :: bs, .cons hb hbs⟩

theorem expecting_eq_ok_iff {path form : String} {o : Option α} {a : α} :
    expecting path form o = .ok a ↔ o = some a := by
  cases o <;> simp [expecting]

end except

namespace Codec

variable {α κ : Type} {c : Codec α} {key : Codec κ}

/-- Data that are read back are those that were written. -/
structure IsFaithful (c : Codec α) : Prop where
  eq {path path' : String} {a b : α} {v : Value} (hv : c.store path a = .ok v)
    (hb : c.restore path' v = .ok b) : b = a

/-! ### Single values -/

theorem isFaithful_string : string.IsFaithful := by
  constructor
  intro path path' a b v hv hb
  obtain rfl := Except.ok.inj hv
  have hb : expecting path' "a string" (some a) = .ok b := hb
  exact (Option.some.inj (expecting_eq_ok_iff.mp hb)).symm

theorem isFaithful_number : number.IsFaithful := by
  constructor
  intro path path' a b v hv hb
  obtain rfl := Except.ok.inj hv
  obtain ⟨n, hn, rfl⟩ := Option.map_eq_some_iff.mp (expecting_eq_ok_iff.mp hb)
  rw [← Option.some.inj (Option.filter_eq_some_iff.mp hn).1]
  rfl

/-! ### Containers -/

/-- Data that may be missing, if no data are written as missing ones are. -/
theorem IsFaithful.option (h : c.IsFaithful) (hnull : ∀ path a, c.store path a ≠ .ok .null) :
    c.option.IsFaithful := by
  constructor
  intro path path' a b v hv hb
  cases a with
  | none =>
    obtain rfl := Except.ok.inj hv
    exact (Except.ok.inj hb).symm
  | some a =>
    have hv : c.store path a = .ok v := hv
    have hb : (c.restore path' v).map some = .ok b := by
      rw [← hb]
      cases v with
      | null => exact absurd hv (hnull path a)
      | _ => rfl
    obtain ⟨b', hb', rfl⟩ := map_eq_ok_iff.mp hb
    rw [h.eq hv hb']

theorem IsFaithful.eq_of_restoreItems (h : c.IsFaithful) {path path' : String} {i j : Nat}
    {as bs : List α} {vs : List Value} (hvs : c.storeItems path i as = .ok vs)
    (hbs : c.restoreItems path' j vs = .ok bs) : bs = as := by
  induction as generalizing i j vs bs with
  | nil =>
    obtain rfl := Except.ok.inj hvs
    exact (Except.ok.inj hbs).symm
  | cons a as ih =>
    obtain ⟨v, hv, hvs⟩ := bind_eq_ok_iff.mp hvs
    obtain ⟨vs', hvs', hvs⟩ := bind_eq_ok_iff.mp hvs
    obtain rfl := Except.ok.inj hvs
    obtain ⟨b, hb, hbs⟩ := bind_eq_ok_iff.mp hbs
    obtain ⟨bs', hbs', hbs⟩ := bind_eq_ok_iff.mp hbs
    obtain rfl := Except.ok.inj hbs
    rw [h.eq hv hb, ih hvs' hbs']

theorem IsFaithful.list (h : c.IsFaithful) : c.list.IsFaithful := by
  constructor
  intro path path' as bs v hv hbs
  obtain ⟨vs, hvs, rfl⟩ := map_eq_ok_iff.mp hv
  obtain ⟨vs', hvs', hbs⟩ := bind_eq_ok_iff.mp hbs
  have hitems : expecting path' "a sequence" (some vs) = .ok vs' := hvs'
  obtain rfl := Option.some.inj (expecting_eq_ok_iff.mp hitems)
  exact h.eq_of_restoreItems hvs hbs

theorem IsFaithful.eq_of_restoreEntries (hkey : key.IsFaithful) (h : c.IsFaithful)
    {path path' : String} {i : Nat} {as bs : List (κ × α)} {vs : List (Value × Value)}
    (hvs : storeEntries key c path i as = .ok vs) (hbs : restoreEntries key c path' vs = .ok bs) :
    bs = as := by
  induction as generalizing i vs bs with
  | nil =>
    obtain rfl := Except.ok.inj hvs
    exact (Except.ok.inj hbs).symm
  | cons x as ih =>
    obtain ⟨k, hk, hvs⟩ := bind_eq_ok_iff.mp hvs
    obtain ⟨v, hv, hvs⟩ := bind_eq_ok_iff.mp hvs
    obtain ⟨vs', hvs', hvs⟩ := bind_eq_ok_iff.mp hvs
    obtain rfl := Except.ok.inj hvs
    obtain ⟨k', hk', hbs⟩ := bind_eq_ok_iff.mp hbs
    obtain ⟨b, hb, hbs⟩ := bind_eq_ok_iff.mp hbs
    obtain ⟨bs', hbs', hbs⟩ := bind_eq_ok_iff.mp hbs
    obtain rfl := Except.ok.inj hbs
    rw [hkey.eq hk hk', h.eq hv hb, ih hvs' hbs']

theorem IsFaithful.map [Ord κ] [Std.TransOrd κ] [Std.LawfulEqOrd κ] [DecidableEq κ]
    (hkey : key.IsFaithful) (h : c.IsFaithful) : (key.map c).IsFaithful := by
  constructor
  intro path path' d d' v hv hd'
  obtain ⟨vs, hvs, rfl⟩ := map_eq_ok_iff.mp hv
  obtain ⟨vs', hvs', hd'⟩ := bind_eq_ok_iff.mp hd'
  have hpairs : expecting path' "a map" (some vs) = .ok vs' := hvs'
  obtain rfl := Option.some.inj (expecting_eq_ok_iff.mp hpairs)
  obtain ⟨entries, hentries, hd'⟩ := bind_eq_ok_iff.mp hd'
  obtain rfl := Except.ok.inj hd'
  rw [hkey.eq_of_restoreEntries h hvs hentries, Dict.ofList_entries]

end Codec
end MinimalistGrammar
