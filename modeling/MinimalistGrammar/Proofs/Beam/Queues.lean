import Mathlib.Data.List.Forall2
import Mathlib.Data.List.Perm.Basic
import MinimalistGrammar.Proofs.Beam.BestFirst

/-!
# Queues on heaps

A heap hands out a greatest one of its items, and when several are greatest it may be any of them. A
queue on a heap gives every item a number when it comes. The entries are ordered by their keys and
then by their numbers, both reversed. So the greatest entry is the first one of those with the least
key, and the list of the sorted entries, which goes up, is read backwards. The numbers go on when
the queue is cleared, and a copy of a queue goes on with the numbers of the queue.

Such a queue answers every call as the line does in which the items stand in the order of their
arrival, and as the queue that is kept as the list of its entries.

## Main definitions

* `QueueKind` — a way to keep queues, and `QueueKind.serve`, what calls do to some of them.
* `QueueKind.lines` — queues as lines in order of arrival.
* `Heap`, `Heap.Obeys` — heaps, and what they guarantee for an order.
* `Heap.queues` — queues on a heap.
* `QueueKind.Holds` — what is known of a queue that holds the items of a line.

## Main results

* `QueueKind.Serves.serve` — a way to keep lines answers every call as lines do.
* `Heap.Obeys.serves`, `StableQueue.serves` — queues on heaps and sorted lists of entries are such
  ways.
* `Heap.Obeys.isStable` — **queues on heaps are stable priority queues.**
-/

namespace MinimalistGrammar

open StableQueue (IsNext sortLine sortLine_perm exists_isNext_of_sortLine)

variable {κ α ε : Type}

/-! ### Lists in pairs -/

section forall₂

variable {β γ : Type} {R : β → γ → Prop} {l : List β} {l' : List γ}

theorem getElem?_of_forall₂ (h : List.Forall₂ R l l') (i : Nat) :
    (l[i]? = none ∧ l'[i]? = none) ∨ ∃ a b, l[i]? = some a ∧ l'[i]? = some b ∧ R a b := by
  induction h generalizing i with
  | nil => exact Or.inl ⟨rfl, rfl⟩
  | cons hab _ ih =>
    cases i with
    | zero => exact Or.inr ⟨_, _, rfl, rfl, hab⟩
    | succ i => exact ih i

theorem forall₂_set (h : List.Forall₂ R l l') (i : Nat) {a : β} {b : γ} (hab : R a b) :
    List.Forall₂ R (l.set i a) (l'.set i b) := by
  induction h generalizing i with
  | nil => exact .nil
  | cons hold h ih =>
    cases i with
    | zero => exact .cons hab h
    | succ i => exact .cons hold (ih i)

theorem perm_cons_eraseIdx {a : β} {i : Nat} (h : l[i]? = some a) : l.Perm (a :: l.eraseIdx i) := by
  obtain ⟨hi, rfl⟩ := List.getElem?_eq_some_iff.mp h
  exact (List.getElem_cons_eraseIdx_perm hi).symm

end forall₂

/-! ### Kinds of queues -/

/-- The items that come out of a queue one after the other, `n` at most. -/
def popTimes {ρ : Type} (pop? : ρ → Option (α × ρ)) : Nat → ρ → List α
  | 0, _ => []
  | n + 1, q => (pop? q).elim [] fun p => p.1 :: popTimes pop? n p.2

/-- A way to keep queues of items with keys. -/
structure QueueKind (κ α : Type) where
  Queue : Type
  empty : Queue
  push : Queue → κ → α → Queue
  pop? : Queue → Option (α × Queue)
  peek? : Queue → Option α
  clear : Queue → Queue
  /-- The items in no particular order. -/
  items : Queue → List α
  /-- The items, first to leave first. -/
  toList : Queue → List α

/-- What can be asked of a queue. -/
inductive QueueCall (κ α : Type)
  | push (key : κ) (item : α)
  | pop
  | peek
  | clear
  | list
  | clone

namespace QueueKind

/-- A call of one of some queues: the items it answers with, and the queues then. A copy comes
behind the other queues. -/
def call (K : QueueKind κ α) (qs : List K.Queue) (i : Nat) (c : QueueCall κ α) :
    List α × List K.Queue :=
  match qs[i]? with
  | none => ([], qs)
  | some q =>
    match c with
    | .push key item => ([], qs.set i (K.push q key item))
    | .pop => (K.pop? q).elim ([], qs) fun p => ([p.1], qs.set i p.2)
    | .peek => ((K.peek? q).toList, qs)
    | .clear => ([], qs.set i (K.clear q))
    | .list => (K.toList q, qs)
    | .clone => ([], qs ++ [q])

/-- Calls one after the other: what each of them answers with, and the queues in the end. -/
def serve (K : QueueKind κ α) (qs : List K.Queue) :
    List (Nat × QueueCall κ α) → List (List α) × List K.Queue
  | [] => ([], qs)
  | c :: calls =>
    let served := K.call qs c.1 c.2
    let rest := K.serve served.2 calls
    (served.1 :: rest.1, rest.2)

end QueueKind

/-! ### Lines -/

section lines

variable [Ord κ] {line : List (κ × α)} {e f : κ × α} {i j : Nat}

/-- The place of the entry of a line that leaves next: the first one with a key that is not greater
than any. -/
def next? (line : List (κ × α)) : Option Nat :=
  line.findIdx? fun e => line.all fun f => (compare e.1 f.1).isLE

theorem next?_of_isNext [Std.OrientedOrd κ] (h : IsNext line i e) : next? line = some i := by
  obtain ⟨hi, he⟩ := List.getElem?_eq_some_iff.mp h.here
  refine List.findIdx?_eq_some_iff_getElem.mpr ⟨hi, ?_, fun j hj => ?_⟩
  · rw [he]
    exact List.all_eq_true.mpr fun f hf => h.least hf
  · -- the keys before the entry are greater than its key
    have hlt := h.first hj (List.getElem?_eq_getElem (Nat.lt_trans hj hi))
    intro hall
    have hle := List.all_eq_true.mp hall e (List.mem_of_getElem? h.here)
    rw [Std.OrientedOrd.eq_swap, hlt] at hle
    exact absurd hle (by decide)

/-- Only one entry of a line is next. -/
theorem isNext_unique [Std.OrientedOrd κ] (h : IsNext line i e) (h' : IsNext line j f) :
    i = j ∧ e = f := by
  obtain rfl : i = j := Option.some.inj ((next?_of_isNext h).symm.trans (next?_of_isNext h'))
  exact ⟨rfl, Option.some.inj (h.here.symm.trans h'.here)⟩

/-- In every line but the empty one some entry is next. -/
theorem exists_isNext [Std.TransOrd κ] (h : line ≠ []) : ∃ i e, IsNext line i e := by
  cases hsorted : sortLine line with
  | nil => exact absurd (hsorted ▸ sortLine_perm line).nil_eq.symm h
  | cons e rest =>
    obtain ⟨i, hnext, -⟩ := exists_isNext_of_sortLine hsorted
    exact ⟨i, e, hnext⟩

/-- The first item of a line with the least key leaves it. -/
def takeNext (queued : List (κ × α)) : Option (α × List (κ × α)) :=
  (next? queued).bind fun i => queued[i]?.map fun e => (e.2, queued.eraseIdx i)

theorem takeNext_of_isNext [Std.OrientedOrd κ] (h : IsNext line i e) :
    takeNext line = some (e.2, line.eraseIdx i) := by
  rw [takeNext, next?_of_isNext h, Option.bind_some, h.here, Option.map_some]

theorem takeNext_nil : takeNext ([] : List (κ × α)) = none := rfl

/-- As many items come out of a line as there are. -/
theorem length_popTimes_takeNext [Std.TransOrd κ] (n : Nat) (line : List (κ × α)) :
    (popTimes takeNext n line).length = min n line.length := by
  induction n generalizing line with
  | zero => rw [Nat.zero_min, popTimes, List.length_nil]
  | succ n ih =>
    by_cases hline : line = []
    · subst hline
      rw [popTimes, takeNext_nil, List.length_nil, Nat.min_zero]
      rfl
    · obtain ⟨i, e, hnext⟩ := exists_isNext hline
      have hi : i < line.length := (List.getElem?_eq_some_iff.mp hnext.here).1
      rw [popTimes, takeNext_of_isNext hnext, Option.elim_some, List.length_cons, ih,
        List.length_eraseIdx_of_lt hi]
      omega

/-- Queues as lines: what has been pushed since the queue was cleared, in order, without what has
been popped. -/
abbrev QueueKind.lines (κ α : Type) [Ord κ] : QueueKind κ α where
  Queue := List (κ × α)
  empty := []
  push line key item := line ++ [(key, item)]
  pop? := takeNext
  peek? line := (takeNext line).map (·.1)
  clear _ := []
  items line := line.map (·.2)
  toList line := popTimes takeNext line.length line

end lines

/-! ### Ways to keep lines -/

namespace QueueKind

variable [Ord κ] {K : QueueKind κ α} {R : K.Queue → List (κ × α) → Prop} {q q' : K.Queue}
  {line : List (κ × α)}

/-- The next item of a line is popped. The relation says which queues hold which lines. -/
structure Pops (K : QueueKind κ α) (R : K.Queue → List (κ × α) → Prop) : Prop where
  pop?_nil {q : K.Queue} (h : R q []) : K.pop? q = none
  pop?_next {q : K.Queue} {line : List (κ × α)} {i : Nat} {e : κ × α} (h : R q line)
    (hnext : IsNext line i e) : ∃ q', K.pop? q = some (e.2, q') ∧ R q' (line.eraseIdx i)

/-- A way to keep lines. -/
structure Serves (K : QueueKind κ α) (R : K.Queue → List (κ × α) → Prop) :
    Prop extends Pops K R where
  empty : R K.empty []
  push {q : K.Queue} {line : List (κ × α)} (h : R q line) (key : κ) (item : α) :
    R (K.push q key item) (line ++ [(key, item)])
  clear {q : K.Queue} {line : List (κ × α)} (h : R q line) : R (K.clear q) []
  items {q : K.Queue} {line : List (κ × α)} (h : R q line) : (K.items q).Perm (line.map (·.2))
  peek? {q : K.Queue} {line : List (κ × α)} (h : R q line) : K.peek? q = (K.pop? q).map (·.1)
  toList {q : K.Queue} {line : List (κ × α)} (h : R q line) (n : Nat) :
    (K.toList q).take n = popTimes K.pop? n q

/-- A queue that holds the items of a line, in which they stand in the order of their arrival. -/
structure Holds (K : QueueKind κ α) (q : K.Queue) (line : List (κ × α)) : Prop where
  items : (K.items q).Perm (line.map (·.2))
  pop?_eq_none_iff : K.pop? q = none ↔ line = []
  /-- The item that is popped has the least key, and it has come first of those with this key. -/
  pop?_eq_some {item : α} {q' : K.Queue} (h : K.pop? q = some (item, q')) :
    ∃ i key, IsNext line i (key, item) ∧ (K.items q').Perm ((line.eraseIdx i).map (·.2))
  peek? : K.peek? q = (K.pop? q).map (·.1)
  /-- The items are listed in the order in which they are popped if nothing is pushed. -/
  toList (n : Nat) : (K.toList q).take n = popTimes K.pop? n q

section pops

variable [Std.TransOrd κ]

theorem Pops.cases (hK : K.Pops R) (h : R q line) :
    (line = [] ∧ K.pop? q = none) ∨ ∃ i e q', IsNext line i e ∧ K.pop? q = some (e.2, q') ∧
      R q' (line.eraseIdx i) := by
  by_cases hline : line = []
  · subst hline
    exact Or.inl ⟨rfl, hK.pop?_nil h⟩
  · obtain ⟨i, e, hnext⟩ := exists_isNext hline
    obtain ⟨q', hpop, hrest⟩ := hK.pop?_next h hnext
    exact Or.inr ⟨i, e, q', hnext, hpop, hrest⟩

/-- The same items come out of a queue and out of its line. -/
theorem Pops.popTimes_eq (hK : K.Pops R) (h : R q line) (n : Nat) :
    popTimes K.pop? n q = popTimes takeNext n line := by
  induction n generalizing q line with
  | zero => rfl
  | succ n ih =>
    rw [popTimes, popTimes]
    rcases hK.cases h with ⟨rfl, hnone⟩ | ⟨i, e, q', hnext, hpop, hrest⟩
    · rw [hnone, takeNext_nil]
      rfl
    · rw [hpop, takeNext_of_isNext hnext, Option.elim_some, Option.elim_some, ih hrest]

end pops

namespace Serves

variable [Std.TransOrd κ]

theorem holds (hK : K.Serves R) (h : R q line) : K.Holds q line where
  items := hK.items h
  pop?_eq_none_iff := by
    rcases hK.cases h with ⟨rfl, hnone⟩ | ⟨i, e, q', hnext, hpop, -⟩
    · exact iff_of_true hnone rfl
    · refine iff_of_false (by simp [hpop]) fun hnil => ?_
      subst hnil
      exact absurd hnext.here (by simp)
  pop?_eq_some {item q'} hsome := by
    rcases hK.cases h with ⟨rfl, hnone⟩ | ⟨i, e, q', hnext, hpop, hrest⟩
    · simp [hnone] at hsome
    · obtain ⟨rfl, rfl⟩ := Prod.mk.inj (Option.some.inj (hpop.symm.trans hsome))
      exact ⟨i, e.1, hnext, hK.items hrest⟩
  peek? := hK.peek? h
  toList := hK.toList h

/-- A queue lists what its line lists. -/
theorem toList_eq (hK : K.Serves R) (h : R q line) : K.toList q = (lines κ α).toList line := by
  have htake (n : Nat) : (K.toList q).take n = popTimes takeNext n line :=
    (hK.toList h n).trans (hK.popTimes_eq h n)
  have hlength : (K.toList q).length = line.length := by
    have hall := congrArg List.length (htake ((K.toList q).length + line.length))
    rw [List.take_of_length_le (Nat.le_add_right ..), length_popTimes_takeNext] at hall
    omega
  have hall := htake line.length
  rwa [← hlength, List.take_length, hlength] at hall

/-! ### Calls -/

/-- A call of one of some queues answers as the call of its line does. -/
theorem call (hK : K.Serves R) {qs : List K.Queue} {ls : List (List (κ × α))}
    (h : List.Forall₂ R qs ls) (i : Nat) (c : QueueCall κ α) :
    (K.call qs i c).1 = ((lines κ α).call ls i c).1 ∧
      List.Forall₂ R (K.call qs i c).2 ((lines κ α).call ls i c).2 := by
  unfold QueueKind.call
  rcases getElem?_of_forall₂ h i with ⟨hq, hl⟩ | ⟨q, line, hq, hl, hline⟩
  · rw [hq, hl]
    exact ⟨rfl, h⟩
  · rw [hq, hl]
    cases c with
    | push key item => exact ⟨rfl, forall₂_set h i (hK.push hline key item)⟩
    | pop =>
      rcases hK.cases hline with ⟨rfl, hnone⟩ | ⟨j, e, q', hnext, hpop, hrest⟩
      · simp only [hnone]
        exact ⟨rfl, h⟩
      · simp only [hpop, takeNext_of_isNext hnext, Option.elim_some]
        exact ⟨trivial, forall₂_set h i hrest⟩
    | peek =>
      refine ⟨?_, h⟩
      -- a peek answers as a pop would, and leaves the queue as it is
      show (K.peek? q).toList = ((takeNext line).map (·.1)).toList
      rw [hK.peek? hline]
      rcases hK.cases hline with ⟨rfl, hnone⟩ | ⟨j, e, q', hnext, hpop, -⟩
      · rw [hnone]
        rfl
      · rw [hpop, takeNext_of_isNext hnext]
        rfl
    | clear => exact ⟨rfl, forall₂_set h i (hK.clear hline)⟩
    | list => exact ⟨hK.toList_eq hline, h⟩
    | clone => exact ⟨rfl, List.rel_append h (.cons hline .nil)⟩

/-- Queues answer all calls as their lines do. -/
theorem serve (hK : K.Serves R) (calls : List (Nat × QueueCall κ α)) {qs : List K.Queue}
    {ls : List (List (κ × α))} (h : List.Forall₂ R qs ls) :
    (K.serve qs calls).1 = ((lines κ α).serve ls calls).1 ∧
      List.Forall₂ R (K.serve qs calls).2 ((lines κ α).serve ls calls).2 := by
  induction calls generalizing qs ls with
  | nil => exact ⟨rfl, h⟩
  | cons c calls ih =>
    obtain ⟨hanswer, hafter⟩ := hK.call h c.1 c.2
    obtain ⟨hanswers, hend⟩ := ih hafter
    refine ⟨?_, hend⟩
    show (K.call qs c.1 c.2).1 :: _ = ((lines κ α).call ls c.1 c.2).1 :: _
    rw [hanswer, hanswers]

/-- The same for one empty queue. -/
theorem serve_empty (hK : K.Serves R) (calls : List (Nat × QueueCall κ α)) :
    (K.serve [K.empty] calls).1 = ((lines κ α).serve [[]] calls).1 ∧
      List.Forall₂ K.Holds (K.serve [K.empty] calls).2 ((lines κ α).serve [[]] calls).2 := by
  obtain ⟨hanswers, hend⟩ := hK.serve calls (.cons hK.empty .nil)
  exact ⟨hanswers, hend.imp fun _ _ h => hK.holds h⟩

end Serves

end QueueKind

/-! ### Sorted lists of entries -/

/-- Queues that are kept as the lists of their entries. -/
abbrev StableQueue.queues (κ α : Type) [Ord κ] : QueueKind κ α where
  Queue := StableQueue κ α
  empty := {}
  push := push
  pop? := pop?
  peek? := peek?
  clear _ := {}
  items := toList
  toList := toList

namespace StableQueue

variable [Ord κ] {q : StableQueue κ α} {line : List (κ × α)}

omit [Ord κ] in
/-- The items are listed in the order in which they are popped. -/
theorem take_toList (q : StableQueue κ α) (n : Nat) : q.toList.take n = popTimes pop? n q := by
  induction n generalizing q with
  | zero => rfl
  | succ n ih =>
    rw [popTimes]
    cases hpop : q.pop? with
    | none =>
      rw [toList_eq_nil_of_pop? hpop]
      rfl
    | some p =>
      rw [toList_eq_of_pop? hpop, List.take_succ_cons, ih, Option.elim_some]

/-- Sorted lists of entries keep lines. -/
theorem serves [Std.TransOrd κ] : (queues κ α).Serves Serves where
  empty := serves_empty
  push h := h.push
  clear _ := serves_empty
  items h := h.toList_perm
  pop?_nil {q} h := by
    show q.pop? = none
    rw [pop?, show q.entries = [] from h]
  pop?_next {q line i e} h hnext := by
    cases hpop : q.pop? with
    | none =>
      have hnil : line = [] := by
        have hperm := h.toList_perm
        rw [toList_eq_nil_of_pop? hpop] at hperm
        exact List.map_eq_nil_iff.mp hperm.nil_eq.symm
      subst hnil
      exact absurd hnext.here (by simp)
    | some p =>
      obtain ⟨j, key, hnext', hrest⟩ := h.exists_isNext hpop
      obtain ⟨rfl, rfl⟩ := isNext_unique hnext hnext'
      exact ⟨p.2, hpop, hrest⟩
  peek? {q line} _ := by
    show q.peek? = q.pop?.map (·.1)
    cases hentries : q.entries with
    | nil => rw [peek?, pop?, hentries]; rfl
    | cons e rest => rw [peek?, pop?, hentries]; rfl
  toList {q line} _ := q.take_toList

end StableQueue

/-! ### Heaps -/

/-- A way to keep heaps. -/
structure Heap (ε : Type) where
  Store : Type
  empty : Store
  push : Store → ε → Store
  pop? : Store → Option (ε × Store)
  peek? : Store → Option ε
  clear : Store → Store
  /-- The entries in no particular order. -/
  toList : Store → List ε
  /-- The entries, least first. -/
  sorted : Store → List ε

/-- What heaps guarantee for an order: an entry that is popped is a greatest one. -/
structure Heap.Obeys (heap : Heap ε) (cmp : ε → ε → Ordering) : Prop where
  toList_empty : heap.toList heap.empty = []
  toList_push (h : heap.Store) (e : ε) : (heap.toList (heap.push h e)).Perm (e :: heap.toList h)
  toList_of_pop?_none {h : heap.Store} : heap.pop? h = none → heap.toList h = []
  perm_of_pop?_some {h h' : heap.Store} {e : ε} : heap.pop? h = some (e, h') →
    (heap.toList h).Perm (e :: heap.toList h')
  isLE_of_pop?_some {h h' : heap.Store} {e f : ε} : heap.pop? h = some (e, h') →
    f ∈ heap.toList h → (cmp f e).isLE
  toList_of_peek?_none {h : heap.Store} : heap.peek? h = none → heap.toList h = []
  mem_of_peek?_some {h : heap.Store} {e : ε} : heap.peek? h = some e → e ∈ heap.toList h
  isLE_of_peek?_some {h : heap.Store} {e f : ε} : heap.peek? h = some e →
    f ∈ heap.toList h → (cmp f e).isLE
  toList_clear (h : heap.Store) : heap.toList (heap.clear h) = []
  sorted_perm (h : heap.Store) : (heap.sorted h).Perm (heap.toList h)
  pairwise_sorted (h : heap.Store) : (heap.sorted h).Pairwise fun e f => (cmp e f).isLE

/-- An item with its key, and the number that it got when it came. -/
structure Ticket (κ α : Type) where
  key : κ
  number : Nat
  item : α

namespace Ticket

variable [Ord κ]

/-- The order of a heap of tickets: by keys and then by numbers, both reversed. -/
protected def compare (e f : Ticket κ α) : Ordering :=
  (compare f.key e.key).then (compare f.number e.number)

instance [Std.TransOrd κ] : Std.TransCmp (@Ticket.compare κ α _) where
  eq_swap {e f} := by
    rw [Ticket.compare, Ticket.compare, Ordering.swap_then, ← Std.OrientedCmp.eq_swap,
      ← Std.OrientedCmp.eq_swap]
  isLE_trans {e f g} hef hfg := by
    rw [Ticket.compare, Ordering.isLE_then_iff_or] at hef hfg ⊢
    rcases hef with hef | ⟨hef, hef'⟩ <;> rcases hfg with hfg | ⟨hfg, hfg'⟩
    · exact Or.inl (Std.TransCmp.lt_trans hfg hef)
    · exact Or.inl (Std.TransCmp.lt_of_eq_of_lt hfg hef)
    · exact Or.inl (Std.TransCmp.lt_of_lt_of_eq hfg hef)
    · exact Or.inr ⟨Std.TransCmp.eq_trans hfg hef, Std.TransCmp.isLE_trans hfg' hef'⟩

/-- The entry of a line. -/
def entry (e : Ticket κ α) : κ × α := (e.key, e.item)

end Ticket

/-- A heap of tickets, and the number of the next one. -/
structure TicketQueue (heap : Heap (Ticket κ α)) where
  tickets : heap.Store
  next : Nat

/-- Queues on heaps. -/
abbrev Heap.queues (heap : Heap (Ticket κ α)) : QueueKind κ α where
  Queue := TicketQueue heap
  empty := ⟨heap.empty, 0⟩
  push q key item := ⟨heap.push q.tickets ⟨key, q.next, item⟩, q.next + 1⟩
  pop? q := (heap.pop? q.tickets).map fun p => (p.1.item, { q with tickets := p.2 })
  peek? q := (heap.peek? q.tickets).map (·.item)
  clear q := { q with tickets := heap.clear q.tickets }
  items q := (heap.toList q.tickets).map (·.item)
  toList q := (heap.sorted q.tickets).reverse.map (·.item)

section tickets

variable [Ord κ] {tickets l : List (Ticket κ α)} {e : Ticket κ α} {line : List (κ × α)} {n i : Nat}

/-- Tickets that have come with a line, one for each entry, and got greater and greater numbers. -/
structure ComeWith (tickets : List (Ticket κ α)) (n : Nat) (line : List (κ × α)) : Prop where
  entries : tickets.map Ticket.entry = line
  increasing : tickets.Pairwise fun e f => e.number < f.number
  below {e : Ticket κ α} (h : e ∈ tickets) : e.number < n

omit [Ord κ] in
theorem ComeWith.eraseIdx (h : ComeWith tickets n line) (i : Nat) :
    ComeWith (tickets.eraseIdx i) n (line.eraseIdx i) where
  entries := by rw [← List.eraseIdx_map, h.entries]
  increasing := h.increasing.sublist (List.eraseIdx_sublist ..)
  below he := h.below (List.mem_of_mem_eraseIdx he)

/-- A greatest ticket belongs to the entry of the line that is next. -/
theorem ComeWith.exists_isNext (h : ComeWith tickets n line) (he : e ∈ tickets)
    (hgreatest : ∀ f ∈ tickets, (Ticket.compare f e).isLE) :
    ∃ i, tickets[i]? = some e ∧ IsNext line i e.entry := by
  obtain ⟨i, hi⟩ := List.mem_iff_getElem?.mp he
  have hkey {f : Ticket κ α} (hf : f ∈ tickets) : compare e.key f.key = .lt ∨
      compare e.key f.key = .eq ∧ e.number ≤ f.number := by
    have hle := hgreatest f hf
    rwa [Ticket.compare, Ordering.isLE_then_iff_or, Nat.isLE_compare] at hle
  refine ⟨i, hi, ?_, fun {g} hg => ?_, fun {j g} hj hg => ?_⟩
  · rw [← h.entries, List.getElem?_map, hi, Option.map_some]
  · rw [← h.entries] at hg
    obtain ⟨f, hf, rfl⟩ := List.mem_map.mp hg
    rcases hkey hf with hlt | ⟨heq, -⟩
    · exact Ordering.isLE_of_eq_lt hlt
    · exact Ordering.isLE_of_eq_eq heq
  · -- what has come before has a smaller number, so its key is greater
    rw [← h.entries, List.getElem?_map, Option.map_eq_some_iff] at hg
    obtain ⟨f, hf, rfl⟩ := hg
    rcases hkey (List.mem_of_getElem? hf) with hlt | ⟨-, hle⟩
    · exact hlt
    · obtain ⟨hj', rfl⟩ := List.getElem?_eq_some_iff.mp hf
      obtain ⟨hi', rfl⟩ := List.getElem?_eq_some_iff.mp hi
      exact absurd (List.pairwise_iff_getElem.mp h.increasing j i hj' hi' hj) (Nat.not_lt.mpr hle)

/-- The greatest tickets one after the other are the entries of the line in the order in which they
leave. -/
theorem ComeWith.take_map [Std.TransOrd κ] (h : ComeWith tickets n line) (hperm : l.Perm tickets)
    (hsorted : l.Pairwise fun e f => (Ticket.compare f e).isLE) (m : Nat) :
    (l.map (·.item)).take m = popTimes takeNext m line := by
  induction l generalizing tickets line m with
  | nil =>
    obtain rfl := hperm.nil_eq
    obtain rfl := h.entries
    cases m <;> rfl
  | cons e l ih =>
    cases m with
    | zero => rfl
    | succ m =>
      obtain ⟨hgreatest, hrest⟩ := List.pairwise_cons.mp hsorted
      obtain ⟨i, hi, hnext⟩ :=
        h.exists_isNext (hperm.mem_iff.mp (List.mem_cons_self ..)) fun f hf => by
          rcases List.mem_cons.mp (hperm.mem_iff.mpr hf) with rfl | hf
          · simp [Ticket.compare]
          · exact hgreatest f hf
      have hothers : l.Perm (tickets.eraseIdx i) :=
        (hperm.trans (perm_cons_eraseIdx hi)).cons_inv
      rw [popTimes, takeNext_of_isNext hnext, List.map_cons, List.take_succ_cons, Option.elim_some,
        ih (h.eraseIdx i) hothers hrest]
      rfl

end tickets

/-- A queue on a heap whose tickets have come with a line. -/
def TicketQueue.Serves {heap : Heap (Ticket κ α)} (q : TicketQueue heap)
    (line : List (κ × α)) : Prop :=
  ∃ tickets, (heap.toList q.tickets).Perm tickets ∧ ComeWith tickets q.next line

namespace Heap.Obeys

variable [Ord κ] [Std.TransOrd κ] {heap : Heap (Ticket κ α)}

/-- The first of the entries with the least key is popped. -/
theorem pops (hheap : heap.Obeys Ticket.compare) : heap.queues.Pops TicketQueue.Serves where
  pop?_nil {q} := by
    rintro ⟨tickets, hperm, h⟩
    obtain rfl := List.map_eq_nil_iff.mp h.entries
    cases hpop : heap.pop? q.tickets with
    | none => exact congrArg (Option.map _) hpop
    | some p => exact absurd ((hheap.perm_of_pop?_some hpop).symm.trans hperm) (by simp)
  pop?_next {q line i e} := by
    rintro ⟨tickets, hperm, h⟩ hnext
    cases hpop : heap.pop? q.tickets with
    | none =>
      rw [hheap.toList_of_pop?_none hpop] at hperm
      obtain rfl := hperm.nil_eq
      obtain rfl := h.entries
      exact absurd hnext.here (by simp)
    | some p =>
      have hmem := (hheap.perm_of_pop?_some hpop).symm.trans hperm
      obtain ⟨j, hj, hnext'⟩ :=
        h.exists_isNext (hmem.mem_iff.mp (List.mem_cons_self ..)) fun f hf =>
          hheap.isLE_of_pop?_some hpop (hperm.mem_iff.mpr hf)
      obtain ⟨rfl, rfl⟩ := isNext_unique hnext hnext'
      refine ⟨{ q with tickets := p.2 }, congrArg (Option.map _) hpop, tickets.eraseIdx i, ?_,
        h.eraseIdx i⟩
      exact (hmem.trans (perm_cons_eraseIdx hj)).cons_inv

/-- The entry that is shown is the one that is popped: no other one is greatest. -/
theorem peek?_eq (hheap : heap.Obeys Ticket.compare) {tickets : List (Ticket κ α)} {n : Nat}
    {h : heap.Store} (hperm : (heap.toList h).Perm tickets) {line : List (κ × α)}
    (hcome : ComeWith tickets n line) : heap.peek? h = (heap.pop? h).map (·.1) := by
  cases hpeek : heap.peek? h with
  | none =>
    cases hpop : heap.pop? h with
    | none => rfl
    | some p =>
      have hperm' := hheap.perm_of_pop?_some hpop
      rw [hheap.toList_of_peek?_none hpeek] at hperm'
      exact absurd hperm' (by simp)
  | some e =>
    cases hpop : heap.pop? h with
    | none =>
      have hmem := hheap.mem_of_peek?_some hpeek
      rw [hheap.toList_of_pop?_none hpop] at hmem
      exact absurd hmem List.not_mem_nil
    | some p =>
      have hmem := hheap.perm_of_pop?_some hpop
      obtain ⟨i, hi, hnext⟩ := hcome.exists_isNext
        (hperm.mem_iff.mp (hheap.mem_of_peek?_some hpeek)) fun f hf =>
          hheap.isLE_of_peek?_some hpeek (hperm.mem_iff.mpr hf)
      obtain ⟨j, hj, hnext'⟩ := hcome.exists_isNext
        (hperm.mem_iff.mp (hmem.mem_iff.mpr (List.mem_cons_self ..))) fun f hf =>
          hheap.isLE_of_pop?_some hpop (hperm.mem_iff.mpr hf)
      obtain ⟨rfl, -⟩ := isNext_unique hnext hnext'
      exact hi.symm.trans hj

/-- Queues on heaps keep lines. -/
theorem serves (hheap : heap.Obeys Ticket.compare) : heap.queues.Serves TicketQueue.Serves where
  toPops := hheap.pops
  empty := by
    refine ⟨[], ?_, rfl, .nil, fun he => absurd he List.not_mem_nil⟩
    exact hheap.toList_empty ▸ .refl _
  push {q line} := by
    rintro ⟨tickets, hperm, h⟩ key item
    refine ⟨tickets ++ [⟨key, q.next, item⟩], ?_, ?_, ?_, fun {e} he => ?_⟩
    · exact (hheap.toList_push ..).trans ((hperm.cons _).trans (List.perm_append_singleton ..).symm)
    · rw [List.map_append, h.entries]
      rfl
    · refine List.pairwise_append.mpr ⟨h.increasing, List.pairwise_singleton ..,
        fun e he f hf => ?_⟩
      rw [List.mem_singleton.mp hf]
      exact h.below he
    · rcases List.mem_append.mp he with he | he
      · exact Nat.lt_succ_of_lt (h.below he)
      · rw [List.mem_singleton.mp he]
        exact Nat.lt_succ_self _
  clear {q line} _ := by
    refine ⟨[], ?_, rfl, .nil, fun he => absurd he List.not_mem_nil⟩
    exact hheap.toList_clear q.tickets ▸ .refl _
  items {q line} := by
    rintro ⟨tickets, hperm, h⟩
    rw [← h.entries, List.map_map]
    exact hperm.map _
  peek? {q line} := by
    rintro ⟨tickets, hperm, h⟩
    have hpop : (heap.queues.pop? q).map (·.1) = (heap.pop? q.tickets).map (·.1.item) :=
      Option.map_map ..
    have hpeek := congrArg (Option.map (·.item)) (hheap.peek?_eq hperm h)
    rw [hpop]
    exact hpeek.trans (Option.map_map ..)
  toList {q line} hq m := by
    -- popping all tickets in turn yields them by key and number, as the line is taken
    rw [hheap.pops.popTimes_eq hq]
    obtain ⟨tickets, hperm, h⟩ := hq
    exact h.take_map ((List.reverse_perm _).trans ((hheap.sorted_perm q.tickets).trans hperm))
      (List.pairwise_reverse.mpr (hheap.pairwise_sorted q.tickets)) m

/-- **Queues on heaps are stable priority queues.** Whatever is called, beginning with one empty
queue, the answers are those of the lines in which the items stand in the order of their arrival,
and those of the queues that are kept as lists. Each queue holds the items of its line. The next
parses of a run are those that are popped if nothing is pushed. -/
theorem isStable (hheap : heap.Obeys Ticket.compare) (calls : List (Nat × QueueCall κ α)) :
    let lines := (QueueKind.lines κ α).serve [[]] calls
    let queues := heap.queues.serve [heap.queues.empty] calls
    let lists := (StableQueue.queues κ α).serve [{}] calls
    queues.1 = lines.1 ∧ lists.1 = lines.1 ∧
      List.Forall₂ heap.queues.Holds queues.2 lines.2 ∧
      List.Forall₂ (StableQueue.queues κ α).Holds lists.2 lines.2 ∧
      ∀ (π : Type) [Probability π] (p : BeamParser π) (n : Nat),
        p.pending n = popTimes StableQueue.pop? n p.beam := by
  intro lines queues lists
  obtain ⟨hqueues, hheld⟩ := hheap.serves.serve_empty calls
  obtain ⟨hlists, hlisted⟩ := StableQueue.serves.serve_empty calls
  exact ⟨hqueues, hlists, hheld, hlisted, fun π _ p n => p.beam.take_toList n⟩

end Heap.Obeys

/-! ### A heap -/

/-- Entries in order, greatest first. -/
def greatestFirst (cmp : ε → ε → Ordering) (l : List ε) : List ε :=
  l.mergeSort fun e f => (cmp f e).isLE

/-- Lists of entries as a heap: they are sorted when they are asked. -/
def sortingHeap (cmp : ε → ε → Ordering) : Heap ε where
  Store := List ε
  empty := []
  push l e := e :: l
  pop? l := (greatestFirst cmp l).head?.map fun e => (e, (greatestFirst cmp l).tail)
  peek? l := (greatestFirst cmp l).head?
  clear _ := []
  toList l := l
  sorted l := (greatestFirst cmp l).reverse

section sorting

variable {cmp : ε → ε → Ordering} {l : List ε} {e f : ε}

theorem greatestFirst_perm (cmp : ε → ε → Ordering) (l : List ε) : (greatestFirst cmp l).Perm l :=
  List.mergeSort_perm ..

theorem pairwise_greatestFirst [Std.TransCmp cmp] (l : List ε) :
    (greatestFirst cmp l).Pairwise fun e f => (cmp f e).isLE := by
  have htotal (e f : ε) : ((cmp f e).isLE || (cmp e f).isLE) = true := by
    rw [@Std.OrientedCmp.eq_swap _ cmp _ e f]
    cases cmp f e <;> rfl
  have htrans (e f g : ε) (hef : (cmp f e).isLE = true) (hfg : (cmp g f).isLE = true) :
      (cmp g e).isLE = true := Std.TransCmp.isLE_trans hfg hef
  rw [greatestFirst]
  exact List.pairwise_mergeSort htrans htotal l

/-- The first entry is a greatest one. -/
theorem isLE_of_head?_greatestFirst [Std.TransCmp cmp] (h : (greatestFirst cmp l).head? = some e)
    (hf : f ∈ l) : (cmp f e).isLE := by
  have hsorted : (greatestFirst cmp l).Pairwise fun e f => (cmp f e).isLE :=
    pairwise_greatestFirst l
  have hmem := (greatestFirst_perm cmp l).mem_iff.mpr hf
  rw [List.eq_cons_of_mem_head? h] at hsorted hmem
  rcases List.mem_cons.mp hmem with rfl | hmem
  · exact Ordering.isLE_of_eq_eq Std.ReflCmp.compare_self
  · exact (List.pairwise_cons.mp hsorted).1 f hmem

theorem eq_nil_of_head?_greatestFirst (h : (greatestFirst cmp l).head? = none) : l = [] := by
  have hperm := greatestFirst_perm cmp l
  rw [List.head?_eq_none_iff.mp h] at hperm
  exact hperm.nil_eq.symm

theorem sortingHeap_obeys [Std.TransCmp cmp] : (sortingHeap cmp).Obeys cmp where
  toList_empty := rfl
  toList_push _ _ := .refl _
  toList_of_pop?_none h := eq_nil_of_head?_greatestFirst (Option.map_eq_none_iff.mp h)
  perm_of_pop?_some {l rest e} h := by
    obtain ⟨e, he, heq⟩ := Option.map_eq_some_iff.mp h
    obtain ⟨rfl, rfl⟩ := Prod.mk.inj heq
    have hperm := greatestFirst_perm cmp l
    rw [List.eq_cons_of_mem_head? he] at hperm
    exact hperm.symm
  isLE_of_pop?_some h hf := by
    obtain ⟨e, he, heq⟩ := Option.map_eq_some_iff.mp h
    obtain ⟨rfl, -⟩ := Prod.mk.inj heq
    exact isLE_of_head?_greatestFirst he hf
  toList_of_peek?_none h := eq_nil_of_head?_greatestFirst h
  mem_of_peek?_some h := (greatestFirst_perm cmp _).mem_iff.mp (List.mem_of_mem_head? h)
  isLE_of_peek?_some h hf := isLE_of_head?_greatestFirst h hf
  toList_clear _ := rfl
  sorted_perm l := (List.reverse_perm _).trans (greatestFirst_perm cmp l)
  pairwise_sorted l := List.pairwise_reverse.mpr (pairwise_greatestFirst l)

end sorting

/-- Four items are pushed. Then the queue is copied, two items are popped from the copy, and the
copy is listed, and so is the queue. Of the two items with the key 1 the first one comes first. -/
theorem Heap.Obeys.isStable_fourItems :
    let heap := sortingHeap (@Ticket.compare Nat String _)
    let calls : List (Nat × QueueCall Nat String) := [(0, .push 2 "c"), (0, .push 1 "a"),
      (0, .push 1 "b"), (0, .push 0 "z"), (0, .clone), (1, .pop), (1, .pop), (1, .list), (0, .list),
      (0, .clear), (0, .peek), (1, .peek)]
    heap.Obeys Ticket.compare ∧
      (heap.queues.serve [heap.queues.empty] calls).1 =
        [[], [], [], [], [], ["z"], ["a"], ["b", "c"], ["z", "a", "b", "c"], [], [], ["b"]] := by
  intro heap calls
  refine ⟨sortingHeap_obeys, ?_⟩
  have hheap : heap.Obeys Ticket.compare := sortingHeap_obeys
  rw [(Heap.Obeys.isStable hheap calls).1]
  decide +kernel

end MinimalistGrammar
