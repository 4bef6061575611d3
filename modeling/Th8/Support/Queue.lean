import Mathlib.Data.List.Basic
import Mathlib.Data.List.Nodup
import Mathlib.Data.Nat.ModEq
import Mathlib.Logic.Function.Basic

/-!
# Queues
-/

namespace Support

open List

open Function (update_of_ne update_self)

/-!
## Queues in memory

Two ways to keep a sequence in memory: a ring of slots with a head index and a count,
and a singly linked list with a pointer to its first and one to its last node.  For
each, the sequence it holds, and what a push and a pop do to that sequence.
-/

section Ring

variable {α : Type} {N : ℕ}

/-- The items of a ring of `N` slots, from the head on. -/
def ringItems (N : ℕ) (slots : ℕ → α) (head n : ℕ) : List α :=
  (List.range n).map fun k => slots ((head + k) % N)

@[simp] theorem ringItems_length (slots : ℕ → α) (head n : ℕ) :
    (ringItems N slots head n).length = n := by
  simp [ringItems]

theorem ring_index_ne {head k n : ℕ} (hk : k < n) (hn : n < N) :
    (head + k) % N ≠ (head + n) % N := by
  intro h
  have hmod : Nat.ModEq N k n := Nat.ModEq.add_left_cancel' head h
  have heq := hmod.eq_of_lt_of_lt (by omega) hn
  omega

theorem ringItems_push (slots : ℕ → α) (head : ℕ) {n : ℕ} (hn : n < N) (x : α) :
    ringItems N (Function.update slots ((head + n) % N) x) head (n + 1) =
      ringItems N slots head n ++ [x] := by
  unfold ringItems
  rw [range_succ, map_append]
  congr 1
  · apply map_congr_left
    intro k hk
    rw [update_of_ne (ring_index_ne (mem_range.mp hk) hn)]
  · simp

theorem ringItems_succ (slots : ℕ → α) {head : ℕ} (hhead : head < N) (n : ℕ) :
    ringItems N slots head (n + 1) = slots head :: ringItems N slots ((head + 1) % N) n := by
  unfold ringItems
  rw [range_succ_eq_map, map_cons, map_map, Nat.add_zero, Nat.mod_eq_of_lt hhead]
  congr 1
  apply map_congr_left
  intro k _
  simp only [Function.comp_apply, Nat.mod_add_mod]
  congr 2
  omega

end Ring

section Linked

variable {α : Type}

structure Node (α : Type) where
  val : α
  next : Option ℕ

/-- The heap holds a list with the given addresses and values, from `head` to the null
pointer. -/
def Linked (heap : ℕ → Option (Node α)) : Option ℕ → List (ℕ × α) → Prop
  | head, [] => head = none
  | head, (p, a) :: rest =>
    head = some p ∧ ∃ next, heap p = some ⟨a, next⟩ ∧ Linked heap next rest

structure LinkedQueue (heap : ℕ → Option (Node α)) (head tail : Option ℕ)
    (items : List (ℕ × α)) : Prop where
  linked : Linked heap head items
  nodup : (items.map Prod.fst).Nodup
  tail_eq : tail = items.getLast?.map Prod.fst

variable {heap : ℕ → Option (Node α)} {items : List (ℕ × α)}

theorem Linked.head_eq {head : Option ℕ} (h : Linked heap head items) :
    head = items.head?.map Prod.fst := by
  cases items with
  | nil => exact h
  | cons e rest => exact h.1

theorem Linked.update_of_notMem {q : ℕ} (o : Option (Node α)) :
    ∀ {head : Option ℕ}, Linked heap head items → q ∉ items.map Prod.fst →
      Linked (Function.update heap q o) head items := by
  induction items with
  | nil => exact fun h _ => h
  | cons e rest ih =>
    intro head h hq
    obtain ⟨hhead, next, hp, hrest⟩ := h
    rw [map_cons, mem_cons, not_or] at hq
    refine ⟨hhead, next, ?_, ih hrest hq.2⟩
    rw [update_of_ne (Ne.symm hq.1)]
    exact hp

theorem Linked.mem_heap :
    ∀ {head : Option ℕ}, Linked heap head items → ∀ p ∈ items.map Prod.fst, (heap p).isSome := by
  induction items with
  | nil =>
    intro head _ p hp
    simp at hp
  | cons e rest ih =>
    intro head h p hp
    obtain ⟨-, next, he, hrest⟩ := h
    rcases mem_cons.mp hp with rfl | hp
    · simp [he]
    · exact ih hrest p hp

theorem Linked.last_heap {p : ℕ} {b : α} :
    ∀ {head : Option ℕ}, Linked heap head (items ++ [(p, b)]) →
      ∃ next, heap p = some ⟨b, next⟩ := by
  induction items with
  | nil =>
    rintro head ⟨-, next, hp, -⟩
    exact ⟨next, hp⟩
  | cons e rest ih =>
    rintro head ⟨-, next, -, hrest⟩
    exact ih hrest

theorem Linked.append {q : ℕ} {a : α} :
    ∀ {head : Option ℕ} {p : ℕ} {b : α}, Linked heap head (items ++ [(p, b)]) →
      ((items ++ [(p, b)]).map Prod.fst).Nodup → q ∉ (items ++ [(p, b)]).map Prod.fst →
      Linked (Function.update (Function.update heap q (some ⟨a, none⟩)) p
        (some ⟨b, some q⟩)) head (items ++ [(p, b), (q, a)]) := by
  induction items with
  | nil =>
    intro head p b h _ hq
    obtain ⟨hhead, -⟩ := h
    have hne : q ≠ p := by simpa using hq
    refine ⟨hhead, some q, by simp, rfl, none, ?_, rfl⟩
    rw [update_of_ne hne, update_self]
  | cons e rest ih =>
    intro head p b h hnd hq
    obtain ⟨hhead, next, he, hrest⟩ := h
    rw [cons_append, map_cons, nodup_cons] at hnd
    rw [cons_append, map_cons, mem_cons, not_or] at hq
    refine ⟨hhead, next, ?_, ih hrest hnd.2 hq.2⟩
    have hep : e.1 ≠ p := by
      intro hep
      apply hnd.1
      simp [hep]
    rw [update_of_ne hep, update_of_ne (Ne.symm hq.1)]
    exact he

namespace LinkedQueue

variable {heap : ℕ → Option (Node α)} {head tail : Option ℕ} {items : List (ℕ × α)}

theorem nil : LinkedQueue heap none none [] := by
  constructor
  · rfl
  · simp
  · rfl

theorem head_eq_none (h : LinkedQueue heap head tail items) : head = none ↔ items = [] := by
  rw [h.linked.head_eq]
  cases items with
  | nil => simp
  | cons e rest => simp

theorem tail_eq_none (h : LinkedQueue heap head tail items) : tail = none ↔ items = [] := by
  rw [h.tail_eq]
  simp

theorem tail_heap {t : ℕ} (h : LinkedQueue heap head (some t) items) :
    ∃ node, heap t = some node := by
  obtain ⟨e, he, hte⟩ := Option.map_eq_some_iff.mp h.tail_eq.symm
  rw [← hte]
  apply Option.isSome_iff_exists.mp
  exact h.linked.mem_heap _ (mem_map_of_mem (mem_of_getLast? he))

theorem singleton (q : ℕ) (a : α) :
    LinkedQueue (Function.update heap q (some ⟨a, none⟩)) (some q) (some q) [(q, a)] := by
  constructor
  · exact ⟨rfl, none, by simp, rfl⟩
  · simp
  · rfl

theorem push_tail {p q : ℕ} {b : α} {next : Option ℕ} (a : α)
    (h : LinkedQueue heap head (some p) items) (hp : heap p = some ⟨b, next⟩) (hq : heap q = none) :
    LinkedQueue (Function.update (Function.update heap q (some ⟨a, none⟩)) p
      (some ⟨b, some q⟩)) head (some q) (items ++ [(q, a)]) := by
  obtain ⟨hlinked, hnd, htail⟩ := h
  have hfresh : q ∉ items.map Prod.fst := by
    intro hmem
    have := hlinked.mem_heap q hmem
    simp [hq] at this
  obtain ⟨last, hlast⟩ : ∃ e, items.getLast? = some e := by
    cases hl : items.getLast? with
    | none => simp [hl] at htail
    | some e => exact ⟨e, rfl⟩
  obtain ⟨front, hfront⟩ := getLast?_eq_some_iff.mp hlast
  obtain ⟨p', b'⟩ := last
  have hpp : p = p' := by simpa [hlast] using htail
  subst hpp
  -- the value of the last node is the one the heap holds
  have hval : b = b' := by
    obtain ⟨nx, hnx⟩ := (hfront ▸ hlinked).last_heap
    rw [hp, Option.some.injEq, Node.mk.injEq] at hnx
    exact hnx.1
  subst hval
  subst hfront
  constructor
  · rw [append_assoc]
    exact hlinked.append hnd hfresh
  · rw [map_append, nodup_append]
    refine ⟨hnd, by simp, ?_⟩
    rintro x hx y hy rfl
    rw [map_cons, map_nil, mem_singleton] at hy
    rw [hy] at hx
    exact hfresh hx
  · simp

theorem pop {p : ℕ} {a : α} {rest : List (ℕ × α)}
    (h : LinkedQueue heap head tail ((p, a) :: rest)) :
    head = some p ∧ ∃ next, heap p = some ⟨a, next⟩ ∧
      LinkedQueue (Function.update heap p none) next (if next = none then none else tail) rest := by
  obtain ⟨⟨hhead, next, hp, hrest⟩, hnd, htail⟩ := h
  rw [map_cons, nodup_cons] at hnd
  refine ⟨hhead, next, hp, ?_⟩
  have hlinked := hrest.update_of_notMem none hnd.1
  constructor
  · exact hlinked
  · exact hnd.2
  · have hnext := hrest.head_eq
    cases rest with
    | nil => simp [hnext]
    | cons e rest =>
      rw [if_neg (by simp [hnext]), htail]
      simp [getLast?_cons_cons]

end LinkedQueue

end Linked

/-!
## Intrusive queues

A queue that is threaded through a link field of the items themselves, with a pointer
to its first and one to its last item.  Nothing is allocated, and an item has one link
only: the queue holds a sequence as long as no item is pushed while it is in it.
-/

structure IntrusiveQueue (ι : Type) where
  head : Option ι
  tail : Option ι
  next : ι → Option ι

namespace IntrusiveQueue

section Operations

variable {ι : Type}

def empty : IntrusiveQueue ι := ⟨none, none, fun _ => none⟩

variable [DecidableEq ι]

/-- Append an item: its link is cleared, and the link of the last item, if there is one,
leads to it. -/
def push (q : IntrusiveQueue ι) (x : ι) : IntrusiveQueue ι :=
  let next := Function.update q.next x none
  match q.tail with
  | some t => ⟨q.head, some x, Function.update next t (some x)⟩
  | none => ⟨some x, some x, next⟩

omit [DecidableEq ι] in
def pop (q : IntrusiveQueue ι) : Option (ι × IntrusiveQueue ι) :=
  q.head.map fun x => (x, ⟨q.next x, if (q.next x).isSome then q.tail else none, q.next⟩)

end Operations

section Contents

variable {ι : Type}

def Chain (next : ι → Option ι) : List ι → Prop
  | [] => True
  | x :: l => next x = l.head? ∧ Chain next l

structure Holds (q : IntrusiveQueue ι) (l : List ι) : Prop where
  head : q.head = l.head?
  tail : q.tail = l.getLast?
  chain : Chain q.next l
  nodup : l.Nodup

theorem holds_empty : Holds (empty : IntrusiveQueue ι) [] :=
  ⟨rfl, rfl, trivial, nodup_nil⟩

variable {q : IntrusiveQueue ι} {l : List ι}

theorem Holds.head_eq_none (h : Holds q l) : q.head = none ↔ l = [] := by
  rw [h.head, head?_eq_none_iff]

theorem Holds.pop_nil (h : Holds q []) : q.pop = none := by
  simp [pop, h.head]

variable {x : ι}

theorem Holds.pop_cons (h : Holds q (x :: l)) : ∃ q', q.pop = some (x, q') ∧ Holds q' l := by
  have hlink : q.next x = l.head? := h.chain.1
  refine ⟨⟨l.head?, if l.head?.isSome then q.tail else none, q.next⟩, ?_, ?_⟩
  · simp [pop, h.head, hlink]
  · refine ⟨rfl, ?_, h.chain.2, (nodup_cons.mp h.nodup).2⟩
    cases l with
    | nil => rfl
    | cons y l => simpa using h.tail

variable [DecidableEq ι]

theorem Chain.update {next : ι → Option ι} {o : Option ι} (h : Chain next l) (hx : x ∉ l) :
    Chain (Function.update next x o) l := by
  induction l with
  | nil => trivial
  | cons y l ih =>
    rw [mem_cons, not_or] at hx
    refine ⟨?_, ih h.2 hx.2⟩
    rw [update_of_ne (Ne.symm hx.1)]
    exact h.1

theorem Chain.append {next : ι → Option ι} {t : ι} (h : Chain next (l ++ [t]))
    (hnodup : (l ++ [t]).Nodup) (hx : next x = none) (hxt : x ≠ t) :
    Chain (Function.update next t (some x)) (l ++ [t] ++ [x]) := by
  induction l with
  | nil =>
    refine ⟨by simp, ?_, trivial⟩
    rw [update_of_ne hxt, hx]
    rfl
  | cons y l ih =>
    rw [cons_append, nodup_cons] at hnodup
    have hyt : y ≠ t := fun hyt => hnodup.1 (by simp [hyt])
    refine ⟨?_, ih h.2 hnodup.2⟩
    rw [update_of_ne hyt, h.1]
    cases l <;> rfl

theorem Holds.push (h : Holds q l) (hx : x ∉ l) : Holds (q.push x) (l ++ [x]) := by
  have hnodup : (l ++ [x]).Nodup := nodup_append.mpr ⟨h.nodup, nodup_singleton x, by
      rintro a ha b hb rfl
      exact hx (mem_singleton.mp hb ▸ ha)⟩
  have hcleared : Chain (Function.update q.next x none) l := h.chain.update hx
  rcases l.eq_nil_or_concat with rfl | ⟨front, t, rfl⟩
  · have htail : q.tail = none := h.tail
    refine ⟨?_, ?_, ?_, hnodup⟩ <;> simp [IntrusiveQueue.push, htail, Chain]
  · rw [concat_eq_append] at h hx hnodup hcleared ⊢
    have htail : q.tail = some t := by simpa using h.tail
    have hxt : x ≠ t := fun hxt => hx (by simp [hxt])
    simp only [IntrusiveQueue.push, htail]
    refine ⟨?_, by simp, ?_, hnodup⟩
    · rw [h.head]
      cases front <;> rfl
    · exact hcleared.append h.nodup (update_self ..) hxt

end Contents

end IntrusiveQueue

end Support
