import Mathlib.Data.List.Count
import Mathlib.Data.List.Nodup
import Mathlib.Data.List.Perm.Basic
import Mathlib.Data.List.Range

/-!
# Things that are released once
-/

namespace Support

open List

/-!
## Custody of things that are destroyed once

Things are in the entries of tables, or they are in custody: they wait in a queue for
their destruction, they are in a list of things still to be destroyed, or their
destruction is under way.  A record is kept of what has been queued and of what has been
destroyed, with a level for each destruction.  As long as a thing leaves its entry when
it goes into custody, what has been queued is destroyed once, in the order of the queue
and at level zero.
-/

section Record

variable {ι : Type} [DecidableEq ι]

/-- What was queued has been destroyed once, in order and at level zero, or it waits. -/
structure DestroyedOnce (queued : List ι) (destroyed : List (ι × ℕ)) (waiting : List ι) : Prop where
  nodup : queued.Nodup
  order : (destroyed.map Prod.fst).filter (· ∈ queued) ++ waiting = queued
  atZero : ∀ e ∈ destroyed, e.1 ∈ queued → e.2 = 0

namespace DestroyedOnce

variable {queued waiting : List ι} {destroyed : List (ι × ℕ)} {x : ι}

theorem nil : DestroyedOnce ([] : List ι) [] [] :=
  ⟨nodup_nil, rfl, by simp⟩

theorem mem_of_waiting (h : DestroyedOnce queued destroyed waiting) (hx : x ∈ waiting) :
    x ∈ queued := by
  rw [← h.order]
  exact mem_append_right _ hx

theorem queue (h : DestroyedOnce queued destroyed waiting) (hq : x ∉ queued)
    (hd : x ∉ destroyed.map Prod.fst) :
    DestroyedOnce (queued ++ [x]) destroyed (waiting ++ [x]) := by
  refine ⟨?_, ?_, ?_⟩
  · rw [nodup_append]
    refine ⟨h.nodup, nodup_singleton x, ?_⟩
    rintro a ha b hb rfl
    exact hq (mem_singleton.mp hb ▸ ha)
  · have hsame : (destroyed.map Prod.fst).filter (· ∈ queued ++ [x]) =
        (destroyed.map Prod.fst).filter (· ∈ queued) := by
      refine filter_congr fun y hy => ?_
      have hyx : y ≠ x := fun hyx => hd (hyx ▸ hy)
      simp [hyx]
    rw [hsame, ← append_assoc, h.order]
  · intro e he heq
    rcases mem_append.mp heq with heq | heq
    · exact h.atZero e he heq
    · exact absurd (mem_map_of_mem he) (mem_singleton.mp heq ▸ hd)

theorem destroyFirst (h : DestroyedOnce queued destroyed (x :: waiting)) :
    DestroyedOnce queued (destroyed ++ [(x, 0)]) waiting := by
  have hx : x ∈ queued := h.mem_of_waiting mem_cons_self
  refine ⟨h.nodup, ?_, ?_⟩
  · have horder := h.order
    simp only [map_append, filter_append, map_cons, map_nil,
      filter_cons, hx, decide_true, if_true, filter_nil, append_assoc, singleton_append]
    exact horder
  · intro e he heq
    rcases mem_append.mp he with he | he
    · exact h.atZero e he heq
    · rw [mem_singleton.mp he]

theorem destroyOther (h : DestroyedOnce queued destroyed waiting) (hx : x ∉ queued)
    (level : ℕ) : DestroyedOnce queued (destroyed ++ [(x, level)]) waiting := by
  refine ⟨h.nodup, ?_, ?_⟩
  · rw [map_append, filter_append]
    simpa [hx] using h.order
  · intro e he heq
    rcases mem_append.mp he with he | he
    · exact h.atZero e he heq
    · rw [mem_singleton.mp he] at heq
      exact absurd heq hx

end DestroyedOnce

end Record

section Custody

variable {κ ι : Type} [DecidableEq ι]

/-- Where the things are: in entries, waiting, still to be destroyed, or being
destroyed. -/
structure Custody (Entry : κ → ι → Prop) (live : ι → Prop) (queued : List ι)
    (destroyed : List (ι × ℕ)) (waiting todo dying : List ι) : Prop where
  unique : ∀ a b x, Entry a x → Entry b x → a = b
  ofEntry : ∀ a x, Entry a x →
    live x ∧ x ∉ queued ∧ x ∉ destroyed.map Prod.fst ∧ x ∉ todo ∧ x ∉ dying
  ofTodo : ∀ x ∈ todo, live x ∧ x ∉ queued ∧ x ∉ destroyed.map Prod.fst ∧ x ∉ dying
  ofWaiting : ∀ x ∈ waiting, live x ∧ x ∉ dying
  ofDying : ∀ x ∈ dying, live x
  nodupTodo : todo.Nodup
  nodupDying : dying.Nodup
  once : DestroyedOnce queued destroyed waiting

namespace Custody

variable {Entry Entry' : κ → ι → Prop} {live live' : ι → Prop}
  {queued waiting todo dying : List ι} {destroyed : List (ι × ℕ)} {x : ι} {a : κ}

section

variable (h : Custody Entry live queued destroyed waiting todo dying)

include h

theorem shrink (hentry : ∀ b y, Entry' b y → Entry b y) :
    Custody Entry' live queued destroyed waiting todo dying where
  unique b c y hb hc := h.unique b c y (hentry b y hb) (hentry c y hc)
  ofEntry b y hb := h.ofEntry b y (hentry b y hb)
  ofTodo := h.ofTodo
  ofWaiting := h.ofWaiting
  ofDying := h.ofDying
  nodupTodo := h.nodupTodo
  nodupDying := h.nodupDying
  once := h.once

theorem queueEntry (ha : Entry a x) (hentry : ∀ b y, Entry' b y → Entry b y ∧ b ≠ a) :
    Custody Entry' live (queued ++ [x]) destroyed (waiting ++ [x]) todo dying := by
  obtain ⟨hlive, hq, hd, htodo, hdying⟩ := h.ofEntry a x ha
  have hother : ∀ b y, Entry' b y → y ≠ x := by
    rintro b y hb rfl
    exact (hentry b y hb).2 (h.unique b a y (hentry b y hb).1 ha)
  refine ⟨?_, ?_, ?_, ?_, h.ofDying, h.nodupTodo, h.nodupDying, h.once.queue hq hd⟩
  · intro b c y hb hc
    exact h.unique b c y (hentry b y hb).1 (hentry c y hc).1
  · intro b y hb
    obtain ⟨hl, hyq, hrest⟩ := h.ofEntry b y (hentry b y hb).1
    exact ⟨hl, by simpa using ⟨hyq, hother b y hb⟩, hrest⟩
  · intro y hy
    obtain ⟨hl, hyq, hrest⟩ := h.ofTodo y hy
    exact ⟨hl, by simpa using ⟨hyq, fun hyx : y = x => htodo (hyx ▸ hy)⟩, hrest⟩
  · intro y hy
    rcases mem_append.mp hy with hy | hy
    · exact h.ofWaiting y hy
    · obtain rfl : y = x := mem_singleton.mp hy
      exact ⟨hlive, hdying⟩

theorem destroy {waiting' : List ι} {level : ℕ} (hlive : live x)
    (hdying : x ∉ dying) (hentry : ∀ b, ¬Entry b x) (htodo : x ∉ todo)
    (hwaiting : ∀ y ∈ waiting', y ∈ waiting ∧ y ≠ x)
    (honce : DestroyedOnce queued (destroyed ++ [(x, level)]) waiting') :
    Custody Entry live queued (destroyed ++ [(x, level)]) waiting' todo (x :: dying) := by
  have hnew : ∀ y, y ≠ x → y ∉ destroyed.map Prod.fst → y ∉ dying →
      y ∉ (destroyed ++ [(x, level)]).map Prod.fst ∧ y ∉ x :: dying := by
    intro y hyx hyd hydy
    exact ⟨by simpa using ⟨by simpa using hyd, hyx⟩, by simp [hyx, hydy]⟩
  refine ⟨h.unique, ?_, ?_, ?_, ?_, h.nodupTodo, nodup_cons.mpr ⟨hdying, h.nodupDying⟩, honce⟩
  · intro b y hb
    obtain ⟨hl, hyq, hyd, hyt, hydy⟩ := h.ofEntry b y hb
    obtain ⟨hyd', hydy'⟩ := hnew y (fun hyx => hentry b (hyx ▸ hb)) hyd hydy
    exact ⟨hl, hyq, hyd', hyt, hydy'⟩
  · intro y hy
    obtain ⟨hl, hyq, hyd, hydy⟩ := h.ofTodo y hy
    exact ⟨hl, hyq, hnew y (fun hyx => htodo (hyx ▸ hy)) hyd hydy⟩
  · intro y hy
    obtain ⟨hy, hyx⟩ := hwaiting y hy
    obtain ⟨hl, hydy⟩ := h.ofWaiting y hy
    exact ⟨hl, by simp [hyx, hydy]⟩
  · intro y hy
    rcases mem_cons.mp hy with rfl | hy
    · exact hlive
    · exact h.ofDying y hy

end

theorem destroyFirst (h : Custody Entry live queued destroyed (x :: waiting) todo dying) :
    Custody Entry live queued (destroyed ++ [(x, 0)]) waiting todo (x :: dying) := by
  obtain ⟨hlive, hdying⟩ := h.ofWaiting x mem_cons_self
  have hq : x ∈ queued := h.once.mem_of_waiting mem_cons_self
  have hnodup : (x :: waiting).Nodup := by
    have := h.once.nodup
    rw [← h.once.order, nodup_append] at this
    exact this.2.1
  refine h.destroy hlive hdying (fun b hb => (h.ofEntry b x hb).2.1 hq)
    (fun hx => (h.ofTodo x hx).2.1 hq) (fun y hy => ⟨mem_cons_of_mem x hy, ?_⟩) h.once.destroyFirst
  exact fun hyx => (nodup_cons.mp hnodup).1 (hyx ▸ hy)

theorem destroyNext (h : Custody Entry live queued destroyed waiting (x :: todo) dying)
    (level : ℕ) :
    Custody Entry live queued (destroyed ++ [(x, level)]) waiting todo (x :: dying) := by
  obtain ⟨hlive, hq, hd, hdying⟩ := h.ofTodo x mem_cons_self
  have hnodup := nodup_cons.mp h.nodupTodo
  have hrest : Custody Entry live queued destroyed waiting todo dying :=
    { h with
      ofEntry := fun b y hb =>
        have ⟨hl, hyq, hyd, hyt, hydy⟩ := h.ofEntry b y hb
        ⟨hl, hyq, hyd, fun hy => hyt (mem_cons_of_mem x hy), hydy⟩
      ofTodo := fun y hy => h.ofTodo y (mem_cons_of_mem x hy)
      nodupTodo := hnodup.2 }
  refine hrest.destroy hlive hdying (fun b hb => (h.ofEntry b x hb).2.2.2.1 mem_cons_self) hnodup.1
    (fun y hy => ⟨hy, ?_⟩) (h.once.destroyOther hq level)
  exact fun hyx => hq (hyx ▸ h.once.mem_of_waiting hy)

section

variable (h : Custody Entry live queued destroyed waiting todo dying)

include h

theorem take (l : List ι) (hl : ∀ y ∈ l, ∃ b, Entry b y) (hnodup : l.Nodup)
    (hentry : ∀ b y, Entry' b y → Entry b y ∧ y ∉ l) :
    Custody Entry' live queued destroyed waiting (l ++ todo) dying := by
  refine ⟨?_, ?_, ?_, h.ofWaiting, h.ofDying, ?_, h.nodupDying, h.once⟩
  · intro b c y hb hc
    exact h.unique b c y (hentry b y hb).1 (hentry c y hc).1
  · intro b y hb
    obtain ⟨hlive, hyq, hyd, hyt, hydy⟩ := h.ofEntry b y (hentry b y hb).1
    exact ⟨hlive, hyq, hyd, by simpa using ⟨(hentry b y hb).2, hyt⟩, hydy⟩
  · intro y hy
    rcases mem_append.mp hy with hy | hy
    · obtain ⟨b, hb⟩ := hl y hy
      obtain ⟨hlive, hyq, hyd, -, hydy⟩ := h.ofEntry b y hb
      exact ⟨hlive, hyq, hyd, hydy⟩
    · exact h.ofTodo y hy
  · rw [nodup_append]
    refine ⟨hnodup, h.nodupTodo, ?_⟩
    rintro y hy z hz rfl
    obtain ⟨b, hb⟩ := hl y hy
    exact (h.ofEntry b y hb).2.2.2.1 hz

theorem destroyEntry (ha : Entry a x) (hentry : ∀ b y, Entry' b y → Entry b y ∧ b ≠ a) (level : ℕ) :
    Custody Entry' live queued (destroyed ++ [(x, level)]) waiting todo (x :: dying) := by
  refine (h.take [x] (by simpa using ⟨a, ha⟩) (nodup_singleton x) ?_).destroyNext level
  intro b y hb
  obtain ⟨hb, hba⟩ := hentry b y hb
  exact ⟨hb, fun hy => hba (h.unique b a x (mem_singleton.mp hy ▸ hb) ha)⟩

theorem link (a : κ) (x : ι) (hlive : ¬live x) (hq : x ∉ queued) (hd : x ∉ destroyed.map Prod.fst)
    (hlive' : ∀ y, live y ∨ y = x → live' y)
    (hentry : ∀ b y, Entry' b y → Entry b y ∨ b = a ∧ y = x) :
    Custody Entry' live' queued destroyed waiting todo dying := by
  have hnot : ∀ b, ¬Entry b x := fun b hb => hlive (h.ofEntry b x hb).1
  refine ⟨?_, ?_, ?_, ?_, fun y hy => hlive' y (.inl (h.ofDying y hy)), h.nodupTodo,
    h.nodupDying, h.once⟩
  · intro b c y hb hc
    rcases hentry b y hb with hb | ⟨rfl, rfl⟩
    · rcases hentry c y hc with hc | ⟨rfl, rfl⟩
      · exact h.unique b c y hb hc
      · exact absurd hb (hnot b)
    · rcases hentry c y hc with hc | ⟨rfl, -⟩
      · exact absurd hc (hnot c)
      · rfl
  · intro b y hb
    rcases hentry b y hb with hb | ⟨rfl, rfl⟩
    · obtain ⟨hl, hrest⟩ := h.ofEntry b y hb
      exact ⟨hlive' y (.inl hl), hrest⟩
    · exact ⟨hlive' y (.inr rfl), hq, hd, fun hy => hlive (h.ofTodo y hy).1,
        fun hy => hlive (h.ofDying y hy)⟩
  · intro y hy
    obtain ⟨hl, hrest⟩ := h.ofTodo y hy
    exact ⟨hlive' y (.inl hl), hrest⟩
  · intro y hy
    obtain ⟨hl, hrest⟩ := h.ofWaiting y hy
    exact ⟨hlive' y (.inl hl), hrest⟩

theorem liveMono (hlive : ∀ y, live y → live' y) :
    Custody Entry live' queued destroyed waiting todo dying where
  unique := h.unique
  ofEntry b y hb := ⟨hlive y (h.ofEntry b y hb).1, (h.ofEntry b y hb).2⟩
  ofTodo y hy := ⟨hlive y (h.ofTodo y hy).1, (h.ofTodo y hy).2⟩
  ofWaiting y hy := ⟨hlive y (h.ofWaiting y hy).1, (h.ofWaiting y hy).2⟩
  ofDying y hy := hlive y (h.ofDying y hy)
  nodupTodo := h.nodupTodo
  nodupDying := h.nodupDying
  once := h.once

end

theorem release (h : Custody Entry live queued destroyed waiting todo (x :: dying))
    (hlive : ∀ y, live y → y ≠ x → live' y) :
    Custody Entry live' queued destroyed waiting todo dying := by
  have hnodup := nodup_cons.mp h.nodupDying
  refine ⟨h.unique, ?_, ?_, ?_, ?_, h.nodupTodo, hnodup.2, h.once⟩
  · intro b y hb
    obtain ⟨hl, hyq, hyd, hyt, hydy⟩ := h.ofEntry b y hb
    rw [mem_cons, not_or] at hydy
    exact ⟨hlive y hl hydy.1, hyq, hyd, hyt, hydy.2⟩
  · intro y hy
    obtain ⟨hl, hyq, hyd, hydy⟩ := h.ofTodo y hy
    rw [mem_cons, not_or] at hydy
    exact ⟨hlive y hl hydy.1, hyq, hyd, hydy.2⟩
  · intro y hy
    obtain ⟨hl, hydy⟩ := h.ofWaiting y hy
    rw [mem_cons, not_or] at hydy
    exact ⟨hlive y hl hydy.1, hydy.2⟩
  · intro y hy
    exact hlive y (h.ofDying y (mem_cons_of_mem x hy)) fun hyx => hnodup.1 (hyx ▸ hy)

end Custody

end Custody

/-!
## Numbered things that are released once

Things get numbers as they are made.  Each is held in one place until it is released, and
it is released once.  The rules say what a step may do with what is held: pass it on, make
one thing more, or release one.
-/

def Accounted (held released : List ℕ) (next : ℕ) : Prop :=
  ∀ n, held.count n + released.count n = if n < next then 1 else 0

namespace Accounted

variable {held held' released released' : List ℕ} {next x : ℕ}

theorem nil : Accounted [] [] 0 := fun n => by simp

section

variable (h : Accounted held released next)

include h

theorem pass (hheld : ∀ n, held'.count n = held.count n) : Accounted held' released next := by
  intro n
  rw [hheld]
  exact h n

theorem make (hheld : ∀ n, held'.count n = held.count n + [next].count n) :
    Accounted held' released (next + 1) := by
  intro n
  have hn := h n
  rw [hheld, count_singleton]
  by_cases heq : next = n
  · rw [← heq, if_neg (Nat.lt_irrefl next)] at hn
    rw [← heq, if_pos (Nat.lt_succ_self next), beq_self_eq_true, if_pos rfl]
    omega
  · have hlt : n < next + 1 ↔ n < next := by omega
    simp only [hlt, beq_iff_eq, heq, if_false]
    omega

theorem release {l : List ℕ} (hheld : ∀ n, held'.count n + l.count n = held.count n) :
    Accounted held' (released ++ l) next := by
  intro n
  have hn := h n
  rw [← hheld] at hn
  rw [count_append]
  omega

theorem replace {l : List ℕ}
    (hheld : ∀ n, held'.count n + l.count n = held.count n + [next].count n) :
    Accounted held' (released ++ l) (next + 1) := by
  have hmade : Accounted (held ++ [next]) released (next + 1) := h.make fun n => count_append
  refine hmade.release fun n => ?_
  rw [hheld, count_append]

theorem perm : (held ++ released).Perm (List.range next) := by
  refine perm_iff_count.mpr fun n => ?_
  rw [count_append]
  refine (h n).trans ?_
  split_ifs with hn
  · exact (count_eq_one_of_mem nodup_range (mem_range.mpr hn)).symm
  · exact (count_eq_zero_of_not_mem fun hmem => hn (mem_range.mp hmem)).symm

theorem notMem_released (hx : x ∈ held) : x ∉ released := by
  intro hreleased
  have hn := h x
  have hheld := count_pos_iff.mpr hx
  have hpos := count_pos_iff.mpr hreleased
  split_ifs at hn <;> omega

end

end Accounted

section Places

variable {α : Type} {l : List α} {i : ℕ} {a : α}

theorem count_flatMap_eraseIdx (ha : l[i]? = some a) (f : α → List ℕ) (n : ℕ) :
    ((l.eraseIdx i).flatMap f).count n + (f a).count n = (l.flatMap f).count n := by
  obtain ⟨hi, rfl⟩ := List.getElem?_eq_some_iff.mp ha
  have hperm := ((getElem_cons_eraseIdx_perm hi).flatMap_right f).count_eq n
  rw [flatMap_cons, count_append] at hperm
  omega

theorem count_flatMap_set (ha : l[i]? = some a) (b : α) (f : α → List ℕ) (n : ℕ) :
    ((l.set i b).flatMap f).count n + (f a).count n = (l.flatMap f).count n + (f b).count n := by
  have hi := (List.getElem?_eq_some_iff.mp ha).1
  have herase := count_flatMap_eraseIdx ha f n
  have hperm := ((set_perm_cons_eraseIdx hi b).flatMap_right f).count_eq n
  rw [flatMap_cons, count_append] at hperm
  omega

end Places

end Support
