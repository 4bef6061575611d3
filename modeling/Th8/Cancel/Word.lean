import Th8.Cancel.Origins

/-!
# The request word

The word holds the requests that have been ORed into it since it was last zeroed.  A request
that is complete is one of these, or a clear has zeroed it, or a save has taken it.
-/

namespace Th8

open Support List

namespace Cancel

variable {m m' : Cancel}

theorem Request.or_assoc (r s t : Request) : (r.or s).or t = r.or (s.or t) := by
  simp only [Request.or, Flags.or, Bool.or_assoc]

theorem Request.or_comm (r s : Request) : r.or s = s.or r := by
  simp only [Request.or, Flags.or, Bool.or_comm]

theorem Request.or_self (r : Request) : r.or r = r := by
  simp only [Request.or, Flags.or, Bool.or_self]

def Request.Has (r bits : Request) : Prop := r.or bits = r

theorem Request.Has.canceled {r bits : Request} (h : r.Has bits) (hbits : bits.canceled) :
    r.canceled := by
  rw [← h, canceled_or, hbits, Bool.or_true]

theorem Request.has_or_right (r s : Request) : (r.or s).Has s := by
  rw [Request.Has, Request.or_assoc, Request.or_self]

theorem Request.Has.or {r bits : Request} (h : r.Has bits) (s : Request) : (r.or s).Has bits := by
  rw [Request.Has, Request.or_assoc, Request.or_comm s, ← Request.or_assoc, h]

def joined (l : List Pending) : Request := l.foldl (fun r e => r.or e.bits) .zero

theorem joined_append (l : List Pending) (e : Pending) :
    joined (l ++ [e]) = (joined l).or e.bits := by
  rw [joined, foldl_append]
  rfl

theorem joined_has {l : List Pending} {e : Pending} (he : e ∈ l) : (joined l).Has e.bits := by
  induction l using List.reverseRecOn with
  | nil => cases he
  | append_singleton l e' ih =>
    rw [joined_append]
    rcases mem_append.mp he with he | he
    · exact (ih he).or _
    · rw [mem_singleton.mp he]
      exact Request.has_or_right _ _

theorem joined_map {l : List Pending} {f : Pending → Pending}
    (hf : ∀ e, (f e).bits = e.bits) : joined (l.map f) = joined l := by
  rw [joined, foldl_map]
  simp only [hf]
  rfl

/-! ## The invariant -/

def Done (m : Cancel) (i : ℕ) : Prop :=
  ∃ p, m.publications[i]? = some p ∧ p.pc = .done

def IsPending (m : Cancel) (i : ℕ) : Prop := some i ∈ m.since.map Pending.source

structure Word (m : Cancel) : Prop where
  word : m.nCancelReq = joined m.since
  sources : ∀ e ∈ m.since, ∀ i, e.source = some i →
    ∃ c, m.calls[i]? = some c ∧ e.bits = c.flags.publish
  done : ∀ i, m.Done i ↔ m.IsPending i ∨ i ∈ m.cleared ∨ i ∈ m.saved

theorem word_fresh : Word fresh where
  word := rfl
  sources := by simp [fresh]
  done i := by simp [fresh, Done, IsPending]

variable {i : ℕ}

section

variable (h : Word m)

include h

theorem Word.has (hi : m.IsPending i) :
    ∃ c, m.calls[i]? = some c ∧ m.nCancelReq.Has c.flags.publish := by
  obtain ⟨e, he, hsource⟩ := mem_map.mp hi
  obtain ⟨c, hc, hbits⟩ := h.sources e he i hsource
  refine ⟨c, hc, ?_⟩
  rw [h.word, ← hbits]
  exact joined_has he

theorem Word.congr (hreq : m'.nCancelReq = m.nCancelReq) (hsince : m'.since = m.since)
    (hcalls : ∀ (i : ℕ) (c : Publication), m.calls[i]? = some c →
      ∃ c' : Publication, m'.calls[i]? = some c' ∧ c'.flags = c.flags)
    (hdone : ∀ i, m'.Done i ↔ m.Done i) (hcleared : m'.cleared = m.cleared)
    (hsaved : m'.saved = m.saved) : Word m' where
  word := by
    rw [hreq, hsince]
    exact h.word
  sources e he i hi := by
    rw [hsince] at he
    obtain ⟨c, hc, hbits⟩ := h.sources e he i hi
    obtain ⟨c', hc', hflags⟩ := hcalls i c hc
    exact ⟨c', hc', by rw [hbits, hflags]⟩
  done i := by
    rw [hdone, IsPending, hsince, hcleared, hsaved]
    exact h.done i

theorem Word.owner (hreq : m'.nCancelReq = m.nCancelReq)
    (hsince : m'.since = m.since) (hpublications : m'.publications = m.publications)
    (hcleared : m'.cleared = m.cleared) (hsaved : m'.saved = m.saved) : Word m' := by
  refine h.congr hreq hsince (fun i c hc => ⟨c, ?_, rfl⟩) (fun i => ?_) hcleared hsaved
  · rwa [calls, hpublications]
  · rw [Done, hpublications]
    rfl

theorem Word.publisher {p p' : Publication} (hp : m.publications[i]? = some p)
    (hflags : p'.flags = p.flags) (hpc : p'.pc = .done ↔ p.pc = .done)
    (hpublications : m'.publications = m.publications.set i p')
    (hreq : m'.nCancelReq = m.nCancelReq) (hsince : m'.since = m.since)
    (hcleared : m'.cleared = m.cleared) (hsaved : m'.saved = m.saved) : Word m' := by
  have hi : i < m.publications.length := (List.getElem?_eq_some_iff.mp hp).1
  refine h.congr hreq hsince (fun j c hc => ?_) (fun j => ?_) hcleared hsaved
  · rw [calls, getElem?_map] at hc
    rw [calls, getElem?_map, hpublications, getElem?_set]
    split_ifs with heq
    · subst heq
      rw [hp] at hc
      rw [← Option.some.inj hc]
      exact ⟨p'.call, rfl, hflags⟩
    · exact ⟨c, hc, rfl⟩
  · rw [Done, Done, hpublications, getElem?_set]
    split_ifs with heq
    · subst heq
      simp [hp, hpc]
    · rfl

theorem Word.orBits (bits : Request) (message : Bool) : Word (m.orBits none bits message) where
  word := by
    rw [Cancel.orBits, joined_append, h.word]
  sources e he i hi := by
    rcases mem_append.mp he with he | he
    · exact h.sources e he i hi
    · rw [mem_singleton.mp he] at hi
      cases hi
  done i := by
    have hpending : (m.orBits none bits message).IsPending i ↔ m.IsPending i := by
      simp [IsPending, Cancel.orBits]
    rw [hpending]
    exact h.done i

theorem Word.complete {p : Publication} (hp : m.publications[i]? = some p) (message : Bool) :
    Word ((m.setPublication i { p with pc := .done }).orBits (some i) p.flags.publish message) where
  word := by
    rw [Cancel.orBits, joined_append]
    change m.nCancelReq.or _ = (joined m.since).or _
    rw [h.word]
  sources e he j hj := by
    have hcalls : ((m.setPublication i { p with pc := .done }).orBits (some i)
        p.flags.publish message).calls = m.calls := calls_setPublication hp .done
    rw [hcalls]
    rcases mem_append.mp he with he | he
    · exact h.sources e he j hj
    · rw [mem_singleton.mp he] at hj ⊢
      rw [← Option.some.inj hj]
      exact ⟨p.call, call_of_publication hp, rfl⟩
  done j := by
    have hi : i < m.publications.length := (List.getElem?_eq_some_iff.mp hp).1
    have hpending : ((m.setPublication i { p with pc := .done }).orBits (some i)
        p.flags.publish message).IsPending j ↔ j = i ∨ m.IsPending j := by
      simp [IsPending, Cancel.orBits, Cancel.setPublication, or_comm]
    have hdone : ((m.setPublication i { p with pc := .done }).orBits (some i)
        p.flags.publish message).Done j ↔ j = i ∨ m.Done j := by
      simp only [Done, Cancel.orBits, Cancel.setPublication, getElem?_set]
      by_cases heq : i = j
      · simp [← heq, hi]
      · simp [heq, Ne.symm heq]
    rw [hpending, hdone, or_assoc]
    exact or_congr_right (h.done j)

end

theorem filterMap_source (l : List Pending) (i : ℕ) :
    i ∈ l.filterMap Pending.source ↔ some i ∈ l.map Pending.source := by
  simp [mem_filterMap, mem_map]

theorem Word.step (h : Word m) {i : Move} (hstep : Step m i m') : Word m' := by
  cases hstep with
  | publish flags zMsg =>
    refine h.congr rfl rfl (fun j c hc => ⟨c, ?_, rfl⟩) (fun j => ?_) rfl rfl
    · rw [calls_publish, List.getElem?_append_left (List.getElem?_eq_some_iff.mp hc).1]
      exact hc
    · rw [Done, Done, publish, getElem?_append]
      by_cases hj : j < m.publications.length
      · rw [if_pos hj]
      · rw [if_neg hj, getElem?_eq_none (Nat.le_of_not_lt hj)]
        refine iff_of_false ?_ (by simp)
        rintro ⟨p, hp, hpc⟩
        rw [mem_singleton.mp (mem_of_getElem? hp)] at hpc
        split_ifs at hpc
  | @publisherReads j _ p pc hp hpc =>
    refine h.publisher hp ?_ ?_ rfl rfl rfl rfl rfl
    · rfl
    · cases hold : p.pc <;> cases hnew : pc <;> simp_all [PublishPc.unread]
  | build hp hpc =>
    refine h.publisher hp ?_ ?_ rfl rfl rfl rfl rfl
    · rfl
    · simp [hpc]
  | buildFails hp hpc =>
    refine h.publisher hp ?_ ?_ rfl rfl rfl rfl rfl
    · rfl
    · simp [hpc]
  | attach hp hpc =>
    refine h.publisher hp ?_ ?_ rfl rfl rfl rfl rfl
    · rfl
    · cases m.nCancelReqMsg <;> simp [hpc, afterAttach]
  | freeOld hp hpc =>
    refine h.publisher hp ?_ ?_ rfl rfl rfl rfl rfl
    · rfl
    · simp [hpc]
  | orReq hp hpc => exact h.complete hp _
  | cancelOr howner => exact (h.orBits _ _).owner rfl rfl rfl rfl rfl
  | clearZero howner =>
    refine ⟨rfl, (fun e he => by cases he), fun j => (h.done j).trans ?_⟩
    simp only [IsPending, map_nil, not_mem_nil, false_or, mem_append, filterMap_source]
    tauto
  | saveRead howner =>
    refine ⟨?_, fun e he j hj => ?_, fun j => ?_⟩
    · have hsame : joined m.saveRead.since = joined m.since := by
        rw [saveRead]
        exact joined_map fun _ => rfl
      exact h.word.trans hsame.symm
    · obtain ⟨e', he', rfl⟩ := mem_map.mp he
      exact h.sources e' he' j hj
    · have hpending : m.saveRead.IsPending j ↔ m.IsPending j := by
        simp [IsPending, saveRead]
      rw [hpending]
      exact h.done j
  | saveZero howner hsaves hsame =>
    refine ⟨rfl, (fun e he => by cases he), fun j => (h.done j).trans ?_⟩
    simp only [IsPending, map_nil, not_mem_nil, false_or, mem_append, filterMap_source]
    tauto
  | @restoreOr _ i s before howner hs =>
    let m₁ : Cancel := { m with saves := m.saves.eraseIdx i }
    have hm₁ : Word m₁ := h.owner rfl rfl rfl rfl rfl
    exact (hm₁.orBits s.bCanceled s.own.zCancelMsg.isSome).owner rfl rfl rfl rfl rfl
  | @cancelEval unwind hasMemory zMsg howner =>
    cases zMsg with
    | none => exact h.owner rfl rfl rfl rfl rfl
    | some text => cases hasMemory <;> exact h.owner rfl rfl rfl rfl rfl
  | adoptInstall howner =>
    rw [adoptInstall]
    split_ifs <;> exact h.owner rfl rfl rfl rfl rfl
  | _ => exact h.owner rfl rfl rfl rfl rfl

end Cancel

end Th8
