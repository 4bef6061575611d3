import Th8.Cancel.Word

/-!
# Requests and their messages

A clear zeroes the word and then empties the slot, and a publisher attaches its message and
then ORs its request in.  As long as what is attached when the word is zeroed belongs to a
request that is in the word, and nothing is attached until the slot is emptied, a clear takes
a request with its message, or neither.
-/

namespace Th8

open Support List Option Nat

namespace Cancel

variable {m m' : Cancel}

def OwnerPc.clearing : OwnerPc → Bool
  | .clearExchange _ => true
  | _ => false

theorem OwnerPc.clearing_unread (pc : OwnerPc) : pc.unread.clearing = pc.clearing := by
  cases pc <;> rfl

def AttachedPending (m : Cancel) : Prop :=
  ∀ b, m.nCancelReqMsg = some b → ∀ i, m.BuiltBy i b → m.IsPending i

def CoherentAllowed (m : Cancel) (i : Move) : Prop :=
  KeepsMessages m i ∧
    match i with
    | .owner _ => m.owner = .clearZero (some m.nCancelReq) → AttachedPending m
    | .publisher i _ => ∀ p pBuf, m.publications[i]? = some p →
        p.pc = .exchange pBuf (some m.nCancelReqMsg) → m.owner.clearing = false
    | _ => True

/-! ## The invariant -/

structure Whole (m : Cancel) : Prop where
  located : ∀ (i : ℕ) (p : Publication) b, m.publications[i]? = some p → p.pBuf = some b →
    (∃ seen, p.pc = .exchange b seen) ∨ m.nCancelReqMsg = some b ∨ ∃ taker, (b, taker) ∈ m.taken
  taken : ∀ e ∈ m.taken, e.1 < m.texts.length
  detached : ∀ i ∈ m.cleared, ∀ b, m.BuiltBy i b → m.nCancelReqMsg = some b → m.owner.clearing
  takenCleared : ∀ b, (b, .clear) ∈ m.taken → ∀ i, m.BuiltBy i b → i ∈ m.cleared
  clearing : m.owner.clearing → ∀ b, m.nCancelReqMsg = some b → ∀ i, m.BuiltBy i b → i ∈ m.cleared

theorem whole_fresh : Whole fresh where
  located := by simp [fresh]
  taken := by simp [fresh]
  detached := by simp [fresh]
  takenCleared := by simp [fresh]
  clearing h := by cases h

theorem Whole.owner (h : Whole m) (hpublications : m'.publications = m.publications)
    (hslot : m'.nCancelReqMsg = m.nCancelReqMsg) (htaken : m'.taken = m.taken)
    (htexts : m.texts.length ≤ m'.texts.length) (hcleared : m'.cleared = m.cleared)
    (howner : m'.owner.clearing = m.owner.clearing) : Whole m' := by
  have hbuilt (i b : ℕ) : m'.BuiltBy i b ↔ m.BuiltBy i b := by
    rw [BuiltBy, BuiltBy, calls, calls, hpublications]
  refine ⟨?_, fun e he => ?_, fun i hi b hb => ?_, fun b hb i hi => ?_, ?_⟩
  · rw [hpublications, hslot, htaken]
    exact h.located
  · rw [htaken] at he
    exact lt_of_lt_of_le (h.taken e he) htexts
  · rw [hslot, howner]
    rw [hcleared] at hi
    exact h.detached i hi b ((hbuilt i b).mp hb)
  · rw [htaken] at hb
    rw [hcleared]
    exact h.takenCleared b hb i ((hbuilt i b).mp hi)
  · rw [howner, hslot, hcleared]
    exact fun hclearing b hb i hi => h.clearing hclearing b hb i ((hbuilt i b).mp hi)

variable {i : ℕ} {p : Publication}

theorem Whole.publisher (h : Whole m) {pc : PublishPc} (hp : m.publications[i]? = some p)
    (hpc : ∀ b seen, p.pc = .exchange b seen → ∃ seen', pc = .exchange b seen') :
    Whole (m.setPublication i { p with pc := pc }) := by
  have hbuilt (j b : ℕ) : (m.setPublication i { p with pc := pc }).BuiltBy j b ↔ m.BuiltBy j b := by
    rw [BuiltBy, BuiltBy, calls_setPublication hp]
  refine ⟨fun j p' b hp' hb => ?_, h.taken, fun j hj b hb => ?_, fun b hb j hj => ?_,
    fun hclearing b hb j hj => ?_⟩
  · rw [setPublication, getElem?_set] at hp'
    split_ifs at hp' with heq
    · rw [← some.inj hp'] at hb ⊢
      rcases h.located i p b hp hb with ⟨seen, hseen⟩ | hrest
      · exact .inl (hpc b seen hseen)
      · exact .inr hrest
    · exact h.located j p' b hp' hb
  · exact h.detached j hj b ((hbuilt j b).mp hb)
  · exact h.takenCleared b hb j ((hbuilt j b).mp hj)
  · exact h.clearing hclearing b hb j ((hbuilt j b).mp hj)

theorem Whole.publish (h : Whole m) (flags : Flags) (zMsg : Text) :
    Whole (m.publish flags zMsg) := by
  have hbuilt := builtBy_publish m flags zMsg
  refine ⟨fun j p b hp hb => ?_, h.taken, fun j hj b hb => ?_, fun b hb j hj => ?_,
    fun hclearing b hb j hj => ?_⟩
  · rw [Cancel.publish, getElem?_append] at hp
    by_cases hj : j < m.publications.length
    · rw [if_pos hj] at hp
      exact h.located j p b hp hb
    · rw [if_neg hj] at hp
      rw [mem_singleton.mp (mem_of_getElem? hp)] at hb
      cases hb
  · exact h.detached j hj b ((hbuilt j b).mp hb)
  · exact h.takenCleared b hb j ((hbuilt j b).mp hj)
  · exact h.clearing hclearing b hb j ((hbuilt j b).mp hj)

theorem Whole.build (h : Whole m) (horigins : Origins m) (hp : m.publications[i]? = some p)
    (hpc : p.pc = .build) :
    Whole { m.setPublication i
        { p with pc := .exchange m.texts.length none, pBuf := some m.texts.length } with
      texts := m.texts ++ [p.zMsg] } := by
  have hnone : p.pBuf = none := horigins.unbuilt hp hpc
  have hold {j b : ℕ} (hb : b < m.texts.length)
      (hbuilt : BuiltBy { m.setPublication i
          { p with pc := .exchange m.texts.length none, pBuf := some m.texts.length } with
        texts := m.texts ++ [p.zMsg] } j b) : m.BuiltBy j b := by
    rcases (builtBy_set hp hnone rfl j b).mp hbuilt with ⟨-, rfl⟩ | hbuilt
    · exact absurd hb (lt_irrefl _)
    · exact hbuilt
  have hattached {b : ℕ} (hb : m.nCancelReqMsg = some b) : b < m.texts.length := by
    obtain ⟨j, hj⟩ := horigins.attached b hb
    exact horigins.built_lt hj
  refine ⟨fun j p' b hp' hb => ?_, fun e he => ?_, fun j hj b hb hslot => ?_,
    fun b hb j hj => ?_, fun hclearing b hb j hj => ?_⟩
  · rw [setPublication, getElem?_set] at hp'
    split_ifs at hp' with heq
    · rw [← some.inj hp'] at hb ⊢
      exact .inl ⟨none, by rw [some.inj hb]⟩
    · exact h.located j p' b hp' hb
  · rw [length_append]
    exact Nat.lt_add_right _ (h.taken e he)
  · exact h.detached j hj b (hold (hattached hslot) hb) hslot
  · exact h.takenCleared b hb j (hold (h.taken _ hb) hj)
  · exact h.clearing hclearing b hb j (hold (hattached hb) hj)

theorem mem_exchangeMsg (new : Option ℕ) {taker : Taker} {e : ℕ × Taker} :
    e ∈ (m.exchangeMsg new taker).taken ↔
      e ∈ m.taken ∨ m.nCancelReqMsg = some e.1 ∧ e.2 = taker := by
  rw [exchangeMsg, mem_append]
  refine or_congr_right ?_
  cases m.nCancelReqMsg with
  | none => simp
  | some b => simp [Prod.ext_iff, eq_comm]

theorem Whole.attach (h : Whole m) (horigins : Origins m) (hword : Word m) {pBuf : ℕ}
    (hp : m.publications[i]? = some p) (hpc : p.pc = .exchange pBuf (some m.nCancelReqMsg))
    (hclearing : m.owner.clearing = false) :
    Whole ((m.setPublication i { p with pc := afterAttach m.nCancelReqMsg }).exchangeMsg
      (some pBuf) .publisher) := by
  set m₁ := m.setPublication i { p with pc := afterAttach m.nCancelReqMsg } with hm₁
  have hbuilt (j b : ℕ) : (m₁.exchangeMsg (some pBuf) .publisher).BuiltBy j b ↔ m.BuiltBy j b := by
    change m₁.BuiltBy j b ↔ m.BuiltBy j b
    rw [BuiltBy, BuiltBy, hm₁, calls_setPublication hp]
  have hown : m.BuiltBy i pBuf := by
    have hfits := horigins.fits p (mem_of_getElem? hp)
    rw [Publication.Fits, hpc] at hfits
    exact ⟨p.call, call_of_publication hp, hfits⟩
  refine ⟨fun j p' b hp' hb => ?_, fun e he => ?_, fun j hj b hb hslot => ?_,
    fun b hb j hj => ?_, fun hbusy => ?_⟩
  · change (m.publications.set i _)[j]? = some p' at hp'
    rw [getElem?_set] at hp'
    split_ifs at hp' with heq
    · rw [← some.inj hp'] at hb
      have hsame : pBuf = b := by
        obtain ⟨c, hc, hbuf⟩ := hown
        rw [call_of_publication hp] at hc
        rw [← some.inj hc] at hbuf
        exact some.inj (hbuf.symm.trans hb)
      exact .inr (.inl (congrArg some hsame))
    · rcases h.located j p' b hp' hb with hexchange | hslot | ⟨taker, htaken⟩
      · exact .inl hexchange
      · exact .inr (.inr ⟨.publisher, (mem_exchangeMsg _).mpr (.inr ⟨hslot, rfl⟩)⟩)
      · exact .inr (.inr ⟨taker, (mem_exchangeMsg _).mpr (.inl htaken)⟩)
  · rcases (mem_exchangeMsg _).mp he with he | ⟨hslot, -⟩
    · exact h.taken e he
    · obtain ⟨j, hj⟩ := horigins.attached e.1 hslot
      exact horigins.built_lt hj
  · cases hslot
    obtain rfl : j = i := horigins.injective j i pBuf ((hbuilt j pBuf).mp hb) hown
    obtain ⟨p', hp', hdone⟩ := (hword.done j).mpr (.inr (.inl hj))
    rw [hp] at hp'
    rw [← some.inj hp', hpc] at hdone
    cases hdone
  · rcases (mem_exchangeMsg _).mp hb with hb | ⟨-, htaker⟩
    · exact h.takenCleared b hb j ((hbuilt j b).mp hj)
    · cases htaker
  · change m.owner.clearing = true at hbusy
    rw [hclearing] at hbusy
    cases hbusy

theorem Whole.take (h : Whole m) (horigins : Origins m) (taker : Taker) (pc : OwnerPc)
    (hpc : pc.clearing = false) (htaker : taker = .clear → m.owner.clearing) :
    Whole ((m.exchangeMsg none taker).setOwner pc) := by
  refine ⟨fun j p b hp hb => ?_, fun e he => ?_, fun j hj b hb hslot => ?_,
    fun b hb j hj => ?_, fun hbusy => ?_⟩
  · rcases h.located j p b hp hb with hexchange | hslot | ⟨taker', htaken⟩
    · exact .inl hexchange
    · exact .inr (.inr ⟨taker, (mem_exchangeMsg none).mpr (.inr ⟨hslot, rfl⟩)⟩)
    · exact .inr (.inr ⟨taker', (mem_exchangeMsg none).mpr (.inl htaken)⟩)
  · rcases (mem_exchangeMsg none).mp he with he | ⟨hslot, -⟩
    · exact h.taken e he
    · obtain ⟨j, hj⟩ := horigins.attached e.1 hslot
      exact horigins.built_lt hj
  · cases hslot
  · rcases (mem_exchangeMsg none).mp hb with hb | ⟨hslot, heq⟩
    · exact h.takenCleared b hb j hj
    · exact h.clearing (htaker heq.symm) b hslot j hj
  · change pc.clearing = true at hbusy
    rw [hpc] at hbusy
    cases hbusy

theorem Whole.step (h : Whole m) (horigins : Origins m) (hword : Word m) {i : Move}
    (hallowed : CoherentAllowed m i) (hstep : Step m i m') : Whole m' := by
  cases hstep with
  | publish flags zMsg => exact h.publish flags zMsg
  | @publisherReads j _ p pc hp hpc =>
    refine h.publisher hp fun b seen hseen => ?_
    cases pc <;> simp_all [PublishPc.unread]
  | build hp hpc => exact h.build horigins hp hpc
  | buildFails hp hpc => exact h.publisher hp (by simp [hpc])
  | attach hp hpc => exact h.attach horigins hword hp hpc (hallowed.2 _ _ hp hpc)
  | freeOld hp hpc =>
    exact (h.publisher hp (by simp [hpc])).owner rfl rfl rfl (le_refl _) rfl rfl
  | orReq hp hpc =>
    exact (h.publisher hp (by simp [hpc])).owner rfl rfl rfl (le_refl _) rfl rfl
  | @adoptExchange _ saving howner =>
    refine h.take horigins _ _ ?_ fun heq => by cases heq
    cases m.nCancelReqMsg with
    | none => cases saving <;> rfl
    | some pBuf => rfl
  | clearZero howner =>
    have hattached := hallowed.2 howner
    refine ⟨h.located, h.taken, fun _ _ _ _ _ => rfl, fun b hb i hi => ?_, fun _ b hb i hi => ?_⟩
    · exact mem_append_left _ (h.takenCleared b hb i hi)
    · exact mem_append_right _ ((filterMap_source m.since i).mpr (hattached b hb i hi))
  | clearExchange howner =>
    refine h.take horigins _ _ ?_ fun _ => by rw [howner]; rfl
    cases m.nCancelReqMsg <;> rfl
  | @adoptInstall hasMemory saving pBuf howner =>
    have hclearing : (m.adoptInstall saving pBuf hasMemory).owner.clearing = m.owner.clearing := by
      rw [howner, adoptInstall]
      cases saving <;> rfl
    rw [adoptInstall] at hclearing ⊢
    split_ifs at hclearing ⊢
    · refine h.owner rfl rfl rfl ?_ rfl hclearing
      exact length_append ▸ le_add_right _ _
    · exact h.owner rfl rfl rfl (le_refl _) rfl hclearing
  | @cancelEval unwind hasMemory zMsg howner =>
    have hidle : m.owner.clearing = false := by
      rw [howner]
      rfl
    cases zMsg with
    | none => exact h.owner rfl rfl rfl (le_refl _) rfl hidle.symm
    | some text =>
      cases hasMemory with
      | true =>
        refine h.owner rfl rfl rfl ?_ rfl hidle.symm
        exact length_append ▸ le_add_right _ _
      | false => exact h.owner rfl rfl rfl (le_refl _) rfl hidle.symm
  | discardSave howner => exact h.owner rfl rfl rfl (le_refl _) rfl rfl
  | @adoptNothing _ saving howner =>
    refine h.owner rfl rfl rfl (le_refl _) rfl ?_
    rw [howner]
    cases saving <;> rfl
  | ownerReads hpc =>
    refine h.owner rfl rfl rfl (le_refl _) rfl ?_
    rw [← OwnerPc.clearing_unread m.owner, ← hpc, OwnerPc.clearing_unread]
    rfl
  | saveZero howner =>
    refine h.owner rfl rfl rfl (le_refl _) rfl ?_
    rw [howner]
    rfl
  | _ howner =>
    refine h.owner rfl rfl rfl (le_refl _) rfl ?_
    rw [howner]
    rfl

/-! ## Runs -/

structure Kept (m : Cancel) : Prop where
  settled : Settled m
  custody : Custody m
  origins : Origins m
  word : Word m

theorem kept_fresh : Kept fresh := ⟨settled_fresh, .nil, origins_fresh, word_fresh⟩

theorem Kept.step (h : Kept m) {i : Move} (hallowed : KeepsMessages m i)
    (hstep : Step m i m') : Kept m' where
  settled := h.settled.step hstep
  custody := h.custody.step h.settled hallowed hstep
  origins := h.origins.step h.custody hstep
  word := h.word.step hstep

structure Coherent (m : Cancel) : Prop where
  /-- Every buffer is held in one place or has been freed, once. -/
  once : (m.held ++ m.released).Perm (List.range m.texts.length)
  /-- A message that has been adopted is the message of one publication. -/
  adopted : ∀ a ∈ m.adoptions, ∃ (i : ℕ) (p : Publication),
    m.publications[i]? = some p ∧ p.pBuf = some a.1 ∧ m.texts[a.2]? = some p.zMsg
  adoptedOnce : (m.adoptions.map Prod.fst).Nodup
  /-- A request that is complete is set in the word, unless a clear has zeroed it or a save
  has taken it. -/
  pending : ∀ (i : ℕ) (p : Publication), m.publications[i]? = some p → p.pc = .done →
    m.nCancelReq.Has p.flags.publish ∨ i ∈ m.cleared ∨ i ∈ m.saved
  /-- A message that is neither displaced nor adopted is still attached if and only if the
  request has not been cleared. -/
  whole : ∀ (i : ℕ) (p : Publication) (b : ℕ), m.publications[i]? = some p → p.pc = .done →
    p.pBuf = some b → m.owner.clearing = false → (b, .publisher) ∉ m.taken →
    (b, .adoption) ∉ m.taken →
    (i ∈ m.cleared ↔ (b, .clear) ∈ m.taken) ∧ (i ∉ m.cleared ↔ m.nCancelReqMsg = some b)

theorem Kept.coherent (h : Kept m) (hwhole : Whole m) : Coherent m where
  once := h.custody.perm
  adopted a ha := by
    obtain ⟨-, i, c, hc, hbuf, htext⟩ := h.origins.adoptions a ha
    obtain ⟨p, hp, rfl⟩ := map_eq_some_iff.mp (getElem?_map .. ▸ hc)
    exact ⟨i, p, hp, hbuf, htext⟩
  adoptedOnce := h.origins.once
  pending i p hp hdone := by
    rcases (h.word.done i).mp ⟨p, hp, hdone⟩ with hpending | hrest
    · obtain ⟨c, hc, hhas⟩ := h.word.has hpending
      rw [call_of_publication hp] at hc
      rw [← some.inj hc] at hhas
      exact .inl hhas
    · exact .inr hrest
  whole i p b hp hdone hbuf hidle hdisplaced hadopted := by
    have hbuilt : m.BuiltBy i b := ⟨p.call, call_of_publication hp, hbuf⟩
    have hplace : m.nCancelReqMsg = some b ∨ (b, .clear) ∈ m.taken := by
      rcases hwhole.located i p b hp hbuf with ⟨seen, hexchange⟩ | hslot | ⟨taker, htaken⟩
      · rw [hdone] at hexchange
        cases hexchange
      · exact .inl hslot
      · cases taker with
        | publisher => exact absurd htaken hdisplaced
        | adoption => exact absurd htaken hadopted
        | clear => exact .inr htaken
    have hdetached (hi : i ∈ m.cleared) : m.nCancelReqMsg ≠ some b := by
      intro hslot
      have hbusy := hwhole.detached i hi b hbuilt hslot
      rw [hidle] at hbusy
      cases hbusy
    have htaken (hb : (b, .clear) ∈ m.taken) : i ∈ m.cleared := hwhole.takenCleared b hb i hbuilt
    refine ⟨⟨fun hi => hplace.resolve_left (hdetached hi), htaken⟩, ⟨fun hi => ?_, ?_⟩⟩
    · exact hplace.resolve_right fun hb => hi (htaken hb)
    · exact fun hslot hi => hdetached hi hslot

/-- In every run in which no clear parts a request and its message, and no save with a
message is dropped. -/
theorem cancellation_coherent (hrun : ReachableBy Cancel.step CoherentAllowed fresh m) :
    Coherent m := by
  have hstep (m : Cancel) (i : Move) (h : Kept m ∧ Whole m) (hallowed : CoherentAllowed m i) :
      Kept (m.step i) ∧ Whole (m.step i) := by
    refine step_of_cases (P := fun m => Kept m ∧ Whole m) h fun m' hm' => ?_
    exact ⟨h.1.step hallowed.1 hm', h.2.step h.1.origins h.1.word hallowed hm'⟩
  have hkept : Kept m ∧ Whole m := by
    refine ReachableBy.invariant ?_ hstep hrun
    exact ⟨kept_fresh, whole_fresh⟩
  exact hkept.1.coherent hkept.2

theorem allowed_owner {hasMemory : Bool}
    (h : m.owner = .clearZero (some m.nCancelReq) → ∀ i < m.calls.length,
      m.nCancelReqMsg ≠ none → m.calls[i]?.bind Publication.pBuf = m.nCancelReqMsg →
        some i ∈ m.since.map Pending.source) : CoherentAllowed m (.owner hasMemory) := by
  refine ⟨trivial, fun howner b hb i hi => ?_⟩
  obtain ⟨c, hc, hbuf⟩ := hi
  refine h howner i (List.getElem?_eq_some_iff.mp hc).1 (by simp [hb]) ?_
  rw [hc, hb]
  exact hbuf

theorem allowed_publisher {hasMemory : Bool} (h : m.owner.clearing = false) :
    CoherentAllowed m (.publisher i hasMemory) := ⟨trivial, fun _ _ _ _ => h⟩

def adoptAndClear : List Move :=
  [.publish .none [65], .publisher 0 true, .publisher 0 true, .publisher 0 true,
    .publisher 0 true, .publisher 0 true, .adopt, .owner true, .owner true, .owner true,
    .owner true, .publish .none [66], .publisher 1 true, .publisher 1 true,
    .publisher 1 true, .publisher 1 true, .publisher 1 true, .clear, .owner true,
    .owner true, .owner true, .owner true, .owner true, .owner true]

theorem coherent_adoptAndClear : Coherent (adoptAndClear.foldl Cancel.step fresh) := by
  have hallowed : ReachableBy.AllowedRun Cancel.step CoherentAllowed fresh adoptAndClear := by
    refine ⟨⟨trivial, trivial⟩, ?_, ?_, ?_, ?_, ?_, ⟨trivial, trivial⟩, ?_, ?_, ?_, ?_,
      ⟨trivial, trivial⟩, ?_, ?_, ?_, ?_, ?_, ⟨trivial, trivial⟩, ?_, ?_, ?_, ?_, ?_, ?_, trivial⟩
    iterate 5 exact allowed_publisher (by decide)
    iterate 4 exact allowed_owner (by decide)
    iterate 5 exact allowed_publisher (by decide)
    iterate 6 exact allowed_owner (by decide)
  exact cancellation_coherent (ReachableBy.init.foldl hallowed)

/-- A signal has requested a cancellation, and another publisher has attached its message when
the request is cleared. -/
def clearInBetween : List Move :=
  [.publish ⟨false, true⟩ [], .publisher 0 true, .publisher 0 true, .publish .none [65],
    .publisher 1 true, .publisher 1 true, .publisher 1 true, .clear, .owner true,
    .owner true, .owner true, .owner true, .owner true, .owner true, .publisher 1 true,
    .publisher 1 true]

/-- The request survives the clear without its message. -/
theorem clearInBetween_not_coherent : ¬Coherent (clearInBetween.foldl Cancel.step fresh) := by
  intro h
  have hwhole := (h.whole 1 ⟨.none, [65], .done, some 0⟩ 0 (by decide) rfl rfl
    (by decide) (by decide) (by decide)).1
  have hkept : 1 ∉ (clearInBetween.foldl Cancel.step fresh).cleared := by decide
  exact hkept (hwhole.mpr (by decide))

end Cancel

end Th8
