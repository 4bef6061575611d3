import Mathlib.Data.List.Basic
import Mathlib.Data.List.Nodup
import Mathlib.Logic.Function.Basic

/-!
# Trees of records in memory

A record lists the addresses of its children.  Releasing a record releases its
children first.  When the records below an address form a tree, the release
touches no address twice and clears exactly those below it.
-/

namespace Support

open List Option

abbrev Memory (ι α : Type) := ι → Option α

section Release

variable {ι α : Type} [DecidableEq ι] (kids : α → List ι)

/-- Release a record after its children.  `none` is the use of an address without
a record. -/
def release : ℕ → Memory ι α → ι → Option (Memory ι α)
  | 0, _, _ => none
  | fuel + 1, m, q =>
    match m q with
    | none => none
    | some r =>
      ((kids r).foldlM (release fuel) m).map fun m' => Function.update m' q none

/-- The addresses that child lists lead to from `q`. -/
inductive Below (m : Memory ι α) (q : ι) : ι → Prop where
  | root : Below m q q
  | kid {p c : ι} {r : α} (hp : Below m q p) (hr : m p = some r) (hc : c ∈ kids r) : Below m q c

/-- Below `q` the records form a tree, with `rank` counting the levels up to `top`. -/
structure TreeBelow (rank : α → ℕ) (top : ℕ) (m : Memory ι α) (q : ι) : Prop where
  kid : ∀ p r c, Below kids m q p → m p = some r → c ∈ kids r →
    ∃ rc, m c = some rc ∧ rank rc = rank r + 1
  unique : ∀ p p' r r' c, Below kids m q p → Below kids m q p' → m p = some r →
    m p' = some r' → c ∈ kids r → c ∈ kids r' → p = p'
  nodup : ∀ p r, Below kids m q p → m p = some r → (kids r).Nodup
  bounded : ∀ p r, Below kids m q p → m p = some r → rank r < top

variable {kids} {m m' : Memory ι α} {q c x : ι}

omit [DecidableEq ι]

theorem Below.trans (hqc : Below kids m q c) (hcx : Below kids m c x) : Below kids m q x := by
  induction hcx with
  | root => exact hqc
  | kid hp hr hc ih => exact .kid ih hr hc

theorem Below.congr (heq : ∀ x, Below kids m q x → m' x = m x) :
    Below kids m' q x ↔ Below kids m q x := by
  constructor
  · intro hx
    induction hx with
    | root => exact .root
    | kid hp hr hc ih => exact .kid ih (heq _ ih ▸ hr) hc
  · intro hx
    induction hx with
    | root => exact .root
    | kid hp hr hc ih => exact .kid ih ((heq _ hp).trans hr) hc

section Tree

variable {rank : α → ℕ} {top : ℕ}

section

variable (ht : TreeBelow kids rank top m q)

include ht

theorem TreeBelow.of_below (hc : Below kids m q c) : TreeBelow kids rank top m c where
  kid p r c' hp := ht.kid p r c' (hc.trans hp)
  unique p p' r r' c' hp hp' := ht.unique p p' r r' c' (hc.trans hp) (hc.trans hp')
  nodup p r hp := ht.nodup p r (hc.trans hp)
  bounded p r hp := ht.bounded p r (hc.trans hp)

theorem TreeBelow.congr (heq : ∀ x, Below kids m q x → m' x = m x) :
    TreeBelow kids rank top m' q := by
  have hb : ∀ {x}, Below kids m' q x → Below kids m q x := fun hx => (Below.congr heq).mp hx
  refine ⟨?_, ?_, ?_, ?_⟩
  · intro p r c hp hr hc
    rw [heq p (hb hp)] at hr
    obtain ⟨rc, hrc, hrank⟩ := ht.kid p r c (hb hp) hr hc
    exact ⟨rc, (heq c (.kid (hb hp) hr hc)).trans hrc, hrank⟩
  · intro p p' r r' c hp hp' hr hr'
    rw [heq p (hb hp)] at hr
    rw [heq p' (hb hp')] at hr'
    exact ht.unique p p' r r' c (hb hp) (hb hp') hr hr'
  · intro p r hp hr
    exact ht.nodup p r (hb hp) (heq p (hb hp) ▸ hr)
  · intro p r hp hr
    exact ht.bounded p r (hb hp) (heq p (hb hp) ▸ hr)

theorem TreeBelow.rank_le {rq : α} (hq : m q = some rq) (hx : Below kids m q x) :
    ∃ rx, m x = some rx ∧ rank rq ≤ rank rx ∧ (x = q ∨ rank rq < rank rx) := by
  induction hx with
  | root => exact ⟨rq, hq, Nat.le_refl _, .inl rfl⟩
  | kid hp hr hc ih =>
    obtain ⟨rp, hrp, hle, -⟩ := ih
    have hsame : rp = _ := some.inj (hrp.symm.trans hr)
    obtain ⟨rc, hrc, hrank⟩ := ht.kid _ _ _ hp hr hc
    subst hsame
    exact ⟨rc, hrc, by omega, .inr (by omega)⟩

theorem TreeBelow.disjoint {rq : α} {c c' : ι}
    (hq : m q = some rq) (hc : c ∈ kids rq) (hc' : c' ∈ kids rq)
    (hx : Below kids m c x) (hx' : Below kids m c' x) : c = c' := by
  have hbc : Below kids m q c := .kid .root hq hc
  have hbc' : Below kids m q c' := .kid .root hq hc'
  obtain ⟨rc, hrc, hrank⟩ := ht.kid q rq c .root hq hc
  obtain ⟨rc', hrc', hrank'⟩ := ht.kid q rq c' .root hq hc'
  induction hx with
  | root =>
    obtain ⟨r, hr, -, hsame | hlt⟩ := (ht.of_below hbc').rank_le hrc' hx'
    · exact hsame
    · have : r = rc := some.inj (hr.symm.trans hrc)
      subst this
      omega
  | kid hp hr hk ih =>
    rename_i p k r
    obtain ⟨rp, hrp, hle, -⟩ := (ht.of_below hbc).rank_le hrc hp
    have hsame : rp = r := some.inj (hrp.symm.trans hr)
    subst hsame
    obtain ⟨rk, hrk, hkrank⟩ := ht.kid p rp k (hbc.trans hp) hr hk
    cases hx' with
    | root =>
      have : rk = rc' := some.inj (hrk.symm.trans hrc')
      subst this
      omega
    | kid hp' hr' hk' =>
      have hpp := ht.unique _ _ _ _ _ (hbc.trans hp) (hbc'.trans hp') hr hr' hk hk'
      exact ih (hpp ▸ hp')

end

/-- What a release leaves: nothing below `q`, the rest as it was. -/
def Cleared (kids : α → List ι) (m : Memory ι α) (q : ι) (m' : Memory ι α) : Prop :=
  ∀ x, (Below kids m q x → m' x = none) ∧ (¬Below kids m q x → m' x = m x)

theorem below_iff {r : α} (hr : m q = some r) :
    Below kids m q x ↔ x = q ∨ ∃ c ∈ kids r, Below kids m c x := by
  constructor
  · intro hx
    induction hx with
    | root => exact .inl rfl
    | kid hp hr' hc ih =>
      right
      rcases ih with rfl | ⟨c', hc', hp'⟩
      · obtain rfl := some.inj (hr.symm.trans hr')
        exact ⟨_, hc, .root⟩
      · exact ⟨c', hc', .kid hp' hr' hc⟩
  · rintro (rfl | ⟨c, hc, hx⟩)
    · exact .root
    · exact (Below.kid .root hr hc).trans hx

theorem Cleared.below (h : Cleared kids m c m') (hx : Below kids m q x) :
    Below kids m c x ∨ Below kids m' q x := by
  induction hx with
  | root => exact .inr .root
  | @kid p k r hp hr hk ih =>
    rcases ih with hcp | hqp
    · exact .inl (.kid hcp hr hk)
    · by_cases hcp : Below kids m c p
      · exact .inl (.kid hcp hr hk)
      · exact .inr (.kid hqp (((h _).2 hcp).trans hr) hk)

theorem Cleared.of_below (h : Cleared kids m c m') (hx : Below kids m' q x) : Below kids m q x := by
  induction hx with
  | root => exact .root
  | @kid p k r hp hr hk ih =>
    refine .kid ih ?_ hk
    by_cases hcp : Below kids m c p
    · rw [(h _).1 hcp] at hr
      cases hr
    · exact ((h _).2 hcp).symm.trans hr

variable [DecidableEq ι]

theorem foldlM_release {fuel : ℕ} {cs : List ι}
    (hone : ∀ m c, TreeBelow kids rank top m c → (∃ r, m c = some r ∧ top ≤ rank r + fuel) →
      ∃ m', release kids fuel m c = some m' ∧ Cleared kids m c m')
    (htree : ∀ c ∈ cs, TreeBelow kids rank top m c)
    (hrec : ∀ c ∈ cs, ∃ r, m c = some r ∧ top ≤ rank r + fuel)
    (hdisj : ∀ c ∈ cs, ∀ c' ∈ cs, ∀ x, Below kids m c x → Below kids m c' x → c = c')
    (hnodup : cs.Nodup)
    (heq : ∀ c ∈ cs, ∀ x, Below kids m c x → m' x = m x) :
    ∃ m'', cs.foldlM (release kids fuel) m' = some m'' ∧
      ∀ x, ((∃ c ∈ cs, Below kids m c x) → m'' x = none) ∧
        ((¬∃ c ∈ cs, Below kids m c x) → m'' x = m' x) := by
  induction cs generalizing m' with
  | nil => exact ⟨m', rfl, by simp⟩
  | cons c cs ih =>
    have hc : c ∈ c :: cs := mem_cons_self
    have hcs : ∀ c' ∈ cs, c' ∈ c :: cs := fun c' h => mem_cons_of_mem c h
    obtain ⟨r, hr, hfuel⟩ := hrec c hc
    have hbelow : ∀ x, Below kids m' c x ↔ Below kids m c x := fun x => Below.congr (heq c hc)
    obtain ⟨m₁, hm₁, hclear⟩ := hone m' c ((htree c hc).congr (heq c hc))
      ⟨r, (heq c hc c .root).trans hr, hfuel⟩
    have heq₁ : ∀ c' ∈ cs, ∀ x, Below kids m c' x → m₁ x = m x := by
      intro c' hc' x hx
      have hno : ¬Below kids m' c x := by
        intro hcx
        have hsame := hdisj c hc c' (hcs c' hc') x ((hbelow x).mp hcx) hx
        exact (nodup_cons.mp hnodup).1 (hsame ▸ hc')
      rw [(hclear x).2 hno]
      exact heq c' (hcs c' hc') x hx
    obtain ⟨m'', hm'', hall⟩ := ih (fun c' h => htree c' (hcs c' h))
      (fun c' h => hrec c' (hcs c' h)) (fun c' h c'' h' => hdisj c' (hcs c' h) c'' (hcs c'' h'))
      (nodup_cons.mp hnodup).2 heq₁
    refine ⟨m'', by simp [foldlM_cons, hm₁, hm''], fun x => ⟨?_, ?_⟩⟩
    · rintro ⟨c', hc', hx⟩
      by_cases hrest : ∃ c ∈ cs, Below kids m c x
      · exact (hall x).1 hrest
      · rcases mem_cons.mp hc' with rfl | hc'
        · rw [(hall x).2 hrest]
          exact (hclear x).1 ((hbelow x).mpr hx)
        · exact absurd ⟨c', hc', hx⟩ hrest
    · intro hno
      rw [(hall x).2 fun ⟨c', hc', hx⟩ => hno ⟨c', hcs c' hc', hx⟩]
      exact (hclear x).2 fun hx => hno ⟨c, hc, (hbelow x).mp hx⟩

theorem release_cleared (fuel : ℕ) (m : Memory ι α) (q : ι)
    (ht : TreeBelow kids rank top m q) (hrec : ∃ r, m q = some r ∧ top ≤ rank r + fuel) :
    ∃ m', release kids fuel m q = some m' ∧ Cleared kids m q m' := by
  induction fuel generalizing m q with
  | zero =>
    obtain ⟨r, hr, hfuel⟩ := hrec
    have := ht.bounded q r .root hr
    omega
  | succ fuel ih =>
    obtain ⟨r, hr, hfuel⟩ := hrec
    have hkid : ∀ c ∈ kids r, Below kids m q c := fun c hc => .kid .root hr hc
    have hrecs : ∀ c ∈ kids r, ∃ rc, m c = some rc ∧ top ≤ rank rc + fuel := by
      intro c hc
      obtain ⟨rc, hrc, hrank⟩ := ht.kid q r c .root hr hc
      exact ⟨rc, hrc, by omega⟩
    obtain ⟨m₁, hm₁, hall⟩ := foldlM_release ih (fun c hc => ht.of_below (hkid c hc)) hrecs
      (fun c hc c' hc' x hx hx' => ht.disjoint hr hc hc' hx hx')
      (ht.nodup q r .root hr) (fun _ _ _ _ => rfl)
    refine ⟨Function.update m₁ q none, by simp [release, hr, hm₁], fun x => ⟨?_, ?_⟩⟩
    · intro hx
      by_cases hxq : x = q
      · simp [hxq]
      · rw [Function.update_of_ne hxq]
        exact (hall x).1 (((below_iff hr).mp hx).resolve_left hxq)
    · intro hx
      have hxq : x ≠ q := fun h => hx (h ▸ .root)
      rw [Function.update_of_ne hxq]
      exact (hall x).2 fun hex => hx ((below_iff hr).mpr (.inr hex))

end Tree

section End

variable [DecidableEq ι]

theorem foldlM_release_of_eq {fuel : ℕ} {cs : List ι}
    (hone : ∀ m c m', release kids fuel m c = some m' → Cleared kids m c m')
    (h : cs.foldlM (release kids fuel) m = some m') (x : ι) :
    ((∃ c ∈ cs, Below kids m c x) → m' x = none) ∧
      ((¬∃ c ∈ cs, Below kids m c x) → m' x = m x) := by
  induction cs generalizing m with
  | nil =>
    obtain rfl : m = m' := by simpa using h
    exact ⟨fun ⟨c, hc, _⟩ => absurd hc not_mem_nil, fun _ => rfl⟩
  | cons c cs ih =>
    rw [foldlM_cons] at h
    obtain ⟨m₁, h₁, h₂⟩ := bind_eq_some_iff.mp h
    have hclear := hone m c m₁ h₁
    obtain ⟨hin, hout⟩ := ih h₂
    constructor
    · rintro ⟨d, hd, hx⟩
      by_cases hrest : ∃ c ∈ cs, Below kids m₁ c x
      · exact hin hrest
      · rw [hout hrest]
        rcases mem_cons.mp hd with rfl | hd
        · exact (hclear x).1 hx
        · rcases hclear.below hx with hcx | hdx
          · exact (hclear x).1 hcx
          · exact absurd ⟨d, hd, hdx⟩ hrest
    · intro hno
      rw [hout fun ⟨d, hd, hx⟩ => hno ⟨d, mem_cons_of_mem c hd, hclear.of_below hx⟩]
      exact (hclear x).2 fun hx => hno ⟨c, mem_cons_self, hx⟩

theorem cleared_of_release {fuel : ℕ} (h : release kids fuel m q = some m') :
    Cleared kids m q m' := by
  induction fuel generalizing m q m' with
  | zero => cases h
  | succ fuel ih =>
    rw [release] at h
    rcases hr : m q with _ | r
    · simp [hr] at h
    · simp only [hr, map_eq_some_iff] at h
      obtain ⟨m₁, h₁, rfl⟩ := h
      have hloop := foldlM_release_of_eq (fun _ _ _ => ih) h₁
      intro x
      rw [below_iff hr]
      by_cases hx : x = q
      · subst hx
        exact ⟨fun _ => Function.update_self .., fun hno => absurd (.inl rfl) hno⟩
      · rw [Function.update_of_ne hx]
        exact ⟨fun hb => (hloop x).1 (hb.resolve_left hx), fun hno =>
          (hloop x).2 fun hb => hno (.inr hb)⟩

end End

end Release

end Support
