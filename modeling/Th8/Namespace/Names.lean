import Th8.Namespace.Tree

/-!
# Full names and their components

A full name is put together from components, taken apart again by the walk, and cut
at its last separator when a namespace is unlinked.  The three agree as long as no
component but the last ends in a colon.
-/

namespace Th8

open Support List

theorem lastSeparator_append {z w : Bytes} {i : ℕ} (hw : lastSeparator w = some i) :
    lastSeparator (z ++ w) = some (z.length + i) := by
  induction z with
  | nil => simpa using hw
  | cons c z ih =>
    simp only [cons_append, lastSeparator, ih, length_cons, Option.some.injEq]
    omega

theorem lastSeparator_tail {c : Byte} {z : Bytes} (h : lastSeparator (c :: z) = none) :
    lastSeparator z = none := by
  rcases hz : lastSeparator z with _ | i
  · rfl
  · simp [lastSeparator, hz] at h

theorem lastSeparator_cons_eq_none {c : Byte} {z : Bytes} :
    lastSeparator (c :: z) = none ↔
      lastSeparator z = none ∧ ¬(c = chColon ∧ z.head? = some chColon) := by
  rcases hz : lastSeparator z with _ | i
  · simp [lastSeparator, hz]
  · simp [lastSeparator, hz]

theorem lastSeparator_concat_eq_none {z : Bytes} {c : Byte} :
    lastSeparator (z ++ [c]) = none ↔
      lastSeparator z = none ∧ ¬(z.getLast? = some chColon ∧ c = chColon) := by
  induction z with
  | nil => simp [lastSeparator]
  | cons d z ih =>
    rw [cons_append, lastSeparator_cons_eq_none, ih, lastSeparator_cons_eq_none]
    cases z with
    | nil => simp [lastSeparator]
    | cons e z => simp [getLast?_cons_cons]; tauto

theorem backUpColons_of_ne {z : Bytes} {n : ℕ} (h : z[n]? ≠ some chColon) :
    backUpColons z (n + 1) = n + 1 := by
  simp [backUpColons, h]

theorem backUp_lastSeparator {zParent zComp : Bytes}
    (hparent : zParent.getLast? ≠ some chColon) (hcomp : lastSeparator zComp = none) :
    ∃ i, lastSeparator (zParent ++ nsSeparator ++ zComp) = some i ∧
      backUpColons (zParent ++ nsSeparator ++ zComp) i = zParent.length := by
  have hstop : backUpColons (zParent ++ nsSeparator ++ zComp) zParent.length = zParent.length := by
    rcases eq_nil_or_concat zParent with rfl | ⟨z, c, rfl⟩
    · rfl
    · have hc : c ≠ chColon := by simpa using hparent
      rw [length_concat]
      apply backUpColons_of_ne
      simp [hc]
  -- A component that begins with a colon moves the last separator by one.
  by_cases hhead : zComp.head? = some chColon
  · refine ⟨zParent.length + 1, ?_, ?_⟩
    · rw [append_assoc]
      apply lastSeparator_append
      simp [nsSeparator, lastSeparator, hcomp, hhead]
    · have hcolon : (zParent ++ nsSeparator ++ zComp)[zParent.length]? = some chColon := by
        simp [nsSeparator]
      simp only [backUpColons, hcolon, beq_self_eq_true, if_true]
      exact hstop
  · refine ⟨zParent.length, ?_, hstop⟩
    rw [append_assoc, ← Nat.add_zero zParent.length]
    apply lastSeparator_append
    simp [nsSeparator, lastSeparator, hcomp, hhead]

theorem splitQualName_append {zParent zComp : Bytes}
    (hparent : zParent.getLast? ≠ some chColon) (hcomp : lastSeparator zComp = none) :
    splitQualName (zParent ++ nsSeparator ++ zComp) = (some zParent, zComp) := by
  obtain ⟨i, hlast, hback⟩ := backUp_lastSeparator hparent hcomp
  have hlen : zParent.length + 2 = (zParent ++ nsSeparator).length := by
    simp [nsSeparator]
  simp only [splitQualName, hlast, hback, Prod.mk.injEq, Option.some.injEq]
  constructor
  · rw [append_assoc, take_left]
  · rw [hlen, drop_left]

/-! ## Taking a full name apart -/

/-- What the components of a name are: nonempty texts without a separator, of which
only the last may end in a colon. -/
def WellSplit : List Bytes → Prop
  | [] => True
  | c :: rest =>
    c ≠ [] ∧ lastSeparator c = none ∧ (rest ≠ [] → c.getLast? ≠ some chColon) ∧ WellSplit rest

theorem nsComponentsFrom_ne_nil {zComp : Bytes} (hne : zComp ≠ []) (z : Bytes) :
    nsComponentsFrom zComp z ≠ [] := by
  fun_induction nsComponentsFrom zComp z with
  | case1 => exact absurd rfl hne
  | case2 => simp
  | case3 => simp
  | case4 zComp c d rest hpair ih => simp [hne]
  | case5 zComp c d rest hpair ih => exact ih (by simp)

theorem nsComponents_ne_nil {z : Bytes} (hne : z ≠ []) (hrel : isAbsolute z = false) :
    nsComponents z ≠ [] := by
  unfold nsComponents
  match z, hne, hrel with
  | [c], _, _ => simp [nsComponentsFrom]
  | c :: d :: rest, _, hrel =>
    have hpair : ¬(c == chColon && d == chColon) = true := by
      simpa [isAbsolute] using hrel
    rw [nsComponentsFrom, if_neg hpair]
    exact nsComponentsFrom_ne_nil (by simp) _

theorem nsComponentsFrom_wellSplit (zComp z : Bytes) (hcomp : lastSeparator zComp = none)
    (hend : ¬(zComp.getLast? = some chColon ∧ z.head? = some chColon)) :
    WellSplit (nsComponentsFrom zComp z) := by
  fun_induction nsComponentsFrom zComp z with
  | case1 => trivial
  | case2 zComp hne => exact ⟨hne, hcomp, by simp, trivial⟩
  | case3 zComp c =>
    refine ⟨by simp, ?_, by simp, trivial⟩
    rw [lastSeparator_concat_eq_none]
    exact ⟨hcomp, by simpa using hend⟩
  | case4 zComp c d rest hpair ih =>
    have hrest := ih rfl (by simp)
    have hc : c = chColon := by simp at hpair; exact hpair.1
    by_cases hne : zComp = []
    · simpa [hne] using hrest
    · simp only [hne, if_false, cons_append, nil_append]
      exact ⟨hne, hcomp, fun _ hlast => hend ⟨hlast, by simp [hc]⟩, hrest⟩
  | case5 zComp c d rest hpair ih =>
    apply ih
    · rw [lastSeparator_concat_eq_none]
      exact ⟨hcomp, by simpa using hend⟩
    · simpa using hpair

theorem nsComponents_wellSplit (z : Bytes) : WellSplit (nsComponents z) :=
  nsComponentsFrom_wellSplit [] z rfl (by simp)

def joinNs : List Bytes → Bytes
  | [] => []
  | [c] => c
  | c :: rest => c ++ nsSeparator ++ joinNs rest

theorem joinNs_concat {path : List Bytes} (hne : path ≠ []) (zComp : Bytes) :
    joinNs (path ++ [zComp]) = joinNs path ++ nsSeparator ++ zComp := by
  induction path with
  | nil => exact absurd rfl hne
  | cons c rest ih =>
    cases rest with
    | nil => rfl
    | cons d rest =>
      simp only [cons_append, joinNs] at ih ⊢
      rw [ih (by simp)]
      simp only [append_assoc]

theorem nsComponentsFrom_eq_single (zComp c : Bytes) (hc : lastSeparator c = none)
    (hne : zComp ++ c ≠ []) : nsComponentsFrom zComp c = [zComp ++ c] := by
  fun_induction nsComponentsFrom zComp c with
  | case1 => simp at hne
  | case2 => simp
  | case3 => rfl
  | case4 zComp c d rest hpair ih =>
    simp only [Bool.and_eq_true, beq_iff_eq] at hpair
    have := (lastSeparator_cons_eq_none.mp hc).2
    simp [hpair] at this
  | case5 zComp c d rest hpair ih =>
    rw [ih (lastSeparator_tail hc) (by simp)]
    simp

theorem nsComponentsFrom_append (zComp c z : Bytes) (hc : lastSeparator c = none)
    (hne : c ≠ []) (hend : c.getLast? ≠ some chColon) :
    nsComponentsFrom zComp (c ++ nsSeparator ++ z) = (zComp ++ c) :: nsComponentsFrom [] z := by
  induction c generalizing zComp with
  | nil => exact absurd rfl hne
  | cons x c ih =>
    cases c with
    | nil =>
      have hx : x ≠ chColon := by simpa using hend
      simp [nsSeparator, nsComponentsFrom, hx]
    | cons y c =>
      have hpair : ¬(x == chColon && y == chColon) = true := by
        have := (lastSeparator_cons_eq_none.mp hc).2
        simpa using this
      simp only [cons_append, nsComponentsFrom, if_neg hpair]
      have hrest := ih (zComp ++ [x]) (lastSeparator_tail hc) (by simp)
        (by simpa [getLast?_cons_cons] using hend)
      simpa using hrest

theorem nsComponents_joinNs {path : List Bytes} (hpath : WellSplit path) :
    nsComponents (joinNs path) = path := by
  unfold nsComponents
  induction path with
  | nil => rfl
  | cons c rest ih =>
    obtain ⟨hne, hsep, hend, hrest⟩ := hpath
    cases rest with
    | nil => exact nsComponentsFrom_eq_single [] c hsep (by simpa using hne)
    | cons d rest =>
      rw [joinNs, nsComponentsFrom_append [] c _ hsep hne (hend (by simp)), ih hrest]
      · rfl
      · simp

theorem wellSplit_concat {path : List Bytes} {zComp : Bytes} (hpath : WellSplit path)
    (hlast : ∀ c, path.getLast? = some c → c.getLast? ≠ some chColon)
    (hne : zComp ≠ []) (hsep : lastSeparator zComp = none) :
    WellSplit (path ++ [zComp]) := by
  induction path with
  | nil => exact ⟨hne, hsep, by simp, trivial⟩
  | cons c rest ih =>
    obtain ⟨hc, hcsep, hcend, hrest⟩ := hpath
    refine ⟨hc, hcsep, fun _ => ?_, ?_⟩
    · cases rest with
      | nil => exact hlast c (by simp)
      | cons d rest => exact hcend (by simp)
    · apply ih hrest
      intro c' hc'
      apply hlast
      cases rest with
      | nil => simp at hc'
      | cons d rest => simpa [getLast?_cons_cons] using hc'

end Th8
