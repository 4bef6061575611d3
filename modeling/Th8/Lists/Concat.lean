import Th8.Lists.OpenSequences

/-!
# The command `concat`

`concat_command` trims its arguments, leaves out what is white space and joins the others with
spaces.  It does not look at backslashes, so an argument may lose the blank that its last
backslash escapes.
-/

namespace Th8

open Support List

def trimSpace (z : Bytes) : Bytes := (z.dropWhile isSpace).rdropWhile isSpace

/-- The loop of `concat_command`. -/
def concatFrom (nResultLimit : ℕ) : List TString → TString → Except Failure TString
  | [], zResult => return zResult
  | a :: rest, zResult => do
    let z := trimSpace a.bytes
    if z = [] then concatFrom nResultLimit rest zResult
    else do
      let zResult ←
        if zResult.bytes ≠ [] then stringAppend nResultLimit zResult (.plain [chSpace])
        else .ok zResult
      let zResult ← stringAppend nResultLimit zResult (.plain z)
      concatFrom nResultLimit rest zResult

/-- `concat_command`.  The copy for the result is no larger than what has been built. -/
def concatCommand (nResultLimit : ℕ) (args : List TString) : Except Failure TString :=
  concatFrom nResultLimit args (.plain [])

def joinTrimmed : List Bytes → Bytes
  | [] => []
  | a :: rest =>
    if trimSpace a = [] then joinTrimmed rest
    else if joinTrimmed rest = [] then trimSpace a
    else trimSpace a ++ chSpace :: joinTrimmed rest

/-- An argument whose last backslash escapes nothing of its trimmed text has nothing trimmed
behind it, and no argument but white space follows. -/
def trimsApart : List Bytes → Bool
  | [] => true
  | a :: rest =>
    (!endsOpen true 0 (trimSpace a) ||
      trimSpace a == a.dropWhile isSpace && rest.all (trimSpace · == [])) && trimsApart rest

def joinRoom : List Bytes → ℕ
  | [] => 0
  | a :: rest =>
    (if trimSpace a = [] then 0
      else 8 * (spaceRuns false (trimSpace a) + 1) + ((trimSpace a).length + 1)) + joinRoom rest

/-- `Th8_SplitList` finds these elements, and not too many. -/
def SplitsInto (z : Bytes) (es : List Bytes) : Prop :=
  eagleSplitList z = .ok es ∧ es.length ≤ maxListElements

variable {a z : Bytes} {args : List Bytes} {nResultLimit : ℕ}

theorem concatFrom_eq {args : List TString} {zResult r : TString}
    (h : concatFrom nResultLimit args zResult = .ok r) :
    r.bytes = if zResult.bytes = [] then joinTrimmed (args.map TString.bytes)
      else if joinTrimmed (args.map TString.bytes) = [] then zResult.bytes
      else zResult.bytes ++ chSpace :: joinTrimmed (args.map TString.bytes) := by
  induction args generalizing zResult with
  | nil =>
    cases h
    simp [joinTrimmed]
  | cons a args ih =>
    rw [concatFrom] at h
    rw [map_cons, joinTrimmed]
    by_cases hz : trimSpace a.bytes = []
    · simp only [hz, if_true] at h ⊢
      exact ih h
    · simp only [hz, if_false] at h ⊢
      by_cases hnil : zResult.bytes = []
      · simp only [hnil, ne_eq, not_true, if_false, ok_bind] at h
        obtain ⟨y, hy, h⟩ := bind_eq_ok.mp h
        obtain ⟨-, rfl⟩ := stringAppend_eq_ok.mp hy
        simpa [hnil, hz, TString.plain] using ih h
      · simp only [hnil, ne_eq, not_false_iff, if_true] at h
        obtain ⟨x, hx, h⟩ := bind_eq_ok.mp h
        obtain ⟨y, hy, h⟩ := bind_eq_ok.mp h
        obtain ⟨-, rfl⟩ := stringAppend_eq_ok.mp hx
        obtain ⟨-, rfl⟩ := stringAppend_eq_ok.mp hy
        rw [ih h]
        by_cases hrest : joinTrimmed (args.map TString.bytes) = []
        · simp [TString.plain, hnil, hz, hrest]
        · simp [TString.plain, hnil, hrest]

theorem trimSpace_eq_nil : trimSpace a = [] ↔ a.dropWhile isSpace = [] := by
  rw [trimSpace, rdropWhile_eq_nil_iff, ← dropWhile_eq_nil_iff, dropWhile_idempotent]

theorem exists_trimmed (a : Bytes) :
    ∃ ws, a.dropWhile isSpace = trimSpace a ++ ws ∧ ws.dropWhile isSpace = [] :=
  ⟨(a.dropWhile isSpace).rtakeWhile isSpace, rdropWhile_append_rtakeWhile.symm,
    dropWhile_eq_nil_iff.mpr fun _ => mem_rtakeWhile_imp⟩

theorem trimSpace_head (h : trimSpace a ≠ []) :
    ∃ d t, trimSpace a = d :: t ∧ isSpace d = false := by
  obtain ⟨d, t, ht⟩ := exists_cons_of_ne_nil h
  obtain ⟨ws, hws, -⟩ := exists_trimmed a
  have hnot := head?_dropWhile_not isSpace a
  rw [hws, ht] at hnot
  exact ⟨d, t, ht, hnot⟩

theorem joinTrimmed_head (h : joinTrimmed args ≠ []) :
    ∃ d t, joinTrimmed args = d :: t ∧ isSpace d = false := by
  induction args with
  | nil => exact absurd rfl h
  | cons a args ih =>
    rw [joinTrimmed] at h ⊢
    split_ifs at h ⊢ with ha hrest
    · exact ih h
    · exact trimSpace_head ha
    · obtain ⟨d, t, ht, hd⟩ := trimSpace_head ha
      exact ⟨d, _, by rw [ht, cons_append], hd⟩

theorem joinTrimmed_eq_nil : joinTrimmed args = [] ↔ ∀ a ∈ args, trimSpace a = [] := by
  induction args with
  | nil => simp [joinTrimmed]
  | cons a args ih =>
    rw [joinTrimmed, forall_mem_cons, ← ih]
    split_ifs with ha hrest
    · simp [ha]
    · simp [ha]
    · simp [ha]

theorem trimSpace_last (a : Bytes) : ∀ c ∈ (trimSpace a).getLast?, isSpace c = false := by
  intro c hc
  have hne : (a.dropWhile isSpace).rdropWhile isSpace ≠ [] := by
    rintro hnil
    rw [trimSpace, hnil] at hc
    cases hc
  have hlast := rdropWhile_last_not isSpace _ hne
  rw [trimSpace, getLast?_eq_some_getLast hne] at hc
  rw [Option.some.inj hc] at hlast
  exact Bool.eq_false_iff.mpr hlast

theorem exists_of_trimSpace_open (h : endsOpen true 0 (trimSpace a) = true) :
    ∃ v, trimSpace a = v ++ [chBackslash] ∧ endsOpen false 0 v = false := by
  obtain ⟨v, w, ht, hw, -, hv⟩ := exists_of_endsOpen h
  rcases w with _ | ⟨c, b⟩
  · exact ⟨v, ht, hv⟩
  · have hspace := dropWhile_eq_nil_iff.mp (spaces_of_openSequence hw)
    have hlast := trimSpace_last a ((c :: b).getLast (cons_ne_nil _ _))
      (by simp [ht, getLast?_eq_some_getLast])
    rw [hspace _ (getLast_mem _)] at hlast
    cases hlast

theorem trimsApart_of_spaces (h : ∀ a ∈ args, trimSpace a = []) : trimsApart args = true := by
  induction args with
  | nil => rfl
  | cons a args ih =>
    obtain ⟨ha, hargs⟩ := forall_mem_cons.mp h
    rw [trimsApart, ha, ih hargs]
    rfl

theorem splits_joinTrimmed {ls : List (List Bytes)} (h : List.Forall₂ Splits args ls) :
    Splits (joinTrimmed args) ls.flatten ↔ trimsApart args = true := by
  induction h with
  | nil => exact iff_of_true rfl rfl
  | @cons a l args ls ha hrest ih =>
    rw [joinTrimmed, trimsApart, flatten_cons]
    by_cases hz : trimSpace a = []
    · obtain rfl := (splits_of_spaces (trimSpace_eq_nil.mp hz)).mp ha
      simp [hz, ih, endsOpen]
    rw [if_neg hz]
    obtain ⟨ws, hws, hspaces⟩ := exists_trimmed a
    rw [← splits_dropWhile, hws] at ha
    by_cases hopen : endsOpen true 0 (trimSpace a) = true
    · obtain ⟨v, ht, hv⟩ := exists_of_trimSpace_open hopen
      rw [ht, append_assoc, singleton_append] at ha
      rw [hopen, Bool.not_true, Bool.false_or]
      by_cases hnil : joinTrimmed args = []
      · have hargs := joinTrimmed_eq_nil.mp hnil
        have hall : args.all (trimSpace · == []) = true := by simpa using hargs
        have htrue := trimsApart_of_spaces hargs
        rw [hnil] at ih
        rw [if_pos hnil, (splits_of_spaces rfl).mp (ih.mpr htrue), append_nil, hall, htrue,
          Bool.and_true, Bool.and_true, beq_iff_eq, hws]
        constructor
        · intro hsplit
          rw [ht] at hsplit
          by_contra hne
          have hws' : ws ≠ [] := fun h => hne (by rw [h, append_nil])
          refine ha.not_prefix hsplit hv hspaces (fun f g hf hg heq => ?_) prefix_rfl
          obtain ⟨x, hx, hspace, -⟩ := value_of_spaces hspaces hf
          obtain ⟨y, hy, -, hback⟩ := value_of_spaces rfl hg
          rw [hx, hy, hback rfl] at heq
          obtain rfl := singleton_inj.mp heq
          cases hspace hws'
        · intro heq
          obtain rfl := self_eq_append_right.mp heq
          rw [ht]
          exact ha
      · obtain ⟨d, y, hy, hd⟩ := joinTrimmed_head hnil
        have hall : args.all (trimSpace · == []) = false := by
          rw [← Bool.not_eq_true, all_eq_true]
          exact fun h => hnil (joinTrimmed_eq_nil.mpr fun a ha => beq_iff_eq.mp (h a ha))
        rw [if_neg hnil, hall, Bool.and_false, Bool.false_and, ht, hy, append_assoc,
          singleton_append]
        refine iff_of_false (fun hsplit => ?_) Bool.false_ne_true
        refine ha.not_prefix hsplit hv hspaces (fun f g hf hg heq => ?_) (prefix_append _ _)
        obtain ⟨x, hx, -⟩ := value_of_spaces hspaces hf
        have hlen := value_of_openSequence (w := []) rfl hd hg
        rw [← heq, hx] at hlen
        exact absurd hlen (Nat.not_succ_le_self 1)
    rw [Bool.not_eq_true] at hopen
    -- what stands behind the trimmed argument
    obtain ⟨z, hjoin, hz', hend⟩ : ∃ z, (if joinTrimmed args = [] then trimSpace a
        else trimSpace a ++ chSpace :: joinTrimmed args) = trimSpace a ++ z ∧
        (∀ es, Splits z es ↔ Splits (joinTrimmed args) es) ∧ atElementEnd z = true := by
      split_ifs with hnil
      · exact ⟨[], (append_nil _).symm, fun es => by rw [hnil], rfl⟩
      · exact ⟨_, rfl, fun es => splits_spaces_append (u := [chSpace]) rfl, rfl⟩
    rw [hjoin, ha.append hspaces hopen hend, hopen]
    simp [hz', ih]

/-! ## The room for the joined text -/

theorem spaceRuns_joined {t : Bytes} (ht : ∀ c ∈ t.getLast?, isSpace c = false) (hne : t ≠ [])
    (z : Bytes) (inRun : Bool) :
    spaceRuns inRun (t ++ chSpace :: z) = spaceRuns inRun t + 1 + spaceRuns true z := by
  induction t generalizing inRun with
  | nil => exact absurd rfl hne
  | cons c t ih =>
    rcases t with _ | ⟨d, t⟩
    · have hc := ht c rfl
      have hblank : isSpace chSpace = true := rfl
      cases inRun <;> simp [spaceRuns, hc, hblank, Nat.add_comm]
    · have hrest := ih (fun x hx => ht x hx) (cons_ne_nil d t)
      rw [cons_append]
      cases inRun
      · rw [spaceRuns, spaceRuns]
        split_ifs
        · rw [hrest]
          omega
        · exact hrest false
      · rw [spaceRuns, spaceRuns]
        exact hrest _

theorem joinRoom_of_spaces (h : ∀ a ∈ args, trimSpace a = []) : joinRoom args = 0 := by
  induction args with
  | nil => rfl
  | cons a args ih =>
    obtain ⟨ha, hargs⟩ := forall_mem_cons.mp h
    rw [joinRoom, if_pos ha, ih hargs]

theorem joinRoom_eq (h : joinTrimmed args ≠ []) :
    8 * (spaceRuns false (joinTrimmed args) + 1) + ((joinTrimmed args).length + 1) =
      joinRoom args := by
  induction args with
  | nil => exact absurd rfl h
  | cons a args ih =>
    rw [joinTrimmed] at h ⊢
    rw [joinRoom]
    by_cases hz : trimSpace a = []
    · rw [if_pos hz] at h ⊢
      rw [if_pos hz, Nat.zero_add]
      exact ih h
    rw [if_neg hz, if_neg hz]
    by_cases hnil : joinTrimmed args = []
    · rw [if_pos hnil, joinRoom_of_spaces (joinTrimmed_eq_nil.mp hnil)]
      rfl
    · obtain ⟨d, y, hy, hd⟩ := joinTrimmed_head hnil
      have hruns : spaceRuns true (joinTrimmed args) = spaceRuns false (joinTrimmed args) := by
        rw [hy, spaceRuns, spaceRuns, hd]
        rfl
      rw [if_neg hnil, spaceRuns_joined (trimSpace_last a) hz, hruns, ← ih hnil, length_append,
        length_cons]
      omega

theorem splitGranted_joinTrimmed (args : List Bytes) :
    SplitGranted (joinTrimmed args) ↔ joinRoom args + 8 ≤ mxAlloc := by
  have hiff : SplitGranted (joinTrimmed args) ↔
      listSize (joinTrimmed args) * 8 + ((joinTrimmed args).length + 1) ≤ mxAlloc :=
    ⟨SplitGranted.pointers, fun h => ⟨(Nat.le_add_right _ _).trans h, h⟩⟩
  rw [hiff, listSize]
  by_cases hnil : joinTrimmed args = []
  · rw [joinRoom_of_spaces (joinTrimmed_eq_nil.mp hnil), hnil]
    decide
  · rw [← joinRoom_eq hnil]
    omega

theorem concatCommand_splits_iff {args : List TString} {ls : List (List Bytes)} {r : TString}
    (hargs : List.Forall₂ (fun a l => SplitsInto a.bytes l) args ls)
    (hr : concatCommand nResultLimit args = .ok r) :
    SplitsInto r.bytes ls.flatten ↔ trimsApart (args.map TString.bytes) = true ∧
      joinRoom (args.map TString.bytes) + 8 ≤ mxAlloc ∧ ls.flatten.length ≤ maxListElements := by
  have htext : r.bytes = joinTrimmed (args.map TString.bytes) := concatFrom_eq hr
  have hsplits : List.Forall₂ Splits (args.map TString.bytes) ls := by
    rw [forall₂_map_left_iff]
    exact hargs.imp fun a l h => (eagleSplitList_eq_ok.mp h.1).2
  rw [SplitsInto, htext, eagleSplitList_eq_ok, splitGranted_joinTrimmed, splits_joinTrimmed hsplits]
  tauto

theorem splitsInto_of_eval {z : Bytes} {es : List Bytes} (h : eagleSplitList z = .ok es)
    (hlen : es.length ≤ 10) : SplitsInto z es :=
  ⟨h, hlen.trans (by decide)⟩

theorem concatCommand_splits_iff_twoLists :
    SplitsInto (ascii "{a b} c d\\\\") [ascii "a b", ascii "c", ascii "d\\"] := by
  have hargs : List.Forall₂ (fun a l => SplitsInto (TString.bytes a) l)
      [.plain (ascii " {a b} "), .plain (ascii "c d\\\\ ")]
      [[ascii "a b"], [ascii "c", ascii "d\\"]] :=
    .cons (splitsInto_of_eval (by decide) (by decide))
      (.cons (splitsInto_of_eval (by decide) (by decide)) .nil)
  have hr : concatCommand 0 [.plain (ascii " {a b} "), .plain (ascii "c d\\\\ ")] =
      .ok (.plain (ascii "{a b} c d\\\\")) := by decide
  exact (concatCommand_splits_iff hargs hr).mpr ⟨by decide, by decide, by decide⟩

/-- `concat {a\ } b` is a list of one element. -/
theorem concatCommand_cuts_escape :
    SplitsInto (ascii "a\\ ") [ascii "a "] ∧ SplitsInto (ascii "b") [ascii "b"] ∧
      concatCommand 0 [.plain (ascii "a\\ "), .plain (ascii "b")] = .ok (.plain (ascii "a\\ b")) ∧
      SplitsInto (ascii "a\\ b") [ascii "a b"] ∧
      ¬SplitsInto (ascii "a\\ b") [ascii "a ", ascii "b"] := by
  refine ⟨splitsInto_of_eval (by decide) (by decide),
    splitsInto_of_eval (by decide) (by decide), by decide,
    splitsInto_of_eval (by decide) (by decide), fun h => ?_⟩
  exact absurd h.1 (by decide)

end Th8
