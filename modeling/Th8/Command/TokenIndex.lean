import Mathlib.Data.List.Infix
import Th8.Command.Registry

/-!
# The token index and deletion by token

In every run the token index leads from each token exactly to the live record
that carries it.  Deletion by token finds the right record, but it then removes
whatever the stored name leads to from the namespace that is current by then.
-/

namespace Th8

open Support
open Function (update update_apply update_of_ne update_self)

structure RegistryInv (s : CmdState) : Prop where
  current_mem : s.current ∈ s.namespaces
  key_mem : ∀ {k id}, s.paCmd k = some id → k.1 ∈ s.namespaces
  inj : ∀ {k k' id}, s.paCmd k = some id → s.paCmd k' = some id → k = k'
  fresh : ∀ {k id}, s.paCmd k = some id → id < s.nextCmd
  token_pos : ∀ {k id}, s.paCmd k = some id → 0 < (s.heap id).nToken
  token_lt : ∀ {k id}, s.paCmd k = some id → (s.heap id).nToken < s.nNextCmdToken
  indexed : ∀ {k id}, s.paCmd k = some id → s.tokenEntry (s.heap id).nToken = some id
  live : ∀ {t id}, s.tokenEntry t = some id → ∃ k, s.paCmd k = some id ∧ (s.heap id).nToken = t
  next_pos : 0 < s.nNextCmdToken

theorem registryInv_init : RegistryInv CmdState.init where
  current_mem := by simp [CmdState.init]
  key_mem h := by simp [CmdState.init] at h
  inj h := by simp [CmdState.init] at h
  fresh h := by simp [CmdState.init] at h
  token_pos h := by simp [CmdState.init] at h
  token_lt h := by simp [CmdState.init] at h
  indexed h := by simp [CmdState.init] at h
  live h := by simp [CmdState.init, CmdState.tokenEntry] at h
  next_pos := by simp [CmdState.init]

variable {s : CmdState}

theorem createNamespace_eq {s₁ : CmdState} {path : NsPath} (h : s.createNamespace path = some s₁) :
    ∃ ns, s₁ = { s with namespaces := ns } ∧ path ∈ ns ∧ ∀ p ∈ s.namespaces, p ∈ ns := by
  unfold CmdState.createNamespace at h
  split_ifs at h with hmem hdeep
  · cases h
    exact ⟨s.namespaces, rfl, hmem, fun p hp => hp⟩
  · cases h
    refine ⟨path.inits ++ s.namespaces, rfl, ?_, fun p hp => ?_⟩
    · simp
    · exact List.mem_append_right _ hp

theorem RegistryInv.growNamespaces (h : RegistryInv s) {ns : List NsPath}
    (hns : ∀ p ∈ s.namespaces, p ∈ ns) :
    RegistryInv { s with namespaces := ns } :=
  { h with
    current_mem := hns _ h.current_mem
    key_mem := fun hk => hns _ (h.key_mem hk) }

/-! ## Effect of the table operations -/

section RemoveTokenEntry

variable (s : CmdState) (id : CmdId)

@[simp] theorem removeTokenEntry_current : (s.removeTokenEntry id).current = s.current := by
  unfold CmdState.removeTokenEntry
  split_ifs <;> rfl

@[simp] theorem removeTokenEntry_namespaces :
    (s.removeTokenEntry id).namespaces = s.namespaces := by
  unfold CmdState.removeTokenEntry
  split_ifs <;> rfl

@[simp] theorem removeTokenEntry_paCmd : (s.removeTokenEntry id).paCmd = s.paCmd := by
  unfold CmdState.removeTokenEntry
  split_ifs <;> rfl

@[simp] theorem removeTokenEntry_heap : (s.removeTokenEntry id).heap = s.heap := by
  unfold CmdState.removeTokenEntry
  split_ifs <;> rfl

@[simp] theorem removeTokenEntry_nextCmd : (s.removeTokenEntry id).nextCmd = s.nextCmd := by
  unfold CmdState.removeTokenEntry
  split_ifs <;> rfl

@[simp] theorem removeTokenEntry_nNextCmdToken :
    (s.removeTokenEntry id).nNextCmdToken = s.nNextCmdToken := by
  unfold CmdState.removeTokenEntry
  split_ifs <;> rfl

theorem tokenEntry_removeTokenEntry {id} (hpos : 0 < (s.heap id).nToken) (t : ℕ) :
    (s.removeTokenEntry id).tokenEntry t =
      if t = (s.heap id).nToken then none else s.tokenEntry t := by
  unfold CmdState.removeTokenEntry CmdState.tokenEntry
  rw [if_neg (Nat.ne_of_gt hpos)]
  cases s.paCmdToken with
  | none => simp
  | some index => simp [update_apply]

end RemoveTokenEntry

/-- The table without the command at `key`. -/
def CmdState.unlink (s : CmdState) (key : NsPath × Bytes) : CmdState :=
  { s with paCmd := update s.paCmd key none }

theorem unlink_paCmd {key k : NsPath × Bytes} {i : CmdId} :
    (s.unlink key).paCmd k = some i ↔ k ≠ key ∧ s.paCmd k = some i := by
  simp only [CmdState.unlink, update_apply]
  split_ifs with h <;> simp [h]

theorem tokenEntry_publish (s : CmdState) (id : CmdId) (key : NsPath × Bytes)
    (zName : Bytes) (t : ℕ) :
    (s.publish id key zName).tokenEntry t =
      if t = s.nNextCmdToken then some id else s.tokenEntry t := by
  unfold CmdState.publish CmdState.tokenEntry
  cases s.paCmdToken with
  | none => simp [update_apply]
  | some index => simp [update_apply]

theorem publish_paCmd {id i : CmdId} {key k : NsPath × Bytes} {zName : Bytes} :
    (s.publish id key zName).paCmd k = some i ↔
      (k = key ∧ i = id) ∨ (k ≠ key ∧ s.paCmd k = some i) := by
  simp only [CmdState.publish, update_apply]
  split_ifs with h <;> simp [h, eq_comm]

theorem publish_heap (s : CmdState) (id i : CmdId) (key : NsPath × Bytes) (zName : Bytes) :
    (s.publish id key zName).heap i =
      if i = id then ⟨s.nNextCmdToken, zName⟩ else s.heap i := by
  simp [CmdState.publish, update_apply]

namespace RegistryInv

variable {s : CmdState} (h : RegistryInv s)

include h

theorem token_inj {k k' : NsPath × Bytes} {i i' : CmdId} (hk : s.paCmd k = some i)
    (hk' : s.paCmd k' = some i') (ht : (s.heap i).nToken = (s.heap i').nToken) :
    k = k' := by
  have hsame := (h.indexed hk).symm.trans (ht ▸ h.indexed hk')
  cases hsame
  exact h.inj hk hk'

variable {id : CmdId}

theorem unlink {key : NsPath × Bytes} (hkey : s.paCmd key = some id) :
    RegistryInv ((s.unlink key).removeTokenEntry id) := by
  have hentry : ∀ t, ((s.unlink key).removeTokenEntry id).tokenEntry t =
      if t = (s.heap id).nToken then none else s.tokenEntry t := fun t =>
    tokenEntry_removeTokenEntry (s.unlink key) (h.token_pos hkey) t
  refine ⟨?_, ?_, ?_, ?_, ?_, ?_, ?_, ?_, ?_⟩
  · simpa [CmdState.unlink] using h.current_mem
  · intro k i hk
    rw [removeTokenEntry_paCmd, unlink_paCmd] at hk
    simpa [CmdState.unlink] using h.key_mem hk.2
  · intro k k' i hk hk'
    rw [removeTokenEntry_paCmd, unlink_paCmd] at hk hk'
    exact h.inj hk.2 hk'.2
  · intro k i hk
    rw [removeTokenEntry_paCmd, unlink_paCmd] at hk
    simpa [CmdState.unlink] using h.fresh hk.2
  · intro k i hk
    rw [removeTokenEntry_paCmd, unlink_paCmd] at hk
    simpa [CmdState.unlink] using h.token_pos hk.2
  · intro k i hk
    rw [removeTokenEntry_paCmd, unlink_paCmd] at hk
    simpa [CmdState.unlink] using h.token_lt hk.2
  · intro k i hk
    rw [removeTokenEntry_paCmd, unlink_paCmd] at hk
    rw [hentry, removeTokenEntry_heap]
    have hne : (s.heap i).nToken ≠ (s.heap id).nToken := fun ht =>
      hk.1 (h.token_inj hk.2 hkey ht)
    simpa [CmdState.unlink, hne] using h.indexed hk.2
  · intro t i ht
    rw [hentry] at ht
    split_ifs at ht with hti
    obtain ⟨k, hk, htok⟩ := h.live ht
    refine ⟨k, ?_, by simpa [CmdState.unlink] using htok⟩
    rw [removeTokenEntry_paCmd, unlink_paCmd]
    refine ⟨?_, hk⟩
    rintro rfl
    rw [hkey] at hk
    cases hk
    exact hti htok.symm
  · simpa [CmdState.unlink] using h.next_pos

theorem publish {key : NsPath × Bytes} (zName : Bytes) (hfresh : ∀ k, s.paCmd k ≠ some id)
    (hlt : id < s.nextCmd) (hmem : key.1 ∈ s.namespaces) (hfree : s.paCmd key = none) :
    RegistryInv (s.publish id key zName) := by
  have hother : ∀ {k i}, s.paCmd k = some i → i ≠ id := fun hk hi =>
    hfresh _ (hi ▸ hk)
  refine ⟨h.current_mem, ?_, ?_, ?_, ?_, ?_, ?_, ?_, ?_⟩
  · intro k i hk
    rcases publish_paCmd.mp hk with ⟨rfl, -⟩ | ⟨-, hold⟩
    · exact hmem
    · exact h.key_mem hold
  · intro k k' i hk hk'
    rcases publish_paCmd.mp hk with ⟨rfl, rfl⟩ | ⟨-, hold⟩
    · rcases publish_paCmd.mp hk' with ⟨rfl, -⟩ | ⟨-, hold'⟩
      · rfl
      · exact absurd rfl (hother hold')
    · rcases publish_paCmd.mp hk' with ⟨rfl, rfl⟩ | ⟨-, hold'⟩
      · exact absurd rfl (hother hold)
      · exact h.inj hold hold'
  · intro k i hk
    rcases publish_paCmd.mp hk with ⟨-, rfl⟩ | ⟨-, hold⟩
    · exact hlt
    · exact h.fresh hold
  · intro k i hk
    rw [publish_heap]
    rcases publish_paCmd.mp hk with ⟨-, rfl⟩ | ⟨-, hold⟩
    · simpa using h.next_pos
    · simpa [hother hold] using h.token_pos hold
  · intro k i hk
    rw [publish_heap]
    rcases publish_paCmd.mp hk with ⟨-, rfl⟩ | ⟨-, hold⟩
    · simp [CmdState.publish]
    · have hold' := h.token_lt hold
      simp only [if_neg (hother hold), CmdState.publish]
      omega
  · intro k i hk
    rw [publish_heap, tokenEntry_publish]
    rcases publish_paCmd.mp hk with ⟨-, rfl⟩ | ⟨-, hold⟩
    · simp
    · rw [if_neg (hother hold), if_neg (Nat.ne_of_lt (h.token_lt hold))]
      exact h.indexed hold
  · intro t i ht
    rw [tokenEntry_publish] at ht
    split_ifs at ht with hti
    · cases ht
      exact ⟨key, publish_paCmd.mpr (.inl ⟨rfl, rfl⟩), by simp [publish_heap, hti]⟩
    · obtain ⟨k, hk, htok⟩ := h.live ht
      refine ⟨k, publish_paCmd.mpr (.inr ⟨?_, hk⟩), ?_⟩
      · rintro rfl
        rw [hfree] at hk
        cases hk
      · rw [publish_heap, if_neg (hother hk)]
        exact htok
  · simp [CmdState.publish]

/-- Moving a record to a free key and giving it another stored name. -/
theorem move {old new : NsPath × Bytes} (zNew : Bytes) (hold : s.paCmd old = some id)
    (hfree : s.paCmd new = none) (hmem : new.1 ∈ s.namespaces) :
    RegistryInv { s with
      paCmd := update (update s.paCmd new (some id)) old none
      heap := update s.heap id { s.heap id with zQualName := zNew } } := by
  have hne : new ≠ old := by
    rintro rfl
    rw [hold] at hfree
    cases hfree
  -- where a command was before the move
  have hwas : ∀ {k i}, update (update s.paCmd new (some id)) old none
      k = some i → (k = new ∧ i = id) ∨ (k ≠ new ∧ k ≠ old ∧ s.paCmd k = some i) := by
    intro k i hk
    simp only [update_apply] at hk
    split_ifs at hk with h1 h2
    · exact .inl ⟨h2, by cases hk; rfl⟩
    · exact .inr ⟨h2, h1, hk⟩
  have hother : ∀ {k i}, k ≠ old → s.paCmd k = some i → i ≠ id := by
    rintro k i hk hi rfl
    exact hk (h.inj hi hold)
  have htoken : ∀ i, (update s.heap id
      { s.heap id with zQualName := zNew } i).nToken = (s.heap i).nToken := by
    intro i
    simp only [update_apply]
    split_ifs with hi <;> simp [hi]
  -- every moved command was live before, with the same token
  have hlive : ∀ {k i}, update (update s.paCmd new (some id)) old none
      k = some i → ∃ k', s.paCmd k' = some i := by
    intro k i hk
    rcases hwas hk with ⟨-, rfl⟩ | ⟨-, -, hk'⟩
    · exact ⟨old, hold⟩
    · exact ⟨k, hk'⟩
  refine ⟨h.current_mem, ?_, ?_, ?_, ?_, ?_, ?_, ?_, h.next_pos⟩
  · intro k i hk
    rcases hwas hk with ⟨rfl, -⟩ | ⟨-, -, hk'⟩
    · exact hmem
    · exact h.key_mem hk'
  · intro k k' i hk hk'
    rcases hwas hk with ⟨rfl, rfl⟩ | ⟨-, hko, hkk⟩
    · rcases hwas hk' with ⟨rfl, -⟩ | ⟨-, hko', hkk'⟩
      · rfl
      · exact absurd rfl (hother hko' hkk')
    · rcases hwas hk' with ⟨rfl, rfl⟩ | ⟨-, -, hkk'⟩
      · exact absurd rfl (hother hko hkk)
      · exact h.inj hkk hkk'
  · intro k i hk
    obtain ⟨k', hk'⟩ := hlive hk
    exact h.fresh hk'
  · intro k i hk
    obtain ⟨k', hk'⟩ := hlive hk
    rw [htoken]
    exact h.token_pos hk'
  · intro k i hk
    obtain ⟨k', hk'⟩ := hlive hk
    rw [htoken]
    exact h.token_lt hk'
  · intro k i hk
    obtain ⟨k', hk'⟩ := hlive hk
    rw [htoken]
    exact h.indexed hk'
  · intro t i ht
    obtain ⟨k, hk, htok⟩ := h.live ht
    by_cases hko : k = old
    · subst hko
      rw [hold] at hk
      cases hk
      exact ⟨new, by simp [update_of_ne hne], by rw [htoken, htok]⟩
    · refine ⟨k, ?_, by rw [htoken, htok]⟩
      have hkn : k ≠ new := by
        rintro rfl
        rw [hfree] at hk
        cases hk
      simp [update_of_ne hko, update_of_ne hkn, hk]

end RegistryInv

theorem publish_unlink (s : CmdState) (id : CmdId) (key : NsPath × Bytes) (zName : Bytes) :
    ((s.unlink key).removeTokenEntry id).publish id key zName =
      (s.removeTokenEntry id).publish id key zName := by
  unfold CmdState.publish CmdState.removeTokenEntry CmdState.unlink
  split_ifs <;> simp

theorem RegistryInv.createCommand (h : RegistryInv s) (zName : Bytes) :
    RegistryInv (createCommand s zName).1 := by
  unfold Th8.createCommand
  dsimp only
  cases hns : s.createNamespace (resolveName s.current zName).1 with
  | none => exact h
  | some s₁ =>
    obtain ⟨ns, rfl, hmem, hsub⟩ := createNamespace_eq hns
    have h₁ := h.growNamespaces hsub
    dsimp only
    cases hold : s.paCmd (resolveName s.current zName) with
    | some old =>
      have hunlinked := h₁.unlink hold
      dsimp only
      rw [← publish_unlink]
      refine hunlinked.publish zName ?_ ?_ ?_ ?_
      · intro k hk
        rw [removeTokenEntry_paCmd, unlink_paCmd] at hk
        exact hk.1 (h.inj hk.2 hold)
      · simpa [CmdState.unlink] using h.fresh hold
      · simpa [CmdState.unlink] using hmem
      · simp [CmdState.unlink]
    | none =>
      have hnext : RegistryInv { s with namespaces := ns, nextCmd := s.nextCmd + 1 } :=
        { h₁ with fresh := fun hk => Nat.lt_succ_of_lt (h.fresh hk) }
      refine hnext.publish zName ?_ (Nat.lt_succ_self _) hmem hold
      exact fun k hk => Nat.lt_irrefl _ (h.fresh hk)

theorem RegistryInv.renameCommand (h : RegistryInv s) (zOld zNew : Bytes) :
    RegistryInv (renameCommand s zOld zNew).1 := by
  unfold Th8.renameCommand
  by_cases hmem : (resolveName s.current zOld).1 ∉ s.namespaces
  · rw [if_pos hmem]
    exact h
  rw [if_neg hmem]
  cases hold : s.paCmd (resolveName s.current zOld) with
  | none => exact h
  | some id =>
    dsimp only
    by_cases hnew : zNew = []
    · rw [if_pos hnew]
      exact h.unlink hold
    rw [if_neg hnew]
    cases hns : s.createNamespace (resolveName s.current zNew).1 with
    | none => exact h
    | some s₁ =>
      obtain ⟨ns, rfl, hmem', hsub⟩ := createNamespace_eq hns
      have h₁ := h.growNamespaces hsub
      dsimp only
      cases hexists : s.paCmd (resolveName s.current zNew) with
      | some other => exact h₁
      | none => exact h₁.move zNew hold hexists hmem'

theorem RegistryInv.cmdStep (h : RegistryInv s) (op : CmdOp) : RegistryInv (cmdStep s op) := by
  unfold Th8.cmdStep
  cases op with
  | create zName => exact h.createCommand zName
  | rename zOld zNew => exact h.renameCommand zOld zNew
  | delete token =>
    simp only [CmdOp.run, deleteCommand]
    split
    · exact h
    · split
      · exact h
      · split_ifs
        · exact h
        · exact h.renameCommand _ _
  | setNamespace zNs =>
    simp only [CmdOp.run, setNamespace]
    cases hns : s.createNamespace (namespacePath s.current zNs) with
    | none => exact h
    | some s₁ =>
      obtain ⟨ns, rfl, hmem, hsub⟩ := createNamespace_eq hns
      exact { h.growNamespaces hsub with current_mem := hmem }

theorem registryInv_of_reachable (hs : Reachable cmdStep CmdState.init s) : RegistryInv s :=
  hs.invariant registryInv_init fun _ op h _ => h.cmdStep op

/-! ## Deletion by token -/

def TokenIndexInverse (s : CmdState) : Prop :=
  ∀ token id, s.tokenEntry token = some id ↔
    token ≠ 0 ∧ ∃ k, s.paCmd k = some id ∧ (s.heap id).nToken = token

/-- The command at `k` is live and carries `token`. -/
def CarriesToken (s : CmdState) (token : ℕ) (k : NsPath × Bytes) : Prop :=
  ∃ id, s.paCmd k = some id ∧ (s.heap id).nToken = token

/-- What deletion by token is for: it removes the command that carries the token
and no other, and fails, with nothing changed, when no command carries it. -/
def DeletesExactly (s : CmdState) (token : ℕ) : Prop :=
  (∀ k, CarriesToken s token k →
    (deleteCommand s token).2 = .ok none ∧
      (deleteCommand s token).1.paCmd = update s.paCmd k none) ∧
  ((∀ k, ¬ CarriesToken s token k) →
    (∃ e, (deleteCommand s token).2 = .error e) ∧ (deleteCommand s token).1 = s)

/-- The name a command was created or renamed with is not empty, and leads back to
the command from the current namespace. -/
def StoredNameLeadsBack (s : CmdState) (token : ℕ) : Prop :=
  ∀ k id, s.paCmd k = some id → (s.heap id).nToken = token →
    (s.heap id).zQualName ≠ [] ∧ resolveName s.current (s.heap id).zQualName = k

theorem RegistryInv.tokenIndexInverse (h : RegistryInv s) : TokenIndexInverse s := by
  intro token id
  constructor
  · intro hentry
    obtain ⟨k, hk, htoken⟩ := h.live hentry
    exact ⟨htoken ▸ Nat.ne_of_gt (h.token_pos hk), k, hk, htoken⟩
  · rintro ⟨-, k, hk, rfl⟩
    exact h.indexed hk

theorem deleteCommand_of_tokenEntry_none {token : ℕ} (h : s.tokenEntry token = none) :
    (∃ e, (deleteCommand s token).2 = .error e) ∧ (deleteCommand s token).1 = s := by
  unfold deleteCommand
  cases hindex : s.paCmdToken with
  | none => exact ⟨⟨_, rfl⟩, rfl⟩
  | some index =>
    have hnone : index token = none := by
      simpa [CmdState.tokenEntry, hindex] using h
    simp [hnone]

theorem deleteCommand_of_tokenEntry {token : ℕ} {id : CmdId} (h : s.tokenEntry token = some id) :
    deleteCommand s token =
      if (s.heap id).zQualName = [] then
        (s, .error (.static "command not found (no stored name)"))
      else renameCommand s (s.heap id).zQualName [] := by
  unfold deleteCommand
  cases hindex : s.paCmdToken with
  | none => simp [CmdState.tokenEntry, hindex] at h
  | some index =>
    have hsome : index token = some id := by
      simpa [CmdState.tokenEntry, hindex] using h
    simp [hsome]

theorem renameCommand_nil (h : RegistryInv s) (zOld : Bytes) :
    (∃ id, s.paCmd (resolveName s.current zOld) = some id ∧ (renameCommand s zOld []).2 = .ok none ∧
      (renameCommand s zOld []).1.paCmd = update s.paCmd (resolveName s.current zOld) none) ∨
    (s.paCmd (resolveName s.current zOld) = none ∧
      ∃ e, (renameCommand s zOld []).2 = .error e) := by
  unfold renameCommand
  dsimp only
  cases hold : s.paCmd (resolveName s.current zOld) with
  | none =>
    refine .inr ⟨rfl, ?_⟩
    split_ifs <;> exact ⟨_, rfl⟩
  | some id =>
    refine .inl ⟨id, rfl, ?_⟩
    rw [if_neg (not_not_intro (h.key_mem hold))]
    simp

theorem deletesExactly_iff (h : RegistryInv s) (token : ℕ) :
    DeletesExactly s token ↔ StoredNameLeadsBack s token := by
  constructor
  · rintro ⟨hlive, -⟩ k id hk htoken
    obtain ⟨hok, hcmds⟩ := hlive k ⟨id, hk, htoken⟩
    have hentry : s.tokenEntry token = some id := htoken ▸ h.indexed hk
    rw [deleteCommand_of_tokenEntry hentry] at hok hcmds
    by_cases hname : (s.heap id).zQualName = []
    · rw [if_pos hname] at hok
      cases hok
    rw [if_neg hname] at hok hcmds
    refine ⟨hname, ?_⟩
    rcases renameCommand_nil h (s.heap id).zQualName with ⟨id', hid', -, hcmds'⟩ | ⟨-, e, herror⟩
    · -- The table lost the command at `k`, and the one the name leads to.
      by_contra hne
      have hat := congrFun (hcmds.symm.trans hcmds') k
      simp [update_of_ne (Ne.symm hne), hk] at hat
    · rw [herror] at hok
      cases hok
  · intro hback
    refine ⟨?_, fun hnone => deleteCommand_of_tokenEntry_none ?_⟩
    · rintro k ⟨id, hk, htoken⟩
      obtain ⟨hname, hkey⟩ := hback k id hk htoken
      have hentry : s.tokenEntry token = some id := htoken ▸ h.indexed hk
      rw [deleteCommand_of_tokenEntry hentry, if_neg hname]
      rcases renameCommand_nil h (s.heap id).zQualName with ⟨id', -, hok, hcmds⟩ | ⟨hnone, -⟩
      · exact ⟨hok, by rw [hcmds, hkey]⟩
      · rw [hkey, hk] at hnone
        cases hnone
    · rw [Option.eq_none_iff_forall_not_mem]
      intro id hentry
      obtain ⟨k, hk, htoken⟩ := h.live hentry
      exact hnone k ⟨id, hk, htoken⟩

/-- In every run the index and the live commands are inverse to each other, and
deletion by token does what it is for exactly when the name that the record keeps
leads back to the record from the namespace current at the deletion. -/
theorem tokenIndexInverse_and_deletesExactly_iff {s : CmdState}
    (hs : Reachable cmdStep CmdState.init s) :
    TokenIndexInverse s ∧ ∀ token, DeletesExactly s token ↔ StoredNameLeadsBack s token :=
  have h := registryInv_of_reachable hs
  ⟨h.tokenIndexInverse, deletesExactly_iff h⟩

/-- Two commands of the same simple name, the first created in namespace `a` and
the second in the global namespace, which is current again. -/
def sameNamedCommands : CmdState :=
  [.setNamespace (ascii "::a"), .create (ascii "x"), .setNamespace (ascii "::"),
    .create (ascii "x")].foldl cmdStep CmdState.init

theorem deletesExactly_sameNamedCommands :
    StoredNameLeadsBack sameNamedCommands 2 ∧ DeletesExactly sameNamedCommands 2 := by
  have hback : StoredNameLeadsBack sameNamedCommands 2 := by
    intro k id hk htoken
    have hcmds : sameNamedCommands.paCmd =
        update (update (fun _ => none) ([ascii "a"], ascii "x") (some 0))
          ([], ascii "x") (some 1) := rfl
    rw [hcmds] at hk
    simp only [update_apply] at hk
    split_ifs at hk with hglobal hlocal
    · cases hk
      exact ⟨by decide, by rw [hglobal]; decide⟩
    · cases hk
      exact absurd htoken (by decide)
  exact ⟨hback, ((tokenIndexInverse_and_deletesExactly_iff (reachable_foldl _ _ _)).2 2).mpr hback⟩

/-- Deletion by the first command's token removes the second command. -/
theorem deleteCommand_removes_other :
    Reachable cmdStep CmdState.init sameNamedCommands ∧
      CarriesToken sameNamedCommands 1 ([ascii "a"], ascii "x") ∧
      (deleteCommand sameNamedCommands 1).2 = .ok none ∧
      (deleteCommand sameNamedCommands 1).1.paCmd ([ascii "a"], ascii "x") = some 0 ∧
      sameNamedCommands.paCmd ([], ascii "x") = some 1 ∧
      (deleteCommand sameNamedCommands 1).1.paCmd ([], ascii "x") = none ∧
      ¬ DeletesExactly sameNamedCommands 1 := by
  have hcarries : CarriesToken sameNamedCommands 1 ([ascii "a"], ascii "x") :=
    ⟨0, by decide, by decide⟩
  have hstays : (deleteCommand sameNamedCommands 1).1.paCmd ([ascii "a"], ascii "x") =
      some 0 := by decide
  refine ⟨reachable_foldl _ _ _, hcarries, by decide, hstays, by decide, by decide, ?_⟩
  intro hexact
  have hgone := congrFun (hexact.1 _ hcarries).2 ([ascii "a"], ascii "x")
  rw [hstays, update_self] at hgone
  cases hgone

end Th8
