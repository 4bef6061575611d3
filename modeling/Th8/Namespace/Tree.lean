import Th8.Command.Registry
import Th8.Support.Forest
import Th8.Support.Table

/-!
# The namespace tree

Namespaces are records with addresses.  A record holds its full name, the address of
its parent and a table of its children; the full name is built when the record is
created, and the key that unlinks a namespace is derived from it again.  Any request
for memory may fail.  A released record stays released, and using it has no result.

The commands of a namespace are left to `Th8.Command.Interp`.
-/

namespace Th8

open Support

abbrev NsId := ℕ

/-- The fields of `Th8_Namespace` that the tree consists of. -/
structure Namespace where
  zName : Bytes
  pParent : Option NsId
  nDepth : ℕ
  paChild : AList fun _ : Bytes => NsId
deriving DecidableEq

def Namespace.kids (ns : Namespace) : List NsId := ns.paChild.entries.map Sigma.snd

/-- `pGlobalNs`. -/
def globalNs : NsId := 0

structure NsTree where
  namespaces : Memory NsId Namespace
  nextNs : NsId
  pCurrentNs : NsId
  nEvalDepth : ℕ
  pendingNs : List NsId

def nsSeparator : Bytes := [chColon, chColon]

def NsTree.init : NsTree where
  namespaces := Function.update (fun _ => none) globalNs (some ⟨nsSeparator, none, 0, ∅⟩)
  nextNs := 1
  pCurrentNs := globalNs
  nEvalDepth := 0
  pendingNs := []

def cString (z : Bytes) : Bytes := z.takeWhile (· ≠ 0)

/-- Where the walk of `th8FindNamespaceEx` starts, and the components it follows. -/
def NsTree.walkStart (t : NsTree) (zName : Bytes) : NsId × List Bytes :=
  if zName = [] then (globalNs, [])
  else if isAbsolute zName then (globalNs, nsComponents (zName.drop 2))
  else (t.pCurrentNs, nsComponents zName)

def NsTree.walk (t : NsTree) : NsId → List Bytes → Option (Option NsId)
  | pNs, [] => some (some pNs)
  | pNs, zComp :: rest =>
    match t.namespaces pNs with
    | none => none
    | some ns =>
      match ns.paChild.lookup zComp with
      | none => some none
      | some pChild => t.walk pChild rest

/-- `th8FindNamespace` without creation. -/
def NsTree.findNamespace (t : NsTree) (zName : Bytes) : Option (Option NsId) :=
  t.walk (t.walkStart zName).1 (t.walkStart zName).2

/-- Every level of the tree is within the recursion of `th8FreeNamespace`. -/
def releaseFuel : ℕ := mxNsDepth + 1

def NsTree.freeNamespace (t : NsTree) (pNs : NsId) : Option NsTree :=
  (release Namespace.kids releaseFuel t.namespaces pNs).map fun m =>
    { t with namespaces := m }

/-- The unlinking half of `th8UnlinkFreeNamespace`: the key is the tail of the full
name. -/
def NsTree.unlink (t : NsTree) (pNs : NsId) : Option NsTree :=
  match t.namespaces pNs with
  | none => none
  | some ns =>
    match ns.pParent with
    | none => some t
    | some pParent =>
      match t.namespaces pParent with
      | none => none
      | some parent =>
        let zTail := (splitQualName ns.zName).2
        some { t with
          namespaces := Function.update t.namespaces pParent
            (some { parent with paChild := parent.paChild.erase zTail }) }

/-- `th8UnlinkFreeNamespace`: inside an evaluation the release is put off. -/
def NsTree.unlinkFreeNamespace (t : NsTree) (pNs : NsId) : Option NsTree :=
  match t.unlink pNs with
  | none => none
  | some t₁ =>
    if 0 < t.nEvalDepth then some { t₁ with pendingNs := t₁.pendingNs ++ [pNs] }
    else t₁.freeNamespace pNs

/-- The namespace half of `th8DrainPendingDeletes`. -/
def NsTree.drainPendingNs (t : NsTree) : Option NsTree :=
  (t.pendingNs.foldlM (release Namespace.kids releaseFuel) t.namespaces).map fun m =>
    { t with namespaces := m, pendingNs := [] }

/-! ## Creation -/

structure ChildMemory where
  pChild : Bool
  zFull : Bool
  paCmd : Bool
  paVar : Bool
  paChild : Bool
  pEntry : Bool
deriving DecidableEq

def ChildMemory.granted (m : ChildMemory) : Bool :=
  m.pChild && m.zFull && m.paCmd && m.paVar && m.paChild && m.pEntry

def getFullNsName (pParent : NsId) (parent : Namespace) (zChild : Bytes) : Bytes :=
  if pParent = globalNs then nsSeparator ++ zChild
  else parent.zName ++ nsSeparator ++ zChild

/-- A new namespace in the table of `pNs`.  Its name is measured with `Th8_Strlen`. -/
def NsTree.linkChild (t : NsTree) (pNs : NsId) (ns : Namespace) (zComp : Bytes) : NsTree :=
  let child : Namespace :=
    ⟨cString (getFullNsName pNs ns zComp), some pNs, ns.nDepth + 1, ∅⟩
  { t with
    namespaces := Function.update (Function.update t.namespaces t.nextNs (some child))
      pNs (some { ns with paChild := ns.paChild.insert zComp t.nextNs })
    nextNs := t.nextNs + 1 }

/-- What a creating `th8FindNamespaceEx` returns: the namespace and the shallowest one
it created, or nothing. -/
inductive CreateResult where
  | found (pNs : NsId) (pCreatedRoot : Option NsId)
  | failed (e : Failure)
deriving DecidableEq

def NsTree.rollback (t : NsTree) : Option NsId → Option NsTree
  | none => some t
  | some pCreatedRoot => t.unlinkFreeNamespace pCreatedRoot

/-- The walk with creation.  `mem k` is the memory for the component that has `k`
components after it. -/
def NsTree.createWalk (mem : ℕ → ChildMemory) (t : NsTree) (pCreatedRoot : Option NsId)
    (pNs : NsId) : List Bytes → Option (NsTree × CreateResult)
  | [] => some (t, .found pNs pCreatedRoot)
  | zComp :: rest =>
    match t.namespaces pNs with
    | none => none
    | some ns =>
      match ns.paChild.lookup zComp with
      | some pChild => NsTree.createWalk mem t pCreatedRoot pChild rest
      | none =>
        if mxNsDepth ≤ ns.nDepth then
          (t.rollback pCreatedRoot).map fun t' =>
            (t', .failed (.static "namespace nested too deeply"))
        else if (mem rest.length).granted then
          NsTree.createWalk mem (t.linkChild pNs ns zComp)
            (some (pCreatedRoot.getD t.nextNs)) t.nextNs rest
        else (t.rollback pCreatedRoot).map fun t' => (t', .failed .silent)

theorem NsTree.createWalk_cons {mem : ℕ → ChildMemory} {t t' : NsTree} {root : Option NsId}
    {pNs : NsId} {zComp : Bytes} {rest : List Bytes} {r : CreateResult}
    (hrun : t.createWalk mem root pNs (zComp :: rest) = some (t', r)) :
    ∃ ns, t.namespaces pNs = some ns ∧
      ((∃ pChild, ns.paChild.lookup zComp = some pChild ∧
          t.createWalk mem root pChild rest = some (t', r)) ∨
        (ns.paChild.lookup zComp = none ∧
          (t.linkChild pNs ns zComp).createWalk mem (some (root.getD t.nextNs)) t.nextNs rest =
            some (t', r)) ∨
        t.rollback root = some t' ∧ ∃ e, r = .failed e) := by
  rw [NsTree.createWalk] at hrun
  cases hns : t.namespaces pNs with
  | none => simp [hns] at hrun
  | some ns =>
    refine ⟨ns, rfl, ?_⟩
    simp only [hns] at hrun
    cases hchild : ns.paChild.lookup zComp with
    | some pChild =>
      simp only [hchild] at hrun
      exact .inl ⟨pChild, rfl, hrun⟩
    | none =>
      have hfailed : ∀ {e : Failure},
          ((t.rollback root).map fun t' => (t', CreateResult.failed e)) = some (t', r) →
            t.rollback root = some t' ∧ ∃ e, r = .failed e := by
        intro e h
        obtain ⟨t₁, h₁, heq⟩ := Option.map_eq_some_iff.mp h
        cases heq
        exact ⟨h₁, e, rfl⟩
      simp only [hchild] at hrun
      split_ifs at hrun
      · exact .inr (.inr (hfailed hrun))
      · exact .inr (.inl ⟨rfl, hrun⟩)
      · exact .inr (.inr (hfailed hrun))

/-- `th8FindNamespaceEx` with creation. -/
def NsTree.findNamespaceEx (mem : ℕ → ChildMemory) (t : NsTree) (zName : Bytes) :
    Option (NsTree × CreateResult) :=
  t.createWalk mem none (t.walkStart zName).1 (t.walkStart zName).2

inductive NsResult where
  | ok
  | error (e : Failure)
deriving DecidableEq

/-- `Th8_DeleteNamespace`.  Deleting the global namespace empties it; without memory
for its new tables it is left with released ones. -/
def NsTree.deleteNamespace (t : NsTree) (zName : Bytes) (tablesGranted : Bool) :
    Option (NsTree × NsResult) :=
  match t.findNamespace zName with
  | none => none
  | some none => some (t, .error (.static "namespace not found"))
  | some (some pNs) =>
    let t₁ := if pNs = t.pCurrentNs then { t with pCurrentNs := globalNs } else t
    if pNs = globalNs then
      match t₁.namespaces globalNs with
      | none => none
      | some ns =>
        if tablesGranted then
          (ns.kids.foldlM (release Namespace.kids releaseFuel) t₁.namespaces).map
            fun m => ({ t₁ with
              namespaces := Function.update m globalNs (some { ns with paChild := ∅ })
              pCurrentNs := globalNs }, .ok)
        else none
    else (t₁.unlinkFreeNamespace pNs).map fun t' => (t', .ok)

/-- The operations on the tree.  `createThenFail` is a caller that creates a namespace
and then fails itself, as `Th8_CreateCommand` may; `setCurrent` is a switch to a
namespace by its address, as `namespace eval`, `uplevel` and command dispatch make it. -/
inductive NsOp where
  | create (zName : Bytes) (mem : ℕ → ChildMemory)
  | createThenFail (zName : Bytes) (mem : ℕ → ChildMemory)
  | delete (zName : Bytes) (tablesGranted : Bool)
  | setCurrent (pNs : NsId)
  | enterEval
  | leaveEval

/-- One operation.  A namespace is made current only while it is allocated; when the
last evaluation ends, the deletions that were put off are carried out. -/
def NsOp.run (t : NsTree) : NsOp → Option NsTree
  | .create zName mem => (t.findNamespaceEx mem zName).map Prod.fst
  | .createThenFail zName mem =>
    match t.findNamespaceEx mem zName with
    | none => none
    | some (t₁, .found _ pCreatedRoot) => t₁.rollback pCreatedRoot
    | some (t₁, .failed _) => some t₁
  | .delete zName tablesGranted =>
    (t.deleteNamespace zName tablesGranted).map Prod.fst
  | .setCurrent pNs =>
    if (t.namespaces pNs).isSome then some { t with pCurrentNs := pNs } else none
  | .enterEval => some { t with nEvalDepth := t.nEvalDepth + 1 }
  | .leaveEval =>
    if t.nEvalDepth ≤ 1 then { t with nEvalDepth := 0 }.drainPendingNs
    else some { t with nEvalDepth := t.nEvalDepth - 1 }

def nsStep (t : Option NsTree) (op : NsOp) : Option NsTree := t.bind op.run

end Th8
