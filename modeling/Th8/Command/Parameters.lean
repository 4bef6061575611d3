import Th8.Lists.ListCommand
import Th8.Namespace.Tree

/-!
# Parameters and arguments

The definitions that `proc`, `apply` and `nproc` make of a parameter list, and the callbacks
that give the parameters their values in the frame of a call.  The callbacks do not look at what
`Th8_SetVar` returns, so a call is told by its calls of `Th8_SetVar` and by the namespace and
the script it goes on with.  There is memory for everything, and no result limit.
-/

namespace Th8

open Support List

namespace Formals

/-- `azParam[i]` and `azDefault[i]`. -/
structure Param where
  name : Bytes
  default : Option Bytes
deriving DecidableEq

structure ProcDefn where
  params : List Param
  hasArgs : Bool
  zUsage : Bytes
  zProgram : TString
  pDefNs : Option NsId
deriving DecidableEq

/-- A call with its parameters bound: the names and values given to `Th8_SetVar`, in order. -/
structure Frame where
  vars : List (Bytes × TString)
  pCurrentNs : NsId
  zProgram : TString
deriving DecidableEq

/-! ## Definitions -/

def splitList (z : Bytes) : Except Failure (List Bytes) :=
  match eagleSplitList z with
  | .error (some zError) => .error (.static zError)
  | .error none => .error (.message "Expected list, got: \"" z)
  | .ok azElem =>
    if maxListElements < azElem.length then .error (.static "list too many elements")
    else .ok azElem

def argsName : Bytes := ascii "args"

/-- The parameters before a last one `args`, and whether there is one. -/
def takeArgs (azParam : List Bytes) : List Bytes × Bool :=
  if azParam.getLast? = some argsName then (azParam.dropLast, true) else (azParam, false)

def readParam (z : Bytes) : Except Failure Param := do
  match ← splitList z with
  | [name] => .ok ⟨name, none⟩
  | [name, default] => .ok ⟨name, some default⟩
  | _ => .error (.message "expected parameter, got \"" z)

def readParams : List Bytes → Except Failure (List Param)
  | [] => .ok []
  | z :: rest => do
    let p ← readParam z
    let params ← readParams rest
    .ok (p :: params)

def Param.usage (p : Param) : Bytes :=
  if p.default.isSome then ascii " ?" ++ p.name ++ ascii "?" else ascii " " ++ p.name

def usage (params : List Param) (hasArgs : Bool) : Bytes :=
  params.flatMap Param.usage ++ if hasArgs then ascii " ?args...?" else []

/-- `proc_command`, up to the registration. -/
def procDefn (pCurrentNs : NsId) (zArglist : Bytes) (code : TString) : Except Failure ProcDefn := do
  let (azParam, hasArgs) := takeArgs (← splitList zArglist)
  let params ← readParams azParam
  .ok ⟨params, hasArgs, usage params hasArgs, code, some pCurrentNs⟩

/-- `nproc_command`, up to the registration. -/
def nprocDefn (pCurrentNs : NsId) (zArglist : Bytes) (body : TString) :
    Except Failure ProcDefn := do
  let (azParam, hasArgs) := takeArgs (← splitList zArglist)
  let params ← readParams azParam
  .ok ⟨params, hasArgs, [], body, some pCurrentNs⟩

/-- The definition of `apply_command` for a lambda of two elements. -/
def applyDefn (zArglist : Bytes) (body : TString) : Except Failure ProcDefn := do
  let (azParam, hasArgs) := takeArgs (← splitList zArglist)
  .ok ⟨azParam.map (⟨·, none⟩), hasArgs, [], body, none⟩

/-! ## Calls -/

/-- The list that is bound to `args`. -/
def argsList (args : List TString) : TString :=
  (args.foldl (fun b a => Joining.appendElement Joining.appendGranted a b) ⟨.plain [], false⟩).list

/-- `Th8_SetVar` takes a default that is a null pointer for the empty string. -/
def paramValue (args : List TString) (i : ℕ) (p : Param) : TString :=
  (args[i]?).getD (.plain (p.default.getD []))

def bindParams (params : List Param) (hasArgs : Bool) (args : List TString) :
    List (Bytes × TString) :=
  params.mapIdx (fun i p => (p.name, paramValue args i p)) ++
    if hasArgs then [(argsName, argsList (args.drop params.length))] else []

/-- `proc_call_nr` on the words behind `argv[0]`. -/
def procCall (pCurrentNs : NsId) (p : ProcDefn) (zCmd : Bytes) (args : List TString) :
    Except Failure Frame :=
  if p.params.length < args.length ∧ p.hasArgs = false ∨
      args.length < p.params.length ∧ (p.params[args.length]?.bind Param.default) = none then
    .error (.message "wrong # args: should be \"" (cString (zCmd ++ p.zUsage)))
  else .ok ⟨bindParams p.params p.hasArgs args, p.pDefNs.getD pCurrentNs, p.zProgram⟩

/-- The name of the command in the errors of `nproc_call_nr`. -/
def simpleName (zCmd : Bytes) : Bytes :=
  let z := zCmd.dropWhile (· == chSpace)
  cString (if [chColon, chColon] <+: z then z.drop 2 else z)

/-- The pairs of `nproc_call_nr`, with the parameters that are not bound yet. -/
def bindPairs (zCmd : Bytes) :
    List Param → List TString → Except Failure (List (Bytes × TString) × List Param)
  | unbound, zArgName :: zValue :: rest =>
    if zArgName.bytes ∈ unbound.map Param.name then do
      let (vars, unbound) ← bindPairs zCmd (unbound.eraseP (·.name == zArgName.bytes)) rest
      .ok ((zArgName.bytes, zValue) :: vars, unbound)
    else
      .error (.message "procedure \""
        (simpleName zCmd ++ ascii "\" unsupported argument named \"" ++ zArgName.bytes))
  | unbound, _ => .ok ([], unbound)

def bindDefaults : List Param → Except Failure (List (Bytes × TString))
  | [] => .ok []
  | p :: rest =>
    match p.default with
    | some zDefault => do
      let vars ← bindDefaults rest
      .ok ((p.name, .plain zDefault) :: vars)
    | none => .error (.message "missing required argument \"" p.name)

/-- `nproc_call_nr` on the words behind `argv[0]`. -/
def nprocCall (pCurrentNs : NsId) (p : ProcDefn) (zCmd : Bytes) (args : List TString) :
    Except Failure Frame := do
  let (given, unbound) ← bindPairs zCmd p.params args
  let filled ← bindDefaults unbound
  .ok ⟨given ++ filled, pCurrentNs, p.zProgram⟩

/-! ## The arguments of a procedure -/

/-- Every parameter gets an argument or has a default, and no argument is left over. -/
def ProcDefn.Accepts (p : ProcDefn) (args : List TString) : Prop :=
  (∀ q ∈ p.params.drop args.length, q.default.isSome) ∧ (args.length ≤ p.params.length ∨ p.hasArgs)

/-- The parameters are bound once each and in order, to their arguments or defaults, and `args`
to the list of the arguments that are left. -/
structure ProcDefn.Binds (p : ProcDefn) (args : List TString) (vars : List (Bytes × TString)) :
    Prop where
  once : vars.map Prod.fst = p.params.map Param.name ++ if p.hasArgs then [argsName] else []
  value : ∀ (k : ℕ) (q : Param), p.params[k]? = some q → ∃ v, vars[k]? = some (q.name, v) ∧
    (args[k]? = some v ∨ args[k]? = none ∧ q.default.map .plain = some v)
  rest : p.hasArgs → ∃ v, vars[p.params.length]? = some (argsName, v) ∧
    v.bytes = joinElements ((args.drop p.params.length).map TString.bytes)

/-- If the first parameter without an argument has a default, all behind it have one. -/
def ProcDefn.FirstDefaultSpeaks (p : ProcDefn) (args : List TString) : Prop :=
  (p.params[args.length]?.bind Param.default).isSome →
    ∀ q ∈ p.params.drop args.length, q.default.isSome

/-- The test of `proc_call_nr`, which looks at one default. -/
def ProcDefn.Takes (p : ProcDefn) (args : List TString) : Prop :=
  (args.length < p.params.length → (p.params[args.length]?.bind Param.default).isSome) ∧
    (args.length ≤ p.params.length ∨ p.hasArgs)

variable {pCurrentNs : NsId} {p : ProcDefn} {zCmd : Bytes} {args : List TString} {f : Frame}

theorem argsList_bytes (args : List TString) :
    (argsList args).bytes = joinElements (args.map TString.bytes) := by
  have h := Joining.build_granted (c := ⟨args.map (·, Joining.appendGranted), .granted, .granted,
    true, true⟩) (by simp [Joining.ListCall.Granted, Joining.appendGranted])
  simp only [Joining.ListCall.build, Joining.ListCall.azElem, foldl_map, map_map] at h
  exact h

theorem procCall_eq_ok : procCall pCurrentNs p zCmd args = .ok f ↔
    p.Takes args ∧
      ⟨bindParams p.params p.hasArgs args, p.pDefNs.getD pCurrentNs, p.zProgram⟩ = f := by
  have htakes : ¬(p.params.length < args.length ∧ p.hasArgs = false ∨
      args.length < p.params.length ∧ (p.params[args.length]?.bind Param.default) = none) ↔
      p.Takes args := by
    rw [ProcDefn.Takes, Option.isSome_iff_ne_none, ← Bool.not_eq_false p.hasArgs]
    grind
  unfold procCall
  split_ifs with h
  · exact iff_of_false nofun fun hf => htakes.mpr hf.1 h
  · rw [Except.ok.injEq, and_iff_right (htakes.mp h)]

theorem binds_of_ok (hf : procCall pCurrentNs p zCmd args = .ok f) (h : p.Accepts args) :
    p.Binds args f.vars := by
  obtain ⟨-, rfl⟩ := procCall_eq_ok.mp hf
  refine ⟨?_, fun k q hq => ?_, fun hargs => ?_⟩
  · have hnames : (p.params.mapIdx fun i p => (p.name, paramValue args i p)).map Prod.fst =
        p.params.map Param.name := by
      apply ext_getElem <;> simp
    rw [bindParams, map_append, hnames]
    split <;> rfl
  · have hk : k < p.params.length := (List.getElem?_eq_some_iff.mp hq).1
    refine ⟨paramValue args k q, ?_, ?_⟩
    · rw [bindParams, getElem?_append_left (by simpa using hk)]
      simp [hq]
    · unfold paramValue
      cases harg : args[k]? with
      | some v => exact .inl rfl
      | none =>
        have hdrop : (p.params.drop args.length)[k - args.length]? = some q := by
          rw [getElem?_drop, Nat.add_sub_cancel' (getElem?_eq_none_iff.mp harg), hq]
        obtain ⟨d, hd⟩ := Option.isSome_iff_exists.mp (h.1 q (mem_of_getElem? hdrop))
        simp [hd]
  · refine ⟨argsList (args.drop p.params.length), ?_, ?_⟩
    · simp [bindParams, hargs]
    · rw [argsList_bytes]

/-- A call of the lambda `{formals body}`. -/
def applyCall (pCurrentNs : NsId) (zArglist : Bytes) (body : TString) (zLambda : Bytes)
    (args : List TString) : Except Failure Frame := do
  procCall pCurrentNs (← applyDefn zArglist body) zLambda args

/-- A call of a procedure just defined. -/
def definedCall (pCurrentNs : NsId) (zArglist : Bytes) (body : TString) (zName : Bytes)
    (args : List TString) : Except Failure Frame := do
  procCall pCurrentNs (← procDefn pCurrentNs zArglist body) zName args

/-- With too few arguments, the list is malformed or the first parameter without an argument
has no default; with too many there is no `args`; or each parameter is its own name. -/
def AppliesAlike (azParam : List Bytes) (hasArgs : Bool) (nArg : ℕ) : Prop :=
  if nArg < azParam.length then
    ∀ params, readParams azParam = .ok params → (params[nArg]?.bind Param.default) = none
  else
    azParam.length < nArg ∧ hasArgs = false ∨
      ∀ z ∈ azParam, ∃ default, readParam z = .ok ⟨z, default⟩

variable {azParam : List Bytes} {params : List Param}

theorem readParams_eq_ok :
    readParams azParam = .ok params ↔
      List.Forall₂ (fun z p => readParam z = .ok p) azParam params := by
  induction azParam generalizing params with
  | nil => cases params <;> simp [readParams]
  | cons z rest ih => cases params <;> simp [readParams, bind_eq_ok, ih]

theorem names_eq_iff (h : List.Forall₂ (fun z p => readParam z = .ok p) azParam params) :
    params.map Param.name = azParam ↔ ∀ z ∈ azParam, ∃ default, readParam z = .ok ⟨z, default⟩ := by
  induction h with
  | nil => simp
  | @cons z q rest params hz _ ih =>
    rw [map_cons, List.cons.injEq, forall_mem_cons, ih]
    refine and_congr_left fun _ => ⟨fun hname => ⟨q.default, hname ▸ hz⟩, ?_⟩
    rintro ⟨default, hdefault⟩
    rw [Except.ok.inj (hz.symm.trans hdefault)]

variable {hasArgs : Bool}

/-- With enough arguments no default is looked at. -/
theorem bindParams_eq (h : params.length ≤ args.length) :
    bindParams params hasArgs args = (params.map Param.name).zip args ++
      if hasArgs then [(argsName, argsList (args.drop params.length))] else [] := by
  rw [bindParams]
  congr 1
  apply ext_getElem
  · simp [h]
  · intro k hk _
    rw [length_mapIdx] at hk
    simp [paramValue, getElem?_eq_getElem (hk.trans_le h)]

theorem bindParams_eq_iff {params' : List Param} (hlength : params'.length = params.length)
    (h : params.length ≤ args.length) :
    bindParams params' hasArgs args = bindParams params hasArgs args ↔
      params'.map Param.name = params.map Param.name := by
  rw [bindParams_eq h, bindParams_eq (hlength ▸ h), hlength, append_left_inj]
  refine ⟨fun hzip => ?_, fun hnames => by rw [hnames]⟩
  have hfst := congrArg (List.map Prod.fst) hzip
  rwa [map_fst_zip (by simpa [hlength] using h), map_fst_zip (by simpa using h)] at hfst

theorem lambda_takes {body : TString} :
    (ProcDefn.mk (azParam.map (⟨·, none⟩)) hasArgs [] body none).Takes args ↔
      azParam.length ≤ args.length ∧ (args.length ≤ azParam.length ∨ hasArgs) := by
  rw [ProcDefn.Takes, length_map]
  refine and_congr_left fun _ => ⟨fun h => ?_, fun h hlt => absurd hlt (Nat.not_lt.mpr h)⟩
  by_contra hlt
  simpa [Nat.lt_of_not_le hlt] using h (Nat.lt_of_not_le hlt)

theorem readParams_of_forall (h : ∀ z ∈ azParam, ∃ p, readParam z = .ok p) :
    ∃ params, readParams azParam = .ok params := by
  induction azParam with
  | nil => exact ⟨[], rfl⟩
  | cons z rest ih =>
    obtain ⟨⟨p, hp⟩, hrest⟩ := forall_mem_cons.mp h
    obtain ⟨params, hparams⟩ := ih hrest
    exact ⟨p :: params, by simp [readParams, hp, hparams]⟩

theorem toOption_eq_iff {x y : Except Failure Frame} :
    x.toOption = y.toOption ↔ ∀ f, x = .ok f ↔ y = .ok f := by
  rcases x with e | f <;> rcases y with e' | f' <;> simp [Except.toOption]

/-- A lambda is called like a procedure with its parameters and its body exactly if no default
is asked for, and no parameter that is written like a list or with a default is bound. -/
theorem applyCall_eq_iff (pCurrentNs : NsId) (zArglist : Bytes) (body : TString)
    (zLambda zName : Bytes) (args : List TString) :
    (applyCall pCurrentNs zArglist body zLambda args).toOption =
        (definedCall pCurrentNs zArglist body zName args).toOption ↔
      ∀ azParam, splitList zArglist = .ok azParam →
        AppliesAlike (takeArgs azParam).1 (takeArgs azParam).2 args.length := by
  unfold applyCall definedCall applyDefn procDefn
  rcases splitList zArglist with e | azElem
  · simp
  generalize htake : takeArgs azElem = r
  obtain ⟨azParam, hasArgs⟩ := r
  simp only [toOption_eq_iff, ok_bind, Except.ok.injEq, forall_eq', htake, bind_eq_ok,
    procCall_eq_ok, lambda_takes]
  unfold AppliesAlike
  split_ifs with hlt
  · constructor
    · intro h params hparams
      have hlength := (readParams_eq_ok.mp hparams).length_eq
      by_contra hne
      have htakes := (h _).mpr ⟨_, ⟨params, hparams, rfl⟩,
        ⟨fun _ => Option.isSome_iff_ne_none.mpr hne, .inl (hlength ▸ hlt.le)⟩, rfl⟩
      exact Nat.not_lt.mpr htakes.1.1 hlt
    · intro h f
      refine iff_of_false (fun hf => Nat.not_lt.mpr hf.1.1 hlt) ?_
      rintro ⟨_, ⟨params, hparams, rfl⟩, htakes, -⟩
      have hdefault := htakes.1 ((readParams_eq_ok.mp hparams).length_eq ▸ hlt)
      rw [h params hparams] at hdefault
      cases hdefault
  · by_cases hover : azParam.length < args.length ∧ hasArgs = false
    · obtain ⟨hmany, rfl⟩ := hover
      refine iff_of_true (fun f => iff_of_false (fun hf => ?_) ?_) (.inl ⟨hmany, rfl⟩)
      · exact hf.1.2.elim (Nat.not_le.mpr hmany) nofun
      · rintro ⟨_, ⟨params, hparams, rfl⟩, htakes, -⟩
        rw [(readParams_eq_ok.mp hparams).length_eq] at hmany
        exact htakes.2.elim (Nat.not_le.mpr hmany) nofun
    rw [or_iff_right hover]
    have htakes : azParam.length ≤ args.length ∧ (args.length ≤ azParam.length ∨ hasArgs) := by
      grind
    have hvars {params : List Param} (hparams : readParams azParam = .ok params) :
        bindParams params hasArgs args = bindParams (azParam.map (⟨·, none⟩)) hasArgs args ↔
          ∀ z ∈ azParam, ∃ default, readParam z = .ok ⟨z, default⟩ := by
      have hread := readParams_eq_ok.mp hparams
      rw [bindParams_eq_iff (by simp [hread.length_eq]) (by simpa using htakes.1),
        ← names_eq_iff hread]
      simp [Function.comp_def]
    constructor
    · intro h
      obtain ⟨_, ⟨params, hparams, rfl⟩, -, hframe⟩ := (h _).mp ⟨htakes, rfl⟩
      exact (hvars hparams).mp (congrArg Frame.vars hframe)
    · intro hnames f
      obtain ⟨params, hparams⟩ := readParams_of_forall fun z hz =>
        (hnames z hz).elim fun default hz => ⟨⟨z, default⟩, hz⟩
      have hlength := (readParams_eq_ok.mp hparams).length_eq
      have htakes' : (ProcDefn.mk params hasArgs (usage params hasArgs) body
          (some pCurrentNs)).Takes args :=
        ⟨fun hshort => absurd hshort (hlength ▸ hlt), hlength ▸ htakes.2⟩
      simp only [hparams, Except.ok.injEq, exists_eq_left', htakes, htakes',
        ← (hvars hparams).mpr hnames, true_and, Option.getD_none, Option.getD_some]

/-- `apply {{{a 1}} {}}` without arguments is an error; as a procedure it is not. -/
theorem applyCall_refuses_default :
    (applyCall globalNs (ascii "{a 1}") (.plain []) (ascii "{{a 1}} {}") []).toOption = none ∧
      (definedCall globalNs (ascii "{a 1}") (.plain []) (ascii "f") []).toOption =
        some ⟨[(ascii "a", .plain (ascii "1"))], globalNs, .plain []⟩ :=
  ⟨rfl, rfl⟩

/-! ## Named arguments -/

/-- Each argument is part of a pair that gives a parameter its value, or is collected in
`args`; no parameter stays without a value; and the body runs in the defining namespace. -/
structure ProcDefn.BindsNamed (p : ProcDefn) (pCurrentNs : NsId) (args : List TString)
    (f : Frame) : Prop where
  args : ∃ given rest, given <+: f.vars ∧
    args.map TString.bytes = given.flatMap (fun v => [v.1, v.2.bytes]) ++ rest ∧
      (rest ≠ [] → p.hasArgs ∧ ∃ v ∈ f.vars, v.1 = argsName ∧ v.2.bytes = joinElements rest)
  params : (f.vars.map Prod.fst).Perm
    (p.params.map Param.name ++ if p.hasArgs then [argsName] else [])
  ns : f.pCurrentNs = p.pDefNs.getD pCurrentNs

/-- The pairs of a call; a last argument without a value is in none. -/
def argPairs : List TString → List (Bytes × TString)
  | zArgName :: zValue :: rest => (zArgName.bytes, zValue) :: argPairs rest
  | _ => []

/-- The parameters that are left when each name takes the first one of its name. -/
def unnamed (params : List Param) (names : List Bytes) : List Param :=
  names.foldl (fun params name => params.eraseP (·.name == name)) params

/-- The names in the pairs are those of parameters, each of another one, and the others have
defaults. -/
def ProcDefn.Named (p : ProcDefn) (args : List TString) : Prop :=
  ((argPairs args).map Prod.fst).Subperm (p.params.map Param.name) ∧
    ∀ q ∈ unnamed p.params ((argPairs args).map Prod.fst), q.default.isSome

theorem map_eraseP_name (params : List Param) (name : Bytes) :
    (params.eraseP (·.name == name)).map Param.name = (params.map Param.name).erase name := by
  rw [erase_eq_eraseP, eraseP_map]
  congr 2
  funext q
  exact Bool.beq_comm

theorem cons_subperm_iff {name : Bytes} {names all : List Bytes} :
    (name :: names).Subperm all ↔ name ∈ all ∧ names.Subperm (all.erase name) := by
  constructor
  · intro h
    have hmem : name ∈ all := h.subset mem_cons_self
    exact ⟨hmem, (subperm_cons name).mp (h.trans (perm_cons_erase hmem).subperm)⟩
  · rintro ⟨hmem, h⟩
    exact ((subperm_cons name).mpr h).trans (perm_cons_erase hmem).symm.subperm

theorem bindPairs_eq_ok {r : List (Bytes × TString) × List Param} :
    bindPairs zCmd params args = .ok r ↔
      ((argPairs args).map Prod.fst).Subperm (params.map Param.name) ∧
        (argPairs args, unnamed params ((argPairs args).map Prod.fst)) = r := by
  induction args using argPairs.induct generalizing params r with
  | case1 zArgName zValue rest ih =>
    rw [bindPairs, argPairs, map_cons, cons_subperm_iff, ← map_eraseP_name]
    split_ifs with hname
    · simp [bind_eq_ok, ih, hname, unnamed]
    · simp [hname]
  | case2 args hargs =>
    rw [bindPairs.eq_def, argPairs.eq_def]
    split
    · exact absurd rfl (hargs _ _ _)
    · simp [unnamed]

theorem bindDefaults_eq_ok {vars : List (Bytes × TString)} :
    bindDefaults params = .ok vars ↔ (∀ q ∈ params, q.default.isSome) ∧
      params.map (fun q => (q.name, .plain (q.default.getD []))) = vars := by
  induction params generalizing vars with
  | nil => simp [bindDefaults]
  | cons q rest ih =>
    rw [bindDefaults]
    cases hq : q.default with
    | none => simp [hq]
    | some zDefault => simp [bind_eq_ok, ih, hq, and_assoc]

theorem unnamed_perm {names : List Bytes} (h : names.Subperm (params.map Param.name)) :
    (names ++ (unnamed params names).map Param.name).Perm (params.map Param.name) := by
  induction names generalizing params with
  | nil => exact .refl _
  | cons name names ih =>
    obtain ⟨hmem, hrest⟩ := cons_subperm_iff.mp h
    rw [← map_eraseP_name] at hrest
    refine ((ih hrest).cons name).trans ?_
    rw [map_eraseP_name]
    exact (perm_cons_erase hmem).symm

theorem argPairs_bytes (h : 2 ∣ args.length) :
    (argPairs args).flatMap (fun v => [v.1, v.2.bytes]) = args.map TString.bytes := by
  induction args using argPairs.induct with
  | case1 zArgName zValue rest ih =>
    simp only [length_cons] at h
    simp [argPairs, ih (by omega)]
  | case2 args hargs =>
    match args with
    | [] => rfl
    | [a] => simp at h
    | a :: b :: rest => exact absurd rfl (hargs a b rest)

theorem nprocCall_eq_ok : nprocCall pCurrentNs p zCmd args = .ok f ↔
    p.Named args ∧ ⟨argPairs args ++ (unnamed p.params ((argPairs args).map Prod.fst)).map
      (fun q => (q.name, .plain (q.default.getD []))), pCurrentNs, p.zProgram⟩ = f := by
  simp [nprocCall, bind_eq_ok, bindPairs_eq_ok, bindDefaults_eq_ok, ProcDefn.Named, and_assoc]

/-- The arguments of `f a 1 b`. -/
def oddArgs : List TString := [.plain (ascii "a"), .plain (ascii "1"), .plain (ascii "b")]

end Formals

end Th8
