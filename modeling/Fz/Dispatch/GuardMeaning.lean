import Fz.Dispatch.Journal

/-!
# What a guard means

A guard is an expression, lowered and evaluated by operators of its own.  `evalExpr` evaluates the
expression the guard was lowered from with the operators of expressions, over an environment that
gives each name its value.  Under the reading of a guard, `and` and `or` answer booleans and leave
the right operand alone when the left decides.

A guard that has a value has the value of its expression.  The other way round an expression may
have a value where its guard has none: a guard computes with integers only (`IntegerArith` keeps
floats out of its arithmetic).  An error an operator reports is no match.
-/

namespace Fz.Dispatch

open Fz.Base Fz.Terms

variable {TH C D : Type}

/-! ## Expressions -/

/-- Why an expression has no value: what it reads has none, or an operator gives none. -/
inductive Raised where
  | stop (why : DispatchStop)
  | fault (why : Fault)

/-- What a guard makes of it. -/
def Raised.asStop : Raised → DispatchStop
  | .stop why => why
  | .fault why => .ofFault why

/-- How `and` and `or` are read: as `eval_binop` has them, or as a guard has them. -/
inductive Reading where
  | expression
  | guard
deriving DecidableEq, Repr

/-- The values of names, and what helpers answer. -/
structure GuardEnv (C : Type) where
  var : String → Value
  call : C → List Value → Except DispatchStop Value

/-- Whether a left operand decides alone. -/
def decides : PatternGuardBinOp → Value → Bool
  | .and, l => !l.isTruthy
  | .or, l => l.isTruthy
  | _, _ => false

def isLogical : PatternGuardBinOp → Bool
  | .and | .or => true
  | _ => false

section Expressions

variable (rt : Runtime TH) (env : GuardEnv C) (reading : Reading)

mutual
/-- Evaluate an expression with `eval_binop` and `eval_unop`. -/
def evalExpr : Expr C → Except Raised Value
  | .literal value => (required (rt.dispatchConstToValue value.ground)).mapError .stop
  | .var name => .ok (env.var name)
  | .ascribe inner => evalExpr inner
  | .unOp op arg => do
    let v ← evalExpr arg
    (rt.evalUnOp op.guardOp v).mapError .fault
  | .binOp op lhs rhs =>
    match op.guardOp? with
    | none => .error (.stop .noMatch)
    | some op => do
      let l ← evalExpr lhs
      if reading = .guard ∧ decides op l then
        return .ofBool l.isTruthy
      else
        let r ← evalExpr rhs
        let v ← (rt.evalBinOp op l r).mapError .fault
        return if reading = .guard ∧ isLogical op then .ofBool v.isTruthy else v
  | .call callee args => do
    let values ← evalExprs args
    (env.call callee values).mapError .stop
  | .other => .error (.stop .noMatch)

def evalExprs : List (Expr C) → Except Raised (List Value)
  | [] => .ok []
  | arg :: args => do
    let v ← evalExpr arg
    let vs ← evalExprs args
    return v :: vs
end

/-- Two numbers, not both integers. -/
def FloatPair (l r : Value) : Prop :=
  (l.asI64 = none ∨ r.asI64 = none) ∧ l.asFloat.isSome ∧ r.asFloat.isSome

def isArithmetic : PatternGuardBinOp → Bool
  | .add | .sub | .mul | .div | .rem => true
  | _ => false

mutual
/-- No arithmetic that is evaluated is given a float. -/
def IntegerArith : Expr C → Prop
  | .literal _ | .var _ | .other => True
  | .ascribe inner => IntegerArith inner
  | .unOp _ arg => IntegerArith arg
  | .binOp op lhs rhs =>
    IntegerArith lhs ∧ ∀ op' l, op.guardOp? = some op' → evalExpr rt env .guard lhs = .ok l →
      decides op' l = false → IntegerArith rhs ∧
        ∀ r, evalExpr rt env .guard rhs = .ok r → isArithmetic op' → ¬FloatPair l r
  | .call _ args => EachIntegerArith args

def EachIntegerArith : List (Expr C) → Prop
  | [] => True
  | arg :: args => IntegerArith arg ∧ EachIntegerArith args
end

end Expressions

/-! ## Operators -/

/-- How a guard ends when its expression ends in `x`.  Where floats came into its arithmetic it may
miss. -/
inductive Follows {α : Type} (integers : Prop) :
    Except Raised α → Except DispatchStop α → Prop where
  | value (a : α) : Follows integers (.ok a) (.ok a)
  | raised (r : Raised) : Follows integers (.error r) (.error r.asStop)
  | missed {x : Except Raised α} : ¬integers → Follows integers x (.error .noMatch)

theorem Follows.mono {α : Type} {p q : Prop} {x : Except Raised α} {g : Except DispatchStop α}
    (h : Follows p x g) (hqp : q → p) : Follows q x g := by
  cases h with
  | value a => exact .value a
  | raised r => exact .raised r
  | missed hp => exact .missed fun hq => hp (hqp hq)

theorem Follows.reads {α : Type} (p : Prop) (x : Except DispatchStop α) :
    Follows p (x.mapError .stop) x := by
  cases x with
  | ok a => exact .value a
  | error why => exact .raised (.stop why)

theorem Follows.requiredOk {α : Type} (p : Prop) (x : Except Fault α) :
    Follows p (x.mapError .fault) (requiredOk x) := by
  cases x with
  | ok a => exact .value a
  | error why => exact .raised (.fault why)

theorem Follows.map {α β : Type} {p : Prop} {x : Except Raised α} {g : Except DispatchStop α}
    (f : α → β) (h : Follows p x g) : Follows p (f <$> x) (f <$> g) := by
  cases h with
  | value a => exact .value (f a)
  | raised r => exact .raised r
  | missed hp => exact .missed hp

theorem mapError_map {α β ε ε' : Type} (f : α → β) (g : ε → ε') (x : Except ε α) :
    (f <$> x).mapError g = f <$> x.mapError g := by
  cases x <;> rfl

section Operators

variable (o : Operators)

theorem guardUnOp_follows (p : Prop) (op : PatternGuardUnaryOp) (v : Value) :
    Follows p ((o.evalUnOp op v).mapError .fault) (o.guardUnOp op v) := by
  cases op with
  | not => exact .value _
  | neg => exact .requiredOk p _

theorem evalBinOp_ints {op : PatternGuardBinOp} (hop : isArithmetic op) {l r : Value}
    {x y : Int64} (hl : l.asI64 = some x) (hr : r.asI64 = some y) :
    o.evalBinOp op l r = .int <$> o.intOp op x y := by
  cases op <;> first | (cases hop; done) | simp only [Operators.evalBinOp, hl, hr]

theorem evalBinOp_none {op : PatternGuardBinOp} (hop : isArithmetic op) {l r : Value}
    (h : l.asI64 = none ∨ r.asI64 = none) (hf : l.asFloat = none ∨ r.asFloat = none) :
    o.evalBinOp op l r = .error .error := by
  cases op <;> first
    | (cases hop; done)
    | rcases h with h | h <;> rcases hf with hf | hf <;> simp [Operators.evalBinOp, h, hf]

theorem guardIntOp_follows (op : PatternGuardBinOp) (hop : isArithmetic op) (l r : Value) :
    Follows (¬FloatPair l r) ((o.evalBinOp op l r).mapError .fault) (o.guardIntOp op l r) := by
  rw [Operators.guardIntOp]
  cases hl : l.asI64 with
  | some x =>
    cases hr : r.asI64 with
    | some y =>
      rw [evalBinOp_ints o hop hl hr]
      simp only [mapError_map]
      exact (Follows.requiredOk _ _).map _
    | none =>
      simp only
      cases hx : l.asFloat with
      | none =>
        rw [evalBinOp_none o hop (.inr hr) (.inl hx)]
        exact .raised (.fault .error)
      | some a =>
        cases hy : r.asFloat with
        | none =>
          rw [evalBinOp_none o hop (.inr hr) (.inr hy)]
          exact .raised (.fault .error)
        | some b => exact .missed fun h => h ⟨.inr hr, by rw [hx]; rfl, by rw [hy]; rfl⟩
  | none =>
    simp only
    cases hx : l.asFloat with
    | none =>
      rw [evalBinOp_none o hop (.inl hl) (.inl hx)]
      exact .raised (.fault .error)
    | some a =>
      cases hy : r.asFloat with
      | none =>
        rw [evalBinOp_none o hop (.inl hl) (.inr hy)]
        exact .raised (.fault .error)
      | some b => exact .missed fun h => h ⟨.inl hl, by rw [hx]; rfl, by rw [hy]; rfl⟩

/-- An operator of a guard, on a left operand that does not decide. -/
theorem guardBinOp_follows {op : PatternGuardBinOp} {l : Value} (hdecides : decides op l = false)
    (r : Value) :
    Follows (isArithmetic op → ¬FloatPair l r)
      (do
        let v ← (o.evalBinOp op l r).mapError Raised.fault
        return if isLogical op then .ofBool v.isTruthy else v)
      (o.guardBinOp op l r) := by
  have hplain : isLogical op = false →
      (do
        let v ← (o.evalBinOp op l r).mapError Raised.fault
        return if isLogical op then .ofBool v.isTruthy else v) =
      (o.evalBinOp op l r).mapError Raised.fault := by
    intro h
    rw [h]
    cases (o.evalBinOp op l r).mapError Raised.fault <;> rfl
  have hint : ∀ op, isArithmetic op = true →
      Follows (isArithmetic op → ¬FloatPair l r) ((o.evalBinOp op l r).mapError .fault)
        (o.guardIntOp op l r) :=
    fun op hop => (guardIntOp_follows o op hop l r).mono fun h => h hop
  -- Comparisons are the same function in both.
  have hcompare : ∀ {α : Type} (f : α → Value) (x : Except Fault α) (p : Prop),
      Follows p ((f <$> x).mapError .fault) (f <$> requiredOk x) := by
    intro α f x p
    rw [mapError_map]
    exact (Follows.requiredOk p x).map f
  cases op with
  | add => rw [hplain rfl]; exact hint .add rfl
  | sub => rw [hplain rfl]; exact hint .sub rfl
  | mul => rw [hplain rfl]; exact hint .mul rfl
  | div => rw [hplain rfl]; exact hint .div rfl
  | rem => rw [hplain rfl]; exact hint .rem rfl
  | eq => rw [hplain rfl]; exact hcompare _ _ _
  | neq => rw [hplain rfl]; exact hcompare _ _ _
  | lt => rw [hplain rfl]; exact hcompare _ _ _
  | ltEq => rw [hplain rfl]; exact hcompare _ _ _
  | gt => rw [hplain rfl]; exact hcompare _ _ _
  | gtEq => rw [hplain rfl]; exact hcompare _ _ _
  | and =>
    have htruthy : l.isTruthy = true := by simpa [decides] using hdecides
    rw [Operators.evalBinOp, htruthy]
    exact .value _
  | or =>
    have hfalsy : l.isTruthy = false := hdecides
    rw [Operators.evalBinOp, hfalsy]
    exact .value _

end Operators

/-! ## Environments -/

/-- The state denotes a value at a subject, in whatever form it holds it. -/
def DenotesWord (st : DispatchExecState) (s : SubjectId) (v : Value) : Prop :=
  ∃ b, st.get s = some b ∧ b.word = .ok v

/-- Keys the run carries, each with the value it stands for. -/
def PreparedFor (rt : Runtime TH) (ops : DispatchOperands) (keys : List GroundValue) : Prop :=
  ∀ (id : Nat) (key : GroundValue), keys[id]? = some key →
    ops.prepared[id]?.join = rt.dispatchConstToValue key

/-- What the executor reads for a guard's names and calls is what the environment says. -/
structure Environment (rt : Runtime TH) (runHelper : RunHelper D)
    (resolver : PatternResolver TH C D) (bindings : List (String × SubjectId))
    (pinned : List PatternPinnedInput) (ops : DispatchOperands) (env : GuardEnv C) : Prop where
  pins : ∀ name pin, bindings.lookup name = none → pinnedByName pinned name = some pin →
    ops.pinned[pin]? = some (env.var name)
  calls : ∀ callee dispatch values, resolver.guardCall callee values.length = .ok (some dispatch) →
    env.call callee values =
      runHelper dispatch ((resolver.preparedKeys dispatch).map rt.dispatchConstToValue) values

/-- The slots of a guard's names denote their values. -/
def NamesHeld (bindings : List (String × SubjectId)) (env : GuardEnv C)
    (st : DispatchExecState) : Prop :=
  ∀ name s, bindings.lookup name = some s → DenotesWord st s (env.var name)

theorem PreparedFor.mono {rt : Runtime TH} {ops : DispatchOperands} {keys keys' : List GroundValue}
    (h : PreparedFor rt ops keys') (hp : keys <+: keys') : PreparedFor rt ops keys :=
  fun id key hkey => h id key (getElem?_grow hp hkey)

theorem subjectWord_denotes {rt : Runtime TH} {plan : PatternDispatchPlan TH D}
    {ops : DispatchOperands} {st : DispatchExecState} {s : SubjectId} {v : Value}
    (h : DenotesWord st s v) : ∃ st', Exec.subjectWord rt plan ops s st = (.ok v, st') ∧
      ∀ t w, DenotesWord st t w → DenotesWord st' t w := by
  obtain ⟨b, hb, hv⟩ := h
  have hset : ∀ t w, DenotesWord st t w → DenotesWord (st.set s (.runtime v)) t w := by
    rintro t w ⟨c, hc, hw⟩
    by_cases ht : t = s
    · subst ht
      cases hb.symm.trans hc
      cases hv.symm.trans hw
      exact ⟨.runtime v, DispatchExecState.get_set_self (DispatchExecState.lt_of_get hb), rfl⟩
    · exact ⟨c, (DispatchExecState.get_set_ne ht).trans hc, hw⟩
  rw [subjectWord_run hb, heldWord_run hb]
  cases b with
  | runtime u =>
    cases hv
    exact ⟨st, rfl, fun _ _ ht => ht⟩
  | absent => cases hv
  | tuple lanes =>
    simp only [hv]
    exact ⟨_, rfl, hset⟩
  | callable word =>
    simp only [hv]
    exact ⟨_, rfl, hset⟩

/-! ## Prepared keys -/

theorem internPreparedKey_spec {keys keys' : List GroundValue} {key : GroundValue} {id : Nat}
    (h : internPreparedKey keys key = (id, keys')) : keys <+: keys' ∧ keys'[id]? = some key := by
  unfold internPreparedKey at h
  split at h
  next index hindex =>
    cases h
    obtain ⟨hlt, hkey, _⟩ := List.findIdx?_eq_some_iff_getElem.mp hindex
    refine ⟨List.prefix_rfl, ?_⟩
    rw [List.getElem?_eq_getElem hlt]
    exact congrArg some (by simpa using hkey)
  next =>
    cases h
    exact ⟨List.prefix_append _ _, getElem?_append_length _ _⟩

theorem internKeys_spec {rt : Runtime TH} {ops : DispatchOperands} {list : List GroundValue} :
    ∀ {keys keys' : List GroundValue} {ids : List PreparedKeyId},
      (list.mapM fun key keys => .ok (internPreparedKey keys key) :
        GuardM (List PreparedKeyId)) keys = .ok (ids, keys') →
      keys <+: keys' ∧ (PreparedFor rt ops keys' →
        ids.map (fun id => ops.prepared[id]?.join) = list.map rt.dispatchConstToValue) := by
  induction list with
  | nil =>
    intro keys keys' ids h
    cases StateT.pure_eq_ok.mp h
    exact ⟨List.prefix_rfl, fun _ => rfl⟩
  | cons key list ih =>
    intro keys keys' ids h
    rw [List.mapM_cons] at h
    obtain ⟨id, keys₁, hid, h⟩ := StateT.bind_eq_ok.mp h
    obtain ⟨ids', keys₂, hids, h⟩ := StateT.bind_eq_ok.mp h
    cases StateT.pure_eq_ok.mp h
    obtain ⟨hp, hkey⟩ := internPreparedKey_spec (Except.ok.inj hid)
    obtain ⟨hp', hrest⟩ := ih hids
    refine ⟨hp.trans hp', fun hprepared => ?_⟩
    rw [List.map_cons, List.map_cons, hrest hprepared, hprepared id key (getElem?_grow hp' hkey)]

/-! ## Guards -/

section Guards

variable {rt : Runtime TH} {runHelper : RunHelper D} {resolver : PatternResolver TH C D}
  {bindings : List (String × SubjectId)} {pinned : List PatternPinnedInput}
  {plan : PatternDispatchPlan TH D} {ops : DispatchOperands} {env : GuardEnv C}

variable (bindings env) in
/-- A run of a guard follows its expression, and its names are still held. -/
structure RunFollows {α : Type} (integers : Prop) (x : Except Raised α)
    (r : Except DispatchStop α × DispatchExecState) : Prop where
  held : NamesHeld bindings env r.2
  follows : Follows integers x r.1

theorem RunFollows.bind {α β : Type} {p q : Prop} {m : ExecM α} {f : α → ExecM β}
    {x : Except Raised α} {k : α → Except Raised β} {st : DispatchExecState}
    (h : RunFollows bindings env p x (m st)) (hqp : q → p)
    (hnext : ∀ v st', x = .ok v → NamesHeld bindings env st' →
      RunFollows bindings env q (k v) (f v st')) :
    RunFollows bindings env q (x >>= k) ((m >>= f) st) := by
  obtain ⟨hheld, hfollows⟩ := h
  rw [ExecM.run_bind]
  rcases hm : m st with ⟨g, st'⟩
  rw [hm] at hheld hfollows
  cases hfollows with
  | value v => exact hnext v st' rfl hheld
  | raised r => exact ⟨hheld, .raised r⟩
  | missed hp => exact ⟨hheld, .missed fun hq => hp (hqp hq)⟩

theorem shortCircuit_eq (op : PatternGuardBinOp) (l : Value) :
    Operators.shortCircuit op l = if decides op l then some (.ofBool l.isTruthy) else none := by
  cases op with
  | and => cases hl : l.isTruthy <;> simp [Operators.shortCircuit, decides, hl]
  | or => cases hl : l.isTruthy <;> simp [Operators.shortCircuit, decides, hl]
  | _ => rfl

theorem length_evalExprs {reading : Reading} {asts : List (Expr C)} :
    ∀ {values : List Value}, evalExprs rt env reading asts = .ok values →
      asts.length = values.length := by
  induction asts with
  | nil =>
    intro values h
    rw [evalExprs] at h
    cases h
    rfl
  | cons ast asts ih =>
    intro values h
    rw [evalExprs] at h
    obtain ⟨v, _, h⟩ := Except.bind_eq_ok.mp h
    obtain ⟨vs, hvs, h⟩ := Except.bind_eq_ok.mp h
    cases h
    rw [List.length_cons, List.length_cons, ih hvs]

mutual
/-- A lowered guard follows the expression it was lowered from. -/
theorem evalGuard_follows
    (henv : Environment rt runHelper resolver bindings pinned ops env) (ast : Expr C)
    {keys keys' : List GroundValue} {e : PatternGuardExpr D}
    (h : guardExprFromAst resolver bindings pinned ast keys = .ok (e, keys')) :
    keys <+: keys' ∧ (PreparedFor rt ops keys' → ∀ st, NamesHeld bindings env st →
      RunFollows bindings env (IntegerArith rt env ast) (evalExpr rt env .guard ast)
        (Exec.evalGuard rt runHelper plan ops e st)) := by
  cases ast with
  | literal value =>
    rw [guardExprFromAst] at h
    cases StateT.pure_eq_ok.mp h
    refine ⟨List.prefix_rfl, fun _ st hst => ?_⟩
    rw [evalExpr, Exec.evalGuard]
    exact ⟨hst, .reads _ _⟩
  | var name =>
    rw [guardExprFromAst] at h
    cases hl : bindings.lookup name with
    | some s =>
      simp only [hl] at h
      cases StateT.pure_eq_ok.mp h
      refine ⟨List.prefix_rfl, fun _ st hst => ?_⟩
      rw [evalExpr, Exec.evalGuard]
      obtain ⟨st', hrun, hkeep⟩ := subjectWord_denotes (hst name s hl)
      rw [hrun]
      exact ⟨fun name' s' hl' => hkeep s' _ (hst name' s' hl'), .value _⟩
    | none =>
      simp only [hl] at h
      cases hpin : pinnedByName pinned name with
      | none =>
        simp only [hpin] at h
        cases h
      | some pin =>
        simp only [hpin] at h
        cases StateT.pure_eq_ok.mp h
        refine ⟨List.prefix_rfl, fun _ st hst => ?_⟩
        rw [evalExpr, Exec.evalGuard, henv.pins name pin hl hpin]
        exact ⟨hst, .value _⟩
  | ascribe inner =>
    rw [guardExprFromAst] at h
    rw [IntegerArith, evalExpr]
    exact evalGuard_follows henv inner h
  | unOp op arg =>
    rw [guardExprFromAst] at h
    obtain ⟨arg', keys₁, harg, h⟩ := StateT.bind_eq_ok.mp h
    cases StateT.pure_eq_ok.mp h
    obtain ⟨hp, hfollows⟩ := evalGuard_follows henv arg harg
    refine ⟨hp, fun hprepared st hst => ?_⟩
    rw [IntegerArith, evalExpr, Exec.evalGuard]
    exact (hfollows hprepared st hst).bind id fun v st' _ hst' =>
      ⟨hst', guardUnOp_follows rt.toOperators _ op.guardOp v⟩
  | binOp op lhs rhs =>
    rw [guardExprFromAst] at h
    cases hop : op.guardOp? with
    | none =>
      simp only [hop] at h
      cases h
    | some op' =>
      simp only [hop] at h
      obtain ⟨lhs', keys₁, hlhs, h⟩ := StateT.bind_eq_ok.mp h
      obtain ⟨rhs', keys₂, hrhs, h⟩ := StateT.bind_eq_ok.mp h
      cases StateT.pure_eq_ok.mp h
      obtain ⟨hp, hleft⟩ := evalGuard_follows henv lhs hlhs
      obtain ⟨hp', hright⟩ := evalGuard_follows henv rhs hrhs
      refine ⟨hp.trans hp', fun hprepared st hst => ?_⟩
      rw [IntegerArith, evalExpr, Exec.evalGuard, hop]
      refine (hleft (hprepared.mono hp') st hst).bind (fun hq => hq.1) ?_
      intro l st' hl hst'
      rw [shortCircuit_eq]
      by_cases hdecides : decides op' l = true
      · simp only [hdecides, and_self, if_true]
        exact ⟨hst', .value _⟩
      · have hdecides : decides op' l = false := by simpa using hdecides
        simp only [hdecides, Bool.false_eq_true, and_false, if_false, true_and]
        refine (hright hprepared st' hst').bind (fun hq => (hq.2 op' l rfl hl hdecides).1) ?_
        intro r st'' hr hst''
        exact ⟨hst'', (guardBinOp_follows rt.toOperators hdecides r).mono
          fun hq => (hq.2 op' l rfl hl hdecides).2 r hr⟩
  | call callee args =>
    rw [guardExprFromAst] at h
    obtain ⟨inputs, keys₁, hinputs, h⟩ := StateT.bind_eq_ok.mp h
    obtain ⟨dispatch, keys₂, hcall, h⟩ := StateT.bind_eq_ok.mp h
    cases dispatch with
    | none => cases h
    | some dispatch =>
      obtain ⟨prepared, keys₃, hprep, h⟩ := StateT.bind_eq_ok.mp h
      cases StateT.pure_eq_ok.mp h
      obtain ⟨hresolved, rfl⟩ : resolver.guardCall callee args.length = .ok (some dispatch) ∧
          keys₁ = keys₂ := by
        obtain ⟨found, hfound, hpair⟩ := Except.bind_eq_ok.mp hcall
        cases hpair
        exact ⟨hfound, rfl⟩
      obtain ⟨hp, hargs⟩ := evalGuards_follows henv args hinputs
      obtain ⟨hp', hvalues⟩ : keys₁ <+: keys' ∧ (PreparedFor rt ops keys' →
          prepared.map (fun id => ops.prepared[id]?.join) =
            (resolver.preparedKeys dispatch).map rt.dispatchConstToValue) := internKeys_spec hprep
      refine ⟨hp.trans hp', fun hprepared st hst => ?_⟩
      rw [IntegerArith, evalExpr, Exec.evalGuard]
      refine (hargs (hprepared.mono hp') st hst).bind id ?_
      intro values st' hvs hst'
      have hlen := length_evalExprs hvs
      rw [hvalues hprepared, ← henv.calls callee dispatch values (hlen ▸ hresolved)]
      exact ⟨hst', .reads _ _⟩
  | other =>
    rw [guardExprFromAst] at h
    cases h

theorem evalGuards_follows
    (henv : Environment rt runHelper resolver bindings pinned ops env) (asts : List (Expr C))
    {keys keys' : List GroundValue} {es : List (PatternGuardExpr D)}
    (h : guardExprsFromAst resolver bindings pinned asts keys = .ok (es, keys')) :
    keys <+: keys' ∧ (PreparedFor rt ops keys' → ∀ st, NamesHeld bindings env st →
      RunFollows bindings env (EachIntegerArith rt env asts) (evalExprs rt env .guard asts)
        (Exec.evalGuards rt runHelper plan ops es st)) := by
  cases asts with
  | nil =>
    rw [guardExprsFromAst] at h
    cases StateT.pure_eq_ok.mp h
    refine ⟨List.prefix_rfl, fun _ st hst => ?_⟩
    rw [evalExprs, Exec.evalGuards]
    exact ⟨hst, .value _⟩
  | cons ast asts =>
    rw [guardExprsFromAst] at h
    obtain ⟨e, keys₁, he, h⟩ := StateT.bind_eq_ok.mp h
    obtain ⟨es', keys₂, hes, h⟩ := StateT.bind_eq_ok.mp h
    cases StateT.pure_eq_ok.mp h
    obtain ⟨hp, hfirst⟩ := evalGuard_follows henv ast he
    obtain ⟨hp', hrest⟩ := evalGuards_follows henv asts hes
    refine ⟨hp.trans hp', fun hprepared st hst => ?_⟩
    rw [EachIntegerArith, evalExprs, Exec.evalGuards]
    refine (hfirst (hprepared.mono hp') st hst).bind (fun hq => hq.1) ?_
    intro v st' _ hst'
    refine (hrest hprepared st' hst').bind (fun hq => hq.2) ?_
    intro vs st'' _ hst''
    exact ⟨hst'', .value _⟩
end

theorem regionHit_guard {st : DispatchExecState} {s : SubjectId} {evidence : EdgeEvidence TH}
    {guard : GuardId} {e : PatternGuardExpr D} (hguard : plan.guards[guard]? = some e) :
    (Exec.regionHit rt runHelper plan ops s evidence (.guard guard) st).1 =
      match (Exec.evalGuard rt runHelper plan ops e st).1 with
      | .ok v => .ok v.isTruthy
      | .error .noMatch => .ok false
      | .error stop => .error stop := by
  simp only [Exec.regionHit, hguard]
  rw [ExecM.run_bind, orMiss]
  rcases Exec.evalGuard rt runHelper plan ops e st with ⟨r, st'⟩
  cases r with
  | ok v => rfl
  | error stop => cases stop <;> rfl

/-- A guard test answers yes only where its expression is true, and does where the expression is
true and its arithmetic is of integers.  Where an operator of the expression reports an error the
test answers no. -/
theorem guard_means_expression {ast : Expr C} {keys keys' : List GroundValue}
    {e : PatternGuardExpr D}
    (hlower : guardExprFromAst resolver bindings pinned ast keys = .ok (e, keys'))
    (henv : Environment rt runHelper resolver bindings pinned ops env)
    (hprepared : PreparedFor rt ops keys') {st : DispatchExecState}
    (hst : NamesHeld bindings env st) {guard : GuardId} (hguard : plan.guards[guard]? = some e)
    (s : SubjectId) (evidence : EdgeEvidence TH) :
    let hit := (Exec.regionHit rt runHelper plan ops s evidence (.guard guard) st).1
    let expr := evalExpr rt env .guard ast
    (hit = .ok true → ∃ v, expr = .ok v ∧ v.isTruthy) ∧
      (IntegerArith rt env ast → (∃ v, expr = .ok v ∧ v.isTruthy) → hit = .ok true) ∧
      (expr = .error (.fault .error) → hit = .ok false) := by
  intro hit expr
  have hrun : RunFollows bindings env (IntegerArith rt env ast) expr
      (Exec.evalGuard rt runHelper plan ops e st) :=
    (evalGuard_follows henv ast hlower).2 hprepared st hst
  have hhit : hit = match (Exec.evalGuard rt runHelper plan ops e st).1 with
      | .ok v => .ok v.isTruthy
      | .error .noMatch => .ok false
      | .error stop => .error stop := regionHit_guard hguard
  have hfollows := hrun.follows
  generalize (Exec.evalGuard rt runHelper plan ops e st).1 = g at hfollows hhit
  generalize expr = x at hfollows ⊢
  rw [hhit]
  cases hfollows with
  | value v =>
    refine ⟨fun h => ⟨v, rfl, Except.ok.inj h⟩, ?_, fun h => nomatch h⟩
    rintro _ ⟨w, hw, htruthy⟩
    cases hw
    exact congrArg Except.ok htruthy
  | raised r =>
    refine ⟨fun h => ?_, fun _ hv => ?_, fun h => ?_⟩
    · cases hr : r.asStop <;> rw [hr] at h <;> cases h
    · obtain ⟨v, hv, _⟩ := hv
      cases hv
    · cases h
      rfl
  | missed hfloat =>
    exact ⟨fun h => (nomatch h), fun hint => absurd hint hfloat, fun _ => rfl⟩

end Guards

def noCalls : PatternResolver Unit Unit Empty where
  structType _ := .ok ()
  guardCall _ _ := .ok none
  preparedKeys dispatch := nomatch dispatch

/-- `x + 1 > 1`. -/
def aboveOne : Expr Unit :=
  .binOp .gt (.binOp .add (.var "x") (.literal (.int 1))) (.literal (.int 1))

def aboveOneGuard : PatternGuardExpr Empty :=
  .binary .gt (.binary .add (.subject 0) (.const (.int 1))) (.const (.int 1))

/-- A plan whose one guard is this one. -/
def guardPlan (guard : PatternGuardExpr Empty) : PatternDispatchPlan Unit Empty where
  graph := ⟨[⟨0, .input 0⟩], [], 0, []⟩
  inputCount := 1
  outcomes := []
  guards := [guard]
  pinned := []
  preparedKeys := []

/-- `x` is 2. -/
def twoEnv : GuardEnv Unit := ⟨fun _ => .int 2, fun _ _ => .error .noMatch⟩

def twoState : DispatchExecState := ⟨[some (.runtime (.int 2))], []⟩

/-- A runtime for guards over integers. -/
def guardRuntime : Runtime Unit where
  overflowChecks := true
  floatOp _ x _ := x
  valueEqWidening _ _ := .error .error
  valueCmp _ _ := .error .error
  hostIsLittleEndian := true
  atomNames := ["nil", "true", "false"]
  valueEq _ _ := false
  typeMatches _ _ := .ok true
  typeMatches_word _ h := h

theorem guard_means_expression_aboveOne :
    (Exec.regionHit guardRuntime (fun dispatch _ _ => nomatch dispatch)
      (guardPlan aboveOneGuard) ⟨[], [], []⟩ 0 .empty (.guard 0) twoState).1 = .ok true := by
  have hlower : guardExprFromAst noCalls [("x", 0)] [] aboveOne [] = .ok (aboveOneGuard, []) := rfl
  have henv : Environment guardRuntime (fun dispatch _ _ => nomatch dispatch) noCalls [("x", 0)] []
      ⟨[], [], []⟩ twoEnv :=
    ⟨fun _ _ _ hpin => (nomatch hpin), fun _ dispatch => nomatch dispatch⟩
  have hst : NamesHeld [("x", 0)] twoEnv twoState := by
    intro name s hl
    obtain rfl : 0 = s := by
      rw [List.lookup_cons] at hl
      split at hl
      · exact Option.some.inj hl
      · cases hl
    exact ⟨.runtime (.int 2), rfl, rfl⟩
  have hints : IntegerArith guardRuntime twoEnv aboveOne := by
    refine ⟨⟨trivial, fun op' l hop hl _ => ⟨trivial, fun r hr _ => ?_⟩⟩,
      fun op' l hop _ _ => ⟨trivial, fun r _ harith => ?_⟩⟩
    · cases hl
      cases hr
      exact fun hfloat => hfloat.1.elim (fun h => nomatch h) fun h => nomatch h
    · cases hop
      cases harith
  exact (guard_means_expression hlower henv (fun _ _ hkey => nomatch hkey) hst rfl 0 .empty).2.1
    hints ⟨.ofBool true, rfl, rfl⟩

/-- `true or 1 + true`. -/
def trueOrError : Expr Unit :=
  .binOp .or (.literal (.bool true)) (.binOp .add (.literal (.int 1)) (.literal (.bool true)))

-- The guard stops at `true`; `eval_binop` is given both operands, and the right one is an error.
theorem guard_hides_error :
    ∃ e keys, guardExprFromAst noCalls [] [] trueOrError [] = .ok (e, keys) ∧
      ∀ rt : Runtime Unit, evalExpr rt twoEnv .expression trueOrError = .error (.fault .error) ∧
        (Exec.regionHit rt (fun dispatch _ _ => nomatch dispatch) (guardPlan e)
          ⟨[], [], []⟩ 0 .empty (.guard 0) twoState).1 = .ok true :=
  ⟨_, [], rfl, fun _ => ⟨rfl, rfl⟩⟩

end Fz.Dispatch
