import DataParallel.Lowering.Phases.State

/-! Completion of expressions, and forcing.

A call that forces its arguments demands that every part of them that its parameter type treats as
an aggregate is complete. Forcing looks through tuples and closures that names are bound to, so each
function takes the number of steps it may still go down. -/

namespace DataParallel.Phases

/-- What a parameter type demands of an argument; a type variable demands what the argument is. -/
def resolveDemand (demand actual : Ty) : Ty :=
  if demand.variableName?.isSome then actual else demand

/-- What a demand on a tuple asks of its fields. -/
def fieldDemands (demand : Ty) (fields : List Expr) : List Ty :=
  match demand.fields? with
  | some demands => if demands.length = fields.length then demands else fields.map Expr.ty
  | none => fields.map Expr.ty

def joinAll (results : List (Expr × Completion)) : List Expr × Completion :=
  (results.map Prod.fst, Completion.all (results.map Prod.snd))

def cyclic {α : Type} (e : Expr) : Analysis α := throw (.cyclicValue e.render)

mutual

/-- Reads names through what stands for them and works out the completion of the value. -/
def analyze (context : Context) : Nat → Expr → Analysis (Expr × Completion)
  | 0, e => cyclic e
  | n + 1, e =>
    match e with
    | .name .. => do
      let state ← get
      let current := state.current e
      return (current, state.completionOfValue current)
    | .literal .. => return (e, .complete)
    | .tuple elements typing => do
      let (elements, completion) := joinAll (← elements.mapM (analyze context n))
      return (.tuple elements typing, completion)
    -- only the call that runs a closure forces what it captured
    | .closure function captured typing => do
      let (captured, _) := joinAll (← captured.mapM (analyze context n))
      return (.closure function captured typing, .complete)
    | .apply function arguments typing => analyzeCall context n function arguments typing

def analyzeCall (context : Context) :
    Nat → (function : Expr) → (arguments : List Expr) → Typing → Analysis (Expr × Completion)
  | 0, function, arguments, typing => cyclic (.apply function arguments typing)
  | n + 1, function, arguments, typing =>
    match function.symbol? with
    | none =>
      throw (.malformedApplication (Expr.apply function arguments typing).render
        "the called function is not a name")
    | some callee =>
      if callee = Name.Snippet.makeTuple then do
        let (arguments, completion) := joinAll (← arguments.mapM (analyze context n))
        return (.apply function arguments typing, completion)
      else match Name.Snippet.projection? callee with
        | some index => do
          let (arguments, completion) := joinAll (← arguments.mapM (analyze context n))
          let state ← get
          let field := do
            let source ← arguments.head?
            let fields ← state.componentsOf? (← source.symbol?)
            fields[index]?
          return (.apply function arguments typing,
            (field.map state.completionOfValue).getD completion)
        | none =>
          if callee = Name.Snippet.phaseBoundary || callee = Name.Snippet.makeSequence then do
            let (arguments, _) := joinAll (← arguments.mapM (analyze context n))
            return (.apply function arguments typing, .complete)
          else do
            let signature ← context.registry.lookup callee
            match signature.ty.instantiate? (arguments.map Expr.ty) with
            | none =>
              throw (.malformedApplication callee
                ("arguments (" ++ Ty.renderList (arguments.map Expr.ty) ++ ") do not fit " ++
                  signature.ty.render))
            | some (parameters, _) =>
              match signature.synchronization with
              | .forces =>
                let arguments ← (arguments.zip parameters).mapM fun (argument, parameter) =>
                  force context n argument parameter
                return (.apply function arguments typing, .complete)
              | .propagates =>
                let (arguments, _) := joinAll (← arguments.mapM (analyze context n))
                return (.apply function arguments typing,
                  if typing.ty.isAggregate then .incomplete else .complete)
              | .inert =>
                let (arguments, _) := joinAll (← arguments.mapM (analyze context n))
                return (.apply function arguments typing, .complete)

/-- Makes a value complete in every part that a demand treats as an aggregate. -/
def force (context : Context) : Nat → Expr → Ty → Analysis Expr
  | 0, e, _ => cyclic e
  | n + 1, e, demand =>
    match e with
    | .name symbol _ => do
      let current := (← get).current e
      let forced ← forceName context n current demand
      if forced ≠ current then modify (·.substitute symbol forced)
      return forced
    | .literal .. => return e
    | .tuple elements typing => do
      let demands := fieldDemands (resolveDemand demand typing.ty) elements
      let elements ← (elements.zip demands).mapM fun (element, demand) =>
        force context n element demand
      return .tuple elements typing
    | .closure function captured typing => do
      let captured ← captured.mapM fun value => force context n value value.ty
      return .closure function captured typing
    | .apply function arguments typing => do
      let (value, completion) ← analyzeCall context n function arguments typing
      if completion = .incomplete && (resolveDemand demand value.ty).isAggregate then
        -- a pending call has no name to realize yet
        let temporary ← bindTemporary context.entry value completion
        forceName context n temporary demand
      else return value

def forceName (context : Context) : Nat → Expr → Ty → Analysis Expr
  | 0, e, _ => cyclic e
  | n + 1, e, demand =>
    match e.symbol? with
    | none => return e
    | some symbol => do
      let state ← get
      match state.closureOf? symbol with
      | some closure =>
        let forced ← force context n closure closure.ty
        if forced = closure then return e else rebuildClosure symbol e forced
      | none =>
        let demand := resolveDemand demand e.ty
        if !demand.isAggregate then return e
        else match state.componentsOf? symbol with
          | some fields =>
            let forced ← (fields.zip (fieldDemands demand fields)).mapM fun (field, demand) =>
              force context n field demand
            if forced = fields then return e else rebuildTuple symbol forced e.typing
          | none => if state.completionOf symbol = .incomplete then realize e else return e

end

/-- The storage behind a value, where there is one. -/
def storageOf (state : State) (e : Expr) : Except LoweringError Expr :=
  if e.needsContainer && e.symbol?.any fun symbol => state.completions.contains (Name.container symbol)
  then e.containerOf
  else return e

/-- The form of a value that the entry procedure may hand to its caller: complete, and with storage
behind every sequence. The result of a call of the entry procedure by itself is handed back by
another return, which is forced where it stands. -/
def forceReturned (context : Context) : Nat → Expr → Analysis Expr
  | 0, e => cyclic e
  | n + 1, e =>
    match e with
    | .name symbol _ => do
      let state ← get
      let current := state.current e
      if symbol ∈ state.selfResults then return current
      else match current.symbol? with
        | none => return current
        | some symbol =>
          match state.componentsOf? symbol with
          | some fields =>
            let forced ← fields.mapM (forceReturned context n)
            let state ← get
            if forced = fields && state.isBacked current then return current
            else
              let fields ← forced.mapM fun field => storageOf state field
              let layout := (Expr.layouts? fields).map Layout.tuple
              rebuildTuple symbol fields ⟨current.ty, layout⟩
          | none =>
            if state.completionOf symbol = .incomplete || !state.isBacked current then
              realize current
            else return current
    | .literal .. => return e
    | .tuple elements typing => return .tuple (← elements.mapM (forceReturned context n)) typing
    | .closure .. => return (← analyze context n e).1
    | .apply function arguments typing => do
      let (value, completion) ← analyzeCall context n function arguments typing
      if function.symbol? = some context.entry || !value.needsContainer then return value
      else
        let temporary ← bindTemporary context.entry value completion
        forceReturned context n temporary

end DataParallel.Phases
