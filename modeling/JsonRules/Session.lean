import JsonRules.Engine

/-!
Sessions.

A session holds registries, engines and checked rules under names, and the state of the host.  A
command works on them and gives a reply.  What is stored under a name is a value of its own: later
commands on other names do not change it.
-/

namespace JsonRules

/-- What a new registry holds. -/
inductive RegistryContent
  | empty
  | standard
  /-- The standard operators of these names, in this order. -/
  | named (names : List String)

/-- What can be asked of a session.  The first name is that of the thing the command works on. -/
inductive Command (σ : Type)
  | newRegistry (id : String) (content : RegistryContent)
  | registerIn (id : String) (name : String) (operator : HostOperator σ)
  | define (id : String) (names : List String)
  /-- Registers the operator of one name under another name too. -/
  | copyOperator (id : String) (source name : String)
  | removeFrom (id : String) (name : String)
  | lookIn (id : String) (name : String)
  | listRegistry (id : String)
  /-- Makes an engine over a registry as it is now, or over the standard operators. -/
  | newEngine (id : String) (registry : Option String) (options : Options)
  | copyEngine (id : String) (source : String)
  | setOptions (id : String) (options : Options)
  | register (id : String) (name : String) (operator : HostOperator σ)
  | showEngine (id : String)
  | apply (id : String) (rule data : Value)
  /-- Checks a rule with an engine, and stores it under a name if it passes. -/
  | check (id : String) (name : String) (rule : Value)
  | applyChecked (id : String) (data : Value)
  | ruleOf (id : String)
  | hostState

/-- What a command gives back. -/
inductive Reply (σ : Type)
  | done
  | noSuchId
  | size (n : Nat)
  /-- What is known of the operator that was replaced or found. -/
  | operator (signature : Option Signature)
  /-- Whether a copy replaced an operator, if there was something to copy. -/
  | copied (replaced : Option Bool)
  | removed (there : Bool)
  | registry (registry : Registry σ)
  | engine (engine : Engine σ)
  | report (report : Report σ Value)
  | refused (error : RuleError)
  | rule (rule : Value)
  | state (state : σ)
  /-- The run came to no answer. -/
  | stuck

/-- Registries, engines and checked rules by name, and the state of the host. -/
structure Session (σ : Type) where
  registries : List (String × Registry σ)
  engines : List (String × Engine σ)
  checked : List (String × CheckedRule σ)
  state : σ

namespace Session

variable {σ : Type}

def start (state : σ) : Session σ := ⟨[], [], [], state⟩

def putRegistry (session : Session σ) (id : String) (registry : Registry σ) : Session σ :=
  { session with registries := Keyed.set id registry session.registries }

def putEngine (session : Session σ) (id : String) (engine : Engine σ) : Session σ :=
  { session with engines := Keyed.set id engine session.engines }

def putChecked (session : Session σ) (id : String) (checked : CheckedRule σ) : Session σ :=
  { session with checked := Keyed.set id checked session.checked }

/-- Works on a stored registry. -/
def withRegistry (session : Session σ) (id : String) (work : Registry σ → Reply σ × Session σ) :
    Reply σ × Session σ :=
  match Keyed.get? id session.registries with
  | some registry => work registry
  | none => (.noSuchId, session)

def withEngine (session : Session σ) (id : String) (work : Engine σ → Reply σ × Session σ) :
    Reply σ × Session σ :=
  match Keyed.get? id session.engines with
  | some engine => work engine
  | none => (.noSuchId, session)

def withChecked (session : Session σ) (id : String)
    (work : CheckedRule σ → Reply σ × Session σ) : Reply σ × Session σ :=
  match Keyed.get? id session.checked with
  | some checked => work checked
  | none => (.noSuchId, session)

/-- The standard operators of the names that have one. -/
def builtins (names : List String) : List Builtin := names.filterMap Builtin.ofName?

def registryOf : RegistryContent → Registry σ
  | .empty => .empty
  | .standard => .standard
  | .named names => .ofBuiltins (builtins names)

/-- Stores a registry and replies with its size. -/
def putSized (session : Session σ) (id : String) (registry : Registry σ) :
    Reply σ × Session σ :=
  (.size registry.size, session.putRegistry id registry)

/-- Goes on with the state of the host that a run leaves. -/
def reported (session : Session σ) : Option (Report σ Value) → Reply σ × Session σ
  | some report => (.report report, { session with state := report.state })
  | none => (.stuck, session)

/-- Obeys a command. -/
def step (budget : Nat) (session : Session σ) : Command σ → Reply σ × Session σ
  | .newRegistry id content => session.putSized id (registryOf content)
  | .registerIn id name operator =>
    session.withRegistry id fun registry =>
      let (replaced, registry) := registry.register name (.host operator)
      (.operator (replaced.map Operator.signature), session.putRegistry id registry)
  | .define id names =>
    session.withRegistry id fun registry =>
      session.putSized id ((builtins names).foldl Registry.define registry)
  | .copyOperator id source name =>
    session.withRegistry id fun registry =>
      match registry.get? source with
      | none => (.copied none, session)
      | some operator =>
        let (replaced, registry) := registry.register name operator
        (.copied (some replaced.isSome), session.putRegistry id registry)
  | .removeFrom id name =>
    session.withRegistry id fun registry =>
      let (removed, registry) := registry.remove name
      (.removed removed.isSome, session.putRegistry id registry)
  | .lookIn id name =>
    session.withRegistry id fun registry =>
      (.operator ((registry.get? name).map Operator.signature), session)
  | .listRegistry id => session.withRegistry id fun registry => (.registry registry, session)
  | .newEngine id none options => (.done, session.putEngine id ⟨.standard, options⟩)
  | .newEngine id (some source) options =>
    session.withRegistry source fun registry => (.done, session.putEngine id ⟨registry, options⟩)
  | .copyEngine id source =>
    session.withEngine source fun engine => (.done, session.putEngine id engine)
  | .setOptions id options =>
    session.withEngine id fun engine => (.done, session.putEngine id (engine.withOptions options))
  | .register id name operator =>
    session.withEngine id fun engine =>
      let engine := engine.register name (.host operator)
      (.size engine.operators.size, session.putEngine id engine)
  | .showEngine id => session.withEngine id fun engine => (.engine engine, session)
  | .apply id rule data =>
    session.withEngine id fun engine =>
      session.reported (engine.apply budget rule data session.state)
  | .check id name rule =>
    session.withEngine id fun engine =>
      match engine.check rule with
      | .ok checked => (.done, session.putChecked name checked)
      | .error e => (.refused e, session)
  | .applyChecked id data =>
    session.withChecked id fun checked =>
      session.reported (checked.apply budget data session.state)
  | .ruleOf id => session.withChecked id fun checked => (.rule checked.rule, session)
  | .hostState => (.state session.state, session)

/-- Obeys commands one after another. -/
def runAll (budget : Nat) (session : Session σ) : List (Command σ) → List (Reply σ) × Session σ
  | [] => ([], session)
  | command :: rest =>
    let (reply, session) := session.step budget command
    let (replies, session) := session.runAll budget rest
    (reply :: replies, session)

end Session

end JsonRules
