import JsonRules.Proofs.BuiltinRegistry
import JsonRules.Proofs.DepthAccounting
import JsonRules.Proofs.Guarantee
import JsonRules.Proofs.RepeatedKeys
import JsonRules.Proofs.SessionFrames

/-!
Sessions of stateless operators.

Where no operator changes the state of the host, no command does either, and commands bring no such
operator in unless they register one (`Session.quiet_step`).  The reply to a run then depends on the
engine or the checked rule alone, and not on what was asked of the session before.
-/

namespace JsonRules

variable {σ : Type}

theorem Registry.stateless_standard : (Registry.standard : Registry σ).Stateless :=
  Registry.All.ofBuiltins (fun _ => trivial) Builtin.standard

/-- A command registers no operator that changes the state of the host. -/
def Command.Stateless : Command σ → Prop
  | .registerIn _ _ operator => (Operator.host operator).Stateless
  | .register _ _ operator => (Operator.host operator).Stateless
  | _ => True

namespace Session

/-- No operator of the session changes the state of the host. -/
structure Stateless (session : Session σ) : Prop where
  registries : ∀ id registry, Keyed.get? id session.registries = some registry →
    registry.Stateless
  engines : ∀ id engine, session.engine? id = some engine → engine.operators.Stateless
  checked : ∀ name checked, session.checked? name = some checked →
    checked.engine.operators.Stateless

theorem stateless_start (state : σ) : (start state).Stateless := by
  constructor <;> intro name stored hstored <;> cases hstored

variable {budget : Nat} {session : Session σ} {id : String}

theorem Stateless.putRegistry (h : session.Stateless) {registry : Registry σ}
    (hregistry : registry.Stateless) : (session.putRegistry id registry).Stateless :=
  ⟨Keyed.forall_get?_set h.registries id hregistry, h.engines, h.checked⟩

theorem Stateless.putEngine (h : session.Stateless) {engine : Engine σ}
    (hengine : engine.operators.Stateless) : (session.putEngine id engine).Stateless :=
  ⟨h.registries, Keyed.forall_get?_set h.engines id hengine, h.checked⟩

theorem Stateless.putChecked (h : session.Stateless) {checked : CheckedRule σ}
    (hchecked : checked.engine.operators.Stateless) :
    (session.putChecked id checked).Stateless :=
  ⟨h.registries, h.engines, Keyed.forall_get?_set h.checked id hchecked⟩

/-- What a command comes to changes neither the state of the host nor the statelessness. -/
structure Quiet (session : Session σ) (result : Reply σ × Session σ) : Prop where
  stateless : result.2.Stateless
  state : result.2.state = session.state

theorem quiet_withRegistry (h : session.Stateless) {work : Registry σ → Reply σ × Session σ}
    (hwork : ∀ registry, registry.Stateless → session.Quiet (work registry)) :
    session.Quiet (session.withRegistry id work) := by
  unfold withRegistry
  split
  · rename_i registry hget
    exact hwork registry (h.registries id registry hget)
  · exact ⟨h, rfl⟩

theorem quiet_withEngine (h : session.Stateless) {work : Engine σ → Reply σ × Session σ}
    (hwork : ∀ engine, engine.operators.Stateless → session.Quiet (work engine)) :
    session.Quiet (session.withEngine id work) := by
  unfold withEngine
  split
  · rename_i engine hget
    exact hwork engine (h.engines id engine hget)
  · exact ⟨h, rfl⟩

theorem quiet_withChecked (h : session.Stateless) {work : CheckedRule σ → Reply σ × Session σ}
    (hwork : ∀ checked, checked.engine.operators.Stateless → session.Quiet (work checked)) :
    session.Quiet (session.withChecked id work) := by
  unfold withChecked
  split
  · rename_i checked hget
    exact hwork checked (h.checked id checked hget)
  · exact ⟨h, rfl⟩

/-- A run of stateless operators leaves the session as it is. -/
theorem quiet_reported (h : session.Stateless) {engine : Engine σ}
    (hengine : engine.operators.Stateless) (rule data : Value) :
    session.Quiet (session.reported (engine.apply budget rule data session.state)) := by
  cases happly : engine.apply budget rule data session.state with
  | none => exact ⟨h, rfl⟩
  | some report =>
      have hstate : report.state = session.state :=
        evaluate_keepsState budget (show (engine.context data).operators.Stateless from hengine)
          rule 0 session.state report happly
      exact ⟨⟨h.registries, h.engines, h.checked⟩, hstate⟩

theorem quiet_step (h : session.Stateless) {command : Command σ} (hcommand : command.Stateless) :
    session.Quiet (session.step budget command) := by
  have hbuiltin : ∀ b, (Operator.builtin b : Operator σ).Stateless := fun _ => trivial
  have hsame : ∀ reply, session.Quiet (reply, session) := fun reply => ⟨h, rfl⟩
  have hput : ∀ (reply : Reply σ) (id : String) {registry : Registry σ}, registry.Stateless →
      session.Quiet (reply, session.putRegistry id registry) :=
    fun reply id registry hregistry => ⟨h.putRegistry hregistry, rfl⟩
  cases command with
  | newRegistry id content =>
      apply hput
      cases content with
      | empty => exact Registry.all_empty
      | standard => exact Registry.stateless_standard
      | named names => exact Registry.All.ofBuiltins hbuiltin _
  | registerIn id name operator =>
      exact quiet_withRegistry h fun registry hregistry =>
        hput _ id (Registry.All.insert hregistry name hcommand)
  | define id names =>
      exact quiet_withRegistry h fun registry hregistry =>
        hput _ id (Registry.All.foldl_define hregistry hbuiltin _)
  | copyOperator id source name =>
      apply quiet_withRegistry h
      intro registry hregistry
      cases hget : registry.get? source with
      | none => exact hsame _
      | some operator =>
          exact hput _ id (Registry.All.insert hregistry name (hregistry source operator hget))
  | removeFrom id name =>
      exact quiet_withRegistry h fun registry hregistry =>
        hput _ id (Registry.All.erase hregistry name)
  | lookIn id name => exact quiet_withRegistry h fun _ _ => hsame _
  | listRegistry id => exact quiet_withRegistry h fun _ _ => hsame _
  | newEngine id source options =>
      cases source with
      | none => exact ⟨h.putEngine Registry.stateless_standard, rfl⟩
      | some source =>
          exact quiet_withRegistry h fun registry hregistry => ⟨h.putEngine hregistry, rfl⟩
  | copyEngine id source =>
      exact quiet_withEngine h fun engine hengine => ⟨h.putEngine hengine, rfl⟩
  | setOptions id options =>
      exact quiet_withEngine h fun engine hengine => ⟨h.putEngine hengine, rfl⟩
  | register id name operator =>
      exact quiet_withEngine h fun engine hengine =>
        ⟨h.putEngine (Registry.All.insert hengine name hcommand), rfl⟩
  | showEngine id => exact quiet_withEngine h fun _ _ => hsame _
  | apply id rule data =>
      exact quiet_withEngine h fun engine hengine => quiet_reported h hengine rule data
  | check id name rule =>
      apply quiet_withEngine h
      intro engine hengine
      cases hcheck : engine.check rule with
      | error e => exact hsame _
      | ok checked =>
          obtain ⟨rfl, -⟩ := Engine.check_eq_ok_iff.1 hcheck
          exact ⟨h.putChecked hengine, rfl⟩
  | applyChecked id data =>
      exact quiet_withChecked h fun checked hchecked => quiet_reported h hchecked checked.rule data
  | ruleOf id => exact quiet_withChecked h fun _ _ => hsame _
  | hostState => exact hsame _

/-- Commands of stateless operators leave the state of the host as it is. -/
theorem quiet_after (h : session.Stateless) {commands : List (Command σ)}
    (hcommands : ∀ command ∈ commands, command.Stateless) :
    (session.after budget commands).Stateless ∧
      (session.after budget commands).state = session.state := by
  induction commands generalizing session with
  | nil => exact ⟨h, rfl⟩
  | cons command rest ih =>
      obtain ⟨hcommand, hrest⟩ := List.forall_mem_cons.1 hcommands
      have hstep : session.Quiet (session.step budget command) := quiet_step h hcommand
      obtain ⟨hlast, hstate⟩ := ih hstep.stateless hrest
      exact ⟨hlast, hstate.trans hstep.state⟩

end Session

end JsonRules
