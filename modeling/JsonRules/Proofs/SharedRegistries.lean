import JsonRules.Proofs.Guarantee
import JsonRules.Proofs.RepeatedKeys
import JsonRules.Proofs.SessionFrames

/-!
Registries that are shared until they are written to.

Copying an engine and checking a rule need no copy of the registry: the copy and the checked rule
may own it together with the engine.  A registration then writes in place if the engine is the only
owner, and else to a copy that the engine owns from then on.  A session that stores registries in
this way is seen from outside as one in which every engine and every checked rule has its own
registry (`SharedSession.runAll_eq`).
-/

namespace JsonRules

variable {σ : Type}

/-- What an engine or a checked rule holds: a cell with a registry, which others may own too, and
options of its own. -/
structure Handle where
  cell : Nat
  options : Options

/-- A session whose engines and checked rules share registries. -/
structure SharedSession (σ : Type) where
  cells : Nat → Registry σ
  /-- How many cells have been given out so far. -/
  used : Nat
  registries : List (String × Registry σ)
  engines : List (String × Handle)
  checked : List (String × Value × Handle)
  state : σ

def Handle.engine (cells : Nat → Registry σ) (handle : Handle) : Engine σ :=
  ⟨cells handle.cell, handle.options⟩

namespace SharedSession

def write (cells : Nat → Registry σ) (cell : Nat) (registry : Registry σ) : Nat → Registry σ :=
  fun other => if other = cell then registry else cells other

def checkedRule (cells : Nat → Registry σ) (entry : Value × Handle) : CheckedRule σ :=
  ⟨entry.1, entry.2.engine cells⟩

def start (state : σ) : SharedSession σ := ⟨fun _ => .empty, 0, [], [], [], state⟩

/-- The session as it looks from outside. -/
def view (shared : SharedSession σ) : Session σ :=
  ⟨shared.registries, Keyed.mapValues (Handle.engine shared.cells) shared.engines,
    Keyed.mapValues (checkedRule shared.cells) shared.checked, shared.state⟩

/-- How many engines and checked rules own a cell. -/
def owners (shared : SharedSession σ) (cell : Nat) : Nat :=
  (shared.engines.map fun entry => entry.2.cell).count cell +
    (shared.checked.map fun entry => entry.2.2.cell).count cell

def putHandle (shared : SharedSession σ) (id : String) (handle : Handle) : SharedSession σ :=
  { shared with engines := Keyed.set id handle shared.engines }

def putChecked (shared : SharedSession σ) (name : String) (rule : Value) (handle : Handle) :
    SharedSession σ :=
  { shared with checked := Keyed.set name (rule, handle) shared.checked }

/-- Stores an engine that is the only owner of a new cell. -/
def putNew (shared : SharedSession σ) (id : String) (engine : Engine σ) : SharedSession σ :=
  { shared with
    cells := write shared.cells shared.used engine.operators
    used := shared.used + 1
    engines := Keyed.set id ⟨shared.used, engine.options⟩ shared.engines }

/-- Gives an engine another registry: in its cell if nothing else owns that, and else in a new
one. -/
def update (shared : SharedSession σ) (id : String) (handle : Handle) (registry : Registry σ) :
    SharedSession σ :=
  if shared.owners handle.cell = 1 then
    { shared with cells := write shared.cells handle.cell registry }
  else shared.putNew id ⟨registry, handle.options⟩

def withHandle (shared : SharedSession σ) (id : String)
    (work : Handle → Reply σ × SharedSession σ) : Reply σ × SharedSession σ :=
  match Keyed.get? id shared.engines with
  | some handle => work handle
  | none => (.noSuchId, shared)

/-- Obeys a command that leaves engines and checked rules as they are. -/
def obeyAsSeen (budget : Nat) (shared : SharedSession σ) (command : Command σ) :
    Reply σ × SharedSession σ :=
  let (reply, session) := shared.view.step budget command
  (reply, { shared with registries := session.registries, state := session.state })

/-- Obeys a command.  Only new engines and registrations need new cells. -/
def step (budget : Nat) (shared : SharedSession σ) : Command σ → Reply σ × SharedSession σ
  | .newEngine id none options => (.done, shared.putNew id ⟨.standard, options⟩)
  | .newEngine id (some source) options =>
    match Keyed.get? source shared.registries with
    | some registry => (.done, shared.putNew id ⟨registry, options⟩)
    | none => (.noSuchId, shared)
  | .copyEngine id source =>
    shared.withHandle source fun handle => (.done, shared.putHandle id handle)
  | .setOptions id options =>
    shared.withHandle id fun handle =>
      (.done, shared.putHandle id { handle with options := options })
  | .register id name operator =>
    shared.withHandle id fun handle =>
      let registry := (shared.cells handle.cell).insert name (.host operator)
      (.size registry.size, shared.update id handle registry)
  | .check id name rule =>
    shared.withHandle id fun handle =>
      match (handle.engine shared.cells).check rule with
      | .ok _ => (.done, shared.putChecked name rule handle)
      | .error e => (.refused e, shared)
  | command => shared.obeyAsSeen budget command

def runAll (budget : Nat) (shared : SharedSession σ) :
    List (Command σ) → List (Reply σ) × SharedSession σ
  | [] => ([], shared)
  | command :: rest =>
    let (reply, shared) := shared.step budget command
    let (replies, shared) := shared.runAll budget rest
    (reply :: replies, shared)

/-- All cells that are owned have been given out. -/
structure Sound (shared : SharedSession σ) : Prop where
  engines : ∀ entry ∈ shared.engines, entry.2.cell < shared.used
  checked : ∀ entry ∈ shared.checked, entry.2.2.cell < shared.used

theorem sound_start (state : σ) : (start state).Sound :=
  ⟨List.forall_mem_nil _, List.forall_mem_nil _⟩

variable {shared : SharedSession σ} {id : String}

/-- Writing to a cell makes no difference to handles of other cells. -/
theorem engine_write_of_ne {cells : Nat → Registry σ} {cell : Nat} {registry : Registry σ}
    {handle : Handle} (h : handle.cell ≠ cell) :
    handle.engine (write cells cell registry) = handle.engine cells := by
  rw [Handle.engine, write, if_neg h]
  rfl

theorem mapValues_engine_write {cells : Nat → Registry σ} {cell : Nat} {registry : Registry σ}
    {engines : List (String × Handle)} (h : ∀ entry ∈ engines, entry.2.cell ≠ cell) :
    Keyed.mapValues (Handle.engine (write cells cell registry)) engines =
      Keyed.mapValues (Handle.engine cells) engines :=
  Keyed.mapValues_congr fun entry hentry => engine_write_of_ne (h entry hentry)

theorem mapValues_checkedRule_write {cells : Nat → Registry σ} {cell : Nat}
    {registry : Registry σ} {checked : List (String × Value × Handle)}
    (h : ∀ entry ∈ checked, entry.2.2.cell ≠ cell) :
    Keyed.mapValues (checkedRule (write cells cell registry)) checked =
      Keyed.mapValues (checkedRule cells) checked := by
  apply Keyed.mapValues_congr
  intro entry hentry
  rw [checkedRule, engine_write_of_ne (h entry hentry)]
  rfl

/-- Writing to a cell that one engine of a list owns alone changes this engine and no other. -/
theorem mapValues_engine_write_of_count {cells : Nat → Registry σ} {registry : Registry σ}
    {engines : List (String × Handle)} {handle : Handle}
    (hhandle : Keyed.get? id engines = some handle)
    (hcount : (engines.map fun entry => entry.2.cell).count handle.cell = 1) :
    Keyed.mapValues (Handle.engine (write cells handle.cell registry)) engines =
      Keyed.set id ⟨registry, handle.options⟩ (Keyed.mapValues (Handle.engine cells) engines) := by
  induction engines with
  | nil => cases hhandle
  | cons entry rest ih =>
      obtain ⟨key, first⟩ := entry
      rw [Keyed.get?_cons] at hhandle
      rw [List.map_cons] at hcount
      rw [Keyed.mapValues_cons, Keyed.mapValues_cons, Keyed.set]
      by_cases hkey : key = id
      · rw [if_pos hkey, Option.some.injEq] at hhandle
        subst hhandle
        rw [List.count_cons_self, Nat.add_eq_right, List.count_eq_zero] at hcount
        have hrest : ∀ entry ∈ rest, entry.2.cell ≠ first.cell := fun entry hentry hcell =>
          hcount (List.mem_map.2 ⟨entry, hentry, hcell⟩)
        have hfirst : first.engine (write cells first.cell registry) =
            ⟨registry, first.options⟩ := by
          rw [Handle.engine, write, if_pos rfl]
        rw [if_pos hkey, mapValues_engine_write hrest, hfirst, hkey]
      · rw [if_neg hkey] at hhandle
        have hmem : handle.cell ∈ rest.map fun entry => entry.2.cell :=
          List.mem_map.2 ⟨_, Keyed.mem_of_get?_eq_some hhandle, rfl⟩
        have hpos := List.count_pos_iff.2 hmem
        have hfirst : first.cell ≠ handle.cell := by
          intro hcell
          rw [hcell, List.count_cons_self] at hcount
          omega
        rw [List.count_cons_of_ne hfirst] at hcount
        rw [if_neg hkey, engine_write_of_ne hfirst, ih hhandle hcount]

theorem Sound.putHandle (hsound : shared.Sound) {handle : Handle}
    (hcell : handle.cell < shared.used) : (shared.putHandle id handle).Sound := by
  refine ⟨fun entry hentry => ?_, hsound.checked⟩
  rcases Keyed.mem_of_mem_set hentry with rfl | hentry
  · exact hcell
  · exact hsound.engines entry hentry

theorem Sound.putChecked (hsound : shared.Sound) {handle : Handle}
    (hcell : handle.cell < shared.used) (name : String) (rule : Value) :
    (shared.putChecked name rule handle).Sound := by
  refine ⟨hsound.engines, fun entry hentry => ?_⟩
  rcases Keyed.mem_of_mem_set hentry with rfl | hentry
  · exact hcell
  · exact hsound.checked entry hentry

theorem Sound.putNew (hsound : shared.Sound) (engine : Engine σ) :
    (shared.putNew id engine).Sound := by
  constructor
  · intro entry hentry
    rcases Keyed.mem_of_mem_set hentry with rfl | hentry
    · exact Nat.lt_succ_self shared.used
    · exact Nat.lt_succ_of_lt (hsound.engines entry hentry)
  · intro entry hentry
    exact Nat.lt_succ_of_lt (hsound.checked entry hentry)

theorem Sound.update (hsound : shared.Sound) (handle : Handle) (registry : Registry σ) :
    (shared.update id handle registry).Sound := by
  unfold SharedSession.update
  split
  · exact ⟨hsound.engines, hsound.checked⟩
  · exact hsound.putNew ⟨registry, handle.options⟩

theorem view_putHandle (handle : Handle) :
    (shared.putHandle id handle).view = shared.view.putEngine id (handle.engine shared.cells) := by
  simp only [view, SharedSession.putHandle, Session.putEngine, Keyed.set_mapValues]

theorem view_putChecked (name : String) (rule : Value) (handle : Handle) :
    (shared.putChecked name rule handle).view =
      shared.view.putChecked name (checkedRule shared.cells (rule, handle)) := by
  simp only [view, SharedSession.putChecked, Session.putChecked, Keyed.set_mapValues]

/-- A new cell is not owned yet, so writing to it changes nothing that is there. -/
theorem view_putNew (hsound : shared.Sound) (engine : Engine σ) :
    (shared.putNew id engine).view = shared.view.putEngine id engine := by
  have hnew : Handle.engine (write shared.cells shared.used engine.operators)
      ⟨shared.used, engine.options⟩ = engine := by
    rw [Handle.engine, write, if_pos rfl]
  simp only [view, SharedSession.putNew, Session.putEngine]
  rw [← Keyed.set_mapValues, hnew,
    mapValues_engine_write fun entry hentry => Nat.ne_of_lt (hsound.engines entry hentry),
    mapValues_checkedRule_write fun entry hentry => Nat.ne_of_lt (hsound.checked entry hentry)]

/-- Whether in place or not, an update of an engine is seen by no other engine and by no checked
rule. -/
theorem view_update (hsound : shared.Sound) {handle : Handle}
    (hhandle : Keyed.get? id shared.engines = some handle) (registry : Registry σ) :
    (shared.update id handle registry).view =
      shared.view.putEngine id ⟨registry, handle.options⟩ := by
  by_cases howners : shared.owners handle.cell = 1
  · have hmem : handle.cell ∈ shared.engines.map fun entry => entry.2.cell :=
      List.mem_map.2 ⟨_, Keyed.mem_of_get?_eq_some hhandle, rfl⟩
    have hpos := List.count_pos_iff.2 hmem
    rw [owners] at howners
    have hchecked : ∀ entry ∈ shared.checked, entry.2.2.cell ≠ handle.cell := by
      have hzero : (shared.checked.map fun entry => entry.2.2.cell).count handle.cell = 0 := by
        omega
      intro entry hentry hcell
      exact List.count_eq_zero.1 hzero (List.mem_map.2 ⟨entry, hentry, hcell⟩)
    rw [SharedSession.update, if_pos (by rw [owners]; exact howners)]
    simp only [view, Session.putEngine]
    rw [mapValues_engine_write_of_count hhandle (by omega), mapValues_checkedRule_write hchecked]
  · rw [SharedSession.update, if_neg howners]
    exact view_putNew hsound ⟨registry, handle.options⟩

/-- The reply is as expected, and so is what the session looks like afterwards. -/
structure Matches (result : Reply σ × SharedSession σ) (expected : Reply σ × Session σ) :
    Prop where
  reply : result.1 = expected.1
  view : result.2.view = expected.2
  sound : result.2.Sound

theorem matches_withHandle (hsound : shared.Sound)
    {work : Handle → Reply σ × SharedSession σ} {expected : Engine σ → Reply σ × Session σ}
    (h : ∀ handle, Keyed.get? id shared.engines = some handle →
      Matches (work handle) (expected (handle.engine shared.cells))) :
    Matches (shared.withHandle id work) (shared.view.withEngine id expected) := by
  have hengine : Keyed.get? id shared.view.engines =
      (Keyed.get? id shared.engines).map (Handle.engine shared.cells) :=
    Keyed.get?_mapValues _ id shared.engines
  rw [withHandle, Session.withEngine, hengine]
  cases hhandle : Keyed.get? id shared.engines with
  | none => exact ⟨rfl, rfl, hsound⟩
  | some handle => exact h handle hhandle

theorem step_of_keepsTables {budget : Nat} {command : Command σ} (h : command.KeepsTables) :
    shared.step budget command = shared.obeyAsSeen budget command := by
  cases command with
  | newEngine id source options => exact h.elim
  | copyEngine id source => exact h.elim
  | setOptions id options => exact h.elim
  | register id name operator => exact h.elim
  | check id name rule => exact h.elim
  | _ => rfl

theorem matches_obeyAsSeen (hsound : shared.Sound) (budget : Nat) {command : Command σ}
    (hkeeps : command.KeepsTables) :
    Matches (shared.obeyAsSeen budget command) (shared.view.step budget command) := by
  have hkept : shared.view.KeepsTables (shared.view.step budget command).2 :=
    Session.keepsTables_step hkeeps
  rw [obeyAsSeen]
  generalize (shared.view.step budget command) = result at hkept
  obtain ⟨reply, registries, engines, checked, state⟩ := result
  obtain ⟨rfl, rfl⟩ := hkept
  exact ⟨rfl, rfl, hsound.engines, hsound.checked⟩

/-- One step of a session that shares registries is a step of the session as it looks from
outside. -/
theorem matches_step (hsound : shared.Sound) (budget : Nat) (command : Command σ) :
    Matches (shared.step budget command) (shared.view.step budget command) := by
  by_cases hkeeps : command.KeepsTables
  · rw [step_of_keepsTables hkeeps]
    exact matches_obeyAsSeen hsound budget hkeeps
  have hcell : ∀ {source : String} {handle : Handle},
      Keyed.get? source shared.engines = some handle → handle.cell < shared.used :=
    fun hhandle => hsound.engines _ (Keyed.mem_of_get?_eq_some hhandle)
  cases command with
  | newEngine id source options =>
      cases source with
      | none => exact ⟨rfl, view_putNew hsound _, hsound.putNew _⟩
      | some source =>
          rw [step, Session.step, Session.withRegistry, view]
          cases Keyed.get? source shared.registries with
          | none => exact ⟨rfl, rfl, hsound⟩
          | some registry => exact ⟨rfl, view_putNew hsound _, hsound.putNew _⟩
  | copyEngine id source =>
      apply matches_withHandle hsound
      intro handle hhandle
      exact ⟨rfl, view_putHandle handle, hsound.putHandle (hcell hhandle)⟩
  | setOptions id options =>
      apply matches_withHandle hsound
      intro handle hhandle
      have hkept := hcell hhandle
      exact ⟨rfl, view_putHandle _, hsound.putHandle hkept⟩
  | register id name operator =>
      apply matches_withHandle hsound
      intro handle hhandle
      exact ⟨rfl, view_update hsound hhandle _, hsound.update handle _⟩
  | check id name rule =>
      apply matches_withHandle hsound
      intro handle hhandle
      cases hcheck : (handle.engine shared.cells).check rule with
      | error e => exact ⟨rfl, rfl, hsound⟩
      | ok checked =>
          obtain ⟨rfl, -⟩ := Engine.check_eq_ok_iff.1 hcheck
          exact ⟨rfl, view_putChecked name rule handle, hsound.putChecked (hcell hhandle) name rule⟩
  | _ => exact absurd trivial hkeeps

/-- A session that shares registries gives the same replies as the session as it looks from
outside, whatever is asked of it. -/
theorem runAll_eq (hsound : shared.Sound) (budget : Nat) (commands : List (Command σ)) :
    (shared.runAll budget commands).1 = (shared.view.runAll budget commands).1 := by
  induction commands generalizing shared with
  | nil => rfl
  | cons command rest ih =>
      obtain ⟨hreply, hview, hnext⟩ := matches_step hsound budget command
      simp only [runAll, Session.runAll]
      rw [hreply, ih hnext, hview]

end SharedSession

end JsonRules
