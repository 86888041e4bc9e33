import JsonRules.Proofs.Admission

/-!
Marks and the events among them.

What a run leaves behind is made of the marks of its operations, each set between those of going in
and out, and placed in the operation around it.  Placing marks changes none of their events.
-/

namespace JsonRules

namespace Mark

/-- The marks of an operation below `depth` others whose operator leaves some marks. -/
def around (name : String) (count depth : Nat) (marks : List Mark) : List Mark :=
  .here (.depth (depth + 1)) :: .here (.event (.dispatch name count (depth + 1))) ::
    (marks ++ [.here (.depth depth)])

def events (marks : List Mark) : List Event :=
  marks.filterMap fun mark => mark.occurrence.event?

theorem events_append (marks others : List Mark) :
    events (marks ++ others) = events marks ++ events others :=
  List.filterMap_append

theorem events_within (position : Nat) (marks : List Mark) :
    events (marks.map (within position)) = events marks := by
  rw [events, List.filterMap_map]
  rfl

theorem events_around (name : String) (count depth : Nat) (marks : List Mark) :
    events (around name count depth marks) =
      .dispatch name count (depth + 1) :: events marks := by
  have hlast : events [.here (.depth depth)] = [] := rfl
  have hinner : events (marks ++ [.here (.depth depth)]) = events marks := by
    rw [events_append, hlast, List.append_nil]
  rw [← hinner]
  rfl

theorem events_event (event : Event) (marks : List Mark) :
    events (.here (.event event) :: marks) = event :: events marks := rfl

theorem events_refusal (e : RuleError) : events e.refusal = e.events := by
  have hevents : ∀ list : List Event,
      events (list.map fun event => .here (.event event)) = list := by
    intro list
    induction list with
    | nil => rfl
    | cons event rest ih => rw [List.map_cons, events_event, ih]
  rw [RuleError.refusal, events_append, hevents]
  exact List.append_nil _

end Mark

end JsonRules
