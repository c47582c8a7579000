import RecordCache.Outcome

/-!
# The error hook

Reports go to the hook that was installed last. Without one, and after a reset, they are only
logged, and nobody sees them.

* `Hook.Event`: what happens to the hook;
* `Hook.delivered`: which hook sees which report.
-/

namespace RecordCache
namespace Hook

/-- Something that happens to the hook. -/
inductive Event
  | install (name : String)
  | reset
  | report (report : Report)

/-- A report with the name of the hook that sees it. -/
structure Delivery where
  hook : String
  report : Report

/-- The reports seen by hooks, in order, when `installed` is the hook at the start. -/
def delivered (installed : Option String) : List Event → List Delivery
  | [] => []
  | .install name :: events => delivered (some name) events
  | .reset :: events => delivered none events
  | .report report :: events =>
    match installed with
    | some name => ⟨name, report⟩ :: delivered installed events
    | none => delivered installed events

end Hook
end RecordCache
