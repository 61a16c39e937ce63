/-!
# Tracepoints
-/

namespace CausalTrace

/-- A named place in an instrumented program, and the fields it exports. -/
structure Tracepoint where
  name : String
  exports : List String
deriving DecidableEq, Repr, Inhabited

namespace Tracepoint

/-- The fields every place can export without extra work. -/
def defaultExports : List String :=
  ["host", "timestamp", "cpu", "thread_id", "proc_id", "proc_name"]

/-- A tracepoint that exports these fields, then the default ones it lacks. -/
def withDefaults (name : String) (exports : List String) : Tracepoint :=
  ⟨name, defaultExports.foldl (fun fs f => if fs.contains f then fs else fs ++ [f]) exports⟩

end Tracepoint

end CausalTrace
