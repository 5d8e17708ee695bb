import LostUpdate.Race.Session

namespace LostUpdate

inductive Note
  | decodedAsLatin1 (file : String)
  | resolvedScopes (unresolved : Nat)
  | startedPath (path : PathId) (owner : Node)
  | checking (owner : Node)
  | found (v : Violation)
  | failed (file : String)

namespace Note

def lineText (n : Node) : String :=
  match n.span with
  | some s => toString s.line
  | none => "?"

def text : Note → String
  | decodedAsLatin1 file => "DEBUG awaitguard: Decoding " ++ file ++ " as latin1"
  | resolvedScopes unresolved =>
    "DEBUG awaitguard_scope: Resolved scopes, " ++ toString unresolved ++ " unresolved references"
  | startedPath path owner =>
    "DEBUG awaitguard_cfg: Code path " ++ path.text ++ " started at " ++ owner.kind
  | checking owner =>
    "DEBUG awaitguard_analysis: Checking resumable " ++ owner.form.ownName?.join.getD owner.kind ++
      " at line " ++ lineText owner
  | found v => "DEBUG awaitguard_analysis: Line " ++ toString v.line ++ ": " ++ v.message
  | failed file => "DEBUG awaitguard: Analysis of " ++ file ++ " failed"

/-- What is worth a note in an event that leads from one session to another. -/
def ofStep (e : Event) (before after : Session) : List Note :=
  match e with
  | .pathStart path owner _ =>
    startedPath path owner :: if after.tracker.references.isSome then [checking owner] else []
  | _ => (after.tracker.violations.drop before.tracker.violations.length).map found

/-- The notes on a walk, up to where it cannot go on. -/
def ofEvents (c : Subject) (s : Session) : List Event → List Note
  | [] => []
  | e :: rest =>
    match s.step c e with
    | (next, none) => ofStep e s next ++ ofEvents c next rest
    | (next, some _) => ofStep e s next

/-- The notes on the analysis of a whole program. -/
def ofProgram (t : Tree) (source : String) (shared : List String) : List Note :=
  match Scoping.ofTree t with
  | .error _ => []
  | .ok scoping =>
    resolvedScopes scoping.unresolved.length ::
      ofEvents ⟨scoping, some source, shared⟩ .initial t.root.events

end Note

end LostUpdate
