import Cascade.Engine.Operations

/-!
# Runs of the engine

The operations of a host as data, so that a run is a list of commands.
-/

namespace Cascade

/-- An operation with its arguments. -/
inductive Command where
  | register (key : String) (initial : Value) (inheritable : Bool)
  | insert (e : Element)
  | destroy (h : Handle)
  | attach (child parent : Handle)
  | detach (child : Handle)
  /-- Takes note that element data changed. -/
  | noteChange (h : Handle)
  /-- Changes element data and takes note of it. -/
  | edit (h : Handle) (c : Element.Edit)
  /-- Changes element data behind the engine's back. -/
  | editUnnoted (h : Handle) (c : Element.Edit)
  | assignSheet (h : Handle) (sheet : Option Sheet)
  | setInline (h : Handle) (inline : List Declaration)
  | addSheet (sheet : Sheet)
  | removeSheet (id : SheetId)
  | registerOverlay (h : Handle) (name : String)
  | setOverlay (h : Handle) (name : String) (enabled : Bool) (blend : Float32)
  | takeDiagnostics

/-- What an operation gives back if it does not fail. -/
inductive Reply where
  | done
  | property (id : PropertyId)
  | element (h : Handle)
  | sheet (id : SheetId)
  /-- The number of the new local sheet, if there is one. -/
  | localSheet (id : Option SheetId)
  /-- Whether element data changed, if the element is there. -/
  | changed (b : Option Bool)
  | diagnostics (ds : List Diagnostic)
  deriving DecidableEq, Inhabited

namespace Engine

/-- The outcome of an operation with its result as a reply. -/
def replying {α : Type} (f : α → Reply) (o : Outcome α) : Outcome Reply := (o.1.map f, o.2)

/-- Carries out a command. -/
def perform (g : Engine) : Command → Outcome Reply
  | .register key initial inheritable => replying .property (g.register key initial inheritable)
  | .insert e => let (h, g) := g.insert e; (.ok (.element h), g)
  | .destroy h => replying (fun _ => .done) (g.destroy h)
  | .attach child parent => replying (fun _ => .done) (g.attach child parent)
  | .detach child => replying (fun _ => .done) (g.detach child)
  | .noteChange h => replying (fun _ => .done) (g.noteChange h)
  | .edit h c => replying (fun _ => .done) (g.edit h c)
  | .editUnnoted h c => let (b, g) := g.editUnnoted h c; (.ok (.changed b), g)
  | .assignSheet h sheet => replying .localSheet (g.assignSheet h sheet)
  | .setInline h inline => replying (fun _ => .done) (g.setInline h inline)
  | .addSheet sheet => let (id, g) := g.addSheet sheet; (.ok (.sheet id), g)
  | .removeSheet id => replying (fun _ => .done) (g.removeSheet id)
  | .registerOverlay h name => replying (fun _ => .done) (g.registerOverlay h name)
  | .setOverlay h name enabled blend => replying (fun _ => .done) (g.setOverlay h name enabled blend)
  | .takeDiagnostics => let (ds, g) := g.takeDiagnostics; (.ok (.diagnostics ds), g)

/-- The engine after a command. -/
def after (g : Engine) (c : Command) : Engine := (g.perform c).2

/-- The engine after a list of commands. -/
def run (g : Engine) (cs : List Command) : Engine := cs.foldl after g

end Engine
end Cascade
