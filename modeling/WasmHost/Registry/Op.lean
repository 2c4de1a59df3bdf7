import WasmHost.Spectest

/-!
# WasmHost.Registry.Op

Operations on one registry as data, so that whole linking histories can be spoken about.
-/

namespace WasmHost
namespace Registry

inductive Op where
  | define (key : ExportKey) (item : Extern)
  | resolve (key : ExportKey) (kind? : Option ExternKind)
  | contains (key : ExportKey)
  | overlay (target source : String)
  | spectest (module : String)
  deriving DecidableEq

inductive Answer where
  | done
  | item (item : Extern)
  | flag (b : Bool)
  | count (n : Nat)
  deriving DecidableEq

/-- Only the registration of the test module makes new objects in the store. -/
def perform (s : Store) (r : Registry) : Op → Outcome (Store × Registry) LinkError Answer
  | .define key item =>
    let (r, event) := r.define key item
    ⟨(s, r), .ok .done, [event]⟩
  | .resolve key kind? =>
    let (result, events) := r.resolve key kind?
    ⟨(s, r), result.map .item, events⟩
  | .contains key => ⟨(s, r), .ok (.flag (r.contains key)), []⟩
  | .overlay target source =>
    let (r, count, event) := r.overlay target source
    ⟨(s, r), .ok (.count count), [event]⟩
  | .spectest module => (Spectest.register s r module).map fun _ => .done

theorem state_perform_spectest (s : Store) (r : Registry) (module : String) :
    (perform s r (.spectest module)).state = (Spectest.register s r module).state := by
  simp only [perform, Outcome.map]

/-- Store, registry and events after a run of operations, failed ones among them. -/
def run (s : Store) (r : Registry) : List Op → Store × Registry × List Event
  | [] => (s, r, [])
  | op :: ops =>
    let o := perform s r op
    let (s, r, events) := run o.state.1 o.state.2 ops
    (s, r, o.events ++ events)

end Registry
end WasmHost
