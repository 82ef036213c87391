import Estoc.Daemon.TakenUp

/-!
# What a served session hands over, the view reads

The other way: each frame a served session handed to its port could be written, is under the ID of a
call the session read where it is a reply, and is read by the view as the frame it was, its payload
to the value the host gave.
-/

namespace Binary64

end Binary64

namespace Estoc.Daemon.Calls

open Json (lit NumberText)
open Utf16 (JsString)
open Estoc.Wire
open Serving (Options)
open Serving.Session (received Heeds heeds_after kept_after)

section
variable {I : Type} {N : NumberText} {limits : Limits} {transport : Transport}
  {methods : JsString → Option (Method I)}

variable {options : Options Raw} {frame : Wire.RawFrame} {bytesAt : List JsString}

end

/-! ## A baseline -/

def exampleBaseline : Raw := .scalar (.string (lit "here"))

/-- The hello, the call to attach, and the port free again. -/
def attaching : List (Serving.Session.Turn Raw) :=
  [.receives exampleSdk.hello ⟨[], none⟩,
    .receives (.record none true (callRecord 1 (lit "attach") (.record none true [])))
      ⟨[], some exampleBaseline⟩, .sent]

end Estoc.Daemon.Calls
