/-!
# The trace of a run

A run can record what it does: calls and their results, bindings and faults, and conditions, in
this order of rising detail. Every event carries the number of calls that were open when it was
recorded. Messages hold the texts of the values they show, made at the time of recording.
-/

namespace Inkwell

/-- What a trace can say. -/
inductive Message where
  /-- A function with these parameters is called with these arguments. -/
  | called (parameters arguments : List String)
  /-- A call gives this result. -/
  | returned (result : String)
  /-- A name is bound to a value. -/
  | bound (name value : String)
  /-- A runtime error arises. -/
  | raised (message : String)
  /-- A choice has this condition, with this value. -/
  | tested (condition value : String) (truthy : Bool)
  deriving DecidableEq, Repr

/-- The least verbosity at which a message is recorded. -/
def Message.rank : Message → Nat
  | called _ _ => 1
  | returned _ => 1
  | bound _ _ => 2
  | raised _ => 2
  | tested _ _ _ => 3

/-- The text of a message. -/
def Message.text : Message → String
  | called parameters arguments =>
    "call fn(" ++ ", ".intercalate parameters ++ ") with (" ++ ", ".intercalate arguments ++ ")"
  | returned result => "return " ++ result
  | bound name value => "let " ++ name ++ " = " ++ value
  | raised message => "error: " ++ message
  | tested condition value truthy =>
    "if " ++ condition ++ " -> " ++ value ++ " (" ++ (if truthy then "truthy" else "falsy") ++ ")"

/-- A message and the number of calls that were open when it was recorded. -/
structure Event where
  /-- The number of open calls. -/
  indent : Nat
  /-- What happened. -/
  message : Message
  deriving DecidableEq, Repr

/-- The text of an event: two spaces for every open call, the message, and the end of the line. A
message of several lines is indented in its first line only. -/
def Event.text (event : Event) : String :=
  String.join (List.replicate event.indent "  ") ++ event.message.text ++ "\n"

/-- The text of a trace. -/
def Event.allText (events : List Event) : String := String.join (events.map Event.text)

end Inkwell
