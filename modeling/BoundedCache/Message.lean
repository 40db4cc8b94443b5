/-!
# Log messages

A message has a level and a text. Operations that have something to tell return what happened;
the message is read off that result.
-/

namespace BoundedCache

/-- How much detail a message belongs to. -/
inductive Level where
  | debug
  | trace
deriving DecidableEq

def Level.name : Level → String
  | .debug => "DEBUG"
  | .trace => "TRACE"

/-- One line of the log. -/
structure Message where
  level : Level
  text : String
deriving DecidableEq

/-- The level, a space and the text. -/
def Message.render (message : Message) : String :=
  message.level.name ++ " " ++ message.text

end BoundedCache
