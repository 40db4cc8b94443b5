/-!
# Outlines

An outline is the shape of a value as text: a single word, a named record of fields, a named
tuple, or a list. It is written on one line, or as a block in which every member stands on a line
of its own, indented by four spaces and closed by a comma.
-/

namespace BoundedCache

/-- The shape of a value as text. -/
inductive Outline where
  | atom (text : String)
  | record (name : String) (fields : List (String × Outline))
  | tuple (name : String) (items : List Outline)
  | list (items : List Outline)

namespace Outline

/-! ## Shapes of common values -/

/-- A number is its decimal digits. -/
def ofNat (value : Nat) : Outline :=
  atom (toString value)

/-- A number is its decimal digits, after a minus sign if it is negative. -/
def ofInt (value : Int) : Outline :=
  atom (toString value)

def ofBool (value : Bool) : Outline :=
  atom (if value then "true" else "false")

/-- A value that may be missing is a one-item tuple, or a single word. -/
def ofOption {α : Type} (shape : α → Outline) : Option α → Outline
  | none => atom "None"
  | some value => tuple "Some" [shape value]

def ofList {α : Type} (shape : α → Outline) (values : List α) : Outline :=
  list (values.map shape)

/-! ## One line -/

mutual

/-- The outline on one line, its members parted by commas. -/
def line : Outline → String
  | atom text => text
  | record name fields => name ++ " \x7b " ++ ", ".intercalate (fieldLines fields) ++ " \x7d"
  | tuple name items => name ++ "(" ++ ", ".intercalate (itemLines items) ++ ")"
  | list items => "[" ++ ", ".intercalate (itemLines items) ++ "]"

/-- Each field on one line, after its label. -/
def fieldLines : List (String × Outline) → List String
  | [] => []
  | (label, shape) :: rest => (label ++ ": " ++ shape.line) :: fieldLines rest

/-- Each item on one line. -/
def itemLines : List Outline → List String
  | [] => []
  | shape :: rest => shape.line :: itemLines rest

end

/-! ## Block -/

/-- Appends a comma to the last line of a member. -/
def closeMember : List String → List String
  | [] => []
  | [last] => [last ++ ","]
  | first :: rest => first :: closeMember rest

/-- Puts a label before the first line of a member. -/
def labelMember (label : String) : List String → List String
  | [] => []
  | first :: rest => (label ++ ": " ++ first) :: rest

/-- Indents a member by four spaces and closes it with a comma. -/
def memberLines (lines : List String) : List String :=
  (closeMember lines).map ("    " ++ ·)

mutual

/-- The lines of the outline as a block. A list without items stays on one line. -/
def blockLines : Outline → List String
  | atom text => [text]
  | record name fields => (name ++ " \x7b") :: (fieldBlocks fields ++ ["\x7d"])
  | tuple name items => (name ++ "(") :: (itemBlocks items ++ [")"])
  | list [] => ["[]"]
  | list (first :: rest) =>
      "[" :: (memberLines first.blockLines ++ itemBlocks rest ++ ["]"])

/-- The indented lines of all fields. -/
def fieldBlocks : List (String × Outline) → List String
  | [] => []
  | (label, shape) :: rest =>
      memberLines (labelMember label shape.blockLines) ++ fieldBlocks rest

/-- The indented lines of all items. -/
def itemBlocks : List Outline → List String
  | [] => []
  | shape :: rest => memberLines shape.blockLines ++ itemBlocks rest

end

/-- The outline as a block. -/
def block (shape : Outline) : String :=
  "\n".intercalate shape.blockLines

/-- The outline as text, as a block if `spread` is set and on one line otherwise. -/
def render (shape : Outline) (spread : Bool) : String :=
  if spread then shape.block else shape.line

end Outline

end BoundedCache
