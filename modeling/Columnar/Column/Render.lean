import Columnar.Value

/-!
# Columns as text

How columns, views, masks and scalars are shown. A column shows its storage, its type, its null
count and its first rows; a view shows the copy that it stands for, indented; and a list shows its
rows as views. Only the first rows are shown, and the rest is counted.

A column shows text rows as text, so a text row that is not UTF-8 is a fault here.
-/

namespace Columnar

/-- The rows that a column shows. -/
def previewRows : Nat := 50

/-- The bits that a mask shows. -/
def previewBits : Nat := 64

namespace Text

/-- Put the parts together, `separator` between them. -/
def join (separator : String) (parts : List String) : String := separator.intercalate parts

/-- The lines of a text. A line feed ends a line, and takes a carriage return before it with it. -/
def lines (text : String) : List String :=
  let rec go (line : List Char) : List Char → List String
    | [] => if line.isEmpty then [] else [String.ofList line.reverse]
    | '\n' :: rest =>
      let ended := match line with
        | '\r' :: before => before
        | _ => line
      String.ofList ended.reverse :: go [] rest
    | c :: rest => go (c :: line) rest
  go [] text.toList

/-- A text in double quotes. Quotes inside it stay as they are. -/
def quoted (text : String) : String := "\"" ++ text ++ "\""

end Text

/-! ## Masks -/

namespace Bitmask

def digits (m : Bitmask) : List String := m.toList.map fun b => if b then "1" else "0"

def renderAll (m : Bitmask) : String :=
  s!"Bitmask(len={m.len}, bits=" ++ Text.join "" m.digits ++ ")"

/-- The mask with its counts and its first bits. -/
def render (m : Bitmask) : String :=
  s!"Bitmask [{m.len} bits] (ones: {m.countOnes}, zeros: {m.countZeros})\n["
    ++ Text.join " " (m.digits.take previewBits)
    ++ (if previewBits < m.len then s!" … ({m.len} total)" else "") ++ "]"

end Bitmask

/-! ## Columns -/

namespace Column

/-- A header and the first rows, in brackets. Null rows show as such. -/
def renderRows (storage : Storage) (type : String) (length nulls : Nat)
    (row : Nat → Checked (Option String)) : Checked String := do
  let shown ← (List.range (min length previewRows)).mapM row
  return storage.name ++ s!" [{length} values] (dtype: " ++ type ++ s!", nulls: {nulls})\n["
    ++ Text.join ", " (shown.map (·.getD "null"))
    ++ (if previewRows < length then s!", … ({length} total)" else "") ++ "]"

def renderBool (b : Bool) : String := if b then "true" else "false"

/-- A view as text, from the text of the copy of its first rows. -/
def renderView (v : View) (shown : String) : String :=
  s!"ArrayView [{v.len} values] (offset: {v.offset}, nulls: {v.nullCount})\n"
    ++ Text.join "" ((Text.lines shown).map fun line => "  " ++ line ++ "\n")
    ++ (if previewRows < v.len then s!"  ... ({v.len - previewRows} more rows)\n" else "")

def render (c : Column) : Checked String :=
  match _ : c with
  | fixed t c =>
    let type := if t.format?.isSome then "float" else "int"
    renderRows (.ofFixed t) type c.length c.validity.nullCount fun i =>
      return (← c.get i).map t.render
  | boolean c =>
    renderRows .boolean "bool" c.length c.validity.nullCount fun i =>
      return (← c.get i).map renderBool
  | text _ c =>
    renderRows .string "string" c.length c.validity.nullCount fun i =>
      return (← c.get i).map Text.quoted
  | list rows child =>
    renderRows .list c.type.name rows.length rows.validity.nullCount fun i => do
      match ← listView rows child i with
      | none => return none
      | some v =>
        match _ : child.slice v.offset (min v.len previewRows) with
        | .ok part => return some (renderView v (← render part))
        | .error f => throw f
  | null .untyped => .ok "NullArray [0 values]"
  | null .numeric => .ok "NullNumericArray [0 values]"
  | null .text => .ok "NullTextArray [0 values]"
termination_by sizeOf c.type
decreasing_by
  rename_i hpart
  rw [type_slice hpart]
  simp [type]

end Column

def View.render (v : View) : Checked String := do
  let part ← v.column.slice v.offset (min v.len previewRows)
  return Column.renderView v (← part.render)

def Scalar.render : Scalar → Checked String
  | fixed t (some x) => .ok (t.render x)
  | boolean (some b) => .ok (Column.renderBool b)
  | text _ (some s) => .ok (Text.quoted s)
  | list _ (some c) => c.render
  | _ => .ok "null"

def Value.render : Value → Checked String
  | column v => v.render
  | scalar s => return "Scalar(" ++ (← s.render) ++ ")"

end Columnar
