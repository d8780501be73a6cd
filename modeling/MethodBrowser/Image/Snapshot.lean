import MethodBrowser.Image.Basic
import MethodBrowser.Json.Basic
import MethodBrowser.Json.Reader

/-!
# Snapshots

An image is kept between runs as a JSON document. Classes and methods are listed by name. A class
may leave out any of its fields; a method needs both its source and its category.
-/

namespace MethodBrowser

open Json (Fault RecordField Reader)

/-! ## Writing -/

def MethodEntry.toJson (m : MethodEntry) : Json :=
  .obj [("source", .str m.source), ("category", .str m.category)]

def Dictionary.toJson {α : Type} (f : α → Json) (d : Dictionary α) : Json :=
  .obj (d.entries.map fun e => (e.1, f e.2))

def ClassEntry.toJson (c : ClassEntry) : Json :=
  .obj [("superclass", Json.optional .str c.superclass), ("package", .str c.package),
    ("definition", .str c.definition), ("read_only", .bool c.readOnly),
    ("instance_methods", c.instanceMethods.toJson MethodEntry.toJson),
    ("class_methods", c.classMethods.toJson MethodEntry.toJson)]

namespace Image

def toJson (image : Image) : Json := .obj [("classes", image.classes.toJson ClassEntry.toJson)]

/-- The text of the snapshot of an image. -/
def snapshot (image : Image) : String := image.toJson.pretty

/-! ## Reading -/

/-- A method of which not all is known yet. -/
structure MethodDraft where
  source : Option String
  category : Option String

def methodFields : List (RecordField MethodDraft) :=
  [⟨"source", fun m cs => do
      let (s, cs) ← Json.readStr cs
      return ({ m with source := some s }, cs)⟩,
    ⟨"category", fun m cs => do
      let (s, cs) ← Json.readStr cs
      return ({ m with category := some s }, cs)⟩]

def readMethod : Reader MethodEntry := fun cs => do
  let (draft, cs) ← Json.readRecord methodFields ⟨none, none⟩ cs
  match draft with
  | ⟨some source, some category⟩ => return (⟨source, category⟩, cs)
  | _ => throw .mismatched

def classFields : List (RecordField ClassEntry) :=
  [⟨"superclass", fun c cs => do
      let (s, cs) ← Json.readStrOrNull cs
      return ({ c with superclass := s }, cs)⟩,
    ⟨"package", fun c cs => do
      let (s, cs) ← Json.readStr cs
      return ({ c with package := s }, cs)⟩,
    ⟨"definition", fun c cs => do
      let (s, cs) ← Json.readStr cs
      return ({ c with definition := s }, cs)⟩,
    ⟨"read_only", fun c cs => do
      let (b, cs) ← Json.readBool cs
      return ({ c with readOnly := b }, cs)⟩,
    ⟨"instance_methods", fun c cs => do
      let (d, cs) ← Json.readDictionary readMethod cs
      return ({ c with instanceMethods := d }, cs)⟩,
    ⟨"class_methods", fun c cs => do
      let (d, cs) ← Json.readDictionary readMethod cs
      return ({ c with classMethods := d }, cs)⟩]

def imageFields : List (RecordField Image) :=
  [⟨"classes", fun _ cs => do
      let (d, cs) ← Json.readDictionary (Json.readRecord classFields .blank) cs
      return (⟨d⟩, cs)⟩]

/-- The image whose snapshot is given. -/
def ofSnapshot (text : String) : Except Fault Image :=
  Json.readDocument (Json.readRecord imageFields .empty) text

end Image

end MethodBrowser
