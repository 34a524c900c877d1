import JsonnetNav.Document

/-! # Field scopes

The fields of an object, and of the objects it extends. A field scope is a row of
layers, one for each object, the extending object first; a name is looked up in the
first layer that has it, and there the last field of that name counts.
-/

namespace JsonnetNav

/-- A field under its name, with the object it belongs to. -/
structure FieldBinding where
  name : Text
  /-- The name in the key. -/
  id : Site
  /-- The field. -/
  target : Site
  owner : Site

/-- The fields of one object. -/
structure Layer where
  owner : Site
  /-- The fields with a fixed key, the last one first. -/
  bindings : List FieldBinding
  /-- How many objects this layer was put below. -/
  children : Nat := 0

/-- The layer of an object and the layers it extends. -/
structure FieldScope where
  layer : Layer
  outer : List Layer := []

/-- The field of an object at an index, bound to its name if its key is fixed. -/
def FieldBinding.ofField? (object : Site) (index : Nat) (f : Field) : Option FieldBinding :=
  let target := object.down ⟨.fields, index⟩ (.field f)
  f.key.id?.map fun id =>
    ⟨id.name, (target.part .key (.key f.key)).part .id (.fieldName id), target, object⟩

namespace FieldScope

/-- The fields of the object at a site. -/
def ofObject? (s : Site) : Option FieldScope :=
  match s.node with
  | .expr (.object _ _ _ fields) =>
    some ⟨⟨s, ((fields.mapIdx (FieldBinding.ofField? s)).filterMap id).reverse, 0⟩, []⟩
  | _ => none

/-- The layers of a scope, innermost first. -/
def layers (s : FieldScope) : List Layer :=
  s.layer :: s.outer

/-- The field under a name. -/
def get? (s : FieldScope) (name : Text) : Option FieldBinding :=
  s.layers.findSome? fun layer => layer.bindings.find? (·.name = name)

/-- The innermost layer of the child on top of all layers of the parent. -/
def extend (parent child : FieldScope) : FieldScope :=
  ⟨child.layer, { parent.layer with children := parent.layer.children + 1 } :: parent.outer⟩

end FieldScope

/-- The fields of the object at a site; unknown before the document is resolved. -/
def Document.fieldScope? (d : Document) (object : Site) : Option FieldScope :=
  if d.isResolved then FieldScope.ofObject? object else none

end JsonnetNav
